import Spider.Node.Commands

/-!
# Spider.Node.Answers

A node on which nothing fails: the answers of a working disk, an honest origin
and given peers, for runs on concrete inputs.
-/

namespace Spider

open Conc

/-- What lies outside a node: the peers known for a hash, what each of them
does with a request, and the files of the origin. -/
structure World where
  candidates : Str → List Str
  reply : Str → Str → Int → PeerReply
  files : List (Str × Bytes)

/-- The content of a file at the origin. -/
def World.origin (W : World) (path : Str) : Bytes := (W.files.lookup path).getD []

/-- No peers, and an origin with these files. -/
def World.originOnly (files : List (Str × Bytes)) : World where
  candidates _ := []
  reply _ _ _ := .stream [] .eof
  files := files

def answerStore (s : Store) : (c : StoreCmd) → c.Resp
  | .lockHash _ | .unlockHash _ _ => ()
  | .statPartial h => match s.partials h with
      | some b => .size b.length
      | none => .absent
  | .removePartial h => if (s.partials h).isSome then .removed else .absent
  | .mkdirPartialDir | .openPartial _ | .syncPartial _ | .closePartial _ | .openVerify _
  | .mkdirShard _ | .renamePartial _ | .readChunk _ | .saveManifest _ => none
  | .writePartial _ _ => none
  | .readPartial h => .ok ((s.partials h).getD [])
  | .statChunk h => match s.chunks.lookup h with
      | some b => .size b.length
      | none => .absent
  | .openChunk h => match s.chunks.lookup h with
      | some b => .content b
      | none => .absent
  | .deleteChunk h => if (s.chunks.lookup h).isSome then .removed else .absent
  | .listChunks => some s.chunks.keys

def answerQuota (q : Quota) : (c : QuotaCmd) → c.Resp
  | .lockQuota | .unlockQuota | .setIndex _ | .markDirty => ()
  | .getIndex => q.index
  | .getDirty => q.dirty
  | .saveIndex => none
  | .loadIndex => q.saved.isSome
  | .now => 0
  | .orderByAccess cands => cands.insertionSort fun a b => a.2.lastAccess ≤ b.2.lastAccess

def answerJob (j : Job) : (c : JobCmd) → c.Resp
  | .ctxErr => none
  | .nextItem => j.queue.head?
  | .loadErr => j.downloadErr
  | .loadCounters => j.counters
  | .pickJob => none
  | .skip _ | .startWorkers _ _ | .awaitStart | .storeErr _ | .credit _ _ | .workerDone
  | .waitWorkers => ()

def answerNet (W : World) : (c : NetCmd) → c.Resp
  | .candidates h => W.candidates h
  | .beginTransfer _ => true
  | .openStream addr h offset => W.reply addr h offset
  | .joinDownloader _ | .releaseOrigin => ()
  | .backoff | .acquireOrigin => none
  | .readOrigin path offset n =>
      let data := ((W.origin path).drop offset.toNat).take n.toNat
      ⟨if data = [] then [] else [data], n, none⟩
  | .listFiles _ => .ok (W.files.map fun f => ⟨f.1, Int64.ofNat f.2.length, []⟩)
  | .openSource path => .ok ⟨[W.origin path], .eof, false⟩

def answerDest (d : Dest) : (c : DestCmd) → c.Resp
  | .mkdirAll _ | .openTarget _ | .chmodTarget _ _ => none
  | .removeTarget p => if (d.entries.lookup p).isSome then .removed else .absent
  | .writeTarget _ _ => none

/-- The answers of a node on which nothing fails. -/
def World.answer (W : World) : (c : Cmd) → Node → c.Resp
  | .store c, s => answerStore s.store c
  | .quota c, s => answerQuota s.quota c
  | .job c, s => answerJob s.job c
  | .net c, _ => answerNet W c
  | .dest c, s => answerDest s.dest c
  | .link _ _, _ => none

/-- A node with nothing on it. -/
def emptyNode : Node where
  store := ⟨∅, fun _ => none, fun _ => none, fun _ => false, fun _ => false⟩
  quota := ⟨⟨∅, ∅⟩, none, false, none⟩
  job := .fresh
  net := ⟨4, []⟩
  dest := ⟨∅, []⟩

end Spider

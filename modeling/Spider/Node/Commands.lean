import Spider.Node.State

/-!
# Spider.Node.Commands

The commands of a node, what each of them can answer in a state, and what it
does to the state (`nodeSystem`).

`execStore`, `execQuota`, `execJob`, `execNet` and `execDest` each work on
their own part of the node, so a command leaves every other part alone
(`nodeExec_store` and its siblings).  A hard link reads the store and changes
the destination; the linked file is modelled as a file of its own, so writing
through it would not be seen by the store.
-/

namespace Spider

open Conc Stream

/-! ## The chunk store -/

inductive StoreCmd where
  | lockHash (h : Str)
  /-- The deferred unlock of a function that returns `res`. -/
  | unlockHash (h : Str) (res : Option Err)
  | statPartial (h : Str)
  | removePartial (h : Str)
  | mkdirPartialDir
  | openPartial (h : Str)
  | writePartial (h : Str) (block : Bytes)
  | syncPartial (h : Str)
  | closePartial (h : Str)
  | openVerify (h : Str)
  | readPartial (h : Str)
  | mkdirShard (h : Str)
  | renamePartial (h : Str)
  | statChunk (h : Str)
  | openChunk (h : Str)
  /-- A read from an open chunk; it can only fail, the bytes are those of the
  opened file. -/
  | readChunk (h : Str)
  | deleteChunk (h : Str)
  | listChunks
  /-- Write the manifest file of an artifact; the manifests directory is not part
  of the state. -/
  | saveManifest (id : Str)

abbrev StoreCmd.Resp : StoreCmd → Type
  | .lockHash _ | .unlockHash _ _ => Unit
  | .statPartial _ | .statChunk _ => Stat
  | .removePartial _ | .deleteChunk _ => Removal
  | .mkdirPartialDir | .openPartial _ | .syncPartial _ | .closePartial _ | .openVerify _
  | .mkdirShard _ | .renamePartial _ | .readChunk _ | .saveManifest _ => Option Str
  | .writePartial _ _ => Option ShortWrite
  | .readPartial _ => Except Str Bytes
  | .openChunk _ => Opened
  | .listChunks => Option (List Str)

/-- Set the partial of `h`. -/
def Store.setPartial (s : Store) (h : Str) (p : Option Bytes) : Store :=
  { s with partials := Function.update s.partials h p }

/-- Append to the partial of `h`; a file that has been unlinked is written to
no effect. -/
def Store.appendTo (s : Store) (h : Str) (b : Bytes) : Store :=
  match s.partials h with
  | some p => s.setPartial h (some (p ++ b))
  | none => s

def execStore (t : Tid) : (c : StoreCmd) → c.Resp → Store → Option Store
  | .lockHash h, (), s =>
      if s.locks h = none then
        some { s with
          locks := Function.update s.locks h (some t)
          inserted := Function.update s.inserted t false
          removeFailed := Function.update s.removeFailed t false }
      else none
  | .unlockHash h _, (), s => some { s with locks := Function.update s.locks h none }
  | .statPartial h, .size n, s => if (s.partials h).map List.length = some n then some s else none
  | .statPartial h, .absent, s => if s.partials h = none then some s else none
  | .statPartial _, .failed _, s => some s
  | .removePartial h, .removed, s =>
      if (s.partials h).isSome then
        some { s.setPartial h none with removeFailed := Function.update s.removeFailed t false }
      else none
  | .removePartial h, .absent, s =>
      if s.partials h = none then
        some { s with removeFailed := Function.update s.removeFailed t false }
      else none
  | .removePartial _, .failed _, s =>
      some { s with removeFailed := Function.update s.removeFailed t true }
  | .mkdirPartialDir, _, s => some s
  | .openPartial h, none, s => some (s.setPartial h (some ((s.partials h).getD [])))
  | .openPartial _, some _, s => some s
  | .writePartial h b, none, s => some (s.appendTo h b)
  | .writePartial h b, some e, s =>
      if e.written ≤ b.length then some (s.appendTo h (b.take e.written)) else none
  | .syncPartial _, _, s => some s
  | .closePartial _, _, s => some s
  | .openVerify h, none, s => if (s.partials h).isSome then some s else none
  | .openVerify _, some _, s => some s
  | .readPartial h, .ok b, s => if s.partials h = some b then some s else none
  | .readPartial _, .error _, s => some s
  | .mkdirShard _, _, s => some s
  | .renamePartial h, none, s =>
      match s.partials h with
      | some b =>
          some { s.setPartial h none with
            chunks := s.chunks.insert h b
            inserted := Function.update s.inserted t true }
      | none => none
  | .renamePartial _, some _, s => some s
  | .statChunk h, .size n, s =>
      if (s.chunks.lookup h).map List.length = some n then some s else none
  | .statChunk h, .absent, s => if s.chunks.lookup h = none then some s else none
  | .statChunk _, .failed _, s => some s
  | .openChunk h, .content b, s => if s.chunks.lookup h = some b then some s else none
  | .openChunk h, .absent, s => if s.chunks.lookup h = none then some s else none
  | .openChunk _, .failed _, s => some s
  | .readChunk _, _, s => some s
  | .deleteChunk h, .removed, s =>
      if (s.chunks.lookup h).isSome then some { s with chunks := s.chunks.erase h } else none
  | .deleteChunk h, .absent, s => if s.chunks.lookup h = none then some s else none
  | .deleteChunk _, .failed _, s => some s
  | .listChunks, some hs, s => if hs.isPerm s.chunks.keys then some s else none
  | .listChunks, none, s => some s
  | .saveManifest _, _, s => some s

/-! ## The quota manager -/

/-- An entry of the index with its key. -/
abbrev Candidate := Str × ChunkMeta

inductive QuotaCmd where
  | lockQuota
  | unlockQuota
  | getIndex
  | setIndex (i : Index)
  | getDirty
  | markDirty
  | saveIndex
  | loadIndex
  | now
  | orderByAccess (cands : List Candidate)

abbrev QuotaCmd.Resp : QuotaCmd → Type
  | .lockQuota | .unlockQuota | .setIndex _ | .markDirty => Unit
  | .getIndex => Index
  | .getDirty => Bool
  | .saveIndex => Option Str
  | .loadIndex => Bool
  | .now => Int64
  | .orderByAccess _ => List Candidate

/-- An order `sort.Slice` may give the candidates. -/
def orderedByAccess (order cands : List Candidate) : Bool :=
  order.isPerm cands && decide (order.Pairwise fun a b => a.2.lastAccess ≤ b.2.lastAccess)

def execQuota (t : Tid) : (c : QuotaCmd) → c.Resp → Quota → Option Quota
  | .lockQuota, (), q => if q.mu = none then some { q with mu := some t } else none
  | .unlockQuota, (), q => some { q with mu := none }
  | .getIndex, i, q => if i = q.index then some q else none
  | .setIndex i, (), q => some { q with index := i }
  | .getDirty, d, q => if d = q.dirty then some q else none
  | .markDirty, (), q => some { q with dirty := true }
  | .saveIndex, none, q => some { q with saved := some q.index, dirty := false }
  | .saveIndex, some _, q => some q
  | .loadIndex, true, q =>
      match q.saved with
      | some i => some { q with index := i }
      | none => none
  | .loadIndex, false, q => some q
  | .now, _, q => some q
  | .orderByAccess cands, order, q => if orderedByAccess order cands then some q else none

/-! ## The sync job -/

/-- A store operation a caller asks for: a chunk from a reader that yields
`reads` and then ends or fails, a download, or a deletion. -/
inductive StoreJob where
  | put (h : Str) (reads : List Bytes) (fin : Option RemoteErr)
  | fromPeer (addr : Str) (work : WorkItem)
  | fromOrigin (work : WorkItem)
  | delete (h : Str)

inductive JobCmd where
  | ctxErr
  | skip (size : Int64)
  | startWorkers (workers : Nat) (items : List WorkItem)
  | awaitStart
  | nextItem
  | loadErr
  | storeErr (e : Err)
  | credit (fromPeer : Bool) (n : Int)
  | workerDone
  | waitWorkers
  | loadCounters
  | pickJob

abbrev JobCmd.Resp : JobCmd → Type
  | .ctxErr => Option Bool
  | .nextItem => Option WorkItem
  | .loadErr => Option Err
  | .loadCounters => Counters
  | .pickJob => Option StoreJob
  | .skip _ | .startWorkers _ _ | .awaitStart | .storeErr _ | .credit _ _ | .workerDone
  | .waitWorkers => Unit

def Counters.skip (c : Counters) (size : Int64) : Counters :=
  { c with
    skippedChunks := c.skippedChunks + 1
    cacheBytesReused := c.cacheBytesReused + size }

def Counters.credit (c : Counters) (fromPeer : Bool) (n : Int) : Counters :=
  let c := { c with downloadedChunks := c.downloadedChunks + 1 }
  if fromPeer then { c with peerChunks := c.peerChunks + 1, peerBytes := c.peerBytes + n }
  else { c with originChunks := c.originChunks + 1, originBytes := c.originBytes + n }

def execJob (t : Tid) : (c : JobCmd) → c.Resp → Job → Option Job
  | .ctxErr, _, j => some j
  | .skip size, (), j => some { j with counters := j.counters.skip size }
  -- threads 1 to `workers` are the download workers
  | .startWorkers workers items, (), j =>
      some { j with items := items, queue := items, running := List.range' 1 workers }
  | .awaitStart, (), j => if t ∈ j.running then some j else none
  -- which of the pending items comes first depends on the known locations
  | .nextItem, some it, j =>
      if it ∈ j.queue then
        some { j with
          queue := j.queue.filter (·.hash ≠ it.hash)
          busy := Function.update j.busy t (some it) }
      else none
  | .nextItem, none, j => if j.queue = [] then some j else none
  | .loadErr, e, j => if e = j.downloadErr then some j else none
  | .storeErr e, (), j =>
      match j.downloadErr with
      | none => some { j with downloadErr := some e }
      | some e' =>
          if e'.goType = e.goType then some { j with downloadErr := some e }
          else some { j with panicked := true }
  | .credit fromPeer n, (), j =>
      some { j with
        counters := j.counters.credit fromPeer n
        busy := Function.update j.busy t none }
  | .workerDone, (), j => some { j with running := j.running.erase t }
  | .waitWorkers, (), j => if j.running = [] then some j else none
  | .loadCounters, c, j => if c = j.counters then some j else none
  | .pickJob, _, j => some j

/-! ## Peers, the scheduler and the origin -/

/-- What `ReadChunkTo` writes and returns. -/
structure OriginReply where
  blocks : List Bytes
  total : Int
  err : Option RemoteErr
  deriving DecidableEq

inductive NetCmd where
  /-- The ranked candidates of an attempt. -/
  | candidates (h : Str)
  /-- The scheduler lets a transfer from this address begin. -/
  | beginTransfer (addr : Str)
  | openStream (addr h : Str) (offset : Int)
  /-- Wait for the downloader; it is blocked in its `Write` as long as something
  it has to write is not read. -/
  | joinDownloader (unread : List Bytes)
  | backoff
  | acquireOrigin
  | releaseOrigin
  | readOrigin (path : Str) (offset n : Int)
  | listFiles (pre : Str)
  /-- Open a source file, with what the reader will deliver. -/
  | openSource (path : Str)

abbrev NetCmd.Resp : NetCmd → Type
  | .candidates _ => List Str
  | .beginTransfer _ => Bool
  | .openStream _ _ _ => PeerReply
  | .joinDownloader _ | .releaseOrigin => Unit
  | .backoff | .acquireOrigin => Option Bool
  | .readOrigin _ _ _ => OriginReply
  | .listFiles _ => Except Str (List FileInfo)
  | .openSource _ => Except Str (Reader UInt8 Str)

def execNet : (c : NetCmd) → c.Resp → Net → Option Net
  | .candidates _, _, n => some n
  | .beginTransfer _, _, n => some n
  | .openStream addr _ offset, reply, n =>
      some { n with transfers := n.transfers ++ [downloadChunkTo addr offset reply] }
  | .joinDownloader unread, (), n => if unread = [] then some n else none
  | .backoff, _, n => some n
  | .acquireOrigin, none, n =>
      if 0 < n.originSlots then some { n with originSlots := n.originSlots - 1 } else none
  | .acquireOrigin, some _, n => some n
  | .releaseOrigin, (), n => some { n with originSlots := n.originSlots + 1 }
  | .readOrigin _ _ _, _, n => some n
  | .listFiles _, _, n => some n
  | .openSource _, _, n => some n

/-! ## The destination tree -/

inductive DestCmd where
  | mkdirAll (p : Str)
  | removeTarget (p : Str)
  | openTarget (p : Str)
  | writeTarget (p : Str) (data : Bytes)
  | chmodTarget (p : Str) (perm : Nat)

abbrev DestCmd.Resp : DestCmd → Type
  | .mkdirAll _ | .openTarget _ | .chmodTarget _ _ => Option Str
  | .removeTarget _ => Removal
  | .writeTarget _ _ => Option ShortWrite

/-- The directories `MkdirAll` makes sure of, outermost first: those named by
the leading elements of the path. -/
def pathAncestors (p : Str) : List Str :=
  (List.range (pathElems p).length).map fun i =>
    LexPath.render slash dot (isAbs p) ((pathElems p).take (i + 1))

/-- Whether a directory is there; `.` and `/` always are. -/
def Dest.isDir (d : Dest) (p : Str) : Bool :=
  pathElems p = [] || d.entries.lookup (clean p) = some .dir

/-- Whether something lies directly below `p`. -/
def Dest.hasChild (d : Dest) (p : Str) : Bool :=
  d.entries.keys.any fun q => decide (q ≠ p) && dir q == p

def Dest.isFile (d : Dest) (p : Str) : Bool :=
  match d.entries.lookup p with
  | some (.file _ _) => true
  | _ => false

/-- Make a directory where there is nothing. -/
def Dest.mkdir (d : Dest) (p : Str) : Dest :=
  if (d.entries.lookup p).isSome then d else { d with entries := d.entries.insert p .dir }

/-- Append to an open file. -/
def Dest.append (d : Dest) (p : Str) (data : Bytes) : Dest :=
  match d.entries.lookup p with
  | some (.file content perm) => { d with entries := d.entries.insert p (.file (content ++ data) perm) }
  | _ => d

def execDest : (c : DestCmd) → c.Resp → Dest → Option Dest
  | .mkdirAll p, none, d =>
      if (pathAncestors p).any d.isFile then none
      else some ((pathAncestors p).foldl Dest.mkdir d)
  | .mkdirAll _, some _, d => some d
  | .removeTarget p, .removed, d =>
      if (d.entries.lookup p).isSome && !d.hasChild p then
        some { d with entries := d.entries.erase p }
      else none
  | .removeTarget p, .absent, d => if d.entries.lookup p = none then some d else none
  | .removeTarget _, .failed _, d => some d
  | .openTarget p, none, d =>
      match d.entries.lookup p with
      | some .dir => none
      | some (.file _ perm) =>
          some { entries := d.entries.insert p (.file [] perm), opened := d.opened ++ [p] }
      | none =>
          if d.isDir (dir p) then
            some { entries := d.entries.insert p (.file [] 0o644), opened := d.opened ++ [p] }
          else none
  | .openTarget _, some _, d => some d
  | .writeTarget p data, none, d => some (d.append p data)
  | .writeTarget p data, some e, d =>
      if e.written ≤ data.length then some (d.append p (data.take e.written)) else none
  | .chmodTarget p perm, none, d =>
      match d.entries.lookup p with
      | some (.file content _) => some { d with entries := d.entries.insert p (.file content perm) }
      | _ => none
  | .chmodTarget _ _, some _, d => some d

/-- `os.Link` of the chunk file of `h` to a target. -/
def execLink (x : Store) (h p : Str) : Option Str → Dest → Option Dest
  | none, d =>
      match x.chunks.lookup h with
      | some content =>
          if d.entries.lookup p = none ∧ d.isDir (dir p) then
            some { entries := d.entries.insert p (.file content 0o644), opened := d.opened ++ [p] }
          else none
      | none => none
  | some _, d => some d

/-! ## The node -/

inductive Cmd where
  | store (c : StoreCmd)
  | quota (c : QuotaCmd)
  | job (c : JobCmd)
  | net (c : NetCmd)
  | dest (c : DestCmd)
  | link (h p : Str)

abbrev Cmd.Resp : Cmd → Type
  | .store c => c.Resp
  | .quota c => c.Resp
  | .job c => c.Resp
  | .net c => c.Resp
  | .dest c => c.Resp
  | .link _ _ => Option Str

/-- The commands of a node. -/
abbrev nodeSig : Sig := ⟨Cmd, Cmd.Resp⟩

/-- Programs on a node. -/
abbrev NodeM := Prog nodeSig

/-- A step of a node; a panic in any goroutine ends the process. -/
def nodeExec (t : Tid) (c : Cmd) (r : c.Resp) (s : Node) : Option Node :=
  if s.job.panicked then none
  else match c, r with
    | .store c, r => (execStore t c r s.store).map fun x => { s with store := x }
    | .quota c, r => (execQuota t c r s.quota).map fun x => { s with quota := x }
    | .job c, r => (execJob t c r s.job).map fun x => { s with job := x }
    | .net c, r => (execNet c r s.net).map fun x => { s with net := x }
    | .dest c, r => (execDest c r s.dest).map fun x => { s with dest := x }
    | .link h p, r => (execLink s.store h p r s.dest).map fun x => { s with dest := x }

/-- A node as a system. -/
def nodeSystem : System nodeSig Node Tid := ⟨nodeExec⟩

/-! ## What a step can do

One inversion lemma per part of the node: a command changes its own part, as
its `exec` function says, and nothing else. -/

section Step

variable {t : Tid} {s s' : Node}

theorem part_of_exec {α : Type} {o : Option α} {f : α → Node}
    (h : (if s.job.panicked then none else o.map f) = some s') : ∃ x, o = some x ∧ s' = f x := by
  obtain ⟨-, h⟩ := Option.ite_none_left_eq_some.mp h
  obtain ⟨x, hx, rfl⟩ := Option.map_eq_some_iff.mp h
  exact ⟨x, hx, rfl⟩

theorem nodeExec_store {c : StoreCmd} {r : c.Resp} (h : nodeSystem.exec t (.store c) r s = some s') :
    ∃ x, execStore t c r s.store = some x ∧ s' = { s with store := x } :=
  part_of_exec h

theorem nodeExec_quota {c : QuotaCmd} {r : c.Resp} (h : nodeSystem.exec t (.quota c) r s = some s') :
    ∃ x, execQuota t c r s.quota = some x ∧ s' = { s with quota := x } :=
  part_of_exec h

theorem nodeExec_job {c : JobCmd} {r : c.Resp} (h : nodeSystem.exec t (.job c) r s = some s') :
    ∃ x, execJob t c r s.job = some x ∧ s' = { s with job := x } :=
  part_of_exec h

theorem nodeExec_net {c : NetCmd} {r : c.Resp} (h : nodeSystem.exec t (.net c) r s = some s') :
    ∃ x, execNet c r s.net = some x ∧ s' = { s with net := x } :=
  part_of_exec h

theorem nodeExec_dest {c : DestCmd} {r : c.Resp} (h : nodeSystem.exec t (.dest c) r s = some s') :
    ∃ x, execDest c r s.dest = some x ∧ s' = { s with dest := x } :=
  part_of_exec h

theorem nodeExec_link {h p : Str} {r : Option Str}
    (hx : nodeSystem.exec t (.link h p) r s = some s') :
    ∃ x, execLink s.store h p r s.dest = some x ∧ s' = { s with dest := x } :=
  part_of_exec hx

/-- The parts a command does not work on. -/
theorem nodeExec_frame {c : Cmd} {r : c.Resp} (h : nodeSystem.exec t c r s = some s') :
    ((∀ c', c ≠ .store c') → s'.store = s.store) ∧ ((∀ c', c ≠ .quota c') → s'.quota = s.quota) ∧
      ((∀ c', c ≠ .job c') → s'.job = s.job) := by
  cases c with
  | store c => obtain ⟨x, -, rfl⟩ := nodeExec_store h; simp
  | quota c => obtain ⟨x, -, rfl⟩ := nodeExec_quota h; simp
  | job c => obtain ⟨x, -, rfl⟩ := nodeExec_job h; simp
  | net c => obtain ⟨x, -, rfl⟩ := nodeExec_net h; simp
  | dest c => obtain ⟨x, -, rfl⟩ := nodeExec_dest h; simp
  | link p q => obtain ⟨x, -, rfl⟩ := nodeExec_link h; simp

end Step

/-! ## Issuing commands -/

def onStore (c : StoreCmd) : NodeM c.Resp := @Prog.perform nodeSig (Cmd.store c)

def onQuota (c : QuotaCmd) : NodeM c.Resp := @Prog.perform nodeSig (Cmd.quota c)

def onJob (c : JobCmd) : NodeM c.Resp := @Prog.perform nodeSig (Cmd.job c)

def onNet (c : NetCmd) : NodeM c.Resp := @Prog.perform nodeSig (Cmd.net c)

def onDest (c : DestCmd) : NodeM c.Resp := @Prog.perform nodeSig (Cmd.dest c)

def onLink (h p : Str) : NodeM (Option Str) := @Prog.perform nodeSig (Cmd.link h p)

end Spider

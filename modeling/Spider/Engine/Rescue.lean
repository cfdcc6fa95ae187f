import Spider.Cache.Quota
import Spider.Engine.Transfer
import Spider.Node.Answers
import Spider.Node.Rules

/-!
# Spider.Engine.Rescue

When an honest origin delivers a chunk.

On a node whose disk works and whose context is not cancelled, and with an
origin that answers with the published bytes, `fetchChunk` always returns.
Peers may send anything.  A failed transfer can leave its bytes behind in the
partial, and the origin is asked only for what is missing behind them; so the
chunk arrives exactly if what is left in the partial when the origin is asked
is a prefix of the chunk, or is too long and discarded (`rescuable`).
-/

namespace Spider

open Conc

/-! ## A working disk and an honest origin -/

/-- The answers of a disk without errors. -/
def diskOk : (c : StoreCmd) → c.Resp → Bool
  | .lockHash _, _ | .unlockHash _ _, _ => true
  | .statPartial _, .failed _ | .statChunk _, .failed _ => false
  | .statPartial _, _ | .statChunk _, _ => true
  | .removePartial _, .failed _ | .deleteChunk _, .failed _ => false
  | .removePartial _, _ | .deleteChunk _, _ => true
  | .mkdirPartialDir, r | .openPartial _, r | .syncPartial _, r | .closePartial _, r
  | .openVerify _, r | .mkdirShard _, r | .renamePartial _, r | .readChunk _, r
  | .saveManifest _, r => r.isNone
  | .writePartial _ _, r => r.isNone
  | .readPartial _, .error _ => false
  | .readPartial _, .ok _ => true
  | .openChunk _, .failed _ => false
  | .openChunk _, _ => true
  | .listChunks, r => r.isSome

/-- The `n` bytes of a file at an offset. -/
def bytesAt (file : Bytes) (offset n : Int) : Bytes := (file.drop offset.toNat).take n.toNat

/-- A working disk, a context that is not cancelled, and an origin that writes
exactly the bytes it is asked for. -/
def honest (files : Str → Bytes) : (c : Cmd) → c.Resp → Bool
  | .store c, r => diskOk c r
  | .net .backoff, r | .net .acquireOrigin, r => r.isNone
  | .net (.readOrigin path offset n), r =>
      decide (r.blocks.flatten = bytesAt (files path) offset n ∧ r.total = n ∧ r.err = none)
  | _, _ => true

/-- A node whose disk works and whose origin is honest. -/
abbrev rescueSystem (files : Str → Bytes) : System nodeSig Node Tid :=
  nodeSystem.restrict (honest files)

/-- Answers under which the disk works, whatever else may happen. -/
structure DiskWorks (ok : (c : Cmd) → c.Resp → Bool) : Prop where
  store : ∀ c r, ok (.store c) r = diskOk c r
  quota : ∀ c r, ok (.quota c) r = true
  join : ∀ unread r, ok (.net (.joinDownloader unread)) r = true

theorem diskWorks_honest (files : Str → Bytes) : DiskWorks (honest files) :=
  ⟨fun _ _ => rfl, fun _ _ => rfl, fun _ _ => rfl⟩

/-! ## What is left behind -/

/-- The partial after the commit of `got` bytes when the sender announced
`total`; `none` if they are the chunk. -/
def afterStream (chunk got : Bytes) (total : Int) : Option (Option Bytes) :=
  if total > 0 ∧ (got.length : Int) < total then some (some got)
  else if got = chunk then none
  else some none

/-- The partial after a transfer from a peer that found `p`; `none` if the
transfer delivered the chunk. -/
def afterTransfer (chunk : Bytes) (p : Option Bytes) (tr : Transfer) : Option (Option Bytes) :=
  let kept := p.getD []
  let got := (if 0 < chunk.length ∧ chunk.length < kept.length then [] else kept) ++
    tr.blocks.flatten
  match tr.err with
  | some e => if containsCorrupt e || e.hashMismatch then some none else some (some got)
  | none => afterStream chunk got tr.total

/-- The partial after several transfers; `none` if one of them delivered the
chunk. -/
def leftBy (chunk : Bytes) : Option Bytes → List Transfer → Option (Option Bytes)
  | p, [] => some p
  | p, tr :: trs => (afterTransfer chunk p tr).bind fun p' => leftBy chunk p' trs

/-- Whether the chunk arrives after these transfers from peers: one of them has
delivered it, or what they have left is too long or a prefix of the chunk. -/
def rescuable (chunk : Bytes) (p : Option Bytes) (trs : List Transfer) : Bool :=
  match leftBy chunk p trs with
  | none => true
  | some p' => decide (chunk.length < (p'.getD []).length) || (p'.getD []).isPrefixOf chunk

theorem leftBy_append {chunk : Bytes} {p : Option Bytes} {trs trs' : List Transfer} :
    leftBy chunk p (trs ++ trs') = (leftBy chunk p trs).bind fun p' => leftBy chunk p' trs' := by
  induction trs generalizing p with
  | nil => rfl
  | cons tr trs ih =>
      simp only [List.cons_append, leftBy, Option.bind_assoc]
      congr
      funext p'
      exact ih

/-! ## Answers -/

section Rules

variable {ok : (c : Cmd) → c.Resp → Bool} {t : Tid} {s : Node} {α : Type} {Q : α → Node → Prop}

theorem diskOk_answerStore (x : Store) (c : StoreCmd) : diskOk c (answerStore x c) = true := by
  cases c with
  | statPartial h => simp only [answerStore]; cases x.partials h <;> rfl
  | statChunk h | openChunk h => simp only [answerStore]; cases x.chunks.lookup h <;> rfl
  | removePartial h | deleteChunk h => simp only [answerStore]; split <;> rfl
  | _ => rfl

variable {c : StoreCmd}

/-- A working disk has one answer to each command, the order of a directory
listing apart. -/
theorem eq_answerStore {r : c.Resp} {x y : Store} (hc : c ≠ .listChunks) (hok : diskOk c r = true)
    (hx : execStore t c r x = some y) : r = answerStore x c := by
  cases c with
  | lockHash h => rfl
  | unlockHash h res => rfl
  | statPartial h | statChunk h | openChunk h =>
      cases r <;> simp_all [execStore, answerStore, diskOk] <;> grind
  | removePartial h => cases r <;> simp_all [execStore, answerStore, diskOk]
  | deleteChunk h | readPartial h => cases r <;> simp_all [execStore, answerStore, diskOk]; grind
  | listChunks => contradiction
  | _ => exact Option.isNone_iff_eq_none.mp hok

/-- One command of the store, answered by a working disk. -/
theorem returns_diskOk (hdisk : ∀ c r, ok (.store c) r = diskOk c r) {k : c.Resp → NodeM α}
    {x : Store} (hc : c ≠ .listChunks) (hp : s.job.panicked = false)
    (hx : execStore t c (answerStore s.store c) s.store = some x)
    (hk : Returns (nodeSystem.restrict ok) t Q (k (answerStore s.store c)) { s with store := x }) :
    Returns (nodeSystem.restrict ok) t Q (onStore c >>= k) s := by
  have hgo : nodeSystem.exec t (.store c) (answerStore s.store c) s =
      some { s with store := x } := by
    simp [nodeSystem, nodeExec, hp, hx]
  refine Returns.restrict_perform ((hdisk c _).trans (diskOk_answerStore s.store c)) hgo ?_
  intro r s' hok hexec
  obtain ⟨y, hy, rfl⟩ := nodeExec_store hexec
  have hr : r = answerStore s.store c := eq_answerStore hc ((hdisk c r).symm.trans hok) hy
  subst hr
  rw [hx, Option.some.injEq] at hy
  rw [← hy]
  exact hk

theorem returns_store (hok : DiskWorks ok) {k : c.Resp → NodeM α} {x : Store} (hc : c ≠ .listChunks)
    (hp : s.job.panicked = false) (hx : execStore t c (answerStore s.store c) s.store = some x)
    (hk : Returns (nodeSystem.restrict ok) t Q (k (answerStore s.store c)) { s with store := x }) :
    Returns (nodeSystem.restrict ok) t Q (onStore c >>= k) s :=
  returns_diskOk hok.store hc hp hx hk

/-- A command of another part of the node. -/
theorem returns_net {c : NetCmd} {k : c.Resp → NodeM α} (hp : s.job.panicked = false)
    (hgo : ∃ r x, ok (.net c) r = true ∧ execNet c r s.net = some x)
    (hk : ∀ r x, ok (.net c) r = true → execNet c r s.net = some x →
      Returns (nodeSystem.restrict ok) t Q (k r) { s with net := x }) :
    Returns (nodeSystem.restrict ok) t Q (onNet c >>= k) s := by
  obtain ⟨r, x, hok, hx⟩ := hgo
  have hgo : nodeSystem.exec t (.net c) r s = some { s with net := x } := by
    simp [nodeSystem, nodeExec, hp, hx]
  refine Returns.restrict_perform hok hgo fun r s' hok hexec => ?_
  obtain ⟨y, hy, rfl⟩ := nodeExec_net hexec
  exact hk r y hok hy

theorem returns_quota (hok : DiskWorks ok) {c : QuotaCmd} {k : c.Resp → NodeM α} (hp : s.job.panicked = false)
    (hgo : ∃ r x, execQuota t c r s.quota = some x)
    (hk : ∀ r x, execQuota t c r s.quota = some x →
      Returns (nodeSystem.restrict ok) t Q (k r) { s with quota := x }) :
    Returns (nodeSystem.restrict ok) t Q (onQuota c >>= k) s := by
  obtain ⟨r, x, hx⟩ := hgo
  have hgo : nodeSystem.exec t (.quota c) r s = some { s with quota := x } := by
    simp [nodeSystem, nodeExec, hp, hx]
  refine Returns.restrict_perform (hok.quota c r) hgo fun r s' _ hexec => ?_
  obtain ⟨y, hy, rfl⟩ := nodeExec_quota hexec
  exact hk r y hy

end Rules

/-! ## One download -/

/-- What a fetch of `h` needs to know about the node. -/
structure Fetching (h : Str) (p : Option Bytes) (lock : Option Tid) (slots : Nat)
    (log : List Transfer) (s : Node) : Prop where
  part : s.store.partials h = p
  lock : s.store.locks h = lock
  running : s.job.panicked = false
  mu : s.quota.mu = none
  slots : s.net.originSlots = slots
  log : s.net.transfers = log

/-- The node with the lock of `h` free. -/
def Node.unlocked (s : Node) (h : Str) : Node :=
  { s with store := { s.store with locks := Function.update s.store.locks h none } }

/-- The node with one more slot of the origin. -/
def Node.released (s : Node) : Node :=
  { s with net := { s.net with originSlots := s.net.originSlots + 1 } }

/-- The partial that a download continues. -/
def ChunkSource.kept (src : ChunkSource) (work : WorkItem) (p : Option Bytes) : Option Bytes :=
  if src.tooLong work (p.getD []).length then none else p

/-- The partial after the commit of `got` bytes when the sender announced `total`;
`none` if they have the hash. -/
def afterCommit (H : Sha256) (h : Str) (got : Bytes) (total : Int) : Option (Option Bytes) :=
  if total > 0 ∧ (got.length : Int) < total then some (some got)
  else if computeHash H got = h then none
  else some none

/-- The partial after a transfer that has continued `kept`; `none` if the chunk is
complete. -/
def afterDownload (H : Sha256) (src : ChunkSource) (h : Str) (kept : Bytes) (tr : Transfer) :
    Option (Option Bytes) :=
  match tr.err with
  | some e => if src.spoils e then some none else some (some (kept ++ tr.blocks.flatten))
  | none => afterCommit H h (kept ++ tr.blocks.flatten) tr.total

/-- A commit hook that returns and leaves the store, the network and the job
alone. -/
def HookEnds (ok : (c : Cmd) → c.Resp → Bool) (t : Tid) (onCommit : OnCommit) : Prop :=
  ∀ hook, onCommit = some hook → ∀ h n s, s.job.panicked = false → s.quota.mu = none →
    Returns (nodeSystem.restrict ok) t
      (fun _ s' => s'.store = s.store ∧ s'.net = s.net ∧ s'.job = s.job ∧ s'.quota.mu = none)
      (hook h n) s

/-- Such a hook on a node with an honest origin. -/
def HookReturns (files : Str → Bytes) (t : Tid) (onCommit : OnCommit) : Prop :=
  ∀ hook, onCommit = some hook → ∀ h n s, s.job.panicked = false → s.quota.mu = none →
    Returns (rescueSystem files) t
      (fun _ s' => s'.store = s.store ∧ s'.net = s.net ∧ s'.job = s.job ∧ s'.quota.mu = none)
      (hook h n) s

section Downloads

variable {H : Sha256} {files : Str → Bytes} {t : Tid} {h : Str} {p : Option Bytes}
variable {lock : Option Tid} {slots : Nat} {log : List Transfer} {s : Node}
variable {onCommit : OnCommit} {work : WorkItem} {chunk : Bytes}
variable {ok : (c : Cmd) → c.Resp → Bool}

theorem Fetching.setStore (hs : Fetching h p lock slots log s) {x : Store} {p' : Option Bytes}
    {lock' : Option Tid} (hp : x.partials h = p') (hl : x.locks h = lock') :
    Fetching h p' lock' slots log { s with store := x } :=
  ⟨hp, hl, hs.running, hs.mu, hs.slots, hs.log⟩

theorem Fetching.release (hs : Fetching h p lock (slots - 1) log s) (hslots : 0 < slots) :
    Fetching h p lock slots log s.released := by
  refine ⟨hs.part, hs.lock, hs.running, hs.mu, ?_, hs.log⟩
  show s.net.originSlots + 1 = slots
  rw [hs.slots]
  omega

theorem Fetching.unlock (hs : Fetching h p lock slots log s) :
    Fetching h p none slots log (s.unlocked h) :=
  ⟨hs.part, Function.update_self .., hs.running, hs.mu, hs.slots, hs.log⟩

section Disk

variable (hok : DiskWorks ok)

include hok

theorem returns_partialSize (hh : (parseHash h).isSome = true)
    (hs : Fetching h p lock slots log s) :
    Returns (nodeSystem.restrict ok) t (fun (n : Int) s' => n = (p.getD []).length ∧ s' = s)
      (partialSize h) s := by
  obtain ⟨digest, hdigest⟩ := Option.isSome_iff_exists.mp hh
  simp only [partialSize, hdigest]
  refine returns_store hok (x := s.store) (by simp) hs.running ?_ ?_
  · cases p <;> simp [answerStore, execStore, hs.part]
  · cases p with
    | none | some b => simp only [answerStore, hs.part]; exact ⟨rfl, rfl⟩

theorem returns_discardPartial (hh : (parseHash h).isSome = true)
    (hs : Fetching h p lock slots log s) :
    Returns (nodeSystem.restrict ok) t
      (fun r s' => r = none ∧ Fetching h none lock slots log s') (discardPartial h) s := by
  obtain ⟨digest, hdigest⟩ := Option.isSome_iff_exists.mp hh
  simp only [discardPartial, hdigest]
  cases p with
  | none =>
      refine returns_store hok (by simp) hs.running (by simp [answerStore, execStore, hs.part]; rfl) ?_
      simp only [answerStore, hs.part]
      exact ⟨rfl, hs.setStore hs.part hs.lock⟩
  | some b =>
      refine returns_store hok (by simp) hs.running (by simp [answerStore, execStore, hs.part]; rfl) ?_
      simp only [answerStore, hs.part]
      exact ⟨rfl, hs.setStore (by simp [Store.setPartial]) hs.lock⟩

theorem returns_copyToPartial {q : Bytes} {reads : List Bytes}
    (hs : Fetching h (some q) lock slots log s) :
    Returns (nodeSystem.restrict ok) t
      (fun r s' => r = (none, []) ∧ Fetching h (some (q ++ reads.flatten)) lock slots log s')
      (copyToPartial h reads) s := by
  induction reads generalizing q s with
  | nil => exact ⟨rfl, by simpa using hs⟩
  | cons b bs ih =>
      refine returns_store hok (by simp) hs.running rfl ?_
      have happ : (s.store.appendTo h b).partials h = some (q ++ b) := by
        simp [Store.appendTo, hs.part, Store.setPartial]
      have hlock : (s.store.appendTo h b).locks h = lock := by
        simp [Store.appendTo, hs.part, Store.setPartial, hs.lock]
      have hnext := ih (hs.setStore happ hlock)
      rw [List.flatten_cons, ← List.append_assoc]
      exact hnext

/-- `AppendPartial` reads its stream to the end and keeps all of it. -/
theorem returns_appendPartial {reads : List Bytes} {fin : Option RemoteErr}
    (hh : (parseHash h).isSome = true) (hs : Fetching h p lock slots log s) :
    Returns (nodeSystem.restrict ok) t
      (fun r s' => r = (fin.map Err.readStream, []) ∧
        Fetching h (some (p.getD [] ++ reads.flatten)) lock slots log s')
      (appendPartial h reads fin) s := by
  obtain ⟨digest, hdigest⟩ := Option.isSome_iff_exists.mp hh
  simp only [appendPartial, hdigest]
  refine returns_store hok (by simp) hs.running rfl ?_
  refine returns_store hok (by simp) hs.running rfl ?_
  have hopen : Fetching h (some (p.getD [])) lock slots log
      { s with store := s.store.setPartial h (some ((s.store.partials h).getD [])) } :=
    hs.setStore (by simp [Store.setPartial, hs.part]) hs.lock
  refine (returns_copyToPartial hok hopen).seq fun r s' hr => ?_
  obtain ⟨rfl, hs'⟩ := hr
  cases fin with
  | some e =>
      refine returns_store hok (by simp) hs'.running rfl ?_
      exact ⟨rfl, hs'⟩
  | none =>
      refine returns_store hok (by simp) hs'.running rfl ?_
      refine returns_store hok (by simp) hs'.running rfl ?_
      exact ⟨rfl, hs'⟩

theorem returns_runOnCommit (hhook : HookEnds ok t onCommit)
    (hs : Fetching h p lock slots log s) :
    Returns (nodeSystem.restrict ok) t
      (fun _ s' => s'.store = s.store ∧ Fetching h p lock slots log s') (runOnCommit onCommit h) s := by
  have hcall : ∀ hook, onCommit = some hook → ∀ n, Returns (nodeSystem.restrict ok) t
      (fun _ s' => s'.store = s.store ∧ Fetching h p lock slots log s') (hook h n) s := by
    intro hook hsome n
    refine (hhook hook hsome h n s hs.running hs.mu).mono fun _ s' hkeep => ?_
    obtain ⟨hstore, hnet, hjob, hmu⟩ := hkeep
    exact ⟨hstore, by rw [hstore]; exact hs.part, by rw [hstore]; exact hs.lock,
      by rw [hjob]; exact hs.running, hmu, by rw [hnet]; exact hs.slots,
      by rw [hnet]; exact hs.log⟩
  cases onCommit with
  | none => exact ⟨rfl, hs⟩
  | some hook =>
      cases hc : s.store.chunks.lookup h with
      | none =>
          refine returns_store hok (x := s.store) (by simp) hs.running (by simp [answerStore, execStore, hc]) ?_
          simp only [answerStore, hc]
          exact hcall hook rfl 0
      | some b =>
          refine returns_store hok (x := s.store) (by simp) hs.running (by simp [answerStore, execStore, hc]) ?_
          simp only [answerStore, hc]
          exact hcall hook rfl _

/-- `CommitPartial` on a partial `q`: it moves `q` in if the hash is that of `q`,
and removes it otherwise. -/
theorem returns_commitPartial {q : Bytes} (hhook : HookEnds ok t onCommit)
    (hh : (parseHash h).isSome = true) (hs : Fetching h (some q) lock slots log s) :
    Returns (nodeSystem.restrict ok) t
      (fun r s' => Fetching h none lock slots log s' ∧
        if computeHash H q = h then r = none ∧ s'.store.chunks.lookup h = some q
        else r = some (.hashMismatch h (computeHash H q)))
      (commitPartial H onCommit h) s := by
  obtain ⟨digest, hdigest⟩ := Option.isSome_iff_exists.mp hh
  simp only [commitPartial, hdigest]
  refine returns_store hok (x := s.store) (by simp) hs.running
    (by simp [answerStore, execStore, hs.part]) ?_
  refine returns_store hok (x := s.store) (by simp) hs.running
    (by simp [answerStore, execStore, hs.part]) ?_
  simp only [answerStore, hs.part, Option.getD_some]
  by_cases hq : computeHash H q = h
  · simp only [hq, ne_eq, not_true_eq_false, if_false, if_true]
    refine returns_store hok (x := s.store) (by simp) hs.running rfl ?_
    refine returns_store hok (by simp) hs.running (by simp [answerStore, execStore, hs.part]; rfl) ?_
    have hmoved := hs.setStore
      (x := { s.store.setPartial h none with
        chunks := s.store.chunks.insert h q
        inserted := Function.update s.store.inserted t true })
      (Function.update_self ..) hs.lock
    refine (returns_runOnCommit hok hhook hmoved).seq fun _ s' hr => ?_
    obtain ⟨hstore, hs'⟩ := hr
    exact ⟨hs', rfl, by rw [hstore]; exact AList.lookup_insert ..⟩
  · simp only [hq, ne_eq, not_false_eq_true, if_true, if_false]
    refine returns_store hok (by simp) hs.running (by simp [answerStore, execStore, hs.part]; rfl) ?_
    exact ⟨hs.setStore (Function.update_self ..) hs.lock, rfl⟩

/-- What a download has come to, when the partial is `after` or the chunk was
delivered. -/
def Outcome (h : Str) (chunk : Bytes) (lock : Option Tid) (slots : Nat) (log : List Transfer)
    (after : Option (Option Bytes)) (ok : Bool) (s : Node) : Prop :=
  match after with
  | none => ok = true ∧ s.store.chunks.lookup h = some chunk ∧ Fetching h none lock slots log s
  | some p => ok = false ∧ Fetching h p lock slots log s

omit hok in
theorem Outcome.unlock {after : Option (Option Bytes)} {ok : Bool}
    (hout : Outcome h chunk lock slots log after ok s) :
    s.job.panicked = false ∧ Outcome h chunk none slots log after ok (s.unlocked h) := by
  cases after with
  | none => exact ⟨hout.2.2.running, hout.1, hout.2.1, hout.2.2.unlock⟩
  | some q => exact ⟨hout.2.running, hout.1, hout.2.unlock⟩

/-- A body under the lock of `h`, followed by what it leaves when the lock is free
again. -/
theorem returns_underLock {α : Type} {R : α → Node → Prop} {result : α → Option Err}
    {body : NodeM α} (hs : Fetching h p none slots log s)
    (hbody : ∀ s1, Fetching h p (some t) slots log s1 → Returns (nodeSystem.restrict ok) t
      (fun a s' => s'.job.panicked = false ∧ R a (s'.unlocked h)) body s1) :
    Returns (nodeSystem.restrict ok) t R (withHashLock h result body) s := by
  refine returns_store hok
    (x := { s.store with
      locks := Function.update s.store.locks h (some t)
      inserted := Function.update s.store.inserted t false
      removeFailed := Function.update s.store.removeFailed t false })
    (by simp) hs.running (by simp [execStore, hs.lock]) ?_
  refine Returns.seq (hbody _ ?_) fun a s' ha => ?_
  · exact ⟨hs.part, Function.update_self .., hs.running, hs.mu, hs.slots, hs.log⟩
  · exact returns_store hok (by simp) ha.1 rfl ha.2

theorem returns_resumeFrom {tooLong : Bool} {size : Int} (hh : (parseHash h).isSome = true)
    (hs : Fetching h p lock slots log s) :
    Returns (nodeSystem.restrict ok) t
      (fun n s' => n = (if tooLong then 0 else size) ∧
        Fetching h (if tooLong then none else p) lock slots log s')
      (resumeFrom h size tooLong) s := by
  cases tooLong with
  | true =>
      refine (returns_discardPartial hok hh hs).seq fun _ s' ⟨_, hs'⟩ => ?_
      exact ⟨rfl, hs'⟩
  | false => exact ⟨rfl, hs⟩

/-- Waiting for a downloader that has written everything. -/
theorem returns_joinDownloader {α : Type} {Q : α → Node → Prop} {k : Unit → NodeM α}
    (hs : Fetching h p lock slots log s)
    (hk : ∀ s', Fetching h p lock slots log s' → Returns (nodeSystem.restrict ok) t Q (k ()) s') :
    Returns (nodeSystem.restrict ok) t Q (onNet (.joinDownloader []) >>= k) s := by
  refine returns_net hs.running ⟨(), s.net, hok.join [] (), by simp [execNet]⟩
    fun _ x _ hx => hk _ ?_
  simp only [execNet, if_true, Option.some.injEq] at hx
  rw [← hx]
  exact hs

/-- What a download that has put `got` into the partial comes to. -/
theorem returns_finishTransfer {got : Bytes} {total : Int} {fail : Err → Err}
    (hhook : HookEnds ok t onCommit) (hh : (parseHash h).isSome = true)
    (hs : Fetching h (some got) lock slots log s) :
    Returns (nodeSystem.restrict ok) t
      (fun r s' => Outcome h got lock slots log (afterCommit H h got total) (errorOf r).isNone s')
      (finishTransfer H onCommit h total fail) s := by
  refine (returns_partialSize hok hh hs).seq fun n s' hn => ?_
  obtain ⟨rfl, rfl⟩ := hn
  simp only [Option.getD_some, afterCommit]
  by_cases hshort : total > 0 ∧ (got.length : Int) < total
  · simp only [if_pos hshort]
    exact ⟨rfl, hs⟩
  · simp only [if_neg hshort]
    refine (returns_commitPartial hok hhook hh hs).seq fun r s1 hr => ?_
    obtain ⟨hs1, hr⟩ := hr
    by_cases hhash : computeHash H got = h
    · rw [if_pos hhash] at hr ⊢
      obtain ⟨rfl, hcommitted⟩ := hr
      exact ⟨rfl, hcommitted, hs1⟩
    · rw [if_neg hhash] at hr ⊢
      rw [hr]
      refine (returns_discardPartial hok hh hs1).seq fun _ s2 ⟨_, hs2⟩ => ?_
      exact ⟨rfl, hs2⟩

/-- A download from any source: what the request brings is put behind what is kept. -/
theorem returns_download {A : Transfer → List Transfer → Prop} (src : ChunkSource)
    (hhook : HookEnds ok t onCommit) (hh : (parseHash work.hash).isSome = true)
    (hs : Fetching work.hash p none slots log s)
    (hask : ∀ s1, Fetching work.hash (src.kept work p) (some t) slots log s1 →
      Returns (nodeSystem.restrict ok) t
        (fun tr s' => ∃ log', A tr log' ∧
          Fetching work.hash (src.kept work p) (some t) slots log' s')
        (src.request work ((src.kept work p).getD []).length) s1) :
    Returns (nodeSystem.restrict ok) t
      (fun r s' => ∃ tr log', A tr log' ∧
        Outcome work.hash ((src.kept work p).getD [] ++ tr.blocks.flatten) none slots log'
          (afterDownload H src work.hash ((src.kept work p).getD []) tr) (errorOf r).isNone s')
      (src.download H onCommit work) s := by
  refine returns_underLock hok hs fun s1 hs1 => ?_
  refine (returns_partialSize hok hh hs1).seq fun n s2 hn => ?_
  obtain ⟨rfl, rfl⟩ := hn
  refine (returns_resumeFrom hok hh hs1).seq fun offset s3 hr => ?_
  obtain ⟨hoffset, hs3⟩ := hr
  have hlen : offset = ((src.kept work p).getD []).length := by
    rw [hoffset, ChunkSource.kept]
    split <;> rfl
  rw [hlen]
  refine (hask s3 hs3).seq fun tr s4 htr => ?_
  obtain ⟨log', hA, hs4⟩ := htr
  refine (returns_appendPartial hok hh hs4).seq fun r s5 hr => ?_
  obtain ⟨rfl, hs5⟩ := hr
  refine returns_joinDownloader hok hs5 fun s6 hs6 => ?_
  rw [flatten_copyReads] at hs6
  cases herr : tr.err with
  | some e =>
      by_cases hspoils : src.spoils e = true
      · simp only [if_pos hspoils]
        refine (returns_discardPartial hok hh hs6).seq fun _ s7 ⟨_, hs7⟩ => ?_
        refine ⟨hs7.running, tr, log', hA, ?_⟩
        simp only [afterDownload, herr, if_pos hspoils]
        exact ⟨rfl, hs7.unlock⟩
      · simp only [if_neg hspoils]
        refine ⟨hs6.running, tr, log', hA, ?_⟩
        simp only [afterDownload, herr, if_neg hspoils]
        exact ⟨rfl, hs6.unlock⟩
  | none =>
      refine (returns_finishTransfer hok hhook hh hs6).mono fun r s7 hout => ?_
      refine ⟨hout.unlock.1, tr, log', hA, ?_⟩
      simp only [afterDownload, herr]
      exact hout.unlock.2

omit hok in
/-- The slot of the origin around a download. -/
theorem returns_downloadFromOrigin_of {R : Except Err Int → Node → Prop}
    (hacquire : ok (.net .acquireOrigin) none = true)
    (hrelease : ∀ r, ok (.net .releaseOrigin) r = true) (hslots : 0 < slots)
    (hs : Fetching h p none slots log s)
    (hcancelled : ∀ deadline, ok (.net .acquireOrigin) (some deadline) = true →
      R (.error (.ctx deadline)) s)
    (hread : ∀ s1, Fetching h p none (slots - 1) log s1 → Returns (nodeSystem.restrict ok) t
      (fun r s' => s'.job.panicked = false ∧ R r s'.released)
      (ChunkSource.origin.download H onCommit work) s1) :
    Returns (nodeSystem.restrict ok) t R (downloadFromOrigin H onCommit work) s := by
  have hpos : 0 < s.net.originSlots := by rw [hs.slots]; exact hslots
  refine returns_net hs.running ⟨none, _, hacquire, if_pos hpos⟩ fun r x hr hx => ?_
  cases r with
  | some deadline =>
      simp only [execNet, Option.some.injEq] at hx
      rw [← hx]
      exact hcancelled deadline hr
  | none =>
      simp only [execNet, if_pos hpos, Option.some.injEq] at hx
      have hs1 : Fetching h p none (slots - 1) log { s with net := x } :=
        ⟨hs.part, hs.lock, hs.running, hs.mu, by rw [← hx, ← hs.slots], by rw [← hx]; exact hs.log⟩
      refine (hread _ hs1).seq fun res s2 hres => ?_
      refine returns_net hres.1 ⟨(), _, hrelease (), rfl⟩ fun _ y _ hy => ?_
      simp only [execNet, Option.some.injEq] at hy
      rw [← hy]
      exact hres.2

end Disk

/-- A chunk of a published file: its bytes, under a hash no other bytes have. -/
structure Published (H : Sha256) (files : Str → Bytes) (work : WorkItem) (chunk : Bytes) : Prop where
  hash : work.hash = computeHash H chunk
  pins : H.Pins chunk
  size : work.size.toInt = chunk.length
  offset : 0 ≤ work.offset.toInt
  bytes : bytesAt (files work.filePath) work.offset.toInt work.size.toInt = chunk

theorem Published.parseHash (hw : Published H files work chunk) :
    (parseHash work.hash).isSome = true := by
  rw [hw.hash, parseHash_computeHash]
  rfl

theorem Published.hash_iff (hw : Published H files work chunk) {q : Bytes} :
    computeHash H q = work.hash ↔ q = chunk := by
  rw [hw.hash]
  exact ⟨hw.pins.eq_of_computeHash, fun hq => by rw [hq]⟩

theorem Published.afterCommit (hw : Published H files work chunk) {got : Bytes} {total : Int} :
    afterCommit H work.hash got total = afterStream chunk got total := by
  simp only [Spider.afterCommit, afterStream, hw.hash_iff]

/-- What is committed is the chunk. -/
theorem Outcome.of_stream {got : Bytes} {total : Int} {ok : Bool}
    (hout : Outcome h got lock slots log (afterStream chunk got total) ok s) :
    Outcome h chunk lock slots log (afterStream chunk got total) ok s := by
  have hgot : afterStream chunk got total = none → got = chunk := by
    unfold afterStream
    intro hnone
    split at hnone
    · contradiction
    · split at hnone
      · assumption
      · contradiction
  cases hA : afterStream chunk got total with
  | none =>
      rw [hA, hgot hA] at hout
      exact hout
  | some q =>
      rw [hA] at hout
      exact hout

/-- `downloadFromPeer`, whatever the peer sends. -/
theorem returns_downloadFromPeer {addr : Str} (hhook : HookReturns files t onCommit)
    (hw : Published H files work chunk) (hs : Fetching work.hash p none slots log s) :
    Returns (rescueSystem files) t
      (fun r s' => ∃ tr, Outcome work.hash chunk none slots (log ++ [tr])
        (afterTransfer chunk p tr) (errorOf r).isNone s')
      (downloadFromPeer H onCommit addr work) s := by
  have hkept : ((ChunkSource.peer addr).kept work p).getD [] =
      if 0 < chunk.length ∧ chunk.length < (p.getD []).length then [] else p.getD [] := by
    rw [ChunkSource.kept, ChunkSource.tooLong, hw.size]
    by_cases hlong : 0 < chunk.length ∧ chunk.length < (p.getD []).length <;> simp [hlong]
  refine (returns_download (diskWorks_honest files) (A := fun tr log' => log' = log ++ [tr])
    (.peer addr) hhook hw.parseHash hs fun s1 hs1 => ?_).mono fun r s' hr => ?_
  · refine returns_net hs1.running ⟨.noClient ⟨false, false, .errorString, []⟩, _, rfl, rfl⟩
      fun reply x _ hx => ?_
    simp only [execNet, Option.some.injEq] at hx
    exact ⟨_, rfl, hs1.part, hs1.lock, hs1.running, hs1.mu, by rw [← hx]; exact hs1.slots,
      by rw [← hx, ← hs1.log]⟩
  · obtain ⟨tr, _, rfl, hout⟩ := hr
    rw [hkept] at hout
    refine ⟨tr, ?_⟩
    have hspoils : ∀ e, (ChunkSource.peer addr).spoils e = (containsCorrupt e || e.hashMismatch) :=
      fun _ => rfl
    simp only [afterTransfer, afterDownload, hw.afterCommit, hspoils] at hout ⊢
    cases herr : tr.err with
    | some e =>
        simp only [herr] at hout ⊢
        by_cases hcorrupt : (containsCorrupt e || e.hashMismatch) = true
        · rw [if_pos hcorrupt] at hout ⊢
          exact hout
        · rw [if_neg hcorrupt] at hout ⊢
          exact hout
    | none =>
        simp only [herr] at hout ⊢
        exact hout.of_stream

/-! ## The origin -/

theorem bytesAt_add {file : Bytes} {offset n : Int} {k : Nat} (ho : 0 ≤ offset) (hk : (k : Int) ≤ n) :
    bytesAt file (offset + k) (n - k) = (bytesAt file offset n).drop k := by
  have hoff : (offset + k).toNat = offset.toNat + k := by omega
  have hlen : (n - k).toNat = n.toNat - k := by omega
  rw [bytesAt, bytesAt, List.drop_take, List.drop_drop, hoff, hlen]

/-- What `downloadFromOrigin` leaves: the chunk is complete exactly if what was
there is too long or a prefix of it. -/
def afterOrigin (chunk : Bytes) (p : Option Bytes) : Option (Option Bytes) :=
  if chunk.length < (p.getD []).length ∨ p.getD [] <+: chunk then none else some none

/-- The bytes the origin sends complete the kept ones to the chunk only if these
are its beginning. -/
theorem afterStream_origin {kept : Bytes} :
    afterStream chunk (kept ++ chunk.drop kept.length) (chunk.length - kept.length : Nat) =
      if kept <+: chunk then none else some none := by
  have hlen : ¬ (((chunk.length - kept.length : Nat) : Int) > 0 ∧
      ((kept ++ chunk.drop kept.length).length : Int) < (chunk.length - kept.length : Nat)) := by
    rw [List.length_append, List.length_drop]
    omega
  have heq : kept ++ chunk.drop kept.length = chunk ↔ kept <+: chunk := by
    constructor
    · intro h
      exact ⟨_, h⟩
    · intro h
      exact (List.prefix_iff_eq_append.mp h)
  simp only [afterStream, if_neg hlen, heq]

theorem returns_downloadFromOrigin (hhook : HookReturns files t onCommit)
    (hw : Published H files work chunk) (hslots : 0 < slots)
    (hs : Fetching work.hash p none slots log s) :
    Returns (rescueSystem files) t
      (fun r s' => Outcome work.hash chunk none slots log (afterOrigin chunk p)
        (errorOf r).isNone s')
      (downloadFromOrigin H onCommit work) s := by
  -- the bytes that are kept, and what is left to be sent
  obtain ⟨kept, hkept, hle, hcase⟩ : ∃ kept : Bytes,
      (ChunkSource.origin.kept work p).getD [] = kept ∧ kept.length ≤ chunk.length ∧
      (if kept <+: chunk then none else some none) = afterOrigin chunk p := by
    rw [ChunkSource.kept, ChunkSource.tooLong, hw.size]
    by_cases hlong : chunk.length < (p.getD []).length
    · have hneg : (chunk.length : Int) - ((p.getD []).length : Int) < 0 := by omega
      exact ⟨[], by simp [hneg], by simp, by simp [afterOrigin, hlong]⟩
    · have hneg : ¬ (chunk.length : Int) - ((p.getD []).length : Int) < 0 := by omega
      exact ⟨p.getD [], by simp [hneg], by omega, by simp [afterOrigin, hlong]⟩
  have hbytes : bytesAt (files work.filePath) (work.offset.toInt + (kept.length : Int))
      (work.size.toInt - (kept.length : Int)) = chunk.drop kept.length := by
    rw [bytesAt_add hw.offset (by rw [hw.size]; omega), hw.bytes]
  refine returns_downloadFromOrigin_of rfl (fun _ => rfl) hslots hs
    (fun deadline h => by contradiction) fun s1 hs1 => ?_
  refine (returns_download (diskWorks_honest files)
    (A := fun tr log' => log' = log ∧ tr = ⟨tr.blocks, (chunk.length - kept.length : Nat), none⟩ ∧
      tr.blocks.flatten = chunk.drop kept.length)
    .origin hhook hw.parseHash hs1 fun s2 hs2 => ?_).mono fun r s' hr => ?_
  · rw [hkept]
    refine returns_net hs2.running
      ⟨⟨[chunk.drop kept.length], work.size.toInt - kept.length, none⟩, s2.net,
        by simp [honest, hbytes], rfl⟩ fun reply x hok hx => ?_
    simp only [honest, decide_eq_true_eq, hbytes] at hok
    obtain ⟨hblocks, htotal, herr⟩ := hok
    simp only [execNet, Option.some.injEq] at hx
    have htot : reply.total = (chunk.length - kept.length : Nat) := by
      rw [htotal, hw.size]
      omega
    refine ⟨log, ⟨rfl, by rw [htot, herr], hblocks⟩, ?_⟩
    rw [← hx]
    exact hs2
  · obtain ⟨tr, _, ⟨rfl, htr, hblocks⟩, hout⟩ := hr
    rw [hkept, htr] at hout
    simp only [afterDownload, hw.afterCommit, hblocks] at hout
    have hdone := hout.of_stream
    rw [afterStream_origin, hcase] at hdone
    cases hA : afterOrigin chunk p with
    | none =>
        rw [hA] at hdone
        exact ⟨hdone.2.2.running, hdone.1, hdone.2.1, hdone.2.2.release hslots⟩
    | some q =>
        rw [hA] at hdone
        exact ⟨hdone.2.running, hdone.1, hdone.2.release hslots⟩

/-! ## The whole fetch -/

theorem returns_tryPeers {addrs : List Str} (hhook : HookReturns files t onCommit)
    (hw : Published H files work chunk) (hs : Fetching work.hash p none slots log s) :
    Returns (rescueSystem files) t
      (fun r s' => ∃ trs, Outcome work.hash chunk none slots (log ++ trs) (leftBy chunk p trs)
        r.isSome s')
      (tryPeers H onCommit work addrs) s := by
  induction addrs generalizing p log s with
  | nil => exact ⟨[], rfl, by simpa using hs⟩
  | cons addr addrs ih =>
      rw [tryPeers]
      by_cases ha : addr = []
      · rw [if_pos ha]
        exact ih hs
      · rw [if_neg ha]
        refine returns_net hs.running ⟨true, s.net, rfl, rfl⟩ fun r x _ hx => ?_
        simp only [execNet, Option.some.injEq] at hx
        subst hx
        cases r with
        | false => exact ih hs
        | true =>
            refine (returns_downloadFromPeer hhook hw hs).seq fun res s1 hres => ?_
            obtain ⟨tr, hout⟩ := hres
            cases hA : afterTransfer chunk p tr with
            | none =>
                rw [hA] at hout
                cases res with
                | error e => exact absurd hout.1 (by simp [errorOf])
                | ok n =>
                    refine ⟨[tr], ?_⟩
                    simp only [leftBy, hA, Option.bind_none]
                    exact ⟨rfl, hout.2⟩
            | some p' =>
                rw [hA] at hout
                cases res with
                | ok n => exact absurd hout.1 (by simp [errorOf])
                | error e =>
                    refine (ih hout.2).mono fun r s2 hr => ?_
                    obtain ⟨trs, htrs⟩ := hr
                    refine ⟨tr :: trs, ?_⟩
                    simp only [leftBy, hA, Option.bind_some]
                    simpa using htrs

theorem rescuable_iff_afterOrigin {trs : List Transfer} {q : Option Bytes}
    (hq : leftBy chunk p trs = some q) :
    rescuable chunk p trs = true ↔ afterOrigin chunk q = none := by
  simp only [rescuable, hq, afterOrigin, Bool.or_eq_true, decide_eq_true_eq,
    List.isPrefixOf_iff_prefix]
  by_cases h : chunk.length < (q.getD []).length ∨ q.getD [] <+: chunk <;> simp [h]

/-- After `trs`, the attempts that are left and the origin. -/
theorem returns_fetchAttempts {n : Nat} {p0 : Option Bytes} {log0 trs : List Transfer}
    (hhook : HookReturns files t onCommit) (hw : Published H files work chunk)
    (hslots : 0 < slots) (hleft : leftBy chunk p0 trs = some p)
    (hs : Fetching work.hash p none slots (log0 ++ trs) s) :
    Returns (rescueSystem files) t
      (fun r s' => ∃ trs, s'.net.transfers = log0 ++ trs ∧
        ((∃ n, r = .ok n) ∧ s'.store.chunks.lookup work.hash = some chunk ↔
          rescuable chunk p0 trs = true))
      (fetchAttempts H onCommit true work n) s := by
  induction n generalizing p trs s with
  | zero =>
      refine (returns_downloadFromOrigin hhook hw hslots hs).seq fun res s1 hout => ?_
      have hiff := rescuable_iff_afterOrigin hleft
      cases hA : afterOrigin chunk p with
      | none =>
          rw [hA] at hout
          cases res with
          | error e => exact absurd hout.1 (by simp [errorOf])
          | ok n => exact ⟨trs, hout.2.2.log, fun _ => hiff.mpr hA, fun _ => ⟨⟨_, rfl⟩, hout.2.1⟩⟩
      | some q =>
          rw [hA] at hout
          cases res with
          | ok n => exact absurd hout.1 (by simp [errorOf])
          | error e =>
              refine ⟨trs, hout.2.log, fun ⟨⟨n, hn⟩, _⟩ => by contradiction, fun hr => ?_⟩
              rw [hiff.mp hr] at hA
              contradiction
  | succ n ih =>
      refine returns_net hs.running ⟨[], s.net, rfl, rfl⟩ fun cands x _ hx => ?_
      simp only [execNet, Option.some.injEq] at hx
      subst hx
      refine (returns_tryPeers hhook hw hs).seq fun res s1 hres => ?_
      obtain ⟨trs1, hout⟩ := hres
      have happ : leftBy chunk p0 (trs ++ trs1) = leftBy chunk p trs1 := by
        rw [leftBy_append, hleft]
        rfl
      cases hA : leftBy chunk p trs1 with
      | none =>
          rw [hA] at hout
          cases res with
          | none => exact absurd hout.1 (by simp)
          | some n =>
              have hresc : rescuable chunk p0 (trs ++ trs1) = true := by
                simp [rescuable, happ, hA]
              refine ⟨trs ++ trs1, ?_, fun _ => hresc, fun _ => ⟨⟨_, rfl⟩, hout.2.1⟩⟩
              rw [← List.append_assoc]
              exact hout.2.2.log
      | some p' =>
          rw [hA] at hout
          cases res with
          | some n => exact absurd hout.1 (by simp)
          | none =>
              have hleft' : leftBy chunk p0 (trs ++ trs1) = some p' := happ.trans hA
              have hs1 : Fetching work.hash p' none slots (log0 ++ (trs ++ trs1)) s1 := by
                rw [← List.append_assoc]
                exact hout.2
              by_cases hlast : n = 0
              · simp only [if_pos hlast]
                exact ih hleft' hs1
              · simp only [if_neg hlast]
                refine returns_net hs1.running ⟨none, s1.net, rfl, rfl⟩ fun r x hok hx => ?_
                have hr : r = none := Option.isNone_iff_eq_none.mp hok
                subst hr
                simp only [execNet, Option.some.injEq] at hx
                subst hx
                exact ih hleft' hs1

end Downloads

/-- A node on which nothing else works on the chunk. -/
structure Idle (h : Str) (s : Node) : Prop where
  lock : s.store.locks h = none
  running : s.job.panicked = false
  mu : s.quota.mu = none
  slots : 0 < s.net.originSlots

/-- **Origin fallback.**  With a working disk, an honest origin and a context that
is not cancelled, `fetchChunk` returns whatever the peers do; it returns no
error and leaves the chunk committed exactly if what the peers' transfers have
left in the partial allows it. -/
theorem fetchChunk_rescued_iff (H : Sha256) (files : Str → Bytes) (t : Tid) (onCommit : OnCommit)
    (hhook : HookReturns files t onCommit) (retryAttempts : Nat) (work : WorkItem) (chunk : Bytes)
    (hw : Published H files work chunk) (s : Node) (hs : Idle work.hash s) :
    Returns (rescueSystem files) t
      (fun res s' => ∃ trs, s'.net.transfers = s.net.transfers ++ trs ∧
        ((∃ n, res = .ok n) ∧ s'.store.chunks.lookup work.hash = some chunk ↔
          rescuable chunk (s.store.partials work.hash) trs = true))
      (fetchChunk H onCommit retryAttempts true work) s := by
  have hfetch : Fetching work.hash (s.store.partials work.hash) none s.net.originSlots
      (s.net.transfers ++ []) s := ⟨rfl, hs.lock, hs.running, hs.mu, rfl, by simp⟩
  exact returns_fetchAttempts hhook hw hs.slots rfl hfetch

/-- `Touch` is such a hook. -/
theorem hookEnds_touchOnCommit {ok : (c : Cmd) → c.Resp → Bool} (hok : DiskWorks ok) (t : Tid) :
    HookEnds ok t touchOnCommit := by
  intro hook hsome h n s hp hmu
  cases hsome
  refine returns_quota hok hp ⟨(), _, if_pos hmu⟩ fun _ q1 h1 => ?_
  refine returns_quota hok hp ⟨q1.index, q1, if_pos rfl⟩ fun i q2 h2 => ?_
  refine returns_quota hok hp ⟨0, q2, rfl⟩ fun now q3 h3 => ?_
  refine returns_quota hok hp ⟨(), _, rfl⟩ fun _ q4 h4 => ?_
  refine returns_quota hok hp ⟨(), _, rfl⟩ fun _ q5 h5 => ?_
  refine returns_quota hok (c := .unlockQuota) (k := pure) hp ⟨(), _, rfl⟩ fun _ q6 h6 => ?_
  cases h6
  exact ⟨rfl, rfl, rfl, rfl⟩

theorem hookReturns_touchOnCommit (files : Str → Bytes) (t : Tid) :
    HookReturns files t touchOnCommit :=
  hookEnds_touchOnCommit (diskWorks_honest files) t

/-- A two-byte file, published as one chunk. -/
def twoBytes : Bytes := [0x61, 0x62]

def twoBytesWork : WorkItem :=
  ⟨computeHash (.numbering [twoBytes]) twoBytes, str "f", 0, 2⟩

theorem published_twoBytes :
    Published (.numbering [twoBytes]) (fun _ => twoBytes) twoBytesWork twoBytes :=
  ⟨rfl, Sha256.pins_numbering (by decide) (by decide), by decide, by decide, by decide⟩

theorem idle_emptyNode (h : Str) : Idle h emptyNode := ⟨rfl, rfl, rfl, by decide⟩

theorem fetchChunk_rescued_twoBytes :
    Returns (rescueSystem fun _ => twoBytes) 0
      (fun res s' => ∃ trs, s'.net.transfers = [] ++ trs ∧
        ((∃ n, res = .ok n) ∧ s'.store.chunks.lookup twoBytesWork.hash = some twoBytes ↔
          rescuable twoBytes none trs = true))
      (fetchChunk (.numbering [twoBytes]) touchOnCommit 3 true twoBytesWork) emptyNode :=
  fetchChunk_rescued_iff (.numbering [twoBytes]) (fun _ => twoBytes) 0 touchOnCommit
    (hookReturns_touchOnCommit _ 0) 3 twoBytesWork twoBytes published_twoBytes emptyNode
    (idle_emptyNode _)

/-- A peer that sends one wrong byte and then drops the connection. -/
def droppingPeer : World where
  candidates _ := [str "10.0.0.2:9000"]
  reply _ _ _ := .stream [⟨2, 0, [0x7a], false⟩]
    (.failed ⟨false, false, .other (str "*status.Error"), str "connection reset"⟩)
  files := [(twoBytesWork.filePath, twoBytes)]

/-- Where a fetch from this peer and then the origin ends. -/
def droppedFetch : Node :=
  (fetchChunk (.numbering [twoBytes]) touchOnCommit 1 true twoBytesWork).finalState
    (rescueSystem fun _ => twoBytes) 0 droppingPeer.answer emptyNode

/-- The wrong byte stays in the partial, the honest origin is asked for the second
byte only, and the fetch fails. -/
theorem droppingPeer_defeats_origin :
    ∃ e, Runs (rescueSystem fun _ => twoBytes) 0
      (fetchChunk (.numbering [twoBytes]) touchOnCommit 1 true twoBytesWork) emptyNode
      (.error e) droppedFetch ∧ droppedFetch.store.chunks.lookup twoBytesWork.hash = none :=
  ⟨_, runs_finalState rfl, by decide +kernel⟩

end Spider

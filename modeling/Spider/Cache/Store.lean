import Spider.Cache.Names
import Spider.Node.Commands

/-!
# Spider.Cache.Store

The chunk store's operations (`pkg/cache/cache.go`) as programs over the
node's commands: `PartialSize`, `DiscardPartial`, `AppendPartial`,
`CommitPartial`, `PutChunkFromReader`, `DeleteChunk` and the presence checks.
-/

namespace Spider

open Conc

/-! ## Presence -/

/-- `HasChunk`. -/
def hasChunk (h : Str) : NodeM Bool :=
  match parseHash h with
  | none => pure false
  | some _ => do
      match ← onStore (.statChunk h) with
      | .size _ => pure true
      | _ => pure false

/-- `CommittedChunkSize`. -/
def committedChunkSize (h : Str) : NodeM (Option Int) :=
  match parseHash h with
  | none => pure none
  | some _ => do
      match ← onStore (.statChunk h) with
      | .size n => pure (some n)
      | _ => pure none

/-- `HasValidCommittedChunk`. -/
def hasValidCommittedChunk (h : Str) (expectedSize : Int) : NodeM Bool := do
  if !(← hasChunk h) then pure false
  else if expectedSize ≤ 0 then pure true
  else do
    match ← committedChunkSize h with
    | some sz => pure (sz = expectedSize)
    | none => pure false

/-- `PartialSize`. -/
def partialSize (h : Str) : NodeM Int :=
  match parseHash h with
  | none => pure 0
  | some _ => do
      match ← onStore (.statPartial h) with
      | .size n => pure n
      | _ => pure 0

/-- `TotalCachedBytes`, of a store nobody is changing. -/
def Store.totalCachedBytes (s : Store) : Int64 :=
  wrapSum 0 (s.chunks.entries.map fun e => Int64.ofInt e.2.length)

/-! ## Partials -/

/-- `DiscardPartial`. -/
def discardPartial (h : Str) : NodeM (Option Err) :=
  match parseHash h with
  | none => pure (some .invalidHashName)
  | some _ => do
      match ← onStore (.removePartial h) with
      | .failed msg => pure (some (.removePartial msg))
      | _ => pure none

/-- `io.Copy` onto the partial: the error, and what was left unread. -/
def copyToPartial (h : Str) : List Bytes → NodeM (Option Err × List Bytes)
  | [] => pure (none, [])
  | b :: bs => do
      match ← onStore (.writePartial h b) with
      | some e => pure (some (.writePartial e.msg), bs)
      | none => copyToPartial h bs

/-- `AppendPartial` from a reader that yields `reads` and then ends or fails with
`fin`; also returns the reads it did not make. -/
def appendPartial (h : Str) (reads : List Bytes) (fin : Option RemoteErr) :
    NodeM (Option Err × List Bytes) :=
  match parseHash h with
  | none => pure (some .invalidHashName, reads)
  | some _ => do
      match ← onStore .mkdirPartialDir with
      | some msg => pure (some (.mkdirPartial msg), reads)
      | none =>
        match ← onStore (.openPartial h) with
        | some msg => pure (some (.openPartial msg), reads)
        | none => do
          let (err, unread) ← copyToPartial h reads
          match err, fin with
          | some e, _ => do
              let _ ← onStore (.closePartial h)
              pure (some e, unread)
          | none, some e => do
              let _ ← onStore (.closePartial h)
              pure (some (.readStream e), unread)
          | none, none =>
            match ← onStore (.syncPartial h) with
            | some msg => do
                let _ ← onStore (.closePartial h)
                pure (some (.syncPartial msg), unread)
            | none =>
              match ← onStore (.closePartial h) with
              | some msg => pure (some (.closePartial msg), unread)
              | none => pure (none, unread)

/-- The commit hook of `spiderd`: `QuotaManager.Touch`, which runs under the
quota manager's own mutex. -/
abbrev OnCommit := Option (Str → Int → NodeM Unit)

/-- The hook call at the end of `CommitPartial`, with the size `stat` gives. -/
def runOnCommit (onCommit : OnCommit) (h : Str) : NodeM Unit :=
  match onCommit with
  | none => pure ()
  | some hook => do
      match ← onStore (.statChunk h) with
      | .size n => hook h n
      | _ => hook h 0

/-- `CommitPartial`. -/
def commitPartial (H : Sha256) (onCommit : OnCommit) (h : Str) : NodeM (Option Err) :=
  match parseHash h with
  | none => pure (some .invalidHashName)
  | some _ => do
      match ← onStore (.openVerify h) with
      | some msg => pure (some (.openVerify msg))
      | none =>
        match ← onStore (.readPartial h) with
        | .error msg => pure (some (.hashPartial msg))
        | .ok b =>
          if computeHash H b ≠ h then do
            let _ ← onStore (.removePartial h)
            pure (some (.hashMismatch h (computeHash H b)))
          else
            match ← onStore (.mkdirShard h) with
            | some msg => pure (some (.mkdirShard msg))
            | none =>
              match ← onStore (.renamePartial h) with
              | some msg => pure (some (.rename msg))
              | none => do
                  let () ← runOnCommit onCommit h
                  pure none

/-- Run a function under `LockHash(h)`, unlocking when it returns. -/
def withHashLock (h : Str) {α : Type} (result : α → Option Err) (body : NodeM α) : NodeM α := do
  let () ← onStore (.lockHash h)
  let a ← body
  let () ← onStore (.unlockHash h (result a))
  pure a

/-- `PutChunkFromReader`. -/
def putChunkFromReader (H : Sha256) (onCommit : OnCommit) (h : Str) (reads : List Bytes)
    (fin : Option RemoteErr) : NodeM (Option Err) :=
  withHashLock h id do
    match ← discardPartial h with
    | some e => pure (some e)
    | none =>
      match ← appendPartial h reads fin with
      | (some e, _) => do
          let _ ← discardPartial h
          pure (some e)
      | (none, _) => commitPartial H onCommit h

/-- `PutChunk`: the reader of a byte slice hands it over in one write. -/
def putChunk (H : Sha256) (onCommit : OnCommit) (h : Str) (data : Bytes) : NodeM (Option Err) :=
  putChunkFromReader H onCommit h (if data = [] then [] else [data]) none

/-- `DeleteChunk`. -/
def deleteChunk (h : Str) : NodeM Removal :=
  match parseHash h with
  | none => pure (.failed (str "invalid chunk hash format"))
  | some _ => onStore (.deleteChunk h)

/-! ## Footprint -/

/-- The commands with which a chunk is put into the store: on the lock and the
partial of `h`, its rename, and `stat` of the chunk. -/
def StoreCmd.worksOn (h : Str) : StoreCmd → Bool
  | .lockHash h' | .unlockHash h' _ | .statPartial h' | .removePartial h' | .openPartial h'
  | .writePartial h' _ | .syncPartial h' | .closePartial h' | .openVerify h' | .readPartial h'
  | .mkdirShard h' | .renamePartial h' | .statChunk h' => decide (h' = h)
  | .mkdirPartialDir => true
  | .openChunk _ | .readChunk _ | .deleteChunk _ | .listChunks | .saveManifest _ => false

/-- Those that only work on the partial file of `h`. -/
def StoreCmd.fills (h : Str) : StoreCmd → Bool
  | .statPartial h' | .removePartial h' | .openPartial h' | .writePartial h' _ | .syncPartial h'
  | .closePartial h' => decide (h' = h)
  | .mkdirPartialDir => true
  | _ => false

variable {c : StoreCmd} {h : Str}

theorem worksOn_of_fills (hc : c.fills h = true) : c.worksOn h = true := by
  cases c <;> first | exact hc | contradiction

/-- Those of a function that holds the lock of `h`. -/
def StoreCmd.inSection (h : Str) : StoreCmd → Bool
  | .lockHash _ | .unlockHash _ _ => false
  | c => c.worksOn h

theorem worksOn_of_inSection (hc : c.inSection h = true) : c.worksOn h = true := by
  cases c <;> first | exact hc | contradiction

theorem inSection_of_fills (hc : c.fills h = true) : c.inSection h = true := by
  cases c <;> first | exact hc | contradiction

theorem only_hasChunk {ok : Cmd → Prop} (hok : ok (.store (.statChunk h))) :
    (hasChunk h).Only ok := by
  unfold hasChunk
  split
  · exact Prog.only_pure _
  · refine Prog.only_call hok fun r => ?_
    cases r <;> exact Prog.only_pure _

theorem only_committedChunkSize {ok : Cmd → Prop} (hok : ok (.store (.statChunk h))) :
    (committedChunkSize h).Only ok := by
  unfold committedChunkSize
  split
  · exact Prog.only_pure _
  · refine Prog.only_call hok fun r => ?_
    cases r <;> exact Prog.only_pure _

section Partial

variable {ok : Cmd → Prop} {h : Str} (hok : ∀ c : StoreCmd, c.fills h = true → ok (.store c))
include hok

theorem only_onPartial {α : Type} {c : StoreCmd} {k : c.Resp → NodeM α} (hc : c.fills h = true)
    (hk : ∀ r, (k r).Only ok) : (onStore c >>= k).Only ok :=
  Prog.only_call (hok c hc) hk

theorem only_partialSize : (partialSize h).Only ok := by
  unfold partialSize
  split
  · exact Prog.only_pure _
  · refine only_onPartial hok (by simp [StoreCmd.fills]) fun r => ?_
    cases r <;> exact Prog.only_pure _

theorem only_discardPartial : (discardPartial h).Only ok := by
  unfold discardPartial
  split
  · exact Prog.only_pure _
  · refine only_onPartial hok (by simp [StoreCmd.fills]) fun r => ?_
    cases r <;> exact Prog.only_pure _

theorem only_copyToPartial (bs : List Bytes) : (copyToPartial h bs).Only ok := by
  induction bs with
  | nil => exact Prog.only_pure _
  | cons b bs ih =>
      refine only_onPartial hok (by simp [StoreCmd.fills]) fun r => ?_
      cases r with
      | some e => exact Prog.only_pure _
      | none => exact ih

theorem only_closeWith {α : Type} (a : α) :
    (do let _ ← onStore (.closePartial h); pure a : NodeM α).Only ok :=
  only_onPartial hok (by simp [StoreCmd.fills]) fun _ => Prog.only_pure _

theorem only_appendPartial (reads : List Bytes) (fin : Option RemoteErr) :
    (appendPartial h reads fin).Only ok := by
  unfold appendPartial
  split
  · exact Prog.only_pure _
  · refine only_onPartial hok rfl fun made => ?_
    cases made with
    | some msg => exact Prog.only_pure _
    | none =>
        refine only_onPartial hok (by simp [StoreCmd.fills]) fun opened => ?_
        cases opened with
        | some msg => exact Prog.only_pure _
        | none =>
            refine (only_copyToPartial hok reads).bind fun (err, unread) => ?_
            cases err with
            | some e => exact only_closeWith hok _
            | none =>
                cases fin with
                | some e => exact only_closeWith hok _
                | none =>
                    refine only_onPartial hok (by simp [StoreCmd.fills]) fun synced => ?_
                    cases synced with
                    | some msg => exact only_closeWith hok _
                    | none =>
                        refine only_onPartial hok (by simp [StoreCmd.fills]) fun closed => ?_
                        cases closed <;> exact Prog.only_pure _

end Partial

section Footprint

variable {ok : Cmd → Prop} {h : Str} (hok : ∀ c : StoreCmd, c.inSection h = true → ok (.store c))
include hok

theorem only_onStore {α : Type} {c : StoreCmd} {k : c.Resp → NodeM α} (hc : c.inSection h = true)
    (hk : ∀ r, (k r).Only ok) : (onStore c >>= k).Only ok :=
  Prog.only_call (hok c hc) hk

variable {onCommit : OnCommit} (hhook : ∀ hook, onCommit = some hook → ∀ h n, (hook h n).Only ok)
include hhook

theorem only_runOnCommit : (runOnCommit onCommit h).Only ok := by
  unfold runOnCommit
  split
  · exact Prog.only_pure _
  · refine only_onStore hok (by simp [StoreCmd.inSection, StoreCmd.worksOn]) fun r => ?_
    cases r <;> exact hhook _ rfl h _

theorem only_commitPartial (H : Sha256) : (commitPartial H onCommit h).Only ok := by
  unfold commitPartial
  split
  · exact Prog.only_pure _
  · refine only_onStore hok (by simp [StoreCmd.inSection, StoreCmd.worksOn]) fun opened => ?_
    cases opened with
    | some msg => exact Prog.only_pure _
    | none =>
        refine only_onStore hok (by simp [StoreCmd.inSection, StoreCmd.worksOn]) fun read => ?_
        cases read with
        | error msg => exact Prog.only_pure _
        | ok b =>
            by_cases hhash : computeHash H b ≠ h
            · simp only [if_pos hhash]
              exact only_onStore hok (by simp [StoreCmd.inSection, StoreCmd.worksOn]) fun _ => Prog.only_pure _
            · simp only [if_neg hhash]
              refine only_onStore hok (by simp [StoreCmd.inSection, StoreCmd.worksOn]) fun made => ?_
              cases made with
              | some msg => exact Prog.only_pure _
              | none =>
                  refine only_onStore hok (by simp [StoreCmd.inSection, StoreCmd.worksOn]) fun renamed => ?_
                  cases renamed with
                  | some msg => exact Prog.only_pure _
                  | none => exact (only_runOnCommit hok hhook).bind fun _ => Prog.only_pure _

omit hok in
theorem only_putChunk (hok : ∀ c : StoreCmd, c.worksOn h = true → ok (.store c)) (H : Sha256)
    (data : Bytes) : (putChunk H onCommit h data).Only ok := by
  have hsection : ∀ c : StoreCmd, c.inSection h = true → ok (.store c) := fun c hc =>
    hok c (worksOn_of_inSection hc)
  have hfill : ∀ c : StoreCmd, c.fills h = true → ok (.store c) := fun c hc =>
    hok c (worksOn_of_fills hc)
  refine Prog.only_call (hok _ (by simp [StoreCmd.worksOn])) fun _ => ?_
  refine Prog.Only.bind ?_ fun res =>
    Prog.only_call (hok _ (by simp [StoreCmd.worksOn])) fun _ => Prog.only_pure _
  refine (only_discardPartial hfill).bind fun discarded => ?_
  cases discarded with
  | some e => exact Prog.only_pure _
  | none =>
      refine (only_appendPartial hfill _ none).bind fun (err, unread) => ?_
      cases err with
      | some e => exact (only_discardPartial hfill).bind fun _ => Prog.only_pure _
      | none => exact only_commitPartial hsection hhook H

end Footprint

end Spider

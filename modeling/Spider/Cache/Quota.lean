import Spider.Cache.Store

/-!
# Spider.Cache.Quota

The quota manager (`pkg/cache/manager.go`) as programs over the node's
commands: `Touch`, `Pin`, `Unpin`, `MaybeEvict`, `Flush` and a reopen from the
saved index.

The watermarks enter as the two `int64` thresholds the code computes from
them.  `index.json` gives back what was saved: the index holds strings that
came out of JSON or protobuf, which are valid UTF-8.
-/

namespace Spider

open Conc

/-! ## The index -/

def Index.empty : Index := ⟨∅, ∅⟩

/-- `idx.Chunks[h]`, with Go's zero value for an absent entry. -/
def Index.entry (i : Index) (h : Str) : ChunkMeta :=
  (i.chunks.lookup h).getD ⟨[], 0, 0, 0⟩

def Index.setEntry (i : Index) (h : Str) (m : ChunkMeta) : Index :=
  { i with chunks := i.chunks.insert h m }

/-- The sum of the recorded sizes. -/
def Index.used (i : Index) : Int64 := wrapSum 0 (i.chunks.entries.map fun e => e.2.size)

/-- The entries eviction may take. -/
def Index.evictable (i : Index) : List Candidate :=
  (i.chunks.entries.map fun e => (e.1, e.2)).filter fun c => decide (¬ c.2.refCount > 0)

/-! ## Operations -/

/-- `Touch`. -/
def touch (h : Str) (size : Int64) : NodeM Unit := do
  let () ← onQuota .lockQuota
  let idx ← onQuota .getIndex
  let now ← onQuota .now
  let m := idx.entry h
  let size := if size > 0 then size else m.size
  let () ← onQuota (.setIndex (idx.setEntry h { m with hash := h, size := size, lastAccess := now }))
  let () ← onQuota .markDirty
  onQuota .unlockQuota

/-- The hook `spiderd` installs. -/
def touchOnCommit : OnCommit := some fun h n => touch h (Int64.ofInt n)

theorem only_touchOnCommit {ok : Cmd → Prop} (hok : ∀ c, ok (.quota c)) :
    ∀ hook, touchOnCommit = some hook → ∀ h n, (hook h n).Only ok := by
  rintro hook ⟨⟩ h n
  exact ⟨hok _, fun _ => ⟨hok _, fun _ => ⟨hok _, fun _ => ⟨hok _, fun _ => ⟨hok _, fun _ =>
    ⟨hok _, fun _ => trivial⟩⟩⟩⟩⟩⟩

/-- `fillSizeLocked`. -/
def fillSizeLocked (h : Str) (m : ChunkMeta) : NodeM ChunkMeta :=
  if m.size > 0 then pure m
  else do
    match ← committedChunkSize h with
    | some sz => pure { m with size := Int64.ofInt sz }
    | none => pure m

/-- The loop of `Pin`. -/
def pinHashes : List Str → NodeM Unit
  | [] => pure ()
  | h :: hs => do
      let idx ← onQuota .getIndex
      let m ← fillSizeLocked h { idx.entry h with hash := h }
      let () ← onQuota (.setIndex (idx.setEntry h { m with refCount := m.refCount + 1 }))
      pinHashes hs

/-- `Pin`. -/
def pin (manifest : ArtifactManifest) : NodeM (Option Str) := do
  let () ← onQuota .lockQuota
  let idx ← onQuota .getIndex
  if (idx.pins.lookup manifest.artifactID).isSome then do
    let err ← onQuota .saveIndex
    let () ← onQuota .unlockQuota
    pure err
  else do
    let hashes := allChunkHashes manifest
    let () ← onQuota (.setIndex { idx with pins := idx.pins.insert manifest.artifactID hashes })
    let () ← pinHashes hashes
    let err ← onQuota .saveIndex
    let () ← onQuota .unlockQuota
    pure err

/-- The loop of `Unpin`. -/
def unpinHashes : List Str → NodeM Unit
  | [] => pure ()
  | h :: hs => do
      let idx ← onQuota .getIndex
      let m := idx.entry h
      let m := if m.refCount > 0 then { m with refCount := m.refCount - 1 } else m
      let () ← onQuota (.setIndex (idx.setEntry h m))
      unpinHashes hs

/-- `Unpin`. -/
def unpin (artifactID : Str) : NodeM (Option Str) := do
  let () ← onQuota .lockQuota
  let idx ← onQuota .getIndex
  let hashes := (idx.pins.lookup artifactID).getD []
  let () ← onQuota (.setIndex { idx with pins := idx.pins.erase artifactID })
  let () ← unpinHashes hashes
  let err ← onQuota .saveIndex
  let () ← onQuota .unlockQuota
  pure err

/-- The loop of `MaybeEvict`: a chunk that cannot be deleted, other than because
it is gone, keeps its entry. -/
def evictLoop (target : Int64) : List Candidate → Int64 → Nat → NodeM Nat
  | [], _, evicted => pure evicted
  | c :: cs, used, evicted =>
      if used ≤ target then pure evicted
      else do
        match ← deleteChunk c.1 with
        | .failed _ => evictLoop target cs used evicted
        | _ => do
            let idx ← onQuota .getIndex
            let () ← onQuota (.setIndex { idx with chunks := idx.chunks.erase c.1 })
            evictLoop target cs (used - c.2.size) (evicted + 1)

/-- The thresholds `int64(float64(maxBytes)*watermark)`. -/
structure Watermarks where
  high : Int64
  low : Int64

/-- `MaybeEvict`. -/
def maybeEvict (w : Watermarks) : NodeM Nat := do
  let () ← onQuota .lockQuota
  let idx ← onQuota .getIndex
  if idx.used < w.high then do
    let () ← onQuota .unlockQuota
    pure 0
  else do
    let list ← onQuota (.orderByAccess idx.evictable)
    let evicted ← evictLoop w.low list idx.used 0
    let _ ← onQuota .saveIndex
    let () ← onQuota .unlockQuota
    pure evicted

/-- `Flush`. -/
def flush : NodeM (Option Str) := do
  let () ← onQuota .lockQuota
  let err ← if ← onQuota .getDirty then onQuota .saveIndex else pure none
  let () ← onQuota .unlockQuota
  pure err

/-- The size `reconcileFromDisk` finds for a chunk: `GetChunkPath`, which makes
a `stat` of its own, and a second `stat`. -/
def chunkSizeOnDisk (h : Str) : NodeM (Option Int64) := do
  if !(← hasChunk h) then pure none
  else do
    match ← committedChunkSize h with
    | some sz => pure (some (Int64.ofInt sz))
    | none => pure none

/-- The loop of `reconcileFromDisk`. -/
def reconcileHashes (now : Int64) : List Str → NodeM Unit
  | [] => pure ()
  | h :: hs => do
      let idx ← onQuota .getIndex
      if (idx.chunks.lookup h).isSome then reconcileHashes now hs
      else do
        match ← chunkSizeOnDisk h with
        | none => reconcileHashes now hs
        | some sz => do
            let () ← onQuota (.setIndex (idx.setEntry h ⟨h, sz, now, 0⟩))
            reconcileHashes now hs

/-- `reconcileFromDisk`. -/
def reconcileFromDisk : NodeM (Option Str) := do
  match ← onStore .listChunks with
  | none => pure (some (str "walk"))
  | some hashes => do
      let now ← onQuota .now
      let () ← reconcileHashes now hashes
      onQuota .saveIndex

/-- `Close` and `NewQuotaManager` on the same directory: an empty index, `load`
and `reconcileFromDisk`. -/
def newQuotaManager : NodeM Unit := do
  let () ← onQuota (.setIndex Index.empty)
  let _ ← onQuota .loadIndex
  let _ ← reconcileFromDisk
  pure ()

/-! ## Footprint -/

section Footprint

variable {ok : Cmd → Prop} (hget : ok (.quota .getIndex)) (hset : ∀ i, ok (.quota (.setIndex i)))

theorem only_fillSizeLocked {h : Str} (hstat : ok (.store (.statChunk h))) (m : ChunkMeta) :
    (fillSizeLocked h m).Only ok := by
  unfold fillSizeLocked
  split
  · exact Prog.only_pure _
  · refine (only_committedChunkSize hstat).bind fun r => ?_
    cases r <;> exact Prog.only_pure _

theorem only_deleteChunk {h : Str} (hdel : ok (.store (.deleteChunk h))) :
    (deleteChunk h).Only ok := by
  unfold deleteChunk
  split
  · exact Prog.only_pure _
  · exact Prog.only_perform hdel

include hget hset

theorem only_pinHashes (hstat : ∀ h, ok (.store (.statChunk h))) (hs : List Str) :
    (pinHashes hs).Only ok := by
  induction hs with
  | nil => exact Prog.only_pure _
  | cons h hs ih =>
      refine Prog.only_call hget fun idx => ?_
      refine (only_fillSizeLocked (hstat h) _).bind fun m => ?_
      exact Prog.only_call (hset _) fun _ => ih

theorem only_unpinHashes (hs : List Str) : (unpinHashes hs).Only ok := by
  induction hs with
  | nil => exact Prog.only_pure _
  | cons h hs ih =>
      refine Prog.only_call hget fun idx => ?_
      exact Prog.only_call (hset _) fun _ => ih

theorem only_evictLoop {cs : List Candidate} (hdel : ∀ c ∈ cs, ok (.store (.deleteChunk c.1)))
    (target used : Int64) (n : Nat) : (evictLoop target cs used n).Only ok := by
  induction cs generalizing used n with
  | nil => exact Prog.only_pure _
  | cons c cs ih =>
      obtain ⟨hc, hrest⟩ := List.forall_mem_cons.mp hdel
      rw [evictLoop]
      split
      · exact Prog.only_pure _
      · have hgone : (do
            let idx ← onQuota .getIndex
            let () ← onQuota (.setIndex { idx with chunks := idx.chunks.erase c.1 })
            evictLoop target cs (used - c.2.size) (n + 1) : NodeM Nat).Only ok :=
          Prog.only_call hget fun idx => Prog.only_call (hset _) fun _ => ih hrest _ _
        refine (only_deleteChunk hc).bind fun r => ?_
        cases r with
        | removed => exact hgone
        | absent => exact hgone
        | failed m => exact ih hrest _ _

theorem only_reconcileHashes (hstat : ∀ h, ok (.store (.statChunk h))) (now : Int64)
    (hs : List Str) : (reconcileHashes now hs).Only ok := by
  induction hs with
  | nil => exact Prog.only_pure _
  | cons h hs ih =>
      refine Prog.only_call hget fun idx => ?_
      split
      · exact ih
      · refine Prog.Only.bind ?_ fun size => ?_
        · refine (only_hasChunk (hstat h)).bind fun present => ?_
          cases present with
          | false => exact Prog.only_pure _
          | true =>
              refine (only_committedChunkSize (hstat h)).bind fun sz => ?_
              cases sz <;> exact Prog.only_pure _
        · cases size with
          | none => exact ih
          | some sz => exact Prog.only_call (hset _) fun _ => ih

end Footprint

end Spider

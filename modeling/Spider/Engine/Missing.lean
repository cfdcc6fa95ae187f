import Spider.Cache.Integrity
import Spider.Engine.Sync

/-!
# Spider.Engine.Missing

Which chunks are in the store, what puts them there or takes them out, and what
`Materialize` can fail with while those it needs are there: it then reports no
missing chunk (`finds_materialize`).
-/

namespace Spider

open Conc

/-! ## Chunks in the store -/

/-- Chunk `h` is in the store. -/
def Committed (h : Str) (s : Node) : Prop := (s.store.chunks.lookup h).isSome = true

/-- All chunks are in the store. -/
def AllCommitted (hashes : List Str) (s : Node) : Prop := ∀ h ∈ hashes, Committed h s

section Committed

variable {t : Tid} {s s' : Node}

/-- Only its deletion takes a chunk out of the store. -/
theorem lookup_execStore {c : StoreCmd} {r : c.Resp} {x y : Store} {h : Str}
    (hx : execStore t c r x = some y) (hc : c ≠ .deleteChunk h)
    (hh : (x.chunks.lookup h).isSome = true) : (y.chunks.lookup h).isSome = true := by
  rcases (execStore_effect hx).chunks with hsame | ⟨h', b, -, -, hins, -⟩ | ⟨h', rfl, her⟩
  · rwa [hsame]
  · rw [hins]
    by_cases he : h = h'
    · rw [he, AList.lookup_insert]
      rfl
    · rwa [AList.lookup_insert_ne he]
  · have hne : h ≠ h' := fun he => hc (by rw [he])
    rwa [her, AList.lookup_erase_ne hne]

variable {c : Cmd}

theorem committed_kept {r : c.Resp} {h : Str} (hc : c ≠ .store (.deleteChunk h))
    (hx : nodeSystem.exec t c r s = some s') (hs : Committed h s) : Committed h s' := by
  cases c with
  | store c =>
      obtain ⟨x, hpart, rfl⟩ := nodeExec_store hx
      exact lookup_execStore hpart (fun he => hc (by rw [he])) hs
  | _ => rwa [Committed, (nodeExec_frame hx).1 (by simp)]

/-- Commands on another part of the node leave the job alone. -/
theorem job_of_step {r : c.Resp} (hc : ∀ c', c ≠ .job c') (hx : nodeSystem.exec t c r s = some s') :
    s'.job = s.job :=
  (nodeExec_frame hx).2.2 hc

theorem not_job_of_transfers (hc : c.transfers = true) : ∀ c', c ≠ .job c' := by
  rintro c' rfl
  contradiction

/-- A step that shows a chunk is one after which it is there. -/
theorem committed_of_shows {h : Str} {r : c.Resp} (hc : shows h c r = true)
    (hx : nodeSystem.exec t c r s = some s') : Committed h s' := by
  cases c with
  | store c =>
      obtain ⟨x, hpart, rfl⟩ := nodeExec_store hx
      cases c with
      | renamePartial h' =>
          cases r with
          | some msg => contradiction
          | none =>
              obtain rfl : h' = h := of_decide_eq_true hc
              simp only [execStore] at hpart
              split at hpart
              · cases hpart
                simp [Committed]
              · contradiction
      | statChunk h' =>
          cases r with
          | size n =>
              obtain rfl : h' = h := of_decide_eq_true hc
              obtain ⟨hsize, ⟨⟩⟩ := Option.ite_none_right_eq_some.mp hpart
              rw [Committed]
              cases hlook : s.store.chunks.lookup h' with
              | some b => rfl
              | none => simp [hlook] at hsize
          | absent => contradiction
          | failed msg => contradiction
      | _ => contradiction
  | _ => contradiction

end Committed

/-- Commands only `Materialize` issues: those on the destination, and opening a
chunk. -/
def Cmd.materializes : Cmd → Bool
  | .dest _ | .link _ _ | .store (.openChunk _) => true
  | _ => false

/-! ## What `Materialize` can fail with -/

/-- The error says that a chunk is not in the store. -/
def Err.isMissing : Err → Bool
  | .chunkNotFound => true
  | .missingChunk _ _ _ cause | .unverifiedLink _ _ cause | .materializeFile _ cause
  | .materialize _ cause => cause.isMissing
  | _ => false

/-- The commands of `Materialize` and what follows it. -/
def Cmd.finishes : Cmd → Bool
  | .store c => c.asks
  | .dest _ | .link _ _ | .job .ctxErr | .job .loadCounters => true
  | _ => false

/-- None of these chunks is reported absent. -/
def found (hashes : List Str) : (c : Cmd) → c.Resp → Prop
  | .store (.openChunk h), .absent => h ∉ hashes
  | _, _ => True

/-- A program of such commands that, as long as the chunks are found, returns no
error about a missing chunk. -/
abbrev Finds (hashes : List Str) (p : NodeM (Option Err)) : Prop :=
  p.All (fun c : Cmd => c.finishes = true) (found hashes)
    fun r => ∀ e, r = some e → e.isMissing = false

section Finds

variable {hashes : List Str} {H : Sha256} {opts : Options} {entry : FileEntry}
variable {target path : Str}

theorem finds_none : Finds hashes (pure none) := fun _ h => nomatch h

theorem finds_some {e : Err} (he : e.isMissing = false) : Finds hashes (pure (some e)) := by
  rintro e' ⟨⟩
  exact he

theorem finds_getChunkReader {h : Str} (hh : h ∈ hashes) :
    (getChunkReader h).All (fun c : Cmd => c.finishes = true) (found hashes)
      fun r => ∀ e, r = .error e → e.isMissing = false := by
  unfold getChunkReader
  split
  · rintro e ⟨⟩
    rfl
  · refine Prog.all_call rfl fun r hr => ?_
    cases r with
    | content b => exact fun e h => nomatch h
    | absent => exact absurd hh hr
    | failed msg =>
        rintro e ⟨⟩
        rfl

theorem finds_verifyCachedChunk {h : Str} (hh : h ∈ hashes) :
    Finds hashes (verifyCachedChunk H h) := by
  refine (finds_getChunkReader hh).bind fun r hr => ?_
  cases r with
  | error e => exact finds_some (hr e rfl)
  | ok b =>
      refine Prog.all_call rfl fun read _ => ?_
      cases read with
      | some msg => exact finds_some rfl
      | none =>
          simp only
          split
          · exact finds_some rfl
          · exact finds_none

theorem finds_copyChunks {i : Nat} {written : Int64} {cs : List ChunkRef}
    (hcs : ∀ c ∈ cs, c.hash ∈ hashes) :
    (copyChunks H path target i written cs).All (fun c : Cmd => c.finishes = true) (found hashes)
      fun r => ∀ e, r = .error e → e.isMissing = false := by
  induction cs generalizing i written with
  | nil => exact fun e h => nomatch h
  | cons c cs ih =>
      obtain ⟨hc, hrest⟩ := List.forall_mem_cons.mp hcs
      refine (finds_getChunkReader hc).bind fun r hr => ?_
      cases r with
      | error e =>
          rintro e' ⟨⟩
          exact hr e rfl
      | ok content =>
          dsimp only
          generalize content.take c.size.toInt.toNat = data
          have honly : (copyToTarget c.hash target (blockReads data)).Only
              fun c : Cmd => c.finishes = true := by
            apply only_copyToTarget
            · rfl
            · exact fun _ => rfl
          refine honly.all.bind fun res _ => ?_
          cases res with
          | some msg =>
              rintro e ⟨⟩
              rfl
          | none =>
              simp only
              split
              · rintro e ⟨⟩
                rfl
              · split
                · refine Prog.all_call rfl fun _ _ => ?_
                  rintro e ⟨⟩
                  rfl
                · exact ih hrest

theorem finishes_removeOld :
    (removeOld opts target).Only fun c : Cmd => c.finishes = true := by
  apply only_removeOld
  rfl

theorem finds_materializeFile (hcs : ∀ c ∈ entry.chunks, c.hash ∈ hashes) :
    Finds hashes (materializeFile H opts entry target) := by
  refine finishes_removeOld.all.bind fun _ _ => ?_
  refine Prog.all_call rfl fun opened _ => ?_
  cases opened with
  | some msg => exact finds_some rfl
  | none =>
      refine (finds_copyChunks hcs).bind fun res hres => ?_
      cases res with
      | error e => exact finds_some (hres e rfl)
      | ok written =>
          simp only
          split
          · exact finds_some rfl
          · exact finds_none

theorem finds_copyFile (hcs : ∀ c ∈ entry.chunks, c.hash ∈ hashes) :
    Finds hashes (copyFile H opts entry target) := by
  refine (finds_materializeFile hcs).bind fun res hres => ?_
  cases res with
  | some e => exact finds_some (hres e rfl)
  | none =>
      simp only
      split
      · split
        · exact Prog.all_call rfl fun _ _ => finds_none
        · exact finds_none
      · exact finds_none

theorem mem_of_linkChunk {c : ChunkRef} (h : linkChunk opts entry = some c) : c ∈ entry.chunks := by
  unfold linkChunk at h
  split at h
  · rename_i c' hstrategy hchunks
    split at h
    · rw [hchunks, ← Option.some.inj h]
      exact List.mem_cons_self
    · contradiction
  · contradiction

theorem finds_placeFile (hcs : ∀ c ∈ entry.chunks, c.hash ∈ hashes) :
    Finds hashes (placeFile H opts entry target) := by
  rw [placeFile]
  cases hlink : linkChunk opts entry with
  | none => exact finds_copyFile hcs
  | some c =>
      have hc : c.hash ∈ hashes := hcs c (mem_of_linkChunk hlink)
      refine (finds_verifyCachedChunk hc).bind fun res hres => ?_
      cases res with
      | some e => exact finds_some (hres e rfl)
      | none =>
          have hstat : (hasChunk c.hash).Only fun c : Cmd => c.finishes = true := only_hasChunk rfl
          refine hstat.all.bind fun present _ => ?_
          cases present with
          | false => exact finds_copyFile hcs
          | true =>
              refine finishes_removeOld.all.bind fun _ _ => ?_
              refine Prog.all_call rfl fun linked _ => ?_
              cases linked with
              | none => exact finds_none
              | some msg => exact finds_copyFile hcs

theorem finds_materializeFiles {destDir : Str} {entries : List FileEntry}
    (hes : ∀ e ∈ entries, ∀ c ∈ e.chunks, c.hash ∈ hashes) :
    Finds hashes (materializeFiles H opts destDir entries) := by
  induction entries with
  | nil => exact finds_none
  | cons entry entries ih =>
      obtain ⟨he, hrest⟩ := List.forall_mem_cons.mp hes
      refine Prog.all_call rfl fun deadline _ => ?_
      cases deadline with
      | some d => exact finds_some rfl
      | none =>
          cases safeJoin destDir entry.path with
          | error e => exact finds_some rfl
          | ok target =>
              refine Prog.all_call rfl fun made _ => ?_
              cases made with
              | some msg => exact finds_some rfl
              | none =>
                  refine (finds_placeFile he).bind fun res hres => ?_
                  cases res with
                  | some e => exact finds_some (hres e rfl)
                  | none => exact ih hrest

theorem finds_materialize {J : Marshal} {m : ArtifactManifest} {destDir : Str} :
    Finds (allChunkHashes m) (materialize H J opts m destDir) := by
  rw [materialize]
  cases validate H J m with
  | error e => exact finds_some rfl
  | ok u =>
      refine Prog.all_call rfl fun made _ => ?_
      cases made with
      | some msg => exact finds_some rfl
      | none =>
          refine finds_materializeFiles fun e he c hc => ?_
          exact mem_allChunkHashes.mpr ⟨e, he, c, hc, rfl⟩

end Finds

/-- A chunk that is in the store is not reported absent. -/
theorem found_of_step {c : Cmd} {r : c.Resp} {t : Tid} {hashes : List Str} {s s' : Node}
    (h : AllCommitted hashes s)
    (hx : nodeSystem.exec t c r s = some s') : found hashes c r := by
  unfold found
  split
  · rename_i x
    intro hmem
    obtain ⟨y, hpart, -⟩ := nodeExec_store hx
    have hcomm := h x hmem
    obtain ⟨hnone, hpart⟩ := Option.ite_none_right_eq_some.mp hpart
    rw [Committed, hnone] at hcomm
    contradiction
  · trivial

theorem mem_chunkRefs {m : ArtifactManifest} {h : Str} :
    h ∈ (chunkRefs m).map (fun ref => ref.2.hash) ↔ h ∈ allChunkHashes m := by
  rw [mem_allChunkHashes]
  simp only [chunkRefs, List.map_flatMap, List.map_map, List.mem_flatMap, List.mem_map,
    Function.comp_apply]

end Spider

import Spider.Tracker.SQL

/-!
# Spider.Tracker.Rows

Rows without a peer.  Reports are recorded whether or not their node is
registered, by the memory store and by the SQL store alike; the registry skips
such rows when it answers.

So a row of a node that is not registered comes from a report made while it
was not (`registered_or_reportedUnregistered`), and a removal leaves no row that
a later registration could bring back (`reports_after_removal`).
-/

namespace Spider

/-- Since its last removal, node `p` has reported the row at a moment when it was
not registered. -/
def ReportedUnregistered (registered : List Event → Prop) (row : Row) (p : Str) :
    List Event → Prop
  | [] => False
  | e :: past => e.request.reports row p ∧ ¬ registered past ∨
      ReportedUnregistered registered row p past ∧ ¬ RemovedBy registered p e past

section Rows

variable {σ : Type} {S : TrackerStore σ} {r : Registry} {row : Row} {p : Str}
variable {past : List Event}

/-- One event, and the registration of a node that it does not remove. -/
theorem registered_run_cons {e : Event}
    (hkept : ¬ RemovedBy (fun h => S.registered (S.run r h) p) p e past)
    (hreg : S.registered (S.run r past) p) : S.registered (S.run r (e :: past)) p := by
  rw [removedBy_iff] at hkept
  rw [TrackerStore.run_cons]
  cases hcall : e.request.call r e.time with
  | none => exact hreg
  | some c =>
      refine (S.registered_exec e.time c _ p).mpr (.inr ⟨hreg, fun hrem => ?_⟩)
      exact hkept ⟨c, hcall, hrem⟩

/-- A report removes nobody. -/
theorem not_removedBy_of_reports {registered : List Event → Prop} {e : Event} {p' : Str}
    (hrep : e.request.reports row p') : ¬ RemovedBy registered p e past := by
  rintro (h | ⟨h, -⟩)
  all_goals
    rw [h] at hrep
    exact hrep

/-- A recorded node is registered, or has reported the row while it was not. -/
theorem registered_or_reportedUnregistered (history : List Event)
    (hloc : S.located (S.run r history) row p) :
    S.registered (S.run r history) p ∨
      ReportedUnregistered (fun h => S.registered (S.run r h) p) row p history := by
  induction history with
  | nil => exact absurd hloc (S.not_located_init row p)
  | cons e past ih =>
      by_cases hreg : S.registered (S.run r past) p
      · -- a registered node that has lost its registration was removed with its rows
        by_cases hrem : RemovedBy (fun h => S.registered (S.run r h) p) p e past
        · rcases located_run_cons.mp hloc with hrep | ⟨-, hkept⟩
          · exact absurd hrem (not_removedBy_of_reports hrep)
          · exact absurd hrem hkept
        · exact .inl (registered_run_cons hrem hreg)
      · rcases located_run_cons.mp hloc with hrep | ⟨hloc', hkept⟩
        · exact .inr (.inl ⟨hrep, hreg⟩)
        · rcases ih hloc' with hreg' | hunreg
          · exact absurd hreg' hreg
          · exact .inr (.inr ⟨hunreg, hkept⟩)

/-- What is recorded after a removal was reported after it. -/
theorem reports_after_removal {newer : List Event} {e : Event}
    (hrem : RemovedBy (fun h => S.registered (S.run r h) p) p e past)
    (hloc : S.located (S.run r (newer ++ e :: past)) row p) :
    ∃ e' ∈ newer, e'.request.reports row p := by
  induction newer with
  | nil =>
      rcases located_run_cons.mp hloc with hrep | ⟨-, hkept⟩
      · exact absurd hrem (not_removedBy_of_reports hrep)
      · exact absurd hrem hkept
  | cons e' newer ih =>
      rcases located_run_cons.mp hloc with hrep | ⟨hloc', -⟩
      · exact ⟨e', List.mem_cons_self, hrep⟩
      · obtain ⟨e'', he'', hrep⟩ := ih hloc'
        exact ⟨e'', List.mem_cons_of_mem e' he'', hrep⟩

end Rows

/-- After every history: each recorded node is registered or has reported the row
while it was not; and a location recorded after a removal of its node was
reported after that removal. -/
def RowsAccountedFor {σ : Type} (S : TrackerStore σ) (r : Registry) : Prop :=
  ∀ history row p, S.located (S.run r history) row p →
    (S.registered (S.run r history) p ∨
      ReportedUnregistered (fun h => S.registered (S.run r h) p) row p history) ∧
    ∀ newer e past, history = newer ++ e :: past →
      RemovedBy (fun h => S.registered (S.run r h) p) p e past →
        ∃ e' ∈ newer, e'.request.reports row p

/-- The rows of both stores are accounted for. -/
theorem rows_accountedFor (r : Registry) (g : Ranging) :
    RowsAccountedFor (memoryStore g) r ∧ RowsAccountedFor (sqlStore g) r := by
  have hany : ∀ {σ : Type} (S : TrackerStore σ), RowsAccountedFor S r := by
    intro σ S history row p hloc
    refine ⟨registered_or_reportedUnregistered history hloc, fun newer e past hsplit hrem => ?_⟩
    subst hsplit
    exact reports_after_removal hrem hloc
  exact ⟨hany (memoryStore g), hany (sqlStore g)⟩

/-- A late report leaves a row without a peer, in both stores: the node registers,
deregisters, and a report of it arrives after that. -/
theorem orphan_row_after_deregister :
    let history : List Event :=
      [⟨⟨3, by decide⟩, .reportChunks (str "n1") [str "c1"]⟩,
       ⟨⟨2, by decide⟩, .deregisterPeer (str "n1")⟩,
       ⟨⟨1, by decide⟩, .registerPeer (some ⟨str "n1", str "10.0.0.1:9000", [], [], [], [], 0⟩)⟩]
    let r := newRegistry 30000000000 (fun a b => a == b)
    ((memoryStore .plain).located ((memoryStore .plain).run r history) (.chunk (str "c1"))
        (str "n1") ∧
      ¬ (memoryStore .plain).registered ((memoryStore .plain).run r history) (str "n1")) ∧
    ((sqlStore .plain).located ((sqlStore .plain).run r history) (.chunk (str "c1")) (str "n1") ∧
      ¬ (sqlStore .plain).registered ((sqlStore .plain).run r history) (str "n1")) := by
  intro history r
  have hlocated : ∀ {σ : Type} (S : TrackerStore σ),
      S.located (S.run r history) (.chunk (str "c1")) (str "n1") := by
    intro σ S
    refine located_run_cons.mpr (.inl ⟨rfl, str "c1", List.mem_singleton_self _, ?_, rfl⟩)
    decide
  refine ⟨⟨hlocated _, fun hreg => ?_⟩, ⟨hlocated _, fun hreg => ?_⟩⟩
  · have hfound : (((memoryStore .plain).run r history).peers.lookup (str "n1")).isSome = true :=
      AList.lookup_isSome.mpr hreg
    revert hfound
    decide +kernel
  · have hfound : (((sqlStore .plain).run r history).peers.lookup (str "n1")).isSome = true :=
      AList.lookup_isSome.mpr hreg
    revert hfound
    decide +kernel

end Spider

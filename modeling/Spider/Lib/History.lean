import Spider.Lib.Prog

/-!
# Spider.Lib.History

History variables: a record, beside the shared state, of what the threads have
done so far.

* `System.record`: the system with such a record.  The record is written by
  every step and read by none, so each interleaving of the system is one of the
  recording system (`Reachable.record`); what a protocol for the latter shows
  holds of the former.
* `Protocol.rely_of_unmoved`: a thread that has not issued a command yet may
  rely on what the others have done since the start.
-/

namespace Conc

variable {S : Sig} {α σ γ T : Type} {M : System S σ T}

/-- The system with a record of its steps. -/
def System.record (M : System S σ T) (note : T → (c : S.Cmd) → S.Resp c → σ → γ → γ) :
    System S (σ × γ) T where
  exec t c r x := (M.exec t c r x.1).map fun s' => (s', note t c r x.1 x.2)

variable {note : T → (c : S.Cmd) → S.Resp c → σ → γ → γ} {t : T}

theorem System.record_eq_some {c : S.Cmd} {r : S.Resp c} {x x' : σ × γ}
    (h : (M.record note).exec t c r x = some x') :
    M.exec t c r x.1 = some x'.1 ∧ x'.2 = note t c r x.1 x.2 := by
  obtain ⟨s', hs', rfl⟩ := Option.map_eq_some_iff.mp h
  exact ⟨hs', rfl⟩

variable [DecidableEq T]

/-- A step of the system is one of the recording system, whatever is on record. -/
theorem Step.record {cfg cfg' : Config S σ T α} (h : Step M cfg cfg') (g : γ) :
    ∃ g', Step (M.record note) ⟨(cfg.st, g), cfg.prog⟩ ⟨(cfg'.st, g'), cfg'.prog⟩ := by
  cases h with
  | @mk t c k r s' hp hx =>
      refine ⟨note t c r cfg.st g, ?_⟩
      have hrec : (M.record note).exec t c r (cfg.st, g) = some (s', note t c r cfg.st g) := by
        simp [System.record, hx]
      exact @Step.mk _ _ _ _ _ _ ⟨(cfg.st, g), cfg.prog⟩ t c k r _ hp hrec

theorem Reachable.record {init cfg : Config S σ T α} (h : Reachable M init cfg) (g : γ) :
    ∃ g', Reachable (M.record note) ⟨(init.st, g), init.prog⟩ ⟨(cfg.st, g'), cfg.prog⟩ := by
  induction h with
  | refl => exact ⟨g, .refl⟩
  | tail _ hstep ih =>
      obtain ⟨g1, hreach⟩ := ih
      obtain ⟨g2, hrec⟩ := hstep.record g1
      exact ⟨g2, hreach.tail hrec⟩

/-! ## Threads that have not moved -/

/-- What is left of a program after one command. -/
inductive Prog.Next : Prog S α → Prog S α → Prop
  | mk {c : S.Cmd} {k : S.Resp c → Prog S α} (r : S.Resp c) : Prog.Next (.call c k) (k r)

/-- Programs get smaller. -/
theorem Prog.wellFounded_next : WellFounded fun q p : Prog S α => Prog.Next p q := by
  refine ⟨fun p => ?_⟩
  induction p with
  | ret a => exact ⟨_, fun q h => nomatch h⟩
  | call c k ih => exact ⟨_, fun q h => match h with | .mk r => ih r⟩

theorem Prog.ne_of_next {p q : Prog S α} (h : Relation.TransGen Prog.Next p q) : q ≠ p := by
  rintro rfl
  have hwf := (Prog.wellFounded_next (S := S) (α := α)).transGen
  exact hwf.irrefl.irrefl q (Relation.transGen_swap.mp h)

/-- A thread that has its whole program before it may rely on what the others
have done. -/
theorem Protocol.rely_of_unmoved {P : Protocol M} {Q : T → α → σ → Prop}
    {init cfg : Config S σ T α} (hinv : P.Inv init.st)
    (hwp : ∀ t, P.wp t (Q t) (init.prog t) init.st) (hreach : Reachable M init cfg)
    (hp : cfg.prog t = init.prog t) : P.rely t init.st cfg.st := by
  -- either the thread has not moved, or its program has got smaller
  have hmoved : cfg.prog t = init.prog t ∧ P.rely t init.st cfg.st ∨
      Relation.TransGen Prog.Next (init.prog t) (cfg.prog t) := by
    clear hp
    induction hreach with
    | refl => exact .inl ⟨rfl, P.rely_refl t _⟩
    | @tail mid _ hreach hstep ih =>
        obtain ⟨hi, hw⟩ := P.sound hinv hwp hreach
        cases hstep with
        | @mk u c k r s' hpu hx =>
            dsimp only
            by_cases htu : t = u
            · rw [htu, Function.update_self]
              rw [htu] at ih
              have hnext : Prog.Next (mid.prog u) (k r) := by
                rw [hpu]
                exact .mk r
              right
              cases ih with
              | inl h =>
                  rw [← h.1]
                  exact .single hnext
              | inr h => exact h.tail hnext
            · rw [Function.update_of_ne htu]
              have hu := hw u
              rw [hpu] at hu
              have ha : P.about u c mid.st := (hu mid.st (P.rely_refl u _) hi).1
              cases ih with
              | inl h => exact .inl ⟨h.1, P.rely_trans h.2 (P.step_rely hi ha hx htu)⟩
              | inr h => exact .inr h
  cases hmoved with
  | inl h => exact h.2
  | inr h => exact absurd hp (Prog.ne_of_next h)

end Conc

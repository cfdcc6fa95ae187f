import Mathlib

/-!
# Spider.Lib.Counting

Counting the members of a group that are in some state, when one of them changes its state.
-/

namespace Counting

variable {α : Type}

/-- The member at a position of a list changes. -/
theorem countP_set_add (f : α → Bool) {l : List α} {i : Nat} {a : α} (a' : α)
    (h : l[i]? = some a) : (l.set i a').countP f + (f a).toNat = l.countP f + (f a').toNat := by
  induction l generalizing i with
  | nil => contradiction
  | cons x l ih =>
      cases i with
      | zero =>
          obtain rfl : x = a := by simpa using h
          rw [List.set_cons_zero, List.countP_cons, List.countP_cons]
          cases f x <;> cases f a' <;> simp
      | succ i =>
          have hrest := ih (by simpa using h)
          rw [List.set_cons_succ, List.countP_cons, List.countP_cons]
          omega

theorem toNat_le_countP {f : α → Bool} {l : List α} {a : α} (h : a ∈ l) :
    (f a).toNat ≤ l.countP f := by
  cases hf : f a with
  | false => exact Nat.zero_le _
  | true => exact List.countP_pos_iff.mpr ⟨a, h, hf⟩

/-! ## Threads -/

/-- Exactly `z` threads are in a state of the kind `f`. -/
def Counts (f : α → Bool) (z : Int) : Prop :=
  ∃ s : Finset α, (∀ a, a ∈ s ↔ f a = true) ∧ z = s.card

theorem counts_none {f : α → Bool} {z : Int} (h : ∀ a, f a = false) : Counts f z ↔ z = 0 := by
  simp [Counts, h, ← Finset.eq_empty_iff_forall_notMem]

/-- One thread takes another state. -/
theorem Counts.update [DecidableEq α] {f g : α → Bool} {z : Int} (h : Counts f z) (a : α)
    (hg : ∀ b, b ≠ a → g b = f b) : Counts g (z + (g a).toNat - (f a).toNat) := by
  obtain ⟨s, hs, rfl⟩ := h
  have herase : (s.erase a).card + (f a).toNat = s.card := by
    cases hf : f a with
    | false => simp [Finset.erase_eq_of_notMem (mt (hs a).mp (by simp [hf]))]
    | true => exact Finset.card_erase_add_one ((hs a).mpr hf)
  cases hga : g a with
  | false => exact ⟨s.erase a, by grind, by grind⟩
  | true => exact ⟨insert a (s.erase a), by grind, by grind⟩

theorem Counts.toNat_le {f : α → Bool} {z : Int} (h : Counts f z) (a : α) : (f a).toNat ≤ z := by
  obtain ⟨s, hs, rfl⟩ := h
  cases hf : f a with
  | false => exact Int.natCast_nonneg _
  | true => exact_mod_cast Finset.card_pos.mpr ⟨a, (hs a).mpr hf⟩

end Counting

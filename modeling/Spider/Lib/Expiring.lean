import Spider.Lib.Table

/-!
# Spider.Lib.Expiring

Finite maps whose entries have a deadline.  A read finds an entry up to its
deadline; an entry past it, or one the map has lost otherwise, is gone for good.
-/

/-- A value and its deadline. -/
structure Timed (V : Type) where
  value : V
  expiresAt : Int
  deriving DecidableEq

/-- Entries with deadlines. -/
abbrev Expiring (K V : Type) := AList fun _ : K => Timed V

namespace Expiring

variable {K V : Type} [DecidableEq K]

/-- Read a key at a given time; `gone` says that its entry has been lost. -/
def get (c : Expiring K V) (now : Int) (gone : Bool) (k : K) : Option V × Expiring K V :=
  match c.lookup k with
  | none => (none, c)
  | some e => if !gone && decide (now ≤ e.expiresAt) then (some e.value, c) else (none, c.erase k)

/-- A read finds an entry before its deadline and leaves the map as it is, or it
finds nothing and nothing is left. -/
theorem get_cases (c : Expiring K V) (now : Int) (gone : Bool) (k : K) :
    (∃ e, c.lookup k = some e ∧ now ≤ e.expiresAt ∧ c.get now gone k = (some e.value, c)) ∨
      c.get now gone k = (none, c.erase k) := by
  unfold get
  cases he : c.lookup k with
  | none =>
      have hk : k ∉ c := by rwa [← AList.lookup_eq_none]
      have hsame : c.erase k = c := by
        apply AList.ext
        exact List.kerase_of_notMem_keys hk
      exact .inr (by rw [hsame])
  | some e =>
      by_cases hlive : (!gone && decide (now ≤ e.expiresAt)) = true
      · have htime : now ≤ e.expiresAt := by
          rw [Bool.and_eq_true, decide_eq_true_eq] at hlive
          exact hlive.2
        exact .inl ⟨e, rfl, htime, if_pos hlive⟩
      · exact .inr (if_neg hlive)

end Expiring

import Mathlib

/-!
# Spider.Lib.StableSort

Stable sorting by a key.

`SortsStably key l l'` says that `l'` is `l` sorted by `key`, with the order of `l` kept
where the keys are equal.  Mathlib's `insertionSort` does that, and so does the loop
that swaps each element to its place (`insertionLoop`).  Sorting by one key and then by
another sorts by the pair, the second key first (`SortsStably.comp`).
-/

namespace StableSort

variable {α κ κ' : Type} [LinearOrder κ] [LinearOrder κ']

/-- A stable sort by a key. -/
structure SortsStably (key : α → κ) (l l' : List α) : Prop where
  perm : l'.Perm l
  sorted : l'.Pairwise fun a b => key a ≤ key b
  ties : ∀ k, l'.filter (key · = k) = l.filter (key · = k)

/-- Elements with one key are in order. -/
theorem pairwise_filter_key (key : α → κ) (l : List α) (k : κ) :
    (l.filter (key · = k)).Pairwise fun a b => key a ≤ key b := by
  rw [List.pairwise_filter]
  refine List.pairwise_of_forall fun a b ha hb => ?_
  rw [of_decide_eq_true ha, of_decide_eq_true hb]

variable {key : α → κ}

theorem sortsStably_insertionSort {r : α → α → Prop} [DecidableRel r]
    (hr : ∀ a b, r a b ↔ key a ≤ key b) (l : List α) : SortsStably key l (l.insertionSort r) := by
  have htotal : Std.Total r := ⟨fun a b => by rw [hr, hr]; exact le_total (key a) (key b)⟩
  have htrans : IsTrans α r := ⟨fun a b c => by rw [hr, hr, hr]; exact le_trans⟩
  have hperm := List.perm_insertionSort r l
  refine ⟨hperm, (List.pairwise_insertionSort r l).imp fun {a b} => (hr a b).mp, fun k => ?_⟩
  -- the elements with key `k` are a sublist of both, and equally many
  have hequal := (pairwise_filter_key key l k).imp fun {a b} => (hr a b).mpr
  have hsub := (List.sublist_insertionSort hequal List.filter_sublist).filter (key · = k)
  simp only [List.filter_filter, Bool.and_self] at hsub
  exact (hsub.eq_of_length (hperm.filter _).length_eq.symm).symm

theorem SortsStably.reverse {l l' : List α} (h : SortsStably key l l') :
    SortsStably (fun a => OrderDual.toDual (key a)) l.reverse l'.reverse := by
  refine ⟨?_, ?_, fun k => ?_⟩
  · exact (List.reverse_perm _).trans (h.perm.trans (List.reverse_perm _).symm)
  · rw [List.pairwise_reverse]
    exact h.sorted
  · rw [List.filter_reverse, List.filter_reverse]
    exact congrArg _ (h.ties (OrderDual.ofDual k))

/-- **Two sorts.**  The later one counts more. -/
theorem SortsStably.comp {key' : α → κ'} {l l' l'' : List α} (h : SortsStably key l l')
    (h' : SortsStably key' l' l'') : SortsStably (fun a => toLex (key' a, key a)) l l'' := by
  refine ⟨h'.perm.trans h.perm, ?_, fun k => ?_⟩
  · rw [List.pairwise_iff_forall_sublist]
    intro a b hab
    have hle := List.pairwise_iff_forall_sublist.mp h'.sorted hab
    rw [Prod.Lex.toLex_le_toLex]
    rcases lt_or_eq_of_le hle with hlt | heq
    · exact .inl hlt
    · -- with equal later keys the two stand as the earlier sort has left them
      have hfilter : [a, b].Sublist (l''.filter (key' · = key' a)) := by
        have hboth := hab.filter (key' · = key' a)
        simpa [heq] using hboth
      rw [h'.ties] at hfilter
      have hab' := hfilter.trans List.filter_sublist
      exact .inr ⟨heq, List.pairwise_iff_forall_sublist.mp h.sorted hab'⟩
  · have hsplit : ∀ m : List α, m.filter (fun a => toLex (key' a, key a) = k) =
        (m.filter (key' · = (ofLex k).1)).filter (key · = (ofLex k).2) := by
      intro m
      rw [List.filter_filter]
      refine List.filter_congr fun a _ => ?_
      rw [← Bool.decide_and, decide_eq_decide, ← toLex_ofLex k, toLex_inj, Prod.ext_iff, and_comm]
      rfl
    rw [hsplit, hsplit, h'.ties, List.filter_filter, List.filter_filter]
    have hswap : ∀ m : List α, m.filter (fun a => decide (key a = (ofLex k).2) &&
        decide (key' a = (ofLex k).1)) =
        (m.filter (key · = (ofLex k).2)).filter (key' · = (ofLex k).1) := by
      intro m
      rw [List.filter_filter]
      exact List.filter_congr fun a _ => Bool.and_comm ..
    rw [hswap, hswap, h.ties]

/-! ## Swapping into place -/

section Loop

variable (key : α → κ)

/-- The inner loop of an insertion sort: `a` moves to the left, past everything with a
larger key.  The list is what is to the left of `a`, from right to left. -/
def sink (a : α) : List α → List α
  | [] => [a]
  | b :: bs => if key a < key b then b :: sink a bs else a :: b :: bs

/-- The outer loop. -/
def insertionLoop (l : List α) : List α := (l.foldl (fun sorted a => sink key a sorted) []).reverse

variable {key}

theorem sink_eq (a : α) (l : List α) :
    sink key a l = l.orderedInsert (fun a b => OrderDual.toDual (key a) ≤ OrderDual.toDual (key b)) a := by
  induction l with
  | nil => rfl
  | cons b l ih =>
      rw [sink, ih, List.orderedInsert_cons]
      by_cases hlt : key a < key b
      · rw [if_pos hlt, if_neg fun hle => not_le_of_gt hlt (OrderDual.toDual_le_toDual.mp hle)]
      · rw [if_neg hlt, if_pos (OrderDual.toDual_le_toDual.mpr (not_lt.mp hlt))]

theorem sortsStably_insertionLoop (l : List α) : SortsStably key l (insertionLoop key l) := by
  have hsorted := (sortsStably_insertionSort
    (fun a b : α => Iff.refl (OrderDual.toDual (key a) ≤ OrderDual.toDual (key b))) l.reverse).reverse
  rw [List.reverse_reverse] at hsorted
  rw [insertionLoop]
  simp only [sink_eq]
  rw [List.insertionSort, List.foldr_reverse] at hsorted
  exact hsorted

end Loop

end StableSort

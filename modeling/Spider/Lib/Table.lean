import Mathlib

/-!
# Spider.Lib.Table

Tables of two keys: a finite map from rows to finite maps from columns to
values.  A cell is set with `put`; `drop` clears a column in all rows.

Besides the cells, the lemmas speak of `cols`, the columns that are set in a
row.

`AList.deleteWhere` deletes the entries of a finite map by their keys.
-/

namespace AList

variable {K : Type} {β : K → Type}

/-- Delete the entries whose key satisfies `p`. -/
def deleteWhere (m : AList β) (p : K → Bool) : AList β where
  entries := m.entries.filter fun e => !p e.1
  nodupKeys := m.nodupKeys.sublist List.filter_sublist

theorem mem_deleteWhere {m : AList β} {p : K → Bool} {k : K} :
    k ∈ m.deleteWhere p ↔ k ∈ m ∧ p k = false := by
  show k ∈ (m.entries.filter fun e => !p e.1).map Sigma.fst ↔ k ∈ m.entries.map Sigma.fst ∧ _
  simp only [List.mem_map, List.mem_filter]
  constructor
  · rintro ⟨e, ⟨he, hp⟩, rfl⟩
    exact ⟨⟨e, he, rfl⟩, by simpa using hp⟩
  · rintro ⟨⟨e, he, rfl⟩, hp⟩
    exact ⟨e, ⟨he, by simpa using hp⟩, rfl⟩

theorem lookup_deleteWhere [DecidableEq K] {m : AList β} {p : K → Bool} {k : K} :
    (m.deleteWhere p).lookup k = if p k then none else m.lookup k := by
  have hentries : ∀ v, ⟨k, v⟩ ∈ (m.deleteWhere p).entries ↔ ⟨k, v⟩ ∈ m.entries ∧ p k = false := by
    intro v
    show ⟨k, v⟩ ∈ m.entries.filter (fun e => !p e.1) ↔ _
    rw [List.mem_filter, Bool.not_eq_true']
  ext v
  rw [← Option.mem_def, mem_lookup_iff, hentries, ← mem_lookup_iff, Option.mem_def]
  cases p k <;> simp

section Fold

variable {V : Type} [DecidableEq K] {k : K}

/-- Collect the values of some keys. -/
theorem lookup_foldl_collect {f : K → Option V} {ks : List K} [Decidable (k ∈ ks)]
    {step : (AList fun _ : K => V) → K → AList fun _ : K => V}
    (hsome : ∀ out k v, f k = some v → step out k = out.insert k v)
    (hnone : ∀ out k, f k = none → step out k = out) :
    (ks.foldl step ∅).lookup k = if k ∈ ks then f k else none := by
  -- what is in the map already is a value of its key
  have hfold : ∀ (ks : List K) (out : AList fun _ : K => V),
      out.lookup k = none ∨ out.lookup k = f k →
      (ks.foldl step out).lookup k = if k ∈ ks then f k else out.lookup k := by
    intro ks
    induction ks with
    | nil => simp
    | cons k' ks ih =>
        intro out hout
        rw [List.foldl_cons]
        cases hv : f k' with
        | none =>
            rw [hnone out k' hv, ih out hout]
            by_cases hk : k = k'
            · subst hk
              rcases hout with h | h <;> simp [h, hv]
            · simp [hk]
        | some v =>
            rw [hsome out k' v hv]
            by_cases hk : k = k'
            · subst hk
              rw [ih _ (.inr (by rw [lookup_insert, hv]))]
              simp [hv]
            · rw [ih _ (by rwa [lookup_insert_ne hk])]
              simp [hk]
  rw [hfold ks ∅ (.inl rfl), lookup_empty]
  congr

/-- Copy a map into another one. -/
theorem lookup_foldl_copy {m out : AList fun _ : K => V} :
    (m.entries.foldl (fun out e => out.insert e.1 e.2) out).lookup k =
      (m.lookup k).or (out.lookup k) := by
  have hfold : ∀ (l : List (Sigma fun _ : K => V)) (out : AList fun _ : K => V), l.NodupKeys →
      (l.foldl (fun out e => out.insert e.1 e.2) out).lookup k =
        (l.dlookup k).or (out.lookup k) := by
    intro l
    induction l with
    | nil => simp
    | cons e l ih =>
        intro out hnodup
        obtain ⟨k', v⟩ := e
        obtain ⟨hfresh, hnodup⟩ := List.nodupKeys_cons.mp hnodup
        rw [List.foldl_cons, ih _ hnodup]
        by_cases hk : k = k'
        · subst hk
          have hnone : l.dlookup k = none := List.dlookup_eq_none.mpr hfresh
          simp [hnone]
        · simp [hk, List.dlookup_cons_ne]
  exact hfold m.entries out m.nodupKeys

end Fold

end AList

/-- Rows of cells. -/
abbrev Table (K N V : Type) := AList fun _ : K => AList fun _ : N => V

namespace Table

variable {K N V : Type} [DecidableEq K] [DecidableEq N]

/-- Set one cell. -/
def put (t : Table K N V) (k : K) (n : N) (v : V) : Table K N V :=
  t.insert k (((t.lookup k).getD ∅).insert n v)

/-- Clear a column. -/
def drop (t : Table K N V) (n : N) : Table K N V where
  entries := t.entries.map fun e => ⟨e.1, e.2.erase n⟩
  nodupKeys := by
    have hkeys : (t.entries.map fun e => (⟨e.1, e.2.erase n⟩ : Sigma fun _ : K => AList fun _ : N => V)).keys =
        t.entries.keys := by
      simp [List.keys, Function.comp_def]
    rw [List.NodupKeys, hkeys]
    exact t.nodupKeys

/-- The columns that are set in a row. -/
def cols (t : Table K N V) (k : K) : List N := ((t.lookup k).map AList.keys).getD []

variable {t : Table K N V} {k k' : K} {n n' : N} {v : V}

omit [DecidableEq N] in
theorem nodup_cols (t : Table K N V) (k : K) : (t.cols k).Nodup := by
  unfold cols
  cases t.lookup k with
  | none => exact List.nodup_nil
  | some row => exact row.keys_nodup

omit [DecidableEq N] in
@[simp] theorem cols_empty (k : K) : (∅ : Table K N V).cols k = [] := by
  simp [cols]

/-- The columns of a row after one cell has been set. -/
theorem mem_cols_put : n' ∈ (t.put k n v).cols k' ↔ (k' = k ∧ n' = n) ∨ n' ∈ t.cols k' := by
  unfold put cols
  by_cases hk : k' = k
  · subst hk
    rw [AList.lookup_insert]
    cases hrow : t.lookup k' with
    | none => simp
    | some row =>
        by_cases hn : n' = n
        · simp [AList.keys_insert, hn]
        · simp [AList.keys_insert, hn, List.mem_erase_of_ne]
  · simp [AList.lookup_insert_ne hk, hk]

theorem lookup_drop : (t.drop n).lookup k = (t.lookup k).map (AList.erase n) := by
  have hentries : ∀ l : List (Sigma fun _ : K => AList fun _ : N => V),
      (l.map fun e => (⟨e.1, e.2.erase n⟩ : Sigma fun _ : K => AList fun _ : N => V)).dlookup k =
        (l.dlookup k).map (AList.erase n) := by
    intro l
    induction l with
    | nil => rfl
    | cons e l ih =>
        obtain ⟨k0, row⟩ := e
        by_cases hk : k = k0
        · subst hk
          simp [List.dlookup_cons_eq]
        · have hk' : ¬ k0 = k := fun h => hk h.symm
          simpa [List.dlookup, hk'] using ih
  exact hentries t.entries

/-- The columns of a row after one column has been cleared. -/
theorem mem_cols_drop : n' ∈ (t.drop n).cols k ↔ n' ∈ t.cols k ∧ n' ≠ n := by
  unfold cols
  rw [lookup_drop]
  cases t.lookup k with
  | none => simp
  | some row =>
      have hmem : n' ∈ (row.erase n).keys ↔ n' ∈ row.keys ∧ n' ≠ n := by
        rw [AList.keys_erase, row.keys_nodup.mem_erase_iff]
        exact and_comm
      simpa using hmem

end Table

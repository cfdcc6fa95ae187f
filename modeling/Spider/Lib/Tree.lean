import Mathlib

/-!
# Spider.Lib.Tree

Finite trees with named branches, such as directory trees: inner nodes are lists
of named subtrees, leaves carry a value.

`leaves` lists the leaves with the names on the way to each; `at?` follows a list
of names.  In a tree whose siblings have different names the two agree
(`at?_of_mem_leaves`, `mem_leaves_at?`).
-/

mutual

/-- A tree with branches named by `ν` and leaves in `φ`. -/
inductive NamedTree (ν φ : Type) where
  | leaf (a : φ)
  | node (branches : NamedForest ν φ)

/-- The branches of a node. -/
inductive NamedForest (ν φ : Type) where
  | nil
  | cons (name : ν) (tree : NamedTree ν φ) (rest : NamedForest ν φ)

end

variable {ν φ : Type}

mutual

/-- The leaves, with the names that lead to them. -/
def NamedTree.leaves : NamedTree ν φ → List (List ν × φ)
  | .leaf a => [([], a)]
  | .node branches => branches.leaves

def NamedForest.leaves : NamedForest ν φ → List (List ν × φ)
  | .nil => []
  | .cons name tree rest => tree.leaves.map (fun p => (name :: p.1, p.2)) ++ rest.leaves

end

def NamedForest.names : NamedForest ν φ → List ν
  | .nil => []
  | .cons name _ rest => name :: rest.names

mutual

/-- Siblings have different names, and all names meet `P`. -/
def NamedTree.WellNamed (P : ν → Prop) : NamedTree ν φ → Prop
  | .leaf _ => True
  | .node branches => branches.WellNamed P

def NamedForest.WellNamed (P : ν → Prop) : NamedForest ν φ → Prop
  | .nil => True
  | .cons name tree rest => P name ∧ name ∉ rest.names ∧ tree.WellNamed P ∧ rest.WellNamed P

end

section Leaves

variable {P : ν → Prop}

mutual

theorem NamedTree.names_of_mem_leaves {t : NamedTree ν φ} (h : t.WellNamed P) {p : List ν × φ}
    (hp : p ∈ t.leaves) : ∀ n ∈ p.1, P n := by
  cases t with
  | leaf a =>
      rw [NamedTree.leaves, List.mem_singleton] at hp
      simp [hp]
  | node branches =>
      rw [NamedTree.leaves] at hp
      rw [NamedTree.WellNamed] at h
      exact NamedForest.names_of_mem_leaves h hp

theorem NamedForest.names_of_mem_leaves {f : NamedForest ν φ} (h : f.WellNamed P) {p : List ν × φ}
    (hp : p ∈ f.leaves) : ∀ n ∈ p.1, P n := by
  cases f with
  | nil => contradiction
  | cons name tree rest =>
      rw [NamedForest.WellNamed] at h
      obtain ⟨hname, -, htree, hrest⟩ := h
      rw [NamedForest.leaves, List.mem_append, List.mem_map] at hp
      rcases hp with ⟨q, hq, rfl⟩ | hp
      · exact List.forall_mem_cons.mpr ⟨hname, NamedTree.names_of_mem_leaves htree hq⟩
      · exact NamedForest.names_of_mem_leaves hrest hp

end

/-- A leaf below a list of branches is below one of them. -/
theorem NamedForest.head_of_mem_leaves {f : NamedForest ν φ} {p : List ν × φ} (hp : p ∈ f.leaves) :
    ∃ n ns, p.1 = n :: ns ∧ n ∈ f.names := by
  cases f with
  | nil => contradiction
  | cons name tree rest =>
      rw [NamedForest.leaves, List.mem_append, List.mem_map] at hp
      rcases hp with ⟨q, -, rfl⟩ | hp
      · exact ⟨name, q.1, rfl, List.mem_cons_self⟩
      · obtain ⟨n, ns, hn, hmem⟩ := NamedForest.head_of_mem_leaves hp
        exact ⟨n, ns, hn, List.mem_cons_of_mem name hmem⟩

variable [DecidableEq ν]

/-- The branch of this name. -/
def NamedForest.branch? (n : ν) : NamedForest ν φ → Option (NamedTree ν φ)
  | .nil => none
  | .cons name tree rest => if name = n then some tree else rest.branch? n

/-- Follow a list of names. -/
def NamedTree.at? : List ν → NamedTree ν φ → Option (NamedTree ν φ)
  | [], t => some t
  | _ :: _, .leaf _ => none
  | n :: ns, .node branches => (branches.branch? n).bind fun t => t.at? ns

/-- The leaves of one branch. -/
theorem NamedForest.mem_leaves_cons {f : NamedForest ν φ} (h : f.WellNamed P) {n : ν}
    {ns : List ν} {a : φ} :
    (n :: ns, a) ∈ f.leaves ↔ ∃ t, f.branch? n = some t ∧ (ns, a) ∈ t.leaves := by
  cases f with
  | nil => simp [NamedForest.leaves, NamedForest.branch?]
  | cons name tree rest =>
      rw [NamedForest.WellNamed] at h
      have hrest : (n :: ns, a) ∈ rest.leaves ↔
          ∃ t, rest.branch? n = some t ∧ (ns, a) ∈ t.leaves :=
        NamedForest.mem_leaves_cons h.2.2.2
      rw [NamedForest.leaves, List.mem_append, List.mem_map, NamedForest.branch?]
      by_cases hname : name = n
      · rw [if_pos hname]
        constructor
        · rintro (⟨q, hq, he⟩ | hmem)
          · simp only [Prod.mk.injEq, List.cons.injEq] at he
            obtain ⟨⟨-, rfl⟩, rfl⟩ := he
            exact ⟨tree, rfl, hq⟩
          · obtain ⟨n', ns', he, hmem'⟩ := NamedForest.head_of_mem_leaves hmem
            obtain ⟨rfl, -⟩ := List.cons.inj he
            exact absurd (hname ▸ hmem') (hname ▸ h.2.1)
        · rintro ⟨t, ht, hmem⟩
          obtain rfl := Option.some.inj ht
          exact .inl ⟨(ns, a), hmem, by rw [hname]⟩
      · rw [if_neg hname, ← hrest]
        constructor
        · rintro (⟨q, -, he⟩ | hmem)
          · exact absurd (List.cons.inj (congrArg Prod.fst he)).1 hname
          · exact hmem
        · exact .inr

theorem NamedForest.wellNamed_branch {f : NamedForest ν φ} (h : f.WellNamed P) {n : ν} {t : NamedTree ν φ}
    (ht : f.branch? n = some t) : t.WellNamed P := by
  cases f with
  | nil => contradiction
  | cons name tree rest =>
      rw [NamedForest.WellNamed] at h
      rw [NamedForest.branch?] at ht
      split at ht
      · rw [← Option.some.inj ht]
        exact h.2.2.1
      · exact NamedForest.wellNamed_branch h.2.2.2 ht

theorem NamedTree.wellNamed_at? {t s : NamedTree ν φ} (h : t.WellNamed P) {xs : List ν}
    (hs : t.at? xs = some s) : s.WellNamed P := by
  induction xs generalizing t with
  | nil =>
      rw [NamedTree.at?, Option.some.injEq] at hs
      exact hs ▸ h
  | cons x xs ih =>
      cases t with
      | leaf b => contradiction
      | node branches =>
          rw [NamedTree.at?] at hs
          rw [NamedTree.WellNamed] at h
          obtain ⟨t', hbranch, hs⟩ := Option.bind_eq_some_iff.mp hs
          exact ih (NamedForest.wellNamed_branch h hbranch) hs

/-- The leaves below a place are those of the whole tree on the way there. -/
theorem NamedTree.mem_leaves_at? {t s : NamedTree ν φ} (h : t.WellNamed P) {xs : List ν}
    (hs : t.at? xs = some s) {ys : List ν} {a : φ} :
    (ys, a) ∈ s.leaves ↔ (xs ++ ys, a) ∈ t.leaves := by
  induction xs generalizing t with
  | nil =>
      rw [NamedTree.at?, Option.some.injEq] at hs
      rw [hs, List.nil_append]
  | cons x xs ih =>
      cases t with
      | leaf b => contradiction
      | node branches =>
          rw [NamedTree.at?] at hs
          rw [NamedTree.WellNamed] at h
          obtain ⟨t', hbranch, hs⟩ := Option.bind_eq_some_iff.mp hs
          rw [NamedTree.leaves, List.cons_append, NamedForest.mem_leaves_cons h,
            ih (NamedForest.wellNamed_branch h hbranch) hs]
          constructor
          · exact fun hmem => ⟨t', hbranch, hmem⟩
          · rintro ⟨t'', hbranch', hmem⟩
            rw [hbranch, Option.some.injEq] at hbranch'
            exact hbranch' ▸ hmem

/-- A leaf is found where it is listed. -/
theorem NamedTree.at?_of_mem_leaves {t : NamedTree ν φ} (h : t.WellNamed P) {ns : List ν} {a : φ}
    (hmem : (ns, a) ∈ t.leaves) : t.at? ns = some (.leaf a) := by
  induction ns generalizing t with
  | nil =>
      cases t with
      | leaf b =>
          rw [NamedTree.leaves, List.mem_singleton, Prod.mk.injEq] at hmem
          rw [NamedTree.at?, hmem.2]
      | node branches =>
          rw [NamedTree.leaves] at hmem
          obtain ⟨n, ns, he, -⟩ := NamedForest.head_of_mem_leaves hmem
          contradiction
  | cons n ns ih =>
      cases t with
      | leaf b => simp [NamedTree.leaves] at hmem
      | node branches =>
          rw [NamedTree.leaves] at hmem
          rw [NamedTree.WellNamed] at h
          obtain ⟨t, hbranch, hmem⟩ := (NamedForest.mem_leaves_cons h).mp hmem
          rw [NamedTree.at?, hbranch]
          exact ih (NamedForest.wellNamed_branch h hbranch) hmem

end Leaves

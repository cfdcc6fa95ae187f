import Mathlib

/-!
# Spider.Lib.Path

Lexical path cleaning over an arbitrary alphabet with a separator `sep` and a
`dot`: a path is cut at the separators, its elements run through a stack that
drops `""` and `"."` and lets `".."` cancel the element below it, and what is
left is written out again.

The lemmas say what a cleaned path looks like (`normal_elems`), that cleaning
is determined by the element list (`elems_clean`, `render_inj`), how it acts on a
path glued together from two (`elems_append`), and that it makes no path longer
(`length_clean_le`).
-/

namespace LexPath

/-! ## Normal element lists -/

section Normal

variable {α : Type} {sep dot : α}

/-- An ordinary path element: non-empty, without separator, and neither `"."`
nor `".."`. -/
structure IsName (sep dot : α) (e : List α) : Prop where
  ne_nil : e ≠ []
  ne_dot : e ≠ [dot]
  ne_up : e ≠ [dot, dot]
  no_sep : sep ∉ e

/-- The element lists cleaning produces: ordinary elements, preceded in a
relative path by any number of `".."`. -/
def Normal (sep dot : α) (root : Bool) (es : List (List α)) : Prop :=
  ∃ k ns, es = List.replicate k [dot, dot] ++ ns ∧
    (∀ n ∈ ns, IsName sep dot n) ∧ (root = true → k = 0)

variable {root : Bool} {es : List (List α)}

theorem normal_of_names {ns : List (List α)} (h : ∀ n ∈ ns, IsName sep dot n) :
    Normal sep dot root ns :=
  ⟨0, ns, by simp, h, fun _ => rfl⟩

/-- Ordinary elements may be added behind a normal list. -/
theorem Normal.append_names {ns : List (List α)} (h : Normal sep dot root es)
    (hns : ∀ n ∈ ns, IsName sep dot n) : Normal sep dot root (es ++ ns) := by
  obtain ⟨k, ms, rfl, hms, hk⟩ := h
  refine ⟨k, ms ++ ns, by simp, ?_, hk⟩
  intro n hn
  rcases List.mem_append.mp hn with hn | hn
  · exact hms n hn
  · exact hns n hn

/-- A front part of a normal list is normal. -/
theorem Normal.of_isPrefix {es' : List (List α)} (h : Normal sep dot root es) (hpre : es' <+: es) :
    Normal sep dot root es' := by
  obtain ⟨k, ns, rfl, hns, hk⟩ := h
  rw [List.prefix_iff_eq_take, List.take_append, List.take_replicate] at hpre
  rw [hpre]
  refine ⟨_, _, rfl, fun n hn => hns n (List.mem_of_mem_take hn), fun hroot => ?_⟩
  rw [hk hroot, Nat.min_zero]

theorem Normal.no_sep (hds : dot ≠ sep) (h : Normal sep dot root es) : ∀ e ∈ es, sep ∉ e := by
  obtain ⟨k, ns, rfl, hns, -⟩ := h
  intro e he
  rcases List.mem_append.mp he with he | he
  · rw [List.eq_of_mem_replicate he]
    simp [hds.symm]
  · exact (hns e he).no_sep

theorem Normal.ne_nil (h : Normal sep dot root es) : ∀ e ∈ es, e ≠ [] := by
  obtain ⟨k, ns, rfl, hns, -⟩ := h
  intro e he
  rcases List.mem_append.mp he with he | he
  · rw [List.eq_of_mem_replicate he]
    simp
  · exact (hns e he).ne_nil

theorem Normal.ne_dot (h : Normal sep dot root es) : ∀ e ∈ es, e ≠ [dot] := by
  obtain ⟨k, ns, rfl, hns, -⟩ := h
  intro e he
  rcases List.mem_append.mp he with he | he
  · rw [List.eq_of_mem_replicate he]
    simp
  · exact (hns e he).ne_dot

/-- A normal list that does not start with `".."` has ordinary elements only. -/
theorem Normal.names_of_head (h : Normal sep dot root es) (hd : es.head? ≠ some [dot, dot]) :
    ∀ e ∈ es, IsName sep dot e := by
  obtain ⟨k, ns, rfl, hns, -⟩ := h
  cases k with
  | zero => simpa using hns
  | succ k => simp [List.replicate_succ] at hd

theorem Normal.names_of_rooted (h : Normal sep dot true es) : ∀ e ∈ es, IsName sep dot e := by
  obtain ⟨k, ns, rfl, hns, hk⟩ := h
  have hk0 : k = 0 := hk rfl
  subst hk0
  simpa using hns

/-! ## Written-out lists -/

theorem intercalate_ne_nil (hne : ∀ e ∈ es, e ≠ []) (h : es ≠ []) : [sep].intercalate es ≠ [] := by
  obtain ⟨e, es, rfl⟩ := List.exists_cons_of_ne_nil h
  cases es with
  | nil => simpa using hne e List.mem_cons_self
  | cons e' es => simp [List.intercalate_cons_cons, hne e List.mem_cons_self]

/-- The first byte of a written-out list is the first byte of its first element. -/
theorem head?_intercalate {e : List α} (he : e ≠ []) :
    ([sep].intercalate (e :: es)).head? = e.head? := by
  obtain ⟨x, xs, rfl⟩ := List.exists_cons_of_ne_nil he
  cases es with
  | nil => simp
  | cons e' es => simp [List.intercalate_cons_cons]

/-- Write a list of elements out as a path; the empty relative path is `"."`. -/
def render (sep dot : α) (root : Bool) (es : List (List α)) : List α :=
  if root then sep :: [sep].intercalate es
  else if es = [] then [dot] else [sep].intercalate es

theorem render_ne_nil (h : Normal sep dot root es) : render sep dot root es ≠ [] := by
  unfold render
  split
  · simp
  · split
    · simp
    · next hes => exact intercalate_ne_nil h.ne_nil hes

end Normal

/-! ## Elements and the stack -/

variable {α : Type} [DecidableEq α]

instance (sep dot : α) (e : List α) : Decidable (IsName sep dot e) :=
  decidable_of_iff (e ≠ [] ∧ e ≠ [dot] ∧ e ≠ [dot, dot] ∧ sep ∉ e)
    ⟨fun h => ⟨h.1, h.2.1, h.2.2.1, h.2.2.2⟩, fun h => ⟨h.1, h.2, h.3, h.4⟩⟩

/-- A path is rooted when it starts with the separator. -/
def rooted (sep : α) (p : List α) : Bool := p.head? == some sep

/-- One step of cleaning.  The stack holds the elements kept so far, newest
first; `".."` is only kept when nothing is left to cancel and the path is
relative. -/
def push (dot : α) (root : Bool) (stack : List (List α)) (e : List α) : List (List α) :=
  if e = [] ∨ e = [dot] then stack
  else if e = [dot, dot] then
    match stack with
    | [] => if root then [] else [e]
    | top :: rest => if top = [dot, dot] then e :: top :: rest else rest
  else e :: stack

/-- The elements a path keeps, outermost first. -/
def elems (sep dot : α) (p : List α) : List (List α) :=
  ((p.splitOn sep).foldl (push dot (rooted sep p)) []).reverse

/-- Lexical cleaning. -/
def clean (sep dot : α) (p : List α) : List α :=
  render sep dot (rooted sep p) (elems sep dot p)

/-! ## The stack -/

section Stack

variable {sep dot : α} {root : Bool}

theorem push_skip {e : List α} (h : e = [] ∨ e = [dot]) (st : List (List α)) :
    push dot root st e = st := by
  simp [push, h]

theorem push_name {e : List α} (h : IsName sep dot e) (st : List (List α)) :
    push dot root st e = e :: st := by
  simp [push, h.ne_nil, h.ne_dot, h.ne_up]

theorem push_up_nil : push dot root [] [dot, dot] = if root then [] else [[dot, dot]] := by
  simp [push]

theorem push_up_cons (top : List α) (rest : List (List α)) :
    push dot root (top :: rest) [dot, dot] =
      if top = [dot, dot] then [dot, dot] :: top :: rest else rest := by
  simp [push]

theorem foldl_push_names {ns : List (List α)} (h : ∀ n ∈ ns, IsName sep dot n)
    (st : List (List α)) : ns.foldl (push dot root) st = ns.reverse ++ st := by
  induction ns generalizing st with
  | nil => simp
  | cons n ns ih =>
      rw [List.foldl_cons, push_name (h n List.mem_cons_self),
        ih (fun m hm => h m (List.mem_cons_of_mem n hm))]
      simp

theorem foldl_push_ups (dot : α) (k j : Nat) :
    (List.replicate k [dot, dot]).foldl (push dot false) (List.replicate j [dot, dot]) =
      List.replicate (j + k) [dot, dot] := by
  induction k generalizing j with
  | zero => simp
  | succ k ih =>
      have hpush : push dot false (List.replicate j [dot, dot]) [dot, dot] =
          List.replicate (j + 1) [dot, dot] := by
        cases j with
        | zero => simp [push_up_nil]
        | succ j => simp [List.replicate_succ, push_up_cons]
      rw [List.replicate_succ, List.foldl_cons, hpush, ih (j + 1)]
      congr 1
      omega

variable {es st : List (List α)}

/-- The stack of an already normal list is the list itself. -/
theorem foldl_push_normal (h : Normal sep dot root es) :
    (es.foldl (push dot root) []).reverse = es := by
  obtain ⟨k, ns, rfl, hns, hk⟩ := h
  cases root with
  | true =>
      have hk0 : k = 0 := hk rfl
      subst hk0
      rw [List.replicate_zero, List.nil_append, foldl_push_names hns]
      simp
  | false =>
      have hups := foldl_push_ups dot k 0
      rw [List.replicate_zero, Nat.zero_add] at hups
      rw [List.foldl_append, hups, foldl_push_names hns]
      simp

/-- Pushing one more element keeps the stack normal. -/
theorem normal_push {e : List α} (he : sep ∉ e) (h : Normal sep dot root st.reverse) :
    Normal sep dot root (push dot root st e).reverse := by
  by_cases hskip : e = [] ∨ e = [dot]
  · rwa [push_skip hskip]
  rw [not_or] at hskip
  by_cases hup : e = [dot, dot]
  · subst hup
    obtain ⟨k, ns, hst, hns, hk⟩ := h
    cases st with
    | nil =>
        rw [push_up_nil]
        cases root with
        | true => exact normal_of_names (by simp)
        | false => exact ⟨1, [], by simp, by simp, by simp⟩
    | cons top rest =>
        rw [List.reverse_cons] at hst
        rw [push_up_cons]
        -- the top of the stack is the last element: an ordinary one or a `..`
        rcases List.eq_nil_or_concat ns with rfl | ⟨ns', n, rfl⟩
        · rw [List.append_nil] at hst
          have htop : top = [dot, dot] :=
            List.eq_of_mem_replicate (n := k) (by rw [← hst]; simp)
          have hroot : root ≠ true := by
            intro hr
            rw [hk hr] at hst
            simp at hst
          rw [if_pos htop]
          refine ⟨k + 1, [], ?_, by simp, fun hr => absurd hr hroot⟩
          rw [List.reverse_cons, List.reverse_cons, hst, List.append_nil, List.replicate_succ']
        · have hlast : rest.reverse ++ [top] = (List.replicate k [dot, dot] ++ ns') ++ [n] := by
            rw [hst]; simp
          have htn : top = n := by
            simpa using congrArg List.getLast? hlast
          have hrest : rest.reverse = List.replicate k [dot, dot] ++ ns' := by
            rw [htn] at hlast; exact List.append_cancel_right hlast
          have hn : IsName sep dot n := hns n (by simp)
          rw [if_neg (by rw [htn]; exact hn.ne_up)]
          exact ⟨k, ns', hrest, fun m hm => hns m (by simp [hm]), hk⟩
  · have hname : IsName sep dot e := ⟨hskip.1, hskip.2, hup, he⟩
    rw [push_name hname, List.reverse_cons]
    exact h.append_names (by simpa using hname)

theorem normal_foldl_push (hes : ∀ e ∈ es, sep ∉ e) (h : Normal sep dot root st.reverse) :
    Normal sep dot root (es.foldl (push dot root) st).reverse := by
  induction es generalizing st with
  | nil => exact h
  | cons e es ih =>
      exact ih (fun x hx => hes x (List.mem_cons_of_mem e hx))
        (normal_push (hes e List.mem_cons_self) h)

/-- What pushing can do to a stack: drop some of it, then keep some of what was
pushed. -/
theorem foldl_push_shape (dot : α) (root : Bool) (es st : List (List α)) :
    ∃ kept k, es.foldl (push dot root) st = kept ++ st.drop k ∧ ∀ e ∈ kept, e ∈ es := by
  induction es generalizing st with
  | nil => exact ⟨[], 0, by simp, by simp⟩
  | cons e es ih =>
      -- one push keeps at most the element itself
      have hone : ∃ kept k, push dot root st e = kept ++ st.drop k ∧ ∀ x ∈ kept, x = e := by
        unfold push
        split
        · exact ⟨[], 0, by simp, by simp⟩
        · split
          · split
            · split
              · exact ⟨[], 0, by simp, by simp⟩
              · exact ⟨[e], 0, by simp, by simp⟩
            · split
              · exact ⟨[e], 0, by simp, by simp⟩
              · exact ⟨[], 1, by simp, by simp⟩
          · exact ⟨[e], 0, by simp, by simp⟩
      obtain ⟨kept1, k1, heq1, hk1⟩ := hone
      obtain ⟨kept2, k2, heq2, hk2⟩ := ih (push dot root st e)
      refine ⟨kept2 ++ kept1.drop k2, k1 + (k2 - kept1.length), ?_, fun x hx => ?_⟩
      · rw [List.foldl_cons, heq2, heq1, List.drop_append, List.drop_drop, List.append_assoc]
      · cases List.mem_append.mp hx with
        | inl hx => exact List.mem_cons_of_mem e (hk2 x hx)
        | inr hx => rw [hk1 x (List.mem_of_mem_drop hx)]; exact List.mem_cons_self

/-- Once a relative path has gone up it stays there. -/
theorem up_mem_foldl_push (h : [dot, dot] ∈ st) : [dot, dot] ∈ es.foldl (push dot false) st := by
  induction es generalizing st with
  | nil => exact h
  | cons e es ih =>
      apply ih
      unfold push
      split
      · exact h
      · split
        · split
          · simp at h
          · rename_i top rest
            split
            · exact List.mem_cons_of_mem _ h
            · rename_i htop
              exact (List.mem_cons.mp h).resolve_left fun heq => htop heq.symm
        · exact List.mem_cons_of_mem _ h

/-- Pieces that never go up do the same on top of any stack. -/
theorem foldl_push_append (h : [dot, dot] ∉ es.foldl (push dot false) st) (base : List (List α)) :
    es.foldl (push dot root) (st ++ base) = es.foldl (push dot false) st ++ base := by
  induction es generalizing st with
  | nil => rfl
  | cons e es ih =>
      have hpush : push dot root (st ++ base) e = push dot false st e ++ base := by
        have hst : [dot, dot] ∉ st := fun hup => h (up_mem_foldl_push hup)
        have hnext : [dot, dot] ∉ push dot false st e := by
          rw [List.foldl_cons] at h
          exact fun hup => h (up_mem_foldl_push hup)
        by_cases hskip : e = [] ∨ e = [dot]
        · rw [push_skip hskip, push_skip hskip]
        · by_cases hup : e = [dot, dot]
          · subst hup
            cases st with
            | nil => simp [push_up_nil] at hnext
            | cons top rest =>
                have htop : top ≠ [dot, dot] := fun heq => hst (by simp [heq])
                rw [List.cons_append, push_up_cons, push_up_cons, if_neg htop, if_neg htop]
          · simp [push, hskip, hup]
      rw [List.foldl_cons, List.foldl_cons, hpush]
      exact ih h

end Stack

/-! ## Splitting and rendering -/

section Render

variable {sep dot : α}
variable {p : List α} {es : List (List α)}

theorem not_mem_of_mem_splitOn {e : List α} (h : e ∈ p.splitOn sep) : sep ∉ e := by
  induction p generalizing e with
  | nil =>
      rw [List.splitOn_nil, List.mem_singleton] at h
      simp [h]
  | cons x p ih =>
      rw [List.splitOn_cons_eq_if_modifyHead] at h
      by_cases hx : x = sep
      · rw [if_pos (by simpa using hx)] at h
        rcases List.mem_cons.mp h with rfl | h
        · simp
        · exact ih h
      · rw [if_neg (by simpa using hx)] at h
        cases hp : p.splitOn sep with
        | nil => exact absurd hp (List.splitOn_ne_nil sep p)
        | cons a as =>
            rw [hp] at h ih
            rcases List.mem_cons.mp h with rfl | h
            · rw [List.mem_cons, not_or]
              exact ⟨fun hs => hx hs.symm, ih List.mem_cons_self⟩
            · exact ih (List.mem_cons_of_mem a h)

/-- A path keeps a normal list of elements. -/
theorem normal_elems (p : List α) : Normal sep dot (rooted sep p) (elems sep dot p) :=
  normal_foldl_push (fun _ he => not_mem_of_mem_splitOn he) (normal_of_names (by simp))

theorem rooted_render (hds : dot ≠ sep) {root : Bool} (h : Normal sep dot root es) :
    rooted sep (render sep dot root es) = root := by
  cases root with
  | true => simp [rooted, render]
  | false =>
      cases es with
      | nil => simp [rooted, render, hds]
      | cons e es =>
          have he : e ≠ [] := h.ne_nil e List.mem_cons_self
          have hsep : sep ∉ e := h.no_sep hds e List.mem_cons_self
          rw [render, if_neg (by simp), if_neg (by simp), rooted, head?_intercalate he]
          cases e with
          | nil => exact absurd rfl he
          | cons x xs =>
              have hx : x ≠ sep := fun hx => hsep (by simp [hx])
              simpa using hx

/-- Writing a normal list out and reading it back gives the list. -/
theorem elems_render (hds : dot ≠ sep) {root : Bool} (h : Normal sep dot root es) :
    elems sep dot (render sep dot root es) = es := by
  rw [elems, rooted_render hds h]
  cases root with
  | true =>
      have hcons : (sep :: [sep].intercalate es).splitOn sep =
          [] :: ([sep].intercalate es).splitOn sep := by
        simpa using List.splitOn_append_cons_self (a := sep) [] ([sep].intercalate es)
      rw [render, if_pos rfl, hcons, List.foldl_cons, push_skip (Or.inl rfl)]
      cases es with
      | nil => simp [push]
      | cons e es =>
          rw [List.splitOn_intercalate sep (h.no_sep hds) (by simp)]
          exact foldl_push_normal h
  | false =>
      rw [render, if_neg (by simp)]
      by_cases hes : es = []
      · subst hes
        have hsplit : [dot].splitOn sep = [[dot]] :=
          List.splitOn_eq_singleton (by simpa using hds.symm)
        rw [if_pos rfl, hsplit]
        simp [push]
      · rw [if_neg hes, List.splitOn_intercalate sep (h.no_sep hds) hes]
        exact foldl_push_normal h

/-- A written-out path determines its element list. -/
theorem render_inj (hds : dot ≠ sep) {root : Bool} {es' : List (List α)}
    (h : Normal sep dot root es) (h' : Normal sep dot root es')
    (heq : render sep dot root es = render sep dot root es') : es = es' := by
  rw [← elems_render hds h, heq, elems_render hds h']

@[simp] theorem rooted_clean (hds : dot ≠ sep) (p : List α) :
    rooted sep (clean sep dot p) = rooted sep p :=
  rooted_render hds (normal_elems p)

/-- Cleaning keeps the element list. -/
theorem elems_clean (hds : dot ≠ sep) (p : List α) :
    elems sep dot (clean sep dot p) = elems sep dot p :=
  elems_render hds (normal_elems p)

theorem clean_ne_nil (p : List α) : clean sep dot p ≠ [] := render_ne_nil (normal_elems p)

theorem clean_clean (hds : dot ≠ sep) (p : List α) :
    clean sep dot (clean sep dot p) = clean sep dot p := by
  rw [clean, rooted_clean hds, elems_clean hds, ← clean]

/-- Two paths of one kind with the same elements clean to the same path, and
only those do. -/
theorem clean_eq_clean_iff (hds : dot ≠ sep) {q : List α} (hr : rooted sep p = rooted sep q) :
    clean sep dot p = clean sep dot q ↔ elems sep dot p = elems sep dot q := by
  constructor
  · intro h
    rw [← elems_clean hds p, h, elems_clean hds q]
  · intro h
    rw [clean, clean, hr, h]

/-! ## Gluing two paths -/

theorem rooted_append (hp : p ≠ []) (q : List α) : rooted sep (p ++ q) = rooted sep p := by
  obtain ⟨x, xs, rfl⟩ := List.exists_cons_of_ne_nil hp
  simp [rooted]

/-- The elements of `p/q` are those of `p` with the pieces of `q` pushed on. -/
theorem elems_append (hp : p ≠ []) (q : List α) :
    elems sep dot (p ++ sep :: q) =
      ((q.splitOn sep).foldl (push dot (rooted sep p)) (elems sep dot p).reverse).reverse := by
  rw [elems, rooted_append hp, List.splitOn_append_cons_self, List.foldl_append, elems,
    List.reverse_reverse]

/-- Gluing keeps a front part of the first path's elements and some pieces of
the second path. -/
theorem elems_append_shape (sep dot : α) (hp : p ≠ []) (q : List α) :
    ∃ k kept, elems sep dot (p ++ sep :: q) = (elems sep dot p).take k ++ kept ∧
      ∀ e ∈ kept, e ∈ q.splitOn sep := by
  obtain ⟨kept, k, heq, hk⟩ := foldl_push_shape dot (rooted sep p)
    (q.splitOn sep) (elems sep dot p).reverse
  refine ⟨(elems sep dot p).length - k, kept.reverse, ?_, fun e he => hk e (by simpa using he)⟩
  rw [elems_append hp, heq, List.reverse_append, List.drop_reverse, List.reverse_reverse]

/-- Gluing ordinary elements behind a path adds exactly them. -/
theorem elems_append_names {q : List α} (hp : p ≠ []) (hq : ∀ n ∈ q.splitOn sep, IsName sep dot n) :
    elems sep dot (p ++ sep :: q) = elems sep dot p ++ q.splitOn sep := by
  rw [elems_append hp, foldl_push_names hq]
  simp

/-- Gluing a relative path that never goes up adds exactly its elements. -/
theorem elems_append_below {q : List α} (hp : p ≠ []) (hq : rooted sep q = false)
    (hup : [dot, dot] ∉ elems sep dot q) :
    elems sep dot (p ++ sep :: q) = elems sep dot p ++ elems sep dot q := by
  rw [elems, hq, List.mem_reverse] at hup
  have hq' : elems sep dot q = ((q.splitOn sep).foldl (push dot false) []).reverse := by
    rw [elems, hq]
  have hfold : (q.splitOn sep).foldl (push dot (rooted sep p)) (elems sep dot p).reverse =
      (q.splitOn sep).foldl (push dot false) [] ++ (elems sep dot p).reverse :=
    foldl_push_append hup _
  rw [elems_append hp, hfold, hq', List.reverse_append, List.reverse_reverse]

/-! ## Lengths -/

/-- The length of an element list written out with a separator behind each element. -/
def weight (es : List (List α)) : Nat := (es.map fun e => e.length + 1).sum

omit [DecidableEq α] in
@[simp] theorem weight_nil : weight ([] : List (List α)) = 0 := rfl

omit [DecidableEq α] in
@[simp] theorem weight_cons (e : List α) (es : List (List α)) :
    weight (e :: es) = e.length + 1 + weight es := rfl

omit [DecidableEq α] in
theorem weight_reverse (es : List (List α)) : weight es.reverse = weight es := by
  simp [weight, List.sum_reverse]

omit [DecidableEq α] in
theorem length_intercalate (h : es ≠ []) : ([sep].intercalate es).length + 1 = weight es := by
  induction es with
  | nil => exact absurd rfl h
  | cons e es ih =>
      cases es with
      | nil => simp
      | cons e' es =>
          have hrest := ih (by simp)
          rw [List.intercalate_cons_cons, weight_cons, ← hrest]
          simp
          omega

theorem weight_splitOn (sep : α) (p : List α) : weight (p.splitOn sep) = p.length + 1 := by
  rw [← length_intercalate (List.splitOn_ne_nil sep p), List.intercalate_splitOn]

/-- Pushing an element adds at most its own weight. -/
theorem weight_push_le (dot : α) (root : Bool) (st : List (List α)) (e : List α) :
    weight (push dot root st e) ≤ weight st + (e.length + 1) := by
  unfold push
  split
  · omega
  · split
    · split
      · split <;> simp
      · split <;> simp <;> omega
    · simp
      omega

theorem weight_foldl_push_le (dot : α) (root : Bool) (es st : List (List α)) :
    weight (es.foldl (push dot root) st) ≤ weight st + weight es := by
  induction es generalizing st with
  | nil => simp
  | cons e es ih =>
      have hrest := ih (push dot root st e)
      have hone := weight_push_le dot root st e
      rw [List.foldl_cons, weight_cons]
      omega

/-- Cleaning never makes a path longer, but for the empty one. -/
theorem length_clean_le (p : List α) : (clean sep dot p).length ≤ max 1 p.length := by
  by_cases hes : elems sep dot p = []
  · have hone : (clean sep dot p).length = 1 := by
      rw [clean, hes, render]
      split <;> simp
    omega
  rw [clean, render]
  have hlen : ([sep].intercalate (elems sep dot p)).length + 1 = weight (elems sep dot p) :=
    length_intercalate hes
  by_cases hroot : rooted sep p = true
  · -- the empty piece before the first separator is skipped, which pays for the root
    obtain ⟨q, rfl⟩ : ∃ q, p = sep :: q := by
      rw [rooted, beq_iff_eq, List.head?_eq_some_iff] at hroot
      exact hroot
    have hsplit : (sep :: q).splitOn sep = [] :: q.splitOn sep := by
      simpa using List.splitOn_append_cons_self (a := sep) [] q
    have hweight : weight (elems sep dot (sep :: q)) ≤ q.length + 1 := by
      rw [elems, weight_reverse, hsplit, List.foldl_cons, push_skip (Or.inl rfl),
        ← weight_splitOn sep q]
      simpa using weight_foldl_push_le dot (rooted sep (sep :: q)) (q.splitOn sep) []
    rw [if_pos hroot, List.length_cons, List.length_cons]
    omega
  · have hweight : weight (elems sep dot p) ≤ p.length + 1 := by
      rw [elems, weight_reverse, ← weight_splitOn sep p]
      simpa using weight_foldl_push_le dot (rooted sep p) (p.splitOn sep) []
    rw [if_neg hroot, if_neg hes]
    omega

/-- A name is its own only piece. -/
theorem IsName.splitOn {e : List α} (h : IsName sep dot e) : e.splitOn sep = [e] :=
  List.splitOn_eq_singleton h.no_sep

end Render

/-! ## From one path to another -/

/-- Take what two lists begin with off both. -/
def dropCommon {β : Type} [DecidableEq β] : List β → List β → List β × List β
  | b :: bs, t :: ts => if b = t then dropCommon bs ts else (b :: bs, t :: ts)
  | bs, ts => (bs, ts)

theorem dropCommon_append {β : Type} [DecidableEq β] (bs ts : List β) :
    dropCommon bs (bs ++ ts) = ([], ts) := by
  induction bs with
  | nil => cases ts <;> rfl
  | cons b bs ih => rw [List.cons_append, dropCommon, if_pos rfl, ih]

theorem exists_common {β : Type} [DecidableEq β] (bs ts : List β) :
    ∃ common, bs = common ++ (dropCommon bs ts).1 ∧ ts = common ++ (dropCommon bs ts).2 := by
  induction bs generalizing ts with
  | nil => exact ⟨[], by cases ts <;> simp [dropCommon]⟩
  | cons b bs ih =>
      cases ts with
      | nil => exact ⟨[], by simp [dropCommon]⟩
      | cons t ts =>
          rw [dropCommon]
          split
          · rename_i he
            obtain ⟨common, hb, ht⟩ := ih ts
            refine ⟨b :: common, ?_, ?_⟩
            · rw [List.cons_append, ← hb]
            · rw [List.cons_append, ← ht, he]
          · exact ⟨[], rfl, rfl⟩

end LexPath

import Spider.Lib.Path
import Spider.Strings

/-!
# Spider.Filepath

`path/filepath` on Unix: `Clean`, `Join`, `IsAbs`, `Dir` and `Rel`, as instances
of the lexical cleaning of `Spider.Lib.Path` at the separator `/` and the dot.
`ToSlash` and `FromSlash` are the identity there.
-/

namespace Spider

open LexPath

/-- The path separator. -/
def slash : UInt8 := 0x2f

/-- The dot of `.` and `..`. -/
def dot : UInt8 := 0x2e

theorem dot_ne_slash : dot ≠ slash := by decide

/-- `filepath.IsAbs`. -/
def isAbs (p : Str) : Bool := rooted slash p

/-- The elements a cleaned path consists of. -/
abbrev pathElems (p : Str) : List Str := elems slash dot p

/-- An ordinary path element. -/
abbrev IsElem (e : Str) : Prop := IsName slash dot e

/-- `filepath.Clean`. -/
def clean (p : Str) : Str := LexPath.clean slash dot p

/-- `filepath.Join`: the elements from the first non-empty one on, joined by
slashes and cleaned. -/
def join (ps : List Str) : Str :=
  match ps.dropWhile (· == []) with
  | [] => []
  | qs => clean ([slash].intercalate qs)

/-- `filepath.Dir`: everything up to the last slash, cleaned. -/
def dir (p : Str) : Str := clean ((p.reverse.dropWhile (· != slash)).reverse)

/-- `filepath.Rel`: up from what only the base has, then down to the target.  It
fails (`none`) from a relative path to an absolute one or back, and where a `..` of
the base would have to be undone. -/
def rel (basepath targpath : Str) : Option Str :=
  let (up, down) := dropCommon (pathElems basepath) (pathElems targpath)
  if isAbs basepath ≠ isAbs targpath ∨ up.head? = some (str "..") then none
  else some (render slash dot false (List.replicate up.length (str "..") ++ down))

example : clean (str "a//b/./../c/") = str "a/c" := by decide
example : join [str "/var", str "..", str "../etc"] = str "/etc" := by decide
example : rel (str "/a/b") (str "/a/c/d") = some (str "../c/d") := by decide

/-! ## Cleaning and joining -/

theorem normal_pathElems (p : Str) : Normal slash dot (isAbs p) (pathElems p) := normal_elems p

theorem pathElems_clean (p : Str) : pathElems (clean p) = pathElems p :=
  elems_clean dot_ne_slash p

theorem isAbs_clean (p : Str) : isAbs (clean p) = isAbs p :=
  rooted_clean dot_ne_slash p

theorem clean_clean (p : Str) : clean (clean p) = clean p :=
  LexPath.clean_clean dot_ne_slash p

/-- A cleaned path, written out. -/
theorem clean_eq_render (p : Str) : clean p = render slash dot (isAbs p) (pathElems p) := rfl

theorem clean_eq_iff {p q : Str} (h : isAbs p = isAbs q) :
    clean p = clean q ↔ pathElems p = pathElems q :=
  clean_eq_clean_iff dot_ne_slash h

theorem join_pair {b r : Str} (hb : b ≠ []) : join [b, r] = clean (b ++ slash :: r) := by
  simp [join, hb, List.intercalate_cons_cons]

theorem join_triple {b r s : Str} (hb : b ≠ []) :
    join [b, r, s] = clean (b ++ slash :: (r ++ slash :: s)) := by
  simp [join, hb, List.intercalate_cons_cons]

/-- Joining a relative path without `..` behind a base adds its elements to
those of the base. -/
theorem pathElems_glue {b r : Str} (hb : b ≠ [])
    (hr : ∀ e ∈ r.splitOn slash, IsElem e) :
    pathElems (b ++ slash :: r) = pathElems b ++ r.splitOn slash :=
  elems_append_names hb hr

/-- A path with at least one element ends in its last element: adding
ordinary elements adds a slash and each of them. -/
theorem render_append {root : Bool} {es ns : List Str} (hes : es ≠ []) (hns : ns ≠ []) :
    render slash dot root (es ++ ns) =
      render slash dot root es ++ slash :: [slash].intercalate ns := by
  have key : ∀ {es : List Str}, es ≠ [] → [slash].intercalate (es ++ ns) =
      [slash].intercalate es ++ slash :: [slash].intercalate ns := by
    intro es hes
    induction es with
    | nil => exact absurd rfl hes
    | cons e es ih =>
        cases es with
        | nil =>
            rw [List.singleton_append, List.intercalate_cons_of_ne_nil hns]
            simp
        | cons e' es =>
            rw [List.cons_append, List.cons_append, List.intercalate_cons_cons,
              List.intercalate_cons_cons, ← List.cons_append, ih (by simp)]
            simp
  cases root with
  | true => simp [render, key hes]
  | false => simp [render, key hes, hes]

/-! ## Written-out paths -/

section Render

variable {root : Bool} {es : List Str} {e : Str}

theorem pathElems_render (h : Normal slash dot root es) :
    pathElems (render slash dot root es) = es := elems_render dot_ne_slash h

theorem isAbs_render (h : Normal slash dot root es) : isAbs (render slash dot root es) = root :=
  rooted_render dot_ne_slash h

theorem clean_render (h : Normal slash dot root es) :
    clean (render slash dot root es) = render slash dot root es := by
  rw [clean_eq_render, isAbs_render h, pathElems_render h]

/-- A trailing slash is cleaned away. -/
theorem clean_trailing_slash (h : Normal slash dot root es) :
    clean (render slash dot root es ++ [slash]) = render slash dot root es := by
  have hne : render slash dot root es ≠ [] := render_ne_nil h
  have hroot : isAbs (render slash dot root es ++ [slash]) = root := by
    rw [isAbs, rooted_append hne]
    exact isAbs_render h
  have helems : pathElems (render slash dot root es ++ [slash]) = es := by
    have happ : pathElems (render slash dot root es ++ [slash]) = _ := elems_append hne []
    rw [List.splitOn_nil, List.foldl_cons, push_skip (Or.inl rfl), List.foldl_nil,
      List.reverse_reverse] at happ
    exact happ.trans (pathElems_render h)
  rw [clean_eq_render, hroot, helems]

/-- `filepath.Dir` takes off what is behind the last slash. -/
theorem dir_append_slash (q : Str) (he : slash ∉ e) : dir (q ++ slash :: e) = clean (q ++ [slash]) := by
  have hall : ∀ x ∈ e.reverse, (x != slash) = true := by
    intro x hx
    have hmem : x ∈ e := List.mem_reverse.mp hx
    simpa using fun hs : x = slash => he (hs ▸ hmem)
  rw [dir, List.reverse_append, List.reverse_cons, List.append_assoc,
    List.dropWhile_append_of_pos hall]
  simp

theorem dir_render (h : Normal slash dot root es) (hes : es ≠ []) (he : IsElem e) :
    dir (render slash dot root (es ++ [e])) = render slash dot root es := by
  have hsplit : render slash dot root (es ++ [e]) = render slash dot root es ++ slash :: e := by
    rw [render_append hes (by simp)]
    simp
  rw [hsplit, dir_append_slash _ he.no_sep, clean_trailing_slash h]

end Render

end Spider

import Spider.Manifest

/-!
# Spider.SafeJoin

Resolving manifest paths below a destination (`pkg/materializer/path.go`).

A path `validManifestPath` accepts is relative, keeps at least one element and
does not start with `..` (`pathAccepted_of_valid`).  On such paths
`SafeJoin` either refuses every path (the destination cleans to `.` or `/`) or
appends the cleaned path to the cleaned destination (`safeJoin_of_accepted`); two
accepted paths therefore meet on disk exactly when they clean to the same
path (`clean_eq_of_safeJoin_eq`).
-/

namespace Spider

open LexPath

/-- The errors of `SafeJoin`. -/
inductive JoinError where
  /-- security violation: absolute path rejected: %s -/
  | absolute (rel : Str)
  /-- security violation: path escape detected: %s -/
  | escape (rel : Str)
  deriving DecidableEq

/-- `materializer.SafeJoin`. -/
def safeJoin (baseDir rel : Str) : Except JoinError Str :=
  let cleanRel := clean rel
  if isAbs cleanRel then .error (.absolute rel)
  else if cleanRel = str ".." ∨ hasPrefix cleanRel (str "../") then .error (.escape rel)
  else
    let base := clean baseDir
    let joined := join [base, cleanRel]
    if joined ≠ base ∧ ¬ hasPrefix joined (base ++ str "/") then .error (.escape rel)
    else .ok joined

/-! ## Relative paths, written out -/

/-- The first element of a relative path is the part before its first slash. -/
theorem render_relative_cons (e : Str) (es : List Str) :
    render slash dot false (e :: es) = e ∨
      ∃ rest, render slash dot false (e :: es) = e ++ slash :: rest := by
  cases es with
  | nil => left; simp [render]
  | cons e' es =>
      right
      exact ⟨[slash].intercalate (e' :: es), by simp [render, List.intercalate_cons_cons]⟩

/-- A relative path starts with `n/` only if its first element is `n`. -/
theorem head_of_hasPrefix_render {n e : Str} {es : List Str} (hn : slash ∉ n) (he : slash ∉ e)
    (h : (n ++ [slash]) <+: render slash dot false (e :: es)) : e = n := by
  obtain ⟨t, ht⟩ := h
  have hl := congrArg (fun l : Str => (l.splitOn slash).head?) ht
  simp only [List.append_assoc, List.singleton_append] at hl
  rw [List.splitOn_append_cons_self_of_not_mem hn] at hl
  cases render_relative_cons e es with
  | inl hr =>
      rw [hr, List.splitOn_eq_singleton he] at hl
      simpa using hl.symm
  | inr hr =>
      obtain ⟨rest, hr⟩ := hr
      rw [hr, List.splitOn_append_cons_self_of_not_mem he] at hl
      simpa using hl.symm

variable {p : Str}

/-- A cleaned relative path never starts with `./`. -/
theorem not_hasPrefix_dotSlash_clean (h : isAbs p = false) :
    hasPrefix (clean p) (str "./") = false := by
  have hnorm := normal_pathElems p
  rw [clean_eq_render, h]
  cases hes : pathElems p with
  | nil => rfl
  | cons e es =>
      rw [hes] at hnorm
      by_contra hc
      rw [Bool.not_eq_false, hasPrefix_iff] at hc
      have he : e = [dot] := head_of_hasPrefix_render (n := [dot]) (by decide)
        (hnorm.no_sep dot_ne_slash e List.mem_cons_self) hc
      exact hnorm.ne_dot e List.mem_cons_self he

/-- A leading `..` is the whole cleaned path or is followed by a slash. -/
theorem escapes_of_head_up (h : isAbs p = false) (hup : (pathElems p).head? = some (str "..")) :
    clean p = str ".." ∨ hasPrefix (clean p) (str "../") = true := by
  rw [clean_eq_render, h]
  cases hes : pathElems p with
  | nil => simp [hes] at hup
  | cons e es =>
      rw [hes, List.head?_cons, Option.some.injEq] at hup
      subst hup
      cases render_relative_cons (str "..") es with
      | inl hr => left; exact hr
      | inr hr =>
          obtain ⟨rest, hr⟩ := hr
          right
          rw [hr, hasPrefix_iff]
          exact ⟨rest, rfl⟩

/-- A cleaned path that starts with `..` says so at its front. -/
theorem head_up_of_escapes (h : isAbs p = false)
    (hesc : clean p = str ".." ∨ hasPrefix (clean p) (str "../") = true) :
    (pathElems p).head? = some (str "..") := by
  cases hesc with
  | inl hc =>
      have helems := pathElems_clean p
      rw [hc] at helems
      rw [← helems]
      rfl
  | inr hc =>
      have hnorm := normal_pathElems p
      rw [clean_eq_render, h, hasPrefix_iff] at hc
      cases hes : pathElems p with
      | nil =>
          rw [hes] at hc
          exact absurd hc (by decide)
      | cons e es =>
          rw [hes] at hc hnorm
          have he : e = str ".." := head_of_hasPrefix_render (n := str "..") (by decide)
            (hnorm.no_sep dot_ne_slash e List.mem_cons_self) hc
          rw [he, List.head?_cons]

/-! ## Accepted paths -/

/-- The shape of a path the manifest accepts. -/
structure PathAccepted (p : Str) : Prop where
  relative : isAbs p = false
  nonempty : pathElems p ≠ []
  names : ∀ e ∈ pathElems p, IsElem e

theorem isAbs_eq_hasPrefix (p : Str) : isAbs p = hasPrefix p (str "/") := by
  have hs : str "/" = [slash] := rfl
  cases p with
  | nil => rfl
  | cons x p =>
      rw [Bool.eq_iff_iff, hasPrefix_iff, hs, List.cons_prefix_cons]
      simp only [isAbs, rooted, List.head?_cons, beq_iff_eq, Option.some.injEq,
        List.nil_prefix, and_true]
      exact eq_comm

/-- The checks of `validManifestPath` on a relative path. -/
theorem validManifestPath_relative (h : isAbs p = false) :
    validManifestPath p = true ↔ p ≠ [] ∧ clean p ≠ str "." ∧
      ¬ (clean p = str ".." ∨ hasPrefix (clean p) (str "../") = true) := by
  have htrim : trimPrefix (clean p) (str "./") = clean p := by
    simp [trimPrefix, not_hasPrefix_dotSlash_clean h]
  have hne : clean p ≠ [] := clean_ne_nil p
  have hpre : hasPrefix p (str "/") = false := by rw [← isAbs_eq_hasPrefix, h]
  have habs : isAbs (clean p) = false := by rw [isAbs_clean, h]
  simp only [validManifestPath, htrim, hpre, h, habs, hne]
  by_cases hp : p = []
  · simp [hp]
  · by_cases hd : clean p = str "."
    · simp [hp, hd]
    · by_cases hu : clean p = str ".." ∨ hasPrefix (clean p) (str "../") = true
      · simp [hp, hd, hu]
      · simp [hp, hd, hu]

/-- What `validManifestPath` establishes. -/
theorem pathAccepted_of_valid (h : validManifestPath p = true) : PathAccepted p := by
  have hrel : isAbs p = false := by
    cases ha : isAbs p with
    | false => rfl
    | true => simp [validManifestPath, ← isAbs_eq_hasPrefix, ha] at h
  obtain ⟨-, hdot, hup⟩ := (validManifestPath_relative hrel).mp h
  have hnorm := normal_pathElems p
  have hne : pathElems p ≠ [] := by
    intro hes
    apply hdot
    rw [clean_eq_render, hrel, hes]
    rfl
  exact ⟨hrel, hne, hnorm.names_of_head fun hd => hup (escapes_of_head_up hrel hd)⟩

/-- A destination that cleans to `.` or `/` keeps no element. -/
theorem pathElems_eq_nil_iff (d : Str) :
    pathElems d = [] ↔ clean d = str "." ∨ clean d = str "/" := by
  constructor
  · intro h
    rw [clean_eq_render, h]
    cases isAbs d with
    | true => right; rfl
    | false => left; rfl
  · intro h
    rw [← pathElems_clean d]
    cases h with
    | inl h => rw [h]; rfl
    | inr h => rw [h]; rfl

/-! ## Joining -/

theorem PathAccepted.clean_eq (h : PathAccepted p) :
    clean p = [slash].intercalate (pathElems p) := by
  rw [clean_eq_render, h.relative, render, if_neg (by simp), if_neg h.nonempty]

theorem PathAccepted.splitOn_clean (h : PathAccepted p) :
    (clean p).splitOn slash = pathElems p := by
  rw [h.clean_eq]
  exact List.splitOn_intercalate slash (fun e he => (h.names e he).no_sep) h.nonempty

/-- The path `SafeJoin` builds from an accepted one. -/
theorem join_clean {d : Str} (h : PathAccepted p) :
    join [clean d, clean p] = render slash dot (isAbs d) (pathElems d ++ pathElems p) := by
  have hd : clean d ≠ [] := clean_ne_nil d
  have hes : ∀ e ∈ (clean p).splitOn slash, IsElem e := by
    rw [h.splitOn_clean]; exact h.names
  have hroot : isAbs (clean d ++ slash :: clean p) = isAbs d := by
    rw [isAbs, rooted_append hd]; exact isAbs_clean d
  rw [join_pair hd, clean_eq_render, hroot, pathElems_glue hd hes, pathElems_clean,
    h.splitOn_clean]

/-- `SafeJoin` on an accepted path: below a destination with elements it is the
cleaned path behind the cleaned destination, otherwise an error. -/
theorem safeJoin_of_accepted {d : Str} (h : PathAccepted p) :
    safeJoin d p =
      if pathElems d = [] then .error (.escape p) else .ok (clean d ++ slash :: clean p) := by
  have habs : isAbs (clean p) = false := by rw [isAbs_clean, h.relative]
  have hup : ¬ (clean p = str ".." ∨ hasPrefix (clean p) (str "../") = true) := by
    intro hesc
    have hhead := head_up_of_escapes h.relative hesc
    exact (h.names _ (List.mem_of_mem_head? hhead)).ne_up rfl
  obtain ⟨e, es, hes⟩ := List.exists_cons_of_ne_nil h.nonempty
  have he : IsElem e := h.names e (by rw [hes]; exact List.mem_cons_self)
  simp only [safeJoin, habs, hup, join_clean h]
  by_cases hd : pathElems d = []
  · rw [if_pos hd, hd, List.nil_append]
    have hjoin : render slash dot (isAbs d) (pathElems p) ≠ clean d := by
      intro hc
      have := congrArg pathElems hc
      rw [pathElems_clean, hd] at this
      rw [show pathElems (render slash dot (isAbs d) (pathElems p)) = pathElems p from
        elems_render dot_ne_slash (normal_of_names h.names)] at this
      exact h.nonempty this
    have hpre : hasPrefix (render slash dot (isAbs d) (pathElems p)) (clean d ++ str "/") = false := by
      rw [clean_eq_render d, hd]
      by_contra hc
      rw [Bool.not_eq_false, hasPrefix_iff, hes] at hc
      cases ha : isAbs d with
      | true =>
          -- `//` cannot start a path whose first element is an ordinary one
          rw [ha] at hc
          obtain ⟨t, ht⟩ := hc
          have hcons : slash :: ([slash].intercalate (e :: es)) = slash :: (slash :: t) := by
            rw [← show render slash dot true (e :: es) = slash :: [slash].intercalate (e :: es)
              from rfl, ← ht]
            rfl
          have hhead := congrArg List.head? (List.cons.inj hcons).2
          rw [head?_intercalate he.ne_nil, List.head?_cons] at hhead
          exact he.no_sep (List.mem_of_mem_head? hhead)
      | false =>
          rw [ha] at hc
          exact he.ne_dot (head_of_hasPrefix_render (n := [dot]) (by decide) he.no_sep hc)
    simp [hjoin, hpre]
  · have hjoin : render slash dot (isAbs d) (pathElems d ++ pathElems p) =
        clean d ++ slash :: clean p := by
      rw [render_append hd h.nonempty, ← clean_eq_render, h.clean_eq]
    have hpre : hasPrefix (clean d ++ slash :: clean p) (clean d ++ str "/") = true := by
      rw [hasPrefix_iff]
      exact ⟨clean p, by simp [show str "/" = [slash] from rfl]⟩
    simp [hd, hjoin, hpre]

/-- Accepted paths that resolve to the same file clean to the same path. -/
theorem clean_eq_of_safeJoin_eq {d q t : Str} (hp : PathAccepted p) (hq : PathAccepted q)
    (hpt : safeJoin d p = .ok t) (hqt : safeJoin d q = .ok t) : clean p = clean q := by
  rw [safeJoin_of_accepted hp] at hpt
  rw [safeJoin_of_accepted hq] at hqt
  by_cases hd : pathElems d = []
  · simp [hd] at hpt
  · rw [if_neg hd, Except.ok.injEq] at hpt hqt
    have h := List.append_cancel_left (hpt.trans hqt.symm)
    exact (List.cons.inj h).2

/-! ## Normalised paths -/

theorem trimPrefix_of_not_hasPrefix {s pre : Str} (h : hasPrefix s pre = false) :
    trimPrefix s pre = s := by
  simp [trimPrefix, h]

/-- Taking `./` off changes nothing about a cleaned relative path. -/
theorem trimPrefix_dotSlash_clean (h : isAbs p = false) :
    trimPrefix (clean p) (str "./") = clean p :=
  trimPrefix_of_not_hasPrefix (not_hasPrefix_dotSlash_clean h)

/-- The elements of an absolute path, as a relative one. -/
theorem clean_of_isAbs (h : isAbs p = true) :
    clean p = str "/" ∨ ∃ q, isAbs q = false ∧ clean p = slash :: clean q := by
  have hnames := Normal.names_of_rooted (h ▸ normal_pathElems p)
  have hnorm : Normal slash dot false (pathElems p) := normal_of_names hnames
  cases hes : pathElems p with
  | nil =>
      left
      rw [clean_eq_render, h, hes]
      rfl
  | cons e es =>
      right
      rw [hes] at hnorm
      have hrel : isAbs (render slash dot false (e :: es)) = false :=
        rooted_render dot_ne_slash hnorm
      have helems : pathElems (render slash dot false (e :: es)) = e :: es :=
        elems_render dot_ne_slash hnorm
      refine ⟨render slash dot false (e :: es), hrel, ?_⟩
      rw [clean_eq_render, h, hes, clean_eq_render, hrel, helems]
      simp [render]

theorem normalizePath_of_relative (h : isAbs p = false) : normalizePath p = clean p := by
  have hslash : hasPrefix (clean p) (str "/") = false := by
    rw [← isAbs_eq_hasPrefix, isAbs_clean, h]
  rw [normalizePath, trimPrefix_of_not_hasPrefix hslash, trimPrefix_dotSlash_clean h]

/-- A normalised path is empty, for the root, or a cleaned relative path. -/
theorem normalizePath_cases (p : Str) :
    (clean p = str "/" ∧ normalizePath p = []) ∨
      ∃ q, isAbs q = false ∧ normalizePath p = clean q := by
  cases habs : isAbs p with
  | false =>
      right
      exact ⟨p, habs, normalizePath_of_relative habs⟩
  | true =>
      cases clean_of_isAbs habs with
      | inl hroot =>
          left
          refine ⟨hroot, ?_⟩
          rw [normalizePath, hroot]
          decide
      | inr hq =>
          obtain ⟨q, hrel, hq⟩ := hq
          have htrim : trimPrefix (clean p) (str "/") = clean q := by
            rw [hq]
            exact trimPrefix_append (str "/") (clean q)
          right
          refine ⟨q, hrel, ?_⟩
          rw [normalizePath, htrim, trimPrefix_dotSlash_clean hrel]

/-- A normalised path that passes the check is clean. -/
theorem clean_normalizePath (h : validManifestPath (normalizePath p) = true) :
    clean (normalizePath p) = normalizePath p := by
  rcases normalizePath_cases p with ⟨-, hnil⟩ | ⟨q, -, hq⟩
  · rw [hnil] at h
    contradiction
  · rw [hq, clean_clean]

end Spider

import Spider.Source.Filesystem
import Spider.Materializer
import Spider.Verified

/-!
# Spider.Confinement

Where resolved paths lie (`pkg/materializer/path.go`, `pkg/source/fs.go`).

`SafeJoin` and `resolve` clean a path and then compare strings.  Whatever they
return is the cleaned base directory or the cleaned base directory followed by
ordinary names (`Beneath`).  The converse fails: a prefix test with a slash behind the
base does not hold for a base that cleans to `.` or `/`, so `SafeJoin` refuses there
every path a manifest may have.
-/

namespace Spider

open Conc LexPath

/-- The cleaned base followed by path components, none of which is `..`. -/
def Beneath (base p : Str) : Prop :=
  ∃ ns : List Str, ns ≠ [] ∧ (∀ n ∈ ns, IsElem n) ∧
    p = (if clean base = str "/" then [] else clean base) ++ slash :: [slash].intercalate ns

/-- The body of `resolve`, for any base directory. -/
def resolveAt (baseDir relPath : Str) : Except SourceError Str :=
  let cleanRel := normalizePath relPath
  let full := join [baseDir, cleanRel]
  match rel baseDir full with
  | none => .error (.escapes relPath)
  | some r => if hasPrefix r (str "..") then .error (.escapes relPath) else .ok full

theorem FilesystemSource.resolve_eq (src : FilesystemSource) (p : Str) :
    src.resolve p = resolveAt src.baseDir p := rfl

section Confinement

variable {base : Str} {ns : List Str}

/-! ## SafeJoin -/

/-- Gluing `.` behind a path changes nothing. -/
theorem join_dot (base : Str) : join [clean base, str "."] = clean base := by
  have hne : clean base ≠ [] := clean_ne_nil base
  have hroot : isAbs (clean base ++ slash :: str ".") = isAbs base := by
    rw [isAbs, rooted_append hne]
    exact isAbs_clean base
  have helems : pathElems (clean base ++ slash :: str ".") = pathElems base := by
    rw [← pathElems_clean base]
    exact (elems_append hne _).trans (List.reverse_reverse _)
  rw [join_pair hne, clean_eq_render, hroot, helems, clean_eq_render]

/-- What the first two tests of `SafeJoin` leave: no elements, or a path a manifest may
have. -/
theorem rel_of_safeJoin {p q : Str} (h : safeJoin base p = .ok q) :
    clean p = str "." ∨ PathAccepted p := by
  rw [safeJoin] at h
  split at h
  · contradiction
  rename_i habs
  split at h
  · contradiction
  rename_i hup
  have hrel : isAbs p = false := by
    rw [← isAbs_clean]
    simpa using habs
  have hnormal := normal_pathElems p
  have hnames : ∀ n ∈ pathElems p, IsElem n :=
    hnormal.names_of_head fun hhead => hup (escapes_of_head_up hrel hhead)
  by_cases hes : pathElems p = []
  · left
    rw [clean_eq_render, hrel, hes]
    rfl
  · right
    exact ⟨hrel, hes, hnames⟩

theorem confined_of_safeJoin {p q : Str} (h : safeJoin base p = .ok q) :
    q = clean base ∨ Beneath base q := by
  cases rel_of_safeJoin h with
  | inl hdot =>
      left
      have habs : isAbs (str ".") = false := by decide
      have hup : ¬ (str "." = str ".." ∨ hasPrefix (str ".") (str "../") = true) := by decide
      simp only [safeJoin, hdot, habs, hup, join_dot] at h
      simpa using h.symm
  | inr hp =>
      right
      rw [safeJoin_of_accepted hp] at h
      by_cases hbase : pathElems base = []
      · rw [if_pos hbase] at h
        contradiction
      · have hroot : clean base ≠ str "/" :=
          fun hroot => hbase ((pathElems_eq_nil_iff base).mpr (.inr hroot))
        rw [if_neg hbase, Except.ok.injEq, hp.clean_eq] at h
        exact ⟨pathElems p, hp.nonempty, hp.names, by rw [if_neg hroot, h]⟩

/-! ## resolve -/

/-- `Join` cleans what it glues. -/
theorem join_clean_base (hne : base ≠ []) (q : Str) : join [base, q] = join [clean base, q] := by
  have hne' : clean base ≠ [] := clean_ne_nil base
  have hroot : isAbs (base ++ slash :: q) = isAbs (clean base ++ slash :: q) := by
    rw [isAbs, isAbs, rooted_append hne, rooted_append hne']
    exact (isAbs_clean base).symm
  have helems : pathElems (base ++ slash :: q) = pathElems (clean base ++ slash :: q) := by
    have hrooted : rooted slash (clean base) = rooted slash base := isAbs_clean base
    have hstack : elems slash dot (clean base) = elems slash dot base := pathElems_clean base
    rw [pathElems, pathElems, elems_append hne, elems_append hne', hrooted, hstack]
  rw [join_pair hne, join_pair hne', (clean_eq_iff hroot).mpr helems]

theorem resolveAt_clean (habs : isAbs base = true) (p : Str) :
    resolveAt base p = resolveAt (clean base) p := by
  have hne : base ≠ [] := by
    intro hnil
    rw [hnil] at habs
    contradiction
  have hrel : ∀ t, rel base t = rel (clean base) t := by
    intro t
    rw [rel, rel, pathElems_clean, isAbs_clean]
  simp only [resolveAt, join_clean_base hne, hrel]

theorem confined_of_resolveAt (habs : isAbs base = true) {p q : Str}
    (h : resolveAt base p = .ok q) : q = clean base ∨ Beneath base q := by
  have habs' : isAbs (clean base) = true := by rw [isAbs_clean, habs]
  let src : FilesystemSource := ⟨clean base, [], habs', clean_clean base⟩
  rw [resolveAt_clean habs, ← src.resolve_eq] at h
  obtain ⟨ns, hns, hq, -⟩ := FilesystemSource.below_of_resolve h
  have helems : src.below ns = render slash dot true (pathElems base ++ ns) := by
    rw [FilesystemSource.below, pathElems_clean]
  rw [hq, helems]
  by_cases hnil : ns = []
  · left
    rw [hnil, List.append_nil, clean_eq_render, habs]
  · right
    refine ⟨ns, hnil, hns, ?_⟩
    by_cases hbase : pathElems base = []
    · have hroot : clean base = str "/" := by
        rw [clean_eq_render, habs, hbase]
        rfl
      rw [if_pos hroot, hbase]
      simp [render]
    · have hroot : clean base ≠ str "/" :=
        fun hroot => hbase ((pathElems_eq_nil_iff base).mpr (.inr hroot))
      rw [if_neg hroot, render_append hbase hnil, clean_eq_render, habs]

end Confinement

/-- **Confinement.**  Whatever `SafeJoin` and `resolve` return is the cleaned base
directory or lies inside it. -/
theorem resolution_confined :
    (∀ base rel p : Str, safeJoin base rel = .ok p → p = clean base ∨ Beneath base p) ∧
      (∀ base : Str, isAbs base = true → ∀ path p : Str, resolveAt base path = .ok p →
        p = clean base ∨ Beneath base p) ∧
      ∀ (src : FilesystemSource) (path p : Str), src.resolve path = .ok p →
        p = clean src.baseDir ∨ Beneath src.baseDir p :=
  ⟨fun _ _ _ h => confined_of_safeJoin h, fun _ habs _ _ h => confined_of_resolveAt habs h,
    fun src _ _ h => confined_of_resolveAt src.abs h⟩

/-- A relative base that starts with `..`, and an absolute one that is not clean. -/
theorem resolution_confined_dotdot :
    (safeJoin (str "../x/") (str "a/./b") = .ok (str "../x/a/b") ∧
      Beneath (str "../x/") (str "../x/a/b")) ∧
      resolveAt (str "/srv//data/") (str "/../a") = .ok (str "/srv/data/a") ∧
      Beneath (str "/srv//data/") (str "/srv/data/a") :=
  ⟨⟨by decide, (resolution_confined.1 _ (str "a/./b") _ (by decide)).resolve_left (by decide)⟩,
    by decide, (resolution_confined.2.1 _ (by decide) (str "/../a") _ (by decide)).resolve_left
      (by decide)⟩

/-! ## Refused destinations -/

/-- Reported because `SafeJoin` failed. -/
def FileVerificationResult.refused (r : FileVerificationResult) : Bool :=
  match r.error with
  | some (.join _) => true
  | _ => false

/-- `SafeJoin` fails for this file. -/
def FileEntry.Refused (dest : Str) (f : FileEntry) : Prop := ∃ e, safeJoin dest f.path = .error e

section Refused

variable {H : Sha256} {J : Marshal} {V : DirView} {dest : Str}

theorem refused_permNote (mode : Str) (perm : Nat) (res : FileVerificationResult) :
    (permNote mode perm res).refused = res.refused := by
  rw [permNote]
  split
  · rfl
  · split
    · rfl
    · split
      · rename_i h
        simp [FileVerificationResult.refused, h.2]
      · rfl

/-- The chunk loop enters nothing into the report and refuses nothing. -/
theorem refused_verifyChunks {path : Str} {ci : Nat} {cs : List ChunkRef} {s s' : ChunkLoop}
    {b : Bool} (h : verifyChunks H V path ci cs s = (s', b)) (hs : s.res.refused = false) :
    s'.st.report.fileResults = s.st.report.fileResults ∧ s'.res.refused = false := by
  induction cs generalizing ci s with
  | nil =>
      obtain ⟨rfl, -⟩ := Prod.mk.inj h
      exact ⟨rfl, hs⟩
  | cons c cs ih =>
      simp only [verifyChunks] at h
      split at h
      · obtain ⟨rfl, -⟩ := Prod.mk.inj h
        exact ⟨rfl, rfl⟩
      · split at h
        · obtain ⟨rfl, -⟩ := Prod.mk.inj h
          exact ⟨rfl, hs⟩
        · split at h
          · obtain ⟨rfl, -⟩ := Prod.mk.inj h
            exact ⟨rfl, rfl⟩
          · split at h
            · have hrest := ih h rfl
              exact hrest
            · have hrest := ih h hs
              exact hrest

variable {f : FileEntry} {fs : List FileEntry} {m : ArtifactManifest} {opts : Options}

/-- One file, one result, which says whether `SafeJoin` failed. -/
theorem refused_verifyFile {st st' : VerifyState} (h : verifyFile H V dest f st = (st', false)) :
    ∃ r : FileVerificationResult, st'.report.fileResults = st.report.fileResults ++ [r] ∧
      (r.refused = true ↔ f.Refused dest) := by
  simp only [verifyFile] at h
  cases hj : safeJoin dest f.path with
  | error e =>
      simp only [hj, Prod.mk.injEq, and_true] at h
      subst h
      exact ⟨_, rfl, fun _ => ⟨e, hj⟩, fun _ => rfl⟩
  | ok path =>
      have hnot : ¬ f.Refused dest := by
        rintro ⟨e, he⟩
        rw [hj] at he
        contradiction
      have hentered : ∀ r : FileVerificationResult, r.refused = false →
          (r.refused = true ↔ f.Refused dest) := by
        intro r hr
        simp [hr, hnot]
      simp only [hj] at h
      split at h
      · obtain ⟨rfl, -⟩ := Prod.mk.inj h
        exact ⟨_, rfl, hentered _ rfl⟩
      · obtain ⟨rfl, -⟩ := Prod.mk.inj h
        exact ⟨_, rfl, hentered _ rfl⟩
      · split at h
        · obtain ⟨rfl, -⟩ := Prod.mk.inj h
          exact ⟨_, rfl, hentered _ rfl⟩
        · split at h
          · obtain ⟨rfl, -⟩ := Prod.mk.inj h
            exact ⟨_, rfl, hentered _ rfl⟩
          · split at h
            · simp at h
            · rename_i s hchunks
              obtain ⟨rfl, -⟩ := Prod.mk.inj h
              obtain ⟨hsame, hres⟩ := refused_verifyChunks hchunks rfl
              simp only [ChunkLoop.finish]
              split <;> exact ⟨_, by rw [hsame], hentered _ (by rw [refused_permNote]; exact hres)⟩

theorem refused_verifyFiles {i : Nat} {st st' : VerifyState}
    (h : verifyFiles H V dest i fs st = (st', none)) :
    ∃ rs : List FileVerificationResult, st'.report.fileResults = st.report.fileResults ++ rs ∧
      ((∃ r ∈ rs, r.refused = true) ↔ ∃ f ∈ fs, f.Refused dest) := by
  induction fs generalizing i st with
  | nil =>
      obtain ⟨rfl, -⟩ := Prod.mk.inj h
      exact ⟨[], by simp, by simp⟩
  | cons f fs ih =>
      simp only [verifyFiles] at h
      split at h
      · simp at h
      · split at h
        · simp at h
        · rename_i st1 hfile
          obtain ⟨r, hr, hiff⟩ := refused_verifyFile hfile
          obtain ⟨rs, hrs, hall⟩ := ih h
          exact ⟨r :: rs, by rw [hrs, hr]; simp, by simp [hiff, hall]⟩

/-- A report shows whether `SafeJoin` failed for a file. -/
theorem refused_of_report {bs : List BufferRequest} {report : VerificationReport}
    (h : verifyMaterializedDirectory H J V m dest = (bs, .ok report)) :
    (∃ r ∈ report.fileResults, r.refused = true) ↔ ∃ f ∈ m.files, f.Refused dest := by
  simp only [verifyMaterializedDirectory] at h
  split at h
  · simp at h
  · split at h
    · simp at h
    · rename_i st hfiles
      obtain ⟨rs, hrs, hall⟩ := refused_verifyFiles hfiles
      obtain ⟨-, hreport⟩ := Prod.mk.inj h
      rw [← Except.ok.inj hreport, hrs]
      exact hall

/-- A verification of an empty directory comes to a report. -/
theorem report_of_emptyTree (hm : validate H J m = .ok ()) (dest : Str) :
    ∃ bs report, verifyMaterializedDirectory H J
      (Tree.view (fun _ => none) (fun _ => none) fun _ => true) m dest = (bs, .ok report) := by
  have hfiles : ∀ (fs : List FileEntry) (i : Nat) (st : VerifyState),
      (verifyFiles H (Tree.view (fun _ => none) (fun _ => none) fun _ => true) dest i fs st).2 =
        none := by
    intro fs
    induction fs with
    | nil => exact fun _ _ => rfl
    | cons f fs ih =>
        intro i st
        cases hj : safeJoin dest f.path with
        | error e | ok path => simpa [verifyFiles, verifyFile, hj, Tree.view] using ih (i + 1) _
  simp only [verifyMaterializedDirectory, hm]
  split
  · rename_i hstop
    have hnone := congrArg Prod.snd hstop
    rw [hfiles] at hnone
    contradiction
  · exact ⟨_, _, rfl⟩

/-! ### Materialize -/

/-- The programs that do not end with an error of `SafeJoin`. -/
abbrev Accepting (p : NodeM (Option Err)) : Prop :=
  p.All (fun _ => True) (fun _ _ => True) fun r => ∀ e, r ≠ some (.join e)

theorem accepting_bind {α : Type} {p : NodeM α} {f : α → NodeM (Option Err)}
    (h : ∀ a, Accepting (f a)) : Accepting (p >>= f) :=
  p.only_true.all.bind fun a _ => h a

theorem accepting_copyFile {target : Str} : Accepting (copyFile H opts f target) := by
  refine accepting_bind fun r => ?_
  cases r with
  | some e => exact Prog.all_pure (by simp)
  | none =>
      simp only
      split
      · split
        · exact accepting_bind fun _ => Prog.all_pure (by simp)
        · exact Prog.all_pure (by simp)
      · exact Prog.all_pure (by simp)

theorem accepting_placeFile {target : Str} : Accepting (placeFile H opts f target) := by
  rw [placeFile]
  split
  · exact accepting_copyFile
  · refine accepting_bind fun r => ?_
    cases r with
    | some e => exact Prog.all_pure (by simp)
    | none =>
        refine accepting_bind fun b => ?_
        cases b with
        | false => exact accepting_copyFile
        | true =>
            refine accepting_bind fun _ => accepting_bind fun r => ?_
            cases r with
            | some e => exact accepting_copyFile
            | none => exact Prog.all_pure (by simp)

theorem accepting_materializeFiles (h : ∀ f ∈ fs, ¬ f.Refused dest) :
    Accepting (materializeFiles H opts dest fs) := by
  induction fs with
  | nil => exact Prog.all_pure (by simp)
  | cons f fs ih =>
      refine accepting_bind fun r => ?_
      cases r with
      | some deadline => exact Prog.all_pure (by simp)
      | none =>
          cases hj : safeJoin dest f.path with
          | error e => exact absurd ⟨e, hj⟩ (h f List.mem_cons_self)
          | ok target =>
              refine accepting_bind fun r => ?_
              cases r with
              | some msg => exact Prog.all_pure (by simp)
              | none =>
                  refine accepting_placeFile.bind fun r hr => ?_
                  cases r with
                  | some e => exact Prog.all_pure hr
                  | none => exact ih fun g hg => h g (List.mem_cons_of_mem _ hg)

theorem accepting_materialize (h : ∀ f ∈ m.files, ¬ f.Refused dest) :
    Accepting (materialize H J opts m dest) := by
  rw [materialize]
  split
  · exact Prog.all_pure (by simp)
  · refine accepting_bind fun r => ?_
    cases r with
    | some msg => exact Prog.all_pure (by simp)
    | none => exact accepting_materializeFiles h

/-- Where the first file is refused, a run of `Materialize` in which nothing else goes
wrong ends with that error. -/
theorem refused_materialize (hm : validate H J m = .ok ()) (hdest : pathElems dest = [])
    (hfs : m.files = f :: fs) {e : JoinError} (hj : safeJoin dest f.path = .error e) :
    Runs nodeSystem 0 (materialize H J opts m dest) emptyNode (some (.join e)) emptyNode := by
  rw [materialize, hm, hfs]
  refine ⟨none, emptyNode, ?_, none, emptyNode, rfl, ?_⟩
  · have hmade : execDest (.mkdirAll dest) none emptyNode.dest = some emptyNode.dest := by
      simp [execDest, pathAncestors, hdest]
    have hrunning : emptyNode.job.panicked = false := rfl
    simp [nodeSystem, nodeExec, hrunning, hmade]
  · rw [hj]
    exact ⟨rfl, rfl⟩

theorem refused_iff (hf : validManifestPath f.path = true) :
    f.Refused dest ↔ pathElems dest = [] := by
  rw [FileEntry.Refused, safeJoin_of_accepted (pathAccepted_of_valid hf)]
  split <;> simp_all

/-- Where `SafeJoin` accepts a path, it is `Join`. -/
theorem safeJoin_eq_join_iff {p : Str} (hp : validManifestPath p = true) :
    safeJoin dest p = .ok (join [dest, p]) ↔ pathElems dest ≠ [] := by
  have hacc := pathAccepted_of_valid hp
  rw [safeJoin_of_accepted hacc]
  by_cases hdest : pathElems dest = []
  · simp [hdest]
  · have hne : dest ≠ [] := by
      intro hnil
      exact hdest (by rw [hnil]; rfl)
    have hroot : isAbs (dest ++ slash :: p) = isAbs dest := rooted_append hne _
    have helems : pathElems (dest ++ slash :: p) = pathElems dest ++ pathElems p :=
      elems_append_below hne hacc.relative fun hup => (hacc.names _ hup).ne_up rfl
    have hjoin : join [dest, p] = clean dest ++ slash :: clean p := by
      rw [join_pair hne, clean_eq_render, hroot, helems, render_append hdest hacc.nonempty,
        ← clean_eq_render, hacc.clean_eq]
    simp [hdest, hjoin]

end Refused

/-- **The two validators.**  `SafeJoin` follows `validManifestPath` exactly below the
destinations that do not clean to `.` or `/`.  Below those two every path is taken for
an escape, so `Materialize` and the verifier refuse every manifest with a file. -/
theorem validators_agree_iff (dest : Str) :
    (∀ p, validManifestPath p = true →
      (safeJoin dest p = .ok (join [dest, p]) ↔ clean dest ≠ str "." ∧ clean dest ≠ str "/")) ∧
    ∀ (H : Sha256) (J : Marshal) (m : ArtifactManifest), validate H J m = .ok () →
      ((∀ opts t s s' e, ¬ Runs nodeSystem t (materialize H J opts m dest) s (some (.join e)) s') ↔
        clean dest ≠ str "." ∧ clean dest ≠ str "/") ∧
      ((∀ V bs report, verifyMaterializedDirectory H J V m dest = (bs, .ok report) →
          ∀ r ∈ report.fileResults, r.refused = false) ↔
        clean dest ≠ str "." ∧ clean dest ≠ str "/") := by
  have hroom : (clean dest ≠ str "." ∧ clean dest ≠ str "/") ↔ pathElems dest ≠ [] := by
    rw [Ne, Ne, Ne, pathElems_eq_nil_iff, not_or]
  rw [hroom]
  refine ⟨fun p hp => safeJoin_eq_join_iff hp, fun H J m hm => ?_⟩
  have hacc := validate_eq_ok_iff.mp hm
  have hpaths : ∀ f ∈ m.files, (f.Refused dest ↔ pathElems dest = []) :=
    fun f hf => refused_iff (hacc.files f hf).path
  obtain ⟨f, fs, hfs⟩ := List.exists_cons_of_ne_nil hacc.nonempty
  have hf : f ∈ m.files := by rw [hfs]; exact List.mem_cons_self
  refine ⟨⟨fun hnone hdest => ?_, fun hdest opts t s s' e hrun => ?_⟩,
    fun hnone hdest => ?_, fun hdest V bs report hreport r hr => ?_⟩
  · obtain ⟨e, he⟩ := (hpaths f hf).mpr hdest
    exact hnone defaultOptions 0 _ _ e (refused_materialize hm hdest hfs he)
  · have hall : Accepting (materialize H J opts m dest) :=
      accepting_materialize fun g hg href => hdest ((hpaths g hg).mp href)
    exact hall.of_runs (fun _ _ _ _ _ => trivial) hrun e rfl
  · obtain ⟨bs, report, hreport⟩ := report_of_emptyTree (J := J) hm dest
    obtain ⟨r, hr, href⟩ := (refused_of_report hreport).mpr ⟨f, hf, (hpaths f hf).mpr hdest⟩
    rw [hnone _ _ _ hreport r hr] at href
    contradiction
  · by_contra href
    obtain ⟨g, hg, hgref⟩ := (refused_of_report hreport).mp ⟨r, hr, by simpa using href⟩
    exact hdest ((hpaths g hg).mp hgref)

/-- A destination with a name in it, and a path with a detour. -/
theorem validators_agree_named :
    validManifestPath (str "a/../b") = true ∧
      safeJoin (str "./d/") (str "a/../b") = .ok (join [str "./d/", str "a/../b"]) :=
  ⟨by decide, ((validators_agree_iff (str "./d/")).1 _ (by decide)).mpr (by decide)⟩

/-- `f` below `.`, below the empty path and below `/`: joined it does not escape, and
still it is refused. -/
theorem valid_path_refused :
    validManifestPath (str "f") = true ∧
      (join [str ".", str "f"] = str "f" ∧ safeJoin (str ".") (str "f") = .error (.escape (str "f"))) ∧
      (join [[], str "f"] = str "f" ∧ safeJoin [] (str "f") = .error (.escape (str "f"))) ∧
      join [str "/", str "f"] = str "/f" ∧
        safeJoin (str "/") (str "f") = .error (.escape (str "f")) := by
  decide

end Spider

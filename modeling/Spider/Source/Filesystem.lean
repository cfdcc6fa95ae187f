import Spider.Lib.Tree
import Spider.Node.State

/-!
# Spider.Source.Filesystem

The file system source (`pkg/source/fs.go`): whether what `ListFiles` lists can be
read back.

`ListFiles` names a file by its path relative to the base directory, and `resolve`
joins that path to the base directory again; for ordinary names the two are
inverse (`rel_below`, `resolve_below`).  But the check against escapes is textual:
`resolve` refuses every path that begins with the characters `..`, so also the
files below a directory with such a name.

The tree below the base directory is given.  Directories are read completely; a
walk that ends with an error has returned a part of the same list.
-/

namespace Spider

open LexPath

/-! ## The tree -/

/-- A file that is not a directory. -/
structure SourceEntry where
  content : Bytes
  perm : Nat
  deriving DecidableEq

/-- The directory tree at the base directory. -/
structure SourceTree where
  entries : NamedForest Str SourceEntry
  wellNamed : entries.WellNamed IsElem

def SourceTree.root (d : SourceTree) : NamedTree Str SourceEntry := .node d.entries

theorem SourceTree.wellNamed_root (d : SourceTree) : d.root.WellNamed IsElem := d.wellNamed

/-! ## The source -/

/-- `FilesystemSource`; `only` is empty unless the source is a single file. -/
structure FilesystemSource where
  baseDir : Str
  only : Str
  abs : isAbs baseDir = true
  cleaned : clean baseDir = baseDir

/-- The errors of a `FilesystemSource`. -/
inductive SourceError where
  /-- path escapes source root: %s -/
  | escapes (relPath : Str)
  /-- The error `filepath.Walk` or `filepath.Rel` has for a path. -/
  | walk (path : Str)
  /-- failed to open source file %s -/
  | openFile (path : Str)
  /-- failed to seek in source file %s to %d -/
  | seek (path : Str) (offset : Int)
  deriving DecidableEq

namespace FilesystemSource

/-- What the operating system finds at a path at or below the base directory. -/
def lookup (src : FilesystemSource) (d : SourceTree) (path : Str) :
    Option (NamedTree Str SourceEntry) :=
  match dropCommon (pathElems src.baseDir) (pathElems path) with
  | ([], names) => d.root.at? names
  | _ => none

def resolve (src : FilesystemSource) (relPath : Str) : Except SourceError Str :=
  let cleanRel := normalizePath relPath
  let full := join [src.baseDir, cleanRel]
  match rel src.baseDir full with
  | none => .error (.escapes relPath)
  | some r => if hasPrefix r (str "..") then .error (.escapes relPath) else .ok full

mutual

/-- `filepath.Walk`, of which only the calls for files matter. -/
def walk (path : Str) : NamedTree Str SourceEntry → List (Str × SourceEntry)
  | .leaf f => [(path, f)]
  | .node entries => walkEntries path entries

def walkEntries (path : Str) : NamedForest Str SourceEntry → List (Str × SourceEntry)
  | .nil => []
  | .cons name t rest => walk (join [path, name]) t ++ walkEntries path rest

end

/-- A result of `ListFiles`, with the path and the file it was made from. -/
structure Listed where
  path : Str
  file : SourceEntry
  info : FileInfo
  deriving DecidableEq

/-- The function `ListFiles` passes to `filepath.Walk`, call by call. -/
def visit (src : FilesystemSource) : List (Str × SourceEntry) → Except SourceError (List Listed)
  | [] => .ok []
  | (path, f) :: rest =>
      match rel src.baseDir path with
      | none => .error (.walk path)
      | some r =>
          if src.only ≠ [] ∧ r ≠ src.only then src.visit rest
          else (src.visit rest).map
            (⟨path, f, ⟨normalizePath r, .ofNat f.content.length, octal4 f.perm⟩⟩ :: ·)

/-- The directory `ListFiles` scans. -/
def searchDir (src : FilesystemSource) (pre : Str) : Except SourceError Str :=
  if pre ≠ [] then src.resolve pre else .ok src.baseDir

/-- `ListFiles`, keeping track of the files. -/
def listFiles (src : FilesystemSource) (d : SourceTree) (pre : Str) :
    Except SourceError (List Listed) := do
  let dir ← src.searchDir pre
  match src.lookup d dir with
  | none => .error (.walk dir)
  | some t => src.visit (walk dir t)

/-- `Open`. -/
def openFile (src : FilesystemSource) (d : SourceTree) (path : Str) :
    Except SourceError SourceEntry := do
  let full ← src.resolve path
  match src.lookup d full with
  | some (.leaf f) => .ok f
  | _ => .error (.openFile path)

/-- `ReadChunkTo`: what it writes.  A file that ends early is no error. -/
def readChunkTo (src : FilesystemSource) (d : SourceTree) (path : Str) (offset size : Int) :
    Except SourceError Bytes := do
  let f ← src.openFile d path
  if offset < 0 then .error (.seek path offset)
  else .ok ((f.content.drop offset.toNat).take size.toNat)

end FilesystemSource

/-! ## Paths below the base directory -/

section Paths

variable {src : FilesystemSource} {ns : List Str}

/-- The path of the file with these names below the base directory. -/
def FilesystemSource.below (src : FilesystemSource) (ns : List Str) : Str :=
  render slash dot true (pathElems src.baseDir ++ ns)

theorem FilesystemSource.normal_base (src : FilesystemSource) (hns : ∀ n ∈ ns, IsElem n) :
    Normal slash dot true (pathElems src.baseDir ++ ns) := by
  have hbase := normal_pathElems src.baseDir
  rw [src.abs] at hbase
  exact hbase.append_names hns

theorem FilesystemSource.baseDir_ne_nil (src : FilesystemSource) : src.baseDir ≠ [] := by
  intro hnil
  have habs := src.abs
  rw [hnil] at habs
  contradiction

theorem pathElems_below (hns : ∀ n ∈ ns, IsElem n) :
    pathElems (src.below ns) = pathElems src.baseDir ++ ns :=
  elems_render dot_ne_slash (src.normal_base hns)

theorem isAbs_below (hns : ∀ n ∈ ns, IsElem n) : isAbs (src.below ns) = true :=
  rooted_render dot_ne_slash (src.normal_base hns)

theorem below_nil : src.below [] = src.baseDir := by
  have hclean := src.cleaned
  rw [clean_eq_render, src.abs] at hclean
  rw [FilesystemSource.below, List.append_nil]
  exact hclean

theorem rel_below (hns : ∀ n ∈ ns, IsElem n) :
    rel src.baseDir (src.below ns) = some (render slash dot false ns) := by
  simp [rel, pathElems_below hns, dropCommon_append, src.abs, isAbs_below hns]

theorem lookup_below {d : SourceTree} (hns : ∀ n ∈ ns, IsElem n) :
    src.lookup d (src.below ns) = d.root.at? ns := by
  rw [FilesystemSource.lookup, pathElems_below hns, dropCommon_append]

variable {n : Str}

/-- Joining one more name. -/
theorem join_below (hns : ∀ n ∈ ns, IsElem n) (hn : IsElem n) :
    join [src.below ns, n] = src.below (ns ++ [n]) := by
  have hne : src.below ns ≠ [] := render_ne_nil (src.normal_base hns)
  have hpieces : ∀ e ∈ n.splitOn slash, IsElem e := by
    rw [hn.splitOn]
    simpa using hn
  rw [join_pair hne, clean_eq_render, isAbs, rooted_append hne, ← isAbs, isAbs_below hns,
    pathElems_glue hne hpieces, pathElems_below hns, hn.splitOn, FilesystemSource.below,
    List.append_assoc]

/-- Normalising changes nothing about a relative path of ordinary names. -/
theorem normalizePath_names (hns : ∀ n ∈ ns, IsElem n) :
    normalizePath (render slash dot false ns) = render slash dot false ns := by
  have hnorm : Normal slash dot false ns := normal_of_names hns
  have habs : isAbs (render slash dot false ns) = false := rooted_render dot_ne_slash hnorm
  rw [normalizePath_of_relative habs, clean_eq_render, habs, pathElems,
    elems_render dot_ne_slash hnorm]

theorem splitOn_names (hns : ∀ e ∈ n :: ns, IsElem e) :
    (render slash dot false (n :: ns)).splitOn slash = n :: ns := by
  exact List.splitOn_intercalate slash (fun e he => (hns e he).no_sep) (by simp)

theorem join_base_names (hns : ∀ e ∈ n :: ns, IsElem e) :
    join [src.baseDir, render slash dot false (n :: ns)] = src.below (n :: ns) := by
  have hsplit := splitOn_names hns
  have hglue := pathElems_glue (r := render slash dot false (n :: ns)) src.baseDir_ne_nil
    (by rw [hsplit]; exact hns)
  rw [join_pair src.baseDir_ne_nil, clean_eq_render, isAbs, rooted_append src.baseDir_ne_nil, ← isAbs,
    src.abs, hglue, hsplit, FilesystemSource.below]

/-- A path of ordinary names begins with `..` if its first name does. -/
theorem hasPrefix_up_names (hn : IsElem n) :
    hasPrefix (render slash dot false (n :: ns)) (str "..") = hasPrefix n (str "..") := by
  have hup : str ".." = [dot, dot] := by decide
  rcases render_relative_cons n ns with hr | ⟨rest, hr⟩
  · rw [hr]
  · rw [hr, hup]
    -- a name of one character is followed by the slash
    match n, hn.ne_nil with
    | [a], _ => simp [hasPrefix, List.isPrefixOf, dot_ne_slash]
    | a :: b :: more, _ => simp [hasPrefix, List.isPrefixOf]

theorem resolve_below (hns : ∀ e ∈ n :: ns, IsElem e) :
    src.resolve (render slash dot false (n :: ns)) =
      if hasPrefix n (str "..") then .error (.escapes (render slash dot false (n :: ns)))
      else .ok (src.below (n :: ns)) := by
  rw [FilesystemSource.resolve]
  simp only [normalizePath_names hns, join_base_names hns, rel_below hns,
    hasPrefix_up_names (hns n List.mem_cons_self)]

end Paths

/-! ## Listing -/

namespace FilesystemSource

variable {src : FilesystemSource} {d : SourceTree} {pre : Str}

mutual

/-- `filepath.Walk` calls for the leaves of the tree, by their paths. -/
theorem walk_below {ns : List Str} (hns : ∀ n ∈ ns, IsElem n) {t : NamedTree Str SourceEntry}
    (ht : t.WellNamed IsElem) :
    walk (src.below ns) t = t.leaves.map fun p => (src.below (ns ++ p.1), p.2) := by
  cases t with
  | leaf f => simp [walk, NamedTree.leaves]
  | node entries =>
      rw [walk, NamedTree.leaves, walkEntries_below hns ht]

theorem walkEntries_below {ns : List Str} (hns : ∀ n ∈ ns, IsElem n)
    {f : NamedForest Str SourceEntry} (hf : f.WellNamed IsElem) :
    walkEntries (src.below ns) f = f.leaves.map fun p => (src.below (ns ++ p.1), p.2) := by
  cases f with
  | nil => rfl
  | cons name t rest =>
      obtain ⟨hname, -, ht, hrest⟩ := hf
      have hall : ∀ n ∈ ns ++ [name], IsElem n :=
        List.forall_mem_append.mpr ⟨hns, List.forall_mem_singleton.mpr hname⟩
      rw [walkEntries, join_below hns hname, walk_below hall ht, walkEntries_below hns hrest,
        NamedForest.leaves, List.map_append, List.map_map]
      simp

end

/-- The file passes the single-file restriction. -/
def Wanted (src : FilesystemSource) (ns : List Str) : Prop :=
  src.only = [] ∨ render slash dot false ns = src.only

instance (src : FilesystemSource) : DecidablePred src.Wanted :=
  fun _ => inferInstanceAs (Decidable (_ ∨ _))

/-- The result for a file. -/
def entry (src : FilesystemSource) (p : List Str × SourceEntry) : Listed :=
  ⟨src.below p.1, p.2,
    ⟨render slash dot false p.1, .ofNat p.2.content.length, octal4 p.2.perm⟩⟩

theorem visit_below {ps : List (List Str × SourceEntry)} (hps : ∀ p ∈ ps, ∀ n ∈ p.1, IsElem n) :
    src.visit (ps.map fun p => (src.below p.1, p.2)) =
      .ok ((ps.filter fun p => src.Wanted p.1).map src.entry) := by
  induction ps with
  | nil => rfl
  | cons p ps ih =>
      obtain ⟨hp, hrest⟩ := List.forall_mem_cons.mp hps
      rw [List.map_cons, visit]
      simp only [rel_below hp, ih hrest, normalizePath_names hp]
      by_cases hwanted : src.Wanted p.1
      · have hkeep : ¬ (src.only ≠ [] ∧ render slash dot false p.1 ≠ src.only) := by
          rintro ⟨hsome, hne⟩
          exact hwanted.elim hsome hne
        rw [if_neg hkeep, List.filter_cons_of_pos (by simpa using hwanted)]
        rfl
      · have hdrop : src.only ≠ [] ∧ render slash dot false p.1 ≠ src.only :=
          ⟨fun h => hwanted (.inl h), fun h => hwanted (.inr h)⟩
        rw [if_pos hdrop, List.filter_cons_of_neg (by simpa using hwanted)]

/-- The file with these names lies at or below the prefix, and is wanted. -/
def Covers (src : FilesystemSource) (pre : Str) (ns : List Str) : Prop :=
  pathElems (join [src.baseDir, normalizePath pre]) <+: pathElems src.baseDir ++ ns ∧ src.Wanted ns

theorem isAbs_join (q : Str) : isAbs (join [src.baseDir, q]) = true := by
  rw [join_pair src.baseDir_ne_nil, isAbs_clean, isAbs, rooted_append src.baseDir_ne_nil]
  exact src.abs

/-- What is left of a path that is reached from the base directory without going up. -/
theorem below_of_rel {q r : Str} (hr : rel src.baseDir (join [src.baseDir, q]) = some r)
    (hup : hasPrefix r (str "..") = false) :
    ∃ ns, (∀ n ∈ ns, IsElem n) ∧ join [src.baseDir, q] = src.below ns := by
  obtain ⟨common, hbase, hfull⟩ :=
    exists_common (pathElems src.baseDir) (pathElems (join [src.baseDir, q]))
  rw [rel] at hr
  generalize dropCommon (pathElems src.baseDir) (pathElems (join [src.baseDir, q])) = split
    at hr hbase hfull
  obtain ⟨up, down⟩ := split
  have hnone : up = [] := by
    cases up with
    | nil => rfl
    | cons e es =>
        simp only [Option.ite_none_left_eq_some, Option.some.injEq, List.length_cons,
          List.replicate_succ, List.cons_append] at hr
        rw [← hr.2] at hup
        rcases render_relative_cons (str "..") (List.replicate es.length (str "..") ++ down) with
          hrender | ⟨rest, hrender⟩
        · rw [hrender] at hup
          contradiction
        · rw [hrender] at hup
          contradiction
  subst hnone
  rw [List.append_nil] at hbase
  have habs : isAbs (join [src.baseDir, q]) = true := isAbs_join q
  have hnormal := normal_pathElems (join [src.baseDir, q])
  rw [habs] at hnormal
  have hclean : clean (join [src.baseDir, q]) = join [src.baseDir, q] := by
    rw [join_pair src.baseDir_ne_nil, clean_clean]
  refine ⟨down, fun n hn => ?_, ?_⟩
  · refine Normal.names_of_rooted hnormal n ?_
    rw [hfull]
    exact List.mem_append_right common hn
  · rw [← hclean, clean_eq_render, habs, hfull, ← hbase, below]

/-- A path that resolves lies below the base directory. -/
theorem below_of_resolve {path p : Str} (h : src.resolve path = .ok p) :
    ∃ ns, (∀ n ∈ ns, IsElem n) ∧ p = src.below ns ∧
      p = join [src.baseDir, normalizePath path] := by
  rw [resolve] at h
  cases hr : rel src.baseDir (join [src.baseDir, normalizePath path]) with
  | none =>
      rw [hr] at h
      contradiction
  | some r =>
      simp only [hr] at h
      split at h
      · contradiction
      · rename_i hup
        obtain ⟨ns, hns, hjoin⟩ := below_of_rel hr (by simpa using hup)
        have hp := Except.ok.inj h
        exact ⟨ns, hns, by rw [← hp, hjoin], hp.symm⟩

/-- Where `ListFiles` starts. -/
theorem searchDir_below {dir : Str} (h : src.searchDir pre = .ok dir) :
    ∃ ns, (∀ n ∈ ns, IsElem n) ∧ dir = src.below ns ∧
      pathElems (join [src.baseDir, normalizePath pre]) = pathElems src.baseDir ++ ns := by
  rw [searchDir] at h
  by_cases hpre : pre = []
  · rw [if_neg (not_not_intro hpre), Except.ok.injEq] at h
    have hdot : pathElems (join [src.baseDir, normalizePath pre]) = pathElems src.baseDir := by
      rw [hpre, join_pair src.baseDir_ne_nil, pathElems_clean]
      exact (elems_append src.baseDir_ne_nil _).trans (List.reverse_reverse _)
    exact ⟨[], by simp, by rw [← h, below_nil], by rw [hdot, List.append_nil]⟩
  · rw [if_pos hpre] at h
    obtain ⟨ns, hns, hdir, hjoin⟩ := below_of_resolve h
    exact ⟨ns, hns, hdir, by rw [← hjoin, hdir, pathElems_below hns]⟩

/-- `ListFiles` returns the files it covers. -/
theorem mem_listFiles {es : List Listed} (hlist : src.listFiles d pre = .ok es) {e : Listed} :
    e ∈ es ↔ ∃ p ∈ d.root.leaves, src.Covers pre p.1 ∧ e = src.entry p := by
  rw [listFiles] at hlist
  cases hdir : src.searchDir pre with
  | error err =>
      rw [hdir] at hlist
      contradiction
  | ok dir =>
      obtain ⟨ns, hns, rfl, hjoin⟩ := searchDir_below hdir
      simp only [hdir, bind, Except.bind, lookup_below hns] at hlist
      cases ht : d.root.at? ns with
      | none =>
          rw [ht] at hlist
          contradiction
      | some t =>
          have hroot := d.wellNamed_root
          have hleaf : ∀ p : List Str × SourceEntry, p ∈ t.leaves ↔ (ns ++ p.1, p.2) ∈ d.root.leaves :=
            fun p => NamedTree.mem_leaves_at? hroot ht
          have hwalk : walk (src.below ns) t =
              (t.leaves.map fun p => (ns ++ p.1, p.2)).map fun p => (src.below p.1, p.2) := by
            rw [walk_below hns (NamedTree.wellNamed_at? hroot ht), List.map_map]
            rfl
          have hnames : ∀ p ∈ t.leaves.map (fun p => (ns ++ p.1, p.2)), ∀ n ∈ p.1, IsElem n := by
            intro p hp
            obtain ⟨q, hq, rfl⟩ := List.mem_map.mp hp
            exact NamedTree.names_of_mem_leaves hroot ((hleaf q).mp hq)
          rw [ht] at hlist
          dsimp only at hlist
          rw [hwalk, visit_below hnames, Except.ok.injEq] at hlist
          rw [← hlist, List.mem_map]
          constructor
          · rintro ⟨p, hp, rfl⟩
            obtain ⟨hp, hwanted⟩ := List.mem_filter.mp hp
            obtain ⟨q, hq, rfl⟩ := List.mem_map.mp hp
            refine ⟨_, (hleaf q).mp hq, ⟨?_, of_decide_eq_true hwanted⟩, rfl⟩
            rw [hjoin, ← List.append_assoc]
            exact List.prefix_append _ _
          · rintro ⟨p, hp, ⟨hpre, hwanted⟩, rfl⟩
            rw [hjoin, List.prefix_append_right_inj] at hpre
            obtain ⟨ys, hys⟩ := hpre
            have hq : (ys, p.2) ∈ t.leaves := by
              rw [hleaf, hys]
              exact hp
            refine ⟨p, List.mem_filter.mpr ⟨List.mem_map.mpr ⟨(ys, p.2), hq, ?_⟩, ?_⟩, rfl⟩
            · rw [hys]
            · exact decide_eq_true hwanted

/-- **Listing and reading.**  Whatever `ListFiles` lists can be read back as the file
it was listed from, exactly if no file it covers lies at or below a top-level name
that begins with `..`. -/
theorem listed_files_read_back_iff (src : FilesystemSource) (d : SourceTree) (pre : Str)
    (es : List Listed) (hlist : src.listFiles d pre = .ok es) :
    (∀ e ∈ es, src.resolve e.info.path = .ok e.path ∧
      src.openFile d e.info.path = .ok e.file ∧
      ∀ offset size : Int, 0 ≤ offset → src.readChunkTo d e.info.path offset size =
        .ok ((e.file.content.drop offset.toNat).take size.toNat)) ↔
      ∀ p ∈ d.root.leaves, src.Covers pre p.1 → ∀ n ∈ p.1.head?, hasPrefix n (str "..") = false := by
  have hroot := d.wellNamed_root
  constructor
  · intro hall p hp hcovers n hn
    have hnames := NamedTree.names_of_mem_leaves hroot hp
    obtain ⟨hresolve, -⟩ := hall _ ((mem_listFiles hlist).mpr ⟨p, hp, hcovers, rfl⟩)
    obtain ⟨ns, hns⟩ : ∃ ns, p.1 = n :: ns := List.head?_eq_some_iff.mp hn
    by_contra hup
    rw [entry, hns, resolve_below (hns ▸ hnames), if_pos (by simpa using hup)] at hresolve
    contradiction
  · intro hclear e he
    obtain ⟨p, hp, hcovers, rfl⟩ := (mem_listFiles hlist).mp he
    have hnames := NamedTree.names_of_mem_leaves hroot hp
    obtain ⟨n, ns, hns, -⟩ := NamedForest.head_of_mem_leaves hp
    have hfirst : hasPrefix n (str "..") = false := hclear p hp hcovers n (by rw [hns]; rfl)
    have hresolve : src.resolve (render slash dot false p.1) = .ok (src.below p.1) := by
      rw [hns] at hnames ⊢
      rw [resolve_below hnames, if_neg (by simp [hfirst])]
    have hopen : src.openFile d (render slash dot false p.1) = .ok p.2 := by
      have hleaf : d.root.at? p.1 = some (.leaf p.2) := NamedTree.at?_of_mem_leaves hroot hp
      simp [openFile, hresolve, bind, Except.bind, lookup_below hnames, hleaf]
    refine ⟨hresolve, hopen, fun offset size hoffset => ?_⟩
    have hnot : ¬ offset < 0 := by omega
    simp [readChunkTo, entry, hopen, bind, Except.bind, hnot]

end FilesystemSource

/-- The source at `/srv`. -/
def srvSource : FilesystemSource := ⟨str "/srv", [], by decide, by decide⟩

/-- A directory of this name with one file. -/
def oneToken (name : Str) (h : IsElem name) : SourceTree where
  entries := .cons name (.node (.cons (str "token") (.leaf ⟨[1, 2], 0o644⟩) .nil)) .nil
  wellNamed := by
    have htoken : IsElem (str "token") := by decide
    simp [NamedForest.WellNamed, NamedTree.WellNamed, NamedForest.names, h, htoken]

/-- What is listed of that directory. -/
def tokenListed (name : Str) : FilesystemSource.Listed :=
  ⟨str "/srv/" ++ name ++ str "/token", ⟨[1, 2], 0o644⟩, ⟨name ++ str "/token", 2, str "0644"⟩⟩

theorem listed_files_read_back_data :
    srvSource.openFile (oneToken (str "data") (by decide)) (str "data/token") =
      .ok ⟨[1, 2], 0o644⟩ := by
  have hlist : srvSource.listFiles (oneToken (str "data") (by decide)) [] =
      .ok [tokenListed (str "data")] := by rfl
  have hclear : ∀ p ∈ (oneToken (str "data") (by decide)).root.leaves, srvSource.Covers [] p.1 →
      ∀ n ∈ p.1.head?, hasPrefix n (str "..") = false := by
    intro p hp _
    obtain rfl : p = ([str "data", str "token"], ⟨[1, 2], 0o644⟩) := by
      simpa [oneToken, SourceTree.root, NamedTree.leaves, NamedForest.leaves] using hp
    decide
  exact ((FilesystemSource.listed_files_read_back_iff srvSource _ [] _ hlist).mpr hclear
    (tokenListed (str "data")) List.mem_cons_self).2.1

/-- A directory `..data` is listed, and its file refused. -/
theorem dotdot_listed_and_refused :
    srvSource.listFiles (oneToken (str "..data") (by decide)) [] =
        .ok [tokenListed (str "..data")] ∧
      srvSource.resolve (tokenListed (str "..data")).info.path =
        .error (.escapes (str "..data/token")) :=
  ⟨by rfl, by rfl⟩

end Spider

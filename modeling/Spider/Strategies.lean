import Spider.Leftovers

/-!
# Spider.Strategies

Whether the two strategies of `Materialize` do the same.

All chunks are in the cache and correct, the disk works, and the destination is
empty.  What can still go wrong is that a file stands where another one needs a
directory, or the other way round, and there both strategies stop.  Up to that
point (`placeable`) both write the same files with the same bytes.  But a
linked file keeps the permissions of the chunk file: the shortcut leaves the loop
body before the permissions are set.
-/

namespace Spider

open Conc LexPath

/-! ## One file -/

section Place

variable {links : Bool} {t : Tid} {H : Sha256} {s : Node} {opts : Options} {target : Str}
variable {entry : FileEntry}

/-- A directory that is not empty is in the way of a copy. -/
theorem returns_copyFile_dir (hp : s.job.panicked = false) (hf : FileAccepted entry)
    (hthere : s.dest.entries.lookup target = some .dir) (hchild : s.dest.hasChild target = true) :
    Returns (soundDiskSystem links) t (fun r s' => r ≠ none ∧ s' = s)
      (copyFile H opts entry target) s := by
  have hclear : s.dest.cleared opts target = s.dest := by simp [Dest.cleared, hchild]
  have hclosed : ¬ s.dest.opens target = true := by simp [Dest.opens, execDest, hthere]
  refine Returns.seq (returns_soundDisk_materializeFile hp hf fun _ _ => hthere) fun r s1 hr => ?_
  obtain ⟨d1, rfl, -, hends⟩ := hr
  rw [hclear, if_neg hclosed] at hends
  obtain ⟨⟨e, rfl⟩, rfl⟩ := hends
  exact ⟨by simp, rfl⟩

/-- A hard link is made if it can be. -/
theorem places_soundDisk : Places (soundDiskSystem links) t (· = links) where
  toCopies := copies_soundDisk
  ways := ⟨links, rfl⟩
  link {_ _ s h target _} hp hmade hfailed := by
    obtain ⟨r0, s0, hok, hgo⟩ : ∃ r0 s0, soundDisk links (.link h target) r0 s = true ∧
        nodeSystem.exec t (.link h target) r0 s = some s0 := by
      cases hx : execLink s.store h target none s.dest with
      | none => exact ⟨some [], s, by simp [soundDisk, hx], by simp [nodeSystem, nodeExec, hp, execLink]⟩
      | some d' =>
          cases links with
          | false => exact ⟨some [], s, rfl, by simp [nodeSystem, nodeExec, hp, execLink]⟩
          | true => exact ⟨none, _, rfl, by simp [nodeSystem, nodeExec, hp, hx]; rfl⟩
    refine Returns.meeting_perform hok hgo fun r s' hr hexec => ?_
    obtain ⟨d', hd', rfl⟩ := nodeExec_link hexec
    cases r with
    | none => exact hmade d' (Eq.symm hr) hd'
    | some msg =>
        simp only [execLink, Option.some.injEq] at hd'
        subst hd'
        refine hfailed ?_ msg
        simpa [soundDisk] using hr

theorem returns_placeFile_dir (hp : s.job.panicked = false) (hf : FileAccepted entry)
    (hchunks : ∀ c ∈ entry.chunks, Correct H s.store c)
    (hthere : s.dest.entries.lookup target = some .dir) (hchild : s.dest.hasChild target = true) :
    Returns (soundDiskSystem links) t (fun r s' => r ≠ none ∧ s' = s)
      (placeFile H opts entry target) s := by
  have hclear : s.dest.cleared opts target = s.dest := by simp [Dest.cleared, hchild]
  have hold := @returns_soundDisk_removeOld links t s opts target hp
  rw [hclear] at hold
  refine places_soundDisk.placeFile_of hp hf hchunks hold (fun c d' _ _ hd' => ?_)
    fun _ => returns_copyFile_dir hp hf hthere hchild
  simp only [execLink] at hd'
  split at hd' <;> simp [hthere] at hd'

end Place

/-! ## The loop -/

/-- The entries before the first one that an earlier entry is in the way of. -/
def placeable (done : List FileEntry) : List FileEntry → List FileEntry
  | [] => []
  | e :: es => if ∀ f ∈ done, Apart e f then e :: placeable (done ++ [e]) es else []

section Loop

variable {links : Bool} {t : Tid} {H : Sha256} {s : Node} {opts : Options} {destDir : Str}
variable {d0 : Dest} {α : Type} {Q : α → Node → Prop}

theorem returns_soundDisk_mkdirAll {p : Str} {k : Option Str → NodeM α}
    (hp : s.job.panicked = false)
    (hmade : ∀ d', execDest (.mkdirAll p) none s.dest = some d' →
      Returns (soundDiskSystem links) t Q (k none) { s with dest := d' })
    (hfailed : execDest (.mkdirAll p) none s.dest = none → ∀ msg,
      Returns (soundDiskSystem links) t Q (k (some msg)) s) :
    Returns (soundDiskSystem links) t Q (onDest (.mkdirAll p) >>= k) s := by
  refine returns_onDest hp fun r d' hok hx => ?_
  cases r with
  | none => exact hmade d' hx
  | some msg =>
      simp only [execDest, Option.some.injEq] at hx
      subst hx
      exact hfailed (Option.isNone_iff_eq_none.mp hok) msg

section Entry

variable {done rest : List FileEntry} {e f : FileEntry}
variable (hp : s.job.panicked = false) (hempty : EmptyDir d0 destDir)
  (hbase : pathElems destDir ≠ []) (hdone : ∀ f ∈ done, FileAccepted f) (hf : FileAccepted e)
  (hs : Stands destDir d0 (Made H s.store (· = links) opts) done s.dest)
include hp hempty hbase hdone hf hs

omit hempty in
/-- A file stands where a directory is needed. -/
theorem returns_files_below_file (hfd : f ∈ done)
    (hpre : pathElems f.path <+: pathElems e.path) (hne : pathElems f.path ≠ pathElems e.path) :
    Returns (soundDiskSystem links) t
      (fun r s' => Stands destDir d0 (Made H s.store (· = links) opts) done s'.dest ∧ r ≠ none)
      (materializeFiles H opts destDir (e :: rest)) s := by
  have hpath : PathAccepted e.path := pathAccepted_of_valid hf.path
  obtain ⟨init, last, hsplit, hinit, hdir⟩ := exists_parent hbase hpath
  have hbelow : pathElems f.path <+: init := front_of_parent (hsplit ▸ hpre) (hsplit ▸ hne)
  have hfne : pathElems f.path ≠ [] := (pathAccepted_of_valid (hdone f hfd).path).nonempty
  have hany : (pathAncestors (inDest destDir init)).any s.dest.isFile = true := by
    rw [List.any_eq_true]
    refine ⟨_, (mem_pathAncestors_inDest hinit).mpr (.inr ⟨_, hfne, hbelow, rfl⟩), ?_⟩
    obtain ⟨_, hlook, _, _, rfl⟩ := hs.files f hfd
    simp [Dest.isFile, hlook, placedFile]
  refine copies_soundDisk.ctxErr hp ?_
  simp only [safeJoin_inDest hbase hpath]
  refine returns_soundDisk_mkdirAll hp (fun d' hd' => ?_) fun _ msg => ?_
  · rw [hdir] at hd'
    simp [execDest, hany] at hd'
  · exact ⟨hs, by simp⟩

/-- A directory stands where the file should be. -/
theorem returns_files_at_dir (hchunks : ∀ c ∈ e.chunks, Correct H s.store c)
    (hclear : ∀ f ∈ done, ¬ pathElems f.path <+: pathElems e.path) (hfd : f ∈ done)
    (hpre : pathElems e.path <+: pathElems f.path) (hne : pathElems e.path ≠ pathElems f.path) :
    Returns (soundDiskSystem links) t
      (fun r s' => Stands destDir d0 (Made H s.store (· = links) opts) done s'.dest ∧ r ≠ none)
      (materializeFiles H opts destDir (e :: rest)) s := by
  have hpath : PathAccepted e.path := pathAccepted_of_valid hf.path
  have hnames : ∀ f ∈ done, ∀ n ∈ pathElems f.path, IsElem n :=
    fun f hf => (pathAccepted_of_valid (hdone f hf).path).names
  obtain ⟨init, last, hsplit, hinit, hdir⟩ := exists_parent hbase hpath
  have hfront : init <+: pathElems e.path := ⟨[last], hsplit.symm⟩
  obtain ⟨hmkdir, -⟩ := hs.mkdirs hempty hbase hnames hpath hclear hfront
  refine copies_soundDisk.ctxErr hp ?_
  simp only [safeJoin_inDest hbase hpath]
  refine returns_soundDisk_mkdirAll hp (fun d1 hd1 => ?_) fun _ msg => ⟨hs, by simp⟩
  rw [hdir, hmkdir, Option.some.injEq] at hd1
  -- all directories on the way are there already
  have hsame : ∀ p, d1.entries.lookup p = s.dest.entries.lookup p := by
    intro p
    rw [← hd1, lookup_mkdirs, if_neg]
    rintro ⟨hnone, hmem⟩
    rcases (mem_pathAncestors_inDest hinit).mp hmem with habove | ⟨es, hes, hpes, rfl⟩
    · simp [hs.above hempty hnames habove] at hnone
    · have hthere := hs.isSome hfd hes (hpes.trans (hfront.trans hpre))
      simp [hnone] at hthere
  have hs1 := hs.congr hsame
  have hthere := hs1.dirs f hfd _ hpath.nonempty hpre hne
  have hchild := hs1.hasChild hbase hfd (hnames f hfd) hpre hne
  refine Returns.seq (returns_placeFile_dir (s := { s with dest := d1 }) hp hf hchunks hthere
    hchild) fun r s2 hr => ?_
  obtain ⟨hr, rfl⟩ := hr
  cases r with
  | none => exact absurd rfl hr
  | some err => exact ⟨hs1, by simp⟩

end Entry

/-- The loop places the entries up to the first one that is obstructed. -/
theorem returns_materializeFiles_stands {done rest : List FileEntry}
    (hp : s.job.panicked = false) (hempty : EmptyDir d0 destDir)
    (hbase : pathElems destDir ≠ []) (hfiles : ∀ f ∈ done ++ rest, FileAccepted f)
    (hchunks : ∀ f ∈ rest, ∀ c ∈ f.chunks, Correct H s.store c)
    (hdistinct : ((done ++ rest).map fun f => pathElems f.path).Nodup)
    (hs : Stands destDir d0 (Made H s.store (· = links) opts) done s.dest) :
    Returns (soundDiskSystem links) t
      (fun r s' => Stands destDir d0 (Made H s.store (· = links) opts)
          (done ++ placeable done rest) s'.dest ∧ (r = none ↔ placeable done rest = rest))
      (materializeFiles H opts destDir rest) s := by
  induction rest generalizing done s with
  | nil => exact ⟨by simpa [placeable] using hs, by simp [placeable]⟩
  | cons e rest ih =>
      have hf : FileAccepted e := hfiles e (by simp)
      have hdone : ∀ f ∈ done, FileAccepted f := fun f hf => hfiles f (List.mem_append_left _ hf)
      have hother : ∀ f ∈ done, pathElems f.path ≠ pathElems e.path := by
        intro f hf heq
        rw [List.map_append, List.nodup_append] at hdistinct
        exact hdistinct.2.2 _ (List.mem_map_of_mem hf) _ (by simp) heq
      have hce := hchunks e List.mem_cons_self
      rw [placeable]
      by_cases hapart : ∀ f ∈ done, Apart e f
      · rw [if_pos hapart]
        refine places_soundDisk.files_free hp hempty hbase hdone hf hs hce hapart fun d' hs' => ?_
        refine (ih (s := { s with dest := d' }) hp (by simpa using hfiles)
          (fun f hf => hchunks f (List.mem_cons_of_mem e hf)) (by simpa using hdistinct)
          hs').mono fun r s3 hr => ?_
        exact ⟨by simpa using hr.1, by simpa using hr.2⟩
      · rw [if_neg hapart, List.append_nil]
        have hstop : Returns (soundDiskSystem links) t
            (fun r s' => Stands destDir d0 (Made H s.store (· = links) opts) done s'.dest ∧ r ≠ none)
            (materializeFiles H opts destDir (e :: rest)) s := by
          by_cases hfile : ∃ f ∈ done, pathElems f.path <+: pathElems e.path
          · obtain ⟨f, hfd, hpre⟩ := hfile
            exact returns_files_below_file hp hbase hdone hf hs hfd hpre (hother f hfd)
          · have hclear : ∀ f ∈ done, ¬ pathElems f.path <+: pathElems e.path :=
              fun f hf hpre => hfile ⟨f, hf, hpre⟩
            obtain ⟨f, hfd, hpre⟩ : ∃ f ∈ done, pathElems e.path <+: pathElems f.path := by
              by_contra hnone
              exact hapart fun f hf => ⟨fun hpre => hnone ⟨f, hf, hpre⟩, hclear f hf⟩
            exact returns_files_at_dir hp hempty hbase hdone hf hs hce hclear hfd hpre
              (hother f hfd).symm
        exact hstop.mono fun r s' hr => ⟨hr.1, by simp [hr.2]⟩

end Loop

/-! ## The two strategies -/

/-- The entries that `Materialize` places: none below `.` or `/`, where nothing
resolves, otherwise those before the first obstructed one. -/
def reached (destDir : Str) (m : ArtifactManifest) : List FileEntry :=
  if pathElems destDir = [] then [] else placeable [] m.files

/-- The hard-link shortcut applies. -/
def Linkable (f : FileEntry) : Prop := ∃ c, f.chunks = [c] ∧ c.size = f.size

theorem isSome_linkChunk_iff {opts : Options} {f : FileEntry} (h : opts.strategy = .hardLink) :
    (linkChunk opts f).isSome = true ↔ Linkable f := by
  constructor
  · intro hsome
    obtain ⟨c, hc⟩ := Option.isSome_iff_exists.mp hsome
    have hone := linkChunk_eq_some hc
    simp only [linkChunk, h, hone, Option.ite_none_right_eq_some] at hc
    exact ⟨c, hone, hc.1⟩
  · rintro ⟨c, hone, hsize⟩
    simp [linkChunk, h, hone, hsize]

/-- Both programs end, with the same success, and leave the same tree: directories,
files, bytes and permissions. -/
structure Agree (M : System nodeSig Node Tid) (t : Tid) (p q : NodeM (Option Err)) (s : Node) :
    Prop where
  ends : (∃ r s', Runs M t p s r s') ∧ ∃ r s', Runs M t q s r s'
  success : ∀ r₁ s₁ r₂ s₂, Runs M t p s r₁ s₁ → Runs M t q s r₂ s₂ → (r₁ = none ↔ r₂ = none)
  tree : ∀ r₁ s₁ r₂ s₂, Runs M t p s r₁ s₁ → Runs M t q s r₂ s₂ →
    ∀ path, s₁.dest.entries.lookup path = s₂.dest.entries.lookup path

section Strategies

variable {H : Sha256} {J : Marshal} {m : ArtifactManifest} {destDir : Str} {links : Bool} {t : Tid}
variable {s : Node} {d : Dest}

/-- Two destinations with the same entries differ in what was made of them only. -/
theorem Stands.lookup_eq_iff {d0 d' : Dest} {made made' : FileEntry → Entry}
    {done : List FileEntry} (h : Stands destDir d0 (fun f e => e = made f) done d)
    (h' : Stands destDir d0 (fun f e => e = made' f) done d') :
    (∀ p, d.entries.lookup p = d'.entries.lookup p) ↔ ∀ f ∈ done, made f = made' f := by
  constructor
  · intro hsame f hf
    obtain ⟨_, hfile, rfl⟩ := h.files f hf
    obtain ⟨_, hfile', rfl⟩ := h'.files f hf
    rw [hsame, hfile', Option.some.injEq] at hfile
    exact hfile.symm
  · intro hmade p
    by_cases hp : ∃ f ∈ done, ∃ es, es ≠ [] ∧ es <+: pathElems f.path ∧ p = inDest destDir es
    · obtain ⟨f, hf, es, hne, hpre, rfl⟩ := hp
      by_cases hes : es = pathElems f.path
      · obtain ⟨_, hfile, rfl⟩ := h.files f hf
        obtain ⟨_, hfile', rfl⟩ := h'.files f hf
        rw [hes, hfile, hfile', hmade f hf]
      · rw [h.dirs f hf es hne hpre hes, h'.dirs f hf es hne hpre hes]
    · have hout : ∀ f ∈ done, ∀ es, es ≠ [] → es <+: pathElems f.path → p ≠ inDest destDir es :=
        fun f hf es hne hpre heq => hp ⟨f, hf, es, hne, hpre, heq⟩
      rw [h.rest p hout, h'.rest p hout]

theorem DistinctTargets.nodup_pathElems (h : DistinctTargets m destDir)
    (hpaths : ∀ f ∈ m.files, PathAccepted f.path) (hbase : pathElems destDir ≠ []) :
    (m.files.map fun f => pathElems f.path).Nodup := by
  rw [List.nodup_iff_pairwise_ne, List.pairwise_map]
  refine h.imp_of_mem fun {e f} he hf hne heq => ?_
  have hjoin := safeJoin_inDest hbase (hpaths e he)
  have hjoin' := safeJoin_inDest hbase (hpaths f hf)
  rw [← heq] at hjoin'
  exact hne _ _ hjoin hjoin' rfl

/-- What `Materialize` leaves, for either strategy. -/
theorem returns_materialize_stands {d1 : Dest} {opts : Options} (hm : Accepted H J m)
    (hdist : DistinctTargets m destDir)
    (hchunks : ∀ f ∈ m.files, ∀ c ∈ f.chunks, Correct H s.store c)
    (hp : s.job.panicked = false) (hmkdir : execDest (.mkdirAll destDir) none s.dest = some d1)
    (hempty : EmptyDir d1 destDir) :
    Returns (soundDiskSystem links) t
      (fun r s' => Stands destDir d1 (fun f e => e = placedFile H s.store links opts f) (reached destDir m) s'.dest ∧
        (r = none ↔ reached destDir m = m.files))
      (materialize H J opts m destDir) s := by
  have hpaths : ∀ f ∈ m.files, PathAccepted f.path :=
    fun f hf => pathAccepted_of_valid (hm.files f hf).path
  have hmade : (fun f e => e = placedFile H s.store links opts f) =
      Made H s.store (· = links) opts := by
    funext f e
    simp [Made]
  have hnothing : Stands destDir d1 (Made H s.store (· = links) opts) [] d1 :=
    ⟨by simp, by simp, fun _ _ => rfl⟩
  rw [hmade]
  simp only [materialize, validate_eq_ok_iff.mpr hm]
  refine returns_soundDisk_mkdirAll hp (fun d' hd' => ?_) fun hnone => ?_
  · rw [hmkdir, Option.some.injEq] at hd'
    subst hd'
    by_cases hbase : pathElems destDir = []
    · -- the first entry does not resolve
      obtain ⟨e, rest, hfiles⟩ := List.exists_cons_of_ne_nil hm.nonempty
      have he := hpaths e (by simp [hfiles])
      simp only [reached, hbase, if_true, hfiles, materializeFiles]
      refine copies_soundDisk.ctxErr hp ?_
      simp only [safeJoin_of_accepted he, hbase, if_true]
      exact ⟨hnothing, by simp⟩
    · rw [reached, if_neg hbase]
      exact returns_materializeFiles_stands (s := { s with dest := d1 }) hp hempty hbase
        (by simpa using hm.files) hchunks (by simpa using hdist.nodup_pathElems hpaths hbase) hnothing
  · rw [hmkdir] at hnone
    contradiction

/-- A linked and a copied file differ in their permissions only. -/
theorem placedFile_eq_iff {x : Store} {overwrite preservePerms : Bool} {f : FileEntry} :
    placedFile H x links ⟨.hardLink, overwrite, preservePerms⟩ f =
        placedFile H x links ⟨.copy, overwrite, preservePerms⟩ f ↔
      (links = true → Linkable f → copiedPerm ⟨.copy, overwrite, preservePerms⟩ f = 0o644) := by
  have hlink : (linkChunk ⟨.hardLink, overwrite, preservePerms⟩ f).isSome = true ↔ Linkable f :=
    isSome_linkChunk_iff rfl
  have hnone : linkChunk ⟨.copy, overwrite, preservePerms⟩ f = none := linkChunk_copy rfl
  have hsame : copiedPerm ⟨.hardLink, overwrite, preservePerms⟩ f =
      copiedPerm ⟨.copy, overwrite, preservePerms⟩ f := rfl
  have hcopy : placedPerm links ⟨.copy, overwrite, preservePerms⟩ f =
      copiedPerm ⟨.copy, overwrite, preservePerms⟩ f := by simp [placedPerm, hnone]
  rw [placedFile, placedFile, Entry.file.injEq, hcopy, placedPerm, hsame, ← hlink]
  by_cases hboth : links = true ∧
      (linkChunk ⟨.hardLink, overwrite, preservePerms⟩ f).isSome = true
  · rw [if_pos hboth]
    simp only [hboth.1, hboth.2, true_and, true_imp_iff]
    exact eq_comm
  · rw [if_neg hboth]
    simp only [and_self, true_iff]
    exact fun hlinks hf => absurd ⟨hlinks, hf⟩ hboth

end Strategies

/-- A file of one byte in one chunk. -/
def oneByteFile (mode : Str) : FileEntry :=
  ⟨str "f", 1, mode, [⟨computeHash oneDigest [1], 0, 1⟩]⟩

theorem oneByteFile_accepted (mode : Str) : FileAccepted (oneByteFile mode) :=
  ⟨show validManifestPath (str "f") = true by decide,
    show ∀ c ∈ [(⟨computeHash oneDigest [1], 0, 1⟩ : ChunkRef)], validHashName c.hash = true by
      decide +kernel,
    show ∀ c ∈ [(⟨computeHash oneDigest [1], 0, 1⟩ : ChunkRef)], 0 ≤ c.size by decide +kernel,
    ⟨rfl, trivial⟩, rfl⟩

/-- The manifest with this file. -/
def oneByteManifest (mode : Str) : ArtifactManifest :=
  oneFileManifest oneDigest (fun _ => []) (oneByteFile mode)

/-- A node that has its chunk. -/
def oneByteNode : Node := nodeWithChunks (AList.singleton (computeHash oneDigest [1]) [1])

theorem clearDir_oneByteNode : ClearDir oneByteNode.dest (str "/d") := ⟨by decide, by decide⟩

end Spider

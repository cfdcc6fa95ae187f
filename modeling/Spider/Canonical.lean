import Spider.Engine.Publishing

/-!
# Spider.Canonical

`Finalize` as a normal form (`api/v1/manifest.go`, `pkg/engine/publisher.go`).

`sort.Slice` leaves the order of equal paths open, and it is called twice, once by
`Finalize` and once by `ComputeID`.  `Finalizes` is `Finalize` with any outcome of the
two sorts.  Where the paths are distinct there is only one (`Finalizes.eq_finalize`),
and a manifest that `Validate` accepts has distinct paths; so what is left to show is
about the function `finalize`: a second time it changes nothing, and it does not depend
on the order of the files.
-/

namespace Spider

open Conc Stream

/-! ## Any sort -/

/-- What `sort.Slice` by path may make of some files. -/
def Sorts (files sorted : List FileEntry) : Prop :=
  sorted.Perm files ∧ sorted.Pairwise fun a b => a.path ≤ b.path

/-- What `Finalize` has done before it sorts. -/
def prepare (m : ArtifactManifest) : ArtifactManifest :=
  { m with
    schemaVersion := if m.schemaVersion = 0 then currentSchema else m.schemaVersion
    chunkSize := if m.chunkSize = 0 then defaultChunkSize else m.chunkSize
    totalSize := wrapSum 0 (m.files.map FileEntry.size)
    files := m.files.map fun f => { f with path := normalizePath f.path } }

/-- `Finalize`, with any outcome of the two sorts. -/
def Finalizes (H : Sha256) (J : Marshal) (m m' : ArtifactManifest) : Prop :=
  ∃ files canonical, Sorts (prepare m).files files ∧ Sorts files canonical ∧
    m' = { prepare m with
      files := files
      artifactID := computeHash H (J { prepare m with artifactID := [], files := canonical }) }

section Sorts

variable {H : Sha256} {J : Marshal} {m m' : ArtifactManifest} {fs gs as bs : List FileEntry}

theorem sorts_sortFiles (fs : List FileEntry) : Sorts fs (sortFiles fs) :=
  ⟨List.perm_insertionSort _ _, List.pairwise_insertionSort _ _⟩

/-- Distinct paths have one order. -/
theorem Sorts.unique (ha : Sorts fs as) (hb : Sorts gs bs) (hperm : fs.Perm gs)
    (hdist : (fs.map FileEntry.path).Nodup) : as = bs := by
  have hab : as.Perm bs := ha.1.trans (hperm.trans hb.1.symm)
  refine hab.eq_of_pairwise (fun a b hma hmb hle hge => ?_) ha.2 hb.2
  have hfa : a ∈ fs := ha.1.mem_iff.mp hma
  have hfb : b ∈ fs := hperm.mem_iff.mpr (hb.1.mem_iff.mp hmb)
  exact List.inj_on_of_nodup_map hdist hfa hfb (List.le_antisymm hle hge)

theorem finalize_eq_prepare (m : ArtifactManifest) :
    finalize H J m =
      { prepare m with
        files := sortFiles (prepare m).files
        artifactID := computeHash H
          (J { prepare m with artifactID := [], files := sortFiles (sortFiles (prepare m).files) }) } := by
  have hsizes : (m.files.map fun f => { f with path := normalizePath f.path }).map FileEntry.size =
      m.files.map FileEntry.size := by
    rw [List.map_map]
    rfl
  simp only [finalize, computeID, prepare, hsizes]

theorem Finalizes.eq_finalize (h : Finalizes H J m m')
    (hdist : ((prepare m).files.map FileEntry.path).Nodup) : m' = finalize H J m := by
  obtain ⟨files, canonical, hfiles, hcanonical, rfl⟩ := h
  have hf : files = sortFiles (prepare m).files := hfiles.unique (sorts_sortFiles _) (.refl _) hdist
  have hc : canonical = sortFiles files :=
    hcanonical.unique (sorts_sortFiles _) (.refl _) ((hfiles.1.map _).nodup_iff.mpr hdist)
  rw [finalize_eq_prepare, hc, hf]

theorem finalizes_finalize (m : ArtifactManifest) : Finalizes H J m (finalize H J m) :=
  ⟨_, _, sorts_sortFiles _, sorts_sortFiles _, finalize_eq_prepare m⟩

/-! ## The normal form -/

/-- Two orders of the same files, with distinct paths, are finalized alike. -/
theorem finalize_perm (hperm : fs.Perm m.files)
    (hdist : ((prepare m).files.map FileEntry.path).Nodup) :
    finalize H J { m with files := fs } = finalize H J m := by
  have hprep : (prepare { m with files := fs }).files.Perm (prepare m).files := hperm.map _
  have hsort : sortFiles (prepare { m with files := fs }).files = sortFiles (prepare m).files :=
    (sorts_sortFiles _).unique (sorts_sortFiles _) hprep ((hprep.map _).nodup_iff.mpr hdist)
  have htotal : (prepare { m with files := fs }).totalSize = (prepare m).totalSize :=
    wrapSum_perm (hperm.map _)
  rw [finalize_eq_prepare, finalize_eq_prepare, hsort]
  simp only [prepare] at htotal ⊢
  rw [htotal]

/-- Normalising a path that passes the check a second time changes nothing. -/
theorem normalizePath_idem {p : Str} (h : validManifestPath (normalizePath p) = true) :
    normalizePath (normalizePath p) = normalizePath p := by
  have hrel := (pathAccepted_of_valid h).relative
  rw [normalizePath_of_relative hrel, clean_normalizePath h]

/-- A finalized manifest is prepared. -/
theorem prepare_finalize (ha : Accepted H J (finalize H J m)) :
    prepare (finalize H J m) = finalize H J m := by
  have hfiles : ((finalize H J m).files.map fun f => { f with path := normalizePath f.path }) =
      (finalize H J m).files := by
    refine (List.map_congr_left fun f hf => ?_).trans (List.map_id _)
    have hpath := (ha.files f hf).path
    obtain ⟨f0, -, rfl⟩ := mem_files_finalize.mp hf
    rw [id, normalizePath_idem hpath]
  have hschema : (finalize H J m).schemaVersion ≠ 0 := by
    rw [ha.schema]
    decide
  have hchunk : (finalize H J m).chunkSize ≠ 0 := fun hzero => by
    have hpos := ha.chunkSize
    rw [hzero] at hpos
    exact absurd hpos (by decide)
  rw [prepare, if_neg hschema, if_neg hchunk, hfiles, ha.total]

theorem finalize_idem (ha : Accepted H J (finalize H J m)) :
    finalize H J (finalize H J m) = finalize H J m := by
  have hsorted : sortFiles (finalize H J m).files = (finalize H J m).files := by
    exact sortFiles_idem _
  have hid := ha.id
  rw [computeID] at hid
  rw [finalize_eq_prepare, prepare_finalize ha, hsorted, hsorted]
  rw [hsorted] at hid
  rw [← hid]

/-- The paths of an accepted result were distinct before the sort. -/
theorem Finalizes.distinct (h : Finalizes H J m m') (ha : Accepted H J m') :
    ((prepare m).files.map FileEntry.path).Nodup := by
  have hdist := ha.distinct
  obtain ⟨files, canonical, hfiles, -, rfl⟩ := h
  exact (hfiles.1.map _).nodup_iff.mp hdist

end Sorts

/-! ## PublishFromMemory -/

/-- The entry of one file of the map. -/
def memoryEntry (H : Sha256) (chunkSize : Int64) (file : Str × Bytes) : FileEntry :=
  ⟨file.1, Int64.ofNat file.2.length, str "0644",
    (chunksOf H chunkSize.toInt.toNat file.2).map Chunk.ref⟩

section Memory

variable {H : Sha256} {J : Marshal} {onCommit : OnCommit} {chunkSize : Int64}
  {okc : Cmd → Prop} {ok : (c : Cmd) → c.Resp → Prop}

theorem collects_memoryChunk :
    Collects H (memoryChunk H onCommit) (fun refs done => refs = (chunksAt H 0 done).map Chunk.ref)
      (fun _ => True) ok := by
  intro refs done data _ hrefs
  have happ : refs ++ [(chunkAt H (Int64.ofNat done.flatten.length) data).ref] =
      (chunksAt H 0 (done ++ [data])).map Chunk.ref := by
    rw [chunksAt_append, List.map_append, hrefs, Int64.zero_add]
    rfl
  refine (Prog.only_true _).all.bind fun found _ => ?_
  cases found with
  | true =>
      rintro refs' ⟨⟩
      exact happ
  | false =>
      refine (Prog.only_true _).all.bind fun res _ => ?_
      cases res with
      | some e => exact fun refs' h => nomatch h
      | none =>
          rintro refs' ⟨⟩
          exact happ

theorem all_memoryFiles (hsize : 0 < chunkSize.toInt) (files : List (Str × Bytes)) :
    (memoryFiles H onCommit chunkSize files).All (fun _ => True) ok
      fun res => ∀ es, res = .ok es → es = files.map (memoryEntry H chunkSize) := by
  induction files with
  | nil =>
      rintro es ⟨⟩
      rfl
  | cons file files ih =>
      obtain ⟨path, data⟩ := file
      refine (all_chunkStream_blocks collects_memoryChunk (by omega) _ rfl).bind fun res hres => ?_
      cases res with
      | error e => exact fun es h => nomatch h
      | ok refs =>
          refine ih.bind fun res hrest => ?_
          cases res with
          | error e => exact fun es h => nomatch h
          | ok entries =>
              rintro es ⟨⟩
              have hrefs := hres refs rfl
              rw [content_bytesReader] at hrefs
              rw [hrest entries rfl, hrefs]
              rfl

/-- The manifest of the files, in the order in which the loop comes to them. -/
def memoryManifest (H : Sha256) (chunkSize : Int64) (name version : Str)
    (files : List (Str × Bytes)) : ArtifactManifest :=
  ⟨currentSchema, [], name, version, effectiveChunkSize chunkSize, 0,
    files.map (memoryEntry H (effectiveChunkSize chunkSize))⟩

theorem all_publishFromMemory {name version : Str} (files : List (Str × Bytes)) :
    (publishFromMemory H J onCommit chunkSize name version files).All (fun _ => True) ok
      fun res => ∀ m, res = .ok m →
        m = finalize H J (memoryManifest H chunkSize name version files) ∧ Accepted H J m := by
  refine (all_memoryFiles (effectiveChunkSize_pos chunkSize) files).bind fun res hres => ?_
  cases res with
  | error e => exact fun m h => nomatch h
  | ok entries =>
      rw [hres entries rfl]
      refine all_saveManifest.bind fun saved hsaved => ?_
      cases saved with
      | some e => exact fun m h => nomatch h
      | none =>
          rintro m ⟨⟩
          exact ⟨rfl, hsaved rfl⟩

end Memory

/-- **Finalize.**  Where the result passes `Validate`, finalizing it again changes
nothing, and every order of the files gives the same manifest, however the sorts order
equal paths.  So for the files of a map there is one manifest that `PublishFromMemory`
can return, in whatever order it comes to them. -/
theorem finalize_canonical (H : Sha256) (J : Marshal) :
    (∀ m m', Finalizes H J m m' → validate H J m' = .ok () →
      (∀ m'', Finalizes H J m' m'' → m'' = m') ∧
        ∀ files, files.Perm m.files → ∀ m'', Finalizes H J { m with files := files } m'' →
          m'' = m') ∧
      ∀ (onCommit : OnCommit) (chunkSize : Int64) (name version : Str)
        (files : List (Str × Bytes)), ∃ m, ∀ files', files'.Perm files →
          (publishFromMemory H J onCommit chunkSize name version files').All (fun _ => True)
            (fun _ _ => True) fun res => ∀ m', res = .ok m' → m' = m := by
  constructor
  · intro m m' hm hvalid
    have ha := validate_eq_ok_iff.mp hvalid
    have hdist := hm.distinct ha
    obtain rfl := hm.eq_finalize hdist
    refine ⟨fun m'' hm'' => ?_, fun files hperm m'' hm'' => ?_⟩
    · have hdist' : ((prepare (finalize H J m)).files.map FileEntry.path).Nodup := by
        rw [prepare_finalize ha]
        exact ha.distinct
      rw [hm''.eq_finalize hdist', finalize_idem ha]
    · have hprep : (prepare { m with files := files }).files.Perm (prepare m).files :=
        hperm.map _
      rw [hm''.eq_finalize ((hprep.map _).nodup_iff.mpr hdist), finalize_perm hperm hdist]
  · intro onCommit chunkSize name version files
    refine ⟨finalize H J (memoryManifest H chunkSize name version files), ?_⟩
    intro files' hperm
    refine (all_publishFromMemory files').mono fun res hres m' hm' => ?_
    obtain ⟨hm', ha⟩ := hres m' hm'
    have hdist := (finalizes_finalize _).distinct (hm' ▸ ha)
    have hentries : (memoryManifest H chunkSize name version files).files.Perm
        (memoryManifest H chunkSize name version files').files := hperm.symm.map _
    rw [hm']
    exact (finalize_perm hentries hdist).symm

/-- Two empty files under paths that are not normalised, without the defaults. -/
def looseManifest (files : List FileEntry) : ArtifactManifest :=
  ⟨0, [], str "loose", str "1", 0, 0, files⟩

/-- Both orders of the two files, and a second `Finalize`. -/
theorem finalize_canonical_loose :
    validate (.numbering []) (fun _ => [])
        (finalize (.numbering []) (fun _ => [])
          (looseManifest [⟨str "./b", 0, [], []⟩, ⟨str "/x/../a", 0, [], []⟩])) = .ok () ∧
      finalize (.numbering []) (fun _ => [])
          (looseManifest [⟨str "/x/../a", 0, [], []⟩, ⟨str "./b", 0, [], []⟩]) =
        finalize (.numbering []) (fun _ => [])
          (looseManifest [⟨str "./b", 0, [], []⟩, ⟨str "/x/../a", 0, [], []⟩]) :=
  ⟨by decide +kernel,
    ((finalize_canonical (.numbering []) fun _ => []).1 _ _ (finalizes_finalize _)
      (by decide +kernel)).2 _ (.swap _ _ []) _ (finalizes_finalize _)⟩

end Spider

import Spider.Cache.Store
import Spider.Chunker
import Spider.Layout

/-!
# Spider.Engine.Publisher

Publishing a tree of files (`pkg/engine/publisher.go`), and `SaveManifest`
(`pkg/cache/cache.go`).

`publish_spec` says what a published manifest is: `Validate` accepts it, and
each file of the tree has an entry under its normalised path whose chunks are
the hashes and sizes of pieces that make up the file.  A reader that stops
early with an end of file, expected or not, is not noticed by `ChunkStream`; it
is `Validate`, called by `SaveManifest`, that compares the sizes.
-/

namespace Spider

open Conc Stream

/-! ## Programs -/

/-- `SaveManifest`. -/
def saveManifest (H : Sha256) (J : Marshal) (m : ArtifactManifest) : NodeM (Option Err) :=
  match validate H J m with
  | .error e => pure (some (.saveInvalid e))
  | .ok () =>
    match parseHash m.artifactID with
    | none => pure (some .invalidHashName)
    | some _ => do
        match ← onStore (.saveManifest m.artifactID) with
        | some msg => pure (some (.writeManifest msg))
        | none => pure none

theorem only_saveManifest {H : Sha256} {J : Marshal} {m : ArtifactManifest} {ok : Cmd → Prop}
    (hok : ∀ id, ok (.store (.saveManifest id))) : (saveManifest H J m).Only ok := by
  unfold saveManifest
  split
  · exact Prog.only_pure _
  · split
    · exact Prog.only_pure _
    · refine Prog.only_call (hok m.artifactID) fun r => ?_
      cases r <;> exact Prog.only_pure _

/-- The callback of `Publish`. -/
def publishChunk (H : Sha256) (onCommit : OnCommit) (ch : Chunk) (refs : List ChunkRef) :
    NodeM (Except Err (List ChunkRef)) := do
  if ← hasChunk ch.hash then pure (.ok (refs ++ [ch.ref]))
  else
    match ← putChunk H onCommit ch.hash ch.data with
    | some e => pure (.error (.cacheChunk ch.hash e))
    | none => pure (.ok (refs ++ [ch.ref]))

/-- The empty file case: the result of `PutChunk` is dropped. -/
def emptyFileRefs (H : Sha256) (onCommit : OnCommit) (size : Int64) (refs : List ChunkRef) :
    NodeM (List ChunkRef) :=
  if refs = [] ∧ size = 0 then do
    if ← hasChunk (computeHash H []) then pure [⟨computeHash H [], 0, 0⟩]
    else
      let _ ← putChunk H onCommit (computeHash H []) []
      pure [⟨computeHash H [], 0, 0⟩]
  else pure refs

/-- One file of `Publish`. -/
def publishFile (H : Sha256) (onCommit : OnCommit) (chunkSize : Int64) (info : FileInfo) :
    NodeM (Except Err FileEntry) := do
  match ← onJob .ctxErr with
  | some deadline => pure (.error (.ctx deadline))
  | none =>
    match ← onNet (.openSource info.path) with
    | .error msg => pure (.error (.openSource info.path msg))
    | .ok r =>
      match ← chunkStream H chunkSize.toInt.toNat (publishChunk H onCommit) r [] with
      | .error e => pure (.error (.chunkFile info.path e))
      | .ok refs => do
          let chunks ← emptyFileRefs H onCommit info.size refs
          let mode := if info.mode = [] then str "0644" else info.mode
          pure (.ok ⟨info.path, info.size, mode, chunks⟩)

/-- The file loop of `Publish`. -/
def publishFiles (H : Sha256) (onCommit : OnCommit) (chunkSize : Int64) :
    List FileInfo → NodeM (Except Err (List FileEntry))
  | [] => pure (.ok [])
  | info :: infos => do
      match ← publishFile H onCommit chunkSize info with
      | .error e => pure (.error e)
      | .ok entry =>
        match ← publishFiles H onCommit chunkSize infos with
        | .error e => pure (.error e)
        | .ok entries => pure (.ok (entry :: entries))

/-- `Publish`, by a publisher made with this chunk size. -/
def publish (H : Sha256) (J : Marshal) (onCommit : OnCommit) (chunkSize : Int64)
    (pre name version : Str) : NodeM (Except Err ArtifactManifest) := do
  match ← onNet (.listFiles pre) with
  | .error msg => pure (.error (.listFiles msg))
  | .ok infos =>
    if infos = [] then pure (.error (.noFiles pre))
    else
      match ← publishFiles H onCommit (effectiveChunkSize chunkSize) infos with
      | .error e => pure (.error e)
      | .ok files =>
        let m := finalize H J
          ⟨currentSchema, [], name, version, effectiveChunkSize chunkSize, 0, files⟩
        match ← saveManifest H J m with
        | some e => pure (.error (.saveManifest e))
        | none => pure (.ok m)

/-- The callback of `PublishFromMemory`. -/
def memoryChunk (H : Sha256) (onCommit : OnCommit) (ch : Chunk) (refs : List ChunkRef) :
    NodeM (Except Err (List ChunkRef)) := do
  if ← hasChunk ch.hash then pure (.ok (refs ++ [ch.ref]))
  else
    match ← putChunk H onCommit ch.hash ch.data with
    | some e => pure (.error e)
    | none => pure (.ok (refs ++ [ch.ref]))

/-- The stream of `bytes.NewReader`. -/
def bytesReader (data : Bytes) : Reader UInt8 Str :=
  ⟨if data = [] then [] else [data], .eof, false⟩

/-- The loop of `PublishFromMemory`; an empty file gets no chunk. -/
def memoryFiles (H : Sha256) (onCommit : OnCommit) (chunkSize : Int64) :
    List (Str × Bytes) → NodeM (Except Err (List FileEntry))
  | [] => pure (.ok [])
  | (path, data) :: files => do
      match ← chunkStream H chunkSize.toInt.toNat (memoryChunk H onCommit) (bytesReader data) [] with
      | .error e => pure (.error e)
      | .ok refs =>
        match ← memoryFiles H onCommit chunkSize files with
        | .error e => pure (.error e)
        | .ok entries => pure (.ok (⟨path, Int64.ofNat data.length, str "0644", refs⟩ :: entries))

/-- `PublishFromMemory`; `files` are the entries of the map, in the order in which
the loop comes to them. -/
def publishFromMemory (H : Sha256) (J : Marshal) (onCommit : OnCommit) (chunkSize : Int64)
    (name version : Str) (files : List (Str × Bytes)) : NodeM (Except Err ArtifactManifest) := do
  match ← memoryFiles H onCommit (effectiveChunkSize chunkSize) files with
  | .error e => pure (.error e)
  | .ok entries =>
    let m := finalize H J
      ⟨currentSchema, [], name, version, effectiveChunkSize chunkSize, 0, entries⟩
    match ← saveManifest H J m with
    | some e => pure (.error e)
    | none => pure (.ok m)

/-! ## Trees -/

/-- A file of a tree; its size is an `int64`. -/
structure SourceFile where
  path : Str
  mode : Str
  content : Bytes
  fits : content.length < 2 ^ 63

/-- How the source lists a file. -/
def SourceFile.info (f : SourceFile) : FileInfo :=
  ⟨f.path, Int64.ofNat f.content.length, f.mode⟩

/-- The answers of a source that holds a tree: it lists the tree, and a reader
delivers a file, or a part of it before some end. -/
def serves (tree : List SourceFile) : (c : Cmd) → c.Resp → Bool
  | .net (.listFiles _), .ok infos => decide (infos = tree.map SourceFile.info)
  | .net (.openSource p), .ok r =>
      tree.all fun f => decide (f.path = p → r.content <+: f.content)
  | _, _ => true

/-- A node that publishes from such a source. -/
abbrev publishSystem (tree : List SourceFile) : System nodeSig Node Tid :=
  nodeSystem.restrict (serves tree)

/-! ## What is published -/

/-- References to pieces. -/
def RefsTo (H : Sha256) (refs : List ChunkRef) (ds : List Bytes) : Prop :=
  List.Forall₂ (fun c d => c.hash = computeHash H d ∧ c.size = Int64.ofNat d.length) refs ds

/-- An entry for a file: pieces of it, from the beginning. -/
structure Describes (H : Sha256) (f : SourceFile) (e : FileEntry) : Prop where
  path : e.path = f.path
  size : e.size = Int64.ofNat f.content.length
  pieces : ∃ ds, RefsTo H e.chunks ds ∧ ds.flatten <+: f.content

section Spec

variable {H : Sha256} {J : Marshal} {onCommit : OnCommit} {tree : List SourceFile}
variable {ok : (c : Cmd) → c.Resp → Prop}
variable {refs : List ChunkRef} {chunkSize : Int64} {m : ArtifactManifest}

theorem RefsTo.append {done : List Bytes} (h : RefsTo H refs done) (offset : Int64) (data : Bytes) :
    RefsTo H (refs ++ [(chunkAt H offset data).ref]) (done ++ [data]) :=
  List.rel_append h (.cons ⟨rfl, rfl⟩ .nil)

theorem collects_publishChunk : Collects H (publishChunk H onCommit) (RefsTo H) (fun _ => True) ok := by
  intro refs done data _ hrefs
  have happ := hrefs.append (Int64.ofNat done.flatten.length) data
  refine (Prog.only_true _).all.bind fun present _ => ?_
  cases present with
  | true =>
      rintro refs' ⟨⟩
      exact happ
  | false =>
      refine (Prog.only_true _).all.bind fun res _ => ?_
      cases res with
      | some e => exact fun refs' h => nomatch h
      | none =>
          rintro refs' ⟨⟩
          exact happ

theorem all_emptyFileRefs {size : Int64} {ds : List Bytes} (h : RefsTo H refs ds) :
    (emptyFileRefs H onCommit size refs).All (fun _ => True) ok fun cs =>
      ∃ ds', RefsTo H cs ds' ∧ ds'.flatten = ds.flatten := by
  rw [emptyFileRefs]
  by_cases hempty : refs = [] ∧ size = 0
  · have hds : ds = [] := by
      rw [hempty.1] at h
      cases h
      rfl
    have hone : ∃ ds', RefsTo H [⟨computeHash H [], 0, 0⟩] ds' ∧ ds'.flatten = ds.flatten :=
      ⟨[[]], .cons ⟨rfl, rfl⟩ .nil, by simp [hds]⟩
    rw [if_pos hempty]
    refine (Prog.only_true _).all.bind fun present _ => ?_
    cases present with
    | true => exact hone
    | false => exact (Prog.only_true _).all.bind fun _ _ => hone
  · rw [if_neg hempty]
    exact ⟨ds, h, rfl⟩

theorem all_publishFile (hsize : 0 < chunkSize.toInt) {f : SourceFile} (hf : f ∈ tree) :
    (publishFile H onCommit chunkSize f.info).All (fun _ => True) (fun c r => serves tree c r = true)
      fun res => ∀ e, res = .ok e → Describes H f e := by
  refine Prog.all_call trivial fun deadline _ => ?_
  cases deadline with
  | some d => exact fun e h => nomatch h
  | none =>
      refine Prog.all_call trivial fun reader hserved => ?_
      cases reader with
      | error msg => exact fun e h => nomatch h
      | ok r =>
          have hpre : r.content <+: f.content := by
            have hall := List.all_eq_true.mp hserved f hf
            exact of_decide_eq_true hall rfl
          refine (all_chunkStream collects_publishChunk (by omega) r .nil).bind fun res hres => ?_
          cases res with
          | error e => exact fun e h => nomatch h
          | ok refs =>
              obtain ⟨ds, hds, -, hrefs⟩ := hres refs rfl
              refine (all_emptyFileRefs hrefs).bind fun cs hcs => ?_
              obtain ⟨ds', hrefs', hflat⟩ := hcs
              rintro e ⟨⟩
              exact ⟨rfl, rfl, ds', hrefs', by rwa [hflat, hds]⟩

theorem all_publishFiles (hsize : 0 < chunkSize.toInt) {files : List SourceFile}
    (hfiles : ∀ f ∈ files, f ∈ tree) :
    (publishFiles H onCommit chunkSize (files.map SourceFile.info)).All
      (fun _ => True) (fun c r => serves tree c r = true)
      fun res => ∀ es, res = .ok es → List.Forall₂ (Describes H) files es := by
  induction files with
  | nil =>
      rintro es ⟨⟩
      exact .nil
  | cons f files ih =>
      obtain ⟨hf, hrest⟩ := List.forall_mem_cons.mp hfiles
      refine (all_publishFile hsize hf).bind fun res hres => ?_
      cases res with
      | error e => exact fun es h => nomatch h
      | ok entry =>
          refine (ih hrest).bind fun res' hres' => ?_
          cases res' with
          | error e => exact fun es h => nomatch h
          | ok entries =>
              rintro es ⟨⟩
              exact .cons (hres entry rfl) (hres' entries rfl)

theorem all_saveManifest :
    (saveManifest H J m).All (fun _ => True) ok fun res => res = none → Accepted H J m := by
  rw [saveManifest]
  cases hv : validate H J m with
  | error e => exact fun h => nomatch h
  | ok u => exact (Prog.only_true _).all.mono fun _ _ _ => validate_eq_ok_iff.mp hv

/-- As long as no size wraps around, references to pieces are what `Validate` and
`Materialize` take them for. -/
theorem RefsTo.pieces {ds : List Bytes} (h : RefsTo H refs ds) (hbound : ds.flatten.length < 2 ^ 63) :
    Pieces H refs ds ∧ exactSum (refs.map ChunkRef.size) = ds.flatten.length := by
  induction h with
  | nil => exact ⟨.nil, rfl⟩
  | @cons c d cs ds hcd hrest ih =>
      rw [List.flatten_cons, List.length_append] at hbound
      have hint : c.size.toInt = d.length := by
        rw [hcd.2, Int64.toInt_ofNat_of_lt (by omega)]
      obtain ⟨htail, hsum⟩ := ih (by omega)
      refine ⟨.cons ⟨hcd.1.symm, hint.symm⟩ htail, ?_⟩
      rw [List.map_cons, exactSum_cons, hsum, hint, List.flatten_cons, List.length_append,
        Int.natCast_add]

/-- A described entry of an accepted file has the whole file: `Validate` has
compared the sizes. -/
theorem Describes.pieces_eq {f : SourceFile} {e e' : FileEntry} (h : Describes H f e)
    (hsize : e'.size = e.size) (hchunks : e'.chunks = e.chunks) (ha : FileAccepted e') :
    ∃ ds, Pieces H e'.chunks ds ∧ ds.flatten = f.content := by
  obtain ⟨ds, hrefs, hpre⟩ := h.pieces
  have hfits := f.fits
  have hlen : ds.flatten.length ≤ f.content.length := hpre.length_le
  obtain ⟨hpieces, hsum⟩ := (hchunks ▸ hrefs).pieces (by omega)
  have hlt : (0 : Int64).toInt + exactSum (e'.chunks.map ChunkRef.size) < 2 ^ 63 := by
    have hzero : (0 : Int64).toInt = 0 := rfl
    omega
  have htotal := @wrapSum_exact 0 _ (Int.le_refl 0) ha.map_size_nonneg hlt
  rw [ha.total, hsize, h.size, Int64.toInt_ofNat_of_lt hfits, hsum] at htotal
  have heq : ds.flatten.length = f.content.length := by
    have hzero : (0 : Int64).toInt = 0 := rfl
    omega
  exact ⟨ds, hpieces, hpre.eq_of_length heq⟩

/-- A manifest for a tree. -/
structure ManifestOf (H : Sha256) (J : Marshal) (tree : List SourceFile) (m : ArtifactManifest) :
    Prop where
  accepted : Accepted H J m
  clean : ∀ e ∈ m.files, clean e.path = e.path
  entries : ∀ f ∈ tree, ∃ e ∈ m.files, e.path = normalizePath f.path ∧
    ∃ ds, Pieces H e.chunks ds ∧ ds.flatten = f.content

theorem mem_files_finalize {e : FileEntry} :
    e ∈ (finalize H J m).files ↔ ∃ e0 ∈ m.files, e = { e0 with path := normalizePath e0.path } := by
  simp only [finalize, sortFiles, List.mem_insertionSort, List.mem_map]
  constructor
  all_goals
    rintro ⟨e0, he0, rfl⟩
    exact ⟨e0, he0, rfl⟩

theorem manifestOf_finalize (hentries : List.Forall₂ (Describes H) tree m.files)
    (ha : Accepted H J (finalize H J m)) : ManifestOf H J tree (finalize H J m) := by
  refine ⟨ha, fun e he => ?_, fun f hf => ?_⟩
  · have hpath := (ha.files e he).path
    obtain ⟨e0, -, rfl⟩ := mem_files_finalize.mp he
    exact clean_normalizePath hpath
  · obtain ⟨e0, he0, hdesc⟩ := exists_entry_of_mem hentries.flip hf
    have he : { e0 with path := normalizePath e0.path } ∈ (finalize H J m).files :=
      mem_files_finalize.mpr ⟨e0, he0, rfl⟩
    refine ⟨_, he, by rw [← hdesc.path], ?_⟩
    exact hdesc.pieces_eq rfl rfl (ha.files _ he)

/-- What `Publish` returns for a tree. -/
theorem publish_spec {pre name version : Str} {t : Tid} {s s' : Node}
    (h : Runs (publishSystem tree) t (publish H J onCommit chunkSize pre name version) s (.ok m) s') :
    ManifestOf H J tree m := by
  have hall : (publish H J onCommit chunkSize pre name version).All
      (fun _ => True) (fun c r => serves tree c r = true) fun res => ∀ m, res = .ok m → ManifestOf H J tree m := by
    refine Prog.all_call trivial fun infos hserved => ?_
    cases infos with
    | error msg => exact fun m h => nomatch h
    | ok infos =>
        have hinfos : infos = tree.map SourceFile.info := of_decide_eq_true hserved
        simp only [hinfos]
        split
        · exact fun m h => nomatch h
        · refine (all_publishFiles (effectiveChunkSize_pos chunkSize) fun f hf => hf).bind
            fun res hres => ?_
          cases res with
          | error e => exact fun m h => nomatch h
          | ok files =>
              refine all_saveManifest.bind fun saved hsaved => ?_
              cases saved with
              | some e => exact fun m h => nomatch h
              | none =>
                  rintro m ⟨⟩
                  exact manifestOf_finalize (hres files rfl) (hsaved rfl)
  refine hall.of_runs (fun c r s s' hx => ?_) h m rfl
  exact (System.restrict_eq_some hx).1

end Spec

end Spider

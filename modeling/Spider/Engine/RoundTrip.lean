import Spider.Engine.Publishing
import Spider.Placement

/-!
# Spider.Engine.RoundTrip

Publishing a tree and materializing its manifest from the same cache.

On a node on which nothing fails, `Materialize` of a published manifest into an
empty directory returns no error, and below the directory there are then the
files of the tree and no others: no path of the tree is a directory of another,
so each file finds its target free.
-/

namespace Spider

open Conc LexPath

/-! ## The node -/

section Tree

variable {H : Sha256} {J : Marshal} {opts : Options} {tree : List SourceFile} {t : Tid}
variable {s : Node} {destDir : Str}

theorem working_dest {c : DestCmd} {r : c.Resp} : working tree (.dest c) r = c.succeeds r := by
  cases c with
  | removeTarget p => cases r <;> rfl
  | _ => rfl

/-- Nothing fails on this node; a hard link may be made or not. -/
theorem places_working : Places (workingSystem tree) t fun _ => True where
  ask hc hp hx hk := returns_diskOk (fun _ _ => rfl) hc hp hx hk
  dest {_ _ s c _ r d'} hp hr hx hk := by
    have hgo : nodeSystem.exec t (.dest c) r s = some { s with dest := d' } := by
      simp [nodeSystem, nodeExec, hp, hx]
    refine returns_working (c := .dest c) (working_dest.trans hr) hgo fun r' s' hr' hexec => ?_
    obtain ⟨x, hdest, rfl⟩ := nodeExec_dest hexec
    have hsame : r' = r := DestCmd.succeeds_unique (working_dest.symm.trans hr') hr hdest hx
    subst hsame
    rw [hx, Option.some.injEq] at hdest
    rw [← hdest]
    exact hk
  ctxErr := returns_ctxErr
  ways := ⟨true, trivial⟩
  link {_ _ s h target _} hp hmade hfailed := by
    have hgo : nodeSystem.exec t (.link h target) (some []) s = some s := by
      simp [nodeSystem, nodeExec, hp, execLink]
    refine returns_working (c := .link h target) rfl hgo fun r s' _ hexec => ?_
    obtain ⟨d', hd', rfl⟩ := nodeExec_link hexec
    cases r with
    | none => exact hmade d' trivial hd'
    | some msg =>
        simp only [execLink, Option.some.injEq] at hd'
        rw [← hd']
        exact hfailed (.inl trivial) msg

/-! ## The files of the tree -/

/-- The chunks of an entry are in the cache, and are these pieces. -/
def Readable (H : Sha256) (refs : List ChunkRef) (ds : List Bytes) (s : Node) : Prop :=
  List.Forall₂ (fun c d => c.hash = computeHash H d ∧ c.size.toInt = (d.length : Int) ∧
    s.store.chunks.lookup (computeHash H d) = some d) refs ds

theorem Readable.correct {refs : List ChunkRef} {ds : List Bytes} (hread : Readable H refs ds s) :
    (∀ c ∈ refs, Correct H s.store c) ∧ (assemble H s.store refs).1 = ds.flatten := by
  induction hread with
  | nil => exact ⟨by simp, rfl⟩
  | @cons c d refs ds hc _ ih =>
      obtain ⟨hhash, hsize, hlook⟩ := hc
      rw [← hhash] at hlook
      refine ⟨List.forall_mem_cons.mpr ⟨⟨d, hlook, hhash.symm, hsize.symm⟩, ih.1⟩, ?_⟩
      rw [assemble_cons_correct hlook hhash.symm hsize.symm, ih.2, List.flatten_cons]

/-- In a sound cache, the committed chunks of a complete entry are the file's
pieces. -/
theorem Complete.readable {f : SourceFile} {e : FileEntry} (h : Complete H f e)
    (hcommitted : RefsCommitted e.chunks s) (hcontent : ContentAddressed H s.store)
    (hpins : ∀ b, b <:+: f.content → H.Pins b) :
    ∃ ds, Readable H e.chunks ds s ∧ ds.flatten = f.content := by
  obtain ⟨ds, hrefs, hflat⟩ := h.pieces
  have hpiece : ∀ d ∈ ds, d <:+: f.content := fun d hd => hflat ▸ List.infix_of_mem_flatten hd
  have hfits := f.fits
  refine ⟨ds, ?_, hflat⟩
  refine List.forall₂_iff_zip.mpr ⟨hrefs.length_eq, fun {c d} hmem => ?_⟩
  obtain ⟨hhash, hsize⟩ := (List.forall₂_iff_zip.mp hrefs).2 hmem
  have hd := hpiece d (List.of_mem_zip hmem).2
  have hlen := hd.length_le
  obtain ⟨b, hb⟩ := Option.isSome_iff_exists.mp (hcommitted c (List.of_mem_zip hmem).1)
  have hbd : b = d := (hpins d hd).eq_of_computeHash ((hcontent _ b hb).trans hhash)
  refine ⟨hhash, ?_, by rw [← hhash, hb, hbd]⟩
  rw [hsize, Int64.toInt_ofNat_of_lt (by omega)]

/-- The entries of a published manifest: each is complete, no path is the directory of
another, and every file has one. -/
theorem PublishedAs.entries_of {m : ArtifactManifest} (hm : PublishedAs H J tree m s)
    (htree : WellFormedTree tree) :
    (∀ e ∈ m.files, ∃ f ∈ tree, Complete H f e) ∧
      (∀ f ∈ tree, ∃ e ∈ m.files, Complete H f e) ∧
      m.files.Pairwise fun f e => Apart e f := by
  obtain ⟨files, hperm, hes⟩ := hm.entries
  have hof : ∀ e ∈ m.files, ∃ f ∈ tree, Complete H f e := by
    intro e he
    obtain ⟨f, hf, hc⟩ := exists_entry_of_mem hes he
    exact ⟨f, hperm.mem_iff.mp hf, hc⟩
  refine ⟨hof, fun f hf => exists_entry_of_mem (List.Forall₂.flip hes) (hperm.mem_iff.mpr hf), ?_⟩
  have hpaths : m.files.map FileEntry.path = files.map SourceFile.path := by
    clear hperm
    generalize m.files = entries at hes
    induction hes with
    | nil => rfl
    | cons hc _ ih => rw [List.map_cons, List.map_cons, hc.path, ih]
  have hnodup : (m.files.map FileEntry.path).Nodup := by
    rw [hpaths]
    exact (hperm.map _).nodup_iff.mpr htree.distinct
  have hdistinct : m.files.Pairwise fun e e' => e.path ≠ e'.path := List.pairwise_map.mp hnodup
  refine hdistinct.imp_of_mem fun {e e'} he he' hne => ?_
  obtain ⟨f, hf, hc⟩ := hof e he
  obtain ⟨f', hf', hc'⟩ := hof e' he'
  rw [hc.path, hc'.path] at hne
  rw [Apart, hc.path, hc'.path]
  exact ⟨fun hpre => hne (htree.separate f' hf' f hf hpre).symm,
    fun hpre => hne (htree.separate f hf f' hf' hpre)⟩

/-- A run of `Materialize` into an empty directory, when nothing fails: it returns
no error and places all files. -/
theorem returns_materialize {m : ArtifactManifest} (htree : WellFormedTree tree)
    (hbase : pathElems destDir ≠ []) (hempty : EmptyDir s.dest destDir)
    (hchunks : ∀ e ∈ m.files, ∀ c ∈ e.chunks, Correct H s.store c) (hs : Calm H s)
    (hm : PublishedAs H J tree m s) :
    Returns (workingSystem tree) t
      (fun r s' => r = none ∧ ∃ d1, EmptyDir d1 destDir ∧
        Stands destDir d1 (Made H s.store (fun _ => True) opts) m.files s'.dest)
      (materialize H J opts m destDir) s := by
  have hclear : ClearDir s.dest destDir :=
    ⟨fun p hp => by simp [Dest.isFile, hempty.there p hp], hempty.nothing⟩
  obtain ⟨d1, hmkdir, hempty1⟩ := hclear.mkdirAll
  have hnothing : Stands destDir d1 (Made H s.store (fun _ => True) opts) [] d1 :=
    ⟨by simp, by simp, fun _ _ => rfl⟩
  have hapart : ([] ++ m.files).Pairwise fun f e => Apart e f := (hm.entries_of htree).2.2
  simp only [materialize, validate_eq_ok_iff.mpr hm.accepted]
  refine places_working.dest hs.running rfl hmkdir ?_
  refine (places_working.materializeFiles (s := { s with dest := d1 }) hs.running hempty1 hbase
    hm.accepted.files hchunks hapart hnothing).mono fun r s' hr => ?_
  exact ⟨hr.1, d1, hempty1, hr.2⟩

end Tree

/-- Everything a published manifest is good for: `Validate` accepts it, its chunks
are in the cache, and `Materialize` into the directory returns no error and
leaves below it exactly the files of the tree. -/
structure RoundTrips (H : Sha256) (J : Marshal) (opts : Options) (destDir : Str)
    (tree : List SourceFile) (t : Tid) (m : ArtifactManifest) (s : Node) : Prop where
  valid : validate H J m = .ok ()
  committed : ∀ h ∈ allChunkHashes m, Committed h s
  restored : Returns (workingSystem tree) t
    (fun err s' => err = none ∧ ∀ p content, hasPrefix p (clean destDir ++ str "/") = true →
      (s'.dest.FileAt p content ↔
        ∃ f ∈ tree, p = clean destDir ++ slash :: f.path ∧ content = f.content))
    (materialize H J opts m destDir) s

theorem roundTrips_of_publishedAs {H : Sha256} {J : Marshal} {opts : Options} {destDir : Str}
    {tree : List SourceFile} {t : Tid} {m : ArtifactManifest} {s : Node}
    (htree : WellFormedTree tree) (hbase : pathElems destDir ≠ [])
    (hempty : EmptyDir s.dest destDir) (hpins : ∀ f ∈ tree, ∀ b, b <:+: f.content → H.Pins b)
    (hs : Calm H s) (hm : PublishedAs H J tree m s) : RoundTrips H J opts destDir tree t m s := by
  refine ⟨validate_eq_ok_iff.mpr hm.accepted, fun h hh => ?_, ?_⟩
  · obtain ⟨e, he, c, hc, rfl⟩ := mem_allChunkHashes.mp hh
    exact hm.committed e he c hc
  · obtain ⟨hof, hentry, -⟩ := hm.entries_of htree
    have hbytes : ∀ f ∈ tree, ∀ e ∈ m.files, Complete H f e →
        (∀ c ∈ e.chunks, Correct H s.store c) ∧ fileBytes H s.store e = f.content := by
      intro f hf e he hc
      obtain ⟨ds, hread, hflat⟩ := hc.readable (hm.committed e he) hs.content (hpins f hf)
      exact ⟨hread.correct.1, hread.correct.2.trans hflat⟩
    have hchunks : ∀ e ∈ m.files, ∀ c ∈ e.chunks, Correct H s.store c := by
      intro e he
      obtain ⟨f, hf, hc⟩ := hof e he
      exact (hbytes f hf e he hc).1
    have hpath : ∀ f ∈ tree, inDest destDir (pathElems f.path) = clean destDir ++ slash :: f.path := by
      intro f hf
      have haccepted := pathAccepted_of_valid (htree.valid f hf)
      have hclean : clean f.path = f.path := by
        have hvalid := htree.valid f hf
        rw [← htree.normalized f hf] at hvalid ⊢
        exact clean_normalizePath hvalid
      have hjoin := safeJoin_inDest hbase haccepted
      rw [safeJoin_of_accepted haccepted, if_neg hbase, hclean] at hjoin
      exact (Except.ok.inj hjoin).symm
    refine (returns_materialize htree hbase hempty hchunks hs hm).mono fun err s' hres => ?_
    obtain ⟨herr, d1, hempty1, hstands⟩ := hres
    refine ⟨herr, fun p content hpre => ?_⟩
    constructor
    · rintro ⟨perm, hfile⟩
      cases hstands.of_file hfile with
      | inl hnew =>
          obtain ⟨e, he, rfl, links, -, hmade⟩ := hnew
          obtain ⟨f, hf, hc⟩ := hof e he
          rw [placedFile, (hbytes f hf e he hc).2, Entry.file.injEq] at hmade
          exact ⟨f, hf, by rw [hc.path, hpath f hf], hmade.1⟩
      | inr hold =>
          have hmem : p ∈ d1.entries := by
            rw [← AList.lookup_isSome, hold]
            rfl
          rw [hempty1.nothing p (AList.mem_keys.mp hmem)] at hpre
          contradiction
    · rintro ⟨f, hf, rfl, rfl⟩
      obtain ⟨e, he, hc⟩ := hentry f hf
      obtain ⟨entry, hlook, links, -, rfl⟩ := hstands.files e he
      rw [hc.path, hpath f hf, placedFile, (hbytes f hf e he hc).2] at hlook
      exact ⟨_, hlook⟩

/-- **Round trip.**  On a node on which nothing fails, with a sound cache, `Publish`
of a non-empty well-formed tree succeeds, and so does `PublishFromMemory` of its
files in any order; and the manifest of either is valid, has its chunks in the
cache, and materializes into an empty directory as exactly the tree. -/
theorem publish_roundTrips (H : Sha256) (J : Marshal) (tree files : List SourceFile)
    (htree : WellFormedTree tree) (hne : tree ≠ []) (hfiles : files.Perm tree)
    (hpins : ∀ f ∈ tree, ∀ b, b <:+: f.content → H.Pins b) (t : Tid) (onCommit : OnCommit)
    (hhook : QuotaHook t onCommit) (chunkSize : Int64) (pre name version : Str)
    (hname : isBlank name = false) (hversion : isBlank version = false) (opts : Options)
    (destDir : Str) (s : Node) (hs : Calm H s) (habs : isAbs destDir = true)
    (hroot : clean destDir ≠ str "/") (hempty : EmptyDir s.dest destDir) :
    Returns (workingSystem tree) t
      (fun res s' => ∃ m, res = .ok m ∧ RoundTrips H J opts destDir tree t m s')
      (publish H J onCommit chunkSize pre name version) s ∧
    Returns (workingSystem tree) t
      (fun res s' => ∃ m, res = .ok m ∧ RoundTrips H J opts destDir tree t m s')
      (publishFromMemory H J onCommit chunkSize name version
        (files.map fun f => (f.path, f.content))) s := by
  have hbase : pathElems destDir ≠ [] := by
    intro hnil
    rw [clean_eq_render, habs, hnil] at hroot
    exact hroot rfl
  have hdone : ∀ (res : Except Err ArtifactManifest) s',
      (∃ m, res = .ok m ∧ PublishedAs H J tree m s' ∧ Grown H s s') →
      ∃ m, res = .ok m ∧ RoundTrips H J opts destDir tree t m s' := by
    rintro res s' ⟨m, hres, hm, hgrown⟩
    exact ⟨m, hres, roundTrips_of_publishedAs htree hbase (hgrown.dest ▸ hempty) hpins hgrown.calm hm⟩
  exact ⟨(returns_publish hhook htree hne hname hversion pre hs).mono hdone,
    (returns_publishFromMemory hhook htree hne hname hversion hfiles hs).mono hdone⟩

/-! ### A tree of two files -/

theorem quotaHook_touchOnCommit (t : Tid) : QuotaHook t touchOnCommit :=
  ⟨only_touchOnCommit fun q => ⟨q, rfl⟩, hookReturns_touchOnCommit _ t⟩

theorem threeBytes_fit : ([1, 2, 3] : Bytes).length < 2 ^ 63 := by decide

/-- A file in a directory and an empty one. -/
def plainTree : List SourceFile :=
  [⟨str "data/a.bin", [], [1, 2, 3], threeBytes_fit⟩, ⟨str "empty", [], [], nil_fits⟩]

def plainHash : Sha256 := .numbering [[], [1], [2], [3], [1, 2], [2, 3], [1, 2, 3]]

/-- A node with an empty cache and an empty directory `/srv`. -/
def freshNode : Node :=
  { emptyNode with dest := ⟨(∅ : AList fun _ : Str => Entry).insert (str "/srv") .dir, []⟩ }

theorem wellFormed_plainTree : WellFormedTree plainTree :=
  ⟨by decide, by decide, by decide, by decide⟩

theorem calm_freshNode (H : Sha256) : Calm H freshNode :=
  ⟨rfl, rfl, fun _ => rfl, contentAddressed_emptyNode H⟩

theorem emptyDir_freshNode : EmptyDir freshNode.dest (str "/srv") := ⟨by decide, by decide⟩

theorem pins_plainTree : ∀ f ∈ plainTree, ∀ b, b <:+: f.content → plainHash.Pins b := by
  intro f hf b hb
  refine Sha256.pins_numbering ?_ (by decide)
  simp only [plainTree, List.mem_cons, List.not_mem_nil, or_false] at hf
  rcases hf with rfl | rfl
  · simp only [List.infix_cons_iff, List.prefix_cons_iff, List.infix_nil, List.prefix_nil] at hb
    grind
  · simp [List.infix_nil.mp hb]

theorem publish_roundTrips_plainTree :
    Returns (workingSystem plainTree) 0
      (fun res s' => ∃ m, res = .ok m ∧
        RoundTrips plainHash (fun _ => []) defaultOptions (str "/srv") plainTree 0 m s')
      (publish plainHash (fun _ => []) touchOnCommit 2 [] (str "plain") (str "1")) freshNode ∧
    Returns (workingSystem plainTree) 0
      (fun res s' => ∃ m, res = .ok m ∧
        RoundTrips plainHash (fun _ => []) defaultOptions (str "/srv") plainTree 0 m s')
      (publishFromMemory plainHash (fun _ => []) touchOnCommit 2 (str "plain") (str "1")
        (plainTree.reverse.map fun f => (f.path, f.content))) freshNode :=
  publish_roundTrips plainHash (fun _ => []) plainTree plainTree.reverse wellFormed_plainTree
    (by decide) (List.reverse_perm _) pins_plainTree 0 touchOnCommit (quotaHook_touchOnCommit 0) 2 []
    (str "plain") (str "1") (by decide) (by decide) defaultOptions (str "/srv") freshNode
    (calm_freshNode _) (by decide) (by decide) emptyDir_freshNode

/-- The empty set of files is refused, by `Publish` and by `PublishFromMemory`. -/
theorem emptyTree_refused :
    WellFormedTree [] ∧ Calm plainHash freshNode ∧
    Runs (workingSystem []) 0
      (publish plainHash (fun _ => []) touchOnCommit 2 [] (str "plain") (str "1")) freshNode
      (.error (.noFiles [])) freshNode ∧
    Runs (workingSystem []) 0
      (publishFromMemory plainHash (fun _ => []) touchOnCommit 2 (str "plain") (str "1") []) freshNode
      (.error (.saveInvalid .noFiles)) freshNode := by
  refine ⟨⟨by simp, by simp, by simp, by simp⟩, calm_freshNode _, ?_, ?_⟩
  · exact ⟨.ok [], freshNode, rfl, rfl, rfl⟩
  · exact ⟨rfl, rfl⟩

end Spider

import Spider.Filepath
import Spider.Hash

/-!
# Spider.Manifest

Artifact manifests (`api/v1/manifest.go`): the records, path normalisation
and checking, the canonical artifact id, `Finalize` and `Validate`.

Sizes and offsets are Go's `int64`, so every sum below wraps around as the
code's does.  `json.Marshal` is a parameter `J : Marshal`; the canonical id is
the SHA-256 of what it writes.

`Validate` is characterised once by `Accepted` (`validate_eq_ok_iff`); later
modules use its fields and never unfold the checks.
-/

namespace Spider

/-! ## Records -/

/-- A slice of a file mapped to a content-addressed chunk. -/
structure ChunkRef where
  hash : Str
  offset : Int64
  size : Int64
  deriving DecidableEq

/-- A file of an artifact. -/
structure FileEntry where
  path : Str
  size : Int64
  mode : Str
  chunks : List ChunkRef
  deriving DecidableEq

/-- An immutable file collection. -/
structure ArtifactManifest where
  schemaVersion : Int64
  artifactID : Str
  name : Str
  version : Str
  chunkSize : Int64
  totalSize : Int64
  files : List FileEntry
  deriving DecidableEq

/-- `json.Marshal` on manifests. -/
abbrev Marshal := ArtifactManifest → Bytes

def defaultChunkSize : Int64 := 4 * 1024 * 1024

def currentSchema : Int64 := 1

/-- A running `int64` sum, which wraps around. -/
def wrapSum (acc : Int64) (sizes : List Int64) : Int64 := sizes.foldl (· + ·) acc

/-- Sums do not depend on the order. -/
theorem wrapSum_perm {acc : Int64} {l l' : List Int64} (h : l.Perm l') :
    wrapSum acc l = wrapSum acc l' := by
  have hcomm : RightCommutative (fun a b : Int64 => a + b) :=
    ⟨fun a b c => by rw [Int64.add_assoc, Int64.add_comm b c, ← Int64.add_assoc]⟩
  exact h.foldl_eq acc

/-! ## Paths -/

def normalizePath (p : Str) : Str :=
  trimPrefix (trimPrefix (clean p) (str "/")) (str "./")

def validManifestPath (p : Str) : Bool :=
  if p = [] ∨ hasPrefix p (str "/") then false
  else
    let cleaned := trimPrefix (clean p) (str "./")
    if cleaned = [] ∨ cleaned = str "." then false
    else if isAbs p ∨ isAbs cleaned then false
    else if cleaned = str ".." ∨ hasPrefix cleaned (str "../") then false
    else true

/-! ## Canonical id -/

/-- `sort.Slice` by path.  The order it gives equal paths is unspecified in
Go; here they keep their order. -/
def sortFiles (files : List FileEntry) : List FileEntry :=
  files.insertionSort (fun a b => a.path ≤ b.path)

/-- `ComputeID`: the id field is left out, the files are sorted. -/
def computeID (H : Sha256) (J : Marshal) (m : ArtifactManifest) : Str :=
  computeHash H (J { m with artifactID := [], files := sortFiles m.files })

/-- `Finalize`: defaults, normalised paths, total size, file order and id. -/
def finalize (H : Sha256) (J : Marshal) (m : ArtifactManifest) : ArtifactManifest :=
  let files := m.files.map fun f => { f with path := normalizePath f.path }
  let m' := { m with
    schemaVersion := if m.schemaVersion = 0 then currentSchema else m.schemaVersion
    chunkSize := if m.chunkSize = 0 then defaultChunkSize else m.chunkSize
    totalSize := wrapSum 0 (files.map FileEntry.size)
    files := sortFiles files }
  { m' with artifactID := computeID H J m' }

/-! ## Validate -/

/-- The errors of `Validate`, with the values their texts print. -/
inductive ValidateError where
  /-- unsupported schema version: %d -/
  | schemaVersion (v : Int64)
  /-- artifact name is required -/
  | nameRequired
  /-- artifact version is required -/
  | versionRequired
  /-- chunk size must be greater than zero -/
  | chunkSize
  /-- artifact must contain at least one file -/
  | noFiles
  /-- invalid file path at index %d: %q -/
  | filePath (i : Nat) (path : Str)
  /-- duplicate file path: %q -/
  | duplicatePath (path : Str)
  /-- invalid chunk hash in file %q chunk %d: %q -/
  | chunkHash (path : Str) (ci : Nat) (hash : Str)
  /-- invalid chunk size in file %q chunk %d: %d -/
  | chunkRefSize (path : Str) (ci : Nat) (size : Int64)
  /-- chunk offset mismatch in file %q chunk %d: expected %d, got %d -/
  | chunkOffset (path : Str) (ci : Nat) (expected got : Int64)
  /-- file size mismatch for %q: declared %d, chunks total %d -/
  | fileSize (path : Str) (declared chunks : Int64)
  /-- manifest totalSize mismatch: declared %d, calculated %d -/
  | totalSize (declared calculated : Int64)
  /-- artifactId mismatch: expected %q, got %q -/
  | artifactID (expected got : Str)
  deriving DecidableEq

/-- The check of one chunk hash: scheme and length only. -/
def validHashName (h : Str) : Bool := hasPrefix h scheme && h.length == 71

/-- The chunk loop of one file; `acc` is `fileChunkSize` so far. -/
def checkChunks (path : Str) : Nat → Int64 → List ChunkRef → Except ValidateError Int64
  | _, acc, [] => .ok acc
  | ci, acc, c :: cs =>
      if !validHashName c.hash then .error (.chunkHash path ci c.hash)
      else if c.size < 0 then .error (.chunkRefSize path ci c.size)
      else if c.offset ≠ acc then .error (.chunkOffset path ci acc c.offset)
      else checkChunks path (ci + 1) (acc + c.size) cs

/-- The checks of one file against the paths seen before it. -/
def checkFile (i : Nat) (seen : List Str) (f : FileEntry) : Except ValidateError Unit :=
  if !validManifestPath f.path then .error (.filePath i f.path)
  else if f.path ∈ seen then .error (.duplicatePath f.path)
  else match checkChunks f.path 0 0 f.chunks with
    | .error e => .error e
    | .ok total => if total ≠ f.size then .error (.fileSize f.path f.size total) else .ok ()

/-- The file loop; `total` is `calculatedTotal` so far. -/
def checkFiles : Nat → List Str → Int64 → List FileEntry → Except ValidateError Int64
  | _, _, total, [] => .ok total
  | i, seen, total, f :: fs =>
      match checkFile i seen f with
      | .error e => .error e
      | .ok () => checkFiles (i + 1) (f.path :: seen) (total + f.size) fs

/-- `Validate`. -/
def validate (H : Sha256) (J : Marshal) (m : ArtifactManifest) : Except ValidateError Unit :=
  if m.schemaVersion ≠ currentSchema then .error (.schemaVersion m.schemaVersion)
  else if isBlank m.name then .error .nameRequired
  else if isBlank m.version then .error .versionRequired
  else if m.chunkSize ≤ 0 then .error .chunkSize
  else if m.files = [] then .error .noFiles
  else match checkFiles 0 [] 0 m.files with
    | .error e => .error e
    | .ok total =>
        if total ≠ m.totalSize then .error (.totalSize m.totalSize total)
        else if m.artifactID ≠ computeID H J m then
          .error (.artifactID (computeID H J m) m.artifactID)
        else .ok ()

/-- `AllChunkHashes`: every chunk hash once, in order of first occurrence. -/
def allChunkHashes (m : ArtifactManifest) : List Str :=
  (m.files.flatMap fun f => f.chunks.map ChunkRef.hash).foldl
    (fun hashes h => if h ∈ hashes then hashes else hashes ++ [h]) []

/-- A member of the second list belongs to one of the first. -/
theorem exists_entry_of_mem {α β : Type} {R : α → β → Prop} {as : List α} {bs : List β}
    (h : List.Forall₂ R as bs) {b : β} (hb : b ∈ bs) : ∃ a ∈ as, R a b := by
  induction h with
  | nil => simp at hb
  | cons hab _ ih =>
      cases List.mem_cons.mp hb with
      | inl he => exact ⟨_, List.mem_cons_self, he ▸ hab⟩
      | inr hb =>
          obtain ⟨a, ha, hr⟩ := ih hb
          exact ⟨a, List.mem_cons_of_mem _ ha, hr⟩

/-- Pieces with the hashes and sizes of the chunks. -/
def Pieces (H : Sha256) (cs : List ChunkRef) (ps : List Bytes) : Prop :=
  List.Forall₂ (fun c p => computeHash H p = c.hash ∧ (p.length : Int) = c.size.toInt) cs ps

/-- Chunks whose hashes pin their content have the same pieces everywhere. -/
theorem Pieces.unique {H : Sha256} {cs : List ChunkRef} {ps qs : List Bytes}
    (hps : Pieces H cs ps) (hqs : Pieces H cs qs)
    (hpins : ∀ b, computeHash H b ∈ cs.map ChunkRef.hash → H.Pins b) : ps = qs := by
  induction hps generalizing qs with
  | nil =>
      cases hqs
      rfl
  | @cons c p cs ps hp _ ih =>
      cases hqs with
      | @cons _ q _ qs hq hrest =>
          have hpin : H.Pins p := hpins p (by simp [hp.1])
          have hpq : q = p := hpin.eq_of_computeHash (hq.1.trans hp.1.symm)
          have htail := ih hrest fun b hb => hpins b (List.mem_cons_of_mem _ hb)
          rw [hpq, htail]

/-! ## What Validate accepts -/

/-- The running sums of the chunk sizes, in wrapping arithmetic, are the
declared offsets. -/
def Tiled : Int64 → List ChunkRef → Prop
  | _, [] => True
  | acc, c :: cs => c.offset = acc ∧ Tiled (acc + c.size) cs

/-- What `Validate` has checked about one file. -/
structure FileAccepted (f : FileEntry) : Prop where
  path : validManifestPath f.path = true
  hashes : ∀ c ∈ f.chunks, validHashName c.hash = true
  sizes : ∀ c ∈ f.chunks, 0 ≤ c.size
  tiled : Tiled 0 f.chunks
  total : wrapSum 0 (f.chunks.map ChunkRef.size) = f.size

/-- What `Validate` has checked about a manifest it accepts. -/
structure Accepted (H : Sha256) (J : Marshal) (m : ArtifactManifest) : Prop where
  schema : m.schemaVersion = currentSchema
  name : isBlank m.name = false
  version : isBlank m.version = false
  chunkSize : 0 < m.chunkSize
  nonempty : m.files ≠ []
  files : ∀ f ∈ m.files, FileAccepted f
  distinct : (m.files.map FileEntry.path).Nodup
  total : wrapSum 0 (m.files.map FileEntry.size) = m.totalSize
  id : m.artifactID = computeID H J m

theorem checkChunks_eq_ok_iff {path : Str} {ci : Nat} {acc total : Int64} {cs : List ChunkRef} :
    checkChunks path ci acc cs = .ok total ↔
      (∀ c ∈ cs, validHashName c.hash = true) ∧ (∀ c ∈ cs, 0 ≤ c.size) ∧ Tiled acc cs ∧
        wrapSum acc (cs.map ChunkRef.size) = total := by
  induction cs generalizing ci acc with
  | nil => simp [checkChunks, Tiled, wrapSum]
  | cons c cs ih =>
      have hlt : ¬ c.size < 0 ↔ 0 ≤ c.size := Int64.not_lt
      by_cases hh : validHashName c.hash = true
      · by_cases hs : c.size < 0
        · have hs' : ¬ 0 ≤ c.size := fun h => (hlt.mpr h) hs
          simp [checkChunks, hh, hs, hs']
        · by_cases ho : c.offset = acc
          · simp [checkChunks, hh, hs, ho, ih, Tiled, wrapSum, hlt.mp hs]
          · simp [checkChunks, hh, hs, ho, Tiled]
      · simp [checkChunks, hh]

theorem checkFile_eq_ok_iff {i : Nat} {seen : List Str} {f : FileEntry} :
    checkFile i seen f = .ok () ↔ FileAccepted f ∧ f.path ∉ seen := by
  unfold checkFile
  constructor
  · intro h
    by_cases hp : validManifestPath f.path = true
    · by_cases hseen : f.path ∈ seen
      · simp [hp, hseen] at h
      · simp only [hp, Bool.not_true, Bool.false_eq_true, if_false, hseen] at h
        cases hc : checkChunks f.path 0 0 f.chunks with
        | error e => simp [hc] at h
        | ok total =>
            obtain ⟨hh, hs, ht, hsum⟩ := checkChunks_eq_ok_iff.mp hc
            have hfs : total = f.size := by
              by_contra hne
              simp [hc, hne] at h
            exact ⟨⟨hp, hh, hs, ht, hsum.trans hfs⟩, hseen⟩
    · simp [hp] at h
  · intro ⟨hf, hseen⟩
    have hc : checkChunks f.path 0 0 f.chunks = .ok f.size :=
      checkChunks_eq_ok_iff.mpr ⟨hf.hashes, hf.sizes, hf.tiled, hf.total⟩
    simp [hf.path, hseen, hc]

theorem checkFiles_eq_ok_iff {i : Nat} {seen : List Str} {acc total : Int64}
    {fs : List FileEntry} :
    checkFiles i seen acc fs = .ok total ↔
      (∀ f ∈ fs, FileAccepted f) ∧ (fs.map FileEntry.path).Nodup ∧
        (∀ f ∈ fs, f.path ∉ seen) ∧ wrapSum acc (fs.map FileEntry.size) = total := by
  induction fs generalizing i seen acc with
  | nil => simp [checkFiles, wrapSum]
  | cons f fs ih =>
      rw [checkFiles]
      cases hf : checkFile i seen f with
      | error e =>
          have hno : ¬ (FileAccepted f ∧ f.path ∉ seen) := by
            intro hok
            rw [checkFile_eq_ok_iff.mpr hok] at hf
            contradiction
          simp only [List.mem_cons, forall_eq_or_imp]
          constructor
          · intro h
            contradiction
          · rintro ⟨⟨ha, -⟩, -, ⟨hs, -⟩, -⟩
            exact absurd ⟨ha, hs⟩ hno
      | ok u =>
          obtain ⟨ha, hseen⟩ := checkFile_eq_ok_iff.mp hf
          simp only [ih, List.mem_cons, forall_eq_or_imp, List.map_cons, List.nodup_cons,
            not_or, wrapSum, List.foldl_cons]
          constructor
          · intro ⟨hall, hnd, hfresh, hsum⟩
            have hnot : f.path ∉ fs.map FileEntry.path := by
              intro hmem
              obtain ⟨g, hg, hgp⟩ := List.mem_map.mp hmem
              exact (hfresh g hg).1 hgp
            exact ⟨⟨ha, hall⟩, ⟨hnot, hnd⟩, ⟨hseen, fun g hg => (hfresh g hg).2⟩, hsum⟩
          · rintro ⟨⟨-, hall⟩, ⟨hnot, hnd⟩, ⟨-, hfresh⟩, hsum⟩
            refine ⟨hall, hnd, fun g hg => ⟨fun hgp => hnot ?_, hfresh g hg⟩, hsum⟩
            exact List.mem_map.mpr ⟨g, hg, hgp⟩

/-- `Validate` returns no error exactly on the manifests it has checked. -/
theorem validate_eq_ok_iff {H : Sha256} {J : Marshal} {m : ArtifactManifest} :
    validate H J m = .ok () ↔ Accepted H J m := by
  unfold validate
  constructor
  · intro h
    by_cases hsv : m.schemaVersion = currentSchema
    · by_cases hn : isBlank m.name = true
      · simp [hsv, hn] at h
      · by_cases hv : isBlank m.version = true
        · simp [hsv, hn, hv] at h
        · by_cases hcs : m.chunkSize ≤ 0
          · simp [hsv, hn, hv, hcs] at h
          · by_cases hfs : m.files = []
            · simp [hsv, hn, hv, hcs, hfs] at h
            · simp only [hsv, hn, hv, hcs, hfs, ne_eq, not_true_eq_false, if_false,
                Bool.false_eq_true] at h
              cases hc : checkFiles 0 [] 0 m.files with
              | error e => simp [hc] at h
              | ok total =>
                  obtain ⟨hall, hnd, -, hsum⟩ := checkFiles_eq_ok_iff.mp hc
                  have ht : total = m.totalSize := by
                    by_contra hne
                    simp [hc, hne] at h
                  have hid : m.artifactID = computeID H J m := by
                    by_contra hne
                    simp [hc, ht, hne] at h
                  exact ⟨hsv, by simpa using hn, by simpa using hv, Int64.not_le.mp hcs, hfs,
                    hall, hnd, hsum.trans ht, hid⟩
    · simp [hsv] at h
  · intro h
    have hc : checkFiles 0 [] 0 m.files = .ok m.totalSize :=
      checkFiles_eq_ok_iff.mpr ⟨h.files, h.distinct, by simp, h.total⟩
    simp [h.schema, h.name, h.version, Int64.not_le.mpr h.chunkSize, h.nonempty, hc, ← h.id]

/-! ## The hashes of a manifest -/

/-- The step of `AllChunkHashes`. -/
theorem nodup_foldl_fresh {hs acc : List Str} (h : acc.Nodup) :
    (hs.foldl (fun hashes h => if h ∈ hashes then hashes else hashes ++ [h]) acc).Nodup := by
  induction hs generalizing acc with
  | nil => exact h
  | cons x hs ih =>
      rw [List.foldl_cons]
      by_cases hx : x ∈ acc
      · rw [if_pos hx]
        exact ih h
      · rw [if_neg hx]
        exact ih (List.nodup_append.mpr ⟨h, List.nodup_singleton x, by
          intro a ha b hb hab
          rw [List.mem_singleton.mp hb] at hab
          exact hx (hab ▸ ha)⟩)

theorem mem_foldl_fresh {hs acc : List Str} {x : Str} :
    x ∈ hs.foldl (fun hashes h => if h ∈ hashes then hashes else hashes ++ [h]) acc ↔
      x ∈ acc ∨ x ∈ hs := by
  induction hs generalizing acc with
  | nil => simp
  | cons y hs ih =>
      rw [List.foldl_cons, ih, List.mem_cons]
      by_cases hy : y ∈ acc
      · rw [if_pos hy]
        constructor
        · intro h
          cases h with
          | inl h => exact .inl h
          | inr h => exact .inr (.inr h)
        · rintro (h | rfl | h)
          · exact .inl h
          · exact .inl hy
          · exact .inr h
      · rw [if_neg hy, List.mem_append, List.mem_singleton, or_assoc]

theorem nodup_allChunkHashes (m : ArtifactManifest) : (allChunkHashes m).Nodup :=
  nodup_foldl_fresh List.nodup_nil

theorem mem_allChunkHashes {m : ArtifactManifest} {h : Str} :
    h ∈ allChunkHashes m ↔ ∃ f ∈ m.files, ∃ c ∈ f.chunks, c.hash = h := by
  rw [allChunkHashes, mem_foldl_fresh]
  simp

end Spider

import Spider.Lib.Utf8
import Spider.Manifest

/-!
# Spider.Json

Manifests as `encoding/json` sees them (`api/v1/manifest.go`): the slices of a
manifest may be `nil`, which is encoded as `null` and not as `[]`, and strings
are coerced to UTF-8.

`ComputeID` hashes the encoding of a clone with sorted files, so the checks of
`Spider.Manifest` apply to such a value with one difference: the id is that of
its own encoding (`ManifestValue.validate`).  Where the encoder is injective and
the digests do not collide, the id says everything but the order of the files
(`artifactID_identifies`).
-/

namespace Spider

/-! ## Values -/

/-- A slice: `nil`, or its elements. -/
abbrev Slice (α : Type) := Option (List α)

def Slice.elems {α : Type} (s : Slice α) : List α := s.getD []

/-- `append([]T(nil), l...)`. -/
def Slice.clone {α : Type} (l : List α) : Slice α :=
  match l with
  | [] => none
  | a :: l => some (a :: l)

theorem Slice.elems_clone {α : Type} (l : List α) : (Slice.clone l).elems = l := by
  cases l <;> rfl

/-- `FileEntry` with its slice. -/
structure FileValue where
  path : Str
  size : Int64
  mode : Str
  chunks : Slice ChunkRef
  deriving DecidableEq

/-- `ArtifactManifest` with its slice. -/
structure ManifestValue where
  schemaVersion : Int64
  artifactID : Str
  name : Str
  version : Str
  chunkSize : Int64
  totalSize : Int64
  files : Slice FileValue
  deriving DecidableEq

def FileValue.entry (f : FileValue) : FileEntry := ⟨f.path, f.size, f.mode, f.chunks.elems⟩

/-- The manifest, as far as it does not matter which slices are `nil`. -/
def ManifestValue.manifest (m : ManifestValue) : ArtifactManifest :=
  ⟨m.schemaVersion, m.artifactID, m.name, m.version, m.chunkSize, m.totalSize,
    m.files.elems.map FileValue.entry⟩

/-! ## Canonical id -/

/-- `sort.Slice` by path, as in `sortFiles`. -/
def sortValues (files : List FileValue) : List FileValue :=
  files.insertionSort (fun a b => a.path ≤ b.path)

/-- The clone that `ComputeID` encodes. -/
def ManifestValue.canonical (m : ManifestValue) : ManifestValue :=
  { m with artifactID := [], files := Slice.clone (sortValues m.files.elems) }

def ManifestValue.computeID (H : Sha256) (J : ManifestValue → Bytes) (m : ManifestValue) : Str :=
  computeHash H (J m.canonical)

/-- `Validate`.  The checks use the encoder on one value only, the clone that
`ComputeID` makes, so they are those of `Spider.validate` with what the encoder
writes for this clone. -/
def ManifestValue.validate (H : Sha256) (J : ManifestValue → Bytes) (m : ManifestValue) :
    Except ValidateError Unit :=
  Spider.validate H (fun _ => J m.canonical) m.manifest

variable {J : ManifestValue → Bytes} {m : ManifestValue}

/-- The id of an accepted manifest is the computed one. -/
theorem artifactID_of_validate {H : Sha256} (h : m.validate H J = .ok ()) :
    m.artifactID = m.computeID H J :=
  (validate_eq_ok_iff.mp h).id

/-- The paths of an accepted manifest are distinct. -/
theorem nodup_paths_of_validate {H : Sha256} (h : m.validate H J = .ok ()) :
    (m.files.elems.map FileValue.path).Nodup := by
  have hd := (validate_eq_ok_iff.mp h).distinct
  rwa [ManifestValue.manifest, List.map_map] at hd

/-! ## Sorted files -/

theorem sortValues_perm (files : List FileValue) : (sortValues files).Perm files :=
  List.perm_insertionSort _ files

/-- Files with distinct paths have one sorted order. -/
theorem sortValues_eq_of_perm {l l' : List FileValue} (hd : (l.map FileValue.path).Nodup)
    (h : l'.Perm l) : sortValues l' = sortValues l := by
  have hperm : (sortValues l').Perm (sortValues l) :=
    (sortValues_perm l').trans (h.trans (sortValues_perm l).symm)
  refine List.Perm.eq_of_pairwise ?_ (List.pairwise_insertionSort _ l')
    (List.pairwise_insertionSort _ l) hperm
  intro a b ha hb hab hba
  have ha' : a ∈ l := h.mem_iff.mp ((sortValues_perm l').mem_iff.mp ha)
  have hb' : b ∈ l := (sortValues_perm l).mem_iff.mp hb
  exact List.inj_on_of_nodup_map hd ha' hb' (List.le_antisymm hab hba)

/-- `Validate` does not look at the order of files with distinct paths. -/
theorem validate_of_perm {H : Sha256} {files : Slice FileValue}
    (hd : (m.files.elems.map FileValue.path).Nodup) (h : files.elems.Perm m.files.elems)
    (hv : m.validate H J = .ok ()) : { m with files := files }.validate H J = .ok () := by
  have hacc := validate_eq_ok_iff.mp hv
  have hentries : (files.elems.map FileValue.entry).Perm m.manifest.files := h.map FileValue.entry
  have hcanonical : { m with files := files }.canonical = m.canonical := by
    simp only [ManifestValue.canonical, sortValues_eq_of_perm hd h]
  refine validate_eq_ok_iff.mpr ⟨hacc.schema, hacc.name, hacc.version, hacc.chunkSize, ?_, ?_, ?_, ?_, ?_⟩
  · intro hnil
    have hnone : m.manifest.files = [] := List.Perm.nil_eq (hnil ▸ hentries) |>.symm
    exact hacc.nonempty hnone
  · intro f hf
    exact hacc.files f (hentries.mem_iff.mp hf)
  · exact (hentries.map FileEntry.path).nodup_iff.mpr hacc.distinct
  · exact (wrapSum_perm (hentries.map FileEntry.size)).trans hacc.total
  · rw [hcanonical]
    exact hacc.id

/-! ## Text -/

def FileValue.ValidText (f : FileValue) : Prop :=
  Utf8.valid f.path = true ∧ Utf8.valid f.mode = true ∧
    ∀ c ∈ f.chunks.elems, Utf8.valid c.hash = true

instance (f : FileValue) : Decidable f.ValidText :=
  inferInstanceAs (Decidable (_ ∧ _ ∧ _))

/-- All strings of a manifest are valid UTF-8. -/
structure ManifestValue.ValidText (m : ManifestValue) : Prop where
  artifactID : Utf8.valid m.artifactID = true
  name : Utf8.valid m.name = true
  version : Utf8.valid m.version = true
  files : ∀ f ∈ m.files.elems, f.ValidText

theorem validText_iff :
    m.ValidText ↔ Utf8.valid m.artifactID = true ∧ Utf8.valid m.name = true ∧
      Utf8.valid m.version = true ∧ ∀ f ∈ m.files.elems, f.ValidText :=
  ⟨fun h => ⟨h.artifactID, h.name, h.version, h.files⟩,
    fun ⟨hid, hname, hversion, hfiles⟩ => ⟨hid, hname, hversion, hfiles⟩⟩

instance (m : ManifestValue) : Decidable m.ValidText := decidable_of_iff' _ validText_iff

def ChunkRef.toValid (c : ChunkRef) : ChunkRef := { c with hash := Utf8.toValid c.hash }

def FileValue.toValid (f : FileValue) : FileValue :=
  { f with
    path := Utf8.toValid f.path
    mode := Utf8.toValid f.mode
    chunks := f.chunks.map (List.map ChunkRef.toValid) }

/-- The manifest with all its strings coerced to UTF-8. -/
def ManifestValue.toValid (m : ManifestValue) : ManifestValue :=
  { m with
    artifactID := Utf8.toValid m.artifactID
    name := Utf8.toValid m.name
    version := Utf8.toValid m.version
    files := m.files.map (List.map FileValue.toValid) }

theorem Slice.map_eq_self_iff {α : Type} {f : α → α} {s : Slice α} :
    s.map (List.map f) = s ↔ ∀ a ∈ s.elems, f a = a := by
  cases s with
  | none => simp [Slice.elems]
  | some l =>
      have hmap := List.map_inj_left (f := f) (g := id) (l := l)
      simpa [Slice.elems] using hmap

theorem FileValue.toValid_eq_self_iff {f : FileValue} : f.toValid = f ↔ f.ValidText := by
  have hchunk (c : ChunkRef) : c.toValid = c ↔ Utf8.valid c.hash = true := by
    cases c
    simp [ChunkRef.toValid, Utf8.toValid_eq_self_iff]
  cases f
  simp [FileValue.toValid, FileValue.ValidText, Utf8.toValid_eq_self_iff, Slice.map_eq_self_iff,
    hchunk]

/-- Coercion changes a manifest unless its strings are valid. -/
theorem ManifestValue.toValid_eq_self_iff : m.toValid = m ↔ m.ValidText := by
  rw [validText_iff]
  cases m
  simp [ManifestValue.toValid, Utf8.toValid_eq_self_iff, Slice.map_eq_self_iff,
    FileValue.toValid_eq_self_iff]

theorem ManifestValue.ValidText.canonical (h : m.ValidText) :
    m.canonical.ValidText where
  artifactID := rfl
  name := h.name
  version := h.version
  files f hf := by
    rw [ManifestValue.canonical, Slice.elems_clone] at hf
    exact h.files f ((sortValues_perm _).mem_iff.mp hf)

/-! ## What an id says -/

/-- The same manifest up to the order of its files; the id is left out. -/
structure SameUpToOrder (m m' : ManifestValue) : Prop where
  schemaVersion : m.schemaVersion = m'.schemaVersion
  name : m.name = m'.name
  version : m.version = m'.version
  chunkSize : m.chunkSize = m'.chunkSize
  totalSize : m.totalSize = m'.totalSize
  files : m.files.elems.Perm m'.files.elems

/-- One clone for two manifests: they differ in the order of their files only. -/
theorem canonical_eq_iff {m' : ManifestValue} (hd : (m'.files.elems.map FileValue.path).Nodup) :
    m.canonical = m'.canonical ↔ SameUpToOrder m m' := by
  constructor
  · intro h
    simp only [ManifestValue.canonical, ManifestValue.mk.injEq] at h
    obtain ⟨hschema, -, hname, hversion, hchunk, htotal, hfiles⟩ := h
    have hsorted : sortValues m.files.elems = sortValues m'.files.elems := by
      have helems := congrArg Slice.elems hfiles
      rwa [Slice.elems_clone, Slice.elems_clone] at helems
    have hperm : (sortValues m.files.elems).Perm m'.files.elems :=
      hsorted ▸ sortValues_perm m'.files.elems
    exact ⟨hschema, hname, hversion, hchunk, htotal, (sortValues_perm _).symm.trans hperm⟩
  · intro h
    simp only [ManifestValue.canonical, h.schemaVersion, h.name, h.version, h.chunkSize,
      h.totalSize, sortValues_eq_of_perm hd h.files]

/-- With an encoder that is injective on valid text and a digest that does not
collide on the two encodings at hand, two accepted manifests have the same id
exactly if they are the same up to the order of their files; and an order of
files with distinct paths is accepted exactly if any other is. -/
theorem artifactID_identifies (H : Sha256) (J : ManifestValue → Bytes)
    (hjson : ∀ m m' : ManifestValue, m.ValidText → m'.ValidText → J m = J m' → m = m') :
    (∀ m m' : ManifestValue, m.ValidText → m'.ValidText →
      Set.InjOn H.sum {J m.canonical, J m'.canonical} →
      m.validate H J = .ok () → m'.validate H J = .ok () →
      (m.artifactID = m'.artifactID ↔ SameUpToOrder m m')) ∧
    ∀ (m : ManifestValue) (files : Slice FileValue), (m.files.elems.map FileValue.path).Nodup →
      files.elems.Perm m.files.elems →
      ({ m with files := files }.validate H J = .ok () ↔ m.validate H J = .ok ()) := by
  constructor
  · intro m m' ht ht' hsha hv hv'
    rw [artifactID_of_validate hv, artifactID_of_validate hv',
      ← canonical_eq_iff (nodup_paths_of_validate hv')]
    constructor
    · intro hid
      have hsum : H.sum (J m.canonical) = H.sum (J m'.canonical) := sum_eq_of_computeHash hid
      have hbytes : J m.canonical = J m'.canonical := hsha (by simp) (by simp) hsum
      exact hjson _ _ ht.canonical ht'.canonical hbytes
    · intro hc
      rw [ManifestValue.computeID, hc, ManifestValue.computeID]
  · intro m files hd hperm
    constructor
    · intro hv
      have hd' : (files.elems.map FileValue.path).Nodup :=
        (hperm.map FileValue.path).nodup_iff.mpr hd
      exact validate_of_perm (m := { m with files := files }) hd' hperm.symm hv
    · exact validate_of_perm hd hperm

/-! ## encoding/json -/

/-- `encoding/json` on manifests as documented: strings are coerced to UTF-8,
`nil` slices stay `nil`, and otherwise decoding inverts encoding. -/
structure Json where
  marshal : ManifestValue → Bytes
  marshalIndent : ManifestValue → Bytes
  unmarshal : Bytes → Except Str ManifestValue
  unmarshal_marshal : ∀ m, unmarshal (marshal m) = .ok m.toValid
  unmarshal_marshalIndent : ∀ m, unmarshal (marshalIndent m) = .ok m.toValid

theorem Json.marshal_injOn (J : Json) (m m' : ManifestValue) (h : m.ValidText)
    (h' : m'.ValidText) (heq : J.marshal m = J.marshal m') : m = m' := by
  have hdec := J.unmarshal_marshal m
  rw [heq, J.unmarshal_marshal m', Except.ok.injEq, ManifestValue.toValid_eq_self_iff.mpr h,
    ManifestValue.toValid_eq_self_iff.mpr h'] at hdec
  exact hdec.symm

/-- A numbering of the values. -/
@[reducible]
def ManifestValue.encodable : Encodable ManifestValue :=
  letI : Encodable UInt8 := .ofLeftInverse UInt8.toNat UInt8.ofNat fun _ => by simp
  letI : Encodable Int64 := .ofLeftInverse Int64.toInt Int64.ofInt fun _ => by simp
  letI : Encodable ChunkRef :=
    .ofLeftInverse (fun c => (c.hash, c.offset, c.size)) (fun p => ⟨p.1, p.2.1, p.2.2⟩) fun _ => rfl
  letI : Encodable FileValue :=
    .ofLeftInverse (fun f => (f.path, f.size, f.mode, f.chunks))
      (fun p => ⟨p.1, p.2.1, p.2.2.1, p.2.2.2⟩) fun _ => rfl
  .ofLeftInverse
    (fun m => (m.schemaVersion, m.artifactID, m.name, m.version, m.chunkSize, m.totalSize, m.files))
    (fun p => ⟨p.1, p.2.1, p.2.2.1, p.2.2.2.1, p.2.2.2.2.1, p.2.2.2.2.2.1, p.2.2.2.2.2.2⟩) fun _ => rfl

/-- An encoder that writes the number of a manifest in unary. -/
def Json.unary : Json where
  marshal m := List.replicate (ManifestValue.encodable.encode m.toValid) 0
  marshalIndent m := List.replicate (ManifestValue.encodable.encode m.toValid) 0
  unmarshal b :=
    match ManifestValue.encodable.decode b.length with
    | some m => .ok m
    | none => .error (str "invalid character")
  unmarshal_marshal m := by simp [ManifestValue.encodable.encodek]
  unmarshal_marshalIndent m := by simp [ManifestValue.encodable.encodek]

/-- A manifest that lists two empty files. -/
def twoFilesValue (H : Sha256) (J : ManifestValue → Bytes) (p q : Str) : ManifestValue :=
  let m : ManifestValue :=
    { schemaVersion := 1, artifactID := [], name := str "m", version := str "1"
      chunkSize := 1, totalSize := 0, files := some [⟨p, 0, [], none⟩, ⟨q, 0, [], some []⟩] }
  { m with artifactID := m.computeID H J }

theorem validate_twoFilesValue (H : Sha256) (J : ManifestValue → Bytes) {p q : Str}
    (hp : validManifestPath p = true) (hq : validManifestPath q = true) (hne : p ≠ q) :
    (twoFilesValue H J p q).validate H J = .ok () := by
  have hempty {r : Str} (hr : validManifestPath r = true) : FileAccepted ⟨r, 0, [], []⟩ :=
    ⟨hr, by simp, by simp, trivial, rfl⟩
  refine validate_eq_ok_iff.mpr ⟨rfl, rfl, rfl, ?_, ?_, ?_, ?_, rfl, rfl⟩
  · show (0 : Int64) < 1
    decide
  · exact List.cons_ne_nil _ _
  · intro f hf
    have hcases : f = ⟨p, 0, [], []⟩ ∨ f = ⟨q, 0, [], []⟩ := by
      simpa [twoFilesValue, ManifestValue.manifest, Slice.elems, FileValue.entry] using hf
    cases hcases with
    | inl he => exact he ▸ hempty hp
    | inr he => exact he ▸ hempty hq
  · simpa [twoFilesValue, ManifestValue.manifest, Slice.elems, FileValue.entry] using hne

/-- The files `a` and `b`, in both orders under one id. -/
def orderedValue : ManifestValue :=
  twoFilesValue (.numbering []) Json.unary.marshal (str "a") (str "b")

def swappedValue : ManifestValue :=
  { orderedValue with files := some [⟨str "b", 0, [], some []⟩, ⟨str "a", 0, [], none⟩] }

theorem artifactID_identifies_swapped :
    orderedValue.validate (.numbering []) Json.unary.marshal = .ok () ∧
      swappedValue.validate (.numbering []) Json.unary.marshal = .ok () ∧
      SameUpToOrder orderedValue swappedValue := by
  have hordered : orderedValue.validate (.numbering []) Json.unary.marshal = .ok () :=
    validate_twoFilesValue _ _ (by decide) (by decide) (by decide)
  have htext : orderedValue.ValidText := by decide +kernel
  have htext' : swappedValue.ValidText := by decide +kernel
  have hcanonical : orderedValue.canonical = swappedValue.canonical := by decide
  obtain ⟨hid, horder⟩ :=
    artifactID_identifies (.numbering []) Json.unary.marshal Json.unary.marshal_injOn
  have hswapped : swappedValue.validate (.numbering []) Json.unary.marshal = .ok () :=
    (horder orderedValue _ (by decide) (by decide)).mpr hordered
  refine ⟨hordered, hswapped, (hid _ _ htext htext' ?_ hordered hswapped).mp rfl⟩
  rw [hcanonical]
  simp

end Spider

import Spider.Cache.Names
import Spider.Json

/-!
# Spider.Cache.Manifests

The manifest files of a `ChunkStore` (`pkg/cache/cache.go`): `SaveManifest`,
`GetManifest` and `v1.ParseManifest`.

A manifest is checked as it is and written as JSON, which coerces its strings to
UTF-8.  What is read back is therefore the coerced manifest, and it is the one
that was saved exactly if every string of it was valid
(`getManifest_saved_iff`).
-/

namespace Spider

/-- The files of the manifests directory by name. -/
abbrev ManifestFiles := AList fun _ : Str => Bytes

/-- The name of the file of an artifact; `none` is `ErrInvalidHashName`. -/
def manifestFile (artifactID : Str) : Option Str :=
  (parseHash artifactID).map fun hexPart => hexPart ++ str ".json"

inductive ManifestErr where
  /-- cannot save invalid manifest: %w -/
  | saveInvalid (e : ValidateError)
  | invalidHashName
  /-- An error of the temporary file or of the rename. -/
  | write (msg : Str)
  | read
  /-- failed to parse manifest JSON: %w -/
  | parse (msg : Str)
  /-- manifest validation failed: %w -/
  | validation (e : ValidateError)
  deriving DecidableEq

/-- `SaveManifest`; `io` is the error the file operations end in, if any. -/
def ManifestFiles.saveManifest (H : Sha256) (J : Json) (io : Option Str) (m : ManifestValue)
    (files : ManifestFiles) : Option ManifestErr × ManifestFiles :=
  match m.validate H J.marshal with
  | .error e => (some (.saveInvalid e), files)
  | .ok () =>
    match manifestFile m.artifactID with
    | none => (some .invalidHashName, files)
    | some name =>
      match io with
      | some msg => (some (.write msg), files)
      -- the rename puts the whole file in place
      | none => (none, files.insert name (J.marshalIndent m))

/-- `ParseManifest`. -/
def parseManifest (H : Sha256) (J : Json) (data : Bytes) : Except ManifestErr ManifestValue :=
  match J.unmarshal data with
  | .error msg => .error (.parse msg)
  | .ok m =>
    match m.validate H J.marshal with
    | .error e => .error (.validation e)
    | .ok () => .ok m

/-- `GetManifest`. -/
def ManifestFiles.getManifest (H : Sha256) (J : Json) (artifactID : Str) (files : ManifestFiles) :
    Except ManifestErr ManifestValue :=
  match manifestFile artifactID with
  | none => .error .invalidHashName
  | some name =>
    match files.lookup name with
    | none => .error .read
    | some data => parseManifest H J data

/-! ## Saving -/

section Saving

variable {H : Sha256} {J : Json} {io : Option Str} {m : ManifestValue} {files files' : ManifestFiles}

/-- What a save without error has done. -/
theorem saveManifest_ok (h : files.saveManifest H J io m = (none, files')) :
    m.validate H J.marshal = .ok () ∧
      ∃ name, manifestFile m.artifactID = some name ∧
        files' = files.insert name (J.marshalIndent m) := by
  unfold ManifestFiles.saveManifest at h
  cases hv : m.validate H J.marshal with
  | error e => simp [hv] at h
  | ok u =>
      cases hn : manifestFile m.artifactID with
      | none => simp [hv, hn] at h
      | some name =>
          cases io with
          | some msg => simp [hv, hn] at h
          | none =>
              simp only [hv, hn, Prod.mk.injEq, true_and] at h
              exact ⟨rfl, name, rfl, h.symm⟩

/-- An accepted manifest is saved unless the disk fails. -/
theorem saveManifest_accepted (h : m.validate H J.marshal = .ok ()) :
    (files.saveManifest H J none m).1 = none := by
  have hname : manifestFile m.artifactID =
      some (hexEncode (H.sum (J.marshal m.canonical)) ++ str ".json") := by
    rw [manifestFile, artifactID_of_validate h, ManifestValue.computeID, parseHash_computeHash,
      Option.map_some]
  simp only [ManifestFiles.saveManifest, h, hname]

theorem manifestFile_inj {a b name : Str} (ha : manifestFile a = some name)
    (hb : manifestFile b = some name) : a = b := by
  have happ {x : Str} (hx : manifestFile x = some name) : x ++ str ".json" = scheme ++ name := by
    obtain ⟨hexPart, hparse, rfl⟩ := Option.map_eq_some_iff.mp hx
    rw [(parseHash_eq_some_iff.mp hparse).1, List.append_assoc]
  exact List.append_cancel_right ((happ ha).trans (happ hb).symm)

/-- A save touches the file of its own artifact only. -/
theorem lookup_saveManifest {name : Str} (hne : manifestFile m.artifactID ≠ some name) :
    (files.saveManifest H J io m).2.lookup name = files.lookup name := by
  unfold ManifestFiles.saveManifest
  cases m.validate H J.marshal with
  | error e => rfl
  | ok u =>
      cases hn : manifestFile m.artifactID with
      | none => rfl
      | some name' =>
          cases io with
          | some msg => rfl
          | none =>
              have hname : name ≠ name' := fun he => hne (he ▸ hn)
              exact AList.lookup_insert_ne hname

/-- A sequence of saves, each with the error its file operations end in. -/
def ManifestFiles.saveAll (H : Sha256) (J : Json) (saves : List (Option Str × ManifestValue))
    (files : ManifestFiles) : ManifestFiles :=
  saves.foldl (fun files s => (files.saveManifest H J s.1 s.2).2) files

theorem lookup_saveAll {saves : List (Option Str × ManifestValue)} {name : Str}
    (hne : ∀ s ∈ saves, manifestFile s.2.artifactID ≠ some name) :
    (files.saveAll H J saves).lookup name = files.lookup name := by
  induction saves generalizing files with
  | nil => rfl
  | cons s saves ih =>
      have hrest : ∀ s' ∈ saves, manifestFile s'.2.artifactID ≠ some name :=
        fun s' hs' => hne s' (List.mem_cons_of_mem _ hs')
      exact (ih hrest).trans (lookup_saveManifest (hne s List.mem_cons_self))

end Saving

/-! ## Loading -/

/-- What loading a saved manifest gives. -/
theorem getManifest_of_lookup {H : Sha256} {J : Json} {m : ManifestValue} {files : ManifestFiles}
    {name : Str} (hname : manifestFile m.artifactID = some name)
    (hfile : files.lookup name = some (J.marshalIndent m)) :
    files.getManifest H J m.artifactID =
      match m.toValid.validate H J.marshal with
      | .error e => .error (.validation e)
      | .ok () => .ok m.toValid := by
  simp only [ManifestFiles.getManifest, hname, hfile, parseManifest, J.unmarshal_marshalIndent]

/-- After a save of `m` without error, and any saves of other artifacts, loading
its id gives back `m` exactly if all strings of `m` are valid UTF-8. -/
theorem getManifest_saved_iff (H : Sha256) (J : Json) (io : Option Str) (m : ManifestValue)
    (files files' : ManifestFiles) (later : List (Option Str × ManifestValue))
    (hsave : files.saveManifest H J io m = (none, files'))
    (hlater : ∀ s ∈ later, s.2.artifactID ≠ m.artifactID) :
    (files'.saveAll H J later).getManifest H J m.artifactID = .ok m ↔ m.ValidText := by
  obtain ⟨hv, name, hname, hfiles⟩ := saveManifest_ok hsave
  have hkept : (files'.saveAll H J later).lookup name = some (J.marshalIndent m) := by
    rw [lookup_saveAll fun s hs hn => hlater s hs (manifestFile_inj hn hname), hfiles]
    exact AList.lookup_insert ..
  rw [getManifest_of_lookup hname hkept, ← ManifestValue.toValid_eq_self_iff]
  constructor
  · intro h
    split at h
    · contradiction
    · exact Except.ok.inj h
  · intro h
    rw [h, hv]

/-- The directory after a save into an empty one. -/
def savedFiles (m : ManifestValue) : ManifestFiles :=
  (ManifestFiles.saveManifest (.numbering []) Json.unary none m ∅).2

theorem saveManifest_savedFiles {m : ManifestValue}
    (h : m.validate (.numbering []) Json.unary.marshal = .ok ()) :
    ManifestFiles.saveManifest (.numbering []) Json.unary none m ∅ = (none, savedFiles m) :=
  Prod.ext (saveManifest_accepted h) rfl

theorem getManifest_saved_ordered :
    ManifestFiles.getManifest (.numbering []) Json.unary orderedValue.artifactID
      (savedFiles orderedValue) = .ok orderedValue := by
  have hv : orderedValue.validate (.numbering []) Json.unary.marshal = .ok () :=
    validate_twoFilesValue _ _ (by decide) (by decide) (by decide)
  have htext : orderedValue.ValidText := by decide +kernel
  exact (getManifest_saved_iff (.numbering []) Json.unary none orderedValue ∅ _ []
    (saveManifest_savedFiles hv) (by simp)).mpr htext

/-- Two files whose names are single bytes that are not UTF-8. -/
def undecodableValue : ManifestValue :=
  twoFilesValue (.numbering []) Json.unary.marshal [0xFF] [0xFE]

/-- `SaveManifest` accepts them; both names become U+FFFD in the file, and
`GetManifest` refuses what it reads as a duplicate path. -/
theorem undecodable_names_lost :
    ManifestFiles.saveManifest (.numbering []) Json.unary none undecodableValue ∅ =
      (none, savedFiles undecodableValue) ∧
    ManifestFiles.getManifest (.numbering []) Json.unary undecodableValue.artifactID
      (savedFiles undecodableValue) =
        .error (.validation (.duplicatePath Utf8.replacement)) := by
  have hv : undecodableValue.validate (.numbering []) Json.unary.marshal = .ok () :=
    validate_twoFilesValue _ _ (by decide) (by decide) (by decide)
  have hsave := saveManifest_savedFiles hv
  obtain ⟨-, name, hname, hfiles⟩ := saveManifest_ok hsave
  refine ⟨hsave, ?_⟩
  rw [getManifest_of_lookup hname (by rw [hfiles]; exact AList.lookup_insert ..)]
  have hdup : undecodableValue.toValid.validate (.numbering []) Json.unary.marshal =
      .error (.duplicatePath Utf8.replacement) := rfl
  rw [hdup]

end Spider

import Spider.Layout
import Spider.SafeJoin

/-!
# Spider.Verifier

`VerifyMaterializedDirectory` (`pkg/verifier/verifier.go`): the report it
builds for a manifest and a directory, and the buffers it asks the runtime for
on the way.

The directory, the context and the allocator are a `DirView`: what each
system call answers.  Nothing ties its answers together, so the results hold
for every tree, also one that changes during the run.
-/

namespace Spider

/-! ## What the verifier sees -/

/-- An answer of `os.Stat`. -/
inductive StatResult where
  | notExist
  | error (err : Str)
  | info (size : Int64) (perm : Nat)
  deriving DecidableEq

/-- The answers of the system during one verification. -/
structure DirView where
  /-- `ctx.Err()` before the file with this index, if the context is done. -/
  ctxErr : Nat → Option Str
  stat : Str → StatResult
  openErr : Str → Option Str
  content : Str → Bytes
  seekErr : Str → Nat → Option Str
  readErr : Str → Nat → Option Str
  /-- Whether the runtime grants `make([]byte, n)`; it panics otherwise. -/
  grants : Int64 → Bool

/-- `lseek` fails on a negative offset. -/
def DirView.seek (V : DirView) (path : Str) (ci : Nat) (offset : Int64) : Option Str :=
  if offset < 0 then some (str "invalid argument") else V.seekErr path ci

/-- What `io.ReadFull` gets at an offset, a short read included. -/
def DirView.readFull (V : DirView) (path : Str) (offset size : Int64) : Bytes :=
  ((V.content path).drop offset.toInt.toNat).take size.toInt.toNat

/-- The error of that read; an empty buffer is filled without one. -/
def DirView.read (V : DirView) (path : Str) (ci : Nat) (size : Int64) : Option Str :=
  if size = 0 then none else V.readErr path ci

/-! ## The report -/

/-- The texts of `FileVerificationResult.Error`, with the values they print. -/
inductive FileError where
  | join (e : JoinError)
  /-- file missing -/
  | missing
  | stat (err : Str)
  /-- size mismatch: expected %d bytes, got %d -/
  | sizeMismatch (expected actual : Int64)
  /-- cannot open file: %v -/
  | cannotOpen (err : Str)
  /-- failed to seek chunk %d (offset %d): %v -/
  | seek (ci : Nat) (offset : Int64) (err : Str)
  /-- failed to read chunk %d: %v -/
  | read (ci : Nat) (err : Str)
  /-- chunk %d hash mismatch: expected %s, got %s -/
  | hashMismatch (ci : Nat) (expected actual : Str)
  /-- note: file perm is %04o (manifest specifies %04o) -/
  | permNote (actual expected : Nat)
  deriving DecidableEq

structure FileVerificationResult where
  path : Str
  expectedSize : Int64
  actualSize : Int64
  expectedMode : Str
  actualMode : Str
  totalChunks : Nat
  verifiedChunks : Nat
  corruptChunks : List Str
  valid : Bool
  error : Option FileError
  deriving DecidableEq

structure VerificationReport where
  artifactID : Str
  artifactName : Str
  artifactVersion : Str
  totalFiles : Nat
  validFiles : Nat
  corruptFiles : Nat
  missingFiles : Nat
  totalChunks : Nat
  verifiedChunks : Nat
  corruptChunks : Nat
  fileResults : List FileVerificationResult
  allValid : Bool
  deriving DecidableEq

/-- A buffer the verifier asked for while it verified a file of `fileSize`
bytes. -/
structure BufferRequest where
  size : Int64
  fileSize : Int64
  deriving DecidableEq

/-- The report so far and every buffer asked for. -/
structure VerifyState where
  report : VerificationReport
  buffers : List BufferRequest
  deriving DecidableEq

/-- How a verification ends without a report. -/
inductive VerifyStop where
  /-- invalid manifest: %w -/
  | invalidManifest (e : ValidateError)
  | ctxDone (err : Str)
  /-- The runtime refused a buffer. -/
  | panicked
  deriving DecidableEq

/-! ## The chunk loop -/

/-- The locals of the chunk loop. -/
structure ChunkLoop where
  st : VerifyState
  res : FileVerificationResult
  fileValid : Bool

/-- Record a corrupt chunk and stop the file's validity. -/
def ChunkLoop.corrupt (s : ChunkLoop) (hash : Str) (e : FileError) : ChunkLoop :=
  { s with
    res := { s.res with corruptChunks := s.res.corruptChunks ++ [hash], error := some e }
    fileValid := false }

/-- One pass over the chunks of an open file; `true` is a panic. -/
def verifyChunks (H : Sha256) (V : DirView) (filePath : Str) :
    Nat → List ChunkRef → ChunkLoop → ChunkLoop × Bool
  | _, [], s => (s, false)
  | ci, c :: cs, s =>
      let s := { s with st.report.totalChunks := s.st.report.totalChunks + 1 }
      match V.seek filePath ci c.offset with
      | some err => (s.corrupt c.hash (.seek ci c.offset err), false)
      | none =>
          let s := { s with st.buffers := s.st.buffers ++ [⟨c.size, s.res.actualSize⟩] }
          if !V.grants c.size then (s, true)
          else match V.read filePath ci c.size with
            | some err => (s.corrupt c.hash (.read ci err), false)
            | none =>
                let actualHash := computeHash H (V.readFull filePath c.offset c.size)
                if actualHash ≠ c.hash then
                  let s := s.corrupt c.hash (.hashMismatch ci c.hash actualHash)
                  verifyChunks H V filePath (ci + 1) cs
                    { s with st.report.corruptChunks := s.st.report.corruptChunks + 1 }
                else
                  verifyChunks H V filePath (ci + 1) cs
                    { s with
                      res.verifiedChunks := s.res.verifiedChunks + 1
                      st.report.verifiedChunks := s.st.report.verifiedChunks + 1 }

/-! ## Files -/

/-- A file that fails before its chunks are read. -/
def VerifyState.corruptFile (st : VerifyState) (res : FileVerificationResult) (e : FileError) :
    VerifyState :=
  { st with
    report.corruptFiles := st.report.corruptFiles + 1
    report.allValid := false
    report.fileResults := st.report.fileResults ++ [{ res with error := some e }] }

/-- A file that is not there. -/
def VerifyState.missingFile (st : VerifyState) (res : FileVerificationResult) : VerifyState :=
  { st with
    report.missingFiles := st.report.missingFiles + 1
    report.allValid := false
    report.fileResults := st.report.fileResults ++ [{ res with error := some .missing }] }

/-- The permission note, recorded only when nothing else went wrong. -/
def permNote (mode : Str) (perm : Nat) (res : FileVerificationResult) : FileVerificationResult :=
  if mode = [] then res
  else match parseOctal mode with
    | none => res
    | some expected =>
        if perm ≠ expected ∧ res.error = none then
          { res with error := some (.permNote perm expected) }
        else res

/-- What the chunk loop found, entered into the report. -/
def ChunkLoop.finish (s : ChunkLoop) (mode : Str) (perm : Nat) : VerifyState :=
  if s.fileValid then
    { s.st with
      report.validFiles := s.st.report.validFiles + 1
      report.fileResults := s.st.report.fileResults ++ [permNote mode perm { s.res with valid := true }] }
  else
    { s.st with
      report.corruptFiles := s.st.report.corruptFiles + 1
      report.allValid := false
      report.fileResults := s.st.report.fileResults ++ [permNote mode perm s.res] }

/-- One file of the manifest; `true` is a panic. -/
def verifyFile (H : Sha256) (V : DirView) (targetDir : Str) (f : FileEntry) (st : VerifyState) :
    VerifyState × Bool :=
  let res : FileVerificationResult :=
    { path := f.path, expectedSize := f.size, actualSize := 0, expectedMode := f.mode
      actualMode := [], totalChunks := f.chunks.length, verifiedChunks := 0, corruptChunks := []
      valid := false, error := none }
  match safeJoin targetDir f.path with
  | .error e => (st.corruptFile res (.join e), false)
  | .ok filePath =>
      match V.stat filePath with
      | .notExist => (st.missingFile res, false)
      | .error err => (st.corruptFile res (.stat err), false)
      | .info size perm =>
          let res := { res with actualSize := size, actualMode := octal4 perm }
          if size ≠ f.size then (st.corruptFile res (.sizeMismatch f.size size), false)
          else match V.openErr filePath with
            | some err => (st.corruptFile res (.cannotOpen err), false)
            | none =>
                match verifyChunks H V filePath 0 f.chunks ⟨st, res, true⟩ with
                | (s, true) => (s.st, true)
                | (s, false) => (s.finish f.mode perm, false)

/-- The file loop. -/
def verifyFiles (H : Sha256) (V : DirView) (targetDir : Str) :
    Nat → List FileEntry → VerifyState → VerifyState × Option VerifyStop
  | _, [], st => (st, none)
  | i, f :: fs, st =>
      match V.ctxErr i with
      | some err => (st, some (.ctxDone err))
      | none =>
          match verifyFile H V targetDir f st with
          | (st, true) => (st, some .panicked)
          | (st, false) => verifyFiles H V targetDir (i + 1) fs st

/-- `VerifyMaterializedDirectory`, with the buffers it asked for. -/
def verifyMaterializedDirectory (H : Sha256) (J : Marshal) (V : DirView)
    (m : ArtifactManifest) (targetDir : Str) :
    List BufferRequest × Except VerifyStop VerificationReport :=
  match validate H J m with
  | .error e => ([], .error (.invalidManifest e))
  | .ok () =>
      let report : VerificationReport :=
        { artifactID := m.artifactID, artifactName := m.name, artifactVersion := m.version
          totalFiles := m.files.length, validFiles := 0, corruptFiles := 0, missingFiles := 0
          totalChunks := 0, verifiedChunks := 0, corruptChunks := 0, fileResults := []
          allValid := true }
      match verifyFiles H V targetDir 0 m.files ⟨report, []⟩ with
      | (st, some stop) => (st.buffers, .error stop)
      | (st, none) => (st.buffers, .ok st.report)

/-! ## The buffers asked for -/

/-- The request the verifier makes for a chunk of a file it has found to have
the declared size. -/
def FileEntry.request (f : FileEntry) (c : ChunkRef) : BufferRequest := ⟨c.size, f.size⟩

section Buffers

variable {H : Sha256} {V : DirView}

/-- The chunk loop asks for buffers of the chunks' declared sizes only. -/
theorem mem_buffers_verifyChunks {filePath : Str} {ci : Nat} {cs : List ChunkRef} {s : ChunkLoop}
    {b : BufferRequest} (hb : b ∈ (verifyChunks H V filePath ci cs s).1.st.buffers) :
    b ∈ s.st.buffers ∨ ∃ c ∈ cs, b = ⟨c.size, s.res.actualSize⟩ := by
  induction cs generalizing ci s with
  | nil => exact .inl hb
  | cons c cs ih =>
      -- what is in the list after this chunk was there before or is this chunk's request
      have hnew : b ∈ s.st.buffers ++ [⟨c.size, s.res.actualSize⟩] →
          b ∈ s.st.buffers ∨ ∃ d ∈ c :: cs, b = ⟨d.size, s.res.actualSize⟩ := by
        intro h
        cases List.mem_append.mp h with
        | inl h => exact .inl h
        | inr h => exact .inr ⟨c, List.mem_cons_self, List.mem_singleton.mp h⟩
      have hrest : (b ∈ s.st.buffers ++ [⟨c.size, s.res.actualSize⟩] ∨
            ∃ d ∈ cs, b = ⟨d.size, s.res.actualSize⟩) →
          b ∈ s.st.buffers ∨ ∃ d ∈ c :: cs, b = ⟨d.size, s.res.actualSize⟩ := by
        intro h
        cases h with
        | inl h => exact hnew h
        | inr h =>
            obtain ⟨d, hd, he⟩ := h
            exact .inr ⟨d, List.mem_cons_of_mem _ hd, he⟩
      simp only [verifyChunks] at hb
      cases hs : V.seek filePath ci c.offset with
      | some err =>
          rw [hs] at hb
          exact .inl hb
      | none =>
          rw [hs] at hb
          cases hg : V.grants c.size with
          | false =>
              simp only [hg, Bool.not_false, if_true] at hb
              exact hnew hb
          | true =>
              simp only [hg, Bool.not_true, Bool.false_eq_true, if_false] at hb
              cases hr : V.read filePath ci c.size with
              | some err =>
                  rw [hr] at hb
                  exact hnew hb
              | none =>
                  rw [hr] at hb
                  by_cases hh : computeHash H (V.readFull filePath c.offset c.size) ≠ c.hash
                  · simp only [if_pos hh] at hb
                    exact hrest (ih hb)
                  · simp only [if_neg hh] at hb
                    exact hrest (ih hb)

/-- Entering a result into the report asks for nothing. -/
@[simp] theorem buffers_finish (s : ChunkLoop) (mode : Str) (perm : Nat) :
    (s.finish mode perm).buffers = s.st.buffers := by
  unfold ChunkLoop.finish
  split <;> rfl

theorem mem_buffers_verifyFile {targetDir : Str} {f : FileEntry} {st : VerifyState}
    {b : BufferRequest} (hb : b ∈ (verifyFile H V targetDir f st).1.buffers) :
    b ∈ st.buffers ∨ ∃ c ∈ f.chunks, b = f.request c := by
  simp only [verifyFile] at hb
  cases hj : safeJoin targetDir f.path with
  | error e => rw [hj] at hb; exact .inl hb
  | ok filePath =>
      rw [hj] at hb
      cases hst : V.stat filePath with
      | notExist | error err => simp only [hst] at hb; exact .inl hb
      | info size perm =>
          simp only [hst] at hb
          by_cases hsz : size ≠ f.size
          · simp only [if_pos hsz] at hb; exact .inl hb
          · have heq : size = f.size := not_not.mp hsz
            simp only [if_neg hsz] at hb
            cases ho : V.openErr filePath with
            | some err => simp only [ho] at hb; exact .inl hb
            | none =>
                simp only [ho] at hb
                split at hb
                all_goals
                  rename_i s hrun
                  have hloop := @mem_buffers_verifyChunks H V filePath 0 f.chunks _ b
                    (by rw [hrun]; simpa using hb)
                  rw [heq] at hloop
                  exact hloop

theorem mem_buffers_verifyFiles {targetDir : Str} {i : Nat} {fs : List FileEntry}
    {st : VerifyState} {b : BufferRequest}
    (hb : b ∈ (verifyFiles H V targetDir i fs st).1.buffers) :
    b ∈ st.buffers ∨ ∃ f ∈ fs, ∃ c ∈ f.chunks, b = f.request c := by
  induction fs generalizing i st with
  | nil => exact .inl hb
  | cons f fs ih =>
      have hone : b ∈ (verifyFile H V targetDir f st).1.buffers →
          b ∈ st.buffers ∨ ∃ g ∈ f :: fs, ∃ c ∈ g.chunks, b = g.request c := by
        intro h
        cases mem_buffers_verifyFile h with
        | inl h => exact .inl h
        | inr h => exact .inr ⟨f, List.mem_cons_self, h⟩
      rw [verifyFiles] at hb
      cases hc : V.ctxErr i with
      | some err => rw [hc] at hb; exact .inl hb
      | none =>
          rw [hc] at hb
          simp only at hb
          split at hb
          · rename_i st' hrun
            exact hone (by rw [hrun]; exact hb)
          · rename_i st' hrun
            cases ih hb with
            | inl h => exact hone (by rw [hrun]; exact h)
            | inr h =>
                obtain ⟨g, hg, hex⟩ := h
                exact .inr ⟨g, List.mem_cons_of_mem _ hg, hex⟩

/-- Every buffer a verification asks for is that of a chunk, for a file of the
declared size. -/
theorem mem_buffers_verify {J : Marshal} {m : ArtifactManifest} {targetDir : Str}
    {b : BufferRequest} (hb : b ∈ (verifyMaterializedDirectory H J V m targetDir).1) :
    ∃ f ∈ m.files, ∃ c ∈ f.chunks, b = f.request c := by
  simp only [verifyMaterializedDirectory] at hb
  cases hv : validate H J m with
  | error e => simp [hv] at hb
  | ok u =>
      simp only [hv] at hb
      split at hb
      all_goals
        rename_i st hrun
        cases @mem_buffers_verifyFiles H V targetDir 0 m.files _ b (by rw [hrun]; exact hb) with
        | inl h => exact absurd h List.not_mem_nil
        | inr h => exact h

end Buffers

/-- **Layout of validated manifests.**  For a manifest `Validate` accepts, the
layout is sound over the integers and the verifier never asks for a buffer
larger than the file, exactly when no exact sum of sizes leaves the `int64`
range. -/
theorem validate_layout_iff (H : Sha256) (J : Marshal) (m : ArtifactManifest)
    (hv : validate H J m = .ok ()) :
    (SoundLayout m ∧ ∀ (V : DirView) (targetDir : Str),
        ∀ b ∈ (verifyMaterializedDirectory H J V m targetDir).1,
          0 ≤ b.size.toInt ∧ b.size.toInt ≤ b.fileSize.toInt) ↔
      NoOverflow m := by
  have hiff := soundLayout_iff_noOverflow (validate_eq_ok_iff.mp hv)
  constructor
  · intro h
    exact hiff.mp h.1
  · intro hno
    have hsound := hiff.mpr hno
    refine ⟨hsound, fun V targetDir b hb => ?_⟩
    obtain ⟨f, hf, c, hc, rfl⟩ := mem_buffers_verify hb
    have hsize := (hsound.files f hf).sizes c hc
    have hbound := (hsound.files f hf).bounds c hc
    exact ⟨hsize, by simp only [FileEntry.request]; omega⟩

/-- A manifest with one file and the id that belongs to it. -/
def oneFileManifest (H : Sha256) (J : Marshal) (f : FileEntry) : ArtifactManifest :=
  let m : ArtifactManifest :=
    { schemaVersion := 1, artifactID := [], name := str "m", version := str "1"
      chunkSize := 4194304, totalSize := f.size, files := [f] }
  { m with artifactID := computeID H J m }

theorem accepted_oneFileManifest (H : Sha256) (J : Marshal) {f : FileEntry} (hf : FileAccepted f) :
    Accepted H J (oneFileManifest H J f) where
  schema := rfl
  name := show isBlank (str "m") = false by decide
  version := show isBlank (str "1") = false by decide
  chunkSize := show (0 : Int64) < 4194304 by decide
  nonempty := List.cons_ne_nil _ _
  files := by
    intro g hg
    rw [List.mem_singleton.mp hg]
    exact hf
  distinct := List.nodup_singleton _
  total := by simp [oneFileManifest, wrapSum]
  id := rfl

/-- A file of three bytes in two chunks. -/
def twoChunkFile : FileEntry :=
  ⟨str "a", 3, [], [⟨zeroHash, 0, 2⟩, ⟨zeroHash, 2, 1⟩]⟩

theorem twoChunkFile_accepted : FileAccepted twoChunkFile :=
  ⟨by decide, by decide, by decide, ⟨rfl, rfl, trivial⟩, by decide⟩

/-- The two-chunk file is laid out soundly. -/
theorem validate_layout_twoChunks :
    SoundLayout (oneFileManifest (Sha256.numbering []) (fun _ => []) twoChunkFile) :=
  ((validate_layout_iff (Sha256.numbering []) (fun _ => []) _
    (validate_eq_ok_iff.mpr (accepted_oneFileManifest _ _ twoChunkFile_accepted))).mpr
    ⟨fun f hf => by rw [List.mem_singleton.mp hf]; decide, by decide⟩).1

/-- A file of declared size 0 with two chunks of 2^63-1 bytes and one of 2. -/
def overflowFile : FileEntry :=
  { path := str "a", size := 0, mode := []
    chunks := [⟨zeroHash, 0, 9223372036854775807⟩,
      ⟨zeroHash, 9223372036854775807, 9223372036854775807⟩, ⟨zeroHash, -2, 2⟩] }

/-- A directory in which every file is empty, on a machine that refuses huge
buffers. -/
def emptyFiles : DirView :=
  { ctxErr := fun _ => none, stat := fun _ => .info 0 420, openErr := fun _ => none
    content := fun _ => [], seekErr := fun _ _ => none, readErr := fun _ _ => none
    grants := fun n => n ≤ 281474976710656 }

/-- `Validate` accepts the overflowing file whatever the digest function; its
layout is not sound, and the verifier asks for a buffer of 2^63-1 bytes for an
empty file and dies. -/
theorem overflowFile_accepted :
    (∀ H J, validate H J (oneFileManifest H J overflowFile) = .ok ()) ∧
    (∀ H J, ¬ SoundLayout (oneFileManifest H J overflowFile)) ∧
    (∀ H J, verifyMaterializedDirectory H J emptyFiles (oneFileManifest H J overflowFile)
      (str "/out") = ([⟨9223372036854775807, 0⟩], .error .panicked)) := by
  have hacc : FileAccepted overflowFile :=
    ⟨by decide, by decide, by decide, ⟨rfl, rfl, by decide, trivial⟩, by decide⟩
  refine ⟨fun H J => validate_eq_ok_iff.mpr (accepted_oneFileManifest H J hacc),
    fun H J hs => ?_, fun H J => ?_⟩
  · have htotal := (hs.files overflowFile List.mem_cons_self).total
    exact absurd htotal (by decide)
  · simp only [verifyMaterializedDirectory,
      validate_eq_ok_iff.mpr (accepted_oneFileManifest H J hacc)]
    rfl

end Spider

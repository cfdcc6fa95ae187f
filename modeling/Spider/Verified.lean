import Spider.Verifier

/-!
# Spider.Verified

What a report of `VerifyMaterializedDirectory` says about the directory.

The directory is a `Tree`, which determines the answers of the system calls.
Besides regular files there are others, directories above all: they can be
opened and have a size that depends on the system, but reading from them fails.
The verifier does not look at the type of what it finds, so something of size 0
passes for an empty file.
-/

namespace Spider

/-! ## Directories -/

/-- What is at a path. -/
inductive TreeNode where
  | file (content : Bytes) (perm : Nat) (size : content.length < 2 ^ 63)
  /-- No regular file; the size is system-dependent. -/
  | other (size : Int64) (perm : Nat) (err : Str)

/-- A directory, by path. -/
abbrev Tree := Str → Option TreeNode

def TreeNode.content : TreeNode → Bytes
  | .file b _ _ => b
  | .other _ _ _ => []

def TreeNode.size : TreeNode → Int64
  | .file b _ _ => Int64.ofNat b.length
  | .other size _ _ => size

def TreeNode.perm : TreeNode → Nat
  | .file _ perm _ => perm
  | .other _ perm _ => perm

def TreeNode.readErr : TreeNode → Option Str
  | .file _ _ _ => none
  | .other _ _ err => some err

/-- The system calls on a directory. -/
def Tree.view (T : Tree) (ctxErr : Nat → Option Str) (grants : Int64 → Bool) : DirView where
  ctxErr := ctxErr
  stat path := match T path with
    | none => .notExist
    | some n => .info n.size n.perm
  openErr _ := none
  content path := ((T path).map TreeNode.content).getD []
  seekErr _ _ := none
  readErr path _ := (T path).bind TreeNode.readErr
  grants := grants

/-- The bytes are those of the chunks, one after the other, and no others. -/
def Consists (H : Sha256) (f : FileEntry) (content : Bytes) : Prop :=
  ∃ ps, Pieces H f.chunks ps ∧ ps.flatten = content

/-- A regular file with the content of the entry.  Anything else that is there
counts as empty if its size is 0. -/
def Matches (H : Sha256) (f : FileEntry) : TreeNode → Prop
  | .file content _ _ => Consists H f content
  | .other size _ _ => size = 0 ∧ Consists H f []

/-! ## The chunk loop -/

/-- What the loop checks of one chunk. -/
def ChunkPasses (H : Sha256) (V : DirView) (filePath : Str) (ci : Nat) (c : ChunkRef) : Prop :=
  V.seek filePath ci c.offset = none ∧ V.read filePath ci c.size = none ∧
    computeHash H (V.readFull filePath c.offset c.size) = c.hash

/-- The chunks of a file leave the file counters alone, and no chunk is counted
twice. -/
structure ChunksCounted (r r' : VerificationReport) : Prop where
  files : r'.validFiles = r.validFiles ∧ r'.corruptFiles = r.corruptFiles ∧
    r'.missingFiles = r.missingFiles ∧ r'.totalFiles = r.totalFiles ∧
    r'.fileResults = r.fileResults ∧ r'.allValid = r.allValid
  chunks : r'.verifiedChunks + r'.corruptChunks + r.totalChunks ≤
    r'.totalChunks + r.verifiedChunks + r.corruptChunks

section Loops

variable {H : Sha256} {V : DirView} {filePath targetDir : Str}

theorem ChunksCounted.refl (r : VerificationReport) : ChunksCounted r r :=
  ⟨⟨rfl, rfl, rfl, rfl, rfl, rfl⟩, by omega⟩

theorem ChunksCounted.trans {r1 r2 r3 : VerificationReport} (h1 : ChunksCounted r1 r2)
    (h2 : ChunksCounted r2 r3) : ChunksCounted r1 r3 := by
  obtain ⟨⟨a1, b1, c1, d1, e1, f1⟩, g1⟩ := h1
  obtain ⟨⟨a2, b2, c2, d2, e2, f2⟩, g2⟩ := h2
  exact ⟨⟨a2.trans a1, b2.trans b1, c2.trans c1, d2.trans d1, e2.trans e1, f2.trans f1⟩, by omega⟩

/-- One round of the loop: it stops at a chunk that cannot be read, or goes on. -/
theorem verifyChunks_cons {ci : Nat} {c : ChunkRef} {cs : List ChunkRef} {s s' : ChunkLoop}
    (h : verifyChunks H V filePath ci (c :: cs) s = (s', false)) :
    ¬ ChunkPasses H V filePath ci c ∧ s'.fileValid = false ∧
        ChunksCounted s.st.report s'.st.report ∨
      ∃ s1, verifyChunks H V filePath (ci + 1) cs s1 = (s', false) ∧
        (s1.fileValid = true ↔ s.fileValid = true ∧ ChunkPasses H V filePath ci c) ∧
        ChunksCounted s.st.report s1.st.report := by
  simp only [verifyChunks] at h
  cases hseek : V.seek filePath ci c.offset with
  | some err =>
      simp only [hseek, Prod.mk.injEq, and_true] at h
      subst h
      left
      refine ⟨fun hp => ?_, rfl, ⟨rfl, rfl, rfl, rfl, rfl, rfl⟩, ?_⟩
      · rw [hp.1] at hseek
        contradiction
      · simp only [ChunkLoop.corrupt]
        omega
  | none =>
      simp only [hseek] at h
      cases hgrant : V.grants c.size with
      | false => simp [hgrant] at h
      | true =>
          simp only [hgrant, Bool.not_true, Bool.false_eq_true, if_false] at h
          cases hread : V.read filePath ci c.size with
          | some err =>
              simp only [hread, Prod.mk.injEq, and_true] at h
              subst h
              left
              refine ⟨fun hp => ?_, rfl, ⟨rfl, rfl, rfl, rfl, rfl, rfl⟩, ?_⟩
              · rw [hp.2.1] at hread
                contradiction
              · simp only [ChunkLoop.corrupt]
                omega
          | none =>
              simp only [hread] at h
              right
              by_cases hhash : computeHash H (V.readFull filePath c.offset c.size) = c.hash
              · simp only [hhash, ne_eq, not_true_eq_false, if_false] at h
                refine ⟨_, h, ?_, ⟨rfl, rfl, rfl, rfl, rfl, rfl⟩, ?_⟩
                · exact ⟨fun hv => ⟨hv, hseek, hread, hhash⟩, fun hv => hv.1⟩
                · simp only
                  omega
              · simp only [hhash, ne_eq, not_false_eq_true, if_true] at h
                refine ⟨_, h, ?_, ⟨rfl, rfl, rfl, rfl, rfl, rfl⟩, ?_⟩
                · exact ⟨fun hv => by simp [ChunkLoop.corrupt] at hv, fun hv => absurd hv.2.2.2 hhash⟩
                · simp only [ChunkLoop.corrupt]
                  omega

/-- The file stays valid if every chunk passes. -/
theorem fileValid_verifyChunks {P : ChunkRef → Prop}
    (hP : ∀ ci c, ChunkPasses H V filePath ci c ↔ P c) {ci : Nat} {cs : List ChunkRef}
    {s s' : ChunkLoop} (h : verifyChunks H V filePath ci cs s = (s', false)) :
    (s'.fileValid = true ↔ s.fileValid = true ∧ ∀ c ∈ cs, P c) ∧
      ChunksCounted s.st.report s'.st.report := by
  induction cs generalizing ci s with
  | nil =>
      simp only [verifyChunks, Prod.mk.injEq, and_true] at h
      subst h
      exact ⟨by simp, .refl _⟩
  | cons c cs ih =>
      rcases verifyChunks_cons h with ⟨hfails, hinvalid, hcount⟩ | ⟨s1, hrest, hvalid, hcount⟩
      · have hP' : ¬ P c := fun hp => hfails ((hP ci c).mpr hp)
        exact ⟨by simp [hinvalid, hP'], hcount⟩
      · obtain ⟨hiff, hmore⟩ := ih hrest
        refine ⟨?_, hcount.trans hmore⟩
        rw [hiff, hvalid, hP ci c]
        simp [and_assoc]

/-! ## Files -/

/-- The counters of a report over the files it has seen. -/
structure Tallied (r : VerificationReport) : Prop where
  files : r.validFiles + r.corruptFiles + r.missingFiles = r.fileResults.length
  chunks : r.verifiedChunks + r.corruptChunks ≤ r.totalChunks

/-- One file adds one result, and keeps `AllValid` if it is valid. -/
structure FileCounted (valid : Prop) (r r' : VerificationReport) : Prop where
  tallied : Tallied r → Tallied r'
  results : r'.fileResults.length = r.fileResults.length + 1
  total : r'.totalFiles = r.totalFiles
  allValid : r'.allValid = true ↔ r.allValid = true ∧ valid

end Loops

/-! ## Segments -/

/-- The chunk's hash is that of the bytes at its offset. -/
def SegmentPasses (H : Sha256) (content : Bytes) (c : ChunkRef) : Prop :=
  0 ≤ c.offset.toInt ∧
    computeHash H ((content.drop c.offset.toInt.toNat).take c.size.toInt.toNat) = c.hash

section Segments

variable {H : Sha256} {content : Bytes}

/-- An addition that leaves the range is negative. -/
theorem toInt_add_cases {a b : Int64} (ha : 0 ≤ a.toInt) (hb : 0 ≤ b.toInt) :
    (a + b).toInt = a.toInt + b.toInt ∨ (a + b).toInt < 0 := by
  have hlt1 := toInt_lt a
  have hlt2 := toInt_lt b
  by_cases h : a.toInt + b.toInt < 2 ^ 63
  · exact .inl (toInt_add_of_lt ha hb h)
  · right
    rw [Int64.toInt_add, Int.bmod_def]
    omega

/-- Chunks that pass cut the rest of the file into their pieces.  Where the running
sum wraps around, the next offset or the file size is negative. -/
theorem pieces_of_passes {acc : Int64} {cs : List ChunkRef} (htiled : Tiled acc cs)
    (hsizes : ∀ c ∈ cs, 0 ≤ c.size.toInt) (hacc : 0 ≤ acc.toInt)
    (htotal : (wrapSum acc (cs.map ChunkRef.size)).toInt = content.length)
    (hpass : ∀ c ∈ cs, SegmentPasses H content c) :
    acc.toInt ≤ content.length ∧
      ∃ ps, Pieces H cs ps ∧ ps.flatten = content.drop acc.toInt.toNat := by
  induction cs generalizing acc with
  | nil =>
      have hacc : acc.toInt = content.length := htotal
      exact ⟨by omega, [], .nil, by rw [hacc]; simp⟩
  | cons c cs ih =>
      obtain ⟨hoff, htiled⟩ := htiled
      have hs := hsizes c List.mem_cons_self
      have hadd : (acc + c.size).toInt = acc.toInt + c.size.toInt := by
        rcases toInt_add_cases hacc hs with hadd | hneg
        · exact hadd
        · exfalso
          cases cs with
          | nil =>
              have hlast : (acc + c.size).toInt = content.length := htotal
              omega
          | cons d ds =>
              have hd := (hpass d (by simp)).1
              rw [htiled.1] at hd
              omega
      obtain ⟨hle, ps, hps, hflat⟩ := ih htiled (fun d hd => hsizes d (List.mem_cons_of_mem _ hd))
        (by omega) htotal fun d hd => hpass d (List.mem_cons_of_mem _ hd)
      have hhash := (hpass c List.mem_cons_self).2
      rw [hoff] at hhash
      refine ⟨by omega, (content.drop acc.toInt.toNat).take c.size.toInt.toNat :: ps,
        .cons ⟨hhash, ?_⟩ hps, ?_⟩
      · rw [List.length_take, List.length_drop]
        omega
      · have hpos : (acc + c.size).toInt.toNat = acc.toInt.toNat + c.size.toInt.toNat := by omega
        rw [List.flatten_cons, hflat, hpos, ← List.drop_drop]
        exact List.take_append_drop ..

/-- Conversely, the pieces of the chunks lie where their offsets say. -/
theorem passes_of_pieces {acc : Int64} {cs : List ChunkRef} {ps : List Bytes}
    (htiled : Tiled acc cs) (hacc : 0 ≤ acc.toInt) (hle : acc.toInt ≤ content.length)
    (hlen : content.length < 2 ^ 63) (hps : Pieces H cs ps)
    (hflat : ps.flatten = content.drop acc.toInt.toNat) :
    (wrapSum acc (cs.map ChunkRef.size)).toInt = content.length ∧
      ∀ c ∈ cs, SegmentPasses H content c ∧ c.size.toInt ≤ content.length := by
  induction hps generalizing acc with
  | nil =>
      have hdrop := congrArg List.length hflat
      rw [List.length_drop] at hdrop
      refine ⟨?_, by simp⟩
      show acc.toInt = content.length
      simp only [List.flatten_nil, List.length_nil] at hdrop
      omega
  | @cons c p cs ps hp hps ih =>
      obtain ⟨hoff, htiled⟩ := htiled
      rw [List.flatten_cons] at hflat
      have hdrop := congrArg List.length hflat
      rw [List.length_append, List.length_drop] at hdrop
      have hpiece : (content.drop acc.toInt.toNat).take c.size.toInt.toNat = p := by
        rw [← hflat, show c.size.toInt.toNat = p.length by omega, List.take_left]
      have hadd : (acc + c.size).toInt = acc.toInt + c.size.toInt :=
        toInt_add_of_lt hacc (by omega) (by omega)
      have hrest : ps.flatten = content.drop (acc + c.size).toInt.toNat := by
        rw [show (acc + c.size).toInt.toNat = acc.toInt.toNat + p.length by omega,
          ← List.drop_drop, ← hflat, List.drop_left]
      obtain ⟨htotal, hall⟩ := ih htiled (by omega) (by omega) hrest
      refine ⟨htotal, fun d hd => ?_⟩
      rcases List.mem_cons.mp hd with rfl | hd
      · exact ⟨⟨by rw [hoff]; exact hacc, by rw [hoff, hpiece]; exact hp.1⟩, by omega⟩
      · exact hall d hd

/-- The chunks of an accepted entry pass exactly on the content they describe. -/
theorem consists_iff {f : FileEntry} (hf : FileAccepted f) (hlen : content.length < 2 ^ 63) :
    Consists H f content ↔
      f.size.toInt = content.length ∧ ∀ c ∈ f.chunks, SegmentPasses H content c := by
  constructor
  · rintro ⟨ps, hps, hflat⟩
    obtain ⟨htotal, hall⟩ := passes_of_pieces hf.tiled (by simp) (by simp) hlen hps
      (by simpa using hflat)
    rw [hf.total] at htotal
    exact ⟨htotal, fun c hc => (hall c hc).1⟩
  · rintro ⟨hsize, hpass⟩
    obtain ⟨-, ps, hps, hflat⟩ := pieces_of_passes hf.tiled hf.size_nonneg (by simp)
      (by rw [hf.total]; exact hsize) hpass
    exact ⟨ps, hps, by simpa using hflat⟩

end Segments

/-! ## A file of a directory -/

section Tree

variable {H : Sha256} {T : Tree} {ctxErr : Nat → Option Str} {grants : Int64 → Bool}

/-- What the loop checks of a chunk, in terms of the directory. -/
def NodePasses (H : Sha256) (n : TreeNode) (c : ChunkRef) : Prop :=
  0 ≤ c.offset.toInt ∧ (c.size = 0 ∨ n.readErr = none) ∧
    computeHash H ((n.content.drop c.offset.toInt.toNat).take c.size.toInt.toNat) = c.hash

theorem chunkPasses_view {path : Str} {n : TreeNode} (hn : T path = some n) (ci : Nat)
    (c : ChunkRef) : ChunkPasses H (T.view ctxErr grants) path ci c ↔ NodePasses H n c := by
  have hoff : (T.view ctxErr grants).seek path ci c.offset = none ↔ 0 ≤ c.offset.toInt := by
    have hlt : c.offset < 0 ↔ c.offset.toInt < 0 := by
      rw [Int64.lt_iff_toInt_lt, Int64.toInt_zero]
    by_cases h : c.offset < 0
    · have := hlt.mp h
      simp [DirView.seek, h]
      omega
    · have := mt hlt.mpr h
      simp [DirView.seek, h, Tree.view]
      omega
  have hread : (T.view ctxErr grants).read path ci c.size = none ↔
      c.size = 0 ∨ n.readErr = none := by
    by_cases h : c.size = 0 <;> simp [DirView.read, h, Tree.view, hn]
  rw [ChunkPasses, NodePasses, hoff, hread, DirView.readFull]
  simp [Tree.view, hn]

/-- What the verifier checks of an entry, in terms of the directory. -/
theorem matches_iff {f : FileEntry} (hf : FileAccepted f) (n : TreeNode) :
    Matches H f n ↔ n.size = f.size ∧ ∀ c ∈ f.chunks, NodePasses H n c := by
  cases n with
  | file content perm hlen =>
      have hsize : (TreeNode.file content perm hlen).size = f.size ↔
          f.size.toInt = content.length := by
        rw [← Int64.toInt_inj, TreeNode.size, Int64.toInt_ofNat_of_lt hlen]
        exact eq_comm
      have hpass : ∀ c, NodePasses H (.file content perm hlen) c ↔ SegmentPasses H content c := by
        intro c
        simp [NodePasses, SegmentPasses, TreeNode.readErr, TreeNode.content]
      rw [Matches, consists_iff hf hlen, hsize]
      simp only [hpass]
  | other size perm err =>
      have hpass : ∀ c, NodePasses H (.other size perm err) c ↔
          SegmentPasses H [] c ∧ c.size = 0 := by
        intro c
        simp only [NodePasses, SegmentPasses, TreeNode.readErr, TreeNode.content, reduceCtorEq,
          or_false]
        tauto
      constructor
      · rintro ⟨rfl, ps, hps, hflat⟩
        have hsegments : (wrapSum 0 (f.chunks.map ChunkRef.size)).toInt = ([] : Bytes).length ∧
            ∀ c ∈ f.chunks, SegmentPasses H [] c ∧ c.size.toInt ≤ ([] : Bytes).length :=
          passes_of_pieces hf.tiled (by simp) (by simp) (by simp) hps (by simp [hflat])
        obtain ⟨htotal, hall⟩ := hsegments
        rw [hf.total] at htotal
        refine ⟨Int64.toInt_inj.mp (by simpa [TreeNode.size] using htotal.symm), fun c hc => ?_⟩
        obtain ⟨hp, hle⟩ := hall c hc
        have hnn := hf.size_nonneg c hc
        refine (hpass c).mpr ⟨hp, Int64.toInt_inj.mp ?_⟩
        rw [List.length_nil] at hle
        rw [Int64.toInt_zero]
        omega
      · rintro ⟨hsize, hall⟩
        have hzero : ∀ acc, wrapSum acc (f.chunks.map ChunkRef.size) = acc := by
          intro acc
          have hmap : f.chunks.map ChunkRef.size = List.replicate f.chunks.length 0 :=
            List.map_eq_replicate_iff.mpr fun c hc => ((hpass c).mp (hall c hc)).2
          rw [hmap]
          induction f.chunks.length generalizing acc with
          | zero => rfl
          | succ k ih =>
              exact (ih (acc + 0)).trans (Int64.add_zero acc)
        have hf0 : f.size = 0 := hf.total.symm.trans (hzero 0)
        refine ⟨hsize.trans hf0, (consists_iff hf (by simp)).mpr ⟨by simp [hf0], ?_⟩⟩
        exact fun c hc => ((hpass c).mp (hall c hc)).1

/-- The entry is matched by what its path leads to. -/
def EntryMatches (H : Sha256) (T : Tree) (targetDir : Str) (f : FileEntry) : Prop :=
  ∃ path n, safeJoin targetDir f.path = .ok path ∧ T path = some n ∧ Matches H f n

variable {res : FileVerificationResult} {st : VerifyState} {valid : Prop}

theorem fileCounted_corruptFile {e : FileError} (hinvalid : ¬ valid) :
    FileCounted valid st.report (st.corruptFile res e).report where
  tallied h := ⟨by
    have := h.files
    simp only [VerifyState.corruptFile, List.length_append, List.length_singleton]
    omega, h.chunks⟩
  results := by simp [VerifyState.corruptFile]
  total := rfl
  allValid := by simp [VerifyState.corruptFile, hinvalid]

theorem fileCounted_missingFile (hinvalid : ¬ valid) :
    FileCounted valid st.report (st.missingFile res).report where
  tallied h := ⟨by
    have := h.files
    simp only [VerifyState.missingFile, List.length_append, List.length_singleton]
    omega, h.chunks⟩
  results := by simp [VerifyState.missingFile]
  total := rfl
  allValid := by simp [VerifyState.missingFile, hinvalid]

theorem fileCounted_finish {r : VerificationReport} {s : ChunkLoop} {mode : Str} {perm : Nat}
    (hcount : ChunksCounted r s.st.report) (hvalid : s.fileValid = true ↔ valid) :
    FileCounted valid r (s.finish mode perm).report := by
  obtain ⟨⟨hv, hc, hm, ht, hres, hall⟩, hchunks⟩ := hcount
  cases hs : s.fileValid with
  | true =>
      have hvalid : valid := hvalid.mp hs
      refine ⟨fun h => ⟨?_, ?_⟩, ?_, ?_, ?_⟩
      · have := h.files
        simp only [ChunkLoop.finish, hs, if_true, List.length_append, List.length_singleton]
        rw [hv, hc, hm, hres]
        omega
      · have := h.chunks
        simp only [ChunkLoop.finish, hs, if_true]
        omega
      · simp [ChunkLoop.finish, hs, hres]
      · simp [ChunkLoop.finish, hs, ht]
      · simp [ChunkLoop.finish, hs, hall, hvalid]
  | false =>
      have hvalid : ¬ valid := fun h => by rw [hvalid.mpr h] at hs; contradiction
      refine ⟨fun h => ⟨?_, ?_⟩, ?_, ?_, ?_⟩
      · have := h.files
        simp only [ChunkLoop.finish, hs, Bool.false_eq_true, if_false, List.length_append,
          List.length_singleton]
        rw [hv, hc, hm, hres]
        omega
      · have := h.chunks
        simp only [ChunkLoop.finish, hs, Bool.false_eq_true, if_false]
        omega
      · simp [ChunkLoop.finish, hs, hres]
      · simp [ChunkLoop.finish, hs, ht]
      · simp [ChunkLoop.finish, hs, hvalid]

/-- One file. -/
theorem fileCounted_verifyFile {targetDir : Str} {f : FileEntry} {st' : VerifyState}
    (hf : FileAccepted f) (h : verifyFile H (T.view ctxErr grants) targetDir f st = (st', false)) :
    FileCounted (EntryMatches H T targetDir f) st.report st'.report := by
  simp only [verifyFile] at h
  cases hj : safeJoin targetDir f.path with
  | error e =>
      simp only [hj, Prod.mk.injEq, and_true] at h
      subst h
      refine fileCounted_corruptFile ?_
      rintro ⟨path, n, hp, _⟩
      rw [hj] at hp
      contradiction
  | ok path =>
      simp only [hj] at h
      -- the path leads to at most one node
      have hentry : EntryMatches H T targetDir f ↔ ∃ n, T path = some n ∧ Matches H f n := by
        constructor
        · rintro ⟨path', n, hp, hn, hm⟩
          rw [hj, Except.ok.injEq] at hp
          exact ⟨n, hp ▸ hn, hm⟩
        · rintro ⟨n, hn, hm⟩
          exact ⟨path, n, hj, hn, hm⟩
      rw [hentry]
      cases hn : T path with
      | none =>
          simp only [Tree.view, hn, Prod.mk.injEq, and_true] at h
          subst h
          exact fileCounted_missingFile (by simp)
      | some n =>
          have hstat : (T.view ctxErr grants).stat path = .info n.size n.perm := by
            simp [Tree.view, hn]
          simp only [hstat] at h
          by_cases hsize : n.size = f.size
          · have hopen : (T.view ctxErr grants).openErr path = none := rfl
            simp only [hsize, ne_eq, not_true_eq_false, if_false, hopen] at h
            split at h
            · simp at h
            · rename_i s hrun
              obtain ⟨hvalid, hcount⟩ := fileValid_verifyChunks (chunkPasses_view hn) hrun
              simp only [Prod.mk.injEq, and_true] at h
              subst h
              refine fileCounted_finish hcount ?_
              rw [hvalid]
              simp [matches_iff hf, hsize]
          · simp only [hsize, ne_eq, not_false_eq_true, if_true, Prod.mk.injEq, and_true] at h
            subst h
            refine fileCounted_corruptFile ?_
            rintro ⟨n', hn', hm⟩
            rw [Option.some.injEq] at hn'
            subst hn'
            exact hsize ((matches_iff hf n).mp hm).1

/-- The file loop: one result for each file. -/
theorem tallied_verifyFiles {targetDir : Str} {i : Nat} {fs : List FileEntry} {st' : VerifyState}
    (hfs : ∀ f ∈ fs, FileAccepted f)
    (h : verifyFiles H (T.view ctxErr grants) targetDir i fs st = (st', none)) :
    (Tallied st.report → Tallied st'.report) ∧
      st'.report.fileResults.length = st.report.fileResults.length + fs.length ∧
      st'.report.totalFiles = st.report.totalFiles ∧
      (st'.report.allValid = true ↔
        st.report.allValid = true ∧ ∀ f ∈ fs, EntryMatches H T targetDir f) := by
  induction fs generalizing i st with
  | nil =>
      simp only [verifyFiles, Prod.mk.injEq, and_true] at h
      subst h
      simp
  | cons f fs ih =>
      rw [verifyFiles] at h
      split at h
      · simp at h
      · split at h
        · simp at h
        · rename_i st1 hfile
          have hone := fileCounted_verifyFile (hfs f List.mem_cons_self) hfile
          obtain ⟨htally, hlen, htotal, hall⟩ :=
            ih (fun g hg => hfs g (List.mem_cons_of_mem _ hg)) h
          refine ⟨fun ht => htally (hone.tallied ht), ?_, htotal.trans hone.total, ?_⟩
          · rw [hlen, hone.results, List.length_cons]
            omega
          · rw [hall, hone.allValid]
            simp [and_assoc]

end Tree

/-- A report for an accepted manifest, in terms of the directory. -/
theorem report_of_verify {H : Sha256} {J : Marshal} {m : ArtifactManifest} {T : Tree}
    {ctxErr : Nat → Option Str} {grants : Int64 → Bool} {targetDir : Str}
    {buffers : List BufferRequest} {report : VerificationReport}
    (h : verifyMaterializedDirectory H J (T.view ctxErr grants) m targetDir =
      (buffers, .ok report)) :
    (report.allValid = true ↔ ∀ f ∈ m.files, EntryMatches H T targetDir f) ∧ Tallied report ∧
      report.fileResults.length = m.files.length ∧ report.totalFiles = m.files.length := by
  simp only [verifyMaterializedDirectory] at h
  cases hv : validate H J m with
  | error e => simp [hv] at h
  | ok u =>
      simp only [hv] at h
      split at h
      · simp at h
      · rename_i st hrun
        obtain ⟨-, rfl⟩ := h
        obtain ⟨htally, hlen, htotal, hall⟩ :=
          tallied_verifyFiles (validate_eq_ok_iff.mp hv).files hrun
        exact ⟨by simpa using hall, htally ⟨rfl, Nat.le_refl 0⟩, by simpa using hlen, htotal⟩

/-- An empty file. -/
def emptyFile : FileEntry := ⟨str "a", 0, [], []⟩

theorem emptyFile_accepted : FileAccepted emptyFile :=
  ⟨by decide, by decide, by decide, trivial, by decide⟩

/-- A directory that has an empty file, or a directory of size 0, at every path. -/
def emptyTree (regular : Bool) : Tree := fun _ =>
  some (if regular then .file [] 0o644 nil_fits else .other 0 0o755 (str "is a directory"))

/-- The report on an empty file. -/
def emptyReport (H : Sha256) (J : Marshal) (perm : Nat) : VerificationReport where
  artifactID := (oneFileManifest H J emptyFile).artifactID
  artifactName := str "m"
  artifactVersion := str "1"
  totalFiles := 1
  validFiles := 1
  corruptFiles := 0
  missingFiles := 0
  totalChunks := 0
  verifiedChunks := 0
  corruptChunks := 0
  fileResults := [⟨str "a", 0, 0, [], octal4 perm, 0, 0, [], true, none⟩]
  allValid := true

theorem verify_emptyTree (regular : Bool) :
    verifyMaterializedDirectory (.numbering []) (fun _ => [])
        ((emptyTree regular).view (fun _ => none) fun _ => true)
        (oneFileManifest (.numbering []) (fun _ => []) emptyFile) (str "/out") =
      ([], .ok (emptyReport (.numbering []) (fun _ => []) (if regular then 0o644 else 0o755))) := by
  simp only [verifyMaterializedDirectory,
    validate_eq_ok_iff.mpr (accepted_oneFileManifest _ _ emptyFile_accepted)]
  cases regular <;> rfl

end Spider

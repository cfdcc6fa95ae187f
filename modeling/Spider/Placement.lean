import Spider.Assembly

/-!
# Spider.Placement

Putting the files of a manifest into an empty destination.

All chunks are in the cache and correct, and nothing fails that can be done
(`Places`); a hard link may turn out in one way or in both.  `Stands` is what the
destination looks like after some of the files: each of them, the directories on
the way to them, and what was there before.  A file that no file before it is in
the way of finds its target free.
-/

namespace Spider

open Conc LexPath

/-! ## The destination -/

/-- A file with this content at a path. -/
def Dest.FileAt (d : Dest) (p : Str) (content : Bytes) : Prop :=
  ∃ perm, d.entries.lookup p = some (.file content perm)

/-- A directory with nothing in it. -/
structure EmptyDir (d : Dest) (destDir : Str) : Prop where
  there : ∀ p ∈ pathAncestors destDir, d.entries.lookup p = some .dir
  nothing : ∀ p ∈ d.entries.keys, hasPrefix p (clean destDir ++ str "/") = false

/-- An empty destination, which need not be there yet. -/
structure ClearDir (d : Dest) (destDir : Str) : Prop where
  above : ∀ p ∈ pathAncestors destDir, d.isFile p = false
  nothing : ∀ p ∈ d.entries.keys, hasPrefix p (clean destDir ++ str "/") = false

theorem lookup_mkdir {d : Dest} {p q : Str} :
    (d.mkdir p).entries.lookup q =
      if d.entries.lookup q = none ∧ q = p then some .dir else d.entries.lookup q := by
  unfold Dest.mkdir
  by_cases hp : (d.entries.lookup p).isSome = true
  · rw [if_pos hp, if_neg]
    rintro ⟨hnone, rfl⟩
    rw [hnone] at hp
    contradiction
  · rw [if_neg hp]
    have hnone : d.entries.lookup p = none := by simpa using hp
    by_cases hq : q = p
    · rw [hq, if_pos ⟨hnone, rfl⟩]
      exact AList.lookup_insert ..
    · rw [if_neg fun h => hq h.2]
      exact AList.lookup_insert_ne hq

/-- Directories are made where there is nothing. -/
theorem lookup_mkdirs {ps : List Str} {d : Dest} {q : Str} :
    (ps.foldl Dest.mkdir d).entries.lookup q =
      if d.entries.lookup q = none ∧ q ∈ ps then some .dir else d.entries.lookup q := by
  induction ps generalizing d with
  | nil => simp
  | cons p ps ih =>
      rw [List.foldl_cons, ih, lookup_mkdir]
      by_cases hnone : d.entries.lookup q = none
      · by_cases hq : q = p
        · simp [hnone, hq]
        · simp [hnone, hq]
      · simp [hnone]

theorem mem_pathAncestors {p a : Str} :
    a ∈ pathAncestors p ↔
      ∃ es, es ≠ [] ∧ es <+: pathElems p ∧ a = render slash dot (isAbs p) es := by
  simp only [pathAncestors, List.mem_map, List.mem_range]
  constructor
  · rintro ⟨i, hi, rfl⟩
    refine ⟨_, fun hnil => ?_, List.take_prefix (i + 1) (pathElems p), rfl⟩
    have hlen := congrArg List.length hnil
    rw [List.length_take, List.length_nil] at hlen
    omega
  · rintro ⟨es, hne, hpre, rfl⟩
    have hle := hpre.length_le
    have hpos : 0 < es.length := List.length_pos_iff.mpr hne
    refine ⟨es.length - 1, by omega, ?_⟩
    rw [Nat.sub_add_cancel hpos, ← List.prefix_iff_eq_take.mp hpre]

theorem length_pathAncestors {destDir p : Str} (hp : p ∈ pathAncestors destDir) :
    p.length ≤ (clean destDir).length := by
  obtain ⟨es, hne, ⟨more, hmore⟩, rfl⟩ := mem_pathAncestors.mp hp
  rw [clean_eq_render, ← hmore]
  by_cases hnil : more = []
  · simp [hnil]
  · rw [render_append hne hnil, List.length_append]
    omega

/-- The destination directory is made, and is empty then. -/
theorem ClearDir.mkdirAll {d : Dest} {destDir : Str} (h : ClearDir d destDir) :
    ∃ d', execDest (.mkdirAll destDir) none d = some d' ∧ EmptyDir d' destDir := by
  have hany : (pathAncestors destDir).any d.isFile = false := by
    rw [List.any_eq_false]
    intro p hp
    simp [h.above p hp]
  refine ⟨(pathAncestors destDir).foldl Dest.mkdir d, by simp [execDest, hany], ?_, ?_⟩
  · intro p hp
    have hfile := h.above p hp
    rw [lookup_mkdirs]
    cases hlook : d.entries.lookup p with
    | none => simp [hp]
    | some entry =>
        cases entry with
        | dir => simp
        | file c perm => simp [Dest.isFile, hlook] at hfile
  · intro p hp
    rw [← AList.mem_keys, ← AList.lookup_isSome, lookup_mkdirs] at hp
    by_cases hmade : d.entries.lookup p = none ∧ p ∈ pathAncestors destDir
    · by_contra hbelow
      rw [Bool.not_eq_false, hasPrefix_iff] at hbelow
      have hlong := hbelow.length_le
      have hshort := length_pathAncestors hmade.2
      have hslash : (str "/").length = 1 := by decide
      rw [List.length_append, hslash] at hlong
      omega
    · rw [if_neg hmade, AList.lookup_isSome, AList.mem_keys] at hp
      exact h.nothing p hp

/-! ## One file -/

/-- The permissions of a copied file. -/
def copiedPerm (opts : Options) (entry : FileEntry) : Nat :=
  if opts.preservePerms ∧ entry.mode ≠ [] then
    match parseOctal entry.mode with
    | some perm => syscallMode perm
    | none => 0o644
  else 0o644

/-- The permissions of a file in the destination: a link has those of the chunk file. -/
def placedPerm (links : Bool) (opts : Options) (entry : FileEntry) : Nat :=
  if links ∧ (linkChunk opts entry).isSome then 0o644 else copiedPerm opts entry

/-- The chunk file has the declared size and the declared hash. -/
def Correct (H : Sha256) (x : Store) (c : ChunkRef) : Prop :=
  ∃ b, x.chunks.lookup c.hash = some b ∧ computeHash H b = c.hash ∧
    (b.length : Int) = c.size.toInt

/-- The bytes of a file whose chunks are correct. -/
def fileBytes (H : Sha256) (x : Store) (entry : FileEntry) : Bytes :=
  (assemble H x entry.chunks).1

/-- What `Materialize` makes of an entry. -/
def placedFile (H : Sha256) (x : Store) (links : Bool) (opts : Options) (entry : FileEntry) :
    Entry :=
  .file (fileBytes H x entry) (placedPerm links opts entry)

/-- Something new is at the target, and nothing else has changed. -/
structure Puts (target : Str) (e : Entry) (d d' : Dest) : Prop where
  there : d'.entries.lookup target = some e
  other : ∀ p, p ≠ target → d'.entries.lookup p = d.entries.lookup p

section Cache

variable {H : Sha256} {x : Store} {c : ChunkRef} {cs : List ChunkRef}

theorem assemble_cons_correct {b : Bytes} (hlook : x.chunks.lookup c.hash = some b)
    (hhash : computeHash H b = c.hash) (hlen : (b.length : Int) = c.size.toInt) :
    assemble H x (c :: cs) = (b ++ (assemble H x cs).1, (assemble H x cs).2) := by
  have htake : b.take c.size.toInt.toNat = b := by
    rw [← hlen, Int.toNat_natCast, List.take_length]
  have hintact : Intact H x c b := ⟨hlook, by rw [htake, hlen], by rw [htake, hhash]⟩
  rw [assemble_cons_intact hintact, htake]

theorem assemble_complete (h : ∀ c ∈ cs, Correct H x c) : (assemble H x cs).2 = .complete := by
  induction cs with
  | nil => rfl
  | cons c cs ih =>
      obtain ⟨b, hlook, hhash, hlen⟩ := h c List.mem_cons_self
      rw [assemble_cons_correct hlook hhash hlen]
      exact ih fun d hd => h d (List.mem_cons_of_mem c hd)

end Cache

section Place

/-- Nodes on which nothing fails that can be done, and on which hard links turn out in
one of these ways. -/
structure Places (M : System nodeSig Node Tid) (t : Tid) (L : Bool → Prop) : Prop
    extends Copies M t where
  ways : ∃ links, L links
  link : ∀ {α : Type} {Q : α → Node → Prop} {s : Node} {h target : Str}
    {k : Option Str → NodeM α}, s.job.panicked = false →
    (∀ d', L true → execLink s.store h target none s.dest = some d' →
      Returns M t Q (k none) { s with dest := d' }) →
    ((L false ∨ execLink s.store h target none s.dest = none) → ∀ msg,
      Returns M t Q (k (some msg)) s) →
    Returns M t Q (onLink h target >>= k) s

/-- What `Materialize` can make of an entry. -/
def Made (H : Sha256) (x : Store) (L : Bool → Prop) (opts : Options) (f : FileEntry) (e : Entry) :
    Prop :=
  ∃ links, L links ∧ e = placedFile H x links opts f

variable {M : System nodeSig Node Tid} {t : Tid} {L : Bool → Prop} {H : Sha256} {s : Node}
variable {opts : Options} {target : Str} {entry : FileEntry}

theorem linkChunk_eq_some {c : ChunkRef} (h : linkChunk opts entry = some c) : entry.chunks = [c] := by
  unfold linkChunk at h
  split at h
  · rename_i c' hstrategy hchunks
    split at h
    · rw [hchunks, ← Option.some.inj h]
    · contradiction
  · contradiction

/-- Removing a target that is not there. -/
theorem Copies.removeOld (hM : Copies M t) (hp : s.job.panicked = false)
    (hfree : s.dest.entries.lookup target = none) :
    Returns M t (fun _ s' => s' = s) (removeOld opts target) s := by
  unfold Spider.removeOld
  split
  · exact hM.dest (r := .absent) hp rfl (by simp [execDest, hfree]) rfl
  · rfl

theorem Copies.materializeFile (hM : Copies M t) (hp : s.job.panicked = false)
    (hf : FileAccepted entry) (hchunks : ∀ c ∈ entry.chunks, Correct H s.store c)
    (hfree : s.dest.entries.lookup target = none) (hdir : s.dest.isDir (dir target) = true) :
    Returns M t
      (fun r s' => r = none ∧ ∃ d', s' = { s with dest := d' } ∧
        Puts target (.file (fileBytes H s.store entry) 0o644) s.dest d')
      (materializeFile H opts entry target) s := by
  have hcomplete := assemble_complete hchunks
  have hopen : execDest (.openTarget target) none s.dest =
      some ⟨s.dest.entries.insert target (.file [] 0o644), s.dest.opened ++ [target]⟩ := by
    simp [execDest, hfree, hdir]
  refine (hM.removeOld hp hfree).seq fun _ s1 hs1 => ?_
  subst hs1
  refine hM.dest hp rfl hopen ?_
  refine Returns.seq (hM.copyChunks hp (fun c hc => parseHash_of_validHashName (hf.hashes c hc))
    (AList.lookup_insert ..) fun hbad => ?_) fun r s2 hr => ?_
  · rw [hcomplete] at hbad
    contradiction
  · obtain ⟨d2, rfl, honly, hends⟩ := hr
    have hout : assemble H s1.store entry.chunks = (fileBytes H s1.store entry, .complete) := by
      rw [← hcomplete]
      rfl
    simp only [hout, hf.total] at hends
    obtain ⟨rfl, hfile⟩ := hends
    simp only [ne_eq, not_true_eq_false, if_false]
    refine ⟨rfl, d2, rfl, hfile, fun p hne => ?_⟩
    rw [honly.other p hne]
    exact AList.lookup_insert_ne hne

theorem Copies.copyFile (hM : Copies M t) (hp : s.job.panicked = false) (hf : FileAccepted entry)
    (hchunks : ∀ c ∈ entry.chunks, Correct H s.store c)
    (hfree : s.dest.entries.lookup target = none) (hdir : s.dest.isDir (dir target) = true) :
    Returns M t
      (fun r s' => r = none ∧ ∃ d', s' = { s with dest := d' } ∧
        Puts target (.file (fileBytes H s.store entry) (copiedPerm opts entry)) s.dest d')
      (copyFile H opts entry target) s := by
  refine (hM.materializeFile hp hf hchunks hfree hdir).seq fun r s1 hr => ?_
  obtain ⟨rfl, d1, rfl, hputs⟩ := hr
  by_cases hmode : opts.preservePerms = true ∧ entry.mode ≠ []
  · simp only [if_pos hmode]
    cases hparse : parseOctal entry.mode with
    | none =>
        have hkept : copiedPerm opts entry = 0o644 := by simp [copiedPerm, hparse]
        rw [hkept]
        exact ⟨rfl, d1, rfl, hputs⟩
    | some mode =>
        have hset : copiedPerm opts entry = syscallMode mode := by
          simp only [copiedPerm, if_pos hmode, hparse]
        have hchmod : execDest (.chmodTarget target (syscallMode mode)) none d1 =
            some { d1 with
              entries := d1.entries.insert target
                (.file (fileBytes H s.store entry) (syscallMode mode)) } := by
          simp [execDest, hputs.there]
        rw [hset]
        refine hM.dest hp rfl hchmod ⟨rfl, _, rfl, AList.lookup_insert .., fun p hne => ?_⟩
        rw [← hputs.other p hne]
        exact AList.lookup_insert_ne hne
  · have hkept : copiedPerm opts entry = 0o644 := by simp only [copiedPerm, if_neg hmode]
    simp only [if_neg hmode, hkept]
    exact ⟨rfl, d1, rfl, hputs⟩

theorem Copies.verifyCachedChunk {h : Str} {b : Bytes} (hM : Copies M t)
    (hp : s.job.panicked = false) (hhash : ∃ x, parseHash h = some x)
    (hlook : s.store.chunks.lookup h = some b) (hsum : computeHash H b = h) :
    Returns M t (fun r s' => r = none ∧ s' = s) (verifyCachedChunk H h) s := by
  refine (hM.getChunkReader hp hhash).seq fun r s1 hr => ?_
  obtain ⟨rfl, hr⟩ := hr
  rw [hlook] at hr
  subst hr
  refine hM.ask (by simp) hp rfl ?_
  simp only [answerStore, hsum, ne_eq, not_true_eq_false, if_false]
  exact ⟨rfl, rfl⟩

theorem Copies.hasChunk {h : Str} {b : Bytes} (hM : Copies M t) (hp : s.job.panicked = false)
    (hhash : ∃ x, parseHash h = some x) (hlook : s.store.chunks.lookup h = some b) :
    Returns M t (fun r s' => r = true ∧ s' = s) (hasChunk h) s := by
  obtain ⟨x, hx⟩ := hhash
  simp only [Spider.hasChunk, hx]
  refine hM.ask (by simp) hp ?_ ?_
  · simp [answerStore, execStore, hlook]
  · simp only [answerStore, hlook]
    exact ⟨rfl, rfl⟩

/-- What `placeFile` comes to, when the removal of an old target changes nothing: the
outcome of a copy, or a hard link. -/
theorem Places.placeFile_of {Q : Option Err → Node → Prop} (hM : Places M t L)
    (hp : s.job.panicked = false) (hf : FileAccepted entry)
    (hchunks : ∀ c ∈ entry.chunks, Correct H s.store c)
    (hold : Returns M t (fun _ s' => s' = s) (removeOld opts target) s)
    (hlink : ∀ c d', linkChunk opts entry = some c → L true →
      execLink s.store c.hash target none s.dest = some d' → Q none { s with dest := d' })
    (hcopy : (∀ c d', linkChunk opts entry = some c →
        execLink s.store c.hash target none s.dest = some d' → L false) →
      Returns M t Q (copyFile H opts entry target) s) :
    Returns M t Q (placeFile H opts entry target) s := by
  rw [placeFile]
  cases hc : linkChunk opts entry with
  | none => exact hcopy fun c d' h => by rw [hc] at h; contradiction
  | some c =>
      have hmem : c ∈ entry.chunks := by simp [linkChunk_eq_some hc]
      have hhash := parseHash_of_validHashName (hf.hashes c hmem)
      obtain ⟨b, hlook, hsum, -⟩ := hchunks c hmem
      refine (hM.verifyCachedChunk hp hhash hlook hsum).seq fun r s1 hr => ?_
      obtain ⟨rfl, rfl⟩ := hr
      refine (hM.hasChunk hp hhash hlook).seq fun r s2 hr => ?_
      obtain ⟨rfl, rfl⟩ := hr
      refine hold.seq fun _ s3 hs3 => ?_
      subst hs3
      refine hM.link hp (fun d' hL hd' => hlink c d' hc hL hd') fun hfailed _ => ?_
      refine hcopy fun c' d' hc' hd' => ?_
      rw [hc, Option.some.injEq] at hc'
      subst hc'
      exact hfailed.resolve_right (by simp [hd'])

theorem Places.placeFile_free (hM : Places M t L) (hp : s.job.panicked = false)
    (hf : FileAccepted entry) (hchunks : ∀ c ∈ entry.chunks, Correct H s.store c)
    (hfree : s.dest.entries.lookup target = none) (hdir : s.dest.isDir (dir target) = true) :
    Returns M t
      (fun r s' => r = none ∧ ∃ d' e, s' = { s with dest := d' } ∧
        Made H s.store L opts entry e ∧ Puts target e s.dest d')
      (placeFile H opts entry target) s := by
  have hmakes : ∀ c, linkChunk opts entry = some c → execLink s.store c.hash target none s.dest =
      some ⟨s.dest.entries.insert target (.file (fileBytes H s.store entry) 0o644),
        s.dest.opened ++ [target]⟩ := by
    intro c hc
    have hone := linkChunk_eq_some hc
    obtain ⟨b, hlook, hsum, hlen⟩ := hchunks c (by simp [hone])
    have hbytes : fileBytes H s.store entry = b := by
      rw [fileBytes, hone, assemble_cons_correct hlook hsum hlen]
      simp [assemble]
    simp [execLink, hlook, hfree, hdir, hbytes]
  refine hM.placeFile_of hp hf hchunks (hM.removeOld hp hfree) (fun c d' hc hL hd' => ?_)
    fun hfailed => ?_
  · have hperm : placedPerm true opts entry = 0o644 := by simp [placedPerm, hc]
    rw [hmakes c hc, Option.some.injEq] at hd'
    refine ⟨rfl, d', _, rfl, ⟨true, hL, by rw [placedFile, hperm]⟩, ?_⟩
    rw [← hd']
    exact ⟨AList.lookup_insert .., fun p hne => AList.lookup_insert_ne hne⟩
  · obtain ⟨links, hL, hperm⟩ : ∃ links, L links ∧
        placedPerm links opts entry = copiedPerm opts entry := by
      cases hc : linkChunk opts entry with
      | none =>
          obtain ⟨links, hL⟩ := hM.ways
          exact ⟨links, hL, by simp [placedPerm, hc]⟩
      | some c => exact ⟨false, hfailed c _ hc (hmakes c hc), by simp [placedPerm]⟩
    refine (hM.copyFile hp hf hchunks hfree hdir).mono fun r s' hr => ?_
    obtain ⟨hr, d', hs', hputs⟩ := hr
    exact ⟨hr, d', _, hs', ⟨links, hL, by rw [placedFile, hperm]⟩, hputs⟩

end Place

/-! ## Paths in the destination -/

/-- The path with these elements below the destination directory. -/
def inDest (destDir : Str) (es : List Str) : Str :=
  render slash dot (isAbs destDir) (pathElems destDir ++ es)

section Paths

variable {destDir : Str} {es es' : List Str} {e : Str}

theorem normal_inDest (h : ∀ n ∈ es, IsElem n) :
    Normal slash dot (isAbs destDir) (pathElems destDir ++ es) :=
  (normal_pathElems destDir).append_names h

theorem inDest_inj (h : ∀ n ∈ es, IsElem n) (h' : ∀ n ∈ es', IsElem n)
    (heq : inDest destDir es = inDest destDir es') : es = es' :=
  List.append_cancel_left (render_inj dot_ne_slash (normal_inDest h) (normal_inDest h') heq)

theorem safeJoin_inDest {p : Str} (hbase : pathElems destDir ≠ []) (hp : PathAccepted p) :
    safeJoin destDir p = .ok (inDest destDir (pathElems p)) := by
  rw [safeJoin_of_accepted hp, if_neg hbase, inDest, render_append hbase hp.nonempty, hp.clean_eq,
    clean_eq_render]

theorem dir_inDest (hbase : pathElems destDir ≠ []) (hes : ∀ n ∈ es, IsElem n) (he : IsElem e) :
    dir (inDest destDir (es ++ [e])) = inDest destDir es := by
  rw [inDest, ← List.append_assoc]
  exact dir_render (normal_inDest hes) (by simp [hbase]) he

/-- The directory of a target. -/
theorem exists_parent (hbase : pathElems destDir ≠ []) {p : Str} (hp : PathAccepted p) :
    ∃ init last, pathElems p = init ++ [last] ∧ (∀ n ∈ init, IsElem n) ∧
      dir (inDest destDir (pathElems p)) = inDest destDir init := by
  obtain ⟨init, last, hconcat⟩ := (List.eq_nil_or_concat (pathElems p)).resolve_left hp.nonempty
  have hsplit : pathElems p = init ++ [last] := by rw [hconcat, List.concat_eq_append]
  have hnames := hp.names
  rw [hsplit] at hnames ⊢
  have hinit : ∀ n ∈ init, IsElem n := fun n hn => hnames n (List.mem_append_left _ hn)
  exact ⟨init, last, rfl, hinit, dir_inDest hbase hinit (hnames last (by simp))⟩

/-- A proper front part of a path leads to its directory. -/
theorem front_of_parent {init : List Str} {last : Str} (hpre : es <+: init ++ [last])
    (hne : es ≠ init ++ [last]) : es <+: init := by
  rcases List.prefix_concat_iff.mp hpre with heq | hpre
  · exact absurd heq hne
  · exact hpre

/-- What `MkdirAll` makes sure of: the way to the destination, and the way from there. -/
theorem mem_pathAncestors_inDest (hes : ∀ n ∈ es, IsElem n) {p : Str} :
    p ∈ pathAncestors (inDest destDir es) ↔
      p ∈ pathAncestors destDir ∨ ∃ es', es' ≠ [] ∧ es' <+: es ∧ p = inDest destDir es' := by
  rw [mem_pathAncestors, mem_pathAncestors, inDest, isAbs_render (normal_inDest hes),
    pathElems_render (normal_inDest hes)]
  constructor
  · rintro ⟨way, hne, hpre, rfl⟩
    rcases List.prefix_or_prefix_of_prefix hpre (List.prefix_append (pathElems destDir) es) with
      habove | ⟨es', rfl⟩
    · exact .inl ⟨way, hne, habove, rfl⟩
    · have hbelow : es' <+: es := (List.prefix_append_right_inj _).mp hpre
      by_cases hnil : es' = []
      · subst hnil
        exact .inl ⟨pathElems destDir, by simpa using hne, List.prefix_refl _, by simp⟩
      · exact .inr ⟨es', hnil, hbelow, rfl⟩
  · rintro (⟨way, hne, hpre, rfl⟩ | ⟨es', hne, hpre, rfl⟩)
    · exact ⟨way, hne, hpre.trans (List.prefix_append _ _), rfl⟩
    · exact ⟨pathElems destDir ++ es', by simp [hne], (List.prefix_append_right_inj _).mpr hpre, rfl⟩

/-- The way to the destination is not below it. -/
theorem inDest_not_above (hnames : ∀ n ∈ es, IsElem n) (hes : es ≠ []) :
    inDest destDir es ∉ pathAncestors destDir := by
  intro hmem
  obtain ⟨way, -, hpre, heq⟩ := mem_pathAncestors.mp hmem
  have hnormal := (normal_pathElems destDir).of_isPrefix hpre
  have hway := render_inj dot_ne_slash (normal_inDest hnames) hnormal heq
  have hlen := hpre.length_le
  have hpos : 0 < es.length := List.length_pos_iff.mpr hes
  rw [← hway, List.length_append] at hlen
  omega

end Paths

/-! ## What stands in the destination -/

/-- No path is the other's directory. -/
def Apart (e f : FileEntry) : Prop :=
  ¬ pathElems e.path <+: pathElems f.path ∧ ¬ pathElems f.path <+: pathElems e.path

instance (e f : FileEntry) : Decidable (Apart e f) := inferInstanceAs (Decidable (_ ∧ _))

/-- The destination `d` is `d₀` with these entries and the directories on the way to
them. -/
structure Stands (destDir : Str) (d₀ : Dest) (made : FileEntry → Entry → Prop) (done : List FileEntry)
    (d : Dest) : Prop where
  files : ∀ f ∈ done, ∃ e, d.entries.lookup (inDest destDir (pathElems f.path)) = some e ∧ made f e
  dirs : ∀ f ∈ done, ∀ es, es ≠ [] → es <+: pathElems f.path → es ≠ pathElems f.path →
    d.entries.lookup (inDest destDir es) = some .dir
  rest : ∀ p, (∀ f ∈ done, ∀ es, es ≠ [] → es <+: pathElems f.path → p ≠ inDest destDir es) →
    d.entries.lookup p = d₀.entries.lookup p

section Stands

variable {destDir : Str} {d0 d : Dest} {made : FileEntry → Entry → Prop} {done : List FileEntry}
variable {e : FileEntry}

theorem Stands.congr {d' : Dest} (h : Stands destDir d0 made done d)
    (hsame : ∀ p, d'.entries.lookup p = d.entries.lookup p) : Stands destDir d0 made done d' :=
  ⟨fun f hf => by rw [hsame]; exact h.files f hf,
    fun f hf es hne hpre hproper => (hsame _).trans (h.dirs f hf es hne hpre hproper),
    fun p hp => (hsame p).trans (h.rest p hp)⟩

/-- A file in the destination is that of an entry, or was there before. -/
theorem Stands.of_file (h : Stands destDir d0 made done d) {p : Str} {data : Bytes} {perm : Nat}
    (hfile : d.entries.lookup p = some (.file data perm)) :
    (∃ f ∈ done, p = inDest destDir (pathElems f.path) ∧ made f (.file data perm)) ∨
      d0.entries.lookup p = some (.file data perm) := by
  by_cases hon : ∃ f ∈ done, ∃ es, es ≠ [] ∧ es <+: pathElems f.path ∧ p = inDest destDir es
  · obtain ⟨f, hf, es, hne, hpre, rfl⟩ := hon
    by_cases hes : es = pathElems f.path
    · obtain ⟨e, hlook, hmade⟩ := h.files f hf
      rw [hes, hlook, Option.some.injEq] at hfile
      exact .inl ⟨f, hf, by rw [hes], hfile ▸ hmade⟩
    · rw [h.dirs f hf es hne hpre hes] at hfile
      cases hfile
  · rw [h.rest p fun f hf es hne hpre heq => hon ⟨f, hf, es, hne, hpre, heq⟩] at hfile
    exact .inr hfile

variable {es : List Str}

/-- Something stands at each path on the way to an entry. -/
theorem Stands.isSome (h : Stands destDir d0 made done d) {f : FileEntry} (hf : f ∈ done)
    (hne : es ≠ []) (hpre : es <+: pathElems f.path) :
    (d.entries.lookup (inDest destDir es)).isSome = true := by
  by_cases hes : es = pathElems f.path
  · obtain ⟨e, he, -⟩ := h.files f hf
    rw [hes, he]
    rfl
  · rw [h.dirs f hf es hne hpre hes]
    rfl

/-- A directory that an entry needs is not empty. -/
theorem Stands.hasChild (h : Stands destDir d0 made done d) (hbase : pathElems destDir ≠ [])
    {f : FileEntry} (hf : f ∈ done) (hnames : ∀ n ∈ pathElems f.path, IsElem n)
    (hpre : es <+: pathElems f.path) (hproper : es ≠ pathElems f.path) :
    d.hasChild (inDest destDir es) = true := by
  obtain ⟨more, hmore⟩ := hpre
  cases more with
  | nil => exact absurd (by simpa using hmore) hproper
  | cons x more =>
      have hnext : es ++ [x] <+: pathElems f.path := ⟨more, by simpa using hmore⟩
      have hes : ∀ n ∈ es ++ [x], IsElem n := fun n hn => hnames n (hnext.subset hn)
      have hinit : ∀ n ∈ es, IsElem n := fun n hn => hes n (List.mem_append_left _ hn)
      have hthere := h.isSome hf (by simp) hnext
      rw [AList.lookup_isSome, AList.mem_keys] at hthere
      rw [Dest.hasChild, List.any_eq_true]
      refine ⟨_, hthere, ?_⟩
      rw [Bool.and_eq_true, decide_eq_true_eq, beq_iff_eq]
      refine ⟨fun heq => ?_, dir_inDest hbase hinit (hes x (by simp))⟩
      simpa using inDest_inj hes hinit heq

/-- Below an empty directory there is nothing. -/
theorem EmptyDir.lookup_inDest (h : EmptyDir d destDir) (hbase : pathElems destDir ≠ [])
    (hes : es ≠ []) : d.entries.lookup (inDest destDir es) = none := by
  have hpath : inDest destDir es = clean destDir ++ slash :: [slash].intercalate es := by
    rw [inDest, render_append hbase hes, clean_eq_render]
  have hpre : hasPrefix (inDest destDir es) (clean destDir ++ str "/") = true := by
    rw [hasPrefix_iff, hpath]
    exact ⟨[slash].intercalate es, by simp [show str "/" = [slash] from rfl]⟩
  rw [AList.lookup_eq_none]
  intro hmem
  rw [h.nothing _ (AList.mem_keys.mp hmem)] at hpre
  contradiction

variable (hempty : EmptyDir d0 destDir) (hbase : pathElems destDir ≠ [])
  (hs : Stands destDir d0 made done d) (hnames : ∀ f ∈ done, ∀ n ∈ pathElems f.path, IsElem n)
  (he : PathAccepted e.path)
include hempty hbase hs hnames he

/-- Where no entry before is a directory of `e` there is no file on the way to it. -/
theorem Stands.no_file (hfree : ∀ f ∈ done, ¬ pathElems f.path <+: pathElems e.path) (hne : es ≠ [])
    (hpre : es <+: pathElems e.path) : d.isFile (inDest destDir es) = false := by
  have hes : ∀ n ∈ es, IsElem n := fun n hn => he.names n (hpre.subset hn)
  by_cases hp : ∃ f ∈ done, es <+: pathElems f.path
  · obtain ⟨f, hf, hpf⟩ := hp
    have hproper : es ≠ pathElems f.path := fun heq => hfree f hf (heq ▸ hpre)
    simp [Dest.isFile, hs.dirs f hf es hne hpf hproper]
  · have hout : d.entries.lookup (inDest destDir es) = d0.entries.lookup (inDest destDir es) := by
      refine hs.rest _ fun f hf es' _ hpre' heq => hp ⟨f, hf, ?_⟩
      have hes' : ∀ n ∈ es', IsElem n := fun n hn => hnames f hf n (hpre'.subset hn)
      rw [inDest_inj hes hes' heq]
      exact hpre'
    simp [Dest.isFile, hout, hempty.lookup_inDest hbase hne]

/-- The target of an entry that no other one needs as a directory is free. -/
theorem Stands.free (hfree : ∀ f ∈ done, ¬ pathElems e.path <+: pathElems f.path) :
    d.entries.lookup (inDest destDir (pathElems e.path)) = none := by
  have hout : d.entries.lookup (inDest destDir (pathElems e.path)) =
      d0.entries.lookup (inDest destDir (pathElems e.path)) := by
    refine hs.rest _ fun f hf es _ hpre heq => hfree f hf ?_
    have hes : ∀ n ∈ es, IsElem n := fun n hn => hnames f hf n (hpre.subset hn)
    rw [inDest_inj he.names hes heq]
    exact hpre
  rw [hout, hempty.lookup_inDest hbase he.nonempty]

omit he hbase in
/-- The way to the destination is still there. -/
theorem Stands.above {p : Str} (hp : p ∈ pathAncestors destDir) :
    d.entries.lookup p = some .dir := by
  rw [hs.rest p, hempty.there p hp]
  rintro f hf es hne hpre rfl
  exact inDest_not_above (fun n hn => hnames f hf n (hpre.subset hn)) hne hp

/-- Making the directories for a target: nothing is in the way. -/
theorem Stands.mkdirs (hfree : ∀ f ∈ done, ¬ pathElems f.path <+: pathElems e.path)
    {init : List Str} (hinit : init <+: pathElems e.path) :
    execDest (.mkdirAll (inDest destDir init)) none d =
        some ((pathAncestors (inDest destDir init)).foldl Dest.mkdir d) ∧
      ∀ p ∈ pathAncestors (inDest destDir init),
        ((pathAncestors (inDest destDir init)).foldl Dest.mkdir d).entries.lookup p = some .dir := by
  have hes : ∀ n ∈ init, IsElem n := fun n hn => he.names n (hinit.subset hn)
  have hnofile : ∀ p ∈ pathAncestors (inDest destDir init), d.isFile p = false := by
    intro p hp
    rcases (mem_pathAncestors_inDest hes).mp hp with habove | ⟨es, hne, hpre, rfl⟩
    · simp [Dest.isFile, hs.above hempty hnames habove]
    · exact hs.no_file hempty hbase hnames he hfree hne (hpre.trans hinit)
  refine ⟨?_, fun p hp => ?_⟩
  · have hany : (pathAncestors (inDest destDir init)).any d.isFile = false := by
      rw [List.any_eq_false]
      intro p hp
      simp [hnofile p hp]
    simp [execDest, hany]
  · have hfile := hnofile p hp
    rw [lookup_mkdirs]
    cases hlook : d.entries.lookup p with
    | none => simp [hp]
    | some entry =>
        cases entry with
        | dir => simp
        | file c perm => simp [Dest.isFile, hlook] at hfile

/-- Placing one more entry. -/
theorem Stands.place (hapart : ∀ f ∈ done, Apart e f) {init : List Str} {last : Str}
    (hsplit : pathElems e.path = init ++ [last]) {d' : Dest} {entry : Entry} (hmake : made e entry)
    (hputs : Puts (inDest destDir (pathElems e.path)) entry
      ((pathAncestors (inDest destDir init)).foldl Dest.mkdir d) d') :
    Stands destDir d0 made (done ++ [e]) d' := by
  have hinit : init <+: pathElems e.path := by
    rw [hsplit]
    exact List.prefix_append _ _
  have hes : ∀ n ∈ init, IsElem n := fun n hn => he.names n (hinit.subset hn)
  have htarget := hs.free hempty hbase hnames he fun f hf => (hapart f hf).1
  obtain ⟨-, hmade⟩ := hs.mkdirs hempty hbase hnames he (fun f hf => (hapart f hf).2) hinit
  -- whatever was there is there
  have hkept : ∀ p x, d.entries.lookup p = some x → d'.entries.lookup p = some x := by
    intro p x hlook
    have hne : p ≠ inDest destDir (pathElems e.path) := by
      rintro rfl
      rw [htarget] at hlook
      contradiction
    rw [hputs.other p hne, lookup_mkdirs, if_neg (by simp [hlook]), hlook]
  refine ⟨fun f hf => ?_, fun f hf es hne hpre hproper => ?_, fun p hp => ?_⟩
  · rcases List.mem_append.mp hf with hf | hf
    · obtain ⟨e', he', hmade'⟩ := hs.files f hf
      exact ⟨e', hkept _ _ he', hmade'⟩
    · rw [List.mem_singleton.mp hf]
      exact ⟨entry, hputs.there, hmake⟩
  · rcases List.mem_append.mp hf with hf | hf
    · exact hkept _ _ (hs.dirs f hf es hne hpre hproper)
    · rw [List.mem_singleton.mp hf] at hpre hproper
      have hes' : ∀ n ∈ es, IsElem n := fun n hn => he.names n (hpre.subset hn)
      have hbelow : es <+: init := front_of_parent (hsplit ▸ hpre) (hsplit ▸ hproper)
      rw [hputs.other _ fun heq => hproper (inDest_inj hes' he.names heq)]
      exact hmade _ ((mem_pathAncestors_inDest hes).mpr (.inr ⟨es, hne, hbelow, rfl⟩))
  · have hold : d.entries.lookup p = d0.entries.lookup p :=
      hs.rest p fun f hf => hp f (List.mem_append_left _ hf)
    have hnew := hp e (by simp)
    rw [hputs.other p (hnew _ he.nonempty (List.prefix_refl _)), lookup_mkdirs]
    by_cases hmem : p ∈ pathAncestors (inDest destDir init)
    · rcases (mem_pathAncestors_inDest hes).mp hmem with habove | ⟨es, hne, hpre, rfl⟩
      · rw [if_neg (by simp [hs.above hempty hnames habove]), hold]
      · exact absurd rfl (hnew es hne (hpre.trans hinit))
    · rw [if_neg (by simp [hmem]), hold]

end Stands

/-! ## The loop -/

section Loop

variable {M : System nodeSig Node Tid} {t : Tid} {L : Bool → Prop} {H : Sha256} {s : Node}
variable {opts : Options} {destDir : Str} {d0 : Dest} {done rest : List FileEntry} {e : FileEntry}

/-- Nothing is in the way of the file. -/
theorem Places.files_free {Q : Option Err → Node → Prop} (hM : Places M t L)
    (hp : s.job.panicked = false) (hempty : EmptyDir d0 destDir) (hbase : pathElems destDir ≠ [])
    (hdone : ∀ f ∈ done, FileAccepted f) (hf : FileAccepted e)
    (hs : Stands destDir d0 (Made H s.store L opts) done s.dest)
    (hchunks : ∀ c ∈ e.chunks, Correct H s.store c) (hapart : ∀ f ∈ done, Apart e f)
    (hrest : ∀ d', Stands destDir d0 (Made H s.store L opts) (done ++ [e]) d' →
      Returns M t Q (materializeFiles H opts destDir rest)
        { s with dest := d' }) :
    Returns M t Q (materializeFiles H opts destDir (e :: rest)) s := by
  have hpath : PathAccepted e.path := pathAccepted_of_valid hf.path
  have hnames : ∀ f ∈ done, ∀ n ∈ pathElems f.path, IsElem n :=
    fun f hf => (pathAccepted_of_valid (hdone f hf).path).names
  obtain ⟨init, last, hsplit, hinit, hdir⟩ := exists_parent hbase hpath
  have hfront : init <+: pathElems e.path := ⟨[last], hsplit.symm⟩
  obtain ⟨hmkdir, hmade⟩ :=
    hs.mkdirs hempty hbase hnames hpath (fun f hf => (hapart f hf).2) hfront
  generalize hd1 : (pathAncestors (inDest destDir init)).foldl Dest.mkdir s.dest = d1 at hmkdir hmade
  rw [← hdir] at hmkdir
  refine hM.ctxErr hp ?_
  simp only [safeJoin_inDest hbase hpath]
  refine hM.dest hp rfl hmkdir ?_
  have hfree : d1.entries.lookup (inDest destDir (pathElems e.path)) = none := by
    rw [← hd1, lookup_mkdirs, if_neg]
    · exact hs.free hempty hbase hnames hpath fun f hf => (hapart f hf).1
    · rintro ⟨-, hmem⟩
      rcases (mem_pathAncestors_inDest hinit).mp hmem with habove | ⟨es, -, hpes, heq⟩
      · exact inDest_not_above hpath.names hpath.nonempty habove
      · have hes : ∀ n ∈ es, IsElem n := fun n hn => hinit n (hpes.subset hn)
        have hlen := hpes.length_le
        rw [← inDest_inj hpath.names hes heq, hsplit, List.length_append] at hlen
        simp at hlen
  have hisDir : d1.isDir (dir (inDest destDir (pathElems e.path))) = true := by
    have hself : inDest destDir init ∈ pathAncestors (inDest destDir init) := by
      rw [mem_pathAncestors, inDest, isAbs_render (normal_inDest hinit),
        pathElems_render (normal_inDest hinit)]
      exact ⟨_, by simp [hbase], List.prefix_refl _, rfl⟩
    have hclean : clean (inDest destDir init) = inDest destDir init :=
      clean_render (normal_inDest hinit)
    rw [hdir, Dest.isDir, hclean, hmade _ hself]
    simp
  refine Returns.seq (hM.placeFile_free (s := { s with dest := d1 }) hp hf hchunks hfree hisDir)
    fun r s2 hr => ?_
  obtain ⟨rfl, d2, x, rfl, hmake, hputs⟩ := hr
  exact hrest d2 (hs.place hempty hbase hnames hpath hapart hsplit hmake (hd1 ▸ hputs))

/-- The loop, when no path is the directory of another. -/
theorem Places.materializeFiles (hM : Places M t L) (hp : s.job.panicked = false)
    (hempty : EmptyDir d0 destDir) (hbase : pathElems destDir ≠ [])
    (hfiles : ∀ f ∈ done ++ rest, FileAccepted f)
    (hchunks : ∀ f ∈ rest, ∀ c ∈ f.chunks, Correct H s.store c)
    (hapart : (done ++ rest).Pairwise fun f e => Apart e f)
    (hs : Stands destDir d0 (Made H s.store L opts) done s.dest) :
    Returns M t
      (fun r s' => r = none ∧ Stands destDir d0 (Made H s.store L opts) (done ++ rest) s'.dest)
      (materializeFiles H opts destDir rest) s := by
  induction rest generalizing done s with
  | nil => exact ⟨rfl, by simpa using hs⟩
  | cons e rest ih =>
      refine hM.files_free hp hempty hbase (fun f hf => hfiles f (by simp [hf])) (hfiles e (by simp))
        hs (hchunks e List.mem_cons_self) (fun f hf => ?_) fun d' hs' => ?_
      · exact (List.pairwise_append.mp hapart).2.2 f hf e List.mem_cons_self
      · have hnext := ih (s := { s with dest := d' }) hp (by simpa using hfiles)
          (fun f hf => hchunks f (List.mem_cons_of_mem e hf)) (by simpa using hapart) hs'
        simpa using hnext

end Loop

end Spider

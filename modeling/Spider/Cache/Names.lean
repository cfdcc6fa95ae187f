import Spider.Manifest

/-!
# Spider.Cache.Names

Where the chunk store keeps its files (`pkg/cache/cache.go`): `parseHash`,
`chunkPath`, `partialPath`, and the files each store operation and the peer
server's `GetChunk` hand to the operating system.

`parseHash` looks at the scheme and the length only, and the rest of the name
then goes through `filepath.Join`.  A name stays where it belongs exactly when
it is a single path element whose first two characters are not `..`
(`hashNames_confined_iff`).
-/

namespace Spider

open LexPath

/-! ## Directories and names -/

/-- The directories of a `ChunkStore`. -/
structure StoreDirs where
  rootDir : Str
  chunksDir : Str
  tmpDir : Str
  partialDir : Str
  mfstDir : Str

/-- The directories `NewChunkStore` sets up. -/
def newChunkStore (rootDir : Str) : StoreDirs :=
  let root := if rootDir = [] then str "/var/lib/spider" else rootDir
  { rootDir := root
    chunksDir := join [root, str "chunks", str "sha256"]
    tmpDir := join [root, str "tmp"]
    partialDir := join [root, str "tmp", str "partial"]
    mfstDir := join [root, str "manifests"] }

/-- `parseHash`; `none` is `ErrInvalidHashName`. -/
def parseHash (hash : Str) : Option Str :=
  if !hasPrefix hash scheme then none
  else
    let hexPart := trimPrefix hash scheme
    if hexPart.length ≠ 64 then none else some hexPart

def chunkPath (d : StoreDirs) (hash : Str) : Option Str :=
  (parseHash hash).map fun hexPart => join [d.chunksDir, hexPart.take 2, hexPart]

def partialPath (d : StoreDirs) (hash : Str) : Option Str :=
  (parseHash hash).map fun hexPart => join [d.partialDir, hexPart]

/-- The store operations that take a hash from outside. -/
inductive StoreOp where
  | appendPartial
  | discardPartial
  | commitPartial
  | deleteChunk
  deriving DecidableEq

/-- The files an operation opens, removes or renames. -/
def StoreOp.touched (d : StoreDirs) : StoreOp → Str → List Str
  | .appendPartial, h => (partialPath d h).toList
  | .discardPartial, h => (partialPath d h).toList
  | .commitPartial, h => (partialPath d h).toList ++ (chunkPath d h).toList
  | .deleteChunk, h => (chunkPath d h).toList

/-- The file the peer server opens for a `GetChunk` request, through
`GetChunkReader`. -/
def getChunkOpens (d : StoreDirs) (chunkHash : Str) : Option Str :=
  if chunkHash = [] then none else chunkPath d chunkHash

/-! ## Confinement -/

/-- A file of a shard directory: `<chunksDir>/<2 characters>/<64 characters>`,
the two being single path elements below `chunksDir`. -/
structure InShard (d : StoreDirs) (p shard name : Str) : Prop where
  shard_length : shard.length = 2
  name_length : name.length = 64
  lexical : p = d.chunksDir ++ slash :: (shard ++ slash :: name)
  elems : pathElems p = pathElems d.chunksDir ++ [shard, name]

/-- A file of the partial directory. -/
structure InPartial (d : StoreDirs) (p name : Str) : Prop where
  name_length : name.length = 64
  lexical : p = d.partialDir ++ slash :: name
  elems : pathElems p = pathElems d.partialDir ++ [name]

/-- A file inside the store's own directories. -/
def InStore (d : StoreDirs) (p : Str) : Prop :=
  (∃ shard name, InShard d p shard name) ∨ ∃ name, InPartial d p name

/-- The files of the hash string `s` with hex part `x` are where they should
be, and no other accepted string shares them. -/
structure HashConfined (d : StoreDirs) (s x : Str) : Prop where
  chunk : ∃ p, chunkPath d s = some p ∧ InShard d p (x.take 2) x
  part : ∃ p, partialPath d s = some p ∧ InPartial d p x
  chunk_inj : ∀ t, chunkPath d t = chunkPath d s → t = s
  part_inj : ∀ t, partialPath d t = partialPath d s → t = s

/-- A hex part that is one path element and does not start with `..`. -/
def PlainHex (x : Str) : Prop := slash ∉ x ∧ x.take 2 ≠ str ".."

instance (x : Str) : Decidable (PlainHex x) := inferInstanceAs (Decidable (_ ∧ _))

/-! ## What parseHash accepts -/

theorem parseHash_eq_some_iff {s x : Str} :
    parseHash s = some x ↔ s = scheme ++ x ∧ x.length = 64 := by
  unfold parseHash
  constructor
  · intro h
    by_cases hp : hasPrefix s scheme = true
    · obtain ⟨t, rfl⟩ := hasPrefix_iff.mp hp
      by_cases hl : t.length = 64
      · simp [hp, trimPrefix_append, hl] at h
        exact ⟨by rw [h], h ▸ hl⟩
      · simp [hp, trimPrefix_append, hl] at h
    · simp [hp] at h
  · intro ⟨hs, hl⟩
    have hp : hasPrefix s scheme = true := by
      rw [hasPrefix_iff, hs]; exact List.prefix_append _ _
    rw [hs] at hp ⊢
    simp [hp, trimPrefix_append, hl]

/-- The manifest's check of a chunk hash is `parseHash`. -/
theorem parseHash_of_validHashName {s : Str} (h : validHashName s = true) :
    ∃ x, parseHash s = some x := by
  simp only [validHashName, Bool.and_eq_true, beq_iff_eq] at h
  obtain ⟨x, rfl⟩ := hasPrefix_iff.mp h.1
  have hlen : x.length = 64 := by
    have := h.2
    rw [List.length_append, show scheme.length = 7 from rfl] at this
    omega
  exact ⟨x, parseHash_eq_some_iff.mpr ⟨rfl, hlen⟩⟩

theorem parseHash_computeHash (H : Sha256) (b : Bytes) :
    parseHash (computeHash H b) = some (hexEncode (H.sum b)) :=
  parseHash_eq_some_iff.mpr ⟨rfl, by rw [length_hexEncode, H.length_sum]⟩

/-! ## The store's own directories -/

section Dirs

variable (root : Str)

/-- The root a store works with. -/
def effectiveRoot : Str := if root = [] then str "/var/lib/spider" else root

theorem effectiveRoot_ne_nil : effectiveRoot root ≠ [] := by
  unfold effectiveRoot
  split
  · decide
  · assumption

theorem splitOn_two {a b : Str} (ha : IsElem a) (hb : IsElem b) :
    (a ++ slash :: b).splitOn slash = [a, b] := by
  rw [List.splitOn_append_cons_self, ha.splitOn, hb.splitOn]
  rfl

/-- Two ordinary elements joined behind a directory. -/
theorem pathElems_join_two {b m n : Str} (hb : b ≠ []) (hm : IsElem m) (hn : IsElem n) :
    pathElems (join [b, m, n]) = pathElems b ++ [m, n] := by
  have hes : ∀ e ∈ (m ++ slash :: n).splitOn slash, IsElem e := by
    rw [splitOn_two hm hn]
    intro e he
    simp only [List.mem_cons, List.not_mem_nil, or_false] at he
    cases he with
    | inl he => rw [he]; exact hm
    | inr he => rw [he]; exact hn
  rw [join_triple hb, pathElems_clean, pathElems_glue hb hes, splitOn_two hm hn]

theorem pathElems_chunksDir :
    pathElems (newChunkStore root).chunksDir =
      pathElems (effectiveRoot root) ++ [str "chunks", str "sha256"] :=
  pathElems_join_two (effectiveRoot_ne_nil root) (by decide) (by decide)

theorem pathElems_partialDir :
    pathElems (newChunkStore root).partialDir =
      pathElems (effectiveRoot root) ++ [str "tmp", str "partial"] :=
  pathElems_join_two (effectiveRoot_ne_nil root) (by decide) (by decide)

theorem clean_chunksDir : clean (newChunkStore root).chunksDir = (newChunkStore root).chunksDir := by
  show clean (join [effectiveRoot root, _, _]) = join [effectiveRoot root, _, _]
  rw [join_triple (effectiveRoot_ne_nil root), clean_clean]

theorem clean_partialDir :
    clean (newChunkStore root).partialDir = (newChunkStore root).partialDir := by
  show clean (join [effectiveRoot root, _, _]) = join [effectiveRoot root, _, _]
  rw [join_triple (effectiveRoot_ne_nil root), clean_clean]

end Dirs

/-- Ordinary elements joined behind a clean, non-empty directory are written
behind it. -/
theorem clean_glue {b r : Str} (hb : clean b = b) (hne : pathElems b ≠ [])
    (hr : ∀ e ∈ r.splitOn slash, IsElem e) : clean (b ++ slash :: r) = b ++ slash :: r := by
  have hbn : b ≠ [] := by rw [← hb]; exact clean_ne_nil b
  have hrn : r.splitOn slash ≠ [] := List.splitOn_ne_nil slash r
  have habs : isAbs (b ++ slash :: r) = isAbs b := rooted_append hbn _
  rw [clean_eq_render, habs, pathElems_glue hbn hr, render_append hne hrn, ← clean_eq_render, hb,
    List.intercalate_splitOn]

/-! ## Plain names stay inside -/

section Plain

variable {x : Str}

theorem PlainHex.isElem (h : PlainHex x) (hl : x.length = 64) : IsElem x := by
  refine ⟨?_, ?_, ?_, h.1⟩
  · intro hx; simp [hx] at hl
  · intro hx; simp [hx] at hl
  · intro hx; simp [hx] at hl

theorem PlainHex.isElem_take (h : PlainHex x) (hl : x.length = 64) : IsElem (x.take 2) := by
  have hlen : (x.take 2).length = 2 := by rw [List.length_take]; omega
  refine ⟨?_, ?_, h.2, fun hs => h.1 (List.mem_of_mem_take hs)⟩
  · intro hx; simp [hx] at hlen
  · intro hx; simp [hx] at hlen

theorem splitOn_elem {e : Str} (h : IsElem e) : ∀ n ∈ e.splitOn slash, IsElem n := by
  rw [h.splitOn]
  simpa using h

theorem splitOn_elems {a b : Str} (ha : IsElem a) (hb : IsElem b) :
    ∀ n ∈ (a ++ slash :: b).splitOn slash, IsElem n := by
  rw [splitOn_two ha hb]
  simp [ha, hb]

variable (root : Str) {s : Str}

theorem chunksDir_ne_nil : (newChunkStore root).chunksDir ≠ [] := by
  rw [← clean_chunksDir]; exact clean_ne_nil _

theorem partialDir_ne_nil : (newChunkStore root).partialDir ≠ [] := by
  rw [← clean_partialDir]; exact clean_ne_nil _

theorem chunkPath_of_parseHash (hx : parseHash s = some x) :
    chunkPath (newChunkStore root) s =
      some (clean ((newChunkStore root).chunksDir ++ slash :: (x.take 2 ++ slash :: x))) := by
  rw [chunkPath, hx, Option.map_some, join_triple (chunksDir_ne_nil root)]

theorem partialPath_of_parseHash (hx : parseHash s = some x) :
    partialPath (newChunkStore root) s =
      some (clean ((newChunkStore root).partialDir ++ slash :: x)) := by
  rw [partialPath, hx, Option.map_some, join_pair (partialDir_ne_nil root)]

theorem chunkPath_plain (hx : parseHash s = some x) (hp : PlainHex x) :
    ∃ p, chunkPath (newChunkStore root) s = some p ∧
      InShard (newChunkStore root) p (x.take 2) x := by
  have hl : x.length = 64 := (parseHash_eq_some_iff.mp hx).2
  have hes := splitOn_elems (hp.isElem_take hl) (hp.isElem hl)
  have hne : pathElems (newChunkStore root).chunksDir ≠ [] := by
    rw [pathElems_chunksDir]; simp
  refine ⟨_, chunkPath_of_parseHash root hx, ?_, hl, clean_glue (clean_chunksDir root) hne hes, ?_⟩
  · rw [List.length_take]; omega
  · rw [pathElems_clean, pathElems_glue (chunksDir_ne_nil root) hes,
      splitOn_two (hp.isElem_take hl) (hp.isElem hl)]

theorem partialPath_plain (hx : parseHash s = some x) (hp : PlainHex x) :
    ∃ p, partialPath (newChunkStore root) s = some p ∧ InPartial (newChunkStore root) p x := by
  have hl : x.length = 64 := (parseHash_eq_some_iff.mp hx).2
  have hes := splitOn_elem (hp.isElem hl)
  have hne : pathElems (newChunkStore root).partialDir ≠ [] := by
    rw [pathElems_partialDir]; simp
  refine ⟨_, partialPath_of_parseHash root hx, hl, clean_glue (clean_partialDir root) hne hes, ?_⟩
  rw [pathElems_clean, pathElems_glue (partialDir_ne_nil root) hes, (hp.isElem hl).splitOn]

end Plain

/-! ## Only plain names do -/

theorem length_le_of_mem_splitOn {a e : Str} (h : e ∈ a.splitOn slash) : e.length ≤ a.length := by
  have hflat := congrArg List.length (@List.intercalate_splitOn _ a _ _ slash)
  obtain ⟨l, r, hlr⟩ := List.append_of_mem h
  rw [hlr] at hflat
  have hle : e.length ≤ ([slash].intercalate (l ++ e :: r)).length := by
    clear hflat hlr h
    induction l with
    | nil =>
        cases r with
        | nil => simp
        | cons b r => simp [List.intercalate_cons_cons]
    | cons b l ih =>
        rw [List.cons_append, List.intercalate_cons_of_ne_nil (by simp)]
        simp only [List.length_append]
        omega
  omega

/-- A piece as long as the whole string is the whole string. -/
theorem eq_of_mem_splitOn {a e : Str} (h : e ∈ a.splitOn slash) (hl : e.length = a.length) :
    e = a ∧ slash ∉ a := by
  have hns : slash ∉ a := by
    intro hs
    obtain ⟨b, c, rfl⟩ := List.append_of_mem hs
    rw [List.splitOn_append_cons_self, List.mem_append] at h
    simp only [List.length_append, List.length_cons] at hl
    cases h with
    | inl h | inr h => have := length_le_of_mem_splitOn h; omega
  rw [List.splitOn_eq_singleton hns, List.mem_singleton] at h
  exact ⟨h, hns⟩

/-- A glued path that ends in a new element ends in a piece of what was glued
on. -/
theorem last_mem_splitOn {b r name : Str} {es : List Str} (hb : b ≠ [])
    (h : pathElems (b ++ slash :: r) = es ++ [name]) (hlen : (pathElems b).length ≤ es.length) :
    name ∈ r.splitOn slash := by
  obtain ⟨k, kept, heq, hk⟩ := elems_append_shape slash dot hb r
  have hboth : (pathElems b).take k ++ kept = es ++ [name] := by rw [← h]; exact heq.symm
  cases List.eq_nil_or_concat kept with
  | inl hnil =>
      have hl := congrArg List.length hboth
      rw [hnil] at hl
      simp only [List.append_nil, List.length_take, List.length_append, List.length_singleton] at hl
      omega
  | inr hlast =>
      obtain ⟨init, l, hl⟩ := hlast
      rw [hl, ← List.concat_append, List.concat_eq_append] at hboth
      have hname : l = name := by simpa using congrArg List.getLast? hboth
      rw [← hname]
      exact hk l (by rw [hl]; simp)

section Only

variable (root : Str) {s x name : Str} {es : List Str}
variable {p : Str}

/-- A chunk path below the store's depth that ends in a 64-character element
comes from a name that is this element. -/
theorem hexPart_of_chunkPath (hx : parseHash s = some x)
    (hp : chunkPath (newChunkStore root) s = some p) (hes : pathElems p = es ++ [name])
    (hlen : (pathElems (newChunkStore root).chunksDir).length ≤ es.length)
    (hname : name.length = 64) : name = x ∧ slash ∉ x := by
  have hl : x.length = 64 := (parseHash_eq_some_iff.mp hx).2
  rw [chunkPath_of_parseHash root hx, Option.some.injEq] at hp
  rw [← hp, pathElems_clean] at hes
  have hmem := last_mem_splitOn (chunksDir_ne_nil root) hes hlen
  rw [List.splitOn_append_cons_self, List.mem_append] at hmem
  cases hmem with
  | inl hmem =>
      have := length_le_of_mem_splitOn hmem
      rw [List.length_take] at this
      omega
  | inr hmem => exact eq_of_mem_splitOn hmem (by omega)

theorem hexPart_of_partialPath (hx : parseHash s = some x)
    (hp : partialPath (newChunkStore root) s = some p) (hes : pathElems p = es ++ [name])
    (hlen : (pathElems (newChunkStore root).partialDir).length ≤ es.length)
    (hname : name.length = 64) : name = x ∧ slash ∉ x := by
  have hl : x.length = 64 := (parseHash_eq_some_iff.mp hx).2
  rw [partialPath_of_parseHash root hx, Option.some.injEq] at hp
  rw [← hp, pathElems_clean] at hes
  exact eq_of_mem_splitOn (last_mem_splitOn (partialDir_ne_nil root) hes hlen) (by omega)

/-- A name that starts with `..` steps out of the chunk directory. -/
theorem pathElems_chunkPath_up (hx : parseHash s = some x) (hs : slash ∉ x)
    (hup : x.take 2 = str "..") (hp : chunkPath (newChunkStore root) s = some p) :
    pathElems p = pathElems (effectiveRoot root) ++ [str "chunks", x] := by
  have hl : x.length = 64 := (parseHash_eq_some_iff.mp hx).2
  have hname : IsElem x := by
    refine ⟨?_, ?_, ?_, hs⟩
    · intro h; simp [h] at hl
    · intro h; simp [h] at hl
    · intro h; simp [h] at hl
  rw [chunkPath_of_parseHash root hx, Option.some.injEq] at hp
  have hsplit : (x.take 2 ++ slash :: x).splitOn slash = [str "..", x] := by
    rw [List.splitOn_append_cons_self, hname.splitOn, hup]
    rfl
  have hpush : ∀ r st, push dot r (str "sha256" :: st) (str "..") = st := by
    intro r st
    exact push_up_cons _ _
  rw [← hp, pathElems_clean, pathElems, elems_append (chunksDir_ne_nil root), hsplit,
    show elems slash dot (newChunkStore root).chunksDir =
      pathElems (effectiveRoot root) ++ [str "chunks", str "sha256"] from pathElems_chunksDir root]
  simp only [List.foldl_cons, List.foldl_nil, List.reverse_append, List.reverse_cons,
    List.reverse_nil, List.nil_append, List.cons_append, hpush, push_name hname]
  simp

/-- A chunk path inside the store's directories comes from a plain name. -/
theorem plainHex_of_chunkPath (hx : parseHash s = some x)
    (hp : chunkPath (newChunkStore root) s = some p) (hin : InStore (newChunkStore root) p) :
    PlainHex x := by
  have hc := congrArg List.length (pathElems_chunksDir root)
  have hq := congrArg List.length (pathElems_partialDir root)
  simp only [List.length_append, List.length_cons, List.length_nil] at hc hq
  -- in both directories the path is deeper than `chunksDir` and ends in 64 characters
  have hend : ∃ es name, pathElems p = es ++ [name] ∧ name.length = 64 ∧
      (pathElems (newChunkStore root).chunksDir).length ≤ es.length := by
    cases hin with
    | inl h =>
        obtain ⟨shard, name, h⟩ := h
        exact ⟨pathElems (newChunkStore root).chunksDir ++ [shard], name, by rw [h.elems]; simp,
          h.name_length, by simp⟩
    | inr h =>
        obtain ⟨name, h⟩ := h
        exact ⟨_, name, h.elems, h.name_length, by omega⟩
  obtain ⟨es, name, hes, hname, hlen⟩ := hend
  obtain ⟨rfl, hs⟩ := hexPart_of_chunkPath root hx hp hes hlen hname
  refine ⟨hs, fun hup => ?_⟩
  have hdeep := congrArg List.length (pathElems_chunkPath_up root hx hs hup hp)
  rw [hes] at hdeep
  simp only [List.length_append, List.length_cons, List.length_nil] at hdeep
  omega

/-- A plain name shares its files with no other accepted name. -/
theorem hashConfined_of_plainHex (hx : parseHash s = some x) (h : PlainHex x) :
    HashConfined (newChunkStore root) s x := by
  obtain ⟨p, hp, hsh⟩ := chunkPath_plain root hx h
  obtain ⟨q, hq, hpa⟩ := partialPath_plain root hx h
  refine ⟨⟨p, hp, hsh⟩, ⟨q, hq, hpa⟩, fun t ht => ?_, fun t ht => ?_⟩
  · rw [hp] at ht
    obtain ⟨y, hy, -⟩ := Option.map_eq_some_iff.mp ht
    have hes : pathElems p = (pathElems (newChunkStore root).chunksDir ++ [x.take 2]) ++ [x] := by
      rw [hsh.elems]; simp
    obtain ⟨rfl, -⟩ := hexPart_of_chunkPath root hy ht hes (by simp) hsh.name_length
    rw [(parseHash_eq_some_iff.mp hy).1, (parseHash_eq_some_iff.mp hx).1]
  · rw [hq] at ht
    obtain ⟨y, hy, -⟩ := Option.map_eq_some_iff.mp ht
    obtain ⟨rfl, -⟩ := hexPart_of_partialPath root hy ht hpa.elems (Nat.le_refl _) hpa.name_length
    rw [(parseHash_eq_some_iff.mp hy).1, (parseHash_eq_some_iff.mp hx).1]

/-- Every operation on a name stays inside the store exactly when the name is
plain. -/
theorem touched_inStore_iff (hx : parseHash s = some x) :
    (∀ op : StoreOp, ∀ p ∈ op.touched (newChunkStore root) s, InStore (newChunkStore root) p) ↔
      PlainHex x := by
  constructor
  · intro h
    have hp := chunkPath_of_parseHash root hx
    exact plainHex_of_chunkPath root hx hp (h .deleteChunk _ (by simp [StoreOp.touched, hp]))
  · intro h op p hp
    have hc := hashConfined_of_plainHex root hx h
    obtain ⟨pc, hpc, hsh⟩ := hc.chunk
    obtain ⟨pp, hpp, hpa⟩ := hc.part
    cases op with
    | appendPartial | discardPartial =>
        simp only [StoreOp.touched, hpp, Option.toList_some, List.mem_singleton] at hp
        exact .inr ⟨x, hp ▸ hpa⟩
    | commitPartial =>
        simp only [StoreOp.touched, hpp, hpc, Option.toList_some, List.mem_append,
          List.mem_singleton] at hp
        cases hp with
        | inl hp => exact .inr ⟨x, hp ▸ hpa⟩
        | inr hp => exact .inl ⟨x.take 2, x, hp ▸ hsh⟩
    | deleteChunk =>
        simp only [StoreOp.touched, hpc, Option.toList_some, List.mem_singleton] at hp
        exact .inl ⟨x.take 2, x, hp ▸ hsh⟩

/-- The file a peer's request makes the server open is a file of a shard
directory exactly when the requested name is plain. -/
theorem getChunkOpens_inShard_iff (s : Str) :
    (∀ p, getChunkOpens (newChunkStore root) s = some p →
      ∃ shard name, InShard (newChunkStore root) p shard name) ↔
      ∀ x, parseHash s = some x → PlainHex x := by
  have hopen : ∀ x, parseHash s = some x →
      getChunkOpens (newChunkStore root) s = chunkPath (newChunkStore root) s := by
    intro x hx
    have hne : s ≠ [] := by
      intro hs
      have hnil : parseHash [] = none := by decide
      rw [hs, hnil] at hx
      contradiction
    rw [getChunkOpens, if_neg hne]
  constructor
  · intro h x hx
    have hp := chunkPath_of_parseHash root hx
    exact plainHex_of_chunkPath root hx hp (.inl (h _ ((hopen x hx).trans hp)))
  · intro h p hp
    cases hx : parseHash s with
    | none =>
        rw [getChunkOpens, chunkPath, hx] at hp
        split at hp <;> contradiction
    | some x =>
        obtain ⟨q, hq, hsh⟩ := chunkPath_plain root hx (h x hx)
        rw [hopen x hx, hq, Option.some.injEq] at hp
        exact ⟨x.take 2, x, hp ▸ hsh⟩

end Only

/-- **Confinement of hash names.**  An accepted name keeps its files inside the
store, apart from those of every other accepted name, exactly when it is
plain; so does the file a `GetChunk` request opens, and so do the files the
store operations touch for the chunk hashes of an accepted manifest. -/
theorem hashNames_confined_iff (root : Str) :
    (∀ s x, parseHash s = some x → (HashConfined (newChunkStore root) s x ↔ PlainHex x)) ∧
    (∀ s, (∀ p, getChunkOpens (newChunkStore root) s = some p →
        ∃ shard name, InShard (newChunkStore root) p shard name) ↔
      ∀ x, parseHash s = some x → PlainHex x) ∧
    (∀ (H : Sha256) (J : Marshal) (m : ArtifactManifest), validate H J m = .ok () →
      ((∀ f ∈ m.files, ∀ c ∈ f.chunks, ∀ op : StoreOp,
          ∀ p ∈ op.touched (newChunkStore root) c.hash, InStore (newChunkStore root) p) ↔
        ∀ f ∈ m.files, ∀ c ∈ f.chunks, PlainHex (c.hash.drop scheme.length))) := by
  refine ⟨fun s x hx => ⟨fun h => ?_, hashConfined_of_plainHex root hx⟩,
    getChunkOpens_inShard_iff root, fun H J m hm => ?_⟩
  · obtain ⟨p, hp, hsh⟩ := h.chunk
    exact plainHex_of_chunkPath root hx hp (.inl ⟨_, _, hsh⟩)
  · have hacc := validate_eq_ok_iff.mp hm
    have hone : ∀ f ∈ m.files, ∀ c ∈ f.chunks,
        ((∀ op : StoreOp, ∀ p ∈ op.touched (newChunkStore root) c.hash,
          InStore (newChunkStore root) p) ↔ PlainHex (c.hash.drop scheme.length)) := by
      intro f hf c hc
      obtain ⟨x, hx⟩ := parseHash_of_validHashName ((hacc.files f hf).hashes c hc)
      have hdrop : c.hash.drop scheme.length = x := by
        rw [(parseHash_eq_some_iff.mp hx).1, List.drop_left]
      rw [hdrop]
      exact touched_inStore_iff root hx
    exact ⟨fun h f hf c hc => (hone f hf c hc).mp (h f hf c hc),
      fun h f hf c hc => (hone f hf c hc).mpr (h f hf c hc)⟩

/-- A hash of 64 hex digits is confined. -/
theorem hashNames_confined_hex :
    HashConfined (newChunkStore [])
      (str "sha256:e3b0c44298fc1c149afbf4c8996fb92427ae41e4649b934ca495991b7852b855")
      (str "e3b0c44298fc1c149afbf4c8996fb92427ae41e4649b934ca495991b7852b855") :=
  ((hashNames_confined_iff []).1 _ _ (by decide +kernel)).mpr (by decide +kernel)

/-- A name of the right length that walks up the tree: the server opens
`/etc/passwd` for it. -/
def traversalHash : Str :=
  str "sha256:../../../../../../../../../../../../../../../../../../etc/passwd"

/-- The name is accepted, and its file is `/etc/passwd`, not a file of the
store. -/
theorem traversalHash_escapes :
    parseHash traversalHash = some (traversalHash.drop 7) ∧
    getChunkOpens (newChunkStore []) traversalHash = some (str "/etc/passwd") ∧
    ¬ (∀ s x, parseHash s = some x → HashConfined (newChunkStore []) s x) := by
  have hparse : parseHash traversalHash = some (traversalHash.drop 7) := by decide +kernel
  have hopen : getChunkOpens (newChunkStore []) traversalHash = some (str "/etc/passwd") := by
    decide +kernel
  refine ⟨hparse, hopen, fun h => ?_⟩
  obtain ⟨p, hp, hsh⟩ := (h _ _ hparse).chunk
  have hpath : chunkPath (newChunkStore []) traversalHash = some (str "/etc/passwd") := hopen
  rw [hpath, Option.some.injEq] at hp
  have hlen := congrArg List.length hsh.lexical
  rw [← hp] at hlen
  exact absurd hlen (by decide +kernel)

end Spider

import Spider.Node.Commands

/-!
# Spider.Chunker

Splitting a stream into chunks (`pkg/chunk/chunker.go`).

The callback is a program on the node that carries a value from chunk to chunk.
Whatever it does, the loop is the callback run on the blocks of the stream, each with
its hash, its size and the running offset, followed by the stream's own error
(`chunkStream_eq`); everything else about `ChunkStream` comes from that equation.
-/

namespace Spider

open Conc Stream

/-- `chunk.Chunk`. -/
structure Chunk where
  hash : Str
  data : Bytes
  offset : Int64
  size : Int64

/-- The reference to a chunk. -/
def Chunk.ref (ch : Chunk) : ChunkRef := ⟨ch.hash, ch.offset, ch.size⟩

/-- The chunk of some bytes at an offset. -/
def chunkAt (H : Sha256) (offset : Int64) (data : Bytes) : Chunk :=
  ⟨computeHash H data, data, offset, Int64.ofNat data.length⟩

/-- The chunk size of `NewPublisher` and `NewChunker`. -/
def effectiveChunkSize (chunkSize : Int64) : Int64 :=
  if chunkSize ≤ 0 then defaultChunkSize else chunkSize

theorem effectiveChunkSize_pos (chunkSize : Int64) : 0 < (effectiveChunkSize chunkSize).toInt := by
  rw [effectiveChunkSize]
  by_cases h : chunkSize ≤ 0
  · rw [if_pos h]
    decide
  · rw [if_neg h]
    have hlt := Int64.not_le.mp h
    exact Int64.lt_iff_toInt_lt.mp hlt

section Loop

variable {β : Type} (H : Sha256) (chunkSize : Nat)
  (onChunk : Chunk → β → NodeM (Except Err β))

/-- The callback for what a read delivered. -/
def onRead (offset : Int64) (data : Bytes) (acc : β) : NodeM (Except Err β) :=
  if data = [] then pure (.ok acc) else onChunk (chunkAt H offset data) acc

/-- The loop of `ChunkStream`.  Every turn but the last takes `chunkSize` bytes, so
the counter never runs out if it starts above the length of the stream. -/
def chunkLoop : Nat → Reader UInt8 Str → Int64 → β → NodeM (Except Err β)
  | 0, _, _, acc => pure (.ok acc)
  | turns + 1, r, offset, acc => do
      let (data, err, r') := readFull chunkSize r
      match ← onRead H onChunk offset data acc with
      | .error e => pure (.error e)
      | .ok acc =>
        match err with
        | some .eof | some .unexpectedEOF => pure (.ok acc)
        | some (.other msg) =>
            pure (.error (.readSource (offset + Int64.ofNat data.length) msg))
        | none => chunkLoop turns r' (offset + Int64.ofNat data.length) acc

/-- `ChunkStream`. -/
def chunkStream (r : Reader UInt8 Str) (acc : β) : NodeM (Except Err β) :=
  chunkLoop H chunkSize onChunk (r.content.length + 1) r 0 acc

/-! ## The loop as an equation -/

/-- Consecutive chunks from an offset on. -/
def chunksAt (H : Sha256) : Int64 → List Bytes → List Chunk
  | _, [] => []
  | offset, d :: ds => chunkAt H offset d :: chunksAt H (offset + Int64.ofNat d.length) ds

/-- The chunks of a byte sequence. -/
def chunksOf (H : Sha256) (chunkSize : Nat) (content : Bytes) : List Chunk :=
  chunksAt H 0 (blocks chunkSize content)

/-- The callback on one chunk after the other, up to its first error. -/
def deliver : List Chunk → β → NodeM (Except Err β)
  | [], acc => pure (.ok acc)
  | ch :: chs, acc => do
      match ← onChunk ch acc with
      | .error e => pure (.error e)
      | .ok acc => deliver chs acc

/-- What `ChunkStream` returns after the last chunk: the reader's error, unless it is
one of the two that end a stream. -/
def afterLast (offset : Int64) (last : ReadErr Str) : Except Err β → NodeM (Except Err β)
  | .error e => pure (.error e)
  | .ok acc =>
      match last.failure with
      | none => pure (.ok acc)
      | some msg => pure (.error (.readSource offset msg))

variable {H chunkSize onChunk}
variable {acc : β} {ds : List Bytes}

theorem deliver_onRead {offset : Int64} {data : Bytes} (hds : ds = if data = [] then [] else [data]) :
    onRead H onChunk offset data acc = deliver onChunk (chunksAt H offset ds) acc := by
  rw [onRead, hds]
  by_cases hd : data = []
  · rw [if_pos hd, if_pos hd]
    rfl
  · rw [if_neg hd, if_neg hd]
    have hret : ∀ res : Except Err β, (match res with
        | .error e => pure (.error e)
        | .ok acc => pure (.ok acc) : NodeM (Except Err β)) = .ret res := by
      intro res
      cases res <;> rfl
    exact ((congrArg _ (funext hret)).trans (Prog.bind_ret _)).symm

theorem chunkLoop_eq (hsize : 0 < chunkSize) {turns : Nat} {r : Reader UInt8 Str}
    (hturns : r.content.length < turns) (offset : Int64) (acc : β) :
    chunkLoop H chunkSize onChunk turns r offset acc =
      deliver onChunk (chunksAt H offset (blocks chunkSize r.content)) acc >>=
        afterLast (offset + Int64.ofNat r.content.length) r.last := by
  induction turns generalizing r offset acc with
  | zero => exact absurd hturns (Nat.not_lt_zero _)
  | succ turns ih =>
      rw [chunkLoop]
      cases hread : readFull chunkSize r with
      | mk data rest =>
          obtain ⟨err, r'⟩ := rest
          have happ := readFull_append hread
          cases err with
          | some e =>
              -- the end of the stream: what was read is the rest of it
              have hend := content_of_readFull_err hread
              have hdata : r.content = data := by rw [← happ, hend, List.append_nil]
              have hshort := length_readFull_lt hread
              have hblocks : blocks chunkSize r.content = if data = [] then [] else [data] := by
                rw [hdata]
                by_cases hd : data = []
                · rw [if_pos hd, hd, blocks_nil]
                · rw [if_neg hd, blocks_short hd (Nat.le_of_lt hshort)]
              rw [← deliver_onRead hblocks, hdata]
              have hfail := failure_readFull hread
              refine bind_congr fun res => ?_
              cases res with
              | error e => rfl
              | ok acc =>
                  rw [afterLast, ← hfail]
                  cases e <;> rfl
          | none =>
              -- a full buffer: the stream gets shorter
              have hfull := length_readFull hread
              have hlen : data.length + r'.content.length = r.content.length := by
                rw [← happ, List.length_append]
              have hd : data ≠ [] := by
                rw [← List.length_pos_iff]
                omega
              have hoff : offset + Int64.ofNat data.length + Int64.ofNat r'.content.length =
                  offset + Int64.ofNat r.content.length := by
                rw [Int64.add_assoc, ← Int64.ofNat_add, hlen]
              rw [← hoff, ← happ, blocks_append hsize hfull, chunksAt, deliver, Prog.bind_assoc']
              simp only [onRead, if_neg hd]
              refine bind_congr fun res => ?_
              cases res with
              | error e => rfl
              | ok acc => exact (ih (by omega) _ acc).trans (by rw [last_readFull hread])

/-- **ChunkStream.**  Whatever the callback does, it sees the blocks of the stream in
order, and after them the stream's own error is returned. -/
theorem chunkStream_eq (hsize : 0 < chunkSize) (r : Reader UInt8 Str) (acc : β) :
    chunkStream H chunkSize onChunk r acc =
      deliver onChunk (chunksOf H chunkSize r.content) acc >>=
        afterLast (Int64.ofNat r.content.length) r.last := by
  rw [chunkStream, chunkLoop_eq hsize (Nat.lt_succ_self _), Int64.zero_add, chunksOf]

variable {I : β → List Bytes → Prop} {okc : Cmd → Prop} {ok : (c : Cmd) → c.Resp → Prop}

/-- How the callback must treat the chunk after those of `done`. -/
def Collects (H : Sha256) (onChunk : Chunk → β → NodeM (Except Err β))
    (I : β → List Bytes → Prop) (okc : Cmd → Prop) (ok : (c : Cmd) → c.Resp → Prop) : Prop :=
  ∀ acc done data, data ≠ [] → I acc done →
    (onChunk (chunkAt H (Int64.ofNat done.flatten.length) data) acc).All okc ok
      fun res => ∀ acc', res = .ok acc' → I acc' (done ++ [data])

/-- The offset behind one more chunk. -/
theorem offset_append (done : List Bytes) (d : Bytes) :
    Int64.ofNat done.flatten.length + Int64.ofNat d.length =
      Int64.ofNat (done ++ [d]).flatten.length := by
  rw [List.flatten_append, List.length_append, Int64.ofNat_add, List.flatten_singleton]

theorem all_deliver (hI : Collects H onChunk I okc ok) (hds : ∀ d ∈ ds, d ≠ []) {done : List Bytes}
    (hacc : I acc done) :
    (deliver onChunk (chunksAt H (Int64.ofNat done.flatten.length) ds) acc).All okc ok
      fun res => ∀ acc', res = .ok acc' → I acc' (done ++ ds) := by
  induction ds generalizing done acc with
  | nil =>
      rintro acc' ⟨⟩
      simpa using hacc
  | cons d ds ih =>
      refine (hI acc done d (hds d List.mem_cons_self) hacc).bind fun res hres => ?_
      cases res with
      | error e => exact fun acc' h => nomatch h
      | ok acc1 =>
          have hrest := ih (fun x hx => hds x (List.mem_cons_of_mem d hx)) (hres acc1 rfl)
          rw [← offset_append, List.append_assoc, List.singleton_append] at hrest
          exact hrest

/-- When `ChunkStream` returns without an error, the callback has seen the blocks of all
the stream delivers. -/
theorem all_chunkStream_blocks (hI : Collects H onChunk I okc ok) (hsize : 0 < chunkSize)
    (r : Reader UInt8 Str) (hacc : I acc []) :
    (chunkStream H chunkSize onChunk r acc).All okc ok
      fun res => ∀ acc', res = .ok acc' → I acc' (blocks chunkSize r.content) := by
  rw [chunkStream_eq hsize]
  refine (all_deliver hI (fun d hd => ((blocks_sizes hsize r.content).2 d hd).1) hacc).bind
    fun res hres => ?_
  cases res with
  | error e => exact fun acc' h => nomatch h
  | ok acc1 =>
      rw [afterLast]
      split
      · rintro acc' ⟨⟩
        exact hres acc1 rfl
      · exact fun acc' h => nomatch h

theorem all_chunkStream (hI : Collects H onChunk I okc ok) (hsize : 0 < chunkSize)
    (r : Reader UInt8 Str) (hacc : I acc []) :
    (chunkStream H chunkSize onChunk r acc).All okc ok
      fun res => ∀ acc', res = .ok acc' → ∃ ds, ds.flatten = r.content ∧
        (∀ d ∈ ds, d ≠ []) ∧ I acc' ds := by
  refine (all_chunkStream_blocks hI hsize r hacc).mono fun res hres acc' hacc' => ?_
  exact ⟨_, flatten_blocks hsize _, fun d hd => ((blocks_sizes hsize r.content).2 d hd).1,
    hres acc' hacc'⟩

/-! ## Streams without errors -/

variable {M : System nodeSig Node Tid} {t : Tid} {G : β → List Bytes → Node → Prop}

/-- A callback that succeeds on the chunk after those of `done`. -/
def Absorbs (M : System nodeSig Node Tid) (t : Tid) (H : Sha256)
    (onChunk : Chunk → β → NodeM (Except Err β)) (G : β → List Bytes → Node → Prop) : Prop :=
  ∀ acc done data s, data ≠ [] → G acc done s →
    Returns M t (fun res s' => ∃ acc', res = .ok acc' ∧ G acc' (done ++ [data]) s')
      (onChunk (chunkAt H (Int64.ofNat done.flatten.length) data) acc) s

theorem returns_deliver (hG : Absorbs M t H onChunk G) (hds : ∀ d ∈ ds, d ≠ []) {done : List Bytes}
    {s : Node} (hacc : G acc done s) :
    Returns M t (fun res s' => ∃ acc', res = .ok acc' ∧ G acc' (done ++ ds) s')
      (deliver onChunk (chunksAt H (Int64.ofNat done.flatten.length) ds) acc) s := by
  induction ds generalizing done acc s with
  | nil => exact ⟨acc, rfl, by simpa using hacc⟩
  | cons d ds ih =>
      refine (hG acc done d s (hds d List.mem_cons_self) hacc).seq fun res s1 hres => ?_
      obtain ⟨acc1, rfl, hacc1⟩ := hres
      have hrest := ih (fun x hx => hds x (List.mem_cons_of_mem d hx)) hacc1
      rw [← offset_append, List.append_assoc, List.singleton_append] at hrest
      exact hrest

/-- `ChunkStream` on a stream that ends with an end of file, with a callback that
does not fail: it succeeds, and the callback has seen the whole stream. -/
theorem returns_chunkStream (hG : Absorbs M t H onChunk G) (hsize : 0 < chunkSize)
    {r : Reader UInt8 Str} (hlast : r.last = .eof) {s : Node} (hacc : G acc [] s) :
    Returns M t (fun res s' => ∃ acc' ds, res = .ok acc' ∧ ds.flatten = r.content ∧ G acc' ds s')
      (chunkStream H chunkSize onChunk r acc) s := by
  rw [chunkStream_eq hsize, hlast]
  refine (returns_deliver hG (fun d hd => ((blocks_sizes hsize r.content).2 d hd).1) hacc).seq
    fun res s1 hres => ?_
  obtain ⟨acc1, rfl, hacc1⟩ := hres
  exact ⟨acc1, _, rfl, flatten_blocks hsize _, hacc1⟩

end Loop

/-! ## Tiling -/

section Tiling

variable {H : Sha256} {chunkSize : Int64}

theorem data_chunksAt (offset : Int64) (ds : List Bytes) :
    (chunksAt H offset ds).map Chunk.data = ds := by
  induction ds generalizing offset with
  | nil => rfl
  | cons d ds ih => rw [chunksAt, List.map_cons, ih]; rfl

theorem chunksAt_append (offset : Int64) (done : List Bytes) (d : Bytes) :
    chunksAt H offset (done ++ [d]) =
      chunksAt H offset done ++ [chunkAt H (offset + Int64.ofNat done.flatten.length) d] := by
  induction done generalizing offset with
  | nil =>
      have hzero : offset + Int64.ofNat ([] : List Bytes).flatten.length = offset :=
        Int64.add_zero offset
      rw [hzero]
      rfl
  | cons e done ih =>
      rw [List.cons_append, chunksAt, ih, chunksAt, List.flatten_cons, List.length_append,
        Int64.ofNat_add, ← Int64.add_assoc]
      rfl

theorem tiled_chunksAt (offset : Int64) (ds : List Bytes) :
    Tiled offset ((chunksAt H offset ds).map Chunk.ref) := by
  induction ds generalizing offset with
  | nil => trivial
  | cons d ds ih => exact ⟨rfl, ih _⟩

theorem mem_chunksAt {offset : Int64} {ds : List Bytes} {ch : Chunk}
    (h : ch ∈ chunksAt H offset ds) :
    ch.data ∈ ds ∧ ch.hash = computeHash H ch.data ∧ ch.size = Int64.ofNat ch.data.length := by
  induction ds generalizing offset with
  | nil => simp [chunksAt] at h
  | cons d ds ih =>
      cases List.mem_cons.mp h with
      | inl heq =>
          rw [heq]
          exact ⟨List.mem_cons_self, rfl, rfl⟩
      | inr hrest =>
          obtain ⟨hd, hhash, hsize⟩ := ih hrest
          exact ⟨List.mem_cons_of_mem d hd, hhash, hsize⟩

/-- A callback that does not fail. -/
def succeeding {β : Type} (f : β → Chunk → NodeM β) (ch : Chunk) (acc : β) :
    NodeM (Except Err β) := do
  let acc ← f acc ch
  pure (.ok acc)

/-- It is run on every chunk. -/
theorem deliver_succeeding {β : Type} (f : β → Chunk → NodeM β) (chs : List Chunk) (acc : β) :
    deliver (succeeding f) chs acc = chs.foldlM f acc >>= fun acc => pure (.ok acc) := by
  induction chs generalizing acc with
  | nil => rfl
  | cons ch chs ih =>
      rw [deliver, succeeding, List.foldlM_cons, Prog.bind_assoc', Prog.bind_assoc']
      exact bind_congr fun acc => ih acc

theorem deliver_pure {β : Type} (g : β → Chunk → β) (chs : List Chunk) (acc : β) :
    deliver (fun ch acc => pure (.ok (g acc ch))) chs acc = pure (.ok (chs.foldl g acc)) := by
  induction chs generalizing acc with
  | nil => rfl
  | cons ch chs ih => exact ih (g acc ch)

theorem sizes_chunksOf (hsize : 0 < chunkSize.toInt) (content : Bytes) :
    (∀ ch ∈ (chunksOf H chunkSize.toInt.toNat content).dropLast, ch.size = chunkSize) ∧
      ∀ ch ∈ chunksOf H chunkSize.toInt.toNat content,
        ch.size.toInt = ch.data.length ∧ 0 < ch.size.toInt ∧ ch.size.toInt ≤ chunkSize.toInt := by
  have hblocks := blocks_sizes (n := chunkSize.toInt.toNat) (by omega) content
  have hlt := chunkSize.toInt_lt
  -- no block is too long for an `int64`
  have hexact : ∀ ch ∈ chunksOf H chunkSize.toInt.toNat content,
      ch.size.toInt = ch.data.length := by
    intro ch hch
    obtain ⟨hd, -, hlen⟩ := mem_chunksAt hch
    have hle := (hblocks.2 _ hd).2
    rw [hlen, Int64.toInt_ofNat_of_lt (by omega)]
  constructor
  · intro ch hch
    have hmem := List.mem_of_mem_dropLast hch
    have hdata : ch.data ∈ (blocks chunkSize.toInt.toNat content).dropLast := by
      have hmap := List.mem_map_of_mem (f := Chunk.data) hch
      rwa [List.map_dropLast, chunksOf, data_chunksAt] at hmap
    have hfull := hblocks.1 _ hdata
    apply Int64.toInt_inj.mp
    rw [hexact ch hmem, hfull]
    omega
  · intro ch hch
    obtain ⟨hd, -, -⟩ := mem_chunksAt hch
    obtain ⟨hne, hle⟩ := hblocks.2 _ hd
    have hpos := List.length_pos_iff.mpr hne
    rw [hexact ch hch]
    exact ⟨rfl, by omega, by omega⟩

end Tiling

/-- **Tiling.**  On a stream that ends with an end of file `ChunkStream` runs a callback
that does not fail on the chunks of the content, in order, and returns without an
error.  They follow one another without gaps, all but the last have the chunk size,
and how the stream is cut into reads does not matter. -/
theorem chunking_tiles (H : Sha256) (chunkSize : Int64) (hsize : 0 < chunkSize)
    (r : Reader UInt8 Str) (hr : r.last = .eof) :
    (∀ (β : Type) (f : β → Chunk → NodeM β) (acc : β),
      chunkStream H chunkSize.toInt.toNat (succeeding f) r acc =
        (chunksOf H chunkSize.toInt.toNat r.content).foldlM f acc >>= fun acc => pure (.ok acc)) ∧
      ((chunksOf H chunkSize.toInt.toNat r.content).map Chunk.data).flatten = r.content ∧
      Tiled 0 ((chunksOf H chunkSize.toInt.toNat r.content).map Chunk.ref) ∧
      (∀ ch ∈ (chunksOf H chunkSize.toInt.toNat r.content).dropLast, ch.size = chunkSize) ∧
      (∀ ch ∈ chunksOf H chunkSize.toInt.toNat r.content,
        ch.hash = computeHash H ch.data ∧ ch.size.toInt = ch.data.length ∧
          0 < ch.size.toInt ∧ ch.size.toInt ≤ chunkSize.toInt) ∧
      ∀ r' : Reader UInt8 Str, r'.last = .eof → r'.content = r.content →
        ∀ (β : Type) (onChunk : Chunk → β → NodeM (Except Err β)) (acc : β),
          chunkStream H chunkSize.toInt.toNat onChunk r' acc =
            chunkStream H chunkSize.toInt.toNat onChunk r acc := by
  have hpos : 0 < chunkSize.toInt := Int64.lt_iff_toInt_lt.mp hsize
  have hn : 0 < chunkSize.toInt.toNat := by omega
  obtain ⟨hfull, hsizes⟩ := sizes_chunksOf (H := H) hpos r.content
  refine ⟨fun β f acc => ?_, ?_, tiled_chunksAt _ _, hfull, fun ch hch => ?_,
    fun r' hr' hcontent β onChunk acc => ?_⟩
  · rw [chunkStream_eq hn, hr, deliver_succeeding, Prog.bind_assoc']
    rfl
  · rw [chunksOf, data_chunksAt, flatten_blocks hn]
  · exact ⟨(mem_chunksAt hch).2.1, hsizes ch hch⟩
  · rw [chunkStream_eq hn, chunkStream_eq hn, hr, hr', hcontent]

/-- Five bytes in chunks of two, once read byte by byte with an empty read between
them and once all at once with the end of file. -/
theorem chunking_tiles_five :
    (0 : Int64) < 2 ∧
      chunkStream (Sha256.numbering []) 2 (succeeding fun acc ch => pure (acc ++ [ch.data]))
          ⟨[[1], [], [2, 3, 4], [5]], .eof, false⟩ [] =
        chunkStream (Sha256.numbering []) 2 (succeeding fun acc ch => pure (acc ++ [ch.data]))
          ⟨[[1, 2, 3, 4, 5]], .eof, true⟩ [] :=
  ⟨by decide, (chunking_tiles (Sha256.numbering []) 2 (by decide)
    ⟨[[1, 2, 3, 4, 5]], .eof, true⟩ rfl).2.2.2.2.2 _ rfl (by decide) _ _ _⟩

/-! ## Truncated streams -/

section Collectors

variable (H : Sha256) (chunkSize : Nat)

/-- `ChunkReader`.  The chunks it returns beside an error are left out. -/
def chunkReader (r : Reader UInt8 Str) : NodeM (Except Err (List Chunk)) :=
  chunkStream H chunkSize (fun ch chunks => pure (.ok (chunks ++ [ch]))) r []

/-- `ChunkFile`, given what `os.Open` answers. -/
def chunkFile (filePath : Str) (opened : Except Str (Reader UInt8 Str)) :
    NodeM (Except Err (List Chunk × List ChunkRef)) :=
  match opened with
  | .error msg => pure (.error (.openSource filePath msg))
  | .ok r =>
      chunkStream H chunkSize
        (fun ch acc => pure (.ok (acc.1 ++ [ch], acc.2 ++ [ch.ref]))) r ([], [])

end Collectors

/-- Ends with an error, whatever happens on the way. -/
abbrev Fails {α : Type} (p : NodeM (Except Err α)) : Prop :=
  p.All (fun _ => True) (fun _ _ => True) fun res => ∃ e, res = .error e

theorem fails_chunkStream {β : Type} {H : Sha256} {chunkSize : Nat} (hsize : 0 < chunkSize)
    {r : Reader UInt8 Str} {msg : Str} (hr : r.last = .other msg)
    (onChunk : Chunk → β → NodeM (Except Err β)) (acc : β) :
    Fails (chunkStream H chunkSize onChunk r acc) := by
  rw [chunkStream_eq hsize, hr]
  refine (Prog.only_true _).all.bind fun res _ => ?_
  cases res with
  | error e => exact ⟨e, rfl⟩
  | ok acc => exact ⟨_, rfl⟩

/-- **Truncated streams.**  Of the errors other than an end of file with which a reader
can stop, all but `io.ErrUnexpectedEOF` come back from `ChunkStream`, `ChunkReader` and
`ChunkFile`; that one is what `io.ReadFull` makes of an end of file in the middle of a
buffer, and is taken for it. -/
theorem truncation_reported_iff (H : Sha256) (chunkSize : Int64) (hsize : 0 < chunkSize)
    (r : Reader UInt8 Str) (hr : r.last ≠ .eof) :
    ((∀ (β : Type) (onChunk : Chunk → β → NodeM (Except Err β)) (acc : β),
        Fails (chunkStream H chunkSize.toInt.toNat onChunk r acc)) ∧
      Fails (chunkReader H chunkSize.toInt.toNat r) ∧
      ∀ filePath, Fails (chunkFile H chunkSize.toInt.toNat filePath (.ok r))) ↔
    r.last ≠ .unexpectedEOF := by
  have hpos : 0 < chunkSize.toInt := Int64.lt_iff_toInt_lt.mp hsize
  have hn : 0 < chunkSize.toInt.toNat := by omega
  constructor
  · intro ⟨_, hreader, _⟩ hlast
    rw [chunkReader, chunkStream_eq hn, hlast, deliver_pure] at hreader
    obtain ⟨e, he⟩ := hreader
    contradiction
  · intro hlast
    cases he : r.last with
    | eof => exact absurd he hr
    | unexpectedEOF => exact absurd he hlast
    | other msg =>
        exact ⟨fun β onChunk acc => fails_chunkStream hn he onChunk acc,
          fails_chunkStream hn he _ _, fun _ => fails_chunkStream hn he _ _⟩

/-- A reader that fails in the middle of a chunk, for a reason of its own. -/
theorem truncation_reported_reset :
    ((0 : Int64) < 4 ∧ (ReadErr.other (str "connection reset") : ReadErr Str) ≠ .eof) ∧
      Fails (chunkReader (Sha256.numbering []) 4
        ⟨[[1, 2]], .other (str "connection reset"), false⟩) :=
  ⟨by decide, ((truncation_reported_iff (Sha256.numbering []) 4 (by decide)
    ⟨[[1, 2]], .other (str "connection reset"), false⟩ (by decide)).mpr (by decide)).2.1⟩

/-- A body that breaks off after two bytes, with `io.ErrUnexpectedEOF`: they come back as
a complete stream of one chunk. -/
theorem truncation_taken_for_end :
    (chunkReader (Sha256.numbering []) 4 ⟨[[1, 2]], .unexpectedEOF, false⟩).value =
      some (.ok [chunkAt (Sha256.numbering []) 0 [1, 2]]) :=
  rfl

end Spider

import Spider.Peer.Client

/-!
# Spider.Peer.Server

How a node serves a chunk: `GetChunk` (`pkg/peer/server.go`), and what
`DownloadChunkTo` makes of it.

The server sends what it reads from the chunk file behind the requested offset,
one frame for each read, whatever their sizes.  Its frames carry their true
offsets, so the client skips nothing; the frame that reaches the end of the
chunk tells the client to stop, and behind the last byte there is no frame at
all.  So a download writes the bytes that were asked for, or a beginning of them
when the stream breaks off (`downloadChunkTo_sent`).

A server that ignores the offset and sends the whole chunk is served by skipping
bytes, but only in frames of offset 0 (`resume_whole_iff`).
-/

namespace Spider

/-! ## The server -/

inductive StatusCode where
  | invalidArgument
  | notFound
  | outOfRange
  | internal
  | resourceExhausted
  | canceled
  | deadlineExceeded
  deriving DecidableEq

def StatusCode.text : StatusCode → Str
  | .invalidArgument => str "InvalidArgument"
  | .notFound => str "NotFound"
  | .outOfRange => str "OutOfRange"
  | .internal => str "Internal"
  | .resourceExhausted => str "ResourceExhausted"
  | .canceled => str "Canceled"
  | .deadlineExceeded => str "DeadlineExceeded"

/-- A gRPC status other than OK. -/
structure Status where
  code : StatusCode
  msg : Str
  deriving DecidableEq

/-- The status as the error a client sees. -/
def Status.remoteErr (st : Status) : RemoteErr where
  hashMismatch := false
  outOfRange := decide (st.code = .outOfRange)
  goType := .other (str "*status.Error")
  msg := str "rpc error: code = " ++ st.code.text ++ str " desc = " ++ st.msg

structure GetChunkRequest where
  chunkHash : Str
  offset : Int
  /-- The `x-chunk-offset` metadata, if it is there and a number. -/
  header : Option Int
  deriving DecidableEq

/-- The offset a request asks for. -/
def GetChunkRequest.start (req : GetChunkRequest) : Int :=
  if req.offset = 0 then req.header.getD 0 else req.offset

/-- The request `DownloadChunkTo` makes. -/
def chunkRequest (h : Str) (offset : Int) : GetChunkRequest :=
  ⟨h, offset, if offset > 0 then some offset else none⟩

/-- The read loop: a frame for each read that yields something. -/
def sendFrames (totalSize : Int) : (currentOffset : Int) → List Bytes → List Frame
  | _, [] => []
  | currentOffset, b :: bs =>
      if b.length > 0 then
        ⟨totalSize, currentOffset, b, decide (currentOffset + b.length ≥ totalSize)⟩ ::
          sendFrames totalSize (currentOffset + b.length) bs
      else sendFrames totalSize currentOffset bs

/-- `GetChunk`.  `slot` is the error of `acquireUpload`, `store` what
`GetChunkReader` opens, and `reads` the reads that some bytes are delivered in
and the error they end in, if it is not the end of the file. -/
def getChunk (slot : Option Status) (store : Str → Except Str Bytes)
    (reads : Bytes → List Bytes × Option Str) (req : GetChunkRequest) :
    List Frame × Option Status :=
  match slot with
  | some st => ([], some st)
  | none =>
    if req.chunkHash = [] then ([], some ⟨.invalidArgument, str "chunk_hash is required"⟩)
    else match store req.chunkHash with
      | .error e =>
          ([], some ⟨.notFound,
            str "chunk " ++ req.chunkHash ++ str " not found in local cache: " ++ e⟩)
      | .ok content =>
          if req.start < 0 then ([], some ⟨.invalidArgument, str "offset must be >= 0"⟩)
          else if req.start > content.length then
            ([], some ⟨.outOfRange, str "offset " ++ str (toString req.start) ++
              str " past chunk size " ++ str (toString content.length)⟩)
          else
            let (pieces, err) := reads (content.drop req.start.toNat)
            (sendFrames content.length req.start pieces,
              err.map fun e => ⟨.internal, str "error reading chunk file: " ++ e⟩)

/-- What reaches the client when nothing is lost on the way. -/
def asReply (r : List Frame × Option Status) : PeerReply :=
  .stream r.1 (match r.2 with
    | none => .eof
    | some st => .failed st.remoteErr)

/-! ## Frames of one chunk -/

/-- The frames are what the server sends of `content` from `offset` on, up to some
point. -/
def sentFrom (content : Bytes) (offset : Int) (frames : List Frame) : Bool :=
  decide (frames = sendFrames content.length offset (frames.map Frame.payload)) &&
    (frames.map Frame.payload).flatten.isPrefixOf (content.drop offset.toNat)

/-- A reply of a server that holds `content`: all that was asked for, or, if the
transfer is cut off, an error after the first frames of it or before them. -/
def honestReply (content : Bytes) (cut : Bool) (offset : Int) : PeerReply → Bool
  | .noClient _ | .rpcFailed _ => cut
  | .stream frames .eof =>
      sentFrom content offset frames &&
        decide ((frames.map Frame.payload).flatten = content.drop offset.toNat)
  | .stream frames (.failed _) => cut && sentFrom content offset frames

/-- The server has the chunk and reads all of its file, in any pieces. -/
structure Serves (store : Str → Except Str Bytes) (cuts : Bytes → List Bytes × Option Str)
    (h : Str) (content : Bytes) : Prop where
  named : h ≠ []
  opens : store h = .ok content
  reads : ∀ b, (cuts b).1.flatten = b ∧ (cuts b).2 = none

variable {store : Str → Except Str Bytes} {cuts : Bytes → List Bytes × Option Str} {h : Str}

section Frames

variable {content : Bytes} {offset total : Int} {reads : List Bytes}

/-- Empty reads send nothing. -/
theorem sendFrames_payloads (total offset : Int) (reads : List Bytes) :
    ((sendFrames total offset reads).map Frame.payload).flatten = reads.flatten ∧
      sendFrames total offset ((sendFrames total offset reads).map Frame.payload) =
        sendFrames total offset reads := by
  induction reads generalizing offset with
  | nil => exact ⟨rfl, rfl⟩
  | cons b bs ih =>
      by_cases hb : b.length > 0
      · obtain ⟨hflat, hsame⟩ := ih (offset + b.length)
        simp only [sendFrames, if_pos hb, List.map_cons, List.flatten_cons, hflat, hsame,
          and_self]
      · obtain ⟨hflat, hsame⟩ := ih offset
        have hnil : b = [] := List.eq_nil_of_length_eq_zero (by omega)
        have hskip : sendFrames total offset (b :: bs) = sendFrames total offset bs := by
          simp only [sendFrames, if_neg hb]
        rw [hskip, hnil, List.flatten_cons, List.nil_append]
        exact ⟨hflat, hsame⟩

/-- A first part of the frames is what a first part of the reads would send. -/
theorem sendFrames_take (total offset : Int) (reads : List Bytes) (n : Nat) :
    ∃ reads', reads'.flatten <+: reads.flatten ∧
      (sendFrames total offset reads).take n = sendFrames total offset reads' := by
  induction reads generalizing offset n with
  | nil => exact ⟨[], by simp [sendFrames]⟩
  | cons b bs ih =>
      by_cases hb : b.length > 0
      · cases n with
        | zero => exact ⟨[], List.nil_prefix, rfl⟩
        | succ n =>
            obtain ⟨reads', hpre, htake⟩ := ih (offset + b.length) n
            exact ⟨b :: reads', by simpa using hpre, by simp [sendFrames, hb, htake]⟩
      · obtain ⟨reads', hpre, htake⟩ := ih offset n
        have hnil : b = [] := List.eq_nil_of_length_eq_zero (by omega)
        exact ⟨reads', by simpa [hnil] using hpre, by simp [sendFrames, hb, htake]⟩

theorem sentFrom_sendFrames (h : reads.flatten <+: content.drop offset.toNat) :
    sentFrom content offset (sendFrames content.length offset reads) = true := by
  obtain ⟨hflat, hsame⟩ := sendFrames_payloads content.length offset reads
  simp only [sentFrom, hsame, hflat, decide_true, Bool.true_and]
  exact List.isPrefixOf_iff_prefix.mpr h

theorem honestReply_sendFrames (cut : Bool) (h : reads.flatten = content.drop offset.toNat) :
    honestReply content cut offset
      (.stream (sendFrames content.length offset reads) .eof) = true := by
  have hsent := sentFrom_sendFrames ⟨[], by rw [List.append_nil, h]⟩
  simp only [honestReply, hsent, (sendFrames_payloads content.length offset reads).1, h,
    decide_true, Bool.and_self]

theorem getChunk_eq (hs : Serves store cuts h content) (h0 : 0 ≤ offset)
    (hle : offset ≤ content.length) : getChunk none store cuts (chunkRequest h offset) =
      (sendFrames content.length offset (cuts (content.drop offset.toNat)).1, none) := by
  have hstart : (chunkRequest h offset).start = offset := by
    by_cases hz : offset = 0 <;> simp [chunkRequest, GetChunkRequest.start, hz]
  have hreq : (chunkRequest h offset).chunkHash = h := rfl
  simp only [getChunk, hreq, if_neg hs.named, hs.opens, hstart, if_neg (Int.not_lt.mpr h0),
    if_neg (Int.not_lt.mpr hle), (hs.reads _).2, Option.map_none]

/-- The server's reply to a download that resumes inside the chunk is such a
reply, however the file is read. -/
theorem honestReply_getChunk (hs : Serves store cuts h content) (h0 : 0 ≤ offset)
    (hle : offset ≤ content.length) : honestReply content false offset
      (asReply (getChunk none store cuts (chunkRequest h offset))) = true := by
  rw [getChunk_eq hs h0 hle]
  exact honestReply_sendFrames false (hs.reads _).1

/-- The same reply, cut off after any number of frames. -/
theorem honestReply_take (h : reads.flatten <+: content.drop offset.toNat) (n : Nat)
    (e : RemoteErr) :
    honestReply content true offset
      (.stream ((sendFrames content.length offset reads).take n) (.failed e)) = true := by
  obtain ⟨reads', hpre, htake⟩ := sendFrames_take content.length offset reads n
  rw [htake]
  exact sentFrom_sendFrames (hpre.trans h)

end Frames

/-! ## The client -/

/-- What a download of the bytes behind `offset` has written and returned: all of
them, or some and an error. -/
structure Sent (content : Bytes) (offset : Int) (tr : Transfer) : Prop where
  blocks : tr.blocks.flatten <+: content.drop offset.toNat
  complete : tr.err = none → tr.blocks.flatten = content.drop offset.toNat ∧ tr.total ≤ content.length

section Receive

variable {content : Bytes} {offset : Int} {addr : Str} {fin : StreamEnd}

theorem flatten_push (payload : Bytes) (t : Transfer) :
    (Transfer.push payload t).blocks.flatten = payload ++ t.blocks.flatten ∧
      (Transfer.push payload t).err = t.err ∧ (Transfer.push payload t).total = t.total := by
  unfold Transfer.push
  split
  · exact ⟨rfl, rfl, rfl⟩
  · rename_i hlen
    have hnil : payload = [] := List.eq_nil_of_length_eq_zero (by omega)
    simp [hnil]

/-- The receive loop on frames from the chunk's own server.  They start at or
behind the offset, so none is skipped. -/
theorem receive_sendFrames {cur total skipped downloaded size : Int} {reads : List Bytes}
    (hcur : offset ≤ cur) (hfits : cur + reads.flatten.length ≤ size) (htotal : total ≤ size)
    {tr : Transfer}
    (htr : receive addr offset fin (sendFrames size cur reads) total skipped downloaded = tr) :
    tr.blocks.flatten = reads.flatten ∧ (fin = .eof → tr.err = none) ∧
      (tr.err = none → tr.total ≤ size ∧ (fin = .eof ∨ cur + reads.flatten.length = size)) := by
  induction reads generalizing cur total skipped downloaded tr with
  | nil =>
      subst htr
      cases fin with
      | eof => exact ⟨rfl, fun _ => rfl, fun _ => ⟨htotal, .inl rfl⟩⟩
      | failed e => exact ⟨rfl, fun h => by contradiction, fun h => by contradiction⟩
  | cons b bs ih =>
      rw [List.flatten_cons] at hfits ⊢
      by_cases hb : b.length > 0
      · have hlen : cur + (b.length : Int) + bs.flatten.length ≤ size := by
          rw [List.length_append] at hfits
          omega
        have hskip : ¬ (offset > 0 ∧ cur = 0 ∧ skipped < offset) := by omega
        have hsize : (if size > 0 then size else total) ≤ size := by split <;> omega
        simp only [sendFrames, if_pos hb, receive, if_neg hskip] at htr
        obtain ⟨hblocks, herr, htot⟩ := flatten_push b
          (if decide (cur + (b.length : Int) ≥ size) = true then
            ⟨[], if size > 0 then size else total, none⟩
          else receive addr offset fin (sendFrames size (cur + b.length) bs)
            (if size > 0 then size else total) skipped (downloaded + b.length))
        rw [htr] at hblocks herr htot
        by_cases hlast : cur + (b.length : Int) ≥ size
        · -- the frame that reaches the end: nothing follows it
          have hrest : bs.flatten = [] := List.eq_nil_of_length_eq_zero (by omega)
          simp only [hlast, decide_true, if_true] at hblocks herr htot
          refine ⟨by rw [hblocks, hrest]; rfl, fun _ => herr, fun _ => ⟨htot ▸ hsize, .inr ?_⟩⟩
          rw [hrest, List.append_nil]
          omega
        · simp only [hlast, decide_false, Bool.false_eq_true, if_false] at hblocks herr htot
          obtain ⟨ihblocks, iheof, ihnone⟩ := ih (by omega) hlen hsize rfl
          refine ⟨by rw [hblocks, ihblocks], fun hfin => herr.trans (iheof hfin), fun hnone => ?_⟩
          obtain ⟨hle, hend⟩ := ihnone (herr.symm.trans hnone)
          refine ⟨htot ▸ hle, hend.imp_right fun h => ?_⟩
          rw [List.length_append]
          omega
      · have hnil : b = [] := List.eq_nil_of_length_eq_zero (by omega)
        simp only [sendFrames, if_neg hb] at htr
        rw [hnil, List.nil_append] at hfits ⊢
        exact ih hcur hfits htotal htr

/-- A download from a server that holds the chunk. -/
theorem downloadChunkTo_sent {cut : Bool} {reply : PeerReply} (addr : Str) (h0 : 0 ≤ offset)
    (hle : offset ≤ content.length) (h : honestReply content cut offset reply = true) :
    Sent content offset (downloadChunkTo addr offset reply) ∧
      (cut = false → (downloadChunkTo addr offset reply).err = none) := by
  cases reply with
  | noClient e | rpcFailed e =>
      exact ⟨⟨List.nil_prefix, fun h => by contradiction⟩, fun hc => by simp [honestReply, hc] at h⟩
  | stream frames fin =>
      have hsent : sentFrom content offset frames = true := by
        cases fin <;> simp_all [honestReply]
      simp only [sentFrom, Bool.and_eq_true, decide_eq_true_eq, List.isPrefixOf_iff_prefix] at hsent
      obtain ⟨hframes, hpre⟩ := hsent
      have hlen := hpre.length_le
      rw [List.length_drop] at hlen
      have hfits : offset + ((frames.map Frame.payload).flatten.length : Int) ≤ content.length := by
        omega
      have htr : receive addr offset fin
          (sendFrames content.length offset (frames.map Frame.payload)) 0 0 0 =
            downloadChunkTo addr offset (.stream frames fin) := by
        rw [← hframes, downloadChunkTo]
      obtain ⟨hblocks, heof, hnone⟩ :=
        receive_sendFrames (Int.le_refl offset) hfits (Int.natCast_nonneg _) htr
      refine ⟨⟨hblocks ▸ hpre, fun herr => ?_⟩, fun hc => ?_⟩
      · obtain ⟨htotal, hend⟩ := hnone herr
        refine ⟨?_, htotal⟩
        rw [hblocks]
        cases hend with
        | inl hfin =>
            subst hfin
            simp only [honestReply, Bool.and_eq_true, decide_eq_true_eq] at h
            exact h.2
        | inr hall =>
            refine hpre.eq_of_length ?_
            rw [List.length_drop]
            omega
      · apply heof
        cases fin with
        | eof => rfl
        | failed e => simp [honestReply, hc] at h

/-- **Breaking off and resuming.**  Two downloads from `GetChunk`, the first one broken off after
any number of frames and the second one from the offset it has come to, write the rest of the
chunk. -/
theorem download_resumed (addr : Str) {k : Nat} (hs : Serves store cuts h content)
    (hle : k ≤ content.length) (n : Nat) (e : RemoteErr) :
    let first := (downloadChunkTo addr k (.stream
      ((getChunk none store cuts (chunkRequest h k)).1.take n) (.failed e))).blocks.flatten
    let offset : Int := (k + first.length : Nat)
    let rest := downloadChunkTo addr offset
      (asReply (getChunk none store cuts (chunkRequest h offset)))
    first ++ rest.blocks.flatten = content.drop k ∧ rest.err = none := by
  intro first offset rest
  obtain ⟨tail, htail⟩ : first <+: content.drop k := by
    refine (@downloadChunkTo_sent _ k true _ addr (by omega) (by omega) ?_).1.blocks
    rw [getChunk_eq hs (by omega) (by omega)]
    exact honestReply_take (by rw [(hs.reads _).1]) n e
  have hsum := congrArg List.length htail
  rw [List.length_append, List.length_drop] at hsum
  have hlen : offset ≤ content.length := by omega
  obtain ⟨hsent, hok⟩ := downloadChunkTo_sent addr (by omega) hlen
    (honestReply_getChunk hs (by omega) hlen)
  refine ⟨?_, hok rfl⟩
  rw [(hsent.complete (hok rfl)).1, Int.toNat_natCast, ← List.drop_drop, ← htail, List.drop_left]

end Receive

/-- Broken off after the first of two frames. -/
theorem download_resumed_secondFrame : (downloadChunkTo [] 2 (asReply (getChunk none
    (fun _ => .ok [1, 2, 3]) (fun b => ([b.take 2, b.drop 2], none)) (chunkRequest [7] 2)))).err =
      none :=
  (@download_resumed (fun _ => .ok [1, 2, 3]) (fun b => ([b.take 2, b.drop 2], none)) [7] [1, 2, 3]
    [] 0 ⟨by decide, rfl, by simp⟩ (by decide) 1 ⟨false, false, .other [], []⟩).2

/-! ## A server that ignores the offset -/

/-- All of a chunk, from `position` on, in frames with their true offsets; the last
one says that it is. -/
def wholeFrames (totalSize : Int) : (position : Int) → List Bytes → List Frame
  | _, [] => []
  | position, b :: bs =>
      ⟨totalSize, position, b, bs.isEmpty⟩ :: wholeFrames totalSize (position + b.length) bs

/-- The length of the first frame that is not empty. -/
def firstLength (pieces : List Bytes) : Nat := ((pieces.find? fun b => !b.isEmpty).getD []).length

section Whole

variable {addr : Str} {fin : StreamEnd} {offset size : Int}

/-- Once something has been skipped or written, a frame with its true offset is
written as it is. -/
theorem receive_wholeFrames {position total skipped downloaded : Int} (pieces : List Bytes)
    (hpos : 0 ≤ position) (h : 0 < position ∨ offset ≤ skipped) :
    (receive addr offset fin (wholeFrames size position pieces) total skipped
      downloaded).blocks.flatten = pieces.flatten := by
  induction pieces generalizing position total downloaded with
  | nil => cases fin <;> rfl
  | cons b bs ih =>
      have hkeep : ¬ (offset > 0 ∧ position = 0 ∧ skipped < offset) := by omega
      simp only [wholeFrames, receive, if_neg hkeep]
      rw [(flatten_push _ _).1, List.flatten_cons]
      cases bs with
      | nil => rfl
      | cons c cs => rw [List.isEmpty_cons, if_neg Bool.false_ne_true, ih (by omega) (by omega)]

/-- What is skipped ends with the first frame that is not empty, since its successor
has another offset. -/
theorem receive_fromZero {total downloaded : Int} (hoffset : 0 < offset) (pieces : List Bytes) :
    (receive addr offset fin (wholeFrames size 0 pieces) total 0 downloaded).blocks.flatten =
      pieces.flatten.drop (min offset.toNat (firstLength pieces)) := by
  induction pieces generalizing total downloaded with
  | nil => cases fin <;> simp [wholeFrames, receive]
  | cons b bs ih =>
      simp only [wholeFrames, receive, gt_iff_lt, hoffset, and_self, if_true, Int.sub_zero,
        List.flatten_cons]
      by_cases hb : b = []
      · have hfirst : firstLength (b :: bs) = firstLength bs := by simp [firstLength, hb]
        rw [hfirst, hb, List.nil_append]
        have hnone : ((List.length ([] : Bytes) : Nat) : Int) ≤ offset := by
          rw [List.length_nil]
          omega
        rw [if_pos hnone]
        cases bs with
        | nil => simp
        | cons c cs =>
            exact ih
      · have hlen : 0 < b.length := List.length_pos_of_ne_nil hb
        have hfirst : firstLength (b :: bs) = b.length := by simp [firstLength, hb]
        rw [hfirst]
        by_cases hle : (b.length : Int) ≤ offset
        · rw [if_pos hle, Nat.min_eq_right (by omega), List.drop_left]
          cases bs with
          | nil => rfl
          | cons c cs =>
              exact receive_wholeFrames _ (by omega) (.inl (by omega))
        · rw [if_neg hle, Nat.min_eq_left (by omega), (flatten_push _ _).1,
            List.drop_append_of_le_length (by omega)]
          congr 1
          cases bs with
          | nil => rfl
          | cons c cs =>
              exact receive_wholeFrames _ (by omega) (.inl (by omega))

end Whole

/-- **Resuming against a server that sends the whole chunk.**  The bytes behind the
offset are written exactly if the offset lies in the first frame. -/
theorem resume_whole_iff (addr : Str) (content : Bytes) (k : Nat) (pieces : List Bytes)
    (size : Int) (fin : StreamEnd) (hk : 0 < k) (hle : k ≤ content.length)
    (hpieces : pieces.flatten = content) :
    (downloadChunkTo addr k (.stream (wholeFrames size 0 pieces) fin)).blocks.flatten =
        content.drop k ↔ k ≤ firstLength pieces := by
  have hwritten : (downloadChunkTo addr k
      (.stream (wholeFrames size 0 pieces) fin)).blocks.flatten =
        content.drop (min k (firstLength pieces)) := by
    rw [downloadChunkTo, receive_fromZero (by omega), hpieces, Int.toNat_natCast]
  rw [hwritten]
  constructor
  · intro heq
    have hlen := congrArg List.length heq
    rw [List.length_drop, List.length_drop] at hlen
    omega
  · intro hfirst
    rw [Nat.min_eq_left hfirst]

theorem resume_whole_oneFrame :
    (downloadChunkTo (str "p") ((1 : Nat) : Int) (.stream (wholeFrames 3 0 [[1, 2], [3]])
      .eof)).blocks.flatten = [2, 3] :=
  (resume_whole_iff (str "p") [1, 2, 3] 1 [[1, 2], [3]] 3 .eof (by decide) (by decide) rfl).mpr
    (by decide)

/-- An offset in the second frame: its first byte is written again. -/
theorem resume_whole_secondFrame :
    (downloadChunkTo (str "p") 2 (.stream (wholeFrames 3 0 [[1], [2, 3]]) .eof)).blocks.flatten =
      [2, 3] ∧ ([1, 2, 3] : Bytes).drop 2 = [3] := by
  decide

end Spider

import Spider.Strings

/-!
# Spider.Peer.Client

What a chunk download from a peer hands to its writer: the receive loop of
`DownloadChunkTo` (`pkg/peer/client.go`).

A peer's behaviour is a `PeerReply`: no connection, a failed call, or any
frames followed by the end of the stream or an error.  The loop turns it into
a `Transfer`: the payload blocks written to the pipe, the total size returned
and the error, if any.  The writer is a pipe whose reader is never closed, so
its `Write` has no error of its own.
-/

namespace Spider

/-- The concrete Go type of an error value, as `sync/atomic.Value` compares
it. -/
inductive GoType where
  /-- `*fmt.wrapError` -/
  | wrapError
  /-- `*errors.errorString` -/
  | errorString
  /-- `context.deadlineExceededError` -/
  | deadlineExceeded
  /-- `*fs.PathError` -/
  | pathError
  | other (name : Str)
  deriving DecidableEq

/-- An error a peer or the origin answered with. -/
structure RemoteErr where
  /-- `errors.Is(err, cache.ErrHashMismatch)` -/
  hashMismatch : Bool
  /-- `status.Code(err) == codes.OutOfRange` -/
  outOfRange : Bool
  goType : GoType
  msg : Str
  deriving DecidableEq

/-- `fmt.Errorf(text + "%w", e)`. -/
def RemoteErr.wrap (e : RemoteErr) (text : Str) : RemoteErr :=
  { e with goType := .wrapError, msg := text ++ e.msg }

/-- `containsCorrupt`. -/
def containsCorrupt (e : RemoteErr) : Bool :=
  e.hashMismatch || e.outOfRange || contains e.msg (str "corrupt") ||
    contains e.msg (str "integrity")

/-- One message of a `GetChunk` stream. -/
structure Frame where
  totalSize : Int
  offset : Int
  payload : Bytes
  isEof : Bool
  deriving DecidableEq

/-- How a stream ends after its frames. -/
inductive StreamEnd where
  | eof
  | failed (e : RemoteErr)
  deriving DecidableEq

/-- What a peer does with a `GetChunk` request. -/
inductive PeerReply where
  | noClient (e : RemoteErr)
  | rpcFailed (e : RemoteErr)
  | stream (frames : List Frame) (fin : StreamEnd)
  deriving DecidableEq

/-- What a download writes and returns. -/
structure Transfer where
  blocks : List Bytes
  total : Int
  err : Option RemoteErr
  deriving DecidableEq

/-- A payload written before the rest of a transfer; nothing is written for an
empty one. -/
def Transfer.push (payload : Bytes) (t : Transfer) : Transfer :=
  if payload.length > 0 then { t with blocks := payload :: t.blocks } else t

/-- The receive loop.  A server that ignores the requested offset sends frames
of offset 0, whose bytes are skipped up to the offset. -/
def receive (peerAddress : Str) (offset : Int) (fin : StreamEnd) :
    List Frame → (totalSize skipped downloaded : Int) → Transfer
  | [], totalSize, _, downloaded =>
      match fin with
      | .eof => ⟨[], totalSize, none⟩
      | .failed e =>
          ⟨[], downloaded,
            some (e.wrap (str "error reading chunk stream from " ++ peerAddress ++ str ": "))⟩
  | f :: fs, totalSize, skipped, downloaded =>
      let totalSize := if f.totalSize > 0 then f.totalSize else totalSize
      let write (payload : Bytes) (skipped : Int) : Transfer :=
        Transfer.push payload
          (if f.isEof then ⟨[], totalSize, none⟩
           else receive peerAddress offset fin fs totalSize skipped (downloaded + payload.length))
      if offset > 0 ∧ f.offset = 0 ∧ skipped < offset then
        let need := offset - skipped
        if f.payload.length ≤ need then
          if f.isEof then ⟨[], totalSize, none⟩
          else receive peerAddress offset fin fs totalSize (skipped + f.payload.length) downloaded
        else write (f.payload.drop need.toNat) offset
      else write f.payload skipped

/-- `DownloadChunkTo`. -/
def downloadChunkTo (peerAddress : Str) (offset : Int) : PeerReply → Transfer
  | .noClient e => ⟨[], 0, some e⟩
  | .rpcFailed e => ⟨[], 0, some (e.wrap (str "peer GetChunk RPC failed: "))⟩
  | .stream frames fin => receive peerAddress offset fin frames 0 0 0

example : downloadChunkTo (str "p") 1
    (.stream [⟨3, 0, [1, 2], false⟩, ⟨0, 2, [3], true⟩] .eof) = ⟨[[2], [3]], 3, none⟩ := by decide

/-! ## Reading from the pipe -/

/-- The buffer of `io.Copy`. -/
def copyBuffer : Nat := 32768

/-- The reads that take one written block out of the pipe, a buffer at a time;
the block's length is enough rounds. -/
def blockReads (block : Bytes) : List Bytes := go block.length block
where
  go : Nat → Bytes → List Bytes
    | 0, _ => []
    | n + 1, b => if b = [] then [] else b.take copyBuffer :: go n (b.drop copyBuffer)

/-- What `io.Copy` reads from the pipe. -/
def copyReads (blocks : List Bytes) : List Bytes := blocks.flatMap blockReads

theorem flatten_blockReads_go {n : Nat} {b : Bytes} (h : b.length ≤ n) :
    (blockReads.go n b).flatten = b := by
  induction n generalizing b with
  | zero =>
      rw [blockReads.go, List.flatten_nil]
      exact (List.length_eq_zero_iff.mp (Nat.le_zero.mp h)).symm
  | succ n ih =>
      rw [blockReads.go]
      by_cases hb : b = []
      · rw [if_pos hb, hb, List.flatten_nil]
      · have hpos : 0 < b.length := List.length_pos_iff.mpr hb
        have hrest : (b.drop copyBuffer).length ≤ n := by
          rw [List.length_drop, copyBuffer]
          omega
        rw [if_neg hb, List.flatten_cons, ih hrest, List.take_append_drop]

/-- The reads of a transfer are its bytes in order. -/
theorem flatten_copyReads (blocks : List Bytes) : (copyReads blocks).flatten = blocks.flatten := by
  induction blocks with
  | nil => rfl
  | cons b bs ih =>
      have hb : (blockReads b).flatten = b := flatten_blockReads_go (Nat.le_refl _)
      rw [copyReads, List.flatMap_cons, List.flatten_append, hb, List.flatten_cons]
      exact congrArg (b ++ ·) ih

end Spider

import Spider.Cache.Store

/-!
# Spider.Engine.Transfer

Fetching one chunk (`pkg/engine/engine.go`): `downloadFromPeer`,
`downloadFromOrigin` and `fetchChunk`.

The downloader goroutine and the pipe appear as the `Transfer` the peer or the
origin makes, read by `AppendPartial`; waiting for the goroutine blocks for
ever if something it has to write stays unread (`Spider.Engine.Pipe` has the
two processes and the pipe between them).
-/

namespace Spider

open Conc

/-- The error of a result, if it is one. -/
def errorOf {α : Type} : Except Err α → Option Err
  | .error e => some e
  | .ok _ => none

/-- `errors.Is(err, cache.ErrHashMismatch)` for an error of `CommitPartial`. -/
def Err.isHashMismatch : Err → Bool
  | .hashMismatch _ _ => true
  | _ => false

/-- The end of both downloads once the transfer itself has succeeded: size
check, commit, and the byte count to report.  `fail` wraps a commit error. -/
def finishTransfer (H : Sha256) (onCommit : OnCommit) (h : Str) (total : Int)
    (fail : Err → Err) : NodeM (Except Err Int) := do
  let got ← partialSize h
  if total > 0 ∧ got < total then pure (.error (.incomplete got total))
  else
    match ← commitPartial H onCommit h with
    | some e => do
        if e.isHashMismatch then
          let _ ← discardPartial h
          pure (.error (fail e))
        else pure (.error (fail e))
    | none => pure (.ok (if total ≤ 0 then got else total))

/-- The size a download resumes from; a partial that is too long is discarded. -/
def resumeFrom (h : Str) (size : Int) (tooLong : Bool) : NodeM Int :=
  if tooLong then do
    let _ ← discardPartial h
    pure 0
  else pure size

/-- `downloadFromPeer`. -/
def downloadFromPeer (H : Sha256) (onCommit : OnCommit) (addr : Str) (work : WorkItem) :
    NodeM (Except Err Int) :=
  withHashLock work.hash errorOf do
    let size ← partialSize work.hash
    let offset ← resumeFrom work.hash size (decide (work.size.toInt > 0 ∧ size > work.size.toInt))
    let reply ← onNet (.openStream addr work.hash offset)
    let tr := downloadChunkTo addr offset reply
    let (appendErr, unread) ← appendPartial work.hash (copyReads tr.blocks) tr.err
    let () ← onNet (.joinDownloader unread)
    match tr.err with
    | some e => do
        if containsCorrupt e || e.hashMismatch then
          let _ ← discardPartial work.hash
          pure (.error (.remote e))
        else pure (.error (.remote e))
    | none =>
      match appendErr with
      | some e => pure (.error e)
      | none => finishTransfer H onCommit work.hash tr.total id

/-- The commit error of an origin download. -/
def originCommitErr (h : Str) (e : Err) : Err :=
  if e.isHashMismatch then .integrity h e else .commitFailed h e

/-- `downloadFromOrigin`, between acquiring and releasing the semaphore. -/
def readFromOrigin (H : Sha256) (onCommit : OnCommit) (work : WorkItem) : NodeM (Except Err Int) :=
  withHashLock work.hash errorOf do
    let size ← partialSize work.hash
    let had ← resumeFrom work.hash size (decide (work.size.toInt - size < 0))
    let reply ← onNet (.readOrigin work.filePath (work.offset.toInt + had) (work.size.toInt - had))
    let (appendErr, unread) ← appendPartial work.hash (copyReads reply.blocks) reply.err
    let () ← onNet (.joinDownloader unread)
    match reply.err with
    | some e => pure (.error (.remote e))
    | none =>
      match appendErr with
      | some e => pure (.error e)
      | none => finishTransfer H onCommit work.hash reply.total (originCommitErr work.hash)

/-! ### One shape for both -/

/-- Where a transfer comes from. -/
inductive ChunkSource where
  | peer (addr : Str)
  | origin
  deriving DecidableEq

/-- The peer that is asked. -/
def ChunkSource.addr : ChunkSource → Option Str
  | .peer addr => some addr
  | .origin => none

/-- Whether what is there is too long for the chunk. -/
def ChunkSource.tooLong (src : ChunkSource) (work : WorkItem) (size : Int) : Bool :=
  match src with
  | .peer _ => decide (work.size.toInt > 0 ∧ size > work.size.toInt)
  | .origin => decide (work.size.toInt - size < 0)

/-- The request for the rest of the chunk. -/
def ChunkSource.request (src : ChunkSource) (work : WorkItem) (offset : Int) : NodeM Transfer :=
  match src with
  | .peer addr => do
      let reply ← onNet (.openStream addr work.hash offset)
      pure (downloadChunkTo addr offset reply)
  | .origin => do
      let reply ← onNet
        (.readOrigin work.filePath (work.offset.toInt + offset) (work.size.toInt - offset))
      pure ⟨reply.blocks, reply.total, reply.err⟩

variable {work : WorkItem}

/-- The transfer errors after which nothing is kept. -/
def ChunkSource.spoils (src : ChunkSource) (e : RemoteErr) : Bool :=
  match src with
  | .peer _ => containsCorrupt e || e.hashMismatch
  | .origin => false

def ChunkSource.commitErr (src : ChunkSource) (h : Str) : Err → Err :=
  match src with
  | .peer _ => id
  | .origin => originCommitErr h

/-- What both downloads do under the hash lock. -/
def transferSection (H : Sha256) (onCommit : OnCommit) (src : ChunkSource) (work : WorkItem) :
    NodeM (Except Err Int) := do
  let size ← partialSize work.hash
  let offset ← resumeFrom work.hash size (src.tooLong work size)
  let tr ← src.request work offset
  let (appendErr, unread) ← appendPartial work.hash (copyReads tr.blocks) tr.err
  let () ← onNet (.joinDownloader unread)
  match tr.err with
  | some e => do
      if src.spoils e then
        let _ ← discardPartial work.hash
        pure (.error (.remote e))
      else pure (.error (.remote e))
  | none =>
    match appendErr with
    | some e => pure (.error e)
    | none => finishTransfer H onCommit work.hash tr.total (src.commitErr work.hash)

/-- A download, for the origin without the semaphore. -/
def ChunkSource.download (src : ChunkSource) (H : Sha256) (onCommit : OnCommit) (work : WorkItem) :
    NodeM (Except Err Int) :=
  withHashLock work.hash errorOf (transferSection H onCommit src work)

theorem downloadFromPeer_eq {H : Sha256} {onCommit : OnCommit} {addr : Str} :
    downloadFromPeer H onCommit addr work = (ChunkSource.peer addr).download H onCommit work := rfl

theorem readFromOrigin_eq {H : Sha256} {onCommit : OnCommit} :
    readFromOrigin H onCommit work = ChunkSource.origin.download H onCommit work := rfl

/-! ### The origin and the fetch -/

/-- `downloadFromOrigin`. -/
def downloadFromOrigin (H : Sha256) (onCommit : OnCommit) (work : WorkItem) :
    NodeM (Except Err Int) := do
  match ← onNet .acquireOrigin with
  | some deadline => pure (.error (.ctx deadline))
  | none => do
      let res ← readFromOrigin H onCommit work
      let () ← onNet .releaseOrigin
      pure res

/-- The candidates of one attempt, in order, until one delivers. -/
def tryPeers (H : Sha256) (onCommit : OnCommit) (work : WorkItem) : List Str → NodeM (Option Int)
  | [] => pure none
  | addr :: addrs =>
      if addr = [] then tryPeers H onCommit work addrs
      else do
        if ← onNet (.beginTransfer addr) then do
          match ← downloadFromPeer H onCommit addr work with
          | .ok n => pure (some n)
          | .error _ => tryPeers H onCommit work addrs
        else tryPeers H onCommit work addrs

/-- The origin fallback. -/
def fetchFromOrigin (H : Sha256) (onCommit : OnCommit) (hasOrigin : Bool) (work : WorkItem) :
    NodeM (Except Err (Bool × Int)) :=
  if !hasOrigin then pure (.error (.noSource work.hash))
  else do
    match ← downloadFromOrigin H onCommit work with
    | .error e => pure (.error e)
    | .ok n => pure (.ok (false, n))

/-- The attempts that are left, then the origin. -/
def fetchAttempts (H : Sha256) (onCommit : OnCommit) (hasOrigin : Bool) (work : WorkItem) :
    Nat → NodeM (Except Err (Bool × Int))
  | 0 => fetchFromOrigin H onCommit hasOrigin work
  | left + 1 => do
      let cands ← onNet (.candidates work.hash)
      match ← tryPeers H onCommit work cands with
      | some n => pure (.ok (true, n))
      | none =>
        if left = 0 then fetchAttempts H onCommit hasOrigin work left
        else do
          match ← onNet .backoff with
          | some deadline => pure (.error (.ctx deadline))
          | none => fetchAttempts H onCommit hasOrigin work left

/-- `fetchChunk`: whether a peer delivered, and the byte count. -/
def fetchChunk (H : Sha256) (onCommit : OnCommit) (retryAttempts : Nat) (hasOrigin : Bool)
    (work : WorkItem) : NodeM (Except Err (Bool × Int)) :=
  fetchAttempts H onCommit hasOrigin work retryAttempts

end Spider

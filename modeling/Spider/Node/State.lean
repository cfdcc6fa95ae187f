import Spider.Lib.Prog
import Spider.Lib.Reader
import Spider.Peer.Client
import Spider.SafeJoin

/-!
# Spider.Node.State

One node: its chunk store, its quota index, a running sync job, the network
and the destination tree, and the system calls the code makes on them.

Every command below is one atomic step of the code (a system call, a mutex or
channel operation, a message) and its response is chosen by the environment
among those possible in the current state (`nodeSystem`); disk errors, peers
and the scheduler are responses.  The programs of the later modules are built
from these commands alone.

Files of the store are keyed by hash string, the index is keyed by hash and
artifact id, the destination by cleaned path; there are no links.
-/

namespace Spider

open Conc

/-- Threads of a node. -/
abbrev Tid := Nat

/-! ## Errors -/

/-- The errors of the store, the engine and the materializer, with the values
their texts print. -/
inductive Err where
  /-- `ctx.Err()` -/
  | ctx (deadline : Bool)
  /-- invalid chunk hash format -/
  | invalidHashName
  | removePartial (msg : Str)
  | mkdirPartial (msg : Str)
  /-- open partial: %w -/
  | openPartial (msg : Str)
  /-- write partial: %w -/
  | writePartial (msg : Str)
  /-- write partial: %w, an error of the reader -/
  | readStream (e : RemoteErr)
  /-- sync partial: %w -/
  | syncPartial (msg : Str)
  | closePartial (msg : Str)
  /-- open partial for verify: %w -/
  | openVerify (msg : Str)
  /-- hash partial: %w -/
  | hashPartial (msg : Str)
  /-- chunk content hash mismatch: expected %s, computed %s -/
  | hashMismatch (expected computed : Str)
  /-- failed to create shard directory: %w -/
  | mkdirShard (msg : Str)
  /-- failed to move chunk to cache: %w -/
  | rename (msg : Str)
  /-- chunk partial is incomplete: have %d want %d -/
  | incomplete (got want : Int)
  /-- The error of a peer or the origin. -/
  | remote (e : RemoteErr)
  /-- no peer available for chunk %s and no origin configured -/
  | noSource (hash : Str)
  /-- integrity check failed for chunk %s: %w -/
  | integrity (hash : Str) (cause : Err)
  /-- failed to commit chunk %s to cache: %w -/
  | commitFailed (hash : Str) (cause : Err)
  /-- invalid manifest: %w -/
  | invalidManifest (e : ValidateError)
  /-- failed to create destination directory %s: %w -/
  | mkdirDest (dir msg : Str)
  | join (e : JoinError)
  /-- failed to create directory for %s: %w -/
  | mkdirParent (path msg : Str)
  /-- failed to open target file %s: %w -/
  | openTarget (target msg : Str)
  /-- chunk not found in cache -/
  | chunkNotFound
  | openChunk (msg : Str)
  /-- failed to hash reader: %w -/
  | hashReader (msg : Str)
  /-- hash mismatch after %d bytes: expected %s, got %s -/
  | verifyHash (n : Nat) (expected got : Str)
  /-- refusing to hardlink unverified chunk %s for %s: %w -/
  | unverifiedLink (hash path : Str) (cause : Err)
  /-- missing chunk %s (file %s, index %d): %w -/
  | missingChunk (hash path : Str) (i : Nat) (cause : Err)
  /-- failed writing chunk %s to %s: %w -/
  | writeTarget (hash target msg : Str)
  /-- short write for chunk %s: expected %d bytes, wrote %d -/
  | shortWrite (hash : Str) (want wrote : Int)
  /-- integrity check failed for chunk %s in %s: expected %s, got %s -/
  | targetIntegrity (hash path computed : Str)
  /-- total file size mismatch for %s: expected %d, materialized %d -/
  | targetSize (path : Str) (want got : Int64)
  /-- failed to materialize file %s: %w -/
  | materializeFile (path : Str) (cause : Err)
  /-- failed to materialize artifact files into %s: %w -/
  | materialize (dest : Str) (cause : Err)
  /-- cannot save invalid manifest: %w -/
  | saveInvalid (e : ValidateError)
  | writeManifest (msg : Str)
  /-- failed to list files from source: %w -/
  | listFiles (msg : Str)
  /-- no files found under source prefix %q -/
  | noFiles (pre : Str)
  /-- failed to open file %s: %w -/
  | openSource (path msg : Str)
  /-- failed to cache chunk %s: %w -/
  | cacheChunk (hash : Str) (cause : Err)
  /-- error reading chunk at offset %d: %w -/
  | readSource (offset : Int64) (msg : Str)
  /-- failed to chunk file %s: %w -/
  | chunkFile (path : Str) (cause : Err)
  /-- failed to save manifest to cache: %w -/
  | saveManifest (cause : Err)
  deriving DecidableEq

/-- The concrete type of an error value. -/
def Err.goType : Err → GoType
  | .ctx true => .deadlineExceeded
  | .ctx false | .invalidHashName | .noSource _ | .chunkNotFound => .errorString
  | .removePartial _ | .mkdirPartial _ | .closePartial _ | .openChunk _ | .writeManifest _ =>
      .pathError
  | .remote e => e.goType
  | _ => .wrapError

/-! ## State -/

/-- The chunk store on disk, and its hash locks.

`inserted` and `removeFailed` are bookkeeping for the statements below: whether
the thread's current lock section has moved a partial into the store, and
whether its last removal of a partial failed. -/
structure Store where
  chunks : AList fun _ : Str => Bytes
  partials : Str → Option Bytes
  locks : Str → Option Tid
  inserted : Tid → Bool
  removeFailed : Tid → Bool

/-- `chunkMeta`. -/
structure ChunkMeta where
  hash : Str
  size : Int64
  lastAccess : Int64
  refCount : Int
  deriving DecidableEq

/-- `indexFile`. -/
structure Index where
  chunks : AList fun _ : Str => ChunkMeta
  pins : AList fun _ : Str => List Str

instance : DecidableEq Index := fun a b =>
  decidable_of_iff (a.chunks.entries = b.chunks.entries ∧ a.pins.entries = b.pins.entries) (by
    cases a
    cases b
    simp [AList.ext_iff])

/-- The quota manager: the index in memory and on disk. -/
structure Quota where
  index : Index
  saved : Option Index
  dirty : Bool
  mu : Option Tid

/-- `chunkWorkItem`. -/
structure WorkItem where
  hash : Str
  filePath : Str
  offset : Int64
  size : Int64
  deriving DecidableEq

/-- The counters of a `SyncJob`. -/
structure Counters where
  skippedChunks : Nat
  cacheBytesReused : Int64
  downloadedChunks : Nat
  peerChunks : Nat
  peerBytes : Int
  originChunks : Nat
  originBytes : Int
  deriving DecidableEq

/-- A sync job: the pending queue, the wait group and `downloadErr`.

`items` is what the queue started with and `busy` the item each worker has
taken out and not finished: bookkeeping for the statements below. -/
structure Job where
  items : List WorkItem
  queue : List WorkItem
  running : List Tid
  busy : Tid → Option WorkItem
  downloadErr : Option Err
  counters : Counters
  /-- `atomic.Value.Store` met a value of another type. -/
  panicked : Bool

/-- A job that has not started. -/
def Job.fresh : Job := ⟨[], [], [], fun _ => none, none, ⟨0, 0, 0, 0, 0, 0, 0⟩, false⟩

/-- The network side: free slots of the origin semaphore, and a log of the
transfers peers have made. -/
structure Net where
  originSlots : Nat
  transfers : List Transfer

/-- What is at a path of the destination. -/
inductive Entry where
  | dir
  | file (content : Bytes) (perm : Nat)
  deriving DecidableEq

/-- The destination tree, and a log of the targets opened for writing. -/
structure Dest where
  entries : AList fun _ : Str => Entry
  opened : List Str

structure Node where
  store : Store
  quota : Quota
  job : Job
  net : Net
  dest : Dest

/-! ## Responses -/

/-- An answer of `stat`. -/
inductive Stat where
  | size (n : Nat)
  | absent
  | failed (msg : Str)
  deriving DecidableEq

/-- An answer of `unlink`. -/
inductive Removal where
  | removed
  | absent
  | failed (msg : Str)
  deriving DecidableEq

/-- An answer of `open` for reading, with what the descriptor reads. -/
inductive Opened where
  | content (b : Bytes)
  | absent
  | failed (msg : Str)
  deriving DecidableEq

/-- `source.FileInfo`. -/
structure FileInfo where
  path : Str
  size : Int64
  mode : Str
  deriving DecidableEq

/-- A failed write: the bytes written before it. -/
structure ShortWrite where
  written : Nat
  msg : Str
  deriving DecidableEq

end Spider

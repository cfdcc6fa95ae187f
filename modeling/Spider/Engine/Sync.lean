import Spider.Engine.Footprint
import Spider.Engine.Publisher
import Spider.Materializer

/-!
# Spider.Engine.Sync

`Engine.Sync` (`pkg/engine/engine.go`): inventory, download by a pool of
workers, materialisation; and the threads of a node that syncs: thread `0` runs
`Sync`, the next ones are its workers, and every other one calls `MaybeEvict`
again and again, as the ticker of `spiderd` does.

The tracker, the advertiser and the refresh of locations only ask which chunks
are present; what they find out reaches the sync as the candidates of a fetch.
A worker's or evictor's number of turns is a parameter: every finite run fits
some choice.
-/

namespace Spider

open Conc

/-- The part of `engine.Config` the sync uses; `quota` says whether the store's
commit hook is a quota manager's `Touch`. -/
structure EngineConfig where
  maxPeerConcurrency : Int
  retryMaxAttempts : Int
  hasOrigin : Bool
  quota : Bool
  opts : Options

/-- `maxPeerWorkers`, with the default of `NewEngine`. -/
def EngineConfig.workers (cfg : EngineConfig) : Nat :=
  if cfg.maxPeerConcurrency ≤ 0 then 8 else cfg.maxPeerConcurrency.toNat

/-- `retryAttempts`, with the default of `NewEngine`. -/
def EngineConfig.retryAttempts (cfg : EngineConfig) : Nat :=
  if cfg.retryMaxAttempts ≤ 0 then 3 else cfg.retryMaxAttempts.toNat

def EngineConfig.onCommit (cfg : EngineConfig) : OnCommit :=
  if cfg.quota then touchOnCommit else none

theorem EngineConfig.workers_pos (cfg : EngineConfig) : 0 < cfg.workers := by
  unfold EngineConfig.workers
  split <;> omega

variable {ok : Cmd → Prop}

theorem EngineConfig.only_onCommit (cfg : EngineConfig) (hok : ∀ c, ok (.quota c)) :
    ∀ hook, cfg.onCommit = some hook → ∀ h n, (hook h n).Only ok := by
  unfold EngineConfig.onCommit
  split
  · exact only_touchOnCommit hok
  · exact fun _ h => nomatch h

theorem EngineConfig.hookTransfers (cfg : EngineConfig) : HookTransfers cfg.onCommit :=
  cfg.only_onCommit fun _ => rfl

/-- `SyncMetrics`. -/
structure SyncMetrics where
  totalChunks : Nat
  counters : Counters
  deriving DecidableEq

/-! ## Sync -/

/-- The inventory of the chunks that are left, `missing` being the items found so
far. -/
def inventoryChunks : List (Str × ChunkRef) → List WorkItem → NodeM (List WorkItem)
  | [], missing => pure missing
  | (path, c) :: rest, missing => do
      if ← hasValidCommittedChunk c.hash c.size.toInt then do
        let () ← onJob (.skip c.size)
        inventoryChunks rest missing
      else if c.hash ∈ missing.map WorkItem.hash then inventoryChunks rest missing
      else inventoryChunks rest (missing ++ [⟨c.hash, path, c.offset, c.size⟩])

/-- All chunk references of a manifest, with the paths of their files. -/
def chunkRefs (m : ArtifactManifest) : List (Str × ChunkRef) :=
  m.files.flatMap fun f => f.chunks.map fun c => (f.path, c)

/-- Start the workers on the missing items, wait for them, and load `downloadErr`. -/
def download (cfg : EngineConfig) (missing : List WorkItem) : NodeM (Option Err) :=
  if missing = [] then pure none
  else do
    let () ← onJob (.startWorkers cfg.workers missing)
    let () ← onJob .waitWorkers
    onJob .loadErr

/-- The end of `Sync`: the manifest is saved, its error dropped, and the files are
put in place. -/
def finishSync (H : Sha256) (J : Marshal) (cfg : EngineConfig) (m : ArtifactManifest)
    (destDir : Str) : NodeM (Except Err SyncMetrics) := do
  let _ ← saveManifest H J m
  match ← materialize H J cfg.opts m destDir with
  | some e => pure (.error (.materialize destDir e))
  | none => do
      let counters ← onJob .loadCounters
      pure (.ok ⟨(allChunkHashes m).length, counters⟩)

/-- `Sync`. -/
def sync (H : Sha256) (J : Marshal) (cfg : EngineConfig) (m : ArtifactManifest) (destDir : Str) :
    NodeM (Except Err SyncMetrics) :=
  match validate H J m with
  | .error e => pure (.error (.invalidManifest e))
  | .ok () => do
      let missing ← inventoryChunks (chunkRefs m) []
      match ← download cfg missing with
      | some e => pure (.error e)
      | none => finishSync H J cfg m destDir

/-! ## Threads -/

/-- A worker gives up: `downloadErr.Store`, then `wg.Done`. -/
def giveUp (e : Err) : NodeM Unit := do
  let () ← onJob (.storeErr e)
  onJob .workerDone

/-- The loop of a worker. -/
def workerLoop (H : Sha256) (cfg : EngineConfig) : Nat → NodeM Unit
  | 0 => pure ()
  | turns + 1 => do
      match ← onJob .ctxErr with
      | some deadline => giveUp (.ctx deadline)
      | none =>
        match ← onJob .loadErr with
        | some _ => onJob .workerDone
        | none =>
          match ← onJob .nextItem with
          | none => onJob .workerDone
          | some work =>
            match ← fetchChunk H cfg.onCommit cfg.retryAttempts cfg.hasOrigin work with
            | .error e => giveUp e
            | .ok (fromPeer, n) => do
                let () ← onJob (.credit fromPeer n)
                workerLoop H cfg turns

/-- The loop of a worker, with the fetch as a parameter. -/
def workerLoopWith (fetch : WorkItem → NodeM (Except Err (Bool × Int))) : Nat → NodeM Unit
  | 0 => pure ()
  | turns + 1 => do
      match ← onJob .ctxErr with
      | some deadline => giveUp (.ctx deadline)
      | none =>
        match ← onJob .loadErr with
        | some _ => onJob .workerDone
        | none =>
          match ← onJob .nextItem with
          | none => onJob .workerDone
          | some work =>
            match ← fetch work with
            | .error e => giveUp e
            | .ok (fromPeer, n) => do
                let () ← onJob (.credit fromPeer n)
                workerLoopWith fetch turns

theorem workerLoop_eq (H : Sha256) (cfg : EngineConfig) (turns : Nat) :
    workerLoop H cfg turns =
      workerLoopWith (fetchChunk H cfg.onCommit cfg.retryAttempts cfg.hasOrigin) turns := by
  induction turns with
  | zero => rfl
  | succ turns ih => rw [workerLoop, workerLoopWith, ih]

theorem only_giveUp (hjob : ∀ c, ok (.job c)) (e : Err) : (giveUp e).Only ok :=
  Prog.only_call (hjob _) fun _ => Prog.only_perform (hjob _)

theorem only_workerLoopWith {fetch : WorkItem → NodeM (Except Err (Bool × Int))}
    (hjob : ∀ c, ok (.job c)) (hfetch : ∀ work, (fetch work).Only ok) (turns : Nat) :
    (workerLoopWith fetch turns).Only ok := by
  induction turns with
  | zero => exact Prog.only_pure _
  | succ turns ih =>
      refine Prog.only_call (hjob _) fun deadline => ?_
      cases deadline with
      | some d => exact only_giveUp hjob _
      | none =>
          refine Prog.only_call (hjob _) fun err => ?_
          cases err with
          | some e => exact Prog.only_perform (hjob _)
          | none =>
              refine Prog.only_call (hjob _) fun item => ?_
              cases item with
              | none => exact Prog.only_perform (hjob _)
              | some work =>
                  refine (hfetch work).bind fun res => ?_
                  cases res with
                  | error e => exact only_giveUp hjob e
                  | ok credit => exact Prog.only_call (hjob _) fun _ => ih

theorem only_download (hjob : ∀ c, ok (.job c)) (cfg : EngineConfig) (missing : List WorkItem) :
    (download cfg missing).Only ok := by
  unfold download
  split
  · exact Prog.only_pure _
  · exact Prog.only_call (hjob _) fun _ => Prog.only_call (hjob _) fun _ => Prog.only_perform (hjob _)

def worker (H : Sha256) (cfg : EngineConfig) (turns : Nat) : NodeM Unit := do
  let () ← onJob .awaitStart
  workerLoop H cfg turns

/-- Repeated calls of `MaybeEvict`. -/
def evictor (w : Watermarks) : Nat → NodeM Unit
  | 0 => pure ()
  | turns + 1 => do
      let _ ← maybeEvict w
      evictor w turns

/-- The threads of a node that syncs; only `Sync` itself has a result. -/
def syncThreads (H : Sha256) (J : Marshal) (cfg : EngineConfig) (m : ArtifactManifest)
    (destDir : Str) (w : Watermarks) (turns : Tid → Nat) (t : Tid) :
    NodeM (Option (Except Err SyncMetrics)) :=
  if t = 0 then do
    let res ← sync H J cfg m destDir
    pure (some res)
  else if t ≤ cfg.workers then do
    let () ← worker H cfg (turns t)
    pure none
  else do
    let () ← evictor w (turns t)
    pure none

/-- A node about to sync. -/
def syncStart (H : Sha256) (J : Marshal) (cfg : EngineConfig) (m : ArtifactManifest)
    (destDir : Str) (w : Watermarks) (turns : Tid → Nat) (s : Node) :
    Config nodeSig Node Tid (Option (Except Err SyncMetrics)) :=
  ⟨s, syncThreads H J cfg m destDir w turns⟩

end Spider

import Spider.Tracker.History

/-!
# Spider.Tracker.Server

The tracker's replies (`pkg/tracker/server.go`) over a store whose operations
may fail.

The registry logs the error of a registration, a deregistration or a report
and drops it; the server then replies as if nothing had happened.  Only
`PutArtifact` hands the error on.
-/

namespace Spider

open Conc

/-- `proto.RegisterPeerResponse`. -/
structure RegisterPeerResponse where
  success : Bool
  message : Str
  deriving DecidableEq

namespace Server

/-- `Server.RegisterPeer`. -/
def registerPeer (peer : Option PeerInfo) : TrackerM RegisterPeerResponse :=
  let missing : RegisterPeerResponse := ⟨false, str "missing peer information or node_id"⟩
  match peer with
  | none => pure missing
  | some info =>
      if info.nodeID = [] then pure missing
      else do
        Tracker.registerPeer (some info)
        pure ⟨true, str "registered successfully"⟩

/-- `Server.Heartbeat`: whether the heartbeat is acknowledged. -/
def heartbeat (nodeID : Str) : TrackerM Bool := Tracker.heartbeat nodeID

/-- `Server.DeregisterPeer`: its `Success`. -/
def deregisterPeer (nodeID : Str) : TrackerM Bool := do
  Tracker.deregisterPeer nodeID
  pure true

/-- `Server.ReportChunks`: its `ChunksRecorded`. -/
def reportChunks (nodeID : Str) (chunkHashes : List Str) : TrackerM Nat :=
  Tracker.reportChunks nodeID chunkHashes

/-- `Server.PutArtifact`: its `Success`, or the error. -/
def putArtifact (rec : ArtifactRecord) : TrackerM (Except Str Bool) := do
  match ← Tracker.putArtifact rec with
  | .ok _ => pure (.ok true)
  | .error e => pure (.error e)

/-- `Server.ReportArtifact`: its `Success`. -/
def reportArtifact (nodeID artifactID : Str) (complete : Bool) : TrackerM Bool := do
  if complete then
    Tracker.reportArtifact nodeID artifactID
  pure true

end Server

/-! ## Stores that fail -/

/-- What becomes of a store operation: it succeeds, it fails and leaves the store
as it is, or it fails although it took effect (its confirmation was lost). -/
inductive Fate where
  | succeeds
  | fails (err : Str)
  | unconfirmed (err : Str)

/-- The operation takes effect. -/
def Fate.applies : Fate → Bool
  | .succeeds => true
  | .fails _ => false
  | .unconfirmed _ => true

/-- The store after an operation with this fate. -/
def Fate.after {σ : Type} (fate : Fate) (exec : StoreImpl σ) (now : Time) (c : StoreCall) (s : σ) : σ :=
  if fate.applies then (exec now c s).2 else s

/-- The tracker over a store whose next operation has this fate. -/
def StoreImpl.failing {σ : Type} (exec : StoreImpl σ) (fate : Fate) (now : Time) :
    Handler trackerSig σ
  | .store c, s =>
      let answer : Except Str c.Resp := match fate with
        | .succeeds => .ok (exec now c s).1
        | .fails err => .error err
        | .unconfirmed err => .error err
      (answer, fate.after exec now c s)
  | .now, s => (now, s)

section Replies

variable {σ : Type} {exec : StoreImpl σ} {fate : Fate} {now : Time} {s : σ}

theorem eval_registerPeer {info : PeerInfo} (hid : info.nodeID ≠ []) :
    (Server.registerPeer (some info)).eval (exec.failing fate now) s =
      (⟨true, str "registered successfully"⟩,
        fate.after exec now (.upsertPeer (registeredPeer info now)) s) := by
  simp only [Server.registerPeer, Tracker.registerPeer, if_neg hid]
  rfl

variable {nodeID : Str}

theorem eval_deregisterPeer :
    (Server.deregisterPeer nodeID).eval (exec.failing fate now) s =
      (true, fate.after exec now (.deregisterPeer nodeID) s) := rfl

theorem eval_reportArtifact {artifactID : Str} :
    (Server.reportArtifact nodeID artifactID true).eval (exec.failing fate now) s =
      (true, fate.after exec now (.reportSeed artifactID nodeID) s) := rfl

theorem eval_reportChunks {chunkHashes : List Str} :
    ((Server.reportChunks nodeID chunkHashes).eval (exec.failing fate now) s).2 =
      fate.after exec now (.reportChunks nodeID chunkHashes) s := by
  cases fate <;> rfl

end Replies

end Spider

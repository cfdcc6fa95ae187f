import Spider.Lib.Handler
import Spider.Tracker.Registry

/-!
# Spider.Tracker.Store

The interface `store.Store` of the tracker's metadata and the tracker's
methods over it (`pkg/tracker/registry.go`).

A `StoreCall` is one method with its arguments.  The tracker is a program over
store calls and readings of the clock; a store call may return an error.

Left out: `Name`, `Ping`, `Close`, and the in-process fleet watch of the
registry, which no answer reads.
-/

namespace Spider

open Conc

/-- The methods of a store. -/
inductive StoreCall where
  | upsertPeer (peer : Peer)
  | heartbeat (nodeID : Str)
  | getPeer (nodeID : Str)
  | listPeers (expiry : Time)
  | deregisterPeer (nodeID : Str)
  | pruneExpiredPeers (expiry : Time)
  | putArtifact (rec : ArtifactRecord)
  | getArtifact (artifactID : Str)
  | reportSeed (artifactID nodeID : Str)
  | listSeeds (artifactID : Str)
  | reportChunks (nodeID : Str) (hashes : List Str)
  | locateChunkNodes (hash : Str)
  | locateChunkNodesBatch (hashes : List Str)
  | getPeersBatch (nodeIDs : List Str)

/-- What a method returns besides its error. -/
abbrev StoreCall.Resp : StoreCall → Type
  | .upsertPeer _ => Unit
  | .heartbeat _ => Bool
  | .getPeer _ => Option Peer
  | .listPeers _ => List Peer
  | .deregisterPeer _ => Unit
  | .pruneExpiredPeers _ => Nat
  | .putArtifact _ => Unit
  | .getArtifact _ => Option ArtifactRecord
  | .reportSeed _ _ => Unit
  | .listSeeds _ => List Str
  | .reportChunks _ _ => Nat
  | .locateChunkNodes _ => List Str
  | .locateChunkNodesBatch _ => AList fun _ : Str => List Str
  | .getPeersBatch _ => AList fun _ : Str => Peer

/-- A store that carries out each method at one instant. -/
abbrev StoreImpl (σ : Type) := Time → (c : StoreCall) → σ → c.Resp × σ

/-- The memory store. -/
def Memory.exec (g : Ranging) : StoreImpl Memory := fun now c m =>
  match c with
  | .upsertPeer peer => ((), m.upsertPeer now peer)
  | .heartbeat nodeID => m.heartbeat now nodeID
  | .getPeer nodeID => (m.peers.lookup nodeID, m)
  | .listPeers expiry => (m.listPeers g now expiry, m)
  | .deregisterPeer nodeID => ((), m.deregisterPeer nodeID)
  | .pruneExpiredPeers expiry => m.pruneExpiredPeers now expiry
  | .putArtifact rec => ((), m.putArtifact rec)
  | .getArtifact artifactID => (m.arts.lookup artifactID, m)
  | .reportSeed artifactID nodeID => ((), m.reportSeed now artifactID nodeID)
  | .listSeeds artifactID => (m.listSeeds g artifactID, m)
  | .reportChunks nodeID hashes => (recorded hashes, m.reportChunks now nodeID hashes)
  | .locateChunkNodes h => (m.locateChunkNodes g h, m)
  | .locateChunkNodesBatch hashes => (m.locateChunkNodesBatch g hashes, m)
  | .getPeersBatch nodeIDs => (m.getPeersBatch nodeIDs, m)

section Memory

variable {g : Ranging} {m : Memory} {now : Time} {c : StoreCall} {id : Str}

/-- The peers after a call. -/
theorem lookup_exec : (Memory.exec g now c m).2.peers.lookup id =
    match c with
    | .upsertPeer peer =>
        if id = peer.nodeID ∧ id ≠ [] then some (peer.withDefaults now) else m.peers.lookup id
    | .heartbeat nodeID | .reportChunks nodeID _ =>
        if id = nodeID then (m.peers.lookup id).map fun p => { p with lastHeartbeat := now }
        else m.peers.lookup id
    | .deregisterPeer nodeID => if id = nodeID then none else m.peers.lookup id
    | .pruneExpiredPeers expiry =>
        (m.peers.lookup id).filter fun p => decide (durationSub now p.lastHeartbeat ≤ expiry)
    | _ => m.peers.lookup id := by
  cases c with
  | upsertPeer peer => exact Memory.lookup_upsertPeer
  | heartbeat nodeID => rw [Memory.exec, Memory.heartbeat_snd, Memory.lookup_touch]
  | deregisterPeer nodeID => exact Memory.lookup_remove
  | pruneExpiredPeers expiry => exact Memory.lookup_pruneExpiredPeers
  | reportChunks nodeID hashes => rw [Memory.exec, Memory.lookup_reportChunks, Memory.lookup_touch]
  | _ => rfl

/-- A peer that is there after a call was there before, maybe with another
heartbeat, or has just been registered. -/
theorem lookup_exec_cases {p : Peer} (h : (Memory.exec g now c m).2.peers.lookup id = some p) :
    m.peers.lookup id = some p ∨
      (∃ q, m.peers.lookup id = some q ∧ p = { q with lastHeartbeat := now }) ∨
      ∃ peer, c = .upsertPeer peer ∧ id = peer.nodeID ∧ p = peer.withDefaults now := by
  have htouch : ∀ nodeID, (if id = nodeID then
        (m.peers.lookup id).map fun p => { p with lastHeartbeat := now }
      else m.peers.lookup id) = some p → m.peers.lookup id = some p ∨
        ∃ q, m.peers.lookup id = some q ∧ p = { q with lastHeartbeat := now } := by
    intro nodeID h
    split at h
    · obtain ⟨q, hq, rfl⟩ := Option.map_eq_some_iff.mp h
      exact .inr ⟨q, hq, rfl⟩
    · exact .inl h
  rw [lookup_exec] at h
  cases c with
  | upsertPeer peer =>
      dsimp only at h
      split at h
      · rename_i hid
        exact .inr (.inr ⟨peer, rfl, hid.1, (Option.some.inj h).symm⟩)
      · exact .inl h
  | heartbeat nodeID | reportChunks nodeID hashes => exact (htouch nodeID h).imp_right .inl
  | deregisterPeer nodeID =>
      dsimp only at h
      split at h
      · contradiction
      · exact .inl h
  | pruneExpiredPeers expiry => exact .inl (Option.eq_some_of_filter_eq_some h)
  | _ => exact .inl h

/-- The artifacts after a call. -/
theorem lookup_arts_exec : (Memory.exec g now c m).2.arts.lookup id =
    match c with
    | .putArtifact rec => if id = rec.artifactID then some rec else m.arts.lookup id
    | _ => m.arts.lookup id := by
  cases c with
  | upsertPeer peer =>
      rw [Memory.exec, Memory.upsertPeer]
      split <;> rfl
  | heartbeat nodeID => rw [Memory.exec, Memory.heartbeat_snd, Memory.arts_touch]
  | pruneExpiredPeers expiry => exact congrArg _ Memory.arts_foldl_remove
  | putArtifact rec =>
      by_cases hid : id = rec.artifactID
      · subst hid
        simp [Memory.exec, Memory.putArtifact]
      · simp [Memory.exec, Memory.putArtifact, hid]
  | reportChunks nodeID hashes =>
      rw [Memory.exec, Memory.reportChunks, Memory.arts_foldl_reportChunk, Memory.arts_touch]
  | _ => rfl

end Memory

/-! ## The registry's methods -/

inductive TrackerCmd where
  | store (c : StoreCall)
  | now

abbrev TrackerCmd.Resp : TrackerCmd → Type
  | .store c => Except Str c.Resp
  | .now => Time

/-- Store calls and the clock. -/
abbrev trackerSig : Sig := ⟨TrackerCmd, TrackerCmd.Resp⟩

abbrev TrackerM := Prog trackerSig

/-- A store call. -/
def callStore (c : StoreCall) : TrackerM (Except Str c.Resp) :=
  Prog.perform (S := trackerSig) (.store c)

/-- `time.Now`. -/
def readClock : TrackerM Time := Prog.perform (S := trackerSig) .now

namespace Tracker

/-- `RegisterPeer`; an error is only logged. -/
def registerPeer (peer : Option PeerInfo) : TrackerM Unit :=
  match peer with
  | none => pure ()
  | some info =>
      if info.nodeID = [] then pure ()
      else do
        let seen ← readClock
        let now ← readClock
        let _ ← callStore (.upsertPeer { Peer.ofProto info seen with lastHeartbeat := now })
        pure ()

/-- `Heartbeat`. -/
def heartbeat (nodeID : Str) : TrackerM Bool := do
  match ← callStore (.heartbeat nodeID) with
  | .ok ok => pure ok
  | .error _ => pure false

/-- `DeregisterPeer`; an error is only logged. -/
def deregisterPeer (nodeID : Str) : TrackerM Unit := do
  let _ ← callStore (.deregisterPeer nodeID)
  pure ()

/-- `ReportChunks`; an error is only logged. -/
def reportChunks (nodeID : Str) (chunkHashes : List Str) : TrackerM Nat := do
  match ← callStore (.reportChunks nodeID chunkHashes) with
  | .ok n => pure n
  | .error _ => pure 0

/-- `ReportArtifact`; an error is only logged. -/
def reportArtifact (nodeID artifactID : Str) : TrackerM Unit := do
  let _ ← callStore (.reportSeed artifactID nodeID)
  pure ()

/-- `PutArtifact`. -/
def putArtifact (rec : ArtifactRecord) : TrackerM (Except Str Unit) :=
  callStore (.putArtifact rec)

/-- `requesterLoc`. -/
def requesterLoc (nodeID : Str) : TrackerM Locality := do
  match ← callStore (.getPeer nodeID) with
  | .ok (some p) => pure (.ofProto p.proto)
  | _ => pure ⟨[], [], [], []⟩

/-- `peersForIDs`. -/
def peersForIDs (r : Registry) (ids : List Str) (skip : Str) (now : Time) :
    TrackerM (List PeerInfo) := do
  match ← callStore (.getPeersBatch ids) with
  | .ok peers => pure (r.peersFromCache ids skip now peers.lookup)
  | .error _ => pure []

/-- `LocateArtifact`. -/
def locateArtifact (r : Registry) (requesterNodeID artifactID : Str) : TrackerM (List PeerInfo) := do
  match ← callStore (.listSeeds artifactID) with
  | .error _ => pure []
  | .ok ids =>
      let now ← readClock
      let peers ← peersForIDs r ids requesterNodeID now
      let loc ← requesterLoc requesterNodeID
      pure (sortPeersByProximity r.eqFold loc peers)

/-- The other nodes among the holders. -/
def uniqueIDs (located : AList fun _ : Str => List Str) (requesterNodeID : Str) : List Str :=
  ((located.entries.flatMap fun e => e.2).filter (· ≠ requesterNodeID)).dedup

/-- `LocateChunks`: one location for each requested hash, also when a read
fails. -/
def locateChunks (r : Registry) (requesterNodeID : Str) (chunkHashes : List Str) :
    TrackerM (List ChunkLocation) := do
  let loc ← requesterLoc requesterNodeID
  let now ← readClock
  match ← callStore (.locateChunkNodesBatch chunkHashes) with
  | .error _ => pure (chunkHashes.map fun h => ⟨h, []⟩)
  | .ok located =>
      let found ← callStore (.getPeersBatch (uniqueIDs located requesterNodeID))
      let peersByID := match found with
        | .ok peers => peers
        | .error _ => ∅
      pure (chunkHashes.map fun h =>
        ⟨h, sortPeersByProximity r.eqFold loc
          (r.peersFromCache ((located.lookup h).getD []) requesterNodeID now peersByID.lookup)⟩)

/-- `ListActivePeers`. -/
def listActivePeers (r : Registry) : TrackerM (List PeerInfo) := do
  match ← callStore (.listPeers r.peerExpiry) with
  | .ok peers => pure (peers.map Peer.proto)
  | .error _ => pure []

/-- `PruneDeadPeers`; an error is only logged. -/
def pruneDeadPeers (r : Registry) : TrackerM Nat := do
  match ← callStore (.pruneExpiredPeers r.peerExpiry) with
  | .ok n => pure n
  | .error _ => pure 0

end Tracker

/-! ## A store that answers -/

/-- The tracker over a store without failures, at one instant. -/
def StoreImpl.handler {σ : Type} (exec : StoreImpl σ) (now : Time) : Handler trackerSig σ
  | .store c, s => ((.ok (exec now c s).1 : Except Str c.Resp), (exec now c s).2)
  | .now, s => (now, s)

section Handler

variable {σ : Type} {exec : StoreImpl σ} {now : Time} {s : σ}

@[simp] theorem eval_callStore (c : StoreCall) :
    (callStore c).eval (exec.handler now) s = (.ok (exec now c s).1, (exec now c s).2) := rfl

@[simp] theorem eval_readClock : readClock.eval (exec.handler now) s = (now, s) := rfl

end Handler

end Spider

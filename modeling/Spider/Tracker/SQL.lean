import Spider.Tracker.History

/-!
# Spider.Tracker.SQL

The SQL store (`pkg/store/sql.go` with `sql/queries.sql` and the schema): four
tables by their primary keys.  A time is kept in whole seconds.  No table
refers to another: the schema has no foreign keys.

A method is one statement or one transaction, and takes effect as a whole; one
that fails is rolled back, so a run is a run of the methods that took effect.
-/

namespace Spider

open Conc

/-- `time.Time.Unix`: whole seconds. -/
def unix (t : Time) : Int := t / 1000000000

/-- A row of `peers`, under its `node_id`. -/
structure PeerRow where
  address : Str
  region : Str
  zone : Str
  rack : Str
  host : Str
  lastHeartbeat : Int
  status : Str
  deriving DecidableEq

/-- The tables; a location is under `(artifact_id, node_id)` or
`(chunk_hash, node_id)`. -/
structure SQLStore where
  peers : AList fun _ : Str => PeerRow
  artifacts : AList fun _ : Str => ArtifactRecord
  artifactSeeds : AList fun _ : Str × Str => Int
  chunkLocations : AList fun _ : Str × Str => Int

namespace SQLStore

/-- The tables as the schema creates them. -/
def new : SQLStore := ⟨∅, ∅, ∅, ∅⟩

/-- The columns of a peer. -/
def row (peer : Peer) : PeerRow :=
  ⟨peer.address, peer.region, peer.zone, peer.rack, peer.host, unix peer.lastHeartbeat, peer.status⟩

/-- `scanPeer`. -/
def scanPeer (nodeID : Str) (r : PeerRow) : Peer :=
  ⟨nodeID, r.address, r.region, r.zone, r.rack, r.host, r.status, r.lastHeartbeat * 1000000000⟩

/-- `UpsertPeer`. -/
def upsertPeer (s : SQLStore) (now : Time) (peer : Peer) : SQLStore :=
  if peer.nodeID = [] then s
  else { s with peers := s.peers.insert peer.nodeID (row (peer.withDefaults now)) }

/-- The statement of `Heartbeat` and `TouchPeer`. -/
def touchPeer (s : SQLStore) (now : Time) (nodeID : Str) : SQLStore :=
  match s.peers.lookup nodeID with
  | some r => { s with peers := s.peers.insert nodeID { r with lastHeartbeat := unix now } }
  | none => s

/-- `Heartbeat`: whether a row was updated. -/
def heartbeat (s : SQLStore) (now : Time) (nodeID : Str) : Bool × SQLStore :=
  ((s.peers.lookup nodeID).isSome, s.touchPeer now nodeID)

/-- Delete the peers with these ids and all rows of theirs. -/
def deleteNodes (s : SQLStore) (ids : Str → Bool) : SQLStore :=
  { s with
    artifactSeeds := s.artifactSeeds.deleteWhere fun k => ids k.2
    chunkLocations := s.chunkLocations.deleteWhere fun k => ids k.2
    peers := s.peers.deleteWhere ids }

/-- `DeregisterPeer`. -/
def deregisterPeer (s : SQLStore) (nodeID : Str) : SQLStore :=
  s.deleteNodes fun id => decide (id = nodeID)

/-- `WHERE last_heartbeat < cutoff`. -/
def expired (s : SQLStore) (cutoff : Int) (nodeID : Str) : Bool :=
  match s.peers.lookup nodeID with
  | some r => decide (r.lastHeartbeat < cutoff)
  | none => false

/-- `PruneExpiredPeers`. -/
def pruneExpiredPeers (s : SQLStore) (now expiry : Time) : Nat × SQLStore :=
  let cutoff := unix (now - expiry)
  ((s.peers.keys.filter (s.expired cutoff)).length, s.deleteNodes (s.expired cutoff))

/-- `PutArtifact`. -/
def putArtifact (s : SQLStore) (rec : ArtifactRecord) : SQLStore :=
  { s with artifacts := s.artifacts.insert rec.artifactID rec }

/-- `ReportSeed`. -/
def reportSeed (s : SQLStore) (now : Time) (artifactID nodeID : Str) : SQLStore :=
  { s with artifactSeeds := s.artifactSeeds.insert (artifactID, nodeID) (unix now) }

/-- The statement of `ReportChunks` for one hash. -/
def upsertChunk (s : SQLStore) (now : Time) (nodeID h : Str) : SQLStore :=
  if h = [] then s
  else { s with chunkLocations := s.chunkLocations.insert (h, nodeID) (unix now) }

/-- `ReportChunks`. -/
def reportChunks (s : SQLStore) (now : Time) (nodeID : Str) (hashes : List Str) : SQLStore :=
  hashes.foldl (fun s h => s.upsertChunk now nodeID h) (s.touchPeer now nodeID)

/-! ## Queries -/

/-- `ListPeers`. -/
def listPeers (s : SQLStore) (g : Ranging) (now expiry : Time) : List Peer :=
  let cutoff := if expiry > 0 then unix (now - expiry) else 0
  ((g.order s.peers.entries).filter fun e => decide (cutoff ≤ e.2.lastHeartbeat)).map
    fun e => scanPeer e.1 e.2

/-- The nodes of a location table under a key. -/
def nodesAt (g : Ranging) (table : AList fun _ : Str × Str => Int) (key : Str) : List Str :=
  (g.order table.keys).filterMap fun k => if k.1 = key then some k.2 else none

/-- The number of ids in one `IN` list. -/
def sqlINBatch : Nat := 500

/-- `LocateChunkNodesBatch`: the rows of each batch are appended to the lists of
their hashes. -/
def locateChunkNodesBatch (s : SQLStore) (g : Ranging) (hashes : List Str) :
    AList fun _ : Str => List Str :=
  let start := hashes.foldl (fun out h => out.insert h []) (∅ : AList fun _ : Str => List Str)
  (hashes.toChunks sqlINBatch).foldl (fun out batch =>
    ((g.order s.chunkLocations.keys).filter fun k => decide (k.1 ∈ batch)).foldl
      (fun out k => out.insert k.1 (((out.lookup k.1).getD []) ++ [k.2])) out) start

/-- `GetPeersBatch`. -/
def getPeersBatch (s : SQLStore) (g : Ranging) (nodeIDs : List Str) : AList fun _ : Str => Peer :=
  (nodeIDs.toChunks sqlINBatch).foldl (fun out batch =>
    ((g.order s.peers.entries).filter fun e => decide (e.1 ∈ batch)).foldl
      (fun out e => out.insert e.1 (scanPeer e.1 e.2)) out) ∅

/-- The methods of the SQL store. -/
def exec (g : Ranging) : StoreImpl SQLStore := fun now c s =>
  match c with
  | .upsertPeer peer => ((), s.upsertPeer now peer)
  | .heartbeat nodeID => s.heartbeat now nodeID
  | .getPeer nodeID => ((s.peers.lookup nodeID).map (scanPeer nodeID), s)
  | .listPeers expiry => (s.listPeers g now expiry, s)
  | .deregisterPeer nodeID => ((), s.deregisterPeer nodeID)
  | .pruneExpiredPeers expiry => s.pruneExpiredPeers now expiry
  | .putArtifact rec => ((), s.putArtifact rec)
  | .getArtifact artifactID => (s.artifacts.lookup artifactID, s)
  | .reportSeed artifactID nodeID => ((), s.reportSeed now artifactID nodeID)
  | .listSeeds artifactID => (nodesAt g s.artifactSeeds artifactID, s)
  | .reportChunks nodeID hashes => (recorded hashes, s.reportChunks now nodeID hashes)
  | .locateChunkNodes h => (nodesAt g s.chunkLocations h, s)
  | .locateChunkNodesBatch hashes => (s.locateChunkNodesBatch g hashes, s)
  | .getPeersBatch nodeIDs => (s.getPeersBatch g nodeIDs, s)

/-! ## What the methods do to the tables -/

variable {s : SQLStore} {now expiry : Time} {nodeID p : Str} {loc : Row}

/-- The node is recorded for a row. -/
def Located (s : SQLStore) (loc : Row) (p : Str) : Prop :=
  match loc with
  | .seed artifactID => (artifactID, p) ∈ s.artifactSeeds
  | .chunk h => (h, p) ∈ s.chunkLocations

theorem mem_peers_upsertPeer {peer : Peer} :
    p ∈ (s.upsertPeer now peer).peers ↔ p = peer.nodeID ∧ p ≠ [] ∨ p ∈ s.peers := by
  unfold upsertPeer
  by_cases hid : peer.nodeID = []
  · rw [if_pos hid]
    have hp : ¬ (p = peer.nodeID ∧ p ≠ []) := fun h => h.2 (h.1.trans hid)
    tauto
  · rw [if_neg hid, AList.mem_insert]
    constructor
    · rintro (rfl | h)
      · exact .inl ⟨rfl, hid⟩
      · exact .inr h
    · rintro (⟨h, -⟩ | h)
      · exact .inl h
      · exact .inr h

@[simp] theorem located_upsertPeer {peer : Peer} :
    (s.upsertPeer now peer).Located loc p ↔ s.Located loc p := by
  unfold upsertPeer
  split
  · exact Iff.rfl
  · cases loc <;> exact Iff.rfl

@[simp] theorem mem_peers_touchPeer : p ∈ (s.touchPeer now nodeID).peers ↔ p ∈ s.peers := by
  unfold touchPeer
  cases hr : s.peers.lookup nodeID with
  | none => exact Iff.rfl
  | some r =>
      have hmem : nodeID ∈ s.peers := AList.lookup_isSome.mp (by rw [hr]; rfl)
      rw [AList.mem_insert]
      constructor
      · rintro (rfl | h)
        · exact hmem
        · exact h
      · exact .inr

@[simp] theorem located_touchPeer : (s.touchPeer now nodeID).Located loc p ↔ s.Located loc p := by
  unfold touchPeer
  split
  · cases loc <;> exact Iff.rfl
  · exact Iff.rfl

theorem mem_peers_deleteNodes {ids : Str → Bool} :
    p ∈ (s.deleteNodes ids).peers ↔ p ∈ s.peers ∧ ids p = false :=
  AList.mem_deleteWhere

theorem located_deleteNodes {ids : Str → Bool} :
    (s.deleteNodes ids).Located loc p ↔ s.Located loc p ∧ ids p = false := by
  cases loc <;> exact AList.mem_deleteWhere

theorem located_reportSeed {artifactID : Str} :
    (s.reportSeed now artifactID nodeID).Located loc p ↔
      (p = nodeID ∧ loc = .seed artifactID) ∨ s.Located loc p := by
  cases loc <;> simp [Located, reportSeed, and_comm]

@[simp] theorem peers_upsertChunk {h : Str} : (s.upsertChunk now nodeID h).peers = s.peers := by
  unfold upsertChunk
  split <;> rfl

theorem located_upsertChunk {h : Str} :
    (s.upsertChunk now nodeID h).Located loc p ↔
      (p = nodeID ∧ h ≠ [] ∧ loc = .chunk h) ∨ s.Located loc p := by
  unfold upsertChunk
  by_cases hh : h = []
  · simp [hh]
  · cases loc <;> simp [Located, hh, and_comm]

theorem peers_foldl_upsertChunk {hashes : List Str} :
    (hashes.foldl (fun s h => s.upsertChunk now nodeID h) s).peers = s.peers := by
  induction hashes generalizing s with
  | nil => rfl
  | cons h hashes ih => rw [List.foldl_cons, ih, peers_upsertChunk]

theorem located_foldl_upsertChunk {hashes : List Str} :
    (hashes.foldl (fun s h => s.upsertChunk now nodeID h) s).Located loc p ↔
      (p = nodeID ∧ ∃ h ∈ hashes, h ≠ [] ∧ loc = .chunk h) ∨ s.Located loc p := by
  induction hashes generalizing s with
  | nil => simp
  | cons h hashes ih =>
      rw [List.foldl_cons, ih, located_upsertChunk]
      grind

end SQLStore

/-- The SQL store records nodes as a store of the tracker does. -/
def sqlStore (g : Ranging) : TrackerStore SQLStore where
  exec := SQLStore.exec g
  init := .new
  registered s p := p ∈ s.peers
  located s loc p := s.Located loc p
  expired now expiry s p := s.expired (unix (now - expiry)) p = true
  registered_of_expired := by
    intro now expiry s p h
    unfold SQLStore.expired at h
    split at h
    · rename_i r hr
      exact AList.lookup_isSome.mp (by rw [hr]; rfl)
    · contradiction
  not_registered_init p := by simp [SQLStore.new]
  not_located_init loc p := by cases loc <;> simp [SQLStore.new, SQLStore.Located]
  registered_exec now c s p := by
    cases c with
    | upsertPeer peer =>
        simp [SQLStore.exec, SQLStore.mem_peers_upsertPeer, StoreCall.registers, StoreCall.removes]
    | heartbeat nodeID =>
        simp [SQLStore.exec, SQLStore.heartbeat, StoreCall.registers, StoreCall.removes]
    | deregisterPeer nodeID =>
        simp [SQLStore.exec, SQLStore.deregisterPeer, SQLStore.mem_peers_deleteNodes,
          StoreCall.registers, StoreCall.removes]
    | pruneExpiredPeers expiry =>
        simp [SQLStore.exec, SQLStore.pruneExpiredPeers, SQLStore.mem_peers_deleteNodes,
          StoreCall.registers, StoreCall.removes]
    | reportChunks nodeID hashes =>
        simp [SQLStore.exec, SQLStore.reportChunks, SQLStore.peers_foldl_upsertChunk,
          StoreCall.registers, StoreCall.removes]
    | _ =>
        simp [SQLStore.exec, SQLStore.putArtifact, SQLStore.reportSeed, StoreCall.registers,
          StoreCall.removes]
  located_exec now c s loc p := by
    cases c with
    | upsertPeer peer => simp [SQLStore.exec, StoreCall.reports, StoreCall.removes]
    | heartbeat nodeID =>
        simp [SQLStore.exec, SQLStore.heartbeat, StoreCall.reports, StoreCall.removes]
    | deregisterPeer nodeID =>
        simp [SQLStore.exec, SQLStore.deregisterPeer, SQLStore.located_deleteNodes,
          StoreCall.reports, StoreCall.removes]
    | pruneExpiredPeers expiry =>
        simp [SQLStore.exec, SQLStore.pruneExpiredPeers, SQLStore.located_deleteNodes,
          StoreCall.reports, StoreCall.removes]
    | putArtifact rec =>
        cases loc <;> simp [SQLStore.exec, SQLStore.putArtifact, SQLStore.Located,
          StoreCall.reports, StoreCall.removes]
    | reportSeed artifactID nodeID =>
        simp [SQLStore.exec, SQLStore.located_reportSeed, StoreCall.reports, StoreCall.removes]
    | reportChunks nodeID hashes =>
        simp [SQLStore.exec, SQLStore.reportChunks, SQLStore.located_foldl_upsertChunk,
          StoreCall.reports, StoreCall.removes]
    | _ => simp [SQLStore.exec, StoreCall.reports, StoreCall.removes]

end Spider

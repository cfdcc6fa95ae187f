import Spider.Tracker.Memory

/-!
# Spider.Tracker.Registry

The tracker's answers (`pkg/tracker/registry.go`): who seeds an artifact and
who holds its chunks.  A peer is handed out if the store knows it and its last
heartbeat is recent, and never to itself; a read that fails counts as finding
nothing.
-/

namespace Spider

/-- The configuration of a registry. -/
structure Registry where
  peerExpiry : Time
  eqFold : Str → Str → Bool

/-- `NewRegistryWithStore`: the default expiry is 30 seconds. -/
def newRegistry (peerExpiry : Time) (eqFold : Str → Str → Bool) : Registry :=
  ⟨if peerExpiry ≤ 0 then 30000000000 else peerExpiry, eqFold⟩

/-- `proto.ChunkLocation`. -/
structure ChunkLocation where
  chunkHash : Str
  peers : List PeerInfo
  deriving DecidableEq

/-! ## Reads that may fail -/

/-- `GetPeersBatch`, with an empty map for an error. -/
def StoreView.peersBatch (S : StoreView) (ids : List Str) (id : Str) : Option Peer :=
  if S.fails .getPeersBatch then none else if id ∈ ids then S.peer id else none

/-- `ListSeeds`, with nothing for an error. -/
def StoreView.listSeeds (S : StoreView) (artifactID : Str) : List Str :=
  if S.fails .listSeeds then [] else S.seeds artifactID

/-- `LocateChunkNodesBatch` at one hash, with nothing for an error. -/
def StoreView.locateChunkNodes (S : StoreView) (h : Str) : List Str :=
  if S.fails .locateChunkNodesBatch then [] else S.holders h

/-! ## Answers -/

/-- `requesterLoc`. -/
def requesterLoc (S : StoreView) (nodeID : Str) : Locality :=
  if S.fails .getPeer then ⟨[], [], [], []⟩
  else match S.peer nodeID with
    | some p => .ofProto p.proto
    | none => ⟨[], [], [], []⟩

/-- `peersFromCache`. -/
def Registry.peersFromCache (r : Registry) (ids : List Str) (skip : Str) (now : Time)
    (peers : Str → Option Peer) : List PeerInfo :=
  ids.filterMap fun id =>
    if id = skip then none
    else match peers id with
      | none => none
      | some p => if durationSub now p.lastHeartbeat ≤ r.peerExpiry then some p.proto else none

/-- `LocateArtifact`. -/
def Registry.locateArtifact (r : Registry) (S : StoreView) (now : Time)
    (requesterNodeID artifactID : Str) : List PeerInfo :=
  let ids := S.listSeeds artifactID
  sortPeersByProximity r.eqFold (requesterLoc S requesterNodeID)
    (r.peersFromCache ids requesterNodeID now (S.peersBatch ids))

/-- The ids `LocateChunks` looks up: those of all holders. -/
def StoreView.holderIDs (S : StoreView) (requesterNodeID : Str) (chunkHashes : List Str) :
    List Str :=
  ((chunkHashes.flatMap S.locateChunkNodes).filter (· ≠ requesterNodeID)).dedup

/-- `LocateChunks`: one location for each requested hash, also for one nobody
holds. -/
def Registry.locateChunks (r : Registry) (S : StoreView) (now : Time) (requesterNodeID : Str)
    (chunkHashes : List Str) : List ChunkLocation :=
  let found := S.peersBatch (S.holderIDs requesterNodeID chunkHashes)
  chunkHashes.map fun h =>
    ⟨h, sortPeersByProximity r.eqFold (requesterLoc S requesterNodeID)
      (r.peersFromCache (S.locateChunkNodes h) requesterNodeID now found)⟩

/-! ## Who is handed out -/

/-- A peer among `ids` that is not the requester, is known to the store and has
sent a recent heartbeat. -/
def Registry.Alive (r : Registry) (S : StoreView) (now : Time) (requesterNodeID : Str)
    (ids : List Str) (p : Peer) : Prop :=
  ∃ id ∈ ids, id ≠ requesterNodeID ∧ S.fails .getPeersBatch = false ∧ S.peer id = some p ∧
    durationSub now p.lastHeartbeat ≤ r.peerExpiry

section Answers

variable {r : Registry} {S : StoreView} {now : Time} {node : Str} {q : PeerInfo}

theorem mem_peersFromCache {ids batch : List Str} (hbatch : ∀ id ∈ ids, id ≠ node → id ∈ batch) :
    q ∈ r.peersFromCache ids node now (S.peersBatch batch) ↔
      ∃ p, r.Alive S now node ids p ∧ p.proto = q := by
  simp only [Registry.peersFromCache, List.mem_filterMap]
  constructor
  · intro ⟨id, hid, hq⟩
    by_cases hskip : id = node
    · simp [hskip] at hq
    · rw [if_neg hskip] at hq
      cases hfound : S.peersBatch batch id with
      | none => simp [hfound] at hq
      | some p =>
          have hfails : S.fails .getPeersBatch = false := by
            by_contra hf
            simp [StoreView.peersBatch, hf] at hfound
          have hpeer : S.peer id = some p := by
            simpa [StoreView.peersBatch, hfails, hbatch id hid hskip] using hfound
          by_cases hfresh : durationSub now p.lastHeartbeat ≤ r.peerExpiry
          · simp only [hfound, if_pos hfresh, Option.some.injEq] at hq
            exact ⟨p, ⟨id, hid, hskip, hfails, hpeer, hfresh⟩, hq⟩
          · simp [hfound, hfresh] at hq
  · intro ⟨p, ⟨id, hid, hskip, hfails, hpeer, hfresh⟩, hq⟩
    refine ⟨id, hid, ?_⟩
    have hfound : S.peersBatch batch id = some p := by
      simpa [StoreView.peersBatch, hfails, hbatch id hid hskip] using hpeer
    simp [hskip, hfound, hfresh, hq]

/-- The seeds that are handed out. -/
theorem mem_locateArtifact {artifactID : Str} :
    q ∈ r.locateArtifact S now node artifactID ↔
      ∃ p, r.Alive S now node (S.listSeeds artifactID) p ∧ p.proto = q := by
  rw [Registry.locateArtifact, mem_sortPeersByProximity]
  exact mem_peersFromCache fun id hid _ => hid

/-- The holders that are handed out with a location. -/
theorem mem_locateChunks {hashes : List Str} {loc : ChunkLocation}
    (hloc : loc ∈ r.locateChunks S now node hashes) :
    loc.chunkHash ∈ hashes ∧ ∀ q, q ∈ loc.peers ↔
      ∃ p, r.Alive S now node (S.locateChunkNodes loc.chunkHash) p ∧ p.proto = q := by
  obtain ⟨h, hh, rfl⟩ := List.mem_map.mp hloc
  refine ⟨hh, fun q => ?_⟩
  rw [mem_sortPeersByProximity]
  refine mem_peersFromCache fun id hid hskip => ?_
  rw [StoreView.holderIDs, List.mem_dedup, List.mem_filter]
  exact ⟨List.mem_flatMap.mpr ⟨h, hh, hid⟩, by simpa using hskip⟩

end Answers

end Spider

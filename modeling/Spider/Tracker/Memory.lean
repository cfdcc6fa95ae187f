import Spider.Lib.Table
import Spider.Topology

/-!
# Spider.Tracker.Memory

The tracker's metadata: peers, artifacts, complete seeds of an artifact, and
the nodes that hold a chunk.  `Memory` is the in-process store
(`pkg/store/memory.go`), each of whose methods runs under one lock at one
instant.  `StoreView` is what any store answers to the reads of the tracker at
one moment, each of which may fail.

Times are nanoseconds since 1970.
-/

namespace Spider

/-- Instants and durations, in nanoseconds. -/
abbrev Time := Int

/-- The zero `time.Time`, in the year 1. -/
def zeroTime : Time := -62135596800000000000

/-- `store.Peer`. -/
structure Peer where
  nodeID : Str
  address : Str
  region : Str
  zone : Str
  rack : Str
  host : Str
  status : Str
  lastHeartbeat : Time
  deriving DecidableEq

/-- `Peer.Proto`. -/
def Peer.proto (p : Peer) : PeerInfo :=
  ⟨p.nodeID, p.address, p.region, p.zone, p.rack, p.host, p.lastHeartbeat / 1000000000⟩

/-- `PeerFromProto`, at a given time. -/
def Peer.ofProto (info : PeerInfo) (now : Time) : Peer where
  nodeID := info.nodeID
  address := info.address
  region := info.region
  zone := info.zone
  rack := info.rack
  host := info.host
  status := str "HEALTHY"
  lastHeartbeat := if info.lastSeenUnix > 0 then info.lastSeenUnix * 1000000000 else now

/-- `store.ArtifactRecord`. -/
structure ArtifactRecord where
  artifactID : Str
  name : Str
  version : Str
  manifestJSON : Bytes
  deriving DecidableEq

/-- `time.Time.Sub`: the difference, held within `int64`. -/
def durationSub (a b : Time) : Time := max (-2 ^ 63) (min (2 ^ 63 - 1) (a - b))

/-- A later time is further away, and an earlier one has been longer ago. -/
theorem durationSub_mono {a b since since' : Int} (h : a ≤ b) (h' : since' ≤ since) :
    durationSub a since ≤ durationSub b since' :=
  max_le_max le_rfl (min_le_min le_rfl (Int.sub_le_sub h h'))

/-! ## What a store answers -/

/-- The reads of the tracker. -/
inductive StoreRead where
  | getPeer
  | getPeersBatch
  | listSeeds
  | locateChunkNodesBatch
  deriving DecidableEq

/-- The content of a store at one moment, as its reads show it, and the reads
that fail.  The order of the ids is the store's. -/
structure StoreView where
  peer : Str → Option Peer
  seeds : Str → List Str
  holders : Str → List Str
  fails : StoreRead → Bool

/-! ## The memory store -/

/-- `store.Memory`. -/
structure Memory where
  peers : AList fun _ : Str => Peer
  arts : AList fun _ : Str => ArtifactRecord
  seeds : AList fun _ : Str => AList fun _ : Str => Time
  chunks : AList fun _ : Str => AList fun _ : Str => Time

/-- `NewMemory`. -/
def Memory.new : Memory := ⟨∅, ∅, ∅, ∅⟩

/-- The peer `UpsertPeer` keeps: the zero time stands for now, no status for
healthy. -/
def Peer.withDefaults (peer : Peer) (now : Time) : Peer :=
  { peer with
    lastHeartbeat := if peer.lastHeartbeat = zeroTime then now else peer.lastHeartbeat
    status := if peer.status = [] then str "HEALTHY" else peer.status }

/-- `UpsertPeer`. -/
def Memory.upsertPeer (m : Memory) (now : Time) (peer : Peer) : Memory :=
  if peer.nodeID = [] then m
  else { m with peers := m.peers.insert peer.nodeID (peer.withDefaults now) }

/-- Set the last heartbeat of a peer that is there. -/
def Memory.touch (m : Memory) (now : Time) (nodeID : Str) : Memory :=
  match m.peers.lookup nodeID with
  | some p => { m with peers := m.peers.insert nodeID { p with lastHeartbeat := now } }
  | none => m

/-- `Heartbeat`. -/
def Memory.heartbeat (m : Memory) (now : Time) (nodeID : Str) : Bool × Memory :=
  match m.peers.lookup nodeID with
  | some _ => (true, m.touch now nodeID)
  | none => (false, m)

/-- Delete a peer, and with it its rows in the other tables. -/
def Memory.remove (m : Memory) (nodeID : Str) : Memory :=
  { m with
    peers := m.peers.erase nodeID
    seeds := Table.drop m.seeds nodeID
    chunks := Table.drop m.chunks nodeID }

/-- `DeregisterPeer`. -/
def Memory.deregisterPeer (m : Memory) (nodeID : Str) : Memory := m.remove nodeID

/-- The peers whose last heartbeat is further back than the expiry. -/
def Memory.dead (m : Memory) (now expiry : Time) : List Str :=
  m.peers.keys.filter fun id =>
    match m.peers.lookup id with
    | some p => decide (durationSub now p.lastHeartbeat > expiry)
    | none => false

/-- `PruneExpiredPeers`. -/
def Memory.pruneExpiredPeers (m : Memory) (now expiry : Time) : Nat × Memory :=
  ((m.dead now expiry).length, (m.dead now expiry).foldl Memory.remove m)

/-- `PutArtifact`. -/
def Memory.putArtifact (m : Memory) (r : ArtifactRecord) : Memory :=
  { m with arts := m.arts.insert r.artifactID r }

/-- `ReportSeed`. -/
def Memory.reportSeed (m : Memory) (now : Time) (artifactID nodeID : Str) : Memory :=
  let nodes := (m.seeds.lookup artifactID).getD ∅
  { m with seeds := m.seeds.insert artifactID (nodes.insert nodeID now) }

/-- One hash of `ReportChunks`. -/
def Memory.reportChunk (m : Memory) (now : Time) (nodeID h : Str) : Memory :=
  if h = [] then m
  else
    let nodes := (m.chunks.lookup h).getD ∅
    { m with chunks := m.chunks.insert h (nodes.insert nodeID now) }

/-- `ReportChunks`; a report is a sign of life. -/
def Memory.reportChunks (m : Memory) (now : Time) (nodeID : Str) (hashes : List Str) : Memory :=
  hashes.foldl (fun m h => m.reportChunk now nodeID h) (m.touch now nodeID)

/-- The number `ReportChunks` returns. -/
def recorded (hashes : List Str) : Nat := (hashes.filter (· ≠ [])).length

/-! ### Reads -/

/-- The order in which a map is ranged over, which Go leaves open. -/
structure Ranging where
  order : {α : Type} → List α → List α
  perm : ∀ {α : Type} (l : List α), (order l).Perm l

/-- The order of the table. -/
def Ranging.plain : Ranging := ⟨id, fun l => .refl l⟩

theorem Ranging.mem_order (g : Ranging) {α : Type} {l : List α} {a : α} :
    a ∈ g.order l ↔ a ∈ l :=
  (g.perm l).mem_iff

/-- `ListPeers`; no expiry lists all peers. -/
def Memory.listPeers (m : Memory) (g : Ranging) (now expiry : Time) : List Peer :=
  (g.order (m.peers.entries.map fun e => e.2)).filter fun p =>
    decide (expiry ≤ 0) || decide (durationSub now p.lastHeartbeat ≤ expiry)

/-- `ListSeeds`. -/
def Memory.listSeeds (m : Memory) (g : Ranging) (artifactID : Str) : List Str :=
  g.order (Table.cols m.seeds artifactID)

/-- `LocateChunkNodes`. -/
def Memory.locateChunkNodes (m : Memory) (g : Ranging) (h : Str) : List Str :=
  g.order (Table.cols m.chunks h)

/-- `LocateChunkNodesBatch`: a list for each requested hash. -/
def Memory.locateChunkNodesBatch (m : Memory) (g : Ranging) (hashes : List Str) :
    AList fun _ : Str => List Str :=
  hashes.foldl (fun out h => out.insert h (m.locateChunkNodes g h)) ∅

/-- `GetPeersBatch`: the peers that are there. -/
def Memory.getPeersBatch (m : Memory) (nodeIDs : List Str) : AList fun _ : Str => Peer :=
  nodeIDs.foldl (fun out id =>
    match m.peers.lookup id with
    | some p => out.insert id p
    | none => out) ∅

/-- The reads of a memory store; none of them fails. -/
def Memory.viewIn (g : Ranging) (m : Memory) : StoreView where
  peer id := m.peers.lookup id
  seeds a := m.listSeeds g a
  holders h := m.locateChunkNodes g h
  fails _ := false

/-- The reads of a memory store whose maps are ranged over in the order of the
table. -/
def Memory.view (m : Memory) : StoreView := m.viewIn .plain

/-! ### What the methods do to the tables -/

/-- The rows nodes are recorded for. -/
inductive Row where
  | seed (artifactID : Str)
  | chunk (hash : Str)
  deriving DecidableEq

namespace Memory

variable {m : Memory} {now expiry : Time} {nodeID p : Str} {row : Row}

/-- The nodes recorded for a row. -/
def nodes (m : Memory) : Row → List Str
  | .seed artifactID => Table.cols m.seeds artifactID
  | .chunk h => Table.cols m.chunks h

theorem nodup_nodes : (m.nodes row).Nodup := by
  cases row <;> exact Table.nodup_cols _ _

/-- The node is a peer whose last heartbeat is further back than the expiry. -/
def Expired (now expiry : Time) (m : Memory) (p : Str) : Prop :=
  ∃ peer, m.peers.lookup p = some peer ∧ durationSub now peer.lastHeartbeat > expiry

theorem mem_peers_iff : p ∈ m.peers ↔ ∃ peer, m.peers.lookup p = some peer := by
  rw [← AList.lookup_isSome, Option.isSome_iff_exists]

@[simp] theorem nodes_upsertPeer {peer : Peer} : (m.upsertPeer now peer).nodes row = m.nodes row := by
  unfold upsertPeer
  split
  · rfl
  · cases row <;> rfl

theorem lookup_upsertPeer {peer : Peer} : (m.upsertPeer now peer).peers.lookup p =
    if p = peer.nodeID ∧ p ≠ [] then some (peer.withDefaults now) else m.peers.lookup p := by
  unfold upsertPeer
  by_cases hid : peer.nodeID = []
  · rw [if_pos hid, if_neg]
    intro ⟨hp, hne⟩
    exact hne (hp.trans hid)
  · rw [if_neg hid]
    by_cases hp : p = peer.nodeID
    · subst hp
      simp [hid]
    · simp [hp]

@[simp] theorem nodes_touch : (m.touch now nodeID).nodes row = m.nodes row := by
  unfold touch
  split
  · cases row <;> rfl
  · rfl

theorem lookup_touch : (m.touch now nodeID).peers.lookup p =
    if p = nodeID then (m.peers.lookup p).map fun q => { q with lastHeartbeat := now }
    else m.peers.lookup p := by
  unfold touch
  by_cases hp : p = nodeID
  · subst hp
    cases hq : m.peers.lookup p with
    | none => simp [hq]
    | some q => simp
  · cases hq : m.peers.lookup nodeID with
    | none => simp [hp]
    | some q => simp [hp]

@[simp] theorem arts_touch : (m.touch now nodeID).arts = m.arts := by
  unfold touch
  split <;> rfl

theorem heartbeat_snd : (m.heartbeat now nodeID).2 = m.touch now nodeID := by
  unfold heartbeat
  cases hq : m.peers.lookup nodeID with
  | none => simp [touch, hq]
  | some q => rfl

theorem heartbeat_fst : (m.heartbeat now nodeID).1 = decide (nodeID ∈ m.peers) := by
  unfold heartbeat
  cases hq : m.peers.lookup nodeID with
  | none =>
      have hnot : nodeID ∉ m.peers := AList.lookup_eq_none.mp hq
      simp [hnot]
  | some q =>
      have hmem : nodeID ∈ m.peers := mem_peers_iff.mpr ⟨q, hq⟩
      simp [hmem]

/-- After a heartbeat of a peer. -/
theorem lookup_of_heartbeat {m' : Memory} (h : (true, m') = m.heartbeat now nodeID) :
    ∃ q : Peer, m'.peers.lookup nodeID = some { q with lastHeartbeat := now } := by
  have hmem : nodeID ∈ m.peers := by
    have hok : true = (m.heartbeat now nodeID).1 := congrArg Prod.fst h
    rw [heartbeat_fst] at hok
    exact of_decide_eq_true hok.symm
  obtain ⟨q, hq⟩ := mem_peers_iff.mp hmem
  have hm' : m' = m.touch now nodeID := by
    rw [← heartbeat_snd, ← h]
  refine ⟨q, ?_⟩
  rw [hm', lookup_touch, if_pos rfl, hq]
  rfl

theorem mem_nodes_remove : p ∈ (m.remove nodeID).nodes row ↔ p ∈ m.nodes row ∧ p ≠ nodeID := by
  cases row <;> exact Table.mem_cols_drop

theorem lookup_remove : (m.remove nodeID).peers.lookup p =
    if p = nodeID then none else m.peers.lookup p := by
  by_cases hp : p = nodeID
  · subst hp
    simp [remove]
  · simp [remove, hp]

variable {ids hashes : List Str}

theorem lookup_foldl_remove : (ids.foldl remove m).peers.lookup p =
    if p ∈ ids then none else m.peers.lookup p := by
  induction ids generalizing m with
  | nil => simp
  | cons id ids ih =>
      rw [List.foldl_cons, ih, lookup_remove]
      by_cases hp : p = id <;> simp [hp]

theorem mem_nodes_foldl_remove :
    p ∈ (ids.foldl remove m).nodes row ↔ p ∈ m.nodes row ∧ p ∉ ids := by
  induction ids generalizing m with
  | nil => simp
  | cons id ids ih =>
      rw [List.foldl_cons, ih, mem_nodes_remove, List.mem_cons, not_or, and_assoc]

theorem arts_foldl_remove : (ids.foldl remove m).arts = m.arts := by
  induction ids generalizing m with
  | nil => rfl
  | cons id ids ih => rw [List.foldl_cons, ih, remove]

theorem mem_dead : p ∈ m.dead now expiry ↔ Expired now expiry m p := by
  unfold dead Expired
  rw [List.mem_filter]
  cases hq : m.peers.lookup p with
  | none => simp
  | some q =>
      have hmem : p ∈ m.peers.keys := AList.mem_keys.mpr (mem_peers_iff.mpr ⟨q, hq⟩)
      simp [hmem]

/-- A prune removes the expired peers. -/
theorem lookup_pruneExpiredPeers : (m.pruneExpiredPeers now expiry).2.peers.lookup p =
    (m.peers.lookup p).filter fun q => decide (durationSub now q.lastHeartbeat ≤ expiry) := by
  rw [pruneExpiredPeers, lookup_foldl_remove]
  simp only [mem_dead, Expired]
  cases hq : m.peers.lookup p with
  | none => simp
  | some q =>
      by_cases hexp : durationSub now q.lastHeartbeat ≤ expiry
      · have hkept : ¬ expiry < durationSub now q.lastHeartbeat := not_lt_of_ge hexp
        simp [hkept, hexp, Option.filter]
      · have hgone : expiry < durationSub now q.lastHeartbeat := lt_of_not_ge hexp
        simp [hgone, hexp, Option.filter]

@[simp] theorem peers_reportSeed {artifactID : Str} :
    (m.reportSeed now artifactID nodeID).peers = m.peers := rfl

theorem mem_nodes_reportSeed {artifactID : Str} :
    p ∈ (m.reportSeed now artifactID nodeID).nodes row ↔
      (p = nodeID ∧ row = .seed artifactID) ∨ p ∈ m.nodes row := by
  cases row with
  | seed a =>
      have hput : p ∈ Table.cols (Table.put m.seeds artifactID nodeID now) a ↔ _ := Table.mem_cols_put
      rw [and_comm, Row.seed.injEq]
      exact hput
  | chunk h => simp [nodes, reportSeed]

@[simp] theorem peers_reportChunk {h : Str} : (m.reportChunk now nodeID h).peers = m.peers := by
  unfold reportChunk
  split <;> rfl

theorem mem_nodes_reportChunk {h : Str} :
    p ∈ (m.reportChunk now nodeID h).nodes row ↔
      (p = nodeID ∧ h ≠ [] ∧ row = .chunk h) ∨ p ∈ m.nodes row := by
  unfold reportChunk
  by_cases hh : h = []
  · simp [hh]
  · rw [if_neg hh]
    cases row with
    | seed a => simp [nodes]
    | chunk h' =>
        have hput : p ∈ Table.cols (Table.put m.chunks h nodeID now) h' ↔ _ := Table.mem_cols_put
        simp only [ne_eq, hh, not_false_eq_true, true_and, Row.chunk.injEq]
        rw [and_comm]
        exact hput

theorem peers_foldl_reportChunk :
    (hashes.foldl (fun m h => m.reportChunk now nodeID h) m).peers = m.peers := by
  induction hashes generalizing m with
  | nil => rfl
  | cons h hashes ih => rw [List.foldl_cons, ih, peers_reportChunk]

theorem arts_foldl_reportChunk :
    (hashes.foldl (fun m h => m.reportChunk now nodeID h) m).arts = m.arts := by
  induction hashes generalizing m with
  | nil => rfl
  | cons h hashes ih =>
      rw [List.foldl_cons, ih, reportChunk]
      split <;> rfl

theorem lookup_reportChunks :
    (m.reportChunks now nodeID hashes).peers.lookup p = (m.touch now nodeID).peers.lookup p := by
  rw [reportChunks, peers_foldl_reportChunk]

theorem mem_nodes_foldl_reportChunk :
    p ∈ (hashes.foldl (fun m h => m.reportChunk now nodeID h) m).nodes row ↔
      (p = nodeID ∧ ∃ h ∈ hashes, h ≠ [] ∧ row = .chunk h) ∨ p ∈ m.nodes row := by
  induction hashes generalizing m with
  | nil => simp
  | cons h hashes ih =>
      rw [List.foldl_cons, ih, mem_nodes_reportChunk]
      grind

theorem mem_nodes_reportChunks :
    p ∈ (m.reportChunks now nodeID hashes).nodes row ↔
      (p = nodeID ∧ ∃ h ∈ hashes, h ≠ [] ∧ row = .chunk h) ∨ p ∈ m.nodes row := by
  rw [reportChunks, mem_nodes_foldl_reportChunk, nodes_touch]

end Memory

end Spider

import Spider.Tracker.History

/-!
# Spider.Tracker.Locate

What the tracker answers after a history, over the memory store.

`membership` reads off a history who is registered, with what data, and when
that was last refreshed; together with `Reported` it decides the answers of
`LocateChunks` and `LocateArtifact` (`Listed`).  The memory store agrees with
it after every history (`lookup_run`).
-/

namespace Spider

open Conc

/-! ## Reads of the memory store -/

section Reads

variable {g : Ranging} {m : Memory} {r : Registry} {t : Time} {node : Str}

theorem lookup_locateChunkNodesBatch {hashes : List Str} {h : Str} :
    (m.locateChunkNodesBatch g hashes).lookup h =
      if h ∈ hashes then some (m.locateChunkNodes g h) else none :=
  AList.lookup_foldl_collect (f := fun h => some (m.locateChunkNodes g h))
    (fun _ _ _ hv => by rw [Option.some.inj hv]) (fun _ _ hv => nomatch hv)

variable {ids : List Str}

theorem lookup_getPeersBatch {id : Str} :
    (m.getPeersBatch ids).lookup id = if id ∈ ids then m.peers.lookup id else none :=
  AList.lookup_foldl_collect (f := fun id => m.peers.lookup id) (fun _ _ _ hv => by rw [hv])
    (fun _ _ hv => by rw [hv])

theorem peersBatch_viewIn {id : Str} :
    (m.viewIn g).peersBatch ids id = if id ∈ ids then m.peers.lookup id else none := rfl

theorem peersFromCache_congr {peers peers' : Str → Option Peer}
    (h : ∀ id ∈ ids, id ≠ node → peers id = peers' id) :
    r.peersFromCache ids node t peers = r.peersFromCache ids node t peers' := by
  refine List.filterMap_congr fun id hid => ?_
  by_cases hskip : id = node
  · simp [hskip]
  · simp only [if_neg hskip, h id hid hskip]

theorem mem_uniqueIDs {located : AList fun _ : Str => List Str} {id : Str} :
    id ∈ Tracker.uniqueIDs located node ↔
      id ≠ node ∧ ∃ h ids, located.lookup h = some ids ∧ id ∈ ids := by
  unfold Tracker.uniqueIDs
  rw [List.mem_dedup, List.mem_filter, List.mem_flatMap, and_comm]
  refine and_congr (by simp) ?_
  constructor
  · intro ⟨⟨h, ids⟩, he, hid⟩
    exact ⟨h, ids, AList.mem_lookup_iff.mpr he, hid⟩
  · intro ⟨h, ids, hlook, hid⟩
    exact ⟨⟨h, ids⟩, AList.mem_lookup_iff.mp hlook, hid⟩

theorem eval_requesterLoc :
    (Tracker.requesterLoc node).eval ((Memory.exec g).handler t) m =
      (requesterLoc (m.viewIn g) node, m) := by
  rw [Tracker.requesterLoc, Prog.eval_bind, eval_callStore]
  dsimp only [Memory.exec]
  cases hp : m.peers.lookup node with
  | none | some p => simp [requesterLoc, Memory.viewIn, hp]

/-- `LocateChunks` over the memory store. -/
theorem eval_locateChunks {hashes : List Str} :
    (Tracker.locateChunks r node hashes).eval ((Memory.exec g).handler t) m =
      (r.locateChunks (m.viewIn g) t node hashes, m) := by
  rw [Tracker.locateChunks, Prog.eval_bind, eval_requesterLoc, Prog.eval_bind, eval_readClock,
    Prog.eval_bind, eval_callStore]
  dsimp only [Memory.exec]
  refine Prod.ext (List.map_congr_left fun h hh => ?_) rfl
  have hholders : ((m.locateChunkNodesBatch g hashes).lookup h).getD [] =
      (m.viewIn g).locateChunkNodes h := by
    rw [lookup_locateChunkNodesBatch, if_pos hh]
    rfl
  rw [hholders]
  congr 2
  refine peersFromCache_congr fun id hid hskip => ?_
  have hasked : id ∈ Tracker.uniqueIDs (m.locateChunkNodesBatch g hashes) node := by
    refine mem_uniqueIDs.mpr ⟨hskip, h, m.locateChunkNodes g h, ?_, hid⟩
    rw [lookup_locateChunkNodesBatch, if_pos hh]
  have hbatch : id ∈ (m.viewIn g).holderIDs node hashes := by
    rw [StoreView.holderIDs, List.mem_dedup, List.mem_filter]
    exact ⟨List.mem_flatMap.mpr ⟨h, hh, hid⟩, by simpa using hskip⟩
  show (m.getPeersBatch _).lookup id = _
  rw [lookup_getPeersBatch, if_pos hasked, peersBatch_viewIn, if_pos hbatch]

theorem eval_peersForIDs {now : Time} :
    (Tracker.peersForIDs r ids node now).eval ((Memory.exec g).handler t) m =
      (r.peersFromCache ids node now (m.getPeersBatch ids).lookup, m) := rfl

/-- `LocateArtifact` over the memory store. -/
theorem eval_locateArtifact {artifactID : Str} :
    (Tracker.locateArtifact r node artifactID).eval ((Memory.exec g).handler t) m =
      (r.locateArtifact (m.viewIn g) t node artifactID, m) := by
  rw [Tracker.locateArtifact, Prog.eval_bind, eval_callStore]
  rw [Prog.eval_bind, eval_readClock, Prog.eval_bind, eval_peersForIDs, Prog.eval_bind,
    eval_requesterLoc, Prog.eval_pure]
  have hpeers : r.peersFromCache (m.listSeeds g artifactID) node t
        (m.getPeersBatch (m.listSeeds g artifactID)).lookup =
      r.peersFromCache ((m.viewIn g).listSeeds artifactID) node t
        ((m.viewIn g).peersBatch ((m.viewIn g).listSeeds artifactID)) :=
    peersFromCache_congr fun _ _ _ => lookup_getPeersBatch
  exact Prod.ext (congrArg (sortPeersByProximity _ _) hpeers) rfl

end Reads

/-! ## Membership -/

/-- A registered node: what it registered with, and its last refresh. -/
structure Member where
  info : PeerInfo
  refreshed : Instant

/-- The peer a store keeps for a member. -/
def Member.peer (m : Member) : Peer := registeredPeer m.info m.refreshed.1

/-- The last refresh is at most the expiry before `t`. -/
def Member.fresh (r : Registry) (t : Instant) (m : Member) : Bool :=
  decide (t.1 - m.refreshed.1 ≤ r.peerExpiry)

theorem fresh_eq (r : Registry) (t : Instant) (m : Member) :
    decide (durationSub t.1 m.peer.lastHeartbeat ≤ r.peerExpiry) = m.fresh r t := by
  have hsub : durationSub t.1 m.peer.lastHeartbeat = t.1 - m.refreshed.1 :=
    durationSub_instant t m.refreshed
  rw [hsub, Member.fresh]

/-- The membership of node `p` after a history, newest event first: it lasts from
a registration to the next deregistration, or to a prune that comes too long
after the last refresh.  Heartbeats and chunk reports refresh it. -/
def membership (r : Registry) (p : Str) : List Event → Option Member
  | [] => none
  | ⟨t, q⟩ :: past =>
      match q with
      | .registerPeer none => membership r p past
      | .registerPeer (some info) =>
          if p = info.nodeID ∧ p ≠ [] then some ⟨info, t⟩ else membership r p past
      | .heartbeat nodeID =>
          if p = nodeID then (membership r p past).map fun m => { m with refreshed := t }
          else membership r p past
      | .reportChunks nodeID _ =>
          if p = nodeID then (membership r p past).map fun m => { m with refreshed := t }
          else membership r p past
      | .reportArtifact _ _ => membership r p past
      | .deregisterPeer nodeID => if p = nodeID then none else membership r p past
      | .pruneDeadPeers => (membership r p past).filter (Member.fresh r t)

section Membership

variable {g : Ranging} {r : Registry} {p : Str}

theorem withDefaults_registeredPeer (info : PeerInfo) (now : Time) :
    (registeredPeer info now).withDefaults now = registeredPeer info now := by
  have hstatus : str "HEALTHY" ≠ [] := by decide
  simp [Peer.withDefaults, registeredPeer, Peer.ofProto, hstatus]

theorem map_peer_touch (o : Option Member) (t : Instant) :
    (o.map Member.peer).map (fun q => { q with lastHeartbeat := t.1 }) =
      (o.map fun m => { m with refreshed := t }).map Member.peer := by
  cases o <;> rfl

theorem map_peer_filter (o : Option Member) (t : Instant) :
    (o.map Member.peer).filter
        (fun q => decide (durationSub t.1 q.lastHeartbeat ≤ r.peerExpiry)) =
      (o.filter (Member.fresh r t)).map Member.peer := by
  cases o with
  | none => rfl
  | some m =>
      rw [Option.map_some, Option.filter_some, fresh_eq, Option.filter_some]
      split <;> rfl

/-- After every history, the peers of the memory store are the members. -/
theorem lookup_run (history : List Event) :
    ((memoryStore g).run r history).peers.lookup p = (membership r p history).map Member.peer := by
  induction history with
  | nil => rfl
  | cons e past ih =>
      obtain ⟨t, q⟩ := e
      rw [TrackerStore.run_cons]
      generalize (memoryStore g).run r past = m at ih
      cases q with
      | registerPeer peer =>
          cases peer with
          | none => exact ih
          | some info =>
              by_cases hid : info.nodeID = []
              · have hp : ¬ (p = info.nodeID ∧ p ≠ []) := fun h => h.2 (h.1.trans hid)
                simpa only [Request.call, membership, if_pos hid, if_neg hp] using ih
              · simp only [Request.call, if_neg hid, membership, apply_ite (Option.map Member.peer)]
                show (m.upsertPeer t.1 (registeredPeer info t.1)).peers.lookup p = _
                rw [Memory.lookup_upsertPeer, withDefaults_registeredPeer, ih]
                rfl
      | heartbeat nodeID =>
          show (m.heartbeat t.1 nodeID).2.peers.lookup p = _
          rw [Memory.heartbeat_snd, Memory.lookup_touch, ih, map_peer_touch]
          exact (apply_ite (Option.map Member.peer) _ _ _).symm
      | reportChunks nodeID chunkHashes =>
          show (m.reportChunks t.1 nodeID chunkHashes).peers.lookup p = _
          rw [Memory.lookup_reportChunks, Memory.lookup_touch, ih, map_peer_touch]
          exact (apply_ite (Option.map Member.peer) _ _ _).symm
      | reportArtifact nodeID artifactID => exact ih
      | deregisterPeer nodeID =>
          show (m.remove nodeID).peers.lookup p = _
          rw [Memory.lookup_remove, ih]
          simp only [membership, apply_ite (Option.map Member.peer), Option.map_none]
      | pruneDeadPeers =>
          show (m.pruneExpiredPeers t.1 r.peerExpiry).2.peers.lookup p = _
          rw [Memory.lookup_pruneExpiredPeers, ih]
          exact map_peer_filter _ t

/-- A member is registered under its own node id. -/
theorem nodeID_of_membership {history : List Event} {m : Member}
    (h : membership r p history = some m) : m.info.nodeID = p := by
  induction history generalizing m with
  | nil => contradiction
  | cons e past ih =>
      obtain ⟨t, q⟩ := e
      have hrefresh : ∀ {m}, ((membership r p past).map fun m => { m with refreshed := t }) = some m →
          m.info.nodeID = p := by
        intro m hm
        obtain ⟨m0, hm0, rfl⟩ := Option.map_eq_some_iff.mp hm
        have hid : m0.info.nodeID = p := ih hm0
        exact hid
      cases q with
      | registerPeer peer =>
          cases peer with
          | none => exact ih h
          | some info =>
              simp only [membership] at h
              split at h
              · rename_i hp
                cases h
                exact hp.1.symm
              · exact ih h
      | heartbeat nodeID | reportChunks nodeID chunkHashes =>
          simp only [membership] at h
          split at h
          · exact hrefresh h
          · exact ih h
      | reportArtifact nodeID artifactID => exact ih h
      | deregisterPeer nodeID =>
          obtain ⟨-, h⟩ := Option.ite_none_left_eq_some.mp h
          exact ih h
      | pruneDeadPeers => exact ih (Option.eq_some_of_filter_eq_some h)

/-- The rows of the memory store are the reports since the last removal. -/
theorem mem_nodes_run {history : List Event} {row : Row} :
    p ∈ ((memoryStore g).run r history).nodes row ↔
      Reported (fun h => (membership r p h).isSome) row p history := by
  have hreg : (fun h => (memoryStore g).registered ((memoryStore g).run r h) p) =
      fun h => ((membership r p h).isSome : Prop) := by
    funext h
    show (p ∈ ((memoryStore g).run r h).peers) = _
    rw [← AList.lookup_isSome, lookup_run, Option.isSome_map]
  rw [← hreg]
  exact located_run (S := memoryStore g) history

end Membership

/-! ## Answers -/

/-- The locality a node registered with. -/
def localityOf (r : Registry) (node : Str) (history : List Event) : Locality :=
  match membership r node history with
  | some m => .ofProto m.info
  | none => ⟨[], [], [], []⟩

/-- Node `p` is to be handed out for a row at time `t`: it is not the requester,
has reported the row after its last removal, is registered, and was refreshed
within the expiry. -/
def Listed (r : Registry) (history : List Event) (t : Instant) (requesterNodeID : Str) (row : Row)
    (p : Str) : Prop :=
  p ≠ requesterNodeID ∧ Reported (fun h => (membership r p h).isSome) row p history ∧
    ∃ m, membership r p history = some m ∧ m.fresh r t

/-- Peers of distinct nodes, the nearest to the requester first, those at the
same distance by their node ids. -/
def Ranked (r : Registry) (history : List Event) (requesterNodeID : Str) (peers : List PeerInfo) :
    Prop :=
  (peers.map PeerInfo.nodeID).Nodup ∧
    peers.Pairwise (Nearer r.eqFold (localityOf r requesterNodeID history))

section Answers

variable {g : Ranging} {r : Registry} {history : List Event} {t : Instant} {node : Str}

theorem requesterLoc_run :
    requesterLoc (((memoryStore g).run r history).viewIn g) node = localityOf r node history := by
  have hpeer := lookup_run (g := g) (r := r) (p := node) history
  cases hm : membership r node history with
  | none => simp_all [requesterLoc, localityOf, Memory.viewIn]
  | some m => simp_all [requesterLoc, localityOf, Memory.viewIn]; rfl

variable {found : Str → Option Peer}

/-- The peers handed out, by their node ids. -/
theorem map_nodeID_peersFromCache {ids : List Str}
    (hfound : ∀ id ∈ ids, id ≠ node → found id = (membership r id history).map Member.peer) :
    (r.peersFromCache ids node t.1 found).map PeerInfo.nodeID =
      ids.filter fun p => decide (p ≠ node) &&
        (membership r p history).any (Member.fresh r t) := by
  induction ids with
  | nil => rfl
  | cons id ids ih =>
      have ih := ih fun i hi => hfound i (List.mem_cons_of_mem id hi)
      rw [Registry.peersFromCache] at ih ⊢
      by_cases hskip : id = node
      · simpa [hskip] using ih
      · have hid := hfound id List.mem_cons_self hskip
        cases hm : membership r id history with
        | none => simpa [hskip, hid, hm] using ih
        | some m =>
            have hnode : m.peer.proto.nodeID = id := nodeID_of_membership hm
            have hiff := fresh_eq r t m
            cases hfresh : m.fresh r t with
            | true =>
                have halive : durationSub t.1 m.peer.lastHeartbeat ≤ r.peerExpiry := by
                  simpa [hfresh] using hiff
                simpa [hskip, hid, hm, halive, hfresh, hnode] using ih
            | false =>
                have hdead : ¬ durationSub t.1 m.peer.lastHeartbeat ≤ r.peerExpiry := by
                  simpa [hfresh] using hiff
                simpa [hskip, hid, hm, hdead, hfresh] using ih

/-- What is handed out for the nodes of a row. -/
theorem handedOut_run (row : Row) {ids : List Str}
    (hids : ids.Perm (((memoryStore g).run r history).nodes row)) (hfound : ∀ id ∈ ids, id ≠ node →
      found id = ((memoryStore g).run r history).peers.lookup id) :
    Ranked r history node
        (sortPeersByProximity r.eqFold (localityOf r node history)
          (r.peersFromCache ids node t.1 found)) ∧
      ∀ p, p ∈ (sortPeersByProximity r.eqFold (localityOf r node history)
          (r.peersFromCache ids node t.1 found)).map PeerInfo.nodeID ↔
        Listed r history t node row p := by
  simp only [lookup_run] at hfound
  have hperm : ((sortPeersByProximity r.eqFold (localityOf r node history)
      (r.peersFromCache ids node t.1 found)).map PeerInfo.nodeID).Perm
      ((r.peersFromCache ids node t.1 found).map PeerInfo.nodeID) :=
    perm_sortPeersByProximity.map PeerInfo.nodeID
  have hmap := map_nodeID_peersFromCache (t := t) hfound
  rw [hmap] at hperm
  have hnodes : (ids.filter fun p => decide (p ≠ node) &&
      (membership r p history).any (Member.fresh r t)).Nodup :=
    (hids.nodup_iff.mpr Memory.nodup_nodes).filter _
  refine ⟨⟨hperm.nodup_iff.mpr hnodes, strict_sortPeersByProximity (hmap ▸ hnodes)⟩, fun p => ?_⟩
  rw [hperm.mem_iff, List.mem_filter, hids.mem_iff, mem_nodes_run, Listed]
  simp only [ne_eq, Bool.and_eq_true, decide_eq_true_eq, Option.any_eq_true]
  tauto

end Answers

/-- After every history, at every time: `LocateChunks` returns one location for
each requested hash, in order; each lists, ranked, just the nodes to be handed
out for the hash.  `LocateArtifact` lists, ranked, just those to be handed out
for the artifact. -/
theorem locate_run (r : Registry) (g : Ranging) (history : List Event) (t : Instant)
    (requesterNodeID : Str) :
    (∀ chunkHashes,
      let locations := ((Tracker.locateChunks r requesterNodeID chunkHashes).eval
        ((Memory.exec g).handler t.1) ((memoryStore g).run r history)).1
      locations.map ChunkLocation.chunkHash = chunkHashes ∧
        ∀ loc ∈ locations, Ranked r history requesterNodeID loc.peers ∧
          ∀ p, p ∈ loc.peers.map PeerInfo.nodeID ↔
            Listed r history t requesterNodeID (.chunk loc.chunkHash) p) ∧
    ∀ artifactID,
      let peers := ((Tracker.locateArtifact r requesterNodeID artifactID).eval
        ((Memory.exec g).handler t.1) ((memoryStore g).run r history)).1
      Ranked r history requesterNodeID peers ∧
        ∀ p, p ∈ peers.map PeerInfo.nodeID ↔
          Listed r history t requesterNodeID (.seed artifactID) p := by
  constructor
  · intro chunkHashes
    simp only [eval_locateChunks, Registry.locateChunks, requesterLoc_run]
    refine ⟨by simp [Function.comp_def], fun loc hloc => ?_⟩
    obtain ⟨h, hh, rfl⟩ := List.mem_map.mp hloc
    refine handedOut_run (.chunk h) (g.perm _) fun id hid hskip => ?_
    rw [peersBatch_viewIn, if_pos]
    rw [StoreView.holderIDs, List.mem_dedup, List.mem_filter]
    exact ⟨List.mem_flatMap.mpr ⟨h, hh, hid⟩, by simpa using hskip⟩
  · intro artifactID
    simp only [eval_locateArtifact, Registry.locateArtifact, requesterLoc_run]
    refine handedOut_run (.seed artifactID) (g.perm _) fun id hid _ => ?_
    rw [peersBatch_viewIn, if_pos hid]

end Spider

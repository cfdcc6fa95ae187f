import Spider.Tracker.Batch

/-!
# Spider.Tracker.Drivers

The two drivers of the store side by side.  The SQL store keeps whole seconds, so the clock
is read, and times are handed in, in whole seconds.

* `SameTables` relates the maps of the memory store to the tables of the SQL store: the same
  peers and artifacts, and the same nodes for each seed and chunk.
* `SameTables.exec`: a call keeps the relation.
* `SameTables.answer`: stores that are so related give the same answer to every call.

By induction the two drivers, both started empty, answer alike to every sequence of calls.
-/

namespace Spider

/-! ## Whole seconds -/

/-- A whole second after 1970. -/
def WholeSecond (t : Time) : Prop := 0 ≤ t ∧ 1000000000 ∣ t

/-- A `time.Duration` of whole seconds. -/
def WholeDuration (d : Time) : Prop := -2 ^ 63 ≤ d ∧ d < 2 ^ 63 ∧ 1000000000 ∣ d

theorem WholeSecond.unix_mul {t : Time} (ht : WholeSecond t) : unix t * 1000000000 = t :=
  Int.ediv_mul_cancel ht.2

theorem WholeSecond.unix_nonneg {t : Time} (ht : WholeSecond t) : 0 ≤ unix t :=
  Int.ediv_nonneg ht.1 (by decide)

theorem durationSub_le_iff {a b d : Int} :
    durationSub a b ≤ d ↔ (-2 ^ 63 : Int) ≤ d ∧ ((2 ^ 63 - 1 : Int) ≤ d ∨ a - b ≤ d) :=
  max_le_iff.trans (and_congr_right' min_le_iff)

/-- The two comparisons of a heartbeat with an expiry agree.  A difference that does not fit
a `time.Duration` is on the same side of every expiry as the one `Sub` returns for it. -/
theorem unix_le_iff {now expiry : Int} (hnow : WholeSecond now) (hexp : WholeDuration expiry)
    (heard : Int) :
    unix (now - expiry) ≤ heard ↔ durationSub now (heard * 1000000000) ≤ expiry := by
  obtain ⟨hlow, hhigh, e, rfl⟩ := hexp
  obtain ⟨-, n, rfl⟩ := hnow
  have hlow : (-2 ^ 63 : Int) ≤ 1000000000 * e := hlow
  have hhigh : (1000000000 * e : Int) < 2 ^ 63 := hhigh
  have hcut : unix (1000000000 * n - 1000000000 * e) = n - e := by
    unfold unix
    omega
  rw [hcut, durationSub_le_iff]
  omega

/-- The times among the arguments of a call are whole seconds.  In `UpsertPeer` the zero time
stands for the time of the call. -/
def StoreCall.InSeconds : StoreCall → Prop
  | .upsertPeer peer => peer.lastHeartbeat = zeroTime ∨ WholeSecond peer.lastHeartbeat
  | .listPeers expiry | .pruneExpiredPeers expiry => WholeDuration expiry
  | _ => True

/-- Two answers to a call are the same: lists are compared as sets, maps by their keys. -/
def StoreCall.SameAnswer : (c : StoreCall) → c.Resp → c.Resp → Prop
  | .listPeers _, peers, peers' => ∀ p, p ∈ peers ↔ p ∈ peers'
  | .listSeeds _, ids, ids' => ∀ id, id ∈ ids ↔ id ∈ ids'
  | .locateChunkNodes _, ids, ids' => ∀ id, id ∈ ids ↔ id ∈ ids'
  | .locateChunkNodesBatch _, out, out' => ∀ h,
      Option.Rel (fun ids ids' => ∀ id, id ∈ ids ↔ id ∈ ids') (out.lookup h) (out'.lookup h)
  | .getPeersBatch _, out, out' => ∀ id, out.lookup id = out'.lookup id
  | _, r, r' => r = r'

/-- Two drivers, from these states on, give the same answers to the calls, each at its time
and in whatever order the drivers list rows and range over maps. -/
def AnswerAlike {σ τ : Type} (driver : Ranging → StoreImpl σ) (driver' : Ranging → StoreImpl τ) :
    List (Time × StoreCall) → σ → τ → Prop
  | [], _, _ => True
  | (now, c) :: calls, s, t => ∀ g g',
      c.SameAnswer (driver g now c s).1 (driver' g' now c t).1 ∧
        AnswerAlike driver driver' calls (driver g now c s).2 (driver' g' now c t).2

/-! ## The SQL store's tables after a call -/

namespace SQLStore

variable {g : Ranging} {s : SQLStore} {now : Time} {c : StoreCall} {id : Str}
variable {nodeID : Str}

theorem lookup_touchPeer : (s.touchPeer now nodeID).peers.lookup id =
    if id = nodeID then (s.peers.lookup id).map fun r => { r with lastHeartbeat := unix now }
    else s.peers.lookup id := by
  unfold touchPeer
  by_cases hid : id = nodeID
  · subst hid
    cases hr : s.peers.lookup id with
    | none => simp [hr]
    | some r => simp
  · cases hr : s.peers.lookup nodeID with
    | none => simp [hid]
    | some r => simp [hid]

/-- The rows of `peers` after a call. -/
theorem lookup_peers_exec : (SQLStore.exec g now c s).2.peers.lookup id =
    match c with
    | .upsertPeer peer =>
        if id = peer.nodeID ∧ id ≠ [] then some (row (peer.withDefaults now))
        else s.peers.lookup id
    | .heartbeat nodeID | .reportChunks nodeID _ =>
        if id = nodeID then (s.peers.lookup id).map fun r => { r with lastHeartbeat := unix now }
        else s.peers.lookup id
    | .deregisterPeer nodeID => if id = nodeID then none else s.peers.lookup id
    | .pruneExpiredPeers expiry =>
        (s.peers.lookup id).filter fun r => decide (unix (now - expiry) ≤ r.lastHeartbeat)
    | _ => s.peers.lookup id := by
  cases c with
  | upsertPeer peer =>
      dsimp only [exec, upsertPeer]
      by_cases hempty : peer.nodeID = []
      · rw [if_pos hempty, if_neg]
        intro ⟨hid, hne⟩
        exact hne (hid.trans hempty)
      · rw [if_neg hempty]
        by_cases hid : id = peer.nodeID
        · subst hid
          simp [hempty]
        · simp [hid]
  | heartbeat nodeID => exact lookup_touchPeer
  | deregisterPeer nodeID =>
      dsimp only [exec, deregisterPeer, deleteNodes]
      rw [AList.lookup_deleteWhere]
      simp
  | pruneExpiredPeers expiry =>
      dsimp only [exec, pruneExpiredPeers, deleteNodes]
      rw [AList.lookup_deleteWhere, expired]
      cases hr : s.peers.lookup id with
      | none => simp
      | some r =>
          by_cases hcut : r.lastHeartbeat < unix (now - expiry)
          · simp [Option.filter, hcut]
          · simp [Option.filter, hcut, Int.not_lt.mp hcut]
  | reportChunks nodeID hashes =>
      dsimp only [exec, reportChunks]
      rw [peers_foldl_upsertChunk]
      exact lookup_touchPeer
  | _ => rfl

theorem artifacts_foldl_upsertChunk {hashes : List Str} :
    (hashes.foldl (fun s h => s.upsertChunk now nodeID h) s).artifacts = s.artifacts := by
  induction hashes generalizing s with
  | nil => rfl
  | cons h hashes ih =>
      rw [List.foldl_cons, ih, upsertChunk]
      split <;> rfl

theorem artifacts_touchPeer : (s.touchPeer now nodeID).artifacts = s.artifacts := by
  unfold touchPeer
  split <;> rfl

/-- The rows of `artifacts` after a call. -/
theorem lookup_artifacts_exec : (SQLStore.exec g now c s).2.artifacts.lookup id =
    match c with
    | .putArtifact rec => if id = rec.artifactID then some rec else s.artifacts.lookup id
    | _ => s.artifacts.lookup id := by
  cases c with
  | upsertPeer peer =>
      rw [exec, upsertPeer]
      split <;> rfl
  | heartbeat nodeID => exact congrArg _ artifacts_touchPeer
  | putArtifact rec =>
      by_cases hid : id = rec.artifactID
      · subst hid
        simp [exec, putArtifact]
      · simp [exec, putArtifact, hid]
  | reportChunks nodeID hashes =>
      exact congrArg _ (artifacts_foldl_upsertChunk.trans artifacts_touchPeer)
  | _ => rfl

end SQLStore

/-! ## The same tables -/

/-- A memory store and a SQL store that hold the same. -/
structure SameTables (m : Memory) (s : SQLStore) : Prop where
  peers : ∀ id, m.peers.lookup id = (s.peers.lookup id).map (SQLStore.scanPeer id)
  heard : ∀ id r, s.peers.lookup id = some r → 0 ≤ r.lastHeartbeat
  artifacts : ∀ id, m.arts.lookup id = s.artifacts.lookup id
  located : ∀ loc p, p ∈ m.nodes loc ↔ s.Located loc p

namespace SameTables

variable {g g' : Ranging} {m : Memory} {s : SQLStore} {now expiry : Time} {c : StoreCall}

theorem new : SameTables .new .new where
  peers _ := rfl
  heard _ _ h := nomatch h
  artifacts _ := rfl
  located loc p := iff_of_false ((memoryStore .plain).not_located_init loc p)
    ((sqlStore .plain).not_located_init loc p)

/-- The heartbeat `UpsertPeer` keeps. -/
theorem wholeSecond_withDefaults {peer : Peer} (hnow : WholeSecond now)
    (hpeer : peer.lastHeartbeat = zeroTime ∨ WholeSecond peer.lastHeartbeat) :
    WholeSecond (peer.withDefaults now).lastHeartbeat := by
  unfold Peer.withDefaults
  dsimp only
  split
  · exact hnow
  · rename_i hne
    exact hpeer.resolve_left hne

theorem scanPeer_row {peer : Peer} (h : WholeSecond peer.lastHeartbeat) :
    SQLStore.scanPeer peer.nodeID (SQLStore.row peer) = peer := by
  simp only [SQLStore.scanPeer, SQLStore.row, h.unix_mul]

theorem scanPeer_touch {id : Str} {r : PeerRow} (hnow : WholeSecond now) :
    SQLStore.scanPeer id { r with lastHeartbeat := unix now } =
      { SQLStore.scanPeer id r with lastHeartbeat := now } := by
  simp only [SQLStore.scanPeer, hnow.unix_mul]

/-- The same peers are expired. -/
theorem expired_iff (h : SameTables m s) (hnow : WholeSecond now) (hexp : WholeDuration expiry)
    {p : Str} : m.Expired now expiry p ↔ s.expired (unix (now - expiry)) p = true := by
  rw [Memory.Expired, SQLStore.expired, h.peers]
  cases hr : s.peers.lookup p with
  | none => simp
  | some r =>
      have hcut := unix_le_iff hnow hexp r.lastHeartbeat
      simp only [Option.map_some, Option.some.injEq, exists_eq_left', decide_eq_true_eq]
      rw [← Int.not_le, hcut, SQLStore.scanPeer]
      exact Int.not_le.symm

/-- A call does the same to the peers. -/
theorem peers_exec (h : SameTables m s) (hnow : WholeSecond now) (hc : c.InSeconds) (id : Str) :
    (Memory.exec g now c m).2.peers.lookup id =
      ((SQLStore.exec g' now c s).2.peers.lookup id).map (SQLStore.scanPeer id) := by
  rw [lookup_exec, SQLStore.lookup_peers_exec]
  -- a touched peer
  have htouch : ∀ nodeID, (if id = nodeID then
        (m.peers.lookup id).map fun p => { p with lastHeartbeat := now }
      else m.peers.lookup id) =
      (if id = nodeID then
        (s.peers.lookup id).map fun r => { r with lastHeartbeat := unix now }
      else s.peers.lookup id).map (SQLStore.scanPeer id) := by
    intro nodeID
    rw [h.peers]
    split
    · rw [Option.map_map, Option.map_map]
      exact congrArg (Option.map · _) (funext fun r => (scanPeer_touch hnow).symm)
    · rfl
  cases c with
  | upsertPeer peer =>
      dsimp only
      split
      · rename_i hid
        rw [hid.1]
        exact congrArg some (scanPeer_row (wholeSecond_withDefaults hnow hc)).symm
      · exact h.peers id
  | heartbeat nodeID => exact htouch nodeID
  | deregisterPeer nodeID =>
      dsimp only
      split
      · rfl
      · exact h.peers id
  | pruneExpiredPeers expiry =>
      rw [h.peers]
      cases s.peers.lookup id with
      | none => rfl
      | some r =>
          have hcut := unix_le_iff hnow hc r.lastHeartbeat
          by_cases hkept : unix (now - expiry) ≤ r.lastHeartbeat
          · simp [Option.filter, SQLStore.scanPeer, hkept, hcut.mp hkept]
          · simp [Option.filter, SQLStore.scanPeer, hkept, mt hcut.mpr hkept]
  | reportChunks nodeID hashes => exact htouch nodeID
  | _ => exact h.peers id

/-- No heartbeat before 1970 gets into the table. -/
theorem heard_exec (h : SameTables m s) (hnow : WholeSecond now) (hc : c.InSeconds) (id : Str)
    (r : PeerRow) (hr : (SQLStore.exec g' now c s).2.peers.lookup id = some r) :
    0 ≤ r.lastHeartbeat := by
  rw [SQLStore.lookup_peers_exec] at hr
  have htouch : ∀ nodeID, (if id = nodeID then
        (s.peers.lookup id).map fun r => { r with lastHeartbeat := unix now }
      else s.peers.lookup id) = some r → 0 ≤ r.lastHeartbeat := by
    intro nodeID hr
    split at hr
    · obtain ⟨r0, -, rfl⟩ := Option.map_eq_some_iff.mp hr
      exact hnow.unix_nonneg
    · exact h.heard id r hr
  cases c with
  | upsertPeer peer =>
      dsimp only at hr
      split at hr
      · obtain rfl := Option.some.inj hr
        exact (wholeSecond_withDefaults hnow hc).unix_nonneg
      · exact h.heard id r hr
  | heartbeat nodeID => exact htouch nodeID hr
  | deregisterPeer nodeID =>
      dsimp only at hr
      split at hr
      · contradiction
      · exact h.heard id r hr
  | pruneExpiredPeers expiry => exact h.heard id r (Option.eq_some_of_filter_eq_some hr)
  | reportChunks nodeID hashes => exact htouch nodeID hr
  | _ => exact h.heard id r hr

theorem artifacts_exec (h : SameTables m s) (id : Str) :
    (Memory.exec g now c m).2.arts.lookup id =
      (SQLStore.exec g' now c s).2.artifacts.lookup id := by
  rw [lookup_arts_exec, SQLStore.lookup_artifacts_exec]
  cases c with
  | putArtifact rec =>
      rw [h.artifacts]
  | _ => exact h.artifacts id

/-- A call does the same to the rows of the nodes. -/
theorem located_exec (h : SameTables m s) (hnow : WholeSecond now) (hc : c.InSeconds) (loc : Row)
    (p : Str) :
    p ∈ (Memory.exec g now c m).2.nodes loc ↔ (SQLStore.exec g' now c s).2.Located loc p := by
  have hremoves : c.removes (m.Expired now · p) p ↔
      c.removes (fun expiry => s.expired (unix (now - expiry)) p = true) p := by
    cases c with
    | pruneExpiredPeers expiry => exact h.expired_iff hnow hc
    | _ => exact Iff.rfl
  have hmem := (memoryStore g).located_exec now c m loc p
  have hsql := (sqlStore g').located_exec now c s loc p
  exact (hmem.trans (or_congr_right (and_congr (h.located loc p) (not_congr hremoves)))).trans
    hsql.symm

/-- A call keeps the relation. -/
theorem exec (h : SameTables m s) (hnow : WholeSecond now) (hc : c.InSeconds) :
    SameTables (Memory.exec g now c m).2 (SQLStore.exec g' now c s).2 where
  peers := h.peers_exec hnow hc
  heard := h.heard_exec hnow hc
  artifacts := h.artifacts_exec
  located := h.located_exec hnow hc

/-! ### Answers -/

theorem mem_listPeers (h : SameTables m s) (hnow : WholeSecond now) (hexp : WholeDuration expiry)
    {p : Peer} : p ∈ m.listPeers g now expiry ↔ p ∈ s.listPeers g' now expiry := by
  have hmem : p ∈ m.listPeers g now expiry ↔ (∃ id, m.peers.lookup id = some p) ∧
      (expiry ≤ 0 ∨ durationSub now p.lastHeartbeat ≤ expiry) := by
    simp only [Memory.listPeers, List.mem_filter, g.mem_order, List.mem_map, Bool.or_eq_true,
      decide_eq_true_eq]
    refine and_congr_left' ⟨fun ⟨e, he, hp⟩ => ?_, fun ⟨id, hid⟩ => ?_⟩
    · exact ⟨e.1, AList.mem_lookup_iff.mpr (hp ▸ he)⟩
    · exact ⟨⟨id, p⟩, AList.mem_lookup_iff.mp hid, rfl⟩
  have hsql : p ∈ s.listPeers g' now expiry ↔ ∃ id r, s.peers.lookup id = some r ∧
      (if expiry > 0 then unix (now - expiry) else 0) ≤ r.lastHeartbeat ∧
      SQLStore.scanPeer id r = p := by
    simp only [SQLStore.listPeers, List.mem_map, List.mem_filter, g'.mem_order, decide_eq_true_eq]
    constructor
    · rintro ⟨e, ⟨he, hcut⟩, rfl⟩
      exact ⟨e.1, e.2, AList.mem_lookup_iff.mpr he, hcut, rfl⟩
    · rintro ⟨id, r, hr, hcut, rfl⟩
      exact ⟨⟨id, r⟩, ⟨AList.mem_lookup_iff.mp hr, hcut⟩, rfl⟩
  -- the condition on a row is the one on its peer
  have hcut : ∀ id r, s.peers.lookup id = some r →
      ((if expiry > 0 then unix (now - expiry) else 0) ≤ r.lastHeartbeat ↔
        expiry ≤ 0 ∨ durationSub now (SQLStore.scanPeer id r).lastHeartbeat ≤ expiry) := by
    intro id r hr
    by_cases hpos : expiry > 0
    · rw [if_pos hpos, unix_le_iff hnow hexp]
      exact (or_iff_right (Int.not_le.mpr hpos)).symm
    · rw [if_neg hpos]
      exact iff_of_true (h.heard id r hr) (.inl (Int.not_lt.mp hpos))
  rw [hmem, hsql]
  constructor
  · rintro ⟨⟨id, hid⟩, hexp⟩
    rw [h.peers] at hid
    obtain ⟨r, hr, rfl⟩ := Option.map_eq_some_iff.mp hid
    exact ⟨id, r, hr, (hcut id r hr).mpr hexp, rfl⟩
  · rintro ⟨id, r, hr, hkept, rfl⟩
    exact ⟨⟨id, by rw [h.peers, hr]; rfl⟩, (hcut id r hr).mp hkept⟩

/-- The same number of peers is pruned. -/
theorem pruned (h : SameTables m s) (hnow : WholeSecond now) (hexp : WholeDuration expiry) :
    (m.pruneExpiredPeers now expiry).1 = (s.pruneExpiredPeers now expiry).1 := by
  have hdead : (m.dead now expiry).Nodup := m.peers.keys_nodup.filter _
  have hgone : (s.peers.keys.filter (s.expired (unix (now - expiry)))).Nodup :=
    s.peers.keys_nodup.filter _
  refine ((List.perm_ext_iff_of_nodup hdead hgone).mpr fun p => ?_).length_eq
  rw [Memory.mem_dead, h.expired_iff hnow hexp, List.mem_filter]
  refine (and_iff_right_of_imp fun hexpired => ?_).symm
  exact @TrackerStore.registered_of_expired _ (sqlStore .plain) now expiry s p hexpired

theorem mem_nodesAt (h : SameTables m s) {hash p : Str} :
    p ∈ m.locateChunkNodes g hash ↔ p ∈ SQLStore.nodesAt g' s.chunkLocations hash := by
  rw [SQLStore.mem_nodesAt, Memory.locateChunkNodes, g.mem_order]
  exact h.located (.chunk hash) p

/-- The answers to a call are the same. -/
theorem answer (h : SameTables m s) (hnow : WholeSecond now) (hc : c.InSeconds) :
    c.SameAnswer (Memory.exec g now c m).1 (SQLStore.exec g' now c s).1 := by
  cases c with
  | heartbeat nodeID =>
      show (m.heartbeat now nodeID).1 = (s.peers.lookup nodeID).isSome
      have hpeer := h.peers nodeID
      cases hr : s.peers.lookup nodeID with
      | none | some r => simp [Memory.heartbeat, hpeer, hr]
  | getPeer nodeID => exact h.peers nodeID
  | listPeers expiry => exact fun p => h.mem_listPeers hnow hc
  | pruneExpiredPeers expiry => exact h.pruned hnow hc
  | getArtifact artifactID => exact h.artifacts artifactID
  | listSeeds artifactID =>
      intro p
      show p ∈ m.listSeeds g artifactID ↔ p ∈ SQLStore.nodesAt g' s.artifactSeeds artifactID
      rw [SQLStore.mem_nodesAt, Memory.listSeeds, g.mem_order]
      exact h.located (.seed artifactID) p
  | locateChunkNodes hash => exact fun p => h.mem_nodesAt
  | locateChunkNodesBatch hashes =>
      intro hash
      show Option.Rel _ ((m.locateChunkNodesBatch g hashes).lookup hash)
        ((s.locateChunkNodesBatch g' hashes).lookup hash)
      rw [lookup_locateChunkNodesBatch, SQLStore.lookup_locateChunkNodesBatch]
      by_cases hmem : hash ∈ hashes
      · rw [if_pos hmem, if_pos hmem]
        refine .some fun p => ?_
        -- the nodes come once for each block with the hash, and there is one
        have hpos := blocksWith_pos_iff.mpr hmem
        rw [List.mem_flatten]
        constructor
        · intro hp
          exact ⟨_, List.mem_replicate.mpr ⟨hpos.ne', rfl⟩, h.mem_nodesAt.mp hp⟩
        · rintro ⟨ids, hids, hp⟩
          rw [(List.mem_replicate.mp hids).2] at hp
          exact h.mem_nodesAt.mpr hp
      · rw [if_neg hmem, if_neg hmem]
        exact .none
  | getPeersBatch nodeIDs =>
      intro id
      show (m.getPeersBatch nodeIDs).lookup id = (s.getPeersBatch g' nodeIDs).lookup id
      rw [lookup_getPeersBatch, SQLStore.lookup_getPeersBatch, h.peers]
  | _ => rfl

/-- From such stores on, the drivers answer alike. -/
theorem answerAlike (h : SameTables m s) {calls : List (Time × StoreCall)}
    (hnow : ∀ call ∈ calls, WholeSecond call.1) (hcalls : ∀ call ∈ calls, call.2.InSeconds) :
    AnswerAlike Memory.exec SQLStore.exec calls m s := by
  induction calls generalizing m s with
  | nil => trivial
  | cons call calls ih =>
      obtain ⟨hnow0, hnow⟩ := List.forall_mem_cons.mp hnow
      obtain ⟨hcall, hcalls⟩ := List.forall_mem_cons.mp hcalls
      intro g g'
      exact ⟨h.answer hnow0 hcall, ih (h.exec hnow0 hcall) hnow hcalls⟩

end SameTables

/-- **The drivers are interchangeable.**  Started empty, with the clock and all times in whole
seconds after 1970, the memory store and the SQL store give the same answer to every call of
every sequence. -/
theorem drivers_answer_alike (calls : List (Time × StoreCall))
    (hnow : ∀ call ∈ calls, WholeSecond call.1) (hcalls : ∀ call ∈ calls, call.2.InSeconds) :
    AnswerAlike Memory.exec SQLStore.exec calls .new .new :=
  SameTables.new.answerAlike hnow hcalls

/-- A node registers, reports a chunk and is pruned after a minute without a sign of life. -/
theorem drivers_answer_alike_pruned :
    AnswerAlike Memory.exec SQLStore.exec
      [(5000000000, .upsertPeer ⟨str "n", [], [], [], [], [], [], zeroTime⟩),
        (6000000000, .reportChunks (str "n") [str "h"]),
        (67000000000, .pruneExpiredPeers 60000000000),
        (67000000000, .locateChunkNodesBatch [str "h"])] .new .new :=
  drivers_answer_alike _ (by simp [WholeSecond])
    (by simp [StoreCall.InSeconds, WholeDuration])

end Spider

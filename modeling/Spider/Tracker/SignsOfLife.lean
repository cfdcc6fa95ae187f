import Spider.Tracker.Liveness

/-!
# Spider.Tracker.SignsOfLife

A peer from which the tracker has accepted a sign of life is alive for the expiry,
also when the store is cached: it is not pruned, it is listed as active, and it is
handed out for what it has reported.  The cache takes its share of the expiry: a
heartbeat may reach the inner store `hbEvery` late, and an entry cached before a
sign of life lasts for its lifetime.
-/

namespace Spider

open Conc

/-- The signs of life a peer gives. -/
inductive SignOfLife where
  | register
  | heartbeat
  | report
  deriving DecidableEq

namespace SignOfLife

/-- How far the inner store may be behind. -/
def slack : SignOfLife → Time
  | .register => 0
  | .heartbeat => hbEvery
  | .report => 0

/-- The call gives the sign of life of peer `p`, and the tracker accepts it. -/
def Accepted (E : CacheEnv) (w : CacheWorld) (p : Str) : SignOfLife → RegistryOp → Prop
  | .register, op => p ≠ [] ∧ ∃ info, op = .request (.registerPeer (some info)) ∧ info.nodeID = p
  | .heartbeat, op => op = .request (.heartbeat p) ∧
      ((overCache (Tracker.heartbeat p)).eval E.handle w).1 = true
  | .report, op => p ∈ w.inner.peers ∧ ∃ chunkHashes, op = .request (.reportChunks p chunkHashes)

/-- The cached peer may be of before a report, given at `t₀`. -/
def peerLag (E : CacheEnv) (t₀ : Time) : SignOfLife → Time
  | .report => t₀ + E.entryTTL
  | _ => t₀ - hbEvery - 1

/-- The cached list may be of before any sign but a registration, given at `t₀`. -/
def listLag (E : CacheEnv) (t₀ : Time) : SignOfLife → Time
  | .register => t₀ - hbEvery - 1
  | _ => t₀ + E.entryTTL

end SignOfLife

section Accepted

open CacheWorld

variable {E : CacheEnv} {r : Registry} {w : CacheWorld} {p : Str} {op : RegistryOp}

/-- The first heartbeat of a node is handed on. -/
theorem hbEvery_le_durationSub_zero (t : Instant) : hbEvery ≤ durationSub t.1 zeroTime := by
  have hmax : hbEvery ≤ (2 ^ 63 - 1 : Int) := by decide
  have hlong : (5000000000 : Int) ≤ t.1 - (-62135596800000000000) := by
    omega
  exact le_max_of_le_right (le_min hmax hlong)

/-- The inner store is at most `hbEvery` behind a heartbeat that is not handed on. -/
theorem CacheWorld.Tidy.behind (hw : w.Tidy E) (hrecent : w.Recent E p) {q : Peer}
    (hq : w.inner.peers.lookup p = some q) : (E.clock w.steps).1 - hbEvery ≤ q.lastHeartbeat := by
  unfold CacheWorld.Recent CacheWorld.lastFlush at hrecent
  cases ht : w.lastHBFlush.lookup p with
  | none =>
      rw [ht, Option.getD_none] at hrecent
      exact absurd hrecent (not_lt_of_ge (hbEvery_le_durationSub_zero _))
  | some t =>
      obtain ⟨n, _, rfl⟩ := hw.flushed p t ht
      have hhanded := hw.handed p _ q ht hq
      rw [ht, Option.getD_some, durationSub_instant] at hrecent
      exact le_trans (le_of_lt (sub_lt_comm.mp hrecent)) hhanded

variable (hclock : Monotone fun n => (E.clock n).1)
include hclock

/-- An entry that is there expires within a lifetime. -/
theorem CacheWorld.Tidy.expiresAt_le (hw : w.Tidy E) {k : Key} {e : Timed Doc}
    (he : w.entry k = some e) :
    e.expiresAt ≤ (E.clock w.steps).1 + E.entryTTL := by
  obtain ⟨n, hn, hexp⟩ := hw.stamped k e he
  rw [hexp]
  exact add_le_add (hclock (Nat.le_of_lt hn)) (le_refl _)

theorem live_of_register (hw : w.Tidy E) (hop : op.storable = true)
    (h : SignOfLife.register.Accepted E w p op) (lag : Time) :
    (E.after r w op).Live E p (E.clock w.steps).1 lag lag := by
  have hsound : (E.after r w op).Sound := (hw.after hclock hop).sound
  have hpast := hclock (steps_after (E := E) (w := w) (r := r) op)
  obtain ⟨hne, info, rfl, rfl⟩ := h
  have hwrite : RegistryOp.write r (E.clock (w.steps + 1)).1 (.request (.registerPeer (some info))) =
      some (.upsertPeer (registeredPeer info (E.clock (w.steps + 1)).1)) := if_neg hne
  obtain ⟨a, hwrote⟩ := wrote_of_write _ hwrite fun _ => StoreCall.noConfusion
  generalize E.after r w _ = w' at hsound hpast hwrote ⊢
  have hgone : ∀ k e, (StoreCall.upsertPeer
      (registeredPeer info (E.clock (w.steps + 1)).1)).invalidates k → w'.entry k ≠ some e := by
    intro k e hk he
    rcases (hwrote.entry k e he).2 with hkept | ⟨⟨_, h⟩, _⟩
    · exact hkept hk
    · exact StoreCall.noConfusion h
  refine ⟨hsound, hpast, ?_, fun e q he => absurd he (hgone _ e (.inl rfl)),
    fun e qs he => absurd he (hgone _ e (.inr rfl))⟩
  have hpeer : w'.inner.peers.lookup info.nodeID =
      some ((registeredPeer info (E.clock (w.steps + 1)).1).withDefaults
        (E.clock (w.steps + 2)).1) := by
    rw [hwrote.inner, CacheWorld.innerExec, lookup_exec]
    exact if_pos ⟨rfl, hne⟩
  refine ⟨_, hpeer, ?_⟩
  rw [lastHeartbeat_withDefaults (E.clock (w.steps + 1)) rfl]
  exact hclock (Nat.le_succ _)

theorem live_of_report (hw : w.Tidy E) (hop : op.storable = true)
    (h : SignOfLife.report.Accepted E w p op) :
    (E.after r w op).Live E p (E.clock w.steps).1 ((E.clock w.steps).1 + E.entryTTL)
      ((E.clock w.steps).1 + E.entryTTL) := by
  have hsound : (E.after r w op).Sound := (hw.after hclock hop).sound
  have hpast := hclock (steps_after (E := E) (w := w) (r := r) op)
  obtain ⟨hreg, hashes, rfl⟩ := h
  obtain ⟨a, hwrote⟩ : ∃ a, w.Wrote E (.reportChunks p hashes) a
      (E.after r w (.request (.reportChunks p hashes))) :=
    wrote_of_write (.request (.reportChunks p hashes)) rfl fun _ => StoreCall.noConfusion
  refine ⟨hsound, hpast, ?_, fun e q he _ => .inl (hw.expiresAt_le hclock (hwrote.entry _ e he).1),
    fun e qs he _ => .inl (hw.expiresAt_le hclock (hwrote.entry _ e he).1)⟩
  obtain ⟨q, hq⟩ := Memory.mem_peers_iff.mp hreg
  refine ⟨{ q with lastHeartbeat := (E.clock w.steps).1 }, ?_, le_refl _⟩
  rw [hwrote.inner, CacheWorld.innerExec, lookup_exec]
  dsimp only
  rw [if_pos rfl, hq]
  rfl

theorem live_of_heartbeat (hquiet : ∀ n, E.fault n = none) (hw : w.Tidy E)
    (h : SignOfLife.heartbeat.Accepted E w p op) (lag : Time) :
    (E.after r w op).Live E p ((E.clock w.steps).1 - hbEvery) lag
      ((E.clock w.steps).1 + E.entryTTL) := by
  obtain ⟨rfl, hack⟩ := h
  have hsound : (E.after r w (.request (.heartbeat p))).Sound := (hw.after hclock rfl).sound
  have hends : (CachedStore.heartbeat p).Ends E.handle _ w := ends_heartbeat
  obtain ⟨ok, hok, hbeat⟩ := hends
  have hafter : E.after r w (.request (.heartbeat p)) =
      ((CachedStore.heartbeat p).eval E.handle w).2 :=
    after_eq E r w (.request (.heartbeat p))
  rw [← hafter] at hbeat
  -- the tracker hands the store's answer on
  have hok' : ok = true := by
    rw [Tracker.heartbeat, overCache_bind, overCache_callStore, Prog.eval_bind] at hack
    have hcall : ((CachedStore.call (.heartbeat p)).eval E.handle w).1 = .ok ok := hok
    rw [hcall] at hack
    exact hack
  subst hok'
  have hle : (E.clock w.steps).1 - hbEvery ≤ (E.clock w.steps).1 :=
    sub_le_self _ (by decide : (0 : Int) ≤ 5000000000)
  have hlater : ∀ n, w.steps ≤ n → (E.clock w.steps).1 - hbEvery ≤ (E.clock n).1 :=
    fun n hn => le_trans hle (hclock hn)
  refine ⟨hsound, hlater _ (Nat.le_of_lt hbeat.steps), ?_, fun e q he hq => .inr ?_,
    fun e qs he _ => .inl ?_⟩
  · rcases hbeat.cases with ⟨_, hrecent, hinner, _, e, _, he, _⟩ | ⟨n, hn, _, hran, _⟩
    · obtain ⟨q, _, _, hq, _⟩ := hw.sound.cachedPeer he
      exact ⟨q, hinner ▸ hq, hw.behind hrecent hq⟩
    · obtain ⟨q, hq⟩ := Memory.lookup_of_heartbeat hran
      exact ⟨_, hq, hlater n (Nat.le_of_lt hn)⟩
  · rcases hbeat.entry _ e he with ⟨hold, hunnoted⟩ | ⟨_, hrenewed⟩
    · rcases hunnoted rfl rfl with ⟨msg, hbad⟩ | ⟨n, hfault⟩
      · rw [hq] at hbad
        contradiction
      · exact absurd (hquiet n) hfault
    · obtain ⟨q0, n, _, _, hn, _, _, _, rfl⟩ := hw.sound.renewed hrenewed
      rw [← Doc.peer.inj hq]
      exact hlater n hn
  · rcases hbeat.entry _ e he with ⟨hold, _⟩ | ⟨hid, _⟩
    · exact hw.expiresAt_le hclock hold
    · contradiction

/-- An accepted sign of life is known wherever the cache does not lag behind. -/
theorem live_of_accepted (hquiet : ∀ n, E.fault n = none) (hw : w.Tidy E)
    (hop : op.storable = true) (s : SignOfLife) (h : s.Accepted E w p op) :
    (E.after r w op).Live E p ((E.clock w.steps).1 - s.slack) (s.peerLag E (E.clock w.steps).1)
      (s.listLag E (E.clock w.steps).1) := by
  cases s with
  | register =>
      rw [SignOfLife.slack, sub_zero]
      exact live_of_register hclock hw hop h _
  | heartbeat => exact live_of_heartbeat hclock hquiet hw h _
  | report =>
      rw [SignOfLife.slack, sub_zero]
      exact live_of_report hclock hw hop h

end Accepted

/-! ## Answers -/

section Answers

open CacheWorld

variable {E : CacheEnv} {r : Registry} {w w' : CacheWorld} {p : Str} {b peerLag listLag : Time}

theorem mem_peersFromCache_of_fresh {ids : List Str} {node : Str} {now : Time}
    {peers : Str → Option Peer} {q : Peer} (hp : p ∈ ids) (hnode : p ≠ node)
    (hq : peers p = some q) (hfresh : durationSub now q.lastHeartbeat ≤ r.peerExpiry) :
    q.proto ∈ r.peersFromCache ids node now peers :=
  List.mem_filterMap.mpr ⟨p, hp, by rw [if_neg hnode, hq]; exact if_pos hfresh⟩

/-- The time of a peer that was alive at `b` is not over. -/
theorem durationSub_fresh {t now : Time} {q : Peer} (hr : 0 < r.peerExpiry)
    (hb : b ≤ q.lastHeartbeat) (hnow : now ≤ t) (htime : t - b ≤ r.peerExpiry) :
    durationSub now q.lastHeartbeat ≤ r.peerExpiry :=
  durationSub_le (le_trans (sub_le_sub hnow hb) htime) (le_of_lt hr)

variable (hclock : Monotone fun n => (E.clock n).1)
include hclock

/-- A cached peer that is found later than the lag is a recent one. -/
theorem CacheWorld.Live.found_peer (hw : w.Live E p b peerLag listLag) (hlag : peerLag < (E.clock w.steps).1) {d : Doc}
    (h : w.Found E w' (.peer p) d) : ∃ q, d = .peer q ∧ q.nodeID = p ∧ b ≤ q.lastHeartbeat := by
  obtain ⟨e, n, he, hn, _, htime, rfl⟩ := h
  obtain ⟨q0, q, hvalue, hq0, hid⟩ := hw.sound.cachedPeer he
  have hnode : q.nodeID = p := (congrArg Peer.nodeID hid.symm).trans (hw.sound.clean.peer hq0).1
  have hexp : peerLag < e.expiresAt := lt_of_lt_of_le hlag (le_trans (hclock hn) htime)
  exact ⟨q, hvalue, hnode, (hw.peer e q he hvalue).resolve_left (not_le_of_gt hexp)⟩

/-- What a batch returns for a live peer. -/
theorem CacheWorld.Live.lookup_batch (hw : w.Live E p b peerLag listLag) (hlag : peerLag < (E.clock w.steps).1)
    {ids : List Str} {out : AList fun _ : Str => Peer} (hp : p ∈ ids)
    (h : AnsweredBatch E w w' ids .peer (fun doc => (unmarshalPeer doc).toOption)
      (fun id o => o = w.inner.peers.lookup id) out) :
    ∃ q, out.lookup p = some q ∧ q.nodeID = p ∧ b ≤ q.lastHeartbeat := by
  rcases (h p).1 hp with hinner | ⟨d, hd, hlook⟩
  · obtain ⟨q, hq, hb⟩ := hw.inner
    exact ⟨q, hinner.trans hq, (hw.sound.clean.peer hq).1, hb⟩
  · obtain ⟨q, rfl, hid, hb⟩ := hw.found_peer hclock hlag hd
    exact ⟨q, hlook, hid, hb⟩

/-- A cached list that is found later than the lag has a recent peer. -/
theorem CacheWorld.Live.listed (hw : w.Live E p b peerLag listLag) (hlag : listLag < (E.clock w.steps).1) {peers : List Peer}
    (h : (∃ g now, peers = w.inner.listPeers g now 0) ∨
      ∃ d, w.Found E w' .peersList d ∧ peers = unmarshalPeers d) :
    ∃ q ∈ peers, q.nodeID = p ∧ b ≤ q.lastHeartbeat := by
  rcases h with ⟨g, now, rfl⟩ | ⟨d, ⟨e, n, he, hn, _, htime, rfl⟩, rfl⟩
  · rw [listPeers_zero (le_refl 0)]
    exact hw.listed_inner g
  · have hexp : listLag < e.expiresAt := lt_of_lt_of_le hlag (le_trans (hclock hn) htime)
    have hagrees := hw.sound.agrees .peersList e he
    cases hd : e.value with
    | peers qs => exact (hw.list e qs he hd).resolve_left (not_le_of_gt hexp)
    | _ => simp [hd, Agrees] at hagrees

/-- `ListActivePeers` lists a live peer. -/
theorem CacheWorld.Live.ends_listActivePeers (hw : w.Live E p b peerLag listLag) (hlag : listLag < (E.clock w.steps).1)
    (hr : 0 < r.peerExpiry) :
    (overCache (Tracker.listActivePeers r)).Ends E.handle
      (fun peers w' => (E.clock w'.steps).1 - b ≤ r.peerExpiry →
        p ∈ peers.map PeerInfo.nodeID) w := by
  have hcall : (CachedStore.call (.listPeers r.peerExpiry)).Ends E.handle _ w := ends_read rfl
  refine hcall.seq fun a w1 ⟨hread, hanswer⟩ => ?_
  rcases hanswer with ⟨hloud, _⟩ | ⟨_, peers, hpeers, ha⟩
  · exact absurd quiet_zero hloud
  · rw [if_neg (not_le_of_gt hr)] at ha
    obtain ⟨n, _, hn, rfl⟩ := ha
    refine Prog.ends_pure.mpr fun htime => ?_
    obtain ⟨q, hq, hid, hb⟩ := hw.listed hclock hlag hpeers
    have hfresh := durationSub_fresh hr hb (hclock (Nat.le_of_lt hn)) htime
    refine List.mem_map.mpr ⟨q.proto, List.mem_map.mpr ⟨q, ?_, rfl⟩, hid⟩
    exact List.mem_filter.mpr ⟨hq, decide_eq_true hfresh⟩

/-- `LocateChunks` lists a live peer for the chunks it is recorded for. -/
theorem CacheWorld.Live.ends_locateChunks (hquiet : ∀ n, E.fault n = none) (hw : w.Live E p b peerLag listLag)
    (hlag : peerLag < (E.clock w.steps).1) (hr : 0 < r.peerExpiry) {node : Str}
    (hnode : p ≠ node) {hashes : List Str} {h : Str} (hh : h ∈ hashes)
    (hrow : p ∈ w.inner.nodes (.chunk h)) :
    (overCache (Tracker.locateChunks r node hashes)).Ends E.handle
      (fun locations w' => (E.clock w'.steps).1 - b ≤ r.peerExpiry →
        ∃ loc ∈ locations, loc.chunkHash = h ∧ p ∈ loc.peers.map PeerInfo.nodeID) w := by
  rw [Tracker.locateChunks, overCache_bind]
  refine (read_overCache only_requesterLoc).seq fun loc w1 hread1 => ?_
  rw [overCache_bind, overCache_readClock, cachedNow, Prog.ends_perform, overCache_bind,
    overCache_callStore]
  have hlive1 : w1.tick.Live E p b peerLag listLag := hw.read hclock (hread1.trans read_tick)
  have hlocated : (CachedStore.call (.locateChunkNodesBatch hashes)).Ends E.handle _ w1.tick :=
    ends_read rfl
  refine hlocated.seq fun a w2 h2 => ?_
  obtain ⟨hread2, hanswer⟩ := h2
  rcases hanswer with ⟨hloud, _⟩ | ⟨_, located, rfl, hfound⟩
  · exact absurd (fun n _ _ => hquiet n) hloud
  obtain ⟨ids, hlook, hids⟩ := hlive1.sound.lists_answered (.chunk h) some ((hfound h).1 hh)
  have hinner : w1.tick.inner = w.inner := hread1.inner
  have hmem : p ∈ ids := (hids.2 p).mpr (hinner ▸ hrow)
  have hasked : p ∈ Tracker.uniqueIDs located node := mem_uniqueIDs.mpr ⟨hnode, h, ids, hlook, hmem⟩
  have hlive2 : w2.Live E p b peerLag listLag := hlive1.read hclock hread2
  have hlag2 : peerLag < (E.clock w2.steps).1 :=
    lt_of_lt_of_le hlag (hclock ((hread1.trans read_tick).trans hread2).steps)
  have hpeers : (CachedStore.call (.getPeersBatch (Tracker.uniqueIDs located node))).Ends E.handle _
      w2 := ends_read rfl
  refine hpeers.seq fun a w3 h3 => ?_
  obtain ⟨hread3, hanswer⟩ := h3
  rcases hanswer with ⟨hloud, _⟩ | ⟨_, found, rfl, hout⟩
  · exact absurd (fun n _ _ => hquiet n) hloud
  obtain ⟨q, hq, hid, hb⟩ := hlive2.lookup_batch hclock hlag2 hasked hout
  refine Prog.ends_pure.mpr fun htime => ?_
  have hsteps : w1.steps ≤ w3.steps :=
    Nat.le_trans (Nat.le_succ _) (Nat.le_trans hread2.steps hread3.steps)
  have hfresh := durationSub_fresh hr hb (hclock hsteps) htime
  refine ⟨_, List.mem_map.mpr ⟨h, hh, rfl⟩, rfl, ?_⟩
  refine List.mem_map.mpr ⟨q.proto, perm_sortPeersByProximity.mem_iff.mpr ?_, hid⟩
  have hsome : p ∈ (located.lookup h).getD [] := by
    rw [hlook]
    exact hmem
  exact mem_peersFromCache_of_fresh hsome hnode hq hfresh

/-- `LocateArtifact` lists a live peer for the artifacts it is recorded for. -/
theorem CacheWorld.Live.ends_locateArtifact (hquiet : ∀ n, E.fault n = none) (hw : w.Live E p b peerLag listLag)
    (hlag : peerLag < (E.clock w.steps).1) (hr : 0 < r.peerExpiry) {node : Str}
    (hnode : p ≠ node) {artifactID : Str} (hrow : p ∈ w.inner.nodes (.seed artifactID)) :
    (overCache (Tracker.locateArtifact r node artifactID)).Ends E.handle
      (fun peers w' => (E.clock w'.steps).1 - b ≤ r.peerExpiry →
        p ∈ peers.map PeerInfo.nodeID) w := by
  rw [Tracker.locateArtifact, overCache_bind, overCache_callStore]
  have hseeds : (CachedStore.call (.listSeeds artifactID)).Ends E.handle _ w := ends_read rfl
  refine hseeds.seq fun a w1 h1 => ?_
  obtain ⟨hread1, hanswer⟩ := h1
  rcases hanswer with ⟨hloud, _⟩ | ⟨_, hfound⟩
  · exact absurd quiet_zero hloud
  obtain ⟨ids, rfl, hids⟩ := hw.sound.lists_answered (.seed artifactID) Except.ok hfound
  have hmem : p ∈ ids := (hids.2 p).mpr hrow
  have hlive1 : w1.tick.Live E p b peerLag listLag := hw.read hclock (hread1.trans read_tick)
  have hlag1 : peerLag < (E.clock w1.tick.steps).1 :=
    lt_of_lt_of_le hlag (hclock (hread1.trans read_tick).steps)
  have hpeers : (CachedStore.call (.getPeersBatch ids)).Ends E.handle _ w1.tick := ends_read rfl
  rw [overCache_bind, overCache_readClock, cachedNow, Prog.ends_perform, Tracker.peersForIDs,
    Prog.bind_assoc', overCache_bind, overCache_callStore]
  refine hpeers.seq fun a w2 h2 => ?_
  obtain ⟨hread2, hanswer⟩ := h2
  rcases hanswer with ⟨hloud, _⟩ | ⟨_, found, rfl, hout⟩
  · exact absurd (fun n _ _ => hquiet n) hloud
  obtain ⟨q, hq, hid, hb⟩ := hlive1.lookup_batch hclock hlag1 hmem hout
  rw [Prog.pure_bind', overCache_bind]
  refine (read_overCache only_requesterLoc).seq fun loc w3 hread3 => Prog.ends_pure.mpr fun htime => ?_
  have hsteps : w1.steps ≤ w3.steps :=
    Nat.le_trans (Nat.le_succ _) (Nat.le_trans hread2.steps hread3.steps)
  have hfresh := durationSub_fresh hr hb (hclock hsteps) htime
  refine List.mem_map.mpr ⟨q.proto, perm_sortPeersByProximity.mem_iff.mpr ?_, hid⟩
  exact mem_peersFromCache_of_fresh hmem hnode hq hfresh

end Answers

/-! ## Taken for alive -/

/-- A call on the registry over the cached store: its answer and the world after
it. -/
def CacheEnv.ask {α : Type} (E : CacheEnv) (w : CacheWorld) (q : TrackerM α) : α × CacheWorld :=
  (overCache q).eval E.handle w

/-- At step `n`, the sign of life given at `t₀` is within the expiry, of which the
cache takes its share. -/
def CacheEnv.Within (E : CacheEnv) (r : Registry) (s : SignOfLife) (t₀ : Time) (n : Nat) : Prop :=
  (E.clock n).1 - t₀ ≤ r.peerExpiry - s.slack

/-- The tracker takes peer `p`, which gave a sign of life at `t₀`, for alive: a
prune keeps it; it is listed as active, unless a list cached before the sign may be
left; and it is handed out for the rows recorded for it, unless a peer cached
before a report may be left. -/
structure TakenForAlive (E : CacheEnv) (r : Registry) (p : Str) (s : SignOfLife) (t₀ : Time)
    (recorded : Row → Prop) (w : CacheWorld) : Prop where
  kept : E.Within r s t₀ (E.ask w (Tracker.pruneDeadPeers r)).2.steps →
    p ∈ (E.ask w (Tracker.pruneDeadPeers r)).2.inner.peers
  active : (s ≠ .register → t₀ + E.entryTTL < (E.clock w.steps).1) →
    E.Within r s t₀ (E.ask w (Tracker.listActivePeers r)).2.steps →
    p ∈ (E.ask w (Tracker.listActivePeers r)).1.map PeerInfo.nodeID
  chunks : ∀ node chunkHashes h, p ≠ node → h ∈ chunkHashes → recorded (.chunk h) →
    (s = .report → t₀ + E.entryTTL < (E.clock w.steps).1) →
    E.Within r s t₀ (E.ask w (Tracker.locateChunks r node chunkHashes)).2.steps →
    ∃ loc ∈ (E.ask w (Tracker.locateChunks r node chunkHashes)).1,
      loc.chunkHash = h ∧ p ∈ loc.peers.map PeerInfo.nodeID
  artifacts : ∀ node artifactID, p ≠ node → recorded (.seed artifactID) →
    (s = .report → t₀ + E.entryTTL < (E.clock w.steps).1) →
    E.Within r s t₀ (E.ask w (Tracker.locateArtifact r node artifactID)).2.steps →
    p ∈ (E.ask w (Tracker.locateArtifact r node artifactID)).1.map PeerInfo.nodeID

section TakenForAlive

variable {E : CacheEnv} {r : Registry} {p : Str} {s : SignOfLife} {t0 : Time} {w : CacheWorld}

theorem within_sub {n : Nat} (h : E.Within r s t0 n) :
    (E.clock n).1 - (t0 - s.slack) ≤ r.peerExpiry := by
  have hsub : ∀ a b c d : Int, a - b ≤ c - d → a - (b - d) ≤ c := by
    intro a b c d hle
    omega
  exact hsub _ _ _ _ h

theorem early_lt {t : Time} (ht : t0 ≤ t) : t0 - hbEvery - 1 < t := by
  have hlt : ∀ a b : Int, a ≤ b → a - 5000000000 - 1 < b := by
    intro a b hle
    omega
  exact hlt _ _ ht

theorem peerLag_lt {t : Time} (ht : t0 ≤ t) (h : s = .report → t0 + E.entryTTL < t) :
    s.peerLag E t0 < t := by
  cases s with
  | report => exact h rfl
  | _ => exact early_lt ht

theorem listLag_lt {t : Time} (ht : t0 ≤ t) (h : s ≠ .register → t0 + E.entryTTL < t) :
    s.listLag E t0 < t := by
  cases s with
  | register => exact early_lt ht
  | _ => exact h SignOfLife.noConfusion

theorem ask_pruneDeadPeers :
    E.after r w (.request .pruneDeadPeers) = (E.ask w (Tracker.pruneDeadPeers r)).2 := by
  show ((overCache (Tracker.pruneDeadPeers r >>= fun _ => pure ())).eval E.handle w).2 = _
  rw [overCache_bind, Prog.eval_bind]
  rfl

end TakenForAlive

/-- The registration of a node. -/
def registerN1 : RegistryOp :=
  .request (.registerPeer (some ⟨str "n1", str "h:1", [], [], [], [], 0⟩))

/-- A registry with the default expiry. -/
def plainRegistry : Registry := newRegistry 0 fun _ _ => false

/-- A number of seconds as a reading of the clock. -/
def seconds (k : Fin 9223372036) : Instant := ⟨k.1 * 1000000000, by have h := k.2; omega⟩

/-- A cache that loses nothing; the clock reads 0 at first, and each of the times
from its step on. -/
def CacheEnv.paced (pace : List (Nat × Fin 9223372036)) : CacheEnv :=
  { CacheEnv.still with
    clock := fun n => seconds (((pace.filter fun m => m.1 ≤ n).getLast?.map Prod.snd).getD 0) }

end Spider

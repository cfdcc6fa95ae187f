import Spider.Tracker.Transparency

/-!
# Spider.Tracker.Liveness

How long the tracker takes a peer for alive when its store is cached.  The time
of a peer's last heartbeat is kept in three places: in the inner store, in the
cached peer and in the cached list of peers.

* `Tidy`: what every run keeps: the deadlines of the cache, and that the inner
  store is at most `hbEvery` behind.
* `Live p b`: the times of peer `p` in the three places are at least `b`, but for
  entries that expire soon.  Signs of life establish it, and all operations but
  a deregistration keep it while `b` is within the expiry.
-/

namespace Spider

open Conc

/-! ## Operations of the registry -/

/-- The calls on a registry. -/
inductive RegistryOp where
  | request (q : Request)
  | putArtifact (rec : ArtifactRecord)
  | locateChunks (requesterNodeID : Str) (chunkHashes : List Str)
  | locateArtifact (requesterNodeID artifactID : Str)
  | listActivePeers

/-- A call, its result dropped. -/
def RegistryOp.prog (r : Registry) : RegistryOp → TrackerM Unit
  | .request q => q.prog r
  | .putArtifact rec => do let _ ← Tracker.putArtifact rec
  | .locateChunks node chunkHashes => do let _ ← Tracker.locateChunks r node chunkHashes
  | .locateArtifact node artifactID => do let _ ← Tracker.locateArtifact r node artifactID
  | .listActivePeers => do let _ ← Tracker.listActivePeers r

/-- The write a call makes; a peer is registered with the given time. -/
def RegistryOp.write (r : Registry) (now : Time) : RegistryOp → Option StoreCall
  | .request q => q.call r now
  | .putArtifact rec => some (.putArtifact rec)
  | _ => none

/-- The world after a call. -/
def CacheEnv.after (E : CacheEnv) (r : Registry) (w : CacheWorld) (op : RegistryOp) : CacheWorld :=
  ((overCache (op.prog r)).eval E.handle w).2

/-- A command that only reads. -/
def TrackerCmd.isRead : TrackerCmd → Bool
  | .store c => c.isRead
  | .now => true

section Operations

open CacheWorld

variable {E : CacheEnv} {r : Registry} {w : CacheWorld} {α : Type}

/-- A program that only reads. -/
theorem read_overCache {p : TrackerM α} (hp : p.Only fun c : TrackerCmd => c.isRead = true) :
    (overCache p).Ends E.handle (fun _ w' => w.Read E w') w := by
  induction p generalizing w with
  | ret a => exact Read.refl
  | call c k ih =>
      obtain ⟨hc, hk⟩ := hp
      cases c with
      | store c =>
          have hcall : (CachedStore.call c).Ends E.handle _ w := ends_read hc
          exact hcall.seq fun a w' ⟨hread, _⟩ => (ih a (hk a)).mono fun _ _ h => hread.trans h
      | now => exact (ih _ (hk (E.clock w.steps).1)).mono fun _ _ h => read_tick.trans h

theorem only_requesterLoc {node : Str} :
    (Tracker.requesterLoc node).Only fun c : TrackerCmd => c.isRead = true := by
  refine Prog.only_call rfl fun a => ?_
  cases a with
  | error msg => trivial
  | ok p => cases p <;> trivial

theorem only_locateChunks {node : Str} {hashes : List Str} :
    (Tracker.locateChunks r node hashes).Only fun c : TrackerCmd => c.isRead = true := by
  refine only_requesterLoc.bind fun loc => Prog.only_call rfl fun now => Prog.only_call rfl fun a => ?_
  cases a with
  | error msg => trivial
  | ok located => exact Prog.only_call rfl fun _ => trivial

theorem only_locateArtifact {node artifactID : Str} :
    (Tracker.locateArtifact r node artifactID).Only fun c : TrackerCmd => c.isRead = true := by
  refine Prog.only_call rfl fun a => ?_
  cases a with
  | error msg => trivial
  | ok ids =>
      refine Prog.only_call rfl fun now => Prog.Only.bind (Prog.only_call rfl fun a => ?_) fun peers =>
        only_requesterLoc.bind fun _ => trivial
      cases a <;> trivial

theorem only_listActivePeers :
    (Tracker.listActivePeers r).Only fun c : TrackerCmd => c.isRead = true := by
  refine Prog.only_call rfl fun a => ?_
  cases a <;> trivial

/-- A program that makes one store call. -/
theorem eval_overCache_call {c : StoreCall} {k : Except Str c.Resp → TrackerM α}
    (hk : ∀ a, ∃ b, k a = pure b) :
    ((overCache (callStore c >>= k)).eval E.handle w).2 =
      ((CachedStore.call c).eval E.handle w).2 := by
  rw [overCache_bind, overCache_callStore, Prog.eval_bind]
  obtain ⟨b, hb⟩ := hk ((CachedStore.call c).eval E.handle w).1
  rw [hb]
  rfl

/-- The world in which a call makes its write: a registration reads the clock
twice before. -/
def RegistryOp.atWrite (op : RegistryOp) (w : CacheWorld) : CacheWorld :=
  match op with
  | .request (.registerPeer _) => w.tick.tick
  | _ => w

/-- A call only reads, or it makes one write. -/
theorem after_eq (E : CacheEnv) (r : Registry) (w : CacheWorld) (op : RegistryOp) :
    match op.write r (E.clock (w.steps + 1)).1 with
    | none => w.Read E (E.after r w op)
    | some c => E.after r w op = ((CachedStore.call c).eval E.handle (op.atWrite w)).2 := by
  have hread : ∀ {α : Type} {p : TrackerM α}, (p.Only fun c : TrackerCmd => c.isRead = true) →
      w.Read E ((overCache (do let _ ← p)).eval E.handle w).2 := fun hp =>
    read_overCache (hp.bind fun _ => Prog.only_pure ())
  cases op with
  | request q =>
      cases q with
      | registerPeer peer =>
          cases peer with
          | none => exact Read.refl
          | some info =>
              by_cases hid : info.nodeID = []
              · have hnone : RegistryOp.prog r (.request (.registerPeer (some info))) = pure () := by
                  simp [RegistryOp.prog, Request.prog, Tracker.registerPeer, hid]
                simp only [RegistryOp.write, Request.call, if_pos hid, CacheEnv.after, hnone]
                exact Read.refl
              · simp only [RegistryOp.write, Request.call, if_neg hid, CacheEnv.after,
                  RegistryOp.prog, Request.prog, Tracker.registerPeer]
                exact eval_overCache_call fun _ => ⟨_, rfl⟩
      | heartbeat nodeID | pruneDeadPeers | reportChunks nodeID chunkHashes =>
          exact eval_overCache_call fun a => by cases a <;> exact ⟨_, rfl⟩
      | reportArtifact nodeID artifactID | deregisterPeer nodeID =>
          exact eval_overCache_call fun _ => ⟨_, rfl⟩
  | putArtifact rec => exact eval_overCache_call fun _ => ⟨_, rfl⟩
  | locateChunks node chunkHashes => exact hread only_locateChunks
  | locateArtifact node artifactID => exact hread only_locateArtifact
  | listActivePeers => exact hread only_listActivePeers

theorem read_atWrite (op : RegistryOp) : w.Read E (op.atWrite w) := by
  unfold RegistryOp.atWrite
  split
  · exact read_tick.trans read_tick
  · exact .refl

theorem isRead_write {op : RegistryOp} {now : Time} {c : StoreCall}
    (hc : op.write r now = some c) : c.isRead = false := by
  cases op with
  | request q =>
      cases q with
      | registerPeer peer =>
          cases peer with
          | none => simp [RegistryOp.write, Request.call] at hc
          | some info =>
              simp only [RegistryOp.write, Request.call] at hc
              obtain ⟨-, ⟨⟩⟩ := Option.ite_none_left_eq_some.mp hc
              rfl
      | _ =>
          rw [← Option.some.inj hc]
          rfl
  | putArtifact rec =>
      rw [← Option.some.inj hc]
      rfl
  | _ => simp [RegistryOp.write] at hc

/-- What a call does to the world. -/
theorem after_cases (E : CacheEnv) (r : Registry) (w : CacheWorld) (op : RegistryOp) :
    (op.write r (E.clock (w.steps + 1)).1 = none ∧ w.Read E (E.after r w op)) ∨
      ∃ c, op.write r (E.clock (w.steps + 1)).1 = some c ∧
        ((∃ a, (op.atWrite w).Wrote E c a (E.after r w op)) ∨
          ∃ nodeID ok, c = .heartbeat nodeID ∧ (op.atWrite w).Beat E nodeID ok (E.after r w op)) := by
  have h := after_eq E r w op
  cases hwrite : op.write r (E.clock (w.steps + 1)).1 with
  | none =>
      rw [hwrite] at h
      exact .inl ⟨rfl, h⟩
  | some c =>
      simp only [hwrite] at h
      rcases c.kinds with hkind | hkind | ⟨nodeID, rfl⟩
      · rw [isRead_write hwrite] at hkind
        contradiction
      · have hwrote : (op.atWrite w).Wrote E c
            ((CachedStore.call c).eval E.handle (op.atWrite w)).1 (E.after r w op) := by
          rw [h]
          exact ends_write hkind
        exact .inr ⟨c, rfl, .inl ⟨_, hwrote⟩⟩
      · have hends : (CachedStore.heartbeat nodeID).Ends E.handle _ (op.atWrite w) := ends_heartbeat
        obtain ⟨ok, _, hbeat⟩ := hends
        exact .inr ⟨_, rfl, .inr ⟨nodeID, ok, rfl, h ▸ hbeat⟩⟩

/-- A write that is no heartbeat. -/
theorem wrote_of_write (op : RegistryOp) {c : StoreCall}
    (hc : op.write r (E.clock (w.steps + 1)).1 = some c) (hbeat : ∀ nodeID, c ≠ .heartbeat nodeID) :
    ∃ a, (op.atWrite w).Wrote E c a (E.after r w op) := by
  rcases after_cases E r w op with ⟨hnone, _⟩ | ⟨c', hc', hcases⟩
  · rw [hc] at hnone
    contradiction
  · obtain rfl := Option.some.inj (hc.symm.trans hc')
    exact hcases.resolve_right fun ⟨nodeID, _, h, _⟩ => hbeat nodeID h

end Operations

/-! ## What every run keeps -/

/-- The strings of a call are valid, as those of every message are. -/
def RegistryOp.storable : RegistryOp → Bool
  | .request (.registerPeer (some info)) =>
      Utf8.valid info.nodeID && Utf8.valid info.address && Utf8.valid info.region &&
        Utf8.valid info.zone && Utf8.valid info.rack && Utf8.valid info.host
  | .request (.reportChunks nodeID _) => Utf8.valid nodeID
  | .request (.reportArtifact nodeID _) => Utf8.valid nodeID
  | .putArtifact rec => rec.storable
  | _ => true

/-- The deadlines of the cache are set from the clock, and so are the times of the
heartbeats handed on, which the inner store has seen. -/
structure CacheWorld.Tidy (E : CacheEnv) (w : CacheWorld) : Prop where
  sound : w.Sound
  stamped : ∀ k e, w.entry k = some e → ∃ n < w.steps, e.expiresAt = E.deadline n
  flushed : ∀ id t, w.lastHBFlush.lookup id = some t → ∃ n < w.steps, t = (E.clock n).1
  handed : ∀ id t p, w.lastHBFlush.lookup id = some t → w.inner.peers.lookup id = some p →
    t ≤ p.lastHeartbeat

section Tidy

open CacheWorld

variable {E : CacheEnv} {r : Registry} {w w' : CacheWorld} {c : StoreCall} {op : RegistryOp}

theorem tidy_new : CacheWorld.new.Tidy E where
  sound := sound_new
  stamped k e he := by simp [CacheWorld.new, CacheWorld.entry] at he
  flushed id t ht := by simp [CacheWorld.new] at ht
  handed id t p ht := by simp [CacheWorld.new] at ht

theorem CacheWorld.Tidy.read (hw : w.Tidy E) (h : w.Read E w') : w'.Tidy E where
  sound := hw.sound.read h
  stamped k e he := by
    have hsteps := h.steps
    rcases h.entry k e he with he | ⟨n, d, _, hn, _, rfl⟩
    · obtain ⟨n, hn, hexp⟩ := hw.stamped k e he
      exact ⟨n, by omega, hexp⟩
    · exact ⟨n, hn, rfl⟩
  flushed id t ht := by
    have hsteps := h.steps
    rw [h.lastHBFlush] at ht
    obtain ⟨n, hn, rfl⟩ := hw.flushed id t ht
    exact ⟨n, by omega, rfl⟩
  handed id t p ht hp := by
    rw [h.lastHBFlush] at ht
    rw [h.inner] at hp
    exact hw.handed id t p ht hp

/-- The peer a call registers has a heartbeat of this time. -/
def RegistersAt (now : Time) (c : StoreCall) : Prop :=
  ∀ peer, c = .upsertPeer peer → peer.lastHeartbeat = now

theorem lastHeartbeat_withDefaults {p : Peer} {now : Time} (t : Instant)
    (h : p.lastHeartbeat = t.1) : (p.withDefaults now).lastHeartbeat = t.1 := by
  have hzero : p.lastHeartbeat ≠ zeroTime := by
    intro heq
    have : t.1 = (-62135596800000000000 : Int) := h.symm.trans heq
    omega
  rw [Peer.withDefaults, if_neg hzero, h]

theorem storable_of_write {now : Instant} (hop : op.storable = true)
    (hc : op.write r now.1 = some c) : c.storable = true ∧ RegistersAt now.1 c := by
  have hhealthy : Utf8.valid (str "HEALTHY") = true := by decide
  have hother : (∀ peer, c ≠ .upsertPeer peer) → RegistersAt now.1 c :=
    fun h peer hpeer => absurd hpeer (h peer)
  cases op with
  | request q =>
      cases q with
      | registerPeer peer =>
          cases peer with
          | none => simp [RegistryOp.write, Request.call] at hc
          | some info =>
              simp only [RegistryOp.write, Request.call] at hc
              obtain ⟨-, ⟨⟩⟩ := Option.ite_none_left_eq_some.mp hc
              refine ⟨?_, fun peer hpeer => ?_⟩
              · have hparts := Bool.and_eq_true_iff.mpr
                  ⟨Bool.and_eq_true_iff.mpr ⟨hop, hhealthy⟩, jsonTime_instant now⟩
                exact hparts
              · rw [← StoreCall.upsertPeer.inj hpeer]
                rfl
      | _ =>
          obtain rfl := Option.some.inj hc
          exact ⟨hop, hother fun _ => StoreCall.noConfusion⟩
  | putArtifact rec =>
      obtain rfl := Option.some.inj hc
      exact ⟨hop, hother fun _ => StoreCall.noConfusion⟩
  | _ => simp [RegistryOp.write] at hc

variable (hclock : Monotone fun n => (E.clock n).1)
include hclock

theorem CacheWorld.Tidy.wrote {a : Except Str c.Resp} {n : Nat} (hw : w.Tidy E) (hc : c.storable = true) (hreg : RegistersAt (E.clock n).1 c)
    (hn : w.steps ≤ n + 1) (h : w.Wrote E c a w') : w'.Tidy E where
  sound := hw.sound.wrote hc h
  stamped k e he := by
    have hsteps := h.steps
    obtain ⟨n, hn, hexp⟩ := hw.stamped k e (h.entry k e he).1
    exact ⟨n, by omega, hexp⟩
  flushed id t ht := by
    have hsteps := h.steps
    rw [h.lastHBFlush] at ht
    obtain ⟨n, hn, rfl⟩ := hw.flushed id t ht
    exact ⟨n, by omega, rfl⟩
  handed id t p ht hp := by
    rw [h.lastHBFlush] at ht
    rw [h.inner] at hp
    obtain ⟨n0, hn0, rfl⟩ := hw.flushed id t ht
    rcases lookup_exec_cases hp with hp | ⟨q, hq, rfl⟩ | ⟨peer, rfl, rfl, rfl⟩
    · exact hw.handed id _ p ht hp
    · exact hclock (Nat.le_of_lt hn0)
    · rw [lastHeartbeat_withDefaults (E.clock n) (hreg peer rfl)]
      exact hclock (by omega)

theorem CacheWorld.Tidy.beat {nodeID : Str} {ok : Bool} (hw : w.Tidy E)
    (h : w.Beat E nodeID ok w') : w'.Tidy E := by
  have hsteps := h.steps
  have hsound : w'.Sound := hw.sound.beat h
  have hstamped : ∀ k e, w'.entry k = some e → ∃ n < w'.steps, e.expiresAt = E.deadline n := by
    intro k e he
    rcases h.entry k e he with ⟨hold, _⟩ | ⟨_, _, _, n, n', _, _, _, _, _, hn', rfl⟩
    · obtain ⟨n, hn, hexp⟩ := hw.stamped k e hold
      exact ⟨n, by omega, hexp⟩
    · exact ⟨n', hn', rfl⟩
  have hflushed : ∀ id t, w.lastHBFlush.lookup id = some t → ∃ n < w'.steps, t = (E.clock n).1 := by
    intro id t ht
    obtain ⟨n, hn, rfl⟩ := hw.flushed id t ht
    exact ⟨n, by omega, rfl⟩
  rcases h.cases with ⟨_, _, hinner, hflush, _⟩ | ⟨n, hn, hn', hbeat, hflush⟩
  · refine ⟨hsound, hstamped, hflush ▸ hflushed, fun id t p ht hp => ?_⟩
    rw [hflush] at ht
    rw [hinner] at hp
    exact hw.handed id t p ht hp
  · have hinner : w'.inner = (Memory.exec .plain (E.clock n).1 (.heartbeat nodeID) w.inner).2 :=
      congrArg Prod.snd hbeat
    -- a heartbeat noted before is older than the one the inner store gets
    have hbefore : ∀ id t p, w.lastHBFlush.lookup id = some t → w'.inner.peers.lookup id = some p →
        t ≤ p.lastHeartbeat := by
      intro id t p ht hp
      rw [hinner] at hp
      rcases lookup_exec_cases hp with hp | ⟨q, hq, rfl⟩ | ⟨peer, hc, _⟩
      · exact hw.handed id t p ht hp
      · obtain ⟨n0, hn0, rfl⟩ := hw.flushed id t ht
        exact hclock (by omega)
      · contradiction
    rcases hflush with hflush | ⟨n0, hn0, hn0', hflush⟩
    · exact ⟨hsound, hstamped, hflush ▸ hflushed, hflush ▸ hbefore⟩
    · refine ⟨hsound, hstamped, fun id t ht => ?_, fun id t p ht hp => ?_⟩
      · rw [hflush] at ht
        by_cases hid : id = nodeID
        · subst hid
          rw [AList.lookup_insert] at ht
          exact ⟨n0, by omega, (Option.some.inj ht).symm⟩
        · rw [AList.lookup_insert_ne hid] at ht
          exact hflushed id t ht
      · rw [hflush] at ht
        by_cases hid : id = nodeID
        · subst hid
          rw [AList.lookup_insert] at ht
          rw [hinner, lookup_exec] at hp
          dsimp only at hp
          rw [if_pos rfl] at hp
          obtain ⟨q, _, rfl⟩ := Option.map_eq_some_iff.mp hp
          rw [← Option.some.inj ht]
          exact hclock (Nat.le_of_lt hn0')
        · rw [AList.lookup_insert_ne hid] at ht
          exact hbefore id t p ht hp

/-- Every call keeps a cached store tidy. -/
theorem CacheWorld.Tidy.after (hw : w.Tidy E) (hop : op.storable = true) :
    (E.after r w op).Tidy E := by
  rcases after_cases E r w op with ⟨_, hread⟩ | ⟨c, hc, hwrite⟩
  · exact hw.read hread
  · have hstart : (op.atWrite w).Tidy E := hw.read (read_atWrite op)
    obtain ⟨hstorable, hreg⟩ := storable_of_write hop hc
    rcases hwrite with ⟨a, hwrote⟩ | ⟨nodeID, ok, rfl, hbeat⟩
    · have hsteps : (op.atWrite w).steps ≤ w.steps + 1 + 1 := by
        unfold RegistryOp.atWrite
        split
        · exact Nat.le_refl _
        · omega
      exact hstart.wrote hclock hstorable hreg hsteps hwrote
    · exact hstart.beat hclock hbeat

end Tidy

/-! ## A peer that has given a sign of life -/

/-- All that is known of peer `p` is from time `b` or later: in the inner store, in
the cached peer unless it expires by `peerLag`, and in the cached list unless that
expires by `listLag`. -/
structure CacheWorld.Live (E : CacheEnv) (p : Str) (b peerLag listLag : Time) (w : CacheWorld) :
    Prop where
  sound : w.Sound
  past : b ≤ (E.clock w.steps).1
  inner : ∃ q, w.inner.peers.lookup p = some q ∧ b ≤ q.lastHeartbeat
  peer : ∀ e q, w.entry (.peer p) = some e → e.value = .peer q →
    e.expiresAt ≤ peerLag ∨ b ≤ q.lastHeartbeat
  list : ∀ e qs, w.entry .peersList = some e → e.value = .peers qs →
    e.expiresAt ≤ listLag ∨ ∃ q ∈ qs, q.nodeID = p ∧ b ≤ q.lastHeartbeat

/-- A write at time `now` that leaves a peer alive that was so at `b`. -/
def StoreCall.Spares (p : Str) (b now : Time) : StoreCall → Prop
  | .upsertPeer peer => b ≤ peer.lastHeartbeat
  | .deregisterPeer nodeID => nodeID ≠ p
  | .pruneExpiredPeers expiry => now - b ≤ expiry ∧ 0 ≤ expiry
  | _ => True

theorem durationSub_le {a b x : Time} (h : a - b ≤ x) (hx : 0 ≤ x) : durationSub a b ≤ x := by
  have hlow : (-2 ^ 63 : Time) ≤ x := le_trans (by decide) hx
  exact max_le hlow (le_trans (min_le_right _ _) h)

section Live

open CacheWorld

variable {E : CacheEnv} {w w' : CacheWorld} {c : StoreCall} {p : Str} {b peerLag listLag : Time}

/-- A call that spares a peer keeps it in the store. -/
theorem lookup_exec_spared {m : Memory} {g : Ranging} {now : Time} {q : Peer}
    (hq : m.peers.lookup p = some q) (hb : b ≤ q.lastHeartbeat) (hnow : b ≤ now)
    (hc : c.Spares p b now) :
    ∃ q', (Memory.exec g now c m).2.peers.lookup p = some q' ∧ b ≤ q'.lastHeartbeat := by
  have htouch : ∀ nodeID, ∃ q', (if p = nodeID then
        (m.peers.lookup p).map fun p => { p with lastHeartbeat := now }
      else m.peers.lookup p) = some q' ∧ b ≤ q'.lastHeartbeat := by
    intro nodeID
    by_cases hid : p = nodeID
    · exact ⟨{ q with lastHeartbeat := now }, by rw [if_pos hid, hq]; rfl, hnow⟩
    · exact ⟨q, by rw [if_neg hid, hq], hb⟩
  rw [lookup_exec]
  cases c with
  | upsertPeer peer =>
      dsimp only
      split
      · refine ⟨_, rfl, ?_⟩
        rw [Peer.withDefaults]
        dsimp only
        split
        · exact hnow
        · exact hc
      · exact ⟨q, hq, hb⟩
  | heartbeat nodeID => exact htouch nodeID
  | reportChunks nodeID hashes => exact htouch nodeID
  | deregisterPeer nodeID =>
      have hne : p ≠ nodeID := fun h => hc h.symm
      exact ⟨q, by simp [hne, hq], hb⟩
  | pruneExpiredPeers expiry =>
      have hkept : durationSub now q.lastHeartbeat ≤ expiry := by
        refine durationSub_le ?_ hc.2
        have hle : now - q.lastHeartbeat ≤ now - b := sub_le_sub_left hb now
        exact le_trans hle hc.1
      exact ⟨q, by simp [hq, Option.filter, hkept], hb⟩
  | _ => exact ⟨q, hq, hb⟩

/-- The inner store lists a live peer. -/
theorem CacheWorld.Live.listed_inner (hw : w.Live E p b peerLag listLag) (g : Ranging) :
    ∃ q ∈ g.order (w.inner.peers.entries.map fun e => e.2), q.nodeID = p ∧ b ≤ q.lastHeartbeat := by
  obtain ⟨q, hq, hb⟩ := hw.inner
  have hid : q.nodeID = p := (hw.sound.clean.peer hq).1
  have hmem : q ∈ w.inner.peers.entries.map fun e => e.2 := by
    rw [mem_entries_iff hw.sound.clean, hid]
    exact hq
  exact ⟨q, g.mem_order.mpr hmem, hid, hb⟩

variable {op : RegistryOp} {r : Registry}

/-- The write of a call spares a peer, unless the call deregisters it, while the
expiry is not over. -/
theorem spares_of_write {t : Instant} {now : Time} (hc : op.write r t.1 = some c)
    (hop : op ≠ .request (.deregisterPeer p)) (ht : b ≤ t.1) (hr : 0 ≤ r.peerExpiry)
    (hnow : now - b ≤ r.peerExpiry) : c.Spares p b now := by
  cases op with
  | request q =>
      cases q with
      | registerPeer peer =>
          cases peer with
          | none => simp [RegistryOp.write, Request.call] at hc
          | some info =>
              simp only [RegistryOp.write, Request.call] at hc
              obtain ⟨-, ⟨⟩⟩ := Option.ite_none_left_eq_some.mp hc
              exact ht
      | deregisterPeer nodeID =>
          obtain rfl := Option.some.inj hc
          exact fun hid => hop (by rw [hid])
      | pruneDeadPeers =>
          obtain rfl := Option.some.inj hc
          exact ⟨hnow, hr⟩
      | _ =>
          obtain rfl := Option.some.inj hc
          trivial
  | putArtifact rec =>
      obtain rfl := Option.some.inj hc
      trivial
  | _ => simp [RegistryOp.write] at hc

/-- A call takes time. -/
theorem steps_after (op : RegistryOp) : w.steps ≤ (E.after r w op).steps := by
  have hstart : w.steps ≤ (op.atWrite w).steps := (read_atWrite (E := E) op).steps
  rcases after_cases E r w op with ⟨_, hread⟩ | ⟨c, _, ⟨a, hwrote⟩ | ⟨_, _, _, hbeat⟩⟩
  · exact hread.steps
  · exact Nat.le_trans hstart (Nat.le_of_lt hwrote.steps)
  · exact Nat.le_trans hstart (Nat.le_of_lt hbeat.steps)

/-- The call records the node for a row. -/
def RegistryOp.reports (row : Row) (p : Str) : RegistryOp → Prop
  | .request q => q.reports row p
  | _ => False

theorem reports_write (r : Registry) (now : Time) {row : Row} :
    op.reports row p ↔ ∃ c, op.write r now = some c ∧ c.reports row p := by
  cases op with
  | request q => exact reports_iff_call
  | _ => simp [RegistryOp.reports, RegistryOp.write, StoreCall.reports]

theorem not_removes_of_spares {m : Memory} {now : Time} {q : Peer}
    (hq : m.peers.lookup p = some q) (hb : b ≤ q.lastHeartbeat) (hc : c.Spares p b now) :
    ¬ c.removes (fun expiry => m.Expired now expiry p) p := by
  cases c with
  | deregisterPeer nodeID => exact fun h => hc h.symm
  | pruneExpiredPeers expiry =>
      rintro ⟨q', hq', hexpired⟩
      have hsame : q = q' := Option.some.inj (hq.symm.trans hq')
      have hle : now - q.lastHeartbeat ≤ now - b := sub_le_sub_left hb now
      have hkept := durationSub_le (le_trans hle hc.1) hc.2
      rw [hsame] at hkept
      exact not_lt_of_ge hkept hexpired
  | _ => exact id

variable (hclock : Monotone fun n => (E.clock n).1)
include hclock

theorem CacheWorld.Live.read (hw : w.Live E p b peerLag listLag) (h : w.Read E w') : w'.Live E p b peerLag listLag := by
  have hclean : w.inner.Clean := hw.sound.clean
  refine ⟨hw.sound.read h, le_trans hw.past (hclock h.steps), h.inner ▸ hw.inner, ?_, ?_⟩
  · intro e q he hq
    rcases h.entry _ e he with he | ⟨n, d, _, _, ⟨q0, hq0, rfl⟩, rfl⟩
    · exact hw.peer e q he hq
    · rw [marshalPeer_of_storable (hclean.peer hq0).2] at hq
      obtain ⟨q1, hq1, hb⟩ := hw.inner
      have hsame : q1 = q := by
        rw [hq1] at hq0
        exact (Option.some.inj hq0).trans (Doc.peer.inj hq)
      exact .inr (hsame ▸ hb)
  · intro e qs he hqs
    rcases h.entry _ e he with he | ⟨n, d, _, _, ⟨g, now, rfl⟩, rfl⟩
    · exact hw.list e qs he hqs
    · rw [marshalPeers_listPeers hclean] at hqs
      rw [← Doc.peers.inj hqs]
      exact .inr (hw.listed_inner g)

theorem CacheWorld.Live.wrote {a : Except Str c.Resp} (hw : w.Live E p b peerLag listLag)
    (hc : c.storable = true)
    (hspares : c.Spares p b (E.clock w.steps).1) (h : w.Wrote E c a w') :
    w'.Live E p b peerLag listLag where
  sound := hw.sound.wrote hc h
  past := le_trans hw.past (hclock (Nat.le_of_lt h.steps))
  inner := by
    obtain ⟨q, hq, hb⟩ := hw.inner
    rw [h.inner]
    exact lookup_exec_spared hq hb hw.past hspares
  peer e q he := hw.peer e q (h.entry _ e he).1
  list e qs he := hw.list e qs (h.entry _ e he).1

theorem CacheWorld.Live.beat {nodeID : Str} {ok : Bool} (hw : w.Live E p b peerLag listLag)
    (h : w.Beat E nodeID ok w') :
    w'.Live E p b peerLag listLag where
  sound := hw.sound.beat h
  past := le_trans hw.past (hclock (Nat.le_of_lt h.steps))
  inner := by
    obtain ⟨q, hq, hb⟩ := hw.inner
    rcases h.cases with ⟨_, _, hinner, _, _⟩ | ⟨n, hn, _, hbeat, _⟩
    · exact ⟨q, hinner ▸ hq, hb⟩
    · have hinner : w'.inner = (Memory.exec .plain (E.clock n).1 (.heartbeat nodeID) w.inner).2 :=
        congrArg Prod.snd hbeat
      rw [hinner]
      exact lookup_exec_spared hq hb (le_trans hw.past (hclock (Nat.le_of_lt hn))) trivial
  peer e q he hq := by
    rcases h.entry _ e he with ⟨hold, _⟩ | ⟨hid, hrenewed⟩
    · exact hw.peer e q hold hq
    · cases hid
      obtain ⟨q0, n, n', _, hn, _, _, _, rfl⟩ := hw.sound.renewed hrenewed
      rw [← Doc.peer.inj hq]
      exact .inr (le_trans hw.past (hclock hn))
  list e qs he hqs := by
    rcases h.entry _ e he with ⟨hold, _⟩ | ⟨hid, _⟩
    · exact hw.list e qs hold hqs
    · contradiction

/-- Every call but its deregistration keeps a peer alive while the expiry is not
over. -/
theorem CacheWorld.Live.after (hw : w.Live E p b peerLag listLag) (hstore : op.storable = true)
    (hop : op ≠ .request (.deregisterPeer p)) (hr : 0 ≤ r.peerExpiry)
    (htime : (E.clock (E.after r w op).steps).1 - b ≤ r.peerExpiry) :
    (E.after r w op).Live E p b peerLag listLag := by
  rcases after_cases E r w op with ⟨_, hread⟩ | ⟨c, hc, hwrite⟩
  · exact hw.read hclock hread
  · have hstart : (op.atWrite w).Live E p b peerLag listLag := hw.read hclock (read_atWrite op)
    rcases hwrite with ⟨a, hwrote⟩ | ⟨nodeID, ok, rfl, hbeat⟩
    · have hclock1 : b ≤ (E.clock (w.steps + 1)).1 := le_trans hw.past (hclock (Nat.le_succ _))
      have hnow : (E.clock (op.atWrite w).steps).1 - b ≤ r.peerExpiry :=
        le_trans (sub_le_sub_right (hclock (Nat.le_of_lt hwrote.steps)) b) htime
      exact hstart.wrote hclock (storable_of_write hstore hc).1
        (spares_of_write hc hop hclock1 hr hnow) hwrote
    · exact hstart.beat hclock hbeat

/-- Calls that keep a peer alive keep its rows, and its reports add to them. -/
theorem CacheWorld.Live.mem_nodes_after (hw : w.Live E p b peerLag listLag) (hop : op ≠ .request (.deregisterPeer p))
    (hr : 0 ≤ r.peerExpiry) (htime : (E.clock (E.after r w op).steps).1 - b ≤ r.peerExpiry)
    {row : Row} (hrow : p ∈ w.inner.nodes row ∨ op.reports row p) :
    p ∈ (E.after r w op).inner.nodes row := by
  have hsame : (op.atWrite w).inner = w.inner := (read_atWrite (E := E) op).inner
  rw [reports_write r (E.clock (w.steps + 1)).1] at hrow
  rcases after_cases E r w op with ⟨hnone, hread⟩ | ⟨c, hc, hwrite⟩
  · rw [hread.inner]
    refine hrow.resolve_right fun ⟨c, hc, _⟩ => ?_
    rw [hnone] at hc
    contradiction
  · have hreport : p ∈ w.inner.nodes row ∨ c.reports row p :=
      hrow.imp_right fun ⟨c', hc', h⟩ => Option.some.inj (hc'.symm.trans hc) ▸ h
    rcases hwrite with ⟨a, hwrote⟩ | ⟨nodeID, ok, rfl, hbeat⟩
    · obtain ⟨q, hq, hb⟩ := hw.inner
      have hclock1 : b ≤ (E.clock (w.steps + 1)).1 := le_trans hw.past (hclock (Nat.le_succ _))
      have hnow : (E.clock (op.atWrite w).steps).1 - b ≤ r.peerExpiry :=
        le_trans (sub_le_sub_right (hclock (Nat.le_of_lt hwrote.steps)) b) htime
      have hspares := spares_of_write hc hop hclock1 hr hnow
      rw [hwrote.inner, CacheWorld.innerExec, hsame]
      refine ((memoryStore _).located_exec _ c w.inner row p).mpr ?_
      exact hreport.symm.imp_right fun h => ⟨h, not_removes_of_spares hq hb hspares⟩
    · have hmem : p ∈ w.inner.nodes row := hreport.resolve_right id
      rcases hbeat.cases with ⟨_, _, hinner, _, _⟩ | ⟨n, _, _, hran, _⟩
      · rw [hinner, hsame]
        exact hmem
      · have hinner : (E.after r w op).inner =
            (Memory.exec .plain (E.clock n).1 (.heartbeat nodeID) (op.atWrite w).inner).2 :=
          congrArg Prod.snd hran
        have hkeeps : ¬ (StoreCall.heartbeat nodeID).invalidates row.key := id
        rw [hinner, hsame, mem_nodes_exec row hkeeps]
        exact hmem

end Live

/-- The world after a sequence of calls. -/
def CacheEnv.runOps (E : CacheEnv) (r : Registry) (w : CacheWorld) (ops : List RegistryOp) :
    CacheWorld :=
  ops.foldl (E.after r) w

section Runs

open CacheWorld

variable {E : CacheEnv} {r : Registry} {w : CacheWorld} {p : Str} {b peerLag listLag : Time}
variable {ops : List RegistryOp}

theorem steps_runOps : w.steps ≤ (E.runOps r w ops).steps := by
  induction ops generalizing w with
  | nil => exact Nat.le_refl _
  | cons op ops ih => exact Nat.le_trans (steps_after op) ih

variable (hclock : Monotone fun n => (E.clock n).1)
include hclock

theorem tidy_runOps (hops : ∀ op ∈ ops, op.storable = true) (hw : w.Tidy E) :
    (E.runOps r w ops).Tidy E := by
  induction ops generalizing w with
  | nil => exact hw
  | cons op ops ih =>
      have hafter : (E.after r w op).Tidy E := hw.after hclock (hops op List.mem_cons_self)
      exact ih (fun op' h => hops op' (List.mem_cons_of_mem op h)) hafter

/-- A peer stays alive, and its rows are kept and added to. -/
theorem live_runOps (hops : ∀ op ∈ ops, op.storable = true ∧ op ≠ .request (.deregisterPeer p))
    (hr : 0 ≤ r.peerExpiry) (htime : (E.clock (E.runOps r w ops).steps).1 - b ≤ r.peerExpiry)
    (hw : w.Live E p b peerLag listLag) :
    (E.runOps r w ops).Live E p b peerLag listLag ∧
      ∀ row, p ∈ w.inner.nodes row ∨ (∃ op ∈ ops, op.reports row p) →
        p ∈ (E.runOps r w ops).inner.nodes row := by
  induction ops generalizing w with
  | nil => exact ⟨hw, fun row hrow => hrow.resolve_right fun ⟨_, h, _⟩ => (nomatch h)⟩
  | cons op ops ih =>
      obtain ⟨hstore, hop⟩ := hops op List.mem_cons_self
      have hnow : (E.clock (E.after r w op).steps).1 - b ≤ r.peerExpiry :=
        le_trans (sub_le_sub_right (hclock steps_runOps) b) htime
      obtain ⟨hlive, hrows⟩ := ih (fun op' h => hops op' (List.mem_cons_of_mem op h)) htime
        (hw.after hclock hstore hop hr hnow)
      refine ⟨hlive, fun row hrow => hrows row ?_⟩
      rcases hrow with hrow | ⟨op', hop', hreports⟩
      · exact .inl (hw.mem_nodes_after hclock hop hr hnow (.inl hrow))
      · rcases List.mem_cons.mp hop' with rfl | hop'
        · exact .inl (hw.mem_nodes_after hclock hop hr hnow (.inr hreports))
        · exact .inr ⟨op', hop', hreports⟩

end Runs

end Spider

import Spider.Tracker.SignsOfLife
import Spider.Tracker.Trace

/-!
# Spider.Tracker.Coherence

Reads that begin after a write has returned.

In every timely interleaving such a read answers what the inner store had at some
step after the write, for each key that the write changed.  Each method keeps to
the protocol of `Spider.Tracker.Trace`:

* a read answers with what was cached since the key was invalidated, or with what
  the inner store has, and fills the cache with the latter;
* a write invalidates its keys after it has changed the inner store;
* a heartbeat puts back the cached peer it has read, with a new time.

Without that condition a thread can put back what it read before the write.
-/

namespace Spider

open Conc

/-! ## Answers -/

/-- The keys a read is about. -/
def StoreCall.keys : StoreCall → List Key
  | .getPeer nodeID => [.peer nodeID]
  | .listPeers _ => [.peersList]
  | .getArtifact artifactID => [.artifact artifactID]
  | .listSeeds artifactID => [.seeds artifactID]
  | .locateChunkNodes h => [.chunks h]
  | .locateChunkNodesBatch hashes => hashes.map .chunks
  | .getPeersBatch nodeIDs => nodeIDs.map .peer
  | _ => []

namespace Traced

variable {T : Type}

/-- What a read answers about a key is what the inner store had at step `n`: lists
in any order, peers with a heartbeat that may have been noted since. -/
def Says (E : CacheEnv) (s : Traced T) (n : Nat) : (c : StoreCall) → c.Resp → Key → Prop
  | .getPeer nodeID, o, _ => Option.Rel (s.Noted E n) o ((s.past n).peers.lookup nodeID)
  | .listPeers expiry, ps, _ =>
      if expiry ≤ 0 then ps.Perm ((s.past n).peers.entries.map fun e => e.2)
      else ∃ n', n ≤ n' ∧ n' < s.world.steps ∧
        ps.Perm (((s.past n).peers.entries.map fun e => e.2).filter fun p =>
          decide (durationSub (E.clock n').1 p.lastHeartbeat ≤ expiry))
  | .getArtifact artifactID, o, _ => o = (s.past n).arts.lookup artifactID
  | .listSeeds artifactID, ids, _ => ids.Perm ((s.past n).nodes (.seed artifactID))
  | .locateChunkNodes h, ids, _ => ids.Perm ((s.past n).nodes (.chunk h))
  | .locateChunkNodesBatch _, out, .chunks h =>
      Option.Rel List.Perm (out.lookup h) (some ((s.past n).nodes (.chunk h)))
  | .getPeersBatch _, out, .peer nodeID =>
      Option.Rel (s.Noted E n) (out.lookup nodeID) ((s.past n).peers.lookup nodeID)
  | _, _, _ => False

/-- A read has succeeded, and answers for each key what the inner store had at some
step from `b` on. -/
def Answered (E : CacheEnv) (b : Key → Nat) (c : StoreCall) (r : Except Str c.Resp) (s : Traced T) :
    Prop :=
  ∃ a, r = .ok a ∧ ∀ k ∈ c.keys, ∃ n, b k ≤ n ∧ n ≤ s.world.steps ∧ s.Says E n c a k

/-- The write of a thread has been carried out, and its keys have been invalidated,
or it has changed nothing. -/
def Settled (t : T) (c : StoreCall) (s : Traced T) : Prop :=
  ∃ K, s.Wrote t c K ∧
    ((∀ k, c.invalidates k → K k) ∨ s.past (s.asked t + 1) = s.past (s.asked t))

section Stable

variable {s s' : Traced T} {E : CacheEnv} {n : Nat} {c : StoreCall} {k : Key} {t : T}

theorem rel_noted_later {o o' : Option Peer} (h : Option.Rel (s.Noted E n) o o') (hlater : s.Later s') :
    Option.Rel (s'.Noted E n) o o' := by
  cases h with
  | some hnoted => exact .some (hnoted.later hlater)
  | none => exact .none

/-- A peer with a time that is neither the stored one nor one noted since. -/
theorem not_noted {p q : Peer} (hstored : p.lastHeartbeat ≠ q.lastHeartbeat)
    (hclock : ∀ n', n ≤ n' → n' < s.world.steps → p.lastHeartbeat ≠ (E.clock n').1) :
    ¬ s.Noted E n p q := by
  rintro (rfl | ⟨n', hfrom, hto, rfl⟩)
  · exact hstored rfl
  · exact hclock n' hfrom hto rfl

theorem Says.later {a : c.Resp} (h : s.Says E n c a k) (hn : n ≤ s.world.steps)
    (hlater : s.Later s') : s'.Says E n c a k := by
  have hpast := hlater.past n hn
  cases c with
  | getPeer nodeID =>
      rw [Says, hpast]
      exact rel_noted_later h hlater
  | listPeers expiry =>
      rw [Says, hpast]
      rw [Says] at h
      by_cases hexp : expiry ≤ 0
      · rw [if_pos hexp] at h ⊢
        exact h
      · rw [if_neg hexp] at h ⊢
        obtain ⟨n', hn1, hn2, hps⟩ := h
        exact ⟨n', hn1, Nat.lt_of_lt_of_le hn2 hlater.steps, hps⟩
  | getPeersBatch nodeIDs =>
      cases k with
      | peer nodeID =>
          rw [Says, hpast]
          exact rel_noted_later h hlater
      | _ => exact absurd h id
  | locateChunkNodesBatch hashes =>
      cases k with
      | chunks hash =>
          rw [Says, hpast]
          exact h
      | _ => exact absurd h id
  | getArtifact artifactID | listSeeds artifactID | locateChunkNodes hash =>
      rw [Says, hpast]
      exact h
  | _ => exact absurd h id

theorem Settled.later (h : s.Settled t c) (hs : s.Coherent E) (hlater : s.Later s')
    (hasked : s'.asked t = s.asked t) : s'.Settled t c := by
  obtain ⟨K, hw, hkeys⟩ := h
  refine ⟨K, hw.later hs hlater hasked, hkeys.imp_right fun hsame => ?_⟩
  rw [hasked, hlater.past _ hw.before, hlater.past _ (hs.asked t), hsame]

theorem rel_noted_refl (o : Option Peer) : Option.Rel (s.Noted E n) o o := by
  cases o with
  | none => exact .none
  | some p => exact .some (.inl rfl)

/-- A cached peer, decoded. -/
theorem rel_noted_of_holds {nodeID : Str} {d : Doc} (h : s.Holds E n (.peer nodeID) d) :
    ∃ p, d = .peer p ∧ Option.Rel (s.Noted E n) (some p) ((s.past n).peers.lookup nodeID) := by
  obtain ⟨p, q, hd, hq, hnoted⟩ := h
  rw [hq]
  exact ⟨p, hd, .some hnoted⟩

/-- The keys of a write have all been invalidated. -/
theorem settled_of_wrote {K : Key → Prop} (hw : s.Wrote t c K) (hK : ∀ k, c.invalidates k → K k) :
    s.Settled t c :=
  ⟨K, hw, .inl hK⟩

/-- A value of the cache or of the inner store, together with the step at which the
inner store had it. -/
def Served {α : Type} (tells : Traced T → Nat → α → Prop) (b : Nat) (r : Except Str α) (s : Traced T) : Prop :=
  ∃ a n, r = .ok a ∧ b ≤ n ∧ n ≤ s.world.steps ∧ tells s n a

/-- A read of a single key answers what the inner store has had since the key was
invalidated. -/
theorem answered_of_served (hk : c.keys = [k]) {r : Except Str c.Resp}
    {b : Key → Nat} (h : Served (fun s n a => s.Says E n c a k) (b k) r s) :
    s.Answered E b c r := by
  obtain ⟨a, n, hr, hb, hn, hsays⟩ := h
  refine ⟨a, hr, fun k' hk' => ?_⟩
  rw [hk, List.mem_singleton] at hk'
  subst hk'
  exact ⟨n, hb, hn, hsays⟩

end Stable

end Traced

/-! ## Reads -/

section Reads

open Traced

variable {T : Type} [DecidableEq T] {s : Traced T} {E : CacheEnv} {t : T} {k : Key} {α : Type}

/-- A read of one key. -/
theorem wp_readThrough (k : Key) (c : StoreCall) (decode : Doc → Except Str c.Resp)
    (encode : c.Resp → Option Doc) (tells : Traced T → Nat → c.Resp → Prop)
    (hquiet : ∀ n, E.fault n = none) (hcall : c.storable = true) (hs : s.Coherent E)
    (hlater : ∀ (s s' : Traced T) n a, tells s n a → n ≤ s.world.steps → s.Later s' → tells s' n a)
    (hdecode : ∀ (s : Traced T) n d, s.Holds E n k d → ∃ a, decode d = .ok a ∧ tells s n a)
    (hfetch : ∀ (s : Traced T) n g now, tells s n (Memory.exec g now c (s.past n)).1)
    (hfill : ∀ m g now d, encode (Memory.exec g now c m).1 = some d → Filled m k d) :
    (cacheProtocol T E).wp t (Served tells (s.cleared k))
      (CachedStore.readThrough k decode (callInner c) encode) s := by
  refine wp_cacheGet hquiet hs (fun s1 d _ _ hd _ => ?_) (fun s1 hlater1 hs1 => ?_)
  · obtain ⟨n, hb, hn, hold⟩ := hd
    obtain ⟨a, ha, hsays⟩ := hdecode s1 n d hold
    refine wp_answer fun s2 hlater2 _ _ => ⟨a, n, ha, hb, Nat.le_trans hn hlater2.steps, ?_⟩
    exact hlater s1 s2 n a hsays hn hlater2
  · refine wp_callInner hcall fun s2 g now hlater2 hs2 hfrom _ _ => ?_
    have hb : s.cleared k ≤ s2.asked t :=
      Nat.le_trans (Nat.le_trans (hs.cleared k) hlater1.steps) hfrom
    have hsays := hfetch s2 (s2.asked t) g now
    have hserved : ∀ s', s2.Later s' →
        Served tells (s.cleared k) (.ok (Memory.exec g now c (s2.past (s2.asked t))).1) s' := by
      intro s' hlater'
      refine ⟨_, s2.asked t, rfl, hb, Nat.le_trans (hs2.asked t) hlater'.steps, ?_⟩
      exact hlater s2 s' _ _ hsays (hs2.asked t) hlater'
    dsimp only
    cases henc : encode (Memory.exec g now c (s2.past (s2.asked t))).1 with
    | none => exact wp_answer fun s' hlater' _ _ => hserved s' hlater'
    | some d =>
        have hfilled : Filled (s2.past (s2.asked t)) k d := hfill _ g now d henc
        have hd : s2.Fillable E t k d :=
          fillable_of_asked hs2 (holds_of_filled (hs2.clean _) hfilled)
        refine wp_cacheSet hs2 hd fun s3 hlater3 _ _ => ?_
        exact wp_answer fun s' hlater' _ _ => hserved s' (hlater3.trans hlater')

/-- `MGet`: each document found was current at some step from `b` on. -/
theorem wp_cacheMGet {out : AList fun _ : Key => Doc} {ks : List Key} {b : Key → Nat}
    (hquiet : ∀ n, E.fault n = none) (hs : s.Coherent E) (hb : ∀ k, b k ≤ s.cleared k)
    (hout : ∀ k d, out.lookup k = some d → s.Since E (b k) k d) :
    (cacheProtocol T E).wp t
      (fun r s' => s.Later s' ∧ ∃ got, r = .ok got ∧
        ∀ k d, got.lookup k = some d → s'.Since E (b k) k d)
      (cacheMGet out ks) s := by
  induction ks generalizing out s with
  | nil =>
      refine wp_answer fun s' hlater _ _ => ⟨hlater, out, rfl, fun k d hd => ?_⟩
      exact (hout k d hd).later (Nat.le_refl _) hlater
  | cons k ks ih =>
      refine wp_cacheGet hquiet hs (fun s1 d hlater hs1 hd _ => ?_) (fun s1 hlater hs1 => ?_)
      · have hb1 : ∀ k, b k ≤ s1.cleared k := fun k => Nat.le_trans (hb k) (hlater.cleared_le hs)
        refine Protocol.wp_mono (fun r s' _ ⟨hlater', hr⟩ => ⟨hlater.trans hlater', hr⟩)
          (ih hs1 hb1 fun k' d' hd' => ?_)
        · by_cases hk : k' = k
          · subst hk
            rw [AList.lookup_insert, Option.some.injEq] at hd'
            subst hd'
            exact hd.later (hb k') .refl
          · rw [AList.lookup_insert_ne hk] at hd'
            exact (hout k' d' hd').later (Nat.le_refl _) hlater
      · have hb1 : ∀ k, b k ≤ s1.cleared k := fun k => Nat.le_trans (hb k) (hlater.cleared_le hs)
        refine Protocol.wp_mono (fun r s' _ ⟨hlater', hr⟩ => ⟨hlater.trans hlater', hr⟩)
          (ih hs1 hb1 fun k' d' hd' => ?_)
        exact (hout k' d' hd').later (Nat.le_refl _) hlater

theorem wp_cacheMSet {items : List (Key × Doc)} (hs : s.Coherent E)
    (hfill : ∀ i ∈ items, s.Fillable E t i.1 i.2) :
    (cacheProtocol T E).wp t (fun _ s' => s.Later s') (cacheMSet items) s := by
  induction items generalizing s with
  | nil => exact wp_answer fun s' hlater _ _ => hlater
  | cons i items ih =>
      refine wp_cacheSet hs (hfill i List.mem_cons_self) fun s1 hlater hasked hs1 => ?_
      have hrest := ih hs1 fun j hj =>
        (hfill j (List.mem_cons_of_mem i hj)).later hs hlater hasked
      exact Protocol.wp_mono (fun _ s' _ hlater' => hlater.trans hlater') hrest

section Batches

variable {ids : List Str} {key : Str → Key} {decode : Doc → Option α}
variable {fetch : List Str → CachedM (Except Str (AList fun _ : Str => α))} {encode : α → Doc}

/-- What a store answers to a batch. -/
def Fetched (m : Memory) (misses : List Str) (value : Memory → Str → Option α → Prop)
    (got : AList fun _ : Str => α) : Prop :=
  ∀ id, (id ∈ misses → value m id (got.lookup id)) ∧ (id ∉ misses → got.lookup id = none)

/-- Each id of a batch is answered as the inner store had it. -/
def ServedBatch (tells : Traced T → Nat → Str → Option α → Prop) (b : Key → Nat) (ids : List Str)
    (key : Str → Key) (r : Except Str (AList fun _ : Str => α)) (s : Traced T) : Prop :=
  ∃ out, r = .ok out ∧ ∀ id ∈ ids, ∃ n, b (key id) ≤ n ∧ n ≤ s.world.steps ∧
    tells s n id (out.lookup id)

/-- A read of several keys. -/
theorem wp_readBatch (value : Memory → Str → Option α → Prop)
    (tells : Traced T → Nat → Str → Option α → Prop) (hquiet : ∀ n, E.fault n = none)
    (hs : s.Coherent E)
    (hlater : ∀ (s s' : Traced T) n id o,
      tells s n id o → n ≤ s.world.steps → s.Later s' → tells s' n id o)
    (hdecode : ∀ (s : Traced T) n id d, s.Holds E n (key id) d → tells s n id (decode d))
    (hanswer : ∀ (s : Traced T) n id o, value (s.past n) id o → tells s n id o)
    (hfill : ∀ m id a, value m id (some a) → Filled m (key id) (encode a))
    (hfetch : ∀ (misses : List Str) (s : Traced T), s.Coherent E → (cacheProtocol T E).wp t
      (fun r s' => s.Later s' ∧ s.world.steps ≤ s'.asked t ∧
        ∃ got, r = .ok got ∧ Fetched (s'.past (s'.asked t)) misses value got) (fetch misses) s) :
    (cacheProtocol T E).wp t (ServedBatch tells s.cleared ids key)
      (CachedStore.readBatch ids key decode fetch encode) s := by
  unfold CachedStore.readBatch
  by_cases hempty : ids = []
  · subst hempty
    exact wp_answer fun _ _ _ _ => ⟨∅, rfl, fun id hid => (nomatch hid)⟩
  rw [if_neg hempty]
  have hget : (cacheProtocol T E).wp t _ (cacheMGet ∅ (ids.map key)) s :=
    wp_cacheMGet hquiet hs (fun k => Nat.le_refl (s.cleared k)) fun k d hd => (nomatch hd)
  refine Protocol.wp_seq hs hget fun r s1 hs1 ⟨hlater1, got, hr, hgot⟩ => ?_
  subst hr
  dsimp only
  obtain ⟨hits, hlook, heq⟩ := CachedStore.completeBatch_eq got ids key decode fetch encode
  rw [heq]
  have hhit : ∀ {id d s'}, got.lookup (key id) = some d → s1.Later s' →
      ∃ n, s.cleared (key id) ≤ n ∧ n ≤ s'.world.steps ∧ tells s' n id (decode d) := by
    intro id d s' hd hlater'
    obtain ⟨n, hb, hn, hold⟩ := hgot (key id) d hd
    refine ⟨n, hb, Nat.le_trans hn hlater'.steps, ?_⟩
    exact hlater s1 s' n id _ (hdecode s1 n id d hold) hn hlater'
  split
  · rename_i hmisses
    refine wp_answer fun s' hlater' _ _ => ⟨hits, rfl, fun id hid => ?_⟩
    obtain ⟨d, hd⟩ := CachedStore.exists_of_misses_eq_nil hmisses hid
    have hout : hits.lookup id = decode d := by
      refine (hlook ∅ (fun _ _ => rfl) id).trans ?_
      rw [if_pos hid, hd]
      rfl
    rw [hout]
    exact hhit hd hlater'
  · refine Protocol.wp_seq hs1 (hfetch _ s1 hs1) fun r s2 hs2 ⟨hlater2, hfrom, fetched, hr, hfetched⟩ => ?_
    subst hr
    have hfilled : ∀ i ∈ fetched.entries.map fun e => (key e.1, encode e.2),
        s2.Fillable E t i.1 i.2 := by
      intro i hi
      obtain ⟨id, a, rfl, hmiss, hla⟩ := CachedStore.mem_fetched (fun id => (hfetched id).2) hi
      have hfilled := hfill _ id a (hla ▸ (hfetched id).1 hmiss)
      exact fillable_of_asked hs2 (holds_of_filled (hs2.clean _) hfilled)
    refine Protocol.wp_seq hs2 (wp_cacheMSet hs2 hfilled) fun _ s3 hs3 hlater3 => ?_
    refine wp_answer fun s' hlater' _ _ => ⟨_, rfl, fun id hid => ?_⟩
    rw [hlook _ fun id => (hfetched id).2, if_pos hid]
    have hall : s2.Later s' := hlater3.trans hlater'
    cases hg : got.lookup (key id) with
    | none =>
        have hvalue := (hfetched id).1 (CachedStore.mem_misses.mpr ⟨hid, hg⟩)
        have hb : s.cleared (key id) ≤ s2.asked t :=
          Nat.le_trans (Nat.le_trans (hs.cleared _) hlater1.steps) hfrom
        refine ⟨s2.asked t, hb, Nat.le_trans (hs2.asked t) hall.steps, ?_⟩
        exact hlater s2 s' _ id _ (hanswer s2 _ id _ hvalue) (hs2.asked t) hall
    | some d => exact hhit hg (hlater2.trans hall)

/-- A call on the inner store alone. -/
theorem wp_fetch (call : StoreCall) (P : call.Resp → Memory → Prop) (hcall : call.storable = true)
    (hP : ∀ g now m, P (Memory.exec g now call m).1 m) :
    (cacheProtocol T E).wp t
      (fun r s' => s.Later s' ∧ s.world.steps ≤ s'.asked t ∧
        ∃ got, r = .ok got ∧ P got (s'.past (s'.asked t))) (callInner call) s := by
  refine wp_callInner hcall fun s1 g now hlater hs1 hfrom _ _ => ?_
  refine wp_answer fun s' hlater' hasked _ => ⟨hlater.trans hlater', ?_, _, rfl, ?_⟩
  · rw [hasked]
    exact hfrom
  · rw [hasked, hlater'.past _ (hs1.asked t)]
    exact hP g now _

end Batches

theorem wp_listPeers {expiry : Time} (hquiet : ∀ n, E.fault n = none) (hs : s.Coherent E) :
    (cacheProtocol T E).wp t
      (fun r s' => s'.Answered E s.cleared (.listPeers expiry) r) (CachedStore.listPeers expiry) s := by
  have hcached := wp_readThrough (T := T) (s := s) (E := E) (t := t) .peersList (.listPeers 0)
    (fun doc => .ok (unmarshalPeers doc)) (fun peers => some (marshalPeers peers))
    (fun s n peers => List.Perm peers ((s.past n).peers.entries.map fun e => e.2)) hquiet rfl hs
    (fun s s' n peers hps hn hlater => by rw [hlater.past n hn]; exact hps)
    (fun s n d ⟨ps, hd, hps⟩ => ⟨ps, by rw [hd]; rfl, hps⟩)
    (fun s n g now => by
      show List.Perm ((s.past n).listPeers g now 0) _
      rw [listPeers_zero (le_refl 0)]
      exact g.perm _)
    (fun m g now d hd => ⟨g, now, (Option.some.inj hd).symm⟩)
  refine Protocol.wp_seq hs hcached fun r s1 hs1 ⟨peers, n, hr, hb, hn, hps⟩ => ?_
  subst hr
  dsimp only
  unfold CachedStore.filterExpiry
  by_cases hexp : expiry ≤ 0
  · rw [if_pos hexp]
    refine wp_answer fun s' hlater _ _ => answered_of_served rfl
      ⟨peers, n, rfl, hb, Nat.le_trans hn hlater.steps, ?_⟩
    simp only [Says, if_pos hexp, hlater.past n hn]
    exact hps
  · rw [if_neg hexp]
    refine wp_command fun s2 hlater2 _ hs2 => ⟨trivial, fun hs3 => ?_⟩
    refine wp_answer fun s' hlater' _ _ => answered_of_served rfl ⟨_, n, rfl, hb, ?_, ?_⟩
    · exact Nat.le_trans hn ((hlater2.trans later_next).trans hlater').steps
    · have hstep : s2.world.steps < s'.world.steps :=
        Nat.lt_of_lt_of_le CacheWorld.steps_handle hlater'.steps
      simp only [Says, if_neg hexp, ((hlater2.trans later_next).trans hlater').past n hn]
      exact ⟨s2.world.steps, Nat.le_trans hn hlater2.steps, hstep, hps.filter _⟩

theorem wp_locateChunkNodesBatch {hashes : List Str} (hquiet : ∀ n, E.fault n = none)
    (hs : s.Coherent E) :
    (cacheProtocol T E).wp t
      (ServedBatch (fun s n h o => Option.Rel List.Perm o (some ((s.past n).nodes (.chunk h))))
        s.cleared hashes .chunks) (CachedStore.locateChunkNodesBatch hashes) s := by
  refine wp_readBatch (fun m h o => ∃ g, o = some (m.locateChunkNodes g h)) _ hquiet hs ?_ ?_ ?_ ?_ ?_
  · intro s s' n h o hold hn hlater
    rw [hlater.past n hn]
    exact hold
  · intro s n h d ⟨ids, hd, hids⟩
    rw [hd]
    exact .some hids
  · intro s n h o ⟨g, ho⟩
    rw [ho]
    exact .some (g.perm _)
  · intro m h ids ⟨g, hg⟩
    exact ⟨g, congrArg marshalStrings (Option.some.inj hg)⟩
  · intro misses s hs
    refine wp_fetch (.locateChunkNodesBatch misses) (fun got m => Fetched m misses _ got) rfl ?_
    intro g now m h
    show (h ∈ misses → ∃ g', (m.locateChunkNodesBatch g misses).lookup h = _) ∧
      (h ∉ misses → (m.locateChunkNodesBatch g misses).lookup h = none)
    rw [lookup_locateChunkNodesBatch]
    exact ⟨fun hmem => ⟨_, if_pos hmem⟩, fun hmem => if_neg hmem⟩

theorem wp_getPeersBatch {nodeIDs : List Str} (hquiet : ∀ n, E.fault n = none)
    (hs : s.Coherent E) :
    (cacheProtocol T E).wp t
      (ServedBatch (fun s n id o => Option.Rel (s.Noted E n) o ((s.past n).peers.lookup id))
        s.cleared nodeIDs .peer) (CachedStore.getPeersBatch nodeIDs) s := by
  refine wp_readBatch (fun m id o => o = m.peers.lookup id) _ hquiet hs ?_ ?_ ?_ ?_ ?_
  · intro s s' n id o hold hn hlater
    rw [hlater.past n hn]
    exact rel_noted_later hold hlater
  · intro s n id d hold
    obtain ⟨p, rfl, hp⟩ := rel_noted_of_holds hold
    exact hp
  · intro s n id o ho
    rw [ho]
    exact rel_noted_refl _
  · exact fun m id p hp => ⟨p, hp.symm, rfl⟩
  · intro misses s hs
    refine wp_fetch (.getPeersBatch misses) (fun got m => Fetched m misses _ got) rfl ?_
    intro g now m id
    show (id ∈ misses → (m.getPeersBatch misses).lookup id = _) ∧
      (id ∉ misses → (m.getPeersBatch misses).lookup id = none)
    rw [lookup_getPeersBatch]
    exact ⟨fun hmem => if_pos hmem, fun hmem => if_neg hmem⟩

/-- Every read answers what the inner store has had since the keys were last
invalidated before it began. -/
theorem wp_read {c : StoreCall} (hquiet : ∀ n, E.fault n = none) (hc : c.isRead = true)
    (hs : s.Coherent E) :
    (cacheProtocol T E).wp t (fun r s' => s'.Answered E s.cleared c r) (CachedStore.call c) s := by
  cases c with
  | getPeer nodeID =>
      refine Protocol.wp_mono (fun r s' _ h => answered_of_served rfl h)
        (wp_readThrough (.peer nodeID) (.getPeer nodeID) _ _
          (fun s n a => s.Says E n (.getPeer nodeID) a (.peer nodeID)) hquiet rfl hs
          (fun s s' n a h hn hlater => h.later hn hlater) (fun s n d h => ?_)
          (fun s n g now => rel_noted_refl _) (fun m g now d hd => ?_))
      · obtain ⟨p, rfl, hp⟩ := rel_noted_of_holds h
        exact ⟨some p, rfl, hp⟩
      · obtain ⟨p, hp, rfl⟩ := Option.map_eq_some_iff.mp hd
        exact ⟨p, hp, rfl⟩
  | getArtifact artifactID =>
      refine Protocol.wp_mono (fun r s' _ h => answered_of_served rfl h)
        (wp_readThrough (.artifact artifactID) (.getArtifact artifactID) _ _
          (fun s n a => s.Says E n (.getArtifact artifactID) a (.artifact artifactID)) hquiet rfl hs
          (fun s s' n a h hn hlater => h.later hn hlater) (fun s n d h => ?_)
          (fun s n g now => rfl) (fun m g now d hd => ?_))
      · obtain ⟨a, rfl, ha⟩ := h
        exact ⟨some a, rfl, ha.symm⟩
      · obtain ⟨a, ha, rfl⟩ := Option.map_eq_some_iff.mp hd
        exact ⟨a, ha, rfl⟩
  | listSeeds artifactID =>
      refine Protocol.wp_mono (fun r s' _ h => answered_of_served rfl h)
        (wp_readThrough (.seeds artifactID) (.listSeeds artifactID) _ _
          (fun s n a => s.Says E n (.listSeeds artifactID) a (.seeds artifactID)) hquiet rfl hs
          (fun s s' n a h hn hlater => h.later hn hlater) (fun s n d h => ?_)
          (fun s n g now => g.perm _) (fun m g now d hd => ⟨g, (Option.some.inj hd).symm⟩))
      obtain ⟨ids, rfl, hids⟩ := h
      exact ⟨ids, rfl, hids⟩
  | locateChunkNodes hash =>
      refine Protocol.wp_mono (fun r s' _ h => answered_of_served rfl h)
        (wp_readThrough (.chunks hash) (.locateChunkNodes hash) _ _
          (fun s n a => s.Says E n (.locateChunkNodes hash) a (.chunks hash)) hquiet rfl hs
          (fun s s' n a h hn hlater => h.later hn hlater) (fun s n d h => ?_)
          (fun s n g now => g.perm _) (fun m g now d hd => ⟨g, (Option.some.inj hd).symm⟩))
      obtain ⟨ids, rfl, hids⟩ := h
      exact ⟨ids, rfl, hids⟩
  | listPeers expiry => exact wp_listPeers hquiet hs
  | locateChunkNodesBatch hashes =>
      refine Protocol.wp_mono (fun r s' _ ⟨out, hr, hout⟩ => ⟨out, hr, fun k hk => ?_⟩)
        (wp_locateChunkNodesBatch hquiet hs)
      obtain ⟨h, hh, rfl⟩ := List.mem_map.mp hk
      exact hout h hh
  | getPeersBatch nodeIDs =>
      refine Protocol.wp_mono (fun r s' _ ⟨out, hr, hout⟩ => ⟨out, hr, fun k hk => ?_⟩)
        (wp_getPeersBatch hquiet hs)
      obtain ⟨id, hid, rfl⟩ := List.mem_map.mp hk
      exact hout id hid
  | _ => contradiction

end Reads

/-! ## Writes and heartbeats -/

section Writes

open Traced

variable {T : Type} [DecidableEq T] {s : Traced T} {E : CacheEnv} {t : T} {c : StoreCall} {α : Type}
variable {Q : α → Traced T → Prop}

/-- A write on the inner store, before anything is invalidated. -/
theorem wp_innerWrite {f : Except Str c.Resp → CachedM α} (hc : c.storable = true)
    (hf : ∀ s' g now, s'.Coherent E → s'.Wrote t c (fun _ => False) →
      s'.past (s'.asked t + 1) = (Memory.exec g now c (s'.past (s'.asked t))).2 →
      (cacheProtocol T E).wp t Q (f (.ok (Memory.exec g now c (s'.past (s'.asked t))).1)) s') :
    (cacheProtocol T E).wp t Q (callInner c >>= f) s := by
  refine wp_callInner hc fun s' g now _ hs' _ hbefore heffect => ?_
  exact hf s' g now hs' ⟨hbefore, ⟨g, now, heffect⟩, fun _ h => h.elim⟩ heffect

theorem wp_settled {r : Except Str c.Resp} (hs : s.Coherent E) (h : s.Settled t c) :
    (cacheProtocol T E).wp t (fun _ s' => s'.Settled t c)
      (pure r : CachedM (Except Str c.Resp)) s :=
  wp_answer fun _ hlater hasked _ => h.later hs hlater hasked

theorem wp_deleteChunks {call : StoreCall} {K : Key → Prop} {hashes : List Str} (hs : s.Coherent E)
    (hw : s.Wrote t call K) :
    (cacheProtocol T E).wp t
      (fun _ s' => s'.Wrote t call fun k => K k ∨ ∃ h ∈ hashes, k = .chunks h)
      (CachedStore.deleteChunks hashes) s := by
  induction hashes generalizing s K with
  | nil =>
      refine wp_answer fun s' hlater hasked _ => ?_
      have hw' := hw.later hs hlater hasked
      exact { hw' with cleared := fun k hk => hw'.cleared k (by simpa using hk) }
  | cons h hashes ih =>
      refine wp_cacheDelete hs hw fun s1 hs1 hw1 => ?_
      refine Protocol.wp_mono (fun _ s' _ hw' => ?_) (ih hs1 hw1)
      exact { hw' with cleared := fun k hk => hw'.cleared k (by simpa [or_assoc] using hk) }

/-- Every write changes the inner store and then invalidates its keys. -/
theorem wp_write (hc : c.isWrite = true) (hstorable : c.storable = true) :
    (cacheProtocol T E).wp t (fun _ s' => s'.Settled t c) (CachedStore.call c) s := by
  cases c with
  | upsertPeer peer | reportSeed artifactID nodeID =>
      refine wp_innerWrite hstorable fun s1 _ _ hs1 hw1 _ => ?_
      refine wp_cacheDelete hs1 hw1 fun s2 hs2 hw2 => wp_cacheDelete hs2 hw2 fun s3 hs3 hw3 => ?_
      exact wp_settled hs3 (settled_of_wrote hw3 fun k hk => by simpa [StoreCall.invalidates] using hk)
  | deregisterPeer nodeID =>
      refine wp_innerWrite hstorable fun s1 _ _ hs1 hw1 _ => ?_
      refine wp_cacheDelete hs1 hw1 fun s2 hs2 hw2 => wp_cacheDelete hs2 hw2 fun s3 hs3 hw3 => ?_
      refine wp_cacheDeletePrefix (.seeds []) hs3 hw3 fun s4 hs4 hw4 => ?_
      refine wp_cacheDeletePrefix (.locate []) hs4 hw4 fun s5 hs5 hw5 => ?_
      refine wp_cacheDeletePrefix (.chunks []) hs5 hw5 fun s6 hs6 hw6 => ?_
      refine wp_settled hs6 (settled_of_wrote hw6 fun k hk => ?_)
      simpa [StoreCall.invalidates, Key.family, or_assoc] using hk
  | pruneExpiredPeers expiry =>
      refine wp_innerWrite hstorable fun s1 g now hs1 hw1 heffect => ?_
      dsimp only
      split
      · rename_i hzero
        refine wp_settled hs1 ⟨_, hw1, .inr ?_⟩
        rw [heffect]
        exact pruneExpiredPeers_zero hzero
      · refine wp_cacheDelete hs1 hw1 fun s2 hs2 hw2 => ?_
        refine wp_cacheDeletePrefix (.peer []) hs2 hw2 fun s3 hs3 hw3 => ?_
        refine wp_cacheDeletePrefix (.seeds []) hs3 hw3 fun s4 hs4 hw4 => ?_
        refine wp_cacheDeletePrefix (.locate []) hs4 hw4 fun s5 hs5 hw5 => ?_
        refine wp_cacheDeletePrefix (.chunks []) hs5 hw5 fun s6 hs6 hw6 => ?_
        refine wp_settled hs6 (settled_of_wrote hw6 fun k hk => ?_)
        simpa [StoreCall.invalidates, Key.family, or_assoc] using hk
  | putArtifact rec =>
      refine wp_innerWrite hstorable fun s1 _ _ hs1 hw1 _ => ?_
      refine wp_cacheDelete hs1 hw1 fun s2 hs2 hw2 => ?_
      exact wp_settled hs2 (settled_of_wrote hw2 fun k hk => .inr hk)
  | reportChunks nodeID hashes =>
      refine wp_innerWrite hstorable fun s1 _ _ hs1 hw1 _ => ?_
      refine Protocol.wp_seq hs1 (wp_deleteChunks hs1 hw1) fun _ s2 hs2 hw2 => ?_
      exact wp_settled hs2 (settled_of_wrote hw2 fun k hk => .inr hk)
  | _ => contradiction

variable {nodeID : Str}

/-- A cached peer with the time of a heartbeat. -/
theorem fillable_touch {p : Peer} (hs : s.Coherent E) (hd : s.Fillable E t (.peer nodeID) (.peer p)) :
    (s.next E t .now).Fillable E t (.peer nodeID)
      (marshalPeer { p with lastHeartbeat := (E.clock s.world.steps).1 }) := by
  intro hle
  have hsame : (s.next E t .now).asked t = s.asked t := asked_next rfl
  rw [hsame] at hle
  obtain ⟨n, hb, hn, p', q, hp', hq, hnoted⟩ := hd hle
  cases hp'
  -- the time is the only thing in which the cached peer can differ
  have htouch : ({ p with lastHeartbeat := (E.clock s.world.steps).1 } : Peer) =
      { q with lastHeartbeat := (E.clock s.world.steps).1 } := by
    rcases hnoted with rfl | ⟨n', _, _, rfl⟩ <;> rfl
  have hstorable : Peer.storable { q with lastHeartbeat := (E.clock s.world.steps).1 } = true :=
    storable_touch ((hs.clean n).peer hq).2 (E.clock s.world.steps)
  have hlater : s.Later (s.next E t .now) := later_next
  refine ⟨n, hb, Nat.le_trans hn hlater.steps,
    { q with lastHeartbeat := (E.clock s.world.steps).1 }, q, ?_, ?_, .inr ?_⟩
  · rw [htouch, marshalPeer_of_storable hstorable]
  · rw [hlater.past n hn, hq]
  · exact ⟨s.world.steps, hn, CacheWorld.steps_handle, rfl⟩

theorem wp_touchCached (hquiet : ∀ n, E.fault n = none) (hs : s.Coherent E) :
    (cacheProtocol T E).wp t (fun _ _ => True) (CachedStore.touchCached nodeID) s := by
  refine wp_cacheGet hquiet hs (fun s1 d _ hs1 hd hfill => ?_) fun _ _ _ => wp_answer fun _ _ _ _ => trivial
  obtain ⟨_, _, _, p, _, rfl, _, _⟩ := hd
  refine wp_command fun s2 hlater hasked hs2 => ⟨trivial, fun hs3 => ?_⟩
  have hput := fillable_touch hs2 (hfill.later hs1 hlater hasked)
  exact wp_cacheSet hs3 hput fun _ _ _ _ => wp_answer fun _ _ _ _ => trivial

theorem wp_heartbeatInner (hquiet : ∀ n, E.fault n = none) :
    (cacheProtocol T E).wp t (fun _ _ => True) (CachedStore.heartbeatInner nodeID) s := by
  refine wp_callInner rfl fun s1 g now _ hs1 _ _ _ => ?_
  split
  · contradiction
  · exact wp_answer fun _ _ _ _ => trivial
  · refine Protocol.wp_seq hs1 (wp_touchCached hquiet hs1) fun _ _ _ _ => ?_
    exact wp_answer fun _ _ _ _ => trivial

theorem wp_heartbeat (hquiet : ∀ n, E.fault n = none) :
    (cacheProtocol T E).wp t (fun _ _ => True) (CachedStore.heartbeat nodeID) s := by
  refine wp_command fun s1 _ _ _ => ⟨trivial, fun hs2 => ?_⟩
  split
  · exact wp_heartbeatInner hquiet
  · refine Protocol.wp_seq hs2 (wp_touchCached hquiet hs2) fun noted _ _ _ => ?_
    cases noted with
    | true => exact wp_answer fun _ _ _ _ => trivial
    | false => exact wp_heartbeatInner hquiet

/-- Every call keeps to the protocol; a write is settled when it returns. -/
theorem wp_call (hquiet : ∀ n, E.fault n = none) (hstorable : c.storable = true)
    (hs : s.Coherent E) :
    (cacheProtocol T E).wp t (fun _ s' => c.isWrite = true → s'.Settled t c)
      (CachedStore.call c) s := by
  rcases c.kinds with hread | hwrite | ⟨nodeID, rfl⟩
  · refine Protocol.wp_mono (fun _ _ _ _ hwrite => ?_) (wp_read hquiet hread hs)
    cases c <;> contradiction
  · exact Protocol.wp_mono (fun _ _ _ h _ => h) (wp_write hwrite hstorable)
  · exact Protocol.wp_mono (fun _ _ _ _ hwrite => (nomatch hwrite)) (wp_heartbeat hquiet)

end Writes

/-! ## Interleavings -/

section Interleavings

open Traced

variable {T : Type} {s : Traced T} {E : CacheEnv} {t : T} {c : StoreCall}

/-- The write of a thread has left alone what the inner store has for the key: it
has changed heartbeat times at most, or nothing at all. -/
def Traced.Spared (t : T) (c : StoreCall) (k : Key) (s : Traced T) : Prop :=
  (¬ c.invalidates k ∧ (s.past (s.asked t)).SameAt (s.past (s.asked t + 1)) k) ∨
    s.past (s.asked t + 1) = s.past (s.asked t)

/-- Either a write has spared a key, or the key was invalidated after it. -/
theorem spared_or_cleared (h : s.Settled t c) (k : Key) :
    s.Spared t c k ∨ s.asked t < s.cleared k := by
  obtain ⟨K, hw, hkeys⟩ := h
  by_cases hk : c.invalidates k
  · rcases hkeys with hkeys | hsame
    · exact .inr (hw.cleared k (hkeys k hk))
    · exact .inl (.inr hsame)
  · obtain ⟨g, now, heffect⟩ := hw.effect
    refine .inl (.inl ⟨hk, ?_⟩)
    rw [heffect]
    exact sameAt_exec hk

theorem Traced.Spared.later {s' : Traced T} {k : Key} (h : s.Spared t c k)
    (hbefore : s.asked t < s.world.steps) (hlater : s.Later s') (hasked : s'.asked t = s.asked t) :
    s'.Spared t c k := by
  rw [Spared, hasked, hlater.past _ hbefore, hlater.past _ (Nat.le_of_lt hbefore)]
  exact h

theorem coherent_start : (Traced.start : Traced T).Coherent E where
  clean _ := clean_new
  present := rfl
  cleared _ := Nat.zero_le _
  asked _ := Nat.zero_le _
  entry k e he := by simp [Traced.start, CacheWorld.new, CacheWorld.entry] at he

variable [DecidableEq T]

theorem wp_client (hquiet : ∀ n, E.fault n = none) (hc : c.storable = true) (hs : s.Coherent E) :
    (cacheProtocol T E).wp t (fun _ s' => c.isWrite = true → s'.Settled t c) (client c) s := by
  refine Protocol.wp_seq hs (wp_call hquiet hc hs) fun r s1 hs1 hsettled => ?_
  exact wp_answer fun s' hlater hasked _ hwrite => (hsettled hwrite).later hs1 hlater hasked

theorem wp_client_read (hquiet : ∀ n, E.fault n = none) (hc : c.isRead = true)
    (hs : s.Coherent E) :
    (cacheProtocol T E).wp t
      (fun b s' => ∃ r, b = ⟨c, r⟩ ∧ s'.Answered E s.cleared c r) (client c) s := by
  refine Protocol.wp_seq hs (wp_read hquiet hc hs) fun r s1 _ ⟨a, hr, ha⟩ => ?_
  refine wp_answer fun s' hlater _ _ => ⟨r, rfl, a, hr, fun k hk => ?_⟩
  obtain ⟨n, hb, hn, hsays⟩ := ha k hk
  exact ⟨n, hb, Nat.le_trans hn hlater.steps, hsays.later hn hlater⟩

/-- In every timely interleaving of calls, once a write has returned, a read that
begins afterwards answers, for each key that the write has not spared, what the
inner store had at some step after the write. -/
theorem no_stale_read (E : CacheEnv) (hquiet : ∀ n, E.fault n = none) (calls : T → StoreCall)
    (hcalls : ∀ t, (calls t).storable = true) {w r : T} (hwrite : (calls w).isWrite = true)
    (hread : (calls r).isRead = true) {mid fin : Config cacheSig (Traced T) T Answer}
    {a b : Answer} (hmid : Reachable (timelySystem E) (clients calls) mid)
    (hwrote : mid.prog w = .ret a) (hbegin : mid.prog r = client (calls r))
    (hfin : Reachable (timelySystem E) mid fin) (hdone : fin.prog r = .ret b) :
    ∃ v, b = ⟨calls r, .ok v⟩ ∧ ∀ k ∈ (calls r).keys,
      fin.st.Spared w (calls w) k ∨
        ∃ n, fin.st.asked w < n ∧ n ≤ fin.st.world.steps ∧ fin.st.Says E n (calls r) v k := by
  have hstart : (cacheProtocol T E).Inv (clients calls).st := coherent_start
  obtain ⟨hcoherent, hwp⟩ := (cacheProtocol T E).sound hstart
    (fun t => wp_client (t := t) hquiet (hcalls t) coherent_start) hmid
  have hsettled : mid.st.Settled w (calls w) := by
    have hw := hwp w
    rw [hwrote] at hw
    exact hw mid.st ⟨.refl, rfl⟩ hcoherent hwrite
  -- the writer has nothing left to do
  obtain ⟨⟨hlater, hasked⟩, -⟩ := (cacheProtocol T E).rely_of_returned hcoherent hwp hfin hwrote
  -- the reader has everything left to do
  have hanswer : r = r → ∃ x, b = ⟨calls r, x⟩ ∧ fin.st.Answered E mid.st.cleared (calls r) x := by
    refine (cacheProtocol T E).post_of_reachable (Q := fun t b s =>
      t = r → ∃ x, b = ⟨calls r, x⟩ ∧ s.Answered E mid.st.cleared (calls r) x)
      hcoherent (fun t => ?_) hfin hdone
    by_cases ht : t = r
    · subst ht
      rw [hbegin]
      exact Protocol.wp_mono (fun _ _ _ h _ => h) (wp_client_read hquiet hread hcoherent)
    · exact Protocol.wp_mono (fun _ _ _ _ h => absurd h ht) (hwp t)
  obtain ⟨x, rfl, v, rfl, hkeys⟩ := hanswer rfl
  refine ⟨v, rfl, fun k hk => ?_⟩
  rcases spared_or_cleared hsettled k with hspared | hcleared
  · obtain ⟨K, hw, -⟩ := hsettled
    exact .inl (hspared.later hw.before hlater hasked)
  · obtain ⟨n, hb, hn, hsays⟩ := hkeys k hk
    rw [hasked]
    exact .inr ⟨n, Nat.lt_of_lt_of_le hcleared hb, hn, hsays⟩

end Interleavings

/-! ## Runs -/

/-- The answers of a cached store. -/
def CacheEnv.answer {T : Type} (E : CacheEnv) (_ : T) (c : CacheCmd) (s : Traced T) : c.Resp :=
  (E.handle c s.world).1

/-- Two reads of the location of a chunk, and a report. -/
def locatingCalls : Fin 3 → StoreCall
  | 0 => .locateChunkNodes (str "c1")
  | 1 => .reportChunks (str "n1") [str "c1"]
  | 2 => .locateChunkNodes (str "c1")

/-- A registration, two reads of the peer, and a report. -/
def reportingCalls : Fin 4 → StoreCall
  | 0 => .upsertPeer ⟨str "n1", str "h:1", [], [], [], [], [], 0⟩
  | 1 => .getPeer (str "n1")
  | 2 => .reportChunks (str "n1") [str "c1"]
  | 3 => .getPeer (str "n1")

/-- The first read is through before the report, the second begins after it. -/
theorem no_stale_read_located :
    ∃ mid fin, Reachable (timelySystem .still) (clients locatingCalls) mid ∧
      mid.prog 1 = .ret ⟨locatingCalls 1, .ok (1 : Nat)⟩ ∧
      Reachable (timelySystem .still) mid fin ∧
      fin.prog 2 = .ret ⟨locatingCalls 2, .ok [str "n1"]⟩ ∧
      ∃ v, (⟨locatingCalls 2, .ok [str "n1"]⟩ : Answer) = ⟨locatingCalls 2, .ok v⟩ ∧
        ∀ k ∈ (locatingCalls 2).keys, fin.st.Spared 1 (locatingCalls 1) k ∨
          ∃ n, fin.st.asked 1 < n ∧ n ≤ fin.st.world.steps ∧
            fin.st.Says .still n (locatingCalls 2) v k := by
  obtain ⟨mid, hmid⟩ : ∃ mid, mid = (clients locatingCalls).play (timelySystem .still)
      CacheEnv.still.answer [0, 0, 0, 1, 1] := ⟨_, rfl⟩
  obtain ⟨fin, hfin⟩ : ∃ fin, fin = mid.play (timelySystem .still)
      CacheEnv.still.answer [2, 2, 2] := ⟨_, rfl⟩
  have hwrote : mid.prog 1 = .ret ⟨locatingCalls 1, .ok (1 : Nat)⟩ := by
    refine Prog.eq_ret_of_value ?_
    rw [hmid]
    decide +kernel
  have hbegin : mid.prog 2 = client (locatingCalls 2) := by
    rw [hmid, Config.prog_play (by decide), prog_clients]
  have hdone : fin.prog 2 = .ret ⟨locatingCalls 2, .ok [str "n1"]⟩ := by
    refine Prog.eq_ret_of_value ?_
    rw [hfin, hmid]
    decide +kernel
  have hbefore : Reachable (timelySystem .still) (clients locatingCalls) mid :=
    hmid ▸ Config.reachable_play
  have hafter : Reachable (timelySystem .still) mid fin := hfin ▸ Config.reachable_play
  exact ⟨mid, fin, hbefore, hwrote, hafter, hdone, no_stale_read .still (fun _ => rfl) locatingCalls
    (by decide) rfl rfl hbefore hwrote hbegin hafter hdone⟩

/-- Two runs in which the answer of a read is older than a write that had returned
before it began.  In the first, another read has asked the inner store before the
report and fills the cache after it, and the location is missing.  In the second,
one call after the other, a report counts as a sign of life in the inner store,
and the peer cached before it has the old time. -/
theorem stale_read_after_write :
    (∃ mid fin, Reachable (cachedSystem .still) (clients locatingCalls) mid ∧
      mid.prog 1 = .ret ⟨locatingCalls 1, .ok (1 : Nat)⟩ ∧ mid.prog 2 = client (locatingCalls 2) ∧
      Reachable (cachedSystem .still) mid fin ∧
      fin.prog 2 = .ret ⟨locatingCalls 2, .ok ([] : List Str)⟩ ∧
      ∀ n, fin.st.asked 1 < n → n ≤ fin.st.world.steps →
        ¬ fin.st.Says .still n (locatingCalls 2) ([] : List Str) (.chunks (str "c1"))) ∧
    (let E := CacheEnv.paced [(6, 1)]
      let stale : Peer := ⟨str "n1", str "h:1", [], [], [], [], str "HEALTHY", 0⟩
      ∃ mid fin, Reachable (cachedSystem E) (clients reportingCalls) mid ∧
        mid.prog 2 = .ret ⟨reportingCalls 2, .ok (1 : Nat)⟩ ∧ mid.prog 3 = client (reportingCalls 3) ∧
        Reachable (cachedSystem E) mid fin ∧
        fin.prog 3 = .ret ⟨reportingCalls 3, .ok (some stale)⟩ ∧
        ∀ n, fin.st.asked 2 < n → n ≤ fin.st.world.steps →
          ¬ fin.st.Says E n (reportingCalls 3) (some stale) (.peer (str "n1"))) := by
  constructor
  · obtain ⟨mid, hmid⟩ : ∃ mid, mid = (clients locatingCalls).play (cachedSystem .still)
        CacheEnv.still.answer [0, 0, 1, 1] := ⟨_, rfl⟩
    obtain ⟨fin, hfin⟩ : ∃ fin, fin = mid.play (cachedSystem .still)
        CacheEnv.still.answer [0, 2] := ⟨_, rfl⟩
    have hwrote : (mid.prog 1).value = some ⟨locatingCalls 1, .ok (1 : Nat)⟩ := by
      rw [hmid]
      decide +kernel
    have hbegin : mid.prog 2 = client (locatingCalls 2) := by
      rw [hmid, Config.prog_play (by decide), prog_clients]
    have hdone : (fin.prog 2).value = some ⟨locatingCalls 2, .ok ([] : List Str)⟩ := by
      rw [hfin, hmid]
      decide +kernel
    have hlater : fin.st.asked 1 = 2 ∧ fin.st.world.steps = 6 ∧
        ∀ n, n < 7 → 2 < n → (fin.st.past n).nodes (.chunk (str "c1")) = [str "n1"] := by
      rw [hfin, hmid]
      decide +kernel
    obtain ⟨hasked, hsteps, hlater⟩ := hlater
    refine ⟨mid, fin, hmid ▸ Config.reachable_play, Prog.eq_ret_of_value hwrote, hbegin,
      hfin ▸ Config.reachable_play, Prog.eq_ret_of_value hdone, ?_⟩
    intro n hn hn' hsays
    have hperm : List.Perm [] ((fin.st.past n).nodes (.chunk (str "c1"))) := hsays
    rw [hlater n (by omega) (by omega)] at hperm
    simp at hperm
  · intro E stale
    obtain ⟨mid, hmid⟩ : ∃ mid, mid = (clients reportingCalls).play (cachedSystem E)
        E.answer [0, 0, 0, 1, 1, 1, 2, 2] := ⟨_, rfl⟩
    obtain ⟨fin, hfin⟩ : ∃ fin, fin = mid.play (cachedSystem E) E.answer [3] := ⟨_, rfl⟩
    have hwrote : (mid.prog 2).value = some ⟨reportingCalls 2, .ok (1 : Nat)⟩ := by
      rw [hmid]
      decide +kernel
    have hbegin : mid.prog 3 = client (reportingCalls 3) := by
      rw [hmid, Config.prog_play (by decide), prog_clients]
    have hdone : (fin.prog 3).value = some ⟨reportingCalls 3, .ok (some stale)⟩ := by
      rw [hfin, hmid]
      decide +kernel
    have hlater : fin.st.asked 2 = 6 ∧ fin.st.world.steps = 9 ∧
        ∀ n, n < 10 → 6 < n → (fin.st.past n).peers.lookup (str "n1") =
          some { stale with lastHeartbeat := 1000000000 } := by
      rw [hfin, hmid]
      decide +kernel
    obtain ⟨hasked, hsteps, hlater⟩ := hlater
    have hclock : ∀ n, n < 9 → 6 < n → (E.clock n).1 = 1000000000 := by decide +kernel
    refine ⟨mid, fin, hmid ▸ Config.reachable_play, Prog.eq_ret_of_value hwrote, hbegin,
      hfin ▸ Config.reachable_play, Prog.eq_ret_of_value hdone, ?_⟩
    intro n hn hn' hsays
    have hrel : Option.Rel (fin.st.Noted E n) (some stale)
        ((fin.st.past n).peers.lookup (str "n1")) := hsays
    rw [hlater n (by omega) (by omega)] at hrel
    have hstored : stale.lastHeartbeat ≠ (1000000000 : Int) := by decide
    have hread : ∀ n', n ≤ n' → n' < fin.st.world.steps → stale.lastHeartbeat ≠ (E.clock n').1 := by
      intro n' hfrom hto
      rw [hclock n' (by omega) (by omega)]
      exact hstored
    exact Traced.not_noted hstored hread (Option.rel_some_some.mp hrel)

end Spider

import Spider.Tracker.Transparency

/-!
# Spider.Tracker.Trace

Concurrent calls on one cached store.  Each call is a thread, and the commands of
its program are the atomic steps: a `Get`, a call on the inner store, a `Set`, a
deletion.  Threads may come in any number, so that a client with several calls is
several threads.

The state carries a history besides the store: what the inner store was after
each step, when a key was last invalidated, and when a thread last asked the cache
or the inner store.  No command looks at it.

* `cachedSystem`: every interleaving.
* `timelySystem`: those in which no thread fills the cache under a key that was
  invalidated since the thread asked.
* `Coherent`: all that is cached is what the inner store had at some step since
  the key was last invalidated.  It is the invariant of the timely interleavings.
-/

namespace Spider

open Conc

/-! ## Threads of a cached store -/

deriving instance DecidableEq for StoreCall

instance StoreCall.decidableEqResp : (c : StoreCall) → DecidableEq c.Resp
  | .upsertPeer _ => inferInstanceAs (DecidableEq Unit)
  | .heartbeat _ => inferInstanceAs (DecidableEq Bool)
  | .getPeer _ => inferInstanceAs (DecidableEq (Option Peer))
  | .listPeers _ => inferInstanceAs (DecidableEq (List Peer))
  | .deregisterPeer _ => inferInstanceAs (DecidableEq Unit)
  | .pruneExpiredPeers _ => inferInstanceAs (DecidableEq Nat)
  | .putArtifact _ => inferInstanceAs (DecidableEq Unit)
  | .getArtifact _ => inferInstanceAs (DecidableEq (Option ArtifactRecord))
  | .reportSeed _ _ => inferInstanceAs (DecidableEq Unit)
  | .listSeeds _ => inferInstanceAs (DecidableEq (List Str))
  | .reportChunks _ _ => inferInstanceAs (DecidableEq Nat)
  | .locateChunkNodes _ => inferInstanceAs (DecidableEq (List Str))
  | .locateChunkNodesBatch _ => inferInstanceAs (DecidableEq (AList fun _ : Str => List Str))
  | .getPeersBatch _ => inferInstanceAs (DecidableEq (AList fun _ : Str => Peer))

instance CacheCmd.decidableEqResp : (c : CacheCmd) → DecidableEq c.Resp
  | .inner c => inferInstanceAs (DecidableEq (Except Str c.Resp))
  | .get _ => inferInstanceAs (DecidableEq (Except Str (Option Doc)))
  | .set _ _ => inferInstanceAs (DecidableEq Unit)
  | .delete _ => inferInstanceAs (DecidableEq Unit)
  | .deletePrefix _ => inferInstanceAs (DecidableEq Unit)
  | .now => inferInstanceAs (DecidableEq Int)
  | .flushDue _ => inferInstanceAs (DecidableEq Bool)

/-- A cached store and its history. -/
structure Traced (T : Type) where
  world : CacheWorld
  /-- the inner store when this many steps had been made -/
  past : Nat → Memory
  /-- how many steps had been made when the key was last invalidated -/
  cleared : Key → Nat
  /-- the step in which a thread last asked the cache or the inner store -/
  asked : T → Nat

/-- The command deletes the key from the cache. -/
def CacheCmd.clears : CacheCmd → Key → Bool
  | .delete k₀, k => decide (k = k₀)
  | .deletePrefix p, k => p.isPrefixOf k.render
  | _, _ => false

/-- The command asks the cache or the inner store. -/
def CacheCmd.asks : CacheCmd → Bool
  | .inner _ => true
  | .get _ => true
  | _ => false

namespace Traced

variable {T : Type}

/-- A new cached store. -/
def start : Traced T := ⟨.new, fun _ => .new, fun _ => 0, fun _ => 0⟩

variable [DecidableEq T]

/-- A command of a thread, carried out and put on record. -/
def next (E : CacheEnv) (t : T) (c : CacheCmd) (s : Traced T) : Traced T where
  world := (E.handle c s.world).2
  past n := if n ≤ s.world.steps then s.past n else (E.handle c s.world).2.inner
  cleared k := if c.clears k then (E.handle c s.world).2.steps else s.cleared k
  asked u := if u = t ∧ c.asks = true then s.world.steps else s.asked u

/-- No fill under a key that was invalidated since the thread asked. -/
def timely (t : T) (c : CacheCmd) (s : Traced T) : Bool :=
  match c with
  | .set k _ => decide (s.cleared k ≤ s.asked t)
  | _ => true

end Traced

section Systems

variable {T : Type}

/-- What a call has returned. -/
abbrev Answer := (c : StoreCall) × Except Str c.Resp

/-- The thread of a call. -/
def client (c : StoreCall) : CachedM Answer := do
  let r ← CachedStore.call c
  pure ⟨c, r⟩

/-- Calls on a new cached store, none of which has begun. -/
def clients (calls : T → StoreCall) : Config cacheSig (Traced T) T Answer :=
  ⟨.start, fun t => client (calls t)⟩

theorem prog_clients (calls : T → StoreCall) (t : T) : (clients calls).prog t = client (calls t) :=
  rfl

variable [DecidableEq T]

/-- A cached store used by many threads. -/
def cachedSystem (E : CacheEnv) : System cacheSig (Traced T) T :=
  .ofHandler fun t c s => ((E.handle c s.world).1, s.next E t c)

/-- The interleavings in which every fill is timely. -/
def timelySystem (E : CacheEnv) : System cacheSig (Traced T) T := (cachedSystem E).guard Traced.timely

end Systems

/-! ## One step -/

namespace CacheWorld

variable {w : CacheWorld} {E : CacheEnv} {c : CacheCmd} {k : Key} {e : Timed Doc}

theorem steps_handle : w.steps < (E.handle c w).2.steps := by
  cases c with
  | get k =>
      unfold CacheEnv.handle
      dsimp only
      split <;> exact Nat.lt_succ_self _
  | flushDue nodeID =>
      show w.steps < (w.flush E nodeID).2.steps
      unfold flush
      split
      · exact Nat.lt_add_of_pos_right (by decide)
      · exact Nat.lt_succ_self _
  | _ => exact Nat.lt_succ_self _

/-- Only a call on the inner store changes it. -/
theorem inner_handle :
    (E.handle c w).2.inner = w.inner ∨
      ∃ call, c = .inner call ∧ (E.handle c w).2.inner = (w.innerExec E call).2 := by
  cases c with
  | inner call => exact .inr ⟨call, rfl, rfl⟩
  | get k =>
      refine .inl ?_
      unfold CacheEnv.handle
      dsimp only
      split <;> rfl
  | flushDue nodeID =>
      refine .inl ?_
      show (w.flush E nodeID).2.inner = w.inner
      unfold flush
      split <;> rfl
  | _ => exact .inl rfl

/-- An entry was there before and has not been deleted, or it was put there. -/
theorem entry_handle (h : (E.handle c w).2.entry k = some e) :
    (w.entry k = some e ∧ c.clears k = false) ∨ c = .set k e.value := by
  cases c with
  | inner call => exact .inl ⟨h, rfl⟩
  | get k0 =>
      refine .inl ⟨?_, rfl⟩
      unfold CacheEnv.handle at h
      dsimp only at h
      split at h
      · exact h
      · rcases get_cases (w := w) (E := E) (k := k0) with ⟨e0, _, _, hget⟩ | hget
        · rw [hget] at h
          exact h
        · rw [hget] at h
          exact entry_of_drop h
  | set k0 d =>
      have hput : (w.put k0 ⟨d, E.deadline w.steps⟩).entry k = some e := h
      rw [entry_put] at hput
      split at hput
      · rename_i hk
        rw [hk, ← Option.some.inj hput]
        exact .inr rfl
      · exact .inl ⟨hput, rfl⟩
  | delete k0 =>
      have hdrop : (w.drop k0).entry k = some e := h
      rw [entry_drop] at hdrop
      split at hdrop
      · contradiction
      · rename_i hk
        exact .inl ⟨hdrop, decide_eq_false hk⟩
  | deletePrefix p =>
      have hdrop : (w.dropPrefix p).entry k = some e := h
      unfold entry dropPrefix at hdrop
      rw [AList.lookup_deleteWhere] at hdrop
      split at hdrop
      · contradiction
      · rename_i hk
        exact .inl ⟨hdrop, eq_false_of_ne_true hk⟩
  | now => exact .inl ⟨h, rfl⟩
  | flushDue nodeID =>
      have hflush : (w.flush E nodeID).2.entry k = some e := h
      refine .inl ⟨?_, rfl⟩
      unfold flush at hflush
      split at hflush <;> exact hflush

end CacheWorld

/-! ## What is cached, and when it was so -/

namespace Traced

variable {T : Type} {s s' s'' : Traced T} {E : CacheEnv} {n b b' : Nat} {k : Key} {d : Doc}

/-- A peer as the inner store had it at step `n`, or with a heartbeat noted since. -/
def Noted (E : CacheEnv) (s : Traced T) (n : Nat) (p q : Peer) : Prop :=
  p = q ∨ ∃ n', n ≤ n' ∧ n' < s.world.steps ∧ p = { q with lastHeartbeat := (E.clock n').1 }

/-- The document is what the inner store had for the key at step `n`. -/
def Holds (E : CacheEnv) (s : Traced T) (n : Nat) : Key → Doc → Prop
  | .peer nodeID, d => ∃ p q, d = .peer p ∧ (s.past n).peers.lookup nodeID = some q ∧ s.Noted E n p q
  | .peersList, d => ∃ ps, d = .peers ps ∧ ps.Perm ((s.past n).peers.entries.map fun e => e.2)
  | .artifact artifactID, d => ∃ a, d = .artifact a ∧ (s.past n).arts.lookup artifactID = some a
  | .seeds artifactID, d => ∃ ids, d = .strings ids ∧ ids.Perm ((s.past n).nodes (.seed artifactID))
  | .locate _, _ => False
  | .chunks h, d => ∃ ids, d = .strings ids ∧ ids.Perm ((s.past n).nodes (.chunk h))

/-- The document is what the inner store had for the key at some step from `b` on. -/
def Since (E : CacheEnv) (s : Traced T) (b : Nat) (k : Key) (d : Doc) : Prop :=
  ∃ n, b ≤ n ∧ n ≤ s.world.steps ∧ s.Holds E n k d

/-- All that is cached is what the inner store had since the key was last
invalidated. -/
structure Coherent (E : CacheEnv) (s : Traced T) : Prop where
  clean : ∀ n, (s.past n).Clean
  present : s.past s.world.steps = s.world.inner
  cleared : ∀ k, s.cleared k ≤ s.world.steps
  asked : ∀ t, s.asked t ≤ s.world.steps
  entry : ∀ k e, s.world.entry k = some e → s.Since E (s.cleared k) k e.value

/-- Between the two, steps have been made. -/
structure Later (s s' : Traced T) : Prop where
  steps : s.world.steps ≤ s'.world.steps
  past : ∀ n, n ≤ s.world.steps → s'.past n = s.past n
  cleared : ∀ k, s'.cleared k = s.cleared k ∨ s.world.steps < s'.cleared k

theorem Later.refl : Later s s where
  steps := Nat.le_refl _
  past _ _ := rfl
  cleared _ := .inl rfl

theorem Later.trans (h : Later s s') (h' : Later s' s'') : Later s s'' where
  steps := Nat.le_trans h.steps h'.steps
  past n hn := (h'.past n (Nat.le_trans hn h.steps)).trans (h.past n hn)
  cleared k := by
    rcases h'.cleared k with hk' | hk'
    · rw [hk']
      exact h.cleared k
    · exact .inr (Nat.lt_of_le_of_lt h.steps hk')

theorem Later.cleared_le (h : Later s s') (hs : s.Coherent E) : s.cleared k ≤ s'.cleared k := by
  have hle := hs.cleared k
  rcases h.cleared k with hk | hk <;> omega

theorem Noted.later {p q : Peer} (hnoted : s.Noted E n p q) (h : Later s s') : s'.Noted E n p q := by
  refine hnoted.imp_right fun ⟨n', hn, hn', hp⟩ => ⟨n', hn, ?_, hp⟩
  exact Nat.lt_of_lt_of_le hn' h.steps

theorem Holds.later (hd : s.Holds E n k d) (hn : n ≤ s.world.steps) (h : Later s s') :
    s'.Holds E n k d := by
  cases k with
  | peer nodeID =>
      obtain ⟨p, q, hp, hq, hnoted⟩ := hd
      exact ⟨p, q, hp, by rw [h.past n hn, hq], hnoted.later h⟩
  | locate artifactID => exact hd
  | _ => simpa only [Holds, h.past n hn] using hd

theorem Since.later (hd : s.Since E b k d) (hb : b' ≤ b) (h : Later s s') : s'.Since E b' k d := by
  obtain ⟨n, hbn, hn, hold⟩ := hd
  exact ⟨n, Nat.le_trans hb hbn, Nat.le_trans hn h.steps, hold.later hn h⟩

/-- What a read of the inner store fills the cache with. -/
theorem holds_of_filled (hm : (s.past n).Clean) (hd : Filled (s.past n) k d) : s.Holds E n k d := by
  cases k with
  | peer nodeID =>
      obtain ⟨p, hp, rfl⟩ := hd
      exact ⟨p, p, marshalPeer_of_storable (hm.peer hp).2, hp, .inl rfl⟩
  | peersList =>
      obtain ⟨g, now, rfl⟩ := hd
      exact ⟨_, marshalPeers_listPeers hm, g.perm _⟩
  | artifact artifactID =>
      obtain ⟨a, ha, rfl⟩ := hd
      exact ⟨a, marshalArtifact_of_storable (hm.artifact ha), ha⟩
  | seeds artifactID =>
      obtain ⟨g, rfl⟩ := hd
      refine ⟨_, marshalStrings_of_valid fun id hid => ?_, g.perm _⟩
      exact hm.node (g.mem_order.mp hid : id ∈ (s.past n).nodes (.seed artifactID))
  | locate artifactID => exact hd
  | chunks hash =>
      obtain ⟨g, rfl⟩ := hd
      refine ⟨_, marshalStrings_of_valid fun id hid => ?_, g.perm _⟩
      exact hm.node (g.mem_order.mp hid : id ∈ (s.past n).nodes (.chunk hash))

/-! ## What threads see to -/

/-- The thread may fill the cache with the document, if the key has not been
invalidated since it asked. -/
def Fillable (E : CacheEnv) (t : T) (k : Key) (d : Doc) (s : Traced T) : Prop :=
  s.cleared k ≤ s.asked t → s.Since E (s.cleared k) k d

variable {t : T}

/-- It still may when others have gone on. -/
theorem Fillable.later (hd : s.Fillable E t k d) (hs : s.Coherent E) (h : Later s s')
    (hasked : s'.asked t = s.asked t) : s'.Fillable E t k d := by
  intro hle
  rw [hasked] at hle
  rcases h.cleared k with hk | hk
  · rw [hk] at hle ⊢
    exact (hd hle).later (Nat.le_refl _) h
  · have hlast := hs.asked t
    omega

/-- What the thread found when it asked. -/
theorem fillable_of_asked (hs : s.Coherent E) (hd : s.Holds E (s.asked t) k d) :
    s.Fillable E t k d :=
  fun hle => ⟨s.asked t, hle, hs.asked t, hd⟩

/-- What a thread has to see to. -/
def About (E : CacheEnv) (t : T) (c : CacheCmd) (s : Traced T) : Prop :=
  match c with
  | .inner call => call.storable = true
  | .set k d => s.Fillable E t k d
  | _ => True

theorem clean_next {c : CacheCmd} (hs : s.Coherent E) (ha : s.About E t c) :
    (E.handle c s.world).2.inner.Clean := by
  have hinner : s.world.inner.Clean := hs.present ▸ hs.clean _
  rcases CacheWorld.inner_handle (w := s.world) (E := E) (c := c) with h | ⟨call, rfl, h⟩
  · rw [h]
    exact hinner
  · rw [h]
    exact clean_exec hinner ha

/-- The thread has carried out a write on the inner store, in the step in which it
last asked, and such keys have been invalidated since. -/
structure Wrote (t : T) (call : StoreCall) (K : Key → Prop) (s : Traced T) : Prop where
  before : s.asked t < s.world.steps
  effect : ∃ g now, s.past (s.asked t + 1) = (Memory.exec g now call (s.past (s.asked t))).2
  cleared : ∀ k, K k → s.asked t < s.cleared k

theorem Wrote.later {call : StoreCall} {K : Key → Prop} (h : s.Wrote t call K) (hs : s.Coherent E)
    (hlater : s.Later s') (hasked : s'.asked t = s.asked t) : s'.Wrote t call K where
  before := by
    rw [hasked]
    exact Nat.lt_of_lt_of_le h.before hlater.steps
  effect := by
    rw [hasked, hlater.past _ h.before, hlater.past _ (hs.asked t)]
    exact h.effect
  cleared k hk := by
    rw [hasked]
    exact Nat.lt_of_lt_of_le (h.cleared k hk) (hlater.cleared_le hs)

end Traced

/-! ## The protocol -/

section Protocol

variable {T : Type} [DecidableEq T] {s s' : Traced T} {E : CacheEnv} {t : T} {c : CacheCmd}

namespace Traced

theorem later_next : Later s (s.next E t c) where
  steps := Nat.le_of_lt CacheWorld.steps_handle
  past n hn := if_pos hn
  cleared k := by
    unfold next
    dsimp only
    split
    · exact .inr CacheWorld.steps_handle
    · exact .inl rfl

/-- A timely step keeps the cache coherent. -/
theorem Coherent.next (hs : s.Coherent E) (ha : s.About E t c) (htimely : s.timely t c = true) :
    (s.next E t c).Coherent E where
  clean n := by
    show (if n ≤ s.world.steps then s.past n else _).Clean
    split
    · exact hs.clean n
    · exact clean_next hs ha
  present := if_neg (Nat.not_le.mpr CacheWorld.steps_handle)
  cleared k := by
    have hsteps := (later_next (s := s) (E := E) (t := t) (c := c)).steps
    show (if c.clears k then (E.handle c s.world).2.steps else s.cleared k) ≤ _
    split
    · exact Nat.le_refl _
    · exact Nat.le_trans (hs.cleared k) hsteps
  asked u := by
    have hsteps := (later_next (s := s) (E := E) (t := t) (c := c)).steps
    show (if u = t ∧ c.asks = true then s.world.steps else s.asked u) ≤ _
    split
    · exact hsteps
    · exact Nat.le_trans (hs.asked u) hsteps
  entry k e he := by
    rcases CacheWorld.entry_handle he with ⟨hold, hkept⟩ | hset
    · have hcleared : (s.next E t c).cleared k = s.cleared k := by simp [Traced.next, hkept]
      rw [hcleared]
      exact (hs.entry k e hold).later (Nat.le_refl _) later_next
    · subst hset
      exact (ha (of_decide_eq_true htimely)).later (Nat.le_refl _) later_next

end Traced

/-- Threads that fill the cache with what they found when they asked. -/
def cacheProtocol (T : Type) [DecidableEq T] (E : CacheEnv) :
    Protocol (timelySystem E : System cacheSig (Traced T) T) where
  Inv s := s.Coherent E
  rely t s s' := s.Later s' ∧ s'.asked t = s.asked t
  about t c s := s.About E t c
  rely_refl _ _ := ⟨.refl, rfl⟩
  rely_trans h h' := ⟨h.1.trans h'.1, h'.2.trans h.2⟩
  step_inv := by
    intro t c r s s' hi ha hx
    obtain ⟨htimely, hx⟩ := System.guard_eq_some hx
    obtain ⟨-, rfl⟩ := System.ofHandler_eq_some hx
    exact hi.next ha htimely
  step_rely := by
    intro t c r s s' t' hi ha hx ht
    obtain ⟨-, hx⟩ := System.guard_eq_some hx
    obtain ⟨-, rfl⟩ := System.ofHandler_eq_some hx
    refine ⟨Traced.later_next, ?_⟩
    simp [Traced.next, ht]

/-! ## Commands under the protocol -/

open Traced

variable {α : Type} {Q : α → Traced T → Prop} {k : Key} {d : Doc}

/-- A command, carried out in some later state. -/
theorem wp_command {f : c.Resp → CachedM α}
    (h : ∀ s', s.Later s' → s'.asked t = s.asked t → s'.Coherent E → s'.About E t c ∧
      ((s'.next E t c).Coherent E →
        (cacheProtocol T E).wp t Q (f (E.handle c s'.world).1) (s'.next E t c))) :
    (cacheProtocol T E).wp t Q (Prog.perform (S := cacheSig) c >>= f) s := by
  refine Protocol.wp_perform fun s' ⟨hlater, hasked⟩ hi => ?_
  obtain ⟨ha, hnext⟩ := h s' hlater hasked hi
  refine ⟨ha, fun r s'' hx hi' => ?_⟩
  obtain ⟨rfl, rfl⟩ := System.ofHandler_eq_some (System.guard_eq_some hx).2
  exact hnext hi'

/-- A command that asks nobody. -/
theorem asked_next (hc : c.asks = false) : (s.next E t c).asked t = s.asked t := by
  simp [Traced.next, hc]

theorem wp_answer {a : α} (hQ : ∀ s', s.Later s' → s'.asked t = s.asked t → s'.Coherent E → Q a s') :
    (cacheProtocol T E).wp t Q (pure a) s :=
  Protocol.wp_pure fun s' ⟨hlater, hasked⟩ hi => hQ s' hlater hasked hi

/-- A read of the cache, which does not fail. -/
theorem wp_cacheGet {f : Except Str (Option Doc) → CachedM α} (hquiet : ∀ n, E.fault n = none)
    (hs : s.Coherent E)
    (hhit : ∀ s' d, s.Later s' → s'.Coherent E → s'.Since E (s.cleared k) k d →
      s'.Fillable E t k d → (cacheProtocol T E).wp t Q (f (.ok (some d))) s')
    (hmiss : ∀ s', s.Later s' → s'.Coherent E → (cacheProtocol T E).wp t Q (f (.ok none)) s') :
    (cacheProtocol T E).wp t Q (cacheGet k >>= f) s := by
  refine wp_command fun s1 hlater _ hs1 => ⟨trivial, fun hs2 => ?_⟩
  have hlater2 : s.Later (s1.next E t (.get k)) := hlater.trans later_next
  have hanswer : (E.handle (.get k) s1.world).1 = .ok (s1.world.get E k).1 := by
    simp only [CacheEnv.handle, hquiet]
  rw [hanswer]
  rcases CacheWorld.get_cases (w := s1.world) (E := E) (k := k) with ⟨e, he, _, hget⟩ | hget
  · rw [hget]
    have hentry : (s1.next E t (.get k)).Since E (s1.cleared k) k e.value :=
      (hs1.entry k e he).later (Nat.le_refl _) later_next
    refine hhit _ e.value hlater2 hs2 ?_ fun _ => hentry
    exact hentry.later (hlater.cleared_le hs) .refl
  · rw [hget]
    exact hmiss _ hlater2 hs2

variable {call : StoreCall} {f : Unit → CachedM α} {K : Key → Prop}

/-- A call on the inner store, in the step in which the thread has last asked. -/
theorem wp_callInner {f : Except Str call.Resp → CachedM α} (hcall : call.storable = true)
    (hf : ∀ s' g now, s.Later s' → s'.Coherent E → s.world.steps ≤ s'.asked t →
      s'.asked t < s'.world.steps →
      s'.past (s'.asked t + 1) = (Memory.exec g now call (s'.past (s'.asked t))).2 →
      (cacheProtocol T E).wp t Q (f (.ok (Memory.exec g now call (s'.past (s'.asked t))).1)) s') :
    (cacheProtocol T E).wp t Q (callInner call >>= f) s := by
  refine wp_command fun s1 hlater _ hs1 => ⟨hcall, fun hs2 => ?_⟩
  have hasked : (s1.next E t (.inner call)).asked t = s1.world.steps := by
    simp [Traced.next, CacheCmd.asks]
  have hpast : (s1.next E t (.inner call)).past s1.world.steps = s1.world.inner := by
    rw [later_next.past _ (Nat.le_refl _), hs1.present]
  have hrest := hf (s1.next E t (.inner call)) (E.ranging s1.world.steps)
    (E.clock s1.world.steps).1 (hlater.trans later_next) hs2
  rw [hasked, hpast] at hrest
  exact hrest hlater.steps (Nat.lt_succ_self _) hs2.present

/-- A fill with what the thread has found. -/
theorem wp_cacheSet (hs : s.Coherent E) (hd : s.Fillable E t k d)
    (hf : ∀ s', s.Later s' → s'.asked t = s.asked t → s'.Coherent E →
      (cacheProtocol T E).wp t Q (f ()) s') :
    (cacheProtocol T E).wp t Q (cacheSet k d >>= f) s := by
  refine wp_command fun s1 hlater hasked hs1 => ⟨hd.later hs hlater hasked, fun hs2 => ?_⟩
  exact hf _ (hlater.trans later_next) ((asked_next rfl).trans hasked) hs2

/-- A deletion after a write. -/
theorem wp_clear {f : c.Resp → CachedM α} {K' : Key → Prop} (hc : c.asks = false)
    (habout : ∀ s : Traced T, s.About E t c) (hs : s.Coherent E)
    (hclears : ∀ k, K' k → K k ∨ c.clears k = true) (hw : s.Wrote t call K)
    (hf : ∀ s', s'.Coherent E → s'.Wrote t call K' →
      ∀ r, (cacheProtocol T E).wp t Q (f r) s') :
    (cacheProtocol T E).wp t Q (Prog.perform (S := cacheSig) c >>= f) s := by
  refine wp_command fun s1 hlater hasked hs1 => ⟨habout s1, fun hs2 => hf _ hs2 ?_ _⟩
  have hsame : (s1.next E t c).asked t = s1.asked t := asked_next hc
  have hw2 := (hw.later hs hlater hasked).later hs1 later_next hsame
  refine { hw2 with cleared := fun k hk => ?_ }
  rcases hclears k hk with hold | hnew
  · exact hw2.cleared k hold
  · have hcleared : (s1.next E t c).cleared k = (E.handle c s1.world).2.steps := by
      simp [Traced.next, hnew]
    rw [hsame, hcleared]
    exact Nat.lt_of_le_of_lt (hs1.asked t) CacheWorld.steps_handle

theorem wp_cacheDelete (hs : s.Coherent E) (hw : s.Wrote t call K)
    (hf : ∀ s', s'.Coherent E → s'.Wrote t call (fun k' => K k' ∨ k' = k) →
      (cacheProtocol T E).wp t Q (f ()) s') : (cacheProtocol T E).wp t Q (cacheDelete k >>= f) s :=
  wp_clear rfl (fun _ => trivial) hs (fun _ hk => hk.imp_right decide_eq_true) hw
    fun s' hs' hw' _ => hf s' hs' hw'

theorem wp_cacheDeletePrefix (k0 : Key) (hs : s.Coherent E) (hw : s.Wrote t call K)
    (hf : ∀ s', s'.Coherent E → s'.Wrote t call (fun k => K k ∨ k.family = k0.family) →
      (cacheProtocol T E).wp t Q (f ()) s') :
    (cacheProtocol T E).wp t Q (cacheDeletePrefix k0.family >>= f) s := by
  refine wp_clear rfl (fun _ => trivial) hs (fun k hk => hk.imp_right fun hfam => ?_) hw
    fun s' hs' hw' _ => hf s' hs' hw'
  exact List.isPrefixOf_iff_prefix.mpr (family_le_render.mpr hfam)

end Protocol

end Spider

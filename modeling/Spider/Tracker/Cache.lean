import Spider.Lib.Expiring
import Spider.Tracker.Cached
import Spider.Tracker.Locate

/-!
# Spider.Tracker.Cache

The cached store over the memory store, with a cache as the memory driver
(`pkg/metacache/memory.go`), whose reads may fail.  The steps of a run are
numbered, and the clock, the order of the maps, the loss of cache entries and the
errors of the cache are given for each step.

What a method does to the world is said once, for the three kinds of methods:

* `Read`: reads leave the inner store as it is; every entry of the cache was
  there before or was filled from the inner store.
* `Wrote`: writes do what the inner store does, and leave no entry they
  invalidate, but for a prune that finds nobody expired.
* `Beat`: heartbeats go to the inner store, or only to the cached peer.
-/

namespace Spider

open Conc

/-! ## The world of a cached store -/

/-- What a run depends on besides the calls. -/
structure CacheEnv where
  clock : Nat → Instant
  /-- the lifetime handed to `Wrap` -/
  ttl : Time
  /-- whether the entry read in a step has been lost -/
  gone : Nat → Bool
  /-- the error of a `Get` in a step -/
  fault : Nat → Option Str
  ranging : Nat → Ranging

/-- The lifetime of an entry; `Wrap` has 10 seconds as the default. -/
def CacheEnv.entryTTL (E : CacheEnv) : Time := if E.ttl ≤ 0 then 10000000000 else E.ttl

/-- The deadline of an entry that is set in a step. -/
def CacheEnv.deadline (E : CacheEnv) (n : Nat) : Time := (E.clock n).1 + E.entryTTL

/-- No `Get` fails in the next steps. -/
def CacheEnv.Quiet (E : CacheEnv) (start len : Nat) : Prop :=
  ∀ n, start ≤ n → n < start + len → E.fault n = none

theorem quiet_zero {E : CacheEnv} {start : Nat} : E.Quiet start 0 :=
  fun n h1 h2 => by omega

theorem quiet_succ {E : CacheEnv} {start len : Nat} :
    E.Quiet start (len + 1) ↔ E.fault start = none ∧ E.Quiet (start + 1) len := by
  constructor
  · intro h
    exact ⟨h start (Nat.le_refl _) (by omega), fun n h1 h2 => h n (by omega) (by omega)⟩
  · intro ⟨hstart, hrest⟩ n h1 h2
    rcases Nat.eq_or_lt_of_le h1 with rfl | hlt
    · exact hstart
    · exact hrest n hlt (by omega)

/-- The interval of the heartbeats that go to the inner store. -/
def hbEvery : Time := 5000000000

/-- A cached store: the number of steps made, the inner store, the cache, and the
heartbeats last handed to the inner store. -/
structure CacheWorld where
  steps : Nat
  inner : Memory
  cache : Expiring Str Doc
  lastHBFlush : AList fun _ : Str => Time

namespace CacheWorld

/-- A cached store over a new memory store. -/
def new : CacheWorld := ⟨0, .new, ∅, ∅⟩

/-- The entry of a key. -/
def entry (w : CacheWorld) (k : Key) : Option (Timed Doc) := w.cache.lookup k.render

/-- The time of the last heartbeat that was handed on. -/
def lastFlush (w : CacheWorld) (nodeID : Str) : Time := (w.lastHBFlush.lookup nodeID).getD zeroTime

/-- One step on. -/
def tick (w : CacheWorld) : CacheWorld := { w with steps := w.steps + 1 }

/-- `Delete`. -/
def drop (w : CacheWorld) (k : Key) : CacheWorld :=
  { w with steps := w.steps + 1, cache := w.cache.erase k.render }

/-- `DeletePrefix`. -/
def dropPrefix (w : CacheWorld) (p : Str) : CacheWorld :=
  { w with steps := w.steps + 1, cache := w.cache.deleteWhere p.isPrefixOf }

/-- `Set`. -/
def put (w : CacheWorld) (k : Key) (e : Timed Doc) : CacheWorld :=
  { w with steps := w.steps + 1, cache := w.cache.insert k.render e }

/-- `Get`. -/
def get (w : CacheWorld) (E : CacheEnv) (k : Key) : Option Doc × CacheWorld :=
  let got := w.cache.get (E.clock w.steps).1 (E.gone w.steps) k.render
  (got.1, { w with steps := w.steps + 1, cache := got.2 })

/-- The section under the mutex of `Heartbeat`; it reads the clock again when it
notes the time. -/
def flush (w : CacheWorld) (E : CacheEnv) (nodeID : Str) : Bool × CacheWorld :=
  if hbEvery ≤ durationSub (E.clock w.steps).1 (w.lastFlush nodeID) then
    (true, { w with
      steps := w.steps + 2
      lastHBFlush := w.lastHBFlush.insert nodeID (E.clock (w.steps + 1)).1 })
  else (false, w.tick)

/-- What the inner store does in the next step. -/
def innerExec (w : CacheWorld) (E : CacheEnv) (c : StoreCall) : c.Resp × Memory :=
  Memory.exec (E.ranging w.steps) (E.clock w.steps).1 c w.inner

end CacheWorld

/-- A memory store behind a cache. -/
def CacheEnv.handle (E : CacheEnv) : Handler cacheSig CacheWorld
  | .inner c, w =>
      ((.ok (w.innerExec E c).1 : Except Str c.Resp),
        { w with steps := w.steps + 1, inner := (w.innerExec E c).2 })
  | .get k, w =>
      match E.fault w.steps with
      | some msg => ((.error msg : Except Str (Option Doc)), w.tick)
      | none => ((.ok (w.get E k).1 : Except Str (Option Doc)), (w.get E k).2)
  | .set k doc, w => ((), w.put k ⟨doc, E.deadline w.steps⟩)
  | .delete k, w => ((), w.drop k)
  | .deletePrefix p, w => ((), w.dropPrefix p)
  | .now, w => ((E.clock w.steps).1, w.tick)
  | .flushDue nodeID, w => w.flush E nodeID

/-! ## Entries -/

namespace CacheWorld

variable {w w' w'' : CacheWorld} {E : CacheEnv} {k k0 : Key} {e : Timed Doc}

theorem entry_drop : (w.drop k0).entry k = if k = k0 then none else w.entry k := by
  unfold entry drop
  by_cases hk : k = k0
  · subst hk
    simp
  · have hne : k.render ≠ k0.render := fun h => hk (Key.render_injective h)
    simp [hk, AList.lookup_erase_ne hne]

theorem entry_of_drop (h : (w.drop k0).entry k = some e) :
    w.entry k = some e := by
  rw [entry_drop] at h
  split at h
  · contradiction
  · exact h

/-- A family is deleted as a whole, and nothing else is. -/
theorem entry_dropPrefix :
    (w.dropPrefix k0.family).entry k = if k.family = k0.family then none else w.entry k := by
  unfold entry dropPrefix
  rw [AList.lookup_deleteWhere]
  simp only [List.isPrefixOf_iff_prefix, family_le_render]

theorem entry_put : (w.put k0 e).entry k = if k = k0 then some e else w.entry k := by
  unfold entry put
  by_cases hk : k = k0
  · subst hk
    simp
  · have hne : k.render ≠ k0.render := fun h => hk (Key.render_injective h)
    simp [hk, AList.lookup_insert_ne hne]

theorem get_cases :
    (∃ e, w.entry k = some e ∧ (E.clock w.steps).1 ≤ e.expiresAt ∧
      w.get E k = (some e.value, w.tick)) ∨ w.get E k = (none, w.drop k) := by
  have h := w.cache.get_cases (E.clock w.steps).1 (E.gone w.steps) k.render
  unfold get drop tick
  rcases h with ⟨e, he, htime, hget⟩ | hget
  · exact .inl ⟨e, he, htime, by rw [hget]⟩
  · exact .inr (by rw [hget])

end CacheWorld

/-! ## Commands -/

section Commands

variable {E : CacheEnv} {w : CacheWorld} {k : Key} {α : Type} {Q : α → CacheWorld → Prop}

/-- A read of the cache: an error, a hit before the deadline, or a miss that leaves
no entry. -/
theorem ends_cacheGet {f : Except Str (Option Doc) → CachedM α}
    (herror : ∀ msg, E.fault w.steps = some msg → (f (.error msg)).Ends E.handle Q w.tick)
    (hhit : ∀ e, E.fault w.steps = none → w.entry k = some e →
      (E.clock w.steps).1 ≤ e.expiresAt → (f (.ok (some e.value))).Ends E.handle Q w.tick)
    (hmiss : E.fault w.steps = none → (f (.ok none)).Ends E.handle Q (w.drop k)) :
    (cacheGet k >>= f).Ends E.handle Q w := by
  rw [cacheGet, Prog.ends_perform]
  cases hfault : E.fault w.steps with
  | some msg =>
      have hget : E.handle (.get k) w = (.error msg, w.tick) := by simp only [CacheEnv.handle, hfault]
      rw [hget]
      exact herror msg hfault
  | none =>
      have hget : E.handle (.get k) w = (.ok (w.get E k).1, (w.get E k).2) := by
        simp only [CacheEnv.handle, hfault]
      rw [hget]
      rcases CacheWorld.get_cases (w := w) (E := E) (k := k) with ⟨e, he, htime, hfound⟩ | hfound
      · rw [hfound]
        exact hhit e hfault he htime
      · rw [hfound]
        exact hmiss hfault

end Commands

/-! ## Reads -/

/-- The document is what is cached for the key, given the inner store. -/
def Filled (m : Memory) : Key → Doc → Prop
  | .peer nodeID, d => ∃ p, m.peers.lookup nodeID = some p ∧ d = marshalPeer p
  | .peersList, d => ∃ g now, d = marshalPeers (m.listPeers g now 0)
  | .artifact artifactID, d => ∃ a, m.arts.lookup artifactID = some a ∧ d = marshalArtifact a
  | .seeds artifactID, d => ∃ g, d = marshalStrings (m.listSeeds g artifactID)
  | .locate _, _ => False
  | .chunks h, d => ∃ g, d = marshalStrings (m.locateChunkNodes g h)

namespace CacheWorld

/-- Between the two, a cached store has only been read. -/
structure Read (E : CacheEnv) (w w' : CacheWorld) : Prop where
  inner : w'.inner = w.inner
  lastHBFlush : w'.lastHBFlush = w.lastHBFlush
  steps : w.steps ≤ w'.steps
  entry : ∀ k e, w'.entry k = some e → w.entry k = some e ∨
    ∃ n d, w.steps ≤ n ∧ n < w'.steps ∧ Filled w.inner k d ∧ e = ⟨d, E.deadline n⟩

/-- The document was found in the cache, before its deadline. -/
def Found (E : CacheEnv) (w w' : CacheWorld) (k : Key) (d : Doc) : Prop :=
  ∃ e n, w.entry k = some e ∧ w.steps ≤ n ∧ n < w'.steps ∧ (E.clock n).1 ≤ e.expiresAt ∧ e.value = d

variable {w w' w'' : CacheWorld} {E : CacheEnv} {k : Key} {d : Doc}

theorem Read.refl : Read E w w where
  inner := rfl
  lastHBFlush := rfl
  steps := Nat.le_refl _
  entry _ _ he := .inl he

theorem Read.trans (h : Read E w w') (h' : Read E w' w'') : Read E w w'' where
  inner := h'.inner.trans h.inner
  lastHBFlush := h'.lastHBFlush.trans h.lastHBFlush
  steps := Nat.le_trans h.steps h'.steps
  entry k e he := by
    have hlater := h'.steps
    have hearlier := h.steps
    rcases h'.entry k e he with he | ⟨n, d, hn, hn', hd, rfl⟩
    · rcases h.entry k e he with he | ⟨n, d, hn, hn', hd, rfl⟩
      · exact .inl he
      · exact .inr ⟨n, d, hn, by omega, hd, rfl⟩
    · exact .inr ⟨n, d, by omega, hn', h.inner ▸ hd, rfl⟩

theorem read_tick : Read E w w.tick where
  inner := rfl
  lastHBFlush := rfl
  steps := Nat.le_succ _
  entry _ _ he := .inl he

theorem read_drop : Read E w (w.drop k) where
  inner := rfl
  lastHBFlush := rfl
  steps := Nat.le_succ _
  entry _ _ he := .inl (entry_of_drop he)

/-- The cache filled from the inner store. -/
theorem read_put (hd : Filled w.inner k d) : Read E w (w.put k ⟨d, E.deadline w.steps⟩) where
  inner := rfl
  lastHBFlush := rfl
  steps := Nat.le_succ _
  entry k' e he := by
    rw [entry_put] at he
    split at he
    · rename_i hk
      rw [Option.some.injEq] at he
      subst hk he
      exact .inr ⟨w.steps, d, Nat.le_refl _, Nat.lt_succ_self _, hd, rfl⟩
    · exact .inl he

theorem Found.earlier (h : Found E w' w'' k d) (hentry : ∀ e, w'.entry k = some e → w.entry k = some e)
    (hsteps : w.steps ≤ w'.steps) : Found E w w'' k d := by
  obtain ⟨e, n, he, hn, hn', htime, hd⟩ := h
  exact ⟨e, n, hentry e he, Nat.le_trans hsteps hn, hn', htime, hd⟩

theorem Found.mono (h : Found E w w' k d) (hlater : w'.steps ≤ w''.steps) : Found E w w'' k d := by
  obtain ⟨e, n, he, hn, hn', htime, hd⟩ := h
  exact ⟨e, n, he, hn, Nat.lt_of_lt_of_le hn' hlater, htime, hd⟩

end CacheWorld

section Reads

open CacheWorld

variable {E : CacheEnv} {w : CacheWorld} {k : Key} {α : Type}

/-- A call that leaves the inner store as it is. -/
theorem ends_callInner_read {c : StoreCall} {Q : α → CacheWorld → Prop}
    {f : Except Str c.Resp → CachedM α}
    (hreads : ∀ g now, (Memory.exec g now c w.inner).2 = w.inner)
    (hf : (f (.ok (w.innerExec E c).1)).Ends E.handle Q w.tick) :
    (callInner c >>= f).Ends E.handle Q w := by
  have htick : { w with steps := w.steps + 1, inner := (w.innerExec E c).2 } = w.tick := by
    rw [innerExec, hreads]
    rfl
  show (f (.ok (w.innerExec E c).1)).Ends E.handle Q
    { w with steps := w.steps + 1, inner := (w.innerExec E c).2 }
  rw [htick]
  exact hf

/-- A read of one key answers from the cache or from the inner store. -/
theorem ends_readThrough (k : Key) (c : StoreCall) (decode : Doc → Except Str c.Resp)
    (encode : c.Resp → Option Doc)
    (hreads : ∀ g now, (Memory.exec g now c w.inner).2 = w.inner)
    (hfill : ∀ g now d, encode (Memory.exec g now c w.inner).1 = some d → Filled w.inner k d) :
    (CachedStore.readThrough k decode (callInner c) encode).Ends E.handle
      (fun r w' => w.Read E w' ∧ w.steps < w'.steps ∧ ((∃ d, w.Found E w' k d ∧ r = decode d) ∨
        ∃ g now, r = .ok (Memory.exec g now c w.inner).1)) w := by
  -- the inner store is asked from `w1` on, where the cache has given nothing
  have hmiss : ∀ w1 : CacheWorld, w.Read E w1 → w.steps < w1.steps → Prog.Ends E.handle
      (fun r w' => w.Read E w' ∧ w.steps < w'.steps ∧ ((∃ d, w.Found E w' k d ∧ r = decode d) ∨
        ∃ g now, r = .ok (Memory.exec g now c w.inner).1))
      (CachedStore.fetchAndFill k (callInner c) encode) w1 := by
    intro w1 hread hlt
    have hinner : w1.inner = w.inner := hread.inner
    refine ends_callInner_read (hinner ▸ hreads) ?_
    have hlt' : w.steps < w1.tick.steps := Nat.lt_succ_of_lt hlt
    have hanswer : (w1.innerExec E c).1 =
        (Memory.exec (E.ranging w1.steps) (E.clock w1.steps).1 c w.inner).1 := by
      rw [CacheWorld.innerExec, hinner]
    dsimp only
    cases henc : encode (w1.innerExec E c).1 with
    | none => exact ⟨hread.trans read_tick, hlt', .inr ⟨_, _, congrArg _ hanswer⟩⟩
    | some d =>
        have hd : Filled w1.tick.inner k d := by
          rw [hanswer] at henc
          show Filled w1.inner k d
          rw [hinner]
          exact hfill _ _ d henc
        exact ⟨(hread.trans read_tick).trans (read_put hd), Nat.lt_succ_of_lt hlt',
          .inr ⟨_, _, congrArg _ hanswer⟩⟩
  refine ends_cacheGet (fun _ _ => ?_) (fun e _ he htime => ?_) (fun _ => ?_)
  · exact hmiss w.tick read_tick (Nat.lt_succ_self _)
  · have hlt : w.steps < w.tick.steps := Nat.lt_succ_self _
    exact ⟨read_tick, hlt,
      .inl ⟨e.value, ⟨e, w.steps, he, Nat.le_refl _, hlt, htime, rfl⟩, rfl⟩⟩
  · exact hmiss (w.drop k) read_drop (Nat.lt_succ_self _)

/-- `MGet` fails if one of its reads does; the documents it returns were found in
the cache. -/
theorem ends_cacheMGet {out : AList fun _ : Key => Doc} {ks : List Key} :
    (cacheMGet out ks).Ends E.handle
      (fun r w' => w.Read E w' ∧
        ((¬ E.Quiet w.steps ks.length ∧ ∃ msg, r = .error msg) ∨
          E.Quiet w.steps ks.length ∧ ∃ got, r = .ok got ∧
            ∀ k d, got.lookup k = some d → out.lookup k = some d ∨ w.Found E w' k d)) w := by
  induction ks generalizing out w with
  | nil => exact ⟨.refl, .inr ⟨quiet_zero, out, rfl, fun _ _ h => .inl h⟩⟩
  | cons k ks ih =>
      refine ends_cacheGet (fun msg hfault => ?_) (fun e hfault he htime => ?_) (fun hfault => ?_)
      · refine Prog.ends_pure.mpr ⟨read_tick, .inl ⟨fun hquiet => ?_, msg, rfl⟩⟩
        have hnone := hquiet w.steps (Nat.le_refl _) (by simp)
        rw [hfault] at hnone
        contradiction
      · refine ih.mono fun r w' ⟨hread, hr⟩ => ?_
        have hlt : w.steps < w'.steps := Nat.lt_of_lt_of_le (Nat.lt_succ_self _) hread.steps
        refine ⟨read_tick.trans hread, hr.imp ?_ ?_⟩
        · intro ⟨hloud, hmsg⟩
          exact ⟨fun h => hloud ((quiet_succ.mp h).2), hmsg⟩
        · intro ⟨hquiet, got, hr, hgot⟩
          refine ⟨quiet_succ.mpr ⟨hfault, hquiet⟩, got, hr, fun k' d hd => ?_⟩
          rcases hgot k' d hd with hout | hfound
          · by_cases hk : k' = k
            · subst hk
              rw [AList.lookup_insert, Option.some.injEq] at hout
              exact .inr ⟨e, w.steps, he, Nat.le_refl _, hlt, htime, hout⟩
            · rw [AList.lookup_insert_ne hk] at hout
              exact .inl hout
          · exact .inr (hfound.earlier (fun _ he => he) (Nat.le_succ _))
      · refine ih.mono fun r w' ⟨hread, hr⟩ => ?_
        refine ⟨read_drop.trans hread, hr.imp ?_ ?_⟩
        · intro ⟨hloud, hmsg⟩
          exact ⟨fun h => hloud ((quiet_succ.mp h).2), hmsg⟩
        · intro ⟨hquiet, got, hr, hgot⟩
          refine ⟨quiet_succ.mpr ⟨hfault, hquiet⟩, got, hr, fun k' d hd => ?_⟩
          exact (hgot k' d hd).imp_right (·.earlier (fun _ => entry_of_drop) (Nat.le_succ _))

/-- The cache filled with several entries from the inner store. -/
theorem ends_cacheMSet {items : List (Key × Doc)}
    (hfill : ∀ i ∈ items, Filled w.inner i.1 i.2) :
    (cacheMSet items).Ends E.handle (fun _ w' => w.Read E w') w := by
  induction items generalizing w with
  | nil => exact Read.refl
  | cons i items ih =>
      have hput : w.Read E (w.put i.1 ⟨i.2, E.deadline w.steps⟩) :=
        read_put (hfill i List.mem_cons_self)
      have hrest := ih (w := w.put i.1 ⟨i.2, E.deadline w.steps⟩) fun j hj =>
        hfill j (List.mem_cons_of_mem i hj)
      exact hrest.mono fun _ w' hread => hput.trans hread

section Batches

variable {ids : List Str} {key : Str → Key} {decode : Doc → Option α}
variable {fetch : List Str → CachedM (Except Str (AList fun _ : Str => α))} {encode : α → Doc}
variable {value : Str → Option α → Prop}

/-- What the inner store answers to a batch. -/
def InnerFetch (E : CacheEnv) (w : CacheWorld)
    (fetch : List Str → CachedM (Except Str (AList fun _ : Str => α)))
    (value : Str → Option α → Prop) : Prop :=
  ∀ (misses : List Str) (w₁ : CacheWorld), w₁.inner = w.inner →
    (fetch misses).Ends E.handle (fun r w₂ => w₂ = w₁.tick ∧ ∃ got, r = .ok got ∧
      ∀ id, (id ∈ misses → value id (got.lookup id)) ∧
        (id ∉ misses → got.lookup id = none)) w₁

/-- Each id of a batch is answered from the cache or from the inner store. -/
def AnsweredBatch (E : CacheEnv) (w w' : CacheWorld) (ids : List Str) (key : Str → Key)
    (decode : Doc → Option α) (value : Str → Option α → Prop) (out : AList fun _ : Str => α) :
    Prop :=
  ∀ id, (id ∈ ids → value id (out.lookup id) ∨
      ∃ d, w.Found E w' (key id) d ∧ out.lookup id = decode d) ∧
    (id ∉ ids → out.lookup id = none)

variable {got : AList fun _ : Key => Doc}

theorem ends_completeBatch {w1 : CacheWorld} (hfetch : InnerFetch E w fetch value)
    (hfill : ∀ id a, value id (some a) → Filled w.inner (key id) (encode a)) (hread : w.Read E w1)
    (hserved : ∀ id d, got.lookup (key id) = some d → w.Found E w1 (key id) d) :
    (CachedStore.completeBatch got ids key decode fetch encode).Ends E.handle
      (fun r w' => w.Read E w' ∧ ∃ out, r = .ok out ∧
        AnsweredBatch E w w' ids key decode value out) w1 := by
  obtain ⟨hits, hlook, heq⟩ := CachedStore.completeBatch_eq got ids key decode fetch encode
  rw [heq]
  split
  · rename_i hmisses
    refine ⟨hread, hits, rfl, fun id => ?_⟩
    have hout : hits.lookup id = if id ∈ ids then (got.lookup (key id)).elim none decode else none :=
      hlook ∅ (fun _ _ => rfl) id
    rw [hout]
    refine ⟨fun hid => .inr ?_, fun hid => if_neg hid⟩
    obtain ⟨d, hd⟩ := CachedStore.exists_of_misses_eq_nil hmisses hid
    exact ⟨d, hserved id d hd, by rw [if_pos hid, hd]; rfl⟩
  · refine (hfetch _ w1 hread.inner).seq fun r w2 ⟨hw2, fetched, hr, hfetched⟩ => ?_
    subst hr hw2
    have hfilled : ∀ i ∈ fetched.entries.map fun e => (key e.1, encode e.2),
        Filled w1.tick.inner i.1 i.2 := by
      intro i hi
      obtain ⟨id, a, rfl, hmiss, hla⟩ := CachedStore.mem_fetched (fun id => (hfetched id).2) hi
      have heq : w1.tick.inner = w.inner := hread.inner
      rw [heq]
      exact hfill id a (hla ▸ (hfetched id).1 hmiss)
    refine (ends_cacheMSet hfilled).seq fun _ w3 hset => ?_
    have hall : w.Read E w3 := (hread.trans read_tick).trans hset
    refine ⟨hall, _, rfl, fun id => ?_⟩
    rw [hlook _ fun id => (hfetched id).2]
    refine ⟨fun hid => ?_, fun hid => if_neg hid⟩
    rw [if_pos hid]
    cases hg : got.lookup (key id) with
    | none => exact .inl ((hfetched id).1 (CachedStore.mem_misses.mpr ⟨hid, hg⟩))
    | some d =>
        refine .inr ⟨d, (hserved id d hg).mono ?_, rfl⟩
        exact Nat.le_trans (Nat.le_succ _) hset.steps

/-- A batch fails if one of its reads of the cache does. -/
theorem ends_readBatch (hfetch : InnerFetch E w fetch value)
    (hfill : ∀ id a, value id (some a) → Filled w.inner (key id) (encode a)) :
    (CachedStore.readBatch ids key decode fetch encode).Ends E.handle
      (fun r w' => w.Read E w' ∧
        ((¬ E.Quiet w.steps ids.length ∧ ∃ msg, r = .error msg) ∨
          E.Quiet w.steps ids.length ∧ ∃ out, r = .ok out ∧
            AnsweredBatch E w w' ids key decode value out)) w := by
  unfold CachedStore.readBatch
  by_cases hempty : ids = []
  · subst hempty
    exact ⟨.refl, .inr ⟨quiet_zero, ∅, rfl, fun id => ⟨fun hid => (nomatch hid), fun _ => rfl⟩⟩⟩
  rw [if_neg hempty]
  refine ends_cacheMGet.seq fun r w1 ⟨hread, hr⟩ => ?_
  rw [List.length_map] at hr
  rcases hr with ⟨hloud, msg, rfl⟩ | ⟨hquiet, got, rfl, hgot⟩
  · exact ⟨hread, .inl ⟨hloud, msg, rfl⟩⟩
  · have hserved : ∀ id d, got.lookup (key id) = some d → w.Found E w1 (key id) d := by
      intro id d hd
      simpa using hgot (key id) d hd
    have hrest : (CachedStore.completeBatch got ids key decode fetch encode).Ends E.handle _ w1 :=
      ends_completeBatch hfetch hfill hread hserved
    exact hrest.mono fun r w' ⟨hall, hout⟩ => ⟨hall, .inr ⟨hquiet, hout⟩⟩

end Batches

/-- What a read of the cached store may answer. -/
def Answered (E : CacheEnv) (w w' : CacheWorld) : (c : StoreCall) → Except Str c.Resp → Prop
  | .getPeer nodeID, r => r = .ok (w.inner.peers.lookup nodeID) ∨
      ∃ d, w.Found E w' (.peer nodeID) d ∧ r = (unmarshalPeer d).map some
  | .listPeers expiry, r => ∃ peers,
      ((∃ g now, peers = w.inner.listPeers g now 0) ∨
        ∃ d, w.Found E w' .peersList d ∧ peers = unmarshalPeers d) ∧
      if expiry ≤ 0 then r = .ok peers
      else ∃ n, w.steps ≤ n ∧ n < w'.steps ∧ r = .ok (peers.filter fun p =>
        decide (durationSub (E.clock n).1 p.lastHeartbeat ≤ expiry))
  | .getArtifact artifactID, r => r = .ok (w.inner.arts.lookup artifactID) ∨
      ∃ d, w.Found E w' (.artifact artifactID) d ∧ r = (unmarshalArtifact d).map some
  | .listSeeds artifactID, r => (∃ g, r = .ok (w.inner.listSeeds g artifactID)) ∨
      ∃ d, w.Found E w' (.seeds artifactID) d ∧ r = .ok (unmarshalStrings d)
  | .locateChunkNodes h, r => (∃ g, r = .ok (w.inner.locateChunkNodes g h)) ∨
      ∃ d, w.Found E w' (.chunks h) d ∧ r = .ok (unmarshalStrings d)
  | .locateChunkNodesBatch hashes, r => ∃ out, r = .ok out ∧
      AnsweredBatch E w w' hashes .chunks (fun doc => some (unmarshalStrings doc))
        (fun h o => ∃ g, o = some (w.inner.locateChunkNodes g h)) out
  | .getPeersBatch nodeIDs, r => ∃ out, r = .ok out ∧
      AnsweredBatch E w w' nodeIDs .peer (fun doc => (unmarshalPeer doc).toOption)
        (fun id o => o = w.inner.peers.lookup id) out
  | _, _ => False

/-- The ids of a batch. -/
def StoreCall.batch : StoreCall → List Str
  | .locateChunkNodesBatch hashes => hashes
  | .getPeersBatch nodeIDs => nodeIDs
  | _ => []

/-- The reads of a store. -/
def StoreCall.isRead : StoreCall → Bool
  | .getPeer _ | .listPeers _ | .getArtifact _ | .listSeeds _ | .locateChunkNodes _
  | .locateChunkNodesBatch _ | .getPeersBatch _ => true
  | _ => false

theorem ends_listPeers {expiry : Time} :
    (CachedStore.listPeers expiry).Ends E.handle
      (fun r w' => w.Read E w' ∧ Answered E w w' (.listPeers expiry) r) w := by
  have hcached := ends_readThrough (E := E) (w := w) .peersList (.listPeers 0)
    (fun doc => .ok (unmarshalPeers doc)) (fun peers => some (marshalPeers peers)) (fun _ _ => rfl)
    (fun g now d hd => ⟨g, now, (Option.some.inj hd).symm⟩)
  refine hcached.seq fun r w1 ⟨hread, _, hr⟩ => ?_
  obtain ⟨peers, hpeers, rfl⟩ : ∃ peers, ((∃ g now, peers = w.inner.listPeers g now 0) ∨
      ∃ d, w.Found E w1 .peersList d ∧ peers = unmarshalPeers d) ∧ r = .ok peers := by
    rcases hr with ⟨d, hd, rfl⟩ | ⟨g, now, rfl⟩
    · exact ⟨_, .inr ⟨d, hd, rfl⟩, rfl⟩
    · exact ⟨_, .inl ⟨g, now, rfl⟩, rfl⟩
  dsimp only
  by_cases hexp : expiry ≤ 0
  · rw [CachedStore.filterExpiry, if_pos hexp]
    exact ⟨hread, peers, hpeers, (if_pos hexp).mpr rfl⟩
  · rw [CachedStore.filterExpiry, if_neg hexp]
    refine ⟨hread.trans read_tick, peers, hpeers.imp_right ?_, ?_⟩
    · intro ⟨d, hd, hp⟩
      exact ⟨d, hd.mono (Nat.le_succ _), hp⟩
    · rw [if_neg hexp]
      exact ⟨w1.steps, hread.steps, Nat.lt_succ_self _, rfl⟩

theorem innerFetch_locateChunkNodesBatch :
    InnerFetch E w (fun misses => callInner (.locateChunkNodesBatch misses))
      fun h o => ∃ g, o = some (w.inner.locateChunkNodes g h) := by
  intro misses w1 hw1
  refine ⟨rfl, _, rfl, fun h => ?_⟩
  show (h ∈ misses → ∃ g, (w1.inner.locateChunkNodesBatch _ misses).lookup h = _) ∧
    (h ∉ misses → (w1.inner.locateChunkNodesBatch _ misses).lookup h = none)
  rw [lookup_locateChunkNodesBatch, hw1]
  exact ⟨fun hmem => ⟨_, if_pos hmem⟩, fun hmem => if_neg hmem⟩

theorem innerFetch_getPeersBatch :
    InnerFetch E w (fun misses => callInner (.getPeersBatch misses))
      fun id o => o = w.inner.peers.lookup id := by
  intro misses w1 hw1
  refine ⟨rfl, _, rfl, fun id => ?_⟩
  show (id ∈ misses → (w1.inner.getPeersBatch misses).lookup id = _) ∧
    (id ∉ misses → (w1.inner.getPeersBatch misses).lookup id = none)
  rw [lookup_getPeersBatch, hw1]
  exact ⟨fun hmem => if_pos hmem, fun hmem => if_neg hmem⟩

/-- Every read of the cached store only reads, and what it answers comes from the
cache or from the inner store; a batch fails if one of its reads of the cache
does. -/
theorem ends_read {c : StoreCall} (hc : c.isRead = true) :
    (CachedStore.call c).Ends E.handle
      (fun r w' => w.Read E w' ∧
        ((¬ E.Quiet w.steps c.batch.length ∧ ∃ msg, r = .error msg) ∨
          E.Quiet w.steps c.batch.length ∧ Answered E w w' c r)) w := by
  cases c with
  | getPeer nodeID =>
      have hcached := ends_readThrough (E := E) (w := w) (.peer nodeID) (.getPeer nodeID)
        (fun doc => (unmarshalPeer doc).map some) (fun p => p.map marshalPeer)
        (fun _ _ => rfl) ?_
      · refine hcached.mono fun r w' ⟨hread, _, hr⟩ => ⟨hread, .inr ⟨quiet_zero, ?_⟩⟩
        rcases hr with hfound | ⟨g, now, rfl⟩
        · exact .inr hfound
        · exact .inl rfl
      · intro g now d hd
        obtain ⟨p, hp, rfl⟩ := Option.map_eq_some_iff.mp hd
        exact ⟨p, hp, rfl⟩
  | getArtifact artifactID =>
      have hcached := ends_readThrough (E := E) (w := w) (.artifact artifactID)
        (.getArtifact artifactID) (fun doc => (unmarshalArtifact doc).map some)
        (fun a => a.map marshalArtifact) (fun _ _ => rfl) ?_
      · refine hcached.mono fun r w' ⟨hread, _, hr⟩ => ⟨hread, .inr ⟨quiet_zero, ?_⟩⟩
        rcases hr with hfound | ⟨g, now, rfl⟩
        · exact .inr hfound
        · exact .inl rfl
      · intro g now d hd
        obtain ⟨a, ha, rfl⟩ := Option.map_eq_some_iff.mp hd
        exact ⟨a, ha, rfl⟩
  | listSeeds artifactID =>
      have hcached := ends_readThrough (E := E) (w := w) (.seeds artifactID)
        (.listSeeds artifactID) (fun doc => .ok (unmarshalStrings doc))
        (fun ids => some (marshalStrings ids)) (fun _ _ => rfl)
        (fun g _ d hd => ⟨g, (Option.some.inj hd).symm⟩)
      refine hcached.mono fun r w' ⟨hread, _, hr⟩ => ⟨hread, .inr ⟨quiet_zero, ?_⟩⟩
      rcases hr with hfound | ⟨g, now, rfl⟩
      · exact .inr hfound
      · exact .inl ⟨g, rfl⟩
  | locateChunkNodes h =>
      have hcached := ends_readThrough (E := E) (w := w) (.chunks h)
        (.locateChunkNodes h) (fun doc => .ok (unmarshalStrings doc))
        (fun ids => some (marshalStrings ids)) (fun _ _ => rfl)
        (fun g _ d hd => ⟨g, (Option.some.inj hd).symm⟩)
      refine hcached.mono fun r w' ⟨hread, _, hr⟩ => ⟨hread, .inr ⟨quiet_zero, ?_⟩⟩
      rcases hr with hfound | ⟨g, now, rfl⟩
      · exact .inr hfound
      · exact .inl ⟨g, rfl⟩
  | listPeers expiry =>
      exact ends_listPeers.mono fun r w' ⟨hread, hr⟩ => ⟨hread, .inr ⟨quiet_zero, hr⟩⟩
  | locateChunkNodesBatch hashes =>
      refine ends_readBatch innerFetch_locateChunkNodesBatch fun h a ⟨g, ha⟩ => ?_
      exact ⟨g, congrArg marshalStrings (Option.some.inj ha)⟩
  | getPeersBatch nodeIDs =>
      exact ends_readBatch innerFetch_getPeersBatch fun id p hp => ⟨p, hp.symm, rfl⟩
  | _ => contradiction

end Reads

/-! ## Writes -/

/-- The keys a write invalidates. -/
def StoreCall.invalidates : StoreCall → Key → Prop
  | .upsertPeer peer, k => k = .peer peer.nodeID ∨ k = .peersList
  | .deregisterPeer nodeID, k => k = .peer nodeID ∨ k = .peersList ∨ k.family = keySeedsPrefix ∨
      k.family = keyLocatePrefix ∨ k.family = keyChunksPrefix
  | .pruneExpiredPeers _, k => k = .peersList ∨ k.family = keyPeerPrefix ∨
      k.family = keySeedsPrefix ∨ k.family = keyLocatePrefix ∨ k.family = keyChunksPrefix
  | .putArtifact rec, k => k = .artifact rec.artifactID
  | .reportSeed artifactID _, k => k = .seeds artifactID ∨ k = .locate artifactID
  | .reportChunks _ hashes, k => ∃ h ∈ hashes, k = .chunks h
  | _, _ => False

/-- The writes of a store, heartbeats apart. -/
def StoreCall.isWrite : StoreCall → Bool
  | .upsertPeer _ | .deregisterPeer _ | .pruneExpiredPeers _ | .putArtifact _ | .reportSeed _ _
  | .reportChunks _ _ => true
  | _ => false

/-- A method reads, writes, or is a heartbeat. -/
theorem StoreCall.kinds (c : StoreCall) :
    c.isRead = true ∨ c.isWrite = true ∨ ∃ nodeID, c = .heartbeat nodeID := by
  cases c <;> simp [isRead, isWrite]

/-- Between the two, the cached store has carried out a write. -/
structure CacheWorld.Wrote (E : CacheEnv) (w : CacheWorld) (c : StoreCall) (r : Except Str c.Resp)
    (w' : CacheWorld) : Prop where
  answer : r = .ok (w.innerExec E c).1
  inner : w'.inner = (w.innerExec E c).2
  lastHBFlush : w'.lastHBFlush = w.lastHBFlush
  steps : w.steps < w'.steps
  entry : ∀ k e, w'.entry k = some e →
    w.entry k = some e ∧
      (¬ c.invalidates k ∨ (∃ expiry, c = .pruneExpiredPeers expiry) ∧ w'.inner = w.inner)

/-- Between the two, the entries of such keys have been deleted. -/
structure CacheWorld.Dropped (K : Key → Prop) (w w' : CacheWorld) : Prop where
  inner : w'.inner = w.inner
  lastHBFlush : w'.lastHBFlush = w.lastHBFlush
  steps : w.steps ≤ w'.steps
  entry : ∀ k e, w'.entry k = some e → w.entry k = some e ∧ ¬ K k

section Writes

open CacheWorld

variable {E : CacheEnv} {w w' w'' : CacheWorld} {K K' : Key → Prop} {k : Key}

theorem CacheWorld.Dropped.trans (h : Dropped K w w') (h' : Dropped K' w' w'') :
    Dropped (fun k => K k ∨ K' k) w w'' where
  inner := h'.inner.trans h.inner
  lastHBFlush := h'.lastHBFlush.trans h.lastHBFlush
  steps := Nat.le_trans h.steps h'.steps
  entry k e he := by
    obtain ⟨he', hk'⟩ := h'.entry k e he
    obtain ⟨he, hk⟩ := h.entry k e he'
    exact ⟨he, not_or.mpr ⟨hk, hk'⟩⟩

theorem dropped_drop : Dropped (· = k) w (w.drop k) where
  inner := rfl
  lastHBFlush := rfl
  steps := Nat.le_succ _
  entry k' e he := by
    rw [entry_drop] at he
    split at he
    · contradiction
    · exact ⟨he, ‹_›⟩

theorem dropped_dropPrefix : Dropped (fun k' => k'.family = k.family) w (w.dropPrefix k.family) where
  inner := rfl
  lastHBFlush := rfl
  steps := Nat.le_succ _
  entry k' e he := by
    rw [entry_dropPrefix] at he
    split at he
    · contradiction
    · exact ⟨he, ‹_›⟩

theorem ends_deleteChunks {hashes : List Str} :
    (CachedStore.deleteChunks hashes).Ends E.handle
      (fun _ w' => Dropped (fun k => ∃ h ∈ hashes, k = .chunks h) w w') w := by
  induction hashes generalizing w with
  | nil => exact ⟨rfl, rfl, Nat.le_refl _, fun k e he => ⟨he, by simp⟩⟩
  | cons h hashes ih =>
      rw [CachedStore.deleteChunks, cacheDelete, Prog.ends_perform]
      refine Prog.Ends.mono (ih (w := w.drop (.chunks h))) fun _ w' hrest => ?_
      have hall := dropped_drop.trans hrest
      exact { hall with entry := fun k e he => by simpa using hall.entry k e he }

/-- The inner store has carried out a write, and the entries it invalidates have
been deleted. -/
theorem wrote_of_dropped {c : StoreCall}
    (h : Dropped K { w with steps := w.steps + 1, inner := (w.innerExec E c).2 } w')
    (hK : ∀ k, c.invalidates k → K k ∨
      (∃ expiry, c = .pruneExpiredPeers expiry) ∧ (w.innerExec E c).2 = w.inner) :
    w.Wrote E c (.ok (w.innerExec E c).1) w' where
  answer := rfl
  inner := h.inner
  lastHBFlush := h.lastHBFlush
  steps := h.steps
  entry k e he := by
    obtain ⟨hold, hk⟩ := h.entry k e he
    refine ⟨hold, ?_⟩
    by_cases hinv : c.invalidates k
    · obtain ⟨hprune, hsame⟩ := (hK k hinv).resolve_left hk
      exact .inr ⟨hprune, h.inner.trans hsame⟩
    · exact .inl hinv

/-- A prune that removes nothing leaves the store as it is. -/
theorem pruneExpiredPeers_zero {m : Memory} {now expiry : Time}
    (h : (m.pruneExpiredPeers now expiry).1 = 0) : (m.pruneExpiredPeers now expiry).2 = m := by
  have hdead : m.dead now expiry = [] := List.length_eq_zero_iff.mp h
  simp [Memory.pruneExpiredPeers, hdead]

theorem ends_pruneExpiredPeers {expiry : Time} :
    (CachedStore.pruneExpiredPeers expiry).Ends E.handle (w.Wrote E (.pruneExpiredPeers expiry)) w := by
  show Prog.Ends E.handle _ (if (w.innerExec E (.pruneExpiredPeers expiry)).1 = 0 then _ else _) _
  split
  · rename_i hzero
    have hsame : (w.innerExec E (.pruneExpiredPeers expiry)).2 = w.inner :=
      pruneExpiredPeers_zero hzero
    exact wrote_of_dropped (K := fun _ => False)
      ⟨rfl, rfl, Nat.le_refl _, fun _ _ he => ⟨he, id⟩⟩ fun _ _ => .inr ⟨⟨expiry, rfl⟩, hsame⟩
  · exact wrote_of_dropped ((((dropped_drop.trans (dropped_dropPrefix (k := .peer []))).trans
      (dropped_dropPrefix (k := .seeds []))).trans (dropped_dropPrefix (k := .locate []))).trans
      (dropped_dropPrefix (k := .chunks []))) fun _ hk =>
        .inl (by simp only [or_assoc]; exact hk)

/-- Every write of the cached store goes to the inner store, and leaves no entry
that it invalidates. -/
theorem ends_write {c : StoreCall} (hc : c.isWrite = true) :
    (CachedStore.call c).Ends E.handle (w.Wrote E c) w := by
  cases c with
  | upsertPeer peer | reportSeed artifactID nodeID =>
      exact wrote_of_dropped (dropped_drop.trans dropped_drop) fun _ hk => .inl hk
  | deregisterPeer nodeID =>
      exact wrote_of_dropped ((((dropped_drop.trans dropped_drop).trans
        (dropped_dropPrefix (k := .seeds []))).trans (dropped_dropPrefix (k := .locate []))).trans
        (dropped_dropPrefix (k := .chunks []))) fun _ hk =>
        .inl (by simp only [or_assoc]; exact hk)
  | pruneExpiredPeers expiry => exact ends_pruneExpiredPeers
  | putArtifact rec => exact wrote_of_dropped dropped_drop fun _ hk => .inl hk
  | reportChunks nodeID hashes =>
      have hdeleted : (CachedStore.deleteChunks hashes).Ends E.handle _
          { w with
            steps := w.steps + 1
            inner := (w.innerExec E (.reportChunks nodeID hashes)).2 } := ends_deleteChunks
      exact hdeleted.seq fun _ w' h => wrote_of_dropped h fun _ hk => .inl hk
  | _ => contradiction

end Writes

/-! ## Heartbeats -/

namespace CacheWorld

/-- The entry is the cached peer of a node, with a heartbeat noted in it. -/
def Renewed (E : CacheEnv) (w w' : CacheWorld) (nodeID : Str) (e : Timed Doc) : Prop :=
  ∃ e₀ p n n', w.entry (.peer nodeID) = some e₀ ∧ unmarshalPeer e₀.value = .ok p ∧
    w.steps ≤ n ∧ n < w'.steps ∧ w.steps ≤ n' ∧ n' < w'.steps ∧
    e = ⟨marshalPeer { p with lastHeartbeat := (E.clock n).1 }, E.deadline n'⟩

/-- A heartbeat is not noted in an entry that does not decode, or if the cache
fails. -/
def Unnoted (E : CacheEnv) (e : Timed Doc) : Prop :=
  (∃ msg, unmarshalPeer e.value = .error msg) ∨ ∃ n, E.fault n ≠ none

/-- Between the two, a heartbeat has been noted in the cache, if the peer was
there. -/
structure Touched (E : CacheEnv) (w : CacheWorld) (nodeID : Str) (noted : Bool) (w' : CacheWorld) :
    Prop where
  inner : w'.inner = w.inner
  lastHBFlush : w'.lastHBFlush = w.lastHBFlush
  steps : w.steps < w'.steps
  found : noted = true → ∃ e p, w.entry (.peer nodeID) = some e ∧ unmarshalPeer e.value = .ok p
  kept : noted = false → ∀ k e, w'.entry k = some e → w.entry k = some e
  entry : ∀ k e, w'.entry k = some e →
    w.entry k = some e ∧ (k = .peer nodeID → Unnoted E e) ∨
      k = .peer nodeID ∧ Renewed E w w' nodeID e

/-- The heartbeat is not yet to be handed on. -/
def Recent (E : CacheEnv) (w : CacheWorld) (nodeID : Str) : Prop :=
  durationSub (E.clock w.steps).1 (w.lastFlush nodeID) < hbEvery

/-- Between the two, the cached store has carried out a heartbeat, with this
answer: either only in the cache, soon after the last one that was handed on, or
in the inner store. -/
structure Beat (E : CacheEnv) (w : CacheWorld) (nodeID : Str) (ok : Bool) (w' : CacheWorld) :
    Prop where
  steps : w.steps < w'.steps
  cases :
    (ok = true ∧ w.Recent E nodeID ∧ w'.inner = w.inner ∧ w'.lastHBFlush = w.lastHBFlush ∧
      ∃ e p, w.entry (.peer nodeID) = some e ∧ unmarshalPeer e.value = .ok p) ∨
    ∃ n, w.steps < n ∧ n < w'.steps ∧
      (ok, w'.inner) = w.inner.heartbeat (E.clock n).1 nodeID ∧
      (w'.lastHBFlush = w.lastHBFlush ∨ ∃ n₀, w.steps < n₀ ∧ n₀ < n ∧
        w'.lastHBFlush = w.lastHBFlush.insert nodeID (E.clock n₀).1)
  entry : ∀ k e, w'.entry k = some e →
    w.entry k = some e ∧ (ok = true → k = .peer nodeID → Unnoted E e) ∨
    k = .peer nodeID ∧ Renewed E w w' nodeID e

end CacheWorld

section Heartbeats

open CacheWorld

variable {E : CacheEnv} {w w1 w2 w' : CacheWorld} {nodeID : Str}

theorem ends_touchCached :
    (CachedStore.touchCached nodeID).Ends E.handle (w.Touched E nodeID) w := by
  refine ends_cacheGet (fun msg hfault => ?_) (fun e _ he _ => ?_) (fun _ => ?_)
  · have hfails : ∃ n, E.fault n ≠ none := ⟨w.steps, by simp [hfault]⟩
    exact ⟨rfl, rfl, Nat.lt_succ_self _, fun h => (nomatch h), fun _ _ _ hk => hk,
      fun _ _ hk => .inl ⟨hk, fun _ => .inr hfails⟩⟩
  · dsimp only
    cases hp : unmarshalPeer e.value with
    | error msg =>
        refine ⟨rfl, rfl, Nat.lt_succ_self _, fun h => (nomatch h), fun _ _ _ hk => hk,
          fun k e' hk => .inl ⟨hk, fun hpeer => .inl ?_⟩⟩
        subst hpeer
        have heq : e' = e := Option.some.inj (hk.symm.trans he)
        exact ⟨msg, heq ▸ hp⟩
    | ok p =>
        refine ⟨rfl, rfl, ?_, fun _ => ⟨e, p, he, hp⟩, fun h => (nomatch h), fun k e' hk => ?_⟩
        · show w.steps < w.steps + 1 + 1 + 1
          omega
        · have hput : ((w.tick.tick).put (.peer nodeID)
              ⟨marshalPeer { p with lastHeartbeat := (E.clock (w.steps + 1)).1 },
                E.deadline (w.steps + 2)⟩).entry k = some e' := hk
          rw [entry_put] at hput
          split at hput
          · rename_i hpeer
            refine .inr ⟨hpeer, e, p, w.steps + 1, w.steps + 2, he, hp, ?_⟩
            have heq := (Option.some.inj hput).symm
            refine ⟨Nat.le_succ _, ?_, by omega, ?_, heq⟩
            · show w.steps + 1 < w.steps + 1 + 1 + 1
              omega
            · show w.steps + 2 < w.steps + 1 + 1 + 1
              omega
          · rename_i hpeer
            exact .inl ⟨hput, fun h => absurd h hpeer⟩
  · refine ⟨rfl, rfl, Nat.lt_succ_self _, fun h => (nomatch h), fun _ _ _ => entry_of_drop,
      fun k e hk => .inl ⟨entry_of_drop hk, fun hpeer => ?_⟩⟩
    have hk : (w.drop (.peer nodeID)).entry k = some e := hk
    rw [entry_drop, if_pos hpeer] at hk
    contradiction

/-- A heartbeat that goes to the inner store from `w1` on, where all entries are
those of `w`. -/
theorem ends_heartbeat_inner (hsteps : w.steps < w1.steps) (hinner : w1.inner = w.inner)
    (hentry : ∀ k e, w1.entry k = some e → w.entry k = some e)
    (hflush : w1.lastHBFlush = w.lastHBFlush ∨ ∃ n0, w.steps < n0 ∧ n0 < w1.steps ∧
      w1.lastHBFlush = w.lastHBFlush.insert nodeID (E.clock n0).1) :
    (CachedStore.heartbeatInner nodeID).Ends E.handle
      (fun r w' => ∃ ok, r = .ok ok ∧ w.Beat E nodeID ok w') w1 := by
  have hbeat : w1.innerExec E (.heartbeat nodeID) =
      w.inner.heartbeat (E.clock w1.steps).1 nodeID := by
    rw [← hinner]
    rfl
  rw [CachedStore.heartbeatInner, callInner, Prog.ends_perform]
  dsimp only [CacheEnv.handle]
  generalize w1.innerExec E (.heartbeat nodeID) = ran at hbeat ⊢
  obtain ⟨ok, inner⟩ := ran
  cases ok with
  | false =>
      exact ⟨false, rfl, Nat.lt_succ_of_lt hsteps,
        .inr ⟨w1.steps, hsteps, Nat.lt_succ_self _, hbeat, hflush⟩,
        fun k e he => .inl ⟨hentry k e he, fun h => (nomatch h)⟩⟩
  | true =>
      refine ends_touchCached.seq fun _ w' htouched => Prog.ends_pure.mpr ?_
      have hlater : w1.steps < w'.steps := Nat.lt_trans (Nat.lt_succ_self _) htouched.steps
      refine ⟨true, rfl, Nat.lt_trans hsteps hlater, .inr ⟨w1.steps, hsteps, hlater, ?_, ?_⟩, ?_⟩
      · rw [htouched.inner]
        exact hbeat
      · rw [htouched.lastHBFlush]
        exact hflush
      · intro k e he
        rcases htouched.entry k e he with ⟨hold, hbad⟩ | ⟨hk, e0, p, n, n', hold, hp, hn, hn', h⟩
        · exact .inl ⟨hentry k e hold, fun _ => hbad⟩
        · have hstart : w.steps ≤ w1.steps + 1 := by omega
          exact .inr ⟨hk, e0, p, n, n', hentry _ _ hold, hp, Nat.le_trans hstart hn, hn',
            Nat.le_trans hstart h.1, h.2⟩

theorem ends_heartbeat :
    (CachedStore.heartbeat nodeID).Ends E.handle
      (fun r w' => ∃ ok, r = .ok ok ∧ w.Beat E nodeID ok w') w := by
  rw [CachedStore.heartbeat, flushDue, Prog.ends_perform]
  dsimp only [CacheEnv.handle, CacheWorld.flush]
  split
  · refine ends_heartbeat_inner (Nat.lt_succ_of_lt (Nat.lt_succ_self _)) rfl (fun _ _ he => he) ?_
    exact .inr ⟨w.steps + 1, Nat.lt_succ_self _, Nat.lt_succ_self _, rfl⟩
  · rename_i hrecent
    refine ends_touchCached.seq fun noted w1 htouched => ?_
    have hlater : w.steps < w1.steps := Nat.lt_trans (Nat.lt_succ_self _) htouched.steps
    cases noted with
    | false =>
        exact ends_heartbeat_inner hlater htouched.inner (htouched.kept rfl)
          (.inl htouched.lastHBFlush)
    | true =>
        refine ⟨true, rfl, hlater, .inl ⟨rfl, lt_of_not_ge hrecent, htouched.inner,
          htouched.lastHBFlush, htouched.found rfl⟩, fun k e he => ?_⟩
        rcases htouched.entry k e he with ⟨hold, hbad⟩ | ⟨hk, e0, p, n, n', hold, hp, hn, hn', h⟩
        · exact .inl ⟨hold, fun _ => hbad⟩
        · have hstart : w.steps ≤ w.tick.steps := Nat.le_succ _
          exact .inr ⟨hk, e0, p, n, n', hold, hp, Nat.le_trans hstart hn, hn',
            Nat.le_trans hstart h.1, h.2⟩

end Heartbeats

end Spider

import Spider.Tracker.Cache

/-!
# Spider.Tracker.Transparency

The cached store answers like the store behind it.

* `Agrees`: an entry of the cache says what the inner store would, up to the
  order of lists and the heartbeat times of peers.
* `SameAt`: what an entry depends on.  A write changes it for no key but those
  it invalidates (`sameAt_exec`).
* `Sound`: all entries agree with the inner store.  Every method keeps it.

Documents are JSON, which replaces bytes that are not UTF-8 and has no times
after the year 9999; `storable` excludes both.
-/

namespace Spider

open Conc

/-! ## What JSON keeps -/

/-- A peer JSON keeps as it is. -/
def Peer.storable (p : Peer) : Bool :=
  Utf8.valid p.nodeID && Utf8.valid p.address && Utf8.valid p.region && Utf8.valid p.zone &&
    Utf8.valid p.rack && Utf8.valid p.host && Utf8.valid p.status && jsonTime p.lastHeartbeat

/-- An artifact JSON keeps as it is. -/
def ArtifactRecord.storable (a : ArtifactRecord) : Bool :=
  Utf8.valid a.artifactID && Utf8.valid a.name && Utf8.valid a.version

/-- A call that brings only values JSON keeps as they are. -/
def StoreCall.storable : StoreCall → Bool
  | .upsertPeer peer => peer.storable
  | .putArtifact rec => rec.storable
  | .reportSeed _ nodeID => Utf8.valid nodeID
  | .reportChunks nodeID _ => Utf8.valid nodeID
  | _ => true

variable {p : Peer}

theorem jsonPeer_of_storable (h : p.storable = true) : jsonPeer p = some p := by
  simp only [Peer.storable, Bool.and_eq_true] at h
  simp [jsonPeer, Utf8.toValid_of_valid, h]

theorem marshalPeer_of_storable (h : p.storable = true) : marshalPeer p = .peer p := by
  rw [marshalPeer, jsonPeer_of_storable h]

theorem marshalPeers_of_storable {ps : List Peer} (h : ∀ p ∈ ps, p.storable = true) :
    marshalPeers ps = .peers ps := by
  have hjson : ps.mapM jsonPeer = some ps := by
    induction ps with
    | nil => rfl
    | cons p ps ih =>
        have hp : jsonPeer p = some p := jsonPeer_of_storable (h p List.mem_cons_self)
        have hps := ih fun q hq => h q (List.mem_cons_of_mem p hq)
        simp [List.mapM_cons, hp, hps]
  rw [marshalPeers, hjson]

theorem marshalArtifact_of_storable {a : ArtifactRecord} (h : a.storable = true) :
    marshalArtifact a = .artifact a := by
  simp only [ArtifactRecord.storable, Bool.and_eq_true] at h
  simp [marshalArtifact, Utf8.toValid_of_valid, h]

theorem marshalStrings_of_valid {ss : List Str} (h : ∀ s ∈ ss, Utf8.valid s = true) :
    marshalStrings ss = .strings ss := by
  have hmap : ss.map Utf8.toValid = ss.map id :=
    List.map_congr_left fun s hs => Utf8.toValid_of_valid (h s hs)
  rw [marshalStrings, hmap, List.map_id]

/-- The times of a process. -/
theorem jsonTime_instant (t : Instant) : jsonTime t.1 = true := by
  have hlow : (-62167219200000000000 : Int) ≤ t.1 := by have h := t.2; omega
  have hhigh : t.1 < (253402300800000000000 : Int) := by have h := t.2; omega
  rw [jsonTime, Bool.and_eq_true]
  exact ⟨decide_eq_true hlow, decide_eq_true hhigh⟩

/-- A store all of whose values JSON keeps as they are. -/
structure Memory.Clean (m : Memory) : Prop where
  peer : ∀ {id p}, m.peers.lookup id = some p → p.nodeID = id ∧ p.storable = true
  artifact : ∀ {id a}, m.arts.lookup id = some a → a.storable = true
  node : ∀ {row p}, p ∈ m.nodes row → Utf8.valid p = true

theorem storable_touch (h : p.storable = true) (t : Instant) :
    Peer.storable { p with lastHeartbeat := t.1 } = true := by
  simp only [Peer.storable, Bool.and_eq_true] at h ⊢
  exact ⟨h.1, jsonTime_instant t⟩

theorem storable_withDefaults (h : p.storable = true) (t : Instant) :
    (p.withDefaults t.1).storable = true := by
  have hhealthy : Utf8.valid (str "HEALTHY") = true := by decide
  simp only [Peer.storable, Bool.and_eq_true, Peer.withDefaults] at h ⊢
  obtain ⟨⟨hrest, hstatus⟩, htime⟩ := h
  refine ⟨⟨hrest, ?_⟩, ?_⟩
  · split
    · exact hhealthy
    · exact hstatus
  · split
    · exact jsonTime_instant t
    · exact htime

section Clean

variable {m : Memory} {g : Ranging} {t : Instant} {c : StoreCall}

theorem clean_new : Memory.new.Clean where
  peer h := by simp [Memory.new] at h
  artifact h := by simp [Memory.new] at h
  node {row p} h := by cases row <;> simp [Memory.new, Memory.nodes] at h

/-- Storable calls keep a store clean. -/
theorem clean_exec (hm : m.Clean) (hc : c.storable = true) : (Memory.exec g t.1 c m).2.Clean where
  peer {id p} hp := by
    rcases lookup_exec_cases hp with hp | ⟨q, hq, rfl⟩ | ⟨peer, rfl, rfl, rfl⟩
    · exact hm.peer hp
    · exact ⟨(hm.peer hq).1, storable_touch (hm.peer hq).2 t⟩
    · exact ⟨rfl, storable_withDefaults hc t⟩
  artifact {id a} ha := by
    rw [lookup_arts_exec] at ha
    cases c with
    | putArtifact rec =>
        dsimp only at ha
        split at ha
        · exact Option.some.inj ha ▸ hc
        · exact hm.artifact ha
    | _ => exact hm.artifact ha
  node {row p} hp := by
    rcases ((memoryStore g).located_exec t.1 c m row p).mp hp with hreport | ⟨hold, _⟩
    · cases c with
      | reportSeed artifactID nodeID => exact hreport.1 ▸ hc
      | reportChunks nodeID hashes => exact hreport.1 ▸ hc
      | _ => contradiction
    · exact hm.node hold

end Clean

/-! ## Agreement -/

/-- A peer without the time of its last heartbeat. -/
def Peer.identity (p : Peer) : Peer := { p with lastHeartbeat := 0 }

@[simp] theorem identity_touch (p : Peer) (t : Time) :
    Peer.identity { p with lastHeartbeat := t } = p.identity := rfl

/-- The peer of a node, up to its heartbeats. -/
def Memory.identityOf (m : Memory) (nodeID : Str) : Option Peer :=
  (m.peers.lookup nodeID).map Peer.identity

/-- The list has the elements a set has, each once. -/
def Lists {α : Type} (l : List α) (s : α → Prop) : Prop := l.Nodup ∧ ∀ a, a ∈ l ↔ s a

/-- The cached document says about the key what the inner store does. -/
def Agrees (m : Memory) : Key → Doc → Prop
  | .peer nodeID, .peer p => m.identityOf nodeID = some p.identity
  | .peersList, .peers ps => Lists (ps.map Peer.identity) fun p => m.identityOf p.nodeID = some p
  | .artifact artifactID, .artifact a => m.arts.lookup artifactID = some a
  | .seeds artifactID, .strings ids => Lists ids (· ∈ m.nodes (.seed artifactID))
  | .chunks h, .strings ids => Lists ids (· ∈ m.nodes (.chunk h))
  | _, _ => False

/-- Two stores do not differ in what is cached for the key. -/
def Memory.SameAt (m m' : Memory) : Key → Prop
  | .peer nodeID => m.identityOf nodeID = m'.identityOf nodeID
  | .peersList => ∀ nodeID, m.identityOf nodeID = m'.identityOf nodeID
  | .artifact artifactID => m.arts.lookup artifactID = m'.arts.lookup artifactID
  | .seeds artifactID => ∀ p, p ∈ m.nodes (.seed artifactID) ↔ p ∈ m'.nodes (.seed artifactID)
  | .locate _ => True
  | .chunks h => ∀ p, p ∈ m.nodes (.chunk h) ↔ p ∈ m'.nodes (.chunk h)

section Agreement

variable {m m' : Memory} {g : Ranging} {now : Time} {c : StoreCall} {k : Key} {d : Doc}

theorem agrees_congr (h : m.SameAt m' k) (hd : Agrees m k d) : Agrees m' k d := by
  cases k <;> cases d <;>
    simp only [Agrees, Lists, Memory.SameAt] at h hd ⊢ <;>
    simpa only [h] using hd

/-- Heartbeats and reports leave the peers as they are, up to their heartbeats. -/
theorem identityOf_exec {id : Str} (h : ¬ c.invalidates (.peer id)) :
    (Memory.exec g now c m).2.identityOf id = m.identityOf id := by
  have htouch : ∀ nodeID, (if id = nodeID then
        (m.peers.lookup id).map fun p => { p with lastHeartbeat := now }
      else m.peers.lookup id).map Peer.identity = (m.peers.lookup id).map Peer.identity := by
    intro nodeID
    split
    · rw [Option.map_map]
      rfl
    · rfl
  unfold Memory.identityOf
  rw [lookup_exec]
  cases c with
  | upsertPeer peer =>
      have hid : id ≠ peer.nodeID := fun hid => h (.inl (congrArg Key.peer hid))
      simp [hid]
  | heartbeat nodeID => exact htouch nodeID
  | deregisterPeer nodeID =>
      have hid : id ≠ nodeID := fun hid => h (.inl (congrArg Key.peer hid))
      simp [hid]
  | pruneExpiredPeers expiry => exact absurd (.inr (.inl rfl)) h
  | reportChunks nodeID hashes => exact htouch nodeID
  | _ => rfl

theorem identityOf_exec_peersList (h : ¬ c.invalidates .peersList) (id : Str) :
    (Memory.exec g now c m).2.identityOf id = m.identityOf id := by
  refine identityOf_exec fun hpeer => h ?_
  cases c with
  | upsertPeer peer => exact .inr rfl
  | deregisterPeer nodeID => exact .inr (.inl rfl)
  | pruneExpiredPeers expiry => exact .inl rfl
  | reportChunks nodeID hashes =>
      obtain ⟨h, _, hk⟩ := hpeer
      contradiction
  | _ => simp [StoreCall.invalidates] at hpeer

/-- The key under which the nodes of a row are cached. -/
def Row.key : Row → Key
  | .seed artifactID => .seeds artifactID
  | .chunk h => .chunks h

/-- The nodes of a row change only by writes that invalidate its key. -/
theorem mem_nodes_exec (row : Row) (h : ¬ c.invalidates row.key) (p : Str) :
    p ∈ (Memory.exec g now c m).2.nodes row ↔ p ∈ m.nodes row := by
  have hreports : ¬ c.reports row p := by
    intro hrep
    cases c with
    | reportSeed artifactID nodeID => exact h (by rw [hrep.2]; exact .inl rfl)
    | reportChunks nodeID hashes =>
        obtain ⟨_, hash, hmem, _, rfl⟩ := hrep
        exact h ⟨hash, hmem, rfl⟩
    | _ => exact hrep
  have hremoves : ¬ c.removes (fun expiry => m.Expired now expiry p) p := by
    intro hrem
    cases c with
    | deregisterPeer nodeID | pruneExpiredPeers expiry =>
        cases row <;> simp [StoreCall.invalidates, Row.key, Key.family] at h
    | _ => exact hrem
  have hlocated := (memoryStore g).located_exec now c m row p
  exact hlocated.trans ⟨fun h => (h.resolve_left hreports).1, fun h => .inr ⟨h, hremoves⟩⟩

/-- A write changes what is cached for no key but those it invalidates. -/
theorem sameAt_exec (h : ¬ c.invalidates k) : m.SameAt (Memory.exec g now c m).2 k := by
  cases k with
  | peer nodeID => exact (identityOf_exec h).symm
  | peersList => exact fun id => (identityOf_exec_peersList h id).symm
  | artifact artifactID =>
      rw [Memory.SameAt, lookup_arts_exec]
      cases c with
      | putArtifact rec =>
          have hid : artifactID ≠ rec.artifactID := fun hid => h (congrArg Key.artifact hid)
          exact (if_neg hid).symm
      | _ => rfl
  | seeds artifactID => exact fun p => (mem_nodes_exec (.seed artifactID) h p).symm
  | locate artifactID => trivial
  | chunks hash => exact fun p => (mem_nodes_exec (.chunk hash) h p).symm

/-! ## What is cached agrees -/

theorem lists_nodes (row : Row) : Lists (g.order (m.nodes row)) (· ∈ m.nodes row) :=
  ⟨(g.perm _).nodup_iff.mpr Memory.nodup_nodes, fun _ => g.mem_order⟩

/-- `ListPeers` without an expiry. -/
theorem listPeers_zero {expiry : Time} (h : expiry ≤ 0) :
    m.listPeers g now expiry = g.order (m.peers.entries.map fun e => e.2) := by
  simp [Memory.listPeers, h]

theorem mem_entries_iff {p : Peer} (hm : m.Clean) :
    p ∈ (m.peers.entries.map fun e => e.2) ↔ m.peers.lookup p.nodeID = some p := by
  constructor
  · intro hp
    obtain ⟨⟨id, q⟩, he, rfl⟩ := List.mem_map.mp hp
    have hq : m.peers.lookup id = some q := AList.mem_lookup_iff.mpr he
    rwa [(hm.peer hq).1]
  · intro hp
    exact List.mem_map.mpr ⟨⟨p.nodeID, p⟩, AList.mem_lookup_iff.mp hp, rfl⟩

theorem lists_peers (hm : m.Clean) :
    Lists ((g.order (m.peers.entries.map fun e => e.2)).map Peer.identity)
      fun p => m.identityOf p.nodeID = some p := by
  constructor
  · -- the node ids are the keys of the table
    have hkeys : ((m.peers.entries.map fun e => e.2).map Peer.identity).map Peer.nodeID =
        m.peers.entries.map Sigma.fst := by
      rw [List.map_map, List.map_map]
      refine List.map_congr_left fun e he => ?_
      exact (hm.peer (AList.mem_lookup_iff.mpr he)).1
    have hnodup : ((m.peers.entries.map fun e => e.2).map Peer.identity).Nodup := by
      have hids : (m.peers.entries.map Sigma.fst).Nodup := m.peers.keys_nodup
      rw [← hkeys] at hids
      exact hids.of_map _
    exact ((g.perm _).map _).nodup_iff.mpr hnodup
  · intro i
    simp only [List.mem_map, g.mem_order, Memory.identityOf, Option.map_eq_some_iff]
    constructor
    · rintro ⟨p, ⟨e, he, rfl⟩, rfl⟩
      have hp : m.peers.lookup e.1 = some e.2 := AList.mem_lookup_iff.mpr he
      have hid : e.2.identity.nodeID = e.1 := (hm.peer hp).1
      exact ⟨e.2, hid ▸ hp, rfl⟩
    · rintro ⟨p, hp, hi⟩
      exact ⟨p, ⟨⟨i.nodeID, p⟩, AList.mem_lookup_iff.mp hp, rfl⟩, hi⟩

theorem marshalPeers_listPeers (hm : m.Clean) :
    marshalPeers (m.listPeers g now 0) = .peers (g.order (m.peers.entries.map fun e => e.2)) := by
  rw [listPeers_zero (le_refl 0), marshalPeers_of_storable]
  intro p hp
  exact (hm.peer ((mem_entries_iff hm).mp (g.mem_order.mp hp))).2

theorem agrees_of_filled (hm : m.Clean) (hd : Filled m k d) : Agrees m k d := by
  cases k with
  | peer nodeID =>
      obtain ⟨p, hp, rfl⟩ := hd
      rw [marshalPeer_of_storable (hm.peer hp).2]
      simp [Agrees, Memory.identityOf, hp]
  | peersList =>
      obtain ⟨g, now, rfl⟩ := hd
      rw [marshalPeers_listPeers hm]
      exact lists_peers hm
  | artifact artifactID =>
      obtain ⟨a, ha, rfl⟩ := hd
      rw [marshalArtifact_of_storable (hm.artifact ha)]
      exact ha
  | seeds artifactID =>
      obtain ⟨g, rfl⟩ := hd
      rw [marshalStrings_of_valid]
      · exact lists_nodes (.seed artifactID)
      · exact fun s hs => hm.node (g.mem_order.mp hs : s ∈ m.nodes (.seed artifactID))
  | locate artifactID => exact hd
  | chunks hash =>
      obtain ⟨g, rfl⟩ := hd
      rw [marshalStrings_of_valid]
      · exact lists_nodes (.chunk hash)
      · exact fun s hs => hm.node (g.mem_order.mp hs : s ∈ m.nodes (.chunk hash))

end Agreement

/-! ## Runs -/

/-- All that is cached agrees with the inner store. -/
structure CacheWorld.Sound (w : CacheWorld) : Prop where
  clean : w.inner.Clean
  agrees : ∀ k e, w.entry k = some e → Agrees w.inner k e.value

section Sound

open CacheWorld

variable {E : CacheEnv} {w w' : CacheWorld} {c : StoreCall}

theorem sound_new : CacheWorld.new.Sound where
  clean := clean_new
  agrees k e he := by simp [CacheWorld.new, CacheWorld.entry] at he

theorem CacheWorld.Sound.read (hw : w.Sound) (h : w.Read E w') : w'.Sound where
  clean := h.inner ▸ hw.clean
  agrees k e he := by
    rw [h.inner]
    rcases h.entry k e he with he | ⟨n, d, _, _, hd, rfl⟩
    · exact hw.agrees k e he
    · exact agrees_of_filled hw.clean hd

theorem CacheWorld.Sound.wrote {r : Except Str c.Resp} (hw : w.Sound) (hc : c.storable = true)
    (h : w.Wrote E c r w') : w'.Sound where
  clean := h.inner ▸ clean_exec hw.clean hc
  agrees k e he := by
    obtain ⟨hold, hkept⟩ := h.entry k e he
    have hagrees := hw.agrees k e hold
    rcases hkept with hkept | ⟨_, hsame⟩
    · rw [h.inner]
      exact agrees_congr (sameAt_exec hkept) hagrees
    · rwa [hsame]

theorem touch_congr {p q : Peer} (h : p.identity = q.identity) (t : Time) :
    { p with lastHeartbeat := t } = { q with lastHeartbeat := t } := by
  have htouch : ∀ r : Peer, { r with lastHeartbeat := t } = { r.identity with lastHeartbeat := t } :=
    fun _ => rfl
  rw [htouch p, h, ← htouch q]

variable {nodeID : Str}

/-- What is cached for a peer. -/
theorem CacheWorld.Sound.cachedPeer {e : Timed Doc} (hw : w.Sound)
    (he : w.entry (.peer nodeID) = some e) :
    ∃ p q, e.value = .peer q ∧ w.inner.peers.lookup nodeID = some p ∧ p.identity = q.identity := by
  have hagrees := hw.agrees (.peer nodeID) e he
  cases hd : e.value with
  | peer q =>
      rw [hd, Agrees, Memory.identityOf, Option.map_eq_some_iff] at hagrees
      obtain ⟨p, hp, hid⟩ := hagrees
      exact ⟨p, q, rfl, hp, hid⟩
  | _ => simp [hd, Agrees] at hagrees

/-- The cached peer with a heartbeat noted in it is the peer of the inner store
with that heartbeat. -/
theorem CacheWorld.Sound.renewed {e : Timed Doc} (hw : w.Sound) (h : w.Renewed E w' nodeID e) :
    ∃ p n n', w.inner.peers.lookup nodeID = some p ∧ w.steps ≤ n ∧ n < w'.steps ∧
      w.steps ≤ n' ∧ n' < w'.steps ∧
      e = ⟨.peer { p with lastHeartbeat := (E.clock n).1 }, E.deadline n'⟩ := by
  obtain ⟨e0, q', n, n', he0, hq', hn, hn1, hn', hn2, rfl⟩ := h
  obtain ⟨p, q, hvalue, hp, hid⟩ := hw.cachedPeer he0
  have hqq : q' = q := by
    rw [hvalue] at hq'
    exact (Except.ok.inj hq').symm
  have hstore : Peer.storable { p with lastHeartbeat := (E.clock n).1 } = true :=
    storable_touch (hw.clean.peer hp).2 (E.clock n)
  refine ⟨p, n, n', hp, hn, hn1, hn', hn2, ?_⟩
  rw [hqq, touch_congr hid.symm, marshalPeer_of_storable hstore]

theorem CacheWorld.Sound.beat {ok : Bool} (hw : w.Sound) (h : w.Beat E nodeID ok w') :
    w'.Sound := by
  have hagrees : ∀ k e, w'.entry k = some e → Agrees w.inner k e.value := by
    intro k e he
    rcases h.entry k e he with ⟨hold, _⟩ | ⟨rfl, hrenewed⟩
    · exact hw.agrees k e hold
    · obtain ⟨p, n, n', hp, _, _, _, _, rfl⟩ := hw.renewed hrenewed
      simp [Agrees, Memory.identityOf, hp]
  rcases h.cases with ⟨_, _, hinner, _, _⟩ | ⟨n, _, _, hbeat, _⟩
  · exact ⟨hinner ▸ hw.clean, hinner ▸ hagrees⟩
  · have hinner : w'.inner = (Memory.exec .plain (E.clock n).1 (.heartbeat nodeID) w.inner).2 :=
      congrArg Prod.snd hbeat
    constructor
    · rw [hinner]
      exact clean_exec hw.clean rfl
    · intro k e he
      rw [hinner]
      exact agrees_congr (sameAt_exec fun h => h) (hagrees k e he)

/-- Every method keeps the cache in agreement with the inner store. -/
theorem CacheWorld.Sound.call (hw : w.Sound) (hc : c.storable = true) :
    ((CachedStore.call c).eval E.handle w).2.Sound := by
  rcases c.kinds with hkind | hkind | ⟨nodeID, rfl⟩
  · exact hw.read (ends_read hkind).1
  · exact hw.wrote hc (ends_write hkind)
  · have hends : (CachedStore.heartbeat nodeID).Ends E.handle _ w := ends_heartbeat
    obtain ⟨ok, _, hbeat⟩ := hends
    exact hw.beat hbeat

end Sound

/-- The world after a sequence of calls on a new cached store. -/
def CacheEnv.run (E : CacheEnv) (calls : List StoreCall) : CacheWorld :=
  calls.foldl (fun w c => ((CachedStore.call c).eval E.handle w).2) .new

theorem sound_run {E : CacheEnv} {calls : List StoreCall} (h : ∀ c ∈ calls, c.storable = true) :
    (E.run calls).Sound := by
  have hfold : ∀ w : CacheWorld, w.Sound →
      (calls.foldl (fun w c => ((CachedStore.call c).eval E.handle w).2) w).Sound := by
    induction calls with
    | nil => exact fun w hw => hw
    | cons c calls ih =>
        intro w hw
        have hafter := hw.call (E := E) (h c List.mem_cons_self)
        exact ih (fun c' hc' => h c' (List.mem_cons_of_mem c hc')) _ hafter
  exact hfold .new sound_new

/-! ## Answers -/

/-- Two answers to a call say the same: lists as sets, peers up to their
heartbeats. -/
def StoreCall.Same : (c : StoreCall) → c.Resp → c.Resp → Prop
  | .getPeer _, p, p' => p.map Peer.identity = p'.map Peer.identity
  | .listPeers _, ps, ps' => (ps.map Peer.identity).Perm (ps'.map Peer.identity)
  | .listSeeds _, ids, ids' => ids.Perm ids'
  | .locateChunkNodes _, ids, ids' => ids.Perm ids'
  | .locateChunkNodesBatch _, found, found' =>
      ∀ h, Option.Rel List.Perm (found.lookup h) (found'.lookup h)
  | .getPeersBatch _, found, found' =>
      ∀ id, (found.lookup id).map Peer.identity = (found'.lookup id).map Peer.identity
  | _, r, r' => r = r'

/-- The reads whose answers do not depend on the time: all but those of the active
peers only. -/
def StoreCall.timeless : StoreCall → Bool
  | .listPeers expiry => decide (expiry ≤ 0)
  | c => c.isRead

theorem timeless_isRead {c : StoreCall} (h : c.timeless = true) : c.isRead = true := by
  cases c <;> first | rfl | exact h

section Answers

open CacheWorld

variable {E : CacheEnv} {w w' : CacheWorld} {g : Ranging} {now : Time}

theorem Lists.perm {α : Type} {l l' : List α} {s : α → Prop} (h : Lists l s) (h' : Lists l' s) :
    l.Perm l' :=
  (List.perm_ext_iff_of_nodup h.1 h'.1).mpr fun a => (h.2 a).trans (h'.2 a).symm

/-- A document found in the cache agrees with the inner store. -/
theorem CacheWorld.Sound.found {k : Key} {d : Doc} (hw : w.Sound) (h : w.Found E w' k d) :
    Agrees w.inner k d := by
  obtain ⟨e, n, he, _, _, _, rfl⟩ := h
  exact hw.agrees k e he

/-- The nodes of a row, from the cache or from the inner store. -/
theorem CacheWorld.Sound.lists_answered {β : Type} {b : β} (hw : w.Sound) (row : Row)
    (f : List Str → β)
    (h : (∃ g : Ranging, b = f (g.order (w.inner.nodes row))) ∨
      ∃ d, w.Found E w' row.key d ∧ b = f (unmarshalStrings d)) :
    ∃ ids, b = f ids ∧ Lists ids (· ∈ w.inner.nodes row) := by
  rcases h with ⟨g, rfl⟩ | ⟨d, hd, rfl⟩
  · exact ⟨_, rfl, lists_nodes row⟩
  · have hagrees := hw.found hd
    cases row <;> cases d <;> simp only [Agrees, Row.key] at hagrees <;> exact ⟨_, rfl, hagrees⟩

/-- The peers, from the cache or from the inner store. -/
theorem CacheWorld.Sound.lists_peers_answered {peers : List Peer} (hw : w.Sound)
    (h : (∃ g now, peers = w.inner.listPeers g now 0) ∨
      ∃ d, w.Found E w' .peersList d ∧ peers = unmarshalPeers d) :
    Lists (peers.map Peer.identity) fun p => w.inner.identityOf p.nodeID = some p := by
  rcases h with ⟨g, now, rfl⟩ | ⟨d, hd, rfl⟩
  · rw [listPeers_zero (le_refl 0)]
    exact lists_peers hw.clean
  · have hagrees := hw.found hd
    cases d <;> simp only [Agrees] at hagrees
    exact hagrees

theorem agrees_peer {m : Memory} {nodeID : Str} {d : Doc} (h : Agrees m (.peer nodeID) d) :
    ∃ p, d = .peer p ∧ m.identityOf nodeID = some p.identity := by
  cases d with
  | peer p => exact ⟨p, rfl, h⟩
  | _ => simp [Agrees] at h

/-- What a read of a sound cached store answers says what the inner store would
answer. -/
theorem same_of_answered {c : StoreCall} {r : Except Str c.Resp} (hw : w.Sound)
    (hc : c.timeless = true) (h : Answered E w w' c r) :
    ∃ a, r = .ok a ∧ ∀ g now, c.Same a (Memory.exec g now c w.inner).1 := by
  cases c with
  | getPeer nodeID =>
      rcases h with rfl | ⟨d, hd, rfl⟩
      · exact ⟨_, rfl, fun _ _ => rfl⟩
      · obtain ⟨p, rfl, hp⟩ := agrees_peer (hw.found hd)
        exact ⟨some p, rfl, fun _ _ => hp.symm⟩
  | listPeers expiry =>
      obtain ⟨peers, hpeers, hr⟩ := h
      have hexp : expiry ≤ 0 := of_decide_eq_true hc
      rw [if_pos hexp] at hr
      refine ⟨peers, hr, fun g now => ?_⟩
      show (peers.map Peer.identity).Perm ((w.inner.listPeers g now expiry).map Peer.identity)
      rw [listPeers_zero hexp]
      exact (hw.lists_peers_answered hpeers).perm (lists_peers hw.clean)
  | getArtifact artifactID =>
      rcases h with rfl | ⟨d, hd, rfl⟩
      · exact ⟨_, rfl, fun _ _ => rfl⟩
      · have hagrees := hw.found hd
        cases d with
        | artifact a => exact ⟨some a, rfl, fun _ _ => hagrees.symm⟩
        | _ => simp [Agrees] at hagrees
  | listSeeds artifactID =>
      obtain ⟨ids, hr, hids⟩ := hw.lists_answered (.seed artifactID) Except.ok h
      exact ⟨ids, hr, fun g _ => hids.perm (lists_nodes (.seed artifactID))⟩
  | locateChunkNodes hash =>
      obtain ⟨ids, hr, hids⟩ := hw.lists_answered (.chunk hash) Except.ok h
      exact ⟨ids, hr, fun g _ => hids.perm (lists_nodes (.chunk hash))⟩
  | locateChunkNodesBatch hashes =>
      obtain ⟨out, rfl, hout⟩ := h
      refine ⟨out, rfl, fun g now hash => ?_⟩
      show Option.Rel List.Perm (out.lookup hash)
        ((w.inner.locateChunkNodesBatch g hashes).lookup hash)
      rw [lookup_locateChunkNodesBatch]
      by_cases hmem : hash ∈ hashes
      · obtain ⟨ids, hlook, hids⟩ := hw.lists_answered (.chunk hash) some ((hout hash).1 hmem)
        rw [hlook, if_pos hmem]
        exact .some (hids.perm (lists_nodes (.chunk hash)))
      · rw [(hout hash).2 hmem, if_neg hmem]
        exact .none
  | getPeersBatch nodeIDs =>
      obtain ⟨out, rfl, hout⟩ := h
      refine ⟨out, rfl, fun g now id => ?_⟩
      show (out.lookup id).map Peer.identity =
        ((w.inner.getPeersBatch nodeIDs).lookup id).map Peer.identity
      rw [lookup_getPeersBatch]
      by_cases hmem : id ∈ nodeIDs
      · rw [if_pos hmem]
        rcases (hout id).1 hmem with hlook | ⟨d, hd, hlook⟩
        · rw [hlook]
        · obtain ⟨p, rfl, hp⟩ := agrees_peer (hw.found hd)
          rw [hlook]
          exact hp.symm
      · rw [(hout id).2 hmem, if_neg hmem]
  | _ => exact absurd h id

/-- A heartbeat is acknowledged just if the inner store has the peer. -/
theorem CacheWorld.Sound.beat_eq {nodeID : Str} {ok : Bool} (hw : w.Sound)
    (h : w.Beat E nodeID ok w') : ok = decide (nodeID ∈ w.inner.peers) := by
  rcases h.cases with ⟨rfl, _, _, _, e, p, he, _⟩ | ⟨n, _, _, hbeat, _⟩
  · obtain ⟨p, q, _, hp, _⟩ := hw.cachedPeer he
    exact (decide_eq_true (Memory.mem_peers_iff.mpr ⟨p, hp⟩)).symm
  · have hok : ok = (w.inner.heartbeat (E.clock n).1 nodeID).1 := congrArg Prod.fst hbeat
    rw [hok, Memory.heartbeat_fst]

end Answers

/-- After every sequence of storable calls, whatever the cache has lost, as long as
it does not fail: a read answers what the inner store would, and a heartbeat is
acknowledged just if the inner store has the peer. -/
theorem cache_transparent (E : CacheEnv) (hquiet : ∀ n, E.fault n = none) (calls : List StoreCall)
    (hcalls : ∀ c ∈ calls, c.storable = true) :
    (∀ c : StoreCall, c.timeless = true →
      ∃ r, ((CachedStore.call c).eval E.handle (E.run calls)).1 = .ok r ∧
        ∀ g now, c.Same r (Memory.exec g now c (E.run calls).inner).1) ∧
    ∀ nodeID, ((CachedStore.call (.heartbeat nodeID)).eval E.handle (E.run calls)).1 =
      .ok (decide (nodeID ∈ (E.run calls).inner.peers)) := by
  have hsound : (E.run calls).Sound := sound_run hcalls
  constructor
  · intro c hc
    have hends := ends_read (E := E) (w := E.run calls) (timeless_isRead hc)
    rcases hends.2 with ⟨hloud, _⟩ | ⟨_, hanswer⟩
    · exact absurd (fun n _ _ => hquiet n) hloud
    · exact same_of_answered hsound hc hanswer
  · intro nodeID
    have hends : (CachedStore.heartbeat nodeID).Ends E.handle _ (E.run calls) := ends_heartbeat
    obtain ⟨ok, hok, hbeat⟩ := hends
    rw [← hsound.beat_eq hbeat]
    exact hok

/-- A cache that loses nothing, while the clock stands still. -/
def CacheEnv.still : CacheEnv := 
  ⟨fun _ => ⟨0, by decide⟩, 0, fun _ => false, fun _ => none, fun _ => .plain⟩

/-- A peer with an address and a heartbeat, stored and read once. -/
def storedPeer (address : Str) (lastHeartbeat : Time) : List StoreCall :=
  [.upsertPeer ⟨str "n1", address, [], [], [], [], [], lastHeartbeat⟩, .getPeer (str "n1")]

theorem cache_transparent_storedPeer :
    ∃ r, ((CachedStore.call (.getPeer (str "n1"))).eval CacheEnv.still.handle
        (CacheEnv.still.run (storedPeer (str "h:1") 0))).1 = .ok r ∧
      ∀ g now, (StoreCall.getPeer (str "n1")).Same r (Memory.exec g now (.getPeer (str "n1"))
        (CacheEnv.still.run (storedPeer (str "h:1") 0)).inner).1 :=
  (cache_transparent .still (fun _ => rfl) (storedPeer (str "h:1") 0) (by decide)).1
    (.getPeer (str "n1")) rfl

/-- Once it is cached, an address that is not UTF-8 comes back changed, and a
heartbeat after the year 9999 makes the read fail. -/
theorem cached_peer_changed :
    (∃ r, ((CachedStore.call (.getPeer (str "n1"))).eval CacheEnv.still.handle
        (CacheEnv.still.run (storedPeer [0xFF] 0))).1 = .ok r ∧
      ¬ (StoreCall.getPeer (str "n1")).Same r (Memory.exec .plain 0 (.getPeer (str "n1"))
        (CacheEnv.still.run (storedPeer [0xFF] 0)).inner).1) ∧
    ((CachedStore.call (.getPeer (str "n1"))).eval CacheEnv.still.handle
      (CacheEnv.still.run (storedPeer (str "h:1") 253402300800000000000))).1 =
        .error (str "unexpected end of JSON input") := by
  refine ⟨⟨some ⟨str "n1", Utf8.replacement, [], [], [], [], str "HEALTHY", 0⟩, ?_, ?_⟩, ?_⟩
  · decide +kernel
  · unfold StoreCall.Same
    decide +kernel
  · decide +kernel

end Spider

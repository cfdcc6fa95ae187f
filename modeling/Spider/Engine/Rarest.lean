import Spider.Lib.StableSort
import Spider.Engine.Presence
import Spider.Topology

/-!
# Spider.Engine.Rarest

`scheduler.RarestFirst` and `pendingQueue.next` (`pkg/scheduler/scheduler.go`,
`pkg/engine/engine.go`): the order in which the workers of a sync get its missing
chunks.

The locations change while the workers run.  A successful `next` leaves a smaller
queue behind, so a function from queues to location maps is one way the
locations can go, and there is no other: the results are for all such functions.
-/

namespace Spider

open Conc StableSort

/-! ## RarestFirst -/

/-- A hash and the number of its peers. -/
structure PeerCount where
  hash : Str
  peers : Nat
  deriving DecidableEq

/-- The inner loop: `it` moves to the left, past everything with more peers.  The
list is what is to the left of `it`, from right to left. -/
def PeerCount.sink (it : PeerCount) : List PeerCount → List PeerCount
  | [] => [it]
  | left :: more => if it.peers < left.peers then left :: it.sink more else it :: left :: more

/-- The outer loop. -/
def sortByPeers (items : List PeerCount) : List PeerCount :=
  (items.foldl (fun sorted it => it.sink sorted) []).reverse

def rank (locations : Str → List PeerInfo) (h : Str) : PeerCount := ⟨h, (locations h).length⟩

/-- `RarestFirst`. -/
def rarestFirst (hashes : List Str) (locations : Str → List PeerInfo) : List Str :=
  let items := hashes.map (rank locations)
  let withPeers := items.filter (·.peers ≠ 0)
  let without := items.filter (·.peers = 0)
  (sortByPeers withPeers).map PeerCount.hash ++ without.map PeerCount.hash

/-- The loop is a stable sort by the number of peers. -/
theorem sortsStably_sortByPeers (items : List PeerCount) :
    SortsStably PeerCount.peers items (sortByPeers items) := by
  have hsink : ∀ (it : PeerCount) (left : List PeerCount), it.sink left = sink PeerCount.peers it left := by
    intro it left
    induction left with
    | nil => rfl
    | cons l more ih => rw [PeerCount.sink, sink, ih]
  have hloop : sortByPeers items = insertionLoop PeerCount.peers items := by
    simp only [sortByPeers, insertionLoop, hsink]
  rw [hloop]
  exact sortsStably_insertionLoop items

section RarestFirst

variable {hashes : List Str} {locations : Str → List PeerInfo}

theorem map_hash_rank : (hashes.map (rank locations)).map PeerCount.hash = hashes := by
  rw [List.map_map]
  exact List.map_id hashes

/-- `RarestFirst` is a permutation of its input. -/
theorem perm_rarestFirst : (rarestFirst hashes locations).Perm hashes := by
  have hsplit := List.filter_append_perm (fun r : PeerCount => decide (r.peers ≠ 0))
    (hashes.map (rank locations))
  have hsorted := (sortsStably_sortByPeers ((hashes.map (rank locations)).filter (·.peers ≠ 0))).perm.append_right
    ((hashes.map (rank locations)).filter (·.peers = 0))
  simp only [decide_not, Bool.not_not] at hsplit hsorted
  have hall := (hsorted.trans hsplit).map PeerCount.hash
  rw [map_hash_rank, List.map_append] at hall
  unfold rarestFirst
  simp only [decide_not]
  exact hall

theorem peers_of_mem {r : PeerCount} (hr : r ∈ hashes.map (rank locations)) :
    r.peers = (locations r.hash).length := by
  obtain ⟨h, -, rfl⟩ := List.mem_map.mp hr
  rfl

/-- Among ranked hashes, selecting by the number of peers is selecting by rank. -/
theorem filter_map_hash {rs : List PeerCount} (hrs : ∀ r ∈ rs, r ∈ hashes.map (rank locations))
    (n : Nat) :
    (rs.map PeerCount.hash).filter (fun h => (locations h).length = n) =
      (rs.filter (·.peers = n)).map PeerCount.hash := by
  rw [List.filter_map]
  refine congrArg _ (List.filter_congr fun r hr => ?_)
  rw [Function.comp_apply, ← peers_of_mem (hrs r hr)]

/-- `RarestFirst` keeps the order of hashes with equally many peers. -/
theorem stable_rarestFirst (n : Nat) :
    (rarestFirst hashes locations).filter (fun h => (locations h).length = n) =
      hashes.filter fun h => (locations h).length = n := by
  have hsorted : ∀ r ∈ sortByPeers ((hashes.map (rank locations)).filter (·.peers ≠ 0)),
      r ∈ hashes.map (rank locations) :=
    fun r hr => List.mem_of_mem_filter ((sortsStably_sortByPeers _).perm.mem_iff.mp hr)
  have hall := @filter_map_hash hashes locations _ (fun r hr => hr) n
  rw [map_hash_rank] at hall
  rw [rarestFirst, List.filter_append, filter_map_hash hsorted,
    filter_map_hash (fun r hr => List.mem_of_mem_filter hr), (sortsStably_sortByPeers _).ties, hall,
    ← List.map_append, List.filter_filter, List.filter_filter]
  -- the hashes with `n` peers are all in one of the two parts
  by_cases hn : n = 0
  · subst hn
    simp
  · have hfirst : ∀ r : PeerCount, (decide (r.peers = n) && decide (r.peers ≠ 0)) =
        decide (r.peers = n) := by
      intro r
      rw [← Bool.decide_and, decide_eq_decide]
      omega
    have hsecond : ∀ r : PeerCount, (decide (r.peers = n) && decide (r.peers = 0)) = false := by
      intro r
      rw [← Bool.decide_and, decide_eq_false_iff_not]
      omega
    simp only [hfirst, hsecond, List.filter_false, List.append_nil]

/-- A hash `next` may pick: among those with peers it has the fewest, and if there are
such hashes it is one of them. -/
structure RarestOf (locations : Str → List PeerInfo) (hashes : List Str) (h : Str) : Prop where
  mem : h ∈ hashes
  few : ∀ h' ∈ hashes, locations h' ≠ [] →
    locations h ≠ [] ∧ (locations h).length ≤ (locations h').length

theorem rarestOf_head {h : Str} (hh : (rarestFirst hashes locations).head? = some h) :
    RarestOf locations hashes h := by
  have hmem : h ∈ hashes := perm_rarestFirst.mem_iff.mp (List.mem_of_head? hh)
  refine ⟨hmem, fun h' hh' hpeers => ?_⟩
  have hwith : rank locations h' ∈
      sortByPeers ((hashes.map (rank locations)).filter (·.peers ≠ 0)) := by
    rw [(sortsStably_sortByPeers _).perm.mem_iff, List.mem_filter]
    refine ⟨List.mem_map_of_mem hh', ?_⟩
    simpa [rank] using hpeers
  have hsorted := (sortsStably_sortByPeers ((hashes.map (rank locations)).filter (·.peers ≠ 0))).sorted
  have hranked : ∀ r ∈ sortByPeers ((hashes.map (rank locations)).filter (·.peers ≠ 0)),
      r.peers ≠ 0 ∧ r.peers = (locations r.hash).length := by
    intro r hr
    rw [(sortsStably_sortByPeers _).perm.mem_iff, List.mem_filter] at hr
    exact ⟨by simpa using hr.2, peers_of_mem hr.1⟩
  unfold rarestFirst at hh
  cases hlist : sortByPeers ((hashes.map (rank locations)).filter (·.peers ≠ 0)) with
  | nil =>
      rw [hlist] at hwith
      contradiction
  | cons first rest =>
      simp only [hlist, List.map_cons, List.cons_append, List.head?_cons, Option.some.injEq] at hh
      rw [hlist] at hwith hsorted hranked
      obtain ⟨hpos, hlen⟩ := hranked first List.mem_cons_self
      have hle : first.peers ≤ (rank locations h').peers := by
        cases List.mem_cons.mp hwith with
        | inl he => rw [he]
        | inr hrest => exact (List.pairwise_cons.mp hsorted).1 _ hrest
      rw [hh] at hlen
      refine ⟨fun hnil => hpos ?_, hlen ▸ hle⟩
      rw [hlen, hnil]
      rfl

end RarestFirst

/-! ## The queue -/

/-- The hashes `next` may pick: it walks through a map, so the order in which
`RarestFirst` gets the queued hashes is any. -/
def picks (locations : Str → List PeerInfo) (queued : List Str) (h : Str) : Bool :=
  queued.permutations.any fun hashes => (rarestFirst hashes locations).head? = some h

/-- `next` under the location snapshot it takes, which may be another one for each
queue it finds; and whether `os.Stat` of a chunk may fail. -/
def nextOk (locs : List Str → Str → List PeerInfo) (statFails : Bool) :
    Tid → (c : Cmd) → c.Resp → Node → Bool
  | _, .job .nextItem, some it, s =>
      picks (locs (s.job.queue.map WorkItem.hash)) (s.job.queue.map WorkItem.hash) it.hash
  | _, .store (.statChunk _), .failed _, _ => statFails
  | _, _, _, _ => true

/-- The workers have been started and are gone. -/
def Job.finished (j : Job) : Prop := j.items ≠ [] ∧ j.running = []

section Queue

variable {locs : List Str → Str → List PeerInfo} {statFails : Bool} {H : Sha256}
variable {cfg : EngineConfig} {m : ArtifactManifest} {chunks : AList fun _ : Str => Bytes}
variable {locations : Str → List PeerInfo} {items : List WorkItem}

theorem RarestOf.perm {hashes hashes' : List Str} {h : Str} (hr : RarestOf locations hashes h)
    (hp : hashes.Perm hashes') : RarestOf locations hashes' h :=
  ⟨hp.mem_iff.mp hr.mem, fun h' hh' => hr.few h' (hp.mem_iff.mpr hh')⟩

theorem rarestOf_of_picks {queued : List Str} {h : Str} (hp : picks locations queued h = true) :
    RarestOf locations queued h := by
  obtain ⟨hashes, hperm, hhead⟩ := List.any_eq_true.mp hp
  exact (rarestOf_head (of_decide_eq_true hhead)).perm (List.mem_permutations.mp hperm)

/-- Whatever has been handed out was rarest among what was queued. -/
def HandedRarest (locs : List Str → Str → List PeerInfo) (x : Node × Trail) : Prop :=
  ∀ k ∈ x.2.handed, RarestOf (locs k.queued) k.queued k.item.hash

theorem HandedRarest.step {t : Tid} {c : Cmd} {r : c.Resp} {x x' : Node × Trail}
    (h : HandedRarest locs x)
    (hx : (trailSystem (nextOk locs statFails)).exec t c r x = some x') : HandedRarest locs x' := by
  by_cases hother : ∃ c', c = .job c'
  · obtain ⟨c, rfl⟩ := hother
    obtain ⟨hok, -, hnote⟩ := trail_eq_some hx
    rw [HandedRarest, hnote]
    cases c with
    | nextItem =>
        cases r with
        | none => exact h
        | some it =>
            refine List.forall_mem_append.mpr ⟨h, List.forall_mem_singleton.mpr ?_⟩
            exact rarestOf_of_picks hok
    | credit fromPeer got =>
        simp only [noteTrail]
        split <;> exact h
    | _ => exact h
  · obtain ⟨-, htrail⟩ := trail_of_other (not_exists.mp hother) hx
    rw [HandedRarest, htrail]
    exact h

/-- The items a sync can be started on. -/
theorem known_of_stock {it : WorkItem}
    (hstock : (syncTerms (nextOk locs statFails) cfg m chunks fun _ => True).stock items)
    (hit : it ∈ items) :
    ∃ ref ∈ chunkRefs m, it = itemOf ref ∧ (statFails = false → hasValid chunks ref.2 = false) := by
  obtain ⟨checked, hch, rfl⟩ := hstock
  obtain ⟨p, hp, hmiss, rfl⟩ := (exists_of_mem_missingItems hit).resolve_left (by simp)
  refine ⟨p.1, hch.refs ▸ List.mem_map_of_mem hp, rfl, fun hfails => ?_⟩
  have hworks : StatWorks (nextOk locs statFails) := fun _ _ _ _ => hfails
  rw [← hch.exact hworks p hp, hmiss]

theorem mem_of_stock {ref : Str × ChunkRef}
    (hstock : (syncTerms (nextOk locs statFails) cfg m chunks fun _ => True).stock items)
    (href : ref ∈ chunkRefs m) (hmiss : hasValid chunks ref.2 = false) :
    ref.2.hash ∈ items.map WorkItem.hash := by
  obtain ⟨checked, hch, rfl⟩ := hstock
  rw [← hch.refs] at href
  obtain ⟨p, hp, rfl⟩ := List.mem_map.mp href
  refine hash_mem_missingItems hp ?_
  cases hv : p.2 with
  | false => rfl
  | true =>
      rw [hch.valid p hp hv] at hmiss
      contradiction

theorem length_le_of_stock
    (hstock : (syncTerms (nextOk locs statFails) cfg m chunks fun _ => True).stock items)
    (hdistinct : (items.map WorkItem.hash).Nodup) : items.length ≤ (allChunkHashes m).length := by
  rw [← List.length_map (f := WorkItem.hash)]
  refine (hdistinct.subperm fun h hh => ?_).length_le
  obtain ⟨it, hit, rfl⟩ := List.mem_map.mp hh
  obtain ⟨ref, href, rfl, -⟩ := known_of_stock hstock hit
  exact mem_chunkRefs.mp (List.mem_map_of_mem href)

end Queue

/-- **Handing out.**  In every interleaving of a `Sync` and its workers, with any
chunks in the store at its beginning and any change of the locations:

* no hash is handed out twice;
* what is handed out belongs to a reference of the manifest whose chunk the store
  did not have (or `os.Stat` failed for it);
* it is rarest among the queued hashes, under the snapshot of the call;
* when the workers are gone and no fetch has failed nor the context been
  cancelled, every missing hash has been handed out exactly once and is in the
  store; and with enough turns, the workers are gone when they have returned.

`RarestFirst` permutes its input and keeps the order of equally rare hashes. -/
theorem handed_out_once (H : Sha256) (J : Marshal) (cfg : EngineConfig) (m : ArtifactManifest)
    (destDir : Str) (w : Watermarks) (turns : Tid → Nat) (locs : List Str → Str → List PeerInfo)
    (statFails : Bool) (s : Node) (hjob : s.job = .fresh) (hnone : ∀ u, cfg.workers < u → turns u = 0)
    (c : Config nodeSig (Node × Trail) Tid (Option (Except Err SyncMetrics)))
    (hreach : Reachable (trailSystem (nextOk locs statFails))
      ⟨(s, ⟨[], []⟩), syncThreads H J cfg m destDir w turns⟩ c) :
    (c.st.2.handed.map fun k => k.item.hash).Nodup ∧
    (∀ k ∈ c.st.2.handed, ∃ ref ∈ chunkRefs m, k.item = itemOf ref ∧
      (statFails = false → hasValid s.store.chunks ref.2 = false)) ∧
    (∀ k ∈ c.st.2.handed, RarestOf (locs k.queued) k.queued k.item.hash) ∧
    (c.st.1.job.finished → c.st.1.job.downloadErr = none →
      ∀ ref ∈ chunkRefs m, hasValid s.store.chunks ref.2 = false →
        ref.2.hash ∈ c.st.2.handed.map (fun k => k.item.hash) ∧ Committed ref.2.hash c.st.1) ∧
    ((∀ t, 0 < t → t ≤ cfg.workers → (∃ a, c.prog t = .ret a) ∧ (allChunkHashes m).length < turns t) →
      c.st.1.job.finished) ∧
    ∀ hashes locations, (rarestFirst hashes locations).Perm hashes ∧
      ∀ n, (rarestFirst hashes locations).filter (fun h => (locations h).length = n) =
        hashes.filter fun h => (locations h).length = n := by
  have hinit : (trailProtocol (nextOk locs statFails)
      (syncTerms (nextOk locs statFails) cfg m s.store.chunks fun _ => True)).Inv (s, ⟨[], []⟩) :=
    trailInv_of_fresh hjob rfl
  have hwp := fun t => @wp_trailThreads (nextOk locs statFails) (s, ⟨[], []⟩) H J cfg m destDir
    (fun _ => True) w turns t earns_any (.inr hnone) hinit hjob rfl
  obtain ⟨hi, -⟩ := Protocol.sound hinit hwp hreach
  have hhanded := hi.ledgered.handed
  have hitem : ∀ k ∈ c.st.2.handed, k.item ∈ c.st.1.job.items := fun k hk =>
    hhanded.mem_iff.mp (List.mem_append_left _ (List.mem_map_of_mem hk))
  refine ⟨?_, fun k hk => ?_, ?_, fun hfinished herr ref href hmiss => ?_, fun hreturned => ?_,
    fun hashes locations => ⟨perm_rarestFirst, stable_rarestFirst⟩⟩
  · have hall := ((hhanded.map WorkItem.hash).nodup_iff).mpr hi.ledgered.distinct
    rw [List.map_append, List.map_map] at hall
    exact hall.of_append_left
  · have hstock := hi.ledgered.stocked (List.ne_nil_of_mem (hitem k hk))
    exact known_of_stock hstock (hitem k hk)
  · have hempty : HandedRarest locs (s, ⟨[], []⟩) := by
      intro k hk
      contradiction
    exact Reachable.invariant (I := HandedRarest locs) (fun _ _ _ _ _ h hx => h.step hx) hempty hreach
  · have hmem := mem_of_stock (hi.ledgered.stocked hfinished.1) href hmiss
    have hsettled := (hi.ledgered.settled hfinished.2 herr).1.map WorkItem.hash
    rw [List.map_map] at hsettled
    refine ⟨hsettled.mem_iff.mpr hmem, ?_⟩
    obtain ⟨it, hit, hhash⟩ := List.mem_map.mp hmem
    have hneeded : it.hash ∈ allChunkHashes m := hhash ▸ mem_chunkRefs.mp (List.mem_map_of_mem href)
    exact hhash ▸ hi.all_committed hfinished.2 herr it hit hneeded
  · have hpost : ∀ t, 0 < t → t ≤ cfg.workers → c.st.1.job.items ≠ [] ∧
        (c.st.1.job.items.length < turns t → t ∉ c.st.1.job.running) := by
      intro t hpos hle
      obtain ⟨⟨a, ha⟩, -⟩ := hreturned t hpos hle
      exact (Protocol.post_of_reachable hinit hwp hreach ha).2.2 hpos hle
    have hitems := (hpost 1 Nat.one_pos cfg.workers_pos).1
    refine ⟨hitems, List.eq_nil_iff_forall_not_mem.mpr fun t ht => ?_⟩
    obtain ⟨hpos, hle⟩ := hi.ledgered.pool t ht
    have hlen := length_le_of_stock (hi.ledgered.stocked hitems) hi.ledgered.distinct
    exact (hpost t hpos hle).2 (hlen.trans_lt (hreturned t hpos hle).2) ht

/-- A sync of one chunk by one worker, up to the end of the worker. -/
def loneHandout : Config nodeSig (Node × Trail) Tid (Option (Except Err SyncMetrics)) :=
  Config.play (trailSystem (nextOk (fun _ _ => []) false))
    (fun _ c x => (World.originOnly [(str "f", [1, 2])]).answer c x.1)
    (List.replicate 2 0 ++ List.replicate 60 1)
    ⟨(emptyNode, ⟨[], []⟩), syncThreads (.numbering [[1, 2]]) (fun _ => [])
      ⟨1, 1, true, true, defaultOptions⟩ loneManifest (str "/srv") ⟨100, 50⟩
      fun t => if t = 1 then 2 else 0⟩

theorem handed_out_once_lone : Committed loneHash loneHandout.st.1 := by
  have hfinished : loneHandout.st.1.job.items ≠ [] ∧ loneHandout.st.1.job.running = [] := by
    decide +kernel
  have hmissing : ∃ ref ∈ chunkRefs loneManifest, ref.2.hash = loneHash ∧
      hasValid emptyNode.store.chunks ref.2 = false := by decide +kernel
  obtain ⟨ref, href, hhash, hmiss⟩ := hmissing
  have hthreads : ∀ u, EngineConfig.workers ⟨1, 1, true, true, defaultOptions⟩ < u →
      (if u = 1 then 2 else 0) = 0 := fun u hu => if_neg (Nat.ne_of_gt hu)
  obtain ⟨-, -, -, hpool, -⟩ := handed_out_once (.numbering [[1, 2]]) (fun _ => [])
    ⟨1, 1, true, true, defaultOptions⟩ loneManifest (str "/srv") ⟨100, 50⟩
    (fun t => if t = 1 then 2 else 0) (fun _ _ => []) false emptyNode rfl hthreads loneHandout
    Config.reachable_play
  exact hhash ▸ (hpool hfinished (by decide +kernel) ref href hmiss).2

end Spider

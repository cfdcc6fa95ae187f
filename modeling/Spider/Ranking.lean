import Spider.Lib.StableSort
import Spider.Scheduler

/-!
# Spider.Ranking

The order in which a chunk's peers are tried: `RankPeers` with its sort
(`pkg/scheduler/scheduler.go`) and `sortByAssigned` (`pkg/engine/engine.go`).

What `Spider.Scheduler` leaves out, latency and throughput, is here (`Load`).  The sort
compares field by field, which is one comparison of tuples (`lessLoad_iff`), so that both
sorts are stable sorts by a key and their composition is one by the longer tuple.
-/

namespace Spider

open StableSort

/-! ## RankPeers -/

/-- What `End` has measured of a peer; throughputs are only compared. -/
structure Load (τ : Type) where
  rtt : Int
  throughput : τ

section RankPeers

variable {τ : Type} [LinearOrder τ]

/-- A peer whose time is up starts again without failures. -/
def Scheduler.readmit (s : Scheduler) (addr : Str) : Scheduler :=
  s.set addr (if (s.stats addr).untrustedAt.isSome then
    { s.stats addr with untrustedAt := none, failures := 0 } else s.stats addr)

/-- The loop of `RankPeers`. -/
def splitInfos (now : Time) :
    Scheduler → List (Option PeerInfo) → List PeerInfo × List PeerInfo × Scheduler
  | s, [] => ([], [], s)
  | s, none :: peers => splitInfos now s peers
  | s, some p :: peers =>
      if p.address = [] then splitInfos now s peers
      else if s.isUntrusted now p.address then
        let (trusted, untrusted, s') := splitInfos now s peers
        (trusted, p :: untrusted, s')
      else
        let (trusted, untrusted, s') := splitInfos now (s.readmit p.address) peers
        (p :: trusted, untrusted, s')

/-- The comparison of `sortLoad`. -/
def lessLoad (eqFold : Str → Str → Bool) (self : Locality) (s : Scheduler) (load : Str → Load τ)
    (p q : PeerInfo) : Bool :=
  let dp := distance eqFold self (.ofProto p)
  let dq := distance eqFold self (.ofProto q)
  if dp ≠ dq then decide (dp < dq)
  else if (s.stats p.address).inflight ≠ (s.stats q.address).inflight then
    decide ((s.stats p.address).inflight < (s.stats q.address).inflight)
  else if (load p.address).throughput ≠ (load q.address).throughput then
    decide ((load p.address).throughput > (load q.address).throughput)
  else if (load p.address).rtt ≠ (load q.address).rtt then
    decide ((load p.address).rtt < (load q.address).rtt)
  else decide (p.nodeID < q.nodeID)

/-- `sortLoad`, a stable sort. -/
def sortLoad (eqFold : Str → Str → Bool) (self : Locality) (s : Scheduler) (load : Str → Load τ)
    (peers : List PeerInfo) : List PeerInfo :=
  peers.insertionSort fun p q => !lessLoad eqFold self s load q p

/-- `RankPeers`. -/
def rankPeerInfos (eqFold : Str → Str → Bool) (self : Locality) (s : Scheduler)
    (load : Str → Load τ) (now : Time) (peers : List (Option PeerInfo)) :
    List PeerInfo × Scheduler :=
  let (trusted, untrusted, s') := splitInfos now s peers
  let pool := if trusted = [] then untrusted else trusted
  (sortLoad eqFold self s' load pool, s')

/-- `sortByAssigned`, with the counter of each address. -/
def sortByAssigned (assigned : Str → Int) (peers : List PeerInfo) : List PeerInfo :=
  if peers.length < 2 then peers
  else insertionLoop (fun p => assigned p.address) peers

end RankPeers

/-! ## Who is let through -/

section Split

variable {s s' : Scheduler} {now : Time} {addr peer : Str}

/-- What the loop may do to the scheduler: end marks that have run out. -/
structure Reset (now : Time) (s s' : Scheduler) : Prop where
  untrusted : ∀ addr, s'.isUntrusted now addr = s.isUntrusted now addr
  inflight : ∀ addr, (s'.stats addr).inflight = (s.stats addr).inflight

theorem Reset.trans {s'' : Scheduler} (h : Reset now s s') (h' : Reset now s' s'') :
    Reset now s s'' :=
  ⟨fun addr => (h'.untrusted addr).trans (h.untrusted addr),
    fun addr => (h'.inflight addr).trans (h.inflight addr)⟩

theorem reset_readmit (h : s.isUntrusted now addr = false) : Reset now s (s.readmit addr) := by
  constructor
  · intro peer
    by_cases hpeer : peer = addr
    · subst hpeer
      rw [h]
      cases hmark : (s.stats peer).untrustedAt with
      | none | some since => simp [Scheduler.isUntrusted, Scheduler.readmit, hmark]
    · rw [Scheduler.isUntrusted, Scheduler.readmit, Scheduler.set_stats_of_ne s _ hpeer]
      rfl
  · intro peer
    by_cases hpeer : peer = addr
    · subst hpeer
      rw [Scheduler.readmit, Scheduler.set_stats_self]
      split <;> rfl
    · rw [Scheduler.readmit, Scheduler.set_stats_of_ne s _ hpeer]

/-- The peers with an address. -/
def reachable (peers : List (Option PeerInfo)) : List PeerInfo :=
  (peers.filterMap id).filter (·.address ≠ [])

theorem splitInfos_spec (now : Time) (s : Scheduler) (peers : List (Option PeerInfo)) :
    (splitInfos now s peers).1 =
        (reachable peers).filter (fun p => !s.isUntrusted now p.address) ∧
      (splitInfos now s peers).2.1 =
        (reachable peers).filter (fun p => s.isUntrusted now p.address) ∧
      Reset now s (splitInfos now s peers).2.2 := by
  induction peers generalizing s with
  | nil => exact ⟨rfl, rfl, fun _ => rfl, fun _ => rfl⟩
  | cons peer peers ih =>
      cases peer with
      | none => exact ih s
      | some p =>
          rw [splitInfos]
          by_cases haddr : p.address = []
          · rw [if_pos haddr]
            simpa [reachable, haddr] using ih s
          · rw [if_neg haddr]
            have hcons : reachable (some p :: peers) = p :: reachable peers := by
              simp [reachable, haddr]
            rw [hcons]
            cases huntrusted : s.isUntrusted now p.address with
            | true =>
                obtain ⟨htrusted, hrest, hreset⟩ := ih s
                simp only [if_true, List.filter_cons, huntrusted, Bool.not_true,
                  Bool.false_eq_true, if_false]
                exact ⟨htrusted, by rw [hrest], hreset⟩
            | false =>
                have hset := reset_readmit huntrusted
                obtain ⟨htrusted, hrest, hreset⟩ := ih (s.readmit p.address)
                simp only [hset.untrusted] at htrusted hrest
                simp only [Bool.false_eq_true, if_false, List.filter_cons, huntrusted,
                  Bool.not_false, if_true]
                exact ⟨by rw [htrusted], hrest, hset.trans hreset⟩

end Split

/-! ## The order -/

section Order

variable {τ : Type} [LinearOrder τ] (eqFold : Str → Str → Bool) (self : Locality) (s : Scheduler)
  (load : Str → Load τ)

/-- What `sortLoad` compares, in order: distance, transfers in flight, throughput (more is
better), latency, node id. -/
def loadKey (p : PeerInfo) : Nat ×ₗ Nat ×ₗ τᵒᵈ ×ₗ Int ×ₗ List Nat :=
  toLex (distance eqFold self (.ofProto p), toLex ((s.stats p.address).inflight,
    toLex (OrderDual.toDual (load p.address).throughput,
      toLex ((load p.address).rtt, p.nodeID.map UInt8.toNat))))

/-- Node ids are compared byte by byte. -/
theorem map_toNat_lt (a b : Str) : a.map UInt8.toNat < b.map UInt8.toNat ↔ a < b := by
  induction a generalizing b with
  | nil => cases b <;> simp
  | cons x a ih =>
      cases b with
      | nil => simp
      | cons y b =>
          rw [List.map_cons, List.map_cons, List.cons_lt_cons_iff, List.cons_lt_cons_iff, ih,
            ← UInt8.lt_iff_toNat_lt, UInt8.toNat_inj]

/-- One field of the comparison. -/
theorem compareField_iff {α : Type} [DecidableEq α] (a b : α) {rest : Bool} {P : Prop}
    (less : Prop) [Decidable less] (hirrefl : a = b → ¬ less) (hrest : rest = true ↔ P) :
    (if a ≠ b then decide less else rest) = true ↔ less ∨ a = b ∧ P := by
  by_cases hab : a = b
  · simp [hab, hirrefl hab, hrest]
  · simp [hab]

theorem lessLoad_iff (p q : PeerInfo) :
    lessLoad eqFold self s load p q = true ↔
      loadKey eqFold self s load p < loadKey eqFold self s load q := by
  have hid : decide (p.nodeID < q.nodeID) = true ↔
      p.nodeID.map UInt8.toNat < q.nodeID.map UInt8.toNat := by
    rw [decide_eq_true_iff, map_toNat_lt]
  have hrtt := compareField_iff (load p.address).rtt (load q.address).rtt
    ((load p.address).rtt < (load q.address).rtt) (fun heq => not_lt_of_ge heq.ge) hid
  have hthroughput := compareField_iff (load p.address).throughput (load q.address).throughput
    ((load p.address).throughput > (load q.address).throughput)
    (fun heq => not_lt_of_ge heq.le) hrtt
  have hinflight := compareField_iff (s.stats p.address).inflight (s.stats q.address).inflight
    ((s.stats p.address).inflight < (s.stats q.address).inflight)
    (fun heq => not_lt_of_ge heq.ge) hthroughput
  have hdistance := compareField_iff (distance eqFold self (.ofProto p))
    (distance eqFold self (.ofProto q))
    (distance eqFold self (.ofProto p) < distance eqFold self (.ofProto q))
    (fun heq => not_lt_of_ge heq.ge) hinflight
  rw [lessLoad, hdistance]
  simp only [loadKey, Prod.Lex.toLex_lt_toLex, OrderDual.toDual_lt_toDual, OrderDual.toDual_inj,
    gt_iff_lt]

theorem sortsStably_sortLoad (peers : List PeerInfo) :
    SortsStably (loadKey eqFold self s load) peers (sortLoad eqFold self s load peers) := by
  refine sortsStably_insertionSort (fun p q => ?_) peers
  rw [Bool.not_eq_true', ← Bool.not_eq_true, lessLoad_iff, not_lt]

theorem sortsStably_sortByAssigned (assigned : Str → Int) (peers : List PeerInfo) :
    SortsStably (fun p => assigned p.address) peers (sortByAssigned assigned peers) := by
  rw [sortByAssigned]
  split
  · rename_i hshort
    have hloop : insertionLoop (fun p : PeerInfo => assigned p.address) peers = peers := by
      match peers, hshort with
      | [], _ => rfl
      | [p], _ => rfl
    have hsorted : SortsStably (fun p => assigned p.address) peers _ :=
      sortsStably_insertionLoop peers
    rwa [hloop] at hsorted
  · exact sortsStably_insertionLoop peers

omit [LinearOrder τ] in
/-- Of the scheduler the key reads the transfers in flight. -/
theorem loadKey_reset {s s' : Scheduler} {now : Time} (h : Reset now s s') (p : PeerInfo) :
    loadKey eqFold self s' load p = loadKey eqFold self s load p := by
  rw [loadKey, loadKey, h.inflight]

end Order

/-- The peers that are tried: those with an address that are not in their untrusted
period, or, if there is none, those that are. -/
def candidatePool (s : Scheduler) (now : Time) (peers : List (Option PeerInfo)) : List PeerInfo :=
  let trusted := (reachable peers).filter fun p => !s.isUntrusted now p.address
  if trusted = [] then (reachable peers).filter fun p => s.isUntrusted now p.address else trusted

/-- **Candidates.**  `RankPeers` followed by `sortByAssigned` sorts the candidates by
assigned count, distance, transfers in flight, throughput, latency and node id, in this
order, and keeps the order of the input where all of them are equal. -/
theorem candidates_sorted {τ : Type} [LinearOrder τ] (eqFold : Str → Str → Bool) (self : Locality)
    (s : Scheduler) (load : Str → Load τ) (now : Time) (assigned : Str → Int)
    (peers : List (Option PeerInfo)) :
    SortsStably (fun p => toLex (assigned p.address, loadKey eqFold self s load p))
      (candidatePool s now peers)
      (sortByAssigned assigned (rankPeerInfos eqFold self s load now peers).1) := by
  obtain ⟨htrusted, huntrusted, hreset⟩ := splitInfos_spec now s peers
  have hpool : (rankPeerInfos eqFold self s load now peers).1 =
      sortLoad eqFold self (splitInfos now s peers).2.2 load (candidatePool s now peers) := by
    simp only [rankPeerInfos, candidatePool, htrusted, huntrusted]
  have hranked := sortsStably_sortLoad eqFold self (splitInfos now s peers).2.2 load
    (candidatePool s now peers)
  simp only [funext (loadKey_reset eqFold self load hreset)] at hranked
  rw [hpool]
  exact hranked.comp (sortsStably_sortByAssigned assigned _)

end Spider

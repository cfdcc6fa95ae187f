import Spider.Tracker.Store

/-!
# Spider.Tracker.History

Runs of the tracker.  A run is the list of the requests the registry has
carried out, newest first, each with its time.

* `TrackerStore`: a store, seen through two relations: who is registered, and
  who is recorded for a row (as a seed of an artifact or holder of a chunk).
  Its laws say what each method does to them.
* `Reported`: what a history says about a row, without looking at a store: the
  node has reported the row after its last removal.
* `located_run`: in every store with these laws, after every history, a node
  is recorded for a row just if the history says so.
-/

namespace Spider

open Conc

/-! ## Requests -/

/-- The calls on a registry that change its store. -/
inductive Request where
  | registerPeer (peer : Option PeerInfo)
  | heartbeat (nodeID : Str)
  | reportChunks (nodeID : Str) (chunkHashes : List Str)
  | reportArtifact (nodeID artifactID : Str)
  | deregisterPeer (nodeID : Str)
  | pruneDeadPeers

/-- A call, its result dropped. -/
def Request.prog (r : Registry) : Request → TrackerM Unit
  | .registerPeer peer => Tracker.registerPeer peer
  | .heartbeat nodeID => do let _ ← Tracker.heartbeat nodeID
  | .reportChunks nodeID chunkHashes => do let _ ← Tracker.reportChunks nodeID chunkHashes
  | .reportArtifact nodeID artifactID => Tracker.reportArtifact nodeID artifactID
  | .deregisterPeer nodeID => Tracker.deregisterPeer nodeID
  | .pruneDeadPeers => do let _ ← Tracker.pruneDeadPeers r

/-- The peer `RegisterPeer` hands to the store. -/
def registeredPeer (info : PeerInfo) (now : Time) : Peer :=
  { Peer.ofProto info now with lastHeartbeat := now }

/-- The one store call of a request; a registration without node id makes none. -/
def Request.call (r : Registry) (now : Time) : Request → Option StoreCall
  | .registerPeer none => none
  | .registerPeer (some info) =>
      if info.nodeID = [] then none else some (.upsertPeer (registeredPeer info now))
  | .heartbeat nodeID => some (.heartbeat nodeID)
  | .reportChunks nodeID chunkHashes => some (.reportChunks nodeID chunkHashes)
  | .reportArtifact nodeID artifactID => some (.reportSeed artifactID nodeID)
  | .deregisterPeer nodeID => some (.deregisterPeer nodeID)
  | .pruneDeadPeers => some (.pruneExpiredPeers r.peerExpiry)

/-- A reading of the clock of a process: an `int64` of nanoseconds that starts
at 0. -/
abbrev Instant := { t : Int // 0 ≤ t ∧ t < 2 ^ 63 }

/-- Times of one process are never too far apart for a `time.Duration`. -/
theorem durationSub_instant (t t0 : Instant) : durationSub t.1 t0.1 = t.1 - t0.1 := by
  have hlow : -2 ^ 63 ≤ t.1 - t0.1 := by omega
  have hhigh : t.1 - t0.1 ≤ 2 ^ 63 - 1 := by omega
  rw [durationSub, min_eq_right hhigh, max_eq_right hlow]

/-- A request and the time it was carried out. -/
structure Event where
  time : Instant
  request : Request

/-- The state of a store after a history, newest event first. -/
def runHistory {σ : Type} (exec : StoreImpl σ) (init : σ) (r : Registry) : List Event → σ
  | [] => init
  | e :: past =>
      ((e.request.prog r).eval (exec.handler e.time) (runHistory exec init r past)).2

/-- A request does what its store call does. -/
theorem eval_prog {σ : Type} (exec : StoreImpl σ) (r : Registry) (q : Request) (t : Time) (s : σ) :
    ((q.prog r).eval (exec.handler t) s).2 =
      match q.call r t with
      | none => s
      | some c => (exec t c s).2 := by
  cases q with
  | registerPeer peer =>
      cases peer with
      | none => rfl
      | some info =>
          by_cases hid : info.nodeID = []
          · simp [Request.prog, Tracker.registerPeer, Request.call, hid]
          · simp [Request.prog, Tracker.registerPeer, Request.call, hid]
            rfl
  | heartbeat nodeID | reportChunks nodeID chunkHashes | reportArtifact nodeID artifactID
  | deregisterPeer nodeID | pruneDeadPeers => rfl

/-! ## What a store records -/

/-- The call registers node `p`. -/
def StoreCall.registers (p : Str) : StoreCall → Prop
  | .upsertPeer peer => p = peer.nodeID ∧ p ≠ []
  | _ => False

/-- The call records node `p` for a row. -/
def StoreCall.reports (row : Row) (p : Str) : StoreCall → Prop
  | .reportSeed artifactID nodeID => p = nodeID ∧ row = .seed artifactID
  | .reportChunks nodeID hashes => p = nodeID ∧ ∃ h ∈ hashes, h ≠ [] ∧ row = .chunk h
  | _ => False

/-- The call removes node `p`: its deregistration, or a prune that finds it
expired. -/
def StoreCall.removes (expired : Time → Prop) (p : Str) : StoreCall → Prop
  | .deregisterPeer nodeID => p = nodeID
  | .pruneExpiredPeers expiry => expired expiry
  | _ => False

/-- A store whose methods keep the set of registered nodes and the nodes
recorded for each row. -/
structure TrackerStore (σ : Type) where
  exec : StoreImpl σ
  init : σ
  registered : σ → Str → Prop
  located : σ → Row → Str → Prop
  /-- a prune at this time with this expiry removes the node -/
  expired : Time → Time → σ → Str → Prop
  registered_of_expired : ∀ {now expiry s p}, expired now expiry s p → registered s p
  not_registered_init : ∀ p, ¬ registered init p
  not_located_init : ∀ row p, ¬ located init row p
  registered_exec : ∀ now c s p, registered (exec now c s).2 p ↔
    c.registers p ∨ registered s p ∧ ¬ c.removes (expired now · s p) p
  located_exec : ∀ now c s row p, located (exec now c s).2 row p ↔
    c.reports row p ∨ located s row p ∧ ¬ c.removes (expired now · s p) p

/-! ## What a history says -/

/-- The request of a node for a row. -/
def Request.reports (row : Row) (p : Str) : Request → Prop
  | .reportArtifact nodeID artifactID => p = nodeID ∧ row = .seed artifactID
  | .reportChunks nodeID chunkHashes => p = nodeID ∧ ∃ h ∈ chunkHashes, h ≠ [] ∧ row = .chunk h
  | _ => False

/-- The event removes node `p`: its deregistration, or a prune after which it is
no longer registered.  `registered` tells this of a history. -/
def RemovedBy (registered : List Event → Prop) (p : Str) (e : Event) (past : List Event) : Prop :=
  e.request = .deregisterPeer p ∨
    e.request = .pruneDeadPeers ∧ registered past ∧ ¬ registered (e :: past)

/-- Node `p` has reported the row after its last removal. -/
def Reported (registered : List Event → Prop) (row : Row) (p : Str) : List Event → Prop
  | [] => False
  | e :: past => e.request.reports row p ∨
      Reported registered row p past ∧ ¬ RemovedBy registered p e past

/-! ## Stores follow their history -/

section Run

variable {σ : Type} (S : TrackerStore σ) (r : Registry)

/-- The store after a history. -/
def TrackerStore.run : List Event → σ := runHistory S.exec S.init r

variable {S r}
variable {e : Event} {past : List Event} {p : Str} {row : Row}

theorem TrackerStore.run_cons : S.run r (e :: past) =
    match e.request.call r e.time with
    | none => S.run r past
    | some c => (S.exec e.time c (S.run r past)).2 :=
  eval_prog S.exec r e.request e.time (S.run r past)

/-- The removals of a store are those of the history. -/
theorem removedBy_iff :
    RemovedBy (fun h => S.registered (S.run r h) p) p e past ↔
      ∃ c, e.request.call r e.time = some c ∧
        c.removes (S.expired e.time · (S.run r past) p) p := by
  obtain ⟨t, q⟩ := e
  have hrun : S.run r (⟨t, q⟩ :: past) = _ := TrackerStore.run_cons
  cases q with
  | registerPeer peer =>
      cases peer with
      | none => simp [RemovedBy, Request.call]
      | some info => simp [RemovedBy, Request.call, StoreCall.removes]
  | heartbeat nodeID | reportChunks nodeID chunkHashes | reportArtifact nodeID artifactID =>
      simp [RemovedBy, Request.call, StoreCall.removes]
  | deregisterPeer nodeID =>
      simp only [RemovedBy, Request.call, StoreCall.removes, Option.some.injEq, exists_eq_left']
      simp [eq_comm]
  | pruneDeadPeers =>
      simp only [Request.call] at hrun
      have hafter := S.registered_exec t (.pruneExpiredPeers r.peerExpiry) (S.run r past) p
      rw [← hrun] at hafter
      simp only [RemovedBy, Request.call, Option.some.injEq, exists_eq_left', hafter]
      simp only [StoreCall.registers, StoreCall.removes, false_or, reduceCtorEq, true_and]
      constructor
      · intro ⟨hbefore, hgone⟩
        by_contra hkept
        exact hgone ⟨hbefore, hkept⟩
      · intro hexp
        exact ⟨S.registered_of_expired hexp, fun h => h.2 hexp⟩

theorem reports_iff_call {t : Time} {q : Request} :
    q.reports row p ↔ ∃ c, q.call r t = some c ∧ c.reports row p := by
  cases q with
  | registerPeer peer =>
      cases peer with
      | none => simp [Request.reports, Request.call]
      | some info => simp [Request.reports, Request.call, StoreCall.reports]
  | heartbeat nodeID | reportChunks nodeID chunkHashes | reportArtifact nodeID artifactID
  | deregisterPeer nodeID | pruneDeadPeers =>
      simp [Request.reports, Request.call, StoreCall.reports]

/-- One event, and the rows of a node. -/
theorem located_run_cons :
    S.located (S.run r (e :: past)) row p ↔
      e.request.reports row p ∨ S.located (S.run r past) row p ∧
        ¬ RemovedBy (fun h => S.registered (S.run r h) p) p e past := by
  rw [removedBy_iff, reports_iff_call (r := r) (t := e.time.1), TrackerStore.run_cons]
  cases e.request.call r e.time with
  | none => simp
  | some c => simpa using S.located_exec e.time c (S.run r past) row p

/-- After every history, a node is recorded for a row just if it has reported it
after its last removal. -/
theorem located_run (history : List Event) :
    S.located (S.run r history) row p ↔
      Reported (fun h => S.registered (S.run r h) p) row p history := by
  induction history with
  | nil => exact iff_of_false (S.not_located_init row p) id
  | cons e past ih => rw [located_run_cons, Reported, ih]

end Run

/-! ## The memory store -/

/-- The memory store records nodes as a store of the tracker does. -/
def memoryStore (g : Ranging) : TrackerStore Memory where
  exec := Memory.exec g
  init := .new
  registered m p := p ∈ m.peers
  located m row p := p ∈ m.nodes row
  expired now expiry m p := m.Expired now expiry p
  registered_of_expired := fun ⟨peer, hpeer, _⟩ => Memory.mem_peers_iff.mpr ⟨peer, hpeer⟩
  not_registered_init p := by simp [Memory.new]
  not_located_init row p := by cases row <;> simp [Memory.new, Memory.nodes]
  registered_exec now c m p := by
    simp only [← AList.lookup_isSome]
    cases c with
    | upsertPeer peer =>
        simp only [Memory.exec, Memory.lookup_upsertPeer, StoreCall.registers, StoreCall.removes]
        by_cases hp : p = peer.nodeID ∧ p ≠ []
        · exact iff_of_true (by rw [if_pos hp]; rfl) (.inl hp)
        · rw [if_neg hp]
          tauto
    | heartbeat nodeID =>
        simp only [Memory.exec, Memory.heartbeat_snd, Memory.lookup_touch]
        split <;> simp [StoreCall.registers, StoreCall.removes]
    | deregisterPeer nodeID =>
        simp only [Memory.exec, Memory.deregisterPeer, Memory.lookup_remove]
        split <;> simp_all [StoreCall.registers, StoreCall.removes]
    | pruneExpiredPeers expiry =>
        simp only [Memory.exec, Memory.lookup_pruneExpiredPeers, StoreCall.registers,
          StoreCall.removes, Memory.Expired]
        cases m.peers.lookup p <;> simp [Option.filter]
    | reportChunks nodeID hashes =>
        simp only [Memory.exec, Memory.lookup_reportChunks, Memory.lookup_touch]
        split <;> simp [StoreCall.registers, StoreCall.removes]
    | _ => simp [Memory.exec, Memory.putArtifact, StoreCall.registers, StoreCall.removes]
  located_exec now c m row p := by
    cases c with
    | upsertPeer peer => simp [Memory.exec, StoreCall.reports, StoreCall.removes]
    | heartbeat nodeID =>
        simp [Memory.exec, Memory.heartbeat_snd, StoreCall.reports, StoreCall.removes]
    | deregisterPeer nodeID =>
        simp [Memory.exec, Memory.deregisterPeer, Memory.mem_nodes_remove, StoreCall.reports,
          StoreCall.removes]
    | pruneExpiredPeers expiry =>
        simp [Memory.exec, Memory.pruneExpiredPeers, Memory.mem_nodes_foldl_remove,
          Memory.mem_dead, StoreCall.reports, StoreCall.removes]
    | putArtifact rec =>
        cases row <;>
          simp [Memory.exec, Memory.putArtifact, Memory.nodes, StoreCall.reports, StoreCall.removes]
    | reportSeed artifactID nodeID =>
        simp [Memory.exec, Memory.mem_nodes_reportSeed, StoreCall.reports, StoreCall.removes]
    | reportChunks nodeID hashes =>
        simp [Memory.exec, Memory.mem_nodes_reportChunks, StoreCall.reports, StoreCall.removes]
    | _ => simp [Memory.exec, StoreCall.reports, StoreCall.removes]

end Spider

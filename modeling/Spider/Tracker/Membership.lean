import Spider.Tracker.Server

/-!
# Spider.Tracker.Membership

The membership loop of a daemon (`cmd/spiderd/main.go`) and the tracker, as two
processes that exchange messages.  The daemon registers once, then sends a
heartbeat at every tick of its timer until it is stopped and deregisters.
Messages are delayed and lost; the daemon waits for a reply or gives up.  The
tracker prunes at any time.

A heartbeat does not register: the tracker says so in its reply
(`Acknowledged`), but the loop drops the reply.  A node that is not registered
when its heartbeats start, or that has been pruned, stays unregistered
(`heartbeating_unregistered`).
-/

namespace Spider

open Conc

/-! ## The two processes -/

/-- The calls of the membership loop. -/
inductive MemberCall where
  | registerPeer
  | heartbeat
  | deregisterPeer
  deriving DecidableEq

inductive MemberReply where
  | registerPeer (resp : RegisterPeerResponse)
  | heartbeat (acknowledged : Bool)
  | deregisterPeer (success : Bool)
  deriving DecidableEq

/-- Where the goroutine of the loop stands: before its first call, in a call, in
the `select`, or at its end. -/
inductive Daemon where
  | starting
  | waiting (call : MemberCall) (id : Nat)
  | selecting
  | stopped
  deriving DecidableEq

/-- The daemon may make this call next. -/
def Daemon.calls : Daemon → MemberCall → Bool
  | .starting, .registerPeer => true
  | .selecting, .heartbeat => true
  | .selecting, .deregisterPeer => true
  | _, _ => false

/-- Where the loop goes on after a call, whatever came of it. -/
def MemberCall.next : MemberCall → Daemon
  | .registerPeer => .selecting
  | .heartbeat => .selecting
  | .deregisterPeer => .stopped

/-- A call that has ended, with its reply or without one. -/
structure Exchange where
  call : MemberCall
  id : Nat
  reply : Option MemberReply
  deriving DecidableEq

/-- What the tracker has done about the daemon's node. -/
inductive TrackerAction where
  | processed (id : Nat)
  | removed
  deriving DecidableEq

/-- The daemon, the tracker, and the messages between them.  `last` and `log` only
record what has happened. -/
structure Membership where
  clock : Time
  daemon : Daemon
  calls : Nat
  requests : List (Nat × MemberCall)
  replies : List (Nat × MemberReply)
  tracker : Memory
  last : Option Exchange
  log : List TrackerAction

/-- A daemon about to start and a tracker in some state. -/
def Membership.start (clock : Time) (tracker : Memory) : Membership :=
  ⟨clock, .starting, 0, [], [], tracker, none, []⟩

inductive MemberEvent where
  | wait (d : Nat)
  | send (call : MemberCall)
  | process (id : Nat) (call : MemberCall)
  | loseRequest (id : Nat) (call : MemberCall)
  | loseReply (id : Nat) (reply : MemberReply)
  | receive (reply : MemberReply)
  | giveUp
  | prune
  | other (q : Request)

/-- The tracker carries out a call of the daemon. -/
def serve (info : PeerInfo) (now : Time) (m : Memory) : MemberCall → MemberReply × Memory
  | .registerPeer =>
      let served := (Server.registerPeer (some info)).eval ((Memory.exec .plain).handler now) m
      (.registerPeer served.1, served.2)
  | .heartbeat =>
      let served := (Server.heartbeat info.nodeID).eval ((Memory.exec .plain).handler now) m
      (.heartbeat served.1, served.2)
  | .deregisterPeer =>
      let served := (Server.deregisterPeer info.nodeID).eval ((Memory.exec .plain).handler now) m
      (.deregisterPeer served.1, served.2)

/-- A request of another client: it neither prunes nor deregisters the node. -/
def Request.isForeign (node : Str) : Request → Bool
  | .deregisterPeer nodeID => decide (nodeID ≠ node)
  | .pruneDeadPeers => false
  | _ => true

/-- The tracker's store changes; the loss of the node's registration is noted. -/
def Membership.store (s : Membership) (node : Str) (m : Memory) : Membership :=
  { s with
    tracker := m
    log := if (s.tracker.peers.lookup node).isSome && (m.peers.lookup node).isNone then
      .removed :: s.log else s.log }

/-- The state after an event; `none` if it cannot happen. -/
def Membership.step (r : Registry) (info : PeerInfo) (s : Membership) :
    MemberEvent → Option Membership
  | .wait d => some { s with clock := s.clock + d }
  | .send call =>
      if s.daemon.calls call then
        some { s with
          daemon := .waiting call s.calls
          calls := s.calls + 1
          requests := (s.calls, call) :: s.requests }
      else none
  | .process id call =>
      if (id, call) ∈ s.requests then
        let served := serve info s.clock s.tracker call
        let s := s.store info.nodeID served.2
        some { s with
          requests := s.requests.erase (id, call)
          replies := (id, served.1) :: s.replies
          log := .processed id :: s.log }
      else none
  | .loseRequest id call => some { s with requests := s.requests.erase (id, call) }
  | .loseReply id reply => some { s with replies := s.replies.erase (id, reply) }
  | .receive reply =>
      match s.daemon with
      | .waiting call id =>
          if (id, reply) ∈ s.replies then
            some { s with
              daemon := call.next
              replies := s.replies.erase (id, reply)
              last := some ⟨call, id, some reply⟩ }
          else none
      | _ => none
  | .giveUp =>
      match s.daemon with
      | .waiting call id => some { s with daemon := call.next, last := some ⟨call, id, none⟩ }
      | _ => none
  | .prune =>
      some (s.store info.nodeID
        ((Tracker.pruneDeadPeers r).eval ((Memory.exec .plain).handler s.clock) s.tracker).2)
  | .other q =>
      if q.isForeign info.nodeID then
        some (s.store info.nodeID
          ((q.prog r).eval ((Memory.exec .plain).handler s.clock) s.tracker).2)
      else none

/-- Since the tracker processed the call, it has not removed the node. -/
def KeptSince (id : Nat) (log : List TrackerAction) : Prop :=
  ∃ newer older, log = newer ++ .processed id :: older ∧ .removed ∉ newer

/-- If the last thing the daemon did was a heartbeat that the tracker processed and
whose reply it has received, and the node was not removed since, the node is
registered. -/
def HeartbeatingRegistered (node : Str) (s : Membership) : Prop :=
  ∀ id reply, s.daemon = .selecting → s.last = some ⟨.heartbeat, id, some reply⟩ →
    KeptSince id s.log → node ∈ s.tracker.peers

/-! ## Runs without an expiry -/

/-- The daemon does not go on before the tracker has processed its registration,
and a prune finds the node within the expiry, if it is there. -/
def Steady (r : Registry) (node : Str) (s : Membership) : MemberEvent → Prop
  | .giveUp => ∀ id, s.daemon = .waiting .registerPeer id → .processed id ∈ s.log
  | .prune => ¬ s.tracker.Expired s.clock r.peerExpiry node
  | _ => True

/-- One event of a steady run. -/
def SteadyStep (r : Registry) (info : PeerInfo) (s s' : Membership) : Prop :=
  ∃ e, Steady r info.nodeID s e ∧ s.step r info e = some s'

/-- What a steady run keeps, by where the daemon stands: no registration is lost
between its first call and its last. -/
def EnrolledAt (node : Str) (s : Membership) : Daemon → Prop
  | .starting => s.requests = [] ∧ s.replies = [] ∧ ∀ id, .processed id ∉ s.log
  | .waiting .registerPeer _ =>
      (∀ q ∈ s.requests, q.2 = .registerPeer) ∧ (∀ q ∈ s.replies, .processed q.1 ∈ s.log) ∧
        ((∃ id, .processed id ∈ s.log) → node ∈ s.tracker.peers)
  | .waiting .heartbeat _ => (∀ q ∈ s.requests, q.2 ≠ .deregisterPeer) ∧ node ∈ s.tracker.peers
  | .selecting => (∀ q ∈ s.requests, q.2 ≠ .deregisterPeer) ∧ node ∈ s.tracker.peers
  | .waiting .deregisterPeer _ => True
  | .stopped => True

def Enrolled (node : Str) (s : Membership) : Prop := EnrolledAt node s s.daemon

section Enrolled

variable {r : Registry} {info : PeerInfo} {node : Str} {s s' : Membership} {m : Memory}

theorem processed_store {id : Nat} : .processed id ∈ (s.store node m).log ↔ .processed id ∈ s.log := by
  unfold Membership.store
  split <;> simp

/-- Messages get lost, and the tracker keeps the registration. -/
theorem EnrolledAt.of_kept {d : Daemon} (h : EnrolledAt node s d)
    (hreq : ∀ q ∈ s'.requests, q ∈ s.requests) (hrep : ∀ q ∈ s'.replies, q ∈ s.replies)
    (hlog : ∀ id, .processed id ∈ s'.log ↔ .processed id ∈ s.log)
    (hkeep : node ∈ s.tracker.peers → node ∈ s'.tracker.peers) : EnrolledAt node s' d := by
  cases d with
  | starting =>
      obtain ⟨hreqs, hreps, hnew⟩ := h
      rw [hreqs] at hreq
      rw [hreps] at hrep
      exact ⟨List.eq_nil_iff_forall_not_mem.mpr fun q hq => List.not_mem_nil (hreq q hq),
        List.eq_nil_iff_forall_not_mem.mpr fun q hq => List.not_mem_nil (hrep q hq),
        fun id hid => hnew id ((hlog id).mp hid)⟩
  | waiting call id =>
      cases call with
      | registerPeer =>
          obtain ⟨hreqs, hreps, hreg⟩ := h
          refine ⟨fun q hq => hreqs q (hreq q hq), fun q hq => ?_, fun ⟨id, hid⟩ => ?_⟩
          · exact (hlog _).mpr (hreps q (hrep q hq))
          · exact hkeep (hreg ⟨id, (hlog id).mp hid⟩)
      | heartbeat => exact ⟨fun q hq => h.1 q (hreq q hq), hkeep h.2⟩
      | deregisterPeer => trivial
  | selecting => exact ⟨fun q hq => h.1 q (hreq q hq), hkeep h.2⟩
  | stopped => trivial

variable {now : Time} {call : MemberCall}

/-- A registration registers. -/
theorem mem_serve_registerPeer (hid : info.nodeID ≠ []) :
    info.nodeID ∈ (serve info now m .registerPeer).2.peers := by
  have hserved : (serve info now m .registerPeer).2 =
      (Memory.exec .plain now (.upsertPeer (registeredPeer info now)) m).2 := by
    simp only [serve, Server.registerPeer, Tracker.registerPeer, if_neg hid]
    rfl
  rw [hserved]
  exact ((memoryStore .plain).registered_exec now _ m _).mpr (.inl ⟨rfl, hid⟩)

/-- A heartbeat keeps the registration. -/
theorem mem_serve_heartbeat (h : info.nodeID ∈ m.peers) :
    info.nodeID ∈ (serve info now m .heartbeat).2.peers :=
  ((memoryStore .plain).registered_exec now (.heartbeat info.nodeID) m _).mpr (.inr ⟨h, not_false⟩)

/-- A prune keeps the registration of a node within the expiry. -/
theorem mem_pruneDeadPeers (hfresh : ¬ m.Expired now r.peerExpiry node) (h : node ∈ m.peers) :
    node ∈ ((Tracker.pruneDeadPeers r).eval ((Memory.exec .plain).handler now) m).2.peers :=
  ((memoryStore .plain).registered_exec now (.pruneExpiredPeers r.peerExpiry) m _).mpr
    (.inr ⟨h, hfresh⟩)

/-- So do the requests of other clients. -/
theorem mem_foreign {q : Request} (hq : q.isForeign node = true) (h : node ∈ m.peers) :
    node ∈ ((q.prog r).eval ((Memory.exec .plain).handler now) m).2.peers := by
  rw [eval_prog]
  cases hcall : q.call r now with
  | none => exact h
  | some c =>
      refine ((memoryStore .plain).registered_exec now c m node).mpr (.inr ⟨h, fun hrem => ?_⟩)
      cases q with
      | registerPeer peer =>
          cases peer with
          | none => contradiction
          | some info =>
              rw [Request.call] at hcall
              obtain ⟨-, ⟨⟩⟩ := Option.ite_none_left_eq_some.mp hcall
              exact hrem
      | deregisterPeer nodeID =>
          cases hcall
          have hne : nodeID ≠ node := by simpa [Request.isForeign] using hq
          exact hne hrem.symm
      | pruneDeadPeers => contradiction
      | heartbeat nodeID | reportChunks nodeID chunkHashes | reportArtifact nodeID artifactID =>
          cases hcall; exact hrem

/-- A call carried out by the tracker, other than a deregistration. -/
theorem mem_serve (hid : info.nodeID ≠ []) (hcall : call ≠ .deregisterPeer)
    (h : info.nodeID ∈ m.peers) : info.nodeID ∈ (serve info now m call).2.peers := by
  cases call with
  | registerPeer => exact mem_serve_registerPeer hid
  | heartbeat => exact mem_serve_heartbeat h
  | deregisterPeer => contradiction

/-- The tracker carries out a call of the daemon. -/
theorem Enrolled.process {id : Nat} (hid : info.nodeID ≠ []) (h : Enrolled info.nodeID s)
    (hreq : (id, call) ∈ s.requests) :
    Enrolled info.nodeID
      { s.store info.nodeID (serve info s.clock s.tracker call).2 with
        requests := s.requests.erase (id, call)
        replies := (id, (serve info s.clock s.tracker call).1) :: s.replies
        log := .processed id :: (s.store info.nodeID (serve info s.clock s.tracker call).2).log } := by
  unfold Enrolled at h ⊢
  show EnrolledAt _ _ s.daemon
  cases hdaemon : s.daemon with
  | starting =>
      rw [hdaemon] at h
      rw [h.1] at hreq
      exact absurd hreq List.not_mem_nil
  | waiting c n =>
      rw [hdaemon] at h
      cases c with
      | registerPeer =>
          obtain ⟨hreqs, hreps, -⟩ := h
          obtain rfl : call = .registerPeer := hreqs _ hreq
          refine ⟨fun q hq => hreqs q (List.mem_of_mem_erase hq), fun q hq => ?_, fun _ => ?_⟩
          · rcases List.mem_cons.mp hq with rfl | hq
            · exact List.mem_cons_self
            · exact List.mem_cons_of_mem _ (processed_store.mpr (hreps q hq))
          · exact mem_serve_registerPeer hid
      | heartbeat =>
          exact ⟨fun q hq => h.1 q (List.mem_of_mem_erase hq), mem_serve hid (h.1 _ hreq) h.2⟩
      | deregisterPeer => trivial
  | selecting =>
      rw [hdaemon] at h
      exact ⟨fun q hq => h.1 q (List.mem_of_mem_erase hq), mem_serve hid (h.1 _ hreq) h.2⟩
  | stopped => trivial

/-- The daemon makes its next call. -/
theorem Enrolled.send (h : Enrolled node s) (hcall : s.daemon.calls call = true) :
    Enrolled node { s with
      daemon := .waiting call s.calls
      calls := s.calls + 1
      requests := (s.calls, call) :: s.requests } := by
  unfold Enrolled at h ⊢
  cases call with
  | registerPeer =>
      cases hdaemon : s.daemon with
      | starting =>
          rw [hdaemon] at h
          obtain ⟨hreqs, hreps, hnew⟩ := h
          refine ⟨fun q hq => ?_, fun q hq => ?_, fun ⟨id, hid⟩ => absurd hid (hnew id)⟩
          · rw [hreqs] at hq
            rw [List.mem_singleton.mp hq]
          · rw [hreps] at hq
            exact absurd hq List.not_mem_nil
      | _ => simp [hdaemon, Daemon.calls] at hcall
  | heartbeat =>
      cases hdaemon : s.daemon with
      | selecting =>
          rw [hdaemon] at h
          refine ⟨fun q hq => ?_, h.2⟩
          rcases List.mem_cons.mp hq with rfl | hq
          · exact fun hc => nomatch hc
          · exact h.1 q hq
      | _ => simp [hdaemon, Daemon.calls] at hcall
  | deregisterPeer => trivial

/-- The loop goes on after a call; after the registration, once the tracker has
processed it. -/
theorem Enrolled.next {id : Nat} {replies : List (Nat × MemberReply)} {last : Option Exchange}
    (h : Enrolled node s) (hdaemon : s.daemon = .waiting call id)
    (hreg : call = .registerPeer → .processed id ∈ s.log) :
    Enrolled node { s with daemon := call.next, replies := replies, last := last } := by
  unfold Enrolled at h ⊢
  rw [hdaemon] at h
  cases call with
  | registerPeer =>
      obtain ⟨hreqs, -, hmem⟩ := h
      refine ⟨fun q hq => ?_, hmem ⟨id, hreg rfl⟩⟩
      rw [hreqs q hq]
      exact fun hc => nomatch hc
  | heartbeat => exact h
  | deregisterPeer => trivial

/-- A steady step. -/
theorem Enrolled.step (hid : info.nodeID ≠ []) (h : Enrolled info.nodeID s)
    (hstep : SteadyStep r info s s') : Enrolled info.nodeID s' := by
  obtain ⟨e, hsteady, hstep⟩ := hstep
  cases e with
  | wait d =>
      cases hstep
      exact h
  | send call =>
      rw [Membership.step] at hstep
      obtain ⟨hcall, ⟨⟩⟩ := Option.ite_none_right_eq_some.mp hstep
      exact h.send hcall
  | process id call =>
      rw [Membership.step] at hstep
      obtain ⟨hreq, ⟨⟩⟩ := Option.ite_none_right_eq_some.mp hstep
      exact h.process hid hreq
  | loseRequest id call =>
      cases hstep
      exact h.of_kept (fun _ => List.mem_of_mem_erase) (fun _ hq => hq) (fun _ => Iff.rfl)
        fun hmem => hmem
  | loseReply id reply =>
      cases hstep
      exact h.of_kept (fun _ hq => hq) (fun _ => List.mem_of_mem_erase) (fun _ => Iff.rfl)
        fun hmem => hmem
  | receive reply =>
      simp only [Membership.step] at hstep
      split at hstep
      · rename_i call id hdaemon
        obtain ⟨hrep, ⟨⟩⟩ := Option.ite_none_right_eq_some.mp hstep
        refine h.next hdaemon fun hcall => ?_
        -- the reply was sent when the tracker processed the call
        rw [Enrolled, hdaemon, hcall] at h
        exact h.2.1 _ hrep
      · contradiction
  | giveUp =>
      simp only [Membership.step] at hstep
      split at hstep
      · rename_i call id hdaemon
        cases hstep
        refine h.next hdaemon fun hcall => ?_
        rw [hcall] at hdaemon
        exact hsteady id hdaemon
      · contradiction
  | prune =>
      cases hstep
      exact h.of_kept (fun _ hq => hq) (fun _ hq => hq) (fun _ => processed_store)
        (mem_pruneDeadPeers hsteady)
  | other q =>
      rw [Membership.step] at hstep
      obtain ⟨hq, ⟨⟩⟩ := Option.ite_none_right_eq_some.mp hstep
      exact h.of_kept (fun _ hq => hq) (fun _ hq => hq) (fun _ => processed_store) (mem_foreign hq)

/-- A steady run. -/
theorem Enrolled.run (hid : info.nodeID ≠ []) {clock : Time}
    (hrun : Relation.ReflTransGen (SteadyStep r info) (.start clock m) s) :
    Enrolled info.nodeID s := by
  induction hrun with
  | refl => exact ⟨rfl, rfl, fun _ => List.not_mem_nil⟩
  | tail _ hstep ih => exact ih.step hid hstep

end Enrolled

/-- In every steady run of a daemon with a node id, from every state of the tracker:
a heartbeating node is registered. -/
theorem heartbeatingRegistered_of_steady {r : Registry} {info : PeerInfo} {clock : Time}
    {m : Memory} {s : Membership} (hid : info.nodeID ≠ [])
    (hrun : Relation.ReflTransGen (SteadyStep r info) (.start clock m) s) :
    HeartbeatingRegistered info.nodeID s := by
  intro id reply hdaemon _ _
  have h := Enrolled.run hid hrun
  rw [Enrolled, hdaemon] at h
  exact h.2

/-- A heartbeat has just been answered; its node is registered or not. -/
def Membership.beats (node : Str) (registered : Bool) (s : Membership) : Bool :=
  match s.last, s.log with
  | some ⟨.heartbeat, id, some _⟩, .processed id' :: _ =>
      decide (s.daemon = .selecting) && decide (id = id') &&
        decide ((s.tracker.peers.lookup node).isSome = registered)
  | _, _ => false

theorem exists_of_beats {node : Str} {registered : Bool} {s : Membership}
    (h : s.beats node registered = true) :
    ∃ id reply, s.daemon = .selecting ∧ s.last = some ⟨.heartbeat, id, some reply⟩ ∧
      KeptSince id s.log ∧ (node ∈ s.tracker.peers ↔ registered = true) := by
  unfold Membership.beats at h
  split at h
  · rename_i id reply id' older hlast hlog
    simp only [Bool.and_eq_true, decide_eq_true_eq] at h
    obtain ⟨⟨hdaemon, rfl⟩, hreg⟩ := h
    refine ⟨id, reply, hdaemon, hlast, ⟨[], older, hlog, List.not_mem_nil⟩, ?_⟩
    rw [← AList.lookup_isSome, hreg]
  · contradiction

/-- A steady run to an answered heartbeat: the registration goes through first. -/
theorem heartbeatingRegistered_afterRegister :
    let info : PeerInfo := ⟨str "n1", str "10.0.0.1:9000", [], [], [], [], 0⟩
    ∃ s id reply, s.daemon = .selecting ∧ s.last = some ⟨.heartbeat, id, some reply⟩ ∧
      KeptSince id s.log ∧ HeartbeatingRegistered info.nodeID s := by
  intro info
  have hplay : ([.send .registerPeer, .process 0 .registerPeer,
      .receive (.registerPeer ⟨true, str "registered successfully"⟩), .wait 5000000000,
      .send .heartbeat, .process 1 .heartbeat, .receive (.heartbeat true)].foldlM
      (Membership.step (newRegistry 0 fun a b => a == b) info) (.start 0 .new)).any
        (Membership.beats info.nodeID true) = true := by
    decide +kernel
  obtain ⟨s, hrun, hbeats⟩ := (Option.any_eq_true _ _).mp hplay
  obtain ⟨id, reply, hdaemon, hlast, hkept, -⟩ := exists_of_beats hbeats
  have hsteady : Relation.ReflTransGen (SteadyStep (newRegistry 0 fun a b => a == b) info)
      (.start 0 .new) s := by
    refine reachable_of_foldlM_ok (fun e he s => ?_) hrun
    simp only [List.mem_cons, List.not_mem_nil, or_false] at he
    rcases he with rfl | rfl | rfl | rfl | rfl | rfl | rfl <;> trivial
  exact ⟨s, id, reply, hdaemon, hlast, hkept,
    heartbeatingRegistered_of_steady (by decide) hsteady⟩

/-- Two runs to an answered heartbeat of a node that is not registered.  In the
first the registration is lost, in the second a partition outlasts the expiry and
the node is pruned. -/
theorem heartbeating_unregistered :
    let r := newRegistry 0 fun a b => a == b
    let info : PeerInfo := ⟨str "n1", str "10.0.0.1:9000", [], [], [], [], 0⟩
    let Reach := Relation.ReflTransGen fun s s' => ∃ e, Membership.step r info s e = some s'
    (∃ s, Reach (.start 0 .new) s ∧ ¬ HeartbeatingRegistered info.nodeID s) ∧
      ∃ s₁ s, Reach (.start 0 .new) s₁ ∧ info.nodeID ∈ s₁.tracker.peers ∧ Reach s₁ s ∧
        ¬ HeartbeatingRegistered info.nodeID s := by
  intro r info Reach
  have hnot : ∀ s : Membership, s.beats info.nodeID false = true →
      ¬ HeartbeatingRegistered info.nodeID s := by
    intro s hbeats hreg
    obtain ⟨id, reply, hdaemon, hlast, hkept, hout⟩ := exists_of_beats hbeats
    exact nomatch hout.mp (hreg id reply hdaemon hlast hkept)
  have hlost : ([.send .registerPeer, .loseRequest 0 .registerPeer, .wait 5000000000, .giveUp,
      .send .heartbeat, .process 1 .heartbeat, .receive (.heartbeat false)].foldlM
      (Membership.step r info) (.start 0 .new)).any (Membership.beats info.nodeID false) = true := by
    decide +kernel
  have hpruned : ([.send .registerPeer, .process 0 .registerPeer,
      .receive (.registerPeer ⟨true, str "registered successfully"⟩)].foldlM
      (Membership.step r info) (.start 0 .new)).any (fun s₁ =>
        (s₁.tracker.peers.lookup info.nodeID).isSome &&
        ([.wait 31000000000, .prune, .send .heartbeat, .process 1 .heartbeat,
          .receive (.heartbeat false)].foldlM (Membership.step r info) s₁).any
            (Membership.beats info.nodeID false)) = true := by
    decide +kernel
  obtain ⟨s, hrun, hbeats⟩ := exists_reachable_of_foldlM hlost
  obtain ⟨s₁, hrun₁, htest⟩ := exists_reachable_of_foldlM hpruned
  rw [Bool.and_eq_true, AList.lookup_isSome] at htest
  obtain ⟨s₂, hrun₂, hbeats₂⟩ := exists_reachable_of_foldlM htest.2
  exact ⟨⟨s, hrun, hnot s hbeats⟩, s₁, s₂, hrun₁, htest.1, hrun₂, hnot s₂ hbeats₂⟩

end Spider

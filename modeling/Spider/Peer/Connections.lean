import Spider.Lib.Prog
import Spider.Tracker.Memory

/-!
# Spider.Peer.Connections

The connection pool (`pkg/peer/client.go`): `GetClient` with its two sections under the lock and
the dial between them, `RemovePeer`, `evictIdle`, `Close`, and the time in which
`DownloadChunkTo` uses its client.

Each section is one step, and calls of any number take their steps in any order.  A connection
is named by the call that has dialled it.  `dialled` and `closed` are bookkeeping for the
statements below.

A dial that comes back after `Close` puts its connection into a pool that nobody closes any more
(`dialled_after_close`); otherwise the pool is bounded and loses nothing (`pool_bounded`).  The
pool knows when a connection was last handed out but not whether it is in use
(`full_pool_evicts_used`, `eviction_spares_used`).
-/

namespace Spider

/-! ## The pool -/

/-- `pooledConn`, with its address. -/
structure PooledConn where
  addr : Str
  conn : Nat
  lastUsed : Time
  deriving DecidableEq

structure PoolConfig where
  maxConnections : Int
  idleTimeout : Time
  deriving DecidableEq

/-- The limits of a pool. -/
structure PoolLimits where
  maxConns : Nat
  idleTimeout : Time

/-- The limits `NewClientPoolWithConfig` sets. -/
def PoolConfig.limits (cfg : PoolConfig) : PoolLimits where
  maxConns := if cfg.maxConnections ≤ 0 then 64 else cfg.maxConnections.toNat
  idleTimeout := if cfg.idleTimeout ≤ 0 then 120000000000 else cfg.idleTimeout

/-- Where a call of `DownloadChunkTo` is. -/
inductive CallPhase where
  /-- in `grpc.DialContext` -/
  | dialing
  /-- the dial has succeeded -/
  | dialed
  /-- has its client -/
  | holds (conn : Nat)
  | returned
  deriving DecidableEq

structure ClientCall where
  addr : Str
  phase : CallPhase
  deriving DecidableEq

structure ClientPool where
  conns : List PooledConn
  stopped : Bool
  clock : Time
  calls : List ClientCall
  dialled : List Nat
  closed : List Nat

namespace ClientPool

def start (now : Time) : ClientPool := ⟨[], false, now, [], [], []⟩

/-- Close some connections and take them out of the pool. -/
def discard (s : ClientPool) (which : PooledConn → Bool) : ClientPool :=
  { s with
    conns := s.conns.filter fun pc => !which pc
    closed := s.closed ++ (s.conns.filter which).map PooledConn.conn }

/-- The loop of `evictOldestLocked`; the empty address stands for none. -/
def oldestAddr (order : List PooledConn) : Str :=
  (order.foldl (fun (oldest : Str × Time) pc =>
    if oldest.1 = [] ∨ pc.lastUsed < oldest.2 then (pc.addr, pc.lastUsed) else oldest) ([], 0)).1

/-- `evictOldestLocked`, when the map is walked in the given order. -/
def evictOldestLocked (s : ClientPool) (order : List PooledConn) : ClientPool :=
  if oldestAddr order ≠ [] then s.discard (·.addr == oldestAddr order) else s

/-- The check of the limit, in both sections of `GetClient`. -/
def makeRoom (lim : PoolLimits) (s : ClientPool) (order : List PooledConn) : ClientPool :=
  if s.conns.length ≥ lim.maxConns then s.evictOldestLocked order else s

def touch (s : ClientPool) (addr : Str) (now : Time) : ClientPool :=
  { s with conns := s.conns.map fun pc => if pc.addr = addr then { pc with lastUsed := now } else pc }

def lookup (s : ClientPool) (addr : Str) : Option PooledConn := s.conns.find? (·.addr == addr)

end ClientPool

/-! ## Steps -/

inductive PoolEvent where
  /-- the first section of `GetClient` -/
  | getClient (addr : Str) (now : Time) (order : List PooledConn)
  /-- `grpc.DialContext` returns -/
  | dial (call : Nat) (ok : Bool)
  /-- the second section -/
  | register (call : Nat) (now : Time) (order : List PooledConn)
  /-- `DownloadChunkTo` returns -/
  | finish (call : Nat)
  | removePeer (addr : Str)
  /-- the time is read before the lock is taken -/
  | evictIdle (now : Time)
  | close

/-- One step; `none` if it cannot happen now. -/
def PoolLimits.step (lim : PoolLimits) (s : ClientPool) : PoolEvent → Option ClientPool
  | .getClient addr now order =>
      if s.clock ≤ now ∧ order.isPerm s.conns then
        match s.lookup addr with
        | some pc => some { s.touch addr now with
            clock := now, calls := s.calls ++ [⟨addr, .holds pc.conn⟩] }
        | none => some { s.makeRoom lim order with
            clock := now, calls := s.calls ++ [⟨addr, .dialing⟩] }
      else none
  | .dial i ok =>
      match s.calls[i]? with
      | some ⟨addr, .dialing⟩ =>
          if ok then some { s with
            calls := s.calls.set i ⟨addr, .dialed⟩, dialled := s.dialled ++ [i] }
          else some { s with calls := s.calls.set i ⟨addr, .returned⟩ }
      | _ => none
  | .register i now order =>
      match s.calls[i]? with
      | some ⟨addr, .dialed⟩ =>
          if s.clock ≤ now ∧ order.isPerm s.conns then
            match s.lookup addr with
            | some pc => some { s.touch addr now with
                clock := now, closed := s.closed ++ [i]
                calls := s.calls.set i ⟨addr, .holds pc.conn⟩ }
            | none =>
                let s' := s.makeRoom lim order
                some { s' with
                  clock := now, conns := s'.conns ++ [⟨addr, i, now⟩]
                  calls := s.calls.set i ⟨addr, .holds i⟩ }
          else none
      | _ => none
  | .finish i =>
      match s.calls[i]? with
      | some ⟨addr, .holds _⟩ => some { s with calls := s.calls.set i ⟨addr, .returned⟩ }
      | _ => none
  | .removePeer addr => some (s.discard (·.addr == addr))
  | .evictIdle now =>
      some (s.discard fun pc => decide (durationSub now pc.lastUsed ≥ lim.idleTimeout))
  | .close => some (if s.stopped then s else { s.discard fun _ => true with stopped := true })

/-- A run all of whose steps meet a condition. -/
def PoolLimits.run (lim : PoolLimits) (ok : ClientPool → PoolEvent → Bool) (now : Time)
    (es : List PoolEvent) : Option ClientPool :=
  es.foldlM (fun s e => if ok s e then lim.step s e else none) (.start now)

/-- What a step can do. -/
inductive PoolStep (lim : PoolLimits) (s : ClientPool) : PoolEvent → ClientPool → Prop
  | hit {addr : Str} {now : Time} {order : List PooledConn} {pc : PooledConn}
      (hnow : s.clock ≤ now) (hpc : s.lookup addr = some pc) :
      PoolStep lim s (.getClient addr now order) { s.touch addr now with
        clock := now, calls := s.calls ++ [⟨addr, .holds pc.conn⟩] }
  | miss {addr : Str} {now : Time} {order : List PooledConn} (hnow : s.clock ≤ now)
      (horder : order.Perm s.conns) (hmiss : s.lookup addr = none) :
      PoolStep lim s (.getClient addr now order) { s.makeRoom lim order with
        clock := now, calls := s.calls ++ [⟨addr, .dialing⟩] }
  | dialOk {i : Nat} {addr : Str} (hcall : s.calls[i]? = some ⟨addr, .dialing⟩) :
      PoolStep lim s (.dial i true) { s with
        calls := s.calls.set i ⟨addr, .dialed⟩, dialled := s.dialled ++ [i] }
  | dialFailed {i : Nat} {addr : Str} (hcall : s.calls[i]? = some ⟨addr, .dialing⟩) :
      PoolStep lim s (.dial i false) { s with calls := s.calls.set i ⟨addr, .returned⟩ }
  | duplicate {i : Nat} {addr : Str} {now : Time} {order : List PooledConn} {pc : PooledConn}
      (hcall : s.calls[i]? = some ⟨addr, .dialed⟩) (hnow : s.clock ≤ now)
      (hpc : s.lookup addr = some pc) :
      PoolStep lim s (.register i now order) { s.touch addr now with
        clock := now, closed := s.closed ++ [i]
        calls := s.calls.set i ⟨addr, .holds pc.conn⟩ }
  | insert {i : Nat} {addr : Str} {now : Time} {order : List PooledConn}
      (hcall : s.calls[i]? = some ⟨addr, .dialed⟩) (hnow : s.clock ≤ now)
      (horder : order.Perm s.conns) (hmiss : s.lookup addr = none) :
      PoolStep lim s (.register i now order) { s.makeRoom lim order with
        clock := now, conns := (s.makeRoom lim order).conns ++ [⟨addr, i, now⟩]
        calls := s.calls.set i ⟨addr, .holds i⟩ }
  | finish {i : Nat} {addr : Str} {c : Nat} (hcall : s.calls[i]? = some ⟨addr, .holds c⟩) :
      PoolStep lim s (.finish i) { s with calls := s.calls.set i ⟨addr, .returned⟩ }
  | removePeer {addr : Str} : PoolStep lim s (.removePeer addr) (s.discard (·.addr == addr))
  | evictIdle {now : Time} : PoolStep lim s (.evictIdle now)
      (s.discard fun pc => decide (durationSub now pc.lastUsed ≥ lim.idleTimeout))
  | closed (hstopped : s.stopped = true) : PoolStep lim s .close s
  | close (hstopped : s.stopped = false) :
      PoolStep lim s .close { s.discard fun _ => true with stopped := true }

theorem PoolStep.of_step {lim : PoolLimits} {s s' : ClientPool} {e : PoolEvent}
    (hx : lim.step s e = some s') : PoolStep lim s e s' := by
  cases e with
  | getClient addr now order =>
      simp only [PoolLimits.step, Option.ite_none_right_eq_some, List.isPerm_iff] at hx
      obtain ⟨⟨hnow, horder⟩, hx⟩ := hx
      split at hx
      · cases hx
        exact .hit hnow ‹_›
      · cases hx
        exact .miss hnow horder ‹_›
  | dial i ok =>
      simp only [PoolLimits.step] at hx
      split at hx
      · cases ok with
        | true =>
            cases hx
            exact .dialOk ‹_›
        | false =>
            cases hx
            exact .dialFailed ‹_›
      · contradiction
  | register i now order =>
      simp only [PoolLimits.step] at hx
      split at hx
      · simp only [Option.ite_none_right_eq_some, List.isPerm_iff] at hx
        obtain ⟨⟨hnow, horder⟩, hx⟩ := hx
        split at hx
        · cases hx
          exact .duplicate ‹_› hnow ‹_›
        · cases hx
          exact .insert ‹_› hnow horder ‹_›
      · contradiction
  | finish i =>
      simp only [PoolLimits.step] at hx
      split at hx
      · cases hx
        exact .finish ‹_›
      · contradiction
  | removePeer addr =>
      cases hx
      exact .removePeer
  | evictIdle now =>
      cases hx
      exact .evictIdle
  | close =>
      cases hx
      split
      · exact .closed ‹_›
      · exact .close (by simpa using ‹¬ s.stopped = true›)

/-! ## The connections in the pool -/

/-- Addresses are named, and each has one connection. -/
structure PoolWf (conns : List PooledConn) : Prop where
  distinct : (conns.map PooledConn.addr).Nodup
  named : ∀ pc ∈ conns, pc.addr ≠ []

section Pool

open ClientPool

variable {lim : PoolLimits} {s : ClientPool} {order : List PooledConn} {addr : Str} {now : Time}
  {pc : PooledConn} {which : PooledConn → Bool}

theorem PoolWf.discard (h : PoolWf s.conns) : PoolWf (s.discard which).conns :=
  ⟨(List.filter_sublist.map _).nodup h.distinct, fun pc hpc => h.named pc (List.mem_filter.mp hpc).1⟩

theorem PoolWf.touch (h : PoolWf s.conns) : PoolWf (s.touch addr now).conns := by
  have hsame : (s.touch addr now).conns.map PooledConn.addr = s.conns.map PooledConn.addr := by
    simp only [ClientPool.touch, List.map_map, List.map_inj_left, Function.comp_apply]
    intro pc _
    split <;> rfl
  refine ⟨hsame ▸ h.distinct, fun pc hpc => ?_⟩
  have hmem : pc.addr ∈ s.conns.map PooledConn.addr := hsame ▸ List.mem_map_of_mem hpc
  obtain ⟨pc', hpc', heq⟩ := List.mem_map.mp hmem
  exact heq ▸ h.named pc' hpc'

/-- The connection that is evicted: the one that has not been handed out for the longest time. -/
theorem oldestAddr_spec (hne : order ≠ []) (hnamed : ∀ pc ∈ order, pc.addr ≠ []) :
    ∃ oldest ∈ order, oldestAddr order = oldest.addr ∧
      ∀ pc ∈ order, oldest.lastUsed ≤ pc.lastUsed := by
  -- the loop, once it has an address
  have hloop : ∀ (l : List PooledConn) (pc : PooledConn), pc.addr ≠ [] →
      (∀ pc ∈ l, pc.addr ≠ []) → ∃ oldest ∈ pc :: l,
        l.foldl (fun (oldest : Str × Time) pc =>
          if oldest.1 = [] ∨ pc.lastUsed < oldest.2 then (pc.addr, pc.lastUsed) else oldest)
          (pc.addr, pc.lastUsed) = (oldest.addr, oldest.lastUsed) ∧
        ∀ pc' ∈ pc :: l, oldest.lastUsed ≤ pc'.lastUsed := by
    intro l
    induction l with
    | nil => exact fun pc _ _ => ⟨pc, by simp⟩
    | cons next l ih =>
        intro pc hpc hl
        have hrest := fun pc' hpc' => hl pc' (List.mem_cons_of_mem next hpc')
        rw [List.foldl_cons]
        by_cases hlt : next.lastUsed < pc.lastUsed
        · obtain ⟨oldest, hmem, hfold, hmin⟩ := ih next (hl next List.mem_cons_self) hrest
          rw [if_pos (.inr hlt)]
          have hle := hmin next List.mem_cons_self
          exact ⟨oldest, List.mem_cons_of_mem pc hmem, hfold,
            List.forall_mem_cons.mpr ⟨hle.trans hlt.le, hmin⟩⟩
        · obtain ⟨oldest, hmem, hfold, hmin⟩ := ih pc hpc hrest
          rw [if_neg (by simp [hpc, hlt])]
          obtain ⟨hpcle, hmin⟩ := List.forall_mem_cons.mp hmin
          refine ⟨oldest, ?_, hfold, List.forall_mem_cons.mpr
            ⟨hpcle, List.forall_mem_cons.mpr ⟨hpcle.trans (not_lt.mp hlt), hmin⟩⟩⟩
          rcases List.mem_cons.mp hmem with rfl | hmem
          · exact List.mem_cons_self
          · exact List.mem_cons_of_mem _ (List.mem_cons_of_mem _ hmem)
  cases order with
  | nil => contradiction
  | cons pc l =>
      obtain ⟨hpc, hl⟩ := List.forall_mem_cons.mp hnamed
      obtain ⟨oldest, hmem, hfold, hmin⟩ := hloop l pc hpc hl
      exact ⟨oldest, hmem, by rw [oldestAddr, List.foldl_cons, if_pos (.inl rfl), hfold], hmin⟩

/-- What the check of the limit does: nothing, or it takes out the oldest connection. -/
theorem makeRoom_cases (h : PoolWf s.conns) (horder : order.Perm s.conns) (hmax : 0 < lim.maxConns) :
    s.conns.length < lim.maxConns ∧ s.makeRoom lim order = s ∨
    lim.maxConns ≤ s.conns.length ∧ ∃ oldest ∈ s.conns,
      s.makeRoom lim order = s.discard (·.addr == oldest.addr) ∧
      ∀ pc ∈ s.conns, oldest.lastUsed ≤ pc.lastUsed := by
  rw [makeRoom]
  by_cases hfull : s.conns.length ≥ lim.maxConns
  · have hne : order ≠ [] := by
      rintro rfl
      have hlen := horder.length_eq
      rw [List.length_nil] at hlen
      omega
    obtain ⟨oldest, hmem, haddr, hmin⟩ :=
      oldestAddr_spec hne fun pc hpc => h.named pc (horder.mem_iff.mp hpc)
    have hmem := horder.mem_iff.mp hmem
    refine .inr ⟨hfull, oldest, hmem, ?_, fun pc hpc => hmin pc (horder.mem_iff.mpr hpc)⟩
    rw [if_pos hfull, evictOldestLocked, haddr, if_pos (h.named oldest hmem)]
  · exact .inl ⟨by omega, if_neg hfull⟩

theorem length_makeRoom (h : PoolWf s.conns) (horder : order.Perm s.conns) (hmax : 0 < lim.maxConns)
    (hbound : s.conns.length ≤ lim.maxConns) :
    (s.makeRoom lim order).conns.length < lim.maxConns := by
  rcases makeRoom_cases h horder hmax with ⟨hlt, heq⟩ | ⟨-, oldest, hmem, heq, -⟩
  · rwa [heq]
  · rw [heq]
    have hless : (s.discard (·.addr == oldest.addr)).conns.length < s.conns.length :=
      List.length_filter_lt_length_iff_exists.mpr ⟨oldest, hmem, by simp⟩
    omega

theorem lookup_eq_none (hmiss : s.lookup addr = none) : ∀ pc ∈ s.conns, pc.addr ≠ addr := by
  simpa [lookup] using hmiss

end Pool

/-! ## Where the connections are -/

/-- The connections in the pool and those that are closed. -/
def ClientPool.settled (s : ClientPool) : List Nat := s.conns.map PooledConn.conn ++ s.closed

/-- A call has a connection that it has not registered yet. -/
def ClientPool.Brings (s : ClientPool) (i : Nat) (addr : Str) : Prop :=
  s.calls[i]? = some ⟨addr, .dialed⟩

/-- Some `DownloadChunkTo` has obtained this connection and not returned. -/
def ClientPool.Used (s : ClientPool) (c : Nat) : Prop := ∃ addr, ⟨addr, .holds c⟩ ∈ s.calls

/-- `GetClient` has returned. -/
def CallPhase.past : CallPhase → Prop
  | .dialing | .dialed => False
  | .holds _ | .returned => True

def ClientPool.Past (s : ClientPool) (i : Nat) : Prop :=
  ∃ call, s.calls[i]? = some call ∧ call.phase.past

structure PoolInv (lim : PoolLimits) (s : ClientPool) : Prop where
  wf : PoolWf s.conns
  bound : s.conns.length ≤ lim.maxConns
  once : s.settled.Nodup
  kept : ∀ c ∈ s.dialled, c ∈ s.settled ∨ ∃ addr, s.Brings c addr
  known : ∀ c, c ∈ s.settled ∨ s.Used c → s.Past c
  named : ∀ i addr, s.Brings i addr → addr ≠ []

/-- No dial of the empty address succeeds. -/
def ClientPool.dialsNamed (s : ClientPool) : PoolEvent → Bool
  | .dial i true => s.calls[i]?.all fun call => decide (call.addr ≠ [])
  | _ => true

/-- No connection is registered after `Close`, nor dialled to the empty address. -/
def ClientPool.orderly (s : ClientPool) (e : PoolEvent) : Bool :=
  s.dialsNamed e && match e with
    | .register _ _ _ => !s.stopped
    | _ => true

section Kept

open ClientPool

variable {lim : PoolLimits} {s s' : ClientPool} {e : PoolEvent} {addr : Str} {now : Time}
  {c i : Nat} {call call' : ClientCall}

/-- The connections that are closed are those that leave the pool. -/
theorem settled_discard_perm (s : ClientPool) (which : PooledConn → Bool) :
    (s.discard which).settled.Perm s.settled := by
  have hsplit := (List.filter_append_perm (fun pc => !which pc) s.conns).map PooledConn.conn
  simp only [Bool.not_not, List.map_append] at hsplit
  have hcomm : (s.discard which).settled.Perm ((s.conns.filter fun pc => !which pc).map PooledConn.conn ++
      (s.conns.filter which).map PooledConn.conn ++ s.closed) := by
    rw [List.append_assoc]
    exact (List.perm_append_comm).append_left _
  exact hcomm.trans (hsplit.append_right _)

theorem settled_touch (s : ClientPool) (addr : Str) (now : Time) :
    (s.touch addr now).settled = s.settled := by
  simp only [settled, ClientPool.touch, List.map_map]
  congr 2
  funext pc
  dsimp only [Function.comp_apply]
  split <;> rfl

theorem exists_makeRoom_eq (lim : PoolLimits) (s : ClientPool) (order : List PooledConn) :
    ∃ which, s.makeRoom lim order = s.discard which := by
  have hnone : s = s.discard fun _ => false := by simp [ClientPool.discard]
  unfold makeRoom evictOldestLocked
  split
  · split
    · exact ⟨_, rfl⟩
    · exact ⟨_, hnone⟩
  · exact ⟨_, hnone⟩

theorem not_past_of_brings (h : s.Brings i addr) : ¬ s.Past i := by
  rintro ⟨call, hcall, hpast⟩
  cases h.symm.trans hcall
  exact hpast

theorem past_set (hcall : s.calls[i]? = some call) (hpast : call.phase.past → call'.phase.past)
    (h : s.Past c) : ({ s with calls := s.calls.set i call' } : ClientPool).Past c := by
  obtain ⟨old, hold, hp⟩ := h
  by_cases hci : i = c
  · subst hci
    cases hcall.symm.trans hold
    exact ⟨call', List.getElem?_set_self (List.getElem?_eq_some_iff.mp hcall).1, hpast hp⟩
  · exact ⟨old, (List.getElem?_set_ne hci).trans hold, hp⟩

theorem brings_set {j : Nat} (h : ({ s with calls := s.calls.set i call } : ClientPool).Brings j addr) :
    s.Brings j addr ∧ i ≠ j ∨ call = ⟨addr, .dialed⟩ := by
  grind [Brings]

theorem used_set (h : ({ s with calls := s.calls.set i call } : ClientPool).Used c) :
    s.Used c ∨ call.phase = .holds c := by
  obtain ⟨addr, hmem⟩ := h
  rcases List.mem_or_eq_of_mem_set hmem with hmem | rfl
  · exact .inl ⟨addr, hmem⟩
  · exact .inr rfl

theorem PoolInv.discard (h : PoolInv lim s) (which : PooledConn → Bool) :
    PoolInv lim (s.discard which) where
  wf := h.wf.discard
  bound := (List.length_filter_le _ _).trans h.bound
  once := (settled_discard_perm s which).nodup_iff.mpr h.once
  kept c hc := (h.kept c hc).imp_left (settled_discard_perm s which).mem_iff.mpr
  known c hc := h.known c (hc.imp_left (settled_discard_perm s which).mem_iff.mp)
  named := h.named

theorem PoolInv.touch (h : PoolInv lim s) (addr : Str) (now : Time) :
    PoolInv lim (s.touch addr now) where
  wf := h.wf.touch
  bound := by simpa [ClientPool.touch] using h.bound
  once := settled_touch s addr now ▸ h.once
  kept c hc := settled_touch s addr now ▸ h.kept c hc
  known c hc := h.known c (settled_touch s addr now ▸ hc)
  named := h.named

/-- A call begins, with a connection of the pool or without one. -/
theorem PoolInv.add_call (h : PoolInv lim s) (hphase : call.phase ≠ .dialed)
    (hholds : ∀ c, call.phase = .holds c → s.Past c) :
    PoolInv lim { s with clock := now, calls := s.calls ++ [call] } where
  wf := h.wf
  bound := h.bound
  once := h.once
  kept c hc := (h.kept c hc).imp_right fun ⟨addr, hb⟩ =>
    ⟨addr, (List.getElem?_append_left (List.getElem?_eq_some_iff.mp hb).1).trans hb⟩
  known c hc := by
    have hpast : s.Past c := by
      rcases hc with hc | ⟨addr, hmem⟩
      · exact h.known c (.inl hc)
      · rcases List.mem_append.mp hmem with hmem | hmem
        · exact h.known c (.inr ⟨addr, hmem⟩)
        · exact hholds c (List.mem_singleton.mp hmem ▸ rfl)
    obtain ⟨old, hold, hp⟩ := hpast
    exact ⟨old, (List.getElem?_append_left (List.getElem?_eq_some_iff.mp hold).1).trans hold, hp⟩
  named j addr hj := by
    simp only [Brings, List.getElem?_append] at hj
    split at hj
    · exact h.named j addr hj
    · exact absurd (List.mem_singleton.mp (List.mem_of_getElem? hj) ▸ rfl) hphase

/-- A call returns that brings no connection. -/
theorem PoolInv.return_call (h : PoolInv lim s) (hcall : s.calls[i]? = some call)
    (hphase : call.phase ≠ .dialed) :
    PoolInv lim { s with calls := s.calls.set i ⟨addr, .returned⟩ } where
  wf := h.wf
  bound := h.bound
  once := h.once
  kept c hc := (h.kept c hc).imp_right fun ⟨addr, hb⟩ => by
    refine ⟨addr, (List.getElem?_set_ne fun hci => ?_).trans hb⟩
    subst hci
    cases hcall.symm.trans hb
    exact hphase rfl
  known c hc := past_set hcall (fun _ => trivial)
    (h.known c (hc.imp_right fun hu => (used_set hu).resolve_right (by simp)))
  named j addr hj := h.named j addr ((brings_set hj).resolve_right (by simp)).1

/-- A call registers its connection, or closes it, and goes on with some connection. -/
theorem PoolInv.register (h : PoolInv lim s) (hcall : s.Brings i addr) {conns : List PooledConn}
    {closed : List Nat} (hwf : PoolWf conns) (hbound : conns.length ≤ lim.maxConns)
    (hsettled : (conns.map PooledConn.conn ++ closed).Perm (i :: s.settled))
    (hc : c ∈ i :: s.settled) :
    PoolInv lim { s with
      clock := now, conns := conns, closed := closed, calls := s.calls.set i ⟨addr, .holds c⟩ } where
  wf := hwf
  bound := hbound
  once := by
    refine hsettled.nodup_iff.mpr (List.nodup_cons.mpr ⟨fun hi => ?_, h.once⟩)
    exact not_past_of_brings hcall (h.known i (.inl hi))
  kept c hc := by
    rcases h.kept c hc with hs | ⟨addr, hb⟩
    · exact .inl (hsettled.mem_iff.mpr (List.mem_cons_of_mem i hs))
    · by_cases hci : i = c
      · exact .inl (hsettled.mem_iff.mpr (hci ▸ List.mem_cons_self))
      · exact .inr ⟨addr, (List.getElem?_set_ne hci).trans hb⟩
  known d hd := by
    have hi : ({ s with calls := s.calls.set i ⟨addr, .holds c⟩ } : ClientPool).Past i :=
      ⟨_, List.getElem?_set_self (List.getElem?_eq_some_iff.mp hcall).1, trivial⟩
    have hsettle : d ∈ i :: s.settled →
        ({ s with calls := s.calls.set i ⟨addr, .holds c⟩ } : ClientPool).Past d := by
      intro hd
      rcases List.mem_cons.mp hd with rfl | hd
      · exact hi
      · exact past_set hcall (fun _ => trivial) (h.known d (.inl hd))
    rcases hd with hd | hd
    · exact hsettle (hsettled.mem_iff.mp hd)
    · rcases used_set hd with hd | hd
      · exact past_set hcall (fun _ => trivial) (h.known d (.inr hd))
      · cases hd
        exact hsettle hc
  named j addr hj := h.named j addr ((brings_set hj).resolve_right (by simp)).1

theorem mem_settled_of_lookup {pc : PooledConn} (hpc : s.lookup addr = some pc) :
    pc.conn ∈ s.settled :=
  List.mem_append_left _ (List.mem_map_of_mem (List.mem_of_find?_eq_some hpc))

theorem PoolInv.step (hmax : 0 < lim.maxConns) (h : PoolInv lim s) (hok : s.dialsNamed e = true)
    (hx : lim.step s e = some s') : PoolInv lim s' := by
  cases PoolStep.of_step hx with
  | hit hnow hpc =>
      refine (h.touch _ _).add_call (by simp) fun c hc => ?_
      cases hc
      exact h.known _ (.inl (mem_settled_of_lookup hpc))
  | @miss addr now order hnow horder hmiss =>
      obtain ⟨which, heq⟩ := exists_makeRoom_eq lim s order
      rw [heq]
      exact (h.discard which).add_call (by simp) (by simp)
  | @dialOk i addr hcall =>
      have haddr : addr ≠ [] := by
        simpa [ClientPool.dialsNamed, hcall] using hok
      refine ⟨h.wf, h.bound, h.once, fun c hc => ?_, fun c hc => ?_, fun j addr' hj => ?_⟩
      · rcases List.mem_append.mp hc with hc | hc
        · refine (h.kept c hc).imp_right fun ⟨addr, hb⟩ => ⟨addr, ?_⟩
          refine (List.getElem?_set_ne fun hci => ?_).trans hb
          subst hci
          cases hcall.symm.trans hb
        · obtain rfl := List.mem_singleton.mp hc
          exact .inr ⟨addr, List.getElem?_set_self (List.getElem?_eq_some_iff.mp hcall).1⟩
      · exact past_set hcall (fun hp => hp)
          (h.known c (hc.imp_right fun hu => (used_set hu).resolve_right (by simp)))
      · rcases brings_set hj with hj | hj
        · exact h.named j addr' hj.1
        · cases hj
          exact haddr
  | dialFailed hcall | finish hcall => exact h.return_call hcall (by simp)
  | @duplicate i addr now order pc hcall hnow hpc =>
      refine h.register hcall h.wf.touch (h.touch addr now).bound ?_
        (List.mem_cons_of_mem i (mem_settled_of_lookup hpc))
      rw [← List.append_assoc]
      exact (List.perm_append_singleton i _).trans (.of_eq (congrArg _ (settled_touch s addr now)))
  | @insert i addr now order hcall hnow horder hmiss =>
      have hroom := length_makeRoom h.wf horder hmax h.bound
      obtain ⟨which, heq⟩ := exists_makeRoom_eq lim s order
      rw [heq] at hroom ⊢
      have hwf := (h.discard which).wf
      refine h.register hcall ⟨?_, ?_⟩ ?_ ?_ List.mem_cons_self
      · rw [List.map_append, List.nodup_append]
        refine ⟨hwf.distinct, by simp, ?_⟩
        intro a ha b hb hab
        obtain ⟨pc, hpc, rfl⟩ := List.mem_map.mp ha
        simp only [List.map_cons, List.map_nil, List.mem_singleton] at hb
        exact lookup_eq_none hmiss pc (List.mem_filter.mp hpc).1 (hab.trans hb)
      · intro pc hpc
        rcases List.mem_append.mp hpc with hpc | hpc
        · exact hwf.named pc hpc
        · rw [List.mem_singleton.mp hpc]
          exact h.named i addr hcall
      · rw [List.length_append]
        exact hroom
      · rw [List.map_append, List.append_assoc]
        exact List.perm_middle.trans ((settled_discard_perm s which).cons i)
  | removePeer => exact h.discard _
  | evictIdle => exact h.discard _
  | closed hstopped => exact h
  | close hstopped =>
      obtain ⟨hwf, hbound, honce, hkept, hknown, hnamed⟩ := h.discard fun _ => true
      exact ⟨hwf, hbound, honce, hkept, hknown, hnamed⟩

theorem PoolConfig.maxConns_pos (cfg : PoolConfig) : 0 < cfg.limits.maxConns := by
  simp only [PoolConfig.limits]
  split <;> omega

theorem PoolInv.start (lim : PoolLimits) (now : Time) : PoolInv lim (.start now) where
  wf := ⟨List.nodup_nil, fun _ h => by contradiction⟩
  bound := Nat.zero_le _
  once := List.nodup_nil
  kept := fun _ h => by contradiction
  known := by
    rintro c (hc | ⟨addr, hc⟩) <;> contradiction
  named := fun _ _ h => by contradiction

/-- A closed pool stays empty. -/
theorem emptied_step (h : s.stopped = true → s.conns = []) (hok : s.orderly e = true)
    (hx : lim.step s e = some s') : s'.stopped = true → s'.conns = [] := by
  have hdiscard : ∀ which, s.stopped = true → (s.discard which).conns = [] := by
    intro which hs
    rw [ClientPool.discard, h hs]
    rfl
  cases PoolStep.of_step hx with
  | hit _ _ | duplicate _ _ _ => exact fun hs => by simp [ClientPool.touch, h hs]
  | @miss addr now order _ _ _ =>
      obtain ⟨which, heq⟩ := exists_makeRoom_eq lim s order
      rw [heq]
      exact hdiscard which
  | @insert i addr now order hcall _ _ _ =>
      obtain ⟨which, heq⟩ := exists_makeRoom_eq lim s order
      rw [heq]
      intro hs
      simp only [ClientPool.orderly, ClientPool.dialsNamed, Bool.true_and, Bool.not_eq_true'] at hok
      exact absurd hs (by simp [ClientPool.discard, hok])
  | dialOk _ | dialFailed _ | finish _ | closed _ => exact h
  | removePeer | evictIdle => exact hdiscard _
  | close _ => exact fun _ => by simp [ClientPool.discard]

end Kept

/-- **The pool is bounded and leaks nothing**, in every run in which no connection is registered
after `Close`: it never holds more connections than its limit or two for one address; when no
call is about to register one, every connection that was ever dialled is in the pool or closed;
and after `Close`, when every `GetClient` has returned, all are closed. -/
theorem pool_bounded (cfg : PoolConfig) (now : Time) (es : List PoolEvent) (s : ClientPool)
    (hrun : cfg.limits.run ClientPool.orderly now es = some s) :
    s.conns.length ≤ cfg.limits.maxConns ∧ (s.conns.map PooledConn.addr).Nodup ∧
    ((∀ call ∈ s.calls, call.phase ≠ .dialed) →
      ∀ c ∈ s.dialled, (∃ pc ∈ s.conns, pc.conn = c) ∨ c ∈ s.closed) ∧
    (s.stopped = true → (∀ call ∈ s.calls, call.phase ≠ .dialing ∧ call.phase ≠ .dialed) →
      ∀ c ∈ s.dialled, c ∈ s.closed) := by
  obtain ⟨hinv, hemptied⟩ := Conc.invariant_of_foldlM
    (I := fun s => PoolInv cfg.limits s ∧ (s.stopped = true → s.conns = []))
    (fun s e s' h hx => by
      obtain ⟨hok, hx⟩ := Option.ite_none_right_eq_some.mp hx
      have hnamed : s.dialsNamed e = true := (Bool.and_eq_true_iff.mp hok).1
      exact ⟨h.1.step cfg.maxConns_pos hnamed hx, emptied_step h.2 hok hx⟩)
    ⟨.start _ now, fun _ => rfl⟩ hrun
  have hquiet : (∀ call ∈ s.calls, call.phase ≠ .dialed) → ∀ c ∈ s.dialled, c ∈ s.settled := by
    intro hcalls c hc
    refine (hinv.kept c hc).resolve_right ?_
    rintro ⟨addr, hbrings⟩
    exact hcalls _ (List.mem_of_getElem? hbrings) rfl
  refine ⟨hinv.bound, hinv.wf.distinct, fun hcalls c hc => ?_, fun hs hcalls c hc => ?_⟩
  · exact (List.mem_append.mp (hquiet hcalls c hc)).imp_left List.mem_map.mp
  · have hsettled := hquiet (fun call hcall => (hcalls call hcall).2) c hc
    rwa [ClientPool.settled, hemptied hs] at hsettled

/-- One connection is dialled and registered, and the pool is closed. -/
theorem pool_bounded_oneCall :
    (((PoolConfig.mk 1 1).limits.run ClientPool.orderly 0
      [.getClient (str "a") 0 [], .dial 0 true, .register 0 1 [], .finish 0, .close]).any
        fun s => decide (s.stopped = true ∧ s.closed = [0])) = true ∧
    ∀ s, (PoolConfig.mk 1 1).limits.run ClientPool.orderly 0
      [.getClient (str "a") 0 [], .dial 0 true, .register 0 1 [], .finish 0, .close] = some s →
      s.conns.length ≤ 1 :=
  ⟨by decide, fun s hrun => (pool_bounded ⟨1, 1⟩ 0 _ s hrun).1⟩

/-- `Close` comes while a dial is under way: the connection is put into the pool afterwards, and
stays open. -/
theorem dialled_after_close :
    ∃ s, (PoolConfig.mk 1 1).limits.run (fun _ _ => true) 0
        [.getClient (str "a") 0 [], .close, .dial 0 true, .register 0 1 [], .finish 0] = some s ∧
      s.stopped = true ∧ s.dialled = [0] ∧ s.closed = [] ∧ ∀ call ∈ s.calls, call.phase = .returned :=
  ⟨⟨[⟨str "a", 0, 1⟩], true, 1, [⟨str "a", .returned⟩], [0], []⟩, rfl, rfl, rfl, rfl, by decide⟩

/-! ## Connections in use -/

/-- The event, when the map is walked in another order. -/
def PoolEvent.walking (order : List PooledConn) : PoolEvent → PoolEvent
  | .getClient addr now _ => .getClient addr now order
  | .register i now _ => .register i now order
  | e => e

/-- The calls that are not told to close anything. -/
def PoolEvent.ownAccord : PoolEvent → Prop
  | .removePeer _ | .close => False
  | _ => True

/-- If an address has to be put into a full pool, some connection was handed out last before
every connection of the pool that is in use. -/
def ClientPool.Roomy (lim : PoolLimits) (s : ClientPool) (addr : Str) : Prop :=
  s.lookup addr = none → lim.maxConns ≤ s.conns.length →
    ∃ pc ∈ s.conns, ∀ pc' ∈ s.conns, s.Used pc'.conn → pc.lastUsed < pc'.lastUsed

def ClientPool.Unhurried (lim : PoolLimits) (s : ClientPool) : PoolEvent → Prop
  | .getClient addr now _ => s.clock ≤ now → s.Roomy lim addr
  | .register i now _ => ∀ addr, s.Brings i addr → s.clock ≤ now → s.Roomy lim addr
  | .evictIdle now =>
      ∀ pc ∈ s.conns, s.Used pc.conn → durationSub now pc.lastUsed < lim.idleTimeout
  | _ => True

section Used

open ClientPool

variable {lim : PoolLimits} {s : ClientPool} {pc : PooledConn}

theorem oldestAddr_of_min {l : List PooledConn} (hne : pc.addr ≠ [])
    (hmin : ∀ pc' ∈ l, pc.lastUsed ≤ pc'.lastUsed) : oldestAddr (pc :: l) = pc.addr := by
  have hloop : l.foldl (fun (oldest : Str × Time) pc =>
      if oldest.1 = [] ∨ pc.lastUsed < oldest.2 then (pc.addr, pc.lastUsed) else oldest)
      (pc.addr, pc.lastUsed) = (pc.addr, pc.lastUsed) := by
    induction l with
    | nil => rfl
    | cons next l ih =>
        obtain ⟨hnext, hmin⟩ := List.forall_mem_cons.mp hmin
        rw [List.foldl_cons, if_neg (by simp [hne, hnext]), ih hmin]
  rw [oldestAddr, List.foldl_cons, if_pos (.inl rfl), hloop]

theorem PoolInv.not_closed (h : PoolInv lim s) (hpc : pc ∈ s.conns) : pc.conn ∉ s.closed :=
  fun hc => (List.nodup_append.mp h.once).2.2 _ (List.mem_map_of_mem hpc) _ hc rfl

/-- What is closed besides is what was taken out of the pool. -/
theorem discard_spares_iff (h : PoolInv lim s) (which : PooledConn → Bool) :
    (∀ c, s.Used c → c ∈ (s.discard which).closed → c ∈ s.closed) ↔
      ∀ pc ∈ s.conns, s.Used pc.conn → which pc = false := by
  constructor
  · intro hspares pc hpc hused
    by_contra hwhich
    have hmem : pc ∈ s.conns.filter which := List.mem_filter.mpr ⟨hpc, by simpa using hwhich⟩
    exact h.not_closed hpc
      (hspares pc.conn hused (List.mem_append_right _ (List.mem_map_of_mem hmem)))
  · intro hwhich c hused hc
    refine (List.mem_append.mp hc).resolve_right fun hc => ?_
    obtain ⟨pc, hpc, rfl⟩ := List.mem_map.mp hc
    obtain ⟨hpc, hw⟩ := List.mem_filter.mp hpc
    rw [hwhich pc hpc hused] at hw
    contradiction

theorem makeRoom_spares_iff (h : PoolInv lim s) (hmax : 0 < lim.maxConns) :
    (∀ order, order.Perm s.conns → ∀ c, s.Used c → c ∈ (s.makeRoom lim order).closed →
      c ∈ s.closed) ↔
    (lim.maxConns ≤ s.conns.length →
      ∃ pc ∈ s.conns, ∀ pc' ∈ s.conns, s.Used pc'.conn → pc.lastUsed < pc'.lastUsed) := by
  constructor
  · intro hspares hfull
    rcases makeRoom_cases h.wf (.refl _) hmax with ⟨hlt, -⟩ | ⟨-, oldest, hmem, -, hmin⟩
    · omega
    refine ⟨oldest, hmem, fun pc hpc hused => ?_⟩
    by_contra hle
    -- a used connection is as old as any: it is evicted if the walk begins with it
    have hperm : (pc :: s.conns.erase pc).Perm s.conns := (List.perm_cons_erase hpc).symm
    have haddr : oldestAddr (pc :: s.conns.erase pc) = pc.addr :=
      oldestAddr_of_min (h.wf.named pc hpc) fun pc' hpc' =>
        (not_lt.mp hle).trans (hmin pc' (List.mem_of_mem_erase hpc'))
    have hspares := hspares _ hperm
    rw [makeRoom, if_pos hfull, evictOldestLocked, haddr, if_pos (h.wf.named pc hpc),
      discard_spares_iff h] at hspares
    simpa using hspares pc hpc hused
  · intro hroomy order horder
    rcases makeRoom_cases h.wf horder hmax with ⟨-, heq⟩ | ⟨hfull, oldest, hmem, heq, hmin⟩
    · rw [heq]
      exact fun _ _ hc => hc
    · rw [heq, discard_spares_iff h]
      intro pc hpc hused
      obtain ⟨older, holder, hlt⟩ := hroomy hfull
      refine beq_eq_false_iff_ne.mpr fun haddr => ?_
      obtain rfl := List.inj_on_of_nodup_map h.wf.distinct hpc hmem haddr
      exact absurd (hlt pc hpc hused) (not_lt.mpr (hmin older holder))

end Used

/-- **When a connection in use is evicted.**  In every state of every run, whatever the order in
which the map is walked, `GetClient` and `evictIdle` spare the connections in use iff there is an
older one to evict, and at an idle tick all were handed out within the timeout. -/
theorem eviction_spares_used (cfg : PoolConfig) (now : Time) (es : List PoolEvent) (s : ClientPool)
    (hrun : cfg.limits.run ClientPool.dialsNamed now es = some s) (e : PoolEvent)
    (he : e.ownAccord) :
    (∀ order s', cfg.limits.step s (e.walking order) = some s' →
      ∀ c, s.Used c → c ∈ s'.closed → c ∈ s.closed) ↔ s.Unhurried cfg.limits e := by
  have hinv : PoolInv cfg.limits s := Conc.invariant_of_foldlM
    (fun s e s' h hx => by
      obtain ⟨hok, hx⟩ := Option.ite_none_right_eq_some.mp hx
      exact h.step cfg.maxConns_pos hok hx)
    (.start _ now) hrun
  have hroom := makeRoom_spares_iff hinv cfg.maxConns_pos
  constructor
  · intro hspares
    cases e with
    | getClient addr now order =>
        intro hnow hmiss
        refine hroom.mp fun order horder c hused hc => ?_
        have hx : cfg.limits.step s (.getClient addr now order) = some { s.makeRoom cfg.limits order with
            clock := now, calls := s.calls ++ [⟨addr, .dialing⟩] } := by
          simp only [PoolLimits.step, hmiss, if_pos (And.intro hnow (List.isPerm_iff.mpr horder))]
        exact hspares order _ hx c hused hc
    | register i now order =>
        intro addr hcall hnow hmiss
        refine hroom.mp fun order horder c hused hc => ?_
        have hx : cfg.limits.step s (.register i now order) = some { s.makeRoom cfg.limits order with
            clock := now, conns := (s.makeRoom cfg.limits order).conns ++ [⟨addr, i, now⟩]
            calls := s.calls.set i ⟨addr, .holds i⟩ } := by
          rw [ClientPool.Brings] at hcall
          simp only [PoolLimits.step, hcall, hmiss,
            if_pos (And.intro hnow (List.isPerm_iff.mpr horder))]
        exact hspares order _ hx c hused hc
    | evictIdle now =>
        intro pc hpc hused
        simpa using (discard_spares_iff hinv _).mp (hspares [] _ rfl) pc hpc hused
    | dial i ok | finish i => trivial
    | removePeer addr | close => exact he.elim
  · intro hcond order s' hx c hused hc
    cases e with
    | getClient addr now _ =>
        cases PoolStep.of_step hx with
        | hit hnow hpc => exact hc
        | miss hnow horder hmiss => exact hroom.mpr (hcond hnow hmiss) order horder c hused hc
    | register i now _ =>
        cases PoolStep.of_step hx with
        | duplicate hcall hnow hpc =>
            refine (List.mem_append.mp hc).resolve_right fun hi => ?_
            rw [List.mem_singleton.mp hi] at hused
            exact not_past_of_brings hcall (hinv.known i (.inr hused))
        | insert hcall hnow horder hmiss =>
            exact hroom.mpr (hcond _ hcall hnow hmiss) order horder c hused hc
    | evictIdle now =>
        cases PoolStep.of_step hx with
        | evictIdle =>
            refine (discard_spares_iff hinv _).mpr (fun pc hpc hu => ?_) c hused hc
            simpa using hcond pc hpc hu
    | dial i ok =>
        cases PoolStep.of_step hx with
        | dialOk _ | dialFailed _ => exact hc
    | finish i =>
        cases PoolStep.of_step hx with
        | finish _ => exact hc
    | removePeer addr | close => exact he.elim

/-- A connection in use, handed out just before the tick. -/
theorem eviction_spares_used_fresh :
    (PoolConfig.mk 1 1).limits.run ClientPool.dialsNamed 0
        [.getClient (str "a") 0 [], .dial 0 true, .register 0 0 []] =
      some ⟨[⟨str "a", 0, 0⟩], false, 0, [⟨str "a", .holds 0⟩], [0], []⟩ ∧
    ∀ s', (PoolConfig.mk 1 1).limits.step
        ⟨[⟨str "a", 0, 0⟩], false, 0, [⟨str "a", .holds 0⟩], [0], []⟩ (.evictIdle 0) = some s' →
      ∀ c, ClientPool.Used ⟨[⟨str "a", 0, 0⟩], false, 0, [⟨str "a", .holds 0⟩], [0], []⟩ c →
        c ∈ s'.closed → c ∈ ([] : List Nat) :=
  ⟨rfl, (eviction_spares_used ⟨1, 1⟩ 0 [.getClient (str "a") 0 [], .dial 0 true, .register 0 0 []]
    _ rfl (.evictIdle 0) trivial).mpr
    (fun pc hpc _ => by cases List.mem_singleton.mp hpc; decide) []⟩

/-- With room for one connection, a `GetClient` for another address closes the one on which a
download is under way. -/
theorem full_pool_evicts_used :
    ∃ s s', (PoolConfig.mk 1 1).limits.run ClientPool.dialsNamed 0
        [.getClient (str "a") 0 [], .dial 0 true, .register 0 0 []] = some s ∧
      s.Used 0 ∧ s.closed = [] ∧
      (PoolConfig.mk 1 1).limits.step s (.getClient (str "b") 0 s.conns) = some s' ∧
      s'.closed = [0] :=
  ⟨_, _, rfl, ⟨str "a", List.mem_singleton_self _⟩, rfl, rfl, rfl⟩

end Spider

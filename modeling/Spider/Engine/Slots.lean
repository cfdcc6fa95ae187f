import Spider.Engine.Blame
import Spider.Lib.Counting

/-!
# Spider.Engine.Slots

The slots that the workers of all jobs share (`pkg/engine/engine.go`,
`pkg/scheduler/scheduler.go`): the transfers the scheduler counts for each peer, the `assigned`
counters of each job, and the semaphore of the origin.

`Spider.Engine.Fetch` leaves the counters of a job out.  Here `addAssigned` is a command, which
`fetchChunk` issues after `Begin` and before `End`.  What each worker holds is on record, and
each counter is the number of workers that hold such a slot.
-/

namespace Spider

open Conc Counting

/-! ## The commands -/

inductive SlotCmd where
  | fetch (c : FetchCmd)
  | addAssigned (addr : Str) (delta : Int)

abbrev SlotCmd.Resp : SlotCmd → Type
  | .fetch c => c.Resp
  | .addAssigned _ _ => Unit

abbrev slotSig : Sig := ⟨SlotCmd, SlotCmd.Resp⟩

def onSlots (c : SlotCmd) : Prog slotSig c.Resp := @Prog.perform slotSig c

/-- The commands of `fetchChunk`, with the counters of its job. -/
def slotCmds : (c : FetchCmd) → Prog slotSig c.Resp
  | .beginTransfer addr => do
      if ← onSlots (.fetch (.beginTransfer addr)) then
        let () ← onSlots (.addAssigned addr 1)
        pure true
      else pure false
  | .endTransfer addr ok => do
      let () ← onSlots (.addAssigned addr (-1))
      onSlots (.fetch (.endTransfer addr ok))
  | c => onSlots (.fetch c)

def withSlots {α : Type} (p : FetchM α) : Prog slotSig α := p.interp (S := fetchSig) slotCmds

/-- The node and its scheduler, and the counters of each job. -/
structure SlotState where
  node : Node
  scheduler : Scheduler
  assigned : Nat → Str → Int

def slotExec (job : Tid → Nat) (t : Tid) : (c : SlotCmd) → c.Resp → SlotState → Option SlotState
  | .fetch c, r, x => (fetchExec t c r (x.node, x.scheduler)).map fun y => ⟨y.1, y.2, x.assigned⟩
  | .addAssigned addr delta, (), x =>
      let assigned j a := if job t = j ∧ addr = a then x.assigned j a + delta else x.assigned j a
      some { x with assigned }

/-! ## What a worker holds -/

/-- A transfer the scheduler has let begin, counted for the job while it is `loading`, or a
slot of the origin. -/
inductive Slot where
  | idle
  | peer (addr : Str) (loading : Bool)
  | origin

/-- What a worker may issue with what it holds. -/
def Slot.ok (l : Slot) : SlotCmd → Prop
  | .fetch (.beginTransfer _) | .fetch (.node (.net .acquireOrigin)) => l = .idle
  | .addAssigned addr delta => delta = 1 ∧ l = .peer addr false ∨ delta = -1 ∧ l = .peer addr true
  | .fetch (.endTransfer addr _) => l = .peer addr false
  | .fetch (.node (.net (.openStream addr _ _))) => l = .peer addr true
  | .fetch (.node (.net .releaseOrigin)) => l = .origin
  | _ => True

def Slot.next (l : Slot) : (c : SlotCmd) → c.Resp → Slot
  | .fetch (.beginTransfer addr), true => .peer addr false
  | .addAssigned addr delta, _ => .peer addr (decide (0 < delta))
  | .fetch (.endTransfer _ _), _ | .fetch (.node (.net .releaseOrigin)), _ => .idle
  | .fetch (.node (.net .acquireOrigin)), none => .origin
  | _, _ => l

inductive SlotKind where
  | inflight (addr : Str)
  | assigned (j : Nat) (addr : Str)
  | origin

def Slot.holds (job : Tid → Nat) (t : Tid) : Slot → SlotKind → Bool
  | .peer a _, .inflight addr => decide (a = addr)
  | .peer a true, .assigned j addr => decide (job t = j ∧ a = addr)
  | .origin, .origin => true
  | _, _ => false

/-- The counter of a kind of slot, with a semaphore of `slots` for the origin. -/
def SlotKind.counter (slots : Nat) (x : SlotState) : SlotKind → Int
  | .inflight addr => (x.scheduler.stats addr).inflight
  | .assigned j addr => x.assigned j addr
  | .origin => slots - x.node.net.originSlots

def Capped (cap : Int) (s : Scheduler) : Prop :=
  s.maxInflight = cap ∧ ∀ addr, ((s.stats addr).inflight : Int) ≤ cap

section Step

variable {job : Tid → Nat} {t : Tid} {x x' : SlotState} {slots : Nat} {cap : Int} {l : Slot}

theorem inflight_set (s : Scheduler) (addr a : Str) (st : Stats) :
    ((s.set addr st).stats a).inflight =
      if a = addr then st.inflight else (s.stats a).inflight := by
  simp only [Scheduler.set, Function.update_apply]
  split <;> rfl

theorem inflight_endTransfer (s : Scheduler) (now : Time) (addr a : Str) (ok : Bool) :
    ((s.endTransfer now addr ok).stats a).inflight =
      (s.stats a).inflight - if a = addr then 1 else 0 := by
  by_cases ha : a = addr
  · simp [ha, Scheduler.endTransfer_stats]
  · simp [ha, Scheduler.endTransfer_stats_of_ne]

theorem inflight_splitPeers (now : Time) (s : Scheduler) (peers : List Str) :
    (Scheduler.splitPeers now s peers).2.2.maxInflight = s.maxInflight ∧
      ∀ a, ((Scheduler.splitPeers now s peers).2.2.stats a).inflight = (s.stats a).inflight := by
  induction peers generalizing s with
  | nil => exact ⟨rfl, fun _ => rfl⟩
  | cons addr addrs ih =>
      rw [Scheduler.splitPeers]
      split
      · exact ih s
      · split
        · exact ih s
        · refine ⟨(ih _).1, fun a => ((ih _).2 a).trans ?_⟩
          rw [inflight_set]
          grind

/-- What a step does to the counters is what it does to what the worker holds. -/
theorem slot_step {c : SlotCmd} {r : c.Resp} (hok : l.ok c)
    (hpos : ∀ k, ((l.holds job t k).toNat : Int) ≤ k.counter slots x)
    (hcap : Capped cap x.scheduler) (h : slotExec job t c r x = some x') :
    (∀ k : SlotKind, k.counter slots x' =
      k.counter slots x + ((l.next c r).holds job t k).toNat - (l.holds job t k).toNat) ∧
    Capped cap x'.scheduler := by
  have hsame {y : SlotState} (hin : ∀ a, (y.scheduler.stats a).inflight = (x.scheduler.stats a).inflight)
      (hjobs : y.assigned = x.assigned) (hnet : y.node.net.originSlots = x.node.net.originSlots)
      (k : SlotKind) : k.counter slots y =
        k.counter slots x + (l.holds job t k).toNat - (l.holds job t k).toNat := by
    cases k <;> simp [SlotKind.counter, hin, hjobs, hnet]
  cases c with
  | addAssigned addr delta =>
      obtain rfl := Option.some.inj h
      refine ⟨fun k => ?_, hcap⟩
      obtain ⟨rfl, rfl⟩ | ⟨rfl, rfl⟩ := hok <;> cases k <;>
        simp only [Slot.next, Slot.holds, SlotKind.counter] <;> grind
  | fetch c =>
      obtain ⟨⟨n', s'⟩, hx, rfl⟩ := Option.map_eq_some_iff.mp h
      cases c with
      | node c =>
          obtain ⟨n1, hn, ⟨⟩⟩ := Option.map_eq_some_iff.mp hx
          refine ⟨?_, hcap⟩
          cases c with
          | store c | quota c | job c | dest c | link p q =>
              obtain ⟨y, -, rfl⟩ := part_of_exec hn
              exact hsame (fun _ => rfl) rfl rfl
          | net c =>
              obtain ⟨y, hy, rfl⟩ := nodeExec_net hn
              cases c with
              | acquireOrigin =>
                  obtain rfl : l = .idle := hok
                  intro k
                  cases r <;> cases k <;>
                    simp [execNet, Slot.next, Slot.holds, SlotKind.counter] at hy ⊢ <;> grind
              | releaseOrigin =>
                  obtain rfl : l = .origin := hok
                  obtain rfl := Option.some.inj hy
                  intro k
                  cases k <;> simp [Slot.next, Slot.holds, SlotKind.counter]
                  omega
              | _ => exact hsame (fun _ => rfl) rfl (by simp [execNet] at hy; grind)
      | rankPeers hash =>
          obtain ⟨-, ⟨⟩⟩ := Option.ite_none_right_eq_some.mp hx
          obtain ⟨hmax, hin⟩ := inflight_splitPeers r.now x.scheduler r.known
          exact ⟨hsame hin rfl rfl, hmax.trans hcap.1, fun a => (hin a).symm ▸ hcap.2 a⟩
      | isUntrusted addr =>
          obtain ⟨-, ⟨⟩⟩ := Option.ite_none_right_eq_some.mp hx
          exact ⟨hsame (fun _ => rfl) rfl rfl, hcap⟩
      | beginTransfer addr =>
          obtain ⟨hr, ⟨⟩⟩ := Option.ite_none_right_eq_some.mp hx
          obtain rfl : l = .idle := hok
          by_cases hfull : ((x.scheduler.stats addr).inflight : Int) ≥ x.scheduler.maxInflight
          · simp only [Scheduler.beginTransfer, hfull, if_true] at hr ⊢
            subst hr
            exact ⟨hsame (fun _ => rfl) rfl rfl, hcap⟩
          · simp only [Scheduler.beginTransfer, hfull, if_false] at hr ⊢
            subst hr
            rw [hcap.1] at hfull
            refine ⟨fun k => ?_, hcap.1, fun a => ?_⟩
            · cases k <;> simp [Slot.next, Slot.holds, SlotKind.counter, inflight_set]
              grind
            · have hle := hcap.2 a
              rw [inflight_set]
              grind
      | endTransfer addr ok =>
          obtain ⟨⟩ := Option.some.inj hx
          obtain rfl : l = .peer addr false := hok
          refine ⟨fun k => ?_, by unfold Scheduler.endTransfer; split <;> exact hcap.1, fun a => ?_⟩
          · have hone := hpos k
            cases k <;> simp [Slot.next, Slot.holds, SlotKind.counter, inflight_endTransfer] at hone ⊢
            grind
          · have hle := hcap.2 a
            rw [inflight_endTransfer]
            omega

end Step

/-! ## All workers together -/

/-- What each worker holds is on record. -/
abbrev SlotView := SlotState × (Tid → Slot)

abbrev slotSystem (job : Tid → Nat) : System slotSig SlotView Tid :=
  System.record ⟨slotExec job⟩ fun t c r _ held => Function.update held t ((held t).next c r)

/-- The counters count the workers. -/
def slotProtocol (job : Tid → Nat) (slots : Nat) (cap : Int) : Protocol (slotSystem job) where
  Inv x := (∀ k : SlotKind, Counts (fun t => (x.2 t).holds job t k) (k.counter slots x.1)) ∧
    Capped cap x.1.scheduler
  rely t x x' := x'.2 t = x.2 t
  about t c x := (x.2 t).ok c
  rely_refl _ _ := rfl
  rely_trans h h' := h'.trans h
  step_inv := by
    intro t c r x x' hinv hok hx
    obtain ⟨hexec, hheld⟩ := System.record_eq_some hx
    obtain ⟨hcount, hcap⟩ := slot_step hok (fun k => (hinv.1 k).toNat_le t) hinv.2 hexec
    refine ⟨fun k => ?_, hcap⟩
    rw [hcount, hheld]
    simpa using (hinv.1 k).update
      (g := fun u => (Function.update x.2 t ((x.2 t).next c r) u).holds job u k) t
      fun u hu => by rw [Function.update_of_ne hu]
  step_rely := by
    intro t c r x x' u _ _ hx hu
    rw [(System.record_eq_some hx).2, Function.update_of_ne hu]

section Workers

variable {job : Tid → Nat} {slots : Nat} {cap : Int} {l l1 l2 : Slot} {α β : Type}
variable {H : Sha256} {cfg : EngineConfig} {work : WorkItem}

/-- A worker that holds `l` does what it may while it runs the program, and then holds `l2`. -/
def Turns (l2 : Slot) : Slot → Prog slotSig α → Prop
  | l, .ret _ => l = l2
  | l, .call c k => l.ok c ∧ ∀ r, Turns l2 (l.next c r) (k r)

theorem Turns.bind {p : FetchM α} {f : α → FetchM β} (hp : Turns l1 l (withSlots p))
    (hf : ∀ a, Turns l2 l1 (withSlots (f a))) : Turns l2 l (withSlots (p >>= f)) := by
  rw [withSlots, Prog.interp_bind]
  change Turns l1 l (p.interp slotCmds) at hp
  generalize p.interp slotCmds = q at hp
  induction q generalizing l with
  | ret a => exact (show l = l1 from hp) ▸ hf a
  | call c k ih => exact ⟨hp.1, fun r => ih r (hp.2 r)⟩

theorem Turns.wp {p : Prog slotSig α} {t : Tid} {x : SlotView} (hp : Turns l2 l p) (hl : x.2 t = l) :
    (slotProtocol job slots cap).wp t (fun _ x => x.2 t = l2) p x := by
  induction p generalizing x l with
  | ret a => exact fun x' hr _ => hr.trans (hl.trans hp)
  | call c k ih =>
      intro x1 hr _
      obtain rfl : x1.2 t = l := hr.trans hl
      refine ⟨hp.1, fun r x2 hx => ih r (hp.2 r) ?_⟩
      rw [(System.record_eq_some hx).2, Function.update_self]

def ChunkSource.slot : ChunkSource → Slot
  | .peer addr => .peer addr true
  | .origin => .origin

theorem turns_download (src : ChunkSource) :
    Turns src.slot src.slot (withSlots (onNode (src.download H cfg.onCommit work))) := by
  have honly : (src.download H cfg.onCommit work).Only
      fun c : Cmd => c.carries src.addr work.hash = true ∨ ∃ c', c = .store c' :=
    Prog.only_call (.inr ⟨_, rfl⟩) fun _ => (only_transferSection.mono fun c hc => .inl hc).bind
      fun _ => Prog.only_call (.inr ⟨_, rfl⟩) fun _ => Prog.only_pure _
  generalize src.download H cfg.onCommit work = p at honly
  induction p with
  | ret a => rfl
  | call c k ih =>
      have hc : src.slot.ok (.fetch (.node c)) ∧
          ∀ r, src.slot.next (.fetch (.node c)) r = src.slot := by
        have hc := honly.1
        cases c with
        | net c =>
            cases c <;> cases src <;>
              simp_all [Cmd.carries, Slot.ok, Slot.next, ChunkSource.slot, ChunkSource.addr]
        | _ => exact ⟨trivial, fun _ => rfl⟩
      exact ⟨hc.1, fun r => (hc.2 r).symm ▸ ih r (honly.2 r)⟩

theorem turns_tryPeers (addrs : List Str) :
    Turns .idle .idle (withSlots (Scheduled.tryPeers H cfg.onCommit work addrs)) := by
  induction addrs with
  | nil => rfl
  | cons addr addrs ih =>
      rw [Scheduled.tryPeers]
      split
      · exact ih
      · refine ⟨trivial, fun r => ?_⟩
        obtain ⟨now, untrusted⟩ := r
        cases untrusted with
        | true => exact ih
        | false =>
            refine ⟨rfl, fun began => ?_⟩
            cases began with
            | false => exact ih
            | true =>
                refine ⟨.inl ⟨rfl, rfl⟩, fun _ => ?_⟩
                refine (Turns.bind (turns_download (.peer addr)) fun res => ?_ :)
                refine ⟨.inr ⟨rfl, rfl⟩, fun _ => ⟨rfl, fun _ => ?_⟩⟩
                cases res with
                | ok n => rfl
                | error e => exact ⟨trivial, fun _ => ih⟩

theorem turns_downloadFromOrigin :
    Turns .idle .idle (withSlots (onNode (downloadFromOrigin H cfg.onCommit work))) := by
  refine ⟨rfl, fun r => ?_⟩
  cases r with
  | some deadline => rfl
  | none =>
      show Turns _ _ (withSlots (onNode (readFromOrigin .. >>= _)))
      rw [onNode, Prog.interp_bind]
      exact Turns.bind (turns_download .origin) fun res => ⟨rfl, fun _ => rfl⟩

theorem turns_fetchAttempts (hasOrigin : Bool) (left : Nat) : Turns .idle .idle
    (withSlots (Scheduled.fetchAttempts H cfg.onCommit hasOrigin work left)) := by
  induction left with
  | zero =>
      rw [Scheduled.fetchAttempts, fetchFromOrigin]
      split
      · rfl
      · rw [onNode, Prog.interp_bind]
        exact turns_downloadFromOrigin.bind fun res => by cases res <;> rfl
  | succ left ih =>
      rw [Scheduled.fetchAttempts]
      refine ⟨trivial, fun cands => ((turns_tryPeers cands.order).bind fun res => ?_ :)⟩
      cases res with
      | some n => rfl
      | none =>
          dsimp only
          split
          · exact ih
          · refine ⟨trivial, fun r => ?_⟩
            cases r with
            | some deadline => rfl
            | none => exact ih

theorem turns_fetchAll (calls : List FetchCall) :
    Turns .idle .idle (withSlots (fetchAll H cfg calls)) := by
  induction calls with
  | nil => rfl
  | cons call calls ih => exact (turns_fetchAttempts call.hasOrigin _).bind fun _ => ih

/-- Before the engine's first job. -/
def slotStart (n : Node) (maxInflight : Int) : SlotView :=
  (⟨n, .new maxInflight, fun _ _ => 0⟩, fun _ => .idle)

/-- For any number of jobs on one engine, whatever their workers are handed and answered: each
counter is the number of workers that hold such a slot, within its cap; a peer is only asked by
a worker that holds a transfer from it; and when all workers have returned, nothing is held. -/
theorem slots_exact (job : Tid → Nat) {calls : Tid → List FetchCall} {n : Node} {maxInflight : Int}
    {final : Config slotSig SlotView Tid Unit}
    (hreach : Reachable (slotSystem job)
      ⟨slotStart n maxInflight, fun t => withSlots (fetchAll H cfg (calls t))⟩ final) :
    (∀ k : SlotKind, Counts (fun t => (final.st.2 t).holds job t k)
      (k.counter n.net.originSlots final.st.1)) ∧
    (∀ addr, ((final.st.1.scheduler.stats addr).inflight : Int) ≤
      if maxInflight ≤ 0 then 4 else maxInflight) ∧
    (∀ t addr h offset k, final.prog t = .call (.fetch (.node (.net (.openStream addr h offset)))) k →
      final.st.2 t = .peer addr true) ∧
    ((∀ t, ∃ a, final.prog t = .ret a) →
      ∀ k : SlotKind, k.counter n.net.originSlots final.st.1 = 0) := by
  let P := slotProtocol job n.net.originSlots (if maxInflight ≤ 0 then 4 else maxInflight)
  have hinit : P.Inv (slotStart n maxInflight) := by
    refine ⟨fun k => ?_, rfl, fun addr => ?_⟩
    · refine (counts_none fun t => by cases k <;> rfl).mpr ?_
      cases k <;> simp [SlotKind.counter, slotStart, Scheduler.new]
    · show (0 : Int) ≤ _
      split <;> omega
  obtain ⟨hinv, hwp⟩ := P.sound hinit (fun t => (turns_fetchAll (calls t)).wp rfl) hreach
  refine ⟨hinv.1, hinv.2.2, fun t addr h offset k hp => ?_, fun hret k => (counts_none ?_).mp (hinv.1 k)⟩
  · have hcall := hwp t
    rw [hp] at hcall
    exact (hcall _ rfl hinv).1
  · intro t
    obtain ⟨a, ha⟩ := hret t
    have hend := hwp t
    rw [ha] at hend
    rw [hend _ rfl hinv]
    cases k <;> rfl

end Workers

/-- Two workers of two jobs, with one transfer at a time, on their way to the same peer. -/
def twoWorkers : Config slotSig SlotView Tid Unit :=
  .play (slotSystem id)
    (fun _ c x => match c with
      | .fetch c => refusingPeer.answerFetch [str "p"] c (x.1.node, x.1.scheduler)
      | .addAssigned _ _ => ())
    [0, 0, 0, 1, 1, 1, 0]
    ⟨slotStart emptyNode 1, fun t => withSlots (fetchAll (.numbering [twoBytes])
      ⟨8, 3, false, false, defaultOptions⟩ (if t < 2 then [⟨twoBytesWork, false⟩] else []))⟩

theorem slots_exact_twoWorkers :
    (twoWorkers.st.1.scheduler.stats (str "p")).inflight = 1 ∧
      Counts (fun t => (twoWorkers.st.2 t).holds id t (.assigned 0 (str "p"))) 1 :=
  ⟨by decide +kernel, (slots_exact id Config.reachable_play).1 (.assigned 0 _)⟩

end Spider

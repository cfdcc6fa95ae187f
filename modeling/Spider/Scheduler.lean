import Spider.Tracker.Memory

/-!
# Spider.Scheduler

The circuit breaker and the in-flight caps of the peer scheduler
(`pkg/scheduler/scheduler.go`).

Latency and throughput only decide the order in which `RankPeers` returns the
peers it lets through, so they are left out, and with them the byte count and
the duration `End` is given; the order is chosen by whoever asks
(`Spider.Engine.Fetch`).
-/

namespace Spider

def untrustedAfter : Nat := 3

/-- 15 minutes. -/
def untrustedFor : Time := 15 * 60 * 1000000000

/-- `Stats`, with `none` for the zero time. -/
structure Stats where
  inflight : Nat
  failures : Nat
  untrustedAt : Option Time
  deriving DecidableEq

/-- `stats` is total: an address that has not been seen has the zero `Stats`. -/
structure Scheduler where
  stats : Str → Stats
  maxInflight : Int

namespace Scheduler

/-- `New`. -/
def new (maxInflight : Int) : Scheduler where
  stats _ := ⟨0, 0, none⟩
  maxInflight := if maxInflight ≤ 0 then 4 else maxInflight

def set (s : Scheduler) (addr : Str) (st : Stats) : Scheduler :=
  { s with stats := Function.update s.stats addr st }

/-- `IsUntrusted`. -/
def isUntrusted (s : Scheduler) (now : Time) (addr : Str) : Bool :=
  match (s.stats addr).untrustedAt with
  | none => false
  | some since => decide (durationSub now since < untrustedFor)

/-- The loop of `RankPeers`: the trusted and the untrusted peers among those with
an address.  A peer whose time is up starts again without failures. -/
def splitPeers (now : Time) : Scheduler → List Str → List Str × List Str × Scheduler
  | s, [] => ([], [], s)
  | s, addr :: addrs =>
      if addr = [] then splitPeers now s addrs
      else if s.isUntrusted now addr then
        let (trusted, untrusted, s') := splitPeers now s addrs
        (trusted, addr :: untrusted, s')
      else
        let st := s.stats addr
        let st := if st.untrustedAt.isSome then { st with untrustedAt := none, failures := 0 } else st
        let (trusted, untrusted, s') := splitPeers now (s.set addr st) addrs
        (addr :: trusted, untrusted, s')

/-- `RankPeers` before the sort. -/
def rankPeers (s : Scheduler) (now : Time) (peers : List Str) : List Str × Scheduler :=
  let (trusted, untrusted, s') := splitPeers now s peers
  (if trusted = [] then untrusted else trusted, s')

/-- `Begin`. -/
def beginTransfer (s : Scheduler) (addr : Str) : Bool × Scheduler :=
  let st := s.stats addr
  if (st.inflight : Int) ≥ s.maxInflight then (false, s)
  else (true, s.set addr { st with inflight := st.inflight + 1 })

/-- `End`. -/
def endTransfer (s : Scheduler) (now : Time) (addr : Str) (ok : Bool) : Scheduler :=
  let st := s.stats addr
  let st := { st with inflight := st.inflight - 1 }
  if ok then s.set addr { st with failures := 0 }
  else
    let st := { st with failures := st.failures + 1 }
    s.set addr (if st.failures ≥ untrustedAfter then { st with untrustedAt := some now } else st)

/-! ## What becomes of one peer -/

variable {s : Scheduler} {now : Time} {addr peer : Str}

@[simp] theorem set_stats_self (s : Scheduler) (addr : Str) (st : Stats) :
    (s.set addr st).stats addr = st := Function.update_self ..

theorem set_stats_of_ne (s : Scheduler) (st : Stats) (h : peer ≠ addr) :
    (s.set addr st).stats peer = s.stats peer := Function.update_of_ne h ..

/-- Ranking leaves a peer that is not marked as it is. -/
theorem splitPeers_stats {peers : List Str} (h : (s.stats peer).untrustedAt = none) :
    (splitPeers now s peers).2.2.stats peer = s.stats peer := by
  induction peers generalizing s with
  | nil => rfl
  | cons addr addrs ih =>
      rw [splitPeers]
      split
      · exact ih h
      · split
        · exact ih h
        · have hset : ∀ st, (addr = peer → st = s.stats peer) →
              (s.set addr st).stats peer = s.stats peer := by
            intro st hst
            by_cases hp : peer = addr
            · rw [hp, set_stats_self, hst hp.symm, hp]
            · exact set_stats_of_ne s st hp
          have hsame := hset (if (s.stats addr).untrustedAt.isSome then
            { s.stats addr with untrustedAt := none, failures := 0 } else s.stats addr)
            (by rintro rfl; simp [h])
          have hrest := ih (s := s.set addr _) (by rw [hsame]; exact h)
          exact hrest.trans hsame

theorem rankPeers_stats {peers : List Str} (h : (s.stats peer).untrustedAt = none) :
    ((s.rankPeers now peers).2).stats peer = s.stats peer :=
  splitPeers_stats h

theorem beginTransfer_stats_of_ne (h : peer ≠ addr) :
    ((s.beginTransfer addr).2).stats peer = s.stats peer := by
  by_cases hfull : ((s.stats addr).inflight : Int) ≥ s.maxInflight
  · simp [beginTransfer, hfull]
  · simp [beginTransfer, hfull, set_stats_of_ne s _ h]

theorem endTransfer_stats_of_ne {ok : Bool} (h : peer ≠ addr) :
    (s.endTransfer now addr ok).stats peer = s.stats peer := by
  unfold endTransfer
  split <;> exact set_stats_of_ne s _ h

theorem beginTransfer_stats (s : Scheduler) (addr : Str) :
    ((s.beginTransfer addr).2).stats addr =
      { s.stats addr with
        inflight := (s.stats addr).inflight + (s.beginTransfer addr).1.toNat } := by
  by_cases hfull : ((s.stats addr).inflight : Int) ≥ s.maxInflight <;>
    simp [beginTransfer, hfull]

/-- The third failure in a row, and no other event, marks a peer. -/
theorem endTransfer_stats (s : Scheduler) (now : Time) (addr : Str) (ok : Bool) :
    (s.endTransfer now addr ok).stats addr =
      { inflight := (s.stats addr).inflight - 1
        failures := if ok then 0 else (s.stats addr).failures + 1
        untrustedAt := if ok = false ∧ untrustedAfter ≤ (s.stats addr).failures + 1 then some now
          else (s.stats addr).untrustedAt } := by
  cases ok with
  | true => simp [endTransfer]
  | false =>
      by_cases h : untrustedAfter ≤ (s.stats addr).failures + 1 <;> simp [endTransfer, h]

end Scheduler

end Spider

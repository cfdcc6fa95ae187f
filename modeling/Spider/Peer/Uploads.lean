import Spider.Lib.Counting
import Spider.Peer.Server

/-!
# Spider.Peer.Uploads

The admission of uploads: `acquireUpload` and `releaseUpload` (`pkg/peer/server.go`).

A request first tries to take a slot without waiting.  If all are taken it counts itself into
`queued` and, if the counter is not beyond the limit, waits for a slot; the deferred decrement
runs when `acquireUpload` returns.  These are separate atomic steps, and requests of any number
take them in any order.

The two channels of bookkeeping are exact (`uploads_admitted`): the slots taken are those of the
requests being served, the counter is the number of requests between its increment and its
decrement.  The latter includes requests that are on their way out, so that a request may be
refused though nobody waits (`refused_without_waiters`).
-/

namespace Spider

open Counting

/-- `UploadLimits`; the bandwidth is not part of the admission. -/
structure UploadLimits where
  maxConcurrency : Int
  maxQueueSize : Int
  deriving DecidableEq

/-- The limits of a server, as `NewServerWithLimits` sets them. -/
structure UploadCaps where
  slots : Nat
  maxQueue : Nat
  deriving DecidableEq

def UploadLimits.caps (lim : UploadLimits) : UploadCaps where
  slots := if lim.maxConcurrency ≤ 0 then 16 else lim.maxConcurrency.toNat
  maxQueue := if lim.maxQueueSize < 0 then 0 else lim.maxQueueSize.toNat

/-- Where a `GetChunk` request is. -/
inductive UploadPhase where
  /-- before the first `select` -/
  | arrived
  /-- the first `select` has found all slots taken -/
  | full
  /-- in the second `select` -/
  | waiting
  /-- `acquireUpload` returns this; the decrement is still to come -/
  | leaving (result : Option Status)
  /-- holds a slot -/
  | serving
  | finished (result : Option Status)
  deriving DecidableEq

/-- A step of one request. -/
inductive UploadAction where
  | trySlot
  | enqueue
  | getSlot
  | cancel (st : Status)
  | leave
  /-- `GetChunk` returns, on whatever path -/
  | finish (result : Option Status)
  deriving DecidableEq

def concurrencyReached : Status := ⟨.resourceExhausted, str "upload concurrency limit reached"⟩

def queueFull : Status := ⟨.resourceExhausted, str "upload queue full"⟩

/-- A step of one request, with the tokens in the channel and the counter; `none` if it cannot
happen now. -/
def UploadCaps.act (caps : UploadCaps) (taken : Nat) (queued : Int) :
    UploadPhase → UploadAction → Option (UploadPhase × Nat × Int)
  | .arrived, .trySlot =>
      if taken < caps.slots then some (.serving, taken + 1, queued) else some (.full, taken, queued)
  | .full, .enqueue =>
      if caps.maxQueue = 0 then some (.finished (some concurrencyReached), taken, queued)
      else if queued + 1 > caps.maxQueue then some (.leaving (some queueFull), taken, queued + 1)
      else some (.waiting, taken, queued + 1)
  | .waiting, .getSlot =>
      if taken < caps.slots then some (.leaving none, taken + 1, queued) else none
  | .waiting, .cancel st => some (.leaving (some st), taken, queued)
  | .leaving none, .leave => some (.serving, taken, queued - 1)
  | .leaving (some st), .leave => some (.finished (some st), taken, queued - 1)
  | .serving, .finish result => some (.finished result, taken - 1, queued)
  | _, _ => none

/-- The requests, the tokens in `slots` and the counter `queued`. -/
structure UploadState where
  taken : Nat
  queued : Int
  requests : List UploadPhase
  deriving DecidableEq

inductive UploadEvent where
  | arrive
  | act (i : Nat) (a : UploadAction)
  deriving DecidableEq

def UploadCaps.step (caps : UploadCaps) (s : UploadState) : UploadEvent → Option UploadState
  | .arrive => some { s with requests := s.requests ++ [.arrived] }
  | .act i a => do
      let p ← s.requests[i]?
      let (p', taken, queued) ← caps.act s.taken s.queued p a
      pure ⟨taken, queued, s.requests.set i p'⟩

def UploadCaps.run (caps : UploadCaps) (es : List UploadEvent) : Option UploadState :=
  es.foldlM caps.step ⟨0, 0, []⟩

/-! ## Who holds what -/

def UploadPhase.holdsSlot : UploadPhase → Bool
  | .serving | .leaving none => true
  | _ => false

/-- Between the increment and the decrement of the counter. -/
def UploadPhase.counted : UploadPhase → Bool
  | .waiting | .leaving _ => true
  | _ => false

/-- Waits for a slot. -/
def UploadPhase.waits : UploadPhase → Bool
  | .waiting => true
  | _ => false

structure UploadInv (caps : UploadCaps) (s : UploadState) : Prop where
  taken : s.taken = s.requests.countP UploadPhase.holdsSlot
  queued : s.queued = s.requests.countP UploadPhase.counted
  slots : s.taken ≤ caps.slots
  waiting : s.requests.countP UploadPhase.waits ≤ caps.maxQueue

section Steps

variable {caps : UploadCaps} {s s' : UploadState} {i taken taken' : Nat} {queued queued' : Int}
  {p p' : UploadPhase} {a : UploadAction} {e : UploadEvent}

theorem step_act : caps.step s (.act i a) = some s' ↔ ∃ p p' taken queued,
    s.requests[i]? = some p ∧ caps.act s.taken s.queued p a = some (p', taken, queued) ∧
      s' = ⟨taken, queued, s.requests.set i p'⟩ := by
  simp only [UploadCaps.step, Option.bind_eq_bind, Option.bind_eq_some_iff, Option.pure_def,
    Option.some.injEq]
  constructor
  · rintro ⟨p, hp, ⟨p', taken, queued⟩, hact, rfl⟩
    exact ⟨p, p', taken, queued, hp, hact, rfl⟩
  · rintro ⟨p, p', taken, queued, hp, hact, rfl⟩
    exact ⟨p, hp, (p', taken, queued), hact, rfl⟩

/-- A step takes and gives back what its phases say.  It takes a slot only if there is one, and
begins to wait only if the counter, with itself, is within the limit. -/
theorem act_spec (hact : caps.act taken queued p a = some (p', taken', queued')) :
    (p.holdsSlot.toNat ≤ taken → taken' + p.holdsSlot.toNat = taken + p'.holdsSlot.toNat) ∧
      queued' + p.counted.toNat = queued + p'.counted.toNat ∧
      (taken ≤ caps.slots → taken' ≤ caps.slots) ∧
      (p'.waits = true → queued + 1 ≤ caps.maxQueue) := by
  unfold UploadCaps.act at hact
  split at hact
  all_goals try split at hact
  all_goals try split at hact
  all_goals cases hact
  all_goals simp [UploadPhase.holdsSlot, UploadPhase.counted, UploadPhase.waits]
  all_goals omega

theorem UploadInv.step (h : UploadInv caps s) (hx : caps.step s e = some s') :
    UploadInv caps s' := by
  obtain ⟨htaken, hqueued, hslots, hwaiting⟩ := h
  cases e with
  | arrive =>
      obtain rfl := Option.some.inj hx
      refine ⟨?_, ?_, hslots, ?_⟩
      · rw [List.countP_append, htaken]
        rfl
      · rw [List.countP_append, hqueued]
        rfl
      · rw [List.countP_append]
        exact hwaiting
  | act i a =>
      obtain ⟨p, p', taken, queued, hp, hact, rfl⟩ := step_act.mp hx
      obtain ⟨hdtaken, hdqueued, hdslots, hwaits⟩ := act_spec hact
      have hmem := List.mem_of_getElem? hp
      have hholds := countP_set_add UploadPhase.holdsSlot p' hp
      have hcounted := countP_set_add UploadPhase.counted p' hp
      have hwait := countP_set_add UploadPhase.waits p' hp
      refine ⟨?_, ?_, hdslots hslots, ?_⟩
      · have hdtaken := hdtaken (htaken ▸ toNat_le_countP hmem)
        dsimp only
        omega
      · dsimp only
        omega
      · -- whoever waits is counted
        have hsub : s.requests.countP UploadPhase.waits ≤
            s.requests.countP UploadPhase.counted := by
          refine List.countP_mono_left fun q _ hq => ?_
          cases q <;> first | rfl | contradiction
        dsimp only
        cases hw : p'.waits with
        | false =>
            rw [hw, Bool.toNat_false] at hwait
            omega
        | true =>
            have hroom := hwaits hw
            rw [hw, Bool.toNat_true] at hwait
            omega

variable {es : List UploadEvent}

theorem UploadCaps.run_concat : caps.run (es ++ [e]) = some s' ↔
    ∃ s, caps.run es = some s ∧ caps.step s e = some s' := by
  simp [UploadCaps.run, Option.bind_eq_some_iff]

/-- A request that has found the slots taken has tried when they were. -/
theorem act_full (hact : caps.act taken queued p a = some (.full, taken', queued')) :
    a = .trySlot ∧ caps.slots ≤ taken := by
  unfold UploadCaps.act at hact
  split at hact
  all_goals try split at hact
  all_goals try split at hact
  all_goals cases hact
  exact ⟨rfl, by omega⟩

/-- All slots were taken when a request tried to get one. -/
def TriedFull (caps : UploadCaps) (es : List UploadEvent) (i : Nat) : Prop :=
  ∃ before later s, es = before ++ .act i .trySlot :: later ∧ caps.run before = some s ∧
    caps.slots ≤ s.taken

theorem TriedFull.concat (h : TriedFull caps es i) : TriedFull caps (es ++ [e]) i := by
  obtain ⟨before, later, s, rfl, hrun, hfull⟩ := h
  exact ⟨before, later ++ [e], s, by simp, hrun, hfull⟩

theorem uploads_run (hrun : caps.run es = some s) :
    UploadInv caps s ∧ ∀ i, s.requests[i]? = some .full → TriedFull caps es i := by
  induction es using List.reverseRecOn generalizing s with
  | nil =>
      obtain rfl := Option.some.inj hrun
      exact ⟨⟨rfl, rfl, Nat.zero_le _, Nat.zero_le _⟩, fun i h => by simp at h⟩
  | append_singleton es e ih =>
      obtain ⟨s0, hbefore, hx⟩ := UploadCaps.run_concat.mp hrun
      obtain ⟨hinv, hfull⟩ := ih hbefore
      refine ⟨hinv.step hx, fun j hj => ?_⟩
      cases e with
      | arrive =>
          obtain rfl := Option.some.inj hx
          rw [List.getElem?_append] at hj
          split at hj
          · exact (hfull j hj).concat
          · exact absurd (List.mem_of_getElem? hj) (by simp)
      | act i a =>
          obtain ⟨p, p', taken, queued, hp, hact, rfl⟩ := step_act.mp hx
          rw [List.getElem?_set] at hj
          split at hj
          · rename_i hij
            subst hij
            obtain ⟨-, ⟨⟩⟩ := Option.ite_none_right_eq_some.mp hj
            obtain ⟨rfl, htaken⟩ := act_full hact
            exact ⟨es, [], s0, rfl, hbefore, htaken⟩
          · exact (hfull j hj).concat

end Steps

/-- The next step of a request turns it away. -/
def UploadCaps.refuses (caps : UploadCaps) (s : UploadState) (i : Nat) : Prop :=
  s.requests[i]? = some .full ∧ ∃ taken queued,
    caps.act s.taken s.queued .full .enqueue = some (.leaving (some queueFull), taken, queued)

instance (caps : UploadCaps) (s : UploadState) (i : Nat) : Decidable (caps.refuses s i) :=
  decidable_of_iff (s.requests[i]? = some .full ∧
    (caps.act s.taken s.queued .full .enqueue).map Prod.fst = some (.leaving (some queueFull))) (by
      simp [UploadCaps.refuses, Option.map_eq_some_iff])

/-- **Admission.**  In every state of every run: the slots taken are those of the requests that
hold one, and there are never more than the limit; the counter is the number of requests between
its increment and its decrement, and never more than the limit of them wait; both are back at
zero when all requests have finished.  A request is turned away only if the limit is reached by
requests that are counted, each waiting or about to leave, and all slots were taken when it
tried. -/
theorem uploads_admitted (lim : UploadLimits) (es : List UploadEvent) (s : UploadState)
    (hrun : lim.caps.run es = some s) :
    s.taken = s.requests.countP UploadPhase.holdsSlot ∧ s.taken ≤ lim.caps.slots ∧
    s.queued = s.requests.countP UploadPhase.counted ∧
    s.requests.countP UploadPhase.waits ≤ lim.caps.maxQueue ∧
    ((∀ p ∈ s.requests, ∃ result, p = .finished result) → s.taken = 0 ∧ s.queued = 0) ∧
    ∀ i, lim.caps.refuses s i →
      lim.caps.maxQueue ≤ s.requests.countP UploadPhase.counted ∧ TriedFull lim.caps es i := by
  obtain ⟨⟨htaken, hqueued, hslots, hwaiting⟩, hfull⟩ := uploads_run hrun
  refine ⟨htaken, hslots, hqueued, hwaiting, fun hall => ?_, fun i hrefuses => ?_⟩
  · have hnone : ∀ f : UploadPhase → Bool, (∀ result, f (.finished result) = false) →
        s.requests.countP f = 0 := by
      intro f hf
      rw [List.countP_eq_zero]
      intro p hp
      obtain ⟨result, rfl⟩ := hall p hp
      simp [hf]
    rw [htaken, hqueued, hnone _ fun _ => rfl, hnone _ fun _ => rfl]
    exact ⟨rfl, rfl⟩
  · obtain ⟨hp, taken, queued, hact⟩ := hrefuses
    refine ⟨?_, hfull i hp⟩
    simp only [UploadCaps.act] at hact
    split at hact
    · simp at hact
    · split at hact
      · omega
      · simp at hact

/-- One slot, one place to wait: request 0 is served and 1 waits when 2 is turned away and 3
finds the slot taken. -/
def crowded : List UploadEvent :=
  [.arrive, .arrive, .arrive, .arrive, .act 0 .trySlot, .act 1 .trySlot, .act 1 .enqueue,
    .act 2 .trySlot, .act 2 .enqueue, .act 3 .trySlot]

theorem uploads_admitted_crowded :
    ((UploadLimits.mk 1 1).caps.run crowded).isSome = true ∧
    ∀ s, (UploadLimits.mk 1 1).caps.run crowded = some s →
      s.requests.countP UploadPhase.waits ≤ 1 :=
  ⟨by decide, fun s hrun => (uploads_admitted ⟨1, 1⟩ crowded s hrun).2.2.2.1⟩

/-- The waiting request is served and done before 2 takes itself off the counter; so 3 is turned
away by an idle server. -/
theorem refused_without_waiters :
    ∃ s, (UploadLimits.mk 1 1).caps.run (crowded ++ [.act 0 (.finish none), .act 1 .getSlot,
        .act 1 .leave, .act 1 (.finish none)]) = some s ∧
      (UploadLimits.mk 1 1).caps.refuses s 3 ∧ s.taken = 0 ∧
      s.requests.countP UploadPhase.waits = 0 :=
  ⟨⟨0, 1, [.finished none, .finished none, .leaving (some queueFull), .full]⟩, by decide⟩

end Spider

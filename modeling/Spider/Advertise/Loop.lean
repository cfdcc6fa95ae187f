import Spider.Advertise

/-!
# Spider.Advertise.Loop

The advertiser's queues (`pkg/advertise/advertise.go`): callers of `Enqueue` and `Reconcile`,
the channel, the batch buffer, the retry list, and the loop that empties them into
`ReportChunks`, up to the shutdown by `Stop`.

A step is what happens between two points at which another goroutine can come in: a channel
operation, a section under `retryMu`, a call of `ReportChunks`.  The loop's work that is left
stands in `tasks`.

No step loses a hash or makes one up (`tally_step`): every hash handed in is waiting somewhere,
or has been reported successfully, or has been counted as a failure.
-/

namespace Spider

open Conc

/-! ## The advertiser -/

/-- The size of the channel. -/
def channelSize : Nat := 1024

def maxRetryQueue : Nat := 4096

/-- `retryEntry`. -/
structure RetryEntry where
  hash : Str
  attempt : Nat
  nextAt : Time
  deriving DecidableEq

/-- An advertiser with all its loop reads. -/
structure BatchAdvertiser extends Advertiser where
  batchSize : Int
  retryInitial : Time
  retryMax : Time

/-- `New`; the interval of the ticker is not part of the model. -/
def BatchAdvertiser.new (hasClient : Bool) (nodeID : Str) (batchSize : Int) (maxRetries : Nat)
    (retryBackoff maxRetryBackoff : Time) : BatchAdvertiser where
  hasClient := hasClient
  nodeID := nodeID
  maxRetries := maxRetries
  batchSize := batchSize
  retryInitial := retryBackoff
  retryMax := if maxRetryBackoff ≤ 0 then 5000000000 else maxRetryBackoff

/-- Double a delay some times, up to a maximum. -/
def doubled (max : Time) : Nat → Time → Time
  | 0, backoff => backoff
  | n + 1, backoff => if 2 * backoff > max then max else doubled max n (2 * backoff)

/-- The delay before an attempt. -/
def BatchAdvertiser.backoff (a : BatchAdvertiser) (attempt : Nat) : Time :=
  doubled a.retryMax (attempt - 1) a.retryInitial

/-- What `flush` does when its call, if it makes one, gets this reply. -/
def Advertiser.flushed (a : Advertiser) (hashes : List Str) (attempt : Nat)
    (reply : Except Str Nat) : Flushed :=
  ((a.flush hashes attempt).eval (fun _ u => (reply, u) : Handler reporterSig Unit) ()).1

/-! ## State -/

/-- The advertisement metrics. -/
structure AdMetrics where
  success : Nat
  failures : Nat
  retries : Nat
  queueDepth : Int
  deriving DecidableEq

/-- A goroutine in `Enqueue` or `Reconcile`: the hashes it still has to enqueue, and whether
the first of them has found the channel full. -/
structure Caller where
  todo : List Str
  full : Bool
  deriving DecidableEq

/-- A call the loop has to make before it goes on. -/
inductive AdTask where
  | flush (hashes : List Str) (attempt : Nat)
  | scheduleRetry (hashes : List Str) (attempt : Nat)
  | flushRetries
  deriving DecidableEq

/-- Where the loop is, once it has no task left. -/
inductive AdControl where
  /-- the outer `select` -/
  | select
  /-- the inner `select`, after `done` -/
  | drain
  /-- before `flushRetries(true)` -/
  | lastFlush
  /-- in `flushRetries(true)` -/
  | lastRetries
  | returned
  deriving DecidableEq

/-- A call of `ReportChunks` that has come back. -/
structure Report where
  hashes : List Str
  ok : Bool
  deriving DecidableEq

/-- An advertiser at work.  `reports` and `counted` are bookkeeping for the statements below:
the calls made so far, and the hashes `AdvertisementFailures` has counted. -/
structure AdState where
  ch : List Str
  retry : List RetryEntry
  callers : List Caller
  stopped : Bool
  control : AdControl
  buf : List Str
  tasks : List AdTask
  metrics : AdMetrics
  reports : List Report
  counted : List Str

namespace AdState

def start : AdState := ⟨[], [], [], false, .select, [], [], ⟨0, 0, 0, 0⟩, [], []⟩

/-- One hash of `scheduleRetry`. -/
def keep (s : AdState) (e : RetryEntry) : AdState :=
  if maxRetryQueue ≤ s.retry.length then
    { s with
      counted := s.counted ++ [e.hash]
      metrics := { s.metrics with failures := s.metrics.failures + 1 } }
  else
    { s with
      retry := s.retry ++ [e]
      metrics := { s.metrics with
        queueDepth := s.metrics.queueDepth + 1
        retries := s.metrics.retries + if 0 < e.attempt then 1 else 0 } }

/-- The start of `flushRetries`, under the lock: the entries that are due, or all of them. -/
def takeRetries (s : AdState) (force : Bool) (now : Time) (tasks : List AdTask) : AdState :=
  let due := fun e : RetryEntry => force || decide (e.nextAt ≤ now)
  { s with
    retry := s.retry.filter fun e => !due e
    tasks := (s.retry.filter due).map (fun e => .flush [e.hash] e.attempt) ++ tasks }

/-- The `flush` of the loop. -/
def flushBuf (s : AdState) (tasks : List AdTask) : AdState :=
  { s with
    buf := []
    tasks := (if s.buf = [] then [] else [.flush s.buf 0]) ++ tasks }

end AdState

namespace BatchAdvertiser

/-- `scheduleRetry`, at a given time. -/
def scheduleRetry (a : BatchAdvertiser) (now : Time) (hashes : List Str) (attempt : Nat)
    (s : AdState) : AdState :=
  hashes.foldl (fun s h => s.keep ⟨h, attempt, now + a.backoff attempt⟩) s

/-- The end of a `flush`. -/
def endFlush (a : BatchAdvertiser) (hashes : List Str) (attempt : Nat) (reply : Except Str Nat)
    (tasks : List AdTask) (s : AdState) : AdState :=
  let o := a.flushed hashes attempt reply
  { s with
    tasks := o.retry.toList.map (fun r => .scheduleRetry r.1 r.2) ++ tasks
    metrics := { s.metrics with
      success := s.metrics.success + o.success
      failures := s.metrics.failures + o.failures
      queueDepth := s.metrics.queueDepth - o.success }
    reports := s.reports ++
      if a.hasClient = false ∨ hashes = [] then [] else [⟨hashes, reply.isOk⟩]
    counted := s.counted ++ if o.failures = 0 then [] else hashes }

/-- The hashes `Enqueue` does not drop at once. -/
def accepts (a : BatchAdvertiser) (hashes : List Str) : List Str :=
  if a.hasClient then hashes.filter (· ≠ []) else []

end BatchAdvertiser

/-! ## Steps -/

/-- What can happen next. -/
inductive AdEvent where
  | enqueue (hash : Str)
  | reconcile (hashes : List Str)
  /-- the `select` of a caller -/
  | send (caller : Nat)
  /-- `scheduleRetry` in the default case of that `select` -/
  | overflow (caller : Nat) (now : Time)
  | stop
  | receive
  | tick
  | done
  | drain
  | drained
  | report (reply : Except Str Nat)
  | schedule (now : Time)
  | takeRetries (now : Time)
  | finish

/-- The hashes a call hands in; `Reconcile` enqueues each of its hashes once. -/
def AdEvent.hands (a : BatchAdvertiser) : AdEvent → List Str
  | .enqueue h => a.accepts [h]
  | .reconcile hashes => (a.accepts hashes).eraseDups
  | _ => []

/-- One step; `none` if it cannot happen now.  Calls are made before `Stop`, and `Stop` is
called when they have returned. -/
def BatchAdvertiser.step (a : BatchAdvertiser) (s : AdState) (e : AdEvent) : Option AdState :=
  match e with
  | .enqueue _ | .reconcile _ =>
      if s.stopped then none else some { s with callers := s.callers ++ [⟨e.hands a, false⟩] }
  | .send i =>
      match s.callers.drop i with
      | ⟨h :: rest, false⟩ :: more =>
          if s.ch.length < channelSize then
            some { s with
              ch := s.ch ++ [h]
              callers := s.callers.take i ++ ⟨rest, false⟩ :: more
              metrics := { s.metrics with queueDepth := s.metrics.queueDepth + 1 } }
          else some { s with callers := s.callers.take i ++ ⟨h :: rest, true⟩ :: more }
      | _ => none
  | .overflow i now =>
      match s.callers.drop i with
      | ⟨h :: rest, true⟩ :: more =>
          some (a.scheduleRetry now [h] 0
            { s with callers := s.callers.take i ++ ⟨rest, false⟩ :: more })
      | _ => none
  | .stop =>
      if s.stopped = false ∧ ∀ c ∈ s.callers, c.todo = [] then some { s with stopped := true }
      else none
  | .receive =>
      match s.control, s.tasks, s.ch with
      | .select, [], h :: rest =>
          let s' := { s with ch := rest, buf := s.buf ++ [h] }
          some (if a.batchSize ≤ s'.buf.length then s'.flushBuf [] else s')
      | _, _, _ => none
  | .tick =>
      match s.control, s.tasks with
      | .select, [] => some (s.flushBuf [.flushRetries])
      | _, _ => none
  | .done =>
      match s.control, s.tasks with
      | .select, [] => if s.stopped then some { s with control := .drain } else none
      | _, _ => none
  | .drain =>
      match s.control, s.ch with
      | .drain, h :: rest => some { s with ch := rest, buf := s.buf ++ [h] }
      | _, _ => none
  | .drained =>
      match s.control, s.tasks, s.ch with
      | .drain, [], [] => some { s.flushBuf [] with control := .lastFlush }
      | _, _, _ => none
  | .report reply =>
      match s.tasks with
      | .flush hashes attempt :: tasks => some (a.endFlush hashes attempt reply tasks s)
      | _ => none
  | .schedule now =>
      match s.tasks with
      | .scheduleRetry hashes attempt :: tasks =>
          some (a.scheduleRetry now hashes attempt { s with tasks := tasks })
      | _ => none
  | .takeRetries now =>
      match s.control, s.tasks with
      | .select, .flushRetries :: tasks => some (s.takeRetries false now tasks)
      | .lastFlush, [] => some { s.takeRetries true now [] with control := .lastRetries }
      | _, _ => none
  | .finish =>
      match s.control, s.tasks with
      | .lastRetries, [] => some { s with control := .returned }
      | _, _ => none

/-- What a step can do. -/
inductive AdStep (a : BatchAdvertiser) (s : AdState) : AdEvent → AdState → Prop
  | call {e : AdEvent} (he : (∃ h, e = .enqueue h) ∨ ∃ hashes, e = .reconcile hashes)
      (hopen : s.stopped = false) :
      AdStep a s e { s with callers := s.callers ++ [⟨e.hands a, false⟩] }
  | send {i : Nat} {h : Str} {rest : List Str} {more : List Caller}
      (hdrop : s.callers.drop i = ⟨h :: rest, false⟩ :: more) (hroom : s.ch.length < channelSize) :
      AdStep a s (.send i) { s with
        ch := s.ch ++ [h]
        callers := s.callers.take i ++ ⟨rest, false⟩ :: more
        metrics := { s.metrics with queueDepth := s.metrics.queueDepth + 1 } }
  | full {i : Nat} {h : Str} {rest : List Str} {more : List Caller}
      (hdrop : s.callers.drop i = ⟨h :: rest, false⟩ :: more) (hfull : ¬ s.ch.length < channelSize) :
      AdStep a s (.send i) { s with callers := s.callers.take i ++ ⟨h :: rest, true⟩ :: more }
  | overflow {i : Nat} {now : Time} {h : Str} {rest : List Str} {more : List Caller}
      (hdrop : s.callers.drop i = ⟨h :: rest, true⟩ :: more) :
      AdStep a s (.overflow i now) (a.scheduleRetry now [h] 0
        { s with callers := s.callers.take i ++ ⟨rest, false⟩ :: more })
  | stop (hopen : s.stopped = false) (hcallers : ∀ c ∈ s.callers, c.todo = []) :
      AdStep a s .stop { s with stopped := true }
  | receive {h : Str} {rest : List Str} (hcontrol : s.control = .select) (htasks : s.tasks = [])
      (hch : s.ch = h :: rest) :
      AdStep a s .receive { s with ch := rest, buf := s.buf ++ [h] }
  | receiveLast {h : Str} {rest : List Str} (hcontrol : s.control = .select) (htasks : s.tasks = [])
      (hch : s.ch = h :: rest) :
      AdStep a s .receive (({ s with ch := rest, buf := s.buf ++ [h] } : AdState).flushBuf [])
  | tick (hcontrol : s.control = .select) (htasks : s.tasks = []) :
      AdStep a s .tick (s.flushBuf [.flushRetries])
  | done (hcontrol : s.control = .select) (htasks : s.tasks = []) (hstopped : s.stopped = true) :
      AdStep a s .done { s with control := .drain }
  | drain {h : Str} {rest : List Str} (hcontrol : s.control = .drain) (hch : s.ch = h :: rest) :
      AdStep a s .drain { s with ch := rest, buf := s.buf ++ [h] }
  | drained (hcontrol : s.control = .drain) (htasks : s.tasks = []) (hch : s.ch = []) :
      AdStep a s .drained { s.flushBuf [] with control := .lastFlush }
  | report {hashes : List Str} {attempt : Nat} {reply : Except Str Nat} {tasks : List AdTask}
      (htasks : s.tasks = .flush hashes attempt :: tasks) :
      AdStep a s (.report reply) (a.endFlush hashes attempt reply tasks s)
  | schedule {hashes : List Str} {attempt : Nat} {now : Time} {tasks : List AdTask}
      (htasks : s.tasks = .scheduleRetry hashes attempt :: tasks) :
      AdStep a s (.schedule now) (a.scheduleRetry now hashes attempt { s with tasks := tasks })
  | takeRetries {now : Time} {tasks : List AdTask} (hcontrol : s.control = .select)
      (htasks : s.tasks = .flushRetries :: tasks) :
      AdStep a s (.takeRetries now) (s.takeRetries false now tasks)
  | takeLast {now : Time} (hcontrol : s.control = .lastFlush) (htasks : s.tasks = []) :
      AdStep a s (.takeRetries now) { s.takeRetries true now [] with control := .lastRetries }
  | finish (hcontrol : s.control = .lastRetries) (htasks : s.tasks = []) :
      AdStep a s .finish { s with control := .returned }

theorem AdStep.of_step {a : BatchAdvertiser} {s s' : AdState} {e : AdEvent}
    (hx : a.step s e = some s') : AdStep a s e s' := by
  cases e with
  | enqueue h =>
      simp only [BatchAdvertiser.step, Option.ite_none_left_eq_some, Option.some.injEq] at hx
      obtain ⟨hopen, rfl⟩ := hx
      exact .call (.inl ⟨h, rfl⟩) (by simpa using hopen)
  | reconcile hashes =>
      simp only [BatchAdvertiser.step, Option.ite_none_left_eq_some, Option.some.injEq] at hx
      obtain ⟨hopen, rfl⟩ := hx
      exact .call (.inr ⟨hashes, rfl⟩) (by simpa using hopen)
  | send i =>
      simp only [BatchAdvertiser.step] at hx
      split at hx
      · rename_i h rest more hdrop
        split at hx
        · cases hx
          exact .send hdrop ‹_›
        · cases hx
          exact .full hdrop ‹_›
      · contradiction
  | overflow i now =>
      simp only [BatchAdvertiser.step] at hx
      split at hx
      · cases hx
        exact .overflow ‹_›
      · contradiction
  | stop =>
      obtain ⟨⟨hopen, hcallers⟩, ⟨⟩⟩ := Option.ite_none_right_eq_some.mp hx
      exact .stop hopen hcallers
  | receive =>
      simp only [BatchAdvertiser.step] at hx
      split at hx
      · cases hx
        split
        · exact .receiveLast ‹_› ‹_› ‹_›
        · exact .receive ‹_› ‹_› ‹_›
      · contradiction
  | tick =>
      simp only [BatchAdvertiser.step] at hx
      split at hx
      · cases hx
        exact .tick ‹_› ‹_›
      · contradiction
  | done =>
      simp only [BatchAdvertiser.step] at hx
      split at hx
      · split at hx
        · cases hx
          exact .done ‹_› ‹_› ‹_›
        · contradiction
      · contradiction
  | drain =>
      simp only [BatchAdvertiser.step] at hx
      split at hx
      · cases hx
        exact .drain ‹_› ‹_›
      · contradiction
  | drained =>
      simp only [BatchAdvertiser.step] at hx
      split at hx
      · cases hx
        exact .drained ‹_› ‹_› ‹_›
      · contradiction
  | report reply =>
      simp only [BatchAdvertiser.step] at hx
      split at hx
      · cases hx
        exact .report ‹_›
      · contradiction
  | schedule now =>
      simp only [BatchAdvertiser.step] at hx
      split at hx
      · cases hx
        exact .schedule ‹_›
      · contradiction
  | takeRetries now =>
      simp only [BatchAdvertiser.step] at hx
      split at hx
      · cases hx
        exact .takeRetries ‹_› ‹_›
      · cases hx
        exact .takeLast ‹_› ‹_›
      · contradiction
  | finish =>
      simp only [BatchAdvertiser.step] at hx
      split at hx
      · cases hx
        exact .finish ‹_› ‹_›
      · contradiction

/-- A run. -/
def BatchAdvertiser.run (a : BatchAdvertiser) (s : AdState) (es : List AdEvent) : Option AdState :=
  es.foldlM a.step s

/-- The hashes handed in by a run. -/
def BatchAdvertiser.handed (a : BatchAdvertiser) (es : List AdEvent) : List Str :=
  es.flatMap (AdEvent.hands a)

/-! ## Where a hash is -/

/-- The hashes a task is about. -/
def AdTask.hashes : AdTask → List Str
  | .flush hashes _ => hashes
  | .scheduleRetry hashes _ => hashes
  | .flushRetries => []

namespace AdState

/-- The hashes on their way. -/
def waiting (s : AdState) : List Str :=
  s.callers.flatMap Caller.todo ++ s.ch ++ s.buf ++ s.tasks.flatMap AdTask.hashes ++
    s.retry.map RetryEntry.hash

/-- The hashes of successful reports, and those counted as failures. -/
def settled (s : AdState) : List Str :=
  (s.reports.flatMap fun r => if r.ok then r.hashes else []) ++ s.counted

/-- All hashes, wherever they are. -/
def tally (s : AdState) : List Str := s.waiting ++ s.settled

/-- How often the report of a hash has failed. -/
def failed (s : AdState) (h : Str) : Nat :=
  s.reports.countP fun r => !r.ok && decide (h ∈ r.hashes)

/-- A hash is accounted for: it has been reported successfully, or has failed `maxRetries`
times, or has been counted as a failure. -/
def Accounted (a : BatchAdvertiser) (s : AdState) (h : Str) : Prop :=
  (∃ r ∈ s.reports, r.ok = true ∧ h ∈ r.hashes) ∨ a.maxRetries ≤ s.failed h ∨ h ∈ s.counted

end AdState

section Conservation

variable {a : BatchAdvertiser} {s s' : AdState}
variable {attempt : Nat} {hashes : List Str} {tasks : List AdTask}

theorem flushed_ok {n : Nat} (hclient : a.hasClient = true) (hne : hashes ≠ []) :
    a.flushed hashes attempt (.ok n) = ⟨none, none, hashes.length, 0⟩ := by
  rw [Advertiser.flushed, Advertiser.flush, if_neg (by simp [hclient, hne])]
  rfl

theorem flushed_error {err : Str} (hclient : a.hasClient = true) (hne : hashes ≠ []) :
    a.flushed hashes attempt (.error err) =
      if attempt + 1 < a.maxRetries then ⟨some err, some (hashes, attempt + 1), 0, 0⟩
      else ⟨some err, none, 0, hashes.length⟩ := by
  rw [Advertiser.flushed, Advertiser.flush, if_neg (by simp [hclient, hne])]
  split <;> rfl

theorem flushed_nil {reply : Except Str Nat} : a.flushed [] attempt reply = ⟨none, none, 0, 0⟩ := by
  rw [Advertiser.flushed, Advertiser.flush, if_pos (.inr rfl)]
  rfl

/-- How often a hash is in each place. -/
theorem count_tally (h : Str) : s.tally.count h =
    (s.callers.flatMap Caller.todo).count h + s.ch.count h + s.buf.count h +
      (s.tasks.flatMap AdTask.hashes).count h + (s.retry.map RetryEntry.hash).count h +
      (s.reports.flatMap fun r => if r.ok then r.hashes else []).count h + s.counted.count h := by
  simp only [AdState.tally, AdState.waiting, AdState.settled, List.count_append]
  omega

theorem tally_keep {e : RetryEntry} : (s.keep e).tally.Perm (s.tally ++ [e.hash]) := by
  rw [List.perm_iff_count]
  intro h
  rw [List.count_append, count_tally, count_tally]
  unfold AdState.keep
  split
  · simp only [List.count_append]
    omega
  · simp only [List.map_append, List.map_singleton, List.count_append]
    omega

theorem tally_scheduleRetry {now : Time} :
    (a.scheduleRetry now hashes attempt s).tally.Perm (s.tally ++ hashes) := by
  unfold BatchAdvertiser.scheduleRetry
  induction hashes generalizing s with
  | nil => simp
  | cons h hashes ih =>
      refine ih.trans ?_
      have hkept : (s.keep ⟨h, attempt, now + a.backoff attempt⟩).tally.Perm (s.tally ++ [h]) :=
        tally_keep
      simpa using hkept.append_right hashes

theorem tally_flushBuf :
    (s.flushBuf tasks).tally.Perm ({ s with tasks := tasks } : AdState).tally := by
  rw [List.perm_iff_count]
  intro h
  rw [count_tally, count_tally]
  unfold AdState.flushBuf
  by_cases hbuf : s.buf = []
  · simp [hbuf]
  · simp only [if_neg hbuf, List.flatMap_append, List.flatMap_singleton, AdTask.hashes,
      List.count_append, List.count_nil]
    omega

theorem tally_takeRetries {force : Bool} {now : Time} :
    (s.takeRetries force now tasks).tally.Perm ({ s with tasks := tasks } : AdState).tally := by
  rw [List.perm_iff_count]
  intro h
  rw [count_tally, count_tally]
  have hsplit := ((List.filter_append_perm (fun e : RetryEntry => force || decide (e.nextAt ≤ now))
    s.retry).map RetryEntry.hash).count_eq h
  rw [List.map_append, List.count_append] at hsplit
  have htasks : ∀ l : List RetryEntry,
      (l.map fun e => AdTask.flush [e.hash] e.attempt).flatMap AdTask.hashes =
        l.map RetryEntry.hash := by
    intro l
    induction l with
    | nil => rfl
    | cons e l ih => simp [AdTask.hashes, ih]
  simp only [AdState.takeRetries, List.flatMap_append, List.count_append, htasks]
  omega

theorem tally_endFlush {reply : Except Str Nat} (hclient : a.hasClient = true) :
    (a.endFlush hashes attempt reply tasks s).tally.Perm
      (({ s with tasks := tasks } : AdState).tally ++ hashes) := by
  rw [List.perm_iff_count]
  intro h
  rw [List.count_append, count_tally, count_tally]
  by_cases hne : hashes = []
  · subst hne
    simp [BatchAdvertiser.endFlush, flushed_nil]
  · have hlen : hashes.length ≠ 0 := fun h => hne (List.length_eq_zero_iff.mp h)
    cases reply with
    | ok n =>
        simp only [BatchAdvertiser.endFlush, flushed_ok hclient hne]
        simp [hclient, hne, Except.isOk, Except.toBool]
        omega
    | error err =>
        simp only [BatchAdvertiser.endFlush, flushed_error hclient hne]
        split
        · simp [hclient, hne, Except.isOk, Except.toBool, AdTask.hashes]
          omega
        · simp [hclient, hne, Except.isOk, Except.toBool]
          omega

/-- A caller that goes on from `c` to `c'`. -/
theorem count_callers {i : Nat} {c : Caller} (c' : Caller) {more : List Caller} (h : Str)
    (hdrop : s.callers.drop i = c :: more) :
    ((s.callers.take i ++ c' :: more).flatMap Caller.todo).count h + c.todo.count h =
      (s.callers.flatMap Caller.todo).count h + c'.todo.count h := by
  have hsplit : s.callers.flatMap Caller.todo =
      (s.callers.take i).flatMap Caller.todo ++ (c.todo ++ more.flatMap Caller.todo) := by
    rw [← List.flatMap_cons, ← List.flatMap_append, ← hdrop, List.take_append_drop]
  rw [hsplit]
  simp only [List.flatMap_append, List.flatMap_cons, List.count_append]
  omega

/-- **Conservation.**  A step loses no hash and makes none up. -/
theorem tally_step {e : AdEvent} (hclient : a.hasClient = true) (hx : a.step s e = some s') :
    s'.tally.Perm (s.tally ++ e.hands a) := by
  -- a step that only moves hashes from one place to another
  have hmoved : ∀ {s1 : AdState}, (∀ h, s1.tally.count h = s.tally.count h) →
      s1.tally.Perm (s.tally ++ []) := by
    intro s1 h
    rw [List.append_nil]
    exact List.perm_iff_count.mpr h
  cases AdStep.of_step hx with
  | call he _ =>
      rw [List.perm_iff_count]
      intro h
      rw [List.count_append, count_tally, count_tally]
      simp only [List.flatMap_append, List.flatMap_singleton, List.count_append]
      omega
  | @send i h0 rest more hdrop _ =>
      refine hmoved fun h => ?_
      have hcallers := count_callers ⟨rest, false⟩ h hdrop
      rw [count_tally, count_tally]
      simp only [List.count_cons, List.count_append, List.count_nil] at hcallers ⊢
      omega
  | @full i h0 rest more hdrop _ =>
      refine hmoved fun h => ?_
      have hcallers := count_callers ⟨h0 :: rest, true⟩ h hdrop
      rw [count_tally, count_tally]
      dsimp only at hcallers ⊢
      omega
  | @overflow i now h0 rest more hdrop =>
      refine hmoved fun h => ?_
      have hcallers := count_callers ⟨rest, false⟩ h hdrop
      rw [tally_scheduleRetry.count_eq, List.count_append, count_tally, count_tally]
      simp only [List.count_cons, List.count_nil] at hcallers ⊢
      omega
  | stop _ _ | done _ _ _ | finish _ _ => exact hmoved fun _ => rfl
  | receive _ _ hch | drain _ hch =>
      refine hmoved fun h => ?_
      rw [count_tally, count_tally, hch]
      simp only [List.count_cons, List.count_append, List.count_nil]
      omega
  | receiveLast _ htasks hch =>
      refine hmoved fun h => ?_
      rw [tally_flushBuf.count_eq, count_tally, count_tally, hch, htasks]
      simp only [List.count_cons, List.count_append, List.count_nil]
      omega
  | tick _ htasks =>
      refine hmoved fun h => ?_
      rw [tally_flushBuf.count_eq, count_tally, count_tally, htasks]
      rfl
  | drained _ htasks _ =>
      refine hmoved fun h => ?_
      show (s.flushBuf []).tally.count h = _
      rw [tally_flushBuf.count_eq, ← htasks]
  | report htasks =>
      refine hmoved fun h => ?_
      rw [(tally_endFlush hclient).count_eq, List.count_append, count_tally, count_tally, htasks]
      simp only [List.flatMap_cons, List.count_append, AdTask.hashes]
      omega
  | schedule htasks =>
      refine hmoved fun h => ?_
      rw [tally_scheduleRetry.count_eq, List.count_append, count_tally, count_tally, htasks]
      simp only [List.flatMap_cons, List.count_append, AdTask.hashes]
      omega
  | takeRetries _ htasks =>
      refine hmoved fun h => ?_
      rw [tally_takeRetries.count_eq, count_tally, count_tally, htasks]
      rfl
  | @takeLast now _ htasks =>
      refine hmoved fun h => ?_
      show (s.takeRetries true now []).tally.count h = _
      rw [tally_takeRetries.count_eq, ← htasks]

theorem run_cons {e : AdEvent} {es : List AdEvent} :
    a.run s (e :: es) = some s' ↔ ∃ s1, a.step s e = some s1 ∧ a.run s1 es = some s' := by
  exact Option.bind_eq_some_iff

theorem tally_run {es : List AdEvent} (hclient : a.hasClient = true) (hrun : a.run s es = some s') :
    s'.tally.Perm (s.tally ++ a.handed es) := by
  induction es generalizing s with
  | nil =>
      obtain rfl := Option.some.inj hrun
      simp [BatchAdvertiser.handed]
  | cons e es ih =>
      obtain ⟨s1, hstep, hrun⟩ := run_cons.mp hrun
      have hrest := (ih hrun).trans ((tally_step hclient hstep).append_right (a.handed es))
      simpa [BatchAdvertiser.handed] using hrest

end Conservation

end Spider

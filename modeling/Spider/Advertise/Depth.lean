import Spider.Advertise.Shutdown

/-!
# Spider.Advertise.Depth

The gauge `AdvertisementQueueDepth` (`pkg/advertise/advertise.go`).

A hash is counted when it goes into the channel and again each time it goes into the retry
list, but only a report that succeeds takes it off the gauge.  So the gauge runs ahead of the
hashes that are pending, by the size of each report that has failed (`excess_run`), and it is
right exactly as long as no report fails (`queueDepth_eq_pending_iff`).
-/

namespace Spider

/-- The hashes of a call of `ReportChunks` that has not come back. -/
def AdTask.reporting : AdTask → Nat
  | .flush hashes _ => hashes.length
  | _ => 0

namespace AdState

/-- The hashes waiting in the channel, the buffer and the retry list, with those that are being
reported. -/
def pending (s : AdState) : Nat :=
  s.ch.length + s.buf.length + (s.tasks.map AdTask.reporting).sum + s.retry.length

/-- The sizes of the reports that have failed. -/
def failedHashes (s : AdState) : Nat :=
  (s.reports.map fun r => if r.ok then 0 else r.hashes.length).sum

/-- How far the gauge is off, apart from failed reports. -/
def excess (s : AdState) : Int := s.metrics.queueDepth - s.pending - s.failedHashes

end AdState

section Excess

variable {a : BatchAdvertiser} {s s' : AdState} {e : AdEvent}

theorem excess_keep {r : RetryEntry} : (s.keep r).excess = s.excess := by
  unfold AdState.keep
  split
  · rfl
  · simp only [AdState.excess, AdState.pending, AdState.failedHashes, List.length_append,
      List.length_singleton]
    omega

theorem excess_scheduleRetry {now : Time} {hashes : List Str} {attempt : Nat} :
    (a.scheduleRetry now hashes attempt s).excess = s.excess :=
  scheduleRetry_same (fun _ _ => excess_keep) now hashes attempt

variable {tasks : List AdTask}

/-- The buffer becomes a report. -/
theorem excess_flushBuf :
    (s.flushBuf tasks).excess = ({ s with tasks := tasks } : AdState).excess := by
  by_cases hbuf : s.buf = []
  · simp [AdState.excess, AdState.pending, AdState.failedHashes, AdState.flushBuf, hbuf]
  · simp only [AdState.excess, AdState.pending, AdState.failedHashes, AdState.flushBuf,
      if_neg hbuf, List.map_append, List.map_singleton, List.sum_append, List.sum_singleton,
      AdTask.reporting, List.length_nil]
    omega

/-- Each retry that is due becomes a report of one hash. -/
theorem excess_takeRetries {force : Bool} {now : Time} :
    (s.takeRetries force now tasks).excess = ({ s with tasks := tasks } : AdState).excess := by
  have hsplit := (List.filter_append_perm
    (fun e : RetryEntry => force || decide (e.nextAt ≤ now)) s.retry).length_eq
  rw [List.length_append] at hsplit
  have hone : ∀ l : List RetryEntry,
      ((l.map fun e => AdTask.flush [e.hash] e.attempt).map AdTask.reporting).sum = l.length := by
    intro l
    induction l with
    | nil => rfl
    | cons e l ih => simp [AdTask.reporting] at ih ⊢; omega
  simp only [AdState.excess, AdState.pending, AdState.failedHashes, AdState.takeRetries,
    List.map_append, List.sum_append, hone]
  omega

/-- A report that fails takes its hashes off the pending ones and leaves the gauge as it is. -/
theorem excess_endFlush {hashes : List Str} {attempt : Nat} {reply : Except Str Nat}
    (hclient : a.hasClient = true) (htasks : s.tasks = .flush hashes attempt :: tasks) :
    (a.endFlush hashes attempt reply tasks s).excess = s.excess := by
  by_cases hne : hashes = []
  · subst hne
    simp [AdState.excess, AdState.pending, AdState.failedHashes, BatchAdvertiser.endFlush,
      flushed_nil, htasks, AdTask.reporting]
  · simp only [AdState.excess, AdState.pending, AdState.failedHashes, BatchAdvertiser.endFlush,
      htasks]
    cases reply with
    | ok n =>
        simp [flushed_ok hclient hne, hclient, hne, Except.isOk, Except.toBool, AdTask.reporting]
        omega
    | error err =>
        rw [flushed_error hclient hne]
        split
        all_goals
          simp [hclient, hne, Except.isOk, Except.toBool, AdTask.reporting]
          omega

theorem excess_step (hclient : a.hasClient = true) (hx : a.step s e = some s') :
    s'.excess = s.excess := by
  cases AdStep.of_step hx with
  | call _ _ | full _ _ | stop _ _ | done _ _ _ | finish _ _ => rfl
  | send _ _ =>
      simp only [AdState.excess, AdState.pending, AdState.failedHashes, List.length_append,
        List.length_singleton]
      omega
  | overflow _ => exact excess_scheduleRetry
  | receive _ _ hch | drain _ hch =>
      simp only [AdState.excess, AdState.pending, AdState.failedHashes, hch, List.length_append,
        List.length_cons, List.length_nil]
      omega
  | receiveLast _ htasks hch =>
      rw [excess_flushBuf]
      simp only [AdState.excess, AdState.pending, AdState.failedHashes, hch, htasks,
        List.length_append, List.length_cons, List.length_nil]
      omega
  | tick _ htasks =>
      rw [excess_flushBuf]
      simp [AdState.excess, AdState.pending, AdState.failedHashes, htasks, AdTask.reporting]
  | drained _ htasks _ =>
      have hflush : (s.flushBuf []).excess = s.excess := by rw [excess_flushBuf, ← htasks]
      exact hflush
  | report htasks => exact excess_endFlush hclient htasks
  | schedule htasks =>
      rw [excess_scheduleRetry]
      simp [AdState.excess, AdState.pending, AdState.failedHashes, htasks, AdTask.reporting]
  | takeRetries _ htasks =>
      rw [excess_takeRetries]
      simp [AdState.excess, AdState.pending, AdState.failedHashes, htasks, AdTask.reporting]
  | @takeLast now _ htasks =>
      have htake : (s.takeRetries true now []).excess = s.excess := by
        rw [excess_takeRetries, ← htasks]
      exact htake

/-- Nobody reports an empty list. -/
theorem reports_ne_nil_step (hx : a.step s e = some s') (h : ∀ r ∈ s.reports, r.hashes ≠ []) :
    ∀ r ∈ s'.reports, r.hashes ≠ [] := by
  have hkeep : ∀ (s : AdState) (r : RetryEntry), (s.keep r).reports = s.reports := by
    intro s r
    unfold AdState.keep
    split <;> rfl
  cases AdStep.of_step hx with
  | overflow _ | schedule _ =>
      rw [scheduleRetry_same hkeep]
      exact h
  | @report hashes attempt reply tasks _ =>
      intro r hr
      rcases List.mem_append.mp hr with hr | hr
      · exact h r hr
      · split at hr
        · contradiction
        · rename_i hsent
          rw [List.mem_singleton.mp hr]
          exact fun hnil => hsent (.inr hnil)
  | _ => exact h

theorem excess_run {es : List AdEvent} (hclient : a.hasClient = true)
    (hrun : a.run s es = some s') (h : ∀ r ∈ s.reports, r.hashes ≠ []) :
    s'.excess = s.excess ∧ ∀ r ∈ s'.reports, r.hashes ≠ [] := by
  induction es generalizing s with
  | nil =>
      obtain rfl := Option.some.inj hrun
      exact ⟨rfl, h⟩
  | cons e es ih =>
      obtain ⟨s1, hstep, hrun⟩ := run_cons.mp hrun
      obtain ⟨hexcess, hreports⟩ := ih hrun (reports_ne_nil_step hstep h)
      exact ⟨hexcess.trans (excess_step hclient hstep), hreports⟩

theorem failedHashes_eq_zero (h : ∀ r ∈ s.reports, r.hashes ≠ []) :
    s.failedHashes = 0 ↔ ∀ r ∈ s.reports, r.ok = true := by
  simp only [AdState.failedHashes, List.sum_eq_zero_iff, List.mem_map, forall_exists_index,
    and_imp, forall_apply_eq_imp_iff₂]
  refine forall₂_congr fun r hr => ?_
  cases r.ok <;> simp [h r hr]

end Excess

/-- **The gauge counts the pending hashes** exactly as long as no report has failed. -/
theorem queueDepth_eq_pending_iff (a : BatchAdvertiser) (hclient : a.hasClient = true)
    (es : List AdEvent) (s : AdState) (hrun : a.run .start es = some s) :
    s.metrics.queueDepth = s.pending ↔ ∀ r ∈ s.reports, r.ok = true := by
  obtain ⟨hexcess, hreports⟩ := excess_run hclient hrun (fun r hr => by contradiction)
  have hzero : AdState.start.excess = 0 := rfl
  rw [← failedHashes_eq_zero hreports]
  rw [hzero, AdState.excess] at hexcess
  omega

/-- One hash is enqueued and reported, with this reply. -/
def reportedHash (reply : Except Str Nat) : List AdEvent :=
  [.enqueue (str "c1"), .send 0, .receive, .tick, .report reply]

theorem queueDepth_eq_pending_iff_reported :
    ((defaultAdvertiser.run .start (reportedHash (.ok 1))).any fun s =>
      decide (s.reports = [⟨[str "c1"], true⟩] ∧ s.pending = 0)) = true ∧
    ∀ s, defaultAdvertiser.run .start (reportedHash (.ok 1)) = some s →
      (s.metrics.queueDepth = s.pending ↔ ∀ r ∈ s.reports, r.ok = true) :=
  ⟨by decide +kernel, fun s hrun => queueDepth_eq_pending_iff defaultAdvertiser rfl _ s hrun⟩

/-- A hash whose second report succeeds stays on the gauge for good. -/
theorem queueDepth_after_retry :
    ∃ s, defaultAdvertiser.run .start (reportedHash (.error (str "unavailable")) ++
        [.schedule 0, .takeRetries 0, .tick, .takeRetries 1000000000, .report (.ok 1)]) = some s ∧
      s.pending = 0 ∧ s.tasks = [] ∧ s.metrics.queueDepth = 1 := by
  have hrun : ((defaultAdvertiser.run .start (reportedHash (.error (str "unavailable")) ++
      [.schedule 0, .takeRetries 0, .tick, .takeRetries 1000000000, .report (.ok 1)])).any
        fun s => decide (s.pending = 0 ∧ s.tasks = [] ∧ s.metrics.queueDepth = 1)) = true := by
    decide +kernel
  obtain ⟨s, hs, htest⟩ := (Option.any_eq_true _ _).mp hrun
  exact ⟨s, hs, of_decide_eq_true htest⟩

end Spider

import Spider.Advertise.Loop

/-!
# Spider.Advertise.Shutdown

What is left when `Stop` returns (`pkg/advertise/advertise.go`).

`Stop` makes the loop drain the channel, flush the buffer and make one last pass over the retry
list.  A report of this pass that fails while its hash has attempts left puts the hash back
into the retry list, which nobody reads any more (`shutdown_loses_hash`).  Apart from that
everything handed in comes to its end (`hashes_accounted`).
-/

namespace Spider

open Conc

/-! ## The last pass -/

/-- A call of `ReportChunks` comes back with an error. -/
def AdEvent.isFailure : AdEvent → Bool
  | .report (.error _) => true
  | _ => false

/-- How often the hashes of the call that is out have failed before. -/
def AdState.attempt (s : AdState) : Option Nat :=
  match s.tasks with
  | .flush _ attempt :: _ => some attempt
  | _ => none

/-- A report of the last pass does not fail, unless its hash has no attempt left. -/
def BatchAdvertiser.Settles (a : BatchAdvertiser) (s : AdState) (e : AdEvent) : Prop :=
  e.isFailure = true → s.control = .lastRetries → ∀ k ∈ s.attempt, a.maxRetries ≤ k + 1

instance (a : BatchAdvertiser) (s : AdState) (e : AdEvent) : Decidable (a.Settles s e) :=
  inferInstanceAs (Decidable (_ → _))

/-- Every step of a run does. -/
def BatchAdvertiser.RunSettles (a : BatchAdvertiser) : AdState → List AdEvent → Prop
  | _, [] => True
  | s, e :: es => a.Settles s e ∧ ∀ s' ∈ a.step s e, a.RunSettles s' es

instance decidableRunSettles (a : BatchAdvertiser) :
    ∀ (s : AdState) (es : List AdEvent), Decidable (a.RunSettles s es)
  | _, [] => inferInstanceAs (Decidable True)
  | s, e :: es =>
      have : ∀ s', Decidable (a.RunSettles s' es) := fun s' => decidableRunSettles a s' es
      inferInstanceAs (Decidable (a.Settles s e ∧ ∀ s' ∈ a.step s e, a.RunSettles s' es))

/-- The loop is in its last pass over the retry list, or through with it. -/
def AdState.lastPass (s : AdState) : Prop := s.control = .lastRetries ∨ s.control = .returned

/-- The phases of an advertiser that settles its hashes. -/
structure AdPhases (s : AdState) : Prop where
  quiet : s.stopped = true → ∀ c ∈ s.callers, c.todo = []
  closing : s.control ≠ .select → s.stopped = true
  emptied : s.control ≠ .select → s.control ≠ .drain → s.ch = [] ∧ s.buf = []
  last : s.lastPass → s.retry = [] ∧ ∀ t ∈ s.tasks, ∃ hashes attempt, t = .flush hashes attempt
  ended : s.control = .returned → s.tasks = []

section Phases

variable {a : BatchAdvertiser} {s s' : AdState} {e : AdEvent}

theorem not_lastPass (h : s.control = .select ∨ s.control = .drain ∨ s.control = .lastFlush) :
    ¬ s.lastPass := by
  unfold AdState.lastPass
  rcases h with h | h | h <;> simp [h]

/-- A state before the last pass. -/
theorem AdPhases.of_not_lastPass (hquiet : s.stopped = true → ∀ c ∈ s.callers, c.todo = [])
    (hclosing : s.control ≠ .select → s.stopped = true)
    (hemptied : s.control ≠ .select → s.control ≠ .drain → s.ch = [] ∧ s.buf = [])
    (hlast : ¬ s.lastPass) : AdPhases s :=
  ⟨hquiet, hclosing, hemptied, fun h => absurd h hlast, fun h => absurd (.inr h) hlast⟩

/-- A state before the shutdown. -/
theorem AdPhases.of_select (hquiet : s.stopped = true → ∀ c ∈ s.callers, c.todo = [])
    (hselect : s.control = .select) : AdPhases s :=
  .of_not_lastPass hquiet (absurd hselect) (fun h => absurd hselect h) (not_lastPass (.inl hselect))

theorem AdPhases.select_of_open (h : AdPhases s) (hopen : s.stopped = false) :
    s.control = .select := by
  by_contra hcontrol
  rw [h.closing hcontrol] at hopen
  contradiction

/-- A caller with a hash left is there before `Stop` only. -/
theorem AdPhases.select_of_pending (h : AdPhases s) {i : Nat} {h0 : Str} {rest : List Str}
    {full : Bool} {more : List Caller} (hdrop : s.callers.drop i = ⟨h0 :: rest, full⟩ :: more) :
    s.stopped = false ∧ s.control = .select := by
  have hmem : (⟨h0 :: rest, full⟩ : Caller) ∈ s.callers :=
    List.mem_of_mem_drop (hdrop ▸ List.mem_cons_self)
  have hopen : s.stopped = false := by
    by_contra hs
    exact List.cons_ne_nil _ _ (h.quiet (by simpa using hs) _ hmem)
  exact ⟨hopen, h.select_of_open hopen⟩

/-- What `scheduleRetry` leaves as it is. -/
theorem scheduleRetry_same {α : Type} {f : AdState → α} (hf : ∀ s e, f (s.keep e) = f s)
    (now : Time) (hashes : List Str) (attempt : Nat) :
    f (a.scheduleRetry now hashes attempt s) = f s := by
  unfold BatchAdvertiser.scheduleRetry
  induction hashes generalizing s with
  | nil => rfl
  | cons h hashes ih => rw [List.foldl_cons, ih, hf]

/-- `scheduleRetry` before the last pass. -/
theorem AdPhases.scheduleRetry (h : AdPhases s) (hlast : ¬ s.lastPass) {now : Time}
    {hashes : List Str} {attempt : Nat} : AdPhases (a.scheduleRetry now hashes attempt s) := by
  have hkeep : ∀ (s : AdState) (r : RetryEntry),
      ((s.keep r).stopped, (s.keep r).callers, (s.keep r).control, (s.keep r).ch, (s.keep r).buf) =
        (s.stopped, s.callers, s.control, s.ch, s.buf) := by
    intro s r
    unfold AdState.keep
    split <;> rfl
  have hframe := scheduleRetry_same (a := a) (s := s)
    (f := fun s => (s.stopped, s.callers, s.control, s.ch, s.buf)) hkeep
    now hashes attempt
  simp only [Prod.mk.injEq] at hframe
  obtain ⟨hstopped, hcallers, hcontrol, hch, hbuf⟩ := hframe
  refine .of_not_lastPass ?_ ?_ ?_ ?_
  · rw [hstopped, hcallers]
    exact h.quiet
  · rw [hcontrol, hstopped]
    exact h.closing
  · rw [hcontrol, hch, hbuf]
    exact h.emptied
  · rw [AdState.lastPass, hcontrol]
    exact hlast

/-- A call of `ReportChunks` comes back. -/
theorem AdPhases.endFlush (h : AdPhases s) (hclient : a.hasClient = true) {hashes : List Str}
    {attempt : Nat} {reply : Except Str Nat} {tasks : List AdTask}
    (htasks : s.tasks = .flush hashes attempt :: tasks) (hsettles : a.Settles s (.report reply)) :
    AdPhases (a.endFlush hashes attempt reply tasks s) where
  quiet := h.quiet
  closing := h.closing
  emptied := h.emptied
  last hlast := by
    have hcontrol : s.control = .lastRetries := by
      refine hlast.resolve_right fun hret => ?_
      have hnone := h.ended hret
      rw [htasks] at hnone
      contradiction
    obtain ⟨hretry, hall⟩ := h.last hlast
    rw [htasks] at hall
    have hnew : (a.endFlush hashes attempt reply tasks s).tasks = tasks := by
      by_cases hne : hashes = []
      · simp [BatchAdvertiser.endFlush, hne, flushed_nil]
      · cases reply with
        | ok n => simp [BatchAdvertiser.endFlush, flushed_ok hclient hne]
        | error err =>
            have hdone := hsettles rfl hcontrol attempt (by simp [AdState.attempt, htasks])
            simp [BatchAdvertiser.endFlush, flushed_error hclient hne, Nat.not_lt.mpr hdone]
    rw [hnew]
    exact ⟨hretry, fun t ht => hall t (List.mem_cons_of_mem _ ht)⟩
  ended hret := by
    have hnone := h.ended hret
    rw [htasks] at hnone
    contradiction

theorem AdPhases.step (h : AdPhases s) (hclient : a.hasClient = true) (hsettles : a.Settles s e)
    (hx : a.step s e = some s') : AdPhases s' := by
  cases AdStep.of_step hx with
  | call he hopen =>
      refine .of_select (fun hstopped => ?_) (h.select_of_open hopen)
      exact absurd hstopped (by simp [hopen])
  | send hdrop _ | full hdrop _ =>
      obtain ⟨hopen, hselect⟩ := h.select_of_pending hdrop
      exact .of_select (fun hstopped => absurd hstopped (by simp [hopen])) hselect
  | @overflow i now h0 rest more hdrop =>
      obtain ⟨hopen, hselect⟩ := h.select_of_pending hdrop
      have hsent : AdPhases { s with callers := s.callers.take i ++ ⟨rest, false⟩ :: more } :=
        .of_select (fun hstopped => absurd hstopped (by simp [hopen])) hselect
      exact hsent.scheduleRetry (not_lastPass (.inl hselect))
  | stop hopen hcallers => exact .of_select (fun _ => hcallers) (h.select_of_open hopen)
  | receive hcontrol _ _ | receiveLast hcontrol _ _ | tick hcontrol _
  | takeRetries hcontrol htasks => exact .of_select h.quiet hcontrol
  | done hcontrol htasks hstopped =>
      exact .of_not_lastPass h.quiet (fun _ => hstopped) (fun _ hd => absurd rfl hd)
        (not_lastPass (.inr (.inl rfl)))
  | drain hcontrol hch =>
      exact .of_not_lastPass h.quiet h.closing (fun _ hd => absurd hcontrol hd)
        (not_lastPass (.inr (.inl hcontrol)))
  | drained hcontrol htasks hch =>
      refine .of_not_lastPass h.quiet (fun _ => h.closing ?_) (fun _ _ => ⟨hch, rfl⟩)
        (not_lastPass (.inr (.inr rfl)))
      simp [hcontrol]
  | report htasks => exact h.endFlush hclient htasks hsettles
  | @schedule hashes attempt now tasks htasks =>
      -- the last pass has no such task
      have hlast : ¬ s.lastPass := by
        intro hlast
        obtain ⟨_, _, heq⟩ := (h.last hlast).2 (.scheduleRetry hashes attempt)
          (htasks ▸ List.mem_cons_self)
        contradiction
      have htaken : AdPhases { s with tasks } :=
        .of_not_lastPass h.quiet h.closing h.emptied hlast
      exact htaken.scheduleRetry hlast
  | takeLast hcontrol htasks =>
      refine ⟨h.quiet, fun _ => h.closing ?_, fun _ _ => h.emptied ?_ ?_, fun _ => ⟨?_, ?_⟩, ?_⟩
      · simp [hcontrol]
      · simp [hcontrol]
      · simp [hcontrol]
      · simp [AdState.takeRetries]
      · intro t ht
        simp only [AdState.takeRetries, List.append_nil, List.mem_map] at ht
        obtain ⟨r, -, rfl⟩ := ht
        exact ⟨_, _, rfl⟩
      · intro hret
        contradiction
  | finish hcontrol htasks =>
      refine ⟨h.quiet, fun _ => h.closing ?_, fun _ _ => h.emptied ?_ ?_, fun _ => ?_, fun _ => htasks⟩
      · simp [hcontrol]
      · simp [hcontrol]
      · simp [hcontrol]
      · exact h.last (.inl hcontrol)

theorem adPhases_start : AdPhases .start :=
  .of_select (fun h => by contradiction) rfl

theorem AdPhases.run {es : List AdEvent} (h : AdPhases s) (hclient : a.hasClient = true)
    (hsettles : a.RunSettles s es) (hrun : a.run s es = some s') : AdPhases s' := by
  induction es generalizing s with
  | nil =>
      obtain rfl := Option.some.inj hrun
      exact h
  | cons e es ih =>
      obtain ⟨s1, hstep, hrun⟩ := run_cons.mp hrun
      exact ih (h.step hclient hsettles.1 hstep) (hsettles.2 s1 hstep) hrun

end Phases

/-! ## The failure metric -/

section Metric

variable {a : BatchAdvertiser} {s s' : AdState} {e : AdEvent}

/-- The metric has counted the hashes of `counted`, each once. -/
def AdState.Metered (s : AdState) : Prop := s.metrics.failures = s.counted.length

theorem metered_keep {r : RetryEntry} (h : s.Metered) : (s.keep r).Metered := by
  unfold AdState.keep
  split
  · simpa [AdState.Metered] using h
  · exact h

theorem metered_scheduleRetry {now : Time} {hashes : List Str} {attempt : Nat} (h : s.Metered) :
    (a.scheduleRetry now hashes attempt s).Metered := by
  induction hashes generalizing s with
  | nil => exact h
  | cons h0 hashes ih => exact ih (metered_keep h)

theorem metered_endFlush {hashes : List Str} {attempt : Nat} {reply : Except Str Nat}
    {tasks : List AdTask} (hclient : a.hasClient = true) (h : s.Metered) :
    (a.endFlush hashes attempt reply tasks s).Metered := by
  have hcount : (a.flushed hashes attempt reply).failures = 0 ∨
      (a.flushed hashes attempt reply).failures = hashes.length := by
    by_cases hne : hashes = []
    · simp [hne, flushed_nil]
    · cases reply with
      | ok n => simp [flushed_ok hclient hne]
      | error err =>
          rw [flushed_error hclient hne]
          split <;> simp
  simp only [AdState.Metered, BatchAdvertiser.endFlush, List.length_append] at h ⊢
  split <;> rename_i hzero
  · simp [hzero, h]
  · rw [hcount.resolve_left hzero, h]

theorem AdState.Metered.step (h : s.Metered) (hclient : a.hasClient = true)
    (hx : a.step s e = some s') : s'.Metered := by
  cases AdStep.of_step hx with
  | overflow _ | schedule _ => exact metered_scheduleRetry h
  | report _ => exact metered_endFlush hclient h
  | _ => exact h

theorem metered_run {es : List AdEvent} (h : s.Metered) (hclient : a.hasClient = true)
    (hrun : a.run s es = some s') : s'.Metered := by
  induction es generalizing s with
  | nil =>
      obtain rfl := Option.some.inj hrun
      exact h
  | cons e es ih =>
      obtain ⟨s1, hstep, hrun⟩ := run_cons.mp hrun
      exact ih (h.step hclient hstep) hrun

end Metric

/-! ## The end of a run -/

/-- The call names the hash. -/
def AdEvent.names (h : Str) : AdEvent → Prop
  | .enqueue h' => h = h'
  | .reconcile hashes => h ∈ hashes
  | _ => False

instance (a : BatchAdvertiser) (s : AdState) (h : Str) : Decidable (s.Accounted a h) :=
  inferInstanceAs (Decidable (_ ∨ _ ∨ _))

section End

variable {a : BatchAdvertiser} {s : AdState} {es : List AdEvent} {h : Str}

theorem mem_handed (hclient : a.hasClient = true) :
    h ∈ a.handed es ↔ h ≠ [] ∧ ∃ e ∈ es, e.names h := by
  have hevent : ∀ e : AdEvent, h ∈ e.hands a ↔ h ≠ [] ∧ e.names h := by
    intro e
    cases e with
    | enqueue h' | reconcile hashes =>
        simp only [AdEvent.hands, BatchAdvertiser.accepts, hclient, AdEvent.names]
        simp [and_comm]
    | _ => simp [AdEvent.hands, AdEvent.names]
  rw [BatchAdvertiser.handed, List.mem_flatMap]
  grind

theorem accounted_of_settled (hmem : h ∈ s.settled) : s.Accounted a h := by
  rcases List.mem_append.mp hmem with hmem | hmem
  · obtain ⟨r, hr, hmem⟩ := List.mem_flatMap.mp hmem
    split at hmem
    · exact .inl ⟨r, hr, ‹_›, hmem⟩
    · contradiction
  · exact .inr (.inr hmem)

/-- When the loop has returned, nothing waits. -/
theorem waiting_of_returned (hph : AdPhases s) (hret : s.control = .returned) : s.waiting = [] := by
  have hne : s.control ≠ .select := by simp [hret]
  obtain ⟨hch, hbuf⟩ := hph.emptied hne (by simp [hret])
  have hcallers : s.callers.flatMap Caller.todo = [] :=
    List.flatMap_eq_nil_iff.mpr (hph.quiet (hph.closing hne))
  simp [AdState.waiting, hcallers, hch, hbuf, hph.ended hret, (hph.last (.inr hret)).1]

end End

/-- **No advertisement is lost silently**, as long as no report of the last pass over the retry
list fails while its hash has attempts left: when `Stop` returns, each hash that a call named
has been reported successfully, has failed `maxRetries` times or is one of those the failure
metric has counted. -/
theorem hashes_accounted (a : BatchAdvertiser) (hclient : a.hasClient = true) (es : List AdEvent)
    (s : AdState) (hrun : a.run .start es = some s) (hret : s.control = .returned)
    (hsettles : a.RunSettles .start es) :
    s.metrics.failures = s.counted.length ∧
      ∀ h, h ≠ [] → (∃ e ∈ es, e.names h) → s.Accounted a h := by
  have hmetered : AdState.start.Metered := rfl
  refine ⟨metered_run hmetered hclient hrun, fun h hne hnamed => ?_⟩
  have hperm : s.tally.Perm (a.handed es) := tally_run hclient hrun
  have hmem : h ∈ s.tally := hperm.mem_iff.mpr ((mem_handed hclient).mpr ⟨hne, hnamed⟩)
  have hph := adPhases_start.run hclient hsettles hrun
  rw [AdState.tally, waiting_of_returned hph hret, List.nil_append] at hmem
  exact accounted_of_settled hmem

/-- An advertiser with the default settings. -/
def defaultAdvertiser : BatchAdvertiser := .new true (str "n1") 16 5 100000000 5000000000

/-- One hash is enqueued before `Stop`; the first report fails, the second comes back with this
reply. -/
def twoReports (reply : Except Str Nat) : List AdEvent :=
  [.enqueue (str "c1"), .send 0, .stop, .done, .drain, .drained, .report (.error (str "unavailable")),
    .schedule 0, .takeRetries 0, .report reply]

theorem hashes_accounted_twoReports :
    ((defaultAdvertiser.run .start (twoReports (.ok 1) ++ [.finish])).any fun s =>
      decide (s.control = .returned)) = true ∧
    ∀ s, defaultAdvertiser.run .start (twoReports (.ok 1) ++ [.finish]) = some s →
      s.control = .returned → s.Accounted defaultAdvertiser (str "c1") :=
  ⟨by decide +kernel, fun s hrun hret =>
    (hashes_accounted defaultAdvertiser rfl _ s hrun hret (by decide +kernel)).2 (str "c1")
      (by decide) ⟨.enqueue (str "c1"), by simp [twoReports], rfl⟩⟩

/-- If the second report fails too, the hash is gone: it has failed twice of five times, and no
metric counts it. -/
theorem shutdown_loses_hash :
    ∃ s, defaultAdvertiser.run .start
        (twoReports (.error (str "unavailable")) ++ [.schedule 0, .finish]) = some s ∧
      s.control = .returned ∧ ¬ s.Accounted defaultAdvertiser (str "c1") ∧
      s.metrics.failures = 0 := by
  have hrun : ((defaultAdvertiser.run .start
      (twoReports (.error (str "unavailable")) ++ [.schedule 0, .finish])).any fun s =>
        decide (s.control = .returned ∧ ¬ s.Accounted defaultAdvertiser (str "c1") ∧
          s.metrics.failures = 0)) = true := by
    decide +kernel
  obtain ⟨s, hs, htest⟩ := (Option.any_eq_true _ _).mp hrun
  exact ⟨s, hs, of_decide_eq_true htest⟩

end Spider

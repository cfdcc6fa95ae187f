import Spider.Engine.Presence

/-!
# Spider.Engine.Pool

The download phase of `Sync` when fetches fail (`pkg/engine/engine.go`): several
workers record the first failure in one `atomic.Value`, whose `Store` panics on
a value of another concrete type than the one it holds.

The fetch of each item comes to a given outcome, and the context may end at any
moment; `workerLoop` is the loop of this module around `fetchChunk`
(`workerLoop_eq`).  The phase always comes to its end and returns one of the
errors that occurred, unless it panics, and it can panic exactly if there are
two workers and two errors of different types (`download_survives_iff`).
-/

namespace Spider

open Conc

/-! ## The phase on its own -/

/-- What the fetch of each item comes to. -/
abbrev Outcomes := WorkItem → Except Err (Bool × Int)

/-- The download phase on its own: thread `0` starts the workers, waits for them
and loads `downloadErr`. -/
def poolThreads (cfg : EngineConfig) (items : List WorkItem) (outcome : Outcomes) (turns : Nat)
    (t : Tid) : NodeM (Option (Option Err)) :=
  if t = 0 then do
    let res ← download cfg items
    pure (some res)
  else if t ≤ cfg.workers then do
    let () ← onJob .awaitStart
    let () ← workerLoopWith (fun work => pure (outcome work)) turns
    pure none
  else pure none

def poolStart (cfg : EngineConfig) (items : List WorkItem) (outcome : Outcomes) (turns : Nat)
    (s : Node) : Config nodeSig Node Tid (Option (Option Err)) :=
  ⟨s, poolThreads cfg items outcome turns⟩

/-- `ctx.Err()` is `nil` until the context ends, if it does, and then always the
same error. -/
def ctxAnswers (cancel : Option Bool) : (c : Cmd) → c.Resp → Bool
  | .job .ctxErr, r => decide (r = none ∨ r = cancel)
  | _, _ => true

/-- A node whose context may end with `cancel`. -/
abbrev poolSystem (cancel : Option Bool) : System nodeSig Node Tid :=
  nodeSystem.restrict (ctxAnswers cancel)

/-- The errors that can occur. -/
def Occurs (items : List WorkItem) (outcome : Outcomes) (cancel : Option Bool) (e : Err) : Prop :=
  (∃ it ∈ items, outcome it = .error e) ∨ ∃ deadline, cancel = some deadline ∧ e = .ctx deadline

/-- The result of the phase: one of the errors, or none if every fetch succeeds. -/
def Reports (items : List WorkItem) (outcome : Outcomes) (cancel : Option Bool) :
    Option Err → Prop
  | some e => Occurs items outcome cancel e
  | none => ∀ it ∈ items, ∃ v, outcome it = .ok v

/-- The process has not panicked, it goes on unless the phase is over, and the
result of the phase is right. -/
structure Survives (items : List WorkItem) (outcome : Outcomes) (cancel : Option Bool)
    (c : Config nodeSig Node Tid (Option (Option Err))) : Prop where
  alive : c.st.job.panicked = false
  progress : (∃ c', Step (poolSystem cancel) c c') ∨ ∃ res, c.prog 0 = .ret (some res)
  result : ∀ res, c.prog 0 = .ret (some res) → Reports items outcome cancel res

/-! ## Every interleaving is finite -/

theorem within_giveUp {e : Err} : (giveUp e).Within 2 :=
  Prog.within_call fun _ => Prog.within_perform

variable {outcome : Outcomes} {cfg : EngineConfig} {items : List WorkItem}

theorem within_workerLoopWith {turns : Nat} :
    (workerLoopWith (fun work => pure (outcome work)) turns).Within (4 * turns + 1) := by
  induction turns with
  | zero => exact Prog.within_pure _
  | succ turns ih =>
      refine Prog.within_call fun deadline => ?_
      cases deadline with
      | some d => exact within_giveUp.mono (by omega)
      | none =>
          refine Prog.within_call (n := 4 * turns + 3) fun err => ?_
          cases err with
          | some e => exact Prog.within_perform
          | none =>
              refine Prog.within_call (n := 4 * turns + 2) fun item => ?_
              cases item with
              | none => exact Prog.within_perform
              | some work =>
                  simp only [Prog.pure_bind']
                  cases outcome work with
                  | error e => exact within_giveUp.mono (by omega)
                  | ok v => exact Prog.within_call fun _ => ih

theorem within_download : (download cfg items).Within 3 := by
  unfold download
  split
  · exact Prog.within_pure _
  · exact Prog.within_call fun _ => Prog.within_call fun _ => Prog.within_perform

/-- How many commands each thread can issue. -/
def poolBound (cfg : EngineConfig) (turns : Nat) (t : Tid) : Nat :=
  if t = 0 then 3 else if t ≤ cfg.workers then 4 * turns + 2 else 0

theorem within_poolThreads {turns : Nat} (t : Tid) :
    (poolThreads cfg items outcome turns t).Within (poolBound cfg turns t) := by
  unfold poolThreads poolBound
  split
  · exact within_download.bind (n := 0) fun _ => Prog.within_pure _
  · split
    · refine Prog.within_call fun _ => ?_
      exact within_workerLoopWith.bind (n := 0) fun _ => Prog.within_pure _
    · exact Prog.within_pure _

theorem acc_poolStart {M : System nodeSig Node Tid} {turns : Nat} {s : Node} :
    Acc (fun c' c => Step M c c') (poolStart cfg items outcome turns s) := by
  refine Config.acc_of_within (F := Finset.range (cfg.workers + 1)) within_poolThreads fun t ht => ?_
  rw [Finset.mem_range, Nat.not_lt] at ht
  rw [poolBound, if_neg (Nat.ne_of_gt (Nat.lt_of_lt_of_le (Nat.succ_pos _) ht)),
    if_neg (Nat.not_le_of_gt ht)]

/-! ## One type of error -/

/-- The terms of the phase: there is one worker, or the errors have one type. -/
def poolTerms (cfg : EngineConfig) (items : List WorkItem) (outcome : Outcomes)
    (cancel : Option Bool) : Terms where
  workers := cfg.workers
  stock its := its = items
  good k := ∃ v, outcome k.item = .ok v
  errs := Occurs items outcome cancel
  calm := True
  hashes := []

section Outcome

variable {cfg : EngineConfig} {items : List WorkItem} {outcome : Outcomes} {cancel : Option Bool}
variable {turns : Nat} {s : Node} {g : Trail} {t : Tid}

/-- The answers of the context, as a condition on the steps of all threads. -/
abbrev poolOk (cancel : Option Bool) : Tid → (c : Cmd) → c.Resp → Node → Bool :=
  fun _ c r _ => ctxAnswers cancel c r

theorem staffed_outcome
    (hone : cfg.workers = 1 ∨ ∃ ty, ∀ e, Occurs items outcome cancel e → e.goType = ty)
    (hstock : ∀ {x : Node × Trail}, TrailInv (poolTerms cfg items outcome cancel) x →
      x.1.job.items ≠ [] → x.1.job.items = items) :
    Staffed (poolOk cancel) (poolTerms cfg items outcome cancel) fun work => pure (outcome work) where
  calm _ := hone
  ctx _ d _ hctx := .inr ⟨d, ((of_decide_eq_true hctx).resolve_left (by simp)).symm, rfl⟩
  serves := by
    intro t work its taken x h x' hr hi
    have h' := h.rely hr
    have hmem : work ∈ items := by
      rw [← hstock hi (h'.items ▸ h'.nonempty)]
      exact h'.mem
    refine ⟨h', fun e he => .inl ⟨work, hmem, he⟩, fun fromPeer got hok => ⟨?_, _, hok⟩⟩
    exact fun hh => absurd hh (by simp [poolTerms])

/-- The threads of the phase. -/
theorem wp_poolThreads (hinj : (items.map WorkItem.hash).Nodup)
    (hone : cfg.workers = 1 ∨ ∃ ty, ∀ e, Occurs items outcome cancel e → e.goType = ty)
    (hjob : s.job = .fresh) :
    (trailProtocol (poolOk cancel) (poolTerms cfg items outcome cancel)).wp t
      (fun a x => (t = 0 → ∃ res, a = some res ∧
          DownloadEnds (poolTerms cfg items outcome cancel) items ⟨0, 0, 0, 0, 0, 0, 0⟩ res x) ∧
        (t ≠ 0 → t ≤ cfg.workers → x.1.job.items.length < turns → t ∉ x.1.job.running))
      (poolThreads cfg items outcome turns t) (s, ⟨[], []⟩) := by
  have hi : TrailInv (poolTerms cfg items outcome cancel) (s, ⟨[], []⟩) := trailInv_of_fresh hjob rfl
  unfold poolThreads
  by_cases ht : t = 0
  · rw [if_pos ht, ht]
    have hq : Quiet (poolTerms cfg items outcome cancel) ∅ ⟨0, 0, 0, 0, 0, 0, 0⟩ (s, ⟨[], []⟩) := by
      refine ⟨?_, ?_, ?_, (fun _ h => nomatch h), ?_⟩ <;> rw [hjob] <;> rfl
    refine Protocol.wp_seq hi (wp_trailDownload hq rfl rfl hinj fun _ h => nomatch h) ?_
    intro res x1 _ hends x2 hr2 _
    refine ⟨fun _ => ⟨res, rfl, fun hnone => (hends.1 hnone).rely hr2, fun e he => ?_⟩,
      fun h => absurd rfl h⟩
    exact ⟨(hends.2 e he).1, hr2.hand.err (hends.2 e he).2⟩
  · rw [if_neg ht]
    by_cases hcrew : t ≤ cfg.workers
    · rw [if_pos hcrew]
      have hstaff := staffed_outcome hone fun hi hne => hi.ledgered.stocked hne
      refine Protocol.wp_seq (f := fun _ => pure none) hi
        (wp_trailWorker hstaff turns ht hcrew hjob rfl) ?_
      intro _ x1 _ ⟨hitems, hgone⟩ x2 hr2 _
      refine ⟨fun h => absurd h ht, fun _ _ hless => hr2.hand.gone hitems (hgone ?_)⟩
      rwa [hr2.hand.items hitems] at hless
    · rw [if_neg hcrew]
      exact fun _ _ _ => ⟨fun h => absurd h ht, fun _ hle => absurd hle hcrew⟩

theorem only_poolThreads :
    (poolThreads cfg items outcome turns t).Only fun c : Cmd => ∃ c', c = .job c' := by
  have hjob : ∀ c : JobCmd, (fun c : Cmd => ∃ c', c = .job c') (.job c) := fun c => ⟨c, rfl⟩
  unfold poolThreads
  split
  · exact (only_download hjob cfg items).bind fun _ => Prog.only_pure _
  · split
    · refine Prog.only_call (hjob _) fun _ => ?_
      exact (only_workerLoopWith hjob (fun _ => Prog.only_pure _) turns).bind fun _ => Prog.only_pure _
    · exact Prog.only_pure _

theorem exec_poolSystem {c : JobCmd} {r : c.Resp} {j : Job} (halive : s.job.panicked = false)
    (hok : ctxAnswers cancel (.job c) r = true) (hx : execJob t c r s.job = some j) :
    (poolSystem cancel).exec t (.job c) r s = some { s with job := j } := by
  simp [System.restrict, hok, nodeSystem, nodeExec, halive, hx]

theorem exec_poolLook {c : JobCmd} {r : c.Resp} (halive : s.job.panicked = false)
    (hok : ctxAnswers cancel (.job c) r = true) (hx : execJob t c r s.job = some s.job) :
    (poolSystem cancel).exec t (.job c) r s = some s :=
  exec_poolSystem halive hok hx

/-- A command of the pool can be issued unless it waits for another thread. -/
theorem exists_poolStep {c : JobCmd} (halive : s.job.panicked = false)
    (hstart : c = .awaitStart → t ∈ s.job.running)
    (hwait : c = .waitWorkers → s.job.running = []) :
    ∃ r s', (poolSystem cancel).exec t (.job c) r s = some s' := by
  cases c with
  | awaitStart => exact ⟨(), _, exec_poolSystem halive rfl (if_pos (hstart rfl))⟩
  | waitWorkers => exact ⟨(), _, exec_poolSystem halive rfl (if_pos (hwait rfl))⟩
  | ctxErr => exact ⟨none, _, exec_poolSystem halive (by simp [ctxAnswers]) rfl⟩
  | loadErr => exact ⟨s.job.downloadErr, _, exec_poolSystem halive rfl (if_pos rfl)⟩
  | loadCounters => exact ⟨s.job.counters, _, exec_poolSystem halive rfl (if_pos rfl)⟩
  | nextItem =>
      cases hq : s.job.queue with
      | nil => exact ⟨none, _, exec_poolSystem halive rfl (if_pos hq)⟩
      | cons it rest =>
          exact ⟨some it, _, exec_poolSystem halive rfl (if_pos (by rw [hq]; exact .head _))⟩
  | storeErr e =>
      obtain ⟨j, hj⟩ : ∃ j, execJob t (.storeErr e) () s.job = some j := by
        simp only [execJob]
        split
        · exact ⟨_, rfl⟩
        · split <;> exact ⟨_, rfl⟩
      exact ⟨(), _, exec_poolSystem halive rfl hj⟩
  | pickJob => exact ⟨none, _, exec_poolSystem halive rfl rfl⟩
  | startWorkers n its | credit fromPeer n | workerDone | skip size =>
      exact ⟨(), _, exec_poolSystem halive rfl rfl⟩

/-- What the phase returns. -/
theorem reports_of_ends {res : Option Err} {x : Node × Trail} {cnt : Counters}
    (hi : TrailInv (poolTerms cfg items outcome cancel) x)
    (h : DownloadEnds (poolTerms cfg items outcome cancel) items cnt res x) :
    Reports items outcome cancel res := by
  cases res with
  | some e => exact (h.2 e rfl).1
  | none =>
      intro it hit
      have hdone := h.1 rfl
      obtain ⟨k, hk, rfl⟩ := hi.ledgered.credited hdone.running hdone.err (hdone.items ▸ hit)
      exact hi.ledgered.good k hk

variable {c : Config nodeSig Node Tid (Option (Option Err))} {e : Err} {t : Tid}

/-- With one worker or errors of one type, no interleaving panics or gets stuck. -/
theorem survives_of_oneType (hinj : (items.map WorkItem.hash).Nodup)
    (hone : cfg.workers = 1 ∨ ∃ ty, ∀ e, Occurs items outcome cancel e → e.goType = ty)
    (hturns : items.length < turns) (hjob : s.job = .fresh)
    (hreach : Reachable (poolSystem cancel) (poolStart cfg items outcome turns s) c) :
    Survives items outcome cancel c := by
  have hinit : (trailProtocol (poolOk cancel) (poolTerms cfg items outcome cancel)).Inv
      (s, ⟨[], []⟩) := trailInv_of_fresh hjob rfl
  have hwp := fun t => @wp_poolThreads cfg items outcome cancel turns s t hinj hone hjob
  obtain ⟨g, hrec⟩ : ∃ g, Reachable (trailSystem (poolOk cancel))
      ⟨(s, ⟨[], []⟩), poolThreads cfg items outcome turns⟩ ⟨(c.st, g), c.prog⟩ :=
    Reachable.record hreach (⟨[], []⟩ : Trail)
  obtain ⟨hi, -⟩ := Protocol.sound hinit hwp hrec
  have halive : c.st.job.panicked = false := hi.ledgered.alive trivial
  have hjobs := fun t => hreach.only (fun t => only_poolThreads) t
  -- a thread that is at a command and does not wait for another one can go on
  have hstep : ∀ t x k, c.prog t = .call x k → (x = .job .awaitStart → t ∈ c.st.job.running) →
      (x = .job .waitWorkers → c.st.job.running = []) → ∃ c', Step (poolSystem cancel) c c' := by
    intro t x k hp hstart hwait
    have honly := hjobs t
    rw [hp] at honly
    obtain ⟨x, rfl⟩ := honly.1
    obtain ⟨r, s', hx⟩ := @exists_poolStep cancel c.st t x halive
      (fun h => hstart (by rw [h])) (fun h => hwait (by rw [h]))
    exact ⟨_, .mk hp hx⟩
  refine ⟨halive, ?_, fun res hres => ?_⟩
  · cases hp : c.prog 0 with
    | ret a =>
        obtain ⟨res, rfl, -⟩ := (Protocol.post_of_reachable hinit hwp hrec hp).1 rfl
        exact .inr ⟨res, rfl⟩
    | call x k =>
        refine .inl ?_
        have ha := Protocol.about_of_reachable hinit hwp hrec hp
        by_cases hstuck : x = .job .waitWorkers ∧ c.st.job.running ≠ []
        · -- some worker is still there, and it is not waiting
          obtain ⟨t, ht⟩ := List.exists_mem_of_ne_nil _ hstuck.2
          obtain ⟨hpos, hle⟩ := hi.ledgered.pool t ht
          have hne : t ≠ 0 := Nat.ne_of_gt hpos
          cases hpt : c.prog t with
          | ret a =>
              have hitems := hi.ledgered.stocked (hi.ledgered.items_ne_nil ht)
              have hgone := (Protocol.post_of_reachable hinit hwp hrec hpt).2 hne hle
              exact absurd ht (hgone (hitems ▸ hturns))
          | call y ky =>
              refine hstep t y ky hpt (fun _ => ht) ?_
              rintro rfl
              exact absurd (Protocol.about_of_reachable hinit hwp hrec hpt) hne
        · refine hstep 0 x k hp ?_ ?_
          · rintro rfl
            exact absurd rfl ha
          · rintro rfl
            by_contra hrun
            exact hstuck ⟨rfl, hrun⟩
  · obtain ⟨res', hres', hends⟩ := (Protocol.post_of_reachable hinit hwp hrec hres).1 rfl
    rw [Option.some.inj hres']
    exact reports_of_ends hi hends

/-! ## Panics -/

/-- The node after worker `t` has taken item `it`. -/
def takes (t : Tid) (it : WorkItem) (s : Node) : Node :=
  { s with job := { s.job with
      queue := s.job.queue.filter (·.hash ≠ it.hash)
      busy := Function.update s.job.busy t (some it) } }

/-- The rest of a worker's program when it has met an error. -/
def givesUp (e : Err) : NodeM (Option (Option Err)) := do
  let () ← giveUp e
  pure none

/-- The rest of a worker's program when it leaves. -/
def leaves : NodeM (Option (Option Err)) := do
  let () ← onJob .workerDone
  pure none

/-- Worker `t` runs up to the point where it gives up. -/
theorem advances_worker {s' : Node} (ht : t ≠ 0) (hle : t ≤ cfg.workers)
    (halive : s.job.panicked = false) (hrun : t ∈ s.job.running)
    (hloop : Advances (poolSystem cancel) t
      (workerLoopWith (fun work => pure (outcome work)) turns) s (giveUp e) s') :
    Advances (poolSystem cancel) t (poolThreads cfg items outcome turns t) s
      (givesUp e) s' := by
  rw [poolThreads, if_neg ht, if_pos hle]
  exact .perform (r := ()) (exec_poolLook halive rfl (if_pos hrun)) hloop.bind

theorem advances_take {it : WorkItem} (halive : s.job.panicked = false)
    (herr : s.job.downloadErr = none) (hmem : it ∈ s.job.queue) (hout : outcome it = .error e) :
    Advances (poolSystem cancel) t
      (workerLoopWith (fun work => pure (outcome work)) (turns + 1)) s (giveUp e) (takes t it s) := by
  have hctx : (poolSystem cancel).exec t (.job .ctxErr) (none : Option Bool) s = some s :=
    exec_poolLook halive (by simp [ctxAnswers]) rfl
  have hload : (poolSystem cancel).exec t (.job .loadErr) (none : Option Err) s = some s :=
    exec_poolLook halive rfl (if_pos herr.symm)
  have hnext : (poolSystem cancel).exec t (.job .nextItem) (some it) s = some (takes t it s) :=
    exec_poolSystem halive rfl (if_pos hmem)
  refine .perform hctx (.perform hload (.perform hnext ?_))
  simp only [Prog.pure_bind', hout]
  exact .refl

theorem advances_cancelled {deadline : Bool} (halive : s.job.panicked = false)
    (hcancel : cancel = some deadline) :
    Advances (poolSystem cancel) t
      (workerLoopWith (fun work => pure (outcome work)) (turns + 1)) s
      (giveUp (.ctx deadline)) s :=
  .perform (r := some deadline)
    (exec_poolLook halive (by simp [ctxAnswers, hcancel]) rfl) .refl

/-- Two workers about to store errors of different types. -/
theorem reachable_panic {u : Tid} {e' : Err} (hne : u ≠ t) (hp : c.prog t = givesUp e)
    (hq : c.prog u = givesUp e') (halive : c.st.job.panicked = false)
    (herr : c.st.job.downloadErr = none) (htype : e.goType ≠ e'.goType) :
    ∃ c', Reachable (poolSystem cancel) c c' ∧ c'.st.job.panicked = true := by
  let stored : Node := { c.st with job := { c.st.job with downloadErr := some e } }
  have hfirst : (poolSystem cancel).exec t (.job (.storeErr e)) () c.st = some stored :=
    exec_poolSystem halive rfl (by simp only [execJob, herr])
  have hmismatch : execJob u (.storeErr e') () stored.job =
      some { stored.job with panicked := true } := by
    simp only [execJob, stored]
    rw [if_neg htype]
  have hsecond : (poolSystem cancel).exec u (.job (.storeErr e')) () stored =
      some { stored with job := { stored.job with panicked := true } } :=
    exec_poolSystem halive rfl hmismatch
  have hadv : Advances (poolSystem cancel) t (givesUp e) c.st
      leaves stored := Advances.bind (.perform hfirst .refl)
  have hadv' : Advances (poolSystem cancel) u (givesUp e') stored
      leaves
      { stored with job := { stored.job with panicked := true } } :=
    Advances.bind (.perform hsecond .refl)
  exact ⟨_, (hadv.reachable hp).trans
    (hadv'.reachable ((Function.update_of_ne hne _ _).trans hq)), rfl⟩

/-- Two workers that come to give up with errors of different types, one after
the other. -/
theorem reachable_panic_of_advances (hjob : s.job = .fresh) (hne : items ≠ [])
    (hworkers : 1 < cfg.workers) {e' : Err} (htype : e.goType ≠ e'.goType) {s1 s2 : Node}
    (started : Node) (hstarted : started = { s with job := { s.job with
      items := items, queue := items, running := List.range' 1 cfg.workers } })
    (hone : Advances (poolSystem cancel) 1
      (workerLoopWith (fun work => pure (outcome work)) turns) started (giveUp e) s1)
    (htwo : Advances (poolSystem cancel) 2
      (workerLoopWith (fun work => pure (outcome work)) turns) s1 (giveUp e') s2)
    (hrun1 : s1.job.running = started.job.running) (halive1 : s1.job.panicked = false)
    (halive2 : s2.job.panicked = false) (herr2 : s2.job.downloadErr = none) :
    ∃ c, Reachable (poolSystem cancel) (poolStart cfg items outcome turns s) c ∧
      c.st.job.panicked = true := by
  have halive : s.job.panicked = false := by rw [hjob]; rfl
  have halive0 : started.job.panicked = false := by rw [hstarted]; exact halive
  have hrun : ∀ t : Nat, 0 < t → t ≤ cfg.workers → t ∈ started.job.running := by
    intro t hpos hle
    rw [hstarted]
    exact List.mem_range'_1.mpr ⟨hpos, by omega⟩
  obtain ⟨q, hstart⟩ : ∃ q, Advances (poolSystem cancel) 0
      (poolThreads cfg items outcome turns 0) s q started := by
    rw [poolThreads, if_pos rfl, download, if_neg hne, hstarted]
    exact ⟨_, Advances.bind (.perform (r := ()) (exec_poolSystem halive rfl rfl) .refl)⟩
  have hrun2 : 2 ∈ s1.job.running := by
    rw [hrun1]
    exact hrun 2 (by omega) hworkers
  have hadv1 : Advances (poolSystem cancel) 1 (poolThreads cfg items outcome turns 1) started
      (givesUp e) s1 :=
    advances_worker (by decide) hworkers.le halive0 (hrun 1 (by omega) hworkers.le) hone
  have hadv2 : Advances (poolSystem cancel) 2 (poolThreads cfg items outcome turns 2) s1
      (givesUp e') s2 :=
    advances_worker (by decide) hworkers halive1 hrun2 htwo
  -- the programs of the threads after each of the three has gone on
  let prog0 := Function.update (poolThreads cfg items outcome turns) 0 q
  let prog1 := Function.update prog0 1 (givesUp e)
  let prog2 := Function.update prog1 2 (givesUp e')
  have hreach0 : Reachable (poolSystem cancel) (poolStart cfg items outcome turns s)
      ⟨started, prog0⟩ := hstart.reachable rfl
  have hp1 : prog0 1 = poolThreads cfg items outcome turns 1 :=
    Function.update_of_ne (by decide) _ _
  have hp2 : prog1 2 = poolThreads cfg items outcome turns 2 :=
    (Function.update_of_ne (by decide) _ _).trans (Function.update_of_ne (by decide) _ _)
  have hfirst : prog2 1 = givesUp e :=
    (Function.update_of_ne (by decide) _ _).trans (Function.update_self ..)
  have hsecond : prog2 2 = givesUp e' := Function.update_self ..
  have hreach1 := hadv1.reachable hp1
  have hreach2 := hadv2.reachable hp2
  obtain ⟨c, hreach3, hpanic⟩ := reachable_panic (c := ⟨s2, prog2⟩) (t := 1) (u := 2) (by decide)
    hfirst hsecond halive2 herr2 htype
  exact ⟨c, ((hreach0.trans hreach1).trans hreach2).trans hreach3, hpanic⟩

/-- With two workers and errors of two types, some interleaving panics. -/
theorem panics_of_types (hinj : (items.map WorkItem.hash).Nodup) (hjob : s.job = .fresh)
    (hworkers : 1 < cfg.workers) {e' : Err} (he : Occurs items outcome cancel e)
    (he' : Occurs items outcome cancel e') (htype : e.goType ≠ e'.goType) :
    ∃ c, Reachable (poolSystem cancel) (poolStart cfg items outcome (turns + 1) s) c ∧
      c.st.job.panicked = true := by
  have halive : s.job.panicked = false := by rw [hjob]; rfl
  have herr : s.job.downloadErr = none := by rw [hjob]; rfl
  -- an item that fails, and the end of the context
  have hmixed : ∀ {e : Err} {deadline : Bool} {it : WorkItem}, it ∈ items → outcome it = .error e →
      cancel = some deadline → e.goType ≠ (Err.ctx deadline).goType →
      ∃ c, Reachable (poolSystem cancel) (poolStart cfg items outcome (turns + 1) s) c ∧
        c.st.job.panicked = true := by
    intro e deadline it hit hout hcancel htype
    exact reachable_panic_of_advances hjob (List.ne_nil_of_mem hit) hworkers htype _ rfl
      (advances_take halive herr hit hout) (advances_cancelled halive hcancel) rfl halive halive herr
  rcases he with ⟨it, hit, hout⟩ | ⟨deadline, hcancel, rfl⟩
  · rcases he' with ⟨it', hit', hout'⟩ | ⟨deadline, hcancel, rfl⟩
    · have hhash : it'.hash ≠ it.hash := by
        intro hsame
        rw [List.inj_on_of_nodup_map hinj hit' hit hsame, hout, Except.error.injEq] at hout'
        exact htype (by rw [hout'])
      have hleft : it' ∈ items.filter (·.hash ≠ it.hash) :=
        List.mem_filter.mpr ⟨hit', by simpa using hhash⟩
      exact reachable_panic_of_advances hjob (List.ne_nil_of_mem hit) hworkers htype _ rfl
        (advances_take halive herr hit hout) (advances_take halive herr hleft hout') rfl halive
        halive herr
    · exact hmixed hit hout hcancel htype
  · rcases he' with ⟨it', hit', hout'⟩ | ⟨deadline', hcancel', rfl⟩
    · exact hmixed hit' hout' hcancel htype.symm
    · rw [hcancel, Option.some.injEq] at hcancel'
      exact absurd (by rw [hcancel']) htype

end Outcome

/-- **Failing workers.**  For every number of workers, every outcome of each fetch
and every context: every interleaving of the download phase comes to its end
without a panic and returns one of the errors that occurred, or none if there
was none, exactly if there is one worker or all errors that can occur have one
concrete type. -/
theorem download_survives_iff (cfg : EngineConfig) (items : List WorkItem)
    (hinj : (items.map WorkItem.hash).Nodup) (outcome : Outcomes) (cancel : Option Bool)
    (turns : Nat) (hturns : items.length < turns) (s : Node) (hjob : s.job = .fresh) :
    (Acc (fun c' c => Step (poolSystem cancel) c c') (poolStart cfg items outcome turns s) ∧
      ∀ c, Reachable (poolSystem cancel) (poolStart cfg items outcome turns s) c →
        Survives items outcome cancel c) ↔
    cfg.workers = 1 ∨ ∃ ty, ∀ e, Occurs items outcome cancel e → e.goType = ty := by
  constructor
  · rintro ⟨-, hall⟩
    by_contra hmixed
    obtain ⟨hworkers, htypes⟩ := not_or.mp hmixed
    have hpos := cfg.workers_pos
    obtain ⟨e, e', he, he', htype⟩ : ∃ e e', Occurs items outcome cancel e ∧
        Occurs items outcome cancel e' ∧ e.goType ≠ e'.goType := by
      by_contra hsame
      push Not at hsame
      by_cases hany : ∃ e, Occurs items outcome cancel e
      · obtain ⟨e, he⟩ := hany
        exact htypes ⟨e.goType, fun e' he' => hsame e' e he' he⟩
      · exact htypes ⟨.wrapError, fun e he => absurd ⟨e, he⟩ hany⟩
    obtain ⟨turns, rfl⟩ : ∃ n, turns = n + 1 := ⟨turns - 1, by omega⟩
    have hmany : 1 < cfg.workers := by omega
    obtain ⟨c, hreach, hpanic⟩ := panics_of_types hinj hjob hmany he he' htype
    rw [(hall c hreach).alive] at hpanic
    contradiction
  · exact fun hone => ⟨acc_poolStart, fun c hreach =>
      survives_of_oneType hinj hone hturns hjob hreach⟩

/-! ### Two workers -/

/-- Three chunks of one file. -/
def threeItems : List WorkItem :=
  [⟨str "a", str "f", 0, 1⟩, ⟨str "b", str "f", 1, 1⟩, ⟨str "c", str "f", 2, 1⟩]

/-- The first chunk is fetched, no source has the others. -/
def twoFail : Outcomes := fun it =>
  if it.hash = str "a" then .ok (true, 1) else .error (.noSource it.hash)

/-- Two workers fail with errors of one type, and so does a cancelled context. -/
theorem download_survives_twoFail :
    Acc (fun c' c => Step (poolSystem (some false)) c c')
      (poolStart ⟨2, 1, false, false, defaultOptions⟩ threeItems twoFail 4 emptyNode) ∧
    ∀ c, Reachable (poolSystem (some false))
      (poolStart ⟨2, 1, false, false, defaultOptions⟩ threeItems twoFail 4 emptyNode) c →
      Survives threeItems twoFail (some false) c := by
  refine (download_survives_iff ⟨2, 1, false, false, defaultOptions⟩ threeItems (by decide) twoFail
    (some false) 4 (by decide) emptyNode rfl).mpr (.inr ⟨.errorString, fun e he => ?_⟩)
  rcases he with ⟨it, -, hout⟩ | ⟨deadline, hcancel, rfl⟩
  · unfold twoFail at hout
    split at hout <;> cases hout
    rfl
  · cases hcancel
    rfl

/-- A sync of one chunk by two workers; the origin has other bytes. -/
def crashStart : Config nodeSig Node Tid (Option (Except Err SyncMetrics)) :=
  syncStart (.numbering [[1, 2], [1, 3]]) (fun _ => []) ⟨2, 1, true, false, defaultOptions⟩
    (finalize (.numbering [[1, 2], [1, 3]]) (fun _ => []) ⟨1, [], str "lone", str "1", 2, 0,
      [⟨str "f", 2, [], [⟨computeHash (.numbering [[1, 2], [1, 3]]) [1, 2], 0, 2⟩]⟩]⟩)
    (str "/srv") ⟨100, 50⟩ (fun _ => 2) emptyNode

/-- The second worker finds the context cancelled. -/
def crashAnswer (t : Tid) : (c : Cmd) → Node → c.Resp
  | .job .ctxErr, _ => if t = 2 then some false else none
  | c, s => (World.originOnly [(str "f", [1, 3])]).answer c s

/-- The second worker is about to store the error of the context when the first
one stores that of the failed integrity check. -/
def crashed : Config nodeSig Node Tid (Option (Except Err SyncMetrics)) :=
  crashStart.play nodeSystem crashAnswer
    (List.replicate 2 0 ++ [2, 2] ++ List.replicate 60 1 ++ [2])

/-- The process dies with a panic in `atomic.Value.Store`. -/
theorem workers_crash_sync : ∃ c, Reachable nodeSystem crashStart c ∧ c.st.job.panicked = true :=
  ⟨crashed, Config.reachable_play, by decide +kernel⟩

end Spider

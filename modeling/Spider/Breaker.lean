import Spider.Scheduler

/-!
# Spider.Breaker

The circuit breaker over a whole history of calls (`pkg/scheduler/scheduler.go`).

Its state is a failure count and a time, which different calls set and reset.  Seen from
outside it is simpler: a peer is untrusted for 15 minutes after every failure that is at least
the third in a row, whatever is recorded in the meantime (`isUntrusted_iff_tripped`).  A row
ends with a success, and also when `RankPeers` meets the peer after its 15 minutes and lets it
start again.
-/

namespace Spider

/-! ## Histories -/

inductive SchedulerCall where
  | beginTransfer (addr : Str)
  | endTransfer (addr : Str) (ok : Bool)
  | rankPeers (peers : List Str)
  | isUntrusted (addr : Str)
  deriving DecidableEq

namespace Scheduler

/-- The scheduler after a call at a given time. -/
def after (s : Scheduler) : Time × SchedulerCall → Scheduler
  | (_, .beginTransfer addr) => (s.beginTransfer addr).2
  | (now, .endTransfer addr ok) => s.endTransfer now addr ok
  | (now, .rankPeers peers) => (s.rankPeers now peers).2
  | (_, .isUntrusted _) => s

/-- The scheduler after some calls. -/
def afterAll (s : Scheduler) (history : List (Time × SchedulerCall)) : Scheduler :=
  history.foldl after s

end Scheduler

/-! ## What has been recorded of a peer -/

/-- The failures in a row, and the last one that was at least the third, as long as no ranking
has found its 15 minutes over. -/
structure FailureRow where
  length : Nat
  tripped : Option Time
  deriving DecidableEq

/-- The 15 minutes of a peer are over. -/
def FailureRow.lapsed (r : FailureRow) (now : Time) : Bool :=
  r.tripped.any fun since => decide (untrustedFor ≤ durationSub now since)

/-- What a call adds to the record of a peer. -/
def FailureRow.record (peer : Str) (r : FailureRow) : Time × SchedulerCall → FailureRow
  | (now, .endTransfer addr ok) =>
      if addr ≠ peer then r
      else if ok then { r with length := 0 }
      else ⟨r.length + 1, if untrustedAfter ≤ r.length + 1 then some now else r.tripped⟩
  | (now, .rankPeers peers) =>
      if peer ∈ peers ∧ peer ≠ [] ∧ r.lapsed now then ⟨0, none⟩ else r
  | _ => r

/-- The record of a peer after a history. -/
def failureRow (peer : Str) (history : List (Time × SchedulerCall)) : FailureRow :=
  history.foldl (FailureRow.record peer) ⟨0, none⟩

/-- Some failure of the last 15 minutes was at least the third in a row. -/
def TrippedBefore (peer : Str) (history : List (Time × SchedulerCall)) (t : Time) : Prop :=
  ∃ before at' later, history = before ++ (at', .endTransfer peer false) :: later ∧
    untrustedAfter ≤ (failureRow peer before).length + 1 ∧ durationSub t at' < untrustedFor

/-! ## The scheduler keeps this record -/

namespace Scheduler

variable {s : Scheduler} {now : Time} {peer addr : Str}

/-- What the scheduler knows of a peer's failures. -/
def row (s : Scheduler) (peer : Str) : FailureRow :=
  ⟨(s.stats peer).failures, (s.stats peer).untrustedAt⟩

theorem isUntrusted_iff : s.isUntrusted now peer = true ↔
    ∃ since, (s.row peer).tripped = some since ∧ durationSub now since < untrustedFor := by
  unfold isUntrusted row
  cases (s.stats peer).untrustedAt <;> simp

theorem row_lapsed : (s.row peer).lapsed now =
    ((s.stats peer).untrustedAt.isSome && !s.isUntrusted now peer) := by
  unfold isUntrusted row FailureRow.lapsed
  cases (s.stats peer).untrustedAt with
  | none => rfl
  | some since => simp [← decide_not]

theorem row_set_of_ne (st : Stats) (h : peer ≠ addr) : (s.set addr st).row peer = s.row peer := by
  rw [row, set_stats_of_ne s st h]
  rfl

/-- The loop of `RankPeers` on one peer.  After its time is up the peer is met once; then it has
no mark any more. -/
theorem row_splitPeers (peers : List Str) :
    (splitPeers now s peers).2.2.row peer =
      if peer ∈ peers ∧ peer ≠ [] ∧ (s.row peer).lapsed now then ⟨0, none⟩ else s.row peer := by
  induction peers generalizing s with
  | nil => simp [splitPeers]
  | cons addr addrs ih =>
      rw [splitPeers]
      by_cases haddr : addr = []
      · rw [if_pos haddr, ih]
        by_cases hself : peer = addr
        · simp [hself, haddr]
        · simp [hself]
      · rw [if_neg haddr]
        by_cases hself : peer = addr
        · subst hself
          cases huntrusted : s.isUntrusted now peer with
          | true =>
              simp only [if_true]
              rw [ih]
              simp [row_lapsed, huntrusted]
          | false =>
              simp only [Bool.false_eq_true, if_false]
              rw [ih]
              cases hmark : (s.stats peer).untrustedAt with
              | none => simp [row, FailureRow.lapsed, hmark]
              | some since =>
                  have hlapsed : (s.row peer).lapsed now = true := by
                    simp [row_lapsed, huntrusted, hmark]
                  have hnew : ∀ n, (s.set peer ⟨n, 0, none⟩).row peer = ⟨0, none⟩ := by simp [row]
                  simp [hnew, hlapsed, haddr]
        · split
          · rw [ih]
            simp [hself]
          · rw [ih, row_set_of_ne _ hself]
            simp [hself]

theorem row_after (c : Time × SchedulerCall) :
    (s.after c).row peer = (s.row peer).record peer c := by
  obtain ⟨now, call⟩ := c
  cases call with
  | beginTransfer addr =>
      by_cases haddr : peer = addr
      · rw [after, row, haddr, beginTransfer_stats]
        rfl
      · rw [after, row, beginTransfer_stats_of_ne haddr]
        rfl
  | endTransfer addr ok =>
      by_cases haddr : peer = addr
      · subst haddr
        rw [after, row, endTransfer_stats]
        cases ok with
        | true => simp [FailureRow.record, row]
        | false =>
            by_cases htrips : untrustedAfter ≤ (s.stats peer).failures + 1 <;>
              simp [FailureRow.record, row, htrips]
      · rw [after, row, endTransfer_stats_of_ne haddr]
        simp [FailureRow.record, Ne.symm haddr, row]
  | rankPeers peers => exact row_splitPeers peers
  | isUntrusted addr => rfl

theorem row_afterAll (maxInflight : Int)
    (history : List (Time × SchedulerCall)) :
    ((new maxInflight).afterAll history).row peer = failureRow peer history := by
  induction history using List.reverseRecOn with
  | nil => rfl
  | append_singleton history c ih =>
      rw [afterAll, List.foldl_concat, failureRow, List.foldl_concat, row_after]
      exact congrArg (FailureRow.record peer · c) ih

end Scheduler

/-! ## The last 15 minutes -/

section Window

variable {peer : Str} {history : List (Time × SchedulerCall)} {t : Time} {c : Time × SchedulerCall}

theorem trippedBefore_concat : TrippedBefore peer (history ++ [c]) t ↔
    TrippedBefore peer history t ∨ c.2 = .endTransfer peer false ∧
      untrustedAfter ≤ (failureRow peer history).length + 1 ∧ durationSub t c.1 < untrustedFor := by
  constructor
  · rintro ⟨before, at', later, heq, hrow, hrecent⟩
    rcases List.eq_nil_or_concat later with rfl | ⟨later, c', rfl⟩
    · obtain ⟨rfl, hc⟩ := List.append_inj' heq rfl
      rw [List.singleton_inj.mp hc]
      exact .inr ⟨rfl, hrow, hrecent⟩
    · rw [List.concat_eq_append, ← List.cons_append, ← List.append_assoc] at heq
      exact .inl ⟨before, at', later, (List.append_inj' heq rfl).1, hrow, hrecent⟩
  · rintro (⟨before, at', later, rfl, hrow, hrecent⟩ | ⟨hc, hrow, hrecent⟩)
    · exact ⟨before, at', later ++ [c], by simp, hrow, hrecent⟩
    · exact ⟨history, c.1, [], by rw [← hc], hrow, hrecent⟩

theorem failureRow_concat :
    failureRow peer (history ++ [c]) = (failureRow peer history).record peer c :=
  List.foldl_concat ..

theorem TrippedBefore.exists_mem (h : TrippedBefore peer history t) :
    ∃ c ∈ history, durationSub t c.1 < untrustedFor := by
  obtain ⟨before, at', later, rfl, -, hrecent⟩ := h
  exact ⟨_, List.mem_append_right _ List.mem_cons_self, hrecent⟩

/-- The record holds a trip of the last 15 minutes if there has been one: only a ranking removes
it, after its time. -/
theorem tripped_iff (hclock : history.Pairwise fun c c' => c.1 ≤ c'.1)
    (hnow : ∀ c ∈ history, c.1 ≤ t) :
    (∃ since, (failureRow peer history).tripped = some since ∧ durationSub t since < untrustedFor) ↔
      TrippedBefore peer history t := by
  induction history using List.reverseRecOn with
  | nil => simp [failureRow, TrippedBefore]
  | append_singleton history c ih =>
      obtain ⟨hclock, -, hlast⟩ := List.pairwise_append.mp hclock
      have ih := ih hclock fun c' hc' => hnow c' (List.mem_append_left _ hc')
      have hlast : ∀ c' ∈ history, c'.1 ≤ c.1 := fun c' hc' => hlast c' hc' c (by simp)
      have hct : c.1 ≤ t := hnow c (by simp)
      rw [trippedBefore_concat, failureRow_concat, ← ih]
      generalize failureRow peer history = r at ih ⊢
      obtain ⟨now, call⟩ := c
      cases call with
      | beginTransfer addr | isUntrusted addr => simp [FailureRow.record]
      | endTransfer addr ok =>
          by_cases haddr : addr = peer
          · subst haddr
            by_cases htrips : ok = false ∧ untrustedAfter ≤ r.length + 1
            · -- the new failure is more recent than any other
              obtain ⟨rfl, hrow⟩ := htrips
              have hrecent : TrippedBefore addr history t → durationSub t now < untrustedFor := by
                intro h
                obtain ⟨c', hc', hrecent⟩ := h.exists_mem
                exact lt_of_le_of_lt (durationSub_mono le_rfl (hlast c' hc')) hrecent
              have hnew : (r.record addr (now, .endTransfer addr false)).tripped = some now := by
                simp [FailureRow.record, hrow]
              rw [hnew, ih]
              simp only [Option.some.injEq, exists_eq_left', hrow, true_and]
              exact ⟨.inr, fun h => h.elim hrecent id⟩
            · cases ok with
              | true => simp [FailureRow.record]
              | false =>
                  have hrow : ¬ untrustedAfter ≤ r.length + 1 := fun h => htrips ⟨rfl, h⟩
                  simp [FailureRow.record, hrow]
          · simp [FailureRow.record, haddr]
      | rankPeers peers =>
          by_cases hmeets : peer ∈ peers ∧ peer ≠ [] ∧ r.lapsed now = true
          · -- the time that is over now is over at `t`
            have hover : ∀ since, r.tripped = some since → ¬ durationSub t since < untrustedFor := by
              intro since hsince
              have hlapsed := hmeets.2.2
              simp only [FailureRow.lapsed, hsince, Option.any_some, decide_eq_true_eq] at hlapsed
              exact not_lt_of_ge (hlapsed.trans (durationSub_mono hct le_rfl))
            simp only [FailureRow.record, if_pos hmeets, reduceCtorEq, false_and, exists_false,
              or_false, false_iff]
            rintro ⟨since, hsince, hrecent⟩
            exact hover since hsince hrecent
          · simp [FailureRow.record, hmeets]

end Window

/-- **The circuit breaker.**  After every history with a non-decreasing clock a peer is
untrusted exactly if some failure of the last 15 minutes was at least the third in a row. -/
theorem isUntrusted_iff_tripped (maxInflight : Int) (peer : Str)
    (history : List (Time × SchedulerCall)) (t : Time)
    (hclock : history.Pairwise fun c c' => c.1 ≤ c'.1) (hnow : ∀ c ∈ history, c.1 ≤ t) :
    ((Scheduler.new maxInflight).afterAll history).isUntrusted t peer = true ↔
      TrippedBefore peer history t := by
  rw [Scheduler.isUntrusted_iff, Scheduler.row_afterAll]
  exact tripped_iff hclock hnow

/-- Three failures, a success of a transfer that was in flight with them, and a ranking. -/
def trippedHistory : List (Time × SchedulerCall) :=
  [(0, .beginTransfer (str "p")), (1, .beginTransfer (str "p")), (2, .endTransfer (str "p") false),
    (3, .endTransfer (str "p") false), (4, .endTransfer (str "p") false),
    (5, .endTransfer (str "p") true), (6, .rankPeers [str "p"])]

theorem isUntrusted_iff_tripped_history :
    TrippedBefore (str "p") trippedHistory 7 ∧
    (((Scheduler.new 4).afterAll trippedHistory).isUntrusted 7 (str "p") = true ↔
      TrippedBefore (str "p") trippedHistory 7) :=
  ⟨⟨trippedHistory.take 4, 4, trippedHistory.drop 5, by decide, by decide, by decide⟩,
    isUntrusted_iff_tripped 4 (str "p") trippedHistory 7 (by decide) (by decide)⟩

/-- Although the last outcome of the peer is a success, it is untrusted; and after its time, once
ranked, it is trusted although its last outcomes are four failures in a row. -/
theorem success_leaves_untrusted :
    ((Scheduler.new 4).afterAll trippedHistory).isUntrusted 7 (str "p") = true ∧
    ((Scheduler.new 4).afterAll [(2, .endTransfer (str "p") false), (3, .endTransfer (str "p") false),
      (4, .endTransfer (str "p") false), (900000000004, .rankPeers [str "p"]),
      (900000000005, .endTransfer (str "p") false)]).isUntrusted 900000000006 (str "p") = false := by
  decide

end Spider

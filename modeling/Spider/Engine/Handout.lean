import Spider.Engine.Missing
import Spider.Lib.History

/-!
# Spider.Engine.Handout

The download phase of a sync: what its workers take out of the queue, what they
are credited with, and the errors they store.

Beside the state there is a record of the first two (`Trail`).  The items that have
been handed out and those in the queue are the items of the phase, each once; as
long as no download has failed, the handed out ones are those that have been
credited and those the workers hold.  So when the workers are gone, every item has
been handed out and credited exactly once (`Ledgered.settled`), and its chunk is in
the store if nobody takes it out.

What the fetch of a worker does is a parameter (`Staffed`).
-/

namespace Spider

open Conc

/-! ## The record -/

/-- An item handed to a worker. -/
structure Handed where
  worker : Tid
  item : WorkItem
  /-- The hashes in the queue, this one included. -/
  queued : List Str
  deriving DecidableEq

/-- A download a worker has counted. -/
structure Credit where
  item : WorkItem
  fromPeer : Bool
  n : Int
  deriving DecidableEq

structure Trail where
  handed : List Handed
  credits : List Credit
  deriving DecidableEq

def noteTrail (t : Tid) : (c : Cmd) → c.Resp → Node → Trail → Trail
  | .job .nextItem, some it, s, g =>
      { g with handed := g.handed ++ [⟨t, it, s.job.queue.map WorkItem.hash⟩] }
  | .job (.credit fromPeer n), _, s, g =>
      match s.job.busy t with
      | some it => { g with credits := g.credits ++ [⟨it, fromPeer, n⟩] }
      | none => g
  | _, _, _, g => g

/-- A node with this record, where each step meets a condition. -/
abbrev trailSystem (ok : Tid → (c : Cmd) → c.Resp → Node → Bool) :
    System nodeSig (Node × Trail) Tid :=
  (nodeSystem.limit ok).record noteTrail

/-- The number of items a worker has taken. -/
def Trail.taken (g : Trail) (t : Tid) : Nat := g.handed.countP (·.worker = t)

/-- The counters of the downloads. -/
structure Counters.Tallies (c : Counters) (ks : List Credit) : Prop where
  downloaded : c.downloadedChunks = ks.length
  sources : c.peerChunks + c.originChunks = ks.length
  bytes : c.peerBytes + c.originBytes = (ks.map Credit.n).sum

theorem Counters.Tallies.credit {c : Counters} {ks : List Credit} (h : c.Tallies ks) (k : Credit) :
    (c.credit k.fromPeer k.n).Tallies (ks ++ [k]) := by
  obtain ⟨hd, hs, hb⟩ := h
  unfold Counters.credit
  constructor <;> cases k.fromPeer <;> simp <;> omega

/-! ## The invariant -/

/-- What a group of results assumes about the phase. -/
structure Terms where
  workers : Nat
  /-- The items the workers may be started on. -/
  stock : List WorkItem → Prop
  /-- What a worker may be credited with. -/
  good : Credit → Prop
  /-- The errors a worker may store. -/
  errs : Err → Prop
  /-- No worker stores an error of another type than the one that is there. -/
  calm : Prop
  /-- The chunks nobody takes out of the store. -/
  hashes : List Str

/-- What the record says about the job. -/
structure Ledgered (K : Terms) (j : Job) (g : Trail) : Prop where
  alive : K.calm → j.panicked = false
  known : ∀ e, j.downloadErr = some e → K.errs e
  distinct : (j.items.map WorkItem.hash).Nodup
  handed : (g.handed.map Handed.item ++ j.queue).Perm j.items
  tallies : j.counters.Tallies g.credits
  good : ∀ k ∈ g.credits, K.good k
  stocked : j.items ≠ [] → K.stock j.items
  flow : j.downloadErr = none →
    (g.credits.map Credit.item ++ j.running.filterMap j.busy).Perm (g.handed.map Handed.item)
  drained : j.items ≠ [] → j.running = [] → j.queue = [] ∨ j.downloadErr ≠ none
  running : j.running.Nodup
  pool : ∀ t ∈ j.running, 1 ≤ t ∧ t ≤ K.workers
  unstarted : j.items = [] → j.running = [] ∧ g.credits = [] ∧ ∀ t, j.busy t = none

/-- What other threads leave as it is for thread `t`. -/
structure HandRely (K : Terms) (t : Tid) (j : Job) (g : Trail) (j' : Job) (g' : Trail) : Prop where
  busy : j'.busy t = j.busy t
  taken : g'.taken t = g.taken t
  items : j.items ≠ [] → j'.items = j.items
  running : t ∈ j.running → t ∈ j'.running ∧ (j.queue = [] → j'.queue = [])
  gone : j.items ≠ [] → t ∉ j.running → t ∉ j'.running
  err : j.downloadErr ≠ none → j'.downloadErr ≠ none
  alone : K.workers = 1 → t = 1 → j'.downloadErr = j.downloadErr
  main : t = 0 → j'.items = j.items ∧
    j'.counters.skippedChunks = j.counters.skippedChunks ∧
    j'.counters.cacheBytesReused = j.counters.cacheBytesReused ∧
    (j.running = [] → j'.running = [] ∧ j'.downloadErr = j.downloadErr ∧
      j'.counters = j.counters ∧ g' = g)

/-- What must hold before a job command of thread `t`. -/
def aboutHand (K : Terms) (t : Tid) (s : Node) : JobCmd → Prop
  | .startWorkers workers items =>
      t = 0 ∧ workers = K.workers ∧ 0 < workers ∧ s.job.items = [] ∧ items ≠ [] ∧ K.stock items ∧
        (items.map WorkItem.hash).Nodup
  | .skip _ | .waitWorkers => t = 0
  | .awaitStart => t ≠ 0
  | .nextItem => t ∈ s.job.running ∧ s.job.busy t = none
  | .storeErr e => t ∈ s.job.running ∧ K.errs e ∧
      (K.calm → ∀ e', s.job.downloadErr = some e' → e'.goType = e.goType)
  | .credit fromPeer got => t ∈ s.job.running ∧ ∃ it, s.job.busy t = some it ∧
      K.good ⟨it, fromPeer, got⟩ ∧ (it.hash ∈ K.hashes → Committed it.hash s)
  | .workerDone => t ∈ s.job.running ∧ (s.job.busy t = none ∨ s.job.downloadErr ≠ none) ∧
      (s.job.queue = [] ∨ s.job.downloadErr ≠ none)
  | _ => True

section Lists

variable {α β : Type}

/-- Taking the items of one key out of a list in which keys occur once. -/
theorem perm_cons_filter {key : α → β} [DecidableEq β] {xs : List α} {x : α}
    (hdistinct : (xs.map key).Nodup) (hx : x ∈ xs) :
    xs.Perm (x :: xs.filter fun y => key y ≠ key x) := by
  induction xs with
  | nil => contradiction
  | cons y ys ih =>
      rw [List.map_cons, List.nodup_cons] at hdistinct
      cases List.mem_cons.mp hx with
      | inl he =>
          subst he
          have hrest : ys.filter (fun y => decide (key y ≠ key x)) = ys := by
            rw [List.filter_eq_self]
            intro y hy
            have hne : key y ≠ key x := fun h => hdistinct.1 (h ▸ List.mem_map_of_mem hy)
            simpa using hne
          rw [List.filter_cons_of_neg (by simp), hrest]
      | inr hmem =>
          have hne : key y ≠ key x := fun h => hdistinct.1 (h ▸ List.mem_map_of_mem hmem)
          rw [List.filter_cons_of_pos (by simpa using hne)]
          exact ((ih hdistinct.2 hmem).cons y).trans (.swap ..)

/-- Changing a partial function at a point where it was not defined. -/
theorem filterMap_update_some [DecidableEq α] {f : α → Option β} {ts : List α} {t : α} {b : β}
    (hts : ts.Nodup) (ht : t ∈ ts) (hf : f t = none) :
    (ts.filterMap (Function.update f t (some b))).Perm (b :: ts.filterMap f) := by
  induction ts with
  | nil => contradiction
  | cons u us ih =>
      rw [List.nodup_cons] at hts
      by_cases hu : u = t
      · subst hu
        have hsame : us.filterMap (Function.update f u (some b)) = us.filterMap f := by
          refine List.filterMap_congr fun v hv => ?_
          rw [Function.update_of_ne fun he : v = u => hts.1 (he ▸ hv)]
        rw [List.filterMap_cons_some (Function.update_self ..), hsame, List.filterMap_cons_none hf]
      · have hmem : t ∈ us := (List.mem_cons.mp ht).resolve_left (Ne.symm hu)
        have hrest := ih hts.2 hmem
        cases hfu : f u with
        | none =>
            rw [List.filterMap_cons_none (by rw [Function.update_of_ne hu, hfu]),
              List.filterMap_cons_none hfu]
            exact hrest
        | some c =>
            rw [List.filterMap_cons_some (by rw [Function.update_of_ne hu, hfu]),
              List.filterMap_cons_some hfu]
            exact (hrest.cons c).trans (.swap ..)

theorem filterMap_erase [DecidableEq α] {f : α → Option β} {ts : List α} {t : α} (hf : f t = none) :
    (ts.erase t).filterMap f = ts.filterMap f := by
  induction ts with
  | nil => rfl
  | cons u us ih =>
      by_cases hu : u = t
      · rw [hu, List.erase_cons_head, List.filterMap_cons_none hf]
      · rw [List.erase_cons_tail (by simpa using hu), List.filterMap_cons, List.filterMap_cons, ih]

end Lists

section Steps

variable {K : Terms} {t : Tid} {j j' : Job} {g : Trail}

theorem not_running_of_nil (ht : t ∈ j.running) : j.running ≠ [] :=
  fun h => absurd (h ▸ ht) (by simp)

/-- The queue holds each hash once. -/
theorem Ledgered.queue_distinct (h : Ledgered K j g) : (j.queue.map WorkItem.hash).Nodup := by
  have hall := ((h.handed.map WorkItem.hash).nodup_iff).mpr h.distinct
  rw [List.map_append] at hall
  exact hall.of_append_right

/-- Before the workers have been started nothing has been handed out. -/
theorem Ledgered.handed_eq_nil (h : Ledgered K j g) (hitems : j.items = []) :
    g.handed = [] ∧ j.queue = [] := by
  have hnil := h.handed
  rw [hitems] at hnil
  simpa using hnil.eq_nil

/-- While a worker runs there are items. -/
theorem Ledgered.items_ne_nil (h : Ledgered K j g) (ht : t ∈ j.running) : j.items ≠ [] :=
  fun hnone => not_running_of_nil ht (h.unstarted hnone).1

/-- Commands that leave the queue, the workers, the error and the counters alone. -/
theorem execJob_asks {c : JobCmd} {r : c.Resp} (hx : execJob t c r j = some j')
    (hc : c = .ctxErr ∨ c = .pickJob ∨ c = .awaitStart ∨ c = .loadErr ∨ c = .waitWorkers ∨
      c = .loadCounters) : j' = j := by
  rcases hc with rfl | rfl | rfl | rfl | rfl | rfl
  · exact (Option.some.inj hx).symm
  · exact (Option.some.inj hx).symm
  all_goals
    simp only [execJob, Option.ite_none_right_eq_some, Option.some.injEq] at hx
    exact hx.2.symm

/-- Afterwards there is an error, and it is one of the two; it takes errors of two types
for a panic. -/
theorem execJob_storeErr {e : Err} (hx : execJob t (.storeErr e) () j = some j') :
    ∃ e' p, j' = { j with downloadErr := some e', panicked := p } ∧
      (e' = e ∨ j.downloadErr = some e') ∧
      ((∀ e'', j.downloadErr = some e'' → e''.goType = e.goType) → p = j.panicked) := by
  simp only [execJob] at hx
  cases hold : j.downloadErr with
  | none =>
      simp only [hold, Option.some.injEq] at hx
      exact ⟨e, j.panicked, hx.symm, .inl rfl, fun _ => rfl⟩
  | some e' =>
      simp only [hold] at hx
      split at hx
      · exact ⟨e, j.panicked, (Option.some.inj hx).symm, .inl rfl, fun _ => rfl⟩
      · rename_i htype
        refine ⟨e', true, ?_, .inr rfl, fun hsame => absurd (hsame e' rfl) htype⟩
        rw [← Option.some.inj hx, ← hold]

/-- Taking an item out of the queue. -/
theorem execJob_nextItem {it : WorkItem} (hx : execJob t .nextItem (some it) j = some j') :
    it ∈ j.queue ∧ j' = { j with
      queue := j.queue.filter (·.hash ≠ it.hash)
      busy := Function.update j.busy t (some it) } := by
  simp only [execJob, Option.ite_none_right_eq_some, Option.some.injEq] at hx
  exact ⟨hx.1, hx.2.symm⟩

theorem execJob_nextItem_none (hx : execJob t .nextItem none j = some j') :
    j.queue = [] ∧ j' = j := by
  simp only [execJob, Option.ite_none_right_eq_some, Option.some.injEq] at hx
  exact ⟨hx.1, hx.2.symm⟩

theorem Ledgered.step {s : Node} {c : JobCmd} {r : c.Resp} (h : Ledgered K s.job g)
    (ha : aboutHand K t s c) (hx : execJob t c r s.job = some j') :
    Ledgered K j' (noteTrail t (.job c) r s g) := by
  cases c with
  | startWorkers workers items =>
      obtain ⟨-, hn, hpos, hnone, hsome, hstock, hdistinct⟩ := ha
      obtain ⟨hhanded, -⟩ := h.handed_eq_nil hnone
      obtain ⟨-, hcredits, hbusy⟩ := h.unstarted hnone
      cases hx
      refine ⟨h.alive, h.known, hdistinct, by simp [noteTrail, hhanded], h.tallies, h.good,
        fun _ => hstock, fun _ => ?_, ?_, List.nodup_range', fun u hu => ?_, fun he => absurd he hsome⟩
      · have hidle : (List.range' 1 workers).filterMap s.job.busy = [] := by
          rw [List.filterMap_eq_nil_iff]
          exact fun u _ => hbusy u
        simp [noteTrail, hhanded, hcredits, hidle]
      · intro _ hrun
        rw [List.range'_eq_nil_iff] at hrun
        omega
      · obtain ⟨hlow, hhigh⟩ := List.mem_range'_1.mp hu
        exact ⟨hlow, hn ▸ Nat.lt_one_add_iff.mp hhigh⟩
  | nextItem =>
      cases r with
      | none =>
          rw [(execJob_nextItem_none hx).2]
          exact h
      | some it =>
          obtain ⟨hmem, rfl⟩ := execJob_nextItem hx
          obtain ⟨hrun, hidle⟩ := ha
          have hsplit : s.job.queue.Perm (it :: s.job.queue.filter (·.hash ≠ it.hash)) :=
            perm_cons_filter h.queue_distinct hmem
          refine ⟨h.alive, h.known, h.distinct, ?_, h.tallies, h.good, h.stocked, fun herr => ?_, ?_,
            h.running, h.pool, fun hitems => absurd hitems (h.items_ne_nil hrun)⟩
          · -- the item goes from the queue to the handed out ones
            have hmove := (hsplit.append_left (g.handed.map Handed.item)).symm.trans h.handed
            simpa [noteTrail] using hmove
          · have hbusy := filterMap_update_some (b := it) h.running hrun hidle
            have hflow := (h.flow herr).append_right [it]
            simp only [noteTrail, List.map_append, List.map_cons, List.map_nil]
            refine (hbusy.append_left _).trans (List.Perm.trans ?_ hflow)
            rw [List.append_assoc]
            exact (List.perm_append_singleton it _).symm.append_left _
          · intro hitems hnone
            exact absurd hnone (not_running_of_nil hrun)
  | storeErr e =>
      obtain ⟨-, hknown, hcalm⟩ := ha
      obtain ⟨e', p, rfl, he', hp⟩ := execJob_storeErr hx
      refine ⟨fun hk => (hp (hcalm hk)).trans (h.alive hk), ?_, h.distinct, h.handed, h.tallies, h.good,
        h.stocked, (fun herr => nomatch herr), fun _ _ => .inr (by simp), h.running, h.pool, h.unstarted⟩
      rintro _ ⟨⟩
      rcases he' with rfl | hold
      · exact hknown
      · exact h.known e' hold
  | credit fromPeer got =>
      obtain ⟨hrun, it, hit, hgood, -⟩ := ha
      cases hx
      have hnote : noteTrail t (.job (.credit fromPeer got)) r s g =
          { g with credits := g.credits ++ [⟨it, fromPeer, got⟩] } := by simp [noteTrail, hit]
      rw [hnote]
      refine ⟨h.alive, h.known, h.distinct, h.handed, h.tallies.credit ⟨it, fromPeer, got⟩, ?_, h.stocked,
        fun herr => ?_, h.drained, h.running, h.pool, fun hitems => absurd hitems (h.items_ne_nil hrun)⟩
      · exact List.forall_mem_append.mpr ⟨h.good, List.forall_mem_singleton.mpr hgood⟩
      · -- what the worker held is credited now
        have hback : Function.update (Function.update s.job.busy t none) t (some it) = s.job.busy := by
          rw [Function.update_idem, ← hit, Function.update_eq_self]
        have hbusy := filterMap_update_some (f := Function.update s.job.busy t none) (b := it)
          h.running hrun (Function.update_self ..)
        rw [hback] at hbusy
        have hflow := ((hbusy.append_left (g.credits.map Credit.item)).symm).trans (h.flow herr)
        simpa using hflow
  | workerDone =>
      obtain ⟨hrun, hidle, hempty⟩ := ha
      cases hx
      refine ⟨h.alive, h.known, h.distinct, h.handed, h.tallies, h.good, h.stocked, fun herr => ?_,
        fun _ _ => hempty, h.running.erase t, fun u hu => h.pool u (List.mem_of_mem_erase hu),
        fun hitems => absurd hitems (h.items_ne_nil hrun)⟩
      have hidle : s.job.busy t = none := hidle.resolve_right fun hne => hne herr
      have hsame : (s.job.running.erase t).filterMap s.job.busy =
          s.job.running.filterMap s.job.busy := filterMap_erase hidle
      rw [hsame]
      exact h.flow herr
  | skip size =>
      cases hx
      exact { h with tallies := ⟨h.tallies.downloaded, h.tallies.sources, h.tallies.bytes⟩ }
  | ctxErr | pickJob | awaitStart | loadErr | waitWorkers | loadCounters =>
      rw [execJob_asks hx (by simp)]; exact h

theorem HandRely.refl : HandRely K t j g j g :=
  ⟨rfl, rfl, fun _ => rfl, fun h => ⟨h, id⟩, fun _ h => h, id, fun _ _ => rfl,
    fun _ => ⟨rfl, rfl, rfl, fun h => ⟨h, rfl, rfl, rfl⟩⟩⟩

theorem HandRely.trans {j1 j2 j3 : Job} {g1 g2 g3 : Trail} (h : HandRely K t j1 g1 j2 g2)
    (h' : HandRely K t j2 g2 j3 g3) : HandRely K t j1 g1 j3 g3 where
  busy := h'.busy.trans h.busy
  taken := h'.taken.trans h.taken
  items hs := (h'.items (h.items hs ▸ hs)).trans (h.items hs)
  running ht :=
    have h1 := h.running ht
    have h2 := h'.running h1.1
    ⟨h2.1, fun hq => h2.2 (h1.2 hq)⟩
  gone hs ht := h'.gone (h.items hs ▸ hs) (h.gone hs ht)
  err he := h'.err (h.err he)
  alone hw ht := (h'.alone hw ht).trans (h.alone hw ht)
  main ht := by
    obtain ⟨hi, hk, hr, hrun⟩ := h.main ht
    obtain ⟨hi', hk', hr', hrun'⟩ := h'.main ht
    refine ⟨hi'.trans hi, hk'.trans hk, hr'.trans hr, fun hnone => ?_⟩
    obtain ⟨h1, he1, hc1, hg1⟩ := hrun hnone
    obtain ⟨h2, he2, hc2, hg2⟩ := hrun' h1
    exact ⟨h2, he2.trans he1, hc2.trans hc1, hg2.trans hg1⟩

/-- A job command of another thread. -/
theorem HandRely.step {s : Node} {c : JobCmd} {r : c.Resp} {u : Tid} (hne : u ≠ t)
    (h : Ledgered K s.job g) (ha : aboutHand K t s c) (hx : execJob t c r s.job = some j') :
    HandRely K u s.job g j' (noteTrail t (.job c) r s g) := by
  cases c with
  | startWorkers workers items =>
      obtain ⟨hmain, -, -, hnone, -⟩ := ha
      have hrun := (h.unstarted hnone).1
      cases hx
      refine ⟨rfl, rfl, fun hs => absurd hnone hs, fun hmem => ?_, fun hs => absurd hnone hs, id,
        fun _ _ => rfl, fun hzero => absurd (hzero.trans hmain.symm) hne⟩
      rw [hrun] at hmem
      contradiction
  | nextItem =>
      cases r with
      | none =>
          rw [(execJob_nextItem_none hx).2]
          exact .refl
      | some it =>
          obtain ⟨-, rfl⟩ := execJob_nextItem hx
          refine ⟨Function.update_of_ne hne _ _, ?_, fun _ => rfl, fun hmem => ⟨hmem, fun hq => ?_⟩,
            fun _ hmem => hmem, id, fun _ _ => rfl, fun _ => ⟨rfl, rfl, rfl, fun hrun => ?_⟩⟩
          · have hother : ¬ t = u := fun he => hne he.symm
            simp [noteTrail, Trail.taken, hother]
          · simp [hq]
          · exact absurd hrun (not_running_of_nil ha.1)
  | storeErr e =>
      obtain ⟨hrun, -⟩ := ha
      obtain ⟨e', p, rfl, -⟩ := execJob_storeErr hx
      refine ⟨rfl, rfl, fun _ => rfl, fun hmem => ⟨hmem, id⟩, fun _ hmem => hmem, fun _ => by simp,
        fun hone hu => ?_, fun _ => ⟨rfl, rfl, rfl, fun hnil => absurd hnil (not_running_of_nil hrun)⟩⟩
      -- the only worker is the one that stores
      obtain ⟨hlow, hhigh⟩ := h.pool t hrun
      exact absurd (hu.trans (Nat.le_antisymm hlow (hone ▸ hhigh))) hne
  | credit fromPeer got =>
      obtain ⟨hrun, it, hit, -⟩ := ha
      cases hx
      have hskip : (s.job.counters.credit fromPeer got).skippedChunks = s.job.counters.skippedChunks ∧
          (s.job.counters.credit fromPeer got).cacheBytesReused = s.job.counters.cacheBytesReused := by
        cases fromPeer <;> exact ⟨rfl, rfl⟩
      refine ⟨Function.update_of_ne hne _ _, ?_, fun _ => rfl, fun hmem => ⟨hmem, id⟩,
        fun _ hmem => hmem, id, fun _ _ => rfl, fun _ => ⟨rfl, hskip.1, hskip.2, fun hnone => ?_⟩⟩
      · simp [noteTrail, hit, Trail.taken]
      · exact absurd hnone (not_running_of_nil hrun)
  | workerDone =>
      obtain ⟨hrun, -, -⟩ := ha
      cases hx
      exact ⟨rfl, rfl, fun _ => rfl, fun hmem => ⟨(List.mem_erase_of_ne hne).mpr hmem, id⟩,
        fun _ hmem hin => hmem (List.mem_of_mem_erase hin), id, fun _ _ => rfl,
        fun _ => ⟨rfl, rfl, rfl, fun hnone => absurd hnone (not_running_of_nil hrun)⟩⟩
  | skip size =>
      have hmain : t = 0 := ha
      cases hx
      exact ⟨rfl, rfl, fun _ => rfl, fun hmem => ⟨hmem, id⟩, fun _ hmem => hmem, id, fun _ _ => rfl,
        fun hzero => absurd (hzero.trans hmain.symm) hne⟩
  | ctxErr | pickJob | awaitStart | loadErr | waitWorkers | loadCounters =>
      rw [execJob_asks hx (by simp)]; exact .refl

end Steps

/-! ## The protocol -/

/-- What has been credited is in the store. -/
structure TrailInv (K : Terms) (x : Node × Trail) : Prop where
  ledgered : Ledgered K x.1.job x.2
  committed : ∀ k ∈ x.2.credits, k.item.hash ∈ K.hashes → Committed k.item.hash x.1

/-- What a thread can rely on; thread `0` also that nobody changes the chunks before
it has started the workers. -/
structure TrailRely (K : Terms) (t : Tid) (x x' : Node × Trail) : Prop where
  hand : HandRely K t x.1.job x.2 x'.1.job x'.2
  committed : ∀ h ∈ K.hashes, Committed h x.1 → Committed h x'.1
  chunks : t = 0 → x.1.job.items = [] → ∀ h ∈ K.hashes,
    x'.1.store.chunks.lookup h = x.1.store.chunks.lookup h

/-- What must hold before a command of thread `t`: only workers commit chunks, nobody
deletes those of the terms, and `Materialize` starts when they are all there. -/
def aboutTrail (K : Terms) (t : Tid) (c : Cmd) (x : Node × Trail) : Prop :=
  match c with
  | .job c => aboutHand K t x.1 c
  | .store (.deleteChunk h) => h ∉ K.hashes
  | .store (.renamePartial _) => x.1.job.items ≠ []
  | c => c.materializes = true → AllCommitted K.hashes x.1

section Protocol

variable {ok : Tid → (c : Cmd) → c.Resp → Node → Bool} {K : Terms} {t u : Tid}
variable {x x' : Node × Trail}
variable {c : Cmd}

theorem trail_eq_some {r : c.Resp} (hx : (trailSystem ok).exec t c r x = some x') :
    ok t c r x.1 = true ∧ nodeSystem.exec t c r x.1 = some x'.1 ∧
      x'.2 = noteTrail t c r x.1 x.2 := by
  obtain ⟨hexec, hnote⟩ := System.record_eq_some hx
  obtain ⟨hok, hexec⟩ := System.limit_eq_some hexec
  exact ⟨hok, hexec, hnote⟩

/-- Commands on another part of the node leave job and record alone. -/
theorem trail_of_other {r : c.Resp} (hc : ∀ c', c ≠ .job c')
    (hx : (trailSystem ok).exec t c r x = some x') : x'.1.job = x.1.job ∧ x'.2 = x.2 := by
  obtain ⟨-, hexec, hnote⟩ := trail_eq_some hx
  refine ⟨job_of_step hc hexec, hnote.trans ?_⟩
  cases c with
  | job c => exact absurd rfl (hc c)
  | _ => rfl

theorem trail_job {c : JobCmd} {r : c.Resp} (hx : (trailSystem ok).exec t (.job c) r x = some x') :
    ∃ j, execJob t c r x.1.job = some j ∧
      x' = ({ x.1 with job := j }, noteTrail t (.job c) r x.1 x.2) := by
  obtain ⟨-, hexec, hnote⟩ := trail_eq_some hx
  obtain ⟨j, hpart, hjob⟩ := nodeExec_job hexec
  exact ⟨j, hpart, Prod.ext hjob hnote⟩

theorem committed_trail {r : c.Resp} (ha : aboutTrail K t c x)
    (hx : (trailSystem ok).exec t c r x = some x') {h : Str} (hh : h ∈ K.hashes)
    (hc : Committed h x.1) : Committed h x'.1 := by
  obtain ⟨-, hexec, -⟩ := trail_eq_some hx
  refine committed_kept (fun hdel => ?_) hexec hc
  rw [hdel] at ha
  exact ha hh

/-- Before the workers have been started no step changes the chunks. -/
theorem chunks_trail {r : c.Resp} (ha : aboutTrail K t c x) (hitems : x.1.job.items = [])
    (hx : (trailSystem ok).exec t c r x = some x') {h : Str} (hh : h ∈ K.hashes) :
    x'.1.store.chunks.lookup h = x.1.store.chunks.lookup h := by
  obtain ⟨-, hexec, -⟩ := trail_eq_some hx
  cases c with
  | store c =>
      obtain ⟨y, hpart, hy⟩ := nodeExec_store hexec
      rw [hy]
      rcases (execStore_effect hpart).chunks with hsame | ⟨h', b, rfl, -⟩ | ⟨h', rfl, her⟩
      · rw [hsame]
      · exact absurd hitems ha
      · have hne : h ≠ h' := fun he => ha (he ▸ hh)
        rw [her, AList.lookup_erase_ne hne]
  | _ => rw [(nodeExec_frame hexec).1 (by simp)]

theorem TrailInv.step {r : c.Resp} (hi : TrailInv K x) (ha : aboutTrail K t c x)
    (hx : (trailSystem ok).exec t c r x = some x') : TrailInv K x' := by
  have hold : ∀ k ∈ x.2.credits, k.item.hash ∈ K.hashes → Committed k.item.hash x'.1 :=
    fun k hk hh => committed_trail ha hx hh (hi.committed k hk hh)
  by_cases hc : ∃ c', c = .job c'
  · obtain ⟨c, rfl⟩ := hc
    obtain ⟨j, hpart, rfl⟩ := trail_job hx
    refine ⟨hi.ledgered.step ha hpart, ?_⟩
    cases c with
    | credit fromPeer got =>
        obtain ⟨-, it, hit, -, hcomm⟩ := ha
        simp only [noteTrail, hit]
        exact List.forall_mem_append.mpr ⟨hold, List.forall_mem_singleton.mpr hcomm⟩
    | nextItem => cases r <;> exact hold
    | _ => exact hold
  · obtain ⟨hjob, htrail⟩ := trail_of_other (not_exists.mp hc) hx
    refine ⟨by rw [hjob, htrail]; exact hi.ledgered, ?_⟩
    rw [htrail]
    exact hold

/-- A step of any thread on another part of the node. -/
theorem TrailRely.of_other {r : c.Resp} (hc : ∀ c', c ≠ .job c') (ha : aboutTrail K t c x)
    (hx : (trailSystem ok).exec t c r x = some x') : TrailRely K u x x' := by
  obtain ⟨hjob, htrail⟩ := trail_of_other hc hx
  refine ⟨?_, fun h hh => committed_trail ha hx hh, fun _ hitems h hh => chunks_trail ha hitems hx hh⟩
  rw [hjob, htrail]
  exact .refl

theorem TrailRely.step {r : c.Resp} (hi : TrailInv K x) (ha : aboutTrail K t c x)
    (hx : (trailSystem ok).exec t c r x = some x') (hne : u ≠ t) : TrailRely K u x x' := by
  by_cases hc : ∃ c', c = .job c'
  · refine ⟨?_, fun h hh => committed_trail ha hx hh, fun _ hitems h hh => chunks_trail ha hitems hx hh⟩
    obtain ⟨c, rfl⟩ := hc
    obtain ⟨j, hpart, rfl⟩ := trail_job hx
    exact .step hne hi.ledgered ha hpart
  · exact .of_other (not_exists.mp hc) ha hx

theorem TrailRely.trans {x1 x2 x3 : Node × Trail} (h : TrailRely K t x1 x2)
    (h' : TrailRely K t x2 x3) : TrailRely K t x1 x3 where
  hand := h.hand.trans h'.hand
  committed c hh hc := h'.committed c hh (h.committed c hh hc)
  chunks ht hitems c hh :=
    have hitems2 := (h.hand.main ht).1.trans hitems
    (h'.chunks ht hitems2 c hh).trans (h.chunks ht hitems c hh)

/-- A sync whose chunks nobody evicts. -/
def trailProtocol (ok : Tid → (c : Cmd) → c.Resp → Node → Bool) (K : Terms) :
    Protocol (trailSystem ok) where
  Inv := TrailInv K
  rely := TrailRely K
  about := aboutTrail K
  rely_refl _ _ := ⟨.refl, fun _ _ h => h, fun _ _ _ _ => rfl⟩
  rely_trans := .trans
  step_inv := .step
  step_rely := .step

theorem trailInv_of_fresh (hjob : x.1.job = .fresh) (htrail : x.2 = ⟨[], []⟩) : TrailInv K x := by
  refine ⟨?_, by simp [htrail]⟩
  rw [hjob, htrail]
  refine ⟨fun _ => rfl, (fun _ h => nomatch h), List.nodup_nil, .refl _, ⟨rfl, rfl, rfl⟩, by simp,
    fun h => absurd rfl h, fun _ => .refl _, fun h => absurd rfl h, List.nodup_nil, by simp [Job.fresh],
    fun _ => ⟨rfl, rfl, fun _ => rfl⟩⟩

/-! ## Rules -/

variable {α : Type} {Q : α → Node × Trail → Prop}

theorem wp_trailJob {c : JobCmd} {k : c.Resp → NodeM α}
    (h : ∀ x', TrailRely K t x x' → TrailInv K x' → aboutHand K t x'.1 c ∧
      ∀ (r : c.Resp) j, ok t (.job c) r x'.1 = true → execJob t c r x'.1.job = some j →
        TrailInv K ({ x'.1 with job := j }, noteTrail t (.job c) r x'.1 x'.2) →
        (trailProtocol ok K).wp t Q (k r)
          ({ x'.1 with job := j }, noteTrail t (.job c) r x'.1 x'.2)) :
    (trailProtocol ok K).wp t Q (onJob c >>= k) x := by
  apply Protocol.wp_perform
  intro x' hr hi
  obtain ⟨ha, hk⟩ := h x' hr hi
  refine ⟨ha, fun r x'' hx hi' => ?_⟩
  have hok := (trail_eq_some hx).1
  obtain ⟨j, hpart, rfl⟩ := trail_job hx
  exact hk r j hok hpart hi'

theorem aboutTrail_of_transfers (hc : c.transfers = true) (hitems : x.1.job.items ≠ []) :
    aboutTrail K t c x := by
  cases c with
  | store c =>
      cases c with
      | deleteChunk h => contradiction
      | openChunk h => contradiction
      | renamePartial h => exact hitems
      | _ => exact fun h => nomatch h
  | job c | dest c | link h p => contradiction
  | quota c => exact fun h => nomatch h
  | net c => exact fun h => nomatch h

end Protocol

/-! ## Workers -/

/-- What a worker knows while it is in its loop: it has taken `taken` of `items`, and
if it is the only worker there is no error. -/
structure InLoop (K : Terms) (t : Tid) (items : List WorkItem) (taken : Nat) (x : Node × Trail) :
    Prop where
  nonempty : items ≠ []
  running : t ∈ x.1.job.running
  items : x.1.job.items = items
  taken : x.2.taken t = taken
  sole : K.workers = 1 → t = 1 ∧ x.1.job.downloadErr = none

/-- The worker holds an item. -/
structure Employed (K : Terms) (t : Tid) (work : WorkItem) (items : List WorkItem) (taken : Nat)
    (x : Node × Trail) : Prop extends InLoop K t items taken x where
  mem : work ∈ x.1.job.items
  busy : x.1.job.busy t = some work

/-- The worker holds none. -/
structure Vacant (K : Terms) (t : Tid) (items : List WorkItem) (taken : Nat) (x : Node × Trail) :
    Prop extends InLoop K t items taken x where
  free : x.1.job.busy t = none

/-- The worker may leave. -/
structure Leaving (t : Tid) (items : List WorkItem) (x : Node × Trail) : Prop where
  running : t ∈ x.1.job.running
  items : x.1.job.items = items
  idle : x.1.job.busy t = none ∨ x.1.job.downloadErr ≠ none
  empty : x.1.job.queue = [] ∨ x.1.job.downloadErr ≠ none

/-- The worker has left. -/
structure Departed (t : Tid) (items : List WorkItem) (x : Node × Trail) : Prop where
  items : x.1.job.items = items
  gone : t ∉ x.1.job.running

/-- What the workers of a download are like: their fetch keeps to the terms, and so do
their errors. -/
structure Staffed (ok : Tid → (c : Cmd) → c.Resp → Node → Bool) (K : Terms)
    (fetch : WorkItem → NodeM (Except Err (Bool × Int))) : Prop where
  calm : K.calm → K.workers = 1 ∨ ∃ ty, ∀ e, K.errs e → e.goType = ty
  ctx : ∀ t d s, ok t (.job .ctxErr) (some d) s = true → K.errs (.ctx d)
  serves : ∀ t work items taken x, Employed K t work items taken x →
    (trailProtocol ok K).wp t
      (fun res x' => Employed K t work items taken x' ∧ (∀ e, res = .error e → K.errs e) ∧
        ∀ fromPeer got, res = .ok (fromPeer, got) →
          (work.hash ∈ K.hashes → Committed work.hash x'.1) ∧ K.good ⟨work, fromPeer, got⟩)
      (fetch work) x

section Workers

variable {ok : Tid → (c : Cmd) → c.Resp → Node → Bool} {K : Terms} {t : Tid}
variable {x x' : Node × Trail} {work : WorkItem} {items : List WorkItem} {taken : Nat}

theorem InLoop.rely (h : InLoop K t items taken x) (hr : TrailRely K t x x') :
    InLoop K t items taken x' where
  running := (hr.hand.running h.running).1
  items := (hr.hand.items (h.items ▸ h.nonempty)).trans h.items
  nonempty := h.nonempty
  taken := hr.hand.taken.trans h.taken
  sole hone := ⟨(h.sole hone).1, (hr.hand.alone hone (h.sole hone).1).trans (h.sole hone).2⟩

theorem Employed.rely (h : Employed K t work items taken x) (hr : TrailRely K t x x') :
    Employed K t work items taken x' where
  toInLoop := h.toInLoop.rely hr
  mem := by
    rw [hr.hand.items (h.items ▸ h.nonempty)]
    exact h.mem
  busy := hr.hand.busy.trans h.busy

theorem Vacant.rely (h : Vacant K t items taken x) (hr : TrailRely K t x x') :
    Vacant K t items taken x' where
  toInLoop := h.toInLoop.rely hr
  free := hr.hand.busy.trans h.free

theorem Leaving.rely (h : Leaving t items x) (hitems : items ≠ []) (hr : TrailRely K t x x') :
    Leaving t items x' where
  running := (hr.hand.running h.running).1
  items := (hr.hand.items (h.items ▸ hitems)).trans h.items
  idle := by
    rw [hr.hand.busy]
    exact h.idle.imp_right hr.hand.err
  empty := h.empty.imp (hr.hand.running h.running).2 hr.hand.err

theorem Departed.rely (h : Departed t items x) (hitems : items ≠ []) (hr : TrailRely K t x x') :
    Departed t items x' :=
  have hsome : x.1.job.items ≠ [] := h.items ▸ hitems
  ⟨(hr.hand.items hsome).trans h.items, hr.hand.gone hsome h.gone⟩

theorem wp_trailDone (hitems : items ≠ []) (h : Leaving t items x) :
    (trailProtocol ok K).wp t (fun _ => Departed t items) (onJob .workerDone) x := by
  intro x1 hr1 hi1
  have hl := h.rely hitems hr1
  refine ⟨⟨hl.running, hl.idle, hl.empty⟩, fun r x2 hstep => ?_⟩
  intro x3 hr3 _
  refine Departed.rely ?_ hitems hr3
  obtain ⟨j, hpart, rfl⟩ := trail_job hstep
  cases hpart
  exact ⟨hl.items, hi1.ledgered.running.not_mem_erase⟩

variable {fetch : WorkItem → NodeM (Except Err (Bool × Int))} (hst : Staffed ok K fetch)
include hst

theorem wp_trailGiveUp {e : Err} (he : K.errs e) (h : InLoop K t items taken x) :
    (trailProtocol ok K).wp t (fun _ => Departed t items) (giveUp e) x := by
  refine wp_trailJob fun x1 hr1 hi1 => ?_
  have h1 := h.rely hr1
  refine ⟨⟨h1.running, he, fun hcalm e' he' => ?_⟩, fun r j _ hpart _ => ?_⟩
  · rcases hst.calm hcalm with hone | ⟨ty, hty⟩
    · rw [(h1.sole hone).2] at he'
      contradiction
    · exact (hty e' (hi1.ledgered.known e' he')).trans (hty e he).symm
  · obtain ⟨e', p, rfl, -⟩ := execJob_storeErr hpart
    exact wp_trailDone h1.nonempty ⟨h1.running, h1.items, .inr (by simp), .inr (by simp)⟩

/-- Take an item, fetch it, and go on with `next`. -/
theorem wp_trailTake {next : NodeM Unit} {Q : Node × Trail → Prop}
    (hgone : ∀ x, Departed t items x → Q x)
    (hnext : ∀ x, Vacant K t items (taken + 1) x → (trailProtocol ok K).wp t (fun _ => Q) next x)
    (h : Vacant K t items taken x) :
    (trailProtocol ok K).wp t (fun _ => Q)
      (do
        match ← onJob .nextItem with
        | none => onJob .workerDone
        | some work =>
          match ← fetch work with
          | .error e => giveUp e
          | .ok (fromPeer, n) => do
              let () ← onJob (.credit fromPeer n)
              next) x := by
  refine wp_trailJob fun x1 hr1 hi1 => ?_
  have h1 := h.rely hr1
  refine ⟨⟨h1.running, h1.free⟩, fun item j1 _ hx1 hi1' => ?_⟩
  cases item with
  | none =>
      obtain ⟨hempty, rfl⟩ := execJob_nextItem_none hx1
      exact Protocol.wp_mono (fun _ x' _ hx' => hgone x' hx')
        (wp_trailDone h1.nonempty ⟨h1.running, h1.items, .inl h1.free, .inl hempty⟩)
  | some work =>
      obtain ⟨hmem, rfl⟩ := execJob_nextItem hx1
      have hitem : work ∈ x1.1.job.items :=
        hi1.ledgered.handed.mem_iff.mp (List.mem_append_right _ hmem)
      have hemployed : Employed K t work items (taken + 1)
          ({ x1.1 with job := { x1.1.job with
              queue := x1.1.job.queue.filter (·.hash ≠ work.hash)
              busy := Function.update x1.1.job.busy t (some work) } },
            noteTrail t (.job .nextItem) (some work) x1.1 x1.2) := by
        refine ⟨⟨h1.nonempty, h1.running, h1.items, ?_, h1.sole⟩, hitem, Function.update_self ..⟩
        have htaken := h1.taken
        simp only [Trail.taken] at htaken
        simp [noteTrail, Trail.taken, htaken]
      refine Protocol.wp_seq hi1' (hst.serves t work items (taken + 1) _ hemployed) ?_
      intro res x2 _ ⟨hemp2, herr, hres⟩
      cases res with
      | error e =>
          exact Protocol.wp_mono (fun _ x' _ hx' => hgone x' hx')
            (wp_trailGiveUp hst (herr e rfl) hemp2.toInLoop)
      | ok credit =>
          obtain ⟨hcomm, hgood⟩ := hres credit.1 credit.2 rfl
          refine wp_trailJob fun x3 hr3 _ => ?_
          have hemp3 := hemp2.rely hr3
          refine ⟨⟨hemp3.running, work, hemp3.busy, hgood, fun hh => hr3.committed _ hh (hcomm hh)⟩,
            fun r j3 _ hx3 _ => hnext _ ?_⟩
          cases hx3
          refine ⟨⟨hemp3.nonempty, hemp3.running, hemp3.items, ?_, hemp3.sole⟩, Function.update_self ..⟩
          have htaken := hemp3.taken
          simp only [Trail.taken] at htaken
          simp [noteTrail, hemp3.busy, Trail.taken, htaken]

omit hst in
/-- A worker takes at most as many items as there are. -/
theorem TrailInv.taken_le (hi : TrailInv K x) : x.2.taken t ≤ x.1.job.items.length := by
  have hlen := hi.ledgered.handed.length_eq
  have hcount := List.countP_le_length (p := fun h : Handed => decide (h.worker = t)) (l := x.2.handed)
  rw [List.length_append, List.length_map] at hlen
  rw [Trail.taken]
  omega

/-- With more turns than items, a worker leaves because there is nothing left to do. -/
theorem wp_trailLoop {turns : Nat} (h : Vacant K t items taken x) :
    (trailProtocol ok K).wp t
      (fun _ x' => x'.1.job.items = items ∧ (items.length < taken + turns → t ∉ x'.1.job.running))
      (workerLoopWith fetch turns) x := by
  induction turns generalizing x taken with
  | zero =>
      intro x' hr hi
      have h' := h.rely hr
      refine ⟨h'.items, fun hmore => ?_⟩
      have hle := hi.taken_le (t := t)
      rw [h'.taken, h'.items] at hle
      omega
  | succ turns ih =>
      have hgone : ∀ x' : Node × Trail, Departed t items x' → x'.1.job.items = items ∧
          (items.length < taken + (turns + 1) → t ∉ x'.1.job.running) :=
        fun x' hx' => ⟨hx'.items, fun _ => hx'.gone⟩
      refine wp_trailJob fun x1 hr1 _ => ⟨trivial, fun deadline j1 hctx hx1 _ => ?_⟩
      have h1 := h.rely hr1
      cases hx1
      cases deadline with
      | some d =>
          exact Protocol.wp_mono (fun _ x' _ hx' => hgone x' hx')
            (wp_trailGiveUp hst (hst.ctx t d _ hctx) h1.toInLoop)
      | none =>
          refine wp_trailJob fun x2 hr2 _ => ⟨trivial, fun err j2 _ hx2 _ => ?_⟩
          have h2 : Vacant K t items taken x2 := h1.rely hr2
          obtain ⟨herr, ⟨⟩⟩ := Option.ite_none_right_eq_some.mp hx2
          cases err with
          | some e =>
              have hfailed : x2.1.job.downloadErr ≠ none := by simp [← herr]
              exact Protocol.wp_mono (fun _ x' _ hx' => hgone x' hx')
                (wp_trailDone h2.nonempty ⟨h2.running, h2.items, .inl h2.free, .inr hfailed⟩)
          | none =>
              refine wp_trailTake hst hgone (fun x3 h3 => ?_) h2
              have hrest := ih h3
              rwa [Nat.add_assoc, Nat.add_comm 1] at hrest

/-- A worker from its beginning. -/
theorem wp_trailWorker (turns : Nat) (ht : t ≠ 0) (hle : t ≤ K.workers) (hjob : x.1.job = .fresh)
    (htrail : x.2 = ⟨[], []⟩) :
    (trailProtocol ok K).wp t
      (fun _ x' => x'.1.job.items ≠ [] ∧ (x'.1.job.items.length < turns → t ∉ x'.1.job.running))
      (onJob .awaitStart >>= fun _ => workerLoopWith fetch turns) x := by
  refine wp_trailJob fun x1 hr1 hi1 => ⟨ht, fun r j1 _ hx1 _ => ?_⟩
  obtain ⟨hrun, ⟨⟩⟩ := Option.ite_none_right_eq_some.mp hx1
  have hitems := hi1.ledgered.items_ne_nil hrun
  have hsole : K.workers = 1 → t = 1 :=
    fun hone => Nat.le_antisymm (hone ▸ hle) (Nat.pos_of_ne_zero ht)
  have hvacant : Vacant K t x1.1.job.items 0 x1 := by
    refine ⟨⟨hitems, hrun, rfl, ?_, fun hone => ⟨hsole hone, ?_⟩⟩, ?_⟩
    · rw [hr1.hand.taken, htrail]
      rfl
    · rw [hr1.hand.alone hone (hsole hone), hjob]
      rfl
    · rw [hr1.hand.busy, hjob]
      rfl
  have hloop : (trailProtocol ok K).wp t _ (workerLoopWith fetch turns) x1 :=
    wp_trailLoop hst hvacant
  refine Protocol.wp_mono (fun _ x' _ hx' => ?_) hloop
  obtain ⟨hsame, hgone⟩ := hx'
  rw [hsame]
  exact ⟨hitems, fun hless => hgone (by omega)⟩

end Workers

/-! ## Fetching chunks -/

/-- Whatever a fetch hears under the condition `ok`, what it counts is `good`. -/
def Earns (ok : Tid → (c : Cmd) → c.Resp → Node → Bool) (good : Credit → Prop) (H : Sha256)
    (cfg : EngineConfig) : Prop :=
  ∀ work, (fetchChunk H cfg.onCommit cfg.retryAttempts cfg.hasOrigin work).All
    (fun c : Cmd => c.transfers = true)
    (fun c r => ∃ t s, s.job.busy t = some work ∧ ok t c r s = true)
    fun res => ∀ fromPeer got, res = .ok (fromPeer, got) → good ⟨work, fromPeer, got⟩

theorem staffed_fetchChunk {ok : Tid → (c : Cmd) → c.Resp → Node → Bool} {K : Terms} {H : Sha256}
    {cfg : EngineConfig} (hearn : Earns ok K.good H cfg) (herrs : ∀ e, K.errs e) (hcalm : ¬ K.calm) :
    Staffed ok K (fetchChunk H cfg.onCommit cfg.retryAttempts cfg.hasOrigin) where
  calm h := absurd h hcalm
  ctx _ _ _ _ := herrs _
  serves := by
    intro t work items taken x h
    have habout : ∀ (c : Cmd) (x : Node × Trail), c.transfers = true →
        Employed K t work items taken x → aboutTrail K t c x :=
      fun c x hc h => aboutTrail_of_transfers hc (h.items ▸ h.nonempty)
    have hrely : ∀ (c : Cmd) (r : c.Resp) (x x' : Node × Trail), c.transfers = true →
        Employed K t work items taken x → (trailSystem ok).exec t c r x = some x' →
        TrailRely K t x x' :=
      fun c r x x' hc h hx => .of_other (not_job_of_transfers hc) (habout c x hc h) hx
    have hmarks := @marks_fetchChunk H _ cfg.hookTransfers false cfg.hasOrigin work cfg.retryAttempts
    have hcomm := Protocol.wp_marks (P := trailProtocol ok K) (t := t)
      (G := Employed K t work items taken) (F := fun x => work.hash ∈ K.hashes → Committed work.hash x.1)
      hmarks (fun x x' hr => ⟨fun h => h.rely hr, fun h hh => hr.committed _ hh (h hh)⟩)
      (fun c x hc h _ => habout c x hc h)
      (fun c r x x' hc h _ hx => h.rely (hrely c r x x' hc h hx))
      (fun c r x x' hc hs hx hh => committed_kept (fun he => by rw [he] at hc; contradiction)
        (trail_eq_some hx).2.1 (hs hh))
      (fun c r x x' hc hx _ => committed_of_shows hc (trail_eq_some hx).2.1) h (by simp)
    have hgood := Protocol.wp_all (P := trailProtocol ok K) (t := t)
      (F := Employed K t work items taken) (hearn work) (fun x x' hr h => h.rely hr)
      (fun c x hc h _ => habout c x hc h)
      (fun c r x x' hc h hx =>
        ⟨h.rely (hrely c r x x' hc h hx), t, x.1, h.busy, (trail_eq_some hx).1⟩) h
    refine Protocol.wp_mono (fun res x' _ hres => ?_) (Protocol.wp_and hcomm hgood)
    obtain ⟨⟨hemp, d, hd, hok⟩, -, hgood⟩ := hres
    exact ⟨hemp, fun e _ => herrs e,
      fun fromPeer got he => ⟨hd (hok (fromPeer, got) he), hgood fromPeer got he⟩⟩

/-! ## The end of the phase -/

section Settled

variable {K : Terms} {x : Node × Trail}

/-- When the workers are gone and none has failed, all items have been handed out
and credited. -/
theorem Ledgered.settled {j : Job} {g : Trail} (h : Ledgered K j g) (hrun : j.running = [])
    (herr : j.downloadErr = none) :
    (g.handed.map Handed.item).Perm j.items ∧ (g.credits.map Credit.item).Perm j.items := by
  have hqueue : j.queue = [] := by
    by_cases hitems : j.items = []
    · exact (h.handed_eq_nil hitems).2
    · exact (h.drained hitems hrun).resolve_right fun hne => hne herr
  have hhanded := h.handed
  rw [hqueue, List.append_nil] at hhanded
  have hflow := h.flow herr
  rw [hrun, List.filterMap_nil, List.append_nil] at hflow
  exact ⟨hhanded, hflow.trans hhanded⟩

/-- Each item has been credited. -/
theorem Ledgered.credited {j : Job} {g : Trail} (h : Ledgered K j g) (hrun : j.running = [])
    (herr : j.downloadErr = none) {it : WorkItem} (hit : it ∈ j.items) :
    ∃ k ∈ g.credits, k.item = it :=
  List.mem_map.mp ((h.settled hrun herr).2.mem_iff.mpr hit)

theorem TrailInv.all_committed (hi : TrailInv K x) (hrun : x.1.job.running = [])
    (herr : x.1.job.downloadErr = none) :
    ∀ it ∈ x.1.job.items, it.hash ∈ K.hashes → Committed it.hash x.1 := by
  intro it hit hh
  obtain ⟨k, hk, rfl⟩ := hi.ledgered.credited hrun herr hit
  exact hi.committed k hk hh

end Settled

end Spider

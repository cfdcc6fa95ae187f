import Spider.Cache.Pins
import Spider.Lib.StableSort

/-!
# Spider.Cache.Eviction

What one call of `MaybeEvict` removes (`pkg/cache/manager.go`).

The loop takes the candidates from the oldest on, as long as too much is used, and
passes over those that cannot be deleted: it removes `victims`, a function of the
candidates in the order the sort has left them in (`returns_evictLoop`).  The rest is
about that function.  A call tries each hash at most once, so which deletions fail is a
set of hashes.
-/

namespace Spider

open Conc

/-! ## What is removed -/

/-- Answers in which the deletions of `fails`, and no others, fail for another reason
than that there is no file. -/
def deletes (fails : Str → Bool) : (c : Cmd) → c.Resp → Bool
  | .store (.deleteChunk h), .failed _ => fails h
  | .store (.deleteChunk h), _ => !fails h
  | _, _ => true

abbrev evictSystem (fails : Str → Bool) : System nodeSig Node Tid :=
  nodeSystem.restrict (deletes fails)

/-- `DeleteChunk` fails for this hash, and not because there is no file. -/
def stuck (fails : Str → Bool) (h : Str) : Bool := (parseHash h).isNone || fails h

/-- The candidates the loop removes. -/
def victims (fails : Str → Bool) (target : Int64) : List Candidate → Int64 → List Candidate
  | [], _ => []
  | c :: cs, used =>
      if used ≤ target then []
      else if stuck fails c.1 then victims fails target cs used
      else c :: victims fails target cs (used - c.2.size)

/-- The sizes of some candidates, added up. -/
def bytesOf (cs : List Candidate) : Int64 := wrapSum 0 (cs.map fun c => c.2.size)

theorem wrapSum_eq_add (acc : Int64) (l : List Int64) : wrapSum acc l = acc + wrapSum 0 l := by
  induction l generalizing acc with
  | nil => exact (Int64.add_zero acc).symm
  | cons x l ih =>
      have hfirst : wrapSum 0 (x :: l) = wrapSum (0 + x) l := rfl
      have hacc : wrapSum acc (x :: l) = wrapSum (acc + x) l := rfl
      rw [hacc, hfirst, ih (acc + x), ih (0 + x), Int64.zero_add, Int64.add_assoc]

@[simp] theorem bytesOf_nil : bytesOf [] = 0 := rfl

theorem bytesOf_cons (c : Candidate) (cs : List Candidate) :
    bytesOf (c :: cs) = c.2.size + bytesOf cs := by
  have hfirst : bytesOf (c :: cs) = wrapSum (0 + c.2.size) (cs.map fun c => c.2.size) := rfl
  rw [hfirst, wrapSum_eq_add, Int64.zero_add]
  rfl

theorem sub_bytesOf_cons (used : Int64) (c : Candidate) (cs : List Candidate) :
    used - bytesOf (c :: cs) = used - c.2.size - bytesOf cs := by
  rw [bytesOf_cons]
  grind

section Victims

variable {fails : Str → Bool} {target used : Int64} {cs : List Candidate}

theorem victims_sublist : (victims fails target cs used).Sublist cs := by
  induction cs generalizing used with
  | nil => exact .slnil
  | cons c cs ih =>
      rw [victims]
      split
      · exact List.nil_sublist _
      · split
        · exact ih.cons c
        · exact ih.cons_cons c

variable {c : Candidate}

theorem not_stuck_of_mem_victims (h : c ∈ victims fails target cs used) :
    stuck fails c.1 = false := by
  induction cs generalizing used with
  | nil => simp [victims] at h
  | cons d cs ih =>
      rw [victims] at h
      split at h
      · simp at h
      · split at h
        · exact ih h
        · rename_i hstuck
          cases List.mem_cons.mp h with
          | inl heq => simpa [heq] using hstuck
          | inr h => exact ih h

/-- What is removed was not used after what is kept, deletions that fail apart. -/
theorem victims_oldest (hsorted : cs.Pairwise fun a b => a.2.lastAccess ≤ b.2.lastAccess)
    {d : Candidate} (hc : c ∈ victims fails target cs used) (hd : d ∈ cs)
    (hkept : d ∉ victims fails target cs used) (hstuck : stuck fails d.1 = false) :
    c.2.lastAccess ≤ d.2.lastAccess := by
  induction cs generalizing used with
  | nil => simp at hd
  | cons e cs ih =>
      obtain ⟨hhead, htail⟩ := List.pairwise_cons.mp hsorted
      rw [victims] at hc hkept
      split at hc
      · simp at hc
      · rename_i hused
        rw [if_neg hused] at hkept
        split at hc
        · rename_i hestuck
          rw [if_pos hestuck] at hkept
          cases List.mem_cons.mp hd with
          | inl heq =>
              rw [heq, hestuck] at hstuck
              contradiction
          | inr hd => exact ih htail hc hd hkept
        · rename_i hestuck
          rw [if_neg hestuck] at hkept
          obtain ⟨hne, hkept⟩ := not_or.mp (List.mem_cons.not.mp hkept)
          have hd := (List.mem_cons.mp hd).resolve_left hne
          cases List.mem_cons.mp hc with
          | inl heq =>
              rw [heq]
              exact hhead d hd
          | inr hc => exact ih htail hc hd hkept

/-- The loop goes on until enough is free. -/
theorem victims_enough :
    used - bytesOf (victims fails target cs used) ≤ target ∨
      ∀ c ∈ cs, c ∈ victims fails target cs used ∨ stuck fails c.1 = true := by
  induction cs generalizing used with
  | nil => exact .inr (by simp)
  | cons c cs ih =>
      rw [victims]
      split
      · rename_i hused
        left
        rwa [bytesOf_nil, Int64.sub_zero]
      · split
        · rename_i hstuck
          refine ih.imp_right fun h d hd => ?_
          cases List.mem_cons.mp hd with
          | inl heq => exact .inr (by rw [heq]; exact hstuck)
          | inr hd => exact h d hd
        · rw [sub_bytesOf_cons]
          refine ih.imp_right fun h d hd => ?_
          cases List.mem_cons.mp hd with
          | inl heq => exact .inl (by rw [heq]; exact List.mem_cons_self)
          | inr hd => exact (h d hd).imp_left (List.mem_cons_of_mem c)

/-- And no further: each one it removes was still needed. -/
theorem victims_needed {pre post : List Candidate}
    (h : victims fails target cs used = pre ++ c :: post) : target < used - bytesOf pre := by
  induction cs generalizing used pre with
  | nil => simp [victims] at h
  | cons d cs ih =>
      rw [victims] at h
      split at h
      · simp at h
      · rename_i hused
        split at h
        · exact ih h
        · cases pre with
          | nil =>
              rw [bytesOf_nil, Int64.sub_zero]
              exact Int64.not_le.mp hused
          | cons e pre =>
              obtain ⟨hhead, htail⟩ := List.cons.inj h
              rw [sub_bytesOf_cons, ← hhead]
              exact ih htail

end Victims

/-! ## The state after the loop -/

section Erase

variable {K : Type} [DecidableEq K] {V : Type}

/-- Erase one key after the other. -/
def eraseAll (m : AList fun _ : K => V) (ks : List K) : AList fun _ : K => V :=
  ks.foldl (fun m k => m.erase k) m

variable {m : AList fun _ : K => V}

theorem lookup_eraseAll_of_notMem {ks : List K} {k : K} (h : k ∉ ks) :
    (eraseAll m ks).lookup k = m.lookup k := by
  induction ks generalizing m with
  | nil => rfl
  | cons k' ks ih =>
      obtain ⟨hne, hrest⟩ := not_or.mp (List.mem_cons.not.mp h)
      exact (ih hrest).trans (AList.lookup_erase_ne hne)

theorem lookup_eraseAll_of_mem {ks : List K} {k : K} (h : k ∈ ks) :
    (eraseAll m ks).lookup k = none := by
  induction ks generalizing m with
  | nil => simp at h
  | cons k' ks ih =>
      by_cases hrest : k ∈ ks
      · exact ih hrest
      · have hk : k = k' := (List.mem_cons.mp h).resolve_right hrest
        exact (lookup_eraseAll_of_notMem hrest).trans (by rw [hk, AList.lookup_erase])

theorem lookup_eraseAll (m : AList fun _ : K => V) (ks : List K) (k : K) [Decidable (k ∈ ks)] :
    (eraseAll m ks).lookup k = if k ∈ ks then none else m.lookup k := by
  split
  · rename_i h
    exact lookup_eraseAll_of_mem h
  · rename_i h
    exact lookup_eraseAll_of_notMem h

theorem erase_of_lookup_none {k : K} (h : m.lookup k = none) : m.erase k = m := by
  apply AList.ext
  exact List.kerase_of_notMem_keys (AList.lookup_eq_none.mp h)

end Erase

/-- The node without some entries and their files. -/
def Node.without (s : Node) (gone : List Candidate) : Node :=
  { s with
    store := { s.store with chunks := eraseAll s.store.chunks (gone.map Prod.fst) }
    quota := { s.quota with
      index := { s.quota.index with
        chunks := eraseAll s.quota.index.chunks (gone.map Prod.fst) } } }

theorem Node.without_nil (s : Node) : s.without [] = s := rfl

theorem Node.without_cons (s : Node) (c : Candidate) (gone : List Candidate) :
    s.without (c :: gone) = (s.without [c]).without gone := rfl

/-- The used bytes without one entry. -/
theorem used_erase {i : Index} {h : Str} {m : ChunkMeta} (hm : i.chunks.lookup h = some m) :
    ({ i with chunks := i.chunks.erase h } : Index).used = i.used - m.size := by
  have hmem : h ∈ i.chunks.entries.keys := AList.mem_keys.mpr (AList.lookup_isSome.mp (by simp [hm]))
  obtain ⟨m', l1, l2, -, hl, hkerase⟩ := List.exists_of_kerase hmem
  have hm' : m' = m := by
    have hlook : i.chunks.lookup h = some m' :=
      AList.mem_lookup_iff.mpr (by rw [hl]; simp)
    rw [hm] at hlook
    exact (Option.some.inj hlook).symm
  have herase : (i.chunks.erase h).entries = l1 ++ l2 := hkerase
  have hperm : (i.chunks.entries.map fun e => e.2.size).Perm
      (m'.size :: (l1 ++ l2).map fun e => e.2.size) := by
    rw [hl]
    exact (List.perm_middle (a := (⟨h, m'⟩ : (_ : Str) × ChunkMeta))).map _
  rw [Index.used, Index.used, herase, wrapSum_perm hperm]
  have hcons : wrapSum 0 (m'.size :: (l1 ++ l2).map fun e => e.2.size) =
      wrapSum (0 + m'.size) ((l1 ++ l2).map fun e => e.2.size) := rfl
  rw [hcons, wrapSum_eq_add (0 + m'.size)]
  grind

theorem used_without {s : Node} {gone : List Candidate} (hdist : (gone.map Prod.fst).Nodup)
    (hmem : ∀ c ∈ gone, s.quota.index.chunks.lookup c.1 = some c.2) :
    (s.without gone).quota.index.used = s.quota.index.used - bytesOf gone := by
  induction gone generalizing s with
  | nil => rw [Node.without_nil, bytesOf_nil, Int64.sub_zero]
  | cons c gone ih =>
      obtain ⟨hnot, hdist⟩ := List.nodup_cons.mp hdist
      have hrest : ∀ d ∈ gone, (s.without [c]).quota.index.chunks.lookup d.1 = some d.2 := by
        intro d hd
        have hne : d.1 ≠ c.1 := by
          intro heq
          exact hnot (heq ▸ List.mem_map_of_mem hd)
        have hlook : (s.without [c]).quota.index.chunks.lookup d.1 =
            s.quota.index.chunks.lookup d.1 := AList.lookup_erase_ne hne
        rw [hlook]
        exact hmem d (List.mem_cons_of_mem c hd)
      have hone : (s.without [c]).quota.index.used = s.quota.index.used - c.2.size :=
        used_erase (hmem c List.mem_cons_self)
      rw [Node.without_cons, ih hdist hrest, hone, sub_bytesOf_cons]

/-! ## The loop -/

section Loop

variable {fails : Str → Bool} {t : Tid} {s : Node} {α : Type} {Q : α → Node → Prop}

theorem returns_evictQuota {c : QuotaCmd} {k : c.Resp → NodeM α} (hp : s.job.panicked = false)
    (hgo : ∃ r x, execQuota t c r s.quota = some x)
    (hk : ∀ r x, execQuota t c r s.quota = some x →
      Returns (evictSystem fails) t Q (k r) { s with quota := x }) :
    Returns (evictSystem fails) t Q (onQuota c >>= k) s := by
  obtain ⟨r, x, hx⟩ := hgo
  have hgo : nodeSystem.exec t (.quota c) r s = some { s with quota := x } := by
    simp [nodeSystem, nodeExec, hp, hx]
  refine Returns.restrict_perform rfl hgo fun r s' _ hexec => ?_
  obtain ⟨y, hy, rfl⟩ := nodeExec_quota hexec
  exact hk r y hy

theorem returns_evictStore {c : StoreCmd} {k : c.Resp → NodeM α} (hp : s.job.panicked = false)
    (hgo : ∃ r x, deletes fails (.store c) r = true ∧ execStore t c r s.store = some x)
    (hk : ∀ r x, deletes fails (.store c) r = true → execStore t c r s.store = some x →
      Returns (evictSystem fails) t Q (k r) { s with store := x }) :
    Returns (evictSystem fails) t Q (onStore c >>= k) s := by
  obtain ⟨r, x, hok, hx⟩ := hgo
  have hgo : nodeSystem.exec t (.store c) r s = some { s with store := x } := by
    simp [nodeSystem, nodeExec, hp, hx]
  refine Returns.restrict_perform hok hgo fun r s' hok hexec => ?_
  obtain ⟨y, hy, rfl⟩ := nodeExec_store hexec
  exact hk r y hok hy

theorem returns_getIndex {k : Index → NodeM α} (hp : s.job.panicked = false)
    (hk : Returns (evictSystem fails) t Q (k s.quota.index) s) :
    Returns (evictSystem fails) t Q (onQuota .getIndex >>= k) s := by
  refine returns_evictQuota hp ⟨s.quota.index, s.quota, if_pos rfl⟩ fun r x hx => ?_
  by_cases hr : r = s.quota.index
  · rw [execQuota, if_pos hr, Option.some.injEq] at hx
    rw [hr, ← hx]
    exact hk
  · rw [execQuota, if_neg hr] at hx
    contradiction

theorem returns_setIndex {i : Index} {k : Unit → NodeM α} (hp : s.job.panicked = false)
    (hk : Returns (evictSystem fails) t Q (k ()) (s.withIndex i)) :
    Returns (evictSystem fails) t Q (onQuota (.setIndex i) >>= k) s := by
  refine returns_evictQuota hp ⟨(), _, rfl⟩ fun r x hx => ?_
  rw [execQuota, Option.some.injEq] at hx
  rw [← hx]
  exact hk

/-- A deletion that fails leaves the node as it is. -/
theorem returns_deleteChunk_stuck {h : Str} {k : Removal → NodeM α} (hp : s.job.panicked = false)
    (hstuck : stuck fails h = true)
    (hk : ∀ msg, Returns (evictSystem fails) t Q (k (.failed msg)) s) :
    Returns (evictSystem fails) t Q (deleteChunk h >>= k) s := by
  rw [deleteChunk]
  cases hname : parseHash h with
  | none => exact hk _
  | some hexPart =>
      have hfails : fails h = true := by simpa [stuck, hname] using hstuck
      refine returns_evictStore hp ⟨.failed [], s.store, hfails, rfl⟩ fun r x hok hx => ?_
      cases r with
      | failed msg =>
          rw [execStore, Option.some.injEq] at hx
          rw [← hx]
          exact hk msg
      | removed | absent => simp [deletes, hfails] at hok

/-- Any other leaves no file. -/
theorem returns_deleteChunk {h : Str} {k : Removal → NodeM α} (hp : s.job.panicked = false)
    (hstuck : stuck fails h = false)
    (hk : ∀ r, (∀ msg, r ≠ .failed msg) → Returns (evictSystem fails) t Q (k r)
      { s with store := { s.store with chunks := s.store.chunks.erase h } }) :
    Returns (evictSystem fails) t Q (deleteChunk h >>= k) s := by
  rw [deleteChunk]
  cases hname : parseHash h with
  | none => simp [stuck, hname] at hstuck
  | some hexPart =>
      have hfails : fails h = false := by simpa [stuck, hname] using hstuck
      have hgo : ∃ r x, deletes fails (.store (.deleteChunk h)) r = true ∧
          execStore t (.deleteChunk h) r s.store = some x := by
        by_cases hfile : s.store.chunks.lookup h = none
        · exact ⟨.absent, s.store, by simp [deletes, hfails], if_pos hfile⟩
        · exact ⟨.removed, _, by simp [deletes, hfails],
            if_pos (Option.isSome_iff_ne_none.mpr hfile)⟩
      refine returns_evictStore hp hgo fun r x hok hx => ?_
      cases r with
      | failed msg => simp [deletes, hfails] at hok
      | removed =>
          by_cases hfile : (s.store.chunks.lookup h).isSome = true
          · rw [execStore, if_pos hfile, Option.some.injEq] at hx
            rw [← hx]
            exact hk _ (by simp)
          · rw [execStore, if_neg hfile] at hx
            contradiction
      | absent =>
          by_cases hfile : s.store.chunks.lookup h = none
          · rw [execStore, if_pos hfile, Option.some.injEq] at hx
            have hsame := hk .absent (by simp)
            rw [erase_of_lookup_none hfile] at hsame
            rw [← hx]
            exact hsame
          · rw [execStore, if_neg hfile] at hx
            contradiction

/-- The loop removes the victims, with their files. -/
theorem returns_evictLoop {target : Int64} {cs : List Candidate} {used : Int64} {n : Nat}
    (hp : s.job.panicked = false) :
    Returns (evictSystem fails) t
      (fun m s' => m = n + (victims fails target cs used).length ∧
        s' = s.without (victims fails target cs used))
      (evictLoop target cs used n) s := by
  induction cs generalizing s used n with
  | nil => exact ⟨rfl, rfl⟩
  | cons c cs ih =>
      rw [evictLoop, victims]
      by_cases hused : used ≤ target
      · rw [if_pos hused, if_pos hused]
        exact ⟨rfl, rfl⟩
      · rw [if_neg hused, if_neg hused]
        by_cases hstuck : stuck fails c.1 = true
        · rw [if_pos hstuck]
          exact returns_deleteChunk_stuck hp hstuck fun msg => ih hp
        · rw [if_neg hstuck]
          have hrest : Returns (evictSystem fails) t
              (fun m s' => m = n + (c :: victims fails target cs (used - c.2.size)).length ∧
                s' = s.without (c :: victims fails target cs (used - c.2.size)))
              (do
                let idx ← onQuota .getIndex
                let () ← onQuota (.setIndex { idx with chunks := idx.chunks.erase c.1 })
                evictLoop target cs (used - c.2.size) (n + 1))
              { s with store := { s.store with chunks := s.store.chunks.erase c.1 } } := by
            refine returns_getIndex hp (returns_setIndex hp ?_)
            have hnext : (s.without [c]).job.panicked = false := hp
            refine (ih hnext).mono fun m s' h => ?_
            obtain ⟨rfl, rfl⟩ := h
            exact ⟨by rw [List.length_cons]; omega, (s.without_cons c _).symm⟩
          refine returns_deleteChunk hp (by simpa using hstuck) fun r hr => ?_
          cases r with
          | failed msg => exact absurd rfl (hr msg)
          | removed => exact hrest
          | absent => exact hrest

end Loop

/-! ## MaybeEvict -/

/-- What a call of `MaybeEvict` above the high watermark does: it removes `gone`, in this
order. -/
structure Evicts (w : Watermarks) (fails : Str → Bool) (s : Node) (n : Nat) (s' : Node)
    (gone : List Candidate) : Prop where
  /-- These are entries that are not pinned and can be deleted. -/
  unpinned : ∀ c ∈ gone, s.quota.index.chunks.lookup c.1 = some c.2 ∧ ¬ 0 < c.2.refCount ∧
    stuck fails c.1 = false
  distinct : (gone.map Prod.fst).Nodup
  count : n = gone.length
  /-- They, and no others, are gone from the index and from the disk. -/
  entries : ∀ h, s'.quota.index.chunks.lookup h =
    if h ∈ gone.map Prod.fst then none else s.quota.index.chunks.lookup h
  files : ∀ h, s'.store.chunks.lookup h =
    if h ∈ gone.map Prod.fst then none else s.store.chunks.lookup h
  pins : s'.quota.index.pins = s.quota.index.pins
  used : s'.quota.index.used = s.quota.index.used - bytesOf gone
  oldest : ∀ c ∈ gone, ∀ h m, s'.quota.index.chunks.lookup h = some m → ¬ 0 < m.refCount →
    stuck fails h = false → c.2.lastAccess ≤ m.lastAccess
  enough : s'.quota.index.used ≤ w.low ∨ ∀ h m, s'.quota.index.chunks.lookup h = some m →
    0 < m.refCount ∨ stuck fails h = true
  needed : ∀ before c after, gone = before ++ c :: after →
    w.low < s.quota.index.used - bytesOf before

section MaybeEvict

variable {fails : Str → Bool} {t : Tid} {s : Node} {w : Watermarks} {order : List Candidate}

theorem mem_evictable {i : Index} {c : Candidate} :
    c ∈ i.evictable ↔ i.chunks.lookup c.1 = some c.2 ∧ ¬ 0 < c.2.refCount := by
  have hentry : c ∈ i.chunks.entries.map (fun e => (e.1, e.2)) ↔
      i.chunks.lookup c.1 = some c.2 := by
    rw [List.mem_map, ← Option.mem_def, AList.mem_lookup_iff]
    constructor
    · rintro ⟨e, he, rfl⟩
      exact he
    · intro he
      exact ⟨_, he, rfl⟩
  rw [Index.evictable, List.mem_filter, hentry, decide_eq_true_iff]

theorem nodup_evictable (i : Index) : (i.evictable.map Prod.fst).Nodup := by
  have hkeys : (i.chunks.entries.map (fun e => (e.1, e.2))).map Prod.fst = i.chunks.keys := by
    rw [List.map_map]
    rfl
  have hsub : (i.evictable.map Prod.fst).Sublist i.chunks.keys := by
    rw [← hkeys]
    exact List.filter_sublist.map _
  exact hsub.nodup i.chunks.nodupKeys

/-- There is an order for the loop to go by. -/
theorem exists_orderedByAccess (cs : List Candidate) : ∃ order, orderedByAccess order cs = true := by
  have hsorts := StableSort.sortsStably_insertionSort
    (fun a b : Candidate => Int64.le_iff_toInt_le (x := a.2.lastAccess) (y := b.2.lastAccess)) cs
  refine ⟨_, Bool.and_eq_true_iff.mpr ⟨List.isPerm_iff.mpr hsorts.perm, decide_eq_true ?_⟩⟩
  exact hsorts.sorted.imp Int64.le_iff_toInt_le.mpr

/-- The victims of the loop are as they should be. -/
theorem evicts_without {s' : Node}
    (horder : orderedByAccess order s.quota.index.evictable = true)
    (hindex : s'.quota.index =
      (s.without (victims fails w.low order s.quota.index.used)).quota.index)
    (hstore : s'.store = (s.without (victims fails w.low order s.quota.index.used)).store) :
    Evicts w fails s (victims fails w.low order s.quota.index.used).length s'
      (victims fails w.low order s.quota.index.used) := by
  obtain ⟨hperm, hsorted⟩ := Bool.and_eq_true_iff.mp horder
  have hperm := List.isPerm_iff.mp hperm
  have hsorted := of_decide_eq_true hsorted
  have hsub : (victims fails w.low order s.quota.index.used).Sublist order := victims_sublist
  have hmem : ∀ c ∈ order, s.quota.index.chunks.lookup c.1 = some c.2 ∧ ¬ 0 < c.2.refCount :=
    fun c hc => mem_evictable.mp (hperm.mem_iff.mp hc)
  have hdist : (order.map Prod.fst).Nodup :=
    (hperm.map _).nodup_iff.mpr (nodup_evictable s.quota.index)
  have hgone : ((victims fails w.low order s.quota.index.used).map Prod.fst).Nodup :=
    (hsub.map _).nodup hdist
  have hused : s'.quota.index.used = s.quota.index.used -
      bytesOf (victims fails w.low order s.quota.index.used) := by
    rw [hindex]
    exact used_without hgone fun c hc => (hmem c (hsub.subset hc)).1
  have hentries : ∀ h, s'.quota.index.chunks.lookup h =
      if h ∈ (victims fails w.low order s.quota.index.used).map Prod.fst then none
      else s.quota.index.chunks.lookup h := by
    intro h
    rw [hindex]
    exact lookup_eraseAll ..
  -- an entry that is kept and not pinned is a candidate that was passed over
  have hkept : ∀ h m, s'.quota.index.chunks.lookup h = some m → ¬ 0 < m.refCount →
      (h, m) ∈ order ∧ (h, m) ∉ victims fails w.low order s.quota.index.used := by
    intro h m hm href
    rw [hentries, Option.ite_none_left_eq_some] at hm
    refine ⟨hperm.mem_iff.mpr (mem_evictable.mpr ⟨hm.2, href⟩), fun hv => hm.1 ?_⟩
    exact List.mem_map_of_mem hv
  refine ⟨fun c hc => ⟨(hmem c (hsub.subset hc)).1, (hmem c (hsub.subset hc)).2,
    not_stuck_of_mem_victims hc⟩, hgone, rfl, hentries, fun h => ?_, ?_, hused, ?_, ?_,
    fun before c after hsplit => victims_needed hsplit⟩
  · rw [hstore]
    exact lookup_eraseAll ..
  · rw [hindex]
    rfl
  · intro c hc h m hm href hstuck
    obtain ⟨hin, hout⟩ := hkept h m hm href
    exact victims_oldest hsorted hc hin hout hstuck
  · rw [hused]
    refine victims_enough.imp_right fun hall h m hm => ?_
    by_cases href : 0 < m.refCount
    · exact .inl href
    · obtain ⟨hin, hout⟩ := hkept h m hm href
      exact .inr ((hall (h, m) hin).resolve_left hout)

end MaybeEvict

/-- **MaybeEvict.**  Below the high watermark nothing changes.  Otherwise the oldest
entries that are not pinned go, with their files, until no more than the low watermark is
used, and no more of them than that takes; the entries whose deletion fails stay, and so
do their sizes. -/
theorem eviction_exact (w : Watermarks) (fails : Str → Bool) (t : Tid) (s : Node)
    (hp : s.job.panicked = false) (hmu : s.quota.mu = none) :
    Returns (evictSystem fails) t
      (fun n s' => (s.quota.index.used < w.high → n = 0 ∧ s' = s) ∧
        (w.high ≤ s.quota.index.used → ∃ gone, Evicts w fails s n s' gone))
      (maybeEvict w) s := by
  let s₁ : Node := { s with quota := { s.quota with mu := some t } }
  have hp₁ : s₁.job.panicked = false := hp
  refine returns_evictQuota hp ⟨(), s₁.quota, if_pos hmu⟩ fun _ x hx => ?_
  rw [execQuota, if_pos hmu, Option.some.injEq] at hx
  subst hx
  refine returns_getIndex hp₁ ?_
  by_cases hlow : s₁.quota.index.used < w.high
  · rw [if_pos hlow]
    refine returns_evictQuota hp₁ ⟨(), _, rfl⟩ fun _ x hx => ?_
    rw [execQuota, Option.some.injEq] at hx
    subst hx
    refine ⟨fun _ => ⟨rfl, ?_⟩, fun hhigh => absurd hlow (Int64.not_lt.mpr hhigh)⟩
    have hfree : ({ s₁.quota with mu := none } : Quota) = s.quota := by
      rw [← hmu]
    rw [hfree]
  · rw [if_neg hlow]
    obtain ⟨order₀, horder₀⟩ := exists_orderedByAccess s₁.quota.index.evictable
    refine returns_evictQuota hp₁ ⟨order₀, s₁.quota, if_pos horder₀⟩ fun order x hx => ?_
    by_cases horder : orderedByAccess order s₁.quota.index.evictable = true
    · rw [execQuota, if_pos horder, Option.some.injEq] at hx
      subst hx
      let gone := victims fails w.low order s₁.quota.index.used
      have hp₂ : (s₁.without gone).job.panicked = false := hp
      have hend : ∀ x : Quota, x.index = (s₁.without gone).quota.index →
          Evicts w fails s gone.length { s₁.without gone with quota := x } gone :=
        fun x hx => evicts_without horder hx rfl
      refine (returns_evictLoop hp₁).seq fun n s₂ hn => ?_
      obtain ⟨rfl, rfl⟩ := hn
      -- whether the index is saved makes no difference to it
      refine returns_evictQuota hp₂ ⟨none, _, rfl⟩ fun saved x hx => ?_
      have hindex : x.index = (s₁.without gone).quota.index := by
        cases saved with
        | none | some msg => rw [execQuota, Option.some.injEq] at hx; rw [← hx]
      refine returns_evictQuota hp₂ ⟨(), _, rfl⟩ fun _ y hy => ?_
      rw [execQuota, Option.some.injEq] at hy
      subst hy
      rw [Nat.zero_add]
      exact ⟨fun h => absurd h hlow, fun _ => ⟨gone, hend _ hindex⟩⟩
    · rw [execQuota, if_neg horder] at hx
      contradiction

/-- A node with two chunks of two and of three bytes; the first was used earlier. -/
def twoEntryNode : Node :=
  let old := computeHash (.numbering [[1, 2]]) [1, 2]
  let new := computeHash (.numbering [[1, 2]]) [3, 4, 5]
  { emptyNode with
    store := { emptyNode.store with chunks := (AList.singleton new [3, 4, 5]).insert old [1, 2] }
    quota := { emptyNode.quota with
      index := ⟨(AList.singleton new ⟨new, 3, 2, 0⟩).insert old ⟨old, 2, 1, 0⟩, ∅⟩ } }

/-- With the watermarks at five and three bytes something is evicted. -/
theorem eviction_exact_two :
    (twoEntryNode.job.panicked = false ∧ twoEntryNode.quota.mu = none) ∧
      ∃ n s' gone, Runs (evictSystem fun _ => false) 0 (maybeEvict ⟨5, 3⟩) twoEntryNode n s' ∧
        Evicts ⟨5, 3⟩ (fun _ => false) twoEntryNode n s' gone := by
  obtain ⟨n, s', hrun, -, habove⟩ :=
    (eviction_exact ⟨5, 3⟩ (fun _ => false) 0 twoEntryNode rfl rfl).exists_runs
  obtain ⟨gone, hgone⟩ := habove (by decide +kernel)
  exact ⟨⟨rfl, rfl⟩, n, s', gone, hrun, hgone⟩

end Spider

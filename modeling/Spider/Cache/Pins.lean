import Spider.Cache.Quota
import Spider.Node.Answers
import Spider.Node.Rules

/-!
# Spider.Cache.Pins

Reference counts and eviction.

`Owed i todo δ` says that the index counts its pins, except that each hash of
`todo` still has to be changed by `δ`: the invariant of the loops of `Pin`
(`δ = 1`) and `Unpin` (`δ = -1`).  With nothing left to do it is `Counted`,
which every operation of the quota manager keeps, and under which eviction
never takes a chunk of a pinned artifact.
-/

namespace Spider

open Conc

/-! ## Counting pins -/

/-- The number of pinned artifact ids whose hash list contains `h`. -/
def Index.pinCount (i : Index) (h : Str) : Int :=
  (i.pins.entries.countP fun e => decide (h ∈ e.2) : Nat)

/-- The index counts its pins but for a change of `δ` owed to each hash of
`todo`. -/
structure Owed (i : Index) (todo : List Str) (δ : Int) : Prop where
  count : ∀ h, (i.entry h).refCount + (if h ∈ todo then δ else 0) = i.pinCount h
  present : ∀ id hs, i.pins.lookup id = some hs → ∀ h ∈ hs, (i.chunks.lookup h).isSome ∨ h ∈ todo
  nodup : ∀ id hs, i.pins.lookup id = some hs → hs.Nodup

/-- The index counts its pins. -/
abbrev Counted (i : Index) : Prop := Owed i [] 0

variable {i : Index} {hs : List Str} {id h : Str} {pins : AList fun _ : Str => List Str}

theorem Owed.nil {δ : Int} (h : Owed i [] δ) : Counted i :=
  ⟨by simpa using h.count, h.present, h.nodup⟩

theorem Counted.refCount (h : Counted i) (x : Str) : (i.entry x).refCount = i.pinCount x := by
  simpa using h.count x

theorem Counted.isSome (h : Counted i) (hid : i.pins.lookup id = some hs) {x : Str} (hx : x ∈ hs) :
    (i.chunks.lookup x).isSome := by
  cases h.present id hs hid x hx with
  | inl h => exact h
  | inr h => exact absurd h List.not_mem_nil

theorem counted_empty : Counted Index.empty where
  count h := rfl
  present id hs h := by simp [Index.empty] at h
  nodup id hs h := by simp [Index.empty] at h

section Entries

variable {i : Index} {h x : Str} {m : ChunkMeta}

@[simp] theorem entry_setEntry_self : (i.setEntry h m).entry h = m := by
  simp [Index.entry, Index.setEntry]

theorem entry_setEntry_ne (hx : x ≠ h) : (i.setEntry h m).entry x = i.entry x := by
  simp [Index.entry, Index.setEntry, AList.lookup_insert_ne hx]

theorem isSome_setEntry (hx : (i.chunks.lookup x).isSome ∨ x = h) :
    ((i.setEntry h m).chunks.lookup x).isSome := by
  by_cases hxh : x = h
  · rw [hxh, Index.setEntry, AList.lookup_insert]
    rfl
  · simpa [Index.setEntry, AList.lookup_insert_ne hxh] using hx.resolve_right hxh

@[simp] theorem pinCount_setEntry : (i.setEntry h m).pinCount x = i.pinCount x := rfl

end Entries

/-- A hash that is counted zero times belongs to no pinned artifact. -/
theorem not_mem_of_pinCount_eq_zero (hz : i.pinCount h = 0) (hid : i.pins.lookup id = some hs) :
    h ∉ hs := by
  have hmem : (⟨id, hs⟩ : Sigma fun _ : Str => List Str) ∈ i.pins.entries :=
    AList.mem_lookup_iff.mp hid
  have hzero : (i.pins.entries.countP fun e => decide (h ∈ e.2)) = 0 := by
    unfold Index.pinCount at hz
    omega
  have := List.countP_eq_zero.mp hzero _ hmem
  simpa using this

theorem pinCount_nonneg (i : Index) (h : Str) : 0 ≤ i.pinCount h := by
  unfold Index.pinCount
  omega

/-- Pinning an artifact that is not pinned. -/
theorem pinCount_insert (hid : i.pins.lookup id = none) (hs : List Str) (h : Str) :
    Index.pinCount { i with pins := i.pins.insert id hs } h =
      i.pinCount h + if h ∈ hs then 1 else 0 := by
  have hnot : id ∉ i.pins := AList.lookup_eq_none.mp hid
  unfold Index.pinCount
  simp only [AList.entries_insert_of_notMem hnot, List.countP_cons]
  by_cases hh : h ∈ hs
  · simp [hh]
  · simp [hh]

/-- The list of a pin after another one has been added is the new list or was
there before. -/
theorem lookup_insert_pins {id' : Str} {hs' : List Str}
    (h : (pins.insert id hs).lookup id' = some hs') : hs = hs' ∨ pins.lookup id' = some hs' := by
  by_cases he : id' = id
  · rw [he, AList.lookup_insert, Option.some.injEq] at h
    exact .inl h
  · rw [AList.lookup_insert_ne he] at h
    exact .inr h

/-- The lists left after a pin has been removed were there before. -/
theorem lookup_erase_pins {id' : Str} (h : (pins.erase id).lookup id' = some hs) :
    pins.lookup id' = some hs := by
  by_cases he : id' = id
  · rw [he, AList.lookup_erase] at h
    contradiction
  · rwa [AList.lookup_erase_ne he] at h

/-- Unpinning a pinned artifact. -/
theorem pinCount_erase (hid : i.pins.lookup id = some hs) (h : Str) :
    Index.pinCount { i with pins := i.pins.erase id } h = i.pinCount h - if h ∈ hs then 1 else 0 := by
  have hkey : id ∈ i.pins.entries.keys := by
    have := AList.lookup_isSome.mp (by rw [hid]; rfl : (i.pins.lookup id).isSome)
    exact this
  obtain ⟨b, l1, l2, hl1, hsplit, herase⟩ := List.exists_of_kerase hkey
  have hb : b = hs := by
    have hmem : (⟨id, b⟩ : Sigma fun _ : Str => List Str) ∈ i.pins.entries := by
      rw [hsplit]; simp
    have hlook : i.pins.lookup id = some b := AList.mem_lookup_iff.mpr hmem
    rw [hid, Option.some.injEq] at hlook
    exact hlook.symm
  have hent : (i.pins.erase id).entries = l1 ++ l2 := herase
  unfold Index.pinCount
  rw [hent, hsplit, hb, List.countP_append, List.countP_append, List.countP_cons]
  by_cases hh : h ∈ hs
  · simp [hh]; omega
  · simp [hh]

/-! ## One hash of a loop -/

/-- Paying what is owed to the first hash. -/
theorem Owed.pay {δ : Int} {m : ChunkMeta} (ho : Owed i (h :: hs) δ) (hnd : (h :: hs).Nodup)
    (hm : m.refCount = (i.entry h).refCount + δ) : Owed (i.setEntry h m) hs δ := by
  have hh : h ∉ hs := (List.nodup_cons.mp hnd).1
  refine ⟨fun x => ?_, fun id l hid x hx => ?_, ho.nodup⟩
  · have hcount := ho.count x
    rw [pinCount_setEntry]
    by_cases hxh : x = h
    · rw [hxh] at hcount ⊢
      rw [if_pos List.mem_cons_self] at hcount
      rw [entry_setEntry_self, if_neg hh]
      omega
    · rw [entry_setEntry_ne hxh]
      simpa [hxh] using hcount
  · cases ho.present id l hid x hx with
    | inl h => exact .inl (isSome_setEntry (.inl h))
    | inr h =>
        cases List.mem_cons.mp h with
        | inl h => exact .inl (isSome_setEntry (.inr h))
        | inr h => exact .inr h

/-- Any change of an entry that leaves its count alone. -/
theorem Counted.setEntry (hi : Counted i) {m : ChunkMeta} (hm : m.refCount = (i.entry h).refCount) :
    Counted (i.setEntry h m) := by
  refine ⟨fun x => ?_, fun id l hid x hx => .inl ?_, hi.nodup⟩
  · have hcount := hi.count x
    by_cases hxh : x = h
    · rw [hxh] at hcount ⊢
      simpa [hm] using hcount
    · simpa [entry_setEntry_ne hxh] using hcount
  · exact isSome_setEntry (.inl (hi.isSome hid hx))

/-- Dropping an entry that is not referenced. -/
theorem Counted.erase (hi : Counted i) (hz : i.pinCount h = 0) :
    Counted { i with chunks := i.chunks.erase h } := by
  refine ⟨fun x => ?_, fun id l hid x hx => .inl ?_, hi.nodup⟩
  · have hcount := hi.count x
    have hpins : Index.pinCount { i with chunks := i.chunks.erase h } x = i.pinCount x := rfl
    rw [hpins]
    by_cases hxh : x = h
    · rw [hxh]
      simpa [Index.entry] using hz.symm
    · simpa [Index.entry, AList.lookup_erase_ne hxh] using hcount
  · have hxh : x ≠ h := by
      intro he
      rw [he] at hx
      exact not_mem_of_pinCount_eq_zero hz hid hx
    simpa [AList.lookup_erase_ne hxh] using hi.isSome hid hx

/-! ## The manager's commands -/

section Commands

variable {t : Tid} {s : Node} {α : Type} {Q : α → Node → Prop}

/-- The node with another index in memory. -/
def Node.withIndex (s : Node) (i : Index) : Node := { s with quota := { s.quota with index := i } }

theorem post_getIndex {k : Index → NodeM α} (h : Post nodeSystem t Q (k s.quota.index) s) :
    Post nodeSystem t Q (onQuota .getIndex >>= k) s := by
  apply post_quota
  intro r x hx
  by_cases hr : r = s.quota.index
  · rw [execQuota, if_pos hr, Option.some.injEq] at hx
    rw [hr, ← hx]
    exact h
  · rw [execQuota, if_neg hr] at hx
    contradiction

variable {k : Unit → NodeM α}

theorem post_setIndex {i : Index} (h : Post nodeSystem t Q (k ()) (s.withIndex i)) :
    Post nodeSystem t Q (onQuota (.setIndex i) >>= k) s := by
  apply post_quota
  intro r x hx
  rw [execQuota, Option.some.injEq] at hx
  rw [← hx]
  exact h

theorem post_now {k : Int64 → NodeM α} (h : ∀ n, Post nodeSystem t Q (k n) s) :
    Post nodeSystem t Q (onQuota .now >>= k) s := by
  apply post_quota
  intro r x hx
  rw [execQuota, Option.some.injEq] at hx
  rw [← hx]
  exact h r

/-- What a saved index is counted against. -/
structure QuotaInv (s : Node) : Prop where
  index : Counted s.quota.index
  saved : ∀ i, s.quota.saved = some i → Counted i

/-- The mutex and the dirty flag are no part of the invariant. -/
theorem QuotaInv.of_eq {s' : Node} (h : QuotaInv s) (hi : s'.quota.index = s.quota.index)
    (hs : s'.quota.saved = s.quota.saved) : QuotaInv s' :=
  ⟨by rw [hi]; exact h.index, by rw [hs]; exact h.saved⟩

/-- The mutex commands change nothing but the mutex. -/
theorem post_lockQuota
    (h : Post nodeSystem t Q (k ()) { s with quota := { s.quota with mu := some t } }) :
    Post nodeSystem t Q (onQuota .lockQuota >>= k) s := by
  apply post_quota
  intro r x hx
  by_cases hm : s.quota.mu = none
  · rw [execQuota, if_pos hm, Option.some.injEq] at hx
    rw [← hx]
    exact h
  · rw [execQuota, if_neg hm] at hx
    contradiction

theorem post_unlockQuota
    (h : Post nodeSystem t Q (k ()) { s with quota := { s.quota with mu := none } }) :
    Post nodeSystem t Q (onQuota .unlockQuota >>= k) s := by
  apply post_quota
  intro r x hx
  rw [execQuota, Option.some.injEq] at hx
  rw [← hx]
  exact h

/-- Saving succeeds, or leaves the file as it was. -/
theorem post_saveIndex {k : Option Str → NodeM α}
    (hok : Post nodeSystem t Q (k none)
      { s with quota := { s.quota with saved := some s.quota.index, dirty := false } })
    (hfail : ∀ e, Post nodeSystem t Q (k (some e)) s) :
    Post nodeSystem t Q (onQuota .saveIndex >>= k) s := by
  apply post_quota
  intro r x hx
  cases r with
  | none =>
      rw [execQuota, Option.some.injEq] at hx
      rw [← hx]
      exact hok
  | some e =>
      rw [execQuota, Option.some.injEq] at hx
      rw [← hx]
      exact hfail e

theorem post_hasChunk {h : Str} {k : Bool → NodeM α} (hk : ∀ r, Post nodeSystem t Q (k r) s) :
    Post nodeSystem t Q (hasChunk h >>= k) s := by
  unfold hasChunk
  split
  · exact hk false
  · rw [Prog.bind_assoc']
    apply post_asks rfl
    intro r
    cases r with
    | size n => exact hk true
    | absent => exact hk false
    | failed m => exact hk false

theorem post_committedChunkSize {h : Str} {k : Option Int → NodeM α}
    (hk : ∀ r, Post nodeSystem t Q (k r) s) :
    Post nodeSystem t Q (committedChunkSize h >>= k) s := by
  unfold committedChunkSize
  split
  · exact hk none
  · rw [Prog.bind_assoc']
    apply post_asks rfl
    intro r
    cases r with
    | size n => exact hk (some n)
    | absent => exact hk none
    | failed m => exact hk none

/-- Filling in a size leaves the count alone. -/
theorem post_fillSizeLocked {h : Str} {m : ChunkMeta} {k : ChunkMeta → NodeM α}
    (hk : ∀ m', m'.refCount = m.refCount → Post nodeSystem t Q (k m') s) :
    Post nodeSystem t Q (fillSizeLocked h m >>= k) s := by
  unfold fillSizeLocked
  split
  · exact hk m rfl
  · rw [Prog.bind_assoc']
    apply post_committedChunkSize
    intro r
    cases r with
    | none => exact hk m rfl
    | some sz => exact hk _ rfl

end Commands

/-! ## The loops -/

section Loops

variable {t : Tid} {s : Node} {α : Type} {Q : α → Node → Prop}
variable {hs : List Str} {k : Unit → NodeM α}

theorem post_pinHashes (ho : Owed s.quota.index hs 1) (hnd : hs.Nodup)
    (hk : ∀ i, Counted i → i.pins = s.quota.index.pins → Post nodeSystem t Q (k ()) (s.withIndex i)) :
    Post nodeSystem t Q (pinHashes hs >>= k) s := by
  induction hs generalizing s with
  | nil => exact hk s.quota.index ho.nil rfl
  | cons h hs ih =>
      rw [pinHashes, Prog.bind_assoc']
      apply post_getIndex
      rw [Prog.bind_assoc']
      apply post_fillSizeLocked
      intro m hm
      apply post_setIndex
      have hpaid := ho.pay hnd (m := { m with refCount := m.refCount + 1 })
        (by simp only [hm])
      exact ih hpaid (List.nodup_cons.mp hnd).2 hk

theorem post_unpinHashes (ho : Owed s.quota.index hs (-1)) (hnd : hs.Nodup)
    (hk : ∀ i, Counted i → i.pins = s.quota.index.pins → Post nodeSystem t Q (k ()) (s.withIndex i)) :
    Post nodeSystem t Q (unpinHashes hs >>= k) s := by
  induction hs generalizing s with
  | nil => exact hk s.quota.index ho.nil rfl
  | cons h hs ih =>
      rw [unpinHashes, Prog.bind_assoc']
      apply post_getIndex
      apply post_setIndex
      -- a hash that is owed a decrement is counted at least once
      have hpos : (s.quota.index.entry h).refCount > 0 := by
        have hcount := ho.count h
        have hnn := pinCount_nonneg s.quota.index h
        rw [if_pos List.mem_cons_self] at hcount
        omega
      rw [if_pos hpos]
      have hpaid := ho.pay hnd (m := { s.quota.index.entry h with
        refCount := (s.quota.index.entry h).refCount - 1 }) rfl
      exact ih hpaid (List.nodup_cons.mp hnd).2 hk

/-- The loop of `reconcileFromDisk` adds entries that count nothing, for hashes
that have none. -/
theorem post_reconcileHashes_of {F : Index → Prop} {now : Int64}
    (hF : ∀ i h m, F i → i.chunks.lookup h = none → m.refCount = 0 → F (i.setEntry h m))
    (hi : F s.quota.index) (hk : ∀ i, F i → Post nodeSystem t Q (k ()) (s.withIndex i)) :
    Post nodeSystem t Q (reconcileHashes now hs >>= k) s := by
  induction hs generalizing s with
  | nil => exact hk s.quota.index hi
  | cons h hs ih =>
      rw [reconcileHashes, Prog.bind_assoc']
      apply post_getIndex
      by_cases hp : (s.quota.index.chunks.lookup h).isSome = true
      · rw [if_pos hp]
        exact ih hi hk
      · rw [if_neg hp, Prog.bind_assoc', chunkSizeOnDisk, Prog.bind_assoc']
        apply post_hasChunk
        intro r
        cases r with
        | false => exact ih hi hk
        | true =>
            simp only [Bool.not_true, Bool.false_eq_true, if_false]
            rw [Prog.bind_assoc']
            apply post_committedChunkSize
            intro sz
            cases sz with
            | none => exact ih hi hk
            | some sz =>
                simp only [Prog.pure_bind']
                apply post_setIndex
                exact ih (hF _ _ _ hi (by simpa using hp) rfl) hk

theorem post_reconcileHashes {now : Int64} (hi : Counted s.quota.index)
    (hk : ∀ i, Counted i → Post nodeSystem t Q (k ()) (s.withIndex i)) :
    Post nodeSystem t Q (reconcileHashes now hs >>= k) s := by
  refine post_reconcileHashes_of (fun i h m hi hnone hm => hi.setEntry ?_) hi hk
  -- an absent entry counts zero, like the one that is added
  rw [hm, Index.entry, hnone]
  rfl

/-- What eviction leaves alone: the pins, and everything of a hash that is
pinned. -/
structure Kept (s s' : Node) : Prop where
  counted : Counted s'.quota.index
  saved : s'.quota.saved = s.quota.saved
  pins : s'.quota.index.pins = s.quota.index.pins
  entry : ∀ h, s.quota.index.pinCount h ≠ 0 →
    s'.quota.index.chunks.lookup h = s.quota.index.chunks.lookup h
  file : ∀ h, s.quota.index.pinCount h ≠ 0 → s'.store.chunks.lookup h = s.store.chunks.lookup h

theorem Kept.refl (h : Counted s.quota.index) : Kept s s :=
  ⟨h, rfl, rfl, fun _ _ => rfl, fun _ _ => rfl⟩

theorem Kept.pinCount {s' : Node} (h : Kept s s') (x : Str) :
    s'.quota.index.pinCount x = s.quota.index.pinCount x := by
  rw [Index.pinCount, h.pins]
  rfl

theorem Kept.trans {s1 s2 s3 : Node} (h1 : Kept s1 s2) (h2 : Kept s2 s3) : Kept s1 s3 := by
  have hc : ∀ h, s1.quota.index.pinCount h ≠ 0 → s2.quota.index.pinCount h ≠ 0 := by
    intro h hne
    rw [h1.pinCount]
    exact hne
  exact ⟨h2.counted, h2.saved.trans h1.saved, h2.pins.trans h1.pins,
    fun h hne => (h2.entry h (hc h hne)).trans (h1.entry h hne),
    fun h hne => (h2.file h (hc h hne)).trans (h1.file h hne)⟩

/-- A deletion: the file of this hash is gone or as it was, the rest is as it
was. -/
theorem post_deleteChunk {h : Str} {k : Removal → NodeM α}
    (hgone : ∀ r, (∀ m, r ≠ .failed m) → ∀ x : Store,
      (∀ h', h' ≠ h → x.chunks.lookup h' = s.store.chunks.lookup h') →
      Post nodeSystem t Q (k r) { s with store := x })
    (hfail : ∀ m, Post nodeSystem t Q (k (.failed m)) s) :
    Post nodeSystem t Q (deleteChunk h >>= k) s := by
  unfold deleteChunk
  split
  · exact hfail _
  · apply post_store
    intro r x hx
    cases r with
    | removed =>
        by_cases hp : (s.store.chunks.lookup h).isSome = true
        · rw [execStore, if_pos hp, Option.some.injEq] at hx
          refine hgone _ (by simp) x fun h' hne => ?_
          rw [← hx]
          exact AList.lookup_erase_ne hne
        · rw [execStore, if_neg hp] at hx
          contradiction
    | absent =>
        by_cases hp : s.store.chunks.lookup h = none
        · rw [execStore, if_pos hp, Option.some.injEq] at hx
          exact hgone _ (by simp) x fun h' _ => by rw [hx]
        · rw [execStore, if_neg hp] at hx
          contradiction
    | failed m =>
        rw [execStore, Option.some.injEq] at hx
        rw [← hx]
        exact hfail m

theorem post_evictLoop {target : Int64} {cs : List Candidate} {used : Int64} {n : Nat}
    {k : Nat → NodeM α} (hi : Counted s.quota.index)
    (hz : ∀ c ∈ cs, s.quota.index.pinCount c.1 = 0)
    (hk : ∀ n s', Kept s s' → Post nodeSystem t Q (k n) s') :
    Post nodeSystem t Q (evictLoop target cs used n >>= k) s := by
  induction cs generalizing s used n with
  | nil => exact hk n s (.refl hi)
  | cons c cs ih =>
      have hzc : s.quota.index.pinCount c.1 = 0 := hz c List.mem_cons_self
      have hzs : ∀ d ∈ cs, s.quota.index.pinCount d.1 = 0 := fun d hd =>
        hz d (List.mem_cons_of_mem _ hd)
      rw [evictLoop]
      by_cases hu : used ≤ target
      · rw [if_pos hu]
        exact hk n s (.refl hi)
      · rw [if_neg hu, Prog.bind_assoc']
        apply post_deleteChunk
        · intro r hr x hx
          -- the entry goes with the file; a pinned hash is another one
          have hne : ∀ h, s.quota.index.pinCount h ≠ 0 → h ≠ c.1 := by
            intro h hne he
            rw [he] at hne
            exact hne hzc
          let s1 : Node := { s with store := x }
          let s2 : Node := s1.withIndex
            { s.quota.index with chunks := s.quota.index.chunks.erase c.1 }
          have hkept : Kept s s2 :=
            ⟨hi.erase hzc, rfl, rfl, fun h hh => AList.lookup_erase_ne (hne h hh),
              fun h hh => hx h (hne h hh)⟩
          have hrest : Post nodeSystem t Q
              ((do
                let idx ← onQuota .getIndex
                let () ← onQuota (.setIndex { idx with chunks := idx.chunks.erase c.1 })
                evictLoop target cs (used - c.2.size) (n + 1)) >>= k) s1 := by
            rw [Prog.bind_assoc']
            apply post_getIndex
            apply post_setIndex
            exact @ih s2 _ _ hkept.counted hzs fun n s' h => hk n s' (hkept.trans h)
          cases r with
          | removed => exact hrest
          | absent => exact hrest
          | failed m => exact absurd rfl (hr m)
        · intro m
          exact ih hi hzs hk

end Loops

/-! ## The operations -/

/-- The operations of a quota manager; `reopen` is `NewQuotaManager` on the same
directory. -/
inductive QuotaOp where
  | touch (h : Str) (size : Int64)
  | pin (manifest : ArtifactManifest)
  | unpin (artifactID : Str)
  | maybeEvict
  | flush
  | reopen

def QuotaOp.run (w : Watermarks) : QuotaOp → NodeM Unit
  | .touch h size => Spider.touch h size
  | .pin m => do
      let _ ← Spider.pin m
      pure ()
  | .unpin id => do
      let _ ← Spider.unpin id
      pure ()
  | .maybeEvict => do
      let _ ← Spider.maybeEvict w
      pure ()
  | .flush => do
      let _ ← Spider.flush
      pure ()
  | .reopen => newQuotaManager

section Operations

variable {t : Tid} {s : Node}

/-- Where an operation that returns `err` leaves the file. -/
structure Written (s s' : Node) (err : Option Str) : Prop where
  saved : s'.quota.saved = s.quota.saved ∨ s'.quota.saved = some s'.quota.index
  ok : err = none → s'.quota.saved = some s'.quota.index

theorem post_touch {h : Str} {size : Int64} (hq : QuotaInv s) :
    Post nodeSystem t (fun _ s' => QuotaInv s' ∧ s'.quota.index.pins = s.quota.index.pins ∧
      s'.quota.saved = s.quota.saved) (touch h size) s := by
  apply post_lockQuota
  apply post_getIndex
  apply post_now
  intro now
  apply post_setIndex
  apply post_quota
  intro r x hx
  rw [execQuota, Option.some.injEq] at hx
  rw [← hx]
  refine @post_unlockQuota t _ _ _ pure ?_
  exact ⟨⟨hq.index.setEntry rfl, hq.saved⟩, rfl, rfl⟩

/-- The save at the end of an operation that has its counts right. -/
theorem post_save_unlock (hq : QuotaInv s) {α : Type} {f : Option Str → α} {Q : α → Node → Prop}
    (hdone : ∀ err s', QuotaInv s' → s'.store = s.store → s'.quota.index = s.quota.index →
      Written s s' err → Q (f err) s') :
    Post nodeSystem t Q
      (do
        let err ← onQuota .saveIndex
        let () ← onQuota .unlockQuota
        pure (f err)) s := by
  apply post_saveIndex
  · apply post_unlockQuota
    refine hdone none _ ⟨hq.index, fun i hi => ?_⟩ rfl rfl ⟨.inr rfl, fun _ => rfl⟩
    rw [← Option.some.inj hi]
    exact hq.index
  · intro e
    apply post_unlockQuota
    exact hdone (some e) _ (hq.of_eq rfl rfl) rfl rfl ⟨.inl rfl, fun h => (nomatch h)⟩

/-- The pins after `Pin`. -/
def Index.pinsWith (i : Index) (m : ArtifactManifest) : AList fun _ : Str => List Str :=
  if (i.pins.lookup m.artifactID).isSome then i.pins
  else i.pins.insert m.artifactID (allChunkHashes m)

theorem post_pin {m : ArtifactManifest} (hq : QuotaInv s) :
    Post nodeSystem t (fun err s' => QuotaInv s' ∧ Written s s' err ∧
      s'.quota.index.pins = s.quota.index.pinsWith m) (pin m) s := by
  unfold pin Index.pinsWith
  apply post_lockQuota
  apply post_getIndex
  by_cases hp : (s.quota.index.pins.lookup m.artifactID).isSome = true
  · simp only [if_pos hp]
    apply post_save_unlock
    · exact hq.of_eq rfl rfl
    · intro err s' hq' _ hindex hw
      exact ⟨hq', ⟨hw.saved, hw.ok⟩, by rw [hindex]⟩
  · simp only [if_neg hp]
    have hnone : s.quota.index.pins.lookup m.artifactID = none := by simpa using hp
    apply post_setIndex
    apply post_pinHashes
    · -- every listed hash is owed one more reference
      refine ⟨fun h => ?_, fun id hs hid h hh => ?_, fun id hs hid => ?_⟩
      · have hcount := hq.index.refCount h
        have hins := pinCount_insert hnone (allChunkHashes m) h
        exact (congrArg (· + _) hcount).trans hins.symm
      · cases lookup_insert_pins hid with
        | inl hnew => exact .inr (hnew ▸ hh)
        | inr hold => exact .inl (hq.index.isSome hold hh)
      · cases lookup_insert_pins hid with
        | inl hnew => exact hnew ▸ nodup_allChunkHashes m
        | inr hold => exact hq.index.nodup id hs hold
    · exact nodup_allChunkHashes m
    · intro i hi hpins
      apply post_save_unlock
      · exact ⟨hi, hq.saved⟩
      · intro err s' hq' _ hindex hw
        exact ⟨hq', ⟨hw.saved, hw.ok⟩, by rw [hindex]; exact hpins⟩

theorem post_unpin {id : Str} (hq : QuotaInv s) :
    Post nodeSystem t (fun err s' => QuotaInv s' ∧ Written s s' err ∧
      s'.quota.index.pins = s.quota.index.pins.erase id) (unpin id) s := by
  apply post_lockQuota
  apply post_getIndex
  apply post_setIndex
  cases hid : s.quota.index.pins.lookup id with
  | none =>
      simp only [Option.getD_none]
      have hsame : s.quota.index.pins.erase id = s.quota.index.pins := by
        apply AList.ext
        exact List.kerase_of_notMem_keys (AList.lookup_eq_none.mp hid)
      apply post_unpinHashes
      · refine ⟨fun h => ?_, fun id' hs hl h hh => ?_, fun id' hs hl => ?_⟩
        · have hcount := hq.index.refCount h
          simp only [List.not_mem_nil, if_false, Int.add_zero]
          simp only [Node.withIndex, hsame]
          exact hcount
        · exact .inl (hq.index.isSome (lookup_erase_pins hl) hh)
        · exact hq.index.nodup id' hs (lookup_erase_pins hl)
      · exact List.nodup_nil
      · intro i hi hpins
        apply post_save_unlock
        · exact ⟨hi, hq.saved⟩
        · intro err s' hq' _ hindex hw
          exact ⟨hq', ⟨hw.saved, hw.ok⟩, by rw [hindex]; exact hpins⟩
  | some hs =>
      simp only [Option.getD_some]
      apply post_unpinHashes
      · refine ⟨fun h => ?_, fun id' hs' hl h hh => ?_, fun id' hs' hl => ?_⟩
        · have hcount := hq.index.refCount h
          have herase := pinCount_erase hid h
          refine Eq.trans ?_ herase.symm
          rw [← hcount]
          by_cases hh : h ∈ hs
          · simp only [if_pos hh]
            exact rfl
          · simp only [if_neg hh, Int.add_zero, Int.sub_zero]
            exact rfl
        · exact .inl (hq.index.isSome (lookup_erase_pins hl) hh)
        · exact hq.index.nodup id' hs' (lookup_erase_pins hl)
      · exact hq.index.nodup id hs hid
      · intro i hi hpins
        apply post_save_unlock
        · exact ⟨hi, hq.saved⟩
        · intro err s' hq' _ hindex hw
          exact ⟨hq', ⟨hw.saved, hw.ok⟩, by rw [hindex]; exact hpins⟩

/-- What eviction may take is not pinned. -/
theorem pinCount_evictable {i : Index} (hi : Counted i) {c : Candidate} (hc : c ∈ i.evictable) :
    i.pinCount c.1 = 0 := by
  obtain ⟨hmem, href⟩ := List.mem_filter.mp hc
  obtain ⟨e, he, hec⟩ := List.mem_map.mp hmem
  have hlook : i.chunks.lookup e.1 = some e.2 := AList.mem_lookup_iff.mpr he
  have hentry : (i.entry c.1).refCount = c.2.refCount := by
    rw [← hec, Index.entry, hlook]
    rfl
  have hcount := hi.refCount c.1
  have hnn := pinCount_nonneg i c.1
  have hle : ¬ c.2.refCount > 0 := by simpa using href
  omega

/-- What `MaybeEvict` does: below the watermark nothing, and above it nothing to
the pins and what is pinned. -/
structure Evicted (w : Watermarks) (s s' : Node) : Prop where
  inv : QuotaInv s'
  pins : s'.quota.index.pins = s.quota.index.pins
  saved : s'.quota.saved = s.quota.saved ∨ s'.quota.saved = some s'.quota.index
  below : s.quota.index.used < w.high → s'.store = s.store ∧ s'.quota.saved = s.quota.saved
  kept : ∀ h, s.quota.index.pinCount h ≠ 0 →
    s'.store.chunks.lookup h = s.store.chunks.lookup h ∧
    s'.quota.index.chunks.lookup h = s.quota.index.chunks.lookup h

theorem post_maybeEvict {w : Watermarks} (hq : QuotaInv s) :
    Post nodeSystem t (fun _ s' => Evicted w s s') (maybeEvict w) s := by
  apply post_lockQuota
  apply post_getIndex
  by_cases hu : s.quota.index.used < w.high
  · simp only [if_pos hu]
    apply post_unlockQuota
    exact ⟨hq.of_eq rfl rfl, rfl, .inl rfl, fun _ => ⟨rfl, rfl⟩, fun _ _ => ⟨rfl, rfl⟩⟩
  · simp only [if_neg hu]
    apply post_quota
    intro order x hx
    by_cases ho : orderedByAccess order s.quota.index.evictable = true
    · rw [execQuota, if_pos ho, Option.some.injEq] at hx
      rw [← hx]
      have hperm : order.Perm s.quota.index.evictable := by
        unfold orderedByAccess at ho
        rw [Bool.and_eq_true] at ho
        exact List.isPerm_iff.mp ho.1
      apply post_evictLoop
      · exact hq.index
      · exact fun c hc => pinCount_evictable hq.index (hperm.mem_iff.mp hc)
      · intro n s' hkept
        have hq' : QuotaInv s' := ⟨hkept.counted, by rw [hkept.saved]; exact hq.saved⟩
        refine post_save_unlock (f := fun _ => n) hq' fun err s'' hq'' hstore hindex hw => ?_
        refine ⟨hq'', by rw [hindex]; exact hkept.pins, ?_, fun h => absurd h hu, fun h hh => ?_⟩
        · rw [← show s'.quota.saved = s.quota.saved from hkept.saved]
          exact hw.saved
        · rw [hstore, hindex]
          exact ⟨hkept.file h hh, hkept.entry h hh⟩
    · rw [execQuota, if_neg ho] at hx
      contradiction

theorem post_flush (hq : QuotaInv s) :
    Post nodeSystem t (fun _ s' => QuotaInv s' ∧ s'.quota.index = s.quota.index ∧
      (s'.quota.saved = s.quota.saved ∨ s'.quota.saved = some s'.quota.index) ∧
      (s.quota.dirty = false → s'.quota.saved = s.quota.saved)) flush s := by
  apply post_lockQuota
  apply post_quota
  intro d x hx
  by_cases hd : d = s.quota.dirty
  · rw [execQuota, if_pos hd, Option.some.injEq] at hx
    rw [← hx]
    cases d with
    | true =>
        apply post_save_unlock
        · exact hq.of_eq rfl rfl
        · intro err s' hq' _ hindex hw
          exact ⟨hq', hindex, hw.saved, fun h => absurd (hd.trans h) (by simp)⟩
    | false =>
        refine @post_unlockQuota t _ _ _ _ ?_
        exact ⟨hq.of_eq rfl rfl, rfl, .inl rfl, fun _ => rfl⟩
  · rw [execQuota, if_neg hd] at hx
    contradiction

theorem post_reconcileFromDisk (hq : QuotaInv s) :
    Post nodeSystem t (fun _ s' => QuotaInv s') reconcileFromDisk s := by
  apply post_asks rfl
  intro r
  cases r with
  | none => exact hq
  | some hashes =>
      apply post_now
      intro now
      apply post_reconcileHashes hq.index
      intro i hi
      refine @post_saveIndex t _ _ _ pure ?_ fun e => ⟨hi, hq.saved⟩
      exact ⟨hi, fun j hj => by rw [← Option.some.inj hj]; exact hi⟩

theorem post_newQuotaManager (hq : QuotaInv s) :
    Post nodeSystem t (fun _ s' => QuotaInv s') newQuotaManager s := by
  apply post_setIndex
  apply post_quota
  intro r x hx
  -- what is loaded was saved, and nothing is loaded into an empty index otherwise
  have hx' : QuotaInv { s with quota := x } := by
    cases r with
    | false =>
        rw [execQuota, Option.some.injEq] at hx
        rw [← hx]
        exact ⟨counted_empty, hq.saved⟩
    | true =>
        cases hsaved : s.quota.saved with
        | none => simp [execQuota, Node.withIndex, hsaved] at hx
        | some i =>
            simp only [execQuota, Node.withIndex, hsaved, Option.some.injEq] at hx
            rw [← hx]
            exact ⟨hq.saved i hsaved, fun j hj => hq.saved j (hsaved.trans hj)⟩
  apply Post.bind
  exact (post_reconcileFromDisk hx').mono fun _ _ h => h

/-- Every operation keeps the counts, in memory and on disk. -/
theorem QuotaOp.post_run {w : Watermarks} {op : QuotaOp} (hq : QuotaInv s) :
    Post nodeSystem t (fun _ s' => QuotaInv s') (op.run w) s := by
  cases op with
  | touch h size => exact (post_touch hq).mono fun _ _ h => h.1
  | pin m => exact (post_pin hq).seq fun _ _ h => h.1
  | unpin id => exact (post_unpin hq).seq fun _ _ h => h.1
  | maybeEvict => exact (post_maybeEvict hq).seq fun _ _ h => h.inv
  | flush => exact (post_flush hq).seq fun _ _ h => h.1
  | reopen => exact post_newQuotaManager hq

end Operations

/-! ## Runs of a manager -/

/-- One operation of the manager, or any change of the store by other parts of
the process or by an earlier one. -/
inductive QuotaStep (w : Watermarks) (t : Tid) : Node → Node → Prop
  | op {s s' : Node} (op : QuotaOp) (h : Runs nodeSystem t (op.run w) s () s') : QuotaStep w t s s'
  | disk {s : Node} (x : Store) : QuotaStep w t s { s with store := x }

/-- A manager that has never saved anything. -/
structure NewManager (s : Node) : Prop where
  index : s.quota.index = Index.empty
  saved : s.quota.saved = none

theorem quotaInv_of_run {w : Watermarks} {t : Tid} {s0 s : Node} (h0 : NewManager s0)
    (hrun : Relation.ReflTransGen (QuotaStep w t) s0 s) : QuotaInv s := by
  induction hrun with
  | refl =>
      exact ⟨by rw [h0.index]; exact counted_empty, by simp [h0.saved]⟩
  | tail _ hstep ih =>
      cases hstep with
      | op op h => exact (QuotaOp.post_run ih).of_runs h
      | disk x => exact ih.of_eq rfl rfl

/-- A manifest that lists two chunks, one of them twice. -/
def pairManifest : ArtifactManifest :=
  let a : ChunkRef := ⟨str "sha256:a", 0, 1⟩
  let b : ChunkRef := ⟨str "sha256:b", 1, 1⟩
  ⟨1, str "id", str "m", str "1", 1, 3, [⟨str "f", 3, [], [a, b, a]⟩]⟩

/-- A fresh manager that has pinned it. -/
def pairPinned : Node :=
  (QuotaOp.run ⟨0, 0⟩ (.pin pairManifest)).finalState nodeSystem 0
    (World.originOnly []).answer emptyNode

end Spider

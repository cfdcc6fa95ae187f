import Spider.Cache.Ledger

/-!
# Spider.Cache.Sections

The operations on the cache keep to `ledgerProtocol`.

`Outside` and `Inside` are what a thread knows outside and inside the quota
manager's mutex, whatever the other threads do: the hash it has locked, and
inside also the index.  One rule per command takes the one to the other, and
each operation is read off them.
-/

namespace Spider

open Conc

/-! ## Inside the locks -/

/-- A hash a thread has locked: its file, and whether that is owed. -/
structure Held where
  hash : Str
  file : Option Bytes
  owed : Bool

/-- What a thread has locked. -/
structure Owns (t : Tid) (hold : Option Held) (v : CacheView) : Prop where
  locks : ∀ h, v.locks h = some t ↔ ∃ k, hold = some k ∧ k.hash = h
  held : ∀ k, hold = some k → v.files.lookup k.hash = k.file ∧ v.owed k.hash = k.owed

/-- Outside the mutex. -/
structure Outside (t : Tid) (hold : Option Held) (v : CacheView) : Prop where
  mu : v.mu ≠ some t
  owns : Owns t hold v

/-- Inside the mutex, with this index; the file of `gone` has been deleted. -/
structure Inside (t : Tid) (hold : Option Held) (gone : Option Str) (idx : Index) (v : CacheView) :
    Prop where
  mu : v.mu = some t
  index : v.index = idx
  owns : Owns t hold v
  backed : ∀ h m, idx.chunks.lookup h = some m → m.size ≠ 0 → gone ≠ some h →
    (v.files.lookup h).isSome = true

/-- An entry of `h` with this size would do: it is exact, or `h` is owed. -/
structure Fits (h : Str) (size : Int64) (v : CacheView) : Prop where
  exact : ∀ b, v.files.lookup h = some b → v.owed h = true ∨ size = Int64.ofInt b.length
  backed : size ≠ 0 → (v.files.lookup h).isSome = true

section Local

variable {t : Tid} {hold : Option Held} {gone : Option Str} {idx : Index} {v v' : CacheView}

theorem Owns.rely (ho : Owns t hold v) (hr : CacheRely t v v') : Owns t hold v' := by
  refine ⟨fun h => (hr.locks h).trans (ho.locks h), fun k hk => ?_⟩
  obtain ⟨howed, hfile⟩ := hr.mine k.hash ((ho.locks k.hash).mpr ⟨k, hk, rfl⟩)
  exact ⟨hfile.trans (ho.held k hk).1, howed.trans (ho.held k hk).2⟩

theorem Owns.locks_ne (ho : Owns t none v) (h : Str) : v.locks h ≠ some t := by
  intro hl
  obtain ⟨k, hk, -⟩ := (ho.locks h).mp hl
  contradiction

theorem Outside.rely (hf : Outside t hold v) (hr : CacheRely t v v') : Outside t hold v' :=
  ⟨fun hmu => hf.mu (hr.mu.mp hmu), hf.owns.rely hr⟩

/-- Files stay while the thread has the mutex. -/
theorem CacheRely.isSome (hr : CacheRely t v v') (hmu : v.mu = some t) {h : Str}
    (hh : (v.files.lookup h).isSome = true) : (v'.files.lookup h).isSome = true := by
  cases hr.files hmu h with
  | inl hsame => rwa [hsame]
  | inr hnew => exact hnew.1

theorem Inside.rely (hm : Inside t hold gone idx v) (hr : CacheRely t v v') :
    Inside t hold gone idx v' :=
  ⟨hr.mu.mpr hm.mu, (hr.index hm.mu).trans hm.index, hm.owns.rely hr,
    fun h m hlook hsize hg => hr.isSome hm.mu (hm.backed h m hlook hsize hg)⟩

theorem Fits.rely {h : Str} {size : Int64} (hp : Fits h size v) (hmu : v.mu = some t)
    (hr : CacheRely t v v') : Fits h size v' := by
  refine ⟨fun b hb => ?_, fun hsize => hr.isSome hmu (hp.backed hsize)⟩
  cases hr.files hmu h with
  | inl hsame =>
      rw [hsame] at hb
      exact (hp.exact b hb).imp_left (hr.owed hmu h)
  | inr hnew => exact .inl hnew.2

theorem Inside.backed_all (hm : Inside t hold none idx v) : Backed idx v.files :=
  fun h m hlook hsize => hm.backed h m hlook hsize (by simp)

/-- The size an entry has will do. -/
theorem Inside.fits (hm : Inside t hold none idx v) (hl : Ledger v) (h : Str) :
    Fits h (idx.entry h).size v := by
  refine ⟨fun b hb => ?_, hm.backed_all.entry⟩
  have hfiled := hl.filed h b hb
  rw [hm.index] at hfiled
  exact hfiled.imp_right Index.Exact.size

end Local

/-! ## Commands -/

section Commands

variable {t : Tid} {hold : Option Held} {gone : Option Str} {idx : Index} {α : Type}
variable {Q : α → Node × (Str → Bool) → Prop} {x : Node × (Str → Bool)}
variable {F : CacheView → Prop} {k : Unit → NodeM α}

/-- A command that leaves everything as it is. -/
theorem wp_leaves {c : Cmd} {k : c.Resp → NodeM α} (hc : ∀ r, c.leaves r = true)
    (ha : ∀ v : CacheView, v.About t c) (hF : ∀ v, CacheRely t (view x) v → F v)
    (hk : ∀ r x1 x2, ledgerSystem.exec t c r x1 = some x2 → view x2 = view x1 → F (view x2) →
      Ledger (view x2) → ledgerProtocol.wp t Q (k r) x2) :
    ledgerProtocol.wp t Q (@Prog.perform nodeSig c >>= k) x := by
  apply Protocol.wp_perform
  intro x1 hr hi
  refine ⟨ha _, fun r x2 hx hi' => ?_⟩
  have hsame : view x2 = view x1 := (cacheStep_of_exec hx).eq_of_leaves (hc r)
  exact hk r x1 x2 hx hsame (hsame ▸ hF _ hr) hi'

theorem wp_lockQuota (hf : Outside t hold (view x))
    (hk : ∀ idx x', Inside t hold none idx (view x') → Ledger (view x') →
      ledgerProtocol.wp t Q (k ()) x') : ledgerProtocol.wp t Q (onQuota .lockQuota >>= k) x := by
  apply Protocol.wp_perform
  intro x1 hr hi
  refine ⟨trivial, fun r x2 hx hi' => hk (view x1).index x2 ?_ hi'⟩
  obtain ⟨hfree, hv⟩ := (cacheStep_of_exec hx).of_lockQuota
  have howns := (hf.rely hr).owns
  rw [hv]
  exact ⟨rfl, rfl, ⟨howns.locks, howns.held⟩, fun h m hlook hsize _ => hi.backed hfree h m hlook hsize⟩

theorem wp_unlockQuota (hm : Inside t hold none idx (view x))
    (hk : ∀ x', Outside t hold (view x') → ledgerProtocol.wp t Q (k ()) x') :
    ledgerProtocol.wp t Q (onQuota .unlockQuota >>= k) x := by
  apply Protocol.wp_perform
  intro x1 hr hi
  have hm1 := hm.rely hr
  refine ⟨⟨hm1.mu, hm1.index ▸ hm1.backed_all⟩, fun r x2 hx _ => hk x2 ?_⟩
  rw [(cacheStep_of_exec hx).of_unlockQuota]
  exact ⟨by simp, ⟨hm1.owns.locks, hm1.owns.held⟩⟩

theorem wp_getIndex {k : Index → NodeM α} (hm : Inside t hold gone idx (view x))
    (hF : ∀ v, CacheRely t (view x) v → F v)
    (hk : ∀ x', Inside t hold gone idx (view x') → F (view x') → Ledger (view x') →
      ledgerProtocol.wp t Q (k idx) x') : ledgerProtocol.wp t Q (onQuota .getIndex >>= k) x := by
  refine wp_leaves (F := fun v => Inside t hold gone idx v ∧ F v) (fun _ => rfl) (fun _ => trivial)
    (fun v hr => ⟨hm.rely hr, hF v hr⟩) fun r x1 x2 hx hsame ⟨hm2, hF2⟩ hi => ?_
  have hr : r = idx := by
    obtain ⟨-, -, hx, -⟩ := ledgerSystem_eq_some hx
    obtain ⟨q, hpart, -⟩ := nodeExec_quota hx
    by_cases hr : r = x1.1.quota.index
    · rw [hsame] at hm2
      exact hr.trans hm2.index
    · rw [execQuota, if_neg hr] at hpart
      contradiction
  rw [hr]
  exact hk x2 hm2 hF2 hi

/-- Writing the index to the file, and the other commands that only ask. -/
theorem wp_quotaLeaves {c : QuotaCmd} {k : c.Resp → NodeM α} (hc : ∀ r, (Cmd.quota c).leaves r = true)
    (ha : ∀ v : CacheView, v.About t (.quota c)) (hm : Inside t hold none idx (view x))
    (hk : ∀ r x', Inside t hold none idx (view x') → Ledger (view x') →
      ledgerProtocol.wp t Q (k r) x') :
    ledgerProtocol.wp t Q (onQuota c >>= k) x :=
  wp_leaves hc ha (fun _ hr => hm.rely hr) fun r _ x2 _ _ hm2 hi => hk r x2 hm2 hi

/-- Setting the index pays for what the thread has locked. -/
def Held.paid (k : Held) : Held := { k with owed := false }

theorem wp_setIndex {i : Index} (hm : Inside t hold gone idx (view x))
    (hF : ∀ v, CacheRely t (view x) v → F v)
    (hfiled : ∀ v, Inside t hold gone idx v → F v → Ledger v → ∀ h b, v.files.lookup h = some b →
      v.owed h = true ∧ v.locks h ≠ some t ∨ i.Exact h b)
    (hbacked : ∀ v, Inside t hold gone idx v → F v → Backed i v.files)
    (hk : ∀ x', Inside t (hold.map Held.paid) none i (view x') → Ledger (view x') →
      ledgerProtocol.wp t Q (k ()) x') : ledgerProtocol.wp t Q (onQuota (.setIndex i) >>= k) x := by
  apply Protocol.wp_perform
  intro x1 hr hi
  have hm1 := hm.rely hr
  have hF1 := hF _ hr
  refine ⟨⟨hm1.mu, hfiled _ hm1 hF1 hi⟩, fun r x2 hx hi' => hk x2 ?_ hi'⟩
  rw [(cacheStep_of_exec hx).of_setIndex]
  refine ⟨hm1.mu, rfl, ⟨fun h => ?_, fun k hk => ?_⟩, fun h m hlook hsize _ =>
    hbacked _ hm1 hF1 h m hlook hsize⟩
  · refine (hm1.owns.locks h).trans ?_
    cases hold with
    | none => simp
    | some k => simp [Held.paid]
  · obtain ⟨k', hk', rfl⟩ := Option.map_eq_some_iff.mp hk
    have hlock := (hm1.owns.locks k'.hash).mpr ⟨k', hk', rfl⟩
    exact ⟨(hm1.owns.held k' hk').1, by simp [Held.paid, hlock]⟩

/-- Setting one entry. -/
theorem wp_setEntry {h : Str} {m : ChunkMeta} (hm : Inside t none none idx (view x))
    (hfits : Fits h m.size (view x))
    (hk : ∀ x', Inside t none none (idx.setEntry h m) (view x') → Ledger (view x') →
      ledgerProtocol.wp t Q (k ()) x') :
    ledgerProtocol.wp t Q (onQuota (.setIndex (idx.setEntry h m)) >>= k) x := by
  refine wp_setIndex hm (fun v hr => hfits.rely hm.mu hr) (fun v hm hfits hl h' b hb => ?_)
    (fun v hm hfits => hm.backed_all.setEntry hfits.backed) hk
  have hlock := hm.owns.locks_ne h'
  by_cases hh : h' = h
  · rw [hh] at hb hlock ⊢
    exact (hfits.exact b hb).imp (⟨·, hlock⟩) Index.exact_setEntry
  · refine (hl.filed h' b hb).imp (⟨·, hlock⟩) fun hx => ?_
    rw [hm.index] at hx
    exact hx.of_lookup (AList.lookup_insert_ne hh)

/-- Setting the pins. -/
theorem wp_setPins {pins : AList fun _ : Str => List Str} (hm : Inside t none none idx (view x))
    (hk : ∀ x', Inside t none none { idx with pins := pins } (view x') → Ledger (view x') →
      ledgerProtocol.wp t Q (k ()) x') :
    ledgerProtocol.wp t Q (onQuota (.setIndex { idx with pins := pins }) >>= k) x := by
  refine wp_setIndex (F := fun _ => True) hm (fun _ _ => trivial) (fun v hm _ hl h b hb => ?_)
    (fun v hm _ => hm.backed_all) hk
  refine (hl.filed h b hb).imp (⟨·, hm.owns.locks_ne h⟩) fun hx => ?_
  rw [hm.index] at hx
  exact hx.of_lookup rfl

/-- The size of a committed chunk, where `stat` works. -/
theorem wp_statChunk {h : Str} {k : Stat → NodeM α} (hF : ∀ v, CacheRely t (view x) v → F v)
    (hsize : ∀ b x', F (view x') → Ledger (view x') → (view x').files.lookup h = some b →
      ledgerProtocol.wp t Q (k (.size b.length)) x')
    (habsent : ∀ x', F (view x') → Ledger (view x') → (view x').files.lookup h = none →
      ledgerProtocol.wp t Q (k .absent) x') :
    ledgerProtocol.wp t Q (onStore (.statChunk h) >>= k) x := by
  refine wp_leaves (F := F) (fun _ => rfl) (fun _ => trivial) hF fun r x1 x2 hx hsame hF2 hi => ?_
  have hfiles : (view x2).files = x1.1.store.chunks := by
    rw [hsame]
    rfl
  obtain ⟨-, hstat, hx, -⟩ := ledgerSystem_eq_some hx
  obtain ⟨y, hpart, -⟩ := nodeExec_store hx
  cases r with
  | failed m => contradiction
  | absent =>
      by_cases hnone : x1.1.store.chunks.lookup h = none
      · exact habsent x2 hF2 hi (hfiles ▸ hnone)
      · rw [execStore, if_neg hnone] at hpart
        contradiction
  | size n =>
      by_cases hlen : (x1.1.store.chunks.lookup h).map List.length = some n
      · obtain ⟨b, hb, rfl⟩ := Option.map_eq_some_iff.mp hlen
        exact hsize b x2 hF2 hi (hfiles ▸ hb)
      · rw [execStore, if_neg hlen] at hpart
        contradiction

end Commands

/-! ## The operations of the manager -/

section Operations

variable {t : Tid} {hold : Option Held} {idx : Index} {α : Type}
variable {Q : α → Node × (Str → Bool) → Prop} {x : Node × (Str → Bool)}

/-- What a thread that is done knows. -/
theorem wp_outside {a : α} (hf : Outside t none (view x)) :
    ledgerProtocol.wp t (fun _ x => Outside t none (view x)) (pure a) x :=
  Protocol.wp_pure fun _ hr _ => hf.rely hr

/-- The end of an operation that writes the index. -/
theorem wp_save_unlock {f : Option Str → α} (hm : Inside t none none idx (view x)) :
    ledgerProtocol.wp t (fun _ x => Outside t none (view x))
      (do
        let err ← onQuota .saveIndex
        let () ← onQuota .unlockQuota
        pure (f err)) x := by
  refine wp_quotaLeaves (fun _ => rfl) (fun _ => trivial) hm fun err x1 hm1 _ => ?_
  exact wp_unlockQuota hm1 fun x2 hf => wp_outside hf

variable {h : Str} {k : Unit → NodeM α}

theorem wp_fillSizeLocked {m : ChunkMeta} {k : ChunkMeta → NodeM α}
    (hm : Inside t none none idx (view x)) (hl : Ledger (view x))
    (hsize : m.size = (idx.entry h).size)
    (hk : ∀ m' x', Inside t none none idx (view x') → Fits h m'.size (view x') →
      ledgerProtocol.wp t Q (k m') x') : ledgerProtocol.wp t Q (fillSizeLocked h m >>= k) x := by
  have hfits : Fits h m.size (view x) := hsize ▸ hm.fits hl h
  unfold fillSizeLocked
  split
  · exact hk m x hm hfits
  · unfold committedChunkSize
    split
    · exact hk m x hm hfits
    · rw [Prog.bind_assoc', Prog.bind_assoc']
      refine wp_statChunk (F := fun v => Inside t none none idx v ∧ Fits h m.size v)
        (fun v hr => ⟨hm.rely hr, hfits.rely hm.mu hr⟩) (fun b x' hF _ hb => ?_) fun x' hF _ hnone => ?_
      · refine hk _ x' hF.1 ⟨fun b' hb' => ?_, fun _ => ?_⟩
        · rw [hb, Option.some.injEq] at hb'
          exact .inr (by rw [← hb'])
        · rw [hb]
          rfl
      · exact hk m x' hF.1 hF.2

theorem wp_pinHashes {hs : List Str} (hm : Inside t none none idx (view x))
    (hk : ∀ idx' x', Inside t none none idx' (view x') → ledgerProtocol.wp t Q (k ()) x') :
    ledgerProtocol.wp t Q (pinHashes hs >>= k) x := by
  induction hs generalizing idx x with
  | nil => exact hk idx x hm
  | cons h hs ih =>
      rw [pinHashes, Prog.bind_assoc']
      refine wp_getIndex (F := fun _ => True) hm (fun _ _ => trivial) fun x1 hm1 _ hl => ?_
      rw [Prog.bind_assoc']
      refine wp_fillSizeLocked hm1 hl rfl fun m x2 hm2 hfits => ?_
      exact wp_setEntry hm2 hfits fun x3 hm3 _ => ih hm3

theorem wp_unpinHashes {hs : List Str} (hm : Inside t none none idx (view x))
    (hk : ∀ idx' x', Inside t none none idx' (view x') → ledgerProtocol.wp t Q (k ()) x') :
    ledgerProtocol.wp t Q (unpinHashes hs >>= k) x := by
  induction hs generalizing idx x with
  | nil => exact hk idx x hm
  | cons h hs ih =>
      rw [unpinHashes, Prog.bind_assoc']
      refine wp_getIndex (F := fun _ => True) hm (fun _ _ => trivial) fun x1 hm1 _ hl => ?_
      -- the count goes down, the size stays
      have hfits : Fits h (if (idx.entry h).refCount > 0 then
          { idx.entry h with refCount := (idx.entry h).refCount - 1 } else idx.entry h).size
          (view x1) := by
        split <;> exact hm1.fits hl h
      exact wp_setEntry hm1 hfits fun x2 hm2 _ => ih hm2

theorem wp_pin {m : ArtifactManifest} (hf : Outside t none (view x)) :
    ledgerProtocol.wp t (fun _ x => Outside t none (view x)) (pin m) x := by
  refine wp_lockQuota hf fun idx x1 hm1 _ => ?_
  refine wp_getIndex (F := fun _ => True) hm1 (fun _ _ => trivial) fun x2 hm2 _ _ => ?_
  by_cases hp : (idx.pins.lookup m.artifactID).isSome = true
  · simp only [if_pos hp]
    exact wp_save_unlock hm2
  · simp only [if_neg hp]
    refine wp_setPins hm2 fun x3 hm3 _ => ?_
    exact wp_pinHashes hm3 fun idx' x4 hm4 => wp_save_unlock hm4

theorem wp_unpin {id : Str} (hf : Outside t none (view x)) :
    ledgerProtocol.wp t (fun _ x => Outside t none (view x)) (unpin id) x := by
  refine wp_lockQuota hf fun idx x1 hm1 _ => ?_
  refine wp_getIndex (F := fun _ => True) hm1 (fun _ _ => trivial) fun x2 hm2 _ _ => ?_
  refine wp_setPins hm2 fun x3 hm3 _ => ?_
  exact wp_unpinHashes hm3 fun idx' x4 hm4 => wp_save_unlock hm4

/-- Deleting a chunk: its file is gone, and one that comes back is owed. -/
theorem wp_evictFile {k : Removal → NodeM α} (hm : Inside t none none idx (view x))
    (hgone : ∀ r x', (∀ msg, r ≠ .failed msg) → Inside t none (some h) idx (view x') →
      (view x').files.lookup h = none → ledgerProtocol.wp t Q (k r) x')
    (hfail : ∀ msg x', Inside t none none idx (view x') → ledgerProtocol.wp t Q (k (.failed msg)) x') :
    ledgerProtocol.wp t Q (deleteChunk h >>= k) x := by
  unfold deleteChunk
  split
  · exact hfail _ x hm
  · apply Protocol.wp_perform
    intro x1 hr hi
    have hm1 := hm.rely hr
    refine ⟨hm1.mu, fun r x2 hx _ => ?_⟩
    have hstep := cacheStep_of_exec hx
    have hkept : ∀ h' m, idx.chunks.lookup h' = some m → m.size ≠ 0 → some h ≠ some h' →
        ((view x1).files.erase h).lookup h' = (view x1).files.lookup h' := fun h' m _ _ hne =>
      AList.lookup_erase_ne fun he => hne (by rw [he])
    cases r with
    | removed =>
        have hv := hstep.of_delete
        refine hgone _ x2 (by simp) ?_ (by rw [hv]; exact AList.lookup_erase ..)
        rw [hv]
        refine ⟨hm1.mu, hm1.index, ⟨hm1.owns.locks, by simp⟩, fun h' m hlook hsize hne => ?_⟩
        have hold := hm1.backed h' m hlook hsize (by simp)
        rwa [← hkept h' m hlook hsize hne] at hold
    | absent =>
        have hv := hstep.eq_of_leaves rfl
        have hnone : (view x1).files.lookup h = none := by
          obtain ⟨-, -, hx, -⟩ := ledgerSystem_eq_some hx
          obtain ⟨y, hpart, -⟩ := nodeExec_store hx
          by_contra hsome
          have hsome : ¬ x1.1.store.chunks.lookup h = none := hsome
          rw [execStore, if_neg hsome] at hpart
          contradiction
        rw [← hv] at hm1 hnone
        exact hgone _ x2 (by simp)
          ⟨hm1.mu, hm1.index, hm1.owns, fun h' m hlook hsize _ => hm1.backed h' m hlook hsize (by simp)⟩
          hnone
    | failed msg =>
        rw [← hstep.eq_of_leaves rfl] at hm1
        exact hfail msg x2 hm1

/-- The file of a hash has gone; if it is back, it is owed. -/
def Vanished (h : Str) (v : CacheView) : Prop := ∀ b, v.files.lookup h = some b → v.owed h = true

theorem Vanished.rely {v v' : CacheView} (hg : Vanished h v) (hmu : v.mu = some t)
    (hr : CacheRely t v v') : Vanished h v' := by
  intro b hb
  cases hr.files hmu h with
  | inl hsame => exact hr.owed hmu h (hg b (hsame ▸ hb))
  | inr hnew => exact hnew.2

/-- Dropping the entry of a chunk that has been deleted. -/
theorem wp_dropEntry (hm : Inside t none (some h) idx (view x)) (hg : Vanished h (view x))
    (hk : ∀ idx' x', Inside t none none idx' (view x') → ledgerProtocol.wp t Q (k ()) x') :
    ledgerProtocol.wp t Q
      (onQuota (.setIndex { idx with chunks := idx.chunks.erase h }) >>= k) x := by
  refine wp_setIndex hm (fun v hr => hg.rely hm.mu hr) (fun v hm hg hl h' b hb => ?_)
    (fun v hm hg h' m hlook hsize => ?_) fun x' hm' _ => hk _ x' hm'
  · have hlock := hm.owns.locks_ne h'
    by_cases hh : h' = h
    · exact .inl ⟨hg b (hh ▸ hb) ▸ hh ▸ rfl, hlock⟩
    · refine (hl.filed h' b hb).imp (⟨·, hlock⟩) fun hx => ?_
      rw [hm.index] at hx
      exact hx.of_lookup (AList.lookup_erase_ne hh)
  · have hh : h' ≠ h := by
      rintro rfl
      rw [AList.lookup_erase] at hlook
      contradiction
    rw [AList.lookup_erase_ne hh] at hlook
    exact hm.backed h' m hlook hsize (by simpa using hh.symm)

theorem wp_evictLoop {target : Int64} {cs : List Candidate} {used : Int64} {n : Nat}
    {k : Nat → NodeM α} (hm : Inside t none none idx (view x))
    (hk : ∀ n idx' x', Inside t none none idx' (view x') → ledgerProtocol.wp t Q (k n) x') :
    ledgerProtocol.wp t Q (evictLoop target cs used n >>= k) x := by
  induction cs generalizing idx x used n with
  | nil => exact hk n idx x hm
  | cons c cs ih =>
      rw [evictLoop]
      by_cases hu : used ≤ target
      · rw [if_pos hu]
        exact hk n idx x hm
      · rw [if_neg hu, Prog.bind_assoc']
        refine wp_evictFile hm (fun r x1 hr hm1 hnone => ?_) fun msg x1 hm1 => ih hm1
        have hg : Vanished c.1 (view x1) := by
          intro b hb
          rw [hnone] at hb
          contradiction
        have hrest : ledgerProtocol.wp t Q
            ((do
              let idx ← onQuota .getIndex
              let () ← onQuota (.setIndex { idx with chunks := idx.chunks.erase c.1 })
              evictLoop target cs (used - c.2.size) (n + 1)) >>= k) x1 := by
          rw [Prog.bind_assoc']
          refine wp_getIndex hm1 (fun v hr => hg.rely hm1.mu hr) fun x2 hm2 hg2 _ => ?_
          exact wp_dropEntry hm2 hg2 fun idx' x3 hm3 => ih hm3
        cases r with
        | removed => exact hrest
        | absent => exact hrest
        | failed msg => exact absurd rfl (hr msg)

theorem wp_evict {w : Watermarks} (hf : Outside t none (view x)) :
    ledgerProtocol.wp t (fun _ x => Outside t none (view x)) (maybeEvict w) x := by
  refine wp_lockQuota hf fun idx x1 hm1 _ => ?_
  refine wp_getIndex (F := fun _ => True) hm1 (fun _ _ => trivial) fun x2 hm2 _ _ => ?_
  by_cases hu : idx.used < w.high
  · simp only [if_pos hu]
    exact wp_unlockQuota hm2 fun x3 hf3 => wp_outside hf3
  · simp only [if_neg hu]
    refine wp_quotaLeaves (fun _ => rfl) (fun _ => trivial) hm2 fun order x3 hm3 _ => ?_
    exact wp_evictLoop hm3 fun n idx' x4 hm4 => wp_save_unlock (f := fun _ => n) hm4

end Operations

/-! ## Commits -/

section Commits

variable {t : Tid} {hold : Option Held} {h : Str} {f : Option Bytes} {α : Type} {H : Sha256}
variable {Q : α → Node × (Str → Bool) → Prop} {x : Node × (Str → Bool)}

/-- A store command that leaves everything as it is. -/
theorem wp_storeLeaves {c : StoreCmd} {k : c.Resp → NodeM α} (hc : ∀ r, (Cmd.store c).leaves r = true)
    (ha : ∀ v : CacheView, v.About t (.store c)) (hf : Outside t hold (view x))
    (hk : ∀ r x', Outside t hold (view x') → ledgerProtocol.wp t Q (k r) x') :
    ledgerProtocol.wp t Q (onStore c >>= k) x :=
  wp_leaves hc ha (fun _ hr => hf.rely hr) fun r _ x2 _ _ hf2 _ => hk r x2 hf2

/-- The commands that work on the partial of `h`. -/
def Cmd.fills (h : Str) : Cmd → Prop
  | .store c => c.fills h = true
  | _ => False

/-- Working on the partial, then the rest. -/
theorem wp_fills {β : Type} {p : NodeM β} {k : β → NodeM α} (hp : p.Only (Cmd.fills h))
    (hf : Outside t hold (view x))
    (hk : ∀ a x', Outside t hold (view x') → ledgerProtocol.wp t Q (k a) x') :
    ledgerProtocol.wp t Q (p >>= k) x := by
  refine Protocol.wp_only_bind (F := fun x => Outside t hold (view x)) hp
    (fun _ _ hr hF => hF.rely hr) (fun c x1 hc _ _ => ?_) (fun c r x1 x2 hc hF _ hx => ?_) hf hk
  · cases c with
    | store c => cases c <;> first | contradiction | trivial
    | _ => contradiction
  · have hleaves : c.leaves r = true := by
      cases c with
      | store c => cases c <;> first | contradiction | rfl
      | _ => contradiction
    rw [(cacheStep_of_exec hx).eq_of_leaves hleaves]
    exact hF

/-- `Touch` of a chunk the thread has just put there. -/
theorem wp_touch {b : Bytes} {k : Unit → NodeM α} (hpos : Int64.ofInt b.length > 0)
    (hf : Outside t (some ⟨h, some b, true⟩) (view x))
    (hk : ∀ x', Outside t (some ⟨h, some b, false⟩) (view x') → ledgerProtocol.wp t Q (k ()) x') :
    ledgerProtocol.wp t Q (touch h (Int64.ofInt b.length) >>= k) x := by
  rw [touch, Prog.bind_assoc']
  refine wp_lockQuota hf fun idx x1 hm1 _ => ?_
  rw [Prog.bind_assoc']
  refine wp_getIndex (F := fun _ => True) hm1 (fun _ _ => trivial) fun x2 hm2 _ _ => ?_
  rw [Prog.bind_assoc']
  refine wp_quotaLeaves (fun _ => rfl) (fun _ => trivial) hm2 fun now x3 hm3 _ => ?_
  rw [Prog.bind_assoc', if_pos hpos]
  refine wp_setIndex (F := fun _ => True) hm3 (fun _ _ => trivial) (fun v hm _ hl h' b' hb => ?_)
    (fun v hm _ => ?_) fun x4 hm4 _ => ?_
  · by_cases hh : h' = h
    · -- the thread has the lock, so the file is still the one it committed
      have hfile : v.files.lookup h = some b := (hm.owns.held _ rfl).1
      rw [hh, hfile, Option.some.injEq] at hb
      rw [hh, ← hb]
      exact .inr (Index.exact_setEntry rfl)
    · have hlock : v.locks h' ≠ some t := by
        intro hl
        obtain ⟨k, hk, hkh⟩ := (hm.owns.locks h').mp hl
        rw [Option.some.injEq] at hk
        rw [← hk] at hkh
        exact hh hkh.symm
      refine (hl.filed h' b' hb).imp (⟨·, hlock⟩) fun hx => ?_
      rw [hm.index] at hx
      exact hx.of_lookup (AList.lookup_insert_ne hh)
  · refine hm.backed_all.setEntry fun _ => ?_
    rw [show v.files.lookup h = some b from (hm.owns.held _ rfl).1]
    rfl
  · rw [Prog.bind_assoc']
    refine wp_quotaLeaves (fun _ => rfl) (fun _ => trivial) hm4 fun _ x5 hm5 _ => ?_
    exact wp_unlockQuota hm5 hk

/-- The rename and the hook. -/
theorem wp_renamePartial {k : Option Str → NodeM α} (hf : Outside t (some ⟨h, f, false⟩) (view x))
    (hdone : ∀ b x', Int64.ofInt b.length > 0 → Outside t (some ⟨h, some b, true⟩) (view x') →
      ledgerProtocol.wp t Q (k none) x')
    (hfail : ∀ msg x', Outside t (some ⟨h, f, false⟩) (view x') →
      ledgerProtocol.wp t Q (k (some msg)) x') :
    ledgerProtocol.wp t Q (onStore (.renamePartial h) >>= k) x := by
  apply Protocol.wp_perform
  intro x1 hr hi
  have hf1 := hf.rely hr
  refine ⟨(hf1.owns.locks h).mpr ⟨_, rfl, rfl⟩, fun r x2 hx _ => ?_⟩
  have hstep := cacheStep_of_exec hx
  cases r with
  | none =>
      obtain ⟨b, hpos, hv⟩ := hstep.of_rename
      refine hdone b x2 hpos ?_
      rw [hv]
      refine ⟨hf1.mu, fun h' => ?_, fun k hk => ?_⟩
      · exact (hf1.owns.locks h').trans (by simp)
      · rw [← Option.some.inj hk]
        exact ⟨AList.lookup_insert .., Function.update_self ..⟩
  | some msg =>
      rw [← hstep.eq_of_leaves rfl] at hf1
      exact hfail msg x2 hf1

theorem wp_runTouch {b : Bytes} {k : Unit → NodeM α} (hpos : Int64.ofInt b.length > 0)
    (hf : Outside t (some ⟨h, some b, true⟩) (view x))
    (hk : ∀ x', Outside t (some ⟨h, some b, false⟩) (view x') → ledgerProtocol.wp t Q (k ()) x') :
    ledgerProtocol.wp t Q (runOnCommit touchOnCommit h >>= k) x := by
  simp only [runOnCommit, touchOnCommit]
  refine wp_statChunk (fun v hr => hf.rely hr) (fun b' x' hf' _ hb => ?_) fun x' hf' _ hnone => ?_
  · have hfile : (view x').files.lookup h = some b := (hf'.owns.held _ rfl).1
    rw [hfile, Option.some.injEq] at hb
    rw [← hb]
    exact wp_touch hpos hf' hk
  · have hfile : (view x').files.lookup h = some b := (hf'.owns.held _ rfl).1
    rw [hnone] at hfile
    contradiction

theorem wp_commit {k : Option Err → NodeM α} (hf : Outside t (some ⟨h, f, false⟩) (view x))
    (hk : ∀ r f' x', Outside t (some ⟨h, f', false⟩) (view x') → ledgerProtocol.wp t Q (k r) x') :
    ledgerProtocol.wp t Q (commitPartial H touchOnCommit h >>= k) x := by
  unfold commitPartial
  split
  · exact hk _ f x hf
  · rw [Prog.bind_assoc']
    refine wp_storeLeaves (fun _ => rfl) (fun _ => trivial) hf fun opened x1 hf1 => ?_
    cases opened with
    | some msg => exact hk _ f x1 hf1
    | none =>
        rw [Prog.bind_assoc']
        refine wp_storeLeaves (fun _ => rfl) (fun _ => trivial) hf1 fun read x2 hf2 => ?_
        cases read with
        | error msg => exact hk _ f x2 hf2
        | ok b =>
            by_cases hhash : computeHash H b ≠ h
            · simp only [if_pos hhash]
              refine wp_storeLeaves (fun _ => rfl) (fun _ => trivial) hf2 fun _ x3 hf3 => ?_
              exact hk _ f x3 hf3
            · simp only [if_neg hhash]
              rw [Prog.bind_assoc']
              refine wp_storeLeaves (fun _ => rfl) (fun _ => trivial) hf2 fun made x3 hf3 => ?_
              cases made with
              | some msg => exact hk _ f x3 hf3
              | none =>
                  rw [Prog.bind_assoc']
                  refine wp_renamePartial hf3 (fun b x4 hpos hf4 => ?_) fun msg x4 hf4 => hk _ f x4 hf4
                  rw [Prog.bind_assoc']
                  exact wp_runTouch hpos hf4 fun x5 hf5 => hk _ _ x5 hf5

/-- A lock section that leaves nothing owed. -/
theorem wp_hashSection {result : α → Option Err} {body : NodeM α} (hf : Outside t none (view x))
    (hbody : ∀ (f : Option Bytes) (k : α → NodeM α) x', Outside t (some ⟨h, f, false⟩) (view x') →
      (∀ a f' x'', Outside t (some ⟨h, f', false⟩) (view x'') →
        ledgerProtocol.wp t (fun _ x => Outside t none (view x)) (k a) x'') →
      ledgerProtocol.wp t (fun _ x => Outside t none (view x)) (body >>= k) x') :
    ledgerProtocol.wp t (fun _ x => Outside t none (view x)) (withHashLock h result body) x := by
  apply Protocol.wp_perform
  intro x1 hr hi
  have hf1 := hf.rely hr
  refine ⟨trivial, fun r x2 hx _ => ?_⟩
  obtain ⟨hfree, hv⟩ := (cacheStep_of_exec hx).of_lockHash
  have hlocked : Outside t (some ⟨h, (view x2).files.lookup h, false⟩) (view x2) := by
    rw [hv]
    refine ⟨hf1.mu, fun h' => ?_, fun k hk => ?_⟩
    · by_cases hh : h' = h
      · rw [hh]
        simp
      · simp only [Function.update_of_ne hh]
        refine (hf1.owns.locks h').trans ?_
        simp [Ne.symm hh]
    · rw [← Option.some.inj hk]
      refine ⟨rfl, ?_⟩
      -- what is owed is locked, and this hash was not
      by_contra howed
      obtain ⟨u, hu⟩ := hi.owed h (by simpa using howed)
      rw [hfree] at hu
      contradiction
  refine hbody _ _ x2 hlocked fun a f' x3 hf3 => ?_
  apply Protocol.wp_perform
  intro x4 hr4 _
  have hf4 := hf3.rely hr4
  refine ⟨⟨(hf4.owns.locks h).mpr ⟨_, rfl, rfl⟩, (hf4.owns.held _ rfl).2⟩, fun r x5 hx5 _ => ?_⟩
  refine wp_outside ?_
  rw [(cacheStep_of_exec hx5).of_unlockHash]
  refine ⟨hf4.mu, fun h' => ?_, by simp⟩
  by_cases hh : h' = h
  · rw [hh]
    simp
  · simp only [Function.update_of_ne hh]
    refine (hf4.owns.locks h').trans ?_
    simp [Ne.symm hh]

theorem wp_commitChunk (hf : Outside t none (view x)) :
    ledgerProtocol.wp t (fun _ x => Outside t none (view x))
      (withHashLock h id (commitPartial H touchOnCommit h)) x :=
  wp_hashSection hf fun _ _ _ hf1 hk => wp_commit hf1 hk

theorem wp_put {reads : List Bytes} {fin : Option RemoteErr} (hf : Outside t none (view x)) :
    ledgerProtocol.wp t (fun _ x => Outside t none (view x))
      (putChunkFromReader H touchOnCommit h reads fin) x := by
  refine wp_hashSection hf fun f k x1 hf1 hk => ?_
  have hdiscard : (discardPartial h).Only (Cmd.fills h) := only_discardPartial fun _ hc => hc
  rw [Prog.bind_assoc']
  refine wp_fills hdiscard hf1 fun discarded x2 hf2 => ?_
  cases discarded with
  | some e => exact hk _ f x2 hf2
  | none =>
      rw [Prog.bind_assoc']
      refine wp_fills (only_appendPartial (fun _ hc => hc) reads fin) hf2 fun (err, unread) x3 hf3 => ?_
      cases err with
      | some e =>
          rw [Prog.bind_assoc']
          exact wp_fills hdiscard hf3 fun _ x4 hf4 => hk _ f x4 hf4
      | none => exact wp_commit hf3 hk

end Commits

end Spider

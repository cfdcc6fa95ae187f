import Spider.Cache.Quota
import Spider.Lib.History
import Spider.Node.Rules

/-!
# Spider.Cache.Ledger

Chunk files and index entries under concurrent commits, pins and evictions.

A commit changes the file first and the index later, under another lock; an
eviction deletes the file first and drops the entry later.  `CacheView` is what
matters of a node for this, with a record of the commits that owe the index a
`Touch`, and `CacheStep` says everything a command can do to it.
`ledgerProtocol` is the discipline: the index is changed under its mutex, files
are added under their hash lock and deleted under the mutex, and a hash lock is
given back only when the index is not owed a `Touch` any more.

This holds of nodes on which no chunk is deleted while its hash is locked
(`steadily`), which `MaybeEvict` does not make sure of.
-/

namespace Spider

open Conc

/-- The file of `h` has an entry with its exact size. -/
def Index.Exact (i : Index) (h : Str) (b : Bytes) : Prop :=
  ∃ m, i.chunks.lookup h = some m ∧ m.size = Int64.ofInt b.length

/-- Every entry with a size has a file. -/
def Backed (i : Index) (files : AList fun _ : Str => Bytes) : Prop :=
  ∀ h m, i.chunks.lookup h = some m → m.size ≠ 0 → (files.lookup h).isSome

variable {h : Str} {i : Index} {files : AList fun _ : Str => Bytes}

theorem Index.Exact.of_lookup {i' : Index} {b : Bytes} (hx : i.Exact h b)
    (he : i'.chunks.lookup h = i.chunks.lookup h) : i'.Exact h b := by
  obtain ⟨m, hm, hsize⟩ := hx
  exact ⟨m, he.trans hm, hsize⟩

theorem Index.Exact.size {b : Bytes} (hx : i.Exact h b) :
    (i.entry h).size = Int64.ofInt b.length := by
  obtain ⟨m, hm, hsize⟩ := hx
  rw [Index.entry, hm]
  exact hsize

theorem Index.exact_setEntry {m : ChunkMeta} {b : Bytes} (hm : m.size = Int64.ofInt b.length) :
    (i.setEntry h m).Exact h b :=
  ⟨m, AList.lookup_insert .., hm⟩

theorem Backed.entry (hb : Backed i files) (hsize : (i.entry h).size ≠ 0) :
    (files.lookup h).isSome := by
  unfold Index.entry at hsize
  cases hm : i.chunks.lookup h with
  | none => simp [hm] at hsize
  | some m =>
      rw [hm] at hsize
      exact hb h m hm hsize

theorem Backed.setEntry (hb : Backed i files) {m : ChunkMeta}
    (hm : m.size ≠ 0 → (files.lookup h).isSome) : Backed (i.setEntry h m) files := by
  intro h' m' hm' hsize
  by_cases hh : h' = h
  · rw [hh, Index.setEntry, AList.lookup_insert, Option.some.injEq] at hm'
    rw [hh]
    exact hm (hm' ▸ hsize)
  · rw [Index.setEntry, AList.lookup_insert_ne hh] at hm'
    exact hb h' m' hm' hsize

/-! ## The system -/

/-- No chunk is deleted while its hash is locked, and what is committed is not
empty (the size is an `int64`). -/
def steadily (_ : Tid) (c : Cmd) (s : Node) : Bool :=
  match c with
  | .store (.deleteChunk h) => decide (s.store.locks h = none)
  | .store (.renamePartial h) =>
      match s.store.partials h with
      | some b => decide (Int64.ofInt b.length > 0)
      | none => true
  | _ => true

/-- Whether a response is one of a disk whose `stat` of a chunk works. -/
def statsChunks : (c : Cmd) → c.Resp → Bool
  | .store (.statChunk _), .failed _ => false
  | _, _ => true

def steadySystem : System nodeSig Node Tid := (nodeSystem.restrict statsChunks).guard steadily

/-- The commits that owe the index a `Touch`: a thread that sets the index has
paid for the hashes it has locked. -/
def noteCommit (t : Tid) (c : Cmd) (r : c.Resp) (s : Node) (owed : Str → Bool) : Str → Bool :=
  match c, r with
  | .store (.renamePartial h), none => Function.update owed h true
  | .quota (.setIndex _), _ => fun h => owed h && decide (s.store.locks h ≠ some t)
  | _, _ => owed

def ledgerSystem : System nodeSig (Node × (Str → Bool)) Tid := steadySystem.record noteCommit

/-- What matters of a node. -/
structure CacheView where
  files : AList fun _ : Str => Bytes
  locks : Str → Option Tid
  index : Index
  mu : Option Tid
  owed : Str → Bool

def view (x : Node × (Str → Bool)) : CacheView :=
  ⟨x.1.store.chunks, x.1.store.locks, x.1.quota.index, x.1.quota.mu, x.2⟩

/-- The commands and responses that change nothing that matters. -/
def Cmd.leaves : (c : Cmd) → c.Resp → Bool
  | .store (.lockHash _), _ | .store (.unlockHash _ _), _ => false
  | .store (.renamePartial _), none => false
  | .store (.deleteChunk _), .removed => false
  | .quota .lockQuota, _ | .quota .unlockQuota, _ | .quota (.setIndex _), _ => false
  | .quota .loadIndex, true => false
  | _, _ => true

/-- Everything a command can do. -/
inductive CacheStep (t : Tid) : (c : Cmd) → c.Resp → CacheView → CacheView → Prop
  | leave {c : Cmd} {r : c.Resp} {v : CacheView} (hc : c.leaves r = true) : CacheStep t c r v v
  | lockHash {h : Str} {v : CacheView} (hfree : v.locks h = none) :
      CacheStep t (.store (.lockHash h)) () v { v with locks := Function.update v.locks h (some t) }
  | unlockHash {h : Str} {res : Option Err} {v : CacheView} :
      CacheStep t (.store (.unlockHash h res)) () v { v with locks := Function.update v.locks h none }
  | rename {h : Str} {b : Bytes} {v : CacheView} (hpos : Int64.ofInt b.length > 0) :
      CacheStep t (.store (.renamePartial h)) none v
        { v with files := v.files.insert h b, owed := Function.update v.owed h true }
  | delete {h : Str} {v : CacheView} (hfree : v.locks h = none) :
      CacheStep t (.store (.deleteChunk h)) .removed v { v with files := v.files.erase h }
  | lockQuota {v : CacheView} (hfree : v.mu = none) :
      CacheStep t (.quota .lockQuota) () v { v with mu := some t }
  | unlockQuota {v : CacheView} : CacheStep t (.quota .unlockQuota) () v { v with mu := none }
  | setIndex {i : Index} {v : CacheView} :
      CacheStep t (.quota (.setIndex i)) () v
        { v with index := i, owed := fun h => v.owed h && decide (v.locks h ≠ some t) }
  | loadIndex {i : Index} {v : CacheView} :
      CacheStep t (.quota .loadIndex) true v { v with index := i }

theorem CacheStep.eq_of_leaves {t : Tid} {c : Cmd} {r : c.Resp} {v v' : CacheView}
    (hs : CacheStep t c r v v') (hc : c.leaves r = true) : v' = v := by
  cases hs with
  | leave => rfl
  | _ => exact absurd hc (by simp [Cmd.leaves])

section Inversion

variable {t : Tid} {v v' : CacheView}
variable {r : Unit} {h : Str}

theorem CacheStep.of_lockQuota (hs : CacheStep t (.quota .lockQuota) r v v') :
    v.mu = none ∧ v' = { v with mu := some t } := by
  cases hs with
  | leave hc => contradiction
  | lockQuota hfree => exact ⟨hfree, rfl⟩

theorem CacheStep.of_unlockQuota (hs : CacheStep t (.quota .unlockQuota) r v v') :
    v' = { v with mu := none } := by
  cases hs with
  | leave hc => contradiction
  | unlockQuota => rfl

theorem CacheStep.of_setIndex {i : Index} (hs : CacheStep t (.quota (.setIndex i)) r v v') :
    v' = { v with index := i, owed := fun h => v.owed h && decide (v.locks h ≠ some t) } := by
  cases hs with
  | leave hc => contradiction
  | setIndex => rfl

theorem CacheStep.of_lockHash (hs : CacheStep t (.store (.lockHash h)) r v v') :
    v.locks h = none ∧ v' = { v with locks := Function.update v.locks h (some t) } := by
  cases hs with
  | leave hc => contradiction
  | lockHash hfree => exact ⟨hfree, rfl⟩

theorem CacheStep.of_unlockHash {res : Option Err}
    (hs : CacheStep t (.store (.unlockHash h res)) r v v') :
    v' = { v with locks := Function.update v.locks h none } := by
  cases hs with
  | leave hc => contradiction
  | unlockHash => rfl

theorem CacheStep.of_rename (hs : CacheStep t (.store (.renamePartial h)) none v v') :
    ∃ b : Bytes, Int64.ofInt b.length > 0 ∧
      v' = { v with files := v.files.insert h b, owed := Function.update v.owed h true } := by
  cases hs with
  | leave hc => contradiction
  | @rename _ b _ hpos => exact ⟨b, hpos, rfl⟩

theorem CacheStep.of_delete (hs : CacheStep t (.store (.deleteChunk h)) .removed v v') :
    v' = { v with files := v.files.erase h } := by
  cases hs with
  | leave hc => contradiction
  | delete hfree => rfl

end Inversion

section Steps

variable {t : Tid} {x x' : Node × (Str → Bool)} {c : Cmd} {r : c.Resp}

theorem ledgerSystem_eq_some (hx : ledgerSystem.exec t c r x = some x') :
    steadily t c x.1 = true ∧ statsChunks c r = true ∧ nodeSystem.exec t c r x.1 = some x'.1 ∧
      x'.2 = noteCommit t c r x.1 x.2 := by
  obtain ⟨hx, hnote⟩ := System.record_eq_some hx
  obtain ⟨hsteady, hx⟩ := System.guard_eq_some hx
  obtain ⟨hstat, hx⟩ := System.restrict_eq_some hx
  exact ⟨hsteady, hstat, hx, hnote⟩

theorem cacheStep_store {c : StoreCmd} {r : c.Resp} {s : Node} {o : Str → Bool} {y : Store}
    (hsteady : steadily t (.store c) s = true) (hx : execStore t c r s.store = some y) :
    CacheStep t (.store c) r (view (s, o))
      (view ({ s with store := y }, noteCommit t (.store c) r s o)) := by
  -- most commands keep the chunks, the locks and the record
  have hkeep (hc : (Cmd.store c).leaves r = true) (hnote : noteCommit t (.store c) r s o = o)
      (hchunks : y.chunks = s.store.chunks) (hlocks : y.locks = s.store.locks) :
      CacheStep t (.store c) r (view (s, o))
        (view ({ s with store := y }, noteCommit t (.store c) r s o)) := by
    rw [hnote, view, view, hchunks, hlocks]
    exact .leave hc
  cases c with
  | lockHash h =>
      obtain ⟨hfree, ⟨⟩⟩ := Option.ite_none_right_eq_some.mp hx
      exact .lockHash hfree
  | unlockHash h res =>
      cases hx
      exact .unlockHash
  | renamePartial h =>
      cases r with
      | some m =>
          cases hx
          exact hkeep rfl rfl rfl rfl
      | none =>
          simp only [execStore] at hx
          split at hx
          · rename_i b hb
            cases hx
            simp only [steadily, hb, decide_eq_true_eq] at hsteady
            exact .rename hsteady
          · contradiction
  | deleteChunk h =>
      cases r with
      | removed =>
          obtain ⟨-, ⟨⟩⟩ := Option.ite_none_right_eq_some.mp hx
          exact .delete (of_decide_eq_true hsteady)
      | absent =>
          obtain ⟨-, ⟨⟩⟩ := Option.ite_none_right_eq_some.mp hx
          exact hkeep rfl rfl rfl rfl
      | failed m =>
          cases hx
          exact hkeep rfl rfl rfl rfl
  | removePartial h | openPartial h =>
      have hsame : y.chunks = s.store.chunks ∧ y.locks = s.store.locks := by
        cases r <;> simp only [execStore] at hx <;> grind [Store.setPartial]
      exact hkeep rfl rfl hsame.1 hsame.2
  | writePartial h b =>
      have happend : ∀ d, (s.store.appendTo h d).chunks = s.store.chunks ∧
          (s.store.appendTo h d).locks = s.store.locks := by
        intro d
        unfold Store.appendTo
        split <;> exact ⟨rfl, rfl⟩
      have hsame : y.chunks = s.store.chunks ∧ y.locks = s.store.locks := by
        cases r <;> simp only [execStore] at hx <;> grind
      exact hkeep rfl rfl hsame.1 hsame.2
  | _ =>
      have hsame := execStore_asks rfl hx
      exact hkeep rfl rfl (by rw [hsame]) (by rw [hsame])

theorem cacheStep_quota {c : QuotaCmd} {r : c.Resp} {s : Node} {o : Str → Bool} {q : Quota}
    (hx : execQuota t c r s.quota = some q) :
    CacheStep t (.quota c) r (view (s, o))
      (view ({ s with quota := q }, noteCommit t (.quota c) r s o)) := by
  have hkeep (hc : (Cmd.quota c).leaves r = true) (hnote : noteCommit t (.quota c) r s o = o)
      (hindex : q.index = s.quota.index) (hmu : q.mu = s.quota.mu) :
      CacheStep t (.quota c) r (view (s, o))
        (view ({ s with quota := q }, noteCommit t (.quota c) r s o)) := by
    rw [hnote, view, view, hindex, hmu]
    exact .leave hc
  cases c with
  | lockQuota =>
      obtain ⟨hfree, ⟨⟩⟩ := Option.ite_none_right_eq_some.mp hx
      exact .lockQuota hfree
  | unlockQuota =>
      cases hx
      exact .unlockQuota
  | setIndex i =>
      cases hx
      exact .setIndex
  | loadIndex =>
      cases r with
      | false =>
          cases hx
          exact hkeep rfl rfl rfl rfl
      | true =>
          simp only [execQuota] at hx
          split at hx
          · cases hx; exact .loadIndex
          · contradiction
  | saveIndex =>
      cases r <;> simp only [execQuota] at hx <;> cases hx <;> exact hkeep rfl rfl rfl rfl
  | markDirty | now =>
      cases hx
      exact hkeep rfl rfl rfl rfl
  | getIndex | getDirty | orderByAccess =>
      obtain ⟨-, ⟨⟩⟩ := Option.ite_none_right_eq_some.mp hx
      exact hkeep rfl rfl rfl rfl

/-- Everything a step can do. -/
theorem cacheStep_of_exec (hx : ledgerSystem.exec t c r x = some x') :
    CacheStep t c r (view x) (view x') := by
  obtain ⟨hsteady, -, hx, hnote⟩ := ledgerSystem_eq_some hx
  obtain ⟨s', o'⟩ := x'
  simp only at hx hnote
  rw [hnote]
  cases c with
  | store c =>
      obtain ⟨y, hpart, rfl⟩ := nodeExec_store hx
      exact cacheStep_store hsteady hpart
  | quota c =>
      obtain ⟨q, hpart, rfl⟩ := nodeExec_quota hx
      exact cacheStep_quota hpart
  | job c => obtain ⟨y, -, rfl⟩ := nodeExec_job hx; exact .leave rfl
  | net c => obtain ⟨y, -, rfl⟩ := nodeExec_net hx; exact .leave rfl
  | dest c => obtain ⟨y, -, rfl⟩ := nodeExec_dest hx; exact .leave rfl
  | link p q => obtain ⟨y, -, rfl⟩ := nodeExec_link hx; exact .leave rfl

end Steps

/-! ## The discipline -/

/-- Every file is accounted for in the index, or owed. -/
structure Ledger (v : CacheView) : Prop where
  filed : ∀ h b, v.files.lookup h = some b → v.owed h = true ∨ v.index.Exact h b
  backed : v.mu = none → Backed v.index v.files
  owed : ∀ h, v.owed h = true → ∃ t, v.locks h = some t

/-- What a thread must have made sure of before a command. -/
def CacheView.About (v : CacheView) (t : Tid) : Cmd → Prop
  | .store (.unlockHash h _) => v.locks h = some t ∧ v.owed h = false
  | .store (.renamePartial h) => v.locks h = some t
  | .store (.deleteChunk _) => v.mu = some t
  | .quota .unlockQuota => v.mu = some t ∧ Backed v.index v.files
  | .quota (.setIndex i) => v.mu = some t ∧ ∀ h b, v.files.lookup h = some b →
      v.owed h = true ∧ v.locks h ≠ some t ∨ i.Exact h b
  | .quota .loadIndex => False
  | _ => True

/-- What the other threads leave a thread: what it has locked, and, while it has
the mutex, the index and every file; a file that is put there then is owed. -/
structure CacheRely (t : Tid) (v v' : CacheView) : Prop where
  mu : v'.mu = some t ↔ v.mu = some t
  locks : ∀ h, v'.locks h = some t ↔ v.locks h = some t
  index : v.mu = some t → v'.index = v.index
  files : v.mu = some t → ∀ h, v'.files.lookup h = v.files.lookup h ∨
    (v'.files.lookup h).isSome = true ∧ v'.owed h = true
  owed : v.mu = some t → ∀ h, v.owed h = true → v'.owed h = true
  mine : ∀ h, v.locks h = some t →
    v'.owed h = v.owed h ∧ v'.files.lookup h = v.files.lookup h

theorem CacheRely.refl (t : Tid) (v : CacheView) : CacheRely t v v :=
  ⟨.rfl, fun _ => .rfl, fun _ => rfl, fun _ _ => .inl rfl, fun _ _ => id, fun _ _ => ⟨rfl, rfl⟩⟩

theorem CacheRely.trans {t : Tid} {v1 v2 v3 : CacheView} (h1 : CacheRely t v1 v2)
    (h2 : CacheRely t v2 v3) : CacheRely t v1 v3 := by
  refine ⟨h2.mu.trans h1.mu, fun h => (h2.locks h).trans (h1.locks h), fun hmu => ?_,
    fun hmu h => ?_, fun hmu h ho => ?_, fun h hl => ?_⟩
  · exact (h2.index (h1.mu.mpr hmu)).trans (h1.index hmu)
  · have hmu2 := h1.mu.mpr hmu
    cases h2.files hmu2 h with
    | inr hnew => exact .inr hnew
    | inl hsame =>
        cases h1.files hmu h with
        | inl hsame1 => exact .inl (hsame.trans hsame1)
        | inr hnew => exact .inr ⟨hsame ▸ hnew.1, h2.owed hmu2 h hnew.2⟩
  · exact h2.owed (h1.mu.mpr hmu) h (h1.owed hmu h ho)
  · obtain ⟨ho1, hf1⟩ := h1.mine h hl
    obtain ⟨ho2, hf2⟩ := h2.mine h ((h1.locks h).mpr hl)
    exact ⟨ho2.trans ho1, hf2.trans hf1⟩

section Discipline

variable {t t' : Tid} {v v' : CacheView} {c : Cmd} {r : c.Resp}

theorem Ledger.step (hl : Ledger v) (ha : v.About t c) (hs : CacheStep t c r v v') : Ledger v' := by
  cases hs with
  | leave hc => exact hl
  | @lockHash h v hfree =>
      refine ⟨hl.filed, hl.backed, fun h' ho => ?_⟩
      by_cases hh : h' = h
      · exact ⟨t, by rw [hh]; exact Function.update_self ..⟩
      · obtain ⟨u, hu⟩ := hl.owed h' ho
        exact ⟨u, (Function.update_of_ne hh _ _).trans hu⟩
  | @unlockHash h res v =>
      refine ⟨hl.filed, hl.backed, fun h' ho => ?_⟩
      have hh : h' ≠ h := by
        rintro rfl
        exact absurd (ha.2.symm.trans ho) (by simp)
      obtain ⟨u, hu⟩ := hl.owed h' ho
      exact ⟨u, (Function.update_of_ne hh _ _).trans hu⟩
  | @rename h b v hpos =>
      refine ⟨fun h' b' hb => ?_, fun hmu h' m hm hsize => ?_, fun h' ho => ?_⟩
      · by_cases hh : h' = h
        · exact .inl (by rw [hh]; exact Function.update_self ..)
        · rw [AList.lookup_insert_ne hh] at hb
          exact (hl.filed h' b' hb).imp_left (Function.update_of_ne hh _ _).trans
      · by_cases hh : h' = h
        · rw [hh, AList.lookup_insert]
          rfl
        · rw [AList.lookup_insert_ne hh]
          exact hl.backed hmu h' m hm hsize
      · by_cases hh : h' = h
        · exact ⟨t, hh ▸ ha⟩
        · exact hl.owed h' ((Function.update_of_ne hh _ _).symm.trans ho)
  | @delete h v hfree =>
      refine ⟨fun h' b hb => ?_, fun hmu => ?_, hl.owed⟩
      · by_cases hh : h' = h
        · rw [hh, AList.lookup_erase] at hb
          contradiction
        · rw [AList.lookup_erase_ne hh] at hb
          exact hl.filed h' b hb
      · exact absurd (ha.symm.trans hmu) (by simp)
  | lockQuota hfree => exact ⟨hl.filed, fun hmu => (nomatch hmu), hl.owed⟩
  | unlockQuota => exact ⟨hl.filed, fun _ => ha.2, hl.owed⟩
  | @setIndex i v =>
      refine ⟨fun h b hb => ?_, fun hmu => ?_, fun h ho => ?_⟩
      · cases ha.2 h b hb with
        | inl howed => exact .inl (by simp [howed])
        | inr hexact => exact .inr hexact
      · exact absurd (ha.1.symm.trans hmu) (by simp)
      · rw [Bool.and_eq_true] at ho
        exact hl.owed h ho.1
  | loadIndex => exact absurd ha id

theorem CacheRely.step (ha : v.About t c) (hs : CacheStep t c r v v') (ht : t' ≠ t) :
    CacheRely t' v v' := by
  have hne : ∀ o : Option Tid, o = some t → o ≠ some t' := by
    rintro o rfl he
    exact ht (Option.some.inj he).symm
  have hrefl := CacheRely.refl t' v
  cases hs with
  | leave hc => exact hrefl
  | @lockHash h v hfree =>
      refine { hrefl with locks := fun h' => ?_ }
      by_cases hh : h' = h
      · rw [hh, hfree]
        simp [ht.symm]
      · simp [Function.update_of_ne hh]
  | @unlockHash h res v =>
      refine { hrefl with locks := fun h' => ?_ }
      by_cases hh : h' = h
      · rw [hh, ha.1]
        simp [ht.symm]
      · simp [Function.update_of_ne hh]
  | @rename h b v hpos =>
      refine { hrefl with
        files := fun _ h' => ?_
        owed := fun _ h' ho => ?_
        mine := fun h' hl => ?_ }
      · by_cases hh : h' = h
        · rw [hh]
          exact .inr ⟨by simp, Function.update_self ..⟩
        · exact .inl (AList.lookup_insert_ne hh)
      · by_cases hh : h' = h
        · rw [hh]
          exact Function.update_self ..
        · exact (Function.update_of_ne hh _ _).trans ho
      · have hh : h' ≠ h := fun he => hne _ ha (he ▸ hl)
        exact ⟨Function.update_of_ne hh _ _, AList.lookup_insert_ne hh⟩
  | @delete h v hfree =>
      refine { hrefl with
        files := fun hmu => absurd hmu (hne _ ha)
        mine := fun h' hl => ⟨rfl, AList.lookup_erase_ne ?_⟩ }
      rintro rfl
      rw [hfree] at hl
      contradiction
  | lockQuota hfree =>
      have hmu : v.mu ≠ some t' := by
        rw [hfree]
        simp
      exact { hrefl with mu := by simp [hmu, ht.symm] }
  | unlockQuota => exact { hrefl with mu := by simp [hne _ ha.1] }
  | @setIndex i v =>
      refine { hrefl with
        index := fun hmu => absurd hmu (hne _ ha.1)
        files := fun _ _ => .inl rfl
        owed := fun hmu => absurd hmu (hne _ ha.1)
        mine := fun h hl => ⟨by simp [hl, ht], rfl⟩ }
  | loadIndex => exact absurd ha id

end Discipline

/-- Threads that keep to the discipline. -/
def ledgerProtocol : Protocol ledgerSystem where
  Inv x := Ledger (view x)
  rely t x x' := CacheRely t (view x) (view x')
  about t c x := (view x).About t c
  rely_refl t x := .refl t (view x)
  rely_trans h₁ h₂ := h₁.trans h₂
  step_inv hi ha hx := hi.step ha (cacheStep_of_exec hx)
  step_rely _ ha hx ht := .step ha (cacheStep_of_exec hx) ht

end Spider

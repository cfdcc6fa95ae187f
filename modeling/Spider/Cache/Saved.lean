import Spider.Cache.Pins

/-!
# Spider.Cache.Saved

The dirty flag and `index.json`.

`Touch` marks the index dirty and leaves the write to a later `Flush`; `Pin`,
`Unpin` and `MaybeEvict` write at once and leave the flag as it is when the
write fails.  A clear flag therefore means that the file holds the index only
as long as no write of theirs fails while the flag is clear
(`clean_index_saved`).
-/

namespace Spider

open Conc

/-- `Close`; stopping the background flusher leaves the index alone. -/
def close : NodeM (Option Str) := flush

/-- A process that starts on what an earlier one left on disk. -/
def Node.restarted (s : Node) : Node :=
  { s with
    store := { s.store with locks := fun _ => none, inserted := fun _ => false
                            removeFailed := fun _ => false }
    quota := ⟨Index.empty, s.quota.saved, false, none⟩ }

/-- If the flag is clear, the file holds the index. -/
def CleanSaved (s : Node) : Prop := s.quota.dirty = false → s.quota.saved = some s.quota.index

theorem CleanSaved.of_dirty {s : Node} (h : s.quota.dirty = true) : CleanSaved s := by
  intro hclean
  rw [h] at hclean
  contradiction

/-! ## Disks -/

/-- Whether a response is one of a disk that writes `index.json` when asked to. -/
def writesIndex : (c : Cmd) → c.Resp → Bool
  | .quota .saveIndex, some _ => false
  | _, _ => true

/-- Whether a response is one of a disk that also lists the chunks. -/
def opensIndex : (c : Cmd) → c.Resp → Bool
  | .quota .saveIndex, some _ => false
  | .store .listChunks, none => false
  | _, _ => true

/-- Whether a response is one of a disk that reads `index.json` when asked to. -/
def readsIndex : (c : Cmd) → c.Resp → Bool
  | .quota .loadIndex, false => false
  | _, _ => true

/-- A node whose writes of `index.json` may fail only while the index is marked
dirty anyway. -/
def Node.disk (s : Node) : System nodeSig Node Tid :=
  if s.quota.dirty then nodeSystem else nodeSystem.restrict writesIndex

/-! ## The save at the end of an operation -/

section Save

variable {t : Tid} {s : Node} {M : System nodeSig Node Tid}

/-- A failing write does not go unnoticed: none fails, or the index is dirty. -/
def Noticed (M : System nodeSig Node Tid) (s : Node) : Prop :=
  M = nodeSystem.restrict writesIndex ∨ M = nodeSystem ∧ s.quota.dirty = true

theorem noticed_disk (s : Node) : Noticed s.disk s := by
  unfold Node.disk
  by_cases hd : s.quota.dirty = true
  · rw [if_pos hd]
    exact .inr ⟨rfl, hd⟩
  · rw [if_neg hd]
    exact .inl rfl

/-- Every command but a save. -/
def Cmd.unsaving : Cmd → Prop
  | .quota .saveIndex => False
  | _ => True

theorem dirty_execQuota {c : QuotaCmd} {r : c.Resp} {q q' : Quota} (hc : c ≠ .saveIndex)
    (hx : execQuota t c r q = some q') (hd : q.dirty = true) : q'.dirty = true := by
  unfold execQuota at hx
  split at hx <;> grind

variable {s' : Node}

theorem dirty_of_unsaving {c : Cmd} {r : c.Resp} (hc : c.unsaving)
    (hx : nodeSystem.exec t c r s = some s') (hd : s.quota.dirty = true) :
    s'.quota.dirty = true := by
  cases c with
  | quota c =>
      obtain ⟨x, hpart, rfl⟩ := nodeExec_quota hx
      refine dirty_execQuota (fun he => ?_) hpart hd
      rw [he] at hc
      exact hc
  | _ => rwa [(nodeExec_frame hx).2.1 (by simp)]

theorem Noticed.step {c : Cmd} {r : c.Resp} (hc : c.unsaving) (hn : Noticed M s)
    (hx : M.exec t c r s = some s') : Noticed M s' := by
  cases hn with
  | inl hM => exact .inl hM
  | inr hM =>
      obtain ⟨rfl, hd⟩ := hM
      exact .inr ⟨rfl, dirty_of_unsaving hc hx hd⟩

/-- A first command that does not save. -/
theorem Noticed.post_quota {α : Type} {Q : α → Node → Prop} {c : QuotaCmd} {k : c.Resp → NodeM α}
    (hc : c ≠ .saveIndex) (hn : Noticed M s)
    (h : ∀ r s', M.exec t (.quota c) r s = some s' → Noticed M s' → Post M t Q (k r) s') :
    Post M t Q (onQuota c >>= k) s := by
  intro r s' hx
  have hunsaving : Cmd.unsaving (.quota c) := by
    cases c <;> first | contradiction | trivial
  exact h r s' hx (hn.step hunsaving hx)

theorem post_noticed {α : Type} {p : NodeM α} (hp : p.Only Cmd.unsaving) (hn : Noticed M s) :
    Post M t (fun _ s' => Noticed M s') p s :=
  hp.post (fun _ _ _ _ hc hF hx => hF.step hc hx) hn

theorem Noticed.exec {c : Cmd} {r : c.Resp} {s1 s2 : Node} (hn : Noticed M s)
    (hx : M.exec t c r s1 = some s2) : nodeSystem.exec t c r s1 = some s2 := by
  cases hn with
  | inl hM =>
      rw [hM] at hx
      exact (System.restrict_eq_some hx).2
  | inr hM =>
      rw [hM.1] at hx
      exact hx

/-- After a save that does not fail unnoticed, a clear flag means what it says. -/
theorem CleanSaved.of_save {r : Option Str} (hn : Noticed M s)
    (hx : M.exec t (.quota .saveIndex) r s = some s') : CleanSaved s' := by
  obtain ⟨x, hpart, rfl⟩ := nodeExec_quota (hn.exec hx)
  cases r with
  | none =>
      rw [execQuota, Option.some.injEq] at hpart
      intro _
      rw [← hpart]
  | some e =>
      rw [execQuota, Option.some.injEq] at hpart
      cases hn with
      | inl hM =>
          rw [hM] at hx
          exact absurd (System.restrict_eq_some hx).1 (by simp [writesIndex])
      | inr hM =>
          rw [← hpart]
          exact .of_dirty hM.2

/-- Unlocking changes neither the index nor the file. -/
theorem CleanSaved.of_unlock {r : Unit} (hc : CleanSaved s)
    (hx : nodeSystem.exec t (.quota .unlockQuota) r s = some s') : CleanSaved s' := by
  obtain ⟨x, hpart, rfl⟩ := nodeExec_quota hx
  rw [execQuota, Option.some.injEq] at hpart
  rw [← hpart]
  exact hc

/-- The end of an operation that writes at once. -/
theorem post_save_noticed {α : Type} {f : Option Str → α} (hn : Noticed M s) :
    Post M t (fun _ s' => CleanSaved s')
      (do
        let err ← onQuota .saveIndex
        let () ← onQuota .unlockQuota
        pure (f err)) s := by
  intro r s1 hsave r' s2 hunlock
  exact (CleanSaved.of_save hn hsave).of_unlock (hn.exec hunlock)

end Save

/-! ## The operations -/

section Operations

variable {t : Tid} {s : Node} {M : System nodeSig Node Tid}

theorem post_pin_saved {m : ArtifactManifest} (hn : Noticed M s) :
    Post M t (fun _ s' => CleanSaved s') (pin m) s := by
  refine hn.post_quota (by simp) fun _ s1 _ hn1 => ?_
  refine hn1.post_quota (by simp) fun idx s2 _ hn2 => ?_
  by_cases hp : (idx.pins.lookup m.artifactID).isSome = true
  · simp only [if_pos hp]
    exact post_save_noticed hn2
  · simp only [if_neg hp]
    refine hn2.post_quota (by simp) fun _ s3 _ hn3 => ?_
    have hloop := post_noticed (t := t)
      (only_pinHashes trivial (fun _ => trivial) (fun _ => trivial) (allChunkHashes m)) hn3
    exact hloop.seq fun _ s' hn' => post_save_noticed hn'

theorem post_unpin_saved {id : Str} (hn : Noticed M s) :
    Post M t (fun _ s' => CleanSaved s') (unpin id) s := by
  refine hn.post_quota (by simp) fun _ s1 _ hn1 => ?_
  refine hn1.post_quota (by simp) fun idx s2 _ hn2 => ?_
  refine hn2.post_quota (by simp) fun _ s3 _ hn3 => ?_
  have hloop := post_noticed (t := t)
    (only_unpinHashes trivial (fun _ => trivial) ((idx.pins.lookup id).getD [])) hn3
  exact hloop.seq fun _ s' hn' => post_save_noticed hn'

theorem post_maybeEvict_saved {w : Watermarks} (hn : Noticed M s) (hc : CleanSaved s) :
    Post M t (fun _ s' => CleanSaved s') (maybeEvict w) s := by
  refine hn.post_quota (by simp) fun _ s1 hlock hn1 => ?_
  refine hn1.post_quota (by simp) fun idx s2 hget hn2 => ?_
  by_cases hu : idx.used < w.high
  · simp only [if_pos hu]
    refine hn2.post_quota (by simp) fun _ s3 hunlock _ => ?_
    -- nothing has been changed but the mutex
    obtain ⟨q1, hq1, rfl⟩ := nodeExec_quota (hn.exec hlock)
    obtain ⟨q2, hq2, rfl⟩ := nodeExec_quota (hn.exec hget)
    have hsame : CleanSaved { s with quota := q2 } := by
      simp only [execQuota] at hq1 hq2
      grind [CleanSaved]
    exact hsame.of_unlock (hn.exec hunlock)
  · simp only [if_neg hu]
    refine hn2.post_quota (by simp) fun order s3 _ hn3 => ?_
    have hevict : (evictLoop w.low order idx.used 0).Only Cmd.unsaving :=
      only_evictLoop trivial (fun _ => trivial) (fun _ _ => trivial) _ _ _
    have hloop := post_noticed (t := t) hevict hn3
    refine hloop.seq fun n s' hn' => ?_
    exact post_save_noticed (f := fun _ => n) hn'

theorem post_touch_saved {h : Str} {size : Int64} :
    Post nodeSystem t (fun _ s' => CleanSaved s') (touch h size) s := by
  apply post_lockQuota
  apply post_getIndex
  apply post_now
  intro now
  apply post_setIndex
  apply post_quota
  intro r x hx
  rw [execQuota, Option.some.injEq] at hx
  rw [← hx]
  exact @post_unlockQuota t _ _ _ pure (.of_dirty rfl)

/-- A flush that returns no error has left the index in the file. -/
theorem post_flush_saved (hc : CleanSaved s) :
    Post nodeSystem t (fun err s' => CleanSaved s' ∧ s'.quota.index = s.quota.index ∧
      (err = none → s'.quota.saved = some s'.quota.index)) flush s := by
  apply post_lockQuota
  apply post_quota
  intro d x hx
  by_cases hd : d = s.quota.dirty
  · rw [execQuota, if_pos hd, Option.some.injEq] at hx
    rw [← hx]
    cases d with
    | true =>
        refine post_saveIndex ?_ fun e => ?_
        · apply post_unlockQuota
          exact ⟨fun _ => rfl, rfl, fun _ => rfl⟩
        · apply post_unlockQuota
          exact ⟨.of_dirty hd.symm, rfl, fun h => by contradiction⟩
    | false =>
        refine @post_unlockQuota t _ _ _ _ ?_
        exact ⟨hc, rfl, fun _ => hc hd.symm⟩
  · rw [execQuota, if_neg hd] at hx
    contradiction

/-- Every operation keeps the flag truthful, as long as a failing write does not
go unnoticed. -/
theorem QuotaOp.post_saved {w : Watermarks} {op : QuotaOp} (hop : op ≠ .reopen)
    (hc : CleanSaved s) : Post s.disk t (fun _ s' => CleanSaved s') (op.run w) s := by
  have hn := noticed_disk s
  have hsub {α : Type} {Q : α → Node → Prop} {p : NodeM α} (h : Post nodeSystem t Q p s) :
      Post s.disk t Q p s := by
    unfold Node.disk
    split
    · exact h
    · exact h.restrict
  cases op with
  | touch h size => exact hsub post_touch_saved
  | pin m => exact (post_pin_saved hn).seq fun _ _ h => h
  | unpin id => exact (post_unpin_saved hn).seq fun _ _ h => h
  | maybeEvict => exact (post_maybeEvict_saved hn hc).seq fun _ _ h => h
  | flush => exact (hsub (post_flush_saved hc)).seq fun _ _ h => h.1
  | reopen => exact absurd rfl hop

/-- Opening the index on a disk that lists the chunks and writes the file. -/
theorem post_newQuotaManager_saved :
    Post (nodeSystem.restrict opensIndex) t (fun _ s' => CleanSaved s') newQuotaManager s := by
  refine Post.perform fun _ s1 _ => Post.perform fun _ s2 _ => Post.seq ?_ fun _ _ h => h
  refine Post.perform fun listed s3 hlist => ?_
  cases listed with
  | none => exact absurd (System.restrict_eq_some hlist).1 (by simp [opensIndex])
  | some hashes =>
      refine Post.perform fun now s4 _ => ?_
      have hloop : Post (nodeSystem.restrict opensIndex) t (fun _ _ => True)
          (reconcileHashes now hashes) s4 := (Prog.only_true _).post (fun _ _ _ _ _ _ _ => trivial) trivial
      refine hloop.seq fun _ s5 _ => ?_
      intro r s6 hsave
      obtain ⟨hok, hx⟩ := System.restrict_eq_some hsave
      obtain ⟨x, hpart, rfl⟩ := nodeExec_quota hx
      cases r with
      | some e => contradiction
      | none =>
          rw [execQuota, Option.some.injEq] at hpart
          intro _
          rw [← hpart]

/-- An index with at least the entries of another one, and its pins. -/
structure Restores (old i : Index) : Prop where
  pins : i.pins = old.pins
  entry : ∀ h m, old.chunks.lookup h = some m → i.chunks.lookup h = some m

theorem Restores.setEntry {old i : Index} {h : Str} {m : ChunkMeta} (hr : Restores old i)
    (hnone : i.chunks.lookup h = none) : Restores old (i.setEntry h m) := by
  refine ⟨hr.pins, fun h' m' hold => ?_⟩
  have hi := hr.entry h' m' hold
  have hne : h' ≠ h := by
    intro he
    rw [he, hnone] at hi
    contradiction
  rw [← hi]
  exact AList.lookup_insert_ne hne

/-- Reopening on a disk that reads the file. -/
theorem post_newQuotaManager_restores {old : Index} (hsaved : s.quota.saved = some old) :
    Post (nodeSystem.restrict readsIndex) t (fun _ s' => Restores old s'.quota.index)
      newQuotaManager s := by
  refine Post.perform fun _ s1 hset => Post.perform fun loaded s2 hload => ?_
  obtain ⟨x, hx, rfl⟩ := nodeExec_quota (System.restrict_eq_some hset).2
  rw [execQuota, Option.some.injEq] at hx
  have hloaded : s2.quota.index = old := by
    obtain ⟨hok, hload⟩ := System.restrict_eq_some hload
    obtain ⟨y, hy, rfl⟩ := nodeExec_quota hload
    cases loaded with
    | false => contradiction
    | true =>
        rw [execQuota, ← hx] at hy
        simp only [hsaved, Option.some.injEq] at hy
        rw [← hy]
  have hold : Restores old s2.quota.index := ⟨by rw [hloaded], by simp [hloaded]⟩
  have hreconcile : Post nodeSystem t (fun _ s' => Restores old s'.quota.index)
      reconcileFromDisk s2 := by
    apply post_asks rfl
    intro r
    cases r with
    | none => exact hold
    | some hashes =>
        apply post_now
        intro now
        refine post_reconcileHashes_of (fun i h m hi hnone _ => hi.setEntry hnone) hold fun i hi => ?_
        exact @post_saveIndex t _ _ _ pure hi fun e => hi
  exact (Post.restrict hreconcile).seq fun _ _ h => h

end Operations

/-! ## Runs -/

/-- One operation of the manager, or any change of the store by other parts of
the process.  A write of `index.json` may fail only in an operation that starts
with a dirty index. -/
inductive SavedStep (w : Watermarks) (t : Tid) : Node → Node → Prop
  | op {s s' : Node} (op : QuotaOp) (hop : op ≠ .reopen) (h : Runs s.disk t (op.run w) s () s') :
      SavedStep w t s s'
  | disk {s : Node} (x : Store) : SavedStep w t s { s with store := x }

theorem cleanSaved_of_run {w : Watermarks} {t : Tid} {s1 s : Node} (h1 : CleanSaved s1)
    (hrun : Relation.ReflTransGen (SavedStep w t) s1 s) : CleanSaved s := by
  induction hrun with
  | refl => exact h1
  | tail _ hstep ih =>
      cases hstep with
      | op op hop h => exact (QuotaOp.post_saved hop ih).of_runs h
      | disk x => exact ih

/-- The answers of a node on which only the writes of `index.json` fail. -/
def fullDisk : (c : Cmd) → Node → c.Resp
  | .quota .saveIndex, _ => some (str "no space left on device")
  | c, s => (World.originOnly []).answer c s

/-- A manager opened on an empty disk. -/
def emptyManager : Node :=
  newQuotaManager.finalState (nodeSystem.restrict opensIndex) 0 (World.originOnly []).answer
    emptyNode.restarted

/-- It pins an artifact and writes the index. -/
def pinSaved : Node :=
  (QuotaOp.run ⟨0, 0⟩ (.pin pairManifest)).finalState emptyManager.disk 0 (World.originOnly []).answer emptyManager

/-- A `Pin` whose write fails. -/
def pinUnsaved : Node := (pin pairManifest).finalState nodeSystem 0 fullDisk emptyManager

end Spider

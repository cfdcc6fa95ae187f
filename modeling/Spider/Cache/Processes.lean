import Spider.Cache.Saved

/-!
# Spider.Cache.Processes

Several quota managers on one cache directory: a running `spiderd`, and the
`spiderctl pin` and `spiderctl unpin` that come and go.  Each process loads
`index.json` when it starts, works on its own copy and writes the whole file
back.

A manager that writes a copy older than the file drops what the others have
written since; no operation looks at the file before it writes.  Pins survive
as long as every manager that writes is *current*: no other one has written
since it last read or wrote the file (`pins_survive`).
-/

namespace Spider

open Conc

/-! ## Processes on one directory -/

/-- The disk, and what each process has in memory: an index and a dirty flag.

`current` is bookkeeping: the processes since whose last reading or writing of
`index.json` no other one has written it. -/
structure Shared where
  store : Store
  file : Option Index
  memory : Nat → Index × Bool
  current : Nat → Bool

/-- Process `p`, between two operations. -/
def Shared.node (σ : Shared) (p : Nat) : Node :=
  { emptyNode with
    store := σ.store
    quota := ⟨(σ.memory p).1, σ.file, (σ.memory p).2, none⟩ }

/-- After an operation of process `p`. -/
def Shared.after (σ : Shared) (p : Nat) (current : Nat → Bool) (s : Node) : Shared where
  store := s.store
  file := s.quota.saved
  memory := Function.update σ.memory p (s.quota.index, s.quota.dirty)
  current := current

/-- Whether an operation writes `index.json`, if the disk lets it. -/
def QuotaOp.writes (w : Watermarks) (s : Node) : QuotaOp → Bool
  | .touch _ _ => false
  | .pin _ | .unpin _ | .reopen => true
  | .maybeEvict => !decide (s.quota.index.used < w.high)
  | .flush => s.quota.dirty

inductive ProcEvent where
  /-- A process starts; `reads` says that the disk lets it read `index.json`. -/
  | start (p : Nat) (reads : Bool)
  | op (p : Nat) (op : QuotaOp)
  /-- Any change of the chunk files by others. -/
  | disk

/-- A disk that may refuse to read `index.json`, or does not. -/
def readingSystem (reads : Bool) : System nodeSig Node Tid :=
  nodeSystem.restrict fun c r => !reads || readsIndex c r

/-- One process does one operation. -/
inductive SharedStep (w : Nat → Watermarks) : ProcEvent → Shared → Shared → Prop
  | start {σ : Shared} {s' : Node} (p : Nat) (reads : Bool)
      (h : Runs (readingSystem reads) p newQuotaManager (σ.node p).restarted () s') :
      SharedStep w (.start p reads) σ (σ.after p (fun q => decide (q = p)) s')
  | op {σ : Shared} {s' : Node} (p : Nat) (op : QuotaOp) (hop : op ≠ .reopen)
      (h : Runs nodeSystem p (op.run (w p)) (σ.node p) () s') :
      SharedStep w (.op p op) σ
        (σ.after p (fun q => σ.current q && (decide (q = p) || !op.writes (w p) (σ.node p))) s')
  | disk {σ : Shared} (x : Store) : SharedStep w .disk σ { σ with store := x }

/-- A process reads the file when it starts, if there is one, and it is current
whenever it writes. -/
def Orderly (w : Nat → Watermarks) (σ : Shared) : ProcEvent → Prop
  | .start _ reads => reads = true ∨ σ.file = none
  | .op p op => op.writes (w p) (σ.node p) = true → σ.current p = true
  | .disk => True

/-- Whether an event unpins this artifact. -/
def ProcEvent.unpins (id : Str) : ProcEvent → Bool
  | .op _ (.unpin id') => decide (id' = id)
  | _ => false

/-! ## What each operation does -/

section Operations

variable {t : Tid} {s : Node} {w : Watermarks} {id : Str} {hs : List Str}

/-- Every command but a save keeps the file. -/
theorem saved_of_unsaving {c : Cmd} {r : c.Resp} {s' : Node}
    (hx : nodeSystem.exec t c r s = some s') (hc : c.unsaving) : s'.quota.saved = s.quota.saved := by
  cases c with
  | quota c =>
      obtain ⟨q, hq, rfl⟩ := nodeExec_quota hx
      unfold execQuota at hq
      split at hq <;> grind [Cmd.unsaving]
  | _ => rw [(nodeExec_frame hx).2.1 (by simp)]

/-- Opening the index leaves the file alone or writes what it opened. -/
theorem post_newQuotaManager_written {ok : (c : Cmd) → c.Resp → Bool} :
    Post (nodeSystem.restrict ok) t
      (fun _ s' => s'.quota.saved = s.quota.saved ∨ s'.quota.saved = some s'.quota.index)
      newQuotaManager s := by
  have hkeep {α : Type} {p : NodeM α} (hp : p.Only Cmd.unsaving) {s1 : Node}
      (h1 : s1.quota.saved = s.quota.saved) :
      Post nodeSystem t (fun _ s' => s'.quota.saved = s.quota.saved) p s1 :=
    hp.post (fun _ _ _ _ hc h hx => (saved_of_unsaving hx hc).trans h) h1
  refine Post.restrict (Post.perform fun _ s1 h1 => Post.perform fun _ s2 h2 => ?_)
  have hsaved2 : s2.quota.saved = s.quota.saved :=
    (saved_of_unsaving h2 trivial).trans (saved_of_unsaving h1 trivial)
  refine Post.seq ?_ fun _ _ h => h
  refine Post.perform fun listed s3 h3 => ?_
  have hsaved3 : s3.quota.saved = s.quota.saved := (saved_of_unsaving h3 trivial).trans hsaved2
  cases listed with
  | none => exact .inl hsaved3
  | some hashes =>
      refine Post.perform fun now s4 h4 => ?_
      have hloop := hkeep (only_reconcileHashes trivial (fun _ => trivial) (fun _ => trivial) now hashes)
        ((saved_of_unsaving h4 trivial).trans hsaved3)
      refine hloop.seq fun _ s5 hsaved5 => ?_
      exact @post_saveIndex t _ _ _ pure (.inr rfl) fun _ => .inl hsaved5

/-- An operation that does not write leaves the file alone. -/
theorem QuotaOp.post_unwritten {op : QuotaOp} (hq : QuotaInv s) (hw : op.writes w s = false) :
    Post nodeSystem t (fun _ s' => s'.quota.saved = s.quota.saved) (op.run w) s := by
  cases op with
  | touch h size => exact (post_touch hq).mono fun _ _ h => h.2.2
  | pin m | unpin id | reopen => contradiction
  | maybeEvict =>
      have hbelow : s.quota.index.used < w.high := by simpa [QuotaOp.writes] using hw
      exact (post_maybeEvict hq).seq fun _ _ h => (h.below hbelow).2
  | flush => exact (post_flush hq).seq fun _ _ h => h.2.2.2 hw

/-- An operation leaves the pins of other artifacts, and writes what it has in
memory. -/
theorem QuotaOp.post_pinned {op : QuotaOp} (hq : QuotaInv s) (hop : op ≠ .reopen)
    (hne : op ≠ .unpin id) (hpin : s.quota.index.pins.lookup id = some hs) :
    Post nodeSystem t (fun _ s' => s'.quota.index.pins.lookup id = some hs ∧
      (s'.quota.saved = s.quota.saved ∨ s'.quota.saved = some s'.quota.index)) (op.run w) s := by
  cases op with
  | touch h size =>
      exact (post_touch hq).mono fun _ s' h => ⟨by rw [h.2.1]; exact hpin, .inl h.2.2⟩
  | pin m =>
      refine (post_pin hq).seq fun _ s' ⟨_, hw, hpins⟩ => ⟨?_, hw.saved⟩
      rw [hpins, Index.pinsWith]
      split
      · exact hpin
      · rename_i hnew
        have hid : id ≠ m.artifactID := by
          rintro rfl
          rw [hpin] at hnew
          exact hnew rfl
        rw [AList.lookup_insert_ne hid]
        exact hpin
  | unpin id' =>
      refine (post_unpin hq).seq fun _ s' ⟨_, hw, hpins⟩ => ⟨?_, hw.saved⟩
      have hid : id ≠ id' := fun he => hne (by rw [he])
      rw [hpins, AList.lookup_erase_ne hid]
      exact hpin
  | maybeEvict =>
      exact (post_maybeEvict hq).seq fun _ s' h => ⟨by rw [h.pins]; exact hpin, h.saved⟩
  | flush =>
      exact (post_flush hq).seq fun _ s' h => ⟨by rw [h.2.1]; exact hpin, h.2.2.1⟩
  | reopen => exact absurd rfl hop

end Operations

/-! ## Runs -/

/-- The counts are right in the file and in every memory. -/
structure SharedInv (σ : Shared) : Prop where
  file : ∀ i, σ.file = some i → Counted i
  memory : ∀ p, Counted (σ.memory p).1

variable {σ : Shared}

theorem SharedInv.node (h : SharedInv σ) (p : Nat) : QuotaInv (σ.node p) :=
  ⟨h.memory p, h.file⟩

theorem SharedInv.after (h : SharedInv σ) {p : Nat} {cur : Nat → Bool} {s : Node} (hs : QuotaInv s) :
    SharedInv (σ.after p cur s) := by
  refine ⟨hs.saved, fun q => ?_⟩
  by_cases hq : q = p
  · rw [hq]
    simpa [Shared.after] using hs.index
  · simpa [Shared.after, Function.update_of_ne hq] using h.memory q

section Runs

variable {w : Nat → Watermarks} {σ σ' : Shared} {e : ProcEvent} {id : Str} {hs : List Str}

theorem SharedInv.step (hi : SharedInv σ) (h : SharedStep w e σ σ') : SharedInv σ' := by
  cases h with
  | start p reads h =>
      have hq : QuotaInv (σ.node p).restarted := ⟨counted_empty, hi.file⟩
      exact hi.after ((post_newQuotaManager hq).restrict.of_runs h)
  | op p op hop h => exact hi.after ((QuotaOp.post_run (hi.node p)).of_runs h)
  | disk x => exact ⟨hi.file, hi.memory⟩

/-- The artifact is pinned in the file, and in the memory of every process that
may write it. -/
structure PinnedIn (id : Str) (hs : List Str) (σ : Shared) : Prop where
  file : ∃ i, σ.file = some i ∧ i.pins.lookup id = some hs
  memory : ∀ p, σ.current p = true → (σ.memory p).1.pins.lookup id = some hs

theorem PinnedIn.step (hi : SharedInv σ) (hp : PinnedIn id hs σ) (he : e.unpins id = false)
    (ho : Orderly w σ e) (h : SharedStep w e σ σ') : PinnedIn id hs σ' := by
  obtain ⟨i, hfile, hpinned⟩ := hp.file
  cases h with
  | disk x => exact ⟨hp.file, hp.memory⟩
  | @start _ s' p reads h =>
      have hreads : reads = true := by
        cases ho with
        | inl h => exact h
        | inr h => exact absurd (hfile.symm.trans h) (by simp)
      rw [hreads] at h
      have hrestores := (post_newQuotaManager_restores (s := (σ.node p).restarted) hfile).of_runs h
      have hlook : s'.quota.index.pins.lookup id = some hs := by rw [hrestores.pins]; exact hpinned
      refine ⟨?_, fun q hq => ?_⟩
      · cases post_newQuotaManager_written.of_runs h with
        | inl hsame => exact ⟨i, hsame.trans hfile, hpinned⟩
        | inr hnew => exact ⟨_, hnew, hlook⟩
      · rw [of_decide_eq_true hq]
        simpa [Shared.after] using hlook
  | @op _ s' p op hop h =>
      have hne : op ≠ .unpin id := by
        rintro rfl
        simp [ProcEvent.unpins] at he
      have hmem : σ.current p = true → s'.quota.index.pins.lookup id = some hs ∧
          (s'.quota.saved = σ.file ∨ s'.quota.saved = some s'.quota.index) := fun hcur =>
        (QuotaOp.post_pinned (hi.node p) hop hne (hp.memory p hcur)).of_runs h
      refine ⟨?_, fun q hq => ?_⟩
      · -- whoever writes the file is current, and has the pin in memory
        have hsaved : s'.quota.saved = σ.file ∨
            s'.quota.saved = some s'.quota.index ∧ s'.quota.index.pins.lookup id = some hs := by
          cases hw : op.writes (w p) (σ.node p) with
          | true =>
              obtain ⟨hlook, hsaved⟩ := hmem (ho hw)
              exact hsaved.imp_right (⟨·, hlook⟩)
          | false => exact .inl ((QuotaOp.post_unwritten (hi.node p) hw).of_runs h)
        cases hsaved with
        | inl hsame => exact ⟨i, hsame.trans hfile, hpinned⟩
        | inr hnew => exact ⟨_, hnew.1, hnew.2⟩
      · have hcur : σ.current q = true := (Bool.and_eq_true_iff.mp hq).1
        by_cases hqp : q = p
        · rw [hqp] at hcur ⊢
          simpa [Shared.after] using (hmem hcur).1
        · simpa [Shared.after, Function.update_of_ne hqp] using hp.memory q hcur

/-- An orderly step, of a kind. -/
def OrderlyStep (w : Nat → Watermarks) (kind : ProcEvent → Prop) (σ σ' : Shared) : Prop :=
  ∃ e, kind e ∧ Orderly w σ e ∧ SharedStep w e σ σ'

theorem SharedInv.run {kind : ProcEvent → Prop} (hi : SharedInv σ)
    (h : Relation.ReflTransGen (OrderlyStep w kind) σ σ') : SharedInv σ' := by
  induction h with
  | refl => exact hi
  | tail _ hstep ih =>
      obtain ⟨e, -, -, hstep⟩ := hstep
      exact ih.step hstep

theorem PinnedIn.run (hi : SharedInv σ) (hp : PinnedIn id hs σ)
    (h : Relation.ReflTransGen (OrderlyStep w fun e => e.unpins id = false) σ σ') :
    PinnedIn id hs σ' := by
  induction h with
  | refl => exact hp
  | tail hrun hstep ih =>
      obtain ⟨e, he, ho, hstep⟩ := hstep
      exact ih.step (hi.run hrun) he ho hstep

end Runs

/-- Processes that have not started, on a directory whose index, if there is
one, counts its pins. -/
structure NoProcess (σ : Shared) : Prop where
  file : ∀ i, σ.file = some i → Counted i
  memory : ∀ p, σ.memory p = (Index.empty, false)

/-- A manifest of one chunk. -/
def oneManifest : ArtifactManifest :=
  ⟨1, str "id", str "m", str "1", 1, 1, [⟨str "f", 1, [], [⟨zeroHash, 0, 1⟩]⟩]⟩

/-- A directory with this chunk and no index, before any process starts. -/
def oneDirectory : Shared where
  store := { emptyNode.store with chunks := AList.insert zeroHash [1] ∅ }
  file := none
  memory _ := (Index.empty, false)
  current _ := false

/-- Thresholds that are always exceeded. -/
def noRoom (_ : Nat) : Watermarks := ⟨0, 0⟩

/-- The step of a process on whose disk nothing fails. -/
def Shared.play (σ : Shared) : ProcEvent → Shared
  | .start p reads =>
      σ.after p (fun q => decide (q = p)) (newQuotaManager.finalState (readingSystem reads) p
        (World.originOnly []).answer (σ.node p).restarted)
  | .op p op =>
      σ.after p (fun q => σ.current q && (decide (q = p) || !op.writes (noRoom p) (σ.node p)))
        ((op.run (noRoom p)).finalState nodeSystem p (World.originOnly []).answer (σ.node p))
  | .disk => σ

theorem Shared.step_start {p : Nat} {reads : Bool}
    (h : ((newQuotaManager.runWith (readingSystem reads) p (World.originOnly []).answer
      (σ.node p).restarted).map Prod.fst) = some ()) :
    SharedStep noRoom (.start p reads) σ (σ.play (.start p reads)) :=
  .start p reads (runs_finalState h)

theorem Shared.step_op {p : Nat} {op : QuotaOp} (hop : op ≠ .reopen)
    (h : (((op.run (noRoom p)).runWith nodeSystem p (World.originOnly []).answer (σ.node p)).map
      Prod.fst) = some ()) : SharedStep noRoom (.op p op) σ (σ.play (.op p op)) :=
  .op p op hop (runs_finalState h)

theorem noProcess_oneDirectory : NoProcess oneDirectory :=
  ⟨fun _ h => (nomatch h), fun _ => rfl⟩

/-- A process pins the artifact. -/
def Shared.pinned (σ : Shared) (p : Nat) : Shared :=
  σ.after p (fun q => σ.current q && decide (q = p))
    ((pin oneManifest).finalState nodeSystem p (World.originOnly []).answer (σ.node p))

/-- `spiderd` starts, then `spiderctl` starts and pins. -/
def bothStarted : Shared := (oneDirectory.play (.start 0 false)).play (.start 1 true)

/-- Then a chunk that `spiderd` touches makes it write its own index. -/
def overwritten : Shared :=
  ((bothStarted.pinned 1).play (.op 0 (.touch zeroHash 1))).play (.op 0 .flush)

end Spider

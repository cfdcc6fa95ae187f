import Spider.Engine.Rescue
import Spider.Engine.Sync

/-!
# Spider.Engine.Section

What a download does under its hash lock, seen through the partial of its chunk.

The other parts of the node do not matter there, and no other thread touches the
partial.  `OnPartial` are the systems over the partial of one chunk, with a record
of some kind beside it; the lemmas say what the functions of the cache do to the
partial on a working disk.
-/

namespace Spider

open Conc

/-! ## The partial of one chunk -/

/-- What the commands of a lock section do to the partial of its chunk on a working
disk. -/
def partialAfter : (c : StoreCmd) → c.Resp → Option Bytes → Option (Option Bytes)
  | .statPartial _, .size n, p => if p.map List.length = some n then some p else none
  | .statPartial _, .absent, p => if p = none then some p else none
  | .removePartial _, _, _ => some none
  | .openPartial _, _, p => some (some (p.getD []))
  | .writePartial _ b, _, p => some (p.map (· ++ b))
  | .readPartial _, .ok b, p => if p = some b then some p else none
  | .renamePartial _, _, _ => some none
  | _, _, p => some p

/-- A system over the partial of one chunk and a record. -/
structure OnPartial {γ : Type} (M : System nodeSig (Option Bytes × γ) Tid) : Prop where
  store : ∀ t (c : StoreCmd) (r : c.Resp) v, M.exec t (.store c) r v =
    if diskOk c r then (partialAfter c r v.1).map (·, v.2) else none
  quota : ∀ t (c : QuotaCmd) (r : c.Resp) v, M.exec t (.quota c) r v = some v

section Section

variable {γ : Type} {M : System nodeSig (Option Bytes × γ) Tid} (hM : OnPartial M)
variable {H : Sha256} {h : Str} {content : Bytes} {t : Tid} {p : Option Bytes} {d : γ}
variable {α : Type} {Q : α → Option Bytes × γ → Prop}

include hM

theorem section_store {c : StoreCmd} {k : c.Resp → NodeM α}
    (hk : ∀ r q, diskOk c r = true → partialAfter c r p = some q →
      Post M t Q (k r) (q, d)) :
    Post M t Q (onStore c >>= k) (p, d) := by
  apply Post.perform
  intro r v hx
  rw [hM.store] at hx
  split at hx
  · rename_i hok
    obtain ⟨q, hq, rfl⟩ := Option.map_eq_some_iff.mp hx
    exact hk r q hok hq
  · contradiction

variable (hh : (parseHash h).isSome = true)
include hh

theorem section_partialSize :
    Post M t (fun n v => n = ((p.getD []).length : Int) ∧ v = (p, d))
      (partialSize h) (p, d) := by
  obtain ⟨name, hname⟩ := Option.isSome_iff_exists.mp hh
  rw [partialSize, hname]
  apply section_store hM
  intro r q hok hq
  cases r with
  | failed msg => contradiction
  | absent =>
      obtain ⟨rfl, ⟨⟩⟩ := Option.ite_none_right_eq_some.mp hq
      exact ⟨rfl, rfl⟩
  | size n =>
      obtain ⟨hn, ⟨⟩⟩ := Option.ite_none_right_eq_some.mp hq
      obtain ⟨b, rfl, rfl⟩ := Option.map_eq_some_iff.mp hn
      exact ⟨rfl, rfl⟩

theorem section_discardPartial :
    Post M t (fun _ v => v = (none, d)) (discardPartial h) (p, d) := by
  obtain ⟨name, hname⟩ := Option.isSome_iff_exists.mp hh
  rw [discardPartial, hname]
  apply section_store hM
  intro r q _ hq
  simp only [partialAfter, Option.some.injEq] at hq
  cases r <;> exact hq ▸ rfl

omit hh in
theorem section_copyToPartial {b : Bytes} (bs : List Bytes) :
    Post M t
      (fun r v => r = (none, []) ∧ v = (some (b ++ bs.flatten), d))
      (copyToPartial h bs) (some b, d) := by
  induction bs generalizing b with
  | nil => exact ⟨rfl, by simp⟩
  | cons c cs ih =>
      apply section_store hM
      intro r q hok hq
      cases r with
      | some e => contradiction
      | none =>
          simp only [partialAfter, Option.map_some, Option.some.injEq] at hq
          subst hq
          simpa [List.append_assoc] using ih (b := b ++ c)

theorem section_appendPartial (reads : List Bytes) :
    Post M t
      (fun r v => r = (none, []) ∧ v = (some (p.getD [] ++ reads.flatten), d))
      (appendPartial h reads none) (p, d) := by
  obtain ⟨name, hname⟩ := Option.isSome_iff_exists.mp hh
  rw [appendPartial, hname]
  apply section_store hM
  intro made q1 hok1 hq1
  cases made with
  | some msg => contradiction
  | none =>
      apply section_store hM
      intro opened q2 hok2 hq2
      cases opened with
      | some msg => contradiction
      | none =>
          simp only [partialAfter, Option.some.injEq] at hq1 hq2
          subst hq1 hq2
          apply (section_copyToPartial hM reads).seq
          rintro _ _ ⟨rfl, rfl⟩
          apply section_store hM
          intro synced q3 hok3 hq3
          cases synced with
          | some msg => contradiction
          | none =>
              apply section_store hM
              intro closed q4 hok4 hq4
              cases closed with
              | some msg => contradiction
              | none =>
                  simp only [partialAfter, Option.some.injEq] at hq3 hq4
                  subst hq3 hq4
                  exact ⟨rfl, rfl⟩

omit hh in
theorem section_runOnCommit (cfg : EngineConfig) :
    Post M t (fun _ v => v = (p, d)) (runOnCommit cfg.onCommit h)
      (p, d) := by
  cases hhook : cfg.onCommit with
  | none => exact rfl
  | some hook =>
      have hrun : ∀ n, Post M t (fun _ v => v = (p, d)) (hook h n)
          (p, d) := by
        intro n
        have honly : (hook h n).Only fun c : Cmd => ∃ q, c = .quota q :=
          cfg.only_onCommit (fun q => ⟨q, rfl⟩) hook hhook h n
        refine honly.post (F := fun v => v = (p, d)) ?_ rfl
        rintro _ r v v' ⟨q, rfl⟩ rfl hx
        rw [hM.quota] at hx
        exact (Option.some.inj hx).symm
      apply section_store hM
      intro r q _ hq
      simp only [partialAfter, Option.some.injEq] at hq
      subst hq
      cases r <;> exact hrun _

/-- The commit of a partial that is the chunk. -/
theorem section_commitPartial (cfg : EngineConfig) (hhash : computeHash H content = h) :
    Post M t (fun r _ => r = none) (commitPartial H cfg.onCommit h)
      (some content, d) := by
  obtain ⟨name, hname⟩ := Option.isSome_iff_exists.mp hh
  rw [commitPartial, hname]
  apply section_store hM
  intro opened q1 hok1 hq1
  cases opened with
  | some msg => contradiction
  | none =>
      simp only [partialAfter, Option.some.injEq] at hq1
      subst hq1
      apply section_store hM
      intro read q2 hok2 hq2
      cases read with
      | error msg => contradiction
      | ok b =>
          obtain ⟨⟨⟩, ⟨⟩⟩ := Option.ite_none_right_eq_some.mp hq2
          simp only [hhash, ne_eq, not_true_eq_false, if_false]
          apply section_store hM
          intro made q3 hok3 _
          cases made with
          | some msg => contradiction
          | none =>
              apply section_store hM
              intro renamed q4 hok4 _
              cases renamed with
              | some msg => contradiction
              | none => exact (section_runOnCommit hM cfg).seq fun _ _ _ => rfl

theorem section_finishTransfer (cfg : EngineConfig) (hhash : computeHash H content = h)
    {total : Int} (htotal : total ≤ content.length) {fail : Err → Err} :
    Post M t (fun res _ => errorOf res = none)
      (finishTransfer H cfg.onCommit h total fail) (some content, d) := by
  apply (section_partialSize hM hh).seq
  rintro _ _ ⟨rfl, rfl⟩
  rw [Option.getD_some, if_neg (by omega)]
  apply (section_commitPartial hM hh cfg hhash).seq
  rintro _ _ rfl
  rfl

/-- After `resumeFrom` the offset is the size of the partial. -/
theorem section_resumeFrom (tooLong : Bool) :
    Post M t
      (fun offset v => ∃ q, offset = ((q.getD []).length : Int) ∧ v = (q, d))
      (resumeFrom h (p.getD []).length tooLong) (p, d) := by
  cases tooLong with
  | false => exact ⟨p, rfl, rfl⟩
  | true =>
      apply (section_discardPartial hM hh).seq
      rintro _ _ rfl
      exact ⟨none, rfl, rfl⟩

end Section

/-- A command of a section on a working disk, seen through the partial. -/
theorem partialAfter_execStore {t : Tid} {h : Str} {c : StoreCmd} {r : c.Resp} {y y' : Store}
    (hc : c.inSection h = true) (hok : diskOk c r = true) (hx : execStore t c r y = some y') :
    partialAfter c r (y.partials h) = some (y'.partials h) ∧ y'.locks = y.locks := by
  have hname : c.worksOn h = true := worksOn_of_inSection hc
  cases c with
  | statPartial h' =>
      simp only [StoreCmd.worksOn, decide_eq_true_eq] at hname
      subst hname
      cases r with
      | failed msg => contradiction
      | size n | absent =>
          obtain ⟨hp, ⟨⟩⟩ := Option.ite_none_right_eq_some.mp hx
          exact ⟨if_pos hp, rfl⟩
  | removePartial h' =>
      simp only [StoreCmd.worksOn, decide_eq_true_eq] at hname
      subst hname
      cases r with
      | failed msg => contradiction
      | removed =>
          obtain ⟨-, ⟨⟩⟩ := Option.ite_none_right_eq_some.mp hx
          exact ⟨by simp [partialAfter, Store.setPartial], rfl⟩
      | absent =>
          obtain ⟨hp, ⟨⟩⟩ := Option.ite_none_right_eq_some.mp hx
          exact ⟨congrArg some hp.symm, rfl⟩
  | openPartial h' =>
      simp only [StoreCmd.worksOn, decide_eq_true_eq] at hname
      subst hname
      cases r with
      | some msg => contradiction
      | none =>
          simp only [execStore, Option.some.injEq] at hx
          subst hx
          exact ⟨by simp [partialAfter, Store.setPartial], rfl⟩
  | writePartial h' b =>
      simp only [StoreCmd.worksOn, decide_eq_true_eq] at hname
      subst hname
      cases r with
      | some e => contradiction
      | none =>
          simp only [execStore, Option.some.injEq] at hx
          subst hx
          cases hp : y.partials h' with
          | none => simp [partialAfter, Store.appendTo, hp]
          | some q => simp [partialAfter, Store.appendTo, Store.setPartial, hp]
  | readPartial h' =>
      simp only [StoreCmd.worksOn, decide_eq_true_eq] at hname
      subst hname
      cases r with
      | error msg => contradiction
      | ok b =>
          obtain ⟨hp, ⟨⟩⟩ := Option.ite_none_right_eq_some.mp hx
          exact ⟨if_pos hp, rfl⟩
  | renamePartial h' =>
      simp only [StoreCmd.worksOn, decide_eq_true_eq] at hname
      subst hname
      cases r with
      | some msg => contradiction
      | none =>
          simp only [execStore] at hx
          split at hx
          · rw [← Option.some.inj hx]
            exact ⟨by simp [partialAfter, Store.setPartial], rfl⟩
          · contradiction
  | mkdirPartialDir | syncPartial _ | closePartial _ | openVerify _ | mkdirShard _ | statChunk _ =>
      rw [execStore_asks rfl hx]
      exact ⟨rfl, rfl⟩
  | _ => contradiction

/-! ## Inside the lock sections of a fetch -/

/-- The commands of a transfer of chunk `h` under its lock, from one peer or from
the origin. -/
def Cmd.carries (addr : Option Str) (h : Str) : Cmd → Bool
  | .store c => c.inSection h
  | .quota _ | .net (.joinDownloader _) | .net (.readOrigin _ _ _) => true
  | .net (.openStream a h' _) => decide (some a = addr ∧ h' = h)
  | _ => false

section Bodies

variable {H : Sha256} {cfg : EngineConfig} {addr : Option Str} {h : Str}

theorem only_finishTransfer {total : Int} {fail : Err → Err} :
    (finishTransfer H cfg.onCommit h total fail).Only fun c : Cmd => c.carries addr h = true := by
  have hfill : ∀ c : StoreCmd, c.fills h = true → (Cmd.store c).carries addr h = true :=
    fun c hc => inSection_of_fills hc
  refine (only_partialSize hfill).bind fun got => ?_
  split
  · exact Prog.only_pure _
  · refine (only_commitPartial (fun c hc => hc) (cfg.only_onCommit fun _ => rfl) H).bind
      fun r => ?_
    cases r with
    | none => exact Prog.only_pure _
    | some e =>
        dsimp only
        split
        · exact (only_discardPartial hfill).bind fun _ => Prog.only_pure _
        · exact Prog.only_pure _

theorem only_resumeFrom {size : Int} {tooLong : Bool} :
    (resumeFrom h size tooLong).Only fun c : Cmd => c.carries addr h = true := by
  cases tooLong with
  | false => exact Prog.only_pure _
  | true => exact (only_discardPartial fun c hc => inSection_of_fills hc).bind fun _ =>
      Prog.only_pure _

variable {work : WorkItem}

theorem only_transferSection {src : ChunkSource} :
    (transferSection H cfg.onCommit src work).Only
      fun c : Cmd => c.carries src.addr work.hash = true := by
  have hfill : ∀ c : StoreCmd, c.fills work.hash = true →
      (Cmd.store c).carries src.addr work.hash = true := fun c hc => inSection_of_fills hc
  have hrequest : ∀ offset, (src.request work offset).Only
      fun c : Cmd => c.carries src.addr work.hash = true := by
    intro offset
    cases src with
    | peer addr => exact Prog.only_call (by simp [Cmd.carries, ChunkSource.addr]) fun _ => Prog.only_pure _
    | origin => exact Prog.only_call rfl fun _ => Prog.only_pure _
  refine (only_partialSize hfill).bind fun size => only_resumeFrom.bind fun offset => ?_
  refine (hrequest offset).bind fun tr => (only_appendPartial hfill _ _).bind fun (err, unread) => ?_
  refine Prog.only_call rfl fun _ => ?_
  cases tr.err with
  | some e =>
      dsimp only
      split
      · exact (only_discardPartial hfill).bind fun _ => Prog.only_pure _
      · exact Prog.only_pure _
  | none =>
      cases err with
      | some e => exact Prog.only_pure _
      | none => exact only_finishTransfer

end Bodies

end Spider

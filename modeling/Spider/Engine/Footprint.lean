import Spider.Cache.Quota
import Spider.Engine.Transfer

/-!
# Spider.Engine.Footprint

Which commands fetching a chunk issues (`Cmd.transfers`), and which of them
show that the chunk is in the store (`shows`): a `stat` that finds it, and the
rename that puts it there.

`marks_fetchChunk` says that `fetchChunk` succeeds only after such a step, and
`marks_hasValidCommittedChunk` that the inventory's test does; both are read
off the programs, without a state.
-/

namespace Spider

open Conc

/-- The commands of a transfer: nothing of the sync job or the destination, and
no chunk is opened or deleted. -/
def Cmd.transfers : Cmd → Bool
  | .store (.deleteChunk _) | .store (.openChunk _) => false
  | .store _ | .quota _ | .net _ => true
  | .job _ | .dest _ | .link _ _ => false

/-- Programs made of such commands. -/
abbrev Transfers {α : Type} (p : NodeM α) : Prop := p.Only fun c : Cmd => c.transfers = true

/-- The steps after which chunk `h` is in the store. -/
def shows (h : Str) : (c : Cmd) → c.Resp → Bool
  | .store (.renamePartial h'), none => decide (h' = h)
  | .store (.statChunk h'), .size _ => decide (h' = h)
  | _, _ => false

/-- A transfer, with what its result says about chunk `h` being in the store. -/
abbrev Shows (h : Str) {α : Type} (Q : Bool → α → Prop) (d : Bool) (p : NodeM α) : Prop :=
  p.Marks (fun c : Cmd => c.transfers = true) (shows h) Q d

variable {h : Str}

theorem transfers_of_worksOn (c : StoreCmd) (hc : c.worksOn h = true) :
    (Cmd.store c).transfers = true := by
  cases c with
  | openChunk h => contradiction
  | deleteChunk h => contradiction
  | _ => rfl

theorem transfers_of_fills (c : StoreCmd) (hc : c.fills h = true) :
    (Cmd.store c).transfers = true :=
  transfers_of_worksOn c (worksOn_of_fills hc)

/-! ## Presence -/

theorem marks_hasChunk {d : Bool} : Shows h (fun d' b => b = true → d' = true) d (hasChunk h) := by
  unfold hasChunk
  split
  · exact Prog.marks_pure (by simp)
  · refine Prog.marks_call rfl fun r => ?_
    cases r with
    | size n => exact Prog.marks_pure fun _ => by simp [shows]
    | absent | failed msg => exact Prog.marks_pure (by simp)

theorem marks_hasValidCommittedChunk {expectedSize : Int} {d : Bool} :
    Shows h (fun d' b => b = true → d' = true) d (hasValidCommittedChunk h expectedSize) := by
  refine marks_hasChunk.bind fun d1 present hd1 => ?_
  cases present with
  | false => exact Prog.marks_pure (by simp)
  | true =>
      have hd1 : d1 = true := hd1 rfl
      by_cases hsize : expectedSize ≤ 0
      · simp only [Bool.not_true, Bool.false_eq_true, if_false, if_pos hsize]
        exact Prog.marks_pure fun _ => hd1
      · simp only [Bool.not_true, Bool.false_eq_true, if_false, if_neg hsize]
        have hstat : Transfers (committedChunkSize h) := only_committedChunkSize rfl
        refine hstat.marks.bind fun d2 size hd2 => ?_
        cases size with
        | some sz => exact Prog.marks_pure fun _ => hd2 hd1
        | none => exact Prog.marks_pure (by simp)

/-! ## Commit -/

/-- Hooks that are transfers too. -/
def HookTransfers (onCommit : OnCommit) : Prop :=
  ∀ hook, onCommit = some hook → ∀ h n, Transfers (hook h n)

section Commit

variable {H : Sha256} {onCommit : OnCommit} (hhook : HookTransfers onCommit)
include hhook
variable {d hasOrigin : Bool} {h : Str} {work : WorkItem}

theorem marks_commitPartial :
    Shows h (fun d' r => r = none → d' = true) d (commitPartial H onCommit h) := by
  unfold commitPartial
  split
  · exact Prog.marks_pure (by simp)
  · refine Prog.marks_call rfl fun opened => ?_
    cases opened with
    | some msg => exact Prog.marks_pure (by simp)
    | none =>
        refine Prog.marks_call rfl fun read => ?_
        cases read with
        | error msg => exact Prog.marks_pure (by simp)
        | ok b =>
            by_cases hhash : computeHash H b ≠ h
            · simp only [if_pos hhash]
              exact Prog.marks_call rfl fun _ => Prog.marks_pure (by simp)
            · simp only [if_neg hhash]
              refine Prog.marks_call rfl fun made => ?_
              cases made with
              | some msg => exact Prog.marks_pure (by simp)
              | none =>
                  refine Prog.marks_call rfl fun renamed => ?_
                  cases renamed with
                  | some msg => exact Prog.marks_pure (by simp)
                  | none =>
                      have hok := fun c hc => transfers_of_worksOn c (worksOn_of_inSection (h := h) hc)
                      refine (only_runOnCommit hok hhook).marks.bind fun d' _ hd' => ?_
                      exact Prog.marks_pure fun _ => hd' (by simp [shows])

theorem marks_finishTransfer {total : Int} {fail : Err → Err} :
    Shows h (fun d' r => ∀ n, r = .ok n → d' = true) d
      (finishTransfer H onCommit h total fail) := by
  refine (only_partialSize transfers_of_fills).marks.bind fun d1 got _ => ?_
  by_cases hshort : total > 0 ∧ got < total
  · simp only [if_pos hshort]
    exact Prog.marks_pure (by simp)
  · simp only [if_neg hshort]
    refine (marks_commitPartial hhook).bind fun d2 res hd2 => ?_
    cases res with
    | none => exact Prog.marks_pure fun _ _ => hd2 rfl
    | some e =>
        by_cases hmis : e.isHashMismatch = true
        · simp only [if_pos hmis]
          refine (only_discardPartial transfers_of_fills).marks.bind fun d3 _ _ => ?_
          exact Prog.marks_pure (by simp)
        · simp only [if_neg hmis]
          exact Prog.marks_pure (by simp)

/-! ## Fetching -/

omit hhook in
theorem marks_withHashLock {h' : Str} {α : Type} {result : α → Option Err} {body : NodeM α}
    {Q : Bool → α → Prop} (hbody : Shows h Q d body) :
    Shows h Q d (withHashLock h' result body) := by
  refine Prog.marks_call rfl fun _ => ?_
  rw [show (d || shows h (.store (.lockHash h')) ()) = d from Bool.or_false d]
  refine hbody.bind fun d' a ha => ?_
  refine Prog.marks_call rfl fun _ => Prog.marks_pure ?_
  rwa [show (d' || shows h (.store (.unlockHash h' (result a))) ()) = d' from Bool.or_false d']

theorem marks_putChunk {data : Bytes} :
    Shows h (fun d' r => r = none → d' = true) d (putChunk H onCommit h data) := by
  refine marks_withHashLock ?_
  refine (only_discardPartial transfers_of_fills).marks.bind fun d1 discarded _ => ?_
  cases discarded with
  | some e => exact Prog.marks_pure (by simp)
  | none =>
      refine (only_appendPartial transfers_of_fills _ none).marks.bind fun d2 res _ => ?_
      obtain ⟨err, unread⟩ := res
      cases err with
      | some e =>
          refine (only_discardPartial transfers_of_fills).marks.bind fun d3 _ _ => ?_
          exact Prog.marks_pure (by simp)
      | none => exact marks_commitPartial hhook

omit hhook in
theorem transfers_resumeFrom (h : Str) (size : Int) (tooLong : Bool) :
    Transfers (resumeFrom h size tooLong) := by
  cases tooLong with
  | true => exact (only_discardPartial transfers_of_fills).bind fun _ => Prog.only_pure _
  | false => exact Prog.only_pure _

/-- Success shows that the chunk is in the store. -/
abbrev Fetches (h : Str) {α : Type} (d : Bool) (p : NodeM (Except Err α)) : Prop :=
  Shows h (fun d' r => ∀ n, r = .ok n → d' = true) d p

omit hhook in
theorem transfers_request (src : ChunkSource) (work : WorkItem) (offset : Int) :
    Transfers (src.request work offset) := by
  cases src with
  | peer addr | origin => exact Prog.only_call rfl fun _ => Prog.only_pure _

theorem marks_download {src : ChunkSource} :
    Fetches work.hash d (src.download H onCommit work) := by
  refine marks_withHashLock ?_
  refine (only_partialSize transfers_of_fills).marks.bind fun _ size _ => ?_
  refine (transfers_resumeFrom work.hash size _).marks.bind fun _ offset _ => ?_
  refine (transfers_request src work offset).marks.bind fun _ tr _ => ?_
  refine (only_appendPartial transfers_of_fills _ tr.err).marks.bind fun _ (appendErr, unread) _ => ?_
  refine Prog.marks_call rfl fun _ => ?_
  cases tr.err with
  | some e =>
      by_cases hspoils : src.spoils e = true
      · simp only [if_pos hspoils]
        refine (only_discardPartial transfers_of_fills).marks.bind fun _ _ _ => ?_
        exact Prog.marks_pure (by simp)
      · simp only [if_neg hspoils]
        exact Prog.marks_pure (by simp)
  | none =>
      cases appendErr with
      | some e => exact Prog.marks_pure (by simp)
      | none => exact marks_finishTransfer hhook

theorem marks_downloadFromOrigin : Fetches work.hash d (downloadFromOrigin H onCommit work) := by
  refine Prog.marks_call rfl fun acquired => ?_
  cases acquired with
  | some deadline => exact Prog.marks_pure (by simp)
  | none =>
      rw [readFromOrigin_eq]
      refine (marks_download hhook).bind fun d' res hres => ?_
      refine Prog.marks_call rfl fun _ => Prog.marks_pure fun n hn => ?_
      rw [hres n hn, Bool.true_or]

theorem marks_tryPeers {addrs : List Str} :
    Shows work.hash (fun d' r => ∀ n, r = some n → d' = true) d
      (tryPeers H onCommit work addrs) := by
  induction addrs generalizing d with
  | nil => exact Prog.marks_pure (by simp)
  | cons addr addrs ih =>
      rw [tryPeers]
      by_cases haddr : addr = []
      · rw [if_pos haddr]
        exact ih
      · rw [if_neg haddr]
        refine Prog.marks_call rfl fun begun => ?_
        cases begun with
        | false => exact ih
        | true =>
            rw [downloadFromPeer_eq]
            refine (marks_download hhook).bind fun d' res hres => ?_
            cases res with
            | ok n => exact Prog.marks_pure fun _ _ => hres n rfl
            | error e => exact ih

theorem marks_fetchFromOrigin :
    Fetches work.hash d (fetchFromOrigin H onCommit hasOrigin work) := by
  cases hasOrigin with
  | false => exact Prog.marks_pure (by simp)
  | true =>
      refine (marks_downloadFromOrigin hhook).bind fun d' res hres => ?_
      cases res with
      | error e => exact Prog.marks_pure (by simp)
      | ok n => exact Prog.marks_pure fun _ _ => hres n rfl

theorem marks_fetchAttempts {left : Nat} :
    Fetches work.hash d (fetchAttempts H onCommit hasOrigin work left) := by
  induction left generalizing d with
  | zero => exact marks_fetchFromOrigin hhook
  | succ left ih =>
      refine Prog.marks_call rfl fun cands => ?_
      refine (marks_tryPeers hhook).bind fun d' res hres => ?_
      cases res with
      | some n => exact Prog.marks_pure fun _ _ => hres n rfl
      | none =>
          by_cases hleft : left = 0
          · simp only [if_pos hleft]
            exact ih
          · simp only [if_neg hleft]
            refine Prog.marks_call rfl fun waited => ?_
            cases waited with
            | some deadline => exact Prog.marks_pure (by simp)
            | none => exact ih

/-- `fetchChunk` succeeds only after a step that shows the chunk in the store. -/
theorem marks_fetchChunk {retryAttempts : Nat} :
    Fetches work.hash d (fetchChunk H onCommit retryAttempts hasOrigin work) :=
  marks_fetchAttempts hhook

end Commit

end Spider

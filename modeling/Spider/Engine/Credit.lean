import Spider.Engine.Section
import Spider.Lib.History

/-!
# Spider.Engine.Credit

The byte count that `fetchChunk` returns, against the bytes that came from the
source.

Beside the state there is a record of the last request to a peer or to the
origin: how much of the chunk was already there, what was received and what the
source announced.  The count is the announced total, or the size of the partial
at the end if there is none; neither is what was received when the transfer has
continued a partial.
-/

namespace Spider

open Conc

/-! ## Requests -/

/-- The payload bytes of the frames up to the last one. -/
def receivedBytes : List Frame → Nat
  | [] => 0
  | f :: fs => f.payload.length + if f.isEof then 0 else receivedBytes fs

/-- The bytes a peer has sent. -/
def PeerReply.received : PeerReply → Nat
  | .stream frames _ => receivedBytes frames
  | _ => 0

/-- A request for a chunk and its answer. -/
structure Attempt where
  fromPeer : Bool
  /-- The bytes of the chunk that were there before. -/
  kept : Nat
  received : Nat
  /-- The bytes that were written to the pipe. -/
  passed : Nat
  /-- The announced total. -/
  total : Int
  deriving DecidableEq

def peerAttempt (part : Option Bytes) (addr : Str) (offset : Int) (reply : PeerReply) : Attempt :=
  ⟨true, (part.getD []).length, reply.received,
    (downloadChunkTo addr offset reply).blocks.flatten.length,
    (downloadChunkTo addr offset reply).total⟩

def originAttempt (part : Option Bytes) (reply : OriginReply) : Attempt :=
  ⟨false, (part.getD []).length, reply.blocks.flatten.length, reply.blocks.flatten.length,
    reply.total⟩

/-- The record of the last request for chunk `h`. -/
def noteAttempt (h : Str) : Tid → (c : Cmd) → c.Resp → Node → Option Attempt → Option Attempt
  | _, .net (.openStream addr _ offset), reply, s, _ =>
      some (peerAttempt (s.store.partials h) addr offset reply)
  | _, .net (.readOrigin _ _ _), reply, s, _ => some (originAttempt (s.store.partials h) reply)
  | _, _, _, _, g => g

/-- The disk works; peers and the origin send anything. -/
def diskOnly : (c : Cmd) → c.Resp → Bool
  | .store c, r => diskOk c r
  | _, _ => true

/-- A node with a working disk and the record of its last request for `h`. -/
abbrev creditSystem (h : Str) : System nodeSig (Node × Option Attempt) Tid :=
  (nodeSystem.restrict diskOnly).record (noteAttempt h)

/-- What is written is part of what was received. -/
theorem length_receive_le (addr : Str) (offset : Int) (fin : StreamEnd) (frames : List Frame)
    (totalSize skipped downloaded : Int) :
    (receive addr offset fin frames totalSize skipped downloaded).blocks.flatten.length ≤
      receivedBytes frames := by
  have hpush : ∀ (payload : Bytes) (tr : Transfer),
      (tr.push payload).blocks.flatten.length = payload.length + tr.blocks.flatten.length := by
    intro payload tr
    unfold Transfer.push
    split
    · simp
    · next hnil =>
        have hlen : payload.length = 0 := by omega
        rw [hlen, Nat.zero_add]
  induction frames generalizing totalSize skipped downloaded with
  | nil =>
      cases fin with
      | eof => exact Nat.le_refl 0
      | failed e => exact Nat.le_refl 0
  | cons f fs ih =>
      have hrest : ∀ total skipped downloaded, (if f.isEof = true then (⟨[], total, none⟩ : Transfer)
          else receive addr offset fin fs total skipped downloaded).blocks.flatten.length ≤
            if f.isEof = true then 0 else receivedBytes fs := by
        intro total skipped downloaded
        split
        · exact Nat.le_refl 0
        · exact ih ..
      rw [receive, receivedBytes]
      dsimp only
      split
      · split
        · exact (hrest _ _ _).trans (Nat.le_add_left ..)
        · rw [hpush]
          have hle := hrest (if f.totalSize > 0 then f.totalSize else totalSize) offset
            (downloaded + ((f.payload.drop (offset - skipped).toNat).length : Nat))
          have hdrop : (f.payload.drop (offset - skipped).toNat).length ≤ f.payload.length := by
            rw [List.length_drop]
            omega
          exact Nat.add_le_add hdrop hle
      · rw [hpush]
        exact Nat.add_le_add_left (hrest _ _ _) _

theorem passed_le_received (part : Option Bytes) (addr : Str) (offset : Int) (reply : PeerReply) :
    (peerAttempt part addr offset reply).passed ≤ (peerAttempt part addr offset reply).received := by
  cases reply with
  | noClient e => exact Nat.le_refl 0
  | rpcFailed e => exact Nat.le_refl 0
  | stream frames fin => exact length_receive_le ..

/-! ## What is credited -/

/-- The count is the announced total, or what is there at the end. -/
structure Attempt.Credits (a : Attempt) (n : Int) : Prop where
  passed : a.passed ≤ a.received
  count : n = if a.total ≤ 0 then ((a.kept + a.passed : Nat) : Int) else a.total
  covered : a.total ≤ (a.kept + a.passed : Nat)

/-- The partial was empty, or the source has sent at least what it announced; if it
announced nothing, it has sent the bytes that were there again. -/
def Attempt.counted (a : Attempt) : Bool :=
  decide (a.kept = 0) ||
    if a.total ≤ 0 then decide (a.kept + a.passed ≤ a.received) else decide (a.total ≤ a.received)

theorem Attempt.Credits.le_received_iff {a : Attempt} {n : Int} (h : a.Credits n) :
    n ≤ a.received ↔ a.counted = true := by
  obtain ⟨hpassed, hcount, hcovered⟩ := h
  simp only [Attempt.counted, Bool.or_eq_true, decide_eq_true_eq]
  split
  all_goals
    rw [decide_eq_true_eq]
    omega

/-- The request of a lock section, beside the partial of its chunk. -/
def requestSystem : System nodeSig (Option Bytes × Option Attempt) Tid where
  exec _ c r v := match c, r with
    | .store c, r => if diskOk c r then (partialAfter c r v.1).map (·, v.2) else none
    | .net (.openStream addr _ offset), reply =>
        some (v.1, some (peerAttempt v.1 addr offset reply))
    | .net (.readOrigin _ _ _), reply => some (v.1, some (originAttempt v.1 reply))
    | _, _ => some v

theorem onPartial_request : OnPartial requestSystem :=
  ⟨fun _ _ _ _ => rfl, fun _ _ _ _ => rfl⟩

/-- If a download succeeds, its count is that of the last request. -/
def Credited (fromPeer : Bool) (g : Option Attempt) (res : Except Err Int) : Prop :=
  ∀ n, res = .ok n → ∃ a, g = some a ∧ a.fromPeer = fromPeer ∧ a.Credits n

section Request

variable {H : Sha256} {cfg : EngineConfig} {work : WorkItem} {t : Tid} {p : Option Bytes}
variable {g : Option Attempt} {a : Attempt} {fromPeer : Bool}

theorem credited_error {e : Err} : Credited fromPeer g (.error e) := fun _ h => nomatch h

/-- Commands on the disk are no requests. -/
def Cmd.isLocal : Cmd → Bool
  | .store _ | .quota _ => true
  | _ => false

theorem request_local {α : Type} {body : NodeM α} (hbody : body.Only fun c : Cmd => c.isLocal = true) :
    Post requestSystem t (fun _ v => v.2 = g) body (p, g) := by
  refine hbody.post (F := fun v : Option Bytes × Option Attempt => v.2 = g)
    (fun c r v v' hc hg hx => ?_) rfl
  cases c with
  | store c =>
      simp only [requestSystem, Option.ite_none_right_eq_some, Option.map_eq_some_iff] at hx
      obtain ⟨-, q, -, rfl⟩ := hx
      exact hg
  | quota c =>
      simp only [requestSystem, Option.some.injEq] at hx
      rw [← hx]
      exact hg
  | _ => contradiction

/-- The end of a download adds no request. -/
theorem request_finishTransfer {h : Str} {q : Bytes} {fail : Err → Err}
    (hh : (parseHash h).isSome = true) (hq : q.length = a.kept + a.passed)
    (hpassed : a.passed ≤ a.received) :
    Post requestSystem t (fun res v => Credited a.fromPeer v.2 res)
      (finishTransfer H cfg.onCommit h a.total fail) (some q, some a) := by
  apply (section_partialSize onPartial_request hh).seq
  rintro _ _ ⟨rfl, rfl⟩
  rw [Option.getD_some]
  split
  · exact credited_error
  · next hlong =>
      have hcommit : (commitPartial H cfg.onCommit h).Only fun c : Cmd => c.isLocal = true :=
        only_commitPartial (fun _ _ => rfl) (cfg.only_onCommit fun _ => rfl) H
      have hdiscard : (discardPartial h).Only fun c : Cmd => c.isLocal = true :=
        only_discardPartial fun _ _ => rfl
      apply (request_local hcommit).seq
      rintro r ⟨p', g'⟩ rfl
      cases r with
      | some e =>
          dsimp only
          split
          · exact (post_true _).seq fun _ _ _ => credited_error
          · exact credited_error
      | none =>
          intro n hn
          have hcovered : a.total ≤ (a.kept + a.passed : Nat) := by omega
          refine ⟨a, rfl, rfl, hpassed, ?_, hcovered⟩
          rw [← Except.ok.inj hn, hq]

/-- What a request adds to the record. -/
theorem request_asked {src : ChunkSource} {q : Option Bytes} :
    Post requestSystem t (fun tr v => ∃ a, v = (q, some a) ∧ a.fromPeer = src.addr.isSome ∧
        a.kept = (q.getD []).length ∧ a.passed = tr.blocks.flatten.length ∧ a.total = tr.total ∧
        a.passed ≤ a.received)
      (src.request work (q.getD []).length) (q, g) := by
  cases src with
  | peer addr =>
      apply Post.perform
      intro reply v hv
      rw [← Option.some.inj hv]
      exact ⟨_, rfl, rfl, rfl, rfl, rfl, passed_le_received q addr _ reply⟩
  | origin =>
      apply Post.perform
      intro reply v hv
      rw [← Option.some.inj hv]
      exact ⟨_, rfl, rfl, rfl, rfl, rfl, Nat.le_refl _⟩

theorem request_transferSection {src : ChunkSource} :
    Post requestSystem t (fun res v => Credited src.addr.isSome v.2 res)
      (transferSection H cfg.onCommit src work) (p, g) := by
  have hfailed : ∀ (e : RemoteErr) (v : Option Bytes × Option Attempt),
      Post requestSystem t (fun res v => Credited src.addr.isSome v.2 res)
        (if src.spoils e then do
            let _ ← discardPartial work.hash
            pure (.error (.remote e))
          else pure (.error (.remote e))) v := by
    intro e v
    split
    · exact (post_true _).seq fun _ _ _ => credited_error
    · exact credited_error
  cases hh : parseHash work.hash with
  | none =>
      -- such a chunk has no partial file
      refine (post_true _).seq fun _ _ _ => (post_true _).seq fun _ _ _ => ?_
      refine (post_true _).seq fun tr _ _ => ?_
      simp only [appendPartial, hh]
      apply Post.perform
      intro _ v _
      cases tr.err with
      | some e => exact hfailed e v
      | none => exact credited_error
  | some name =>
      have hh : (parseHash work.hash).isSome = true := by rw [hh]; rfl
      apply (section_partialSize onPartial_request hh).seq
      rintro _ _ ⟨rfl, rfl⟩
      apply (section_resumeFrom onPartial_request hh _).seq
      rintro _ _ ⟨q, rfl, rfl⟩
      apply request_asked.seq
      rintro tr _ ⟨a, rfl, hfrom, hkept, hsent, htotal, hpassed⟩
      cases herr : tr.err with
      | some e => exact (post_true _).seq fun _ _ _ => (post_true _).seq fun _ v _ => hfailed e v
      | none =>
          apply (section_appendPartial onPartial_request hh _).seq
          rintro _ _ ⟨rfl, rfl⟩
          apply Post.perform
          intro _ v hv
          rw [← Option.some.inj hv, ← hfrom, ← htotal]
          refine request_finishTransfer hh ?_ hpassed
          rw [List.length_append, flatten_copyReads, hkept, hsent]

end Request

/-! ## Whole fetches -/

section Fetch

variable {H : Sha256} {cfg : EngineConfig} {work : WorkItem} {t : Tid} {x : Node × Option Attempt}

/-- The commands of a section do to the partial and the record what they do in
`requestSystem`. -/
theorem request_step {addr : Option Str} {h : Str} (c : Cmd) (r : c.Resp)
    (x x' : Node × Option Attempt) (hc : c.carries addr h = true)
    (hx : (creditSystem h).exec t c r x = some x') :
    requestSystem.exec t c r (x.1.store.partials h, x.2) = some (x'.1.store.partials h, x'.2) := by
  obtain ⟨hexec, hg⟩ := System.record_eq_some hx
  obtain ⟨hok, hexec⟩ := System.restrict_eq_some hexec
  cases c with
  | store c =>
      obtain ⟨y, hy, hs⟩ := nodeExec_store hexec
      have hg : x'.2 = x.2 := hg
      have hdisk : diskOk c r = true := hok
      simp only [requestSystem, hdisk, if_true, (partialAfter_execStore hc hdisk hy).1, hs, hg,
        Option.map_some]
  | net c =>
      have hstore : x'.1.store = x.1.store := nodeExec_storeFree rfl hexec
      rw [hstore, hg]
      cases c <;> rfl
  | quota c =>
      have hstore : x'.1.store = x.1.store := nodeExec_storeFree rfl hexec
      rw [hstore, hg]
      rfl
  | _ => contradiction

theorem credit_withHashLock {addr : Option Str} {body : NodeM (Except Err Int)} {fromPeer : Bool}
    (honly : body.Only fun c : Cmd => c.carries addr work.hash = true)
    (hbody : ∀ v, Post requestSystem t (fun res v => Credited fromPeer v.2 res) body v) :
    Post (creditSystem work.hash) t (fun res x' => Credited fromPeer x'.2 res)
      (withHashLock work.hash errorOf body) x := by
  apply Post.perform
  intro _ x1 _
  have hin : Post (creditSystem work.hash) t (fun res x' => Credited fromPeer x'.2 res) body x1 :=
    Post.of_view (s := x1) (fun c r s s' hc hx => request_step c r s s' hc hx) honly
      (hbody (x1.1.store.partials work.hash, x1.2))
  apply hin.seq
  intro res x2 hres
  apply Post.perform
  intro _ x3 hx3
  have hg : x3.2 = x2.2 := (System.record_eq_some hx3).2
  rw [← hg] at hres
  exact hres

theorem credit_tryPeers (addrs : List Str) :
    Post (creditSystem work.hash) t
      (fun r x' => ∀ n, r = some n → Credited true x'.2 (.ok n))
      (tryPeers H cfg.onCommit work addrs) x := by
  induction addrs generalizing x with
  | nil => exact fun _ h => nomatch h
  | cons addr addrs ih =>
      rw [tryPeers]
      by_cases haddr : addr = []
      · rw [if_pos haddr]
        exact ih
      · rw [if_neg haddr]
        apply Post.perform
        intro began x1 _
        cases began with
        | false => exact ih
        | true =>
            simp only [if_true, downloadFromPeer_eq]
            apply (credit_withHashLock only_transferSection fun v => request_transferSection).seq
            intro res x2 hres
            cases res with
            | ok n =>
                intro m hm
                rw [← Option.some.inj hm]
                exact hres
            | error e => exact ih

theorem credit_fetchFromOrigin (hasOrigin : Bool) :
    Post (creditSystem work.hash) t
      (fun r x' => ∀ fromPeer n, r = .ok (fromPeer, n) → Credited fromPeer x'.2 (.ok n))
      (fetchFromOrigin H cfg.onCommit hasOrigin work) x := by
  cases hasOrigin with
  | false => exact fun _ _ h => nomatch h
  | true =>
      have horigin : Post (creditSystem work.hash) t (fun res x' => Credited false x'.2 res)
          (downloadFromOrigin H cfg.onCommit work) x := by
        apply Post.perform
        intro r x1 _
        cases r with
        | some deadline => exact credited_error
        | none =>
            rw [readFromOrigin_eq]
            apply (credit_withHashLock only_transferSection fun v => request_transferSection).seq
            intro res x2 hres
            apply Post.perform
            intro _ x3 hx3
            have hg : x3.2 = x2.2 := (System.record_eq_some hx3).2
            rw [← hg] at hres
            exact hres
      apply horigin.seq
      intro res x2 hres
      cases res with
      | error e => exact fun _ _ h => nomatch h
      | ok n =>
          intro fromPeer m hm
          obtain ⟨rfl, rfl⟩ := hm
          exact hres

theorem credit_fetchAttempts (hasOrigin : Bool) (left : Nat) :
    Post (creditSystem work.hash) t
      (fun r x' => ∀ fromPeer n, r = .ok (fromPeer, n) → Credited fromPeer x'.2 (.ok n))
      (fetchAttempts H cfg.onCommit hasOrigin work left) x := by
  induction left generalizing x with
  | zero => exact credit_fetchFromOrigin hasOrigin
  | succ left ih =>
      apply Post.perform
      intro cands x1 _
      apply (credit_tryPeers cands).seq
      intro r x2 hr
      cases r with
      | some n =>
          intro fromPeer m hm
          obtain ⟨rfl, rfl⟩ := hm
          exact hr n rfl
      | none =>
          dsimp only
          split
          · exact ih
          · apply Post.perform
            intro r x3 _
            cases r with
            | some deadline => exact fun _ _ h => nomatch h
            | none => exact ih

end Fetch

/-- One peer, which serves the chunk from where it is asked to. -/
def resumingPeer : World where
  candidates _ := [str "10.0.0.2:9000"]
  reply _ _ offset := .stream [⟨2, offset, twoBytes.drop offset.toNat, true⟩] .eof
  files := []

/-- A node with a part of the two-byte chunk. -/
def nodeWithPartial (part : Option Bytes) : Node :=
  { emptyNode with store := { emptyNode.store with
      partials := fun h => if h = twoBytesWork.hash then part else none } }

/-- The fetch of the two-byte chunk from that peer, to its end. -/
def fetchedFrom (part : Option Bytes) : Node × Option Attempt :=
  (fetchChunk (.numbering [twoBytes]) none 3 false twoBytesWork).finalState
    (creditSystem twoBytesWork.hash) 0 (fun c x => resumingPeer.answer c x.1)
    (nodeWithPartial part, none)

end Spider

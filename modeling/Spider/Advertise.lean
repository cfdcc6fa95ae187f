import Spider.Tracker.Server

/-!
# Spider.Advertise

A batch of chunk advertisements on its way to the tracker's store
(`Advertiser.flush` in `pkg/advertise`, `Server.ReportChunks`), and the other
replies that promise that something is recorded.

A store operation that fails is not reported back: the reply says success, and
the advertiser counts the batch as advertised.
-/

namespace Spider

open Conc

/-! ## The advertiser -/

/-- `ChunkReporter`. -/
inductive ReporterCmd where
  | reportChunks (nodeID : Str) (chunkHashes : List Str)

/-- The number of recorded chunks, or a transport error. -/
abbrev reporterSig : Sig := ⟨ReporterCmd, fun _ => Except Str Nat⟩

/-- What of the advertiser a flush reads. -/
structure Advertiser where
  hasClient : Bool
  nodeID : Str
  maxRetries : Nat

/-- What a flush has done: the error it returns, the retry it has scheduled, and
what it has added to the counters of successes and failures. -/
structure Flushed where
  err : Option Str
  retry : Option (List Str × Nat)
  success : Nat
  failures : Nat
  deriving DecidableEq

/-- `Advertiser.flush`. -/
def Advertiser.flush (a : Advertiser) (hashes : List Str) (attempt : Nat) :
    Prog reporterSig Flushed :=
  if a.hasClient = false ∨ hashes = [] then pure ⟨none, none, 0, 0⟩
  else do
    match ← Prog.perform (S := reporterSig) (.reportChunks a.nodeID hashes) with
    | .error err =>
        if attempt + 1 < a.maxRetries then pure ⟨some err, some (hashes, attempt + 1), 0, 0⟩
        else pure ⟨some err, none, 0, hashes.length⟩
    | .ok _ => pure ⟨none, none, hashes.length, 0⟩

/-- The batch counts as advertised. -/
def Flushed.Advertised (o : Flushed) (hashes : List Str) : Prop :=
  o.err = none ∧ o.retry = none ∧ o.success = hashes.length

/-- What becomes of a call to the tracker. -/
inductive Delivery where
  | delivered
  | requestLost (err : Str)
  | replyLost (err : Str)

/-- Both ways went through. -/
def Delivery.arrives : Delivery → Bool
  | .delivered => true
  | .requestLost _ => false
  | .replyLost _ => false

/-- The tracker as its clients reach it. -/
def reporter {σ : Type} (exec : StoreImpl σ) (fate : Fate) (delivery : Delivery) (now : Time) :
    Handler reporterSig σ
  | .reportChunks nodeID hashes, s =>
      let served := (Server.reportChunks nodeID hashes).eval (exec.failing fate now) s
      match delivery with
      | .delivered => (.ok served.1, served.2)
      | .requestLost err => (.error err, s)
      | .replyLost err => (.error err, served.2)

/-! ## Acknowledged and recorded -/

/-- The calls whose reply says that something is recorded. -/
inductive Promise where
  | registerPeer (peer : Option PeerInfo)
  | deregisterPeer (nodeID : Str)
  | reportArtifact (nodeID artifactID : Str)
  | flush (a : Advertiser) (hashes : List Str) (attempt : Nat) (delivery : Delivery)

section Promises

variable {σ : Type} (S : TrackerStore σ)

/-- The call, made over a store whose operation has this fate, is acknowledged:
`Success`, or a batch counted as advertised. -/
def Promise.Acknowledged (fate : Fate) (now : Time) (s : σ) : Promise → Prop
  | .registerPeer peer =>
      ((Server.registerPeer peer).eval (S.exec.failing fate now) s).1.success = true
  | .deregisterPeer nodeID =>
      ((Server.deregisterPeer nodeID).eval (S.exec.failing fate now) s).1 = true
  | .reportArtifact nodeID artifactID =>
      ((Server.reportArtifact nodeID artifactID true).eval (S.exec.failing fate now) s).1 = true
  | .flush a hashes attempt delivery =>
      ((a.flush hashes attempt).eval (reporter S.exec fate delivery now) s).1.Advertised hashes

/-- The store after the call. -/
def Promise.after (fate : Fate) (now : Time) (s : σ) : Promise → σ
  | .registerPeer peer => ((Server.registerPeer peer).eval (S.exec.failing fate now) s).2
  | .deregisterPeer nodeID =>
      ((Server.deregisterPeer nodeID).eval (S.exec.failing fate now) s).2
  | .reportArtifact nodeID artifactID =>
      ((Server.reportArtifact nodeID artifactID true).eval (S.exec.failing fate now) s).2
  | .flush a hashes attempt delivery =>
      ((a.flush hashes attempt).eval (reporter S.exec fate delivery now) s).2

/-- What is promised about the store `s'` after the call, made on `s`: the effect
of the store operation, or a location for every hash of the batch. -/
def Promise.Recorded (now : Time) (s s' : σ) : Promise → Prop
  | .registerPeer peer => ∀ info, peer = some info →
      s' = (S.exec now (.upsertPeer (registeredPeer info now)) s).2
  | .deregisterPeer nodeID => s' = (S.exec now (.deregisterPeer nodeID) s).2
  | .reportArtifact nodeID artifactID => s' = (S.exec now (.reportSeed artifactID nodeID) s).2
  | .flush a hashes _ _ => ∀ h ∈ hashes, h ≠ [] → S.located s' (.chunk h) a.nodeID

/-- An acknowledged call is recorded. -/
def Promise.Kept (q : Promise) (fate : Fate) (now : Time) (s : σ) : Prop :=
  q.Acknowledged S fate now s → q.Recorded S now s (q.after S fate now s)

/-- No acknowledgement is due: the registration names no node, or the batch does
not get through. -/
def Promise.Refused : Promise → Prop
  | .registerPeer peer => ∀ info, peer = some info → info.nodeID = []
  | .deregisterPeer _ => False
  | .reportArtifact _ _ => False
  | .flush a _ _ delivery => a.hasClient = false ∨ delivery.arrives = false

variable {S} {fate : Fate} {now : Time} {s : σ}

/-- The effect is in the store, or was there before. -/
theorem after_eq_iff {c : StoreCall} :
    fate.after S.exec now c s = (S.exec now c s).2 ↔
      fate.applies = true ∨ s = (S.exec now c s).2 := by
  unfold Fate.after
  cases fate.applies <;> simp

theorem located_after_reportChunks {nodeID : Str} {hashes : List Str} :
    (∀ h ∈ hashes, h ≠ [] →
      S.located (fate.after S.exec now (.reportChunks nodeID hashes) s) (.chunk h) nodeID) ↔
    fate.applies = true ∨ ∀ h ∈ hashes, h ≠ [] → S.located s (.chunk h) nodeID := by
  unfold Fate.after
  cases fate.applies with
  | false => simp
  | true =>
      simp only [if_true, true_or, iff_true]
      intro h hh hne
      exact (S.located_exec now _ s _ _).mpr (.inl ⟨rfl, h, hh, hne, rfl⟩)

/-- A registration that names a node, or one that names none. -/
theorem registerPeer_kept_iff (peer : Option PeerInfo) :
    (Promise.registerPeer peer).Kept S fate now s ↔
      (Promise.registerPeer peer).Refused ∨ fate.applies = true ∨
        (Promise.registerPeer peer).Recorded S now s s := by
  cases peer with
  | none => simp [Promise.Kept, Promise.Acknowledged, Promise.Refused, Server.registerPeer]
  | some info =>
      by_cases hid : info.nodeID = []
      · simp [Promise.Kept, Promise.Acknowledged, Promise.Refused, Server.registerPeer, hid]
      · simp only [Promise.Kept, Promise.Acknowledged, Promise.Refused, Promise.Recorded,
          Promise.after, eval_registerPeer hid, Option.some.injEq, forall_eq', hid, false_or,
          true_imp_iff]
        exact after_eq_iff

section Flush

variable {a : Advertiser} {hashes : List Str} {attempt : Nat} {delivery : Delivery}

/-- A batch that gets through. -/
theorem eval_flush_delivered (hclient : a.hasClient = true) (hne : hashes ≠ []) :
    (a.flush hashes attempt).eval (reporter S.exec fate .delivered now) s =
      (⟨none, none, hashes.length, 0⟩,
        fate.after S.exec now (.reportChunks a.nodeID hashes) s) := by
  rw [Advertiser.flush, if_neg (by simp [hclient, hne]), ← eval_reportChunks]
  rfl

/-- A batch that does not get through. -/
theorem err_flush {h : Handler reporterSig σ} {err : Str} (hclient : a.hasClient = true)
    (hne : hashes ≠ []) (hlost : (h (.reportChunks a.nodeID hashes) s).1 = .error err) :
    ((a.flush hashes attempt).eval h s).1.err = some err := by
  rw [Advertiser.flush, if_neg (by simp [hclient, hne]), Prog.eval_bind, Prog.eval_perform, hlost]
  by_cases hretry : attempt + 1 < a.maxRetries
  · simp [hretry]
  · simp [hretry]

/-- A batch is advertised only if it is empty or gets through. -/
theorem arrives_of_advertised
    (h : ((a.flush hashes attempt).eval (reporter S.exec fate delivery now) s).1.Advertised hashes) :
    hashes = [] ∨ a.hasClient = true ∧ delivery = .delivered := by
  by_cases hne : hashes = []
  · exact .inl hne
  · cases hclient : a.hasClient with
    | false =>
        rw [Advertiser.flush, if_pos (.inl hclient)] at h
        obtain ⟨-, -, hcount⟩ := h
        exact .inl (List.length_eq_zero_iff.mp hcount.symm)
    | true =>
        have hlost : ∀ err, (reporter S.exec fate delivery now
            (.reportChunks a.nodeID hashes) s).1 ≠ .error err := by
          intro err hx
          rw [Flushed.Advertised, err_flush hclient hne hx] at h
          exact nomatch h.1
        cases delivery with
        | delivered => exact .inr ⟨rfl, rfl⟩
        | requestLost err | replyLost err => exact absurd rfl (hlost err)

theorem flush_kept_iff :
    (Promise.flush a hashes attempt delivery).Kept S fate now s ↔
      (Promise.flush a hashes attempt delivery).Refused ∨ fate.applies = true ∨
        (Promise.flush a hashes attempt delivery).Recorded S now s s := by
  by_cases hne : hashes = []
  · simp [Promise.Kept, Promise.Recorded, hne]
  · by_cases hgood : a.hasClient = true ∧ delivery = .delivered
    · obtain ⟨hclient, rfl⟩ := hgood
      simp only [Promise.Kept, Promise.Acknowledged, Promise.after, Promise.Recorded,
        eval_flush_delivered hclient hne, Promise.Refused, hclient, Delivery.arrives]
      simp [Flushed.Advertised, located_after_reportChunks]
    · refine iff_of_true (fun hack => ?_) (.inl ?_)
      · rcases arrives_of_advertised hack with h | h
        · exact absurd h hne
        · exact absurd h hgood
      · cases hclient : a.hasClient with
        | false => exact .inl hclient
        | true => cases delivery with
          | delivered => exact absurd ⟨hclient, rfl⟩ hgood
          | requestLost err => exact .inr rfl
          | replyLost err => exact .inr rfl

end Flush

end Promises

/-- Whatever the store does: an acknowledged call is recorded just if no
acknowledgement was due, or its store operation took effect, or what it promises
was there before. -/
theorem promise_kept_iff {σ : Type} (S : TrackerStore σ) (q : Promise) (fate : Fate) (now : Time)
    (s : σ) :
    q.Kept S fate now s ↔ q.Refused ∨ fate.applies = true ∨ q.Recorded S now s s := by
  cases q with
  | registerPeer peer => exact registerPeer_kept_iff peer
  | deregisterPeer nodeID =>
      simp only [Promise.Kept, Promise.Acknowledged, Promise.Refused, Promise.Recorded,
        Promise.after, eval_deregisterPeer, true_imp_iff, false_or]
      exact after_eq_iff
  | reportArtifact nodeID artifactID =>
      simp only [Promise.Kept, Promise.Acknowledged, Promise.Refused, Promise.Recorded,
        Promise.after, eval_reportArtifact, true_imp_iff, false_or]
      exact after_eq_iff
  | flush a hashes attempt delivery => exact flush_kept_iff

/-- While the store refuses writes, a registration succeeds and a batch counts as
advertised, and neither the peer nor the location is there. -/
theorem acknowledged_not_recorded :
    let S := memoryStore .plain
    let fate : Fate := .fails (str "database is locked")
    let info : PeerInfo := ⟨str "n1", str "10.0.0.1:9000", [], [], [], [], 0⟩
    let batch : Promise := .flush ⟨true, str "n1", 3⟩ [str "c1"] 0 .delivered
    ((Promise.registerPeer (some info)).Acknowledged S fate 1 .new ∧
      ¬ S.registered ((Promise.registerPeer (some info)).after S fate 1 .new) (str "n1")) ∧
    (batch.Acknowledged S fate 1 .new ∧ ¬ batch.Recorded S 1 .new (batch.after S fate 1 .new)) := by
  intro S fate info batch
  refine ⟨⟨rfl, fun hreg => ?_⟩, ⟨⟨rfl, rfl, rfl⟩, fun hrec => ?_⟩⟩
  · exact S.not_registered_init (str "n1") hreg
  · exact S.not_located_init _ _ (hrec (str "c1") (List.mem_singleton_self _) (by decide))

end Spider

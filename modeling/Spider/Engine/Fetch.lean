import Spider.Engine.Transfer
import Spider.Lib.Handler
import Spider.Scheduler

/-!
# Spider.Engine.Fetch

`fetchChunk` (`pkg/engine/engine.go`) with the scheduler it works with.

`Spider.Engine.Transfer` leaves open which peers the scheduler names and lets a
transfer begin with.  Here the scheduler is part of the state and its four
methods, each of which runs under its mutex, are commands of their own.  What this
program does to the node the earlier one can do too (`fetchChunk_refines`).
-/

namespace Spider

open Conc

/-! ## The scheduler's commands -/

/-- What `RankPeers` is given and the order it returns. -/
structure Ranking where
  /-- The locations known for the chunk, by address. -/
  known : List Str
  now : Time
  order : List Str
  deriving DecidableEq

inductive FetchCmd where
  | node (c : Cmd)
  | rankPeers (h : Str)
  | isUntrusted (addr : Str)
  | beginTransfer (addr : Str)
  | endTransfer (addr : Str) (ok : Bool)

/-- An answer contains the time at which it was given, where it depends on it. -/
abbrev FetchCmd.Resp : FetchCmd → Type
  | .node c => c.Resp
  | .rankPeers _ => Ranking
  | .isUntrusted _ => Time × Bool
  | .beginTransfer _ => Bool
  | .endTransfer _ _ => Time

abbrev fetchSig : Sig := ⟨FetchCmd, FetchCmd.Resp⟩

/-- Programs on a node and its scheduler. -/
abbrev FetchM := Prog fetchSig

def fetchExec (t : Tid) : (c : FetchCmd) → c.Resp → Node × Scheduler → Option (Node × Scheduler)
  | .node c, r, (n, sch) => (nodeSystem.exec t c r n).map (·, sch)
  -- the order of the candidates: locality, load, speed, then `sortByAssigned`
  | .rankPeers _, r, (n, sch) =>
      if r.order.isPerm (sch.rankPeers r.now r.known).1 then
        some (n, (sch.rankPeers r.now r.known).2)
      else none
  | .isUntrusted addr, (now, b), (n, sch) =>
      if b = sch.isUntrusted now addr then some (n, sch) else none
  | .beginTransfer addr, b, (n, sch) =>
      if b = (sch.beginTransfer addr).1 then some (n, (sch.beginTransfer addr).2) else none
  | .endTransfer addr ok, now, (n, sch) => some (n, sch.endTransfer now addr ok)

def fetchSystem : System fetchSig (Node × Scheduler) Tid := ⟨fetchExec⟩

def onFetch (c : FetchCmd) : FetchM c.Resp := @Prog.perform fetchSig c

/-- A program of the node. -/
def onNode {α : Type} (p : NodeM α) : FetchM α :=
  p.interp fun c => @Prog.perform fetchSig (.node c)

/-! ## Fetching a chunk -/

namespace Scheduled

/-- The candidates of one attempt, in order, until one delivers. -/
def tryPeers (H : Sha256) (onCommit : OnCommit) (work : WorkItem) : List Str → FetchM (Option Int)
  | [] => pure none
  | addr :: addrs =>
      if addr = [] then tryPeers H onCommit work addrs
      else do
        let (_, untrusted) ← onFetch (.isUntrusted addr)
        if untrusted then tryPeers H onCommit work addrs
        else do
          if ← onFetch (.beginTransfer addr) then do
            let res ← onNode (downloadFromPeer H onCommit addr work)
            let _ ← onFetch (.endTransfer addr (errorOf res).isNone)
            match res with
            | .ok n => pure (some n)
            | .error _ => do
                -- the connection to a peer that is untrusted now is closed
                let _ ← onFetch (.isUntrusted addr)
                tryPeers H onCommit work addrs
          else tryPeers H onCommit work addrs

/-- The attempts that are left, then the origin. -/
def fetchAttempts (H : Sha256) (onCommit : OnCommit) (hasOrigin : Bool) (work : WorkItem) :
    Nat → FetchM (Except Err (Bool × Int))
  | 0 => onNode (fetchFromOrigin H onCommit hasOrigin work)
  | left + 1 => do
      let cands ← onFetch (.rankPeers work.hash)
      match ← tryPeers H onCommit work cands.order with
      | some n => pure (.ok (true, n))
      | none =>
        if left = 0 then fetchAttempts H onCommit hasOrigin work left
        else do
          match ← onNode (onNet .backoff) with
          | some deadline => pure (.error (.ctx deadline))
          | none => fetchAttempts H onCommit hasOrigin work left

/-- `fetchChunk`. -/
def fetchChunk (H : Sha256) (onCommit : OnCommit) (retryAttempts : Nat) (hasOrigin : Bool)
    (work : WorkItem) : FetchM (Except Err (Bool × Int)) :=
  fetchAttempts H onCommit hasOrigin work retryAttempts

end Scheduled

/-! ## Without the scheduler -/

/-- In whatever state `p` makes a step, steps of `q` lead to the same node, and `q` goes on as
`p` does. -/
def Refines {α : Type} : FetchM α → NodeM α → Prop
  | .ret a, q => q = .ret a
  | .call c k, q => ∀ t r s s', s.1.job.panicked = false → fetchExec t c r s = some s' →
      ∃ q', Advances nodeSystem t q s.1 q' s'.1 ∧ Refines (k r) q'

variable {α β : Type} {q : NodeM α}

theorem Refines.bind {p : FetchM α} {f : α → FetchM β} {g : α → NodeM β} (h : Refines p q)
    (hf : ∀ a, Refines (f a) (g a)) : Refines (p >>= f) (q >>= g) := by
  induction p generalizing q with
  | ret a => exact (show q = .ret a from h) ▸ hf a
  | call c k ih =>
      intro t r s s' hs hx
      obtain ⟨q', hadv, hq⟩ := h t r s s' hs hx
      exact ⟨_, hadv.bind, ih r hq⟩

theorem refines_onNode (p : NodeM α) : Refines (onNode p) p := by
  induction p with
  | ret a => rfl
  | call c k ih =>
      intro t r s s' _ hx
      obtain ⟨n, hexec, rfl⟩ := Option.map_eq_some_iff.mp hx
      exact ⟨k r, .step hexec .refl, ih r⟩

/-- A command to the scheduler leaves the node as it is. -/
theorem refines_scheduler {c : FetchCmd} {k : c.Resp → FetchM α} (hc : ∀ d, c ≠ .node d)
    (h : ∀ t r n, n.job.panicked = false → ∃ q', Advances nodeSystem t q n q' n ∧
      Refines (k r) q') : Refines (.call c k) q := by
  intro t r s s' hs hx
  obtain ⟨q', hadv, hq⟩ := h t r s.1 hs
  have hsame : s'.1 = s.1 := by cases c <;> simp [fetchExec] at hc hx <;> grind
  exact ⟨q', hsame ▸ hadv, hq⟩

theorem advances_net {d : NetCmd} (r : d.Resp) {k : d.Resp → NodeM α} {t : Tid} {n : Node}
    (hd : execNet d r n.net = some n.net) (hn : n.job.panicked = false) :
    Advances nodeSystem t (.call (.net d) k) n (k r) n :=
  .step (by simp [nodeSystem, nodeExec, hd, hn]) .refl

variable (H : Sha256) (onCommit : OnCommit) (work : WorkItem)

theorem refines_tryPeers (addrs : List Str) :
    Refines (Scheduled.tryPeers H onCommit work addrs) (tryPeers H onCommit work addrs) := by
  induction addrs with
  | nil => rfl
  | cons addr addrs ih =>
      rw [Scheduled.tryPeers, tryPeers]
      split
      · exact ih
      · refine refines_scheduler (by simp) fun t r n hn => ?_
        obtain ⟨now, untrusted⟩ := r
        cases untrusted with
        | true => exact ⟨_, advances_net (d := .beginTransfer addr) false rfl hn, ih⟩
        | false =>
            refine ⟨_, .refl, refines_scheduler (by simp) fun t began n hn =>
              ⟨_, advances_net began rfl hn, ?_⟩⟩
            cases began with
            | false => exact ih
            | true =>
                refine (refines_onNode _).bind fun res =>
                  refines_scheduler (by simp) fun t r n hn => ⟨_, .refl, ?_⟩
                cases res with
                | ok n => rfl
                | error e => exact refines_scheduler (by simp) fun t r n hn => ⟨_, .refl, ih⟩

/-- **The scheduler decides which peers are asked.**  What is done with their answers is
`fetchChunk` of `Spider.Engine.Transfer`. -/
theorem fetchChunk_refines (retryAttempts : Nat) (hasOrigin : Bool) :
    Refines (Scheduled.fetchChunk H onCommit retryAttempts hasOrigin work)
      (fetchChunk H onCommit retryAttempts hasOrigin work) := by
  rw [Scheduled.fetchChunk, fetchChunk]
  induction retryAttempts with
  | zero => exact refines_onNode _
  | succ left ih =>
      rw [Scheduled.fetchAttempts, fetchAttempts]
      refine refines_scheduler (by simp) fun t cands n hn =>
        ⟨_, advances_net cands.order rfl hn, ?_⟩
      refine (refines_tryPeers H onCommit work cands.order).bind fun delivered => ?_
      cases delivered with
      | some n => rfl
      | none =>
          dsimp only
          split
          · exact ih
          · refine (refines_onNode _).bind fun r => ?_
            cases r with
            | some deadline => rfl
            | none => exact ih

end Spider

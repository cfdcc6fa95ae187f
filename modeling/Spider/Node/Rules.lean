import Spider.Node.Commands

/-!
# Spider.Node.Rules

The program logic of `Spider.Lib.Prog` at the node's commands: for a program
that starts with a command of one part of the node, what is left to show is
about that part only.
-/

namespace Spider

open Conc

variable {t : Tid} {s : Node} {α : Type} {Q : α → Node → Prop}

/-! ## One program alone -/

theorem post_store {c : StoreCmd} {k : c.Resp → NodeM α}
    (h : ∀ r x, execStore t c r s.store = some x →
      Post nodeSystem t Q (k r) { s with store := x }) :
    Post nodeSystem t Q (onStore c >>= k) s := by
  intro r s' hx
  obtain ⟨x, hpart, rfl⟩ := nodeExec_store hx
  exact h r x hpart

theorem post_quota {c : QuotaCmd} {k : c.Resp → NodeM α}
    (h : ∀ r x, execQuota t c r s.quota = some x →
      Post nodeSystem t Q (k r) { s with quota := x }) :
    Post nodeSystem t Q (onQuota c >>= k) s := by
  intro r s' hx
  obtain ⟨x, hpart, rfl⟩ := nodeExec_quota hx
  exact h r x hpart

/-! ## Commands that only look -/

/-- The store commands that ask and change nothing. -/
def StoreCmd.asks : StoreCmd → Bool
  | .statPartial _ | .mkdirPartialDir | .syncPartial _ | .closePartial _ | .openVerify _
  | .readPartial _ | .mkdirShard _ | .statChunk _ | .openChunk _ | .readChunk _
  | .listChunks | .saveManifest _ => true
  | _ => false

theorem execStore_asks {c : StoreCmd} {r : c.Resp} {x y : Store} (hc : c.asks = true)
    (h : execStore t c r x = some y) : y = x := by
  cases c with
  | mkdirPartialDir | syncPartial _ | closePartial _ | mkdirShard _ | readChunk _
  | saveManifest _ => exact (Option.some.inj h).symm
  | statPartial _ | statChunk _ | openChunk _ | openVerify _ | readPartial _ | listChunks =>
      -- an answer about a file is checked against it
      cases r <;> simp only [execStore, Option.ite_none_right_eq_some, Option.some.injEq] at h <;>
        simp [h]
  | _ => contradiction

/-- Whatever a question answers, the state is the same afterwards. -/
theorem post_asks {c : StoreCmd} {k : c.Resp → NodeM α} (hc : c.asks = true)
    (h : ∀ r, Post nodeSystem t Q (k r) s) : Post nodeSystem t Q (onStore c >>= k) s := by
  apply post_store
  intro r x hx
  rw [execStore_asks hc hx]
  exact h r

/-! ## Commands and the store -/

/-- Commands that leave the store as it is. -/
def Cmd.storeFree : Cmd → Bool
  | .store c => c.asks
  | _ => true

theorem nodeExec_storeFree {c : Cmd} {r : c.Resp} {s' : Node} (hc : c.storeFree = true)
    (h : nodeSystem.exec t c r s = some s') : s'.store = s.store := by
  cases c with
  | store c =>
      obtain ⟨x, hx, rfl⟩ := nodeExec_store h
      exact execStore_asks hc hx
  | _ => exact (nodeExec_frame h).1 (by simp)

/-! ## Rely and guarantee -/

variable {P : Protocol nodeSystem}

theorem wp_store {c : StoreCmd} {k : c.Resp → NodeM α}
    (h : ∀ s', P.rely t s s' → P.Inv s' → P.about t (.store c) s' ∧
      ∀ r x, execStore t c r s'.store = some x → P.Inv { s' with store := x } →
        P.wp t Q (k r) { s' with store := x }) :
    P.wp t Q (onStore c >>= k) s := by
  apply Protocol.wp_perform
  intro s' hr hi
  obtain ⟨ha, hk⟩ := h s' hr hi
  refine ⟨ha, fun r s'' hx hi' => ?_⟩
  obtain ⟨x, hpart, rfl⟩ := nodeExec_store hx
  exact hk r x hpart hi'

end Spider

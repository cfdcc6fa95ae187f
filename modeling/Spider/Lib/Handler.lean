import Spider.Lib.Prog

/-!
# Spider.Lib.Handler

Programs run by a handler.  A handler answers every command and keeps a state
of its own, so that a program has one result; what is open about the
environment is a parameter of the handler.

* `Prog.eval`: the result of a program under a handler.
* `Prog.interp`: each command carried out by a program over other commands.
  `Protocol.wp_interp`: what such a program does among other threads, seen
  through the part of the state that is the thread's own.
* `System.ofHandler`: threads whose commands a handler answers.
-/

namespace Conc

variable {S S' : Sig} {σ α β : Type}

/-- The answer to a command, and the state after it. -/
abbrev Handler (S : Sig) (σ : Type) := (c : S.Cmd) → σ → S.Resp c × σ

namespace Prog

/-- Run a program to its end. -/
def eval (h : Handler S σ) : Prog S α → σ → α × σ
  | .ret a, s => (a, s)
  | .call c k, s => (k (h c s).1).eval h (h c s).2

/-- Carry out each command by a program. -/
def interp (f : (c : S.Cmd) → Prog S' (S.Resp c)) : Prog S α → Prog S' α
  | .ret a => .ret a
  | .call c k => f c >>= fun r => (k r).interp f

variable {h : Handler S σ}

@[simp] theorem eval_pure (a : α) (s : σ) : (pure a : Prog S α).eval h s = (a, s) := rfl

@[simp] theorem eval_perform (c : S.Cmd) (s : σ) : (perform c).eval h s = h c s := rfl

@[simp] theorem eval_bind (p : Prog S α) (f : α → Prog S β) (s : σ) :
    (p >>= f).eval h s = (f (p.eval h s).1).eval h (p.eval h s).2 := by
  induction p generalizing s with
  | ret a => rfl
  | call c k ih => exact ih (h c s).1 (h c s).2

variable {f : (c : S.Cmd) → Prog S' (S.Resp c)}

@[simp] theorem interp_perform (c : S.Cmd) : (perform c).interp f = f c := bind_ret (f c)

@[simp] theorem interp_bind (p : Prog S α) (g : α → Prog S β) :
    (p >>= g).interp f = p.interp f >>= fun a => (g a).interp f := by
  induction p with
  | ret a => rfl
  | call c k ih =>
      rw [call_bind, interp, interp, bind_assoc']
      congr
      funext r
      exact ih r

/-! ## What holds at the end -/

/-- The run of the program ends with `Q`. -/
def Ends (h : Handler S σ) (Q : α → σ → Prop) (p : Prog S α) (s : σ) : Prop :=
  Q (p.eval h s).1 (p.eval h s).2

variable {Q Q' : α → σ → Prop} {s : σ}

theorem ends_pure {a : α} : (pure a : Prog S α).Ends h Q s ↔ Q a s := Iff.rfl

theorem ends_perform {c : S.Cmd} {k : S.Resp c → Prog S α} :
    (perform c >>= k).Ends h Q s ↔ (k (h c s).1).Ends h Q (h c s).2 := Iff.rfl

theorem Ends.mono {p : Prog S α} (hp : p.Ends h Q s) (hQ : ∀ a s', Q a s' → Q' a s') :
    p.Ends h Q' s :=
  hQ _ _ hp

/-- Sequencing through what the first program establishes. -/
theorem Ends.seq {R : β → σ → Prop} {p : Prog S β} {f : β → Prog S α} (hp : p.Ends h R s)
    (hf : ∀ b s', R b s' → (f b).Ends h Q s') : (p >>= f).Ends h Q s := by
  unfold Ends
  rw [eval_bind]
  exact hf _ _ hp

end Prog

/-! ## Among other threads -/

/-- A program whose commands are carried out by programs.  If the others leave a
fact `G` and a part of the state alone, and the carrying out of each command
shows there as a step of `N`, then the program does there what it does in `N`. -/
theorem Protocol.wp_interp {T V : Type} {M : System S' σ T} {P : Protocol M} {N : System S V T}
    {t : T} {G : σ → Prop} {v : σ → V} {ok : S.Cmd → Prop}
    {f : (c : S.Cmd) → Prog S' (S.Resp c)} {Q : α → V → Prop} {p : Prog S α} {s : σ}
    (hrely : ∀ s s', P.rely t s s' → G s → G s' ∧ v s' = v s)
    (hcmd : ∀ c s, ok c → G s → P.Inv s →
      P.wp t (fun r s' => G s' ∧ N.exec t c r (v s) = some (v s')) (f c) s)
    (hp : p.Only ok) (hi : P.Inv s) (hG : G s) (h : Post N t Q p (v s)) :
    P.wp t (fun a s' => G s' ∧ Q a (v s')) (p.interp f) s := by
  induction p generalizing s with
  | ret a =>
      intro s' hr _
      obtain ⟨hG', hv⟩ := hrely s s' hr hG
      exact ⟨hG', hv.symm ▸ h⟩
  | call c k ih =>
      apply P.wp_seq hi (hcmd c s hp.1 hG hi)
      intro r s' hi' hr
      exact ih r (hp.2 r) hi' hr.1 (h r _ hr.2)

/-! ## Threads -/

section Threads

variable {T : Type} {t : T} {s s' : σ} {c : S.Cmd} {r : S.Resp c} [∀ c, DecidableEq (S.Resp c)]

/-- Threads whose commands a handler answers. -/
def System.ofHandler (h : T → Handler S σ) : System S σ T where
  exec t c r s := if r = (h t c s).1 then some (h t c s).2 else none

theorem System.ofHandler_eq_some {h : T → Handler S σ}
    (hx : (System.ofHandler h).exec t c r s = some s') : r = (h t c s).1 ∧ s' = (h t c s).2 := by
  unfold System.ofHandler at hx
  by_cases hr : r = (h t c s).1
  · exact ⟨hr, by simpa [hr] using hx.symm⟩
  · simp [hr] at hx

end Threads

end Conc

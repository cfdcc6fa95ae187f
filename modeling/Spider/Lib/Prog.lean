import Mathlib

/-!
# Spider.Lib.Prog

Programs that talk to a shared state through commands, and a program logic
for them.

* `Prog S α`: a program over a signature `S` of commands; it returns an `α`.
  Each command is one atomic step and the environment picks its response, so
  failures and scheduling are responses like any other.
* `System`: what a command with a given response does to the shared state.
* `Runs`, `Post`, `Returns`: one program alone.  `Post` says what holds when
  it returns, `Returns` also that it does return.
* `Config`, `Step`, `Reachable`: any family of programs, one per thread, their
  commands interleaved in any order.
* `Protocol` and `Protocol.wp`: rely and guarantee.  A protocol says what must
  hold when a thread is about to issue a command (`about`), and what every
  thread may rely on while the others keep to that.  `Protocol.sound`: if each
  program keeps to the protocol on its own terms, so does every interleaving.
-/

namespace Conc

/-- Commands and the type of their responses. -/
structure Sig where
  Cmd : Type
  Resp : Cmd → Type

/-- A program over a signature. -/
inductive Prog (S : Sig) (α : Type) where
  | ret (a : α)
  | call (c : S.Cmd) (k : S.Resp c → Prog S α)

variable {S : Sig} {α β γ : Type}

/-! ## Programs as a monad -/

namespace Prog

protected def bind : Prog S α → (α → Prog S β) → Prog S β
  | ret a, f => f a
  | call c k, f => call c fun r => (k r).bind f

instance : Monad (Prog S) where
  pure := ret
  bind := Prog.bind

/-- Issue one command. -/
def perform (c : S.Cmd) : Prog S (S.Resp c) := call c ret

@[simp] theorem pure_bind' (a : α) (f : α → Prog S β) : ((pure a : Prog S α) >>= f) = f a := rfl

theorem call_bind (c : S.Cmd) (k : S.Resp c → Prog S α) (f : α → Prog S β) :
    (call c k >>= f) = call c fun r => k r >>= f := rfl

theorem bind_ret (p : Prog S α) : p >>= ret = p := by
  induction p with
  | ret a => rfl
  | call c k ih =>
      rw [call_bind]
      congr
      funext r
      exact ih r

theorem bind_assoc' (p : Prog S α) (f : α → Prog S β) (g : β → Prog S γ) :
    (p >>= f >>= g) = p >>= fun a => f a >>= g := by
  induction p with
  | ret a => rfl
  | call c k ih =>
      rw [call_bind, call_bind, call_bind]
      congr
      funext r
      exact ih r

end Prog

open Prog

/-- What commands do: `exec t c r s` is the state after thread `t` issued `c` in
state `s` and got `r`; `none` if `r` is no possible response there. -/
structure System (S : Sig) (σ T : Type) where
  exec : T → (c : S.Cmd) → S.Resp c → σ → Option σ

variable {σ T : Type} {M : System S σ T} {t : T} {s s' : σ}

/-- The same system with some responses ruled out. -/
def System.restrict (M : System S σ T) (ok : (c : S.Cmd) → S.Resp c → Bool) : System S σ T where
  exec t c r s := if ok c r then M.exec t c r s else none

variable {c : S.Cmd} {r : S.Resp c} {Q Q' R : α → σ → Prop} {a : α} {p : Prog S α}
  {f : α → Prog S β} {k : S.Resp c → Prog S α} {answer : (c : S.Cmd) → σ → S.Resp c}
  {ok : S.Cmd → Prop} {F : σ → Prop}

theorem System.restrict_eq_some {ok : (c : S.Cmd) → S.Resp c → Bool}
    (h : (M.restrict ok).exec t c r s = some s') : ok c r = true ∧ M.exec t c r s = some s' := by
  unfold System.restrict at h
  by_cases hok : ok c r = true
  · exact ⟨hok, by simpa [hok] using h⟩
  · simp [hok] at h

/-- The same system where a command is issued only in some states. -/
def System.guard (M : System S σ T) (ok : T → S.Cmd → σ → Bool) : System S σ T where
  exec t c r s := if ok t c s then M.exec t c r s else none

theorem System.guard_eq_some {ok : T → S.Cmd → σ → Bool} (h : (M.guard ok).exec t c r s = some s') :
    ok t c s = true ∧ M.exec t c r s = some s' := by
  unfold System.guard at h
  by_cases hok : ok t c s = true
  · exact ⟨hok, by simpa [hok] using h⟩
  · simp [hok] at h

/-! ## One program alone -/

/-- The same system, all of whose steps meet a condition. -/
def System.meeting (M : System S σ T) (ok : (c : S.Cmd) → S.Resp c → σ → Bool) :
    System S σ T where
  exec t c r s := if ok c r s then M.exec t c r s else none

theorem System.meeting_eq_some {ok : (c : S.Cmd) → S.Resp c → σ → Bool}
    (h : (M.meeting ok).exec t c r s = some s') : ok c r s = true ∧ M.exec t c r s = some s' := by
  unfold System.meeting at h
  by_cases hok : ok c r s = true
  · exact ⟨hok, by simpa [hok] using h⟩
  · simp [hok] at h

/-- The same system, with a condition on what each thread does and gets. -/
def System.limit (M : System S σ T) (ok : T → (c : S.Cmd) → S.Resp c → σ → Bool) :
    System S σ T where
  exec t c r s := if ok t c r s then M.exec t c r s else none

theorem System.limit_eq_some {ok : T → (c : S.Cmd) → S.Resp c → σ → Bool}
    (h : (M.limit ok).exec t c r s = some s') : ok t c r s = true ∧ M.exec t c r s = some s' := by
  unfold System.limit at h
  by_cases hok : ok t c r s = true
  · exact ⟨hok, by simpa [hok] using h⟩
  · simp [hok] at h

/-- The program, alone, can return `a` and leave `s'`. -/
def Runs (M : System S σ T) (t : T) : Prog S α → σ → α → σ → Prop
  | .ret b, s, a, s' => a = b ∧ s' = s
  | .call c k, s, a, s' => ∃ r s₁, M.exec t c r s = some s₁ ∧ Runs M t (k r) s₁ a s'

/-- Whatever it returns, alone, `Q` holds then. -/
def Post (M : System S σ T) (t : T) (Q : α → σ → Prop) : Prog S α → σ → Prop
  | .ret a, s => Q a s
  | .call c k, s => ∀ r s', M.exec t c r s = some s' → Post M t Q (k r) s'

/-- Alone, it comes to its end whatever the responses, and `Q` holds then. -/
def Returns (M : System S σ T) (t : T) (Q : α → σ → Prop) : Prog S α → σ → Prop
  | .ret a, s => Q a s
  | .call c k, s => (∃ r s', M.exec t c r s = some s') ∧
      ∀ r s', M.exec t c r s = some s' → Returns M t Q (k r) s'

theorem Post.of_runs (h : Post M t Q p s) (hr : Runs M t p s a s') : Q a s' := by
  induction p generalizing s with
  | ret b =>
      obtain ⟨rfl, rfl⟩ := hr
      exact h
  | call c k ih =>
      obtain ⟨r, s1, hx, hr⟩ := hr
      exact ih r (h r s1 hx) hr

theorem Post.bind {Q : β → σ → Prop} (h : Post M t (fun a s => Post M t Q (f a) s) p s) :
    Post M t Q (p >>= f) s := by
  induction p generalizing s with
  | ret a => exact h
  | call c k ih => exact fun r s' hx => ih r (h r s' hx)

theorem Post.mono (hq : ∀ a s, Q a s → Q' a s) (h : Post M t Q p s) : Post M t Q' p s := by
  induction p generalizing s with
  | ret a => exact hq a s h
  | call c k ih => exact fun r s' hx => ih r (h r s' hx)

/-- One command, then the rest. -/
theorem Post.perform {Q : β → σ → Prop} {f : S.Resp c → Prog S β}
    (h : ∀ r s', M.exec t c r s = some s' → Post M t Q (f r) s') :
    Post M t Q (Prog.perform c >>= f) s := h

theorem Post.restrict {ok : (c : S.Cmd) → S.Resp c → Bool} (h : Post M t Q p s) :
    Post (M.restrict ok) t Q p s := by
  induction p generalizing s with
  | ret a => exact h
  | call c k ih => exact fun r s' hx => ih r (h r s' (System.restrict_eq_some hx).2)

theorem Post.and (hq : Post M t Q p s) (hr : Post M t R p s) :
    Post M t (fun a s => Q a s ∧ R a s) p s := by
  induction p generalizing s with
  | ret a => exact ⟨hq, hr⟩
  | call c k ih => exact fun r s' hx => ih r (hq r s' hx) (hr r s' hx)

/-- Sequencing through what the first program establishes. -/
theorem Post.seq {Q : β → σ → Prop} (hp : Post M t R p s)
    (hf : ∀ a s', R a s' → Post M t Q (f a) s') : Post M t Q (p >>= f) s :=
  (hp.mono hf).bind

theorem Returns.bind {Q : β → σ → Prop} (h : Returns M t (fun a s => Returns M t Q (f a) s) p s) :
    Returns M t Q (p >>= f) s := by
  induction p generalizing s with
  | ret a => exact h
  | call c k ih => exact ⟨h.1, fun r s' hx => ih r (h.2 r s' hx)⟩

theorem Returns.mono (hq : ∀ a s, Q a s → Q' a s) (h : Returns M t Q p s) : Returns M t Q' p s := by
  induction p generalizing s with
  | ret a => exact hq a s h
  | call c k ih => exact ⟨h.1, fun r s' hx => ih r (h.2 r s' hx)⟩

theorem Returns.post (h : Returns M t Q p s) : Post M t Q p s := by
  induction p generalizing s with
  | ret a => exact h
  | call c k ih => exact fun r s' hx => ih r (h.2 r s' hx)

/-- Sequencing through what the first program establishes. -/
theorem Returns.seq {Q : β → σ → Prop} (hp : Returns M t R p s)
    (hf : ∀ a s', R a s' → Returns M t Q (f a) s') : Returns M t Q (p >>= f) s :=
  (hp.mono hf).bind

theorem Returns.and_post (hr : Returns M t Q p s) (hp : Post M t R p s) :
    Returns M t (fun a s => Q a s ∧ R a s) p s := by
  induction p generalizing s with
  | ret a => exact ⟨hr, hp⟩
  | call c k ih => exact ⟨hr.1, fun r s' hx => ih r (hr.2 r s' hx) (hp r s' hx)⟩

/-- A first command, where some responses are ruled out. -/
theorem Returns.restrict_perform {ok : (c : S.Cmd) → S.Resp c → Bool} {r0 : S.Resp c} {s0 : σ}
    (hok : ok c r0 = true) (hx : M.exec t c r0 s = some s0)
    (hk : ∀ r s', ok c r = true → M.exec t c r s = some s' → Returns (M.restrict ok) t Q (k r) s') :
    Returns (M.restrict ok) t Q (perform c >>= k) s := by
  refine ⟨⟨r0, s0, by simp [System.restrict, hok, hx]⟩, fun r s' h => ?_⟩
  obtain ⟨hr, hs'⟩ := System.restrict_eq_some h
  exact hk r s' hr hs'

/-- A first command, where the steps meet a condition. -/
theorem Returns.meeting_perform {ok : (c : S.Cmd) → S.Resp c → σ → Bool} {r0 : S.Resp c} {s0 : σ}
    (hok : ok c r0 s = true) (hx : M.exec t c r0 s = some s0)
    (hk : ∀ r s', ok c r s = true → M.exec t c r s = some s' → Returns (M.meeting ok) t Q (k r) s') :
    Returns (M.meeting ok) t Q (perform c >>= k) s := by
  refine ⟨⟨r0, s0, by simp [System.meeting, hok, hx]⟩, fun r s' h => ?_⟩
  obtain ⟨hr, hs'⟩ := System.meeting_eq_some h
  exact hk r s' hr hs'

/-- What comes to its end has a run. -/
theorem Returns.exists_runs (h : Returns M t Q p s) : ∃ a s', Runs M t p s a s' ∧ Q a s' := by
  induction p generalizing s with
  | ret a => exact ⟨a, s, ⟨rfl, rfl⟩, h⟩
  | call c k ih =>
      obtain ⟨⟨r, s1, hx⟩, hk⟩ := h
      obtain ⟨a, s', hrun, hq⟩ := ih r (hk r s1 hx)
      exact ⟨a, s', ⟨r, s1, hx, hrun⟩, hq⟩

theorem Runs.bind {s1 : σ} {b : β} (hp : Runs M t p s a s1) (hf : Runs M t (f a) s1 b s') :
    Runs M t (p >>= f) s b s' := by
  induction p generalizing s with
  | ret a' =>
      obtain ⟨rfl, rfl⟩ := hp
      exact hf
  | call c k ih =>
      obtain ⟨r, s2, hx, hp⟩ := hp
      exact ⟨r, s2, hx, ih r hp⟩

/-- A run stays possible when fewer responses are ruled out. -/
theorem Runs.restrict_mono {ok ok' : (c : S.Cmd) → S.Resp c → Bool}
    (h : ∀ c r, ok c r = true → ok' c r = true) (hp : Runs (M.restrict ok) t p s a s') :
    Runs (M.restrict ok') t p s a s' := by
  induction p generalizing s with
  | ret b => exact hp
  | call c k ih =>
      obtain ⟨r, s1, hx, hp⟩ := hp
      obtain ⟨hr, hx⟩ := System.restrict_eq_some hx
      exact ⟨r, s1, by simp [System.restrict, h c r hr, hx], ih r hp⟩

/-- Run a program, alone, with given responses; `none` if one of them is not
possible. -/
def Prog.runWith (M : System S σ T) (t : T) (answer : (c : S.Cmd) → σ → S.Resp c) :
    Prog S α → σ → Option (α × σ)
  | .ret a, s => some (a, s)
  | .call c k, s =>
      match M.exec t c (answer c s) s with
      | none => none
      | some s' => Prog.runWith M t answer (k (answer c s)) s'

theorem runs_of_runWith (h : p.runWith M t answer s = some (a, s')) : Runs M t p s a s' := by
  induction p generalizing s with
  | ret b =>
      rw [Prog.runWith, Option.some.injEq, Prod.mk.injEq] at h
      exact ⟨h.1.symm, h.2.symm⟩
  | call c k ih =>
      rw [Prog.runWith] at h
      cases hx : M.exec t c (answer c s) s with
      | none => simp [hx] at h
      | some s1 =>
          rw [hx] at h
          exact ⟨_, s1, hx, ih _ h⟩

/-- The result of a program that has returned. -/
def Prog.value : Prog S α → Option α
  | .ret a => some a
  | .call _ _ => none

theorem Prog.eq_ret_of_value (h : p.value = some a) : p = .ret a := by
  cases p with
  | ret b => rw [Option.some.inj h]
  | call c k => contradiction

/-- Whether the next command of a program is such a one. -/
def Prog.issues (f : S.Cmd → Bool) : Prog S α → Bool
  | .ret _ => false
  | .call c _ => f c

theorem Prog.exists_call_of_issues {f : S.Cmd → Bool} (h : p.issues f = true) :
    ∃ c k, p = .call c k ∧ f c = true := by
  cases p with
  | ret a => contradiction
  | call c k => exact ⟨c, k, rfl, h⟩

/-- The state a run that goes through ends in. -/
def Prog.finalState (M : System S σ T) (t : T) (answer : (c : S.Cmd) → σ → S.Resp c)
    (p : Prog S α) (s : σ) : σ :=
  match p.runWith M t answer s with
  | some (_, s') => s'
  | none => s

theorem runs_finalState (h : (p.runWith M t answer s).map Prod.fst = some a) :
    Runs M t p s a (p.finalState M t answer s) := by
  obtain ⟨⟨b, s'⟩, hrun, rfl⟩ := Option.map_eq_some_iff.mp h
  have hfinal : p.finalState M t answer s = s' := by rw [Prog.finalState, hrun]
  rw [hfinal]
  exact runs_of_runWith hrun

/-! ## Rely and guarantee -/

/-- What the threads of a system keep to. -/
structure Protocol (M : System S σ T) where
  Inv : σ → Prop
  rely : T → σ → σ → Prop
  about : T → S.Cmd → σ → Prop
  rely_refl : ∀ t s, rely t s s
  rely_trans : ∀ {t s₁ s₂ s₃}, rely t s₁ s₂ → rely t s₂ s₃ → rely t s₁ s₃
  step_inv : ∀ {t c r s s'}, Inv s → about t c s → M.exec t c r s = some s' → Inv s'
  step_rely : ∀ {t c r s s' t'}, Inv s → about t c s → M.exec t c r s = some s' → t' ≠ t →
    rely t' s s'

variable {P : Protocol M}

/-- From state `s` on, whatever the other threads do, thread `t` keeps to the
protocol while it runs `p`, and `Q` holds from its return on. -/
def Protocol.wp (P : Protocol M) (t : T) (Q : α → σ → Prop) : Prog S α → σ → Prop
  | .ret a, s => ∀ s', P.rely t s s' → P.Inv s' → Q a s'
  | .call c k, s => ∀ s', P.rely t s s' → P.Inv s' → P.about t c s' ∧
      ∀ r s'', M.exec t c r s' = some s'' → P.wp t Q (k r) s''

theorem Protocol.wp_rely (h : P.wp t Q p s) (hr : P.rely t s s') : P.wp t Q p s' := by
  cases p with
  | ret a | call c k => exact fun s2 h2 hi => h s2 (P.rely_trans hr h2) hi

theorem Protocol.wp_mono (hq : ∀ a s, P.Inv s → Q a s → Q' a s) (h : P.wp t Q p s) :
    P.wp t Q' p s := by
  induction p generalizing s with
  | ret a => exact fun s' hr hi => hq a s' hi (h s' hr hi)
  | call c k ih =>
      intro s' hr hi
      obtain ⟨ha, hk⟩ := h s' hr hi
      exact ⟨ha, fun r s'' hx => ih r (hk r s'' hx)⟩

theorem Protocol.wp_and (hq : P.wp t Q p s) (hr : P.wp t R p s) :
    P.wp t (fun a s => Q a s ∧ R a s) p s := by
  induction p generalizing s with
  | ret a => exact fun s' h hi => ⟨hq s' h hi, hr s' h hi⟩
  | call c k ih =>
      intro s' h hi
      obtain ⟨ha, hk⟩ := hq s' h hi
      exact ⟨ha, fun r s'' hx => ih r (hk r s'' hx) ((hr s' h hi).2 r s'' hx)⟩

/-- Sequencing.  The second program starts in a state in which the first one's
result has been established. -/
theorem Protocol.wp_bind {Q : β → σ → Prop} (hi : P.Inv s)
    (h : P.wp t (fun a s => P.Inv s → P.wp t Q (f a) s) p s) : P.wp t Q (p >>= f) s := by
  induction p generalizing s with
  | ret a => exact h s (P.rely_refl t s) hi hi
  | call c k ih =>
      intro s' hr hi'
      obtain ⟨ha, hk⟩ := h s' hr hi'
      exact ⟨ha, fun r s'' hx => ih r (P.step_inv hi' ha hx) (hk r s'' hx)⟩

/-- Sequencing through what the first program establishes. -/
theorem Protocol.wp_seq {Q : β → σ → Prop} (hi : P.Inv s) (hp : P.wp t R p s)
    (hf : ∀ a s', P.Inv s' → R a s' → P.wp t Q (f a) s') : P.wp t Q (p >>= f) s :=
  P.wp_bind hi (P.wp_mono (fun a s' hi' hR _ => hf a s' hi' hR) hp)

/-- One command, then the rest. -/
theorem Protocol.wp_perform {Q : β → σ → Prop} {f : S.Resp c → Prog S β}
    (h : ∀ s', P.rely t s s' → P.Inv s' → P.about t c s' ∧
      ∀ r s'', M.exec t c r s' = some s'' → P.Inv s'' → P.wp t Q (f r) s'') :
    P.wp t Q (perform c >>= f) s := by
  intro s' hr hi
  obtain ⟨ha, hk⟩ := h s' hr hi
  exact ⟨ha, fun r s'' hx => hk r s'' hx (P.step_inv hi ha hx)⟩

theorem Protocol.wp_pure (h : ∀ s', P.rely t s s' → P.Inv s' → Q a s') : P.wp t Q (pure a) s := h

/-- What a program keeps to among other threads, it does alone. -/
theorem Protocol.post_of_wp (hi : P.Inv s) (h : P.wp t Q p s) : Post M t Q p s := by
  induction p generalizing s with
  | ret a => exact h s (P.rely_refl t s) hi
  | call c k ih =>
      intro r s' hx
      obtain ⟨ha, hk⟩ := h s (P.rely_refl t s) hi
      exact ih r (P.step_inv hi ha hx) (hk r s' hx)

/-- Every command the program can issue is an `ok` one. -/
def Prog.Only (ok : S.Cmd → Prop) : Prog S α → Prop
  | .ret _ => True
  | .call c k => ok c ∧ ∀ r, (k r).Only ok

theorem Prog.Only.bind (hp : p.Only ok) (hf : ∀ a, (f a).Only ok) : (p >>= f).Only ok := by
  induction p with
  | ret a => exact hf a
  | call c k ih => exact ⟨hp.1, fun r => ih r (hp.2 r)⟩

theorem Prog.only_pure (a : α) : (pure a : Prog S α).Only ok := trivial

theorem Prog.only_perform (h : ok c) : (perform c).Only ok :=
  ⟨h, fun _ => trivial⟩

/-- A program all of whose commands keep a fact that the thread may rely on. -/
theorem Protocol.wp_only (hp : p.Only ok) (hrely : ∀ s s', P.rely t s s' → F s → F s')
    (habout : ∀ c s, ok c → F s → P.Inv s → P.about t c s)
    (hstep : ∀ c r s s', ok c → F s → P.Inv s → M.exec t c r s = some s' → F s') (hF : F s) :
    P.wp t (fun _ s => F s) p s := by
  induction p generalizing s with
  | ret a => exact fun s' hr _ => hrely s s' hr hF
  | call c k ih =>
      intro s' hr hi
      have hF' : F s' := hrely s s' hr hF
      exact ⟨habout c s' hp.1 hF' hi, fun r s'' hx => ih r (hp.2 r) (hstep c r s' s'' hp.1 hF' hi hx)⟩

/-- Such a program, then the rest. -/
theorem Protocol.wp_only_bind {Q : β → σ → Prop} (hp : p.Only ok)
    (hrely : ∀ s s', P.rely t s s' → F s → F s')
    (habout : ∀ c s, ok c → F s → P.Inv s → P.about t c s)
    (hstep : ∀ c r s s', ok c → F s → P.Inv s → M.exec t c r s = some s' → F s') (hF : F s)
    (hf : ∀ a s, F s → P.wp t Q (f a) s) : P.wp t Q (p >>= f) s := by
  induction p generalizing s with
  | ret a => exact hf a s hF
  | call c k ih =>
      intro s' hr hi
      have hF' : F s' := hrely s s' hr hF
      exact ⟨habout c s' hp.1 hF' hi, fun r s'' hx => ih r (hp.2 r) (hstep c r s' s'' hp.1 hF' hi hx)⟩

/-- What every command of the program keeps, its runs keep. -/
theorem Prog.Only.post (hp : p.Only ok)
    (hstep : ∀ c r s s', ok c → F s → M.exec t c r s = some s' → F s') (hF : F s) :
    Post M t (fun _ => F) p s := by
  induction p generalizing s with
  | ret a => exact hF
  | call c k ih => exact fun r s' hx => ih r (hp.2 r) (hstep c r s s' hp.1 hF hx)

/-- Two systems that treat the program's commands alike. -/
theorem Returns.of_agree {M' : System S σ T} (hr : Returns M t Q p s) (hp : p.Only ok)
    (hagree : ∀ c r s, ok c → M'.exec t c r s = M.exec t c r s) : Returns M' t Q p s := by
  induction p generalizing s with
  | ret a => exact hr
  | call c k ih =>
      obtain ⟨⟨r, s', hx⟩, hrest⟩ := hr
      refine ⟨⟨r, s', (hagree c r s hp.1).trans hx⟩, fun r s' hx => ?_⟩
      exact ih r (hrest r s' ((hagree c r s hp.1).symm.trans hx)) (hp.2 r)

/-- A forward simulation: the commands a program issues do to a view of the state
what they do in another system. -/
theorem Post.of_view {τ : Type} {N : System S τ T} {view : σ → τ} {Q : α → τ → Prop}
    (hsim : ∀ c r s s', ok c → M.exec t c r s = some s' →
      N.exec t c r (view s) = some (view s')) (hp : p.Only ok) (h : Post N t Q p (view s)) :
    Post M t (fun a s => Q a (view s)) p s := by
  induction p generalizing s with
  | ret a => exact h
  | call c k ih =>
      intro r s' hx
      exact ih r (hp.2 r) (h r (view s') (hsim c r s s' hp.1 hx))

theorem Prog.only_call (hc : ok c) (hk : ∀ r, (k r).Only ok) : (perform c >>= k).Only ok :=
  ⟨hc, hk⟩

theorem Prog.Only.mono {ok' : S.Cmd → Prop} (hp : p.Only ok) (h : ∀ c, ok c → ok' c) :
    p.Only ok' := by
  induction p with
  | ret a => trivial
  | call c k ih => exact ⟨h c hp.1, fun r => ih r (hp.2 r)⟩

/-- A program that only issues such commands; `Q` relates its result with whether
a step marked by `mark` has been made, by then or before the start. -/
def Prog.Marks (ok : S.Cmd → Prop) (mark : (c : S.Cmd) → S.Resp c → Bool) (Q : Bool → α → Prop) :
    Bool → Prog S α → Prop
  | d, .ret a => Q d a
  | d, .call c k => ok c ∧ ∀ r, (k r).Marks ok mark Q (d || mark c r)

section Marks

variable {ok : S.Cmd → Prop} {mark : (c : S.Cmd) → S.Resp c → Bool} {d : Bool}
variable {Q : Bool → α → Prop} {p : Prog S α}

theorem Prog.marks_pure {a : α} (h : Q d a) : (pure a : Prog S α).Marks ok mark Q d := h

theorem Prog.marks_call {c : S.Cmd} {k : S.Resp c → Prog S α} (hc : ok c)
    (hk : ∀ r, (k r).Marks ok mark Q (d || mark c r)) : (perform c >>= k).Marks ok mark Q d :=
  ⟨hc, hk⟩

theorem Prog.Marks.bind {Q' : Bool → β → Prop} {f : α → Prog S β} (hp : p.Marks ok mark Q d)
    (hf : ∀ d' a, Q d' a → (f a).Marks ok mark Q' d') : (p >>= f).Marks ok mark Q' d := by
  induction p generalizing d with
  | ret a => exact hf d a hp
  | call c k ih => exact ⟨hp.1, fun r => ih r (hp.2 r)⟩

theorem Prog.Marks.mono {Q' : Bool → α → Prop} (hp : p.Marks ok mark Q d)
    (hq : ∀ d' a, Q d' a → Q' d' a) : p.Marks ok mark Q' d := by
  induction p generalizing d with
  | ret a => exact hq d a hp
  | call c k ih => exact ⟨hp.1, fun r => ih r (hp.2 r)⟩

theorem Prog.Marks.only (hp : p.Marks ok mark Q d) : p.Only ok := by
  induction p generalizing d with
  | ret a => trivial
  | call c k ih => exact ⟨hp.1, fun r => ih r (hp.2 r)⟩

/-- A step once made stays made. -/
theorem Prog.Only.marks (hp : p.Only ok) : p.Marks ok mark (fun d' _ => d = true → d' = true) d := by
  induction p generalizing d with
  | ret a => exact id
  | call c k ih =>
      refine ⟨hp.1, fun r => (ih r (hp.2 r)).mono fun d' a h hd => h ?_⟩
      rw [hd, Bool.true_or]

/-- A program whose commands keep a fact `G` and whose marked steps establish a
lasting fact `F`. -/
theorem Protocol.wp_marks {G F : σ → Prop} (hp : p.Marks ok mark Q d)
    (hrely : ∀ s s', P.rely t s s' → (G s → G s') ∧ (F s → F s'))
    (habout : ∀ c s, ok c → G s → P.Inv s → P.about t c s)
    (hG : ∀ c r s s', ok c → G s → P.Inv s → M.exec t c r s = some s' → G s')
    (hF : ∀ c r s s', ok c → F s → M.exec t c r s = some s' → F s')
    (hmark : ∀ c r s s', mark c r = true → M.exec t c r s = some s' → F s')
    (hs : G s) (hd : d = true → F s) :
    P.wp t (fun a s => G s ∧ ∃ d, (d = true → F s) ∧ Q d a) p s := by
  induction p generalizing s d with
  | ret a =>
      exact fun s' hr _ => ⟨(hrely s s' hr).1 hs, d, fun h => (hrely s s' hr).2 (hd h), hp⟩
  | call c k ih =>
      intro s' hr hi
      have hs' : G s' := (hrely s s' hr).1 hs
      refine ⟨habout c s' hp.1 hs' hi, fun r s'' hx => ?_⟩
      refine ih r (hp.2 r) (hG c r s' s'' hp.1 hs' hi hx) fun hor => ?_
      cases hdm : mark c r with
      | true => exact hmark c r s' s'' hdm hx
      | false =>
          rw [hdm, Bool.or_false] at hor
          exact hF c r s' s'' hp.1 ((hrely s s' hr).2 (hd hor)) hx

/-- The same for a program that runs alone. -/
theorem Prog.Marks.post {F : σ → Prop} (hp : p.Marks ok mark Q d)
    (hF : ∀ c r s s', ok c → F s → M.exec t c r s = some s' → F s')
    (hmark : ∀ c r s s', mark c r = true → M.exec t c r s = some s' → F s')
    (hd : d = true → F s) : Post M t (fun a s => ∃ d, (d = true → F s) ∧ Q d a) p s := by
  induction p generalizing s d with
  | ret a => exact ⟨d, hd, hp⟩
  | call c k ih =>
      intro r s' hx
      refine ih r (hp.2 r) fun hor => ?_
      cases hdm : mark c r with
      | true => exact hmark c r s s' hdm hx
      | false =>
          rw [hdm, Bool.or_false] at hor
          exact hF c r s s' hp.1 (hd hor) hx

end Marks

/-- A program that only issues `okc` commands and whose result, whatever the
responses, as long as each is `ok`, is a `Q`. -/
def Prog.All (okc : S.Cmd → Prop) (ok : (c : S.Cmd) → S.Resp c → Prop) (Q : α → Prop) :
    Prog S α → Prop
  | .ret a => Q a
  | .call c k => okc c ∧ ∀ r, ok c r → (k r).All okc ok Q

section All

variable {okc : S.Cmd → Prop} {ok : (c : S.Cmd) → S.Resp c → Prop} {Q : α → Prop} {p : Prog S α}

theorem Prog.all_pure {a : α} (h : Q a) : (pure a : Prog S α).All okc ok Q := h

theorem Prog.all_call {c : S.Cmd} {k : S.Resp c → Prog S α} (hc : okc c)
    (hk : ∀ r, ok c r → (k r).All okc ok Q) : (perform c >>= k).All okc ok Q :=
  ⟨hc, hk⟩

theorem Prog.All.bind {Q' : β → Prop} {f : α → Prog S β} (hp : p.All okc ok Q)
    (hf : ∀ a, Q a → (f a).All okc ok Q') : (p >>= f).All okc ok Q' := by
  induction p with
  | ret a => exact hf a hp
  | call c k ih => exact ⟨hp.1, fun r hr => ih r (hp.2 r hr)⟩

theorem Prog.All.mono {Q' : α → Prop} (hp : p.All okc ok Q) (hq : ∀ a, Q a → Q' a) :
    p.All okc ok Q' := by
  induction p with
  | ret a => exact hq a hp
  | call c k ih => exact ⟨hp.1, fun r hr => ih r (hp.2 r hr)⟩

theorem Prog.Only.all (hp : p.Only okc) : p.All okc ok fun _ => True := by
  induction p with
  | ret a => trivial
  | call c k ih => exact ⟨hp.1, fun r _ => ih r (hp.2 r)⟩

theorem Prog.only_true (p : Prog S α) : p.Only fun _ => True := by
  induction p with
  | ret a => trivial
  | call c k ih => exact ⟨trivial, ih⟩

theorem post_true (p : Prog S α) : Post M t (fun _ _ => True) p s :=
  p.only_true.post (fun _ _ _ _ _ _ _ => trivial) trivial

/-- A program whose commands keep a fact `F`, under which every response is `ok`. -/
theorem Protocol.wp_all {F : σ → Prop} (hp : p.All okc ok Q)
    (hrely : ∀ s s', P.rely t s s' → F s → F s')
    (habout : ∀ c s, okc c → F s → P.Inv s → P.about t c s)
    (hstep : ∀ c r s s', okc c → F s → M.exec t c r s = some s' → F s' ∧ ok c r) (hs : F s) :
    P.wp t (fun a s => F s ∧ Q a) p s := by
  induction p generalizing s with
  | ret a => exact fun s' hr _ => ⟨hrely s s' hr hs, hp⟩
  | call c k ih =>
      intro s' hr hi
      have hs' : F s' := hrely s s' hr hs
      refine ⟨habout c s' hp.1 hs' hi, fun r s'' hx => ?_⟩
      obtain ⟨hs'', hok⟩ := hstep c r s' s'' hp.1 hs' hx
      exact ih r (hp.2 r hok) hs''

theorem Prog.All.of_runs (hp : p.All okc ok Q)
    (hok : ∀ c r s s', M.exec t c r s = some s' → ok c r) {a : α}
    (hr : Runs M t p s a s') : Q a := by
  induction p generalizing s with
  | ret b =>
      obtain ⟨rfl, -⟩ := hr
      exact hp
  | call c k ih =>
      obtain ⟨r, s1, hx, hr⟩ := hr
      exact ih r (hp.2 r (hok c r s s1 hx)) hr

end All

/-- The program comes to its end after at most `n` commands. -/
def Prog.Within : Nat → Prog S α → Prop
  | _, .ret _ => True
  | 0, .call _ _ => False
  | n + 1, .call _ k => ∀ r, (k r).Within n

section Within

variable {m n : Nat} {p : Prog S α}

theorem Prog.within_pure (a : α) : (pure a : Prog S α).Within n := by
  cases n <;> trivial

theorem Prog.within_call {c : S.Cmd} {k : S.Resp c → Prog S α} (hk : ∀ r, (k r).Within n) :
    (perform c >>= k).Within (n + 1) := hk

theorem Prog.within_perform {c : S.Cmd} : (perform c).Within (n + 1) :=
  fun r => within_pure r

theorem Prog.Within.mono (hp : p.Within m) (h : m ≤ n) : p.Within n := by
  induction p generalizing m n with
  | ret a => exact within_pure a
  | call c k ih =>
      cases m with
      | zero => contradiction
      | succ m =>
          obtain ⟨n, rfl⟩ : ∃ n', n = n' + 1 := ⟨n - 1, by omega⟩
          exact fun r => ih r (hp r) (by omega)

theorem Prog.Within.bind {f : α → Prog S β} (hp : p.Within m) (hf : ∀ a, (f a).Within n) :
    (p >>= f).Within (m + n) := by
  induction p generalizing m with
  | ret a => exact (hf a).mono (by omega)
  | call c k ih =>
      cases m with
      | zero => contradiction
      | succ m =>
          rw [Nat.add_right_comm]
          exact fun r => ih r (hp r)

end Within

/-! ## Event systems -/

section Events

variable {ε : Type} {step : σ → ε → Option σ} {es : List ε}

/-- Events that are possible one after another lead to a reachable state, through
events that are `ok` in every state. -/
theorem reachable_of_foldlM_ok {ok : σ → ε → Prop} (hok : ∀ e ∈ es, ∀ s, ok s e)
    (h : es.foldlM step s = some s') :
    Relation.ReflTransGen (fun a b => ∃ e, ok a e ∧ step a e = some b) s s' := by
  induction es generalizing s with
  | nil =>
      rw [Option.some.inj h]
  | cons e es ih =>
      rw [List.foldlM_cons] at h
      cases hstep : step s e with
      | none => simp [hstep] at h
      | some s1 =>
          rw [hstep] at h
          have hrest := ih (fun e' he' => hok e' (List.mem_cons_of_mem e he')) h
          exact .head ⟨e, hok e List.mem_cons_self s, hstep⟩ hrest

/-- Events that are possible one after another lead to a reachable state. -/
theorem reachable_of_foldlM (h : es.foldlM step s = some s') :
    Relation.ReflTransGen (fun a b => ∃ e, step a e = some b) s s' :=
  have hrun : Relation.ReflTransGen (fun a b => ∃ e, True ∧ step a e = some b) s s' :=
    reachable_of_foldlM_ok (fun _ _ _ => trivial) h
  Relation.ReflTransGen.mono (fun _ _ ⟨e, _, hstep⟩ => ⟨e, hstep⟩) _ _ hrun

/-- What every event keeps holds after a run. -/
theorem invariant_of_foldlM {I : σ → Prop} (hstep : ∀ s e s', I s → step s e = some s' → I s')
    (hs : I s) (h : es.foldlM step s = some s') : I s' := by
  induction es generalizing s with
  | nil =>
      obtain rfl := Option.some.inj h
      exact hs
  | cons e es ih =>
      obtain ⟨s1, he, h⟩ := Option.bind_eq_some_iff.mp h
      exact ih (hstep s e s1 hs he) h

/-- A reachable state that passes a test. -/
theorem exists_reachable_of_foldlM {test : σ → Bool} (h : (es.foldlM step s).any test = true) :
    ∃ s', Relation.ReflTransGen (fun a b => ∃ e, step a e = some b) s s' ∧ test s' = true := by
  obtain ⟨s', hrun, htest⟩ := (Option.any_eq_true _ _).mp h
  exact ⟨s', reachable_of_foldlM hrun, htest⟩

end Events

/-! ## Threads -/

/-- The shared state and what is left of each thread's program. -/
structure Config (S : Sig) (σ T α : Type) where
  st : σ
  prog : T → Prog S α

/-- Thread `t` alone can get from `p` in state `s` to `q` in state `s'`. -/
inductive Advances (M : System S σ T) (t : T) : Prog S α → σ → Prog S α → σ → Prop
  | refl {p : Prog S α} {s : σ} : Advances M t p s p s
  | step {c : S.Cmd} {k : S.Resp c → Prog S α} {r : S.Resp c} {s s₁ s' : σ} {q : Prog S α}
      (hx : M.exec t c r s = some s₁) (hrest : Advances M t (k r) s₁ q s') :
      Advances M t (.call c k) s q s'

theorem Advances.perform {s1 : σ} {q : Prog S α} (hx : M.exec t c r s = some s1)
    (hrest : Advances M t (k r) s1 q s') : Advances M t (Prog.perform c >>= k) s q s' :=
  .step hx hrest

theorem Advances.bind {q : Prog S α} (h : Advances M t p s q s') :
    Advances M t (p >>= f) s (q >>= f) s' := by
  induction h with
  | refl => exact .refl
  | step hx _ ih => exact .step hx ih

section Threads

variable [DecidableEq T]

/-- One thread issues its next command. -/
inductive Step (M : System S σ T) : Config S σ T α → Config S σ T α → Prop
  | mk {cfg : Config S σ T α} {t : T} {c : S.Cmd} {k : S.Resp c → Prog S α} {r : S.Resp c} {s' : σ}
      (hp : cfg.prog t = .call c k) (hx : M.exec t c r cfg.st = some s') :
      Step M cfg ⟨s', Function.update cfg.prog t (k r)⟩

/-- The configurations some interleaving leads to. -/
abbrev Reachable (M : System S σ T) (init cfg : Config S σ T α) : Prop :=
  Relation.ReflTransGen (Step M) init cfg

variable {cfg init : Config S σ T α} {answer : T → (c : S.Cmd) → σ → S.Resp c}
  {Q : T → α → σ → Prop}

/-- What every step keeps holds in every configuration some interleaving leads to. -/
theorem Reachable.invariant {I : σ → Prop}
    (hstep : ∀ t c r s s', I s → M.exec t c r s = some s' → I s') (hinit : I init.st)
    (h : Reachable M init cfg) : I cfg.st := by
  induction h with
  | refl => exact hinit
  | tail _ hlast ih =>
      cases hlast with
      | mk hp hx => exact hstep _ _ _ _ _ ih hx

/-- Threads that only issue `ok` commands go on to do so. -/
theorem Reachable.only {ok : S.Cmd → Prop} (h : Reachable M init cfg)
    (hinit : ∀ t, (init.prog t).Only ok) (t : T) : (cfg.prog t).Only ok := by
  induction h generalizing t with
  | refl => exact hinit t
  | tail _ hlast ih =>
      cases hlast with
      | @mk u c k r s' hp hx =>
          have hu := ih u
          rw [hp] at hu
          by_cases ht : t = u
          · rw [ht]
            simpa using hu.2 r
          · simpa [Function.update_of_ne ht] using ih t

/-- Let thread `t` go on with the response `answer` gives; a blocked or finished
thread stays where it is. -/
def Config.advance (M : System S σ T) (answer : T → (c : S.Cmd) → σ → S.Resp c)
    (cfg : Config S σ T α) (t : T) : Config S σ T α :=
  match cfg.prog t with
  | .ret _ => cfg
  | .call c k =>
      match M.exec t c (answer t c cfg.st) cfg.st with
      | none => cfg
      | some s' => ⟨s', Function.update cfg.prog t (k (answer t c cfg.st))⟩

/-- A schedule, played with given responses. -/
def Config.play (M : System S σ T) (answer : T → (c : S.Cmd) → σ → S.Resp c) :
    List T → Config S σ T α → Config S σ T α
  | [], cfg => cfg
  | t :: ts, cfg => (cfg.advance M answer t).play M answer ts

theorem Config.reachable_advance (cfg : Config S σ T α) (t : T) :
    Reachable M cfg (cfg.advance M answer t) := by
  unfold Config.advance
  split
  · exact .refl
  · rename_i c k hp
    split
    · exact .refl
    · rename_i s' hx
      exact .single (.mk hp hx)

/-- A played schedule is an interleaving. -/
theorem Config.reachable_play {ts : List T} : Reachable M cfg (cfg.play M answer ts) := by
  induction ts generalizing cfg with
  | nil => exact .refl
  | cons t ts ih => exact (cfg.reachable_advance t).trans ih

/-- A thread that is not scheduled stays where it is. -/
theorem Config.prog_play {ts : List T} (h : t ∉ ts) :
    (cfg.play M answer ts).prog t = cfg.prog t := by
  induction ts generalizing cfg with
  | nil => rfl
  | cons u ts ih =>
      rw [List.mem_cons, not_or] at h
      rw [Config.play, ih h.2]
      unfold Config.advance
      split
      · rfl
      · split
        · rfl
        · exact Function.update_of_ne h.1 _ _

/-- One thread goes on, the others wait. -/
theorem Advances.reachable {p q : Prog S α} (h : Advances M t p s q s') {prog : T → Prog S α}
    (hp : prog t = p) : Reachable M ⟨s, prog⟩ ⟨s', Function.update prog t q⟩ := by
  induction h generalizing prog with
  | refl =>
      rw [← hp, Function.update_eq_self]
  | @step c k r s s1 s' q hx hrest ih =>
      have hfirst : Step M ⟨s, prog⟩ ⟨s1, Function.update prog t (k r)⟩ := .mk hp hx
      have hself : Function.update prog t (k r) t = k r := Function.update_self ..
      have hrest := ih hself
      rw [Function.update_idem] at hrest
      exact .head hfirst hrest

/-- Finitely many threads with bounded programs: every interleaving is finite. -/
theorem Config.acc_of_within {F : Finset T} {n : T → Nat} (hn : ∀ t, (cfg.prog t).Within (n t))
    (hF : ∀ t, t ∉ F → n t = 0) : Acc (fun c' c => Step M c c') cfg := by
  -- each step shortens the program of one thread
  induction htotal : ∑ t ∈ F, n t using Nat.strong_induction_on generalizing cfg n with
  | _ total ih =>
      refine ⟨_, fun c' hstep => ?_⟩
      cases hstep with
      | @mk t c k r s' hp hx =>
          have ht := hn t
          rw [hp] at ht
          obtain ⟨b, hb⟩ : ∃ b, n t = b + 1 := by
            cases hnt : n t with
            | zero => rw [hnt] at ht; contradiction
            | succ b => exact ⟨b, rfl⟩
          rw [hb] at ht
          have hmem : t ∈ F := by
            by_contra hout
            rw [hF t hout] at hb
            contradiction
          have hless : ∑ u ∈ F, Function.update n t b u < total := by
            rw [← htotal]
            refine Finset.sum_lt_sum (fun u _ => ?_) ⟨t, hmem, ?_⟩
            · by_cases hu : u = t
              · rw [hu, Function.update_self]
                omega
              · rw [Function.update_of_ne hu]
            · rw [Function.update_self]
              omega
          refine ih _ hless (n := Function.update n t b) (fun u => ?_) (fun u hu => ?_) rfl
          · by_cases hu : u = t
            · rw [hu]
              simpa using ht r
            · simpa [Function.update_of_ne hu] using hn u
          · by_cases hut : u = t
            · exact absurd (hut ▸ hmem) hu
            · rw [Function.update_of_ne hut]
              exact hF u hu

/-- Every interleaving of programs that keep to the protocol keeps to it. -/
theorem Protocol.sound (hinv : P.Inv init.st) (hwp : ∀ t, P.wp t (Q t) (init.prog t) init.st)
    (hreach : Reachable M init cfg) : P.Inv cfg.st ∧ ∀ t, P.wp t (Q t) (cfg.prog t) cfg.st := by
  induction hreach with
  | refl => exact ⟨hinv, hwp⟩
  | @tail mid _ _ hstep ih =>
      obtain ⟨hi, hw⟩ := ih
      cases hstep with
      | @mk t c k r s' hp hx =>
          have ht := hw t
          rw [hp] at ht
          obtain ⟨ha, hk⟩ := ht mid.st (P.rely_refl t _) hi
          refine ⟨P.step_inv hi ha hx, fun u => ?_⟩
          by_cases hu : u = t
          · rw [hu]
            simpa using hk r s' hx
          · have hstay := Protocol.wp_rely (hw u) (P.step_rely hi ha hx hu)
            simpa [Function.update_of_ne hu] using hstay

/-- In every interleaving, what must hold before a command holds before it. -/
theorem Protocol.about_of_reachable (hinv : P.Inv init.st)
    (hwp : ∀ t, P.wp t (Q t) (init.prog t) init.st) (hreach : Reachable M init cfg) {c : S.Cmd}
    {k : S.Resp c → Prog S α} (hp : cfg.prog t = .call c k) : P.about t c cfg.st := by
  obtain ⟨hi, hw⟩ := P.sound hinv hwp hreach
  have ht := hw t
  rw [hp] at ht
  exact (ht cfg.st (P.rely_refl t _) hi).1

/-- In every interleaving, what a thread establishes holds once it has
returned. -/
theorem Protocol.post_of_reachable (hinv : P.Inv init.st)
    (hwp : ∀ t, P.wp t (Q t) (init.prog t) init.st) (hreach : Reachable M init cfg) {a : α}
    (hp : cfg.prog t = .ret a) : Q t a cfg.st := by
  obtain ⟨hi, hw⟩ := P.sound hinv hwp hreach
  have ht := hw t
  rw [hp] at ht
  exact ht cfg.st (P.rely_refl t _) hi

/-- A thread that has returned may rely on what the others do from then on. -/
theorem Protocol.rely_of_returned (hinv : P.Inv init.st)
    (hwp : ∀ t, P.wp t (Q t) (init.prog t) init.st) (hreach : Reachable M init cfg) {a : α}
    (hp : init.prog t = .ret a) : P.rely t init.st cfg.st ∧ cfg.prog t = .ret a := by
  induction hreach with
  | refl => exact ⟨P.rely_refl t _, hp⟩
  | @tail mid _ hreach hstep ih =>
      obtain ⟨hrely, hret⟩ := ih
      obtain ⟨hi, hw⟩ := P.sound hinv hwp hreach
      cases hstep with
      | @mk u c k r s' hpu hx =>
          have hne : t ≠ u := by
            rintro rfl
            rw [hret] at hpu
            contradiction
          have hu := hw u
          rw [hpu] at hu
          have ha : P.about u c mid.st := (hu mid.st (P.rely_refl u _) hi).1
          refine ⟨P.rely_trans hrely (P.step_rely hi ha hx hne), ?_⟩
          exact (Function.update_of_ne hne _ _).trans hret

end Threads

end Conc

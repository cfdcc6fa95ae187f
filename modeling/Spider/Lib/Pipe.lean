import Mathlib

/-!
# Spider.Lib.Pipe

A synchronous pipe between a writer and a reader, as Go's `io.Pipe`.

A write hands over its data and does not return before all of it has been read
or one end is closed.  A read takes part of the write in progress; with none in
progress it waits until the writer closes its end.  There is no buffer.

The pipe keeps a log of what was written and what was read: the reads are the
writes, in order, up to what is left of the write in progress (`Conserved`).
-/

namespace SyncPipe

/-- A pipe of `α`s; the writer can close its end with an error from `ε`. -/
structure Pipe (α ε : Type) where
  /-- What is left of the write in progress. -/
  pending : Option (List α)
  /-- How the writer has closed its end. -/
  closed : Option (Option ε)
  readerClosed : Bool
  written : List (List α)
  taken : List (List α)
  deriving DecidableEq

/-- The result of a read. -/
inductive Read (α ε : Type) where
  | data (b : List α)
  | ended (err : Option ε)
  deriving DecidableEq

namespace Pipe

variable {α ε : Type}

def new : Pipe α ε := ⟨none, none, false, [], []⟩

/-- Begin a write; `none` while another is in progress or after a close. -/
def offer (p : Pipe α ε) (b : List α) : Option (Pipe α ε) :=
  if p.pending = none ∧ p.closed = none ∧ b ≠ [] then
    some { p with pending := some b, written := p.written ++ [b] }
  else none

/-- Read at most `buf` items; `none` while there is nothing to read. -/
def read (buf : Nat) (p : Pipe α ε) : Option (Read α ε × Pipe α ε) :=
  match p.pending with
  | some b =>
      some (.data (b.take buf),
        { p with
          pending := if b.drop buf = [] then none else some (b.drop buf)
          taken := p.taken ++ [b.take buf] })
  | none =>
      match p.closed with
      | some err => some (.ended err, p)
      | none => none

/-- The writer closes its end. -/
def closeWriter (p : Pipe α ε) (err : Option ε) : Pipe α ε := { p with closed := some err }

/-- Nothing is lost, added or reordered. -/
def Conserved (p : Pipe α ε) : Prop := p.taken.flatten ++ p.pending.getD [] = p.written.flatten

variable {p p' : Pipe α ε} {b : List α} {buf : Nat}

theorem offer_eq_some (h : p.offer b = some p') :
    p.pending = none ∧ p.closed = none ∧
      p' = { p with pending := some b, written := p.written ++ [b] } := by
  unfold offer at h
  by_cases hc : p.pending = none ∧ p.closed = none ∧ b ≠ []
  · rw [if_pos hc, Option.some.injEq] at h
    exact ⟨hc.1, hc.2.1, h.symm⟩
  · rw [if_neg hc] at h
    contradiction

theorem Conserved.offer (hp : p.Conserved) (h : p.offer b = some p') : p'.Conserved := by
  obtain ⟨hpend, -, rfl⟩ := offer_eq_some h
  have hp : p.taken.flatten ++ p.pending.getD [] = p.written.flatten := hp
  rw [hpend, Option.getD_none, List.append_nil] at hp
  simp [Conserved, hp]

theorem Conserved.read {r : Read α ε} (hp : p.Conserved) (h : p.read buf = some (r, p')) :
    p'.Conserved := by
  have hp : p.taken.flatten ++ p.pending.getD [] = p.written.flatten := hp
  unfold Pipe.read at h
  cases hpend : p.pending with
  | some b =>
      simp only [hpend, Option.some.injEq, Prod.mk.injEq] at h
      rw [hpend, Option.getD_some] at hp
      rw [← h.2]
      -- what is taken and what is left are the block that was pending
      have hrest : (if b.drop buf = [] then none else some (b.drop buf)).getD [] = b.drop buf := by
        by_cases hnil : b.drop buf = []
        · rw [if_pos hnil, hnil]; rfl
        · rw [if_neg hnil]; rfl
      simp only [Conserved, List.flatten_append, List.flatten_singleton, hrest, List.append_assoc,
        List.take_append_drop]
      exact hp
  | none =>
      cases hclosed : p.closed with
      | none => simp [hpend, hclosed] at h
      | some err =>
          simp only [hpend, hclosed, Option.some.injEq, Prod.mk.injEq] at h
          rw [← h.2]
          exact hp

end Pipe

end SyncPipe

import Mathlib

/-!
# Spider.Lib.Reader

Byte streams read in pieces of any size, and the read that fills a buffer
(`io.Reader` and `io.ReadFull`).

A reader is what it will hand over, read by read, and the error it ends with, which
it returns again to everyone who reads on.  The lemmas say that filling a buffer
takes the next block of the stream, however it is cut into reads, and that it stops
short only at the end.
-/

namespace Stream

variable {α ε : Type}

/-- How a stream ends: the two ends a caller can tell apart, or another error. -/
inductive ReadErr (ε : Type) where
  | eof
  | unexpectedEOF
  | other (e : ε)
  deriving DecidableEq

/-- A stream: the pieces it hands over, and its end, which may come together
with the last piece. -/
structure Reader (α ε : Type) where
  reads : List (List α)
  last : ReadErr ε
  withData : Bool
  deriving DecidableEq

/-- Everything the stream delivers. -/
def Reader.content (r : Reader α ε) : List α := r.reads.flatten

/-- Read until `n` elements are there or an error comes: the elements, the error,
and the pieces that are left. -/
def fill (last : ReadErr ε) (withData : Bool) :
    Nat → List (List α) → List α × Option (ReadErr ε) × List (List α)
  | 0, bs => ([], none, bs)
  | _ + 1, [] => ([], some last, [])
  | n + 1, b :: bs =>
      if n + 1 < b.length then (b.take (n + 1), none, b.drop (n + 1) :: bs)
      else if bs = [] ∧ withData then (b, some last, [])
      else
        let (x, err, rest) := fill last withData (n + 1 - b.length) bs
        (b ++ x, err, rest)

/-- The error of a read that wanted `n` elements and got `x`. -/
def fullErr (n : Nat) (x : List α) (err : Option (ReadErr ε)) : Option (ReadErr ε) :=
  if n ≤ x.length then none
  else match err with
    | some .eof => if x = [] then some .eof else some .unexpectedEOF
    | err => err

/-- `io.ReadFull` into a buffer of `n` elements. -/
def readFull (n : Nat) (r : Reader α ε) : List α × Option (ReadErr ε) × Reader α ε :=
  let (x, err, rest) := fill r.last r.withData n r.reads
  (x, fullErr n x err, { r with reads := rest })

/-! ## What a read leaves -/

theorem fill_append (last : ReadErr ε) (withData : Bool) (n : Nat) (bs : List (List α)) :
    (fill last withData n bs).1 ++ (fill last withData n bs).2.2.flatten = bs.flatten := by
  induction bs generalizing n with
  | nil => cases n <;> rfl
  | cons b bs ih =>
      cases n with
      | zero => rfl
      | succ n =>
          rw [fill]
          by_cases hlong : n + 1 < b.length
          · rw [if_pos hlong]
            simp [← List.append_assoc]
          · rw [if_neg hlong]
            by_cases hlast : bs = [] ∧ withData
            · rw [if_pos hlast, hlast.1]
              simp
            · rw [if_neg hlast, List.flatten_cons, ← ih (n + 1 - b.length), List.append_assoc]

/-- A read that got less than it wanted has come to the end. -/
theorem fill_short (last : ReadErr ε) (withData : Bool) {n : Nat} {bs : List (List α)}
    (h : (fill last withData n bs).1.length < n) :
    (fill last withData n bs).2.1 = some last ∧ (fill last withData n bs).2.2 = [] := by
  induction bs generalizing n with
  | nil =>
      cases n with
      | zero => exact absurd h (Nat.not_lt_zero _)
      | succ n => exact ⟨rfl, rfl⟩
  | cons b bs ih =>
      cases n with
      | zero => exact absurd h (Nat.not_lt_zero _)
      | succ n =>
          rw [fill] at h ⊢
          by_cases hlong : n + 1 < b.length
          · rw [if_pos hlong, List.length_take] at h
            omega
          · rw [if_neg hlong] at h ⊢
            by_cases hlast : bs = [] ∧ withData
            · rw [if_pos hlast]
              exact ⟨rfl, rfl⟩
            · rw [if_neg hlast, List.length_append] at h
              rw [if_neg hlast]
              exact ih (by omega)

theorem length_fill_le (last : ReadErr ε) (withData : Bool) (n : Nat) (bs : List (List α)) :
    (fill last withData n bs).1.length ≤ n := by
  induction bs generalizing n with
  | nil => cases n <;> simp [fill]
  | cons b bs ih =>
      cases n with
      | zero => exact Nat.le_refl 0
      | succ n =>
          rw [fill]
          by_cases hlong : n + 1 < b.length
          · rw [if_pos hlong, List.length_take]
            omega
          · rw [if_neg hlong]
            by_cases hlast : bs = [] ∧ withData
            · rw [if_pos hlast]
              exact Nat.le_of_not_lt hlong
            · have hrest := ih (n + 1 - b.length)
              rw [if_neg hlast, List.length_append]
              omega

section ReadFull

variable {n : Nat} {r r' : Reader α ε} {x : List α} {err : Option (ReadErr ε)}

theorem readFull_append (h : readFull n r = (x, err, r')) : x ++ r'.content = r.content := by
  have hall := fill_append r.last r.withData n r.reads
  obtain ⟨rfl, -, rfl⟩ := h
  exact hall

theorem length_readFull_le (h : readFull n r = (x, err, r')) : x.length ≤ n := by
  have hle := length_fill_le r.last r.withData n r.reads
  obtain ⟨rfl, -, -⟩ := h
  exact hle

theorem fullErr_short (h : x.length < n) (e : ReadErr ε) : fullErr n x (some e) ≠ none := by
  have hn : ¬ n ≤ x.length := Nat.not_le.mpr h
  cases e with
  | eof =>
      simp only [fullErr, if_neg hn]
      split <;> simp
  | unexpectedEOF => simp [fullErr, hn]
  | other e => simp [fullErr, hn]

/-- Without an error the buffer is full. -/
theorem length_readFull (h : readFull n r = (x, none, r')) : x.length = n := by
  have hle := length_readFull_le h
  simp only [readFull, Prod.mk.injEq] at h
  obtain ⟨rfl, herr, -⟩ := h
  by_contra hne
  have hlt := Nat.lt_of_le_of_ne hle hne
  rw [(fill_short _ _ hlt).1] at herr
  exact fullErr_short hlt r.last herr

variable {e : ReadErr ε}

/-- With an error nothing is left. -/
theorem content_of_readFull_err (h : readFull n r = (x, some e, r')) : r'.content = [] := by
  simp only [readFull, Prod.mk.injEq] at h
  obtain ⟨rfl, herr, rfl⟩ := h
  by_cases hfull : n ≤ (fill r.last r.withData n r.reads).1.length
  · simp [fullErr, hfull] at herr
  · rw [Reader.content, (fill_short _ _ (Nat.not_le.mp hfull)).2]
    rfl

theorem last_readFull (h : readFull n r = (x, err, r')) : r'.last = r.last := by
  obtain ⟨-, -, rfl⟩ := h
  rfl

/-- The error that ends a stream, if it is none of the two ends of file. -/
def ReadErr.failure : ReadErr ε → Option ε
  | .eof | .unexpectedEOF => none
  | .other e => some e

theorem failure_fullErr {e' : ReadErr ε} (h : fullErr n x (some e) = some e') :
    e'.failure = e.failure := by
  rw [fullErr.eq_def] at h
  by_cases hfull : n ≤ x.length
  · simp [hfull] at h
  · cases e with
    | eof =>
        simp only [if_neg hfull] at h
        by_cases hx : x = []
        · rw [if_pos hx] at h
          rw [← Option.some.inj h]
        · rw [if_neg hx] at h
          rw [← Option.some.inj h]
          rfl
    | unexpectedEOF | other msg =>
        simp only [if_neg hfull] at h
        rw [← Option.some.inj h]

/-- `io.ReadFull` hands on a failure of the reader as it is. -/
theorem failure_readFull (h : readFull n r = (x, some e, r')) : e.failure = r.last.failure := by
  simp only [readFull, Prod.mk.injEq] at h
  obtain ⟨rfl, herr, -⟩ := h
  by_cases hfull : n ≤ (fill r.last r.withData n r.reads).1.length
  · simp [fullErr, hfull] at herr
  · rw [(fill_short _ _ (Nat.not_le.mp hfull)).1] at herr
    exact failure_fullErr herr

/-- With an error the buffer is not full. -/
theorem length_readFull_lt (h : readFull n r = (x, some e, r')) : x.length < n := by
  simp only [readFull, Prod.mk.injEq] at h
  obtain ⟨rfl, herr, -⟩ := h
  by_contra hfull
  simp [fullErr, Nat.not_lt.mp hfull] at herr

end ReadFull

/-! ## Blocks -/

/-- The first `k` blocks of `n` elements. -/
def blocksUpTo (n : Nat) : Nat → List α → List (List α)
  | 0, _ => []
  | _ + 1, [] => []
  | k + 1, a :: l => (a :: l).take n :: blocksUpTo n k ((a :: l).drop n)

/-- A list cut into blocks of `n` elements; the last one may be shorter. -/
def blocks (n : Nat) (l : List α) : List (List α) := blocksUpTo n l.length l

section Blocks

variable {n : Nat} {l : List α}

@[simp] theorem blocks_nil : blocks n ([] : List α) = [] := rfl

theorem blocksUpTo_eq (hn : 0 < n) {k j : Nat} (hk : l.length ≤ k) (hj : l.length ≤ j) :
    blocksUpTo n k l = blocksUpTo n j l := by
  induction k generalizing j l with
  | zero =>
      have hnil : l = [] := List.length_eq_zero_iff.mp (by omega)
      subst hnil
      cases j <;> rfl
  | succ k ih =>
      cases l with
      | nil => cases j <;> rfl
      | cons a l =>
          cases j with
          | zero => simp at hj
          | succ j =>
              have hlen : ((a :: l).drop n).length ≤ l.length := by
                simp only [List.length_drop, List.length_cons]
                omega
              simp only [List.length_cons] at hk hj
              have hrest : blocksUpTo n k ((a :: l).drop n) = blocksUpTo n j ((a :: l).drop n) :=
                ih (by omega) (by omega)
              rw [blocksUpTo, blocksUpTo, hrest]

theorem blocks_step (hn : 0 < n) (hl : l ≠ []) :
    blocks n l = l.take n :: blocks n (l.drop n) := by
  obtain ⟨a, l, rfl⟩ := List.exists_cons_of_ne_nil hl
  have hlen : ((a :: l).drop n).length ≤ l.length := by
    simp only [List.length_drop, List.length_cons]
    omega
  rw [blocks, List.length_cons, blocksUpTo, blocks, blocksUpTo_eq hn hlen (Nat.le_refl _)]

theorem blocks_short (hl : l ≠ []) (hn : l.length ≤ n) : blocks n l = [l] := by
  have hpos : 0 < n := Nat.lt_of_lt_of_le (List.length_pos_iff.mpr hl) hn
  rw [blocks_step hpos hl, List.take_of_length_le hn, List.drop_of_length_le hn, blocks_nil]

theorem blocks_append (hn : 0 < n) {b : List α} (hb : b.length = n) (l : List α) :
    blocks n (b ++ l) = b :: blocks n l := by
  have hne : b ++ l ≠ [] := by
    intro h
    have := congrArg List.length h
    simp only [List.length_append, List.length_nil] at this
    omega
  rw [blocks_step hn hne, ← hb, List.take_left, List.drop_left]

/-- Blocks are not empty and no longer than asked for, and all but the last are full. -/
theorem blocks_sizes (hn : 0 < n) (l : List α) :
    (∀ b ∈ (blocks n l).dropLast, b.length = n) ∧
      ∀ b ∈ blocks n l, b ≠ [] ∧ b.length ≤ n := by
  induction hlen : l.length using Nat.strongRecOn generalizing l with
  | ind k ih =>
      by_cases hl : l = []
      · simp [hl]
      · by_cases hshort : l.length ≤ n
        · simp [blocks_short hl hshort, hl, hshort]
        · have hlong : n < l.length := Nat.not_le.mp hshort
          have hrest := ih (l.drop n).length (by rw [List.length_drop]; omega) (l.drop n) rfl
          have hne : l.drop n ≠ [] := by
            rw [Ne, List.drop_eq_nil_iff]
            omega
          have htake : (l.take n).length = n := by
            rw [List.length_take]
            omega
          have hsome : blocks n (l.drop n) ≠ [] := by
            rw [blocks_step hn hne]
            simp
          rw [blocks_step hn hl, List.dropLast_cons_of_ne_nil hsome]
          simp only [List.mem_cons, forall_eq_or_imp]
          exact ⟨⟨htake, hrest.1⟩, ⟨by rw [← List.length_pos_iff]; omega, by omega⟩, hrest.2⟩

theorem flatten_blocks (hn : 0 < n) (l : List α) : (blocks n l).flatten = l := by
  induction hlen : l.length using Nat.strongRecOn generalizing l with
  | ind k ih =>
      by_cases hl : l = []
      · simp [hl]
      · have hpos := List.length_pos_iff.mpr hl
        rw [blocks_step hn hl, List.flatten_cons,
          ih (l.drop n).length (by rw [List.length_drop]; omega) (l.drop n) rfl,
          List.take_append_drop]

end Blocks

end Stream

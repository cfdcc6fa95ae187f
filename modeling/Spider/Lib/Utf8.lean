import Mathlib

/-!
# Spider.Lib.Utf8

UTF-8 over byte lists: which byte strings are valid, and what becomes of the
others when a writer replaces each byte that starts no encoded character by
U+FFFD.
-/

namespace Utf8

/-- The number of bytes a first byte announces. -/
def lead (b : UInt8) : Option Nat :=
  if b < 0x80 then some 1
  else if 0xC2 ≤ b ∧ b ≤ 0xDF then some 2
  else if 0xE0 ≤ b ∧ b ≤ 0xEF then some 3
  else if 0xF0 ≤ b ∧ b ≤ 0xF4 then some 4
  else none

/-- The second bytes that may follow a first one: overlong forms, surrogates and
what lies beyond U+10FFFF are excluded. -/
def second (b c : UInt8) : Bool :=
  (if b = 0xE0 then 0xA0 else if b = 0xF0 then 0x90 else 0x80) ≤ c &&
    c ≤ (if b = 0xED then 0x9F else if b = 0xF4 then 0x8F else 0xBF)

def continuation (b : UInt8) : Bool := 0x80 ≤ b && b ≤ 0xBF

/-- The length of the encoded character at the front. -/
def width : List UInt8 → Option Nat
  | [] => none
  | b :: bs =>
      match lead b with
      | none => none
      | some n =>
          if n ≤ bs.length + 1 ∧ (bs.take (n - 1)).all continuation ∧
              (bs.take (n - 1)).head?.all (second b) then some n
          else none

/-- All bytes belong to encoded characters; `fuel` bounds their number. -/
def validFrom : Nat → List UInt8 → Bool
  | _, [] => true
  | 0, _ :: _ => false
  | fuel + 1, b :: bs =>
      match width (b :: bs) with
      | some n => validFrom fuel ((b :: bs).drop n)
      | none => false

def valid (s : List UInt8) : Bool := validFrom s.length s

/-- U+FFFD. -/
def replacement : List UInt8 := [0xEF, 0xBF, 0xBD]

def toValidFrom : Nat → List UInt8 → List UInt8
  | _, [] => []
  | 0, _ :: _ => []
  | fuel + 1, b :: bs =>
      match width (b :: bs) with
      | some n => (b :: bs).take n ++ toValidFrom fuel ((b :: bs).drop n)
      | none => replacement ++ toValidFrom fuel bs

/-- Replace each byte that is part of no encoded character. -/
def toValid (s : List UInt8) : List UInt8 := toValidFrom s.length s

variable {s : List UInt8}

theorem toValidFrom_of_validFrom {fuel : Nat} (h : validFrom fuel s = true) :
    toValidFrom fuel s = s := by
  induction fuel generalizing s with
  | zero =>
      cases s with
      | nil => rfl
      | cons b bs => contradiction
  | succ fuel ih =>
      cases s with
      | nil => rfl
      | cons b bs =>
          rw [validFrom] at h
          rw [toValidFrom]
          cases hw : width (b :: bs) with
          | none => simp [hw] at h
          | some n =>
              rw [hw] at h
              dsimp only at h ⊢
              rw [ih h, List.take_append_drop]

/-- A valid string stays as it is. -/
theorem toValid_of_valid (h : valid s = true) : toValid s = s :=
  toValidFrom_of_validFrom h

theorem width_pos {n : Nat} (h : width s = some n) : 0 < n := by
  cases s with
  | nil => contradiction
  | cons b bs =>
      rw [width] at h
      cases hl : lead b with
      | none => simp [hl] at h
      | some k =>
          have hk : 0 < k := by
            unfold lead at hl
            split at hl <;> grind
          simp only [hl] at h
          split at h
          · exact Option.some.inj h ▸ hk
          · contradiction

/-- The replacement is an encoded character itself. -/
theorem width_replacement (s : List UInt8) : width (replacement ++ s) = some 3 := by
  simp [replacement, width, lead, continuation, second]

theorem validFrom_of_toValidFrom {fuel : Nat} (hlen : s.length ≤ fuel) (h : toValidFrom fuel s = s) :
    validFrom fuel s = true := by
  induction fuel generalizing s with
  | zero =>
      have hnil : s = [] := List.eq_nil_of_length_eq_zero (by omega)
      subst hnil
      rfl
  | succ fuel ih =>
      cases s with
      | nil => rfl
      | cons b bs =>
          rw [toValidFrom] at h
          rw [validFrom]
          cases hw : width (b :: bs) with
          | none =>
              -- a replaced byte would be the first of a character
              rw [hw] at h
              dsimp only at h
              have hwidth := width_replacement (toValidFrom fuel bs)
              rw [h, hw] at hwidth
              contradiction
          | some n =>
              rw [hw] at h
              have hsplit : (b :: bs).take n ++ toValidFrom fuel ((b :: bs).drop n) =
                  (b :: bs).take n ++ (b :: bs).drop n := by
                rw [List.take_append_drop]
                exact h
              have hpos : 0 < n := width_pos hw
              have hdrop : ((b :: bs).drop n).length ≤ fuel := by
                rw [List.length_drop, List.length_cons] at *
                omega
              exact ih hdrop (List.append_cancel_left hsplit)

/-- Only valid strings stay as they are. -/
theorem toValid_eq_self_iff : toValid s = s ↔ valid s = true :=
  ⟨validFrom_of_toValidFrom (Nat.le_refl _), toValid_of_valid⟩

example : valid [0x6E, 0x31, 0xC3, 0xA9, 0xF0, 0x9F, 0x95, 0xB7] = true := by decide

example : toValid [0x61, 0xFF, 0xC3] = 0x61 :: (replacement ++ replacement) := by decide

end Utf8

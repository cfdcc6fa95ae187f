import Mathlib

/-!
# Spider.Strings

Go strings and byte slices.  A Go string is a sequence of bytes, so `len`,
slicing and comparison are those of `List UInt8`; nothing here assumes the
bytes are valid UTF-8.
-/

namespace Spider

/-- File contents and byte slices. -/
abbrev Bytes := List UInt8

/-- Go strings. -/
abbrev Str := List UInt8

instance : LawfulBEq Str := inferInstance

theorem nil_fits : ([] : Bytes).length < 2 ^ 63 := by decide

/-- The bytes of a string literal. -/
def str (s : String) : Str := s.toUTF8.data.toList

/-! ## package strings -/

/-- `strings.HasPrefix`. -/
def hasPrefix (s pre : Str) : Bool := pre.isPrefixOf s

/-- `strings.HasSuffix`. -/
def hasSuffix (s suf : Str) : Bool := suf.isSuffixOf s

/-- `strings.TrimPrefix`. -/
def trimPrefix (s pre : Str) : Str := if hasPrefix s pre then s.drop pre.length else s

/-- `strings.Contains`. -/
def contains (s sub : Str) : Bool := s.tails.any (hasPrefix · sub)

/-- Drop one leading white-space rune, if there is one: the runes of
`unicode.IsSpace`, in their UTF-8 encodings. -/
def dropSpace : Str → Option Str
  | 0x09 :: s | 0x0a :: s | 0x0b :: s | 0x0c :: s | 0x0d :: s | 0x20 :: s => some s
  | 0xc2 :: 0x85 :: s | 0xc2 :: 0xa0 :: s => some s
  | 0xe1 :: 0x9a :: 0x80 :: s => some s
  | 0xe2 :: 0x80 :: b :: s =>
      if (0x80 ≤ b ∧ b ≤ 0x8a) ∨ b = 0xa8 ∨ b = 0xa9 ∨ b = 0xaf then some s else none
  | 0xe2 :: 0x81 :: 0x9f :: s => some s
  | 0xe3 :: 0x80 :: 0x80 :: s => some s
  | _ => none

/-- `strings.TrimSpace(s) == ""`: the string is white space only.  Every
dropped rune is at least one byte, so `s.length` rounds are enough. -/
def isBlank (s : Str) : Bool := go s.length s
where
  go : Nat → Str → Bool
    | _, [] => true
    | 0, _ => false
    | n + 1, s => match dropSpace s with
      | some s' => go n s'
      | none => false

example : isBlank (str " \t ") = true := by decide

/-- Drop one trailing white-space rune, if there is one. -/
def dropSpaceEnd (s : Str) : Option Str :=
  match s.reverse with
  | 0x09 :: r | 0x0a :: r | 0x0b :: r | 0x0c :: r | 0x0d :: r | 0x20 :: r => some r.reverse
  | 0x85 :: 0xc2 :: r | 0xa0 :: 0xc2 :: r => some r.reverse
  | 0x80 :: 0x9a :: 0xe1 :: r => some r.reverse
  | 0x9f :: 0x81 :: 0xe2 :: r => some r.reverse
  | 0x80 :: 0x80 :: 0xe3 :: r => some r.reverse
  | b :: 0x80 :: 0xe2 :: r =>
      if (0x80 ≤ b ∧ b ≤ 0x8a) ∨ b = 0xa8 ∨ b = 0xa9 ∨ b = 0xaf then some r.reverse else none
  | _ => none

/-- `strings.TrimSpace`. -/
def trimSpace (s : Str) : Str :=
  let front := drop dropSpace s.length s
  drop dropSpaceEnd front.length front
where
  drop (one : Str → Option Str) : Nat → Str → Str
    | 0, s => s
    | n + 1, s => match one s with
      | some s' => drop one n s'
      | none => s

example : trimSpace (str " rack 1\n") = str "rack 1" := by decide

/-! ## package strconv and octal printing -/

/-- The value of an octal digit. -/
def octalDigit (b : UInt8) : Option Nat :=
  if 0x30 ≤ b ∧ b ≤ 0x37 then some (b.toNat - 0x30) else none

/-- `strconv.ParseUint(s, 8, 32)`; `none` is its error. -/
def parseOctal (s : Str) : Option Nat :=
  if s = [] then none
  else (s.mapM octalDigit).bind fun ds =>
    let n := ds.foldl (fun acc d => 8 * acc + d) 0
    if n < 2 ^ 32 then some n else none

/-- `fmt.Sprintf("%04o", n)`. -/
def octal4 (n : Nat) : Str :=
  let ds := (Nat.toDigits 8 n).map fun c => c.toNat.toUInt8
  List.replicate (4 - ds.length) 0x30 ++ ds

example : parseOctal (str "0644") = some 420 := by decide
example : octal4 420 = str "0644" := by decide

theorem hasPrefix_iff {s pre : Str} : hasPrefix s pre = true ↔ pre <+: s := by
  simp [hasPrefix]

theorem hasSuffix_iff {s suf : Str} : hasSuffix s suf = true ↔ suf <:+ s := by
  simp [hasSuffix]

theorem length_trimPrefix_le (s pre : Str) : (trimPrefix s pre).length ≤ s.length := by
  rw [trimPrefix]
  split
  · simp
  · exact Nat.le_refl _

theorem trimPrefix_append (pre s : Str) : trimPrefix (pre ++ s) pre = s := by
  simp [trimPrefix, hasPrefix]

end Spider

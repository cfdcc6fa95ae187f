import Spider.Strings

/-!
# Spider.Hash

Content addresses (`pkg/chunk`): `"sha256:"` followed by the lower-case hex
digits of a SHA-256 digest.

SHA-256 itself is a parameter `H : Sha256` of the whole development.  No
function into 32-byte digests is injective on all byte strings, so where the
integrity results rely on SHA-256 being collision free they ask for
`H.Pins c` of the contents `c` that were published: no other byte string has
the digest of `c`.
-/

namespace Spider

/-- SHA-256 as the code uses it: a function with 32-byte digests. -/
structure Sha256 where
  sum : Bytes → Bytes
  length_sum : ∀ b, (sum b).length = 32

/-- The digest of `c` is the digest of no other byte string. -/
def Sha256.Pins (H : Sha256) (c : Bytes) : Prop := ∀ b, H.sum b = H.sum c → b = c

/-- A digest that numbers the contents of a list and gives every other content
the next number: the smallest function that pins these contents. -/
def Sha256.numbering (cs : List Bytes) : Sha256 where
  sum b := (cs.idxOf b).toUInt8 :: List.replicate 31 0
  length_sum _ := by simp

theorem Sha256.pins_numbering {cs : List Bytes} {c : Bytes} (hc : c ∈ cs) (hlen : cs.length < 256) :
    (Sha256.numbering cs).Pins c := by
  intro b hb
  have hidx : (cs.idxOf b).toUInt8 = (cs.idxOf c).toUInt8 := (List.cons.inj hb).1
  have hlt : cs.idxOf c < cs.length := List.idxOf_lt_length_of_mem hc
  have hle : cs.idxOf b ≤ cs.length := List.idxOf_le_length
  have hnat := congrArg UInt8.toNat hidx
  simp only [Nat.toUInt8, UInt8.toNat_ofNat'] at hnat
  have heq : cs.idxOf b = cs.idxOf c := by omega
  exact (List.idxOf_inj hc).mp heq.symm |>.symm

/-! ## encoding/hex -/

/-- The hex digit of a number below 16. -/
def hexDigit (n : Nat) : UInt8 := (str "0123456789abcdef").getD n 0

/-- `hex.EncodeToString`. -/
def hexEncode (b : Bytes) : Str :=
  b.flatMap fun x => [hexDigit (x.toNat / 16), hexDigit (x.toNat % 16)]

theorem hexDigit_inj : ∀ a < 16, ∀ b < 16, hexDigit a = hexDigit b → a = b := by decide

theorem length_hexEncode (b : Bytes) : (hexEncode b).length = 2 * b.length := by
  induction b with
  | nil => rfl
  | cons x b ih =>
      have hcons : hexEncode (x :: b) =
          hexDigit (x.toNat / 16) :: hexDigit (x.toNat % 16) :: hexEncode b := rfl
      rw [hcons, List.length_cons, List.length_cons, ih, List.length_cons]
      omega

theorem hexEncode_inj {a b : Bytes} (h : hexEncode a = hexEncode b) : a = b := by
  have hlen : a.length = b.length := by
    have hl := congrArg List.length h
    rw [length_hexEncode, length_hexEncode] at hl
    omega
  induction a generalizing b with
  | nil =>
      cases b with
      | nil => rfl
      | cons y b => simp at hlen
  | cons x a ih =>
      cases b with
      | nil => simp at hlen
      | cons y b =>
          have hcons : hexDigit (x.toNat / 16) :: hexDigit (x.toNat % 16) :: hexEncode a =
              hexDigit (y.toNat / 16) :: hexDigit (y.toNat % 16) :: hexEncode b := h
          injection hcons with hhi hrest
          injection hrest with hlo htl
          have hx : x.toNat < 256 := x.toNat_lt
          have hy : y.toNat < 256 := y.toNat_lt
          have hdiv := hexDigit_inj _ (by omega) _ (by omega) hhi
          have hmod := hexDigit_inj _ (by omega) _ (by omega) hlo
          have hxy : x = y := UInt8.toNat_inj.mp (by omega)
          rw [hxy, ih htl (by simpa using hlen)]

/-! ## Chunk hashes -/

/-- The scheme every hash string starts with. -/
def scheme : Str := str "sha256:"

/-- `chunk.ComputeHash`. -/
def computeHash (H : Sha256) (data : Bytes) : Str := scheme ++ hexEncode (H.sum data)

theorem length_computeHash (H : Sha256) (data : Bytes) : (computeHash H data).length = 71 := by
  rw [computeHash, List.length_append, length_hexEncode, H.length_sum]
  rfl

theorem hasPrefix_computeHash (H : Sha256) (data : Bytes) :
    hasPrefix (computeHash H data) scheme = true := by
  rw [hasPrefix_iff]
  exact List.prefix_append _ _

/-- A hash string of the right form. -/
def zeroHash : Str :=
  str "sha256:0000000000000000000000000000000000000000000000000000000000000000"

/-- Equal hash strings are equal digests. -/
theorem sum_eq_of_computeHash {H : Sha256} {b c : Bytes}
    (h : computeHash H b = computeHash H c) : H.sum b = H.sum c :=
  hexEncode_inj (List.append_cancel_left h)

/-- Bytes that hash to the address of a pinned content are that content. -/
theorem Sha256.Pins.eq_of_computeHash {H : Sha256} {b c : Bytes} (hc : H.Pins c)
    (h : computeHash H b = computeHash H c) : b = c :=
  hc b (sum_eq_of_computeHash h)

end Spider

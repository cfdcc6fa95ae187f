import Spider.Advertise.Loop

/-!
# Spider.Backoff

The delays of the two retry loops, in 64-bit durations: `scheduleRetry`
(`pkg/advertise/advertise.go`) and `fetchChunk` (`pkg/engine/engine.go`).  Within the maximum
the first loop is `doubled` of `Spider.Advertise.Loop`.
-/

namespace Spider

/-- The delay `scheduleRetry` chooses for attempt `n + 1`, whose loop has `n` rounds. -/
def scheduleDelay (max : Int64) : Nat → Int64 → Int64
  | 0, backoff => backoff
  | n + 1, backoff => if backoff * 2 > max then max else scheduleDelay max n (backoff * 2)

/-- What `fetchChunk` does to `backoff` once it has slept. -/
def nextBackoff (max backoff : Int64) : Int64 :=
  if backoff < max then (if backoff * 2 > max then max else backoff * 2) else backoff

/-- The `k`-th delay of `fetchChunk`. -/
def fetchDelay (initial max : Int64) (k : Nat) : Int64 := (nextBackoff max)^[k] initial

/-- From a delay within the maximum both loops double up to it. -/
theorem delays_eq {max : Int64} (hmax : 2 * max.toInt < 2 ^ 63) (n : Nat) {b : Int64}
    (hb : 0 < b.toInt) (hle : b.toInt ≤ max.toInt) :
    (scheduleDelay max n b).toInt = doubled max.toInt n b.toInt ∧
      doubled max.toInt n b.toInt = min (b.toInt * 2 ^ n) max.toInt ∧
      ((nextBackoff max)^[n] b).toInt = min (b.toInt * 2 ^ n) max.toInt := by
  induction n generalizing b with
  | zero => simp [scheduleDelay, doubled, hle]
  | succ n ih =>
      have hdouble : (b * 2).toInt = 2 * b.toInt := by
        rw [Int64.toInt_mul, mul_comm]
        exact Int.bmod_eq_of_le (by simp; omega) (by simp; omega)
      have hone : (1 : Int) ≤ 2 ^ n := one_le_pow₀ (by decide)
      rw [scheduleDelay, doubled, Function.iterate_succ_apply, nextBackoff, pow_succ',
        mul_left_comm, ← mul_assoc]
      simp only [gt_iff_lt, Int64.lt_iff_toInt_lt, hdouble]
      split
      · have hstay := (ih (b := max) (by omega) le_rfl).2.2
        have hcap : max.toInt ≤ max.toInt * 2 ^ n := by nlinarith
        have hmore : max.toInt ≤ 2 * b.toInt * 2 ^ n := by nlinarith
        have hnext : (if b.toInt < max.toInt then max else b) = max := by
          grind [Int64.toInt_inj]
        rw [hnext, hstay, min_eq_right hcap, min_eq_right hmore]
        exact ⟨rfl, rfl, rfl⟩
      · rw [if_pos (by omega), ← hdouble]
        exact ih (by omega) (by omega)

/-- **The delays are capped exponential backoff** exactly if the first one is within the
maximum. -/
theorem delays_capped_iff (initial max : Int64) (hinitial : 0 < initial.toInt)
    (hmax : 2 * max.toInt < 2 ^ 63) :
    (∀ n, (scheduleDelay max n initial).toInt = min (initial.toInt * 2 ^ n) max.toInt ∧
      (fetchDelay initial max n).toInt = min (initial.toInt * 2 ^ n) max.toInt) ↔
    initial.toInt ≤ max.toInt := by
  refine ⟨fun h => ?_, fun hle n => ?_⟩
  · have hfirst : initial.toInt = min (initial.toInt * 1) max.toInt := (h 0).2
    omega
  · have h := delays_eq hmax n hinitial hle
    exact ⟨h.1.trans h.2.1, h.2.2⟩

theorem delays_capped_seconds : (fetchDelay 100 2000 5).toInt = min (100 * 2 ^ 5) 2000 :=
  ((delays_capped_iff 100 2000 (by decide) (by decide)).mpr (by decide) 5).2

/-- With a first delay above the maximum, `fetchChunk` never comes down to it, and
`scheduleRetry` only with its second. -/
theorem delays_above_max : fetchDelay 3000 2000 5 = 3000 ∧ scheduleDelay 2000 0 3000 = 3000 ∧
    scheduleDelay 2000 1 3000 = 2000 := by
  decide

end Spider

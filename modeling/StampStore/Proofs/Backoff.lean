-- The wait before work is run again. It is computed in 64 bits, with the largest
-- number in place of each one that does not fit, and comes out as if numbers had no
-- bounds: twice as long with every attempt, up to the ceiling of the policy.
import StampStore.Retry
import Mathlib.Algebra.GroupWithZero.Nat

namespace StampStore

namespace RetryPolicy

/-! ## Numbers cut off at the largest one -/

theorem lt_size_iff {n : Nat} : n < UInt64.size ↔ n ≤ ceiling.toNat := by
  have hceiling : ceiling.toNat = UInt64.size - 1 := by decide
  rw [hceiling, UInt64.size]
  omega

theorem toNat_le_ceiling (n : UInt64) : n.toNat ≤ ceiling.toNat :=
  lt_size_iff.mp n.toNat_lt

theorem toNat_timesAtMost (a b : UInt64) :
    (timesAtMost a b).toNat = min (a.toNat * b.toNat) ceiling.toNat := by
  unfold timesAtMost
  by_cases hfits : a.toNat * b.toNat < UInt64.size
  · rw [if_pos hfits, UInt64.toNat_mul, Nat.min_eq_left (lt_size_iff.mp hfits)]
    exact Nat.mod_eq_of_lt hfits
  · rw [if_neg hfits, Nat.min_eq_right]
    rw [lt_size_iff] at hfits
    omega

theorem ceiling_le_pow {n : Nat} (h : 64 ≤ n) : ceiling.toNat ≤ 2 ^ n := by
  calc ceiling.toNat ≤ 2 ^ 64 := by decide
    _ ≤ 2 ^ n := Nat.pow_le_pow_right (by decide) h

theorem toNat_factor (attempt : UInt64) :
    (factor attempt).toNat = min (2 ^ attempt.toNat) ceiling.toNat := by
  unfold factor exponent?
  by_cases hexponent : attempt.toNat < UInt32.size
  · have hn : (UInt32.ofNat attempt.toNat).toNat = attempt.toNat := by
      rw [UInt32.toNat_ofNat']
      exact Nat.mod_eq_of_lt hexponent
    rw [if_pos hexponent, Option.bind_some, power?, hn]
    by_cases hpower : attempt.toNat < 64
    · have hfits : 2 ^ attempt.toNat < UInt64.size := Nat.pow_lt_pow_right (by decide) hpower
      rw [if_pos hpower, Option.getD_some, UInt64.toNat_ofNat', Nat.pow_eq,
        Nat.min_eq_left (lt_size_iff.mp hfits)]
      exact Nat.mod_eq_of_lt hfits
    · rw [if_neg hpower, Option.getD_none, Nat.min_eq_right (ceiling_le_pow (by omega))]
  · have hlarge : 64 ≤ attempt.toNat := by
      rw [UInt32.size] at hexponent
      omega
    rw [if_neg hexponent, Option.bind_none, Option.getD_none,
      Nat.min_eq_right (ceiling_le_pow hlarge)]

/-- Numbers cut off at `top` are not told from exact ones under a bound that is no larger: a product
with a factor that was cut off is either zero or at least `top`. -/
theorem min_of_cut_off {base power top bound : Nat} (h : bound ≤ top) :
    min (min (base * min power top) top) bound = min (base * power) bound := by
  rw [Nat.min_assoc, Nat.min_eq_right h]
  rcases Nat.le_total power top with hpower | hpower
  · rw [Nat.min_eq_left hpower]
  · rw [Nat.min_eq_right hpower]
    rcases Nat.eq_zero_or_pos base with rfl | hbase
    · simp
    · have htop : top ≤ base * top := Nat.le_mul_of_pos_left top hbase
      have hproduct : base * top ≤ base * power := Nat.mul_le_mul_left base hpower
      rw [Nat.min_eq_right (by omega), Nat.min_eq_right (by omega)]

/-! ## The wait -/

/-- The milliseconds to wait after an attempt, over numbers without bounds. -/
def exactWait (policy : RetryPolicy) (attempt : Nat) : Nat :=
  min (policy.baseDelayMs.toNat * 2 ^ attempt) policy.maxDelayMs.toNat

theorem toNat_min (a b : UInt64) : (min a b).toNat = min a.toNat b.toNat := by
  change (if a ≤ b then a else b).toNat = _
  by_cases h : a ≤ b
  · rw [if_pos h, Nat.min_eq_left (UInt64.le_iff_toNat_le.mp h)]
  · have hlt : b.toNat < a.toNat := by
      rw [UInt64.le_iff_toNat_le] at h
      omega
    rw [if_neg h, Nat.min_eq_right (by omega)]

theorem toNanos_backoff (policy : RetryPolicy) (attempt : UInt64) :
    (policy.backoff attempt).toNanos = 1000000 * policy.exactWait attempt.toNat := by
  rw [backoff, Duration.toNanos_ofMillis, toNat_min, toNat_timesAtMost, toNat_factor,
    min_of_cut_off (toNat_le_ceiling _), exactWait]

theorem exactWait_mono (policy : RetryPolicy) {m n : Nat} (h : m ≤ n) :
    policy.exactWait m ≤ policy.exactWait n := by
  have hpow : 2 ^ m ≤ 2 ^ n := Nat.pow_le_pow_right (by decide) h
  have hproduct := Nat.mul_le_mul_left policy.baseDelayMs.toNat hpow
  unfold exactWait
  omega

theorem exactWait_eq_zero_iff (policy : RetryPolicy) (n : Nat) :
    policy.exactWait n = 0 ↔ policy.baseDelayMs = 0 ∨ policy.maxDelayMs = 0 := by
  rw [exactWait, Nat.min_eq_zero_iff, Nat.mul_eq_zero, ← UInt64.toNat_inj, ← UInt64.toNat_inj]
  simp

end RetryPolicy

/-- The wait after any attempt is the first wait doubled once for each attempt before, or the ceiling
if that is less, to the nanosecond and over numbers without bounds. So it is never longer than the
ceiling, never shorter than an earlier one, and there is none at all exactly if the first wait or the
ceiling is zero. -/
theorem wait_doubles_up_to_its_ceiling (policy : RetryPolicy) :
    (∀ attempt : UInt64,
      (policy.backoff attempt).toNanos = 1000000 *
          min (policy.baseDelayMs.toNat * 2 ^ attempt.toNat) policy.maxDelayMs.toNat ∧
        (policy.backoff attempt).nanos.toNat < Duration.nanosPerSecond ∧
        (policy.backoff attempt).toNanos ≤ 1000000 * policy.maxDelayMs.toNat) ∧
      (∀ earlier later : UInt64, earlier ≤ later →
        (policy.backoff earlier).toNanos ≤ (policy.backoff later).toNanos) ∧
      ((∀ attempt, policy.backoff attempt = Duration.zero) ↔
        policy.baseDelayMs = 0 ∨ policy.maxDelayMs = 0) := by
  refine ⟨fun attempt => ⟨policy.toNanos_backoff attempt, Duration.nanos_ofMillis_lt _, ?_⟩,
    fun earlier later h => ?_, ?_⟩
  · rw [policy.toNanos_backoff attempt]
    exact Nat.mul_le_mul_left _ (Nat.min_le_right _ _)
  · rw [policy.toNanos_backoff earlier, policy.toNanos_backoff later]
    exact Nat.mul_le_mul_left _ (policy.exactWait_mono (UInt64.le_iff_toNat_le.mp h))
  · have hzero : ∀ attempt, policy.backoff attempt = Duration.zero ↔
        policy.baseDelayMs = 0 ∨ policy.maxDelayMs = 0 := by
      intro attempt
      rw [← Duration.toNanos_eq_zero_iff, policy.toNanos_backoff attempt,
        ← policy.exactWait_eq_zero_iff attempt.toNat]
      omega
    exact ⟨fun h => (hzero 0).mp (h 0), fun h attempt => (hzero attempt).mpr h⟩

/-- Three milliseconds doubled up to twenty. Attempt 3 has reached the ceiling, and the attempt of the
largest number waits as long. With a first wait or a ceiling of zero there is no wait even then. -/
theorem last_attempt_waits_for_the_ceiling :
    let policy : RetryPolicy := ⟨5, 3, 20⟩
    ([0, 1, 2, 3, 64].map policy.backoff = [3, 6, 12, 20, 20].map Duration.ofMillis ∧
        (3 : UInt64) ≤ RetryPolicy.ceiling) ∧
      (policy.backoff RetryPolicy.ceiling).toNanos = 20000000 ∧
      (RetryPolicy.mk 5 0 20).backoff RetryPolicy.ceiling = Duration.zero ∧
      (RetryPolicy.mk 5 3 0).backoff RetryPolicy.ceiling = Duration.zero := by
  intro policy
  have hlater : (3 : UInt64) ≤ RetryPolicy.ceiling := by decide
  obtain ⟨hexact, hgrows, -⟩ := wait_doubles_up_to_its_ceiling policy
  obtain ⟨-, -, hnever⟩ := wait_doubles_up_to_its_ceiling ⟨5, 0, 20⟩
  obtain ⟨-, -, hcapped⟩ := wait_doubles_up_to_its_ceiling ⟨5, 3, 0⟩
  refine ⟨⟨by decide, hlater⟩, ?_, hnever.mpr (Or.inl rfl) _, hcapped.mpr (Or.inr rfl) _⟩
  have hreached : (policy.backoff 3).toNanos = 20000000 := by decide
  have hlow := hgrows 3 RetryPolicy.ceiling hlater
  have hhigh : (policy.backoff RetryPolicy.ceiling).toNanos ≤ 1000000 * 20 :=
    (hexact RetryPolicy.ceiling).2.2
  omega

end StampStore

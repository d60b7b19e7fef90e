-- When a transaction that was aborted is run again, and how long to wait first.
-- The wait doubles with every attempt up to a ceiling, and never overflows. Lengths
-- of time are whole seconds, and the nanoseconds beyond them.
import StampStore.Conflict

namespace StampStore

/-! ## Lengths of time -/

/-- A length of time, with less than a second of nanoseconds. -/
structure Duration where
  seconds : UInt64
  nanos : UInt32
  deriving DecidableEq, Repr

namespace Duration

/-- No time at all. -/
def zero : Duration := ⟨0, 0⟩

/-- The nanoseconds in a second. -/
def nanosPerSecond : Nat := 1000000000

/-- The length of `n` nanoseconds. -/
def ofNanos (n : UInt64) : Duration :=
  ⟨UInt64.ofNat (n.toNat / nanosPerSecond), UInt32.ofNat (n.toNat % nanosPerSecond)⟩

/-- The length of `ms` milliseconds. -/
def ofMillis (ms : UInt64) : Duration :=
  ⟨UInt64.ofNat (ms.toNat / 1000), UInt32.ofNat (ms.toNat % 1000 * 1000000)⟩

/-- The length of some seconds and nanoseconds, if there is one. -/
def ofParts? (seconds : UInt64) (nanos : UInt32) : Option Duration :=
  let carried := seconds.toNat + nanos.toNat / nanosPerSecond
  if carried < UInt64.size then
    some ⟨UInt64.ofNat carried, UInt32.ofNat (nanos.toNat % nanosPerSecond)⟩
  else none

/-- The nanoseconds of a length. -/
def toNanos (d : Duration) : Nat := d.seconds.toNat * nanosPerSecond + d.nanos.toNat

theorem toNat_nanos_ofMillis (ms : UInt64) :
    (ofMillis ms).nanos.toNat = ms.toNat % 1000 * 1000000 := by
  have hrest : ms.toNat % 1000 < 1000 := Nat.mod_lt _ (by decide)
  simp only [ofMillis, UInt32.toNat_ofNat']
  exact Nat.mod_eq_of_lt (by omega)

theorem nanos_ofMillis_lt (ms : UInt64) : (ofMillis ms).nanos.toNat < nanosPerSecond := by
  have hrest : ms.toNat % 1000 < 1000 := Nat.mod_lt _ (by decide)
  rw [toNat_nanos_ofMillis, nanosPerSecond]
  omega

theorem toNanos_ofMillis (ms : UInt64) : (ofMillis ms).toNanos = 1000000 * ms.toNat := by
  have hms := ms.toNat_lt
  have hseconds : (ofMillis ms).seconds.toNat = ms.toNat / 1000 := by
    simp only [ofMillis, UInt64.toNat_ofNat']
    exact Nat.mod_eq_of_lt (by omega)
  rw [toNanos, hseconds, toNat_nanos_ofMillis, nanosPerSecond]
  omega

theorem toNanos_eq_zero_iff {d : Duration} : d.toNanos = 0 ↔ d = zero := by
  cases d
  simp only [toNanos, nanosPerSecond, zero, mk.injEq, ← UInt64.toNat_inj, ← UInt32.toNat_inj,
    UInt64.toNat_zero, UInt32.toNat_zero]
  omega

end Duration

/-! ## Retry policies -/

/-- How often to run again, and how long to wait before each time. -/
structure RetryPolicy where
  maxRetries : UInt64
  baseDelayMs : UInt64
  maxDelayMs : UInt64
  deriving DecidableEq, Repr

namespace RetryPolicy

/-- The policy of a store that names none. -/
def standard : RetryPolicy := ⟨3, 10, 100⟩

/-- The policy that gives up after the first abort. -/
def never : RetryPolicy := { standard with maxRetries := 0 }

/-- The largest number of 64 bits, in place of every larger one. -/
def ceiling : UInt64 := UInt64.ofNat (UInt64.size - 1)

/-- The number of an attempt as an exponent, if 32 bits can hold it. -/
def exponent? (attempt : UInt64) : Option UInt32 :=
  if attempt.toNat < UInt32.size then some (UInt32.ofNat attempt.toNat) else none

/-- Two to the power `n`, if 64 bits can hold it. -/
def power? (n : UInt32) : Option UInt64 :=
  if n.toNat < 64 then some (UInt64.ofNat (Nat.pow 2 n.toNat)) else none

/-- How often the first wait goes into the one after attempt number `attempt`, or the ceiling. -/
def factor (attempt : UInt64) : UInt64 := ((exponent? attempt).bind power?).getD ceiling

/-- The product, or the ceiling when it does not fit. -/
def timesAtMost (a b : UInt64) : UInt64 :=
  if a.toNat * b.toNat < UInt64.size then a * b else ceiling

/-- The wait after attempt number `attempt`, counted from zero. -/
def backoff (policy : RetryPolicy) (attempt : UInt64) : Duration :=
  Duration.ofMillis (min (timesAtMost policy.baseDelayMs (factor attempt)) policy.maxDelayMs)

/-- The policy with all its fields. -/
def debug (policy : RetryPolicy) : String :=
  Text.fields "RetryConfig"
    [("max_retries", s!"{policy.maxRetries.toNat}"),
      ("base_delay_ms", s!"{policy.baseDelayMs.toNat}"),
      ("max_delay_ms", s!"{policy.maxDelayMs.toNat}")]

end RetryPolicy

end StampStore

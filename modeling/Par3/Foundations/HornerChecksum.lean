import Mathlib.Algebra.BigOperators.Intervals
import Mathlib.Algebra.BigOperators.Ring.Finset
import Mathlib.Tactic.Ring

/-!
# Checksums by Horner's rule

A checksum takes the values of a sequence one after the other, multiplying what it has by a fixed
element before each. Values that are zero can be skipped with one power of the element, and where
some power of the element is one, a checksum can be rewound by a number of values. The checksum is
linear in the sequence, and where the element is invertible, it tells any change of one value.
-/
namespace HornerChecksum

variable {R : Type*} [CommRing R] (point : R)

/-- Take the values from `start` to `stop`. -/
def take (values : ℕ → R) (start stop : ℕ) (checksum : R) : R :=
  (List.range' start (stop - start)).foldl (fun checksum index => point * checksum + values index)
    checksum

theorem take_self (values : ℕ → R) (start : ℕ) (checksum : R) :
    take point values start start checksum = checksum := by
  rw [take, Nat.sub_self]
  rfl

theorem take_succ (values : ℕ → R) {start stop : ℕ} (ordered : start ≤ stop) (checksum : R) :
    take point values start (stop + 1) checksum =
      point * take point values start stop checksum + values stop := by
  have turns : stop + 1 - start = stop - start + 1 := by omega
  have last : start + 1 * (stop - start) = stop := by omega
  rw [take, take, turns, List.range'_concat, List.foldl_append, last]
  rfl

theorem take_congr {first second : ℕ → R} {start stop : ℕ} (ordered : start ≤ stop)
    (same : ∀ index, start ≤ index → index < stop → first index = second index) (checksum : R) :
    take point first start stop checksum = take point second start stop checksum := by
  induction stop, ordered using Nat.le_induction with
  | base => rw [take_self, take_self]
  | succ stop ordered ih =>
    rw [take_succ point first ordered, take_succ point second ordered,
      ih fun index from_ below => same index from_ (Nat.lt_succ_of_lt below),
      same stop ordered (Nat.lt_succ_self stop)]

/-- A checksum that is not zero is carried along. -/
theorem take_eq (values : ℕ → R) {start stop : ℕ} (ordered : start ≤ stop) (checksum : R) :
    take point values start stop checksum =
      point ^ (stop - start) * checksum + take point values start stop 0 := by
  induction stop, ordered using Nat.le_induction with
  | base =>
    rw [take_self, take_self, Nat.sub_self]
    ring
  | succ stop ordered ih =>
    have turns : stop + 1 - start = stop - start + 1 := by omega
    rw [take_succ point values ordered, take_succ point values ordered, ih, turns]
    ring

/-- Values that are zero are skipped with one power. -/
theorem take_zeros {values : ℕ → R} {start stop : ℕ} (ordered : start ≤ stop)
    (zeros : ∀ index, start ≤ index → index < stop → values index = 0) (checksum : R) :
    take point values start stop checksum = point ^ (stop - start) * checksum := by
  induction stop, ordered using Nat.le_induction with
  | base =>
    rw [take_self, Nat.sub_self]
    ring
  | succ stop ordered ih =>
    have turns : stop + 1 - start = stop - start + 1 := by omega
    rw [take_succ point values ordered,
      ih fun index from_ below => zeros index from_ (Nat.lt_succ_of_lt below),
      zeros stop ordered (Nat.lt_succ_self stop), turns]
    ring

theorem take_append (values : ℕ → R) {start middle stop : ℕ} (first : start ≤ middle)
    (second : middle ≤ stop) (checksum : R) :
    take point values middle stop (take point values start middle checksum) =
      take point values start stop checksum := by
  induction stop, second using Nat.le_induction with
  | base => rw [take_self]
  | succ stop second ih =>
    rw [take_succ point values second, ih,
      take_succ point values (first.trans second)]

/-- The checksum of a linear combination is the combination of the checksums. -/
theorem take_combination {Input : Type*} (inputs : Finset Input) (coefficients : Input → R)
    (values : Input → ℕ → R) {start stop : ℕ} (ordered : start ≤ stop) :
    take point (fun index => ∑ input ∈ inputs, coefficients input * values input index) start stop 0 =
      ∑ input ∈ inputs, coefficients input * take point (values input) start stop 0 := by
  induction stop, ordered using Nat.le_induction with
  | base =>
    simp only [take_self, mul_zero, Finset.sum_const_zero]
  | succ stop ordered ih =>
    simp only [take_succ point _ ordered, ih, Finset.mul_sum, mul_add,
      Finset.sum_add_distrib]
    congr 1
    apply Finset.sum_congr rfl
    intro input _
    ring

/-- A changed value moves the checksum by its difference, times a power. -/
theorem take_changed {values changed : ℕ → R} {start stop index : ℕ} (first : start ≤ index)
    (last : index < stop)
    (same : ∀ other, start ≤ other → other < stop → other ≠ index → changed other = values other) :
    take point changed start stop 0 =
      take point values start stop 0 + point ^ (stop - (index + 1)) * (changed index - values index) := by
  have before : take point changed start index 0 = take point values start index 0 :=
    take_congr point first (fun other from_ below => same other from_ (by omega) below.ne) 0
  rw [← take_append point changed (first.trans (Nat.le_succ index)) last,
    ← take_append point values (first.trans (Nat.le_succ index)) last,
    take_congr point last (fun other from_ below => same other (by omega) below (by omega)),
    take_eq point values last, take_eq point values last (take point values start (index + 1) 0),
    take_succ point changed first, take_succ point values first, before]
  ring

variable {point} {period : ℕ}

/-- Powers of an element of finite order depend on the remainder of the exponent. -/
theorem pow_mod_period (order : point ^ period = 1) (exponent : ℕ) :
    point ^ (exponent % period) = point ^ exponent := by
  conv_rhs => rw [← Nat.div_add_mod exponent period, pow_add, pow_mul, order, one_pow, one_mul]

/-- A checksum that was rewound is where it was, behind as many values. -/
theorem pow_rewind (order : point ^ period = 1) (pos : 0 < period) (count : ℕ) :
    point ^ count * point ^ (period - count % period) = 1 := by
  have below := (Nat.mod_lt count pos).le
  rw [← pow_mod_period order count, ← pow_add, Nat.add_sub_cancel' below, order]

/-- The checksum of a sequence, rewound and taken over the sequence again, leaves nothing where the
sequences have the same checksum, and only there. -/
theorem rewind_take (order : point ^ period = 1) (pos : 0 < period) (values : ℕ → R)
    (count : ℕ) (checksum : R) :
    take point values 0 count (point ^ (period - count % period) * checksum) =
      checksum + take point values 0 count 0 := by
  rw [take_eq point values (Nat.zero_le count), Nat.sub_zero, ← mul_assoc,
    pow_rewind order pos, one_mul]

/-- An element of finite order divides no difference away. -/
theorem pow_mul_eq_zero (order : point ^ period = 1) (pos : 0 < period) (exponent : ℕ)
    {value : R} (zero : point ^ exponent * value = 0) : value = 0 := by
  have unit := pow_rewind order pos exponent
  rw [mul_comm] at unit
  rw [← one_mul value, ← unit, mul_assoc, zero, mul_zero]

end HornerChecksum

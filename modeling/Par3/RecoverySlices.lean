import Par3.Foundations.Doubles
import Mathlib.Data.Nat.Log
import Mathlib.Data.BitVec

/-!
# The number of recovery blocks

A request names a count, or a proportion of the input that is rounded up to a power of two, since
the encoder takes no other count. The rounding tests and doubles numbers as 32-bit integers, so it
is exact up to `2^30`, and for powers of two. A count that is given as a count is kept as it is
and turned down later if it is no power of two.
-/

namespace Par3

open Doubles

/-! ## Rounding up -/

/-- The 32-bit integer that the operators on bits see of a number. -/
def toInt32 (value : ℚ) : BitVec 32 := BitVec.ofInt 32 (if 0 ≤ value then ⌊value⌋ else ⌈value⌉)

/-- `(r & (r - 1)) === 0` -/
def singleBit (r : ℚ) : Bool := toInt32 r &&& toInt32 (r - 1) = 0

/-- `while(p < r) p <<= 1`, in at most so many rounds. -/
def doubleUntil : ℕ → BitVec 32 → ℚ → Option ℚ
  | 0, _, _ => none
  | rounds + 1, p, r => if (p.toInt : ℚ) < r then doubleUntil rounds (p <<< 1) r else some p.toInt

/-- `pow2up`, and `pow2up_clamp` of the constructor. Numbers are finite here. -/
def pow2up (rounds : ℕ) (r : ℚ) : Option ℚ :=
  if r ≤ 1 then some r
  else if singleBit r then some r
  else doubleUntil rounds 1 r

/-! ## Requests -/

inductive RecoveryUnit
  | ratio
  | slices
  | count
  | bytes
  | other
  deriving DecidableEq

/-- A number, nothing, or a value with a unit. -/
inductive RecoverySpec
  | number (value : ℚ)
  | nothing
  | units (unit : RecoveryUnit) (scale : Option ℚ) (value : ℚ)

/-- The units that are rounded up. -/
def RecoverySpec.proportional : RecoverySpec → Bool
  | .units .ratio _ _ => true
  | .units .bytes _ _ => true
  | _ => false

/-- `typeof spec === 'number'` -/
def RecoverySpec.isNumber : RecoverySpec → Bool
  | .number _ => true
  | _ => false

/-- `spec.scale || 1` -/
def scaleOf : Option ℚ → ℚ
  | none => 1
  | some scale => if scale = 0 then 1 else scale

/-- The last check of the constructor. -/
inductive CountError
  | notInteger (got : ℚ)
  | notPowerOfTwo (got : ℚ)
  deriving DecidableEq

def CountError.message (shown : ℚ → String) : CountError → String
  | .notInteger got =>
    "Recovery slice count must be a finite non-negative integer (got " ++ shown got ++ ")"
  | .notPowerOfTwo got =>
    "Recovery slice count must be a power of 2 (got " ++ shown got ++
      "); use PAR2 for arbitrary slice counts"

def checkCount (recoverySlices : ℚ) : Except CountError ℚ :=
  if recoverySlices < 0 ∨ (⌊recoverySlices⌋ : ℚ) ≠ recoverySlices then
    .error (.notInteger recoverySlices)
  else if 1 < recoverySlices ∧ ¬ singleBit recoverySlices then
    .error (.notPowerOfTwo recoverySlices)
  else .ok recoverySlices

structure SliceOpts where
  totalBlocks : ℕ
  blockSize : ℕ
  recoverySlices : RecoverySpec
  minRecoverySlices : Option RecoverySpec
  maxRecoverySlices : Option RecoverySpec

namespace SliceOpts

variable (o : SliceOpts)

/-- `_calcRecoverySlices` -/
def calcRecoverySlices (rounds : ℕ) : RecoverySpec → Option ℚ
  | .number value => some value
  | .nothing => some 0
  | .units unit scale value =>
    let scale := scaleOf scale
    match unit with
    | .ratio => pow2up rounds ⌈nearest (nearest (scale * o.totalBlocks) * value)⌉
    | .slices => some (round (nearest (scale * value)))
    | .count => some (round (nearest (scale * value)))
    | .bytes => pow2up rounds ⌈nearest (scale * nearest (value / o.blockSize))⌉
    | .other => some (round (nearest (scale * value)))

/-- A minimum or a maximum, where a number is rounded up as well. -/
def calcLimit (rounds : ℕ) (spec : RecoverySpec) : Option ℚ :=
  (o.calcRecoverySlices rounds spec).bind fun limit =>
    match spec with
    | .number _ => if 1 < limit then pow2up rounds limit else some limit
    | _ => some limit

/-- The count before its last check. -/
def clampedRecoverySlices (rounds : ℕ) : Option ℚ :=
  (o.calcRecoverySlices rounds o.recoverySlices).bind fun recoverySlices =>
    (match o.minRecoverySlices with
      | none => some recoverySlices
      | some spec => (o.calcLimit rounds spec).map fun minRec => max recoverySlices minRec).bind
        fun recoverySlices =>
          match o.maxRecoverySlices with
          | none => some recoverySlices
          | some spec => (o.calcLimit rounds spec).map fun maxRec => min recoverySlices maxRec

end SliceOpts

/-! ## Powers of two -/

/-- The least power of two that is not below a number; numbers up to one are kept. -/
def roundUp (r : ℚ) : ℚ := if r ≤ 1 then r else 2 ^ Nat.clog 2 ⌈r⌉₊

theorem roundUp_least {r : ℚ} (more : 1 < r) : IsLeast {p : ℚ | ∃ k : ℕ, p = 2 ^ k ∧ r ≤ p} (roundUp r) := by
  rw [roundUp, if_neg (not_le.mpr more)]
  constructor
  · refine ⟨_, rfl, (Nat.le_ceil r).trans ?_⟩
    exact_mod_cast Nat.le_pow_clog (by norm_num) ⌈r⌉₊
  · rintro p ⟨k, rfl, covers⟩
    have natural : ⌈r⌉₊ ≤ 2 ^ k := Nat.ceil_le.mpr (by exact_mod_cast covers)
    exact pow_le_pow_right₀ (by norm_num) (Nat.clog_le_of_le_pow natural)

/-- A whole number that the 32-bit operators round up. -/
def Roundable (r : ℚ) : Prop := ∃ whole : ℤ, r = whole ∧ (whole ≤ 2 ^ 30 ∨ ∃ k : ℕ, whole = 2 ^ k)

theorem toInt32_natCast (n : ℕ) : toInt32 n = BitVec.ofNat 32 n := by
  rw [toInt32, if_pos (Nat.cast_nonneg n), Int.floor_natCast, BitVec.ofInt_natCast]

theorem singleBit_natCast {n : ℕ} (pos : 0 < n) :
    singleBit n = decide (BitVec.ofNat 32 (n &&& (n - 1)) = 0) := by
  have before : ((n : ℚ) - 1) = ((n - 1 : ℕ) : ℚ) := by
    rw [Nat.cast_sub pos, Nat.cast_one]
  rw [singleBit, before, toInt32_natCast, toInt32_natCast, BitVec.ofNat_and]

/-- The test accepts every power of two. -/
theorem singleBit_two_pow (k : ℕ) : singleBit (2 ^ k) = true := by
  have power : (2 ^ k : ℚ) = ((2 ^ k : ℕ) : ℚ) := by push_cast; rfl
  rw [power, singleBit_natCast (Nat.two_pow_pos k), Nat.and_two_pow_sub_one_eq_mod, Nat.mod_self]
  rfl

/-- And no other number that fits. -/
theorem singleBit_iff {n : ℕ} (pos : 0 < n) (fits : n < 2 ^ 32) :
    singleBit n = true ↔ ∃ k, n = 2 ^ k := by
  have small : (n &&& (n - 1)) < 2 ^ 32 := lt_of_le_of_lt Nat.and_le_left fits
  rw [singleBit_natCast pos, decide_eq_true_eq,
    ← BitVec.toNat_inj, BitVec.toNat_ofNat, Nat.mod_eq_of_lt small]
  exact Nat.and_sub_one_eq_zero_iff_isPowerOfTwo pos.ne'

theorem double_toInt {k : ℕ} (small : k ≤ 30) : (BitVec.twoPow 32 k).toInt = 2 ^ k := by
  rw [BitVec.toInt_twoPow, if_neg (by omega), if_neg (by omega)]

theorem twoPow_double (k : ℕ) : BitVec.twoPow 32 k <<< 1 = BitVec.twoPow 32 (k + 1) := by
  rw [BitVec.twoPow_eq, BitVec.twoPow_eq, ← BitVec.shiftLeft_add]

/-- The doubling stops at the least power of two. The induction is on the rounds, and the power
that is reached is its invariant. -/
theorem doubleUntil_eq {n : ℕ} (fits : n ≤ 2 ^ 30) (rounds k : ℕ) (below : k ≤ Nat.clog 2 n)
    (enough : Nat.clog 2 n < rounds + k) :
    doubleUntil rounds (BitVec.twoPow 32 k) n = some (2 ^ Nat.clog 2 n) := by
  have few : Nat.clog 2 n ≤ 30 := Nat.clog_le_of_le_pow fits
  induction rounds generalizing k with
  | zero => omega
  | succ rounds ih =>
    rw [doubleUntil, double_toInt (below.trans few)]
    rcases Nat.lt_or_eq_of_le below with less | rfl
    · have short : 2 ^ k < n := (Nat.lt_clog_iff_pow_lt (by norm_num)).mp less
      rw [if_pos (by exact_mod_cast short)]
      rw [twoPow_double]
      exact ih (k + 1) less (by omega)
    · have covered : n ≤ 2 ^ Nat.clog 2 n := Nat.le_pow_clog (by norm_num) n
      rw [if_neg (by exact_mod_cast not_lt.mpr covered)]
      push_cast
      rfl

/-- Beyond `2^30` the doubling has no end: after it come the lowest integer and zero. The induction is
on the rounds. -/
theorem doubleUntil_endless {r : ℚ} (large : 2 ^ 30 < r) (rounds k : ℕ) :
    doubleUntil rounds (BitVec.twoPow 32 k) r = none := by
  induction rounds generalizing k with
  | zero => rfl
  | succ rounds ih =>
    have low : (BitVec.twoPow 32 k).toInt ≤ 2 ^ 30 := by
      rcases Nat.lt_or_ge 30 k with top | small
      · rw [BitVec.toInt_twoPow]
        split
        · norm_num
        · rw [if_pos (by omega)]
          exact (neg_nonpos.mpr (by positivity)).trans (by norm_num)
      · rw [double_toInt small]
        exact pow_le_pow_right₀ (by norm_num) small
    rw [doubleUntil, if_pos (lt_of_le_of_lt (by exact_mod_cast low) large), twoPow_double]
    exact ih (k + 1)

/-- A number above `2^30` that fails the test of bits is never rounded up. -/
theorem pow2up_endless {r : ℚ} (large : 2 ^ 30 < r) (bits : singleBit r = false) (rounds : ℕ) :
    pow2up rounds r = none := by
  rw [pow2up, if_neg (by linarith), bits]
  exact doubleUntil_endless large rounds 0

theorem pow2up_eq {r : ℚ} (whole : Roundable r) {rounds : ℕ} (enough : 31 ≤ rounds) :
    pow2up rounds r = some (roundUp r) := by
  rw [pow2up, roundUp]
  by_cases small : r ≤ 1
  · rw [if_pos small, if_pos small]
  rw [if_neg small, if_neg small]
  obtain ⟨n, rfl, fits⟩ := whole
  have pos : 1 < n := by exact_mod_cast not_le.mp small
  lift n to ℕ using by omega
  have ceil : ⌈((n : ℤ) : ℚ)⌉₊ = n := by
    rw [Int.cast_natCast, Nat.ceil_natCast]
  rw [ceil]
  by_cases single : singleBit ((n : ℤ) : ℚ) = true
  · rw [if_pos single]
    have power : ∃ k, n = 2 ^ k := by
      rcases fits with low | ⟨k, power⟩
      · refine (singleBit_iff (by omega) (lt_of_le_of_lt (b := 2 ^ 30) ?_ (by norm_num))).mp single
        exact_mod_cast low
      · exact ⟨k, by exact_mod_cast power⟩
    obtain ⟨k, rfl⟩ := power
    rw [Nat.clog_pow 2 k (by norm_num)]
    push_cast
    rfl
  · rw [if_neg single]
    have low : n ≤ 2 ^ 30 := by
      rcases fits with low | ⟨k, power⟩
      · exact_mod_cast low
      · refine absurd ?_ single
        rw [power]
        exact_mod_cast singleBit_two_pow k
    have few : Nat.clog 2 n ≤ 30 := Nat.clog_le_of_le_pow low
    exact doubleUntil_eq low rounds 0 (Nat.zero_le _) (by omega)

/-- The last check accepts zero and the powers of two. -/
theorem checkCount_iff {r : ℚ} (whole : Roundable r) :
    checkCount r = .ok r ↔ r = 0 ∨ ∃ k : ℕ, r = 2 ^ k := by
  obtain ⟨n, rfl, fits⟩ := whole
  rw [checkCount]
  by_cases negative : (n : ℚ) < 0
  · rw [if_pos (.inl negative)]
    refine iff_of_false nofun ?_
    rintro (zero | ⟨k, power⟩)
    · exact negative.ne zero
    · exact absurd (power ▸ negative) (not_lt.mpr (by positivity))
  rw [if_neg (by rw [Int.floor_intCast]; simpa using negative)]
  have natural : 0 ≤ n := by exact_mod_cast not_lt.mp negative
  lift n to ℕ using natural
  rw [Int.cast_natCast]
  by_cases small : n ≤ 1
  · rw [if_neg (fun more => absurd more.1 (not_lt.mpr (by exact_mod_cast small)))]
    refine iff_of_true rfl ?_
    rcases Nat.le_one_iff_eq_zero_or_eq_one.mp small with rfl | rfl
    · exact .inl Nat.cast_zero
    · exact .inr ⟨0, by norm_num⟩
  · have more : (1 : ℚ) < n := by exact_mod_cast not_le.mp small
    have power : singleBit n = true ↔ ∃ k, n = 2 ^ k := by
      rcases fits with low | ⟨k, power⟩
      · refine singleBit_iff (by omega) (lt_of_le_of_lt (b := 2 ^ 30) ?_ (by norm_num))
        exact_mod_cast low
      · have power : n = 2 ^ k := by exact_mod_cast power
        refine iff_of_true ?_ ⟨k, power⟩
        rw [power]
        exact_mod_cast singleBit_two_pow k
    by_cases single : singleBit n = true
    · rw [if_neg (fun refused => refused.2 single)]
      obtain ⟨k, power⟩ := power.mp single
      exact iff_of_true rfl (.inr ⟨k, by exact_mod_cast power⟩)
    · rw [if_pos ⟨more, single⟩]
      refine iff_of_false nofun ?_
      rintro (zero | ⟨k, equal⟩)
      · exact absurd (zero ▸ more) (by norm_num)
      · exact single (power.mpr ⟨k, by exact_mod_cast equal⟩)

/-! ## The clamped count -/

namespace SliceOpts

variable (o : SliceOpts)

/-- The count that a request asks for. -/
def requested : RecoverySpec → ℚ
  | .number value => value
  | .nothing => 0
  | .units .ratio scale value => ⌈nearest (nearest (scaleOf scale * o.totalBlocks) * value)⌉
  | .units .bytes scale value => ⌈nearest (scaleOf scale * nearest (value / o.blockSize))⌉
  | .units _ scale value => round (nearest (scaleOf scale * value))

/-- What is calculated for a request. -/
def amount (spec : RecoverySpec) : ℚ :=
  if spec.proportional then roundUp (o.requested spec) else o.requested spec

/-- What is calculated for a limit. -/
def limit (spec : RecoverySpec) : ℚ :=
  if spec.proportional ∨ spec.isNumber then roundUp (o.requested spec) else o.requested spec

/-- The minimum below a count. -/
def raise (count : ℚ) : ℚ :=
  match o.minRecoverySlices with
  | none => count
  | some spec => max count (o.limit spec)

/-- Both limits around a count. -/
def clamp (count : ℚ) : ℚ :=
  match o.maxRecoverySlices with
  | none => o.raise count
  | some spec => min (o.raise count) (o.limit spec)

theorem calcRecoverySlices_eq {rounds : ℕ} (enough : 31 ≤ rounds) (spec : RecoverySpec)
    (whole : spec.proportional → Roundable (o.requested spec)) :
    o.calcRecoverySlices rounds spec = some (o.amount spec) := by
  cases spec with
  | number value => rfl
  | nothing => rfl
  | units unit scale value =>
    cases unit with
    | ratio => exact pow2up_eq (whole rfl) enough
    | bytes => exact pow2up_eq (whole rfl) enough
    | slices => rfl
    | count => rfl
    | other => rfl

theorem calcLimit_eq {rounds : ℕ} (enough : 31 ≤ rounds) (spec : RecoverySpec)
    (whole : spec.proportional ∨ spec.isNumber → Roundable (o.requested spec)) :
    o.calcLimit rounds spec = some (o.limit spec) := by
  rw [calcLimit, o.calcRecoverySlices_eq enough spec fun rounded => whole (.inl rounded),
    Option.bind_some]
  cases spec with
  | number value =>
    change (if 1 < value then pow2up rounds value else some value) = some (roundUp value)
    split
    · exact pow2up_eq (whole (.inr rfl)) enough
    · rename_i small
      rw [roundUp, if_pos (not_lt.mp small)]
  | nothing => rfl
  | units unit scale value => cases unit <;> rfl

theorem roundUp_roundable {r : ℚ} (whole : Roundable r) : Roundable (roundUp r) := by
  rw [roundUp]
  split
  · exact whole
  · exact ⟨2 ^ Nat.clog 2 ⌈r⌉₊, by push_cast; rfl, .inr ⟨_, rfl⟩⟩

theorem amount_roundable (spec : RecoverySpec) (whole : Roundable (o.requested spec)) :
    Roundable (o.amount spec) := by
  rw [amount]
  split
  · exact roundUp_roundable whole
  · exact whole

theorem limit_roundable (spec : RecoverySpec) (whole : Roundable (o.requested spec)) :
    Roundable (o.limit spec) := by
  rw [limit]
  split
  · exact roundUp_roundable whole
  · exact whole

theorem clamp_roundable (low : ∀ spec ∈ o.minRecoverySlices, Roundable (o.requested spec))
    (high : ∀ spec ∈ o.maxRecoverySlices, Roundable (o.requested spec)) {count : ℚ}
    (whole : Roundable count) : Roundable (o.clamp count) := by
  have raised : Roundable (o.raise count) := by
    rw [raise]
    split
    · exact whole
    · rename_i spec chosen
      rcases max_choice count (o.limit spec) with same | same
      · exact same.symm ▸ whole
      · exact same.symm ▸ o.limit_roundable spec (low spec chosen)
  rw [clamp]
  split
  · exact raised
  · rename_i spec chosen
    rcases min_choice (o.raise count) (o.limit spec) with same | same
    · exact same.symm ▸ raised
    · exact same.symm ▸ o.limit_roundable spec (high spec chosen)

section Clamped

variable
  (low : ∀ spec ∈ o.minRecoverySlices, spec.proportional ∨ spec.isNumber → Roundable (o.requested spec))
  (high : ∀ spec ∈ o.maxRecoverySlices, spec.proportional ∨ spec.isNumber → Roundable (o.requested spec))

include low high

theorem clampedRecoverySlices_eq {rounds : ℕ} (enough : 31 ≤ rounds)
    (whole : o.recoverySlices.proportional → Roundable (o.requested o.recoverySlices)) :
    o.clampedRecoverySlices rounds = some (o.clamp (o.amount o.recoverySlices)) := by
  have raised (count : ℚ) : (match o.minRecoverySlices with
      | none => some count
      | some spec => (o.calcLimit rounds spec).map fun minRec => max count minRec) =
        some (o.raise count) := by
    rw [raise]
    split
    · rfl
    · rename_i spec chosen
      rw [o.calcLimit_eq enough spec (low spec chosen), Option.map_some]
  rw [clampedRecoverySlices, o.calcRecoverySlices_eq enough _ whole, Option.bind_some, raised,
    Option.bind_some, clamp]
  split
  · rfl
  · rename_i spec chosen
    rw [o.calcLimit_eq enough spec (high spec chosen), Option.map_some]

/-- Where the counts that are rounded up are at most `2^30` or powers of two, the calculation ends. A
proportion becomes the least power of two that is not below it, a count is kept, and both are clamped
to the limits. Where all counts are, what is no power of two then is turned down. -/
theorem recoverySlices_clamped {rounds : ℕ} (enough : 31 ≤ rounds)
    (whole : o.recoverySlices.proportional → Roundable (o.requested o.recoverySlices)) :
    o.clampedRecoverySlices rounds = some (o.clamp (o.amount o.recoverySlices)) ∧
      (o.recoverySlices.proportional → 1 < o.requested o.recoverySlices →
        IsLeast {p : ℚ | ∃ k : ℕ, p = 2 ^ k ∧ o.requested o.recoverySlices ≤ p}
          (o.amount o.recoverySlices)) ∧
      (¬ o.recoverySlices.proportional ∨ o.requested o.recoverySlices ≤ 1 →
        o.amount o.recoverySlices = o.requested o.recoverySlices) ∧
      (Roundable (o.requested o.recoverySlices) →
        (∀ spec ∈ o.minRecoverySlices, Roundable (o.requested spec)) →
        (∀ spec ∈ o.maxRecoverySlices, Roundable (o.requested spec)) →
        (checkCount (o.clamp (o.amount o.recoverySlices)) =
            .ok (o.clamp (o.amount o.recoverySlices)) ↔
          o.clamp (o.amount o.recoverySlices) = 0 ∨
            ∃ k : ℕ, o.clamp (o.amount o.recoverySlices) = 2 ^ k)) := by
  refine ⟨o.clampedRecoverySlices_eq low high enough whole, fun proportional more => ?_,
    fun kept => ?_, fun asked least most => ?_⟩
  · rw [amount, if_pos proportional]
    exact roundUp_least more
  · rw [amount]
    split
    · rename_i proportional
      rw [roundUp, if_pos (kept.resolve_left (not_not.mpr proportional))]
    · rfl
  · exact checkCount_iff (o.clamp_roundable least most (o.amount_roundable _ asked))

end Clamped

/-- 70 blocks of which an eighth is asked for, with at least two recovery blocks. -/
def eighth : SliceOpts where
  totalBlocks := 70
  blockSize := 1024
  recoverySlices := .units .ratio none (1 / 8)
  minRecoverySlices := some (.number 2)
  maxRecoverySlices := none

theorem eighth_requested : eighth.requested eighth.recoverySlices = 9 := by
  decide +kernel

theorem recoverySlices_clamped_eighth : eighth.clampedRecoverySlices 31 = some 16 := by
  have whole : Roundable (eighth.requested eighth.recoverySlices) :=
    ⟨9, eighth_requested, .inl (by norm_num)⟩
  have low : ∀ spec ∈ eighth.minRecoverySlices,
      spec.proportional ∨ spec.isNumber → Roundable (eighth.requested spec) := by
    rintro spec ⟨⟩ _
    exact ⟨2, rfl, .inl (by norm_num)⟩
  have clamped := (eighth.recoverySlices_clamped low nofun (le_refl 31) fun _ => whole).1
  rw [clamped, amount, eighth_requested]
  decide +kernel

/-- Three blocks that are asked for as a count. -/
def three : SliceOpts where
  totalBlocks := 70
  blockSize := 1024
  recoverySlices := .units .count none 3
  minRecoverySlices := none
  maxRecoverySlices := none

/-- They are not rounded up, and turned down. -/
theorem count_is_kept : three.clampedRecoverySlices 31 = some 3 ∧
    checkCount 3 = .error (.notPowerOfTwo 3) := by
  decide +kernel

end SliceOpts

end Par3

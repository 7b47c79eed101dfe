import Mathlib.Data.BitVec
import Mathlib.Tactic.Ring

/-!
# Vector registers

A register is a bit vector that is cut into lanes of one width, from the lowest bit on. It is built from
its lanes, and two registers with the same lanes are the same.
-/

namespace VectorLanes

variable {n w : ℕ}

/-- A lane of a register. -/
def laneOf (w : ℕ) (v : BitVec n) (i : ℕ) : BitVec w := v.extractLsb' (w * i) w

/-- The register with the given lanes. -/
def pack (n : ℕ) {w : ℕ} (lanes : ℕ → BitVec w) : BitVec n :=
  BitVec.ofNat n (Nat.ofBits fun bit : Fin n => (lanes (bit / w)).getLsbD (bit % w))

theorem getLsbD_laneOf (v : BitVec n) (i bit : ℕ) :
    (laneOf w v i).getLsbD bit = (decide (bit < w) && v.getLsbD (w * i + bit)) := by
  rw [laneOf, BitVec.getLsbD_extractLsb']

theorem getLsbD_pack (lanes : ℕ → BitVec w) {bit : ℕ} (inside : bit < n) :
    (pack n lanes).getLsbD bit = (lanes (bit / w)).getLsbD (bit % w) := by
  rw [pack, BitVec.getLsbD_ofNat, decide_eq_true inside, Bool.true_and, Nat.testBit_ofBits, dif_pos inside]

/-- A lane that was packed is found. -/
theorem laneOf_pack (lanes : ℕ → BitVec w) {i : ℕ} (inside : w * (i + 1) ≤ n) :
    laneOf w (pack n lanes) i = lanes i := by
  refine BitVec.eq_of_getLsbD_eq fun bit below => ?_
  have next : w * (i + 1) = w * i + w := Nat.mul_succ w i
  have pos : 0 < w := Nat.zero_lt_of_lt below
  rw [getLsbD_laneOf, decide_eq_true below, Bool.true_and, getLsbD_pack _ (by omega),
    Nat.mul_add_div pos, Nat.div_eq_of_lt below, Nat.add_zero, Nat.mul_add_mod,
    Nat.mod_eq_of_lt below]

/-- Registers are told apart by their lanes. -/
theorem eq_of_lanes {a b : BitVec n} (pos : 0 < w) (whole : w ∣ n)
    (same : ∀ i < n / w, laneOf w a i = laneOf w b i) : a = b := by
  refine BitVec.eq_of_getLsbD_eq fun bit inside => ?_
  have place : bit / w < n / w := Nat.div_lt_div_of_lt_of_dvd whole inside
  have short := Nat.mod_lt bit pos
  have bits := congrArg (BitVec.getLsbD · (bit % w)) (same _ place)
  simpa only [getLsbD_laneOf, decide_eq_true short, Bool.true_and, Nat.div_add_mod] using bits

@[simp] theorem laneOf_xor (a b : BitVec n) (i : ℕ) : laneOf w (a ^^^ b) i = laneOf w a i ^^^ laneOf w b i := by
  refine BitVec.eq_of_getLsbD_eq fun bit below => ?_
  simp only [getLsbD_laneOf, BitVec.getLsbD_xor, decide_eq_true below, Bool.true_and]

/-- A lane of a lane. -/
theorem laneOf_laneOf {wide parts : ℕ} (v : BitVec n) (i : ℕ) {part : ℕ} (same : wide = w * parts)
    (inside : part < parts) : laneOf w (laneOf wide v i) part = laneOf w v (parts * i + part) := by
  refine BitVec.eq_of_getLsbD_eq fun bit below => ?_
  have reach : w * part + bit < wide := by
    calc w * part + bit < w * (part + 1) := by rw [Nat.mul_succ]; omega
      _ ≤ wide := by rw [same]; exact Nat.mul_le_mul_left w inside
  rw [getLsbD_laneOf, getLsbD_laneOf, getLsbD_laneOf, decide_eq_true below, decide_eq_true reach,
    Bool.true_and, Bool.true_and, Bool.true_and, same]
  congr 1
  ring

end VectorLanes

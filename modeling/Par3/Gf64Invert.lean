import Par3.Gf64Mul

/-!
# Inverses in the field

Binary Euclid over unbounded integers, Euclid by degrees over words, where the leading power of the
modulus is only in the degree, and a chain of squares. A shift by more than a word or by a negative
amount is undefined, and a loop is given so many rounds.
-/
namespace Par3

open BinaryPolynomial

/-! ## JavaScript -/

namespace Par3Gen

/-- `0x1000000000000001Bn` -/
def POLY : ℕ := 0x1000000000000001B

/-- The loop that halves `u`. -/
def halveBoth : ℕ → ℕ → ℕ → Option (ℕ × ℕ)
  | 0, _, _ => none
  | rounds + 1, u, x1 =>
    if u &&& 1 = 0 then
      halveBoth rounds (u >>> 1)
        (if x1 &&& 1 ≠ 0 then ((x1 ^^^ POLY) >>> 1) &&& 0xFFFFFFFFFFFFFFFF else x1 >>> 1)
    else some (u, x1)

/-- The loop that halves `v`. -/
def halve : ℕ → ℕ → Option ℕ
  | 0, _ => none
  | rounds + 1, v => if v &&& 1 = 0 then halve rounds (v >>> 1) else some v

def invertLoop (inner : ℕ) : ℕ → ℕ → ℕ → ℕ → ℕ → Option ℕ
  | 0, _, _, _, _ => none
  | rounds + 1, u, v, x1, x2 =>
    if u ≠ 1 ∧ u ≠ 0 then do
      let (u, x1) ← halveBoth inner u x1
      if u = 1 then invertLoop inner rounds u v x1 x2
      else do
        let v ← halve inner v
        let (u, v, x1, x2) := if u < v then (v, u, x2, x1) else (u, v, x1, x2)
        invertLoop inner rounds (u ^^^ v) v (x1 ^^^ x2) x2
    else some (x1 &&& 0xFFFFFFFFFFFFFFFF)

/-- `invert64`, where no loop goes on for more than so many rounds. -/
def invert64 (rounds val : ℕ) : Option ℕ :=
  let val := val &&& 0xFFFFFFFFFFFFFFFF
  if val = 0 then some 0
  else if val = 1 then some 1
  else invertLoop rounds rounds val POLY 1 0

end Par3Gen

/-! ## Words -/

/-- A shift of a word, as far as it is defined. -/
def shiftWord (a : BitVec 64) (count : ℤ) : Option (BitVec 64) :=
  if 0 ≤ count ∧ count < 64 then some (a <<< count.toNat) else none

/-- Leading zeros of a word that is not zero. -/
def my_clzll (a : BitVec 64) : ℤ := 63 - a.toNat.log2

structure EuclidState where
  r0 : BitVec 64
  r1 : BitVec 64
  s0 : BitVec 64
  s1 : BitVec 64
  deg_r0 : ℤ
  deg_r1 : ℤ

/-- The row of the greater degree comes first. -/
def EuclidState.ordered (state : EuclidState) : EuclidState :=
  if state.deg_r0 < state.deg_r1 then
    ⟨state.r1, state.r0, state.s1, state.s0, state.deg_r1, state.deg_r0⟩
  else state

/-- One round of Euclid by degrees. -/
def EuclidState.step (state : EuclidState) : Option EuclidState := do
  let state := state.ordered
  let shift := state.deg_r0 - state.deg_r1
  let r ← shiftWord state.r1 shift
  let s ← shiftWord state.s1 shift
  let r0 := state.r0 ^^^ r
  return { state with
    r0 := r0
    s0 := state.s0 ^^^ s
    deg_r0 := if r0 = 0 then -1 else 63 - my_clzll r0 }

def inverseLoop : ℕ → EuclidState → Option (BitVec 64)
  | 0, _ => none
  | rounds + 1, state =>
    if state.r1 ≠ 1 ∧ state.r1 ≠ 0 then do
      let state ← state.step
      inverseLoop rounds state
    else if state.r1 = 0 then some 0
    else some state.s1

/-- `gf64_inverse` -/
def gf64_inverse (rounds : ℕ) (a : BitVec 64) : Option (BitVec 64) :=
  if a = 0 then some 0
  else if a = 1 then some 1
  else inverseLoop rounds
    { r0 := 0x1B
      r1 := a
      s0 := 0
      s1 := 1
      deg_r0 := 64
      deg_r1 := if a = 0 then -1 else 63 - my_clzll a }

/-- `gf64_invert_ita_one` -/
def gf64_invert_ita_one (a : BitVec 64) : BitVec 64 :=
  if a = 0 then 0
  else
    let t := (List.range' 2 62).foldl (fun t _ =>
      gf64_mul_reference (gf64_square (fun _ => 0) (fun _ => t) 1 0) a) a
    gf64_square (fun _ => 0) (fun _ => t) 1 0

end Par3

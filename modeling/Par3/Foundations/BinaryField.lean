import Mathlib.RingTheory.AdjoinRoot
import Mathlib.FieldTheory.Perfect
import Mathlib.Algebra.Field.ZMod
import Mathlib.Data.Nat.Bitwise
import Mathlib.Data.Nat.Size

/-!
# Binary fields on machine words

A word of `w` bits is read as a polynomial of degree below `w` over the two-element
field, modulo `X^w + tail`. Addition is exclusive or and multiplication is the
shift-and-reduce product, both computable on the word itself. The quotient ring of
the mathematical library is the specification: a word denotes the class of its
polynomial, the denotation is injective, and it carries each word operation to the
ring operation of the same name.

Whether the quotient is a field is decided by a finite certificate: raising the
root to the power `2^w` gives the root back, and a table inverts `a ↦ a * a + a`
up to the constants. Words with such a certificate form a field, whose inverse is
the power `2^w - 2`.
-/

open Polynomial

namespace BinaryField

/-- The class of a polynomial given by its low `count` coefficient bits, at a point. -/
def bitSum {M : Type*} [AddCommMonoid M] (term : ℕ → M) (bits : ℕ → Bool) (count : ℕ) : M :=
  ∑ i ∈ Finset.range count, if bits i then term i else 0

section BitSum

variable {M : Type*} [AddCommGroup M]

@[simp] theorem bitSum_zero (term : ℕ → M) (bits : ℕ → Bool) : bitSum term bits 0 = 0 := rfl

theorem bitSum_succ (term : ℕ → M) (bits : ℕ → Bool) (count : ℕ) :
    bitSum term bits (count + 1) =
      bitSum term bits count + if bits count then term count else 0 :=
  Finset.sum_range_succ _ _

theorem bitSum_congr (term : ℕ → M) {left right : ℕ → Bool} (count : ℕ)
    (same : ∀ i < count, left i = right i) : bitSum term left count = bitSum term right count :=
  Finset.sum_congr rfl fun i member => by rw [same i (Finset.mem_range.mp member)]

/-- In a group where every element is its own opposite, exclusive or of the selections
is addition of the sums. -/
theorem bitSum_xor (involutive : ∀ x : M, x + x = 0) (term : ℕ → M) (left right : ℕ → Bool)
    (count : ℕ) :
    bitSum term (fun i => left i ^^ right i) count =
      bitSum term left count + bitSum term right count := by
  simp only [bitSum, ← Finset.sum_add_distrib]
  refine Finset.sum_congr rfl fun i _ => ?_
  rcases Bool.eq_false_or_eq_true (left i) with l | l <;>
    rcases Bool.eq_false_or_eq_true (right i) with r | r <;> simp [l, r, involutive]

/-- A homomorphism passes through the selected sum. -/
theorem map_bitSum {N : Type*} [AddCommGroup N] (image : M →+ N) (term : ℕ → M)
    (bits : ℕ → Bool) (count : ℕ) :
    image (bitSum term bits count) = bitSum (fun i => image (term i)) bits count := by
  simp only [bitSum, map_sum]
  refine Finset.sum_congr rfl fun i _ => ?_
  split <;> simp

/-- Equal terms on the selected range give equal sums. -/
theorem bitSum_term_congr {left right : ℕ → M} (bits : ℕ → Bool) (count : ℕ)
    (same : ∀ i < count, left i = right i) : bitSum left bits count = bitSum right bits count :=
  Finset.sum_congr rfl fun i member => by rw [same i (Finset.mem_range.mp member)]

end BitSum

/-- A word of `w` bits, read as a polynomial modulo `X^w + tail`. The width is positive,
so that the constant one is a word. -/
@[ext]
structure Word (w : ℕ) (tail : BitVec w) where
  bits : BitVec w
deriving DecidableEq, Repr

namespace Word

variable {w : ℕ} {tail : BitVec w}

instance : Zero (Word w tail) := ⟨⟨0⟩⟩
instance : One (Word w tail) := ⟨⟨1⟩⟩
instance : Add (Word w tail) := ⟨fun a b => ⟨a.bits ^^^ b.bits⟩⟩
instance : Neg (Word w tail) := ⟨fun a => a⟩
instance : Sub (Word w tail) := ⟨fun a b => ⟨a.bits ^^^ b.bits⟩⟩

/-- Multiply by the root: shift up, and fold the bit that leaves the word back as the tail. -/
def shift (a : Word w tail) : Word w tail :=
  ⟨(a.bits <<< 1) ^^^ (if a.bits.msb then tail else 0)⟩

/-- Shift-and-add product over the low `count` bits of the second factor. -/
def mulFrom : ℕ → Word w tail → BitVec w → Word w tail → Word w tail
  | 0, _, _, sum => sum
  | count + 1, a, b, sum =>
    mulFrom count (shift a) (b >>> 1) (if b.getLsbD 0 then sum + a else sum)

instance : Mul (Word w tail) := ⟨fun a b => mulFrom w a b.bits 0⟩

/-- Square-and-multiply over the low `count` bits of the exponent. -/
def powFrom : ℕ → Word w tail → ℕ → Word w tail → Word w tail
  | 0, _, _, result => result
  | count + 1, base, exponent, result =>
    powFrom count (base * base) (exponent / 2)
      (if exponent % 2 = 1 then result * base else result)

def pow (a : Word w tail) (n : ℕ) : Word w tail := powFrom n.size a n 1

/-- The power `2^w - 2`, which inverts every nonzero element of a field with `2^w` elements.
Zero stays zero at every width. -/
instance : Inv (Word w tail) := ⟨fun a => if a = 0 then 0 else pow a (2 ^ w - 2)⟩

instance : Div (Word w tail) := ⟨fun a b => a * b⁻¹⟩

/-- The constant one is the word with only its lowest bit set, and exclusive or is bitwise. -/
@[simp] theorem bits_zero : (0 : Word w tail).bits = 0 := rfl
@[simp] theorem bits_one : (1 : Word w tail).bits = 1 := rfl
@[simp] theorem bits_add (a b : Word w tail) : (a + b).bits = a.bits ^^^ b.bits := rfl

/-! ## The quotient ring as specification -/

/-- The polynomial whose coefficient bits are the word. -/
noncomputable def poly (a : BitVec w) : (ZMod 2)[X] := bitSum (fun i => X ^ i) a.getLsbD w

/-- The reduction polynomial of the word ring. -/
noncomputable def modulus (tail : BitVec w) : (ZMod 2)[X] := X ^ w + poly tail

theorem poly_degree_lt (a : BitVec w) : (poly a).degree < w := by
  have member : poly a ∈ Polynomial.degreeLT (ZMod 2) w := by
    rw [poly, bitSum]
    refine Submodule.sum_mem _ fun i member => ?_
    split
    · rw [Polynomial.mem_degreeLT, degree_X_pow]
      exact_mod_cast Finset.mem_range.mp member
    · exact Submodule.zero_mem _
  exact Polynomial.mem_degreeLT.mp member

theorem modulus_monic (tail : BitVec w) : (modulus tail).Monic :=
  monic_X_pow_add (poly_degree_lt tail)

theorem modulus_degree (tail : BitVec w) : (modulus tail).degree = w := by
  rw [modulus, degree_add_eq_left_of_degree_lt] <;> simp [poly_degree_lt]

theorem poly_coeff (a : BitVec w) (i : ℕ) :
    (poly a).coeff i = if a.getLsbD i then 1 else 0 := by
  have outside : ∀ b ∈ Finset.range w, b ≠ i →
      (if a.getLsbD b then (X ^ b : (ZMod 2)[X]) else 0).coeff i = 0 := by
    intro b _ different
    split <;> simp [coeff_X_pow, Ne.symm different]
  by_cases inside : i < w
  · rw [poly, bitSum, finsetSum_coeff,
      Finset.sum_eq_single_of_mem i (Finset.mem_range.mpr inside) outside]
    split <;> simp
  · rw [BitVec.getLsbD_of_ge _ _ (by omega), poly, bitSum, finsetSum_coeff,
      Finset.sum_eq_zero fun b member => outside b member
        (by have := Finset.mem_range.mp member; omega)]
    simp

theorem poly_injective : Function.Injective (poly : BitVec w → (ZMod 2)[X]) := by
  intro a b same
  refine BitVec.eq_of_getLsbD_eq fun i _ => ?_
  have coefficient := congrArg (fun p : (ZMod 2)[X] => p.coeff i) same
  simp only [poly_coeff] at coefficient
  cases left : a.getLsbD i <;> cases right : b.getLsbD i <;> simp_all

/-- The class of a word in the quotient ring. -/
noncomputable def denote (a : Word w tail) : AdjoinRoot (modulus tail) :=
  AdjoinRoot.mk (modulus tail) (poly a.bits)

theorem denote_injective : Function.Injective (denote : Word w tail → _) := by
  intro a b same
  have divides : modulus tail ∣ poly a.bits - poly b.bits := by
    rw [← AdjoinRoot.mk_eq_mk]
    exact same
  have small : (poly a.bits - poly b.bits).degree < (modulus tail).degree := by
    rw [modulus_degree]
    exact lt_of_le_of_lt (degree_sub_le _ _) (max_lt (poly_degree_lt _) (poly_degree_lt _))
  by_contra different
  have nonzero : poly a.bits - poly b.bits ≠ 0 := fun vanishes =>
    different (Word.ext (poly_injective (sub_eq_zero.mp vanishes)))
  exact (modulus_monic tail).not_dvd_of_degree_lt nonzero small divides

/-- The denotation is the sum of the powers of the root its bits select. -/
theorem denote_eq_bitSum (a : Word w tail) :
    denote a = bitSum (fun i => AdjoinRoot.root (modulus tail) ^ i) a.bits.getLsbD w := by
  have image := map_bitSum (AdjoinRoot.mk (modulus tail)).toAddMonoidHom (fun i => X ^ i)
    a.bits.getLsbD w
  simpa [denote, poly] using image

/-- Twice anything vanishes, so opposites coincide with the elements themselves. -/
theorem quotient_double (x : AdjoinRoot (modulus tail)) : x + x = 0 := by
  have two : (2 : AdjoinRoot (modulus tail)) = 0 := by
    rw [← map_ofNat (AdjoinRoot.of (modulus tail)) 2, show (OfNat.ofNat 2 : ZMod 2) = 0 from rfl,
      map_zero]
  rw [← two_mul, two, zero_mul]

@[simp] theorem denote_zero : denote (0 : Word w tail) = 0 := by
  simp [denote_eq_bitSum, bitSum]

theorem denote_add (a b : Word w tail) : denote (a + b) = denote a + denote b := by
  rw [denote_eq_bitSum, denote_eq_bitSum, denote_eq_bitSum, ← bitSum_xor quotient_double]
  exact bitSum_congr _ _ fun i _ => by simp

theorem denote_one [NeZero w] : denote (1 : Word w tail) = 1 := by
  have pos : 0 < w := Nat.pos_of_ne_zero (NeZero.ne w)
  rw [denote_eq_bitSum, bitSum, Finset.sum_eq_single_of_mem 0 (Finset.mem_range.mpr pos)]
  · simp [pos]
  · intro i _ nonzero
    simp [nonzero]

/-- The leading power folds to the tail. -/
theorem root_pow_width :
    AdjoinRoot.root (modulus tail) ^ w = denote (⟨tail⟩ : Word w tail) := by
  have vanishes : AdjoinRoot.mk (modulus tail) (modulus tail) = 0 := AdjoinRoot.mk_self
  rw [modulus, map_add, map_pow, AdjoinRoot.mk_X] at vanishes
  rw [denote]
  calc AdjoinRoot.root (modulus tail) ^ w
      = (AdjoinRoot.root (modulus tail) ^ w + AdjoinRoot.mk (modulus tail) (poly tail)) +
          AdjoinRoot.mk (modulus tail) (poly tail) := by rw [add_assoc, quotient_double, add_zero]
    _ = AdjoinRoot.mk (modulus tail) (poly tail) := by
      rw [show AdjoinRoot.root (modulus tail) ^ w + AdjoinRoot.mk (modulus tail) (poly tail) = 0
        from vanishes, zero_add]

theorem denote_shift [NeZero w] (a : Word w tail) :
    denote (shift a) = AdjoinRoot.root (modulus tail) * denote a := by
  obtain ⟨v, rfl⟩ := Nat.exists_eq_succ_of_ne_zero (NeZero.ne w)
  have split : denote (shift a) = denote (⟨a.bits <<< 1⟩ : Word (v + 1) tail) +
      denote (⟨if a.bits.msb then tail else 0⟩ : Word (v + 1) tail) := denote_add _ _
  have folded : denote (⟨if a.bits.msb then tail else 0⟩ : Word (v + 1) tail) =
      if a.bits.getLsbD v then AdjoinRoot.root (modulus tail) ^ (v + 1) else 0 := by
    rw [show a.bits.msb = a.bits.getLsbD v by simp [BitVec.msb_eq_getLsbD_last]]
    cases a.bits.getLsbD v
    · exact denote_zero
    · exact root_pow_width.symm
  have moved : denote (⟨a.bits <<< 1⟩ : Word (v + 1) tail) =
      bitSum (fun i => AdjoinRoot.root (modulus tail) ^ (i + 1)) a.bits.getLsbD v := by
    rw [denote_eq_bitSum, bitSum, Finset.sum_range_succ', bitSum]
    simp only [BitVec.getLsbD_shiftLeft]
    simp
    refine Finset.sum_congr rfl fun i member => ?_
    have := Finset.mem_range.mp member
    simp [this]
  rw [split, folded, moved, denote_eq_bitSum, ← bitSum_succ]
  have image := map_bitSum (AddMonoidHom.mulLeft (AdjoinRoot.root (modulus tail)))
    (fun i => AdjoinRoot.root (modulus tail) ^ i) a.bits.getLsbD (v + 1)
  simpa [pow_succ'] using image.symm

theorem denote_mulFrom [NeZero w] (count : ℕ) (a : Word w tail) (b : BitVec w)
    (sum : Word w tail) :
    denote (mulFrom count a b sum) = denote sum +
      denote a * bitSum (fun i => AdjoinRoot.root (modulus tail) ^ i) b.getLsbD count := by
  induction count generalizing a b sum with
  | zero => simp [mulFrom]
  | succ count ih =>
    rw [mulFrom, ih, denote_shift]
    have low : bitSum (fun i => AdjoinRoot.root (modulus tail) ^ i) b.getLsbD (count + 1) =
        (if b.getLsbD 0 then 1 else 0) + AdjoinRoot.root (modulus tail) *
          bitSum (fun i => AdjoinRoot.root (modulus tail) ^ i) (b >>> 1).getLsbD count := by
      rw [bitSum, Finset.sum_range_succ', bitSum, Finset.mul_sum, add_comm]
      congr 1
      · simp
      · refine Finset.sum_congr rfl fun i _ => ?_
        simp [BitVec.getLsbD_ushiftRight, Nat.add_comm 1 i, pow_succ']
    rw [low]
    cases b.getLsbD 0
    · simp
      ring
    · simp [denote_add]
      ring

/-- The word product denotes the product in the quotient. -/
theorem denote_mul [NeZero w] (a b : Word w tail) : denote (a * b) = denote a * denote b := by
  have product := denote_mulFrom w a b.bits 0
  rw [denote_zero, zero_add, ← denote_eq_bitSum b] at product
  exact product

theorem denote_pow (a : Word w tail) (n : ℕ) [NeZero w] : denote (pow a n) = denote a ^ n := by
  have general : ∀ (count : ℕ) (base : Word w tail) (exponent : ℕ) (result : Word w tail),
      exponent < 2 ^ count →
      denote (powFrom count base exponent result) = denote result * denote base ^ exponent := by
    intro count
    induction count with
    | zero =>
      intro base exponent result bound
      simp [powFrom, show exponent = 0 by simpa using bound]
    | succ count ih =>
      intro base exponent result bound
      rw [powFrom, ih _ _ _ (by rw [pow_succ] at bound; omega), denote_mul,
        ← pow_two, ← pow_mul]
      rcases Nat.mod_two_eq_zero_or_one exponent with even | odd
      · rw [if_neg (by omega), Nat.mul_div_cancel' (Nat.dvd_of_mod_eq_zero even)]
      · rw [if_pos odd, denote_mul, mul_assoc, ← pow_succ', show 2 * (exponent / 2) + 1 = exponent
          by omega]
  have applied := general n.size a n 1 (Nat.lt_size_self n)
  rw [denote_one, one_mul] at applied
  exact applied

/-- The word ring. Every law is read off the quotient through the injective denotation. -/
instance [NeZero w] : CommRing (Word w tail) where
  add_assoc a b c := denote_injective (by simp only [denote_add, add_assoc])
  zero_add a := denote_injective (by simp only [denote_add, denote_zero, zero_add])
  add_zero a := denote_injective (by simp only [denote_add, denote_zero, add_zero])
  add_comm a b := denote_injective (by simp only [denote_add, add_comm])
  neg_add_cancel a := denote_injective (by
    rw [denote_add, denote_zero]
    exact quotient_double (denote a))
  left_distrib a b c := denote_injective (by simp only [denote_add, denote_mul, mul_add])
  right_distrib a b c := denote_injective (by simp only [denote_add, denote_mul, add_mul])
  zero_mul a := denote_injective (by simp only [denote_mul, denote_zero, zero_mul])
  mul_zero a := denote_injective (by simp only [denote_mul, denote_zero, mul_zero])
  mul_assoc a b c := denote_injective (by simp only [denote_mul, mul_assoc])
  one_mul a := denote_injective (by simp only [denote_mul, denote_one, one_mul])
  mul_one a := denote_injective (by simp only [denote_mul, denote_one, mul_one])
  mul_comm a b := denote_injective (by simp only [denote_mul, mul_comm])
  nsmul := nsmulRec
  zsmul := zsmulRec
  npow n a := pow a n
  npow_zero a := denote_injective (by
    change denote (pow a 0) = denote 1
    rw [denote_pow, pow_zero, denote_one])
  npow_succ n a := denote_injective (by
    change denote (pow a (n + 1)) = denote (pow a n * a)
    rw [denote_pow, pow_succ, denote_mul, denote_pow])

section Ring

variable [NeZero w]

/-- The word of the polynomial `X`. -/
def root : Word w tail := shift 1

theorem denote_root : denote (root : Word w tail) = AdjoinRoot.root (modulus tail) := by
  rw [root, denote_shift, denote_one, mul_one]

/-- The denotation as a ring homomorphism. -/
noncomputable def denoteHom : Word w tail →+* AdjoinRoot (modulus tail) where
  toFun := denote
  map_one' := denote_one
  map_mul' := denote_mul
  map_zero' := denote_zero
  map_add' := denote_add

/-- Every word is the sum of the powers of the root its bits select. -/
theorem eq_bitSum (a : Word w tail) : a = bitSum (fun i => root ^ i) a.bits.getLsbD w := by
  apply denote_injective
  have image := map_bitSum (denoteHom : Word w tail →+* _).toAddMonoidHom (fun i => root ^ i)
    a.bits.getLsbD w
  rw [denote_eq_bitSum]
  refine Eq.trans (bitSum_term_congr _ _ fun i _ => ?_) image.symm
  change _ = denote (pow root i)
  rw [denote_pow, denote_root]

/-- Additive maps that agree on the powers of the root agree on every word. -/
theorem additive_ext {M : Type*} [AddCommGroup M] (f g : Word w tail →+ M)
    (same : ∀ i < w, f (root ^ i) = g (root ^ i)) (a : Word w tail) : f a = g a := by
  rw [eq_bitSum a, map_bitSum, map_bitSum]
  exact bitSum_term_congr _ _ same

omit [NeZero w] in
theorem add_self (a : Word w tail) : a + a = 0 := Word.ext (by simp)

theorem one_ne_zero' : (1 : Word w tail) ≠ 0 := by
  intro same
  have bit := congrArg (fun a : Word w tail => a.bits.getLsbD 0) same
  have pos : 0 < w := Nat.pos_of_ne_zero (NeZero.ne w)
  simp [pos] at bit

instance : Nontrivial (Word w tail) := ⟨1, 0, one_ne_zero'⟩

instance : CharP (Word w tail) 2 :=
  CharTwo.of_one_ne_zero_of_two_eq_zero one_ne_zero' (by rw [← one_add_one_eq_two, add_self])

/-! ## The field certificate -/

omit [NeZero w] in
/-- Apply the linear map whose value on the power `i` of the root is entry `i` of a table. -/
def combine : List (BitVec w) → BitVec w → BitVec w
  | [], _ => 0
  | entry :: rest, a => (if a.getLsbD 0 then entry else 0) ^^^ combine rest (a >>> 1)

omit [NeZero w] in
theorem combine_zero (table : List (BitVec w)) : combine table 0 = 0 := by
  induction table with
  | nil => rfl
  | cons entry rest ih => simpa [combine] using ih

omit [NeZero w] in
theorem combine_xor (table : List (BitVec w)) (a b : BitVec w) :
    combine table (a ^^^ b) = combine table a ^^^ combine table b := by
  induction table generalizing a b with
  | nil => simp [combine]
  | cons entry rest ih =>
    rw [combine, combine, combine, BitVec.ushiftRight_xor_distrib, ih,
      BitVec.getLsbD_xor]
    cases a.getLsbD 0 <;> cases b.getLsbD 0 <;> ext i <;> simp <;> grind

/-- The table as an additive map on words. -/
def combineHom (table : List (BitVec w)) : Word w tail →+ Word w tail where
  toFun a := ⟨combine table a.bits⟩
  map_zero' := Word.ext (combine_zero table)
  map_add' a b := Word.ext (combine_xor table a.bits b.bits)

/-- The constant coordinate of a word, as an additive map. -/
def constantHom : Word w tail →+ Word w tail where
  toFun a := ⟨a.bits &&& 1⟩
  map_zero' := Word.ext (by simp)
  map_add' a b := Word.ext (by
    ext i
    rcases Bool.eq_false_or_eq_true a.bits[i] with l | l <;>
      rcases Bool.eq_false_or_eq_true b.bits[i] with r | r <;> simp [l, r])

/-- A ring of words is certified as a field when squaring `w` times fixes the root and a
table undoes `a ↦ a * a + a` on every power of the root, except that the constant
coordinate is lost. The first fact makes every power `2^w - 1` idempotent and the second
leaves only the idempotents zero and one. -/
class IsField (w : ℕ) (tail : BitVec w) [NeZero w] : Prop where
  frobenius : (fun a : Word w tail => a * a)^[w] root = root
  idempotents : ∃ table : List (BitVec w), ∀ i < w,
    combineHom table ((root : Word w tail) ^ i * root ^ i + root ^ i) =
      (root : Word w tail) ^ i + constantHom (root ^ i)

theorem iterate_square (a : Word w tail) (n : ℕ) :
    (fun a : Word w tail => a * a)^[n] a = a ^ 2 ^ n := by
  induction n generalizing a with
  | zero => simp
  | succ n ih =>
    rw [Function.iterate_succ_apply, ih, ← pow_two, ← pow_mul, ← pow_succ']

variable [IsField w tail]

/-- Raising to the power `2^w` is additive and fixes every power of the root. -/
theorem pow_two_pow_width (a : Word w tail) : a ^ 2 ^ w = a := by
  have fixed : (root : Word w tail) ^ 2 ^ w = root := by
    rw [← iterate_square]
    exact IsField.frobenius
  have agree := additive_ext (iterateFrobenius (Word w tail) 2 w).toAddMonoidHom
    (AddMonoidHom.id (Word w tail)) (fun i _ => by
      change ((root : Word w tail) ^ i) ^ 2 ^ w = root ^ i
      rw [← pow_mul, mul_comm, pow_mul, fixed]) a
  exact agree

/-- The only idempotents are zero and one. -/
theorem idempotent_cases (a : Word w tail) (idempotent : a * a = a) : a = 0 ∨ a = 1 := by
  obtain ⟨table, undone⟩ := @IsField.idempotents w tail _ _
  -- The square-plus-identity map is additive because the ring has characteristic two.
  let squareAdd : Word w tail →+ Word w tail :=
    (frobenius (Word w tail) 2).toAddMonoidHom + AddMonoidHom.id (Word w tail)
  have recovered := additive_ext ((combineHom table).comp squareAdd)
    (AddMonoidHom.id (Word w tail) + constantHom) (fun i bound => by
      change combineHom table ((root ^ i) ^ 2 + root ^ i) = root ^ i + constantHom (root ^ i)
      rw [pow_two]
      exact undone i bound) a
  have vanished : squareAdd a = 0 := by
    change a ^ 2 + a = 0
    rw [pow_two, idempotent, add_self]
  have constant : a + constantHom a = 0 := by
    rw [← map_zero (combineHom table), ← vanished]
    exact recovered.symm
  have bits : a.bits = a.bits &&& 1 := by
    have cancelled : a.bits ^^^ (a.bits &&& 1) = 0 := congrArg Word.bits constant
    exact BitVec.xor_eq_zero_iff.mp cancelled
  have masked : ∀ i, a.bits.getLsbD i = (a.bits.getLsbD i && (1 : BitVec w).getLsbD i) := by
    intro i
    rw [← BitVec.getLsbD_and, ← bits]
  cases low : a.bits.getLsbD 0 with
  | false =>
    refine .inl (Word.ext (BitVec.eq_of_getLsbD_eq fun i _ => ?_))
    rcases i with _ | i
    · simpa using low
    · rw [masked]
      simp
  | true =>
    refine .inr (Word.ext (BitVec.eq_of_getLsbD_eq fun i bound => ?_))
    rcases i with _ | i
    · simpa [bound] using low
    · rw [masked]
      simp

/-- Every nonzero word is inverted by its power `2^w - 2`. -/
theorem mul_inv_of_ne_zero (a : Word w tail) (nonzero : a ≠ 0) : a * a⁻¹ = 1 := by
  have width : 2 ≤ 2 ^ w := Nat.le_self_pow (NeZero.ne w) 2
  have inverse : a⁻¹ = a ^ (2 ^ w - 2) := if_neg nonzero
  have product : a * a⁻¹ = a ^ (2 ^ w - 1) := by
    rw [inverse, ← pow_succ']
    congr 1
    omega
  have idempotent : a ^ (2 ^ w - 1) * a ^ (2 ^ w - 1) = a ^ (2 ^ w - 1) := by
    calc a ^ (2 ^ w - 1) * a ^ (2 ^ w - 1)
        = a ^ 2 ^ w * a ^ (2 ^ w - 2) := by
          rw [← pow_add, ← pow_add]
          congr 1
          omega
      _ = a ^ (2 ^ w - 1) := by rw [pow_two_pow_width, ← inverse, product]
  rw [product]
  rcases idempotent_cases _ idempotent with zero | one
  · have lost : a ^ 2 ^ w = a * a ^ (2 ^ w - 1) := by
      rw [← pow_succ']
      congr 1
      omega
    rw [pow_two_pow_width, zero, mul_zero] at lost
    exact absurd lost nonzero
  · exact one

/-- Certified words form a field. -/
instance : Field (Word w tail) where
  exists_pair_ne := ⟨1, 0, one_ne_zero'⟩
  mul_inv_cancel := mul_inv_of_ne_zero
  inv_zero := if_pos rfl
  nnqsmul := _
  nnqsmul_def := fun _ _ => rfl
  qsmul := _
  qsmul_def := fun _ _ => rfl

end Ring

end Word
end BinaryField

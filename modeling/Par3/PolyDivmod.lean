import Par3.PolyMul
import Par3.Foundations.PolynomialDivision

/-!
# Division of polynomials

Long division, and the division that multiplies by a reciprocal when the quotient has many
coefficients. The reciprocal is found by steps that double its precision. Working buffers come from
an arena, or from the heap; what a call takes from the arena it gives back.
-/

namespace Par3

open Polynomial

/-! ## Products on arrays -/

/-- What the machine offers to the products. -/
structure Kernels where
  avx512 : Bool
  registered : Bool

def wordList (a : ℕ → Gf64) (count : ℕ) : List Gf64 := (List.range count).map a

/-- The first entries of an array replaced. -/
def written (out : ℕ → Gf64) (words : List Gf64) : ℕ → Gf64 := fun i => words.getD i (out i)

/-- `gf64_poly_mul(out, a, deg_a, b, deg_b)`. A length error ends the program. -/
def mulInto (kernels : Kernels) (out a : ℕ → Gf64) (deg_a : ℕ) (b : ℕ → Gf64) (deg_b : ℕ) :
    Option (ℕ → Gf64) :=
  (gf64_poly_mul (wordList a (deg_a + 1)) (wordList b (deg_b + 1)) kernels.avx512
    kernels.registered).toOption.map (written out)

/-- `gf64_poly_mul_padded(out, a, len_a, b, len_b, out_len)` -/
def mulPaddedInto (kernels : Kernels) (out a : ℕ → Gf64) (len_a : ℕ) (b : ℕ → Gf64)
    (len_b out_len : ℕ) : Option (ℕ → Gf64) :=
  (gf64_poly_mul_padded (wordList a len_a) (wordList b len_b) out_len kernels.avx512
    kernels.registered).toOption.map (written out)

/-! ## The arena -/

/-- `gf64_arena_t` without its words: a buffer is written before it is read. -/
structure Arena where
  cap : ℕ
  used : ℕ

/-- `gf64_arena_init` -/
def gf64_arena_init (words : ℕ) : Option Arena :=
  if words = 0 then none
  else if words > SIZE_MAX / 8 then none
  else some { cap := words, used := 0 }

/-- `gf64_arena_push`, which ends the program when the arena is exhausted. -/
def gf64_arena_push (arena : Arena) (words : ℕ) : Option Arena :=
  if (arena.used + words) % (SIZE_MAX + 1) > arena.cap ∨ words > SIZE_MAX - arena.used then none
  else some { arena with used := arena.used + words }

/-- The working buffers of a call. Without an arena they come from the heap. -/
def takeBuffers (arena : Option Arena) (sizes : List ℕ) : Option (Option Arena) :=
  match arena with
  | none => some none
  | some arena => (sizes.foldlM gf64_arena_push arena).map some

/-! ## Long division -/

/-- A dividend of a smaller degree is its own remainder. -/
def shortDividend (f : ℕ → Gf64) (deg_f deg_g : ℕ) (q r : ℕ → Gf64) : (ℕ → Gf64) × (ℕ → Gf64) :=
  (Function.update q 0 0, fun i => if i ≤ deg_f then f i else if i ≤ deg_g - 1 then 0 else r i)

/-- One turn: the coefficient `i` of the remainder is eliminated. -/
def eliminateCoefficient (g : ℕ → Gf64) (deg_g : ℕ) (lead_inv : Gf64)
    (state : (ℕ → Gf64) × (ℕ → Gf64)) (i : ℕ) : (ℕ → Gf64) × (ℕ → Gf64) :=
  let coeff := state.2 i * lead_inv
  (Function.update state.1 (i - deg_g) coeff,
    if coeff ≠ 0 then
      (List.range (deg_g + 1)).foldl (fun r j => xorAt r (i - deg_g + j) (coeff * g j)) state.2
    else state.2)

/-- Quotient and remainder, or the end of the program for a divisor that is zero. -/
def gf64_poly_divmod_schoolbook (f : ℕ → Gf64) (deg_f : ℕ) (g : ℕ → Gf64) (deg_g : ℕ)
    (q r : ℕ → Gf64) : Option ((ℕ → Gf64) × (ℕ → Gf64)) :=
  if deg_g = 0 ∧ g 0 = 0 then none
  else if deg_f < deg_g then some (shortDividend f deg_f deg_g q r)
  else
    let r := fun i => if i ≤ deg_f then f i else r i
    let q_size := deg_f - deg_g + 1
    let q := fun i => if i < q_size then 0 else q i
    let lead_inv := (g deg_g)⁻¹
    -- `i` counts down from `deg_f` to `deg_g`
    some ((List.range' deg_g q_size).reverse.foldl (eliminateCoefficient g deg_g lead_inv) (q, r))

/-! ## The reciprocal -/

/-- The buffers of the iteration. -/
structure NewtonBuffers where
  result : ℕ → Gf64
  r_sq : ℕ → Gf64
  prod : ℕ → Gf64

/-- `while (m < n)`, for at most so many rounds. -/
def newtonLoop (kernels : Kernels) (g_buf : ℕ → Gf64) (n : ℕ) :
    ℕ → ℕ → NewtonBuffers → Option (ℕ → Gf64)
  | 0, _, _ => none
  | rounds + 1, m, buffers =>
    if m < n then do
      let m_new := if 2 * m < n then 2 * m else n
      let r_sq ← mulInto kernels buffers.r_sq buffers.result (m - 1) buffers.result (m - 1)
      let prod ← mulInto kernels buffers.prod g_buf (m_new - 1) r_sq (2 * m - 2)
      let result := fun i => if i < m_new then prod i else if i < n then 0 else buffers.result i
      newtonLoop kernels g_buf n rounds m_new { result := result, r_sq := r_sq, prod := prod }
    else some buffers.result

/-- The reciprocal of a polynomial up to `n` coefficients. -/
def gf64_poly_invmod_scratch (kernels : Kernels) (g : ℕ → Gf64) (deg_g n : ℕ) (result : ℕ → Gf64)
    (arena : Option Arena) : Option (ℕ → Gf64) :=
  if n = 0 then some result
  else if n > SIZE_MAX / 3 then some result
  else do
    let _ ← takeBuffers arena [n, 2 * n, 3 * n]
    let g_use := if deg_g + 1 < n then deg_g + 1 else n
    let g_buf := fun i => if i < g_use then g i else 0
    let result := fun i => if i < n then 0 else result i
    let result := Function.update result 0 (g 0)⁻¹
    newtonLoop kernels g_buf n n 1 { result := result, r_sq := fun _ => 0, prod := fun _ => 0 }

/-! ## Division by the reciprocal -/

def GF64_DIVMOD_NEWTON_MIN : ℕ := 96

/-- Quotient and remainder, or the end of the program for a divisor that is zero and when the arena
is exhausted. -/
def gf64_poly_divmod_scratch (kernels : Kernels) (f : ℕ → Gf64) (deg_f : ℕ) (g : ℕ → Gf64)
    (deg_g : ℕ) (q r : ℕ → Gf64) (arena : Option Arena) :
    Option ((ℕ → Gf64) × (ℕ → Gf64)) :=
  if deg_g = 0 ∧ g 0 = 0 then none
  else if deg_f < deg_g then some (shortDividend f deg_f deg_g q r)
  else
    let k := deg_f - deg_g
    let m := k + 1
    if m < GF64_DIVMOD_NEWTON_MIN then gf64_poly_divmod_schoolbook f deg_f g deg_g q r
    else do
      let arena ← takeBuffers arena [m, deg_g + 1, m, m, deg_f + 1]
      let rev_f := fun i => f (deg_f - i)
      let rev_g := fun i => g (deg_g - i)
      let inv ← gf64_poly_invmod_scratch kernels rev_g deg_g m (fun _ => 0) arena
      let rev_q ← mulPaddedInto kernels (fun _ => 0) rev_f m inv m m
      let q := fun i => if i < m then rev_q (k - i) else q i
      let r := fun i => if i ≤ deg_f then f i else r i
      let gq ← mulInto kernels (fun _ => 0) g deg_g q k
      let r := fun i => if i < deg_g then r i + gq i else r i
      -- the words that hold no coefficient of the remainder are zeroed
      let r := fun i => if deg_g ≤ i ∧ i ≤ deg_f then 0 else r i
      some (q, r)

/-- `gf64_poly_divmod`, with buffers from the heap. -/
def gf64_poly_divmod (kernels : Kernels) (f : ℕ → Gf64) (deg_f : ℕ) (g : ℕ → Gf64) (deg_g : ℕ)
    (q r : ℕ → Gf64) : Option ((ℕ → Gf64) × (ℕ → Gf64)) :=
  gf64_poly_divmod_scratch kernels f deg_f g deg_g q r none

end Par3

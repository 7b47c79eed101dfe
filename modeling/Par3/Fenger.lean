import Par3.MultiPointInterp
import Par3.InterleavedContract

/-!
# Recovery words by interpolation

The sum of fractions of a word has as its numerator the polynomial that interpolates the inputs,
multiplied by the derivative at their points, and as its denominator the product over these points.
So the words at all recovery points are found by one interpolation, one evaluation and one product
for each point. Words are done one by one, or in passes over the trees that they share.
-/

namespace Par3

open Polynomial ProductTree

/-! ## Preparation -/

/-- `gf64_fenger_ctx` -/
structure FengerContext where
  tree_x : SubproductTree
  tree_y : SubproductTree
  V_prime : ℕ → Gf64
  V_prime_inv : ℕ → Gf64
  V_at_y_inv : ℕ → Gf64
  recip_pool : ℕ → Gf64
  N : ℕ
  R : ℕ
  num_inputs_real : ℕ
  num_recovery_real : ℕ

def gf64_poly_invmod (kernels : Kernels) (g : ℕ → Gf64) (deg_g n : ℕ) (result : ℕ → Gf64) :
    Option (ℕ → Gf64) :=
  gf64_poly_invmod_scratch kernels g deg_g n result none

/-- Inverses of a whole array, in lanes where the machine has them. -/
def invertAll (inverses : InverseKernels) (input : ℕ → Gf64) (count : ℕ) : ℕ → Gf64 :=
  if inverses.has_vpclmulqdq then gf64_invert_ita_batch (fun _ => 0) input count
  else
    (List.range count).foldl (fun out c =>
      Function.update out c ⟨gf64_invert_ita_one (input c).bits⟩) fun _ => 0

/-- The reciprocal of one child, written at the cursor. -/
def poolReciprocal (kernels : Kernels) (tree : SubproductTree) (child_lev child_deg : ℕ)
    (state : (ℕ → Gf64) × ℕ) (i : ℕ) : Option ((ℕ → Gf64) × ℕ) := do
  let (pool, cursor) := state
  let child_stride := child_deg + 1
  let p := tree.level_data child_lev (i * child_stride)
  let rev := fun k => p (child_deg - k)
  let words ← gf64_poly_invmod kernels rev child_deg child_deg (view pool cursor)
  some (fun j => if j < cursor then pool j else words (j - cursor), cursor + child_deg)

/-- The reciprocals of all nodes between the root and the leaves, level by level. -/
def reciprocalPool (kernels : Kernels) (tree : SubproductTree) (R : ℕ) : Option (ℕ → Gf64) :=
  let num_levels := tree.num_levels
  if num_levels > 1 then
    ((List.range' 1 (num_levels - 2)).foldlM (fun state child_lev =>
      (List.range (1 <<< child_lev)).foldlM (poolReciprocal kernels tree child_lev (R >>> child_lev))
        state) (fun _ => 0, 0)).map Prod.fst
  else some fun _ => 0

/-- The preparation for given points. -/
def preparePoints (kernels : Kernels) (inverses : InverseKernels) (x_points y_points : ℕ → Gf64)
    (numInputsPadded numRecoveryPadded numInputsReal numRecoveryReal : ℕ) : Option FengerContext := do
  let tree_x ← gf64_subproduct_tree_build kernels x_points numInputsPadded
  let tree_y ← gf64_subproduct_tree_build kernels y_points numRecoveryPadded
  let bary ← gf64_barycentric_weights kernels inverses tree_x fun _ => 0
  let V_at_y ← gf64_multi_point_eval kernels (tree_x.level_data 0 0) tree_x.num_points tree_y
    fun _ => 0
  let recip_pool ← reciprocalPool kernels tree_y numRecoveryPadded
  some
    { tree_x := tree_x
      tree_y := tree_y
      V_prime := invertAll inverses bary numInputsPadded
      V_prime_inv := bary
      V_at_y_inv := invertAll inverses V_at_y numRecoveryPadded
      recip_pool := recip_pool
      N := numInputsPadded
      R := numRecoveryPadded
      num_inputs_real := numInputsReal
      num_recovery_real := numRecoveryReal }

/-- `x_points[c]` -/
def inputPoint (firstInput syntheticInputBase : BitVec 64) (numInputsReal c : ℕ) : Gf64 :=
  if c < numInputsReal then ⟨firstInput + BitVec.ofNat 64 c⟩
  else ⟨syntheticInputBase + BitVec.ofNat 64 (c - numInputsReal)⟩

/-- `y_points[r]` -/
def recoveryPoint (firstRecovery : BitVec 64) (r : ℕ) : Gf64 := ⟨firstRecovery + BitVec.ofNat 64 r⟩

def gf64_fenger_prepare_core (kernels : Kernels) (inverses : InverseKernels)
    (firstInput firstRecovery : BitVec 64)
    (numInputsPadded numRecoveryPadded numInputsReal numRecoveryReal : ℕ)
    (syntheticInputBase : BitVec 64) : Option FengerContext :=
  preparePoints kernels inverses (inputPoint firstInput syntheticInputBase numInputsReal)
    (recoveryPoint firstRecovery) numInputsPadded numRecoveryPadded numInputsReal numRecoveryReal

/-- The program ends when memory does not suffice. There is no context for no points. -/
def gf64_fenger_prepare (kernels : Kernels) (inverses : InverseKernels)
    (firstInput firstRecovery : BitVec 64) (N R : ℕ) : Option (Option FengerContext) :=
  if N = 0 ∨ R = 0 then some none
  else (gf64_fenger_prepare_core kernels inverses firstInput firstRecovery N R N R 0).map some

def gf64_fenger_prepare_padded (kernels : Kernels) (inverses : InverseKernels)
    (firstInput firstRecovery : BitVec 64)
    (numInputs numRecovery numInputsPadded numRecoveryPadded : ℕ)
    (syntheticInputBase : BitVec 64) : Option (Option FengerContext) :=
  if numInputs = 0 ∨ numRecovery = 0 ∨ numInputsPadded = 0 ∨ numRecoveryPadded = 0 then some none
  else
    (gf64_fenger_prepare_core kernels inverses firstInput firstRecovery numInputsPadded
      numRecoveryPadded numInputs numRecovery syntheticInputBase).map some

/-! ## Word by word -/

def gf64_elem_mul (out a b : ℕ → Gf64) (n : ℕ) : ℕ → Gf64 := fun i => if i < n then a i * b i else out i

namespace FengerContext

variable (kernels : Kernels) (ctx : FengerContext)

/-- The words of all inputs at one place. Inputs that are padding are zero. -/
def gather (input : ℕ → Gf64) (B w : ℕ) : ℕ → Gf64 :=
  fun c => if c < ctx.num_inputs_real then input (c * B + w) else 0

/-- The words of all recovery blocks at one place. -/
def scatter (out : ℕ → Gf64) (B w : ℕ) (p_at_y : ℕ → Gf64) : ℕ → Gf64 :=
  (List.range ctx.num_recovery_real).foldl (fun out r => Function.update out (r * B + w) (p_at_y r)) out

def deg_p : ℕ := if ctx.tree_x.num_points > 1 then ctx.tree_x.num_points - 1 else 0

def executeWord (input : ℕ → Gf64) (B : ℕ) (out : ℕ → Gf64) (w : ℕ) : Option (ℕ → Gf64) := do
  let weighted := ctx.gather input B w
  let weighted := gf64_elem_mul weighted weighted ctx.V_prime ctx.N
  let poly_p ← gf64_multi_point_interp_weights kernels ctx.tree_x weighted (some ctx.V_prime_inv)
    fun _ => 0
  let p_at_y ← gf64_multi_point_eval kernels poly_p ctx.deg_p ctx.tree_y fun _ => 0
  some (ctx.scatter out B w (gf64_elem_mul p_at_y p_at_y ctx.V_at_y_inv ctx.num_recovery_real))

end FengerContext

/-! ## Passes -/

def FENGER_BATCH_K_MAX : ℕ := 32

/-- From the number in the environment, if there is one. -/
def fenger_batch_words (e : Option ℤ) : ℕ :=
  let v := e.getD 4
  let v := if v < 1 then 1 else v
  let v := if v > FENGER_BATCH_K_MAX then (FENGER_BATCH_K_MAX : ℤ) else v
  v.toNat

def fenger_hqc_eligible (len_a len_b out_len : ℕ) : Bool :=
  let cap := GF64_HQC_MAX_LM_N
  let max_len := max len_a len_b
  let full_len := max (2 * max_len - 1) out_len
  len_a ≥ GF64_HQC_FFT_MIN ∧ len_b ≥ GF64_HQC_FFT_MIN ∧ out_len ≥ GF64_HQC_FFT_MIN ∧
    len_a ≤ cap ∧ len_b ≤ cap ∧ full_len ≤ cap

def fenger_horner (f : ℕ → Gf64) (deg : ℕ) (x : Gf64) : Gf64 :=
  (List.range deg).reverse.foldl (fun acc i => acc * x + f i) (f deg)

/-- What the calls of a walk have in common: a scratch for the frames of all nodes, and another one
for products, each of so many words. -/
structure BatchWalk where
  kernels : Kernels
  tree : SubproductTree
  K : ℕ
  size : ℕ
  room : ℕ

namespace BatchWalk

variable (walk : BatchWalk)

/-- The products of all words with one polynomial. -/
def multiply (words : ℕ → Gf64) (place stride : ℕ) (shared : ℕ → Gf64)
    (len_shared f len_f out_len scratch_words : ℕ) : Option (ℕ → Gf64) :=
  Interleaved.fenger_batch_shared_mul walk.kernels (fun _ => 0) walk.size walk.room words
    (fun k => place + k * stride) walk.K shared len_shared f len_f out_len scratch_words

/-! ### Interpolation -/

/-- The products with both children, word by word. -/
def multiplyEach (words : ℕ → Gf64) (P_L P_R : ℕ → Gf64) (slot0 slot1 slot2 slot3 f_size N_at_lev : ℕ) :
    Option (ℕ → Gf64) :=
  (List.range walk.K).foldlM (fun words k => do
    let product ← mulPaddedInto walk.kernels (view words (slot2 + k * N_at_lev)) P_R (f_size + 1)
      (view words (slot0 + k * f_size)) f_size N_at_lev
    let words ← putWords walk.size words (slot2 + k * N_at_lev) N_at_lev product
    let product ← mulPaddedInto walk.kernels (view words (slot3 + k * N_at_lev)) P_L (f_size + 1)
      (view words (slot1 + k * f_size)) f_size N_at_lev
    putWords walk.size words (slot3 + k * N_at_lev) N_at_lev product) words

/-- The products of what the children have, each with the other child. -/
def multiplyBoth (words : ℕ → Gf64) (P_L P_R : ℕ → Gf64) (slot0 slot1 slot2 slot3 f_size N_at_lev : ℕ) :
    Option (ℕ → Gf64) :=
  if fenger_hqc_eligible (f_size + 1) f_size N_at_lev then do
    let n := 2 * f_size
    let sw := 32 * n
    let words ← walk.multiply words slot2 N_at_lev P_R (f_size + 1) slot0 f_size N_at_lev sw
    walk.multiply words slot3 N_at_lev P_L (f_size + 1) slot1 f_size N_at_lev sw
  else walk.multiplyEach words P_L P_R slot0 slot1 slot2 slot3 f_size N_at_lev

/-- The combinations below a node for all words, and the scratch. -/
def fenger_interp_recurse_batch (z : ℕ → Gf64) :
    ℕ → ℕ → ℕ → (ℕ → Gf64) → (ℕ → Gf64) → ℕ → Option ((ℕ → Gf64) × (ℕ → Gf64))
  | 0, _, out_offset, out, words, _ =>
    some (fun k => if k < walk.K then z (k * walk.tree.num_points + out_offset) else out k, words)
  | below + 1, node_idx, out_offset, out, words, scratch => do
    let lev := walk.tree.num_levels - 1 - (below + 1)
    let N_at_lev := walk.tree.num_points >>> lev
    let f_size := N_at_lev >>> 1
    let child_stride := f_size + 1
    let P_L := walk.tree.level_data (lev + 1) (2 * node_idx * child_stride)
    let P_R := walk.tree.level_data (lev + 1) ((2 * node_idx + 1) * child_stride)
    let slot0 := scratch
    let slot1 := scratch + walk.K * f_size
    let slot2 := scratch + 2 * walk.K * f_size
    let slot3 := scratch + 2 * walk.K * f_size + walk.K * N_at_lev
    let child_scratch := scratch + 3 * walk.K * N_at_lev
    let (fL, words) ← fenger_interp_recurse_batch z below (2 * node_idx) out_offset (view words slot0)
      words child_scratch
    let words ← putWords walk.size words slot0 (walk.K * f_size) fL
    let (fR, words) ← fenger_interp_recurse_batch z below (2 * node_idx + 1) (out_offset + f_size)
      (view words slot1) words child_scratch
    let words ← putWords walk.size words slot1 (walk.K * f_size) fR
    let words ← walk.multiplyBoth words P_L P_R slot0 slot1 slot2 slot3 f_size N_at_lev
    some (fun p => if p < walk.K * N_at_lev then words (slot2 + p) + words (slot3 + p) else out p, words)

def fenger_interp_batch (z out : ℕ → Gf64) : Option (ℕ → Gf64) :=
  if walk.tree.num_points = 1 then some fun k => if k < walk.K then z k else out k
  else
    (walk.fenger_interp_recurse_batch z (walk.tree.num_levels - 1) 0 0 out (fun _ => 0) 0).map Prod.fst

/-! ### Evaluation -/

/-- The dividends of all words and their degrees. -/
structure Dividends where
  f : Operand
  f_stride : ℕ
  deg_fs : ℕ → ℕ

def Dividends.word (dividends : Dividends) (words : ℕ → Gf64) (k : ℕ) : ℕ → Gf64 :=
  view (dividends.f.read words) (k * dividends.f_stride)

/-- `rev_f` of all words. A word that needs no division has zeros, which are written once. -/
def reverseDividends (dividends : Dividends) (child_deg revq : ℕ) (clear : Bool) (words : ℕ → Gf64) :
    Option (ℕ → Gf64) :=
  (List.range walk.K).foldlM (fun words k =>
    if dividends.deg_fs k ≥ child_deg then
      putWords walk.size words (revq + k * child_deg) child_deg fun i =>
        if i ≤ dividends.deg_fs k then dividends.word words k (dividends.deg_fs k - i) else 0
    else if clear then putWords walk.size words (revq + k * child_deg) child_deg fun _ => 0
    else some words) words

/-- The quotients are as long as the degree of the dividend says. They are turned around in place,
and what is behind them is zeroed. -/
def reverseQuotients (dividends : Dividends) (child_deg revq : ℕ) (words : ℕ → Gf64) :
    Option (ℕ → Gf64) :=
  (List.range walk.K).foldlM (fun words k =>
    if dividends.deg_fs k < child_deg then some words
    else
      let m_true := dividends.deg_fs k - child_deg + 1
      let rk := view words (revq + k * child_deg)
      putWords walk.size words (revq + k * child_deg) child_deg fun i =>
        if i < m_true then rk (m_true - 1 - i) else 0) words

/-- The products of one child with the quotients of all words, from the reciprocal that was found
in the preparation. -/
def divideShared (dividends : Dividends) (inv P : ℕ → Gf64) (child_deg revq r N_at_lev : ℕ)
    (clear : Bool) (words : ℕ → Gf64) : Option (ℕ → Gf64) := do
  let m_max := child_deg
  let sw := 4 * (2 * child_deg)
  let words ← walk.reverseDividends dividends child_deg revq clear words
  let words ← walk.multiply words revq m_max inv m_max revq m_max m_max sw
  let words ← walk.reverseQuotients dividends child_deg revq words
  walk.multiply words r N_at_lev P (child_deg + 1) revq m_max child_deg sw

/-- What is left of the dividends. -/
def takeRemainders (dividends : Dividends) (child_deg r_L r_R N_at_lev : ℕ) (words : ℕ → Gf64) :
    Option (ℕ → Gf64) :=
  let remainder (words : ℕ → Gf64) (k r : ℕ) : ℕ → Gf64 := fun i =>
    if dividends.deg_fs k ≥ child_deg then dividends.word words k i + words (r + k * N_at_lev + i)
    else dividends.word words k i
  (List.range walk.K).foldlM (fun words k => do
    let words ← putWords walk.size words (r_L + k * N_at_lev) child_deg (remainder words k r_L)
    putWords walk.size words (r_R + k * N_at_lev) child_deg (remainder words k r_R)) words

/-- Divisions word by word. -/
def divideEach (arena : Arena) (dividends : Dividends) (P_L P_R : ℕ → Gf64)
    (child_deg r_L r_R revq q2 N_at_lev : ℕ) (words : ℕ → Gf64) : Option (ℕ → Gf64) :=
  (List.range walk.K).foldlM (fun words k => do
    let deg := dividends.deg_fs k
    let words ← divideInto walk.kernels walk.size words (dividends.word words k) deg P_L child_deg
      (revq + k * child_deg) (r_L + k * N_at_lev) arena
    let qR := if walk.K = 1 then revq else q2 + k * child_deg
    divideInto walk.kernels walk.size words (dividends.word words k) deg P_R child_deg qR
      (r_R + k * N_at_lev) arena) words

/-- The remainders by both children. -/
def divideBoth (arena : Arena) (dividends : Dividends) (inv_L inv_R P_L P_R : ℕ → Gf64)
    (child_deg r_L r_R revq q2 N_at_lev : ℕ) (words : ℕ → Gf64) : Option (ℕ → Gf64) :=
  let any_needs := (List.range walk.K).any fun k => dividends.deg_fs k ≥ child_deg
  if any_needs && fenger_hqc_eligible (child_deg + 1) child_deg child_deg then do
    let words ← walk.divideShared dividends inv_L P_L child_deg revq r_L N_at_lev true words
    let words ← walk.divideShared dividends inv_R P_R child_deg revq r_R N_at_lev false words
    walk.takeRemainders dividends child_deg r_L r_R N_at_lev words
  else walk.divideEach arena dividends P_L P_R child_deg r_L r_R revq q2 N_at_lev words

/-- A dividend that is too short keeps its degree. -/
def degreeLeft (r : ℕ → Gf64) (child_deg deg_f : ℕ) : ℕ :=
  if deg_f < child_deg then deg_f else highestSet r child_deg

def fenger_recip_at (recip_pool : ℕ → Gf64) (R child_lev child_node_idx : ℕ) : ℕ → Gf64 :=
  view recip_pool ((child_lev - 1) * R + child_node_idx * (R >>> child_lev))

/-- The values at the leaves below a node for all words, and the scratch. -/
def fenger_eval_recurse_batch (recip_pool : ℕ → Gf64) (R : ℕ) (arena : Arena) :
    ℕ → Dividends → ℕ → (ℕ → Gf64) → (ℕ → Gf64) → ℕ → Option ((ℕ → Gf64) × (ℕ → Gf64))
  | 0, dividends, node_idx, out, words, _ =>
    let xj := walk.tree.level_data (walk.tree.num_levels - 1) 0 (2 * node_idx)
    some ((List.range walk.K).foldl (fun out k =>
      let fk := dividends.word words k
      Function.update out (k * walk.tree.num_points + node_idx)
        (if dividends.deg_fs k = 0 then fk 0 else fenger_horner fk (dividends.deg_fs k) xj)) out, words)
  | below + 1, dividends, node_idx, out, words, scratch => do
    let lev := walk.tree.num_levels - 1 - (below + 1)
    let N_at_lev := walk.tree.num_points >>> lev
    let child_deg := walk.tree.level_degs (lev + 1)
    let child_stride := child_deg + 1
    let P_L := walk.tree.level_data (lev + 1) (2 * node_idx * child_stride)
    let P_R := walk.tree.level_data (lev + 1) ((2 * node_idx + 1) * child_stride)
    let r_L := scratch
    let r_R := scratch + walk.K * N_at_lev
    let revq := scratch + 2 * walk.K * N_at_lev
    let q2 := revq + walk.K * child_deg
    let child_scratch := scratch + (2 * walk.K * N_at_lev + (2 * walk.K + 2) * child_deg)
    let inv_L := fenger_recip_at recip_pool R (lev + 1) (2 * node_idx)
    let inv_R := fenger_recip_at recip_pool R (lev + 1) (2 * node_idx + 1)
    let words ← walk.divideBoth arena dividends inv_L inv_R P_L P_R child_deg r_L r_R revq q2 N_at_lev
      words
    let left : Dividends :=
      { f := .scratch r_L
        f_stride := N_at_lev
        deg_fs := fun k => degreeLeft (view words (r_L + k * N_at_lev)) child_deg (dividends.deg_fs k) }
    let right : Dividends :=
      { f := .scratch r_R
        f_stride := N_at_lev
        deg_fs := fun k => degreeLeft (view words (r_R + k * N_at_lev)) child_deg (dividends.deg_fs k) }
    let (out, words) ← fenger_eval_recurse_batch recip_pool R arena below left (2 * node_idx) out words
      child_scratch
    fenger_eval_recurse_batch recip_pool R arena below right (2 * node_idx + 1) out words child_scratch

end BatchWalk

namespace FengerContext

variable (kernels : Kernels) (ctx : FengerContext)

/-- The values of the polynomials of all words at all recovery points. -/
def evaluateBatch (K K_eff : ℕ) (arena : Arena) (poly_p : ℕ → Gf64) : Option (ℕ → Gf64) :=
  if ctx.R = 1 ∨ ctx.deg_p ≥ ctx.R then
    let leaves := ctx.tree_y.level_data (ctx.tree_y.num_levels - 1) 0
    some fun p => fenger_horner (view poly_p (p / ctx.R * ctx.N)) ctx.deg_p (leaves (2 * (p % ctx.R)))
  else
    let walk : BatchWalk := ⟨kernels, ctx.tree_y, K_eff, (6 * K + 4) * ctx.R, 4 * ctx.R⟩
    (walk.fenger_eval_recurse_batch ctx.recip_pool ctx.R arena (ctx.tree_y.num_levels - 1)
      ⟨.outside poly_p, ctx.N, fun _ => ctx.deg_p⟩ 0 (fun _ => 0) (fun _ => 0) 0).map Prod.fst

/-- One pass, over so many words from `w0` on. -/
def executePass (input : ℕ → Gf64) (B K : ℕ) (arena : Arena) (out : ℕ → Gf64) (w0 K_eff : ℕ) :
    Option (ℕ → Gf64) := do
  let weighted := fun p => ctx.gather input B (w0 + p / ctx.N) (p % ctx.N) * ctx.V_prime (p % ctx.N)
  let weighted := fun p => weighted p * ctx.V_prime_inv (p % ctx.N)
  let walk : BatchWalk := ⟨kernels, ctx.tree_x, K_eff, 8 * K * ctx.N, 32 * ctx.N⟩
  let poly_p ← walk.fenger_interp_batch weighted fun _ => 0
  let p_at_y ← ctx.evaluateBatch kernels K K_eff arena poly_p
  let R_stride := ctx.tree_y.num_points
  some ((List.range K_eff).foldl (fun out k =>
    let pk := view p_at_y (k * R_stride)
    ctx.scatter out B (w0 + k) (gf64_elem_mul pk pk ctx.V_at_y_inv ctx.num_recovery_real)) out)

/-- Passes of `K` words, the last of which may have fewer. -/
def gf64_fenger_execute_batched (input : ℕ → Gf64) (B : ℕ) (out : ℕ → Gf64) (w_start w_end K : ℕ) :
    Option (ℕ → Gf64) := do
  let arena ← gf64_arena_init (8 * max ctx.N ctx.R)
  (List.range ((w_end - w_start + K - 1) / K)).foldlM (fun out pass =>
    let w0 := w_start + pass * K
    let K_eff := if w_end - w0 < K then w_end - w0 else K
    ctx.executePass kernels input B K arena out w0 K_eff) out

end FengerContext

/-- `gf64_fenger_execute`, with the number of words that the environment asks for. -/
def gf64_fenger_execute (kernels : Kernels) (e : Option ℤ) (ctx : Option FengerContext)
    (input : ℕ → Gf64) (B : ℕ) (out : ℕ → Gf64) (w_start w_end : ℕ) : Option (ℕ → Gf64) :=
  match ctx with
  | none => some out
  | some ctx =>
    if B = 0 ∨ w_start ≥ w_end then some out
    else
      let K := fenger_batch_words e
      if K ≥ 2 then ctx.gf64_fenger_execute_batched kernels input B out w_start w_end K
      else (List.range' w_start (w_end - w_start)).foldlM (ctx.executeWord kernels input B) out

end Par3

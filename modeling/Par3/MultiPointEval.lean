import Par3.SubproductTree

/-!
# Evaluation at many points

A polynomial is divided on its way down the tree: every node receives the remainder by its product,
and what arrives at a leaf is evaluated there. The remainders of all nodes on the way share one
scratch, and the divisions share one arena; both are sized by the number of points.
-/

namespace Par3

open Polynomial ProductTree

/-! ## The walk -/

/-- A polynomial by Horner's rule, where the degree `(size_t)(-1)` stands for zero. -/
def horner_eval_poly (c : ℕ → Gf64) (deg : ℕ) (r : Gf64) : Gf64 :=
  if deg = SIZE_MAX then 0
  else (List.range deg).reverse.foldl (fun acc i => acc * r + c i) (c deg)

/-- The words of the scratch from a place on. -/
def view (scratch : ℕ → Gf64) (place : ℕ) : ℕ → Gf64 := fun i => scratch (place + i)

/-- So many words of an array put at a place of the scratch, which must have room for them. -/
def putWords (size : ℕ) (scratch : ℕ → Gf64) (place count : ℕ) (words : ℕ → Gf64) :
    Option (ℕ → Gf64) :=
  if place + count > size then none
  else some fun i => if place ≤ i ∧ i < place + count then words (i - place) else scratch i

/-- Where the polynomial of a call is. -/
inductive Operand
  | outside (f : ℕ → Gf64)
  | scratch (place : ℕ)

def Operand.read (scratch : ℕ → Gf64) : Operand → ℕ → Gf64
  | .outside f => f
  | .scratch place => view scratch place

/-- A division with quotient and remainder in the scratch. The words it writes are those of the
quotient, and of the dividend or the remainder, whichever is longer. -/
def divideInto (kernels : Kernels) (size : ℕ) (scratch f : ℕ → Gf64) (deg_f : ℕ) (g : ℕ → Gf64)
    (deg_g q r : ℕ) (arena : Arena) : Option (ℕ → Gf64) := do
  let (quotient, remainder) ←
    gf64_poly_divmod_scratch kernels f deg_f g deg_g (view scratch q) (view scratch r) (some arena)
  let scratch ← putWords size scratch q (deg_f - deg_g + 1) quotient
  putWords size scratch r (max (deg_f + 1) deg_g) remainder

/-- The highest coefficient that is set, or the lowest one. -/
def highestSet (r : ℕ → Gf64) : ℕ → ℕ
  | 0 => 0
  | i + 1 => if r i ≠ 0 then i else highestSet r i

/-- The degree of a remainder. -/
def remainderDegree (r : ℕ → Gf64) (child_deg deg_f : ℕ) : ℕ :=
  let rem_deg := highestSet r child_deg
  if deg_f < child_deg ∧ rem_deg > deg_f then deg_f else rem_deg

/-- One call of the walk: its node and its polynomial. -/
structure EvalCall where
  lev : ℕ
  node_idx : ℕ
  f : ℕ → Gf64
  deg_f : ℕ

/-- The scratch, the values, and the calls so far. -/
structure EvalState where
  scratch : ℕ → Gf64
  out : ℕ → Gf64
  calls : List EvalCall

/-- The walk below a node, with so many levels below it. -/
def gf64_mp_eval_recurse (kernels : Kernels) (tree : SubproductTree) (size : ℕ) (arena : Arena) :
    ℕ → Operand → ℕ → ℕ → EvalState → ℕ → Option EvalState
  | 0, f, deg_f, node_idx, state, _ =>
    let lev := tree.num_levels - 1
    let xj := tree.level_data lev 0 (2 * node_idx)
    let f := f.read state.scratch
    some
      { state with
        out := Function.update state.out node_idx (horner_eval_poly f deg_f xj)
        calls := state.calls ++ [⟨lev, node_idx, f, deg_f⟩] }
  | below + 1, f, deg_f, node_idx, state, scratch => do
    let lev := tree.num_levels - 1 - (below + 1)
    let calls := state.calls ++ [⟨lev, node_idx, f.read state.scratch, deg_f⟩]
    let slot := tree.num_points >>> lev
    let child_deg := tree.level_degs (lev + 1)
    let child_stride := child_deg + 1
    let P_L := tree.level_data (lev + 1) (2 * node_idx * child_stride)
    let P_R := tree.level_data (lev + 1) ((2 * node_idx + 1) * child_stride)
    let r_L := scratch
    let q := scratch + slot
    let r_R := scratch + 2 * slot
    let q2 := scratch + 3 * slot
    let child_scratch := scratch + 4 * slot
    let words ← divideInto kernels size state.scratch (f.read state.scratch) deg_f P_L child_deg q
      r_L arena
    let words ← divideInto kernels size words (f.read words) deg_f P_R child_deg q2 r_R arena
    let rem_deg := remainderDegree (view words r_L) child_deg deg_f
    let state ← gf64_mp_eval_recurse kernels tree size arena below (.scratch r_L) rem_deg
      (2 * node_idx) { state with scratch := words, calls := calls } child_scratch
    let rem_deg := remainderDegree (view state.scratch r_R) child_deg deg_f
    gf64_mp_eval_recurse kernels tree size arena below (.scratch r_R) rem_deg (2 * node_idx + 1)
      state child_scratch

/-- The walk from the root, with its scratch and its arena. -/
def evalWalk (kernels : Kernels) (f : ℕ → Gf64) (deg_f : ℕ) (tree : SubproductTree)
    (out : ℕ → Gf64) : Option EvalState := do
  let N := tree.num_points
  let arena ← gf64_arena_init (8 * N)
  gf64_mp_eval_recurse kernels tree (8 * N) arena (tree.num_levels - 1) (.outside f) deg_f 0
    { scratch := fun _ => 0, out := out, calls := [] } 0

/-- The values of a polynomial at the points of a tree. -/
def gf64_multi_point_eval (kernels : Kernels) (f : ℕ → Gf64) (deg_f : ℕ) (tree : SubproductTree)
    (out : ℕ → Gf64) : Option (ℕ → Gf64) :=
  if tree.num_points = 0 then some out
  else
    let N := tree.num_points
    if N = 1 ∨ deg_f ≥ N then
      let last_level := tree.level_data (tree.num_levels - 1) 0
      some ((List.range N).foldl (fun out j =>
        Function.update out j (horner_eval_poly f deg_f (last_level (2 * j)))) out)
    else (evalWalk kernels f deg_f tree out).map EvalState.out

end Par3

import Mathlib.Data.Nat.Log
import Mathlib.Data.List.Basic
import Mathlib.Tactic.Ring

/-!
# Left-complete trees and the stack that builds them

A left-complete binary tree has the largest power of two below its number of leaves on its left, and the rest on
its right. Leaves that come one by one are counted in binary: for each bit of their number there is one perfect
tree, and the trees stand on a stack, the smallest one on top. One more leaf is a carry: trees of one size are
combined as long as there are more of them than bits.

The carry may wait until the next leaf comes. The last leaf is then combined with the trees from the top down,
and this is the left-complete tree.
-/

namespace LeftComplete

variable {α : Type*} (combine : α → α → α)

/-! ## Trees -/

/-- The number of leaves on the left of at least two. -/
def leftLength (count : ℕ) : ℕ := 2 ^ Nat.log 2 (count - 1)

theorem leftLength_lt {count : ℕ} (more : 1 < count) : leftLength count < count := by
  have below := Nat.pow_log_le_self 2 (x := count - 1) (by omega)
  rw [leftLength]
  omega

theorem leftLength_pos (count : ℕ) : 0 < leftLength count := Nat.two_pow_pos _

/-- The left-complete tree over the first leaves, of which there is at least one. -/
def root (leaf : ℕ → α) (count : ℕ) : α :=
  if more : 1 < count then
    have := leftLength_lt more
    have := leftLength_pos count
    combine (root leaf (leftLength count))
      (root (fun i => leaf (i + leftLength count)) (count - leftLength count))
  else leaf 0
termination_by count

/-- The perfect trees of one height, each over the next leaves. -/
def perfect (leaf : ℕ → α) : ℕ → ℕ → α
  | 0, i => leaf i
  | height + 1, i => combine (perfect leaf height (2 * i)) (perfect leaf height (2 * i + 1))

theorem perfect_shift (leaf : ℕ → α) (height i c : ℕ) :
    perfect combine (fun j => leaf (j + c * 2 ^ height)) height i = perfect combine leaf height (i + c) := by
  induction height generalizing i c with
  | zero => rw [perfect, perfect, pow_zero, Nat.mul_one]
  | succ height ih =>
    have double : c * 2 ^ (height + 1) = (2 * c) * 2 ^ height := by ring
    have left : 2 * i + 2 * c = 2 * (i + c) := by ring
    have right : 2 * i + 1 + 2 * c = 2 * (i + c) + 1 := by ring
    rw [perfect, perfect, double, ih, ih, left, right]

theorem root_one (leaf : ℕ → α) : root combine leaf 1 = leaf 0 := by
  rw [root, dif_neg (by decide)]

/-- Where the left part is known -/
theorem root_split (leaf : ℕ → α) {height rest : ℕ} (some : 0 < rest) (fits : rest ≤ 2 ^ height) :
    root combine leaf (2 ^ height + rest) =
      combine (root combine leaf (2 ^ height)) (root combine (fun i => leaf (i + 2 ^ height)) rest) := by
  have pos := Nat.two_pow_pos height
  have log : Nat.log 2 (2 ^ height + rest - 1) = height := by
    refine Nat.log_eq_of_pow_le_of_lt_pow (by omega) ?_
    rw [pow_succ]
    omega
  have left : leftLength (2 ^ height + rest) = 2 ^ height := by rw [leftLength, log]
  rw [root, dif_pos (by omega)]
  dsimp only
  rw [left, Nat.add_sub_cancel_left]

/-- A left-complete tree over a power of two is perfect. -/
theorem root_perfect (leaf : ℕ → α) (height : ℕ) :
    root combine leaf (2 ^ height) = perfect combine leaf height 0 := by
  induction height generalizing leaf with
  | zero => exact root_one combine leaf
  | succ height ih =>
    have double : 2 ^ (height + 1) = 2 ^ height + 2 ^ height := by ring
    have next := perfect_shift combine leaf height 0 1
    rw [Nat.one_mul] at next
    rw [double, root_split combine leaf (Nat.two_pow_pos height) (le_refl _), ih,
      ih, next, perfect]

/-! ## The stack -/

/-- The number of ones in binary -/
def ones (n : ℕ) : ℕ := if n = 0 then 0 else n % 2 + ones (n / 2)

theorem ones_zero : ones 0 = 0 := by rw [ones, if_pos rfl]

theorem ones_pos {n : ℕ} (pos : 0 < n) : 0 < ones n := by
  induction n using Nat.strong_induction_on with
  | _ n ih =>
    rw [ones, if_neg (by omega)]
    by_cases odd : n % 2 = 1
    · omega
    · have half := ih (n / 2) (by omega) (by omega)
      omega

/-- A number has no more ones than digits. -/
theorem ones_le {n depth : ℕ} (below : n < 2 ^ depth) : ones n ≤ depth := by
  induction depth generalizing n with
  | zero =>
    have zero : n = 0 := by rw [pow_zero] at below; omega
    rw [zero, ones_zero]
  | succ depth ih =>
    rw [ones]
    split
    · omega
    · have half := @ih (n / 2) (by rw [pow_succ] at below; omega)
      omega

/-- The stack after a number of trees of one height, its top first. -/
def stack (leaf : ℕ → α) (height n : ℕ) : List α :=
  if n = 0 then []
  else if n % 2 = 1 then perfect combine leaf height (n - 1) :: stack leaf (height + 1) (n / 2)
  else stack leaf (height + 1) (n / 2)
termination_by n

theorem stack_zero (leaf : ℕ → α) (height : ℕ) : stack combine leaf height 0 = [] := by rw [stack, if_pos rfl]

theorem stack_even (leaf : ℕ → α) (height half : ℕ) :
    stack combine leaf height (2 * half) = stack combine leaf (height + 1) half := by
  rw [stack]
  split
  · have zero : half = 0 := by omega
    rw [zero, stack_zero]
  · rw [if_neg (by omega), Nat.mul_div_cancel_left _ (by decide)]

theorem stack_odd (leaf : ℕ → α) (height half : ℕ) :
    stack combine leaf height (2 * half + 1) =
      perfect combine leaf height (2 * half) :: stack combine leaf (height + 1) half := by
  have quotient : (2 * half + 1) / 2 = half := by omega
  rw [stack, if_neg (by omega), if_pos (by omega), Nat.add_sub_cancel, quotient]

theorem ones_even (half : ℕ) : ones (2 * half) = ones half := by
  rw [ones]
  split
  · have zero : half = 0 := by omega
    rw [zero, ones_zero]
  · rw [Nat.mul_mod_right, Nat.zero_add, Nat.mul_div_cancel_left _ (by decide)]

theorem ones_odd (half : ℕ) : ones (2 * half + 1) = ones half + 1 := by
  have remainder : (2 * half + 1) % 2 = 1 := by omega
  have quotient : (2 * half + 1) / 2 = half := by omega
  rw [ones, if_neg (by omega), remainder, quotient, Nat.add_comm]

/-- There is one tree for each bit. -/
theorem stack_length (leaf : ℕ → α) (height n : ℕ) : (stack combine leaf height n).length = ones n := by
  induction n using Nat.strong_induction_on generalizing height with
  | _ n ih =>
    rcases Nat.even_or_odd' n with ⟨half, rfl | rfl⟩
    · rw [stack_even, ones_even]
      rcases Nat.eq_zero_or_pos half with rfl | pos
      · rw [stack_zero, ones_zero]
        rfl
      · exact ih half (by omega) _
    · rw [stack_odd, ones_odd, List.length_cons, ih half (by omega)]

/-- The two topmost trees are combined as long as there are more than a number. Nothing is left where there are
no two. -/
def merge (trees : List α) (wanted : ℕ) : Option (List α) :=
  if trees.length > wanted then
    match trees with
    | right :: left :: below => merge (combine left right :: below) wanted
    | _ => none
  else some trees
termination_by trees.length

theorem merge_done {trees : List α} {wanted : ℕ} (few : trees.length ≤ wanted) :
    merge combine trees wanted = some trees := by
  unfold merge
  exact if_neg (by omega)

theorem merge_cons {left right : α} {below : List α} {wanted : ℕ} (many : wanted < below.length + 2) :
    merge combine (right :: left :: below) wanted = merge combine (combine left right :: below) wanted := by
  rw [merge]
  exact if_pos many

theorem merge_one {only : α} {wanted : ℕ} (none : wanted < 1) : merge combine [only] wanted = .none := by
  unfold merge
  exact if_pos none

/-- One more tree, carried -/
theorem merge_stack (leaf : ℕ → α) (height n : ℕ) :
    merge combine (perfect combine leaf height n :: stack combine leaf height n) (ones (n + 1)) =
      some (stack combine leaf height (n + 1)) := by
  induction n using Nat.strong_induction_on generalizing height with
  | _ n ih =>
    rcases Nat.even_or_odd' n with ⟨half, rfl | rfl⟩
    · rw [stack_even, stack_odd, merge_done]
      rw [List.length_cons, stack_length, ones_odd]
    · have next : 2 * half + 1 + 1 = 2 * (half + 1) := by ring
      have carried := ih half (by omega) (height + 1)
      rw [perfect] at carried
      rw [next, stack_odd, stack_even, ones_even, merge_cons, carried]
      -- a carry never leaves more trees
      rw [stack_length]
      have bound : ones (half + 1) ≤ ones half + 1 := by
        clear carried ih next
        induction half using Nat.strong_induction_on with
        | _ half lower =>
          rcases Nat.even_or_odd' half with ⟨quarter, rfl | rfl⟩
          · rw [ones_odd, ones_even]
          · have more : 2 * quarter + 1 + 1 = 2 * (quarter + 1) := by ring
            have smaller := lower quarter (by omega)
            rw [more, ones_even, ones_odd]
            omega
      omega

/-- What a tree is made into does not matter where it is combined the same. -/
theorem merge_map {β : Type*} (combine' : β → β → β) (f : α → β)
    (same : ∀ left right, combine' (f left) (f right) = f (combine left right)) (trees : List α) (wanted : ℕ) :
    merge combine' (trees.map f) wanted = (merge combine trees wanted).map (List.map f) := by
  induction count : trees.length using Nat.strong_induction_on generalizing trees with
  | _ count ih =>
    subst count
    by_cases few : trees.length ≤ wanted
    · rw [merge_done combine few, merge_done combine' (by rwa [List.length_map]), Option.map_some]
    · match trees with
      | [] => rw [List.length_nil] at few; omega
      | [only] =>
        have none : wanted < 1 := Nat.lt_of_not_le few
        rw [List.map_cons, List.map_nil, merge_one combine none, merge_one combine' none, Option.map_none]
      | right :: left :: below =>
        have many : wanted < below.length + 2 := Nat.lt_of_not_le few
        have shorter := ih _ (Nat.lt_succ_self _) (combine left right :: below) rfl
        rw [merge_cons combine many, List.map_cons, List.map_cons,
          merge_cons combine' (by rwa [List.length_map]), same, ← shorter, List.map_cons]

/-! ## A carry that waits -/

/-- The stack after a number of leaves, where the carry of the last one may not have been made. -/
def Waiting (leaf : ℕ → α) (n : ℕ) (trees : List α) : Prop :=
  trees = stack combine leaf 0 n ∨ 0 < n ∧ trees = leaf (n - 1) :: stack combine leaf 0 (n - 1)

section
variable {combine} {leaf : ℕ → α} {n : ℕ} {trees : List α}

theorem Waiting.merge (waiting : Waiting combine leaf n trees) :
    merge combine trees (ones n) = some (stack combine leaf 0 n) := by
  rcases waiting with rfl | ⟨pos, rfl⟩
  · exact merge_done combine (stack_length combine leaf 0 n).le
  · have carried := merge_stack combine leaf 0 (n - 1)
    rwa [perfect, Nat.sub_add_cancel pos] at carried

/-- One more entry than bits is enough. -/
theorem Waiting.length_le (waiting : Waiting combine leaf n trees) {depth : ℕ} (fits : n ≤ 2 ^ depth) :
    trees.length ≤ depth + 1 := by
  have pos := Nat.two_pow_pos depth
  rcases waiting with rfl | ⟨some, rfl⟩
  · rw [stack_length]
    exact ones_le (by rw [pow_succ]; omega)
  · rw [List.length_cons, stack_length]
    have bits : ones (n - 1) ≤ depth := ones_le (by omega)
    omega

end

/-! ## The last leaf -/

/-- The trees of a stack, with one more on the right of them all -/
def join (trees : List α) (last : α) : α := trees.foldl (fun right left => combine left right) last

/-- The biggest tree stands at the bottom, and the others are as if the leaves began behind it. -/
theorem stack_bottom (leaf : ℕ → α) (height level rest : ℕ) (fits : rest < 2 ^ level) :
    stack combine leaf height (2 ^ level + rest) =
      stack combine (fun i => leaf (i + 2 ^ (height + level))) height rest ++
        [perfect combine leaf (height + level) 0] := by
  induction level generalizing height rest with
  | zero =>
    have zero : rest = 0 := by rw [pow_zero] at fits; omega
    have one : 2 ^ 0 + 0 = 2 * 0 + 1 := rfl
    rw [zero, one, stack_odd, stack_zero, stack_zero]
    rfl
  | succ level ih =>
    have double : 2 ^ (level + 1) = 2 * 2 ^ level := by ring
    have higher : height + (level + 1) = height + 1 + level := by omega
    rcases Nat.even_or_odd' rest with ⟨half, rfl | rfl⟩
    · have sum : 2 ^ (level + 1) + 2 * half = 2 * (2 ^ level + half) := by ring
      rw [sum, stack_even, stack_even, ih _ _ (by omega), higher]
    · have sum : 2 ^ (level + 1) + (2 * half + 1) = 2 * (2 ^ level + half) + 1 := by ring
      have behind : 2 ^ (height + (level + 1)) = 2 ^ (level + 1) * 2 ^ height := by ring
      have top := perfect_shift combine leaf height (2 * half) (2 ^ (level + 1))
      have place : 2 * half + 2 ^ (level + 1) = 2 * (2 ^ level + half) := by ring
      rw [place, ← behind] at top
      rw [sum, stack_odd, stack_odd, ih _ _ (by omega), top, List.cons_append, higher]

/-- The trees of all leaves but one, and that one on their right, are the left-complete tree. -/
theorem join_stack (leaf : ℕ → α) (n : ℕ) :
    join combine (stack combine leaf 0 n) (leaf n) = root combine leaf (n + 1) := by
  induction n using Nat.strong_induction_on generalizing leaf with
  | _ n ih =>
    rcases Nat.eq_zero_or_pos n with rfl | pos
    · rw [stack_zero, root_one]
      rfl
    · have lower := Nat.pow_log_le_self 2 (x := n) (by omega)
      have upper := Nat.lt_pow_succ_log_self (b := 2) (by decide) n
      have some := Nat.two_pow_pos (Nat.log 2 n)
      obtain ⟨rest, sum⟩ := Nat.exists_eq_add_of_le lower
      rw [pow_succ] at upper
      generalize Nat.log 2 n = level at *
      have behind := ih rest (by omega) fun i => leaf (i + 2 ^ level)
      have last : rest + 2 ^ level = n := by omega
      rw [last] at behind
      have whole : n + 1 = 2 ^ level + (rest + 1) := by omega
      rw [whole, root_split combine leaf (by omega) (by omega), ← behind, sum,
        stack_bottom combine leaf 0 level rest (by omega), join, List.foldl_append, Nat.zero_add, root_perfect]
      rfl

end LeftComplete

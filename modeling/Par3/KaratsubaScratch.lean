import Par3.PolyMul

/-!
# Karatsuba in memory

The recursion works in one scratch buffer: the three products and the two sums of a level stand at its
front, and what is behind them is used by each of the three calls. Before it is used, it is checked that
anything is behind them.
-/
namespace Par3

open Polynomial

/-! ## Regions of memory -/

/-- The words from a position on are those of a function. -/
def withWords (memory : ℕ → Gf64) (start length : ℕ) (f : ℕ → Gf64) : ℕ → Gf64 := fun p =>
  if start ≤ p ∧ p < start + length then f (p - start) else memory p

/-- Two regions, each with its start and its length, that share no word. -/
def Separate (start length other more : ℕ) : Prop := start + length ≤ other ∨ other + more ≤ start

/-- Regions inside of separate ones are separate. -/
theorem Separate.within {start length other more start' length' other' more' : ℕ}
    (apart : Separate start length other more) (first : start ≤ start' ∧ start' + length' ≤ start + length)
    (second : other ≤ other' ∧ other' + more' ≤ other + more) : Separate start' length' other' more' := by
  rw [Separate] at apart ⊢
  omega

/-- A word of the second region is outside of the first one. -/
theorem Separate.outside {start length other more k : ℕ} (apart : Separate start length other more)
    (inside : k < more) : other + k < start ∨ start + length ≤ other + k := by
  rw [Separate] at apart
  omega

section
variable (memory : ℕ → Gf64) {start length : ℕ} (f : ℕ → Gf64)

theorem withWords_inside {k : ℕ} (inside : k < length) : withWords memory start length f (start + k) = f k := by
  rw [withWords, if_pos (by omega), Nat.add_sub_cancel_left]

theorem withWords_outside {p : ℕ} (outside : p < start ∨ start + length ≤ p) :
    withWords memory start length f p = memory p := if_neg (by omega)

theorem withWords_separate {other more k : ℕ} (separate : Separate start length other more) (inside : k < more) :
    withWords memory start length f (other + k) = memory (other + k) :=
  withWords_outside _ _ (separate.outside inside)

theorem xorAt_withWords {k : ℕ} (inside : k < length) (value : Gf64) :
    xorAt (withWords memory start length f) (start + k) value = withWords memory start length (xorAt f k value) := by
  funext p
  rw [xorAt_apply, withWords, withWords, xorAt_apply]
  split
  · have same : start + k = p ↔ k = p - start := by omega
    rw [if_congr same rfl rfl]
  · rw [if_neg (by omega), add_zero]

/-- One more word behind those that are set. -/
theorem withWords_succ : Function.update (withWords memory start length f) (start + length) (f length) =
    withWords memory start (length + 1) f := by
  funext p
  rw [Function.update_apply, withWords, withWords]
  split
  · rw [if_pos (by omega)]
    congr 1
    omega
  · exact if_congr (by omega) rfl rfl

theorem update_withWords {p : ℕ} (outside : p < start ∨ start + length ≤ p) (value : Gf64) :
    Function.update (withWords memory start length f) p value =
      withWords (Function.update memory p value) start length f := by
  funext q
  rw [Function.update_apply, withWords, withWords, Function.update_apply]
  split
  · rw [if_neg (by omega)]
  · rfl

/-- The words of a region. -/
def wordsAt (start length : ℕ) : List Gf64 := (List.range length).map fun k => memory (start + k)

end

/-! ## The functions -/

/-- `kschoolbook`, where the result is in the same memory as the operands. -/
def kschoolbookAt (memory : ℕ → Gf64) (out a len_a b len_b out_len : ℕ) : ℕ → Gf64 :=
  let memory := withWords memory out out_len fun _ => 0
  let a_cap := min len_a out_len
  let b_cap := min len_b out_len
  (List.range a_cap).foldl (fun memory i =>
    let ai := memory (a + i)
    if ai = 0 then memory
    else (List.range (min b_cap (out_len - i))).foldl
      (fun memory j => xorAt memory (out + (i + j)) (ai * memory (b + j))) memory) memory

/-- What is not short has a half that is smaller. -/
theorem half_smaller {n : ℕ} (large : ¬ n ≤ GF64_KARATSUBA_THRESHOLD) : n / 2 < n := by
  rw [GF64_KARATSUBA_THRESHOLD] at large
  omega

/-- `kbal_full`: no result where its assertion fails. -/
def kbal_fullAt (memory : ℕ → Gf64) (out a b n scratch scratch_size : ℕ) : Option (ℕ → Gf64) :=
  if small : n ≤ GF64_KARATSUBA_THRESHOLD then some (kschoolbookAt memory out a n b n (2 * n - 1))
  else
    let half := n / 2
    have : n / 2 < n := half_smaller small
    let len_z := 2 * half - 1
    let len_sum := half
    let header := 3 * len_z + 2 * len_sum
    if scratch_size > header then
      let recurse_size := scratch_size - header
      let z0 := scratch
      let z2 := z0 + len_z
      let a_sum := z2 + len_z
      let b_sum := a_sum + len_sum
      let z1 := b_sum + len_sum
      let recurse := z1 + len_z
      (kbal_fullAt memory z0 a b half recurse recurse_size).bind fun memory =>
      (kbal_fullAt memory z2 (a + half) (b + half) half recurse recurse_size).bind fun memory =>
      let memory := (List.range half).foldl (fun memory i =>
        let memory := Function.update memory (a_sum + i) (memory (a + i) + memory (a + (i + half)))
        Function.update memory (b_sum + i) (memory (b + i) + memory (b + (i + half)))) memory
      (kbal_fullAt memory z1 a_sum b_sum half recurse recurse_size).bind fun memory =>
      let memory := (List.range len_z).foldl (fun memory i =>
        xorAt memory (z1 + i) (memory (z0 + i) + memory (z2 + i))) memory
      let memory := withWords memory out (2 * n - 1) fun _ => 0
      some ((List.range len_z).foldl (fun memory i =>
        let memory := xorAt memory (out + i) (memory (z0 + i))
        let memory := xorAt memory (out + (i + half)) (memory (z1 + i))
        xorAt memory (out + (i + n)) (memory (z2 + i))) memory)
    else none
termination_by n

/-- `gf64_poly_mul_karatsuba`: its four buffers stand one behind the other, and the scratch buffer can hold
anything. -/
def gf64_poly_mul_karatsubaAt (unset : ℕ → Gf64) (a b : List Gf64) (out_len : ℕ) : Option (List Gf64) :=
  if out_len = 0 then some []
  else
    let a := a.take out_len
    let b := b.take out_len
    if a.length = 0 ∨ b.length = 0 then some (List.replicate out_len 0)
    else
      let n_raw := max a.length b.length
      if n_raw ≤ GF64_KARATSUBA_THRESHOLD then
        some ((List.range out_len).map (kschoolbook (padded a) a.length (padded b) b.length out_len))
      else
        let n := 2 ^ Nat.clog 2 n_raw
        let a_pad := 0
        let b_pad := n
        let full_result := 2 * n
        let full_len := max (2 * n - 1) out_len
        let scratch := full_result + full_len
        let memory := withWords (withWords (withWords unset a_pad n (padded a)) b_pad n (padded b)) full_result full_len
          fun _ => 0
        (kbal_fullAt memory full_result a_pad b_pad n scratch (8 * n)).map fun memory =>
          wordsAt memory full_result out_len

/-! ## Each function computes in its region -/

theorem foldl_xorAt_withWords (memory : ℕ → Gf64) {out out_len : ℕ} (target : ℕ → ℕ)
    (value : (ℕ → Gf64) → ℕ → Gf64) (f : ℕ → Gf64) (count : ℕ) (inside : ∀ j < count, target j < out_len)
    (reads : ∀ g, ∀ j < count, value (withWords memory out out_len g) j = value memory j) :
    (List.range count).foldl (fun memory j => xorAt memory (out + target j) (value memory j))
        (withWords memory out out_len f) =
      withWords memory out out_len
        ((List.range count).foldl (fun out j => xorAt out (target j) (value memory j)) f) := by
  induction count with
  | zero => rfl
  | succ count ih =>
    rw [List.range_succ, List.foldl_append, List.foldl_append,
      ih (fun j below => inside j (by omega)) fun g j below => reads g j (by omega),
      List.foldl_cons, List.foldl_nil, List.foldl_cons, List.foldl_nil, reads _ _ (by omega),
      xorAt_withWords _ _ (inside count (by omega))]

theorem kschoolbookAt_eq (memory : ℕ → Gf64) {out a len_a b len_b out_len : ℕ}
    (apartA : Separate out out_len a len_a) (apartB : Separate out out_len b len_b) :
    kschoolbookAt memory out a len_a b len_b out_len =
      withWords memory out out_len
        (kschoolbook (fun i => memory (a + i)) len_a (fun j => memory (b + j)) len_b out_len) := by
  have rows : ∀ count, count ≤ min len_a out_len →
      (List.range count).foldl (fun memory i =>
        let ai := memory (a + i)
        if ai = 0 then memory
        else (List.range (min (min len_b out_len) (out_len - i))).foldl
          (fun memory j => xorAt memory (out + (i + j)) (ai * memory (b + j))) memory)
        (withWords memory out out_len fun _ => 0) =
      withWords memory out out_len ((List.range count).foldl (fun words i =>
        if memory (a + i) = 0 then words
        else (List.range (min (min len_b out_len) (out_len - i))).foldl
          (fun words j => xorAt words (i + j) (memory (a + i) * memory (b + j))) words) fun _ => 0) := by
    intro count below
    induction count with
    | zero => rfl
    | succ count ih =>
      rw [List.range_succ, List.foldl_append, List.foldl_append, ih (by omega), List.foldl_cons,
        List.foldl_nil, List.foldl_cons, List.foldl_nil]
      dsimp only
      rw [withWords_separate _ _ apartA (by omega)]
      split
      · rfl
      · exact foldl_xorAt_withWords memory (fun j => count + j) (fun words j => memory (a + count) * words (b + j)) _ _
          (fun j inside => by omega) fun g j inside => by rw [withWords_separate _ _ apartB (by omega)]
  exact rows _ (le_refl _)

/-! ## The recursion -/

theorem kschoolbook_congr {a a' b b' : ℕ → Gf64} {len_a len_b out_len : ℕ} (sameA : ∀ i < len_a, a i = a' i)
    (sameB : ∀ j < len_b, b j = b' j) :
    kschoolbook a len_a b len_b out_len = kschoolbook a' len_a b' len_b out_len := by
  rw [kschoolbook, kschoolbook]
  refine List.foldl_ext _ _ _ fun out i member => ?_
  have inside := List.mem_range.mp member
  rw [sameA i (by omega)]
  split
  · rfl
  · refine List.foldl_ext _ _ _ fun out j later => ?_
    have below := List.mem_range.mp later
    rw [sameB j (by omega)]

/-- Only the first coefficients matter. -/
theorem kbal_full_congr {a a' b b' : ℕ → Gf64} {n : ℕ} (sameA : ∀ i < n, a i = a' i)
    (sameB : ∀ j < n, b j = b' j) :
    kbal_full a b n = kbal_full a' b' n := by
  induction n using Nat.strong_induction_on generalizing a a' b b' with
  | _ n ih =>
    rw [kbal_full, kbal_full]
    split
    · exact kschoolbook_congr sameA sameB
    · next large =>
      rw [GF64_KARATSUBA_THRESHOLD] at large
      have less : n / 2 < n := by omega
      dsimp only
      rw [ih _ less (fun i _ => sameA i (by omega)) fun j _ => sameB j (by omega),
        ih _ less (fun i _ => sameA (i + n / 2) (by omega)) fun j _ => sameB (j + n / 2) (by omega),
        ih _ less
          (fun i _ => congrArg₂ (· + ·) (sameA i (by omega)) (sameA (i + n / 2) (by omega)))
          fun j _ => congrArg₂ (· + ·) (sameB j (by omega)) (sameB (j + n / 2) (by omega))]

/-- The sums of the halves -/
theorem sums_eq (memory : ℕ → Gf64) {a b half a_sum b_sum : ℕ} (apart : Separate a_sum half b_sum half)
    (aa : Separate a_sum half a (2 * half)) (ab : Separate a_sum half b (2 * half))
    (ba : Separate b_sum half a (2 * half)) (bb : Separate b_sum half b (2 * half)) (count : ℕ)
    (inside : count ≤ half) :
    (List.range count).foldl (fun memory i =>
        let memory := Function.update memory (a_sum + i) (memory (a + i) + memory (a + (i + half)))
        Function.update memory (b_sum + i) (memory (b + i) + memory (b + (i + half)))) memory =
      withWords (withWords memory a_sum count fun i => memory (a + i) + memory (a + (i + half))) b_sum count
        fun i => memory (b + i) + memory (b + (i + half)) := by
  rw [Separate] at apart aa ab ba bb
  induction count with
  | zero =>
    funext p
    rw [withWords_outside _ _ (by omega), withWords_outside _ _ (by omega)]
    rfl
  | succ count ih =>
    rw [List.range_succ, List.foldl_append, ih (by omega), List.foldl_cons, List.foldl_nil]
    dsimp only
    have own : ∀ k < 2 * half,
        withWords (withWords memory a_sum count fun i => memory (a + i) + memory (a + (i + half)))
        b_sum count (fun i => memory (b + i) + memory (b + (i + half))) (a + k) = memory (a + k) := by
      intro k below
      rw [withWords_outside _ _ (by omega), withWords_outside _ _ (by omega)]
    rw [own _ (by omega), own _ (by omega), update_withWords _ _ (by omega),
      withWords_succ memory fun i => memory (a + i) + memory (a + (i + half))]
    have other : ∀ k < 2 * half,
        withWords (withWords memory a_sum (count + 1) fun i => memory (a + i) + memory (a + (i + half)))
          b_sum count (fun i => memory (b + i) + memory (b + (i + half))) (b + k) = memory (b + k) := by
      intro k below
      rw [withWords_outside _ _ (by omega), withWords_outside _ _ (by omega)]
    rw [other _ (by omega), other _ (by omega)]
    exact withWords_succ _ fun i => memory (b + i) + memory (b + (i + half))

/-- The other products are added to the third one in place. -/
theorem middle_eq (memory : ℕ → Gf64) {z0 z1 z2 len_z : ℕ} (first : Separate z1 len_z z0 len_z)
    (second : Separate z1 len_z z2 len_z) (count : ℕ) (inside : count ≤ len_z) :
    (List.range count).foldl (fun memory i => xorAt memory (z1 + i) (memory (z0 + i) + memory (z2 + i))) memory =
      withWords memory z1 count fun i => memory (z1 + i) + (memory (z0 + i) + memory (z2 + i)) := by
  rw [Separate] at first second
  induction count with
  | zero =>
    funext p
    rw [withWords_outside _ _ (by omega)]
    rfl
  | succ count ih =>
    rw [List.range_succ, List.foldl_append, ih (by omega), List.foldl_cons, List.foldl_nil, xorAt,
      withWords_outside _ _ (by omega), withWords_outside _ _ (by omega), withWords_outside _ _ (by omega)]
    exact withWords_succ memory fun i => memory (z1 + i) + (memory (z0 + i) + memory (z2 + i))

/-- The products are put together in the result. -/
theorem combined_eq (memory : ℕ → Gf64) {out out_len z0 z1 z2 len_z half n : ℕ}
    (zeroth : Separate out out_len z0 len_z)
    (first : Separate out out_len z1 len_z) (second : Separate out out_len z2 len_z) (f : ℕ → Gf64) (count : ℕ)
    (room : len_z + n ≤ out_len) (less : half ≤ n) (inside : count ≤ len_z) :
    (List.range count).foldl (fun memory i =>
        let memory := xorAt memory (out + i) (memory (z0 + i))
        let memory := xorAt memory (out + (i + half)) (memory (z1 + i))
        xorAt memory (out + (i + n)) (memory (z2 + i))) (withWords memory out out_len f) =
      withWords memory out out_len ((List.range count).foldl (fun out i =>
        xorAt (xorAt (xorAt out i (memory (z0 + i))) (i + half) (memory (z1 + i))) (i + n) (memory (z2 + i))) f) := by
  induction count with
  | zero => rfl
  | succ count ih =>
    rw [List.range_succ, List.foldl_append, List.foldl_append, ih (by omega), List.foldl_cons,
      List.foldl_nil, List.foldl_cons, List.foldl_nil]
    dsimp only
    rw [withWords_separate _ _ zeroth (by omega), xorAt_withWords _ _ (by omega),
      withWords_separate _ _ first (by omega),
      xorAt_withWords _ _ (by omega), withWords_separate _ _ second (by omega), xorAt_withWords _ _ (by omega)]

/-- With eight words of scratch for each coefficient, no assertion fails, the result is that of the recursion,
and no other words change than those of the result and of the scratch buffer. -/
theorem kbal_fullAt_spec (n : ℕ) (memory : ℕ → Gf64) (out a b scratch scratch_size : ℕ)
    (enough : 8 * n ≤ scratch_size) (outA : Separate out (2 * n - 1) a n) (outB : Separate out (2 * n - 1) b n)
    (outScratch : Separate out (2 * n - 1) scratch scratch_size) (scratchA : Separate scratch scratch_size a n)
    (scratchB : Separate scratch scratch_size b n) :
    ∃ after, kbal_fullAt memory out a b n scratch scratch_size = some after ∧
      (∀ k < 2 * n - 1, after (out + k) = kbal_full (fun i => memory (a + i)) (fun i => memory (b + i)) n k) ∧
      ∀ p, (p < out ∨ out + (2 * n - 1) ≤ p) → (p < scratch ∨ scratch + scratch_size ≤ p) →
        after p = memory p := by
  induction n using Nat.strong_induction_on generalizing memory out a b scratch scratch_size with
  | _ n ih =>
    rw [kbal_fullAt, kbal_full]
    by_cases small : n ≤ GF64_KARATSUBA_THRESHOLD
    · rw [dif_pos small, dif_pos small]
      refine ⟨_, rfl, fun k inside => ?_, fun p outside _ => ?_⟩
      · rw [kschoolbookAt_eq _ outA outB, withWords_inside _ _ inside]
      · rw [kschoolbookAt_eq _ outA outB, withWords_outside _ _ outside]
    · rw [dif_neg small, dif_neg small]
      rw [GF64_KARATSUBA_THRESHOLD] at small
      have lower : 2 * (n / 2) ≤ n := by omega
      have upper : n ≤ 2 * (n / 2) + 1 := by omega
      have recursion := ih (n / 2) (by omega)
      clear ih
      dsimp only
      generalize n / 2 = half at *
      rw [if_pos (by omega)]
      generalize len : 2 * half - 1 = len_z at *
      generalize size : scratch_size - (3 * len_z + 2 * half) = recurse_size
      replace len : len_z + 1 = 2 * half := by omega
      replace size : 3 * len_z + 2 * half + recurse_size = scratch_size := by omega
      have large : 16 ≤ half := by omega
      have again : 8 * half ≤ recurse_size := by omega
      clear small
      generalize second : scratch + len_z = z2
      generalize sumA : z2 + len_z = a_sum
      generalize sumB : a_sum + half = b_sum
      generalize third : b_sum + half = z1
      generalize behind : z1 + len_z = recurse
      -- the operands are outside of the scratch buffer, and what the calls use is inside of it
      have workA : Separate recurse recurse_size a n := scratchA.within (by omega) ⟨le_refl _, le_refl _⟩
      have workB : Separate recurse recurse_size b n := scratchB.within (by omega) ⟨le_refl _, le_refl _⟩
      -- the product of the lower halves
      obtain ⟨memory1, call1, words0, frame1⟩ := recursion memory scratch a b recurse recurse_size (by omega)
        (scratchA.within (by omega) (by omega)) (scratchB.within (by omega) (by omega)) (Or.inl (by omega))
        (workA.within (by omega) (by omega)) (workB.within (by omega) (by omega))
      rw [call1, Option.bind_some]
      have a1 : ∀ i < n, memory1 (a + i) = memory (a + i) := fun i below => by
        have away := scratchA.outside below
        exact frame1 _ (by omega) (by omega)
      have b1 : ∀ i < n, memory1 (b + i) = memory (b + i) := fun i below => by
        have away := scratchB.outside below
        exact frame1 _ (by omega) (by omega)
      -- the product of the upper halves
      obtain ⟨memory2, call2, words2, frame2⟩ := recursion memory1 z2 (a + half) (b + half) recurse recurse_size
        (by omega) (scratchA.within (by omega) (by omega)) (scratchB.within (by omega) (by omega)) (Or.inl (by omega))
        (workA.within (by omega) (by omega)) (workB.within (by omega) (by omega))
      have a2 : ∀ i < n, memory2 (a + i) = memory (a + i) := fun i below => by
        have away := scratchA.outside below
        exact (frame2 _ (by omega) (by omega)).trans (a1 i below)
      have b2 : ∀ i < n, memory2 (b + i) = memory (b + i) := fun i below => by
        have away := scratchB.outside below
        exact (frame2 _ (by omega) (by omega)).trans (b1 i below)
      have kept0 : ∀ i < len_z, memory2 (scratch + i) = memory1 (scratch + i) := fun i below =>
        frame2 _ (by omega) (by omega)
      rw [call2, Option.bind_some, sums_eq memory2 (Or.inl (by omega)) (scratchA.within (by omega) (by omega))
        (scratchB.within (by omega) (by omega)) (scratchA.within (by omega) (by omega))
        (scratchB.within (by omega) (by omega)) half (le_refl _)]
      generalize sums :
        withWords (withWords memory2 a_sum half fun i => memory2 (a + i) + memory2 (a + (i + half)))
          b_sum half (fun i => memory2 (b + i) + memory2 (b + (i + half))) = memory3
      have frame3 : ∀ p, (p < a_sum ∨ z1 ≤ p) → memory3 p = memory2 p := by
        intro p outside
        rw [← sums, withWords_outside _ _ (by omega), withWords_outside _ _ (by omega)]
      have a3 : ∀ i < half, memory3 (a_sum + i) = memory (a + i) + memory (a + (i + half)) := by
        intro i below
        rw [← sums, withWords_outside _ _ (by omega), withWords_inside _ _ below, a2 _ (by omega), a2 _ (by omega)]
      have b3 : ∀ i < half, memory3 (b_sum + i) = memory (b + i) + memory (b + (i + half)) := by
        intro i below
        rw [← sums, withWords_inside _ _ below, b2 _ (by omega), b2 _ (by omega)]
      -- the product of the sums
      obtain ⟨memory4, call4, words1, frame4⟩ := recursion memory3 z1 a_sum b_sum recurse recurse_size (by omega)
        (Or.inr (by omega)) (Or.inr (by omega)) (Or.inl (by omega)) (Or.inr (by omega)) (Or.inr (by omega))
      rw [call4, Option.bind_some, middle_eq memory4 (Or.inr (by omega)) (Or.inr (by omega)) len_z (le_refl _)]
      generalize middle : withWords memory4 z1 len_z
        (fun i => memory4 (z1 + i) + (memory4 (scratch + i) + memory4 (z2 + i))) = memory5
      rw [combined_eq memory5 (outScratch.within ⟨le_refl _, le_refl _⟩ (by omega))
        (outScratch.within ⟨le_refl _, le_refl _⟩ (by omega)) (outScratch.within ⟨le_refl _, le_refl _⟩ (by omega)) _
        len_z (by omega) (by omega) (le_refl _)]
      have low : ∀ i < len_z, memory4 (scratch + i) =
          kbal_full (fun i => memory (a + i)) (fun i => memory (b + i)) half i := by
        intro i below
        rw [frame4 _ (by omega) (by omega), frame3 _ (by omega), kept0 i below, words0 i below]
      have high : ∀ i < len_z, memory4 (z2 + i) =
          kbal_full (fun i => memory (a + (i + half))) (fun i => memory (b + (i + half))) half i := by
        intro i below
        rw [frame4 _ (by omega) (by omega), frame3 _ (by omega), words2 i below]
        refine congrFun (kbal_full_congr (fun k less => ?_) fun k less => ?_) i
        · rw [Nat.add_assoc, Nat.add_comm half k, a1 _ (by omega)]
        · rw [Nat.add_assoc, Nat.add_comm half k, b1 _ (by omega)]
      refine ⟨_, rfl, fun k inside => ?_, fun p outside elsewhere => ?_⟩
      · rw [withWords_inside _ _ inside]
        refine congrFun (List.foldl_ext _ _ _ fun words i member => ?_) k
        have below := List.mem_range.mp member
        have atZ0 : memory5 (scratch + i) = memory4 (scratch + i) := by
          rw [← middle, withWords_outside _ _ (by omega)]
        have atZ2 : memory5 (z2 + i) = memory4 (z2 + i) := by
          rw [← middle, withWords_outside _ _ (by omega)]
        have atZ1 : memory5 (z1 + i) = memory4 (z1 + i) + (memory4 (scratch + i) + memory4 (z2 + i)) := by
          rw [← middle, withWords_inside _ _ below]
        rw [atZ0, atZ2, atZ1, low i below, high i below, words1 i below, kbal_full_congr a3 b3]
      · rw [withWords_outside _ _ outside, ← middle, withWords_outside _ _ (by omega),
          frame4 _ (by omega) (by omega),
          frame3 _ (by omega), frame2 _ (by omega) (by omega), frame1 _ (by omega) (by omega)]

/-! ## The products -/

/-- The words of a region are the coefficients of an operand. -/
theorem wordsAt_firstTerms (memory : ℕ → Gf64) (start n : ℕ) :
    polynomialOf (wordsAt memory start n) = firstTerms (fun i => memory (start + i)) n := by
  have length : (wordsAt memory start n).length = n := by rw [wordsAt, List.length_map, List.length_range]
  rw [← padded_firstTerms, length]
  refine firstTerms_congr fun k below => ?_
  rw [padded, List.getD_eq_getElem _ _ (by omega)]
  simp only [wordsAt, List.getElem_map, List.getElem_range]

/-- Where the length can be halved down to the cutoff, the result is the whole product. -/
theorem kbal_fullAt_convolution {leaf : ℕ} (some : 0 < leaf) (short : leaf ≤ GF64_KARATSUBA_THRESHOLD) (m : ℕ)
    {n : ℕ} (halved : n = leaf * 2 ^ m) (memory : ℕ → Gf64) {out a b scratch scratch_size : ℕ}
    (enough : 8 * n ≤ scratch_size) (outA : Separate out (2 * n - 1) a n) (outB : Separate out (2 * n - 1) b n)
    (outScratch : Separate out (2 * n - 1) scratch scratch_size) (scratchA : Separate scratch scratch_size a n)
    (scratchB : Separate scratch scratch_size b n) :
    ∃ after, kbal_fullAt memory out a b n scratch scratch_size = .some after ∧
      (∀ k < 2 * n - 1, after (out + k) = convolution (wordsAt memory a n) (wordsAt memory b n) k) ∧
      ∀ p, (p < out ∨ out + (2 * n - 1) ≤ p) → (p < scratch ∨ scratch + scratch_size ≤ p) →
        after p = memory p := by
  obtain ⟨after, call, words, frame⟩ :=
    kbal_fullAt_spec n memory out a b scratch scratch_size enough outA outB outScratch scratchA scratchB
  refine ⟨after, call, fun k inside => ?_, frame⟩
  have product := congrArg (fun p => Polynomial.coeff p k) (kbal_full_firstTerms (fun i => memory (a + i))
    (fun i => memory (b + i)) some short m)
  rw [← halved] at product
  rw [words k inside, convolution_eq, wordsAt_firstTerms, wordsAt_firstTerms, ← product, firstTerms_coeff,
    if_pos inside]

/-- No assertion fails in the driver, and it is the function without scratch. -/
theorem gf64_poly_mul_karatsubaAt_eq (unset : ℕ → Gf64) (a b : List Gf64) (out_len : ℕ) :
    gf64_poly_mul_karatsubaAt unset a b out_len = some (gf64_poly_mul_karatsuba a b out_len) := by
  rw [gf64_poly_mul_karatsubaAt, gf64_poly_mul_karatsuba]
  split
  · rfl
  · dsimp only
    split
    · rfl
    · split
      · rfl
      · generalize a.take out_len = a
        generalize b.take out_len = b
        generalize 2 ^ Nat.clog 2 (max a.length b.length) = n
        generalize initial : withWords (withWords (withWords unset 0 n (padded a)) n n (padded b)) (2 * n)
          (max (2 * n - 1) out_len) (fun _ => 0) = memory
        have left : ∀ i < n, memory (0 + i) = padded a i := by
          intro i below
          rw [← initial, withWords_outside _ _ (by omega), withWords_outside _ _ (by omega), withWords_inside _ _ below]
        have right : ∀ i < n, memory (n + i) = padded b i := by
          intro i below
          rw [← initial, withWords_outside _ _ (by omega), withWords_inside _ _ below]
        have zeros : ∀ i < max (2 * n - 1) out_len, memory (2 * n + i) = 0 := by
          intro i below
          rw [← initial, withWords_inside _ _ below]
        obtain ⟨after, call, words, frame⟩ := kbal_fullAt_spec n memory (2 * n) 0 n
          (2 * n + max (2 * n - 1) out_len) (8 * n) (le_refl _) (by rw [Separate]; omega) (by rw [Separate]; omega)
          (by rw [Separate]; omega) (by rw [Separate]; omega) (by rw [Separate]; omega)
        rw [call, Option.map_some, wordsAt]
        refine congrArg some (List.map_congr_left fun k member => ?_)
        have below := List.mem_range.mp member
        split
        case isTrue inside => rw [words k inside, kbal_full_congr left right]
        -- the words behind the product are as they were allocated
        case isFalse beyond => rw [frame _ (by omega) (by omega), zeros k (by omega)]

/-- For every length that can be halved evenly down to the cutoff, among them the powers of two which are all
that the driver passes, the recursion computes the whole product. For all operands and every length of the
result, so does the driver, with zeros behind the product and no more coefficients than are asked for. In both,
eight words of scratch for each coefficient are enough for every assertion. -/
theorem karatsuba_products :
    (∀ (leaf m n : ℕ), 0 < leaf → leaf ≤ GF64_KARATSUBA_THRESHOLD → n = leaf * 2 ^ m →
      ∀ (memory : ℕ → Gf64) (out a b scratch scratch_size : ℕ), 8 * n ≤ scratch_size →
        Separate out (2 * n - 1) a n → Separate out (2 * n - 1) b n →
        Separate out (2 * n - 1) scratch scratch_size → Separate scratch scratch_size a n →
        Separate scratch scratch_size b n →
        ∃ after, kbal_fullAt memory out a b n scratch scratch_size = some after ∧
          (∀ k < 2 * n - 1, after (out + k) = convolution (wordsAt memory a n) (wordsAt memory b n) k) ∧
          ∀ p, (p < out ∨ out + (2 * n - 1) ≤ p) → (p < scratch ∨ scratch + scratch_size ≤ p) →
            after p = memory p) ∧
      ∀ (unset : ℕ → Gf64) (a b : List Gf64) (out_len : ℕ),
        gf64_poly_mul_karatsubaAt unset a b out_len = some ((List.range out_len).map (convolution a b)) := by
  refine ⟨fun leaf m n some short halved memory out a b scratch scratch_size enough outA outB outScratch scratchA
    scratchB => ?_, fun unset a b out_len => ?_⟩
  · exact kbal_fullAt_convolution some short m halved memory enough outA outB outScratch scratchA scratchB
  · rw [gf64_poly_mul_karatsubaAt_eq, gf64_poly_mul_karatsuba_eq]

/-- Two operands of twice thirty-three coefficients, side by side behind the result -/
theorem karatsuba_products_thirty_three :
    ∃ after, kbal_fullAt (fun _ => 1) 0 131 197 66 263 528 = some after ∧
      (∀ k < 131, after (0 + k) = convolution (wordsAt (fun _ => 1) 131 66) (wordsAt (fun _ => 1) 197 66) k) ∧
      ∀ p, (p < 0 ∨ 0 + 131 ≤ p) → (p < 263 ∨ 263 + 528 ≤ p) → after p = 1 :=
  karatsuba_products.1 33 1 66 (by decide) (by decide) (by decide) (fun _ => 1) 0 131 197 263 528 (by decide)
    (by rw [Separate]; omega) (by rw [Separate]; omega) (by rw [Separate]; omega) (by rw [Separate]; omega)
    (by rw [Separate]; omega)

/-- A length that is odd above the cutoff is not for the recursion: halves of thirty-two coefficients leave the
last of sixty-five out. -/
theorem kbal_full_odd : ∃ after,
    kbal_fullAt (fun p => if p = 193 ∨ p = 258 then 1 else 0) 0 129 194 65 259 520 = some after ∧
      after (0 + 128) = 0 ∧
      convolution (wordsAt (fun p => if p = 193 ∨ p = 258 then 1 else 0) 129 65)
        (wordsAt (fun p => if p = 193 ∨ p = 258 then 1 else 0) 194 65) 128 = 1 := by
  generalize operands : (fun p => if p = 193 ∨ p = 258 then (1 : Gf64) else 0) = memory
  obtain ⟨after, call, words, _⟩ := kbal_fullAt_spec 65 memory 0 129 194 259 520 (by decide)
    (by rw [Separate]; omega) (by rw [Separate]; omega) (by rw [Separate]; omega) (by rw [Separate]; omega)
    (by rw [Separate]; omega)
  refine ⟨after, call, ?_, ?_⟩
  · rw [words 128 (by decide), kbal_full, dif_neg (by decide)]
    dsimp only
    rw [combine_coeff, coeff_add, coeff_add, firstTerms_shift_coeff, firstTerms_shift_coeff, firstTerms_coeff,
      if_neg (by decide)]
    rw [Finset.sum_eq_zero fun i member => if_neg (by have := Finset.mem_range.mp member; omega),
      Finset.sum_eq_zero fun i member => if_neg (by have := Finset.mem_range.mp member; omega), add_zero, add_zero]
  · have word : ∀ start i, (wordsAt memory start 65).getD i 0 = if i < 65 then memory (start + i) else 0 := by
      intro start i
      have length : (wordsAt memory start 65).length = 65 := by rw [wordsAt, List.length_map, List.length_range]
      split
      · rw [List.getD_eq_getElem _ _ (by omega)]
        simp only [wordsAt, List.getElem_map, List.getElem_range]
      · rw [List.getD_eq_default _ _ (by omega)]
    rw [convolution, Finset.sum_eq_single 64]
    · rw [word, word, ← operands]
      decide
    · intro i _ other
      have zero : (wordsAt memory 129 65).getD i 0 = 0 := by
        rw [word, ← operands]
        split
        · exact if_neg (by omega)
        · rfl
      rw [zero, zero_mul]
    · intro absent
      exact absurd (Finset.mem_range.mpr (by decide)) absent

end Par3

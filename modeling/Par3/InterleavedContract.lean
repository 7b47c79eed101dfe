import Par3.InterleavedBatch

/-!
# Batches and single products

Multiplying polynomials by the same one in a batch leaves what multiplying them one after another leaves, word by
word. One after another with the transform of the common factor at hand, this holds for any number of polynomials;
in lanes, for as many as there are lanes.
-/

namespace Par3

namespace Interleaved

open Lanes NovelBasis

/-- The polynomials are multiplied by calls of their own, one after another. -/
def separateCalls (avx512 registered : Bool) (size : ℕ) (words : ℕ → Gf64) (outs : ℕ → ℕ) (K : ℕ)
    (shared : ℕ → Gf64) (len_shared f len_f out_len : ℕ) : Option (ℕ → Gf64) :=
  (List.range K).foldlM (fun words k =>
    let product := gf64_addfft64_poly_mul_recursive_scratch (wordList shared len_shared)
      (wordList (view words (f + k * len_f)) len_f) out_len avx512 registered
    putWords size words (outs k) out_len fun i => product.getD i 0) words

/-- The products of a pass, with the lanes in the memory of the transforms -/
def fenger_batch_shared_mul (kernels : Kernels) (unset : ℕ → Gf64) (size room : ℕ) (words : ℕ → Gf64)
    (outs : ℕ → ℕ) (K : ℕ) (shared : ℕ → Gf64) (len_shared f len_f out_len scratch_words : ℕ) :
    Option (ℕ → Gf64) :=
  if kernels.avx512 then
    let n := productLength len_shared len_f out_len
    if K ≤ 8 ∧ scratch_words ≥ 32 * n then
      gf64_addfft64_poly_mul_batch_shared_interleaved_avx512 kernels.registered unset size room words outs K
        shared len_shared f len_f out_len
    else
      gf64_addfft64_poly_mul_batch_shared_core true kernels.registered size room words outs K shared
        len_shared f len_f out_len
  else
    gf64_addfft64_poly_mul_batch_shared_core false kernels.registered size room words outs K shared
      len_shared f len_f out_len

/-! ## The buffers of the transforms -/

/-- A group is written at once, from what its lanes hold. -/
theorem groups_lane (value : (ℕ → Gf64) → ℕ → ℕ → Gf64) (own : ℕ → Gf64 → Gf64) {k : ℕ}
    (inside : k < GF64_HQC_BATCH_LANES)
    (reads : ∀ memory i, value memory i k = own i (Lanes.lane GF64_HQC_BATCH_LANES memory k i)) (n : ℕ)
    (memory : ℕ → Gf64) :
    Lanes.lane GF64_HQC_BATCH_LANES ((List.range n).foldl (fun memory i =>
        (List.range GF64_HQC_BATCH_LANES).foldl (fun out k =>
          Function.update out (i * GF64_HQC_BATCH_LANES + k) (value memory i k)) memory) memory) k =
      fun i => if i < n then own i (Lanes.lane GF64_HQC_BATCH_LANES memory k i)
        else Lanes.lane GF64_HQC_BATCH_LANES memory k i := by
  rw [← FallibleLoops.foldl_update_range own n (Lanes.lane GF64_HQC_BATCH_LANES memory k)]
  induction n with
  | zero => rfl
  | succ n ih =>
    rw [List.range_succ, List.foldl_append, List.foldl_append, List.foldl_cons, List.foldl_nil, List.foldl_cons,
      List.foldl_nil, ← ih, ← reads]
    refine lane_foldl (fun g => Function.update g n (value _ n k)) inside (fun out j lower => ?_) _
    rw [lane_update _ _ lower inside]
    by_cases same : j = k
    · rw [if_pos same, if_pos same, same]
    · rw [if_neg same, if_neg same]

theorem replicated_lane (unset pt0 : ℕ → Gf64) (n : ℕ) {k : ℕ} (inside : k < GF64_HQC_BATCH_LANES) (i : ℕ) :
    Lanes.lane GF64_HQC_BATCH_LANES (replicated unset pt0 n) k i =
      if i < n then pt0 i else Lanes.lane GF64_HQC_BATCH_LANES unset k i :=
  congrFun (groups_lane (fun _ i _ => pt0 i) (fun i _ => pt0 i) inside (fun _ _ => rfl) n unset) i

theorem multiplied_lane (pf pt : ℕ → Gf64) (n : ℕ) {k : ℕ} (inside : k < GF64_HQC_BATCH_LANES) (i : ℕ) :
    Lanes.lane GF64_HQC_BATCH_LANES (multiplied pf pt n) k i =
      if i < n then Lanes.lane GF64_HQC_BATCH_LANES pf k i * Lanes.lane GF64_HQC_BATCH_LANES pt k i
      else Lanes.lane GF64_HQC_BATCH_LANES pf k i :=
  congrFun (groups_lane
    (fun pf i => mulGroup (view pf (i * GF64_HQC_BATCH_LANES)) (view pt (i * GF64_HQC_BATCH_LANES)))
    (fun i word => word * Lanes.lane GF64_HQC_BATCH_LANES pt k i) inside (fun _ _ => mulGroup_eq _ _ inside) n pf) i

/-- With no more polynomials than lanes, each is in its own. -/
theorem transposed_lane (words pf : ℕ → Gf64) {K : ℕ} (few : K ≤ GF64_HQC_BATCH_LANES)
    (f len_f copy_n : ℕ) {k : ℕ} (inside : k < GF64_HQC_BATCH_LANES) (i : ℕ) :
    Lanes.lane GF64_HQC_BATCH_LANES (transposed words pf K f len_f copy_n) k i =
      if k < K ∧ i < copy_n then view words (f + k * len_f) i else Lanes.lane GF64_HQC_BATCH_LANES pf k i := by
  induction K with
  | zero => rw [if_neg (by omega)]; rfl
  | succ K ih =>
    rw [transposed, List.range_succ, List.foldl_append, List.foldl_cons, List.foldl_nil, Lanes.lane,
      Slabs.foldl_update_slabs _ _ few _ _ _ inside]
    by_cases here : i < copy_n ∧ k = K
    · rw [if_pos here, if_pos (by omega), here.2]
    · rw [if_neg here]
      refine (ih (by omega)).trans (if_congr (by omega) rfl rfl)

/-! ## One product -/

section
variable {m : ℕ} (small : m ≤ 20) {shared f : ℕ → Gf64} {len_shared len_f : ℕ} (someShared : 0 < len_shared)
  (some_f : 0 < len_f) (enough : len_shared + len_f - 1 ≤ 2 ^ m)

include small someShared some_f enough

/-- Transforms of words that are those of the factors up to the length of the transform -/
theorem inverse_product (registered : Bool) (pf : ℕ → Gf64) {g : ℕ → Gf64}
    (same : ∀ i < 2 ^ m, pf i = zeroPadded f len_f i)
    (product : ∀ i < 2 ^ m, g i =
      gf64_addfft64_fwd_recursive_scratch pf (2 ^ m) true registered i *
        gf64_addfft64_fwd_recursive_scratch (zeroPadded shared len_shared) (2 ^ m) true registered i) {i : ℕ}
    (inside : i < 2 ^ m) :
    gf64_addfft64_inv_recursive_scratch g (2 ^ m) true registered i =
      convolution (wordList shared len_shared) (wordList f len_f) i := by
  have commuted : convolution (wordList shared len_shared) (wordList f len_f) =
      convolution (wordList f len_f) (wordList shared len_shared) := by
    funext k
    rw [convolution_eq, convolution_eq, mul_comm]
  rw [commuted]
  refine inv_coefficients small true registered g _ (fun j below => ?_) i inside
  rw [product j below, fwd_value small true registered _ below, fwd_value small true registered _ below,
    weigh_congr (fun _ _ => rfl) same, zeroPadded_eq, zeroPadded_eq]
  exact weigh_convolution _ _ (by rwa [wordList_length]) (by rwa [wordList_length])
    (by rw [wordList_length, wordList_length]; omega) _

end

/-- The words that a single call returns -/
theorem single_getD (a b : List Gf64) {out_len i : ℕ} (avx512 registered : Bool)
    (room : max (a.length + b.length - 1) out_len ≤ GF64_HQC_MAX_LM_N) (inside : i < out_len) :
    (gf64_addfft64_poly_mul_recursive_scratch a b out_len avx512 registered).getD i 0 = convolution a b i := by
  rw [poly_mul_recursive_eq a b out_len avx512 registered room, List.getD_eq_getElem _ _ (by simpa using inside),
    List.getElem_map, List.getElem_range]

theorem single_empty (a b : List Gf64) (out_len i : ℕ) (avx512 registered : Bool)
    (empty : a.length = 0 ∨ b.length = 0 ∨ out_len = 0) :
    (gf64_addfft64_poly_mul_recursive_scratch a b out_len avx512 registered).getD i 0 = 0 := by
  rw [gf64_addfft64_poly_mul_recursive_scratch, if_pos empty, List.getD_eq_getElem?_getD, List.getElem?_replicate]
  split <;> rfl

theorem putWords_congr (size : ℕ) (words : ℕ → Gf64) (place : ℕ) {count : ℕ} {first second : ℕ → Gf64}
    (same : ∀ i < count, first i = second i) :
    putWords size words place count first = putWords size words place count second := by
  rw [putWords, putWords]
  split
  · rfl
  · congr 1
    funext i
    split
    · exact same _ (by omega)
    · rfl

/-! ## Batches -/

section
variable {size room : ℕ} (words shared : ℕ → Gf64) (outs : ℕ → ℕ) {K len_shared f len_f out_len : ℕ}

/-- Where a transform is needed, its length is not above the cap, and the scratch has room for some of them. -/
def Fits (room copies len_shared len_f out_len : ℕ) : Prop :=
  0 < len_shared → 0 < len_f → 0 < out_len → max (len_shared + len_f - 1) out_len ≤ GF64_HQC_MAX_LM_N ∧
    copies * productLength len_shared len_f out_len ≤ room

/-- With the transform of the common factor at hand, for any number of polynomials -/
theorem core_separate (avx512 avx512' registered registered' : Bool) (K f : ℕ)
    (fits : Fits room 4 len_shared len_f out_len) :
    gf64_addfft64_poly_mul_batch_shared_core avx512 registered size room words outs K shared len_shared f len_f
        out_len = separateCalls avx512' registered' size words outs K shared len_shared f len_f out_len := by
  rw [gf64_addfft64_poly_mul_batch_shared_core, separateCalls]
  split
  case isTrue none => rw [none]; rfl
  case isFalse =>
    split
    case isTrue empty =>
      congr 1
      funext words k
      refine putWords_congr _ _ _ fun i _ => ?_
      rw [single_empty _ _ _ _ _ _ (by rwa [wordList_length, wordList_length])]
    case isFalse more =>
      obtain ⟨below, enough⟩ := fits (by omega) (by omega) (by omega)
      obtain ⟨m, small, length, wide, out⟩ := productLength_le below
      dsimp only
      rw [if_neg (by omega)]
      congr 1
      funext words k
      refine putWords_congr _ _ _ fun i inside => ?_
      rw [if_pos (by omega), length, productWith_coeff small (by omega) (by omega) wide avx512 registered (by omega),
        single_getD _ _ _ _ (by rwa [wordList_length, wordList_length]) inside, convolution_eq,
        polynomialOf_wordList, polynomialOf_wordList]

/-- Two loops that write the same words, where each reads only what no earlier round wrote -/
theorem foldlM_putWords (first second : (ℕ → Gf64) → ℕ → ℕ → Gf64)
    (inside : ∀ k < K, outs k + out_len ≤ size)
    (same : ∀ k < K, ∀ memory : ℕ → Gf64,
      (∀ p, (∀ j < k, p < outs j ∨ outs j + out_len ≤ p) → memory p = words p) →
        ∀ i < out_len, first memory k i = second memory k i) :
    (List.range K).foldlM (fun words k => putWords size words (outs k) out_len (first words k)) words =
      (List.range K).foldlM (fun words k => putWords size words (outs k) out_len (second words k)) words := by
  have both : ∀ count ≤ K, ∃ memory,
      (List.range count).foldlM (fun words k => putWords size words (outs k) out_len (first words k)) words =
        some memory ∧
      (List.range count).foldlM (fun words k => putWords size words (outs k) out_len (second words k)) words =
        some memory ∧
      ∀ p, (∀ j < count, p < outs j ∨ outs j + out_len ≤ p) → memory p = words p := by
    intro count le
    induction count with
    | zero => exact ⟨words, rfl, rfl, fun _ _ => rfl⟩
    | succ count ih =>
      obtain ⟨memory, left, right, kept⟩ := ih (by omega)
      obtain ⟨next, put, -, others⟩ := putWords_put memory (first memory count) (inside count le)
      refine ⟨next, ?_, ?_, fun p outside => ?_⟩
      · rw [List.range_succ, List.foldlM_append, left]
        simp only [Option.bind_eq_bind, Option.bind_some, List.foldlM_cons, put, List.foldlM_nil]
        rfl
      · rw [List.range_succ, List.foldlM_append, right]
        simp only [Option.bind_eq_bind, Option.bind_some, List.foldlM_cons, List.foldlM_nil,
          ← putWords_congr size memory (outs count) (same count le memory kept), put]
        rfl
      · rw [others p (outside count (Nat.lt_succ_self count)),
          kept p fun j before => outside j (Nat.lt_succ_of_lt before)]
  obtain ⟨memory, left, right, -⟩ := both K (le_refl K)
  rw [left, right]

/-- In lanes, for as many polynomials as there are lanes -/
theorem interleaved_separate (avx512' registered registered' : Bool) (unset : ℕ → Gf64)
    (few : K ≤ GF64_HQC_BATCH_LANES) (fits : Fits room 32 len_shared len_f out_len)
    (inside : ∀ k < K, outs k + out_len ≤ size)
    (apart : ∀ j k, j < k → k < K → outs j + out_len ≤ f + k * len_f ∨ f + k * len_f + len_f ≤ outs j) :
    gf64_addfft64_poly_mul_batch_shared_interleaved_avx512 registered unset size room words outs K shared len_shared
        f len_f out_len = separateCalls avx512' registered' size words outs K shared len_shared f len_f out_len := by
  rw [gf64_addfft64_poly_mul_batch_shared_interleaved_avx512, separateCalls]
  split
  case isTrue none =>
    rcases none with rfl | rfl
    · rfl
    · -- nothing is put anywhere
      clear fits apart few
      induction K with
      | zero => rfl
      | succ K ih =>
        have before := ih fun k below => inside k (Nat.lt_succ_of_lt below)
        have last := inside K (Nat.lt_succ_self K)
        rw [List.range_succ, List.foldlM_append, ← before]
        simp only [Option.bind_eq_bind, Option.bind_some, List.foldlM_cons, List.foldlM_nil, putWords,
          if_neg (Nat.not_lt.mpr last)]
        refine congrArg some (funext fun p => ?_)
        rw [if_neg (by omega)]
  case isFalse =>
    split
    case isTrue empty =>
      refine foldlM_putWords words outs (fun _ _ _ => 0) _ inside fun k _ memory _ i _ => ?_
      rw [single_empty _ _ _ _ _ _ (by rw [wordList_length, wordList_length]; omega)]
    case isFalse more =>
      obtain ⟨below, enough⟩ := fits (by omega) (by omega) (by omega)
      obtain ⟨m, small, length, wide, out⟩ := productLength_le below
      have cap : 2 ^ m ≤ GF64_HQC_MAX_LM_N := Nat.pow_le_pow_right (by decide) small
      have lanes : 4 * GF64_HQC_BATCH_LANES = 32 := rfl
      dsimp only
      rw [lanes, if_neg (by omega), length]
      refine foldlM_putWords words outs (fun _ k i => _) _ inside fun k member memory kept i within => ?_
      have own : k < GF64_HQC_BATCH_LANES := member.trans_le few
      have original : wordList (view memory (f + k * len_f)) len_f = wordList (view words (f + k * len_f)) len_f := by
        refine List.map_congr_left fun i inner => kept _ fun j before => ?_
        have least := List.mem_range.mp inner
        have region := apart j k before member
        omega
      rw [if_pos (by omega), single_getD _ _ _ _ (by rwa [wordList_length, wordList_length]) within, original]
      refine (congrFun (inv_lanewise (2 ^ m) registered _ k own) i).trans ?_
      generalize start : transposed words _ K f len_f (min len_f (2 ^ m)) = pf
      refine inverse_product small (by omega) (by omega) wide registered (Lanes.lane GF64_HQC_BATCH_LANES pf k)
        (fun i lower => ?same) (fun i lower => ?product) (by omega)
      case product =>
        rw [multiplied_lane _ _ _ own, if_pos lower, replicated_lane _ _ _ own, if_pos lower]
        exact congrArg (· * _) (congrFun (fwd_lanewise (2 ^ m) registered _ k own) i)
      case same =>
        have group : i * GF64_HQC_BATCH_LANES + k < GF64_HQC_BATCH_LANES * 2 ^ m := by
          have next := Nat.mul_le_mul_left GF64_HQC_BATCH_LANES lower
          rw [Nat.mul_succ, Nat.mul_comm] at next
          omega
        rw [← start, transposed_lane _ _ few _ _ _ own, zeroPadded]
        refine if_congr (by omega) rfl ?_
        rw [Lanes.lane, if_pos group]

/-- The passes take the lanes only for as many polynomials as there are. -/
theorem fenger_separate (kernels : Kernels) (avx512' registered' : Bool) (unset : ℕ → Gf64) {scratch_words : ℕ}
    (available : scratch_words ≤ room) (fits : Fits room 4 len_shared len_f out_len)
    (inside : ∀ k < K, outs k + out_len ≤ size)
    (apart : ∀ j k, j < k → k < K → outs j + out_len ≤ f + k * len_f ∨ f + k * len_f + len_f ≤ outs j) :
    fenger_batch_shared_mul kernels unset size room words outs K shared len_shared f len_f out_len scratch_words =
      separateCalls avx512' registered' size words outs K shared len_shared f len_f out_len := by
  rw [fenger_batch_shared_mul]
  split
  · dsimp only
    split
    case isTrue lanes =>
      refine interleaved_separate words shared outs _ _ _ unset lanes.1 (fun one two three => ?_) inside apart
      exact ⟨(fits one two three).1, lanes.2.trans available⟩
    case isFalse => exact core_separate words shared outs _ _ _ _ K f fits
  · exact core_separate words shared outs _ _ _ _ K f fits

end

/-- The products of a pass in slabs, one behind the other. A slab may be that of its own polynomial,
which is read before. -/
theorem fenger_batch_shared_mul_eq (words shared : ℕ → Gf64) {place stride : ℕ} (K : ℕ)
    {size room len_shared : ℕ} (f : ℕ) {len_f out_len : ℕ} (narrow : out_len ≤ stride)
    (inside : place + K * stride ≤ size) (someShared : 0 < len_shared) (some_f : 0 < len_f)
    (someOut : 0 < out_len) (fits : max (len_shared + len_f - 1) out_len ≤ GF64_HQC_MAX_LM_N)
    (kernels : Kernels) (unset : ℕ → Gf64) {scratch_words : ℕ}
    (enough : 4 * productLength len_shared len_f out_len ≤ scratch_words)
    (available : scratch_words ≤ room)
    (later : ∀ k < K, place + k * stride ≤ f + k * len_f ∨ f + k * len_f + len_f ≤ place) :
    ∃ last, fenger_batch_shared_mul kernels unset size room words (fun k => place + k * stride) K shared
        len_shared f len_f out_len scratch_words = some last ∧
      Multiplied words place stride K shared len_shared f len_f out_len last := by
  rw [fenger_separate words shared _ kernels false false unset available
    (fun _ _ _ => ⟨fits, enough.trans available⟩)
    (fun k member => by have slab := Slabs.slab_le member stride; omega)
    (fun j k before member => by
      have slab := Slabs.slab_le before stride
      have own := later k member
      omega), separateCalls]
  refine Slabs.foldlM_slabs narrow K fun k member memory same => ?_
  have slab := Slabs.slab_le member stride
  obtain ⟨next, put, there, others⟩ := putWords_put memory (fun i =>
    (gf64_addfft64_poly_mul_recursive_scratch (wordList shared len_shared)
      (wordList (view memory (f + k * len_f)) len_f) out_len false false).getD i 0)
    (by omega : place + k * stride + out_len ≤ size)
  refine ⟨next, put, fun i within => ?_, others⟩
  have unchanged : firstTerms (view memory (f + k * len_f)) len_f =
      firstTerms (view words (f + k * len_f)) len_f :=
    firstTerms_congr fun i below => same _ (by have own := later k member; omega)
  rw [there i within, single_getD _ _ _ _ (by rwa [wordList_length, wordList_length]) within,
    convolution_eq, polynomialOf_wordList, polynomialOf_wordList, unchanged]

/-- For every length, the transforms on groups are the transform of each lane. For every number of polynomials, the
core and the passes leave what single calls leave, and so do the lanes for as many polynomials as there are lanes.
A polynomial must not be written over before it is read, other than by its own product. -/
theorem batches_separate (registered registered' avx512' : Bool) (unset words shared : ℕ → Gf64) (outs : ℕ → ℕ)
    (size room K len_shared f len_f out_len : ℕ) :
    (∀ arr n, ∀ k < GF64_HQC_BATCH_LANES,
      Lanes.lane GF64_HQC_BATCH_LANES (gf64_addfft64_fwd_batch_avx512 arr n registered) k =
          gf64_addfft64_fwd_recursive_scratch (Lanes.lane GF64_HQC_BATCH_LANES arr k) n true registered ∧
        Lanes.lane GF64_HQC_BATCH_LANES (gf64_addfft64_inv_batch_avx512 arr n registered) k =
          gf64_addfft64_inv_recursive_scratch (Lanes.lane GF64_HQC_BATCH_LANES arr k) n true registered) ∧
    (Fits room 4 len_shared len_f out_len → ∀ avx512,
      gf64_addfft64_poly_mul_batch_shared_core avx512 registered size room words outs K shared len_shared f len_f
          out_len = separateCalls avx512' registered' size words outs K shared len_shared f len_f out_len) ∧
    ((∀ k < K, outs k + out_len ≤ size) →
      (∀ j k, j < k → k < K → outs j + out_len ≤ f + k * len_f ∨ f + k * len_f + len_f ≤ outs j) →
      (K ≤ GF64_HQC_BATCH_LANES → Fits room 32 len_shared len_f out_len →
        gf64_addfft64_poly_mul_batch_shared_interleaved_avx512 registered unset size room words outs K shared
          len_shared f len_f out_len =
        separateCalls avx512' registered' size words outs K shared len_shared f len_f out_len) ∧
      (Fits room 4 len_shared len_f out_len → ∀ kernels, ∀ scratch_words ≤ room,
        fenger_batch_shared_mul kernels unset size room words outs K shared len_shared f len_f out_len scratch_words =
        separateCalls avx512' registered' size words outs K shared len_shared f len_f out_len)) := by
  refine ⟨fun arr n k inside => ⟨?_, ?_⟩, fun fits avx512 => ?_, fun inside apart => ⟨fun few fits => ?_,
    fun fits kernels scratch_words available => ?_⟩⟩
  · exact fwd_lanewise n registered arr k inside
  · exact inv_lanewise n registered arr k inside
  · exact core_separate words shared outs avx512 avx512' registered registered' K f fits
  · exact interleaved_separate words shared outs avx512' registered registered' unset few fits inside apart
  · exact fenger_separate words shared outs kernels avx512' registered' unset available fits inside apart

/-- Three polynomials in eight lanes -/
theorem three_in_lanes :
    gf64_addfft64_poly_mul_batch_shared_interleaved_avx512 false (fun _ => 0) 36 64 (fun p => if p = 4 then 1 else 0)
      (fun k => 18 + 2 * k) 3 (fun _ => 1) 1 0 2 2 =
    separateCalls true false 36 (fun p => if p = 4 then 1 else 0) (fun k => 18 + 2 * k) 3 (fun _ => 1) 1 0 2 2 :=
  ((batches_separate false false true (fun _ => 0) (fun p => if p = 4 then 1 else 0) (fun _ => 1)
    (fun k => 18 + 2 * k) 36 64 3 1 0 2 2).2.2 (fun k member => by omega) fun j k before member => by omega).1
    (by decide) fun _ _ _ => ⟨by decide, by decide +kernel⟩

/-- With nine polynomials, the last one comes in the way of the first: its word is put where the second word of the
first one is. -/
theorem nine_in_lanes :
    (gf64_addfft64_poly_mul_batch_shared_interleaved_avx512 false (fun _ => 0) 36 64
      (fun p => if p = 16 then 1 else 0) (fun k => 18 + 2 * k) 9 (fun _ => 1) 1 0 2 2).map (fun last => last 19) =
        some 1 ∧
      (separateCalls true false 36 (fun p => if p = 16 then 1 else 0) (fun k => 18 + 2 * k) 9 (fun _ => 1) 1 0 2
        2).map (fun last => last 19) = some 0 := by
  decide +kernel

end Interleaved

end Par3

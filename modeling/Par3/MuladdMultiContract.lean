import Par3.MuladdMulti
import Par3.PackedRoundTrip

/-!
# Every packed region is added once

Calls for whole groups and for the last group read the blocks of a region where they were packed. The
calls of both functions follow each other without a gap, and so both add the first regions, each once.
-/

namespace Par3

open MuladdMulti

namespace MuladdMulti

variable (args : MuladdMulti)

/-- The layout of a buffer that is one chunk. -/
def layout : PackedGeometry where
  sliceLen := args.len
  blockLen := args.blockLen
  inputPackSize := args.inputPackSize
  chunkLen := args.len
  interleaveSize := args.interleave
  hasChecksum := false

/-- Where a block of a region is packed. -/
def address (region block : ℕ) : ℕ :=
  args.src + args.blockLen * args.layout.slotInChunk region (args.len / args.blockLen) block

/-- What the functions assume of their arguments, and what their kernels can take. -/
structure Assumed : Prop where
  enough : args.regions ≤ args.inputPackSize
  interleave_pos : 0 < args.interleave
  grouped : args.interleave ∣ args.regionsPerCall
  perCall_pos : 0 < args.regionsPerCall
  perCall_small : args.regionsPerCall ≤ 18
  whole : args.blockLen ∣ args.len
  block_pos : 0 < args.blockLen

section Run

variable {Source Target : Type*} [AddCommMonoid Target] (product : ℕ → Source → Target)
  (packed : ℕ → Source)

/-- The calls, one after the other. -/
def run (calls : List BlkmacCall) (dst : ℕ → Target) : ℕ → Target :=
  calls.foldl (blkmac product packed args.len args.blockLen) dst

/-- The calls add the regions from one to another. -/
def Adds (calls : List BlkmacCall) (first last : ℕ) : Prop :=
  first ≤ last ∧ ∀ dst, args.run product packed calls dst = fun block =>
    if block < args.len / args.blockLen then
      dst block + ∑ region ∈ Finset.Ico first last, product region (packed (args.address region block))
    else dst block

variable {args product packed}

theorem Adds.nil (region : ℕ) : args.Adds product packed [] region region := by
  refine ⟨le_rfl, fun dst => ?_⟩
  funext block
  rw [Finset.Ico_self, Finset.sum_empty, add_zero, ite_self]
  rfl

theorem Adds.append {calls more : List BlkmacCall} {first middle last : ℕ}
    (one : args.Adds product packed calls first middle)
    (other : args.Adds product packed more middle last) :
    args.Adds product packed (calls ++ more) first last := by
  refine ⟨one.1.trans other.1, fun dst => ?_⟩
  rw [run, List.foldl_append, ← run, ← run, other.2, one.2]
  funext block
  dsimp only
  by_cases inside : block < args.len / args.blockLen
  · rw [if_pos inside, if_pos inside, if_pos inside, add_assoc,
      Finset.sum_Ico_consecutive _ one.1 other.1]
  · rw [if_neg inside, if_neg inside, if_neg inside]

/-- One call, whose addresses are those of the regions. -/
theorem Adds.single (call : BlkmacCall) {region : ℕ} (start : call.coefficients = region)
    (places : ∀ n < call.srcCount, ∀ block < args.len / args.blockLen,
      call.srcs.getD n 0 - (args.len - block * args.blockLen) * call.srcScale =
        args.address (region + n) block) :
    args.Adds product packed [call] region (region + call.srcCount) := by
  refine ⟨Nat.le_add_right _ _, fun dst => ?_⟩
  funext block
  rw [run, List.foldl_cons, List.foldl_nil, blkmac]
  by_cases inside : block < args.len / args.blockLen
  · rw [if_pos inside, if_pos inside, Finset.sum_Ico_eq_sum_range, Nat.add_sub_cancel_left, start]
    generalize dst block = value
    have loop (count : ℕ) (few : count ≤ call.srcCount) :
        (List.range count).foldl (fun data n => data + product (region + n)
          (packed (call.srcs.getD n 0 - (args.len - block * args.blockLen) * call.srcScale))) value =
            value + ∑ n ∈ Finset.range count, product (region + n)
              (packed (args.address (region + n) block)) := by
      induction count with
      | zero => rw [List.range_zero, List.foldl_nil, Finset.sum_range_zero, add_zero]
      | succ count ih =>
        rw [List.range_succ, List.foldl_append, List.foldl_cons, List.foldl_nil,
          ih (by omega), Finset.sum_range_succ, places count few block inside, add_assoc]
    exact loop _ le_rfl
  · rw [if_neg inside, if_neg inside]

/-! ## Addresses -/

section Addresses

variable (product packed)

variable (assumed : args.Assumed) {region count : ℕ} (aligned : args.interleave ∣ region)

include assumed aligned

/-- Whole groups are read where they were packed. -/
theorem interleaved_adds (groups : args.interleave ∣ count) (few : count ≤ 18)
    (inside : region + count ≤ args.inputPackSize) (doPrefetch pf : ℕ) :
    args.Adds product packed [args.interleavedCall count region doPrefetch pf] region (region + count) := by
  refine Adds.single (args.interleavedCall count region doPrefetch pf) rfl ?_
  intro n below block room
  change n < count at below
  obtain ⟨groupsBefore, rfl⟩ := aligned
  obtain ⟨groupsHere, rfl⟩ := groups
  obtain ⟨blocks, length⟩ := assumed.whole
  have pos := assumed.interleave_pos
  have short := Nat.mod_lt n pos
  have full : ¬ args.inputPackSize - args.inputPackSize % args.interleave ≤
      args.interleave * groupsBefore + n := by
    have bound : args.interleave * (groupsBefore + groupsHere) ≤ args.inputPackSize := by
      rw [Nat.mul_add]
      exact inside
    have fits : groupsBefore + groupsHere ≤ args.inputPackSize / args.interleave := by
      rw [Nat.le_div_iff_mul_le pos, Nat.mul_comm]
      exact bound
    have whole := Nat.div_add_mod args.inputPackSize args.interleave
    have more := Nat.mul_le_mul_left args.interleave fits
    rw [Nat.mul_add] at more
    omega
  have entry : (args.interleavedCall (args.interleave * groupsHere) (args.interleave * groupsBefore)
      doPrefetch pf).srcs.getD n 0 = args.src + args.interleave * groupsBefore * args.len +
        args.len * args.interleave + args.len * args.interleave * (n / args.interleave) +
          args.blockLen * (n % args.interleave) := by
    have listed : n < 18 := by omega
    rw [interleavedCall, INTERLEAVE_INPUTS, List.getD_eq_getElem?_getD, List.getElem?_map,
      List.getElem?_range listed]
    rfl
  have group : (args.interleave * groupsBefore + n) / args.interleave =
      groupsBefore + n / args.interleave := Nat.mul_add_div pos _ _
  have column : (args.interleave * groupsBefore + n) % args.interleave = n % args.interleave :=
    Nat.mul_add_mod _ _ _
  have number : args.len / args.blockLen = blocks := by
    rw [length, Nat.mul_div_cancel_left _ assumed.block_pos]
  have behind : (args.len - block * args.blockLen) * args.interleave +
      block * args.blockLen * args.interleave = args.len * args.interleave := by
    rw [← Nat.add_mul, Nat.sub_add_cancel]
    rw [length, Nat.mul_comm block]
    exact Nat.mul_le_mul_left _ (by omega)
  have width : args.layout.interleaveBy (args.interleave * groupsBefore + n) = args.interleave :=
    if_neg full
  rw [entry, address, PackedGeometry.slotInChunk, width]
  dsimp only [layout, interleavedCall]
  rw [group, column, number]
  have total : args.src + args.interleave * groupsBefore * args.len + args.len * args.interleave +
      args.len * args.interleave * (n / args.interleave) + args.blockLen * (n % args.interleave) =
        args.src + args.blockLen * ((groupsBefore + n / args.interleave) * blocks * args.interleave +
          n % args.interleave + block * args.interleave) +
            (args.len - block * args.blockLen) * args.interleave := by
    have groupsPart : args.blockLen * ((groupsBefore + n / args.interleave) * blocks * args.interleave) =
        args.interleave * groupsBefore * args.len + args.len * args.interleave * (n / args.interleave) := by
      rw [length]
      ring
    have blockPart : args.blockLen * (block * args.interleave) = block * args.blockLen * args.interleave := by
      ring
    rw [Nat.mul_add, Nat.mul_add]
    omega
  rw [total, Nat.add_sub_cancel]

/-- The regions of the last group are read where they were packed. -/
theorem consecutive_adds (few : count < args.interleave) (listed : count ≤ 18)
    (inside : region + count ≤ args.inputPackSize) (doPrefetch pf : ℕ) :
    args.Adds product packed [args.consecutiveCall count region doPrefetch pf] region (region + count) := by
  refine Adds.single (args.consecutiveCall count region doPrefetch pf) rfl ?_
  intro n below block room
  change n < count at below
  obtain ⟨groupsBefore, rfl⟩ := aligned
  obtain ⟨blocks, length⟩ := assumed.whole
  have pos := assumed.interleave_pos
  have short : n < args.interleave := below.trans few
  have entry : (args.consecutiveCall count (args.interleave * groupsBefore) doPrefetch pf).srcs.getD n 0 =
      args.src + args.interleave * groupsBefore * args.len +
        args.len * args.lastInterleave (args.interleave * groupsBefore) + args.blockLen * n := by
    have listed : n < 18 := by omega
    rw [consecutiveCall, CONSECUTIVE_INPUTS, List.getD_eq_getElem?_getD, List.getElem?_map,
      List.getElem?_range listed]
    rfl
  -- the last group is as wide as what is left of the inputs
  have width : args.layout.interleaveBy (args.interleave * groupsBefore + n) =
      args.lastInterleave (args.interleave * groupsBefore) := by
    have whole := Nat.div_add_mod args.inputPackSize args.interleave
    have rest := Nat.mod_lt args.inputPackSize pos
    rw [lastInterleave]
    obtain early | late := Nat.lt_or_ge groupsBefore (args.inputPackSize / args.interleave)
    · have next := Nat.mul_le_mul_left args.interleave early
      rw [Nat.mul_succ] at next
      have before : ¬ args.inputPackSize - args.inputPackSize % args.interleave ≤
          args.interleave * groupsBefore + n := by
        omega
      refine (if_neg before).trans ?_
      dsimp only [layout]
      split
      case isTrue => rfl
      case isFalse notMore => omega
    · have same := Nat.mul_le_mul_left args.interleave late
      have behind : args.inputPackSize - args.inputPackSize % args.interleave ≤
          args.interleave * groupsBefore + n := by
        omega
      refine (if_pos behind).trans ?_
      dsimp only [layout]
      split
      case isTrue => omega
      case isFalse =>
        have reach : groupsBefore ≤ args.inputPackSize / args.interleave := by
          rw [Nat.le_div_iff_mul_le pos, Nat.mul_comm]
          omega
        have equal := Nat.mul_le_mul_left args.interleave reach
        omega
  have group : (args.interleave * groupsBefore + n) / args.interleave = groupsBefore := by
    rw [Nat.mul_add_div pos, Nat.div_eq_of_lt short, Nat.add_zero]
  have column : (args.interleave * groupsBefore + n) % args.interleave = n := by
    rw [Nat.mul_add_mod, Nat.mod_eq_of_lt short]
  have number : args.len / args.blockLen = blocks := by
    rw [length, Nat.mul_div_cancel_left _ assumed.block_pos]
  have behind (scale : ℕ) : (args.len - block * args.blockLen) * scale +
      block * args.blockLen * scale = args.len * scale := by
    rw [← Nat.add_mul, Nat.sub_add_cancel]
    rw [length, Nat.mul_comm block]
    exact Nat.mul_le_mul_left _ (by omega)
  rw [entry, address, PackedGeometry.slotInChunk, width]
  dsimp only [layout, consecutiveCall]
  rw [group, column, number]
  generalize args.lastInterleave (args.interleave * groupsBefore) = scale
  have total : args.src + args.interleave * groupsBefore * args.len + args.len * scale +
      args.blockLen * n = args.src + args.blockLen * (groupsBefore * blocks * args.interleave + n +
        block * scale) + (args.len - block * args.blockLen) * scale := by
    have groupsPart : args.blockLen * (groupsBefore * blocks * args.interleave) =
        args.interleave * groupsBefore * args.len := by
      rw [length]
      ring
    have blockPart : args.blockLen * (block * scale) = block * args.blockLen * scale := by
      ring
    have rest := behind scale
    rw [Nat.mul_add, Nat.mul_add]
    omega
  rw [total, Nat.add_sub_cancel]

end Addresses

/-! ## Dispatch -/

section Dispatch

/-- The cases cover every number of regions that is left. -/
theorem REMAINING_CASES_adds {call : BlkmacCall} {count region : ℕ} (listed : count ≤ 17)
    (adds : count ≠ 0 → args.Adds product packed [call] region (region + count)) :
    args.Adds product packed (REMAINING_CASES count call) region (region + count) := by
  rw [REMAINING_CASES]
  split
  case isTrue some => exact adds (by omega)
  case isFalse none =>
    obtain rfl : count = 0 := by omega
    exact Adds.nil region

variable (product packed) (assumed : args.Assumed)

include assumed

theorem perCall_le : args.interleave ≤ args.regionsPerCall :=
  Nat.le_of_dvd assumed.perCall_pos assumed.grouped

/-- Full calls stop when too few regions are left. -/
theorem fullCalls_adds (doPrefetch pfLen fuel region pf : ℕ) (aligned : args.interleave ∣ region)
    (before : region ≤ args.regions) (enough : args.regions - region ≤ fuel) :
    let (calls, last) := args.fullCalls doPrefetch pfLen fuel region pf
    args.Adds product packed calls region last ∧ args.interleave ∣ last ∧ last ≤ args.regions ∧
      args.regions - last < args.regionsPerCall := by
  have pos := assumed.perCall_pos
  induction fuel generalizing region pf with
  | zero => exact ⟨Adds.nil region, aligned, before, by omega⟩
  | succ fuel ih =>
    by_cases more : args.regionsPerCall ≤ args.regions - region
    · rw [fullCalls, if_pos more]
      obtain ⟨rest, aligned', before', few⟩ := ih (region + args.regionsPerCall)
        (pf + pfLen) (Nat.dvd_add aligned assumed.grouped) (by omega) (by omega)
      have call := interleaved_adds product packed assumed aligned
        assumed.grouped assumed.perCall_small (by have := assumed.enough; omega) doPrefetch pf
      exact ⟨call.append rest, aligned', before', few⟩
    · rw [fullCalls, if_neg more]
      exact ⟨Adds.nil region, aligned, before, by omega⟩

/-- A shortened call for the groups that are left. -/
theorem shortCall_adds {region : ℕ} (aligned : args.interleave ∣ region) (before : region ≤ args.regions)
    (few : args.regions - region < args.regionsPerCall) (doPrefetch pf : ℕ) :
    let count := args.regions - region - (args.regions - region) % args.interleave
    args.Adds product packed (REMAINING_CASES count (args.interleavedCall count region doPrefetch pf))
      region (region + count) ∧ args.interleave ∣ region + count ∧
        args.regions - (region + count) = (args.regions - region) % args.interleave ∧
          region + count ≤ args.regions := by
  intro count
  have small := assumed.perCall_small
  have enough := assumed.enough
  have rest := Nat.mod_le (args.regions - region) args.interleave
  have groups : args.interleave ∣ count := Nat.dvd_sub_mod _
  refine ⟨REMAINING_CASES_adds (by omega) fun _ => ?_, Nat.dvd_add aligned groups, by omega, by omega⟩
  exact interleaved_adds product packed assumed aligned groups (by omega) (by omega) doPrefetch pf

/-- A call for the last group. -/
theorem lastCall_adds {region : ℕ} (aligned : args.interleave ∣ region) (before : region ≤ args.regions)
    (few : args.regions - region < args.interleave) (doPrefetch pf : ℕ) :
    args.Adds product packed (REMAINING_CASES (args.regions - region)
      (args.consecutiveCall (args.regions - region) region doPrefetch pf)) region args.regions := by
  have small := assumed.perCall_small
  have enough := assumed.enough
  have wide := perCall_le assumed
  have reach : region + (args.regions - region) = args.regions := Nat.add_sub_cancel' before
  have adds := @REMAINING_CASES_adds args _ _ _ product packed _ _ region (by omega) fun _ =>
    consecutive_adds product packed assumed aligned few (by omega) (by omega) doPrefetch pf
  rwa [reach] at adds

theorem remainingCalls_adds {region : ℕ} (aligned : args.interleave ∣ region)
    (before : region ≤ args.regions) (few : args.regions - region < args.regionsPerCall) :
    args.Adds product packed (args.remainingCalls region) region args.regions := by
  have wide := perCall_le assumed
  rw [remainingCalls]
  split
  case isTrue groups =>
    obtain ⟨call, aligned', left, before'⟩ := shortCall_adds product packed
      assumed aligned before few 0 0
    have last := lastCall_adds product packed assumed aligned' before'
      (by rw [left]; exact Nat.mod_lt _ assumed.interleave_pos) 0 0
    rw [left] at last
    exact call.append last
  case isFalse none =>
    have single : args.regions - region < args.interleave := by
      by_cases same : args.regionsPerCall = args.interleave
      · omega
      · omega
    exact lastCall_adds product packed assumed aligned before single 0 0

theorem gf16_muladd_multi_packed_adds :
    args.Adds product packed args.gf16_muladd_multi_packed 0 args.regions := by
  rw [gf16_muladd_multi_packed]
  split
  case _ calls region chosen =>
  split at chosen
  case isTrue enough =>
    have full := fullCalls_adds product packed assumed 0 0 args.regions 0 0
      (Nat.dvd_zero _) (Nat.zero_le _) (Nat.sub_le _ _)
    rw [chosen] at full
    obtain ⟨adds, aligned, before, few⟩ := full
    exact adds.append (remainingCalls_adds product packed assumed aligned before few)
  case isFalse few =>
    obtain ⟨rfl, rfl⟩ := Prod.mk.inj chosen
    exact remainingCalls_adds product packed assumed (Nat.dvd_zero _) (Nat.zero_le _) (by omega)

/-! ### Prefetching -/

/-- Rounds that fetch the next output end when too few regions are left, or when no round is. -/
theorem prefetchCalls_adds (pfLen fuel region pf outputPfRounds : ℕ) (aligned : args.interleave ∣ region)
    (full : args.regionsPerCall ≤ args.regions - region) (enough : args.regions - region ≤ fuel) :
    let (calls, last, _, rounds) := args.prefetchCalls pfLen fuel region pf outputPfRounds
    args.Adds product packed calls region last ∧ args.interleave ∣ last ∧ last ≤ args.regions ∧
      (args.regions - last < args.regionsPerCall ∨ rounds = 2 ^ 32 - 1) := by
  have pos := assumed.perCall_pos
  induction fuel generalizing region pf outputPfRounds with
  | zero => omega
  | succ fuel ih =>
    by_cases none : outputPfRounds = 0
    · rw [prefetchCalls, if_pos none]
      exact ⟨Adds.nil region, aligned, by omega, Or.inr rfl⟩
    · rw [prefetchCalls, if_neg none]
      have call := interleaved_adds product packed assumed aligned
        assumed.grouped assumed.perCall_small (by have := assumed.enough; omega) 1 pf
      have aligned' := Nat.dvd_add aligned assumed.grouped
      by_cases few : args.regionsPerCall > args.regions - (region + args.regionsPerCall)
      · rw [if_pos few]
        exact ⟨call, aligned', by omega, Or.inl few⟩
      · rw [if_neg few]
        obtain ⟨rest, aligned'', before, ends⟩ := ih (region + args.regionsPerCall)
          (if outputPfRounds - 1 ≠ 0 then pf + pfLen else 0) (outputPfRounds - 1) aligned' (by omega)
          (by omega)
        exact ⟨call.append rest, aligned'', before, ends⟩

theorem behindPrefetch_adds (pfLen prefetchIn : ℕ) {region : ℕ} (aligned : args.interleave ∣ region)
    (before : region ≤ args.regions) :
    args.Adds product packed (args.behindPrefetch pfLen prefetchIn region) region args.regions := by
  have full (doPrefetch pfLen pf : ℕ) := fullCalls_adds product packed assumed
    doPrefetch pfLen args.regions region pf aligned before (Nat.sub_le _ _)
  rw [behindPrefetch]
  split
  case _ calls last chosen =>
  split at chosen
  case isTrue given =>
    have given := full 2 pfLen (prefetchIn + pfLen)
    rw [chosen] at given
    obtain ⟨adds, aligned', before', few⟩ := given
    exact adds.append (remainingCalls_adds product packed assumed aligned' before' few)
  case isFalse none =>
    have none := full 0 0 0
    rw [chosen] at none
    obtain ⟨adds, aligned', before', few⟩ := none
    exact adds.append (remainingCalls_adds product packed assumed aligned' before' few)

theorem gf16_muladd_multi_packpf_adds (pfFactor prefetchIn prefetchOut : ℕ) :
    args.Adds product packed (args.gf16_muladd_multi_packpf pfFactor prefetchIn prefetchOut) 0
      args.regions := by
  have wide := perCall_le assumed
  set first := if args.regions ≥ args.regionsPerCall then
      args.prefetchCalls (args.len >>> pfFactor) (args.regions + 1) 0 (prefetchOut + args.len >>> pfFactor)
        (1 <<< pfFactor)
    else ([], 0, prefetchOut + args.len >>> pfFactor, 1 <<< pfFactor) with chosen
  have rounds : args.Adds product packed first.1 0 first.2.1 ∧ args.interleave ∣ first.2.1 ∧
      first.2.1 ≤ args.regions := by
    rw [chosen]
    split
    case isTrue enough =>
      obtain ⟨adds, aligned, before, _⟩ := prefetchCalls_adds product packed
        assumed (args.len >>> pfFactor) (args.regions + 1) 0 (prefetchOut + args.len >>> pfFactor)
        (1 <<< pfFactor) (Nat.dvd_zero _) (by omega) (by omega)
      exact ⟨adds, aligned, before⟩
    case isFalse few => exact ⟨Adds.nil 0, Nat.dvd_zero _, Nat.zero_le _⟩
  rw [gf16_muladd_multi_packpf]
  dsimp only
  rw [← chosen]
  clear_value first
  obtain ⟨calls, region, pf, outputPfRounds⟩ := first
  obtain ⟨adds, aligned, before⟩ := rounds
  dsimp only at adds aligned before ⊢
  split
  case isFalse none => exact adds.append (behindPrefetch_adds product packed assumed _ _ aligned before)
  case isTrue left =>
    have few := left.2
    by_cases groups : args.regionsPerCall > args.interleave ∧ args.regions - region ≥ args.interleave
    · obtain ⟨call, aligned', rest, before'⟩ := shortCall_adds product packed
        assumed aligned before few 1 pf
      rw [if_pos groups]
      dsimp only
      generalize (if outputPfRounds - 1 ≠ 0 then pf + args.len >>> pfFactor else 0) = pf
      split
      case isTrue =>
        have last := lastCall_adds product packed assumed aligned' before'
          (by rw [rest]; exact Nat.mod_lt _ assumed.interleave_pos) 1 pf
        rw [rest] at last
        exact (adds.append call).append last
      case isFalse => exact (adds.append call).append (behindPrefetch_adds product packed assumed _ _ aligned' before')
    · have single : args.regions - region < args.interleave := by
        by_cases same : args.regionsPerCall = args.interleave
        · omega
        · omega
      rw [if_neg groups]
      dsimp only
      rw [if_pos left.1, List.append_nil]
      exact adds.append (lastCall_adds product packed assumed aligned before single 1 pf)

end Dispatch

end Run

/-! ## Packed inputs -/

section Packing

variable {geom : PackedGeometry} (transform : BlockTransform) (check : ChecksumTransform)

/-- The buffer after inputs were packed, one after the other. -/
def packedInputs (geom : PackedGeometry) (inputs checksums : ℕ → Buffer) (order : List ℕ)
    (dst : PackedBuffer) : PackedBuffer :=
  order.foldl (fun dst inputNum => (geom.gf16_prepare_packed transform check (inputs inputNum)
    inputNum dst 0 (inputs inputNum).length (checksums inputNum)).1) dst

/-- The dispatch is over a chunk of a packed buffer. -/
structure Covers (geom : PackedGeometry) (chunk : ℕ) : Prop where
  interleave_eq : args.interleave = geom.interleaveSize
  inputPackSize_eq : args.inputPackSize = geom.inputPackSize
  src_eq : args.src = geom.chunkStride * chunk
  len_eq : args.len = geom.blockLen * geom.blocksIn chunk
  blockLen_eq : args.blockLen = geom.blockLen

variable {args transform check}

/-- A region is read where the block of the input has its slot. -/
theorem Covers.address_eq {chunk : ℕ} (covers : args.Covers geom chunk) (blocked : geom.Blocked)
    (region : ℕ) {block : ℕ} (room : block < geom.blocksIn chunk) :
    args.address region block = geom.slot region (chunk * geom.chunkBlocks + block) := by
  have pos := PackedGeometry.chunkBlocks_pos blocked
  have short : block < geom.chunkBlocks := by
    rw [PackedGeometry.blocksIn] at room
    split at room
    case isTrue => exact room
    case isFalse => exact room.trans (Nat.mod_lt _ pos)
  have number : (chunk * geom.chunkBlocks + block) / geom.chunkBlocks = chunk := by
    rw [Nat.mul_comm, Nat.mul_add_div pos, Nat.div_eq_of_lt short, Nat.add_zero]
  have inside : (chunk * geom.chunkBlocks + block) % geom.chunkBlocks = block := by
    rw [Nat.mul_comm, Nat.mul_add_mod, Nat.mod_eq_of_lt short]
  have blocks : args.len / args.blockLen = geom.blocksIn chunk := by
    rw [covers.len_eq, covers.blockLen_eq, Nat.mul_div_cancel_left _ blocked.block_pos]
  have interleaved : args.layout.slotInChunk region = geom.slotInChunk region := by
    funext chunkBlocks block
    rw [PackedGeometry.slotInChunk, PackedGeometry.slotInChunk, PackedGeometry.interleaveBy,
      PackedGeometry.interleaveBy]
    change region / args.interleave * chunkBlocks * args.interleave + region % args.interleave +
      block * (if args.inputPackSize - args.inputPackSize % args.interleave ≤ region then
        args.inputPackSize % args.interleave else args.interleave) = _
    rw [covers.interleave_eq, covers.inputPackSize_eq]
  rw [address, interleaved, blocks, covers.src_eq, covers.blockLen_eq, PackedGeometry.slot,
    PackedGeometry.slotNumber, number, inside, PackedGeometry.chunkStride,
    ← PackedGeometry.chunkBlocks_mul blocked]
  ring

/-- Packing another input leaves the blocks of an input as they are, and packing an input writes them. -/
theorem prepared_block (valid : geom.Valid) {src : Buffer} (fits : src.length ≤ geom.sliceLen)
    {region inputNum block : ℕ} (input : region < geom.inputPackSize)
    (other : inputNum < geom.inputPackSize) (inside : block < geom.sliceBlocks)
    (dst : PackedBuffer) (checksum : Buffer) :
    (geom.gf16_prepare_packed transform check src inputNum dst 0 src.length checksum).1
        (geom.slot region block) =
      if region = inputNum then geom.packedBlock transform src block
      else dst (geom.slot region block) := by
  have blocks := PackedGeometry.inputBlocks_eq valid.blocked
  have prepared := PackedGeometry.prepare_rest transform check src inputNum valid fits dst 0 src.length
    (by rw [Nat.mul_zero, Nat.zero_add]) checksum
  rw [Nat.mul_zero] at prepared
  have written : geom.writeBlocks transform src inputNum 0 geom.sliceBlocks dst
      (geom.slot region block) = if region = inputNum then geom.packedBlock transform src block
        else dst (geom.slot region block) := by
    split
    case isTrue own =>
      rw [own] at input ⊢
      exact PackedGeometry.writeBlocks_slot transform valid src input (Nat.zero_le block) inside
        (by omega) dst
    case isFalse apart =>
      refine PackedGeometry.writeBlocks_other transform src inputNum (fun written _ early same => ?_) dst
      exact apart (PackedGeometry.slot_injective valid.blocked input other (by omega) (by omega) same).1
  rw [prepared]
  dsimp only
  split
  case isTrue kept =>
    rw [Function.update_of_ne, written]
    rw [PackedGeometry.gf16_checksum_ptr_eq valid kept]
    intro same
    rw [kept, if_pos rfl] at blocks
    have meet := PackedGeometry.slot_injective valid.blocked input other (by omega) (by omega) same
    omega
  case isFalse => exact written

theorem packedInputs_block (valid : geom.Valid) {inputs : ℕ → Buffer}
    (fits : ∀ input, (inputs input).length ≤ geom.sliceLen) (checksums : ℕ → Buffer)
    {order : List ℕ} (known : ∀ input ∈ order, input < geom.inputPackSize) {region block : ℕ}
    (packed : region ∈ order) (inside : block < geom.sliceBlocks) (dst : PackedBuffer) :
    packedInputs transform check geom inputs checksums order dst (geom.slot region block) =
      geom.packedBlock transform (inputs region) block := by
  rw [packedInputs]
  induction order using List.reverseRecOn with
  | nil => exact absurd packed List.not_mem_nil
  | append_singleton order last ih =>
    rw [List.foldl_append, List.foldl_cons, List.foldl_nil,
      prepared_block valid (fits last) (known region packed) (known last (by simp)) inside]
    split
    case isTrue own => rw [own]
    case isFalse apart =>
      refine ih (fun input earlier => known input (by simp [earlier])) ?_
      simpa [apart] using packed

end Packing

/-! ## Every region once -/

/-- Both functions add the products of the first regions, each once. Over a chunk of a packed buffer, the
blocks they read are those that were packed for the inputs. -/
theorem packed_regions_added {Target : Type*} [AddCommMonoid Target] {args : MuladdMulti}
    (assumed : args.Assumed) (product : ℕ → Buffer → Target) (packed : PackedBuffer) (dst : ℕ → Target) :
    (args.run product packed args.gf16_muladd_multi_packed dst = fun block =>
      if block < args.len / args.blockLen then
        dst block + ∑ region ∈ Finset.range args.regions, product region (packed (args.address region block))
      else dst block) ∧
    (∀ pfFactor prefetchIn prefetchOut,
      args.run product packed (args.gf16_muladd_multi_packpf pfFactor prefetchIn prefetchOut) dst =
        args.run product packed args.gf16_muladd_multi_packed dst) ∧
    ∀ (geom : PackedGeometry) (chunk : ℕ), geom.Valid → args.Covers geom chunk →
      (∀ region block, block < geom.blocksIn chunk →
        args.address region block = geom.slot region (chunk * geom.chunkBlocks + block)) ∧
      ∀ (transform : BlockTransform) (check : ChecksumTransform) (inputs checksums : ℕ → Buffer)
        (order : List ℕ) (before : PackedBuffer), (∀ input, (inputs input).length ≤ geom.sliceLen) →
        (∀ input ∈ order, input < geom.inputPackSize) →
        packed = packedInputs transform check geom inputs checksums order before →
        ∀ region ∈ order, ∀ block < geom.blocksIn chunk,
          chunk * geom.chunkBlocks + block < geom.sliceBlocks →
          packed (args.address region block) = geom.packedBlock transform (inputs region)
            (chunk * geom.chunkBlocks + block) := by
  have plain := (gf16_muladd_multi_packed_adds product packed assumed).2 dst
  rw [← Finset.range_eq_Ico] at plain
  refine ⟨plain, fun pfFactor prefetchIn prefetchOut => ?_, fun geom chunk valid covers => ⟨?_, ?_⟩⟩
  · have fetching := (gf16_muladd_multi_packpf_adds product packed assumed
      pfFactor prefetchIn prefetchOut).2 dst
    rw [← Finset.range_eq_Ico] at fetching
    exact fetching.trans plain.symm
  · intro region block room
    exact covers.address_eq valid.blocked region room
  · intro transform check inputs checksums order before fits known whole region listed block room inside
    rw [covers.address_eq valid.blocked region room, whole]
    exact packedInputs_block valid fits checksums known listed inside _

/-- Seventeen inputs of two blocks each, interleaved by three. -/
def seventeenInputs : PackedGeometry := ⟨16, gf16_lookup_stride, 17, 16, 3, false⟩

/-- The first sixteen of them, twelve in a call. -/
def sixteenRegions : MuladdMulti := ⟨3, 12, 17, 16, 0, 16, gf16_lookup_stride⟩

theorem sixteenRegions_added :
    (∀ pfFactor prefetchIn prefetchOut,
      sixteenRegions.run (fun region block => (region + 1) * (block.headD 0).toNat)
          (packedInputs lookupTransform noChecksum seventeenInputs (fun input => [UInt8.ofNat input]) (fun _ => [])
            (List.range 17) fun _ => [])
          (sixteenRegions.gf16_muladd_multi_packpf pfFactor prefetchIn prefetchOut) (fun _ => 5) 0 =
        5 + ∑ region ∈ Finset.range 16, (region + 1) * region) ∧
      (sixteenRegions.gf16_muladd_multi_packed.map BlkmacCall.srcCount) = [12, 3, 1] := by
  have valid : seventeenInputs.Valid :=
    { chunk_fits := by decide, chunk_aligned := by decide, slice_aligned := by decide,
      block_pos := by decide, interleave_pos := by decide, chunk_pos := by decide, slice_pos := by decide,
      slice_small := by decide, chunks_small := by decide }
  have assumed : sixteenRegions.Assumed :=
    { enough := by decide, interleave_pos := by decide, grouped := by decide, perCall_pos := by decide,
      perCall_small := by decide, whole := by decide, block_pos := by decide }
  obtain ⟨plain, same, chunked⟩ := packed_regions_added assumed
    (fun region block => (region + 1) * (block.headD 0).toNat)
    (packedInputs lookupTransform noChecksum seventeenInputs (fun input => [UInt8.ofNat input]) (fun _ => [])
      (List.range 17) fun _ => []) fun _ => 5
  have covers : sixteenRegions.Covers seventeenInputs 0 :=
    { interleave_eq := rfl, inputPackSize_eq := rfl, src_eq := rfl, len_eq := by decide,
      blockLen_eq := rfl }
  have written := (chunked seventeenInputs 0 valid covers).2 lookupTransform noChecksum
    (fun input => [UInt8.ofNat input]) (fun _ => []) (List.range 17) (fun _ => [])
    (fun input => by rw [List.length_singleton]; decide) (fun input listed => List.mem_range.mp listed) rfl
  refine ⟨fun pfFactor prefetchIn prefetchOut => ?_, by decide⟩
  rw [same, plain]
  dsimp only
  rw [if_pos (by decide)]
  refine congrArg (5 + ·) (Finset.sum_congr rfl fun region listed => ?_)
  have small := Finset.mem_range.mp listed
  have sixteen : sixteenRegions.regions = 16 := rfl
  have block := written region (List.mem_range.mpr (by omega)) 0 (by decide) (by decide)
  rw [block]
  change (region + 1) * (UInt8.ofNat region).toNat = (region + 1) * region
  rw [UInt8.toNat_ofNat', Nat.mod_eq_of_lt (by omega)]

end MuladdMulti

end Par3

import Mathlib.Algebra.BigOperators.Intervals
import Par3.PackedLayout

/-!
# Dispatching packed regions to kernels

A kernel takes up to eighteen regions at once. Packed regions are interleaved in groups, so that calls
are made for whole groups first, then for the groups that are left, and then for the regions of a last
group, which may be interleaved less. A variant fetches parts of other buffers ahead, in as many rounds
as the prefetch factor gives.

A kernel adds what it makes of the blocks that it reads; how it multiplies a block is left to a parameter.
-/

namespace Par3

/-- A call of a kernel: how many regions, how far apart their blocks are, the ends of the regions, the
first coefficient, and what to fetch ahead. -/
structure BlkmacCall where
  srcCount : ℕ
  srcScale : ℕ
  srcs : List ℕ
  coefficients : ℕ
  doPrefetch : ℕ
  pf : ℕ

/-- The arguments of a dispatch. Pointers are addresses, and zero is none. -/
structure MuladdMulti where
  interleave : ℕ
  regionsPerCall : ℕ
  inputPackSize : ℕ
  regions : ℕ
  src : ℕ
  len : ℕ
  blockLen : ℕ

def INTERLEAVE_INPUTS (srcEnd len interleave blockLen : ℕ) : List ℕ :=
  (List.range 18).map fun n => srcEnd + len * interleave * (n / interleave) + blockLen * (n % interleave)

def CONSECUTIVE_INPUTS (srcEnd blockLen : ℕ) : List ℕ :=
  (List.range 18).map fun n => srcEnd + blockLen * n

/-! ## Kernels -/

section Kernel

variable {Source Target : Type*} [AddCommMonoid Target]

/-- What the loop of a kernel leaves: every block of the destination gets the products of the blocks
there. -/
def blkmac (product : ℕ → Source → Target) (packed : ℕ → Source) (len blockLen : ℕ) (dst : ℕ → Target)
    (call : BlkmacCall) : ℕ → Target := fun block =>
  if block < len / blockLen then
    (List.range call.srcCount).foldl (fun data n => data + product (call.coefficients + n)
      (packed (call.srcs.getD n 0 - (len - block * blockLen) * call.srcScale))) (dst block)
  else dst block

end Kernel

namespace MuladdMulti

variable (args : MuladdMulti)

/-! ## Calls -/

/-- A call for whole groups. -/
def interleavedCall (count region doPrefetch pf : ℕ) : BlkmacCall where
  srcCount := count
  srcScale := args.interleave
  srcs := INTERLEAVE_INPUTS (args.src + region * args.len + args.len * args.interleave) args.len
    args.interleave args.blockLen
  coefficients := region
  doPrefetch := doPrefetch
  pf := pf

def lastInterleave (region : ℕ) : ℕ :=
  if args.inputPackSize - region > args.interleave then args.interleave else args.inputPackSize - region

/-- A call for regions of one group. -/
def consecutiveCall (count region doPrefetch pf : ℕ) : BlkmacCall where
  srcCount := count
  srcScale := args.lastInterleave region
  srcs := CONSECUTIVE_INPUTS (args.src + region * args.len + args.len * args.lastInterleave region)
    args.blockLen
  coefficients := region
  doPrefetch := doPrefetch
  pf := pf

/-- `REMAINING_CASES` -/
def REMAINING_CASES (count : ℕ) (call : BlkmacCall) : List BlkmacCall :=
  if 1 ≤ count ∧ count ≤ 17 then [call] else []

/-- Full calls while enough regions are left, in at most so many rounds, and the region behind them. -/
def fullCalls (doPrefetch pfLen : ℕ) : ℕ → ℕ → ℕ → List BlkmacCall × ℕ
  | 0, region, _ => ([], region)
  | fuel + 1, region, pf =>
    if args.regionsPerCall ≤ args.regions - region then
      let (calls, last) := fullCalls doPrefetch pfLen fuel (region + args.regionsPerCall) (pf + pfLen)
      (args.interleavedCall args.regionsPerCall region doPrefetch pf :: calls, last)
    else ([], region)

/-- What both functions do with the regions that are too few for a full call. -/
def remainingCalls (region : ℕ) : List BlkmacCall :=
  let remaining := args.regions - region
  if args.regionsPerCall > args.interleave ∧ remaining ≥ args.interleave then
    let count := remaining - remaining % args.interleave
    let calls := REMAINING_CASES count (args.interleavedCall count region 0 0)
    let region := region + count
    let remaining := remaining % args.interleave
    calls ++ REMAINING_CASES remaining (args.consecutiveCall remaining region 0 0)
  else REMAINING_CASES remaining (args.consecutiveCall remaining region 0 0)

def gf16_muladd_multi_packed : List BlkmacCall :=
  let (calls, region) :=
    if args.regions ≥ args.regionsPerCall then args.fullCalls 0 0 args.regions 0 0 else ([], 0)
  calls ++ args.remainingCalls region

/-! ## Prefetching -/

/-- Full calls that fetch the next output, in at most so many rounds. -/
def prefetchCalls (pfLen : ℕ) : ℕ → ℕ → ℕ → ℕ → List BlkmacCall × ℕ × ℕ × ℕ
  | 0, region, pf, outputPfRounds => ([], region, pf, outputPfRounds)
  | fuel + 1, region, pf, outputPfRounds =>
    if outputPfRounds = 0 then ([], region, pf, 2 ^ 32 - 1)
    else
      let outputPfRounds := outputPfRounds - 1
      let call := args.interleavedCall args.regionsPerCall region 1 pf
      let region := region + args.regionsPerCall
      let pf := if outputPfRounds ≠ 0 then pf + pfLen else 0
      if args.regionsPerCall > args.regions - region then ([call], region, pf, outputPfRounds)
      else
        let (calls, last) := prefetchCalls pfLen fuel region pf outputPfRounds
        (call :: calls, last)

/-- The calls behind the rounds that fetch the next output. -/
def behindPrefetch (pfLen prefetchIn region : ℕ) : List BlkmacCall :=
  let (calls, region) :=
    if prefetchIn ≠ 0 then args.fullCalls 2 pfLen args.regions region (prefetchIn + pfLen)
    else args.fullCalls 0 0 args.regions region 0
  calls ++ args.remainingCalls region

def gf16_muladd_multi_packpf (pfFactor prefetchIn prefetchOut : ℕ) : List BlkmacCall :=
  let pfLen := args.len >>> pfFactor
  let pf := prefetchOut + pfLen
  let outputPfRounds := 1 <<< pfFactor
  let (calls, region, pf, outputPfRounds) :=
    if args.regions ≥ args.regionsPerCall then
      args.prefetchCalls pfLen (args.regions + 1) 0 pf outputPfRounds
    else ([], 0, pf, outputPfRounds)
  if pf ≠ 0 ∧ args.regionsPerCall > args.regions - region then
    let remaining := args.regions - region
    let (more, region, remaining, pf) :=
      if args.regionsPerCall > args.interleave ∧ remaining ≥ args.interleave then
        let count := remaining - remaining % args.interleave
        (REMAINING_CASES count (args.interleavedCall count region 1 pf), region + count,
          remaining % args.interleave, if outputPfRounds - 1 ≠ 0 then pf + pfLen else 0)
      else ([], region, remaining, pf)
    if pf ≠ 0 then
      calls ++ more ++ REMAINING_CASES remaining (args.consecutiveCall remaining region 1 pf)
    else calls ++ more ++ args.behindPrefetch pfLen prefetchIn region
  else calls ++ args.behindPrefetch pfLen prefetchIn region

end MuladdMulti

end Par3

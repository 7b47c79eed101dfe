import Mathlib.Algebra.Order.Round
import Mathlib.Data.Rat.Floor
import Mathlib.Tactic
import Par3.Foundations.FallibleLoops

/-!
# Shares of devices

Each slice is divided among devices and the processor. A device has a ratio, or gets one from its memory
limit. Devices whose share would be below their minimum get the minimum, and the others share what is
left. Ratios are exact here. Devices that are unknown or listed twice were refused before.
-/
namespace Par3

open FallibleLoops

/-- A device. A ratio of zero is one that is not set, and a limit of zero is no limit. -/
structure OpenclDevice where
  ratio : ℚ
  memoryLimit : Option ℕ
  minChunkSize : ℕ
  memory_global : ℕ
deriving DecidableEq

inductive OpenclError
  | invalidRatio (ratio : ℚ)
  | noRatioOrLimit
  | minChunk
  | limitBelowMinChunk (memoryLimit minChunkSize : ℕ)
  | ratiosExceed (total : ℚ)
  | noCpuLimit
  | unableToAllocate
  | endless
deriving DecidableEq

structure OpenclOpts where
  sliceSize : ℕ
  recoverySlices : ℕ
  memoryLimit : ℚ
  memoryLimit_nonneg : 0 ≤ memoryLimit
  cpuMinChunkSize : ℕ
  is64bPlatform : Bool
  openclDevices : List OpenclDevice

namespace OpenclOpts

variable (o : OpenclOpts)

/-- The limit of a device; without one, most of its memory. -/
def deviceLimit (oclDev : OpenclDevice) : ℕ :=
  match oclDev.memoryLimit with
  | some limit => limit
  | none =>
    let limit := max (max (oclDev.memory_global * 8 / 10) oclDev.minChunkSize) (8 * 1048576)
    min ((if o.is64bPlatform then 4096 else 512) * 1048576) limit

/-- A ratio that is given is raised to the minimum of the device. -/
def deviceRatio (oclDev : OpenclDevice) : ℚ :=
  if oclDev.minChunkSize / oclDev.ratio > o.sliceSize then oclDev.minChunkSize / o.sliceSize
  else oclDev.ratio

/-- The checks of a device, which is returned with its limit and ratio. -/
def checkDevice (oclDev : OpenclDevice) : Except OpenclError OpenclDevice :=
  let limit := o.deviceLimit oclDev
  if oclDev.ratio ≠ 0 ∧ (oclDev.ratio > 1 ∨ oclDev.ratio ≤ 0) then .error (.invalidRatio oclDev.ratio)
  else if oclDev.ratio = 0 ∧ limit = 0 then .error .noRatioOrLimit
  else if oclDev.minChunkSize < 2 ∨ oclDev.minChunkSize % 2 ≠ 0 then .error .minChunk
  else if limit ≠ 0 ∧ oclDev.minChunkSize > limit then
    .error (.limitBelowMinChunk limit oclDev.minChunkSize)
  else
    .ok { oclDev with
      ratio := if oclDev.ratio ≠ 0 then o.deviceRatio oclDev else 0
      memoryLimit := some limit }

/-- Devices are disabled from the end on until the minimums of the others fit. -/
def disableDevices : ℕ → List OpenclDevice → List OpenclDevice
  | _, [] => []
  | totalMinChunk, oclDev :: others =>
    -- the list is reversed
    if totalMinChunk - oclDev.minChunkSize ≤ o.sliceSize then others
    else disableDevices (totalMinChunk - oclDev.minChunkSize) others

def totalMinChunk (devices : List OpenclDevice) : ℕ :=
  o.cpuMinChunkSize + (devices.map OpenclDevice.minChunkSize).sum

def enabledDevices (devices : List OpenclDevice) : List OpenclDevice :=
  if o.totalMinChunk devices > o.sliceSize then
    (o.disableDevices (o.totalMinChunk devices) devices.reverse).reverse
  else devices

/-- The share of the processor, the memory of those without a ratio, and whether a ratio was raised. -/
structure Shares where
  cpuRatio : ℚ
  unspecifiedOclRatioMemory : ℚ
  minFound : Bool

/-- A device below its minimum gets it as its ratio. -/
def raiseDevice (shares : Shares) (oclDev : OpenclDevice) : Shares × OpenclDevice :=
  if oclDev.ratio = 0 then
    let testRatio := (oclDev.memoryLimit.getD 0 / shares.unspecifiedOclRatioMemory) * shares.cpuRatio
    let minRatio := (oclDev.minChunkSize / o.sliceSize : ℚ)
    if testRatio ≤ minRatio then
      (⟨shares.cpuRatio - minRatio, shares.unspecifiedOclRatioMemory - oclDev.memoryLimit.getD 0, true⟩,
        { oclDev with ratio := minRatio })
    else (shares, oclDev)
  else (shares, oclDev)

def raiseDevices : Shares → List OpenclDevice → Shares × List OpenclDevice
  | shares, [] => (shares, [])
  | shares, oclDev :: others =>
    let (shares, oclDev) := o.raiseDevice shares oclDev
    let (shares, others) := raiseDevices shares others
    (shares, oclDev :: others)

/-- The loop over all devices is repeated while it raises a ratio, in at most so many rounds. -/
def raiseLoop : ℕ → Shares → List OpenclDevice → Except OpenclError (Shares × List OpenclDevice)
  | 0, _, _ => .error .endless
  | rounds + 1, shares, devices =>
    let (shares, devices) := o.raiseDevices { shares with minFound := false } devices
    if shares.minFound then raiseLoop rounds shares devices else .ok (shares, devices)

/-- Devices without a ratio share what is left by their memory. -/
def allocateDevice (shares : Shares) (oclDev : OpenclDevice) : OpenclDevice :=
  if oclDev.ratio = 0 then
    { oclDev with
      ratio := (oclDev.memoryLimit.getD 0 / shares.unspecifiedOclRatioMemory) * shares.cpuRatio }
  else oclDev

def givenRatios (devices : List OpenclDevice) : ℚ := (devices.map OpenclDevice.ratio).sum

/-- The limit of a device that has no ratio yet. -/
def sharedMemory (oclDev : OpenclDevice) : ℚ := if oclDev.ratio = 0 then oclDev.memoryLimit.getD 0 else 0

def unspecifiedMemory (devices : List OpenclDevice) : ℚ := (devices.map sharedMemory).sum

/-- Whether the slices are divided at all. -/
def distributes : Bool :=
  o.cpuMinChunkSize < o.sliceSize ∧ o.openclDevices ≠ [] ∧ o.recoverySlices > 0

/-- The devices with their ratios, and the ratio of the processor. -/
def allocate (devices : List OpenclDevice) : Except OpenclError (List OpenclDevice × ℚ) :=
  let cpuRatio := 1 - givenRatios devices
  if devices.any (·.ratio = 0) then
    if o.memoryLimit = 0 then .error .noCpuLimit
    else do
      let (shares, devices) ← o.raiseLoop (devices.length + 1)
        ⟨cpuRatio, unspecifiedMemory devices + o.memoryLimit, false⟩ devices
      if shares.cpuRatio < 0 then .error .unableToAllocate
      else
        return (devices.map (allocateDevice shares),
          shares.cpuRatio * (o.memoryLimit / shares.unspecifiedOclRatioMemory))
  else .ok (devices, cpuRatio)

def shares : Except OpenclError (List OpenclDevice × ℚ) :=
  if o.distributes then do
    let devices ← o.openclDevices.mapM o.checkDevice
    if 1 - givenRatios devices < 0 then .error (.ratiosExceed (givenRatios devices))
    else o.allocate (o.enabledDevices devices)
  else .ok (o.openclDevices, 1)

/-! ## Raising ratios -/

/-- What is known of a device that is enabled. -/
structure Ready (oclDev : OpenclDevice) : Prop where
  ratio : 0 ≤ oclDev.ratio
  limit : oclDev.ratio = 0 → 0 < oclDev.memoryLimit.getD 0
  minChunk : 0 < oclDev.minChunkSize

/-- The least ratio of a device. -/
def minRatio (oclDev : OpenclDevice) : ℚ := oclDev.minChunkSize / o.sliceSize

def testRatio (shares : Shares) (oclDev : OpenclDevice) : ℚ :=
  (oclDev.memoryLimit.getD 0 / shares.unspecifiedOclRatioMemory) * shares.cpuRatio

variable {o}

theorem minRatio_pos (slices : 0 < o.sliceSize) {oclDev : OpenclDevice} (ready : Ready oclDev) :
    0 < o.minRatio oclDev :=
  div_pos (by exact_mod_cast ready.minChunk) (by exact_mod_cast slices)

/-- Either nothing changes, since the share is above the minimum, or the device takes the minimum. -/
theorem raiseDevice_cases (shares : Shares) (oclDev : OpenclDevice) :
    (o.raiseDevice shares oclDev = (shares, oclDev) ∧
      (oclDev.ratio = 0 → o.minRatio oclDev < testRatio shares oclDev)) ∨
    (oclDev.ratio = 0 ∧ o.raiseDevice shares oclDev =
      (⟨shares.cpuRatio - o.minRatio oclDev,
        shares.unspecifiedOclRatioMemory - oclDev.memoryLimit.getD 0, true⟩,
        { oclDev with ratio := o.minRatio oclDev })) := by
  rw [raiseDevice]
  by_cases unset : oclDev.ratio = 0
  · rw [if_pos unset]
    by_cases below : testRatio shares oclDev ≤ o.minRatio oclDev
    · exact .inr ⟨unset, if_pos below⟩
    · exact .inl ⟨if_neg below, fun _ => not_le.mp below⟩
  · exact .inl ⟨if_neg unset, fun set => absurd set unset⟩

/-- The devices without a ratio. -/
def unset (devices : List OpenclDevice) : ℕ := devices.countP (·.ratio = 0)

/-- A round over all devices keeps the sums, and either changes nothing or sets a ratio. -/
theorem raiseDevices_spec (slices : 0 < o.sliceSize) (shares : Shares) (devices : List OpenclDevice)
    (ready : ∀ oclDev ∈ devices, Ready oclDev) :
    let result := o.raiseDevices shares devices
    result.1.cpuRatio + givenRatios result.2 = shares.cpuRatio + givenRatios devices ∧
      result.1.unspecifiedOclRatioMemory - unspecifiedMemory result.2 =
        shares.unspecifiedOclRatioMemory - unspecifiedMemory devices ∧
      (∀ oclDev ∈ result.2, Ready oclDev) ∧
      ((result = (shares, devices) ∧
          ∀ oclDev ∈ devices, oclDev.ratio = 0 → o.minRatio oclDev < testRatio shares oclDev) ∨
        (result.1.minFound = true ∧ unset result.2 < unset devices)) := by
  induction devices generalizing shares with
  | nil => exact ⟨rfl, rfl, ready, .inl ⟨rfl, fun _ member => nomatch member⟩⟩
  | cons first others ih =>
    obtain ⟨firstReady, othersReady⟩ := List.forall_mem_cons.mp ready
    have given (oclDev : OpenclDevice) (rest : List OpenclDevice) :
        givenRatios (oclDev :: rest) = oclDev.ratio + givenRatios rest := List.sum_cons
    have memory (oclDev : OpenclDevice) (rest : List OpenclDevice) :
        unspecifiedMemory (oclDev :: rest) = sharedMemory oclDev + unspecifiedMemory rest := List.sum_cons
    obtain ⟨same, above⟩ | ⟨zero, raised⟩ := @raiseDevice_cases o shares first
    · obtain ⟨ratios, memories, nextReady, changes⟩ := ih shares othersReady
      have result : o.raiseDevices shares (first :: others) =
          ((o.raiseDevices shares others).1, first :: (o.raiseDevices shares others).2) := by
        rw [raiseDevices, same]
      rw [result]
      dsimp only
      refine ⟨?_, ?_, List.forall_mem_cons.mpr ⟨firstReady, nextReady⟩, ?_⟩
      · rw [given, given]
        linarith
      · rw [memory, memory]
        linarith
      · obtain ⟨unchanged, all⟩ | ⟨found, fewer⟩ := changes
        · exact .inl ⟨by rw [unchanged], List.forall_mem_cons.mpr ⟨above, all⟩⟩
        · refine .inr ⟨found, ?_⟩
          rw [unset, unset, List.countP_cons, List.countP_cons]
          exact Nat.add_lt_add_right fewer _
    · obtain ⟨ratios, memories, nextReady, changes⟩ := ih
        ⟨shares.cpuRatio - o.minRatio first,
          shares.unspecifiedOclRatioMemory - first.memoryLimit.getD 0, true⟩ othersReady
      have positive := minRatio_pos slices firstReady
      have result : o.raiseDevices shares (first :: others) =
          ((o.raiseDevices ⟨shares.cpuRatio - o.minRatio first,
              shares.unspecifiedOclRatioMemory - first.memoryLimit.getD 0, true⟩ others).1,
            { first with ratio := o.minRatio first } ::
              (o.raiseDevices ⟨shares.cpuRatio - o.minRatio first,
                shares.unspecifiedOclRatioMemory - first.memoryLimit.getD 0, true⟩ others).2) := by
        rw [raiseDevices, raised]
      have raisedMemory : sharedMemory { first with ratio := o.minRatio first } = 0 :=
        if_neg positive.ne'
      have ownMemory : sharedMemory first = first.memoryLimit.getD 0 := if_pos zero
      have raisedReady : Ready { first with ratio := o.minRatio first } :=
        ⟨positive.le, fun unset => absurd unset positive.ne', firstReady.minChunk⟩
      rw [result]
      dsimp only at ratios memories ⊢
      refine ⟨?_, ?_, List.forall_mem_cons.mpr ⟨raisedReady, nextReady⟩, .inr ?_⟩
      · rw [given, given, zero]
        dsimp only
        linarith
      · rw [memory, memory, raisedMemory, ownMemory]
        linarith
      · have first_set : unset ({ first with ratio := o.minRatio first } :: (o.raiseDevices
            ⟨shares.cpuRatio - o.minRatio first,
              shares.unspecifiedOclRatioMemory - first.memoryLimit.getD 0, true⟩ others).2) =
            unset (o.raiseDevices ⟨shares.cpuRatio - o.minRatio first,
              shares.unspecifiedOclRatioMemory - first.memoryLimit.getD 0, true⟩ others).2 := by
          rw [unset, unset, List.countP_cons_of_neg]
          rw [decide_eq_true_eq]
          exact positive.ne'
        have first_unset : unset (first :: others) = unset others + 1 := by
          rw [unset, unset, List.countP_cons_of_pos]
          rw [decide_eq_true_eq]
          exact zero
        rw [first_set, first_unset]
        obtain ⟨unchanged, -⟩ | ⟨found, fewer⟩ := changes
        · rw [unchanged]
          exact ⟨rfl, Nat.lt_succ_self _⟩
        · exact ⟨found, by omega⟩

/-- The loop ends when no ratio was raised: what is left for the others is above their minimums. -/
theorem raiseLoop_spec (slices : 0 < o.sliceSize) (rounds : ℕ) (shares : Shares)
    (devices : List OpenclDevice) (ready : ∀ oclDev ∈ devices, Ready oclDev)
    (enough : unset devices < rounds) :
    ∃ shares' devices', o.raiseLoop rounds shares devices = .ok (shares', devices') ∧
      shares'.cpuRatio + givenRatios devices' = shares.cpuRatio + givenRatios devices ∧
      shares'.unspecifiedOclRatioMemory - unspecifiedMemory devices' =
        shares.unspecifiedOclRatioMemory - unspecifiedMemory devices ∧
      (∀ oclDev ∈ devices', Ready oclDev) ∧
      ∀ oclDev ∈ devices', oclDev.ratio = 0 → o.minRatio oclDev < testRatio shares' oclDev := by
  induction rounds generalizing shares devices with
  | zero => omega
  | succ rounds ih =>
    obtain ⟨ratios, memories, nextReady, changes⟩ :=
      raiseDevices_spec slices { shares with minFound := false } devices ready
    rw [raiseLoop]
    dsimp only at ratios memories nextReady changes ⊢
    obtain ⟨unchanged, all⟩ | ⟨found, fewer⟩ := changes
    · rw [unchanged] at ratios memories nextReady ⊢
      exact ⟨_, _, if_neg Bool.false_ne_true, ratios, memories, nextReady, all⟩
    · rw [if_pos found]
      obtain ⟨shares', devices', returned, lastRatios, lastMemories, rest⟩ :=
        ih _ _ nextReady (by omega)
      exact ⟨shares', devices', returned, by linarith, by linarith, rest⟩

/-! ## All ratios -/

/-- What the ratios come to. -/
structure Divided (devices : List OpenclDevice) (cpuRatio : ℚ) : Prop where
  positive : ∀ oclDev ∈ devices, 0 < oclDev.ratio
  whole : givenRatios devices + cpuRatio = 1
  processor : 0 ≤ cpuRatio

/-- The others get their parts of what is left. -/
theorem allocated_sum (shares : Shares) (devices : List OpenclDevice) :
    givenRatios (devices.map (allocateDevice shares)) =
      givenRatios devices + unspecifiedMemory devices / shares.unspecifiedOclRatioMemory *
        shares.cpuRatio := by
  induction devices with
  | nil => simp [givenRatios, unspecifiedMemory]
  | cons first others ih =>
    have given (oclDev : OpenclDevice) (rest : List OpenclDevice) :
        givenRatios (oclDev :: rest) = oclDev.ratio + givenRatios rest := List.sum_cons
    have memory : unspecifiedMemory (first :: others) = sharedMemory first + unspecifiedMemory others :=
      List.sum_cons
    rw [List.map_cons, given, given, memory, ih, allocateDevice, sharedMemory]
    split
    case isTrue zero =>
      rw [zero]
      ring
    case isFalse set => ring

theorem allocate_spec (slices : 0 < o.sliceSize) {devices : List OpenclDevice}
    (ready : ∀ oclDev ∈ devices, Ready oclDev) (within : givenRatios devices ≤ 1) :
    o.allocate devices ≠ .error .endless ∧
      ∀ shared cpuRatio, o.allocate devices = .ok (shared, cpuRatio) → Divided shared cpuRatio := by
  rw [allocate]
  dsimp only
  split
  case isTrue unspecified =>
    split
    case isTrue noLimit => exact ⟨nofun, nofun⟩
    case isFalse limit =>
      have positive : 0 < o.memoryLimit := lt_of_le_of_ne o.memoryLimit_nonneg (Ne.symm limit)
      have enough : unset devices < devices.length + 1 :=
        Nat.lt_succ_of_le List.countP_le_length
      obtain ⟨shares, raised, returned, ratios, memories, raisedReady, above⟩ :=
        raiseLoop_spec slices (devices.length + 1)
          ⟨1 - givenRatios devices, unspecifiedMemory devices + o.memoryLimit, false⟩ devices ready enough
      rw [returned, ok_bind]
      dsimp only at ratios memories ⊢
      split
      case isTrue negative => exact ⟨nofun, nofun⟩
      case isFalse enoughLeft =>
        refine ⟨nofun, ?_⟩
        rintro shared cpuRatio ⟨⟩
        have memory : shares.unspecifiedOclRatioMemory = unspecifiedMemory raised + o.memoryLimit := by
          linarith
        have memoryNonneg : 0 ≤ unspecifiedMemory raised := by
          refine List.sum_nonneg fun value member => ?_
          obtain ⟨oclDev, -, rfl⟩ := List.mem_map.mp member
          rw [sharedMemory]
          split
          · exact Nat.cast_nonneg _
          · exact le_refl _
        have memoryPositive : 0 < shares.unspecifiedOclRatioMemory := by linarith
        have allocated : givenRatios (raised.map (allocateDevice shares)) =
            givenRatios raised + unspecifiedMemory raised / shares.unspecifiedOclRatioMemory *
              shares.cpuRatio := allocated_sum shares raised
        refine ⟨?_, ?_, ?_⟩
        · intro oclDev member
          obtain ⟨before, inside, rfl⟩ := List.mem_map.mp member
          rw [allocateDevice]
          split
          case isTrue zero =>
            exact (minRatio_pos slices (raisedReady before inside)).trans (above before inside zero)
          case isFalse set => exact lt_of_le_of_ne (raisedReady before inside).ratio (Ne.symm set)
        · rw [allocated]
          have parts : unspecifiedMemory raised / shares.unspecifiedOclRatioMemory +
              o.memoryLimit / shares.unspecifiedOclRatioMemory = 1 := by
            rw [← add_div, ← memory, div_self memoryPositive.ne']
          linear_combination shares.cpuRatio * parts + ratios
        · exact mul_nonneg (not_lt.mp enoughLeft) (div_nonneg positive.le memoryPositive.le)
  case isFalse all =>
    refine ⟨nofun, ?_⟩
    rintro shared cpuRatio ⟨⟩
    refine ⟨fun oclDev member => ?_, by ring, by linarith⟩
    refine lt_of_le_of_ne (ready oclDev member).ratio (Ne.symm fun zero => all ?_)
    rw [List.any_eq_true]
    exact ⟨oclDev, member, decide_eq_true zero⟩

theorem disableDevices_suffix (total : ℕ) (devices : List OpenclDevice) :
    o.disableDevices total devices <:+ devices := by
  induction devices generalizing total with
  | nil => exact List.suffix_refl _
  | cons first others ih =>
    rw [disableDevices]
    split
    · exact List.suffix_cons _ _
    · exact (ih _).trans (List.suffix_cons _ _)

theorem enabledDevices_kept (devices : List OpenclDevice) : o.enabledDevices devices <+: devices := by
  rw [enabledDevices]
  split
  · rw [← List.reverse_suffix, List.reverse_reverse]
    exact disableDevices_suffix _ _
  · exact List.prefix_refl _

/-- A device that passes its checks. -/
theorem checkDevice_ready (slices : 0 < o.sliceSize) {oclDev checked : OpenclDevice}
    (passed : o.checkDevice oclDev = .ok checked) : Ready checked := by
  rw [checkDevice] at passed
  split_ifs at passed with ratio noLimit minChunk limit set
  · cases passed
    have positive : 0 < oclDev.ratio := by
      by_contra negative
      exact ratio ⟨set, .inr (not_lt.mp negative)⟩
    have raised : 0 < o.deviceRatio oclDev := by
      rw [deviceRatio]
      split
      · exact div_pos (by exact_mod_cast (by omega : 0 < oclDev.minChunkSize)) (by exact_mod_cast slices)
      · exact positive
    exact ⟨raised.le, fun zero => absurd zero raised.ne', by simp only; omega⟩
  · cases passed
    refine ⟨le_refl _, fun _ => ?_, by simp only; omega⟩
    exact Nat.pos_of_ne_zero fun zero => noLimit ⟨not_not.mp set, zero⟩

/-- The loop ends, every device has a positive ratio, and the ratios with that of the processor come to
one. -/
theorem shares_divided (divides : o.distributes) :
    o.shares ≠ .error .endless ∧
      ∀ devices cpuRatio, o.shares = .ok (devices, cpuRatio) → Divided devices cpuRatio := by
  have slices : 0 < o.sliceSize := by
    rw [distributes, decide_eq_true_eq] at divides
    omega
  rw [shares, if_pos divides]
  cases passed : o.openclDevices.mapM o.checkDevice with
  | error failed =>
    rw [error_bind]
    refine ⟨fun same => ?_, nofun⟩
    obtain ⟨oclDev, -, refused⟩ := mapM_error passed
    rw [checkDevice, Except.error.inj same] at refused
    split_ifs at refused <;> cases refused
  | ok devices =>
    rw [ok_bind]
    have ready : ∀ oclDev ∈ devices, Ready oclDev := by
      intro oclDev member
      obtain ⟨own, -, checked⟩ := mem_of_mapM passed oclDev member
      exact checkDevice_ready slices checked
    split
    case isTrue exceed => exact ⟨nofun, nofun⟩
    case isFalse within =>
      have first := @enabledDevices_kept o devices
      refine allocate_spec slices (fun oclDev member => ready oclDev (first.subset member)) ?_
      have less : givenRatios (o.enabledDevices devices) ≤ givenRatios devices := by
        refine (first.sublist.map OpenclDevice.ratio).sum_le_sum fun ratio member => ?_
        obtain ⟨oclDev, inside, rfl⟩ := List.mem_map.mp member
        exact (ready oclDev inside).ratio
      linarith

/-! ## Ranges -/

/-- `Math.round(ratio * chunkSize / 2) * 2` -/
def sliceSizeOf (chunkSize : ℕ) (ratio : ℚ) : ℤ := round (ratio * chunkSize / 2) * 2

/-- The offsets and sizes of devices from one offset on, and the offset behind them. -/
def deviceRanges (chunkSize : ℕ) : ℤ → List ℚ → List (ℤ × ℤ) × ℤ
  | sliceOffset, [] => ([], sliceOffset)
  | sliceOffset, ratio :: others =>
    let (ranges, last) := deviceRanges chunkSize (sliceOffset + sliceSizeOf chunkSize ratio) others
    ((sliceOffset, sliceSizeOf chunkSize ratio) :: ranges, last)

/-- Devices with nothing to do are left out; the processor gets the rest, if there is any. -/
def ranges (chunkSize : ℕ) (ratios : List ℚ) : List (ℤ × ℤ) :=
  let (devices, sliceOffset) := deviceRanges chunkSize 0 ratios
  devices.filter (fun range => 0 < range.2) ++
    if chunkSize - sliceOffset < 1 then [] else [(sliceOffset, chunkSize - sliceOffset)]

/-- Even ranges that cover a chunk, each byte once. -/
structure Tiles (chunkSize : ℕ) (ranges : List (ℤ × ℤ)) : Prop where
  even : ∀ range ∈ ranges, 2 ∣ range.1 ∧ 2 ∣ range.2
  disjoint : ranges.Pairwise fun first second =>
    Disjoint (Finset.Ico first.1 (first.1 + first.2)) (Finset.Ico second.1 (second.1 + second.2))
  covers : ∀ byte : ℤ, (∃ range ∈ ranges, byte ∈ Finset.Ico range.1 (range.1 + range.2)) ↔
    0 ≤ byte ∧ byte < chunkSize

/-- Ranges that are disjoint have together as many bytes as their sizes. -/
theorem covered_card (ranges : List (ℤ × ℤ)) (positive : ∀ range ∈ ranges, 0 ≤ range.2)
    (disjoint : ranges.Pairwise fun first second =>
      Disjoint (Finset.Ico first.1 (first.1 + first.2)) (Finset.Ico second.1 (second.1 + second.2))) :
    ∃ bytes : Finset ℤ, (∀ byte, byte ∈ bytes ↔
        ∃ range ∈ ranges, byte ∈ Finset.Ico range.1 (range.1 + range.2)) ∧
      (bytes.card : ℤ) = (ranges.map Prod.snd).sum := by
  induction ranges with
  | nil => exact ⟨∅, by simp, rfl⟩
  | cons first others ih =>
    obtain ⟨firstPositive, othersPositive⟩ := List.forall_mem_cons.mp positive
    obtain ⟨apart, othersDisjoint⟩ := List.pairwise_cons.mp disjoint
    obtain ⟨bytes, own, card⟩ := ih othersPositive othersDisjoint
    refine ⟨Finset.Ico first.1 (first.1 + first.2) ∪ bytes, fun byte => ?_, ?_⟩
    · rw [Finset.mem_union, own, List.exists_mem_cons_iff]
    · have separate : Disjoint (Finset.Ico first.1 (first.1 + first.2)) bytes := by
        rw [Finset.disjoint_left]
        intro byte inFirst inOthers
        obtain ⟨range, member, inside⟩ := (own byte).mp inOthers
        exact Finset.disjoint_left.mp (apart range member) inFirst inside
      rw [Finset.card_union_of_disjoint separate, Int.card_Ico, List.map_cons, List.sum_cons]
      push_cast
      omega

theorem Tiles.sum_sizes {chunkSize : ℕ} {ranges : List (ℤ × ℤ)} (tiles : Tiles chunkSize ranges)
    (positive : ∀ range ∈ ranges, 0 ≤ range.2) : (ranges.map Prod.snd).sum = chunkSize := by
  obtain ⟨bytes, own, card⟩ := covered_card ranges positive tiles.disjoint
  have all : bytes = Finset.Ico 0 (chunkSize : ℤ) := by
    ext byte
    rw [own, tiles.covers, Finset.mem_Ico]
  rw [← card, all, Int.card_Ico]
  omega

theorem sliceSizeOf_even (chunkSize : ℕ) (ratio : ℚ) : 2 ∣ sliceSizeOf chunkSize ratio :=
  Dvd.intro_left _ rfl

/-- The sizes of all devices, with those that have nothing to do. -/
def deviceSizes (chunkSize : ℕ) (ratios : List ℚ) : List ℤ := ratios.map (sliceSizeOf chunkSize)

theorem deviceRanges_spec (chunkSize : ℕ) (sliceOffset : ℤ) (ratios : List ℚ) :
    (deviceRanges chunkSize sliceOffset ratios).1.map Prod.snd = deviceSizes chunkSize ratios ∧
      (deviceRanges chunkSize sliceOffset ratios).2 =
        sliceOffset + (deviceSizes chunkSize ratios).sum := by
  induction ratios generalizing sliceOffset with
  | nil => exact ⟨rfl, (add_zero _).symm⟩
  | cons ratio others ih =>
    obtain ⟨sizes, last⟩ := ih (sliceOffset + sliceSizeOf chunkSize ratio)
    rw [deviceRanges]
    dsimp only
    refine ⟨?_, ?_⟩
    · rw [List.map_cons, sizes]
      rfl
    · rw [last, deviceSizes, deviceSizes, List.map_cons, List.sum_cons]
      ring

/-- The sum of the positive sizes is larger than that of all sizes as soon as one is negative. -/
theorem sum_filter_pos (ranges : List (ℤ × ℤ)) :
    (ranges.map Prod.snd).sum ≤ ((ranges.filter (fun range => 0 < range.2)).map Prod.snd).sum ∧
      (((ranges.filter (fun range => 0 < range.2)).map Prod.snd).sum = (ranges.map Prod.snd).sum ↔
        ∀ size ∈ ranges.map Prod.snd, 0 ≤ size) := by
  induction ranges with
  | nil => simp
  | cons first others ih =>
    obtain ⟨less, same⟩ := ih
    rw [List.filter_cons, List.map_cons, List.sum_cons, List.forall_mem_cons, ← same]
    split
    case isTrue positive =>
      have large : 0 < first.2 := by simpa using positive
      rw [List.map_cons, List.sum_cons]
      refine ⟨by omega, by omega⟩
    case isFalse none =>
      have small : first.2 ≤ 0 := by simpa using none
      refine ⟨by omega, by omega⟩

/-- Ranges that follow each other from one offset on. -/
theorem deviceRanges_tile (chunkSize : ℕ) (sliceOffset : ℤ) (ratios : List ℚ)
    (offsetEven : 2 ∣ sliceOffset) (positive : ∀ size ∈ deviceSizes chunkSize ratios, 0 ≤ size) :
    let result := deviceRanges chunkSize sliceOffset ratios
    let kept := result.1.filter fun range => 0 < range.2
    sliceOffset ≤ result.2 ∧ 2 ∣ result.2 ∧ (∀ range ∈ kept, 2 ∣ range.1 ∧ 2 ∣ range.2) ∧
      (kept.Pairwise fun first second =>
        Disjoint (Finset.Ico first.1 (first.1 + first.2)) (Finset.Ico second.1 (second.1 + second.2))) ∧
      ∀ byte : ℤ, (∃ range ∈ kept, byte ∈ Finset.Ico range.1 (range.1 + range.2)) ↔
        sliceOffset ≤ byte ∧ byte < result.2 := by
  induction ratios generalizing sliceOffset with
  | nil =>
    refine ⟨le_refl _, offsetEven, nofun, List.Pairwise.nil, fun byte => ?_⟩
    refine iff_of_false (by rintro ⟨_, member, -⟩; exact nomatch member) ?_
    rw [deviceRanges]
    omega
  | cons ratio others ih =>
    obtain ⟨own, rest⟩ := List.forall_mem_cons.mp positive
    have ownEven := sliceSizeOf_even chunkSize ratio
    obtain ⟨more, lastEven, even, disjoint, covers⟩ :=
      ih (sliceOffset + sliceSizeOf chunkSize ratio) (dvd_add offsetEven ownEven) rest
    rw [deviceRanges]
    dsimp only at more lastEven even disjoint covers ⊢
    refine ⟨by omega, lastEven, ?_⟩
    rw [List.filter_cons]
    split
    case isTrue some =>
      have large : 0 < sliceSizeOf chunkSize ratio := by simpa using some
      refine ⟨List.forall_mem_cons.mpr ⟨⟨offsetEven, ownEven⟩, even⟩,
        List.pairwise_cons.mpr ⟨fun range member => ?_, disjoint⟩, fun byte => ?_⟩
      · rw [Finset.disjoint_left]
        intro byte inFirst inRange
        have later := ((covers byte).mp ⟨range, member, inRange⟩).1
        rw [Finset.mem_Ico] at inFirst
        omega
      · rw [List.exists_mem_cons_iff, covers, Finset.mem_Ico]
        omega
    case isFalse none =>
      have zero : sliceSizeOf chunkSize ratio = 0 := by
        have small : sliceSizeOf chunkSize ratio ≤ 0 := by simpa using none
        omega
      refine ⟨even, disjoint, fun byte => ?_⟩
      rw [covers, zero, add_zero]

theorem ranges_positive (chunkSize : ℕ) (ratios : List ℚ) :
    ∀ range ∈ ranges chunkSize ratios, 0 ≤ range.2 := by
  intro range member
  rw [ranges] at member
  dsimp only at member
  obtain kept | rest := List.mem_append.mp member
  · have positive := (List.mem_filter.mp kept).2
    rw [decide_eq_true_eq] at positive
    exact positive.le
  · split_ifs at rest with none
    · exact absurd rest List.not_mem_nil
    · rw [List.mem_singleton.mp rest]
      dsimp only
      omega

/-- The ranges tile an even chunk exactly if no size is negative and the sizes of the devices are together
no more than the chunk. -/
theorem ranges_tile_iff (chunkSize : ℕ) (ratios : List ℚ) :
    Tiles chunkSize (ranges chunkSize ratios) ↔
      2 ∣ chunkSize ∧ (∀ size ∈ deviceSizes chunkSize ratios, 0 ≤ size) ∧
        (deviceSizes chunkSize ratios).sum ≤ chunkSize := by
  obtain ⟨sizes, last⟩ := deviceRanges_spec chunkSize 0 ratios
  rw [zero_add] at last
  constructor
  · intro tiles
    have evenSum : 2 ∣ (deviceSizes chunkSize ratios).sum := by
      refine List.dvd_sum fun size member => ?_
      obtain ⟨ratio, -, rfl⟩ := List.mem_map.mp member
      exact sliceSizeOf_even chunkSize ratio
    obtain ⟨less, same⟩ := sum_filter_pos (deviceRanges chunkSize 0 ratios).1
    rw [sizes] at less same
    have total := tiles.sum_sizes (ranges_positive chunkSize ratios)
    rw [ranges] at tiles total
    dsimp only at tiles total
    rw [last] at tiles total
    rw [List.map_append, List.sum_append] at total
    split_ifs at tiles total with none
    · rw [List.map_nil, List.sum_nil, add_zero] at total
      exact ⟨by omega, same.mp (by omega), by omega⟩
    · rw [List.map_singleton, List.sum_singleton] at total
      have rest := (tiles.even _ (List.mem_append_right _ (List.mem_singleton_self _))).2
      dsimp only at rest total
      exact ⟨by omega, same.mp (by omega), by omega⟩
  · rintro ⟨evenChunk, positive, within⟩
    obtain ⟨more, lastEven, even, disjoint, covers⟩ := deviceRanges_tile chunkSize 0 ratios (dvd_zero 2) positive
    rw [ranges]
    dsimp only at more lastEven even disjoint covers ⊢
    rw [last] at more lastEven covers ⊢
    split
    case isTrue none =>
      rw [List.append_nil]
      refine ⟨even, disjoint, fun byte => ?_⟩
      rw [covers]
      omega
    case isFalse some =>
      refine ⟨?_, ?_, fun byte => ?_⟩
      · rw [List.forall_mem_append, List.forall_mem_singleton]
        exact ⟨even, lastEven, by simp only; omega⟩
      · rw [List.pairwise_append]
        refine ⟨disjoint, List.pairwise_singleton _ _, fun range member rest final => ?_⟩
        rw [List.mem_singleton.mp final, Finset.disjoint_left]
        intro byte inRange inRest
        have before := ((covers byte).mp ⟨range, member, inRange⟩).2
        rw [Finset.mem_Ico] at inRest
        omega
      · simp only [List.mem_append, or_and_right, exists_or, List.mem_singleton, exists_eq_left]
        rw [covers, Finset.mem_Ico]
        omega

/-- The loop ends, and the ratios of accepted devices are positive and come to one with that of the
processor. The ranges tile the chunk exactly if rounding does not give the devices more than the chunk. -/
theorem shares_tile_iff (o : OpenclOpts) :
    o.shares ≠ .error .endless ∧
      ∀ devices cpuRatio, o.shares = .ok (devices, cpuRatio) →
        (o.distributes → Divided devices cpuRatio) ∧
        ∀ chunkSize, Tiles chunkSize (ranges chunkSize (devices.map OpenclDevice.ratio)) ↔
          2 ∣ chunkSize ∧
            (∀ oclDev ∈ devices, 0 ≤ sliceSizeOf chunkSize oclDev.ratio) ∧
            (devices.map fun oclDev => sliceSizeOf chunkSize oclDev.ratio).sum ≤ chunkSize := by
  constructor
  · by_cases divides : o.distributes
    · exact (shares_divided divides).1
    · rw [shares, if_neg divides]
      exact nofun
  · intro devices cpuRatio accepted
    refine ⟨fun divides => (shares_divided divides).2 devices cpuRatio accepted, fun chunkSize => ?_⟩
    rw [ranges_tile_iff, deviceSizes, List.map_map, List.forall_mem_map]
    rfl

def deviceOf (ratio : ℚ) : OpenclDevice where
  ratio := ratio
  memoryLimit := some 0
  minChunkSize := 32768
  memory_global := 1073741824

/-- Two quarters and a half of a slice whose quarter is odd. -/
def quarters : OpenclOpts where
  sliceSize := 262148
  recoverySlices := 10
  memoryLimit := 0
  memoryLimit_nonneg := le_refl 0
  cpuMinChunkSize := 65536
  is64bPlatform := true
  openclDevices := [deviceOf (1 / 4), deviceOf (1 / 4), deviceOf (1 / 2)]

/-- Both quarters are rounded up, so that the devices get two bytes more than the slice has. -/
theorem quarters_overlap :
    quarters.shares = .ok (quarters.openclDevices, 0) ∧
      ¬ Tiles 262148 (ranges 262148 (quarters.openclDevices.map OpenclDevice.ratio)) := by
  refine ⟨by decide +kernel, fun tiles => ?_⟩
  have within := ((ranges_tile_iff _ _).mp tiles).2.2
  exact absurd within (by decide +kernel)

end OpenclOpts

end Par3

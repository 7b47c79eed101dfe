import Par3.FengerEngine

/-!
# The trees make the same recovery blocks

Threads write the words of their own passes, so that every order of the passes leaves the words of all
recovery points behind. They are those of the whole matrix when every recovery point is apart from the
input points. Padding is placed so that it is, and the test of the ranges finds points in common unless
a range ends at the last number or goes on from zero.
-/

namespace Par3

open Interleaving ProductTree

namespace FengerCall

variable (call : FengerCall)

/-! ## Threads -/

section Threads

variable {call} {e : Option ℤ} {host : EngineHost}

theorem threads_pos : 0 < call.threads host := by
  have processors := host.effectiveCpuCount_pos
  simp only [threads]
  split_ifs <;> omega

theorem fenger_batch_words_pos (e : Option ℤ) : 0 < fenger_batch_words e := by
  have large : (1 : ℤ) ≤ FENGER_BATCH_K_MAX := by decide
  simp only [fenger_batch_words]
  split_ifs <;> omega

theorem mem_passes {t : ℕ} {pass : ℕ × ℕ} (member : pass ∈ call.passes e host t) :
    pass.1 < pass.2 ∧ pass.2 ≤ call.blockSize64 := by
  simp only [passes] at member
  split at member
  · obtain ⟨w, inside, rfl⟩ := List.mem_map.mp member
    have pos := fenger_batch_words_pos e
    have bounds := strided_bounds pos inside
    dsimp only
    omega
  · cases member

variable (e host) in
/-- Every word is in a pass. -/
theorem exists_pass {w : ℕ} (inside : w < call.blockSize64) :
    ∃ t, ∃ pass ∈ call.passes e host t, pass.1 ≤ w ∧ w < pass.2 := by
  have some_threads := @threads_pos call host
  have split := Nat.div_add_mod (call.blockSize64 + call.threads host - 1) (call.threads host)
  have rest := Nat.mod_lt (call.blockSize64 + call.threads host - 1) some_threads
  have enough : call.blockSize64 ≤ call.threads host * call.chunk host := by
    rw [chunk]
    omega
  have pos : 0 < call.chunk host := by
    by_contra empty
    rw [Nat.eq_zero_of_not_pos empty, Nat.mul_zero] at enough
    omega
  have below : w / call.chunk host < call.threads host := Nat.div_lt_of_lt_mul (by
    rw [Nat.mul_comm]
    omega)
  have start : w / call.chunk host * call.chunk host ≤ w := Nat.div_mul_le_self _ _
  have stop : w < w / call.chunk host * call.chunk host + call.chunk host := Nat.lt_div_mul_add pos
  obtain ⟨value, member, bounds⟩ := exists_strided (fenger_batch_words_pos e) start
    (lt_min stop inside)
  refine ⟨w / call.chunk host, (value, min (value + fenger_batch_words e) _), ?_, bounds⟩
  rw [passes, if_pos ⟨below, by omega⟩]
  exact List.mem_map_of_mem member

end Threads

/-! ## The words after an execution -/

section Words

variable {call} {e : Option ℤ} {host : EngineHost} {ctx : FengerContext} {x y : ℕ → Gf64} {a b : ℕ}
  (prepared : Prepared ctx x y a b) (real : ctx.num_recovery_real ≤ 2 ^ b)
  (someWords : call.blockSize64 ≠ 0) (kernels : Kernels) (inputs : Words)

/-- The words of a pass. -/
def passPlaces (call : FengerCall) (numRecovery : ℕ) (pass : ℕ × ℕ) : Set ℕ :=
  {offset | offset / call.blockSize64 < numRecovery ∧ pass.1 ≤ offset % call.blockSize64 ∧
    offset % call.blockSize64 < pass.2}

/-- The word at an offset of the recovery blocks. -/
noncomputable def wordOf (call : FengerCall) (ctx : FengerContext) (x y : ℕ → Gf64) (a : ℕ)
    (inputs : Words) (offset : ℕ) : Gf64 :=
  recoveryWord ctx x y a inputs call.blockSize64 (offset % call.blockSize64)
    (offset / call.blockSize64)

include prepared real someWords

theorem pass_writes {pass : ℕ × ℕ} (ordered : pass.1 < pass.2) (bounded : pass.2 ≤ call.blockSize64)
    {step : Step ℕ Gf64} (steps : ∀ out, gf64_fenger_execute kernels e (some ctx) inputs
      call.blockSize64 out pass.1 pass.2 = some (step out)) :
    Writes (call.wordOf ctx x y a inputs) (call.passPlaces ctx.num_recovery_real pass) step := by
  intro out offset
  have word := Nat.mod_lt offset (Nat.pos_of_ne_zero someWords)
  have whole : offset / call.blockSize64 * call.blockSize64 + offset % call.blockSize64 = offset :=
    Nat.div_add_mod' _ _
  have written := steps out
  rw [gf64_fenger_execute_eq prepared kernels real e inputs someWords, Option.some.injEq] at written
  have here := scatter_range ctx call.blockSize64 (recoveryWord ctx x y a inputs call.blockSize64) out
    pass.1 (pass.2 - pass.1) (offset / call.blockSize64) word (by omega)
  rw [written, whole, Nat.add_sub_of_le ordered.le] at here
  rw [here]
  exact ⟨fun inside => if_pos inside, fun outside => if_neg outside⟩

theorem executeThreads_words {out last : Words}
    (executed : call.executeThreads kernels e host inputs (some ctx) out last) (offset : ℕ) :
    last offset = if offset / call.blockSize64 < ctx.num_recovery_real
      then call.wordOf ctx x y a inputs offset else out offset := by
  obtain ⟨step, steps, interleaved⟩ := executed
  have writes : ∀ t, ∀ pass ∈ call.passes e host t,
      Writes (call.wordOf ctx x y a inputs) (call.passPlaces ctx.num_recovery_real pass) (step pass) :=
    fun t pass member => pass_writes prepared real someWords kernels inputs (mem_passes member).1
      (mem_passes member).2 (steps t pass member)
  split
  case isTrue row =>
    obtain ⟨t, pass, member, inside⟩ := exists_pass e host
      (Nat.mod_lt offset (Nat.pos_of_ne_zero someWords))
    refine interleaved.written (fun t other present => ?_) (List.mem_map_of_mem member)
      (writes t pass member) ⟨row, inside⟩
    obtain ⟨pass, planned, rfl⟩ := List.mem_map.mp present
    exact ⟨_, writes t pass planned⟩
  case isFalse behind =>
    have others : ∀ t, ∀ other ∈ (call.passes e host t).map step, ∃ places,
        Writes (call.wordOf ctx x y a inputs) places other ∧ offset ∉ places := by
      intro t other present
      obtain ⟨pass, planned, rfl⟩ := List.mem_map.mp present
      exact ⟨_, writes t pass planned, fun inside => behind inside.1⟩
    exact interleaved.unwritten others

theorem execute_words {out last : Words}
    (executed : call.execute kernels e host inputs (some ctx) out last) (offset : ℕ) :
    last offset = if offset / call.blockSize64 < ctx.num_recovery_real
      then call.wordOf ctx x y a inputs offset else out offset := by
  rw [execute] at executed
  split at executed
  case isTrue =>
    have word := Nat.mod_lt offset (Nat.pos_of_ne_zero someWords)
    have whole : offset / call.blockSize64 * call.blockSize64 + offset % call.blockSize64 = offset :=
      Nat.div_add_mod' _ _
    rw [gf64_fenger_execute_eq prepared kernels real e inputs someWords, Option.some.injEq] at executed
    have here := scatter_range ctx call.blockSize64 (recoveryWord ctx x y a inputs call.blockSize64) out
      0 (call.blockSize64 - 0) (offset / call.blockSize64) word (by omega)
    rw [executed, whole] at here
    rw [here]
    exact if_congr (by omega) rfl rfl
  case isFalse =>
    exact executeThreads_words prepared real someWords kernels inputs executed offset

variable (e host) in
/-- No pass ends the program. -/
theorem execute_exists (out : Words) :
    ∃ last, call.execute kernels e host inputs (some ctx) out last := by
  unfold execute
  split
  case isTrue => exact ⟨_, gf64_fenger_execute_eq prepared kernels real e inputs someWords out 0 _⟩
  case isFalse =>
    have ordered : ∃ last, Interleaved (fun t => (call.passes e host t).map fun pass out =>
        (List.range' pass.1 (pass.2 - pass.1)).foldl (fun out w => ctx.scatter out call.blockSize64 w
          (recoveryWord ctx x y a inputs call.blockSize64 w)) out) out last := by
      apply interleaved_exists (List.range (call.threads host)) List.nodup_range
      intro t absent
      have idle : call.passes e host t = [] :=
        if_neg fun both => absent (List.mem_range.mpr both.1)
      rw [idle, List.map_nil]
    obtain ⟨last, interleaved⟩ := ordered
    exact ⟨last, _, fun t pass _ out =>
      gf64_fenger_execute_eq prepared kernels real e inputs someWords out pass.1 pass.2, interleaved⟩

end Words

/-! ## The points -/

/-- The trees of so many points fit into the memory. -/
def treeFits (points : ℕ) : Prop :=
  (Nat.log2 points + 1) * points + (2 * points - 1) ≤ SIZE_MAX / 8

instance instDecidableTreeFits (points : ℕ) : Decidable (treeFits points) :=
  inferInstanceAs (Decidable (_ ≤ _))

/-- A recovery point is also an input point. -/
def Collides (r c : ℕ) : Prop :=
  call.firstRecovery + BitVec.ofNat 64 r = call.firstInput + BitVec.ofNat 64 c

instance instDecidableCollides (r c : ℕ) : Decidable (call.Collides r c) :=
  inferInstanceAs (Decidable (_ = _))

theorem paddedCount_pow {count : ℕ} (turns level padded : ℕ) (total : level + turns = 64)
    (small : level ≤ 63) (found : paddedCount count turns (2 ^ level) = some padded) :
    ∃ L ≤ 63, padded = 2 ^ L ∧ count ≤ 2 ^ L := by
  induction turns generalizing level with
  | zero => omega
  | succ turns ih =>
    rw [paddedCount] at found
    split at found
    · split at found
      · cases found
      · rename_i guarded
        have half : SIZE_MAX >>> 1 < 2 ^ 63 := by decide
        have level_lt : level < 63 := (Nat.pow_lt_pow_iff_right (by decide : 1 < 2)).mp (by omega)
        rw [Nat.shiftLeft_eq, pow_one, ← pow_succ] at found
        exact ih (level + 1) (by omega) level_lt found
    · exact ⟨level, small, (Option.some.inj found).symm, by omega⟩

/-- What is known of a call with trees. -/
theorem route_padded {numInputsPadded numRecoveryPadded : ℕ} {syntheticInputBase : BitVec 64}
    (route : call.route = .padded numInputsPadded numRecoveryPadded syntheticInputBase) :
    (∃ a b, numInputsPadded = 2 ^ a ∧ numRecoveryPadded = 2 ^ b) ∧
      call.numInputs ≤ numInputsPadded ∧ call.numRecovery ≤ numRecoveryPadded ∧
      call.firstInput.toNat + call.numInputs ≤ syntheticInputBase.toNat ∧
      call.firstRecovery.toNat + numRecoveryPadded ≤ syntheticInputBase.toNat ∧
      syntheticInputBase.toNat + (numInputsPadded - call.numInputs) < 2 ^ 64 ∧
      (call.firstInput.toNat + call.numInputs ≤ call.firstRecovery.toNat ∨
        call.firstRecovery.toNat + numRecoveryPadded ≤ call.firstInput.toNat) := by
  rw [FengerCall.route] at route
  split at route
  case h_2 => cases route
  case h_1 numInputsPadded' numRecoveryPadded' inputs recovery =>
    obtain ⟨a, smallInputs, powInputs, enoughInputs⟩ :=
      paddedCount_pow 64 0 _ rfl (by decide) inputs
    obtain ⟨b, smallRecovery, powRecovery, enoughRecovery⟩ :=
      paddedCount_pow 64 0 _ rfl (by decide) recovery
    dsimp only at route
    split at route
    · cases route
    · split at route
      · split at route
        · cases route
        · rename_i apart _ fits
          obtain ⟨rfl, rfl, rfl⟩ := FengerRoute.padded.inj route
          have bound : SIZE_MAX = 2 ^ 64 - 1 := by decide
          have input := call.numInputs_small
          have few : numInputsPadded' ≤ 2 ^ 63 :=
            powInputs ▸ Nat.pow_le_pow_right Nat.two_pos smallInputs
          have small : numRecoveryPadded' ≤ 2 ^ 63 :=
            powRecovery ▸ Nat.pow_le_pow_right Nat.two_pos smallRecovery
          simp only [overflow, decide_eq_true_eq, not_or, not_lt, gt_iff_lt, UINT64_MAX] at fits
          have ends : call.inEnd = call.firstInput.toNat + call.numInputs ∧
              call.recEnd numRecoveryPadded' = call.firstRecovery.toNat + numRecoveryPadded' :=
            ⟨if_neg (by rw [UINT64_MAX]; omega), if_neg (by rw [UINT64_MAX]; omega)⟩
          simp only [ends, gt_iff_lt] at apart fits ⊢
          refine ⟨⟨a, b, powInputs, powRecovery⟩, by omega, by omega, ?_⟩
          split at fits
          case isTrue later =>
            rw [BitVec.toNat_ofNat, if_pos later, Nat.mod_eq_of_lt (by omega)]
            omega
          case isFalse later =>
            rw [BitVec.toNat_ofNat, if_neg later, Nat.mod_eq_of_lt (by omega)]
            omega
      · cases route

theorem route_whole (route : call.route = .whole) :
    ∃ a ≤ 63, ∃ b, call.numInputs = 2 ^ a ∧ call.numRecovery = 2 ^ b := by
  rw [FengerCall.route] at route
  split at route
  case h_2 => cases route
  case h_1 numInputsPadded numRecoveryPadded inputs recovery =>
    obtain ⟨a, smallInputs, powInputs, -⟩ := paddedCount_pow 64 0 _ rfl (by decide) inputs
    obtain ⟨b, -, powRecovery, -⟩ := paddedCount_pow 64 0 _ rfl (by decide) recovery
    dsimp only at route
    split at route
    · cases route
    · split at route
      · split at route
        · cases route
        · cases route
      · rename_i exact_counts
        exact ⟨a, smallInputs, b, by omega, by omega⟩

theorem toNat_advance {first : BitVec 64} {k : ℕ} (fits : first.toNat + k < 2 ^ 64) :
    (first + BitVec.ofNat 64 k).toNat = first.toNat + k := by
  rw [BitVec.toNat_add, BitVec.toNat_ofNat, Nat.mod_eq_of_lt (by omega : k < 2 ^ 64),
    Nat.mod_eq_of_lt fits]

/-- What the preparation of a call is given: points that are the call's own, and padding that is apart
from the recovery points. -/
structure Points (x : ℕ → Gf64) (a b : ℕ) : Prop where
  inputs : call.numInputs ≤ 2 ^ a
  recovery : call.numRecovery ≤ 2 ^ b
  distinct : Set.InjOn x (Finset.range (2 ^ a))
  own : ∀ c < call.numInputs, x c = ⟨call.firstInput + BitVec.ofNat 64 c⟩
  padding : ∀ c < 2 ^ a, call.numInputs ≤ c → ∀ r < call.numRecovery,
    x c ≠ recoveryPoint call.firstRecovery r

theorem whole_points (route : call.route = .whole) :
    ∃ a b, call.numInputs = 2 ^ a ∧ call.numRecovery = 2 ^ b ∧
      call.Points (inputPoint call.firstInput 0 call.numInputs) a b := by
  obtain ⟨a, small, b, inputs, recovery⟩ := call.route_whole route
  have bound : 2 ^ a ≤ 2 ^ 63 := Nat.pow_le_pow_right Nat.two_pos small
  refine ⟨a, b, inputs, recovery, inputs.le, recovery.le, ?_, fun c inside => if_pos inside,
    fun c inside beyond => absurd inside (by omega)⟩
  intro first one second two same
  have below : first < 2 ^ a := Finset.mem_range.mp one
  have other : second < 2 ^ a := Finset.mem_range.mp two
  rw [inputPoint, inputPoint, if_pos (by omega), if_pos (by omega)] at same
  have bits := congrArg BitVec.toNat (add_left_cancel (congrArg BinaryField.Word.bits same))
  rwa [BitVec.toNat_ofNat, BitVec.toNat_ofNat, Nat.mod_eq_of_lt (by omega),
    Nat.mod_eq_of_lt (by omega)] at bits

theorem padded_points {numInputsPadded numRecoveryPadded : ℕ} {syntheticInputBase : BitVec 64}
    (route : call.route = .padded numInputsPadded numRecoveryPadded syntheticInputBase) :
    (∃ a b, numInputsPadded = 2 ^ a ∧ numRecoveryPadded = 2 ^ b ∧
      call.Points (inputPoint call.firstInput syntheticInputBase call.numInputs) a b) ∧
      ∀ r < call.numRecovery, ∀ c < call.numInputs, ¬ call.Collides r c := by
  obtain ⟨⟨a, b, inputs, recovery⟩, enoughInputs, enoughRecovery, behindInputs, behindRecovery, fits,
    apart⟩ := call.route_padded route
  have numbered {c : ℕ} (inside : c < numInputsPadded) :
      (inputPoint call.firstInput syntheticInputBase call.numInputs c).bits.toNat =
        if c < call.numInputs then call.firstInput.toNat + c
        else syntheticInputBase.toNat + (c - call.numInputs) := by
    rw [inputPoint]
    split
    · exact toNat_advance (by omega)
    · exact toNat_advance (by omega)
  have recovered {r : ℕ} (row : r < call.numRecovery) :
      (recoveryPoint call.firstRecovery r).bits.toNat = call.firstRecovery.toNat + r :=
    toNat_advance (by omega)
  refine ⟨⟨a, b, inputs, recovery, by omega, by omega, ?_, fun c inside => if_pos inside, ?_⟩, ?_⟩
  · intro first one second two same
    have below : first < numInputsPadded := inputs ▸ Finset.mem_range.mp one
    have other : second < numInputsPadded := inputs ▸ Finset.mem_range.mp two
    have numbers := congrArg (BitVec.toNat ∘ BinaryField.Word.bits) same
    rw [Function.comp_apply, Function.comp_apply, numbered below, numbered other] at numbers
    split at numbers <;> split at numbers <;> omega
  · intro c inside beyond r row same
    have numbers := congrArg (BitVec.toNat ∘ BinaryField.Word.bits) same
    rw [Function.comp_apply, Function.comp_apply, numbered (by omega), recovered row,
      if_neg (by omega)] at numbers
    omega
  · intro r row c inside same
    have numbers := congrArg BitVec.toNat same
    rw [toNat_advance (by omega), toNat_advance (by omega)] at numbers
    omega

/-! ## The calls -/

section Calls

variable {call} {kernels : Kernels} {inverses : InverseKernels} {e : Option ℤ} {host : EngineHost}
  {x : ℕ → Gf64} {a b : ℕ}

/-- A recovery point that is apart from the inputs has the words of the whole matrix. -/
theorem recoveryWord_entrySum {ctx : FengerContext}
    (prepared : Prepared ctx x (recoveryPoint call.firstRecovery) a b)
    (real : ctx.num_inputs_real = call.numInputs) (points : call.Points x a b) {r : ℕ}
    (row : r < call.numRecovery) (apart : ∀ c < call.numInputs, ¬ call.Collides r c)
    (numThreads : ℤ) (inputs : Words) (w : ℕ) :
    recoveryWord ctx x (recoveryPoint call.firstRecovery) a inputs call.blockSize64 w r =
      (call.legacy numThreads).entrySum call.firstInput call.firstRecovery inputs r w := by
  have different {c : ℕ} (inside : c < 2 ^ a) : x c ≠ recoveryPoint call.firstRecovery r := by
    rcases Nat.lt_or_ge c call.numInputs with own | padding
    · rw [points.own c own, recoveryPoint]
      exact fun same => apart c own (congrArg BinaryField.Word.bits same).symm
    · exact points.padding c inside padding r row
  have enough := points.inputs
  have rows := points.recovery
  rw [recoveryWord_eq prepared points.distinct (by omega) (by omega)
    fun c inside => different inside, real, RecoveryCall.entrySum]
  refine Finset.sum_congr rfl fun c member => ?_
  have own : c < call.numInputs := Finset.mem_range.mp member
  have denominator : gf64OfNat (call.firstInput.toNat + c) +
      gf64OfNat (call.firstRecovery.toNat + r) = x c + recoveryPoint call.firstRecovery r := by
    rw [points.own c own, recoveryPoint, gf64OfNat, gf64OfNat, BitVec.ofNat_add, BitVec.ofNat_add,
      BitVec.ofNat_toNat, BitVec.ofNat_toNat, BitVec.setWidth_eq, BitVec.setWidth_eq]
  have nonzero : x c + recoveryPoint call.firstRecovery r ≠ 0 := by
    rw [← CharTwo.sub_eq_add]
    exact sub_ne_zero.mpr (different (by omega))
  have entry : cauchyCoefficient call.firstInput.toNat call.firstRecovery.toNat r c =
      (x c + recoveryPoint call.firstRecovery r)⁻¹ := by
    simp only [cauchyCoefficient, denominator, if_neg nonzero]
  exact congrArg (inputs (c * call.blockSize64 + w) * ·) entry.symm

/-- The words at a recovery point that is an input are zero. -/
theorem recoveryWord_collision {ctx : FengerContext}
    (prepared : Prepared ctx x (recoveryPoint call.firstRecovery) a b) (points : call.Points x a b)
    {r c : ℕ} (row : r < call.numRecovery) (input : c < call.numInputs) (same : call.Collides r c)
    (inputs : Words) (w : ℕ) :
    recoveryWord ctx x (recoveryPoint call.firstRecovery) a inputs call.blockSize64 w r = 0 := by
  have enough := points.inputs
  have rows := points.recovery
  have node : recoveryPoint call.firstRecovery r = x c := by
    rw [points.own c input, recoveryPoint, same]
  rw [recoveryWord, prepared.V_at_y_inv r (by omega), node,
    Lagrange.eval_nodal_at_node (Finset.mem_range.mpr (by omega)), inv_zero, mul_zero]

/-- The words that an execution leaves, and those behind them. -/
theorem executePrepared_words {inputs : Words} {memory last : Memory}
    (someWords : call.blockSize64 ≠ 0) {ctx : FengerContext}
    (prepared : Prepared ctx x (recoveryPoint call.firstRecovery) a b)
    (real : ctx.num_recovery_real = call.numRecovery) (points : call.Points x a b)
    (executed : call.executePrepared kernels e host inputs (some (some ctx))
      (memset ⟨recoveryBuffer, 0⟩ (call.numRecovery * call.blockSize64) memory) last) :
    (∀ r < call.numRecovery, ∀ w < call.blockSize64,
      last ⟨recoveryBuffer, r * call.blockSize64 + w⟩ =
        recoveryWord ctx x (recoveryPoint call.firstRecovery) a inputs call.blockSize64 w r) ∧
    ∀ offset, call.numRecovery * call.blockSize64 ≤ offset →
      last ⟨recoveryBuffer, offset⟩ = memory ⟨recoveryBuffer, offset⟩ := by
  have pos := Nat.pos_of_ne_zero someWords
  obtain ⟨found, words, same, executes, rfl⟩ := executed
  obtain rfl := Option.some.inj same
  have each := execute_words prepared (real.trans_le points.recovery) someWords kernels inputs executes
  refine ⟨fun r row w word => ?_, fun offset behind => ?_⟩
  · have place : (r * call.blockSize64 + w) / call.blockSize64 = r ∧
        (r * call.blockSize64 + w) % call.blockSize64 = w := by
      rw [Nat.mul_comm, Nat.mul_add_div pos, Nat.mul_add_mod, Nat.mod_eq_of_lt word,
        Nat.div_eq_of_lt word, Nat.add_zero]
      exact ⟨rfl, rfl⟩
    dsimp only
    rw [if_pos rfl, each, place.1, if_pos (by omega), wordOf, place.1, place.2]
  · have row : call.numRecovery ≤ offset / call.blockSize64 :=
      (Nat.le_div_iff_mul_le pos).mpr behind
    have outside : ¬ (⟨recoveryBuffer, offset⟩ : Address).within ⟨recoveryBuffer, 0⟩
        (call.numRecovery * call.blockSize64) := fun inside => by
      have upper := inside.2.2
      dsimp only at upper
      omega
    dsimp only
    rw [if_pos rfl, each, if_neg (by omega), load, Address.plus, Nat.zero_add]
    exact if_neg outside

/-- All trees of a call fit into the memory. -/
def Fits (call : FengerCall) : Prop :=
  match call.route with
  | .legacy => True
  | .whole => treeFits call.numInputs ∧ treeFits call.numRecovery
  | .padded numInputsPadded numRecoveryPadded _ =>
    treeFits numInputsPadded ∧ treeFits numRecoveryPadded

/-- A recovery point is an input point, and the test of the ranges does not find it. -/
def Undetected (call : FengerCall) : Prop :=
  call.blockSize64 ≠ 0 ∧ call.route = .whole ∧ call.Fits ∧
    ∃ r < call.numRecovery, ∃ c < call.numInputs, call.Collides r c

theorem treeFits_pow (L : ℕ) :
    treeFits (2 ^ L) ↔ (L + 1) * 2 ^ L + (2 ^ (L + 1) - 1) ≤ SIZE_MAX / 8 := by
  rw [treeFits, Nat.log2_two_pow, pow_succ']

/-- A context that was prepared for the points of a call. -/
theorem preparePoints_some {y : ℕ → Gf64} {ctx : Option FengerContext} {numInputs numRecovery : ℕ}
    (prepared : (preparePoints kernels inverses x y (2 ^ a) (2 ^ b) numInputs numRecovery).map some =
      some ctx) :
    ∃ found, ctx = some found ∧ Prepared found x y a b ∧ found.num_inputs_real = numInputs ∧
      found.num_recovery_real = numRecovery := by
  obtain ⟨found, core, rfl⟩ := Option.map_eq_some_iff.mp prepared
  exact ⟨found, rfl, prepared_of_preparePoints core⟩

theorem prepare_whole (someInputs : call.numInputs ≠ 0) (someRecovery : call.numRecovery ≠ 0)
    (inputs : call.numInputs = 2 ^ a) (recovery : call.numRecovery = 2 ^ b) :
    gf64_fenger_prepare kernels inverses call.firstInput call.firstRecovery call.numInputs
      call.numRecovery = (preparePoints kernels inverses
        (inputPoint call.firstInput 0 call.numInputs) (recoveryPoint call.firstRecovery) (2 ^ a) (2 ^ b)
        call.numInputs call.numRecovery).map some := by
  rw [gf64_fenger_prepare, if_neg (by omega), gf64_fenger_prepare_core, ← inputs, ← recovery]

theorem prepare_padded (someInputs : call.numInputs ≠ 0) (someRecovery : call.numRecovery ≠ 0)
    (syntheticInputBase : BitVec 64) :
    gf64_fenger_prepare_padded kernels inverses call.firstInput call.firstRecovery call.numInputs
      call.numRecovery (2 ^ a) (2 ^ b) syntheticInputBase = (preparePoints kernels inverses
        (inputPoint call.firstInput syntheticInputBase call.numInputs)
        (recoveryPoint call.firstRecovery) (2 ^ a) (2 ^ b) call.numInputs call.numRecovery).map some := by
  have some_a := Nat.two_pow_pos a
  have some_b := Nat.two_pow_pos b
  rw [gf64_fenger_prepare_padded, if_neg (by omega), gf64_fenger_prepare_core]

/-- A preparation without the memory for both trees returns nothing. -/
theorem treeFits_of_preparePoints {y : ℕ → Gf64} {ctx : FengerContext} {numInputs numRecovery : ℕ}
    (prepared : preparePoints kernels inverses x y (2 ^ a) (2 ^ b) numInputs numRecovery = some ctx) :
    treeFits (2 ^ a) ∧ treeFits (2 ^ b) := by
  rw [treeFits_pow, treeFits_pow]
  by_contra few
  by_cases memory_x : (a + 1) * 2 ^ a + (2 ^ (a + 1) - 1) ≤ SIZE_MAX / 8
  · obtain ⟨tree_x, built_x, -⟩ := gf64_subproduct_tree_build_eq kernels x a memory_x
    rw [preparePoints, built_x, build_none kernels y b fun memory_y => few ⟨memory_x, memory_y⟩]
      at prepared
    cases prepared
  · rw [preparePoints, build_none kernels x a memory_x] at prepared
    cases prepared

/-- An execution at recovery points that are apart from the inputs. -/
theorem finished_of_executed {inputs : Words} {memory last : Memory} {prepared : Option FengerContext}
    (someWords : call.blockSize64 ≠ 0) (points : call.Points x a b)
    (returned : prepared = preparePoints kernels inverses x (recoveryPoint call.firstRecovery) (2 ^ a)
      (2 ^ b) call.numInputs call.numRecovery)
    (apart : treeFits (2 ^ a) → treeFits (2 ^ b) →
      ∀ r < call.numRecovery, ∀ c < call.numInputs, ¬ call.Collides r c)
    (executed : call.executePrepared kernels e host inputs (prepared.map some)
      (memset ⟨recoveryBuffer, 0⟩ (call.numRecovery * call.blockSize64) memory) last)
    (numThreads : ℤ) :
    (call.legacy numThreads).Finished call.firstInput call.firstRecovery inputs memory last := by
  obtain ⟨ctx, words, same, _⟩ := id executed
  obtain ⟨found, core, rfl⟩ := Option.map_eq_some_iff.mp same
  obtain ⟨isPrepared, inputsReal, recoveryReal⟩ := prepared_of_preparePoints (returned ▸ core)
  obtain ⟨fits_x, fits_y⟩ := treeFits_of_preparePoints (returned ▸ core)
  rw [same] at executed
  obtain ⟨written, behind⟩ := executePrepared_words someWords isPrepared recoveryReal points executed
  refine ⟨fun r row w word => ?_, behind⟩
  have none : (if (call.legacy numThreads).accumulate then
      memory ⟨recoveryBuffer, r * (call.legacy numThreads).blockSize64 + w⟩ else 0) = 0 :=
    if_neg Bool.false_ne_true
  rw [none, zero_add]
  exact (written r row w word).trans (recoveryWord_entrySum isPrepared inputsReal points row
    (apart fits_x fits_y r row) numThreads inputs w)

/-- A call whose points in common are all found makes the blocks of the whole matrix. -/
theorem finished_of_called {inputs : Words} {cache after : CoeffCache} {memory last : Memory}
    (someInputs : call.numInputs ≠ 0) (someRecovery : call.numRecovery ≠ 0)
    (someWords : call.blockSize64 ≠ 0) (detected : ¬ call.Undetected) (sound : cache.Sound)
    (called : call.ComputeRecoveryBlocksFenger kernels inverses e host inputs cache memory last after)
    (numThreads : ℤ) :
    (call.legacy numThreads).Finished call.firstInput call.firstRecovery inputs memory last := by
  rw [ComputeRecoveryBlocksFenger, if_neg (by omega)] at called
  dsimp only at called
  split at called
  case h_1 =>
    have finished : (call.legacy 0).Finished call.firstInput call.firstRecovery inputs _ last :=
      RecoveryCall.ComputeRecoveryBlocks_finished someInputs sound called
    refine ⟨fun r row w word => finished.words r row w word, fun offset behind => ?_⟩
    rw [finished.behind offset behind]
    exact if_neg fun inside => by
      have upper := inside.2.2
      dsimp only [legacy] at upper behind
      omega
  case h_2 route =>
    obtain ⟨a, b, inputsPow, recoveryPow, points⟩ := call.whole_points route
    rw [prepare_whole someInputs someRecovery inputsPow recoveryPow] at called
    refine finished_of_executed someWords points rfl (fun fits_x fits_y r row c input same => ?_) called.2
      numThreads
    have fits : call.Fits := by
      rw [Fits, route, inputsPow, recoveryPow]
      exact ⟨fits_x, fits_y⟩
    exact detected ⟨someWords, route, fits, r, row, c, input, same⟩
  case h_3 numInputsPadded numRecoveryPadded syntheticInputBase route =>
    obtain ⟨⟨a, b, rfl, rfl, points⟩, apart⟩ := call.padded_points route
    rw [prepare_padded someInputs someRecovery] at called
    exact finished_of_executed someWords points rfl (fun _ _ => apart) called.2 numThreads

/-- With the memory for the trees, an execution ends. -/
theorem executed_exists (someWords : call.blockSize64 ≠ 0) (points : call.Points x a b)
    (fits_x : treeFits (2 ^ a)) (fits_y : treeFits (2 ^ b)) (inputs : Words) (memory : Memory) :
    ∃ last, call.executePrepared kernels e host inputs
      ((preparePoints kernels inverses x (recoveryPoint call.firstRecovery) (2 ^ a) (2 ^ b)
        call.numInputs call.numRecovery).map some) memory last := by
  obtain ⟨ctx, core, prepared, -, real⟩ := preparePoints_prepared kernels inverses x
    (recoveryPoint call.firstRecovery) a b call.numInputs call.numRecovery
    ((treeFits_pow a).mp fits_x) ((treeFits_pow b).mp fits_y)
  obtain ⟨words, executed⟩ := execute_exists e host prepared
    (real.trans_le points.recovery) someWords kernels inputs (load memory ⟨recoveryBuffer, 0⟩)
  exact ⟨_, some ctx, words, congrArg (Option.map some) core, executed, rfl⟩

theorem called_exists (fits : call.Fits) (kernels : Kernels) (inverses : InverseKernels) (e : Option ℤ)
    (host : EngineHost) (inputs : Words) (cache : CoeffCache) (memory : Memory) :
    ∃ last after,
      call.ComputeRecoveryBlocksFenger kernels inverses e host inputs cache memory last after := by
  unfold ComputeRecoveryBlocksFenger
  split
  case isTrue => exact ⟨memory, cache, rfl, rfl⟩
  case isFalse work =>
    dsimp only
    split
    case h_1 =>
      exact RecoveryCall.ComputeRecoveryBlocks_exists _ _ _ _ _ _ _
    case h_2 route =>
      obtain ⟨a, b, inputsPow, recoveryPow, points⟩ := call.whole_points route
      rw [Fits, route, inputsPow, recoveryPow] at fits
      rw [prepare_whole (by omega) (by omega) inputsPow recoveryPow]
      obtain ⟨last, executed⟩ := executed_exists (by omega) points fits.1 fits.2 inputs _
      exact ⟨last, cache, rfl, executed⟩
    case h_3 numInputsPadded numRecoveryPadded syntheticInputBase route =>
      obtain ⟨⟨a, b, rfl, rfl, points⟩, -⟩ := call.padded_points route
      rw [Fits, route] at fits
      rw [prepare_padded (by omega) (by omega)]
      obtain ⟨last, executed⟩ := executed_exists (by omega) points fits.1 fits.2 inputs _
      exact ⟨last, cache, rfl, executed⟩

/-- One word, the first of an input. -/
def oneWord (call : FengerCall) (c : ℕ) : Words := fun i => if i = c * call.blockSize64 then 1 else 0

/-- At a recovery point that is an input, the word of this input is lost. -/
theorem collision_words {cache after plainCache plainAfter : CoeffCache} {memory last plain : Memory}
    {plainHost : EngineHost} {numThreads : ℤ} (someWords : call.blockSize64 ≠ 0)
    (route : call.route = .whole) {r c : ℕ} (row : r < call.numRecovery) (input : c < call.numInputs)
    (same : call.Collides r c) (sound : plainCache.Sound)
    (called : call.ComputeRecoveryBlocksFenger kernels inverses e host (call.oneWord c) cache memory last
      after)
    (legacyCalled : (call.legacy numThreads).ComputeRecoveryBlocks call.firstInput call.firstRecovery
      plainHost (call.oneWord c) plainCache memory plain plainAfter) :
    last ⟨recoveryBuffer, r * call.blockSize64⟩ = 0 ∧
      plain ⟨recoveryBuffer, r * call.blockSize64⟩ = 1 := by
  have pos := Nat.pos_of_ne_zero someWords
  constructor
  · rw [ComputeRecoveryBlocksFenger, if_neg (by omega)] at called
    dsimp only at called
    rw [route] at called
    obtain ⟨a, b, inputsPow, recoveryPow, points⟩ := call.whole_points route
    rw [prepare_whole (by omega) (by omega) inputsPow recoveryPow] at called
    obtain ⟨-, executed⟩ := called
    obtain ⟨ctx, words, prepared, _⟩ := id executed
    obtain ⟨found, rfl, isPrepared, -, real⟩ := preparePoints_some prepared
    rw [prepared] at executed
    have written := (executePrepared_words someWords isPrepared real points executed).1 r row 0 pos
    exact written.trans (recoveryWord_collision isPrepared points row input same _ 0)
  · have finished : (call.legacy numThreads).Finished call.firstInput call.firstRecovery
        (call.oneWord c) memory plain :=
      RecoveryCall.ComputeRecoveryBlocks_finished (by dsimp only [legacy]; omega) sound legacyCalled
    have zero : gf64OfNat (call.firstInput.toNat + c) + gf64OfNat (call.firstRecovery.toNat + r) = 0 := by
      rw [gf64OfNat, gf64OfNat, BitVec.ofNat_add, BitVec.ofNat_add, BitVec.ofNat_toNat,
        BitVec.ofNat_toNat, BitVec.setWidth_eq, BitVec.setWidth_eq, same]
      exact CharTwo.add_self_eq_zero _
    have entry : cauchyCoefficient call.firstInput.toNat call.firstRecovery.toNat r c = 1 := by
      simp only [cauchyCoefficient, zero, if_true]
    have total : (call.legacy numThreads).entrySum call.firstInput call.firstRecovery (call.oneWord c) r 0 =
        1 := by
      rw [RecoveryCall.entrySum, Finset.sum_eq_single c]
      · have here : call.oneWord c (c * call.blockSize64 + 0) = 1 := if_pos (Nat.add_zero _)
        exact (congrArg₂ (· * ·) here entry).trans (one_mul 1)
      · intro other _ apart
        have elsewhere : ¬ other * call.blockSize64 + 0 = c * call.blockSize64 := fun place =>
          apart (Nat.eq_of_mul_eq_mul_right pos place)
        have lost : call.oneWord c (other * call.blockSize64 + 0) = 0 := if_neg elsewhere
        exact (congrArg (· * _) lost).trans (zero_mul _)
      · exact fun absent => absurd (Finset.mem_range.mpr input) absent
    have word := finished.words r row 0 pos
    rw [total] at word
    exact word.trans ((congrArg (· + 1) (if_neg Bool.false_ne_true)).trans (zero_add 1))

end Calls

end FengerCall

/-- For every shape, range and sharding: a call makes the recovery blocks of the engine with the whole
matrix, whatever the data, if and only if no recovery point is an undetected input point. With the
memory for the trees, it ends. -/
theorem fenger_matches_iff (call : FengerCall) (kernels : Kernels) (inverses : InverseKernels)
    (e : Option ℤ) (host plainHost : EngineHost) :
    (call.Fits → ∀ inputs cache memory, ∃ last after,
      call.ComputeRecoveryBlocksFenger kernels inverses e host inputs cache memory last after) ∧
    ((∀ inputs cache plainCache memory, cache.Reachable → plainCache.Reachable →
      ∀ last after plain plainAfter,
        call.ComputeRecoveryBlocksFenger kernels inverses e host inputs cache memory last after →
        (call.legacy call.numThreads).ComputeRecoveryBlocks call.firstInput call.firstRecovery plainHost
          inputs plainCache memory plain plainAfter →
        ∀ offset, last ⟨recoveryBuffer, offset⟩ = plain ⟨recoveryBuffer, offset⟩) ↔
      ¬ call.Undetected) := by
  refine ⟨fun fits inputs cache memory =>
    FengerCall.called_exists fits kernels inverses e host inputs cache memory, ?_, ?_⟩
  · rintro same ⟨someWords, route, fits, r, row, c, input, collides⟩
    obtain ⟨last, after, called⟩ := FengerCall.called_exists fits kernels inverses e host
      (call.oneWord c) .empty fun _ => 0
    obtain ⟨plain, plainAfter, legacyCalled⟩ := RecoveryCall.ComputeRecoveryBlocks_exists
      (call.legacy call.numThreads) call.firstInput call.firstRecovery plainHost (call.oneWord c) .empty
      fun _ => 0
    obtain ⟨lost, kept⟩ := FengerCall.collision_words someWords route row input collides
      CoeffCache.Reachable.start.sound called legacyCalled
    have equal := same _ _ _ _ .start .start last after plain plainAfter called legacyCalled
      (r * call.blockSize64)
    rw [lost, kept] at equal
    exact zero_ne_one equal
  · intro detected inputs cache plainCache memory reachable plainReachable last after plain plainAfter
      called legacyCalled offset
    by_cases nothing : call.numInputs = 0 ∨ call.numRecovery = 0
    · rw [FengerCall.ComputeRecoveryBlocksFenger, if_pos (by omega)] at called
      unfold RecoveryCall.ComputeRecoveryBlocks at legacyCalled
      have unchanged := (iff_of_eq (if_pos nothing)).mp legacyCalled
      rw [called.1, unchanged.1]
    · have plainFinished : (call.legacy call.numThreads).Finished call.firstInput call.firstRecovery
          inputs memory plain :=
        RecoveryCall.ComputeRecoveryBlocks_finished (by dsimp only [FengerCall.legacy]; omega)
          plainReachable.sound legacyCalled
      by_cases noWords : call.blockSize64 = 0
      · rw [FengerCall.ComputeRecoveryBlocksFenger, if_pos (by omega)] at called
        rw [called.1, plainFinished.behind offset (by dsimp only [FengerCall.legacy]; rw [noWords]; omega)]
      · exact (FengerCall.finished_of_called (by omega) (by omega) noWords detected reachable.sound called
          call.numThreads).unique plainFinished offset

/-- Three inputs, padded to four behind the recovery blocks, and six words for four threads. -/
def paddedCall : FengerCall where
  numInputs := 3
  numRecovery := 2
  blockSize64 := 6
  firstInput := 0
  firstRecovery := 8
  numThreads := 4
  numInputs_small := by decide
  numRecovery_small := by decide

theorem fenger_matches_padded : ∃ last after plain plainAfter,
    paddedCall.ComputeRecoveryBlocksFenger ⟨false, true⟩ ⟨true, .scalar⟩ none oneProcessor (fun _ => 1)
      .empty (fun _ => 0) last after ∧
    (paddedCall.legacy paddedCall.numThreads).ComputeRecoveryBlocks paddedCall.firstInput
      paddedCall.firstRecovery oneProcessor (fun _ => 1) .empty (fun _ => 0) plain plainAfter ∧
    ∀ offset, last ⟨recoveryBuffer, offset⟩ = plain ⟨recoveryBuffer, offset⟩ := by
  obtain ⟨ends, matches_iff⟩ := fenger_matches_iff paddedCall ⟨false, true⟩ ⟨true, .scalar⟩ none
    oneProcessor oneProcessor
  have route : paddedCall.route = .padded 4 2 10 := by decide +kernel
  have fits : paddedCall.Fits := by
    rw [FengerCall.Fits, route]
    exact ⟨by decide +kernel, by decide +kernel⟩
  obtain ⟨last, after, called⟩ := ends fits (fun _ => 1) .empty fun _ => 0
  obtain ⟨plain, plainAfter, legacyCalled⟩ := RecoveryCall.ComputeRecoveryBlocks_exists
    (paddedCall.legacy paddedCall.numThreads) paddedCall.firstInput paddedCall.firstRecovery oneProcessor
    (fun _ => 1) .empty fun _ => 0
  exact ⟨last, after, plain, plainAfter, called, legacyCalled, matches_iff.mpr (fun undetected => by
    have whole := undetected.2.1
    rw [route] at whole
    cases whole) _ _ _ _ .start .start last after plain plainAfter called legacyCalled⟩

/-- The inputs are numbered from the last number on, and go on with zero. -/
def wrappedCall : FengerCall where
  numInputs := 2
  numRecovery := 1
  blockSize64 := 1
  firstInput := BitVec.allOnes 64
  firstRecovery := 0
  numThreads := 1
  numInputs_small := by decide
  numRecovery_small := by decide

theorem wrappedCall_route : wrappedCall.route = .whole := by decide

theorem wrapped_input_lost : ∃ last after plain plainAfter,
    wrappedCall.ComputeRecoveryBlocksFenger ⟨false, true⟩ ⟨true, .scalar⟩ none oneProcessor
      (fun i => if i = 1 then 1 else 0) .empty (fun _ => 0) last after ∧
    (wrappedCall.legacy wrappedCall.numThreads).ComputeRecoveryBlocks wrappedCall.firstInput
      wrappedCall.firstRecovery oneProcessor (fun i => if i = 1 then 1 else 0) .empty (fun _ => 0) plain
      plainAfter ∧
    last ⟨recoveryBuffer, 0⟩ = 0 ∧ plain ⟨recoveryBuffer, 0⟩ = 1 := by
  have fits : wrappedCall.Fits := by
    rw [FengerCall.Fits, wrappedCall_route]
    exact ⟨by decide +kernel, by decide +kernel⟩
  obtain ⟨last, after, called⟩ := FengerCall.called_exists fits ⟨false, true⟩ ⟨true, .scalar⟩ none
    oneProcessor (wrappedCall.oneWord 1) .empty fun _ => 0
  obtain ⟨plain, plainAfter, legacyCalled⟩ := RecoveryCall.ComputeRecoveryBlocks_exists
    (wrappedCall.legacy wrappedCall.numThreads) wrappedCall.firstInput wrappedCall.firstRecovery
    oneProcessor (wrappedCall.oneWord 1) .empty fun _ => 0
  have collides : wrappedCall.Collides 0 1 := by decide +kernel
  exact ⟨last, after, plain, plainAfter, called, legacyCalled, FengerCall.collision_words (by decide)
    wrappedCall_route (by decide) (by decide) collides CoeffCache.Reachable.start.sound called
    legacyCalled⟩

end Par3

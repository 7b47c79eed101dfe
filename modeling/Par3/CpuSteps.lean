import Par3.CpuRuns

/-!
# Steps of the backend

Each step keeps what holds of the backend. A message that packs an input and submits its batch is
taken as two, one after the other.
-/
namespace Par3

open Interleaving

namespace PAR2ProcCPU

open Message

variable {cfg : CpuConfig} {checksum : Buffer → Block} {state : PAR2ProcCPU}
  {messages : List Message}

/-- An area whose inputs, coefficients and blocks are kept still holds what it held. -/
theorem Held.congr {first second : Staging} (held : Held cfg checksum first)
    (inputs : second.inputs = first.inputs) (coeffs : second.procCoeffs = first.procCoeffs)
    (src : second.src = first.src) : Held cfg checksum second := by
  intro index input found
  rw [inputs] at found
  obtain ⟨right, prepared⟩ := held index input found
  constructor
  · intro out known
    rw [coeffs]
    exact right out known
  · intro block inside
    rw [src]
    exact prepared block inside

/-- Progress depends on the batches, their requests, the outputs and what the areas hold. -/
theorem Progress.congr {next : PAR2ProcCPU} {output block : ℕ} {done rest : List Batch}
    (progress : Progress cfg checksum state output block done rest)
    (kernels : next.kernels = state.kernels) (workers : next.thWorkers = state.thWorkers)
    (memory : next.memProcessing = state.memProcessing)
    (held : ∀ batch ∈ rest, (next.staging batch.inBuf).inputs =
      (state.staging batch.inBuf).inputs ∧ Held cfg checksum (next.staging batch.inBuf)) :
    Progress cfg checksum next output block done rest where
  batches := kernels.trans progress.batches
  requests := by
    rw [workers]
    exact progress.requests
  held batch member := by
    obtain ⟨inputs, kept⟩ := held batch member
    exact ⟨(progress.held batch member).1.trans inputs.symm, kept⟩
  value some := by
    rw [memory]
    exact progress.value some

/-! ## Filling an area -/

variable (cfg) in
/-- An input is added to the current area, which is not submitted yet. -/
def stage (state : PAR2ProcCPU) (input : CpuInput) : PAR2ProcCPU :=
  let area := state.staging state.currentStagingArea
  { state with
    staging := Function.update state.staging state.currentStagingArea
      { area with
        procCoeffs := set_coeffs cfg state.currentStagingInputs input area.procCoeffs
        inputs := area.inputs.take state.currentStagingInputs ++ [input] }
    currentStagingInputs := state.currentStagingInputs + 1
    added := state.added ++ [input] }

section Stage

variable (sound : Sound cfg checksum state messages) (input : CpuInput)

/-- Areas other than the current one are as before. -/
theorem stage_other {area : ℕ} (other : area ≠ state.currentStagingArea) :
    (stage cfg state input).staging area = state.staging area :=
  Function.update_of_ne other _ _

theorem stage_current : (stage cfg state input).staging state.currentStagingArea =
    { state.staging state.currentStagingArea with
      procCoeffs := set_coeffs cfg state.currentStagingInputs input
        (state.staging state.currentStagingArea).procCoeffs
      inputs := (state.staging state.currentStagingArea).inputs.take state.currentStagingInputs ++
        [input] } :=
  Function.update_self _ _ _

include sound in
/-- The inputs that are staged are a first part of those in the area. -/
theorem staged_length : ((state.staging state.currentStagingArea).inputs.take
    state.currentStagingInputs).length = state.currentStagingInputs := by
  by_cases some : 0 < state.currentStagingInputs
  · rw [List.length_take, (sound.staged some).2, min_self]
  · rw [Nat.eq_zero_of_not_pos some]
    rfl

theorem stage_inputs : ((stage cfg state input).staging state.currentStagingArea).inputs =
    (state.staging state.currentStagingArea).inputs.take state.currentStagingInputs ++ [input] :=
  congrArg Staging.inputs (stage_current input)

theorem stage_keeps (area : ℕ) :
    ((stage cfg state input).staging area).isActive = (state.staging area).isActive ∧
      ((stage cfg state input).staging area).procRefs = (state.staging area).procRefs := by
  by_cases same : area = state.currentStagingArea
  · rw [same, stage_current]
    exact ⟨rfl, rfl⟩
  · rw [stage_other input same]
    exact ⟨rfl, rfl⟩

include sound in
/-- An input that was staged before is where it was. -/
theorem staged_earlier {index : ℕ} {found : CpuInput}
    (there : ((state.staging state.currentStagingArea).inputs.take
      state.currentStagingInputs)[index]? = some found) :
    index < state.currentStagingInputs ∧
      (state.staging state.currentStagingArea).inputs[index]? = some found := by
  have below := (List.getElem?_eq_some_iff.mp there).1
  rw [staged_length sound] at below
  refine ⟨below, ?_⟩
  rw [List.getElem?_take_of_lt below] at there
  exact there

include sound in
/-- Each input of the area that is filled has its coefficients, and its block is packed or waits for
the transfer thread. The new one waits. -/
theorem stage_content (sized : cfg.Sized) (space : state.currentStagingInputs < cfg.inputBatchSize)
    {index : ℕ} {one : CpuInput}
    (found : ((stage cfg state input).staging state.currentStagingArea).inputs[index]? = some one) :
    CoeffsAt cfg ((stage cfg state input).staging state.currentStagingArea) index one ∧
      (PreparedAt cfg checksum ((stage cfg state input).staging state.currentStagingArea) index one ∨
        packing state.currentStagingArea index one.buffer ∈ messages ++
          [packing state.currentStagingArea state.currentStagingInputs input.buffer]) := by
  have length := staged_length sound
  have coeffsOf : ((stage cfg state input).staging state.currentStagingArea).procCoeffs =
      set_coeffs cfg state.currentStagingInputs input
        (state.staging state.currentStagingArea).procCoeffs :=
    congrArg Staging.procCoeffs (stage_current input)
  have srcOf : ((stage cfg state input).staging state.currentStagingArea).src =
      (state.staging state.currentStagingArea).src := by
    rw [stage_current]
  rw [stage_inputs, List.getElem?_append] at found
  split at found
  case isTrue =>
    obtain ⟨below, before⟩ := staged_earlier sound found
    have filled : 0 < state.currentStagingInputs := Nat.zero_lt_of_lt below
    obtain ⟨coeffs, prepared⟩ := sound.content _ (.inr ⟨rfl, filled⟩) index one before
    constructor
    · intro out known
      rw [coeffsOf, set_coeffs_eq sized input _ space (below.trans space) known, if_neg below.ne]
      exact coeffs out known
    · refine prepared.imp (fun there block inside => ?_) fun waits => List.mem_append_left _ waits
      rw [srcOf]
      exact there block inside
  case isFalse behind =>
    rw [length] at found
    rw [length, not_lt] at behind
    have last := (List.getElem?_eq_some_iff.mp found).1
    rw [List.length_singleton] at last
    have here : index = state.currentStagingInputs := by omega
    rw [here, Nat.sub_self] at found
    obtain rfl : input = one := Option.some.inj found
    rw [here]
    refine ⟨fun out known => ?_, .inr (List.mem_append_right _ (List.mem_singleton_self _))⟩
    rw [coeffsOf, set_coeffs_eq sized input _ space space known, if_pos rfl]

theorem stage_sound (sized : cfg.Sized) (sound : Sound cfg checksum state messages)
    (idle : (state.staging state.currentStagingArea).isActive = false)
    (space : state.currentStagingInputs < cfg.inputBatchSize) (allowed : Accepted cfg input) :
    Sound cfg checksum (stage cfg state input) (messages ++
      [packing state.currentStagingArea state.currentStagingInputs input.buffer]) := by
  obtain ⟨notSubmitted, notPending, notDone⟩ := sound.free idle
  have length := staged_length sound
  have submitted_eq : submitted (messages ++
      [packing state.currentStagingArea state.currentStagingInputs input.buffer]) =
        submitted messages := (submitted_append _ _).trans (List.append_nil _)
  have apart {area : ℕ} (member : area ∈ submitted messages) : area ≠ state.currentStagingArea :=
    fun same => notSubmitted (same ▸ member)
  have inputs := @stage_inputs cfg state input
  have newLength : ((stage cfg state input).staging state.currentStagingArea).inputs.length =
      state.currentStagingInputs + 1 := by
    rw [inputs, List.length_append, length, List.length_singleton]
  constructor
  case room => exact space
  case staged =>
    intro _
    exact ⟨(stage_keeps input _).1.trans idle, newLength⟩
  case small =>
    intro area
    by_cases same : area = state.currentStagingArea
    · rw [same, newLength]
      exact space
    · rw [stage_other input same]
      exact sound.small area
  case allowed =>
    intro area one member
    by_cases same : area = state.currentStagingArea
    · rw [same, inputs, List.mem_append, List.mem_singleton] at member
      obtain before | rfl := member
      · exact sound.allowed _ one (List.mem_of_mem_take before)
      · exact allowed
    · rw [stage_other input same] at member
      exact sound.allowed area one member
  case added =>
    rw [submitted_eq]
    have others : ((submitted messages).flatMap fun area =>
        ((stage cfg state input).staging area).inputs) =
          (submitted messages).flatMap fun area => (state.staging area).inputs := by
      apply List.flatMap_congr
      intro area member
      rw [stage_other input (apart member)]
    have all : ((stage cfg state input).staging
        (stage cfg state input).currentStagingArea).inputs.take
          (stage cfg state input).currentStagingInputs =
        (state.staging state.currentStagingArea).inputs.take state.currentStagingInputs ++
          [input] := by
      rw [← inputs]
      apply List.take_of_length_le
      exact newLength.le
    rw [others, all, ← List.append_assoc]
    exact congrArg (· ++ [input]) sound.added
  case counts =>
    intro area count member
    rw [List.mem_append, List.mem_singleton] at member
    obtain member | other := member
    · rw [stage_other input (apart (mem_submitted.mpr ⟨count, member⟩))]
      exact sound.counts area count member
    · cases other
  case ordered =>
    rw [List.pairwise_append]
    refine ⟨sound.ordered, List.pairwise_singleton _ _, ?_⟩
    intro message member later single area count same
    rw [List.mem_singleton] at single
    rw [single]
    rintro rfl
    exact notSubmitted (mem_submitted.mpr ⟨count, same ▸ member⟩)
  case targets =>
    intro message member
    rw [submitted_eq]
    rw [List.mem_append, List.mem_singleton] at member
    obtain member | rfl := member
    · obtain waits | ⟨here, -⟩ := sound.targets message member
      · exact .inl waits
      · exact .inr ⟨here, Nat.succ_pos _⟩
    · exact .inr ⟨rfl, Nat.succ_pos _⟩
  case prepares =>
    intro area index buffer member
    rw [List.mem_append, List.mem_singleton] at member
    obtain member | new := member
    · obtain ⟨one, found, same⟩ := sound.prepares area index buffer member
      refine ⟨one, ?_, same⟩
      by_cases here : area = state.currentStagingArea
      · subst here
        obtain waits | ⟨-, filled⟩ := sound.targets _ member
        · exact absurd waits notSubmitted
        · have full := (sound.staged filled).2
          rw [inputs, List.take_of_length_le full.le, List.getElem?_append_left]
          · exact found
          · exact (List.getElem?_eq_some_iff.mp found).1
      · rw [stage_other input here]
        exact found
    · cases new
      refine ⟨input, ?_, rfl⟩
      rw [inputs, List.getElem?_append_right length.le, length, Nat.sub_self]
      rfl
  case content =>
    intro area target index one found
    rw [submitted_eq] at target
    by_cases same : area = state.currentStagingArea
    · subst same
      exact stage_content sound input sized space found
    · rw [stage_other input same] at found ⊢
      have waits : area ∈ submitted messages := target.resolve_right fun here => same here.1
      obtain ⟨coeffs, prepared⟩ := sound.content area (.inl waits) index one found
      exact ⟨coeffs, prepared.imp_right fun there => List.mem_append_left _ there⟩
  case phases =>
    intro area
    rw [submitted_eq, (stage_keeps input area).1]
    exact sound.phases area
  case refs =>
    intro area some
    rw [(stage_keeps input area).2]
    exact sound.refs area some
  case adding => exact sound.adding
  case flags => exact sound.flags
  case known => exact sound.known
  case memory =>
    intro output known block inside
    obtain ⟨done, rest, progress⟩ := sound.memory output known block inside
    refine ⟨done, rest, progress.congr rfl rfl rfl ?_⟩
    intro batch member
    have other : batch.inBuf ≠ state.currentStagingArea := by
      intro same
      exact notPending (same ▸ Sound.busy sized known inside progress member)
    rw [stage_other input other]
    exact ⟨rfl, (progress.held batch member).2⟩

end Stage

/-! ## Submitting an area -/

section Submit

/-- A submission only locks an area. -/
theorem submit_keeps (area : ℕ) :
    ((submit cfg state).staging area).inputs = (state.staging area).inputs ∧
      ((submit cfg state).staging area).procCoeffs = (state.staging area).procCoeffs ∧
      ((submit cfg state).staging area).src = (state.staging area).src ∧
      ((submit cfg state).staging area).procRefs = (state.staging area).procRefs := by
  by_cases same : area = state.currentStagingArea
  · simp only [submit, same, Function.update_self, and_self]
  · simp only [submit, Function.update_of_ne same, and_self]

theorem submit_active (area : ℕ) : ((submit cfg state).staging area).isActive =
    if area = state.currentStagingArea then true else (state.staging area).isActive := by
  by_cases same : area = state.currentStagingArea
  · simp only [submit, same, Function.update_self, if_true]
  · simp only [submit, Function.update_of_ne same, same, if_false]

/-- What an area holds at an index, when its coefficients and blocks are kept. -/
theorem content_congr {first second : Staging} {index : ℕ} {input : CpuInput} {waits later : Prop}
    (content : CoeffsAt cfg first index input ∧
      (PreparedAt cfg checksum first index input ∨ waits))
    (coeffs : second.procCoeffs = first.procCoeffs) (src : second.src = first.src)
    (imp : waits → later) : CoeffsAt cfg second index input ∧
      (PreparedAt cfg checksum second index input ∨ later) := by
  obtain ⟨right, prepared⟩ := content
  constructor
  · intro out known
    rw [coeffs]
    exact right out known
  · apply prepared.imp _ imp
    intro there block inside
    rw [src]
    exact there block inside

theorem submit_sound (sound : Sound cfg checksum state messages)
    (filled : 0 < state.currentStagingInputs) : Sound cfg checksum (submit cfg state)
      (messages ++ [submission state.currentStagingArea state.currentStagingInputs]) := by
  obtain ⟨idle, full⟩ := sound.staged filled
  obtain ⟨notSubmitted, notPending, notDone⟩ := sound.free idle
  have submitted_eq : submitted (messages ++
      [submission state.currentStagingArea state.currentStagingInputs]) =
        submitted messages ++ [state.currentStagingArea] := submitted_append _ _
  have inputs (area : ℕ) : ((submit cfg state).staging area).inputs =
      (state.staging area).inputs := (submit_keeps area).1
  constructor
  case room => exact Nat.zero_le _
  case staged =>
    intro none
    cases none
  case small =>
    intro area
    rw [inputs]
    exact sound.small area
  case allowed =>
    intro area
    rw [inputs]
    exact sound.allowed area
  case added =>
    have none : ((submit cfg state).staging (submit cfg state).currentStagingArea).inputs.take
        (submit cfg state).currentStagingInputs = [] := rfl
    simp only [inputs] at none ⊢
    rw [submitted_eq, none, List.append_nil, List.flatMap_append, List.flatMap_singleton,
      ← List.append_assoc]
    have last := sound.added
    rw [List.take_of_length_le full.le] at last
    exact last
  case counts =>
    intro area count member
    rw [inputs]
    rw [List.mem_append, List.mem_singleton] at member
    obtain member | new := member
    · exact sound.counts area count member
    · cases new
      exact full
  case ordered =>
    rw [List.pairwise_append]
    refine ⟨sound.ordered, List.pairwise_singleton _ _, ?_⟩
    intro message member later single area count same
    rw [List.mem_singleton] at single
    rw [single]
    rintro rfl
    exact notSubmitted (mem_submitted.mpr ⟨count, same ▸ member⟩)
  case targets =>
    intro message member
    rw [submitted_eq, List.mem_append, List.mem_singleton]
    rw [List.mem_append, List.mem_singleton] at member
    obtain member | rfl := member
    · obtain waits | ⟨here, -⟩ := sound.targets message member
      · exact .inl (.inl waits)
      · exact .inl (.inr here)
    · exact .inl (.inr rfl)
  case prepares =>
    intro area index buffer member
    rw [inputs]
    rw [List.mem_append, List.mem_singleton] at member
    obtain member | new := member
    · exact sound.prepares area index buffer member
    · cases new
  case content =>
    intro area target index input found
    rw [submitted_eq, List.mem_append, List.mem_singleton] at target
    rw [inputs] at found
    have before : area ∈ submitted messages ∨
        area = state.currentStagingArea ∧ 0 < state.currentStagingInputs := by
      obtain (waits | here) | ⟨-, none⟩ := target
      · exact .inl waits
      · exact .inr ⟨here, filled⟩
      · cases none
    obtain ⟨-, coeffs, src, -⟩ := @submit_keeps cfg state area
    apply content_congr (sound.content area before index input found) coeffs src
    exact fun there => List.mem_append_left _ there
  case phases =>
    intro area
    rw [submitted_eq, submit_active, List.count_append]
    by_cases same : area = state.currentStagingArea
    · subst same
      rw [if_pos rfl, List.count_singleton_self, List.count_eq_zero.mpr notSubmitted]
      change 0 + 1 + (if 0 < pending state.thWorkers _ then 1 else 0) +
        state.queueProc.count _ = _
      rw [if_neg notPending, List.count_eq_zero.mpr notDone]
      rfl
    · have other : [state.currentStagingArea].count area = 0 :=
        List.count_eq_zero.mpr fun member => same (List.mem_singleton.mp member)
      rw [if_neg same, other, Nat.add_zero]
      exact sound.phases area
  case refs =>
    intro area some
    rw [(submit_keeps area).2.2.2]
    exact sound.refs area some
  case adding => exact sound.adding
  case flags => exact sound.flags
  case known => exact sound.known
  case memory =>
    intro output known block inside
    obtain ⟨done, rest, progress⟩ := sound.memory output known block inside
    refine ⟨done, rest, progress.congr rfl rfl rfl ?_⟩
    intro batch member
    obtain ⟨same, coeffs, src, -⟩ := @submit_keeps cfg state batch.inBuf
    exact ⟨same, (progress.held batch member).2.congr same coeffs src⟩

end Submit

/-! ## The transfer thread -/

section Transfer

variable (checksum) in
/-- An input is packed into its area. -/
def packed (cfg : CpuConfig) (state : PAR2ProcCPU) (inBuf index : ℕ) (buffer : Buffer) :
    PAR2ProcCPU :=
  { state with
    staging := Function.update state.staging inBuf
      { state.staging inBuf with
        src := perform (prepare cfg checksum buffer index) (state.staging inBuf).src } }

variable {inBuf index : ℕ} {buffer : Buffer}

theorem packed_keeps (area : ℕ) :
    ((packed checksum cfg state inBuf index buffer).staging area).inputs =
        (state.staging area).inputs ∧
      ((packed checksum cfg state inBuf index buffer).staging area).procCoeffs =
        (state.staging area).procCoeffs ∧
      ((packed checksum cfg state inBuf index buffer).staging area).isActive =
        (state.staging area).isActive ∧
      ((packed checksum cfg state inBuf index buffer).staging area).procRefs =
        (state.staging area).procRefs := by
  by_cases same : area = inBuf
  · simp only [packed, same, Function.update_self, and_self]
  · simp only [packed, Function.update_of_ne same, and_self]

theorem packed_other {area : ℕ} (other : area ≠ inBuf) :
    (packed checksum cfg state inBuf index buffer).staging area = state.staging area :=
  Function.update_of_ne other _ _

theorem packed_sound (sized : cfg.Sized)
    (sound : Sound cfg checksum state (packing inBuf index buffer :: messages)) :
    Sound cfg checksum (packed checksum cfg state inBuf index buffer) messages := by
  have submitted_eq : submitted (packing inBuf index buffer :: messages) = submitted messages := rfl
  have inputs (area : ℕ) : ((packed checksum cfg state inBuf index buffer).staging area).inputs =
      (state.staging area).inputs := (packed_keeps area).1
  obtain ⟨own, found, sameBuffer⟩ := sound.prepares inBuf index buffer List.mem_cons_self
  have inside : index < cfg.inputBatchSize :=
    lt_of_lt_of_le (List.getElem?_eq_some_iff.mp found).1 (sound.small inBuf)
  have srcOf : ((packed checksum cfg state inBuf index buffer).staging inBuf).src =
      perform (prepare cfg checksum buffer index) (state.staging inBuf).src := by
    simp only [packed, Function.update_self]
  constructor
  case room => exact sound.room
  case staged =>
    intro filled
    rw [(packed_keeps _).2.2.1, inputs]
    exact sound.staged filled
  case small =>
    intro area
    rw [inputs]
    exact sound.small area
  case allowed =>
    intro area
    rw [inputs]
    exact sound.allowed area
  case added =>
    simp only [inputs]
    exact sound.added
  case counts =>
    intro area count member
    rw [inputs]
    exact sound.counts area count (List.mem_cons_of_mem _ member)
  case ordered => exact (List.pairwise_cons.mp sound.ordered).2
  case targets =>
    intro message member
    exact sound.targets message (List.mem_cons_of_mem _ member)
  case prepares =>
    intro area place data member
    rw [inputs]
    exact sound.prepares area place data (List.mem_cons_of_mem _ member)
  case content =>
    intro area target place input there
    rw [inputs] at there
    obtain ⟨coeffs, prepared⟩ := sound.content area target place input there
    have placeInside : place < cfg.inputBatchSize :=
      lt_of_lt_of_le (List.getElem?_eq_some_iff.mp there).1 (sound.small area)
    constructor
    · intro out known
      rw [(packed_keeps area).2.1]
      exact coeffs out known
    · by_cases here : area = inBuf
      · subst here
        by_cases now : place = index
        · subst now
          obtain rfl : own = input := Option.some.inj (found.symm.trans there)
          refine .inl fun block known => ?_
          rw [srcOf, prepare_eq sized buffer inside inside known, if_pos rfl, sameBuffer]
        · apply prepared.imp
          · intro before block known
            rw [srcOf, prepare_eq sized buffer inside placeInside known, if_neg now]
            exact before block known
          · intro waits
            refine (List.mem_cons.mp waits).resolve_left fun same => now ?_
            cases same
            rfl
      · apply prepared.imp
        · intro before block known
          rw [packed_other here]
          exact before block known
        · intro waits
          refine (List.mem_cons.mp waits).resolve_left fun same => here ?_
          cases same
          rfl
  case phases =>
    intro area
    rw [(packed_keeps area).2.2.1]
    exact sound.phases area
  case refs =>
    intro area some
    rw [(packed_keeps area).2.2.2]
    exact sound.refs area some
  case adding => exact sound.adding
  case flags => exact sound.flags
  case known => exact sound.known
  case memory =>
    intro output known block within
    obtain ⟨done, rest, progress⟩ := sound.memory output known block within
    refine ⟨done, rest, progress.congr rfl rfl rfl ?_⟩
    intro batch member
    obtain ⟨notWaiting, notFilled⟩ :=
      sound.busy_apart (Sound.busy sized known within progress member)
    have other : batch.inBuf ≠ inBuf := by
      intro same
      obtain waits | filled := sound.targets _ List.mem_cons_self
      · exact notWaiting (same ▸ waits)
      · exact notFilled (same ▸ filled)
    rw [packed_other other]
    exact ⟨rfl, (progress.held batch member).2⟩

variable {count : ℕ}

/-- Running the kernel on an area only sets the number of requests it waits for. -/
theorem run_kernel_keeps (some : cfg.numOutputs ≠ 0) (area : ℕ) :
    ((state.run_kernel cfg inBuf count).staging area).inputs = (state.staging area).inputs ∧
      ((state.run_kernel cfg inBuf count).staging area).procCoeffs =
        (state.staging area).procCoeffs ∧
      ((state.run_kernel cfg inBuf count).staging area).src = (state.staging area).src ∧
      ((state.run_kernel cfg inBuf count).staging area).isActive =
        (state.staging area).isActive := by
  by_cases same : area = inBuf
  · simp only [run_kernel, some, same, if_false, Function.update_self, and_self]
  · simp only [run_kernel, some, if_false, Function.update_of_ne same, and_self]

/-- All requests that are sent are for the area. -/
theorem pending_run_kernel (sized : cfg.Sized) (some : cfg.numOutputs ≠ 0) (add : Bool)
    (area : ℕ) : pending (cfg.run_kernel inBuf count add) area =
      if area = inBuf then cfg.kernelRefs else 0 := by
  rw [pending]
  split
  case isTrue same =>
    rw [← (@CpuConfig.run_kernel_length cfg sized inBuf count add some).1, List.countP_eq_length]
    intro entry member
    apply decide_eq_true
    rw [same]
    exact (CpuConfig.run_kernel_fits sized member).1
  case isFalse other =>
    rw [List.countP_eq_zero]
    intro entry member here
    apply other
    rw [← of_decide_eq_true here]
    exact (CpuConfig.run_kernel_fits sized member).1

theorem pending_append (first second : List (ℕ × ComputeReq)) (area : ℕ) :
    pending (first ++ second) area = pending first area + pending second area :=
  List.countP_append

theorem run_kernel_workers (some : cfg.numOutputs ≠ 0) :
    (state.run_kernel cfg inBuf count).thWorkers = state.thWorkers ++
      cfg.run_kernel inBuf count state.processingAdd := by
  simp only [run_kernel, some, if_false]

theorem run_kernel_kernels (some : cfg.numOutputs ≠ 0) :
    (state.run_kernel cfg inBuf count).kernels = state.kernels ++
      [⟨inBuf, (state.staging inBuf).inputs, state.processingAdd⟩] := by
  simp only [run_kernel, some, if_false]

theorem run_kernel_others (some : cfg.numOutputs ≠ 0) :
    (state.run_kernel cfg inBuf count).added = state.added ∧
      (state.run_kernel cfg inBuf count).currentStagingArea = state.currentStagingArea ∧
      (state.run_kernel cfg inBuf count).currentStagingInputs = state.currentStagingInputs ∧
      (state.run_kernel cfg inBuf count).queueProc = state.queueProc ∧
      (state.run_kernel cfg inBuf count).processingAdd = true ∧
      (state.run_kernel cfg inBuf count).memProcessing = state.memProcessing := by
  simp only [run_kernel, some, if_false, and_self]

/-- An area that still holds its inputs does so when the kernel runs. -/
theorem Held.run_kernel (some : cfg.numOutputs ≠ 0) {area : ℕ}
    (held : Held cfg checksum (state.staging area)) :
    Held cfg checksum ((state.run_kernel cfg inBuf count).staging area) := by
  obtain ⟨inputs, coeffs, src, -⟩ := @run_kernel_keeps cfg state inBuf count some area
  exact held.congr inputs coeffs src

/-- The batch comes behind those that are left for a block of an output. -/
theorem run_kernel_progress (some : cfg.numOutputs ≠ 0) {output block : ℕ} {done rest : List Batch}
    (progress : Progress cfg checksum state output block done rest)
    (length : (state.staging inBuf).inputs.length = count)
    (held : Held cfg checksum (state.staging inBuf)) :
    Progress cfg checksum (state.run_kernel cfg inBuf count) output block done
      (rest ++ [⟨inBuf, (state.staging inBuf).inputs, state.processingAdd⟩]) where
  batches := by rw [run_kernel_kernels some, progress.batches, List.append_assoc]
  requests := by
    rw [run_kernel_workers some, List.filter_append, progress.requests, List.flatMap_append,
      List.flatMap_singleton, requestsFor, length]
  held batch member := by
    rw [(run_kernel_keeps some _).1]
    rw [List.mem_append, List.mem_singleton] at member
    obtain before | rfl := member
    · obtain ⟨same, holds⟩ := progress.held batch before
      exact ⟨same, holds.run_kernel some⟩
    · exact ⟨rfl, held.run_kernel some⟩
  value done := by
    rw [(run_kernel_others some).2.2.2.2.2]
    exact progress.value done

theorem run_kernel_sound (sized : cfg.Sized) (some : cfg.numOutputs ≠ 0)
    (sound : Sound cfg checksum state (submission inBuf count :: messages)) :
    Sound cfg checksum (state.run_kernel cfg inBuf count) messages := by
  have submitted_eq : submitted (submission inBuf count :: messages) =
      inBuf :: submitted messages := rfl
  have inputs (area : ℕ) : ((state.run_kernel cfg inBuf count).staging area).inputs =
      (state.staging area).inputs := (run_kernel_keeps some area).1
  have length : (state.staging inBuf).inputs.length = count :=
    sound.counts inBuf count List.mem_cons_self
  obtain ⟨first, ordered⟩ := List.pairwise_cons.mp sound.ordered
  have alone : ∀ message ∈ messages, message.inBuf ≠ inBuf :=
    fun message member => first message member inBuf count rfl
  have notSubmitted : inBuf ∉ submitted messages := by
    intro member
    obtain ⟨other, waits⟩ := mem_submitted.mp member
    exact alone _ waits rfl
  have phase := sound.phases inBuf
  rw [submitted_eq, List.count_cons_self] at phase
  have bound := Bool.toNat_le (state.staging inBuf).isActive
  have notPending : pending state.thWorkers inBuf = 0 := by
    by_contra busy
    rw [if_pos (Nat.pos_of_ne_zero busy)] at phase
    omega
  have workers := @run_kernel_workers cfg state inBuf count some
  have kernels := @run_kernel_kernels cfg state inBuf count some
  obtain ⟨added, current, staged, queue, adding, -⟩ := @run_kernel_others cfg state inBuf count some
  have held : Held cfg checksum (state.staging inBuf) := by
    intro index input found
    obtain ⟨coeffs, prepared⟩ := sound.content inBuf (.inl List.mem_cons_self) index input found
    refine ⟨coeffs, prepared.resolve_right fun waits => ?_⟩
    obtain same | later := List.mem_cons.mp waits
    · cases same
    · exact alone _ later rfl
  have pendings (area : ℕ) : pending (state.run_kernel cfg inBuf count).thWorkers area =
      pending state.thWorkers area + if area = inBuf then cfg.kernelRefs else 0 := by
    rw [workers, pending_append, pending_run_kernel sized some]
  have sent := (@CpuConfig.run_kernel_length cfg sized inBuf count state.processingAdd some).2
  constructor
  case room =>
    rw [staged]
    exact sound.room
  case staged =>
    intro filled
    rw [staged] at filled ⊢
    rw [current, (run_kernel_keeps some _).2.2.2, inputs]
    exact sound.staged filled
  case small =>
    intro area
    rw [inputs]
    exact sound.small area
  case allowed =>
    intro area
    rw [inputs]
    exact sound.allowed area
  case added =>
    have before := sound.added
    rw [submitted_eq, List.flatMap_cons] at before
    simp only [inputs]
    rw [added, kernels, current, staged, before, List.flatMap_append, List.flatMap_singleton,
      List.append_assoc, List.append_assoc, List.append_assoc, List.append_assoc]
  case counts =>
    intro area other member
    rw [inputs]
    exact sound.counts area other (List.mem_cons_of_mem _ member)
  case ordered => exact ordered
  case targets =>
    intro message member
    rw [current, staged]
    obtain waits | filled := sound.targets message (List.mem_cons_of_mem _ member)
    · rw [submitted_eq, List.mem_cons] at waits
      exact .inl (waits.resolve_left (alone message member))
    · exact .inr filled
  case prepares =>
    intro area index buffer member
    rw [inputs]
    exact sound.prepares area index buffer (List.mem_cons_of_mem _ member)
  case content =>
    intro area target index input found
    rw [inputs] at found
    rw [current, staged] at target
    have before := sound.content area (target.imp_left fun waits => List.mem_cons_of_mem _ waits)
      index input found
    apply content_congr before (run_kernel_keeps some area).2.1 (run_kernel_keeps some area).2.2.1
    intro waits
    refine (List.mem_cons.mp waits).resolve_left fun same => ?_
    cases same
  case phases =>
    intro area
    rw [pendings, queue, (run_kernel_keeps some area).2.2.2]
    by_cases same : area = inBuf
    · subst same
      rw [if_pos (by rw [if_pos rfl]; omega), List.count_eq_zero.mpr notSubmitted]
      rw [if_neg (by omega), List.count_eq_zero.mpr notSubmitted] at phase
      exact phase
    · have before := sound.phases area
      rw [submitted_eq, List.count_cons_of_ne (Ne.symm same)] at before
      rw [if_neg same, Nat.add_zero]
      exact before
  case refs =>
    intro area busy
    rw [pendings] at busy ⊢
    by_cases same : area = inBuf
    · subst same
      rw [if_pos rfl, notPending, Nat.zero_add]
      simp only [run_kernel, some, if_false, Function.update_self]
    · rw [if_neg same, Nat.add_zero] at busy ⊢
      simp only [run_kernel, some, if_false, Function.update_of_ne same]
      exact sound.refs area busy
  case adding =>
    rw [adding, kernels, List.length_append]
    rfl
  case flags =>
    intro index batch found
    rw [kernels, List.getElem?_append] at found
    split at found
    case isTrue => exact sound.flags index batch found
    case isFalse behind =>
      have last := (List.getElem?_eq_some_iff.mp found).1
      rw [List.length_singleton] at last
      have here : index = state.kernels.length := by omega
      rw [here, Nat.sub_self] at found
      obtain rfl := Option.some.inj found
      rw [here]
      exact sound.adding
  case known =>
    intro entry member
    rw [workers, List.mem_append] at member
    obtain before | new := member
    · exact sound.known entry before
    · exact (CpuConfig.run_kernel_fits sized new).2
  case memory =>
    intro output known block inside
    obtain ⟨done, rest, progress⟩ := sound.memory output known block inside
    exact ⟨done, _, run_kernel_progress some progress length held⟩

end Transfer

/-! ## The workers -/

section Work

theorem pending_cons (entry : ℕ × ComputeReq) (rest : List (ℕ × ComputeReq)) (area : ℕ) :
    pending (entry :: rest) area =
      pending rest area + if entry.2.procIdx = area then 1 else 0 := by
  rw [pending, List.countP_cons]
  simp only [decide_eq_true_eq]
  rfl

variable {thread : ℕ} {req : ComputeReq} {before after : List (ℕ × ComputeReq)}

theorem compute_keeps (area : ℕ) :
    ((state.compute cfg req).staging area).inputs = (state.staging area).inputs ∧
      ((state.compute cfg req).staging area).procCoeffs = (state.staging area).procCoeffs ∧
      ((state.compute cfg req).staging area).src = (state.staging area).src ∧
      ((state.compute cfg req).staging area).isActive = (state.staging area).isActive := by
  by_cases same : area = req.procIdx
  · simp only [compute, same, Function.update_self, and_self]
  · simp only [compute, Function.update_of_ne same, and_self]

/-- An output with the exponent zero is computed from coefficients of one. -/
theorem coeff_one {input : CpuInput} (allowed : Accepted cfg input) {output : ℕ}
    (known : output < cfg.numOutputs) (zero : cfg.outputExponents.getD output 0 = 0) :
    input.coeff cfg output = 1 := by
  obtain ⟨buffer, coefficients⟩ := input
  cases coefficients with
  | inputNum number =>
    simp only [CpuInput.coeff, zero]
    rw [gfmat_coeff_from_log, gfmat_coeff_log, Nat.mul_zero]
    decide
  | coeffs list =>
    have one := allowed (cfg.outputExponents.getD output 0) (by
      rw [List.getD_eq_getElem _ _ known]
      exact List.getElem_mem known)
    rw [zero] at one
    cases one

/-- The request of a worker is the next one for its blocks, and takes them a batch further. -/
theorem compute_progress (sized : cfg.Sized) (sound : Sound cfg checksum state messages)
    (queue : state.thWorkers = before ++ (thread, req) :: after)
    (turn : ∀ earlier ∈ before, earlier.1 ≠ thread) {output block : ℕ}
    (known : output < cfg.numOutputs) (inside : block < cfg.outputGeometry.inputBlocks)
    {done rest : List Batch} (progress : Progress cfg checksum state output block done rest) :
    ∃ done rest, Progress cfg checksum
      ({ state with thWorkers := before ++ after }.compute cfg req) output block done rest := by
  have keeps := @compute_keeps cfg { state with thWorkers := before ++ after } req
  have early : block / cfg.outputGeometry.chunkBlocks < cfg.numChunks := by
    rw [CpuConfig.chunk_lt_iff sized]
    exact lt_of_le_of_lt (Nat.div_mul_le_self _ _) inside
  obtain ⟨chunk, fits⟩ := sound.known (thread, req) (by rw [queue]; simp)
  obtain ⟨owner, once⟩ := CpuConfig.run_kernel_once sized early known
  have requests := progress.requests
  by_cases contains :
      cfg.Contains (block / cfg.outputGeometry.chunkBlocks) output (thread, req)
  · have owners : ∀ entry ∈ state.thWorkers,
        cfg.Contains (block / cfg.outputGeometry.chunkBlocks) output entry →
          entry.1 = owner := by
      intro entry member holds
      have requested : entry ∈ state.thWorkers.filter (fun entry => decide
          (cfg.Contains (block / cfg.outputGeometry.chunkBlocks) output entry)) :=
        List.mem_filter.mpr ⟨member, decide_eq_true holds⟩
      rw [requests, List.mem_flatMap] at requested
      obtain ⟨batch, -, sent⟩ := requested
      obtain ⟨found, alone, -⟩ := once batch.inBuf batch.inputs.length batch.add
      rw [requestsFor, alone, List.mem_singleton] at sent
      rw [sent]
    have none : before.filter (fun entry => decide
        (cfg.Contains (block / cfg.outputGeometry.chunkBlocks) output entry)) = [] := by
      rw [List.filter_eq_nil_iff]
      intro entry member holds
      apply turn entry member
      rw [owners entry (by rw [queue]; exact List.mem_append_left _ member)
        (of_decide_eq_true holds)]
      exact (owners (thread, req) (by rw [queue]; simp) contains).symm
    rw [queue, List.filter_append, none, List.nil_append, List.filter_cons,
      if_pos (decide_eq_true contains)] at requests
    cases rest with
    | nil => cases requests
    | cons batch rest =>
      obtain ⟨found, alone, numInputs, add, area⟩ :=
        once batch.inBuf batch.inputs.length batch.add
      rw [List.flatMap_cons, requestsFor, alone, List.singleton_append, List.cons.injEq,
        Prod.mk.injEq] at requests
      obtain ⟨⟨rfl, rfl⟩, later⟩ := requests
      obtain ⟨same, held⟩ := progress.held batch List.mem_cons_self
      have place : state.kernels[done.length]? = some batch := by
        rw [progress.batches, List.getElem?_append_right le_rfl, Nat.sub_self]
        rfl
      have flag := sound.flags done.length batch place
      refine ⟨done ++ [batch], rest, ?_, ?_, ?_, ?_⟩
      · exact progress.batches.trans (List.append_cons done batch rest)
      · exact (List.filter_append _ _).trans ((congrArg (· ++ _) none).trans later)
      · intro other member
        obtain ⟨inputs, holds⟩ := progress.held other (List.mem_cons_of_mem _ member)
        rw [(keeps other.inBuf).1]
        exact ⟨inputs, holds.congr (keeps _).1 (keeps _).2.1 (keeps _).2.2.1⟩
      · intro _
        have covers := contains
        rw [CpuConfig.Contains, fits.chunk_eq sized] at covers
        have acts := CpuConfig.compute_worker_once sized (state.staging req.procIdx).src
          (state.staging req.procIdx).procCoeffs fits covers inside ?_ state.memProcessing
        · change perform (cfg.compute_worker (state.staging req.procIdx).src
            (state.staging req.procIdx).procCoeffs req) state.memProcessing _ = _
          rw [acts, List.map_append, List.sum_append, List.map_singleton, List.sum_singleton,
            numInputs, area, same, requestTerm_eq held known inside]
          rw [add, flag]
          by_cases first : done = []
          · rw [first]
            rfl
          · have later : done.length ≠ 0 := fun empty => first (List.eq_nil_of_length_eq_zero empty)
            simp only [later, ne_eq, not_false_eq_true, decide_true, if_true]
            rw [progress.value first]
        · intro zero index below
          rw [numInputs, same] at below
          rw [area]
          have input := List.getElem?_eq_getElem below
          rw [(held index _ input).1 output known]
          exact coeff_one (sound.allowed _ _ (List.getElem_mem below)) known zero
  · refine ⟨done, rest, progress.batches, ?_, ?_, ?_⟩
    · rw [queue, List.filter_append, List.filter_cons_of_neg (by simpa using contains),
        ← List.filter_append] at requests
      exact requests
    · intro batch member
      obtain ⟨inputs, holds⟩ := progress.held batch member
      rw [(keeps batch.inBuf).1]
      exact ⟨inputs, holds.congr (keeps _).1 (keeps _).2.1 (keeps _).2.2.1⟩
    · intro some
      rw [CpuConfig.Contains, fits.chunk_eq sized] at contains
      have acts := CpuConfig.compute_worker_keeps sized (state.staging req.procIdx).src
        (state.staging req.procIdx).procCoeffs fits contains known inside state.memProcessing
      exact acts.trans (progress.value some)

/-- A worker is done with the first of its requests. -/
theorem compute_sound (sized : cfg.Sized)
    (sound : Sound cfg checksum state messages)
    (queue : state.thWorkers = before ++ (thread, req) :: after)
    (turn : ∀ earlier ∈ before, earlier.1 ≠ thread) :
    Sound cfg checksum ({ state with thWorkers := before ++ after }.compute cfg req)
      messages := by
  have pendings (area : ℕ) : pending state.thWorkers area =
      pending (before ++ after) area + if req.procIdx = area then 1 else 0 := by
    rw [queue, pending_append, pending_append, pending_cons, Nat.add_assoc]
  have busy : 0 < pending state.thWorkers req.procIdx := by
    rw [pendings, if_pos rfl]
    exact Nat.succ_pos _
  have refs := sound.refs req.procIdx busy
  have keeps := @compute_keeps cfg { state with thWorkers := before ++ after } req
  have inputs (area : ℕ) := (keeps area).1
  constructor
  case room => exact sound.room
  case staged =>
    intro filled
    rw [(keeps _).2.2.2, inputs]
    exact sound.staged filled
  case small =>
    intro area
    rw [inputs]
    exact sound.small area
  case allowed =>
    intro area
    rw [inputs]
    exact sound.allowed area
  case added =>
    simp only [inputs]
    exact sound.added
  case counts =>
    intro area count member
    rw [inputs]
    exact sound.counts area count member
  case ordered => exact sound.ordered
  case targets => exact sound.targets
  case prepares =>
    intro area index buffer member
    rw [inputs]
    exact sound.prepares area index buffer member
  case content =>
    intro area target index input found
    rw [inputs] at found
    exact content_congr (sound.content area target index input found) (keeps area).2.1
      (keeps area).2.2.1 id
  case phases =>
    intro area
    rw [(keeps area).2.2.2]
    have phases := sound.phases area
    rw [pendings] at phases
    change (submitted messages).count area +
      (if 0 < pending (before ++ after) area then 1 else 0) +
        (if (state.staging req.procIdx).procRefs ≤ 1 then state.queueProc ++ [req.procIdx]
          else state.queueProc).count area = (state.staging area).isActive.toNat
    rw [refs, pendings, if_pos rfl]
    by_cases same : req.procIdx = area
    · subst same
      rw [if_pos rfl, if_pos (Nat.succ_pos _)] at phases
      by_cases last : pending (before ++ after) req.procIdx = 0
      · rw [last, if_neg (lt_irrefl 0), if_pos (by omega), List.count_append,
          List.count_singleton_self]
        omega
      · rw [if_pos (Nat.pos_of_ne_zero last), if_neg (by omega)]
        exact phases
    · rw [if_neg same, Nat.add_zero] at phases
      have other : (if pending (before ++ after) req.procIdx + 1 ≤ 1 then
          state.queueProc ++ [req.procIdx] else state.queueProc).count area =
            state.queueProc.count area := by
        split
        · rw [List.count_append, List.count_singleton, Nat.add_eq_left]
          rw [if_neg]
          intro equal
          exact same (beq_iff_eq.mp equal)
        · rfl
      rw [other]
      exact phases
  case refs =>
    intro area some
    have some : 0 < pending (before ++ after) area := some
    by_cases same : area = req.procIdx
    · subst same
      simp only [compute, Function.update_self]
      rw [refs, pendings, if_pos rfl, Nat.add_sub_cancel]
    · simp only [compute, Function.update_of_ne same]
      rw [sound.refs area (by rw [pendings]; omega), pendings, if_neg (Ne.symm same), Nat.add_zero]
  case adding => exact sound.adding
  case flags => exact sound.flags
  case known =>
    intro entry member
    have member : entry ∈ before ++ after := member
    apply sound.known entry
    rw [queue]
    rw [List.mem_append] at member ⊢
    exact member.imp_right fun later => List.mem_cons_of_mem _ later
  case memory =>
    intro output known block inside
    obtain ⟨done, rest, progress⟩ := sound.memory output known block inside
    exact compute_progress sized sound queue turn known inside progress

end Work

end PAR2ProcCPU

end Par3

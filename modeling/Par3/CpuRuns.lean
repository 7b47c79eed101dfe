import Par3.CpuKernel
import Mathlib.Algebra.BigOperators.Fin

/-!
# Runs of the backend

A message to the transfer thread is a prepare, a submission, or both one after the other. An area
is free, or it waits for its submission, or it has requests at the workers, or the controller is to
be told that the last of them is done. While it has requests, it holds the inputs of its batch. A
block of an output is the sum over the batches whose request for it is done.
-/
namespace Par3

open Interleaving

namespace PAR2ProcCPU

variable (cfg : CpuConfig) (checksum : Buffer → Block)

/-! ## What an area holds -/

/-- What a list of inputs adds to a block of an output. -/
def contribution (inputs : List CpuInput) (output block : ℕ) : Block :=
  (inputs.map fun input =>
    input.coeff cfg output • preparedBlock cfg checksum input.buffer block).sum

variable {cfg checksum} in
theorem contribution_apply (inputs : List CpuInput) (output block word : ℕ) :
    contribution cfg checksum inputs output block word = (inputs.map fun input =>
      input.coeff cfg output * preparedBlock cfg checksum input.buffer block word).sum := by
  induction inputs with
  | nil => rfl
  | cons input rest ih =>
    rw [List.map_cons, List.sum_cons, ← ih, contribution, List.map_cons,
      List.sum_cons]
    rfl

/-- The coefficients of an input. -/
def CoeffsAt (area : Staging) (index : ℕ) (input : CpuInput) : Prop :=
  ∀ out < cfg.numOutputs,
    area.procCoeffs (out * cfg.inputBatchSize + index) = input.coeff cfg out

/-- The blocks of an input. -/
def PreparedAt (area : Staging) (index : ℕ) (input : CpuInput) : Prop :=
  ∀ block < cfg.inputGeometry.inputBlocks, area.src (cfg.inputGeometry.slot index block) =
    preparedBlock cfg checksum input.buffer block

def Held (area : Staging) : Prop :=
  ∀ index input, area.inputs[index]? = some input →
    CoeffsAt cfg area index input ∧ PreparedAt cfg checksum area index input

variable {cfg checksum}

/-- A request adds what the inputs of its area contribute. -/
theorem requestTerm_eq {area : Staging} (held : Held cfg checksum area) {output block : ℕ}
    (known : output < cfg.numOutputs) (inside : block < cfg.inputGeometry.inputBlocks) :
    cfg.requestTerm area.src area.procCoeffs area.inputs.length output block =
      contribution cfg checksum area.inputs output block := by
  rw [CpuConfig.requestTerm, contribution, Finset.sum_range, ← Fin.sum_univ_fun_getElem]
  apply Finset.sum_congr rfl
  intro index _
  obtain ⟨coeffs, prepared⟩ := held index _ (List.getElem?_eq_getElem index.isLt)
  rw [coeffs output known, prepared block inside]

theorem contribution_flatMap (batches : List Batch) (output block : ℕ) :
    contribution cfg checksum (batches.flatMap Batch.inputs) output block =
      (batches.map fun batch => contribution cfg checksum batch.inputs output block).sum := by
  induction batches with
  | nil => rfl
  | cons batch rest ih =>
    rw [List.flatMap_cons, contribution, List.map_append, List.sum_append, List.map_cons,
      List.sum_cons, ← ih]
    rfl

/-- The coefficients of one input are set, the others are kept. -/
theorem set_coeffs_eq (sized : cfg.Sized) {index other : ℕ} (input : CpuInput)
    (coeffs : ℕ → Gf16) (inside : index < cfg.inputBatchSize)
    (otherInside : other < cfg.inputBatchSize) {out : ℕ} (known : out < cfg.numOutputs) :
    set_coeffs cfg index input coeffs (out * cfg.inputBatchSize + other) =
      if other = index then input.coeff cfg out
      else coeffs (out * cfg.inputBatchSize + other) := by
  have place (first second : ℕ) :
      out * cfg.inputBatchSize + other = index + second * cfg.inputBatchSize ↔
        second = out ∧ other = index := by
    constructor
    · intro same
      have quotient := congrArg (· / cfg.inputBatchSize) same
      have remainder := congrArg (· % cfg.inputBatchSize) same
      simp only [Nat.mul_add_mod_self_right, Nat.add_mul_mod_self_right, Nat.mod_eq_of_lt inside,
        Nat.mod_eq_of_lt otherInside] at remainder
      simp only [Nat.add_mul_div_right _ _ sized.batch_pos, Nat.div_eq_of_lt inside,
        Nat.add_comm (out * _), Nat.div_eq_of_lt otherInside, Nat.zero_add] at quotient
      exact ⟨quotient.symm, remainder⟩
    · rintro ⟨rfl, rfl⟩
      exact Nat.add_comm _ _
  have all (count : ℕ) : (List.range count).foldl (fun coeffs out =>
        Function.update coeffs (index + out * cfg.inputBatchSize) (input.coeff cfg out)) coeffs
        (out * cfg.inputBatchSize + other) =
      if out < count ∧ other = index then input.coeff cfg out
      else coeffs (out * cfg.inputBatchSize + other) := by
    induction count with
    | zero =>
      rw [if_neg fun found => Nat.not_lt_zero _ found.1]
      rfl
    | succ count ih =>
      rw [List.range_succ, List.foldl_append, List.foldl_cons, List.foldl_nil, Function.update_apply,
        ih]
      by_cases here : count = out ∧ other = index
      · rw [if_pos ((place 0 count).mpr here), if_pos ⟨by omega, here.2⟩, here.1]
      · rw [if_neg fun same => here ((place 0 count).mp same)]
        apply if_congr _ rfl rfl
        constructor
        · rintro ⟨below, same⟩
          exact ⟨Nat.lt_succ_of_lt below, same⟩
        · rintro ⟨below, same⟩
          refine ⟨?_, same⟩
          apply lt_of_le_of_ne (Nat.le_of_lt_succ below)
          intro last
          exact here ⟨last.symm, same⟩
  rw [set_coeffs, all]
  apply if_congr _ rfl rfl
  exact and_iff_right known

/-- The blocks of one input are written, the others are kept. -/
theorem prepare_eq (sized : cfg.Sized) (buffer : Buffer) {index other block : ℕ}
    (inside : index < cfg.inputBatchSize) (otherInside : other < cfg.inputBatchSize)
    (known : block < cfg.inputGeometry.inputBlocks) (src : ℕ → Block) :
    perform (prepare cfg checksum buffer index) src (cfg.inputGeometry.slot other block) =
      if other = index then preparedBlock cfg checksum buffer block
      else src (cfg.inputGeometry.slot other block) := by
  have blocked := CpuConfig.input_blocked sized
  have all (count : ℕ) (few : count ≤ cfg.inputGeometry.inputBlocks) :
      perform ((List.range count).map fun block memory =>
        Function.update memory (cfg.inputGeometry.slot index block)
          (preparedBlock cfg checksum buffer block)) src (cfg.inputGeometry.slot other block) =
      if block < count ∧ other = index then preparedBlock cfg checksum buffer block
      else src (cfg.inputGeometry.slot other block) := by
    induction count with
    | zero =>
      rw [if_neg fun found => Nat.not_lt_zero _ found.1]
      rfl
    | succ count ih =>
      rw [List.range_succ, List.map_append, perform_append, List.map_singleton, perform_cons,
        perform_nil, Function.update_apply, ih (Nat.le_of_succ_le few)]
      by_cases here : count = block ∧ other = index
      · obtain ⟨rfl, rfl⟩ := here
        rw [if_pos rfl, if_pos ⟨Nat.lt_succ_self _, rfl⟩]
      · rw [if_neg]
        · apply if_congr _ rfl rfl
          constructor
          · rintro ⟨below, same⟩
            exact ⟨Nat.lt_succ_of_lt below, same⟩
          · rintro ⟨below, same⟩
            refine ⟨?_, same⟩
            apply lt_of_le_of_ne (Nat.le_of_lt_succ below)
            intro last
            exact here ⟨last.symm, same⟩
        · intro same
          obtain ⟨inputs, blocks⟩ := PackedGeometry.slot_injective blocked otherInside inside known
            few same
          exact here ⟨blocks.symm, inputs⟩
  rw [prepare, all _ le_rfl]
  apply if_congr _ rfl rfl
  exact and_iff_right known

/-! ## What a backend keeps -/

/-- The parts of a message to the transfer thread. -/
inductive Message where
  | packing (inBuf index : ℕ) (buffer : Buffer)
  | submission (inBuf count : ℕ)

namespace Message

def inBuf : Message → ℕ
  | packing inBuf _ _ => inBuf
  | submission inBuf _ => inBuf

/-- The parts of a message. -/
def parts (data : Transfer) : List Message :=
  (match data.src with
    | some buffer => [packing data.inBufId data.index buffer]
    | none => []) ++
    if data.submitInBufs ≠ 0 then [submission data.inBufId data.submitInBufs] else []

/-- The areas that are to be submitted. -/
def submitted (messages : List Message) : List ℕ :=
  messages.filterMap fun message =>
    match message with
    | packing _ _ _ => none
    | submission inBuf _ => some inBuf

theorem submitted_append (first second : List Message) :
    submitted (first ++ second) = submitted first ++ submitted second :=
  List.filterMap_append

theorem mem_submitted {messages : List Message} {area : ℕ} :
    area ∈ submitted messages ↔ ∃ count, submission area count ∈ messages := by
  rw [submitted, List.mem_filterMap]
  constructor
  · rintro ⟨message, member, same⟩
    cases message with
    | packing => cases same
    | submission inBuf count =>
      obtain rfl := Option.some.inj same
      exact ⟨count, member⟩
  · rintro ⟨count, member⟩
    exact ⟨_, member, rfl⟩

end Message

open Message

/-- The requests for an area. -/
def pending (workers : List (ℕ × ComputeReq)) (area : ℕ) : ℕ :=
  workers.countP fun entry => entry.2.procIdx = area

variable (cfg checksum)

/-- The requests for a block of an output that a batch sends. -/
def requestsFor (own output : ℕ) (batch : Batch) : List (ℕ × ComputeReq) :=
  (cfg.run_kernel batch.inBuf batch.inputs.length batch.add).filter
    fun entry => cfg.Contains own output entry

/-- How far the batches are done for a block of an output. -/
structure Progress (state : PAR2ProcCPU) (output block : ℕ) (done rest : List Batch) : Prop where
  batches : state.kernels = done ++ rest
  requests : (state.thWorkers.filter fun entry =>
    cfg.Contains (block / cfg.outputGeometry.chunkBlocks) output entry) =
      rest.flatMap (requestsFor cfg (block / cfg.outputGeometry.chunkBlocks) output)
  held : ∀ batch ∈ rest, batch.inputs = (state.staging batch.inBuf).inputs ∧
    Held cfg checksum (state.staging batch.inBuf)
  value : done ≠ [] → state.memProcessing (cfg.outputGeometry.slot output block) =
    (done.map fun batch => contribution cfg checksum batch.inputs output block).sum

/-- What holds in every state that a backend reaches, with these messages on their way to the
transfer thread. -/
structure Sound (state : PAR2ProcCPU) (messages : List Message) : Prop where
  room : state.currentStagingInputs ≤ cfg.inputBatchSize
  staged : 0 < state.currentStagingInputs →
    (state.staging state.currentStagingArea).isActive = false ∧
      (state.staging state.currentStagingArea).inputs.length = state.currentStagingInputs
  small : ∀ area, (state.staging area).inputs.length ≤ cfg.inputBatchSize
  allowed : ∀ area, ∀ input ∈ (state.staging area).inputs, Accepted cfg input
  added : state.added = state.kernels.flatMap Batch.inputs ++
    ((submitted messages).flatMap fun area => (state.staging area).inputs) ++
      (state.staging state.currentStagingArea).inputs.take state.currentStagingInputs
  counts : ∀ area count, submission area count ∈ messages →
    (state.staging area).inputs.length = count
  ordered : messages.Pairwise fun earlier later =>
    ∀ area count, earlier = submission area count → later.inBuf ≠ area
  targets : ∀ message ∈ messages, message.inBuf ∈ submitted messages ∨
    message.inBuf = state.currentStagingArea ∧ 0 < state.currentStagingInputs
  prepares : ∀ area index buffer, packing area index buffer ∈ messages →
    ∃ input, (state.staging area).inputs[index]? = some input ∧ input.buffer = buffer
  content : ∀ area, area ∈ submitted messages ∨
      area = state.currentStagingArea ∧ 0 < state.currentStagingInputs →
    ∀ index input, (state.staging area).inputs[index]? = some input →
      CoeffsAt cfg (state.staging area) index input ∧
        (PreparedAt cfg checksum (state.staging area) index input ∨
          packing area index input.buffer ∈ messages)
  phases : ∀ area, (submitted messages).count area +
    (if 0 < pending state.thWorkers area then 1 else 0) + state.queueProc.count area =
      (state.staging area).isActive.toNat
  refs : ∀ area, 0 < pending state.thWorkers area →
    (state.staging area).procRefs = pending state.thWorkers area
  adding : state.processingAdd = decide (state.kernels.length ≠ 0)
  flags : ∀ index batch, state.kernels[index]? = some batch → batch.add = decide (index ≠ 0)
  known : ∀ entry ∈ state.thWorkers, ∃ chunk, cfg.Fits entry.2 chunk
  memory : ∀ output < cfg.numOutputs, ∀ block < cfg.outputGeometry.inputBlocks,
    ∃ done rest, Progress cfg checksum state output block done rest

variable {cfg checksum}

theorem start_sound (memory : ℕ → Block) (areas : ℕ → ℕ → Block)
    (coeffs : ℕ → ℕ → Gf16) : Sound cfg checksum (start memory areas coeffs) [] where
  room := Nat.zero_le _
  staged some := by cases some
  small _ := Nat.zero_le _
  allowed _ _ member := by cases member
  added := rfl
  counts _ _ member := by cases member
  ordered := List.Pairwise.nil
  targets _ member := by cases member
  prepares _ _ _ member := by cases member
  content _ _ _ _ found := by cases found
  phases _ := rfl
  refs _ some := by cases some
  adding := rfl
  flags _ _ found := by cases found
  known _ member := by cases member
  memory _ _ _ _ := by
    refine ⟨[], [], rfl, rfl, ?_, ?_⟩
    · intro _ member
      cases member
    · intro some
      exact absurd rfl some

namespace Sound

variable {state : PAR2ProcCPU} {messages : List Message}

/-- An area that is free has no requests, and no submission is on its way. -/
theorem free (sound : Sound cfg checksum state messages) {area : ℕ}
    (idle : (state.staging area).isActive = false) :
    area ∉ submitted messages ∧ ¬ 0 < pending state.thWorkers area ∧ area ∉ state.queueProc := by
  have phases := sound.phases area
  rw [idle, Bool.toNat_false] at phases
  have none := Nat.add_eq_zero_iff.mp phases
  have both := Nat.add_eq_zero_iff.mp none.1
  refine ⟨List.count_eq_zero.mp both.1, ?_, List.count_eq_zero.mp none.2⟩
  intro some
  rw [if_pos some] at both
  cases both.2

/-- A batch with a request left has a request at the workers. -/
theorem busy (sized : cfg.Sized) {output block : ℕ} {done rest : List Batch}
    (known : output < cfg.numOutputs) (inside : block < cfg.outputGeometry.inputBlocks)
    (progress : Progress cfg checksum state output block done rest) {batch : Batch}
    (member : batch ∈ rest) : 0 < pending state.thWorkers batch.inBuf := by
  have pos := PackedGeometry.chunkBlocks_pos (CpuConfig.output_blocked sized)
  have early : block / cfg.outputGeometry.chunkBlocks < cfg.numChunks := by
    rw [CpuConfig.chunk_lt_iff sized]
    exact lt_of_le_of_lt (Nat.div_mul_le_self _ _) inside
  obtain ⟨thread, once⟩ := CpuConfig.run_kernel_once sized early known
  obtain ⟨req, alone, -, -, area⟩ := once batch.inBuf batch.inputs.length batch.add
  have sent : (thread, req) ∈ state.thWorkers := by
    have requested : (thread, req) ∈
        rest.flatMap (requestsFor cfg (block / cfg.outputGeometry.chunkBlocks) output) := by
      rw [List.mem_flatMap]
      refine ⟨batch, member, ?_⟩
      rw [requestsFor, alone]
      exact List.mem_singleton_self _
    rw [← progress.requests] at requested
    exact List.mem_of_mem_filter requested
  rw [pending, List.countP_pos_iff]
  exact ⟨(thread, req), sent, decide_eq_true area⟩

/-- An area with a request is none that is filled or waits for its submission. -/
theorem busy_apart (sound : Sound cfg checksum state messages) {area : ℕ}
    (some : 0 < pending state.thWorkers area) : area ∉ submitted messages ∧
      ¬ (area = state.currentStagingArea ∧ 0 < state.currentStagingInputs) := by
  have phases := sound.phases area
  have bound := Bool.toNat_le (state.staging area).isActive
  rw [if_pos some] at phases
  constructor
  · intro member
    have count := List.count_pos_iff.mpr member
    omega
  · rintro ⟨rfl, filled⟩
    exact (sound.free (sound.staged filled).1).2.1 some

end Sound

end PAR2ProcCPU

end Par3

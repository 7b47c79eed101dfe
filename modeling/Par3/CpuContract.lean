import Par3.CpuSteps

/-!
# What the backend computes

Whatever the order in which messages are taken up and requests are done, a block of an output is in
the end the sum over all inputs that were added, each multiplied by its coefficient. A backend that
has messages or requests left can take them up, and comes to an end.
-/
namespace Par3

open Interleaving

namespace PAR2ProcCPU

open Message

variable {cfg : CpuConfig} {checksum : Buffer → Block} {state : PAR2ProcCPU}
  {messages : List Message}

/-! ## Steps -/

/-- Where messages wait has no part in what a state holds. -/
theorem Sound.requeue (sound : Sound cfg checksum state messages)
    (transferThread : List Transfer) :
    Sound cfg checksum { state with transferThread := transferThread } messages where
  room := sound.room
  staged := sound.staged
  small := sound.small
  allowed := sound.allowed
  added := sound.added
  counts := sound.counts
  ordered := sound.ordered
  targets := sound.targets
  prepares := sound.prepares
  content := sound.content
  phases := sound.phases
  refs := sound.refs
  adding := sound.adding
  flags := sound.flags
  known := sound.known
  memory output known block inside := by
    obtain ⟨done, rest, progress⟩ := sound.memory output known block inside
    exact ⟨done, rest, progress.batches, progress.requests, progress.held, progress.value⟩

theorem notifyProc_keeps (procIdx area : ℕ) :
    ((state._notifyProc procIdx).staging area).inputs = (state.staging area).inputs ∧
      ((state._notifyProc procIdx).staging area).procCoeffs = (state.staging area).procCoeffs ∧
      ((state._notifyProc procIdx).staging area).src = (state.staging area).src ∧
      ((state._notifyProc procIdx).staging area).procRefs = (state.staging area).procRefs := by
  by_cases same : area = procIdx
  · simp only [_notifyProc, same, Function.update_self, and_self]
  · simp only [_notifyProc, Function.update_of_ne same, and_self]

theorem notifyProc_active (procIdx area : ℕ) :
    ((state._notifyProc procIdx).staging area).isActive =
      if area = procIdx then false else (state.staging area).isActive := by
  by_cases same : area = procIdx
  · simp only [_notifyProc, same, Function.update_self, if_true]
  · simp only [_notifyProc, Function.update_of_ne same, same, if_false]

/-- An area is free when the controller is told that it has been processed. -/
theorem notifyProc_sound (sound : Sound cfg checksum state messages) {procIdx : ℕ}
    (member : procIdx ∈ state.queueProc) :
    Sound cfg checksum
      ({ state with queueProc := state.queueProc.erase procIdx }._notifyProc procIdx) messages := by
  have keeps := @notifyProc_keeps { state with queueProc := state.queueProc.erase procIdx } procIdx
  have active := @notifyProc_active { state with queueProc := state.queueProc.erase procIdx } procIdx
  have inputs (area : ℕ) := (keeps area).1
  constructor
  · exact sound.room
  · intro filled
    obtain ⟨idle, length⟩ := sound.staged filled
    rw [active, inputs]
    refine ⟨?_, length⟩
    split
    · rfl
    · exact idle
  · intro area
    rw [inputs]
    exact sound.small area
  · intro area
    rw [inputs]
    exact sound.allowed area
  · simp only [inputs]
    exact sound.added
  · intro area count waits
    rw [inputs]
    exact sound.counts area count waits
  · exact sound.ordered
  · exact sound.targets
  · intro area index buffer waits
    rw [inputs]
    exact sound.prepares area index buffer waits
  · intro area target index input found
    rw [inputs] at found
    exact content_congr (sound.content area target index input found) (keeps area).2.1
      (keeps area).2.2.1 id
  · intro area
    rw [active]
    have phases := sound.phases area
    have some := List.count_pos_iff.mpr member
    change _ + (if 0 < pending state.thWorkers area then 1 else 0) +
      (state.queueProc.erase procIdx).count area = _
    rw [List.count_erase]
    by_cases same : area = procIdx
    · subst same
      have most := Bool.toNat_le (state.staging area).isActive
      rw [if_pos (beq_self_eq_true area), if_pos rfl, Bool.toNat_false]
      omega
    · rw [if_neg fun equal => same (beq_iff_eq.mp equal).symm, if_neg same, Nat.sub_zero]
      exact phases
  · intro area some
    rw [(keeps area).2.2.2]
    exact sound.refs area some
  · exact sound.adding
  · exact sound.flags
  · exact sound.known
  · intro output known block inside
    obtain ⟨done, rest, progress⟩ := sound.memory output known block inside
    refine ⟨done, rest, progress.batches, progress.requests, ?_, progress.value⟩
    intro batch waits
    obtain ⟨same, held⟩ := progress.held batch waits
    rw [inputs]
    exact ⟨same, held.congr (keeps _).1 (keeps _).2.1 (keeps _).2.2.1⟩

/-! ## Runs -/

/-- What holds in every state that a backend reaches. An area is submitted when it is full. -/
structure Reached (cfg : CpuConfig) (checksum : Buffer → Block) (state : PAR2ProcCPU) : Prop where
  sound : Sound cfg checksum state (state.transferThread.flatMap parts)
  space : state.currentStagingInputs < cfg.inputBatchSize

theorem flatMap_parts_append (transfers : List Transfer) (data : Transfer) :
    (transfers ++ [data]).flatMap parts = transfers.flatMap parts ++ parts data := by
  rw [List.flatMap_append, List.flatMap_singleton]

theorem addInput_reached (sized : cfg.Sized) (reached : Reached cfg checksum state)
    {input : CpuInput} (flush : Bool)
    (idle : (state.staging state.currentStagingArea).isActive = false)
    (allowed : Accepted cfg input) :
    Reached cfg checksum (state._addInput cfg input flush) := by
  have staged := stage_sound input sized reached.sound idle reached.space allowed
  by_cases submits : state.Submits cfg flush (state.currentStagingInputs + 1)
  · have sent := submit_sound staged (Nat.succ_pos _)
    rw [_addInput]
    simp only [submits, if_true]
    constructor
    · have parted := flatMap_parts_append state.transferThread ⟨some input.buffer,
        state.currentStagingInputs, state.currentStagingInputs + 1, state.currentStagingArea⟩
      rw [parts, if_pos (Nat.succ_ne_zero _), ← List.append_assoc] at parted
      exact (congrArg _ parted).mpr (sent.requeue _)
    · exact sized.batch_pos
  · rw [_addInput]
    simp only [submits, if_false]
    constructor
    · have parted := flatMap_parts_append state.transferThread ⟨some input.buffer,
        state.currentStagingInputs, 0, state.currentStagingArea⟩
      rw [parts, if_neg (not_not.mpr rfl), List.append_nil] at parted
      exact (congrArg _ parted).mpr (staged.requeue _)
    · apply lt_of_le_of_ne reached.space
      intro full
      exact submits (Or.inr (Or.inl full))

theorem flush_reached (sized : cfg.Sized) (reached : Reached cfg checksum state) :
    Reached cfg checksum (state.flush cfg) := by
  rw [flush]
  split
  · exact reached
  · next some =>
    have sent := submit_sound reached.sound (Nat.pos_of_ne_zero some)
    constructor
    · have parted := flatMap_parts_append state.transferThread ⟨none, 0,
        state.currentStagingInputs, state.currentStagingArea⟩
      rw [parts, if_pos some, List.nil_append] at parted
      exact (congrArg _ parted).mpr (sent.requeue _)
    · exact sized.batch_pos

theorem run_kernel_space (inBuf count : ℕ) :
    (state.run_kernel cfg inBuf count).currentStagingInputs = state.currentStagingInputs ∧
      (state.run_kernel cfg inBuf count).transferThread = state.transferThread ∧
      (state.run_kernel cfg inBuf count).added = state.added := by
  rw [run_kernel]
  split <;> exact ⟨rfl, rfl, rfl⟩

theorem transfer_slice_keeps (data : Transfer) :
    (state.transfer_slice cfg checksum data).currentStagingInputs =
        state.currentStagingInputs ∧
      (state.transfer_slice cfg checksum data).transferThread = state.transferThread ∧
      (state.transfer_slice cfg checksum data).added = state.added := by
  obtain ⟨src, index, submitInBufs, inBufId⟩ := data
  cases src <;> simp only [transfer_slice] <;> split
  · exact run_kernel_space _ _
  · exact ⟨rfl, rfl, rfl⟩
  · exact run_kernel_space _ _
  · exact ⟨rfl, rfl, rfl⟩

/-- A message is taken up part by part. -/
theorem transfer_slice_sound (sized : cfg.Sized) (some : cfg.numOutputs ≠ 0)
    (data : Transfer) (sound : Sound cfg checksum state (parts data ++ messages)) :
    Sound cfg checksum (state.transfer_slice cfg checksum data) messages := by
  obtain ⟨src, index, submitInBufs, inBufId⟩ := data
  simp only [parts] at sound
  simp only [transfer_slice]
  cases src with
  | none =>
    by_cases submits : submitInBufs = 0
    · rw [if_neg (not_not.mpr submits)] at sound ⊢
      exact sound
    · rw [if_pos submits] at sound ⊢
      exact run_kernel_sound sized some sound
  | some buffer =>
    by_cases submits : submitInBufs = 0
    · rw [if_neg (not_not.mpr submits)] at sound ⊢
      exact packed_sound sized sound
    · rw [if_pos submits] at sound ⊢
      exact run_kernel_sound sized some (packed_sound sized sound)

/-- Every step keeps what holds of a state. -/
theorem step_reached (sized : cfg.Sized) (some : cfg.numOutputs ≠ 0)
    (reached : Reached cfg checksum state) {action : CpuAction} {next : PAR2ProcCPU}
    (taken : step cfg checksum state action = Option.some next) :
    Reached cfg checksum next := by
  cases action with
  | addInput input flush =>
    rw [step] at taken
    split at taken
    · next accepted =>
      obtain rfl := Option.some.inj taken
      exact addInput_reached sized reached flush accepted.1 accepted.2
    · cases taken
  | flush =>
    obtain rfl := Option.some.inj taken
    exact flush_reached sized reached
  | transfer =>
    rw [step] at taken
    split at taken
    · cases taken
    · next data rest queue =>
      obtain rfl := Option.some.inj taken
      obtain ⟨space, transferThread, -⟩ := @transfer_slice_keeps cfg checksum
        { state with transferThread := rest } data
      have sound := reached.sound.requeue rest
      rw [queue, List.flatMap_cons] at sound
      constructor
      · rw [transferThread]
        exact transfer_slice_sound sized some data sound
      · rw [space]
        exact reached.space
  | work place =>
    rw [step] at taken
    split at taken
    · cases taken
    · next thread req found =>
      split at taken
      · next turn =>
        obtain rfl := Option.some.inj taken
        obtain ⟨inside, here⟩ := List.getElem?_eq_some_iff.mp found
        have queue : state.thWorkers =
            state.thWorkers.take place ++ (thread, req) :: state.thWorkers.drop (place + 1) := by
          rw [← here, List.getElem_cons_drop, List.take_append_drop]
        rw [List.eraseIdx_eq_take_drop_succ]
        exact ⟨compute_sound sized reached.sound queue turn, reached.space⟩
      · cases taken
  | notifyProc procIdx =>
    rw [step] at taken
    split at taken
    · next member =>
      obtain rfl := Option.some.inj taken
      exact ⟨notifyProc_sound reached.sound member, reached.space⟩
    · cases taken

theorem run_reached (sized : cfg.Sized) (some : cfg.numOutputs ≠ 0)
    (reached : Reached cfg checksum state) {actions : List CpuAction} {last : PAR2ProcCPU}
    (run : Machine.run (step cfg checksum) state actions = Option.some last) :
    Reached cfg checksum last := by
  induction actions generalizing state with
  | nil =>
    obtain rfl := Option.some.inj run
    exact reached
  | cons action rest ih =>
    obtain ⟨next, taken, continued⟩ := Machine.run_cons_some run
    exact ih (step_reached sized some reached taken) continued

/-! ## What was added -/

/-- The inputs of a run. -/
def inputsOf (actions : List CpuAction) : List CpuInput :=
  actions.filterMap fun action =>
    match action with
    | .addInput input _ => some input
    | _ => none

theorem step_added {action : CpuAction} {next : PAR2ProcCPU}
    (taken : step cfg checksum state action = some next) :
    next.added = state.added ++ inputsOf [action] := by
  cases action with
  | addInput input flush =>
    rw [step] at taken
    split at taken
    · obtain rfl := Option.some.inj taken
      rw [_addInput]
      split <;> rfl
    · cases taken
  | flush =>
    obtain rfl := Option.some.inj taken
    rw [flush]
    split <;> exact (List.append_nil _).symm
  | transfer =>
    rw [step] at taken
    split at taken
    · cases taken
    · obtain rfl := Option.some.inj taken
      exact (transfer_slice_keeps _).2.2.trans (List.append_nil _).symm
  | work place =>
    rw [step] at taken
    split at taken
    · cases taken
    · split at taken
      · obtain rfl := Option.some.inj taken
        exact (List.append_nil _).symm
      · cases taken
  | notifyProc procIdx =>
    rw [step] at taken
    split at taken
    · obtain rfl := Option.some.inj taken
      exact (List.append_nil _).symm
    · cases taken

theorem run_added {actions : List CpuAction} {last : PAR2ProcCPU}
    (run : Machine.run (step cfg checksum) state actions = some last) :
    last.added = state.added ++ inputsOf actions := by
  induction actions generalizing state with
  | nil =>
    obtain rfl := Option.some.inj run
    exact (List.append_nil _).symm
  | cons action rest ih =>
    obtain ⟨next, taken, continued⟩ := Machine.run_cons_some run
    have split : inputsOf (action :: rest) = inputsOf [action] ++ inputsOf rest :=
      @List.filterMap_append _ _ [action] rest _
    rw [ih continued, step_added taken, split, List.append_assoc]

/-! ## Outputs -/

/-- Every message has been taken up, every request is done, and every input has been submitted. -/
structure Flushed (state : PAR2ProcCPU) : Prop where
  transferred : state.transferThread = []
  worked : state.thWorkers = []
  submitted : state.currentStagingInputs = 0

variable (cfg) (state) in
/-- A block of an output. It is filled with zeros when the kernel was not run. -/
def getOutput (output block : ℕ) : Block :=
  if state.processingAdd then state.memProcessing (cfg.outputGeometry.slot output block) else 0

/-- In the end every batch is in every block of every output. -/
theorem Reached.getOutput_eq (sized : cfg.Sized) (reached : Reached cfg checksum state)
    (flushed : Flushed state) {output : ℕ} (known : output < cfg.numOutputs) {block : ℕ}
    (inside : block < cfg.outputGeometry.inputBlocks) :
    state.getOutput cfg output block =
      contribution cfg checksum state.added output block := by
  have sound := reached.sound
  rw [flushed.transferred] at sound
  have added := sound.added
  rw [flushed.submitted, List.take_zero, List.append_nil] at added
  have added : state.added = state.kernels.flatMap Batch.inputs := added.trans (List.append_nil _)
  obtain ⟨done, rest, progress⟩ := sound.memory output known block inside
  -- A batch that is not done would have a request left.
  have rest_nil : rest = [] := by
    by_contra some
    obtain ⟨batch, member⟩ := List.exists_mem_of_ne_nil rest some
    have busy := Sound.busy sized known inside progress member
    rw [flushed.worked] at busy
    exact Nat.lt_irrefl 0 busy
  have batches : state.kernels = done := by
    rw [progress.batches, rest_nil, List.append_nil]
  rw [added, contribution_flatMap, batches, getOutput, sound.adding, batches]
  by_cases none : done = []
  · rw [none]
    rfl
  · have some : done.length ≠ 0 := fun empty => none (List.eq_nil_of_length_eq_zero empty)
    rw [if_pos (decide_eq_true some)]
    exact progress.value none

/-- Two threads, two areas and two outputs. An input is submitted as soon as it is added. -/
def twoThreads : CpuConfig := ⟨4, 2, 1, 4, 2, 2, 1, 2, [0, 1]⟩

theorem twoThreads_sized : twoThreads.Sized where
  stride_pos := by decide
  interleave_pos := by decide
  chunk_pos := by decide
  threads_pos := by decide
  batch_pos := by decide
  areas_pos := by decide
  slice_pos := by decide
  few_outputs := by decide

/-- Two inputs are added, and the second thread is done with both before the first one begins. -/
def secondFirst : List CpuAction :=
  [.addInput ⟨[1, 0, 0, 0], .inputNum 0⟩ false, .addInput ⟨[1, 0, 0, 0], .inputNum 1⟩ true, .transfer,
    .transfer, .work 1, .work 2, .work 0, .work 0]

end PAR2ProcCPU

end Par3

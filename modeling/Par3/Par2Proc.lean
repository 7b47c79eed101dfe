import Par3.Foundations.Runs
import Mathlib.Data.Finset.Card
import Mathlib.Data.Fintype.Basic
import Mathlib.Data.Fintype.Card
import Mathlib.Data.List.Nodup
import Mathlib.Data.List.Perm.Basic
import Mathlib.Data.Nat.Find
import Mathlib.Tactic.Linarith

/-!
# Giving inputs to the backends

The slice is split among backends. An input is given to every backend that takes a part of it; a
backend that is full refuses, and the caller sends the input again until nobody refuses it. Each
backend tells when it has copied its part and when it has processed a batch. The callback of an
input is called when the last of its backends has copied it, and the finish callback when all
backends are empty behind the end.

Inputs are told apart by an identity, of which the program sees the number and the size. Whether a
backend is full, and where it ends a batch, is up to the backend: both are part of an action.
-/
namespace Par3

/-- The number that an input is added with, and its size. -/
structure Inputs where
  number : ℕ → ℕ
  size : ℕ → ℕ

/-- The part of the slice that a backend works on. -/
structure BackendRange where
  currentOffset : ℕ
  currentSliceSize : ℕ

namespace BackendRange

variable (range : BackendRange)

def amount (size : ℕ) : ℕ := min (size - range.currentOffset) range.currentSliceSize

/-- The loops over the backends skip the others. -/
def Takes (size : ℕ) : Prop := ¬ (range.currentOffset ≥ size ∨ range.amount size = 0)

instance (size : ℕ) : Decidable (range.Takes size) := instDecidableNot

end BackendRange

/-- A backend: the numbers of the inputs it has accepted and others have refused, the inputs of the
batch that is being staged, the prepares under way (`pendingInCallbacks`), one without an input for
a flush, and the batches under way (`stagingActiveCount`). Behind them, what has happened: the inputs
it was given, has copied and has processed. -/
structure ProcBackend where
  added : Finset ℕ
  staged : List ℕ
  sending : List (Option ℕ)
  active : List (List ℕ)
  given : List ℕ
  copied : List ℕ
  processed : List ℕ

namespace ProcBackend

variable (backend : ProcBackend)

def start : ProcBackend := ⟨∅, [], [], [], [], [], []⟩

def isEmpty : Bool := backend.active.isEmpty && backend.sending.isEmpty

/-- `addInput` of a backend that is not full, which may submit the batch it stages. -/
def addInput (id : ℕ) (submit : Bool) : ProcBackend :=
  { backend with
    staged := if submit then [] else backend.staged ++ [id]
    sending := backend.sending ++ [some id]
    active := if submit then backend.active ++ [backend.staged ++ [id]] else backend.active
    given := backend.given ++ [id] }

/-- `flush`: a batch that is staged is submitted with a prepare of nothing. -/
def flush : ProcBackend :=
  if backend.staged = [] then backend
  else
    { backend with
      staged := []
      sending := backend.sending ++ [none]
      active := backend.active ++ [backend.staged] }

/-- The counters of `_notifySent`. -/
def sent (transfer : Option ℕ) : ProcBackend :=
  { backend with
    sending := backend.sending.erase transfer
    copied := backend.copied ++ transfer.toList }

/-- The counters of `_notifyProc`. -/
def processedBatch (batch : List ℕ) : ProcBackend :=
  { backend with
    active := backend.active.erase batch
    processed := backend.processed ++ batch }

end ProcBackend

/-- An entry of `addCbRefs`: the backends that have not copied the input, and whose callback is to
be called. -/
structure AddCbRef where
  backendsActive : ℤ
  cb : ℕ
deriving DecidableEq

/-- The controller, whose logs are the inputs that were added, those for which an add returned true,
those whose callback was called, and the numbers of ends and of finish callbacks. -/
structure Par2Proc (n : ℕ) where
  backends : Fin n → ProcBackend
  addCbRefs : ℕ → Option AddCbRef
  endSignalled : Bool
  finishCb : Bool
  attempted : List ℕ
  accepted : List ℕ
  fired : List ℕ
  ended : ℕ
  finished : ℕ

namespace Par2Proc

variable {n : ℕ} (inputs : Inputs) (ranges : Fin n → BackendRange)

def start : Par2Proc n := ⟨fun _ => .start, fun _ => none, false, false, [], [], [], 0, 0⟩

/-- A backend takes a part of an input. -/
abbrev Takes (backend : Fin n) (id : ℕ) : Prop := (ranges backend).Takes (inputs.size id)

variable (state : Par2Proc n)

/-- The entry of an input, which is made by the first add. -/
def cbRef (id : ℕ) : AddCbRef :=
  match state.addCbRefs (inputs.number id) with
  | some ref => { ref with cb := id }
  | none =>
    { backendsActive :=
        n - (Finset.univ.filter fun backend => ¬ Takes inputs ranges backend id).card
      cb := id }

/-- A backend is given an input that it takes and was not given before, unless it is full. -/
def Gives (full : Fin n → Bool) (id : ℕ) (backend : Fin n) : Prop :=
  Takes inputs ranges backend id ∧ inputs.number id ∉ (state.backends backend).added ∧
    full backend = false

instance (full : Fin n → Bool) (id : ℕ) (backend : Fin n) :
    Decidable (state.Gives inputs ranges full id backend) := instDecidableAnd

/-- No backend refuses an input. -/
def Success (full : Fin n → Bool) (id : ℕ) : Prop :=
  ∀ backend, Takes inputs ranges backend id →
    inputs.number id ∈ (state.backends backend).added ∨ full backend = false

instance (full : Fin n → Bool) (id : ℕ) : Decidable (state.Success inputs ranges full id) :=
  Fintype.decidableForallFintype

/-- The backends behind the loop of `_addInput`. -/
def addLoop (full submit : Fin n → Bool) (id : ℕ) (backend : Fin n) : ProcBackend :=
  if state.Gives inputs ranges full id backend then
    let after := (state.backends backend).addInput id (submit backend)
    { after with added := insert (inputs.number id) after.added }
  else state.backends backend

/-- `PAR2Proc::_addInput`: the controller behind it, and what it returns. -/
def _addInput (full submit : Fin n → Bool) (id : ℕ) : Par2Proc n × Bool :=
  let after : Par2Proc n :=
    { state with
      addCbRefs := Function.update state.addCbRefs (inputs.number id)
        (some (state.cbRef inputs ranges id))
      backends := state.addLoop inputs ranges full submit id
      attempted := state.attempted ++ [id] }
  if state.Success inputs ranges full id then
    ({ after with
      backends := fun backend =>
        { after.backends backend with
          added := (after.backends backend).added.erase (inputs.number id) }
      accepted := state.accepted ++ [id] }, true)
  else (after, false)

/-- The callback of a backend for an input it has copied, `none` when it does not find its entry. -/
def backendCb (id : ℕ) : Option (Par2Proc n) :=
  (state.addCbRefs (inputs.number id)).map fun ref =>
    if ref.backendsActive - 1 = 0 then
      { state with
        addCbRefs := Function.update state.addCbRefs (inputs.number id) none
        fired := state.fired ++ [ref.cb] }
    else
      { state with
        addCbRefs := Function.update state.addCbRefs (inputs.number id)
          (some { ref with backendsActive := ref.backendsActive - 1 }) }

/-- `PAR2ProcCPU::_notifySent`, up to the notification behind it. -/
def _notifySent (backend : Fin n) (transfer : Option ℕ) : Option (Par2Proc n) :=
  let after : Par2Proc n :=
    { state with
      backends :=
        Function.update state.backends backend ((state.backends backend).sent transfer) }
  match transfer with
  | some id => after.backendCb inputs id
  | none => some after

/-- `PAR2ProcCPU::_notifyProc`, up to the notification behind it. -/
def _notifyProc (backend : Fin n) (batch : List ℕ) : Par2Proc n :=
  { state with
    backends :=
      Function.update state.backends backend ((state.backends backend).processedBatch batch) }

/-- `PAR2Proc::processing_finished`. -/
def processing_finished : Par2Proc n :=
  { state with
    endSignalled := false
    finishCb := false
    finished := if state.finishCb then state.finished + 1 else state.finished }

/-- `PAR2Proc::endInput`. -/
def endInput : Par2Proc n :=
  let after : Par2Proc n :=
    { state with
      backends := fun backend =>
        if (ranges backend).currentSliceSize > 0 then (state.backends backend).flush
        else state.backends backend
      finishCb := true
      endSignalled := true
      ended := state.ended + 1 }
  if ∀ backend, (ranges backend).currentSliceSize ≠ 0 → (after.backends backend).isEmpty then
    after.processing_finished
  else after

/-- `PAR2Proc::onBackendProcess`, behind the progress callback. -/
def onBackendProcess : Par2Proc n :=
  if state.endSignalled ∧ ∀ backend, (state.backends backend).isEmpty then state.processing_finished
  else state

/-! ## Actions -/

/-- What happens to a controller. A caller may do anything inside a callback, so that what the
notifications do behind their callbacks is an action of its own, which may come at any time. -/
inductive Action (n : ℕ) where
  | add (id : ℕ) (full submit : Fin n → Bool)
  | sent (backend : Fin n) (transfer : Option ℕ)
  | processed (backend : Fin n) (batch : List ℕ)
  | notified
  | endInput

/-- An input is in flight from its first add to its callback. -/
def InFlight (id : ℕ) : Prop := id ∈ state.attempted ∧ id ∉ state.fired

/-- Inputs are not empty, nothing is added behind the end, an input that was accepted is not added
again, and no number is added while another input has it in flight. -/
def MayAdd (id : ℕ) : Prop :=
  state.endSignalled = false ∧ 0 < inputs.size id ∧ id ∉ state.accepted ∧
    ∀ other ∈ state.attempted, other ∉ state.fired → inputs.number other = inputs.number id →
      other = id

instance (id : ℕ) : Decidable (state.MayAdd inputs id) := instDecidableAnd

def step : Par2Proc n → Action n → Option (Par2Proc n)
  | state, .add id full submit =>
    if state.MayAdd inputs id then some (state._addInput inputs ranges full submit id).1 else none
  | state, .sent backend transfer =>
    if transfer ∈ (state.backends backend).sending then state._notifySent inputs backend transfer
    else none
  | state, .processed backend batch =>
    if batch ∈ (state.backends backend).active then some (state._notifyProc backend batch) else none
  | state, .notified => some state.onBackendProcess
  | state, .endInput => if state.endSignalled then none else some (state.endInput ranges)

end Par2Proc

end Par3

import Mathlib.Data.Rat.Floor
import Mathlib.Logic.Function.Basic

/-!
# Requests at a limited rate

The queue, the debt and the timer change by calls of the user, by timers and by deferred callbacks.
A callback may call the throttle again before it returns: what goes on after each callback that is
being called is kept on a stack. The clock is what the environment says it is.
-/
namespace Par3

/-- A throttle and its limits, which `createThrottle` checks. `ReqRateThrottle` has the method `pass`
of its own. -/
structure RateThrottle where
  maxAmount : ℤ
  timeWindow : ℤ
  reqRate : Bool
  maxAmount_pos : 0 < maxAmount
  timeWindow_pos : 0 < timeWindow

/-- A queued request. Callbacks are known by the number of the call of `pass`. -/
structure ThrottleItem where
  cost : ℚ
  cb : ℕ
  id : ℕ

/-- What a callback returns to: the loop over `toRun`, a token's `cancel` or the loop of `_finish`. -/
inductive ThrottleFrame
  | forEach (fns : List ℕ)
  | cancelItem (idx : ℕ)
  | finish (cancelled : Bool) (array index length : ℕ)

/-- The queue is one of the arrays: `_finish` replaces it, but goes on over the one it started with.
Each call of `pass` has a place in `tokens`, and each call of a callback one in `fired`. -/
structure ThrottleState where
  arrays : ℕ → List ThrottleItem
  queue : ℕ
  timer : Option ℕ
  /-- The timers that are set. -/
  timers : List ℕ
  timerPos : ℕ
  immediates : ℕ
  debt : ℚ
  debtTime : ℤ
  qId : ℕ
  /-- What `process.nextTick` was given. -/
  ticks : List (List ℕ)
  stack : List ThrottleFrame
  tokens : List (Option ℕ)
  fired : List (ℕ × Bool)
  /-- The timer's handler found no item. -/
  thrown : Bool

inductive ThrottleAction
  | pass (cost : ℚ) (now : ℤ)
  | cancelToken (id : ℕ)
  | cancel
  | flush
  | returned
  | tick
  | timeout (timer : ℕ) (now : ℤ)
  | immediate (now : ℤ)

namespace ThrottleState

def items (state : ThrottleState) : List ThrottleItem := state.arrays state.queue

def setItems (state : ThrottleState) (items : List ThrottleItem) : ThrottleState :=
  { state with arrays := Function.update state.arrays state.queue items }

/-- A callback is called. -/
def call (state : ThrottleState) (cb : ℕ) (cancelled : Bool) (frame : ThrottleFrame) : ThrottleState :=
  { state with fired := state.fired ++ [(cb, cancelled)], stack := frame :: state.stack }

def clearTimer (state : ThrottleState) : ThrottleState :=
  match state.timer with
  | some timer => { state with timers := state.timers.erase timer, timer := none }
  | none => state

end ThrottleState

/-- What the loop of `_timeout` leaves. -/
structure Drained where
  toRun : List ℕ
  queue : List ThrottleItem
  debt : ℚ
  currentDebt : ℚ

namespace RateThrottle

open ThrottleState

variable (t : RateThrottle)

def start : ThrottleState where
  arrays := fun _ => []
  queue := 0
  timer := none
  timers := []
  timerPos := 0
  immediates := 0
  debt := 0
  debtTime := 0
  qId := 0
  ticks := []
  stack := []
  tokens := []
  fired := []
  thrown := false

/-- The debt and its time, brought up to date. -/
def staggered (debt : ℚ) (debtTime now : ℤ) : ℚ × ℤ :=
  if debtTime = 0 then (debt, now)
  else
    let periods := (now - debtTime) / t.timeWindow
    if periods > 0 then
      if debt - periods * t.maxAmount ≤ 0 then (0, now)
      else (debt - periods * t.maxAmount, debtTime + periods * t.timeWindow)
    else (debt, debtTime)

/-- `_adjustDebt`, which returns the precise value. -/
def adjustDebt (state : ThrottleState) (now : ℤ) : ℚ × ThrottleState :=
  if t.timeWindow ≤ 0 then (0, state)
  else
    let (debt, debtTime) := t.staggered state.debt state.debtTime now
    (debt - (now - debtTime) * t.maxAmount / t.timeWindow,
      { state with debt := debt, debtTime := debtTime })

def waitTime (currentDebt : ℚ) : ℤ := ⌈(currentDebt - t.maxAmount + 1) * t.timeWindow / t.maxAmount⌉

def setTimer (state : ThrottleState) (currentDebt : ℚ) : ThrottleState :=
  if state.timer.isSome then state
  else if t.waitTime currentDebt ≤ 0 then { state with immediates := state.immediates + 1 }
  else
    { state with
      timer := some (state.timerPos + 1)
      timers := (state.timerPos + 1) :: state.timers
      timerPos := state.timerPos + 1 }

/-- Whether a request has to wait. -/
def waits (state : ThrottleState) (now : ℤ) : Prop :=
  (t.adjustDebt state now).1 ≥ t.maxAmount ∨ state.items ≠ []

instance (state : ThrottleState) (now : ℤ) : Decidable (t.waits state now) :=
  inferInstanceAs (Decidable ((t.adjustDebt state now).1 ≥ t.maxAmount ∨ ¬ state.items = []))

/-- `RateThrottle.prototype.pass`, with the token that it returns. -/
def ratePass (state : ThrottleState) (cost : ℚ) (now : ℤ) : ThrottleState × Option ℕ :=
  let cb := state.tokens.length
  let (currentDebt, adjusted) := t.adjustDebt state now
  if t.waits state now then
    let item := ⟨cost, cb, adjusted.qId + 1⟩
    let queued := { adjusted.setItems (adjusted.items ++ [item]) with qId := adjusted.qId + 1 }
    (t.setTimer queued currentDebt, some (adjusted.qId + 1))
  else ({ adjusted with debt := adjusted.debt + cost, ticks := adjusted.ticks ++ [[cb]] }, none)

/-- `pass` of either class -/
def pass (state : ThrottleState) (cost : ℚ) (now : ℤ) : ThrottleState :=
  let (after, token) :=
    if t.reqRate then ((t.ratePass state 1 now).1, none) else t.ratePass state cost now
  { after with tokens := after.tokens ++ [token] }

/-- The loop of `_timeout`; without an item it throws. -/
def drain (debt currentDebt : ℚ) : List ThrottleItem → Option Drained
  | [] => none
  | item :: queue =>
    if currentDebt + item.cost < t.maxAmount ∧ queue ≠ [] then
      (drain (debt + item.cost) (currentDebt + item.cost) queue).map fun rest =>
        { rest with toRun := item.cb :: rest.toRun }
    else some ⟨[item.cb], queue, debt + item.cost, currentDebt + item.cost⟩

/-- `_timeout` -/
def timeout (state : ThrottleState) (now : ℤ) : ThrottleState :=
  let (currentDebt, adjusted) := t.adjustDebt { state with timer := none } now
  match t.drain adjusted.debt currentDebt adjusted.items with
  | none => { adjusted with thrown := true }
  | some drained =>
    let after := { adjusted.setItems drained.queue with
      debt := drained.debt
      ticks := adjusted.ticks ++ [drained.toRun] }
    if drained.queue ≠ [] then t.setTimer after drained.currentDebt else after

/-- `_cancelItem`, up to the call of the callback -/
def cancelItem (state : ThrottleState) (id : ℕ) : ThrottleState :=
  match state.items.findIdx? fun item => item.id = id with
  | some idx =>
    match state.items[idx]? with
    | some item => state.call item.cb true (.cancelItem idx)
    | none => state
  | none => state

/-- The rest of `_cancelItem` -/
def cancelled (state : ThrottleState) (idx : ℕ) : ThrottleState :=
  let after := state.setItems (state.items.eraseIdx idx)
  if after.items = [] then after.clearTimer else after

/-- The loop of `_finish` from an index on, and what follows it -/
def finishFrom (state : ThrottleState) (cancelled : Bool) (array index length : ℕ) : ThrottleState :=
  match if index < length then (state.arrays array)[index]? else none with
  | some item => state.call item.cb cancelled (.finish cancelled array (index + 1) length)
  | none =>
    { state with
      arrays := Function.update state.arrays (state.queue + 1) []
      queue := state.queue + 1
      debt := 0
      debtTime := 0 }

/-- `_finish` -/
def finish (state : ThrottleState) (cancelled : Bool) : ThrottleState :=
  finishFrom state.clearTimer cancelled state.queue 0 state.items.length

/-- The callback that was called last returns. -/
def returned (state : ThrottleState) : Option ThrottleState :=
  match state.stack with
  | [] => none
  | .forEach [] :: stack => some { state with stack := stack }
  | .forEach (fn :: fns) :: stack =>
    some (ThrottleState.call { state with stack := stack } fn false (.forEach fns))
  | .cancelItem idx :: stack => some (cancelled { state with stack := stack } idx)
  | .finish cancelled array index length :: stack =>
    some (finishFrom { state with stack := stack } cancelled array index length)

def tick (state : ThrottleState) : Option ThrottleState :=
  match state.stack, state.ticks with
  | [], (fn :: fns) :: ticks =>
    some (ThrottleState.call { state with ticks := ticks } fn false (.forEach fns))
  | [], [] :: ticks => some { state with ticks := ticks }
  | _, _ => none

/-- A timer fires when no code runs and nothing is deferred. Nothing happens after an exception. -/
def step (state : ThrottleState) (action : ThrottleAction) : Option ThrottleState :=
  if state.thrown then none
  else
    match action with
    | .pass cost now => some (t.pass state cost now)
    | .cancelToken id => if state.tokens.contains (some id) then some (cancelItem state id) else none
    | .cancel => some (finish state true)
    | .flush => some (finish state false)
    | .returned => returned state
    | .tick => tick state
    | .timeout timer now =>
      if state.stack.isEmpty ∧ state.ticks.isEmpty ∧ timer ∈ state.timers then
        some (t.timeout { state with timers := state.timers.erase timer } now)
      else none
    | .immediate now =>
      if state.stack.isEmpty ∧ state.ticks.isEmpty ∧ 0 < state.immediates then
        some (t.timeout { state with immediates := state.immediates - 1 } now)
      else none

end RateThrottle

end Par3

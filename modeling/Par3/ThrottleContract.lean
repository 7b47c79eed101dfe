import Par3.RateThrottle
import Par3.Foundations.Runs
import Mathlib.Data.List.Count
import Mathlib.Data.List.Nodup
import Mathlib.Tactic.Linarith
import Mathlib.Tactic.Positivity

/-!
# A callback fires once

While a callback of a queued request is being called, its request is still in the queue: `_cancelItem`
takes it out afterwards, and `_finish` replaces the whole queue in the end. Calls that come from such
a callback are harmless if they leave these requests, and what the loop still has to do, alone.
-/
namespace Par3

/-- The first index behind the requests that are being called or were called. -/
def ThrottleFrame.behind : ThrottleFrame → ℕ
  | .forEach _ => 0
  | .cancelItem idx => idx + 1
  | .finish _ _ index _ => index

/-- Whether the frame is in the loop of `_finish`. -/
def ThrottleFrame.finishing : ThrottleFrame → Bool
  | .finish .. => true
  | _ => false

/-- Whether a queued request at an index was called already. -/
def ThrottleFrame.calls (pos : ℕ) : ThrottleFrame → Prop
  | .forEach _ => False
  | .cancelItem idx => pos = idx
  | .finish _ _ index _ => pos < index

theorem ThrottleFrame.calls_lt {frame : ThrottleFrame} {pos : ℕ} (calls : frame.calls pos) :
    pos < frame.behind := by
  cases frame with
  | forEach fns => exact absurd calls id
  | cancelItem idx =>
    rw [ThrottleFrame.behind]
    rw [ThrottleFrame.calls] at calls
    omega
  | finish cancelled array index length => exact calls

/-- The callbacks that the loop over `toRun` has still to call. -/
def ThrottleFrame.fns : ThrottleFrame → List ℕ
  | .forEach fns => fns
  | _ => []

namespace ThrottleState

/-- The callbacks that are deferred, or that a loop is about to call. -/
def due (state : ThrottleState) : List ℕ := state.ticks.flatten ++ state.stack.flatMap ThrottleFrame.fns

/-- How often a callback was called. -/
def timesFired (state : ThrottleState) (cb : ℕ) : ℕ := (state.fired.map Prod.fst).count cb

/-- How often a callback is in the queue. -/
def timesQueued (state : ThrottleState) (cb : ℕ) : ℕ := (state.items.map ThrottleItem.cb).count cb

end ThrottleState

namespace RateThrottle

open ThrottleState

variable (t : RateThrottle)

/-- What a caller may rely on in every state. A request that the loop of `_finish` has not come to yet
is about to be called. -/
structure Right (state : ThrottleState) : Prop where
  once : ∀ cb, timesFired state cb ≤ 1
  kept : ∀ cb < state.tokens.length, timesFired state cb = 1 ∨ cb ∈ state.due ∨
    ∃ item ∈ state.items, item.cb = cb ∧
      ((∃ frame ∈ state.stack, frame.finishing) ∨ ∃ timer, state.timer = some timer ∧ timer ∈ state.timers)
  token : ∀ item ∈ state.items, timesFired state item.cb = 0 →
    ∃ id, state.tokens[item.cb]? = some (some id) ∧
      (cancelItem state id).fired = state.fired ++ [(item.cb, true)]
  handler : state.thrown = false

/-- A call that leaves alone the requests whose callbacks are being called. -/
def Harmless (state : ThrottleState) : ThrottleAction → Prop
  | .pass _ now => (∀ frame ∈ state.stack, frame.finishing = false) ∧
      (t.reqRate → ¬ t.waits state now)
  | .cancelToken id => ∀ idx, (state.items.findIdx? fun item => item.id = id) = some idx →
      ∀ frame ∈ state.stack, frame.behind ≤ idx
  | .cancel | .flush => ∀ frame ∈ state.stack, frame.behind = 0
  | _ => True

instance (state : ThrottleState) (action : ThrottleAction) : Decidable (t.Harmless state action) :=
  match action with
  | .pass _ now => inferInstanceAs (Decidable ((∀ frame ∈ state.stack, frame.finishing = false) ∧
      (t.reqRate → ¬ t.waits state now)))
  | .cancelToken id => inferInstanceAs (Decidable
      (∀ idx ∈ state.items.findIdx? fun item => item.id = id, ∀ frame ∈ state.stack, frame.behind ≤ idx))
  | .cancel | .flush => inferInstanceAs (Decidable (∀ frame ∈ state.stack, frame.behind = 0))
  | .returned | .tick | .timeout .. | .immediate _ => isTrue trivial

/-- The frames above a loop over `toRun` call later and later requests. -/
def Shape (queue length : ℕ) : List ThrottleFrame → Prop
  | [] => True
  | .forEach _ :: stack => stack = []
  | .cancelItem idx :: stack => idx < length ∧ (∀ frame ∈ stack, frame.behind ≤ idx) ∧ Shape queue length stack
  | .finish _ array index count :: stack => array = queue ∧ 0 < index ∧ index ≤ length ∧ length ≤ count ∧
      (∀ frame ∈ stack, frame.behind = 0 ∧ frame.finishing = false) ∧ Shape queue length stack

/-- Every callback was called, is due or waits in the queue, and its request has a token. -/
structure Accounted (state : ThrottleState) : Prop where
  calls : ∀ cb, timesFired state cb + state.due.count cb +
    (if timesFired state cb = 0 then timesQueued state cb else 0) = if cb < state.tokens.length then 1 else 0
  cbs : (state.items.map ThrottleItem.cb).Nodup
  ids : (state.items.map ThrottleItem.id).Nodup
  fresh : ∀ item ∈ state.items, item.id ≤ state.qId
  tokens : ∀ item ∈ state.items, state.tokens[item.cb]? = some (some item.id)
  immediates : state.immediates = 0
  handler : state.thrown = false

structure Sound (state : ThrottleState) : Prop extends Accounted state where
  called : ∀ pos item, state.items[pos]? = some item →
    (timesFired state item.cb ≠ 0 ↔ ∃ frame ∈ state.stack, frame.calls pos)
  shape : Shape state.queue state.items.length state.stack
  armed : state.timer.isSome ↔ state.items ≠ [] ∧ ∀ frame ∈ state.stack, frame.finishing = false
  timers : state.timers = state.timer.toList

variable {t}

theorem Accounted.sound {state : ThrottleState} (accounted : Accounted state) {items : List ThrottleItem}
    (same : state.items = items)
    (called : ∀ pos item, items[pos]? = some item →
      (timesFired state item.cb ≠ 0 ↔ ∃ frame ∈ state.stack, frame.calls pos))
    (shape : Shape state.queue items.length state.stack)
    (armed : state.timer.isSome ↔ items ≠ [] ∧ ∀ frame ∈ state.stack, frame.finishing = false)
    (timers : state.timers = state.timer.toList) : Sound state := by
  subst same
  exact ⟨accounted, called, shape, armed, timers⟩

theorem Sound.right {state : ThrottleState} (sound : Sound state) : Right state := by
  refine ⟨fun cb => ?_, fun cb made => ?_, fun item member waiting => ?_, sound.handler⟩
  · have total := sound.calls cb
    split_ifs at total
    all_goals omega
  · have total := sound.calls cb
    rw [if_pos made] at total
    by_cases fired : timesFired state cb = 0
    · rw [if_pos fired] at total
      by_cases due : cb ∈ state.due
      · exact Or.inr (Or.inl due)
      · rw [List.count_eq_zero_of_not_mem due] at total
        have queued : cb ∈ state.items.map ThrottleItem.cb :=
          List.count_pos_iff.mp (by rw [timesQueued] at total; omega)
        obtain ⟨item, member, same⟩ := List.mem_map.mp queued
        refine Or.inr (Or.inr ⟨item, member, same, ?_⟩)
        by_cases finishing : ∃ frame ∈ state.stack, frame.finishing
        · exact Or.inl finishing
        · push Not at finishing
          have armed := sound.armed.mpr ⟨List.ne_nil_of_mem member, fun frame inside => by
            simpa using finishing frame inside⟩
          obtain ⟨timer, set⟩ := Option.isSome_iff_exists.mp armed
          refine Or.inr ⟨timer, set, ?_⟩
          rw [sound.timers, set]
          exact List.mem_singleton_self timer
    · rw [if_neg fired] at total
      exact Or.inl (by omega)
  · refine ⟨item.id, sound.tokens item member, ?_⟩
    obtain ⟨pos, less, there⟩ := List.mem_iff_getElem.mp member
    have found : (state.items.findIdx? fun other => other.id = item.id) = some pos := by
      rw [List.findIdx?_eq_some_iff_getElem]
      refine ⟨less, by simp [there], fun other before => ?_⟩
      rw [Bool.not_eq_true, decide_eq_false_iff_not]
      have differ := List.pairwise_iff_getElem.mp (List.pairwise_map.mp sound.ids) other pos (by omega)
        less before
      rwa [there] at differ
    rw [cancelItem, found]
    dsimp only
    rw [List.getElem?_eq_getElem less, there]
    rfl

/-! ## Frames -/

theorem Shape.behind_le {queue length : ℕ} {stack : List ThrottleFrame} (shape : Shape queue length stack) :
    ∀ frame ∈ stack, frame.behind ≤ length := by
  induction stack with
  | nil => exact fun frame member => absurd member List.not_mem_nil
  | cons first stack ih =>
    intro frame member
    cases first with
    | forEach fns =>
      obtain rfl : stack = [] := shape
      rw [List.mem_singleton.mp member]
      exact Nat.zero_le _
    | cancelItem idx =>
      rcases List.mem_cons.mp member with rfl | other
      · exact shape.1
      · exact ih shape.2.2 frame other
    | finish cancelled array index count =>
      rcases List.mem_cons.mp member with rfl | other
      · exact shape.2.2.1
      · exact ih shape.2.2.2.2.2 frame other

/-- The queue may get shorter behind what is being called. -/
theorem Shape.shrink {queue length less : ℕ} {stack : List ThrottleFrame}
    (shape : Shape queue length stack) (shorter : less ≤ length)
    (above : ∀ frame ∈ stack, frame.behind ≤ less) : Shape queue less stack := by
  induction stack with
  | nil => trivial
  | cons first stack ih =>
    have rest : ∀ frame ∈ stack, frame.behind ≤ less := fun frame member =>
      above frame (List.mem_cons_of_mem _ member)
    have top := above first List.mem_cons_self
    cases first with
    | forEach fns => exact shape
    | cancelItem idx => exact ⟨top, shape.2.1, ih shape.2.2 rest⟩
    | finish cancelled array index count =>
      obtain ⟨same, positive, -, most, base, below⟩ := shape
      exact ⟨same, positive, top, by omega, base, ih below rest⟩

/-- Outside of `_finish` the queue may get longer. -/
theorem Shape.push {queue length : ℕ} {stack : List ThrottleFrame} (shape : Shape queue length stack)
    (going : ∀ frame ∈ stack, frame.finishing = false) : Shape queue (length + 1) stack := by
  induction stack with
  | nil => trivial
  | cons first stack ih =>
    have rest : ∀ frame ∈ stack, frame.finishing = false := fun frame member =>
      going frame (List.mem_cons_of_mem _ member)
    cases first with
    | forEach fns => exact shape
    | cancelItem idx => exact ⟨by have := shape.1; omega, shape.2.1, ih shape.2.2 rest⟩
    | finish cancelled array index count => exact absurd (going _ List.mem_cons_self) Bool.true_eq_false.mp

/-- Loops over `toRun` do not care about the queue. -/
theorem Shape.base {queue length other less : ℕ} {stack : List ThrottleFrame}
    (shape : Shape queue length stack)
    (base : ∀ frame ∈ stack, frame.behind = 0 ∧ frame.finishing = false) : Shape other less stack := by
  cases stack with
  | nil => trivial
  | cons first stack =>
    cases first with
    | forEach fns => exact shape
    | cancelItem idx => exact absurd (base _ List.mem_cons_self).1 (Nat.succ_ne_zero _)
    | finish cancelled array index count => exact absurd (base _ List.mem_cons_self).2 Bool.true_eq_false.mp

/-! ## Calling a callback -/

theorem timesFired_call (state : ThrottleState) (cb : ℕ) (cancelled : Bool) (frame : ThrottleFrame)
    (other : ℕ) : timesFired (state.call cb cancelled frame) other =
      timesFired state other + if cb = other then 1 else 0 := by
  rw [timesFired, timesFired, ThrottleState.call, List.map_append, List.map_singleton, List.count_append,
    List.count_singleton]
  simp only [beq_iff_eq]

/-- A request that waits is in the queue once. -/
theorem Accounted.call_queued {state : ThrottleState} (sound : Accounted state) {item : ThrottleItem}
    (member : item ∈ state.items) (waiting : timesFired state item.cb = 0) (cb : ℕ) :
    (timesFired state cb + if item.cb = cb then 1 else 0) + state.due.count cb +
      (if (timesFired state cb + if item.cb = cb then 1 else 0) = 0 then timesQueued state cb else 0) =
        if cb < state.tokens.length then 1 else 0 := by
  have total := sound.calls cb
  by_cases same : item.cb = cb
  · subst same
    have queued : 0 < timesQueued state item.cb := List.count_pos_iff.mpr (List.mem_map_of_mem member)
    rw [waiting, if_pos rfl] at total
    rw [waiting, if_pos rfl, if_neg (by omega)]
    split_ifs at total ⊢ <;> omega
  · rw [if_neg same, Nat.add_zero]
    exact total

theorem Accounted.call {state : ThrottleState} (sound : Accounted state) (item : ThrottleItem)
    (member : item ∈ state.items) (waiting : timesFired state item.cb = 0) (cancelled : Bool)
    {frame : ThrottleFrame} (none : frame.fns = []) : Accounted (state.call item.cb cancelled frame) := by
  refine ⟨fun cb => ?_, sound.cbs, sound.ids, sound.fresh, sound.tokens, sound.immediates, sound.handler⟩
  have due : (state.call item.cb cancelled frame).due = state.due := by
    rw [ThrottleState.due, ThrottleState.due, ThrottleState.call, List.flatMap_cons, none, List.nil_append]
  rw [timesFired_call, due]
  exact sound.call_queued member waiting cb

/-- A callback that is due is not in the queue. -/
theorem Accounted.due_unqueued {state : ThrottleState} (sound : Accounted state) {cb : ℕ} (due : cb ∈ state.due) :
    timesFired state cb = 0 ∧ timesQueued state cb = 0 ∧ state.due.count cb = 1 ∧
      cb < state.tokens.length := by
  have total := sound.calls cb
  have positive := List.count_pos_iff.mpr due
  split_ifs at total <;> omega

/-- Requests at different places have different callbacks. -/
theorem Accounted.cb_ne {state : ThrottleState} (sound : Accounted state) {pos other : ℕ}
    {item another : ThrottleItem} (there : state.items[pos]? = some item)
    (elsewhere : state.items[other]? = some another) (differ : pos ≠ other) : item.cb ≠ another.cb := by
  obtain ⟨inside, rfl⟩ := List.getElem?_eq_some_iff.mp there
  obtain ⟨within, rfl⟩ := List.getElem?_eq_some_iff.mp elsewhere
  have apart := List.pairwise_iff_getElem.mp (List.pairwise_map.mp sound.cbs)
  rcases Nat.lt_or_gt_of_ne differ with less | more
  · exact apart pos other inside within less
  · exact (apart other pos within inside more).symm

theorem cancelItem_sound {state : ThrottleState} (sound : Sound state) (id : ℕ)
    (harmless : ∀ idx, (state.items.findIdx? fun item => item.id = id) = some idx →
      ∀ frame ∈ state.stack, frame.behind ≤ idx) : Sound (cancelItem state id) := by
  rw [cancelItem]
  split
  case h_2 => exact sound
  case h_1 idx found =>
    split
    case h_2 => exact sound
    case h_1 item there =>
      have behind := harmless idx found
      have inside := (List.getElem?_eq_some_iff.mp there).1
      have waiting : timesFired state item.cb = 0 := by
        by_contra fired
        obtain ⟨frame, member, calls⟩ := (sound.called idx item there).mp fired
        have := ThrottleFrame.calls_lt calls
        have := behind frame member
        omega
      refine ⟨sound.call _ (List.mem_of_getElem? there) waiting true rfl, fun pos other elsewhere => ?_,
        ⟨inside, behind, sound.shape⟩, ?_, sound.timers⟩
      · rw [timesFired_call]
        by_cases same : pos = idx
        · subst same
          obtain rfl : item = other := Option.some.inj (there.symm.trans elsewhere)
          rw [if_pos rfl]
          exact ⟨fun _ => ⟨_, List.mem_cons_self, rfl⟩, fun _ => Nat.succ_ne_zero _⟩
        · rw [if_neg (sound.cb_ne there elsewhere (Ne.symm same)), Nat.add_zero,
            sound.called pos other elsewhere]
          simp only [ThrottleState.call, List.mem_cons, exists_eq_or_imp, ThrottleFrame.calls, same, false_or]
      · rw [show (state.call item.cb true (.cancelItem idx)).timer = state.timer from rfl, sound.armed]
        simp only [ThrottleState.call, ThrottleState.items, List.forall_mem_cons, ThrottleFrame.finishing,
          true_and]

theorem Accounted.pop {state : ThrottleState} (sound : Accounted state) {frame : ThrottleFrame}
    {stack : List ThrottleFrame} (top : state.stack = frame :: stack) (none : frame.fns = []) :
    Accounted { state with stack := stack } := by
  refine ⟨fun cb => ?_, sound.cbs, sound.ids, sound.fresh, sound.tokens, sound.immediates, sound.handler⟩
  have due : state.due = ThrottleState.due { state with stack := stack } := by
    rw [ThrottleState.due, ThrottleState.due, top, List.flatMap_cons, none, List.nil_append]
  rw [← due]
  exact sound.calls cb

theorem clearTimer_eq {state : ThrottleState} (timers : state.timers = state.timer.toList) :
    state.clearTimer = { state with timers := [], timer := none } := by
  rw [ThrottleState.clearTimer]
  split
  case h_1 timer set =>
    rw [timers, set, Option.toList_some, List.erase_cons_head]
  case h_2 none =>
    rw [none, Option.toList_none] at timers
    rw [← timers, ← none]

theorem Accounted.clear {state : ThrottleState} (sound : Accounted state) :
    Accounted { state with timers := [], timer := none } :=
  ⟨sound.calls, sound.cbs, sound.ids, sound.fresh, sound.tokens, sound.immediates, sound.handler⟩

/-- Requests whose callbacks were called may be taken out. -/
theorem Accounted.eraseIdx {state : ThrottleState} (sound : Accounted state) {idx : ℕ}
    {item : ThrottleItem} (there : state.items[idx]? = some item)
    (fired : timesFired state item.cb ≠ 0) :
    Accounted (state.setItems (state.items.eraseIdx idx)) := by
  have items : (state.setItems (state.items.eraseIdx idx)).items = state.items.eraseIdx idx :=
    Function.update_self _ _ _
  have less : (state.items.eraseIdx idx).Sublist state.items := List.eraseIdx_sublist _ _
  refine ⟨fun cb => ?_, ?_, ?_, ?_, ?_, sound.immediates, sound.handler⟩
  · have total := sound.calls cb
    have queued : timesFired state cb = 0 →
        timesQueued (state.setItems (state.items.eraseIdx idx)) cb = timesQueued state cb := by
      intro waiting
      have differ : item.cb ≠ cb := by
        rintro rfl
        exact fired waiting
      obtain ⟨inside, rfl⟩ := List.getElem?_eq_some_iff.mp there
      have perm := ((List.getElem_cons_eraseIdx_perm inside).map ThrottleItem.cb).count_eq cb
      rw [List.map_cons, List.count_cons_of_ne differ] at perm
      rw [timesQueued, timesQueued, items, perm]
    rw [show timesFired (state.setItems (state.items.eraseIdx idx)) cb = timesFired state cb from rfl]
    by_cases waiting : timesFired state cb = 0
    · rw [if_pos waiting] at total ⊢
      rw [queued waiting]
      exact total
    · rw [if_neg waiting] at total ⊢
      exact total
  · rw [items]
    exact (less.map _).nodup sound.cbs
  · rw [items]
    exact (less.map _).nodup sound.ids
  · rw [items]
    exact fun other member => sound.fresh other (less.subset member)
  · rw [items]
    exact fun other member => sound.tokens other (less.subset member)

theorem cancelled_sound {state : ThrottleState} (sound : Sound state) {idx : ℕ}
    {stack : List ThrottleFrame} (top : state.stack = .cancelItem idx :: stack) :
    Sound (cancelled { state with stack := stack } idx) := by
  have shape := sound.shape
  rw [top] at shape
  obtain ⟨inside, behind, below⟩ := shape
  have there := List.getElem?_eq_getElem inside
  have fired := (sound.called idx _ there).mpr
    ⟨.cancelItem idx, by rw [top]; exact List.mem_cons_self, rfl⟩
  have accounted := Accounted.eraseIdx (sound.toAccounted.pop top rfl) there fired
  have length : (state.items.eraseIdx idx).length = state.items.length - 1 :=
    List.length_eraseIdx_of_lt inside
  have called : ∀ pos item, (state.items.eraseIdx idx)[pos]? = some item →
      (timesFired state item.cb ≠ 0 ↔ ∃ frame ∈ stack, frame.calls pos) := by
    intro pos item elsewhere
    rw [List.getElem?_eraseIdx] at elsewhere
    split at elsewhere
    case isTrue before =>
      rw [sound.called pos item elsewhere, top]
      have differ : pos ≠ idx := by omega
      simp only [List.mem_cons, exists_eq_or_imp, ThrottleFrame.calls, differ, false_or]
    case isFalse after =>
      rw [sound.called (pos + 1) item elsewhere, top]
      have differ : pos + 1 ≠ idx := by omega
      simp only [List.mem_cons, exists_eq_or_imp, ThrottleFrame.calls, differ, false_or]
      constructor
      · rintro ⟨frame, member, calls⟩
        have := ThrottleFrame.calls_lt calls
        have := behind frame member
        omega
      · rintro ⟨frame, member, calls⟩
        have := ThrottleFrame.calls_lt calls
        have := behind frame member
        omega
  have shrunk := below.shrink (by omega : state.items.length - 1 ≤ state.items.length) fun frame member => by
    have := behind frame member
    omega
  have finishing : (∀ frame ∈ state.stack, frame.finishing = false) ↔
      ∀ frame ∈ stack, frame.finishing = false := by
    rw [top, List.forall_mem_cons]
    exact and_iff_right rfl
  have some : state.items ≠ [] := List.ne_nil_of_mem (List.mem_of_getElem? there)
  have items : ((ThrottleState.setItems { state with stack := stack }
      (state.items.eraseIdx idx)).items) = state.items.eraseIdx idx := Function.update_self _ _ _
  rw [cancelled]
  rw [show ThrottleState.items { state with stack := stack } = state.items from rfl] at accounted ⊢
  rw [items]
  by_cases none : state.items.eraseIdx idx = []
  · rw [if_pos none, clearTimer_eq]
    swap
    · exact sound.timers
    refine accounted.clear.sound items called ?_ ?_ rfl
    · rw [length]
      exact shrunk
    · exact iff_of_false Bool.false_ne_true fun armed => armed.1 none
  · rw [if_neg none]
    refine accounted.sound items called ?_ ?_ sound.timers
    · rw [length]
      exact shrunk
    · exact sound.armed.trans (and_congr (iff_of_true some none) finishing)

/-- What holds between two turns of the loop of `_finish`. -/
structure Finishing (state : ThrottleState) (index count : ℕ) : Prop extends Accounted state where
  called : ∀ pos item, state.items[pos]? = some item → (timesFired state item.cb ≠ 0 ↔ pos < index)
  base : ∀ frame ∈ state.stack, frame.behind = 0 ∧ frame.finishing = false
  shape : Shape state.queue state.items.length state.stack
  inside : index ≤ state.items.length
  count : state.items.length ≤ count
  timer : state.timer = none
  timers : state.timers = []

theorem finishFrom_sound {state : ThrottleState} {index count : ℕ} (going : Finishing state index count)
    (cancelled : Bool) : Sound (finishFrom state cancelled state.queue index count) := by
  have uncalled : ∀ pos, ¬ ∃ frame ∈ state.stack, frame.calls pos := by
    rintro pos ⟨frame, member, calls⟩
    have := ThrottleFrame.calls_lt calls
    have := (going.base frame member).1
    omega
  have inside := going.inside
  have most := going.count
  rw [finishFrom, show state.arrays state.queue = state.items from rfl]
  split
  case h_1 item there =>
    split at there
    case isFalse => cases there
    case isTrue more =>
      have less := (List.getElem?_eq_some_iff.mp there).1
      have waiting : timesFired state item.cb = 0 := by
        by_contra fired
        exact absurd ((going.called index item there).mp fired) (lt_irrefl index)
      refine (going.call item (List.mem_of_getElem? there) waiting cancelled rfl).sound rfl
        (fun pos other elsewhere => ?_) ?_ ?_ ?_
      · rw [timesFired_call]
        have known := going.called pos other elsewhere
        rw [ThrottleState.call, List.exists_mem_cons_iff, or_iff_left (uncalled pos), ThrottleFrame.calls]
        by_cases same : pos = index
        · subst same
          obtain rfl : item = other := Option.some.inj (there.symm.trans elsewhere)
          rw [if_pos rfl]
          exact iff_of_true (Nat.succ_ne_zero _) (Nat.lt_succ_self _)
        · rw [if_neg (going.cb_ne there elsewhere (Ne.symm same)), Nat.add_zero, known]
          omega
      · exact ⟨rfl, Nat.succ_pos _, less, most, going.base, going.shape⟩
      · rw [show (state.call item.cb cancelled (.finish cancelled state.queue (index + 1) count)).timer =
          state.timer from rfl, going.timer]
        refine iff_of_false Bool.false_ne_true fun armed => ?_
        have := armed.2 _ List.mem_cons_self
        cases this
      · rw [show (state.call item.cb cancelled (.finish cancelled state.queue (index + 1) count)).timers =
          state.timers from rfl, going.timers]
        exact (congrArg Option.toList going.timer).symm
  case h_2 none =>
    have all : index = state.items.length := by
      split at none
      case isTrue => have := List.getElem?_eq_none_iff.mp none; omega
      case isFalse => omega
    set after := { state with
      arrays := Function.update state.arrays (state.queue + 1) []
      queue := state.queue + 1
      debt := 0
      debtTime := 0 } with finished
    have items : after.items = [] := Function.update_self _ _ _
    have accounted : Accounted after := by
      refine ⟨fun cb => ?_, ?_, ?_, ?_, ?_, going.immediates, going.handler⟩
      · have total := going.calls cb
        have unqueued : timesFired state cb = 0 → timesQueued state cb = 0 := by
          intro waiting
          refine List.count_eq_zero_of_not_mem fun queued => ?_
          obtain ⟨item, member, rfl⟩ := List.mem_map.mp queued
          obtain ⟨pos, less, there⟩ := List.mem_iff_getElem.mp member
          have fired := (going.called pos item (by rw [List.getElem?_eq_getElem less, there])).mpr (by omega)
          exact fired waiting
        have queued : timesQueued after cb = 0 := by
          rw [timesQueued, items]
          rfl
        rw [queued]
        rw [show timesFired after cb = timesFired state cb from rfl, show after.due = state.due from rfl,
          show after.tokens = state.tokens from rfl]
        split_ifs at total ⊢ <;> omega
      · rw [items]
        exact List.nodup_nil
      · rw [items]
        exact List.nodup_nil
      · rw [items]
        exact fun item member => absurd member List.not_mem_nil
      · rw [items]
        exact fun item member => absurd member List.not_mem_nil
    refine accounted.sound items (fun pos item there => ?_) ?_ ?_ ?_
    · cases there
    · exact going.shape.base going.base
    · rw [show after.timer = state.timer from rfl, going.timer]
      exact iff_of_false Bool.false_ne_true fun armed => armed.1 rfl
    · rw [show after.timer = state.timer from rfl, going.timer]
      exact going.timers

theorem finish_sound {state : ThrottleState} (sound : Sound state) (cancelled : Bool)
    (harmless : ∀ frame ∈ state.stack, frame.behind = 0) : Sound (finish state cancelled) := by
  have going : ∀ frame ∈ state.stack, frame.finishing = false := by
    have shape := sound.shape
    generalize state.stack = stack at harmless shape
    induction stack with
    | nil => exact fun frame member => absurd member List.not_mem_nil
    | cons first stack ih =>
      rw [List.forall_mem_cons] at harmless ⊢
      cases first with
      | forEach fns =>
        obtain rfl : stack = [] := shape
        exact ⟨rfl, fun frame member => absurd member List.not_mem_nil⟩
      | cancelItem idx => exact ⟨rfl, ih harmless.2 shape.2.2⟩
      | finish cancelled array index count =>
        have positive := shape.2.1
        have := harmless.1
        rw [ThrottleFrame.behind] at this
        omega
  rw [finish, clearTimer_eq sound.timers]
  refine finishFrom_sound ⟨sound.toAccounted.clear, fun pos item there => ?_,
    fun frame member => ⟨harmless frame member, going frame member⟩, sound.shape, Nat.zero_le _, le_refl _, rfl,
    rfl⟩ cancelled
  rw [show timesFired { state with timers := [], timer := none } item.cb = timesFired state item.cb from rfl,
    sound.called pos item there]
  refine iff_of_false ?_ (Nat.not_lt_zero pos)
  rintro ⟨frame, member, calls⟩
  have := ThrottleFrame.calls_lt calls
  have := harmless frame member
  omega

/-- The next callback of a loop over `toRun` is called. -/
theorem Sound.forEach {state : ThrottleState} (sound : Sound state) (ticks : List (List ℕ)) (fn : ℕ)
    (fns : List ℕ)
    (due : ∀ cb, state.due.count cb = (fn :: fns).count cb + ticks.flatten.count cb)
    (loops : ∀ frame ∈ state.stack, frame.behind = 0 ∧ frame.finishing = false) :
    Sound (ThrottleState.call { state with ticks := ticks, stack := [] } fn false (.forEach fns)) := by
  have next : fn ∈ state.due := by
    rw [← List.count_pos_iff, due, List.count_cons_self]
    omega
  obtain ⟨unfired, unqueued, once, made⟩ := sound.due_unqueued next
  have uncalled : ∀ pos, ¬ ∃ frame ∈ state.stack, frame.calls pos := by
    rintro pos ⟨frame, member, calls⟩
    have := ThrottleFrame.calls_lt calls
    have := (loops frame member).1
    omega
  set base : ThrottleState := { state with ticks := ticks, stack := [] } with emptied
  have accounted : Accounted (base.call fn false (.forEach fns)) := by
    refine ⟨fun cb => ?_, sound.cbs, sound.ids, sound.fresh, sound.tokens, sound.immediates, sound.handler⟩
    have total := sound.calls cb
    have split := due cb
    have rest : (base.call fn false (.forEach fns)).due.count cb =
        ticks.flatten.count cb + fns.count cb := by
      rw [ThrottleState.due, List.count_append]
      exact congrArg (ticks.flatten.count cb + ·) (by rw [ThrottleState.call, List.flatMap_singleton]; rfl)
    rw [timesFired_call, rest, show timesFired base cb = timesFired state cb from rfl]
    rw [show timesQueued (base.call fn false (.forEach fns)) cb = timesQueued state cb from rfl,
      show (base.call fn false (.forEach fns)).tokens = state.tokens from rfl]
    rw [List.count_cons] at split
    by_cases same : fn = cb
    · subst same
      rw [beq_self_eq_true, if_pos rfl] at split
      rw [if_pos rfl, if_neg (by omega), if_pos made]
      omega
    · rw [if_neg (by simpa using same)] at split
      rw [if_neg same]
      split_ifs at total ⊢ <;> omega
  refine accounted.sound rfl (fun pos item there => ?_) rfl ?_ sound.timers
  · rw [timesFired_call]
    have differ : fn ≠ item.cb := by
      rintro rfl
      have queued : 0 < timesQueued state item.cb :=
        List.count_pos_iff.mpr (List.mem_map_of_mem (List.mem_of_getElem? there))
      omega
    rw [if_neg differ, Nat.add_zero]
    refine (sound.called pos item there).trans (iff_of_false (uncalled pos) ?_)
    rw [ThrottleState.call, List.exists_mem_cons_iff]
    rintro (calls | ⟨frame, member, calls⟩)
    · exact calls
    · exact absurd member List.not_mem_nil
  · refine sound.armed.trans (and_congr_right fun _ => iff_of_true (fun frame member => (loops frame member).2) ?_)
    rw [ThrottleState.call, List.forall_mem_cons]
    exact ⟨rfl, fun frame member => absurd member List.not_mem_nil⟩

theorem returned_sound {state after : ThrottleState} (sound : Sound state)
    (taken : returned state = some after) : Sound after := by
  rw [returned] at taken
  split at taken
  case h_1 => cases taken
  case h_2 stack top =>
    obtain rfl := Option.some.inj taken
    have shape := sound.shape
    rw [top] at shape
    obtain rfl : stack = [] := shape
    refine (sound.toAccounted.pop top rfl).sound rfl (fun pos item there => ?_) trivial ?_ sound.timers
    · rw [show timesFired { state with stack := [] } item.cb = timesFired state item.cb from rfl,
        sound.called pos item there, top, List.exists_mem_cons_iff]
      exact or_iff_right id
    · rw [show (ThrottleState.timer { state with stack := [] }) = state.timer from rfl, sound.armed, top,
        List.forall_mem_cons]
      exact and_congr_right fun _ => and_iff_right rfl
  case h_3 fn fns stack top =>
    obtain rfl := Option.some.inj taken
    have shape := sound.shape
    rw [top] at shape
    obtain rfl : stack = [] := shape
    refine sound.forEach state.ticks fn fns (fun cb => ?_) ?_
    · rw [ThrottleState.due, top, List.flatMap_singleton, List.count_append, ThrottleFrame.fns, Nat.add_comm]
    · rw [top, List.forall_mem_singleton]
      exact ⟨rfl, rfl⟩
  case h_4 idx stack top =>
    obtain rfl := Option.some.inj taken
    exact cancelled_sound sound top
  case h_5 cancelled array index count stack top =>
    obtain rfl := Option.some.inj taken
    have shape := sound.shape
    rw [top] at shape
    obtain ⟨rfl, positive, inside, most, base, below⟩ := shape
    have unarmed : state.timer = none := by
      rw [← Option.not_isSome_iff_eq_none, sound.armed, top]
      intro armed
      have := armed.2 _ List.mem_cons_self
      cases this
    have uncalled : ∀ pos, ¬ ∃ frame ∈ stack, frame.calls pos := by
      rintro pos ⟨frame, member, calls⟩
      have := ThrottleFrame.calls_lt calls
      have := (base frame member).1
      omega
    refine finishFrom_sound ⟨sound.toAccounted.pop top rfl, fun pos item there => ?_, base, below, inside, most,
      unarmed, ?_⟩ cancelled
    · rw [show timesFired { state with stack := stack } item.cb = timesFired state item.cb from rfl,
        sound.called pos item there, top, List.exists_mem_cons_iff, or_iff_left (uncalled pos)]
      rfl
    · rw [show (ThrottleState.timers { state with stack := stack }) = state.timers from rfl, sound.timers,
        unarmed]
      rfl

theorem tick_sound {state after : ThrottleState} (sound : Sound state)
    (taken : tick state = some after) : Sound after := by
  rw [tick] at taken
  split at taken
  case h_1 fn fns ticks top deferred =>
    obtain rfl := Option.some.inj taken
    have next := sound.forEach ticks fn fns (fun cb => by
      rw [ThrottleState.due, top, deferred, List.flatMap_nil, List.append_nil, List.flatten_cons,
        List.count_append]) (by rw [top]; exact fun frame member => absurd member List.not_mem_nil)
    rwa [← top] at next
  case h_2 ticks top deferred =>
    obtain rfl := Option.some.inj taken
    refine ⟨⟨fun cb => ?_, sound.cbs, sound.ids, sound.fresh, sound.tokens, sound.immediates, sound.handler⟩,
      sound.called, sound.shape, sound.armed, sound.timers⟩
    have total := sound.calls cb
    rw [ThrottleState.due, deferred, List.flatten_cons, List.nil_append] at total
    exact total
  case h_3 => cases taken

/-! ## Requests and the timer -/

theorem adjustDebt_shape (t : RateThrottle) (state : ThrottleState) (now : ℤ) : ∃ debt debtTime,
    (t.adjustDebt state now).2 = { state with debt := debt, debtTime := debtTime } := by
  rw [adjustDebt, if_neg (not_le.mpr t.timeWindow_pos)]
  exact ⟨_, _, rfl⟩

/-- Above the limit there is always time to wait. -/
theorem waitTime_pos (t : RateThrottle) {currentDebt : ℚ} (limit : (t.maxAmount : ℚ) ≤ currentDebt) :
    0 < t.waitTime currentDebt := by
  have amount : (0 : ℚ) < t.maxAmount := by exact_mod_cast t.maxAmount_pos
  have window : (0 : ℚ) < t.timeWindow := by exact_mod_cast t.timeWindow_pos
  have excess : 0 < currentDebt - t.maxAmount + 1 := by linarith
  rw [waitTime, Int.ceil_pos]
  positivity

theorem setTimer_set (t : RateThrottle) {state : ThrottleState} {currentDebt : ℚ}
    (set : state.timer.isSome) : t.setTimer state currentDebt = state := by
  rw [setTimer, if_pos set]

theorem setTimer_unset (t : RateThrottle) {state : ThrottleState} {currentDebt : ℚ}
    (unset : state.timer = none) (limit : (t.maxAmount : ℚ) ≤ currentDebt) :
    t.setTimer state currentDebt =
      { state with
        timer := some (state.timerPos + 1)
        timers := (state.timerPos + 1) :: state.timers
        timerPos := state.timerPos + 1 } := by
  rw [setTimer, unset, if_neg (by simp), if_neg (not_le.mpr (t.waitTime_pos limit))]

/-- A callback that was not passed yet is nowhere. -/
theorem Accounted.fresh_call {state : ThrottleState} (sound : Accounted state) {cb : ℕ}
    (new : state.tokens.length ≤ cb) :
    timesFired state cb = 0 ∧ state.due.count cb = 0 ∧ timesQueued state cb = 0 := by
  have total := sound.calls cb
  rw [if_neg (not_lt.mpr new)] at total
  split_ifs at total <;> omega

/-- A request that is let through. -/
theorem Sound.defer {state : ThrottleState} (sound : Sound state) (debt : ℚ) (debtTime : ℤ) :
    Sound { state with
      debt := debt
      debtTime := debtTime
      ticks := state.ticks ++ [[state.tokens.length]]
      tokens := state.tokens ++ [none] } := by
  obtain ⟨unfired, undue, unqueued⟩ := sound.toAccounted.fresh_call (le_refl state.tokens.length)
  set after : ThrottleState := { state with
    debt := debt
    debtTime := debtTime
    ticks := state.ticks ++ [[state.tokens.length]]
    tokens := state.tokens ++ [none] } with passed
  refine ⟨⟨fun cb => ?_, sound.cbs, sound.ids, sound.fresh, fun item member => ?_, sound.immediates,
    sound.handler⟩, sound.called, sound.shape, sound.armed, sound.timers⟩
  · have total := sound.calls cb
    have due : after.due.count cb = state.due.count cb + if state.tokens.length = cb then 1 else 0 := by
      rw [ThrottleState.due, ThrottleState.due, List.flatten_append, List.count_append, List.count_append,
        List.count_append, List.flatten_singleton, List.count_singleton,
        show after.stack = state.stack from rfl]
      simp only [beq_iff_eq]
      omega
    rw [due, show timesFired after cb = timesFired state cb from rfl,
      show timesQueued after cb = timesQueued state cb from rfl,
      show after.tokens = state.tokens ++ [none] from rfl, List.length_append, List.length_singleton]
    by_cases same : state.tokens.length = cb
    · subst same
      rw [if_pos rfl, if_pos (Nat.lt_succ_self _), undue, unfired, unqueued]
      rfl
    · rw [if_neg same, Nat.add_zero]
      split_ifs at total ⊢ <;> omega
  · exact (List.getElem?_append_left (List.getElem?_eq_some_iff.mp (sound.tokens item member)).1).trans
      (sound.tokens item member)

/-- A request that is queued. -/
theorem Accounted.enqueue {state : ThrottleState} (sound : Accounted state) (cost debt : ℚ) (debtTime : ℤ) :
    Accounted { state.setItems (state.items ++ [⟨cost, state.tokens.length, state.qId + 1⟩]) with
      debt := debt
      debtTime := debtTime
      qId := state.qId + 1
      tokens := state.tokens ++ [some (state.qId + 1)] } := by
  obtain ⟨unfired, undue, unqueued⟩ := sound.fresh_call (le_refl state.tokens.length)
  set after : ThrottleState := { state.setItems
    (state.items ++ [⟨cost, state.tokens.length, state.qId + 1⟩]) with
      debt := debt
      debtTime := debtTime
      qId := state.qId + 1
      tokens := state.tokens ++ [some (state.qId + 1)] } with pushed
  have items : after.items = state.items ++ [⟨cost, state.tokens.length, state.qId + 1⟩] :=
    Function.update_self _ _ _
  refine ⟨fun cb => ?_, ?_, ?_, ?_, ?_, sound.immediates, sound.handler⟩
  · have total := sound.calls cb
    have queued : timesQueued after cb =
        timesQueued state cb + if state.tokens.length = cb then 1 else 0 := by
      rw [timesQueued, items, List.map_append, List.map_singleton, List.count_append, List.count_singleton,
        ← timesQueued]
      simp only [beq_iff_eq]
    rw [queued, show timesFired after cb = timesFired state cb from rfl,
      show after.due = state.due from rfl,
      show after.tokens = state.tokens ++ [some (state.qId + 1)] from rfl, List.length_append,
      List.length_singleton]
    by_cases same : state.tokens.length = cb
    · subst same
      rw [if_pos rfl, if_pos (Nat.lt_succ_self _), undue, unfired, unqueued]
      rfl
    · rw [if_neg same, Nat.add_zero]
      split_ifs at total ⊢ <;> omega
  · rw [items, List.map_append, List.map_singleton, List.nodup_append]
    refine ⟨sound.cbs, List.nodup_singleton _, fun cb member other last => ?_⟩
    rw [List.mem_singleton.mp last]
    rintro rfl
    exact List.count_eq_zero.mp unqueued member
  · rw [items, List.map_append, List.map_singleton, List.nodup_append]
    refine ⟨sound.ids, List.nodup_singleton _, fun id member other last => ?_⟩
    obtain ⟨item, queued, rfl⟩ := List.mem_map.mp member
    have := sound.fresh item queued
    rw [List.mem_singleton.mp last]
    dsimp only
    omega
  · rw [items]
    intro item member
    rcases List.mem_append.mp member with old | new
    · exact (sound.fresh item old).trans (Nat.le_succ _)
    · rw [List.mem_singleton.mp new]
  · rw [items]
    intro item member
    rcases List.mem_append.mp member with old | new
    · have known := sound.tokens item old
      exact (List.getElem?_append_left (List.getElem?_eq_some_iff.mp known).1).trans known
    · rw [List.mem_singleton.mp new]
      exact List.getElem?_concat_length

/-- A request goes to the end of the queue while the timer is set. -/
theorem Sound.enqueue {state : ThrottleState} (sound : Sound state)
    (going : ∀ frame ∈ state.stack, frame.finishing = false) (cost debt : ℚ) (debtTime : ℤ) (timer : ℕ)
    (timers : List ℕ) (timerPos : ℕ) (set : timers = [timer]) :
    Sound { state.setItems (state.items ++ [⟨cost, state.tokens.length, state.qId + 1⟩]) with
      debt := debt
      debtTime := debtTime
      qId := state.qId + 1
      timer := some timer
      timers := timers
      timerPos := timerPos
      tokens := state.tokens ++ [some (state.qId + 1)] } := by
  have accounted := sound.toAccounted.enqueue cost debt debtTime
  refine Accounted.sound ⟨accounted.calls, accounted.cbs, accounted.ids, accounted.fresh, accounted.tokens,
    accounted.immediates, accounted.handler⟩
    (show _ = state.items ++ [⟨cost, state.tokens.length, state.qId + 1⟩] from Function.update_self _ _ _)
    (fun pos item there => ?_) ?_ ?_ set
  · rw [List.getElem?_append] at there
    split at there
    case isTrue => exact sound.called pos item there
    case isFalse behind =>
      have new := List.mem_singleton.mp (List.mem_of_getElem? there)
      have unfired := (sound.toAccounted.fresh_call (le_refl state.tokens.length)).1
      rw [new]
      refine iff_of_false (not_not.mpr unfired) ?_
      rintro ⟨frame, member, calls⟩
      have := ThrottleFrame.calls_lt calls
      have := sound.shape.behind_le frame member
      omega
  · rw [List.length_append, List.length_singleton]
    exact sound.shape.push going
  · exact iff_of_true rfl ⟨List.append_ne_nil_of_right_ne_nil _ (List.cons_ne_nil _ _), going⟩

theorem pass_sound {state : ThrottleState} (sound : Sound state) (cost : ℚ) (now : ℤ)
    (harmless : t.Harmless state (.pass cost now)) : Sound (t.pass state cost now) := by
  obtain ⟨going, token⟩ := harmless
  obtain ⟨debt, debtTime, shape⟩ := adjustDebt_shape t state now
  rw [pass]
  by_cases waiting : t.waits state now
  · have rate : ¬ t.reqRate := fun request => token request waiting
    rw [if_neg rate, ratePass]
    dsimp only
    rw [if_pos waiting, shape]
    by_cases empty : state.items = []
    · have unset : state.timer = none := by
        rw [← Option.not_isSome_iff_eq_none, sound.armed]
        exact fun armed => armed.1 empty
      have limit : (t.maxAmount : ℚ) ≤ (t.adjustDebt state now).1 :=
        waiting.resolve_right (not_not.mpr empty)
      rw [setTimer_unset t _ limit]
      swap
      · exact unset
      refine sound.enqueue going cost debt debtTime _ _ _ ?_
      have none := sound.timers
      rw [unset] at none
      exact congrArg _ none
    · have set := sound.armed.mpr ⟨empty, going⟩
      rw [setTimer_set]
      swap
      · exact set
      obtain ⟨timer, known⟩ := Option.isSome_iff_exists.mp set
      have timers := sound.timers
      rw [known] at timers
      have queued := sound.enqueue going cost debt debtTime timer state.timers state.timerPos timers
      rw [← known] at queued
      exact queued
  · have direct : ∀ cost, t.ratePass state cost now = ({ (t.adjustDebt state now).2 with
        debt := (t.adjustDebt state now).2.debt + cost
        ticks := (t.adjustDebt state now).2.ticks ++ [[state.tokens.length]] }, none) := by
      intro cost
      rw [ratePass]
      dsimp only
      rw [if_neg waiting]
    have same : (if t.reqRate = true then ((t.ratePass state 1 now).1, none)
        else t.ratePass state cost now) = ({ state with
          debt := debt + if t.reqRate then 1 else cost
          debtTime := debtTime
          ticks := state.ticks ++ [[state.tokens.length]] }, none) := by
      rw [direct, direct, shape]
      split <;> rfl
    rw [same]
    exact sound.defer _ debtTime

/-- The loop of `_timeout` takes requests from the front, and stops above the limit or with the last one. -/
theorem drain_spec (t : RateThrottle) (debt currentDebt : ℚ) (items : List ThrottleItem) (queued : items ≠ []) :
    ∃ drained first, t.drain debt currentDebt items = some drained ∧ items = first ++ drained.queue ∧
      drained.toRun = first.map ThrottleItem.cb ∧
        (drained.queue ≠ [] → (t.maxAmount : ℚ) ≤ drained.currentDebt) := by
  induction items generalizing debt currentDebt with
  | nil => exact absurd rfl queued
  | cons item queue ih =>
    rw [drain]
    by_cases more : currentDebt + item.cost < t.maxAmount ∧ queue ≠ []
    · obtain ⟨drained, first, taken, split, toRun, limit⟩ :=
        ih (debt + item.cost) (currentDebt + item.cost) more.2
      rw [if_pos more, taken]
      refine ⟨{ drained with toRun := item.cb :: drained.toRun }, item :: first, rfl, ?_, ?_, limit⟩
      · rw [List.cons_append, ← split]
      · rw [List.map_cons, ← toRun]
    · rw [if_neg more]
      refine ⟨_, [item], rfl, rfl, rfl, fun rest => ?_⟩
      exact not_lt.mp fun less => more ⟨less, rest⟩

/-- Requests move from the queue to the deferred callbacks. -/
theorem Sound.drained {state : ThrottleState} (sound : Sound state) (idle : state.stack = [])
    (first queue : List ThrottleItem) (split : state.items = first ++ queue) (debt : ℚ) (debtTime : ℤ) :
    Accounted { state.setItems queue with
      debt := debt
      debtTime := debtTime
      ticks := state.ticks ++ [first.map ThrottleItem.cb] } := by
  set after : ThrottleState := { state.setItems queue with
    debt := debt
    debtTime := debtTime
    ticks := state.ticks ++ [first.map ThrottleItem.cb] } with moved
  have items : after.items = queue := Function.update_self _ _ _
  have less : queue.Sublist state.items := split ▸ List.sublist_append_right first queue
  refine ⟨fun cb => ?_, ?_, ?_, ?_, ?_, sound.immediates, sound.handler⟩
  · have total := sound.calls cb
    have due : after.due.count cb = state.due.count cb + (first.map ThrottleItem.cb).count cb := by
      rw [ThrottleState.due, ThrottleState.due, List.flatten_append, List.count_append, List.count_append,
        List.count_append, List.flatten_singleton, show after.stack = state.stack from rfl]
      omega
    have queued : timesQueued state cb = (first.map ThrottleItem.cb).count cb + timesQueued after cb := by
      rw [timesQueued, timesQueued, items, split, List.map_append, List.count_append]
    have unfired : timesFired state cb ≠ 0 → (first.map ThrottleItem.cb).count cb = 0 := by
      intro fired
      refine List.count_eq_zero_of_not_mem fun member => ?_
      obtain ⟨item, inside, rfl⟩ := List.mem_map.mp member
      obtain ⟨pos, there⟩ := List.getElem?_of_mem (split ▸ List.mem_append_left queue inside)
      obtain ⟨frame, running, -⟩ := (sound.called pos item there).mp fired
      rw [idle] at running
      exact List.not_mem_nil running
    rw [due, show timesFired after cb = timesFired state cb from rfl,
      show after.tokens = state.tokens from rfl]
    by_cases waiting : timesFired state cb = 0
    · rw [if_pos waiting] at total ⊢
      omega
    · rw [if_neg waiting] at total ⊢
      rw [unfired waiting]
      omega
  · rw [items]
    exact (less.map _).nodup sound.cbs
  · rw [items]
    exact (less.map _).nodup sound.ids
  · rw [items]
    exact fun item member => sound.fresh item (less.subset member)
  · rw [items]
    exact fun item member => sound.tokens item (less.subset member)

theorem timeout_sound {state : ThrottleState} (sound : Sound state) (idle : state.stack = []) {timer : ℕ}
    (fires : timer ∈ state.timers) (now : ℤ) :
    Sound (t.timeout { state with timers := state.timers.erase timer } now) := by
  rw [sound.timers, Option.mem_toList] at fires
  have alone : state.timers.erase timer = [] := by
    rw [sound.timers, fires, Option.toList_some, List.erase_cons_head]
  have queued : state.items ≠ [] := (sound.armed.mp (by rw [fires]; rfl)).1
  rw [timeout, alone]
  obtain ⟨debt, debtTime, shape⟩ := adjustDebt_shape t { state with timers := [], timer := none } now
  dsimp only at shape ⊢
  rw [shape]
  dsimp only
  have items : ThrottleState.items { state with
      timers := [], timer := none, debt := debt, debtTime := debtTime } = state.items := rfl
  rw [items]
  obtain ⟨drained, first, taken, split, toRun, limit⟩ := t.drain_spec debt
    (t.adjustDebt { state with timers := [], timer := none } now).1 state.items queued
  rw [taken]
  dsimp only
  rw [toRun]
  have accounted := sound.drained idle first drained.queue split drained.debt debtTime
  by_cases rest : drained.queue = []
  · rw [if_neg (not_not.mpr rest)]
    refine Accounted.sound ⟨accounted.calls, accounted.cbs, accounted.ids, accounted.fresh, accounted.tokens,
      accounted.immediates, accounted.handler⟩ (show _ = drained.queue from Function.update_self _ _ _)
      (fun pos item there => ?_) ?_ ?_ rfl
    · rw [rest] at there
      cases there
    · exact (show Shape _ _ state.stack by rw [idle]; trivial)
    · exact iff_of_false Bool.false_ne_true fun armed => armed.1 rest
  · rw [if_pos rest, setTimer_unset t _ (limit rest)]
    swap
    · rfl
    refine Accounted.sound ⟨accounted.calls, accounted.cbs, accounted.ids, accounted.fresh, accounted.tokens,
      accounted.immediates, accounted.handler⟩ (show _ = drained.queue from Function.update_self _ _ _)
      (fun pos item there => ?_) ?_ ?_ rfl
    · have old : state.items[first.length + pos]? = some item := by
        rw [split, List.getElem?_append_right (Nat.le_add_right _ _), Nat.add_sub_cancel_left]
        exact there
      refine (sound.called _ item old).trans ?_
      rw [show (ThrottleState.stack _) = state.stack from rfl, idle]
      exact iff_of_false (fun none => List.not_mem_nil none.choose_spec.1)
        fun none => List.not_mem_nil none.choose_spec.1
    · exact (show Shape _ _ state.stack by rw [idle]; trivial)
    · refine iff_of_true rfl ⟨rest, ?_⟩
      rw [show (ThrottleState.stack _) = state.stack from rfl, idle]
      exact fun frame member => absurd member List.not_mem_nil

theorem step_sound {state after : ThrottleState} {action : ThrottleAction} (sound : Sound state)
    (harmless : t.Harmless state action) (taken : t.step state action = some after) : Sound after := by
  unfold step at taken
  rw [if_neg (by rw [sound.handler]; exact Bool.false_ne_true)] at taken
  cases action with
  | pass cost now =>
    obtain rfl := Option.some.inj taken
    exact pass_sound sound cost now harmless
  | cancelToken id =>
    dsimp only at taken
    split at taken
    case isTrue =>
      obtain rfl := Option.some.inj taken
      exact cancelItem_sound sound id harmless
    case isFalse => cases taken
  | cancel =>
    obtain rfl := Option.some.inj taken
    exact finish_sound sound true harmless
  | flush =>
    obtain rfl := Option.some.inj taken
    exact finish_sound sound false harmless
  | returned => exact returned_sound sound taken
  | tick => exact tick_sound sound taken
  | timeout timer now =>
    dsimp only at taken
    split at taken
    case isTrue fires =>
      obtain rfl := Option.some.inj taken
      exact timeout_sound sound (List.isEmpty_iff.mp fires.1) fires.2.2 now
    case isFalse => cases taken
  | immediate now =>
    dsimp only at taken
    rw [if_neg] at taken
    · cases taken
    · rw [sound.immediates]
      exact fun fires => absurd fires.2.2 (Nat.lt_irrefl 0)

/-! ## A run -/

theorem start_sound : Sound start := by
  refine ⟨⟨fun cb => ?_, List.nodup_nil, List.nodup_nil, ?_, ?_, rfl, rfl⟩, ?_, trivial, ?_, rfl⟩
  · rw [show start.tokens.length = 0 from rfl, if_neg (Nat.not_lt_zero cb)]
    rfl
  · exact fun item member => absurd member List.not_mem_nil
  · exact fun item member => absurd member List.not_mem_nil
  · exact fun pos item there => by cases there
  · exact iff_of_false Bool.false_ne_true fun armed => armed.1 rfl

/-- As long as the calls from callbacks are harmless, every callback is called once or waits for it. -/
theorem pass_fires_once (t : RateThrottle) (actions : List ThrottleAction)
    (harmless : Machine.Guarded t.step t.Harmless start actions) :
    Machine.Throughout t.step Right start actions :=
  (harmless.throughout (fun _ _ _ sound guard taken => step_sound sound guard taken) start_sound).imp
    fun _ sound => Sound.right sound

/-- One request a second, by either class. -/
def perSecond (reqRate : Bool) : RateThrottle where
  maxAmount := 1
  timeWindow := 1000
  reqRate := reqRate
  maxAmount_pos := Int.one_pos
  timeWindow_pos := by decide

/-- The first request is let through; the second is queued, cancelled, and passes a third one meanwhile. -/
theorem pass_fires_once_three :
    Machine.Throughout (perSecond false).step Right start
      [.pass 1 1, .tick, .returned, .pass 1 1, .cancelToken 1, .pass 1 1, .returned, .timeout 1 1001, .tick,
        .returned] :=
  pass_fires_once (perSecond false) _ (by decide +kernel)

/-- The states that a run ends in, if no action is refused. -/
theorem exists_last {σ α : Type*} {step : σ → α → Option σ} {state : σ} {actions : List α}
    {property : σ → Prop} [DecidablePred property]
    (holds : (Machine.run step state actions).any (fun last => decide (property last)) = true) :
    ∃ last, Machine.run step state actions = some last ∧ property last := by
  obtain ⟨last, reached, right⟩ := (Option.any_eq_true _ _).mp holds
  exact ⟨last, reached, of_decide_eq_true right⟩

/-- A request that a callback passes during `flush` is dropped, and the timer finds the queue empty; a
callback that cancels its own request is called twice; `ReqRateThrottle` queues without a token. -/
theorem pass_refuted :
    (∃ last, Machine.run (perSecond false).step start
        [.pass 1 1, .tick, .returned, .pass 1 1, .flush, .pass 1 1, .returned, .timeout 2 1001] = some last ∧
      2 < last.tokens.length ∧ last.timesFired 2 = 0 ∧ 2 ∉ last.due ∧
        (∀ item ∈ last.items, item.cb ≠ 2) ∧ last.thrown = true) ∧
    (∃ last, Machine.run (perSecond false).step start
        [.pass 1 1, .tick, .returned, .pass 1 1, .cancelToken 1, .cancelToken 1] = some last ∧
      last.timesFired 1 = 2) ∧
    ∃ last, Machine.run (perSecond true).step start
        [.pass 1 1, .tick, .returned, .pass 1 1] = some last ∧
      ∃ item ∈ last.items, last.tokens[item.cb]? = some none :=
  ⟨exists_last (by decide +kernel), exists_last (by decide +kernel), exists_last (by decide +kernel)⟩

end RateThrottle

end Par3

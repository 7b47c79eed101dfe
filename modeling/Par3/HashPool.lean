import Par3.Foundations.Runs
import Mathlib.Data.List.Count

/-!
# The pool of hash workers

Blocks are hashed by worker threads. A submission is posted to an idle worker, or waits in the
queue. A worker that has sent its result takes the next submission from the queue. When a worker
fails, the pool is destroyed and its threads are terminated.

Every submission has a callback, which the program waits for. The handlers run one after the
other, and a callback only arranges for later work, so that none of them submits a block.
-/
namespace Par3

namespace HashPool

/-- What a callback is called with. -/
inductive Outcome where
  | result
  | error
deriving DecidableEq

/-- A worker: its two fields, whether the thread was terminated or has failed, and whether it has
a job that it will answer. A callback is known by the number of its submission. -/
structure Worker where
  busy : Bool
  cb : Option ℕ
  alive : Bool
  running : Bool
  failed : Bool
deriving DecidableEq

/-- A worker that was just started. -/
def Worker.new : Worker := ⟨false, none, true, false, false⟩

/-- `hashPool`, with workers known by their numbers. -/
structure Pool where
  workers : List ℕ
  next : ℕ
  queue : List ℕ

/-- The variables of the module, all workers that were ever started, the callbacks that wait for
the next tick, those that were called, and the number of submissions. -/
structure State where
  hashPool : Option Pool
  hashPoolInitAttempted : Bool
  hashPoolInitFailed : Bool
  workers : List Worker
  ticks : List (ℕ × Outcome)
  called : List (ℕ × Outcome)
  submitted : ℕ

/-- The state when the module is loaded. -/
def State.start : State := ⟨none, false, false, [], [], [], 0⟩

/-- `HASH_POOL_ENABLED`, and the number of processors. -/
structure Config where
  enabled : Bool
  cpus : ℕ

/-- `HASH_POOL_SIZE`. -/
def Config.poolSize (cfg : Config) : ℕ := min 4 (if cfg.cpus = 0 then 1 else cfg.cpus)

def State.worker (state : State) (index : ℕ) : Worker := state.workers.getD index Worker.new

def State.setWorker (state : State) (index : ℕ) (change : Worker → Worker) : State :=
  { state with workers := state.workers.modify index change }

/-- `_ensureHashPool`, where only so many threads can be started. -/
def ensureHashPool (cfg : Config) (threads : ℕ) (state : State) : State :=
  if state.hashPool.isSome then state
  else if state.hashPoolInitAttempted && state.hashPoolInitFailed then state
  else if cfg.poolSize ≤ threads then
    { state with
      hashPoolInitAttempted := true
      workers := state.workers ++ List.replicate cfg.poolSize Worker.new
      hashPool := some ⟨List.range' state.workers.length cfg.poolSize, 0, []⟩ }
  else
    { state with
      hashPoolInitAttempted := true
      hashPoolInitFailed := true
      workers := state.workers ++ List.replicate threads Worker.new }

/-- A submission is posted to a worker. Where `postMessage` or the copy before it throws, its
callback is called with the error. A thread that was terminated does not answer. -/
def State.post (state : State) (index submission : ℕ) (accepted : Bool) : State :=
  let state := state.setWorker index fun worker =>
    { worker with busy := true, cb := some submission }
  if accepted then state.setWorker index fun worker => { worker with running := worker.alive }
  else
    { state.setWorker index fun worker => { worker with busy := false, cb := none } with
      called := state.called ++ [(submission, .error)] }

/-- The round-robin search of `_hashBlockParallel`: how far the first idle worker is from
`pool.next`. -/
def State.firstIdle (state : State) (pool : Pool) : Option ℕ :=
  (List.range pool.workers.length).find? fun i =>
    !(state.worker (pool.workers.getD ((pool.next + i) % pool.workers.length) 0)).busy

/-- `_inlineHashBlock`. -/
def State.inlineHashBlock (state : State) (submission : ℕ) (hashed : Bool) : State :=
  { state with ticks := state.ticks ++ [(submission, if hashed then .result else .error)] }

/-- `_hashBlockParallel`. -/
def hashBlockParallel (cfg : Config) (threads : ℕ) (accepted hashed : Bool) (state : State) :
    State :=
  let submission := state.submitted
  let state := { state with submitted := submission + 1 }
  if !cfg.enabled || state.hashPoolInitFailed then state.inlineHashBlock submission hashed
  else
    let state := ensureHashPool cfg threads state
    match state.hashPool with
    | none => state.inlineHashBlock submission hashed
    | some pool =>
      match state.firstIdle pool with
      | some i =>
        let found := pool.workers.getD ((pool.next + i) % pool.workers.length) 0
        let next := (pool.next + i + 1) % pool.workers.length
        { state with hashPool := some { pool with next := next } }.post found submission accepted
      | none => { state with hashPool := some { pool with queue := pool.queue ++ [submission] } }

/-- `_destroyHashPool`. -/
def destroyHashPool (state : State) : State :=
  match state.hashPool with
  | none => state
  | some pool =>
    { state with
      hashPool := none
      workers := state.workers.mapIdx fun index worker =>
        if index ∈ pool.workers then { worker with alive := false } else worker }

/-- `_failHashPoolQueue`. -/
def failHashPoolQueue (state : State) : State :=
  match state.hashPool with
  | none => state
  | some pool =>
    { state with
      hashPool := none
      called := state.called ++ pool.queue.map fun submission => (submission, .error) }

/-- `_dispatchFromQueueTo`. -/
def dispatchFromQueueTo (state : State) (index : ℕ) (accepted : Bool) : State :=
  match state.hashPool with
  | none => state
  | some pool =>
    match pool.queue with
    | [] => state
    | submission :: rest =>
      if (state.worker index).busy then state
      else { state with hashPool := some { pool with queue := rest } }.post index submission accepted

/-- A callback is called, where there is one. -/
def State.invoke (state : State) (cb : Option ℕ) (outcome : Outcome) : State :=
  { state with called := state.called ++ cb.toList.map fun submission => (submission, outcome) }

/-- The `message` handler of a worker. -/
def onMessage (state : State) (index : ℕ) (error accepted : Bool) : State :=
  let cb := (state.worker index).cb
  let state := state.setWorker index fun worker =>
    { worker with cb := none, busy := false, running := false }
  if error then failHashPoolQueue ((destroyHashPool state).invoke cb .error)
  else dispatchFromQueueTo (state.invoke cb .result) index accepted

/-- The `error` handler of a worker. Its thread has ended. -/
def onError (state : State) (index : ℕ) : State :=
  let cb := (state.worker index).cb
  let state := state.setWorker index fun worker =>
    { worker with alive := false, running := false, failed := true }
  let state := (destroyHashPool state).setWorker index fun worker => { worker with cb := none }
  failHashPoolQueue (state.invoke cb .error)

/-- What happens next: a submission, a message of a worker that is running, an error of a worker
that has not failed before, or the next tick. Whether threads can be started, hashing works and
a message can be posted is decided by the environment. -/
inductive Event where
  | submit (threads : ℕ) (accepted hashed : Bool)
  | message (index : ℕ) (error accepted : Bool)
  | error (index : ℕ)
  | tick

def step (cfg : Config) (state : State) : Event → Option State
  | .submit threads accepted hashed => some (hashBlockParallel cfg threads accepted hashed state)
  | .message index error accepted =>
    if (state.worker index).running then some (onMessage state index error accepted) else none
  | .error index =>
    if index < state.workers.length ∧ (state.worker index).failed = false then
      some (onError state index)
    else none
  | .tick =>
    match state.ticks with
    | [] => none
    | call :: rest => some { state with ticks := rest, called := state.called ++ [call] }

/-! ## Where a submission can be -/

/-- A worker that will answer a submission. -/
def Worker.answers (submission : ℕ) (worker : Worker) : Bool :=
  worker.alive && worker.running && worker.cb == some submission

/-- In how many places a submission is: among the callbacks that were called, those that wait for
a tick, in the queue, and on the workers that will answer it. -/
def State.places (state : State) (submission : ℕ) : ℕ :=
  (state.called.map Prod.fst).count submission + (state.ticks.map Prod.fst).count submission +
    (state.hashPool.elim [] Pool.queue).count submission +
    state.workers.countP (Worker.answers submission)

/-- Every submission was called back once, or waits in one place where it will be; and a queue
that is not empty is one that a worker will come to. -/
structure State.Accounted (state : State) : Prop where
  once : ∀ submission < state.submitted, state.places submission = 1
  served : ∀ pool, state.hashPool = some pool → pool.queue ≠ [] →
    ∃ index ∈ pool.workers, ∃ worker, state.workers[index]? = some worker ∧
      worker.alive = true ∧ worker.running = true

/-- A failure is harmless for the pool when nothing else waits for it: no other worker is busy
and the queue is empty. -/
def State.quiet (state : State) (index : ℕ) : Prop :=
  ∀ pool, state.hashPool = some pool → pool.queue = [] ∧
    ∀ other ∈ pool.workers, other ≠ index → (state.worker other).busy = false

/-- An event is harmless unless it is a failure while others wait, or the message after which the
head of the queue cannot be posted while more wait behind it and no other worker is busy. -/
def harmless (state : State) : Event → Prop
  | .submit _ _ _ => True
  | .message index true _ => state.quiet index
  | .message _ false true => True
  | .message index false false => ∀ pool, state.hashPool = some pool → pool.queue.length ≤ 1 ∨
      ∃ other ∈ pool.workers, other ≠ index ∧ (state.worker other).busy = true
  | .error index => state.quiet index
  | .tick => True

/-! ## Changes of one worker -/

theorem countP_modify (accepts : Worker → Bool) (change : Worker → Worker) {workers : List Worker}
    {index : ℕ} {worker : Worker} (here : workers[index]? = some worker) :
    (workers.modify index change).countP accepts + (if accepts worker then 1 else 0) =
      workers.countP accepts + if accepts (change worker) then 1 else 0 := by
  induction workers generalizing index with
  | nil => cases here
  | cons first rest ih =>
    cases index with
    | zero =>
      obtain rfl : first = worker := by simpa using here
      simp only [List.modify_zero_cons, List.countP_cons]
      omega
    | succ index =>
      have later := ih (by simpa using here)
      simp only [List.modify_succ_cons, List.countP_cons]
      omega

theorem worker_eq {state : State} {index : ℕ} {worker : Worker}
    (here : state.workers[index]? = some worker) : state.worker index = worker := by
  rw [State.worker, List.getD_eq_getElem?_getD, here, Option.getD_some]

theorem worker_inside {state : State} {index : ℕ} (inside : index < state.workers.length) :
    state.workers[index]? = some (state.worker index) := by
  rw [State.worker, List.getD_eq_getElem?_getD, List.getElem?_eq_getElem inside, Option.getD_some]

theorem running_inside {state : State} {index : ℕ}
    (running : (state.worker index).running = true) : index < state.workers.length := by
  by_contra outside
  rw [State.worker, List.getD_eq_getElem?_getD,
    List.getElem?_eq_none (Nat.not_lt.mp outside)] at running
  cases running

theorem setWorker_get (state : State) (index other : ℕ) (change : Worker → Worker) :
    (state.setWorker index change).workers[other]? =
      if index = other then (state.workers[other]?).map change else state.workers[other]? := by
  rw [State.setWorker, List.getElem?_modify]
  split
  · rfl
  · cases state.workers[other]? with
    | none => rfl
    | some worker => rfl

theorem places_setWorker {state : State} {index : ℕ} {worker : Worker} (submission : ℕ)
    (change : Worker → Worker) (here : state.workers[index]? = some worker) :
    (state.setWorker index change).places submission +
        (if worker.answers submission then 1 else 0) =
      state.places submission + if (change worker).answers submission then 1 else 0 := by
  have counted := countP_modify (Worker.answers submission) change here
  simp only [State.places, State.setWorker]
  omega

/-- A callback that a worker has belongs to a job that the worker will answer, and to the current
pool. The workers of the pool are busy exactly while they have a callback. -/
structure State.Wired (state : State) : Prop where
  answered : ∀ (index : ℕ) (worker : Worker) (submission : ℕ),
    state.workers[index]? = some worker →
    worker.cb = some submission → worker.alive = true ∧ worker.running = true ∧
      ∃ pool, state.hashPool = some pool ∧ index ∈ pool.workers
  waiting : ∀ (index : ℕ) (worker : Worker), state.workers[index]? = some worker →
    worker.running = true → worker.cb.isSome = true
  pooled : ∀ pool, state.hashPool = some pool → pool.workers ≠ [] ∧
    ∀ index ∈ pool.workers, ∃ worker, state.workers[index]? = some worker ∧
      worker.alive = true ∧ worker.busy = worker.cb.isSome

/-- The invariant: also, every submission that was made is in one place, no other is in any, and
some worker is busy while the queue is not empty. -/
structure State.Sound (state : State) : Prop extends state.Wired where
  counted : ∀ submission,
    state.places submission = if submission < state.submitted then 1 else 0
  busy : ∀ pool, state.hashPool = some pool → pool.queue ≠ [] →
    ∃ index ∈ pool.workers, (state.worker index).busy = true

theorem State.Wired.busy_running {state : State} (wired : state.Wired) {pool : Pool} {index : ℕ}
    (current : state.hashPool = some pool) (member : index ∈ pool.workers)
    (busy : (state.worker index).busy = true) :
    ∃ worker submission, state.workers[index]? = some worker ∧ worker.cb = some submission ∧
      worker.alive = true ∧ worker.running = true := by
  obtain ⟨worker, here, alive, marked⟩ := (wired.pooled pool current).2 index member
  rw [worker_eq here, marked] at busy
  obtain ⟨submission, has⟩ := Option.isSome_iff_exists.mp busy
  exact ⟨worker, submission, here, has, alive, (wired.answered index worker submission here has).2.1⟩

theorem State.Sound.accounted {state : State} (sound : state.Sound) : state.Accounted where
  once submission known := by rw [sound.counted, if_pos known]
  served := by
    intro pool current filled
    obtain ⟨index, member, busy⟩ := sound.busy pool current filled
    obtain ⟨worker, _, here, _, alive, running⟩ :=
      sound.toWired.busy_running current member busy
    exact ⟨index, member, worker, here, alive, running⟩

/-- A worker is changed in a way that respects the invariant. -/
theorem State.Wired.setWorker {state : State} (wired : state.Wired) {index : ℕ} {worker : Worker}
    {change : Worker → Worker} (here : state.workers[index]? = some worker)
    (answered : ∀ submission, (change worker).cb = some submission →
      (change worker).alive = true ∧ (change worker).running = true ∧
        ∃ pool, state.hashPool = some pool ∧ index ∈ pool.workers)
    (waiting : (change worker).running = true → (change worker).cb.isSome = true)
    (pooled : worker.alive = true → (change worker).alive = true ∧
      (change worker).busy = (change worker).cb.isSome) :
    (state.setWorker index change).Wired where
  answered := by
    intro other changed submission found has
    rw [setWorker_get] at found
    split at found
    · rename_i same
      subst same
      rw [here] at found
      obtain rfl := Option.some.inj found
      exact answered submission has
    · exact wired.answered other changed submission found has
  waiting := by
    intro other changed found running
    rw [setWorker_get] at found
    split at found
    · rename_i same
      subst same
      rw [here] at found
      obtain rfl := Option.some.inj found
      exact waiting running
    · exact wired.waiting other changed found running
  pooled := by
    intro pool current
    obtain ⟨nonempty, each⟩ := wired.pooled pool current
    refine ⟨nonempty, fun other member => ?_⟩
    obtain ⟨old, found, alive, marked⟩ := each other member
    rw [setWorker_get]
    split
    · rename_i same
      subst same
      rw [found] at here
      obtain rfl := Option.some.inj here
      rw [found]
      exact ⟨change old, rfl, pooled alive⟩
    · exact ⟨old, found, alive, marked⟩

/-! ## Posting -/

theorem post_accepted (state : State) (index submission : ℕ) :
    state.post index submission true = state.setWorker index fun worker =>
      { worker with busy := true, cb := some submission, running := worker.alive } := by
  simp only [State.post, State.setWorker, if_true, List.modify_modify_eq]
  rfl

theorem post_refused (state : State) (index submission : ℕ) :
    state.post index submission false =
      { state.setWorker index fun worker => { worker with busy := false, cb := none } with
        called := state.called ++ [(submission, .error)] } := by
  simp only [State.post, State.setWorker, Bool.false_eq_true, if_false, List.modify_modify_eq]
  rfl

section

variable {state : State} {pool : Pool} {index : ℕ}

/-- A submission that is posted to an idle worker of the pool is on that worker, or was called
back. -/
theorem post_wired (wired : state.Wired) (current : state.hashPool = some pool)
    (member : index ∈ pool.workers) (idle : (state.worker index).busy = false)
    (submission : ℕ) (accepted : Bool) : (state.post index submission accepted).Wired := by
  obtain ⟨worker, here, alive, marked⟩ := (wired.pooled pool current).2 index member
  have free : worker.cb.isSome = false := by
    rw [← marked, ← worker_eq here]
    exact idle
  cases accepted with
  | true =>
    rw [post_accepted]
    apply wired.setWorker here
    · intro _ _
      exact ⟨alive, alive, pool, current, member⟩
    · intro _
      rfl
    · intro _
      exact ⟨alive, rfl⟩
  | false =>
    rw [post_refused]
    have changed : (state.setWorker index fun worker =>
        { worker with busy := false, cb := none }).Wired := by
      apply wired.setWorker here
      · intro _ has
        cases has
      · intro running
        have has := wired.waiting index worker here running
        rw [free] at has
        cases has
      · intro _
        exact ⟨alive, rfl⟩
    exact ⟨changed.answered, changed.waiting, changed.pooled⟩

theorem post_places (wired : state.Wired) (current : state.hashPool = some pool)
    (member : index ∈ pool.workers) (idle : (state.worker index).busy = false)
    (submission other : ℕ) (accepted : Bool) :
    (state.post index submission accepted).places other =
      state.places other + if other = submission then 1 else 0 := by
  obtain ⟨worker, here, alive, marked⟩ := (wired.pooled pool current).2 index member
  have free : worker.cb = none := by
    rw [← Option.not_isSome_iff_eq_none, ← marked, ← worker_eq here, idle]
    exact Bool.false_ne_true
  have before : worker.answers other = false := by simp [Worker.answers, free]
  cases accepted with
  | true =>
    have counted := places_setWorker other (fun worker =>
      { worker with busy := true, cb := some submission, running := worker.alive }) here
    rw [post_accepted]
    rw [before, if_neg Bool.false_ne_true] at counted
    rw [← Nat.add_zero (State.places _ other), counted]
    by_cases same : other = submission
    · simp [Worker.answers, alive, same]
    · simp [Worker.answers, same, Ne.symm same]
  | false =>
    have counted := places_setWorker other (fun worker =>
      { worker with busy := false, cb := none }) here
    have after : Worker.answers other { worker with busy := false, cb := none } = false := by
      simp [Worker.answers]
    rw [post_refused]
    rw [before, after, if_neg Bool.false_ne_true] at counted
    simp only [State.places, State.setWorker, List.map_append, List.map_cons, List.map_nil,
      List.count_append, List.count_singleton, beq_iff_eq] at counted ⊢
    by_cases same : submission = other
    · rw [if_pos same, if_pos same.symm]
      omega
    · rw [if_neg same, if_neg (Ne.symm same)]
      omega

/-- Posting changes one worker only. -/
theorem post_worker (submission : ℕ) (accepted : Bool) {other : ℕ} (apart : other ≠ index) :
    (state.post index submission accepted).worker other = state.worker other := by
  cases accepted with
  | true =>
    rw [post_accepted, State.worker, List.getD_eq_getElem?_getD, setWorker_get,
      if_neg (Ne.symm apart), ← List.getD_eq_getElem?_getD, State.worker]
  | false =>
    rw [post_refused]
    change ((state.setWorker index _).workers).getD other Worker.new = _
    rw [List.getD_eq_getElem?_getD, setWorker_get, if_neg (Ne.symm apart),
      ← List.getD_eq_getElem?_getD, State.worker]

theorem post_hashPool (submission : ℕ) (accepted : Bool) :
    (state.post index submission accepted).hashPool = state.hashPool := by
  cases accepted with
  | true => rfl
  | false => rfl

theorem post_submitted (submission : ℕ) (accepted : Bool) :
    (state.post index submission accepted).submitted = state.submitted := by
  cases accepted with
  | true => rfl
  | false => rfl

end

/-! ## Submissions -/

theorem poolSize_pos (cfg : Config) : 0 < cfg.poolSize := by
  rw [Config.poolSize]
  split
  · decide
  · omega

/-- Without a pool no worker has a callback. -/
theorem State.Wired.free {state : State} (wired : state.Wired) (absent : state.hashPool = none)
    {index : ℕ} {worker : Worker} (here : state.workers[index]? = some worker) :
    worker.cb = none := by
  cases has : worker.cb with
  | none => rfl
  | some submission =>
    obtain ⟨_, _, pool, current, _⟩ := wired.answered index worker submission here has
    rw [absent] at current
    cases current

/-- New workers that are not in the pool change nothing. -/
theorem State.Wired.start {state next : State} (wired : state.Wired) {count : ℕ}
    (absent : state.hashPool = none)
    (workers : next.workers = state.workers ++ List.replicate count Worker.new)
    (pooled : ∀ pool, next.hashPool = some pool →
      pool.workers = List.range' state.workers.length count ∧ 0 < count) : next.Wired where
  answered := by
    intro index worker submission here has
    rw [workers, List.getElem?_append] at here
    split at here
    · rw [wired.free absent here] at has
      cases has
    · rw [List.getElem?_replicate] at here
      split at here
      · obtain rfl := Option.some.inj here
        cases has
      · cases here
  waiting := by
    intro index worker here running
    rw [workers, List.getElem?_append] at here
    split at here
    · exact wired.waiting index worker here running
    · rw [List.getElem?_replicate] at here
      split at here
      · obtain rfl := Option.some.inj here
        cases running
      · cases here
  pooled := by
    intro pool current
    obtain ⟨numbers, some⟩ := pooled pool current
    rw [numbers, workers]
    constructor
    · intro empty
      have length := congrArg List.length empty
      rw [List.length_range', List.length_nil] at length
      omega
    · intro index member
      obtain ⟨lower, upper⟩ := List.mem_range'_1.mp member
      refine ⟨Worker.new, ?_, rfl, rfl⟩
      rw [List.getElem?_append_right lower, List.getElem?_replicate, if_pos (by omega)]

theorem ensureHashPool_cases (cfg : Config) (threads : ℕ) (state : State) :
    ensureHashPool cfg threads state = state ∨
      state.hashPool = none ∧ ∃ count,
        (ensureHashPool cfg threads state).workers =
          state.workers ++ List.replicate count Worker.new ∧
        (∀ pool, (ensureHashPool cfg threads state).hashPool = some pool →
          pool.workers = List.range' state.workers.length count ∧ 0 < count ∧ pool.queue = []) ∧
        (ensureHashPool cfg threads state).ticks = state.ticks ∧
        (ensureHashPool cfg threads state).called = state.called ∧
        (ensureHashPool cfg threads state).submitted = state.submitted := by
  rw [ensureHashPool]
  split
  · exact .inl rfl
  · rename_i absent
    have none := Option.not_isSome_iff_eq_none.mp absent
    split
    · exact .inl rfl
    · split
      · refine .inr ⟨none, cfg.poolSize, rfl, ?_, rfl, rfl, rfl⟩
        intro pool current
        cases current
        exact ⟨rfl, poolSize_pos cfg, rfl⟩
      · refine .inr ⟨none, threads, rfl, ?_, rfl, rfl, rfl⟩
        intro pool current
        rw [none] at current
        cases current

section

variable {state : State} (cfg : Config) (threads : ℕ)

theorem ensureHashPool_wired (wired : state.Wired) :
    (ensureHashPool cfg threads state).Wired := by
  rcases ensureHashPool_cases cfg threads state with same | ⟨absent, count, workers, pooled, _⟩
  · rw [same]
    exact wired
  · exact wired.start absent workers fun pool current =>
      ⟨(pooled pool current).1, (pooled pool current).2.1⟩

theorem ensureHashPool_places (submission : ℕ) :
    (ensureHashPool cfg threads state).places submission = state.places submission := by
  rcases ensureHashPool_cases cfg threads state with
    same | ⟨absent, count, workers, pooled, ticks, called, _⟩
  · rw [same]
  · have queue : (ensureHashPool cfg threads state).hashPool.elim [] Pool.queue = [] := by
      cases current : (ensureHashPool cfg threads state).hashPool with
      | none => rfl
      | some pool => exact (pooled pool current).2.2
    have idle : (List.replicate count Worker.new).countP (Worker.answers submission) = 0 := by
      rw [List.countP_eq_zero]
      intro worker member
      rw [List.eq_of_mem_replicate member]
      exact Bool.false_ne_true
    rw [State.places, State.places, ticks, called, queue, workers, List.countP_append, idle, absent]
    rfl

theorem ensureHashPool_busy
    (busy : ∀ pool, state.hashPool = some pool → pool.queue ≠ [] →
      ∃ index ∈ pool.workers, (state.worker index).busy = true) :
    ∀ pool, (ensureHashPool cfg threads state).hashPool = some pool → pool.queue ≠ [] →
      ∃ index ∈ pool.workers,
        ((ensureHashPool cfg threads state).worker index).busy = true := by
  rcases ensureHashPool_cases cfg threads state with same | ⟨_, _, _, pooled, _⟩
  · rw [same]
    exact busy
  · intro pool current filled
    exact absurd (pooled pool current).2.2 filled

theorem ensureHashPool_submitted :
    (ensureHashPool cfg threads state).submitted = state.submitted := by
  rcases ensureHashPool_cases cfg threads state with same | ⟨_, _, _, _, _, _, submitted⟩
  · rw [same]
  · exact submitted

end

/-- A submission that was just made is in no place yet. -/
structure State.Taking (state : State) (submission : ℕ) : Prop extends state.Wired where
  made : state.submitted = submission + 1
  others : ∀ other, state.places other = if other < submission then 1 else 0
  busy : ∀ pool, state.hashPool = some pool → pool.queue ≠ [] →
    ∃ index ∈ pool.workers, (state.worker index).busy = true

theorem State.Taking.sound {state next : State} {submission : ℕ} (taking : state.Taking submission)
    (wired : next.Wired) (submitted : next.submitted = state.submitted)
    (placed : ∀ other,
      next.places other = state.places other + if other = submission then 1 else 0)
    (busy : ∀ pool, next.hashPool = some pool → pool.queue ≠ [] →
      ∃ index ∈ pool.workers, (next.worker index).busy = true) : next.Sound where
  toWired := wired
  counted := by
    intro other
    rw [placed, taking.others, submitted, taking.made]
    split
    · rw [if_neg (by omega), if_pos (by omega)]
    · split
      · rw [if_pos (by omega)]
      · rw [if_neg (by omega)]
  busy := busy

/-- A submission that is hashed at once waits for the next tick. -/
theorem State.Taking.inline {state : State} {submission : ℕ} (taking : state.Taking submission)
    (hashed : Bool) : (state.inlineHashBlock submission hashed).Sound := by
  refine taking.sound ⟨taking.answered, taking.waiting, taking.pooled⟩ rfl ?_ taking.busy
  intro other
  simp only [State.places, State.inlineHashBlock, List.map_append, List.map_cons, List.map_nil,
    List.count_append, List.count_singleton, beq_iff_eq, @eq_comm _ submission other]
  omega

/-- A submission for which no worker is idle waits in the queue. -/
theorem State.Taking.queued {state : State} {submission : ℕ} {pool : Pool}
    (taking : state.Taking submission) (current : state.hashPool = some pool)
    (full : state.firstIdle pool = none) :
    { state with hashPool := some { pool with queue := pool.queue ++ [submission] } }.Sound := by
  have occupied : ∃ index ∈ pool.workers, (state.worker index).busy = true := by
    have nonempty := List.length_pos_of_ne_nil (taking.pooled pool current).1
    have first := List.find?_eq_none.mp full 0 (List.mem_range.mpr nonempty)
    have inside := Nat.mod_lt (pool.next + 0) nonempty
    rw [List.getD_eq_getElem?_getD, List.getElem?_eq_getElem inside, Option.getD_some] at first
    exact ⟨_, List.getElem_mem inside, by simpa using first⟩
  refine taking.sound ⟨?_, taking.waiting, ?_⟩ rfl ?_ ?_
  · intro index worker other here has
    obtain ⟨alive, running, pool', current', member⟩ := taking.answered index worker other here has
    rw [current] at current'
    cases current'
    exact ⟨alive, running, _, rfl, member⟩
  · intro pool' current'
    cases current'
    exact taking.pooled pool current
  · intro other
    simp only [State.places, current, Option.elim_some, List.count_append, List.count_singleton,
      beq_iff_eq, @eq_comm _ submission other]
    omega
  · intro pool' current' _
    cases current'
    exact occupied

/-- A submission for which a worker is idle is posted to that worker. -/
theorem State.Taking.posted {state : State} {submission next i : ℕ} {pool : Pool}
    (taking : state.Taking submission) (current : state.hashPool = some pool)
    (idle : state.firstIdle pool = some i) (accepted : Bool) :
    ({ state with hashPool := some { pool with next := next } }.post
      (pool.workers.getD ((pool.next + i) % pool.workers.length) 0) submission accepted).Sound := by
  have free := List.find?_some idle
  have nonempty := List.length_pos_of_ne_nil (taking.pooled pool current).1
  have inside := Nat.mod_lt (pool.next + i) nonempty
  rw [List.getD_eq_getElem?_getD, List.getElem?_eq_getElem inside, Option.getD_some] at free ⊢
  have member := List.getElem_mem inside
  have turned : State.Wired { state with hashPool := some { pool with next := next } } := by
    refine ⟨?_, taking.waiting, ?_⟩
    · intro index worker other here has
      obtain ⟨alive, running, pool', current', member⟩ :=
        taking.answered index worker other here has
      rw [current] at current'
      cases current'
      exact ⟨alive, running, _, rfl, member⟩
    · intro pool' current'
      cases current'
      exact taking.pooled pool current
  have unmarked : (state.worker pool.workers[(pool.next + i) % pool.workers.length]).busy =
      false := by
    simpa using free
  refine taking.sound (post_wired turned rfl member unmarked submission accepted)
    (post_submitted _ _) ?_ ?_
  · intro other
    rw [post_places turned rfl member unmarked submission other accepted]
    simp only [State.places, current, Option.elim_some]
  · intro pool' current' filled
    rw [post_hashPool] at current'
    cases current'
    obtain ⟨index, inPool, occupied⟩ := taking.busy pool current filled
    refine ⟨index, inPool, ?_⟩
    rw [post_worker]
    · exact occupied
    · rintro rfl
      rw [unmarked] at occupied
      cases occupied

theorem submit_sound {state : State} (sound : state.Sound) (cfg : Config) (threads : ℕ)
    (accepted hashed : Bool) : (hashBlockParallel cfg threads accepted hashed state).Sound := by
  have taking : State.Taking { state with submitted := state.submitted + 1 } state.submitted :=
    ⟨⟨sound.answered, sound.waiting, sound.pooled⟩, rfl, sound.counted, sound.busy⟩
  simp only [hashBlockParallel]
  split
  · exact taking.inline hashed
  · have ensured : State.Taking (ensureHashPool cfg threads
        { state with submitted := state.submitted + 1 }) state.submitted := by
      refine ⟨ensureHashPool_wired cfg threads taking.toWired,
        ensureHashPool_submitted cfg threads, fun other => ?_,
        ensureHashPool_busy cfg threads taking.busy⟩
      rw [ensureHashPool_places]
      exact taking.others other
    split
    · exact ensured.inline hashed
    · rename_i pool current
      split
      · rename_i i idle
        exact ensured.posted current idle accepted
      · rename_i full
        exact ensured.queued current full

/-! ## Failures -/

/-- A worker without its callback. -/
def State.cleared (state : State) (index : ℕ) : State :=
  state.setWorker index fun worker => { worker with cb := none, busy := false, running := false }

/-- A submission is in the other places, or its callback is the one that a worker has. -/
theorem places_cleared {state : State} (wired : state.Wired) {index : ℕ}
    (inside : index < state.workers.length) (submission : ℕ) :
    (state.cleared index).places submission + (state.worker index).cb.toList.count submission =
      state.places submission := by
  have here := worker_inside inside
  have counted := places_setWorker submission (fun worker =>
    { worker with cb := none, busy := false, running := false }) here
  have after : Worker.answers submission
      { state.worker index with cb := none, busy := false, running := false } = false := by
    simp [Worker.answers]
  rw [after, if_neg Bool.false_ne_true, Nat.add_zero] at counted
  rw [← counted]
  congr 1
  cases has : (state.worker index).cb with
  | none => simp [Worker.answers, has]
  | some other =>
    obtain ⟨alive, running, _⟩ := wired.answered index _ other here has
    simp only [Worker.answers, alive, running, has, Bool.true_and, Option.toList_some,
      List.count_singleton, beq_iff_eq, Option.some.injEq]

/-- What a failure leaves: there is no pool, one callback was called with the error, and only
threads that were terminated with the pool still have one. -/
structure Failure (state next : State) (index : ℕ) : Prop where
  pool : next.hashPool = none
  ticks : next.ticks = state.ticks
  submitted : next.submitted = state.submitted
  called : next.called.map Prod.fst =
    state.called.map Prod.fst ++ (state.worker index).cb.toList
  waiting : ∀ (other : ℕ) (worker : Worker), next.workers[other]? = some worker →
    worker.running = true → worker.cb.isSome = true
  dead : ∀ (other : ℕ) (worker : Worker), next.workers[other]? = some worker →
    worker.cb.isSome = true →
    worker.alive = false ∧ other ≠ index ∧
      ∃ pool, state.hashPool = some pool ∧ other ∈ pool.workers ∧
        (state.worker other).busy = true

theorem failHashPoolQueue_none {state : State} (absent : state.hashPool = none) :
    failHashPoolQueue state = state := by
  rw [failHashPoolQueue, absent]

theorem destroyHashPool_absent (state : State) : (destroyHashPool state).hashPool = none := by
  rw [destroyHashPool]
  split
  · assumption
  · rfl

theorem destroyHashPool_kept (state : State) :
    (destroyHashPool state).ticks = state.ticks ∧ (destroyHashPool state).called = state.called ∧
      (destroyHashPool state).submitted = state.submitted := by
  rw [destroyHashPool]
  split
  · exact ⟨rfl, rfl, rfl⟩
  · exact ⟨rfl, rfl, rfl⟩

/-- Destroying the pool changes nothing of a worker but that it may end its thread. -/
theorem destroyHashPool_get {state : State} {index : ℕ} {worker : Worker}
    (here : (destroyHashPool state).workers[index]? = some worker) :
    ∃ before, state.workers[index]? = some before ∧
      worker = { before with alive := worker.alive } ∧
      ∀ pool, state.hashPool = some pool → index ∈ pool.workers → worker.alive = false := by
  rw [destroyHashPool] at here
  split at here
  · rename_i absent
    refine ⟨worker, here, rfl, ?_⟩
    intro pool current
    rw [absent] at current
    cases current
  · rename_i pool current
    rw [List.getElem?_mapIdx] at here
    obtain ⟨before, found, rfl⟩ := Option.map_eq_some_iff.mp here
    refine ⟨before, found, ?_, ?_⟩
    · split
      · rfl
      · rfl
    · intro other same member
      rw [current] at same
      cases same
      rw [if_pos member]

section

variable {state : State} (wired : state.Wired) {index : ℕ}
include wired

/-- Workers with a callback are busy workers of the pool. -/
theorem State.Wired.occupied {other : ℕ} {worker : Worker}
    (here : state.workers[other]? = some worker) (has : worker.cb.isSome = true) :
    ∃ pool, state.hashPool = some pool ∧ other ∈ pool.workers ∧
      (state.worker other).busy = true := by
  obtain ⟨submission, callback⟩ := Option.isSome_iff_exists.mp has
  obtain ⟨_, _, pool, current, member⟩ := wired.answered other worker submission here callback
  obtain ⟨same, found, _, marked⟩ := (wired.pooled pool current).2 other member
  rw [here] at found
  cases found
  refine ⟨pool, current, member, ?_⟩
  rw [worker_eq here, marked, has]

/-- A failure by its last steps: the callback of the worker is called after the pool was
destroyed, and no other worker was changed before. -/
theorem failure_of_stopped {stopped next : State}
    (result : next = failHashPoolQueue (stopped.invoke (state.worker index).cb .error))
    (pool : stopped.hashPool = none)
    (kept : stopped.ticks = state.ticks ∧ stopped.called = state.called ∧
      stopped.submitted = state.submitted)
    (trace : ∀ (other : ℕ) (worker : Worker), stopped.workers[other]? = some worker →
      worker.cb.isSome = true ∨ worker.running = true →
        other ≠ index ∧ ∃ before, state.workers[other]? = some before ∧
          worker = { before with alive := worker.alive } ∧
          ∀ pool, state.hashPool = some pool → other ∈ pool.workers → worker.alive = false) :
    Failure state next index := by
  have absent : (stopped.invoke (state.worker index).cb .error).hashPool = none := pool
  rw [failHashPoolQueue_none absent] at result
  rw [result]
  constructor
  · exact pool
  · exact kept.1
  · exact kept.2.2
  · rw [State.invoke, kept.2.1, List.map_append, List.map_map]
    congr 1
    exact List.map_id _
  · intro other worker found running
    obtain ⟨_, before, there, same, _⟩ := trace other worker found (.inr running)
    rw [same] at running ⊢
    exact wired.waiting other before there running
  · intro other worker found has
    obtain ⟨apart, before, there, same, ended⟩ := trace other worker found (.inl has)
    rw [same] at has
    obtain ⟨pool, current, member, busy⟩ := wired.occupied there has
    exact ⟨ended pool current member, apart, pool, current, member, busy⟩

theorem onMessage_failure (accepted : Bool) :
    Failure state (onMessage state index true accepted) index := by
  refine @failure_of_stopped _ wired index (destroyHashPool (state.cleared index)) _ rfl
    (destroyHashPool_absent _) (destroyHashPool_kept _) ?_
  intro other worker found marked
  obtain ⟨before, there, same, ended⟩ := destroyHashPool_get found
  rw [State.cleared, setWorker_get] at there
  split at there
  · obtain ⟨old, _, rfl⟩ := Option.map_eq_some_iff.mp there
    rw [same] at marked
    rcases marked with has | running
    · cases has
    · cases running
  · rename_i apart
    exact ⟨Ne.symm apart, before, there, same, ended⟩

theorem onError_failure : Failure state (onError state index) index := by
  refine @failure_of_stopped _ wired index
    ((destroyHashPool (state.setWorker index fun worker =>
      { worker with alive := false, running := false, failed := true })).setWorker index
        fun worker => { worker with cb := none }) _ rfl
    (destroyHashPool_absent _) (destroyHashPool_kept _) ?_
  intro other worker found marked
  rw [setWorker_get] at found
  split at found
  · rename_i here
    obtain ⟨after, inner, rfl⟩ := Option.map_eq_some_iff.mp found
    obtain ⟨before, there, same, _⟩ := destroyHashPool_get inner
    rw [setWorker_get, if_pos here] at there
    obtain ⟨old, _, rfl⟩ := Option.map_eq_some_iff.mp there
    rcases marked with has | running
    · cases has
    · rw [same] at running
      cases running
  · rename_i apart
    obtain ⟨before, there, same, ended⟩ := destroyHashPool_get found
    rw [setWorker_get, if_neg apart] at there
    exact ⟨Ne.symm apart, before, there, same, ended⟩

end

theorem Failure.places {state next : State} {index : ℕ} (failure : Failure state next index)
    (submission : ℕ) : next.places submission =
      (state.called.map Prod.fst).count submission +
        (state.ticks.map Prod.fst).count submission +
        (state.worker index).cb.toList.count submission := by
  have none : next.workers.countP (Worker.answers submission) = 0 := by
    rw [List.countP_eq_zero]
    intro worker member answers
    obtain ⟨other, found⟩ := List.mem_iff_getElem?.mp member
    simp only [Worker.answers, Bool.and_eq_true, beq_iff_eq] at answers
    have dead := (failure.dead other worker found (by rw [answers.2]; rfl)).1
    rw [answers.1.1] at dead
    cases dead
  rw [State.places, failure.called, failure.ticks, failure.pool, none, List.count_append]
  simp only [Option.elim_none, List.count_nil]
  omega

/-- A failure while nothing else waits loses nothing. -/
theorem Failure.sound {state next : State} {index : ℕ} (failure : Failure state next index)
    (sound : state.Sound) (inside : index < state.workers.length) (quiet : state.quiet index) :
    next.Sound := by
  have free : ∀ (other : ℕ) (worker : Worker), next.workers[other]? = some worker →
      worker.cb = none := by
    intro other worker found
    cases has : worker.cb with
    | none => rfl
    | some submission =>
      obtain ⟨_, apart, pool, current, member, busy⟩ :=
        failure.dead other worker found (by rw [has]; rfl)
      rw [(quiet pool current).2 other member apart] at busy
      cases busy
  constructor
  · constructor
    · intro other worker submission found has
      rw [free other worker found] at has
      cases has
    · exact failure.waiting
    · intro pool current
      rw [failure.pool] at current
      cases current
  · intro submission
    rw [failure.places, failure.submitted, ← sound.counted,
      ← places_cleared sound.toWired inside]
    have queue : state.hashPool.elim [] Pool.queue = [] := by
      cases current : state.hashPool with
      | none => rfl
      | some pool => exact (quiet pool current).1
    have none : (state.cleared index).workers.countP (Worker.answers submission) = 0 := by
      rw [List.countP_eq_zero]
      intro worker member answers
      obtain ⟨other, found⟩ := List.mem_iff_getElem?.mp member
      simp only [Worker.answers, Bool.and_eq_true, beq_iff_eq] at answers
      rw [State.cleared, setWorker_get] at found
      split at found
      · obtain ⟨old, _, rfl⟩ := Option.map_eq_some_iff.mp found
        cases answers.2
      · rename_i apart
        obtain ⟨pool, current, member, busy⟩ :=
          sound.toWired.occupied found (by rw [answers.2]; rfl)
        rw [(quiet pool current).2 other member (Ne.symm apart)] at busy
        cases busy
    rw [State.places, none]
    simp only [State.cleared, State.setWorker, queue, List.count_nil]
    omega
  · intro pool current
    rw [failure.pool] at current
    cases current

/-- A failure while something else waits loses it. -/
theorem Failure.quiet {state next : State} {index : ℕ} (failure : Failure state next index)
    (sound : state.Sound) (inside : index < state.workers.length) (accounted : next.Accounted) :
    state.quiet index := by
  have waitsNowhere : ∀ submission, 0 < state.places submission →
      (state.hashPool.elim [] Pool.queue).count submission = 0 ∧
        (state.cleared index).workers.countP (Worker.answers submission) = 0 := by
    intro submission somewhere
    have counted := sound.counted submission
    have known : submission < state.submitted := by
      by_contra unknown
      rw [if_neg unknown] at counted
      omega
    rw [if_pos known] at counted
    have after := accounted.once submission (failure.submitted ▸ known)
    rw [failure.places] at after
    rw [← places_cleared sound.toWired inside, State.places] at counted
    simp only [State.cleared, State.setWorker] at counted ⊢
    omega
  intro pool current
  constructor
  · by_contra filled
    obtain ⟨submission, member⟩ := List.exists_mem_of_ne_nil _ filled
    have here : 0 < (state.hashPool.elim [] Pool.queue).count submission := by
      rw [current]
      exact List.count_pos_iff.mpr member
    have lost := (waitsNowhere submission (by rw [State.places]; omega)).1
    omega
  · intro other member apart
    by_contra marked
    rw [Bool.not_eq_false] at marked
    obtain ⟨worker, submission, found, has, alive, running⟩ :=
      sound.toWired.busy_running current member marked
    have answers : worker.answers submission = true := by
      simp [Worker.answers, alive, running, has]
    have before : 0 < state.workers.countP (Worker.answers submission) :=
      List.countP_pos_iff.mpr ⟨worker, List.mem_of_getElem? found, answers⟩
    have after : 0 < (state.cleared index).workers.countP (Worker.answers submission) := by
      refine List.countP_pos_iff.mpr ⟨worker, @List.mem_of_getElem? _ _ other _ ?_, answers⟩
      rw [State.cleared, setWorker_get, if_neg (Ne.symm apart)]
      exact found
    have lost := (waitsNowhere submission (by rw [State.places]; omega)).2
    omega

/-! ## Messages -/

section

variable {state : State} (sound : state.Sound) {index : ℕ}
  (running : (state.worker index).running = true)
include sound running

/-- A worker that runs is one of the pool. -/
theorem running_pooled : ∃ pool, state.hashPool = some pool ∧ index ∈ pool.workers := by
  have here := worker_inside (running_inside running)
  have has := sound.waiting index _ here running
  obtain ⟨pool, current, member, _⟩ := sound.toWired.occupied here has
  exact ⟨pool, current, member⟩

/-- The worker that sent a result is idle, and its submission is called back. -/
theorem answered_wired :
    ((state.cleared index).invoke (state.worker index).cb .result).Wired ∧
      ∀ submission, ((state.cleared index).invoke (state.worker index).cb .result).places
        submission = state.places submission := by
  have inside := running_inside running
  have here := worker_inside inside
  constructor
  · have cleared : (state.cleared index).Wired := by
      apply sound.toWired.setWorker here
      · intro _ has
        cases has
      · intro runs
        cases runs
      · intro alive
        exact ⟨alive, rfl⟩
    exact ⟨cleared.answered, cleared.waiting, cleared.pooled⟩
  · intro submission
    rw [← places_cleared sound.toWired inside]
    simp only [State.places, State.invoke, List.map_append, List.map_map, List.count_append]
    have same : List.map (Prod.fst ∘ fun submission => (submission, Outcome.result))
        (state.worker index).cb.toList = (state.worker index).cb.toList := List.map_id _
    rw [same]
    omega

omit sound in
theorem cleared_idle :
    (((state.cleared index).invoke (state.worker index).cb .result).worker index).busy = false ∧
      (((state.cleared index).invoke (state.worker index).cb .result).worker index).running =
        false := by
  have here := worker_inside (running_inside running)
  have found : ((state.cleared index).invoke (state.worker index).cb .result).workers[index]? =
      some { state.worker index with cb := none, busy := false, running := false } := by
    change (state.cleared index).workers[index]? = _
    rw [State.cleared, setWorker_get, if_pos rfl, here]
    rfl
  rw [worker_eq found]
  exact ⟨rfl, rfl⟩

omit sound running in
theorem cleared_other {other : ℕ} (apart : other ≠ index) :
    ((state.cleared index).invoke (state.worker index).cb .result).worker other =
      state.worker other := by
  change (state.cleared index).workers.getD other Worker.new = _
  rw [List.getD_eq_getElem?_getD, State.cleared, setWorker_get, if_neg (Ne.symm apart),
    ← List.getD_eq_getElem?_getD, State.worker]

/-- After a result nothing is lost exactly when the head of the queue can be posted, or nothing
waits behind it, or another worker is still busy. -/
theorem result_sound (accepted : Bool) :
    (harmless state (.message index false accepted) →
      (onMessage state index false accepted).Sound) ∧
    ((onMessage state index false accepted).Accounted →
      harmless state (.message index false accepted)) := by
  obtain ⟨pool, current, member⟩ := running_pooled sound running
  obtain ⟨wired, places⟩ := answered_wired sound running
  obtain ⟨idle, stopped⟩ := cleared_idle running
  have result : onMessage state index false accepted = dispatchFromQueueTo
      ((state.cleared index).invoke (state.worker index).cb .result) index accepted := by
    simp only [onMessage, Bool.false_eq_true, if_false]
    rfl
  have here : ((state.cleared index).invoke (state.worker index).cb .result).hashPool =
      some pool := current
  rw [result, dispatchFromQueueTo, here]
  simp only
  cases queue : pool.queue with
  | nil =>
    constructor
    · intro _
      refine ⟨wired, fun submission => ?_, ?_⟩
      · rw [places]
        exact sound.counted submission
      · intro pool' current' filled
        rw [here] at current'
        cases current'
        exact absurd queue filled
    · intro _
      cases accepted with
      | true => trivial
      | false =>
        intro pool' current'
        rw [current] at current'
        cases current'
        exact .inl (by rw [queue]; exact Nat.zero_le _)
  | cons submission rest =>
    simp only [idle, Bool.false_eq_true, if_false]
    generalize cleared_eq :
      (state.cleared index).invoke (state.worker index).cb .result = cleared at *
    have shortened : State.Wired { cleared with hashPool := some { pool with queue := rest } } := by
      refine ⟨?_, wired.waiting, ?_⟩
      · intro other worker job found has
        obtain ⟨alive, runs, pool', current', inPool⟩ := wired.answered other worker job found has
        rw [here] at current'
        cases current'
        exact ⟨alive, runs, _, rfl, inPool⟩
      · intro pool' current'
        cases current'
        exact wired.pooled pool here
    constructor
    · intro harmless
      refine ⟨post_wired shortened rfl member idle submission accepted, fun other => ?_, ?_⟩
      · rw [post_places shortened rfl member idle submission other accepted, post_submitted]
        have kept := places other
        rw [sound.counted] at kept
        have submitted : cleared.submitted = state.submitted := by
          rw [← cleared_eq]
          rfl
        rw [submitted, ← kept]
        simp only [State.places, here, queue, Option.elim_some, List.count_cons, beq_iff_eq,
          @eq_comm _ submission other]
        omega
      · intro pool' current' filled
        rw [post_hashPool] at current'
        cases current'
        cases accepted with
        | true =>
          refine ⟨index, member, ?_⟩
          obtain ⟨worker, found, _⟩ := (shortened.pooled _ rfl).2 index member
          have after : ({ cleared with hashPool := some { pool with queue := rest } }.post index
              submission true).workers[index]? = some
                { worker with busy := true, cb := some submission, running := worker.alive } := by
            rw [post_accepted, setWorker_get, if_pos rfl, found]
            rfl
          rw [worker_eq after]
        | false =>
          rcases harmless pool current with short | ⟨other, inPool, apart, busy⟩
          · rw [queue, List.length_cons] at short
            have empty : rest = [] := List.length_eq_zero_iff.mp (by omega)
            exact absurd empty filled
          · refine ⟨other, inPool, ?_⟩
            rw [post_worker _ _ apart]
            change (cleared.worker other).busy = true
            rw [← cleared_eq, cleared_other apart]
            exact busy
    · intro accounted
      cases accepted with
      | true => trivial
      | false =>
        intro pool' current'
        rw [current] at current'
        cases current'
        by_contra waits
        rw [not_or, queue, List.length_cons] at waits
        have filled : rest ≠ [] := by
          rintro rfl
          exact waits.1 (Nat.le_refl _)
        obtain ⟨other, inPool, worker, found, alive, runs⟩ :=
          accounted.served { pool with queue := rest } (post_hashPool _ _) filled
        rw [post_refused] at found
        by_cases same : index = other
        · subst same
          obtain ⟨old, there, _⟩ := (shortened.pooled _ rfl).2 index member
          change (State.setWorker _ index _).workers[index]? = _ at found
          rw [setWorker_get, if_pos rfl, there] at found
          obtain rfl := Option.some.inj found
          have asleep : old.running = false := by
            rw [← stopped]
            exact congrArg Worker.running (worker_eq there).symm
          rw [asleep] at runs
          cases runs
        · change (State.setWorker _ index _).workers[other]? = _ at found
          rw [setWorker_get, if_neg same] at found
          have before : state.worker other = worker := by
            rw [← cleared_other (Ne.symm same), cleared_eq]
            exact worker_eq found
          obtain ⟨there, found', _, marked⟩ := (sound.pooled pool current).2 other inPool
          have same' : there = worker := by rw [← worker_eq found', before]
          subst same'
          refine waits.2 ⟨other, inPool, Ne.symm same, ?_⟩
          rw [before, marked]
          exact sound.waiting other there found' runs

end

/-! ## Runs -/

theorem start_sound : State.start.Sound := by
  refine ⟨⟨?_, ?_, ?_⟩, ?_, ?_⟩
  · intro _ _ _ found
    cases found
  · intro _ _ found
    cases found
  · intro _ current
    cases current
  · intro submission
    exact (if_neg (Nat.not_lt_zero _)).symm
  · intro _ current
    cases current

theorem tick_sound {state : State} (sound : state.Sound) {call : ℕ × Outcome}
    {rest : List (ℕ × Outcome)} (ticks : state.ticks = call :: rest) :
    State.Sound { state with ticks := rest, called := state.called ++ [call] } := by
  refine ⟨⟨sound.answered, sound.waiting, sound.pooled⟩, fun submission => ?_, sound.busy⟩
  simp only
  rw [← sound.counted]
  simp only [State.places, ticks, List.map_append, List.map_cons, List.map_nil,
    List.count_append, List.count_cons, List.count_nil]
  omega

variable {cfg : Config}

/-- A harmless event loses no submission. -/
theorem sound_step (state : State) (event : Event) (next : State) (sound : state.Sound)
    (harmless : harmless state event) (taken : step cfg state event = some next) :
    next.Sound := by
  cases event with
  | submit threads accepted hashed =>
    obtain rfl := Option.some.inj taken
    exact submit_sound sound cfg threads accepted hashed
  | message index error accepted =>
    rw [step] at taken
    split at taken
    · rename_i running
      obtain rfl := Option.some.inj taken
      cases error with
      | true =>
        exact (onMessage_failure sound.toWired accepted).sound sound (running_inside running) harmless
      | false => exact (result_sound sound running accepted).1 harmless
    · cases taken
  | error index =>
    rw [step] at taken
    split at taken
    · rename_i known
      obtain rfl := Option.some.inj taken
      exact (onError_failure sound.toWired).sound sound known.1 harmless
    · cases taken
  | tick =>
    rw [step] at taken
    split at taken
    · cases taken
    · rename_i call rest ticks
      obtain rfl := Option.some.inj taken
      exact tick_sound sound ticks

/-- An event that loses no submission is harmless. -/
theorem harmless_of_accounted (state : State) (event : Event) (next : State)
    (sound : state.Sound) (taken : step cfg state event = some next)
    (accounted : next.Accounted) : harmless state event := by
  cases event with
  | submit threads accepted hashed => trivial
  | message index error accepted =>
    rw [step] at taken
    split at taken
    · rename_i running
      obtain rfl := Option.some.inj taken
      cases error with
      | true =>
        exact (onMessage_failure sound.toWired accepted).quiet sound (running_inside running)
          accounted
      | false => exact (result_sound sound running accepted).2 accounted
    · cases taken
  | error index =>
    rw [step] at taken
    split at taken
    · rename_i known
      obtain rfl := Option.some.inj taken
      exact (onError_failure sound.toWired).quiet sound known.1 accounted
    · cases taken
  | tick => trivial

/-- No submission is lost or called back twice along a run exactly when each failure of it meets a
pool where nothing else waits, and each result after which the next submission cannot be posted
meets a queue with no other, or a pool with another busy worker. -/
theorem accounted_iff (cfg : Config) (events : List Event) :
    Machine.Throughout (step cfg) State.Accounted State.start events ↔
      Machine.Guarded (step cfg) harmless State.start events :=
  Machine.throughout_iff_guarded (fun _ => State.Sound.accounted) sound_step
    harmless_of_accounted start_sound events

/-- One worker: the first submission is posted, the second waits in the queue. The worker answers
with an error, and nobody calls the second callback. -/
theorem queued_submission_lost : ¬ ∀ cfg events,
    Machine.Throughout (step cfg) State.Accounted State.start events := by
  intro always
  have last := (((always ⟨true, 1⟩ [.submit 1 true true, .submit 1 true true,
    .message 0 true true]).2 _ rfl).2 _ rfl).2 _ rfl
  have once := State.Accounted.once last 1 (by decide)
  revert once
  decide

end HashPool

end Par3

import Par3.BarycentricWeights

/-!
# Inverses in lockstep

The vector back ends invert blocks of two, four or eight words. All lanes of a block take the step of
Euclid together, a lane that is done rests, and after 128 iterations the block is given up, whatever
its lanes hold. The degrees of a lane are not more than 128 together, so no lane is given up.
-/

namespace Par3

/-- What a lane starts from. -/
def EuclidState.start (av : BitVec 64) : EuclidState where
  r0 := 0x1B
  r1 := av
  s0 := 0
  s1 := 1
  deg_r0 := 64
  deg_r1 := if av = 0 then -1 else 63 - my_clzll av

structure Lane where
  state : EuclidState
  done : Bool

namespace Lane

def start (av : BitVec 64) : Lane := ⟨.start av, decide (av = 0 ∨ av = 1)⟩

/-- The body of the inner loop for a lane that is not done. A shift by the width of a word or more, or
by a negative number, is not defined. -/
def advance (lane : Lane) : Option Lane := do
  let state ← lane.state.step
  return ⟨state, decide (state.r1 = 0 ∨ state.r1 = 1)⟩

def result (lane : Lane) : Gf64 := ⟨if lane.state.r1 = 0 then 0 else lane.state.s1⟩

end Lane

/-- The body of the inner loop. `all_done` stays as long as no lane has work to do. -/
def laneTurn (state : (ℕ → Lane) × Bool) (lane : ℕ) : Option ((ℕ → Lane) × Bool) :=
  let (lanes, _) := state
  if (lanes lane).done then some state
  else do
    let next ← (lanes lane).advance
    return (Function.update lanes lane next, false)

/-- One iteration over all lanes. -/
def lockstep (LANES : ℕ) (lanes : ℕ → Lane) : Option ((ℕ → Lane) × Bool) :=
  (List.range LANES).foldlM laneTurn (lanes, true)

/-- The iterations of a block, which stop when all lanes are done. -/
def lockstepLoop (LANES : ℕ) : ℕ → (ℕ → Lane) → Option (ℕ → Lane)
  | 0, lanes => some lanes
  | iterations + 1, lanes => do
    let (lanes, all_done) ← lockstep LANES lanes
    if all_done then some lanes else lockstepLoop LANES iterations lanes

def startLanes (input : ℕ → Gf64) (i : ℕ) : ℕ → Lane := fun lane => .start (input (i + lane)).bits

/-- `gf64_inverse_batch_scalar(out + i, in + i, N)` -/
def gf64_inverse_batch_scalar (rounds : ℕ) (input : ℕ → Gf64) (i N : ℕ) (out : ℕ → Gf64) :
    Option (ℕ → Gf64) :=
  (List.range N).foldlM (fun out j => do
    let inverse ← gf64_inverse rounds (input (i + j)).bits
    return Function.update out (i + j) ⟨inverse⟩) out

/-- One block of lanes. -/
def inverseBlock (LANES : ℕ) (input : ℕ → Gf64) (i : ℕ) (out : ℕ → Gf64) : Option (ℕ → Gf64) := do
  let lanes ← lockstepLoop LANES GF64_INV_MAX_ITER (startLanes input i)
  return (List.range LANES).foldl (fun out lane => Function.update out (i + lane) (lanes lane).result) out

def gf64_inverse_batch_lanes (LANES rounds : ℕ) (input : ℕ → Gf64) (N : ℕ) (out : ℕ → Gf64) :
    Option (ℕ → Gf64) := do
  let blocks := N / LANES
  let out ← (List.range blocks).foldlM (fun out b => inverseBlock LANES input (b * LANES) out) out
  let i := blocks * LANES
  if i < N then gf64_inverse_batch_scalar rounds input i (N - i) out else some out

/-- The routine of each back end. -/
def InverseMethod.batch (rounds : ℕ) (input : ℕ → Gf64) (N : ℕ) (out : ℕ → Gf64) :
    InverseMethod → Option (ℕ → Gf64)
  | .scalar => gf64_inverse_batch_scalar rounds input 0 N out
  | .ssse3 => gf64_inverse_batch_lanes 2 rounds input N out
  | .avx2 => gf64_inverse_batch_lanes 4 rounds input N out
  | .avx512 => gf64_inverse_batch_lanes 8 rounds input N out

/-! ## One lane -/

/-- A lane that is left alone when it is done. -/
def Lane.alone : ℕ → Lane → Option Lane
  | 0, lane => some lane
  | iterations + 1, lane => if lane.done then some lane else lane.advance >>= alone iterations

/-- The flag says whether the loop over one word would stop. -/
def Lane.Flagged (lane : Lane) : Prop := lane.done = decide (lane.state.r1 = 0 ∨ lane.state.r1 = 1)

namespace Lane

theorem start_flagged (av : BitVec 64) : (start av).Flagged := rfl

theorem alone_done {lane : Lane} (done : lane.done = true) (iterations : ℕ) :
    lane.alone iterations = some lane := by
  cases iterations with
  | zero => rfl
  | succ iterations => rw [alone, if_pos done]

theorem alone_add (lane : Lane) (first second : ℕ) :
    lane.alone (first + second) = lane.alone first >>= alone second := by
  induction first generalizing lane with
  | zero => rw [Nat.zero_add]; rfl
  | succ first ih =>
    rw [Nat.succ_add, alone, alone]
    split
    case isTrue done => exact (alone_done done second).symm
    case isFalse =>
      rw [bind_assoc]
      exact congrArg _ (funext ih)

/-- A lane goes through the states of the loop over one word. -/
theorem alone_laneLoop {lane : Lane} (flagged : lane.Flagged) (iterations : ℕ) :
    lane.alone iterations =
      (laneLoop iterations lane.state).map fun state =>
        ⟨state, decide (state.r1 = 0 ∨ state.r1 = 1)⟩ := by
  induction iterations generalizing lane with
  | zero =>
    obtain ⟨state, done⟩ := lane
    rw [Flagged] at flagged
    rw [alone, laneLoop, Option.map_some, ← flagged]
  | succ iterations ih =>
    rw [alone, laneLoop]
    split
    case isTrue done =>
      have stops := of_decide_eq_true (flagged.symm.trans done)
      rw [if_pos stops, Option.map_some, ← flagged]
    case isFalse busy =>
      have goesOn : ¬ (lane.state.r1 = 0 ∨ lane.state.r1 = 1) := fun stops =>
        busy (flagged.trans (decide_eq_true stops))
      rw [if_neg goesOn, advance]
      cases lane.state.step with
      | none => rfl
      | some next => exact @ih ⟨next, _⟩ rfl

/-- A lane is done after 128 iterations, with the inverse. -/
theorem alone_finished (av : BitVec 64) :
    ∃ last, (start av).alone GF64_INV_MAX_ITER = some last ∧ last.done = true ∧
      last.result = (⟨av⟩ : Gf64)⁻¹ := by
  by_cases zero : av = 0
  · subst zero
    exact ⟨_, alone_done rfl _, rfl, rfl⟩
  · obtain ⟨last, run, stops, value⟩ := laneLoop_inverse (inverseLoop_start zero (le_refl 129))
    refine ⟨⟨last, decide (last.r1 = 0 ∨ last.r1 = 1)⟩, ?_, decide_eq_true stops, ?_⟩
    · rw [alone_laneLoop (start_flagged av)]
      exact congrArg _ run
    · exact congrArg BinaryField.Word.mk value

/-- No step of a lane is undefined, and behind the last it has the inverse. -/
theorem alone_defined (av : BitVec 64) (iterations : ℕ) :
    ∃ last, (start av).alone iterations = some last := by
  obtain ⟨last, finished, done, -⟩ := alone_finished av
  rcases Nat.le_total iterations GF64_INV_MAX_ITER with early | late
  · obtain ⟨more, split⟩ := Nat.exists_eq_add_of_le early
    rw [split, alone_add] at finished
    obtain ⟨between, reached, -⟩ := Option.bind_eq_some_iff.mp finished
    exact ⟨between, reached⟩
  · obtain ⟨more, rfl⟩ := Nat.exists_eq_add_of_le late
    refine ⟨last, ?_⟩
    rw [alone_add, finished]
    exact alone_done done more

end Lane

/-! ## All lanes -/

section Lockstep

variable {LANES : ℕ} {lanes : ℕ → Lane}

theorem laneTurn_done {state : (ℕ → Lane) × Bool} {lane : ℕ} {current : Lane}
    (own : state.1 lane = current) (done : current.done = true) : laneTurn state lane = some state := by
  subst own
  exact if_pos done

theorem laneTurn_busy {state : (ℕ → Lane) × Bool} {lane : ℕ} {current next : Lane}
    (own : state.1 lane = current) (busy : current.done = false) (advances : current.advance = some next) :
    laneTurn state lane = some (Function.update state.1 lane next, false) := by
  subst own
  have notDone : ¬ (state.1 lane).done = true := by rw [busy]; exact Bool.false_ne_true
  rw [laneTurn, if_neg notDone, advances]
  rfl

/-- Every lane that is not done goes one step further, and the others are left alone. The induction is
on the lanes that had their turn. -/
theorem lockstep_eq (next : ℕ → Lane) (count : ℕ)
    (advances : ∀ lane < count, (lanes lane).done = false → (lanes lane).advance = some (next lane)) :
    lockstep count lanes = some
      (fun lane => if lane < count ∧ (lanes lane).done = false then next lane else lanes lane,
        decide (∀ lane < count, (lanes lane).done = true)) := by
  rw [lockstep]
  induction count with
  | zero => simp
  | succ count ih =>
    have earlier := ih fun lane inside => advances lane (Nat.lt_succ_of_lt inside)
    have before (lane : ℕ) (other : lane ≠ count) : lane < count + 1 ↔ lane < count := by omega
    have own : (if count < count ∧ (lanes count).done = false then next count else lanes count) =
        lanes count := if_neg fun turn => lt_irrefl _ turn.1
    rw [List.range_succ, List.foldlM_append, earlier]
    change List.foldlM laneTurn _ [count] = _
    rw [List.foldlM_cons]
    cases done : (lanes count).done with
    | true =>
      rw [laneTurn_done own done]
      refine congrArg some (Prod.ext (funext fun lane => ?_) ?_)
      · dsimp only
        by_cases same : lane = count
        · rw [same, own, if_neg fun turn => Bool.false_ne_true (turn.2.symm.trans done)]
        · simp only [before lane same]
      · simp only [Nat.lt_succ_iff_lt_or_eq, decide_eq_decide]
        exact ⟨fun all lane turn => turn.elim (all lane) fun same => same ▸ done,
          fun all lane inside => all lane (.inl inside)⟩
    | false =>
      rw [laneTurn_busy own done (advances count (Nat.lt_succ_self count) done)]
      refine congrArg some (Prod.ext (funext fun lane => ?_) ?_)
      · dsimp only
        by_cases same : lane = count
        · rw [same, Function.update_self, if_pos ⟨Nat.lt_succ_self count, done⟩]
        · simp only [Function.update_of_ne same, before lane same]
      · refine (decide_eq_false fun all => ?_).symm
        exact Bool.false_ne_true (done.symm.trans (all count (Nat.lt_succ_self count)))

/-- Every lane of a block ends where it would end alone. -/
theorem lockstepLoop_eq (iterations : ℕ) (last : ℕ → Lane)
    (ends : ∀ lane < LANES, (lanes lane).alone iterations = some (last lane)) :
    ∃ after, lockstepLoop LANES iterations lanes = some after ∧ ∀ lane < LANES, after lane = last lane := by
  induction iterations generalizing lanes with
  | zero => exact ⟨lanes, rfl, fun lane inside => Option.some.inj (ends lane inside)⟩
  | succ iterations ih =>
    have advances (lane : ℕ) (inside : lane < LANES) (busy : (lanes lane).done = false) :
        ∃ next, (lanes lane).advance = some next ∧ next.alone iterations = some (last lane) := by
      have reached := ends lane inside
      rw [Lane.alone, if_neg (by rw [busy]; exact Bool.false_ne_true)] at reached
      exact Option.bind_eq_some_iff.mp reached
    have resting (lane : ℕ) (inside : lane < LANES) (done : (lanes lane).done = true) :
        lanes lane = last lane := by
      have reached := ends lane inside
      rw [Lane.alone_done done] at reached
      exact Option.some.inj reached
    have taken := @lockstep_eq lanes (fun lane => (lanes lane).advance.getD (lanes lane)) LANES
      fun lane inside busy => by
        obtain ⟨next, advanced, -⟩ := advances lane inside busy
        rw [advanced, Option.getD_some]
    rw [lockstepLoop, taken, Option.bind_eq_bind, Option.bind_some]
    dsimp only
    split
    case isTrue all =>
      have allDone := of_decide_eq_true all
      refine ⟨_, rfl, fun lane inside => ?_⟩
      have done := allDone lane inside
      rw [if_neg fun turn => Bool.false_ne_true (turn.2.symm.trans done)]
      exact resting lane inside done
    case isFalse =>
      refine ih fun lane inside => ?_
      cases done : (lanes lane).done with
      | true =>
        rw [if_neg fun turn => Bool.false_ne_true turn.2.symm, Lane.alone_done done,
          resting lane inside done]
      | false =>
        obtain ⟨next, advanced, reached⟩ := advances lane inside done
        rw [if_pos ⟨inside, rfl⟩, advanced, Option.getD_some, reached]

end Lockstep

section Blocks

variable (input : ℕ → Gf64)

/-- The lanes of a block after so many iterations. -/
theorem startLanes_loop (LANES i iterations : ℕ) :
    ∃ after, lockstepLoop LANES iterations (startLanes input i) = some after ∧
      ∀ lane < LANES, (startLanes input i lane).alone iterations = some (after lane) := by
  choose last reached using fun lane => Lane.alone_defined (input (i + lane)).bits iterations
  obtain ⟨after, looped, same⟩ := lockstepLoop_eq iterations last fun lane _ => reached lane
  exact ⟨after, looped, fun lane inside => (same lane inside) ▸ reached lane⟩

/-- No lane is given up, and every lane has its inverse. -/
theorem startLanes_finished (LANES i : ℕ) :
    ∃ after, lockstepLoop LANES GF64_INV_MAX_ITER (startLanes input i) = some after ∧
      ∀ lane < LANES, (after lane).done = true ∧ (after lane).result = (input (i + lane))⁻¹ := by
  obtain ⟨after, looped, alone⟩ := startLanes_loop input LANES i GF64_INV_MAX_ITER
  refine ⟨after, looped, fun lane inside => ?_⟩
  obtain ⟨last, reached, done, result⟩ := Lane.alone_finished (input (i + lane)).bits
  obtain rfl := Option.some.inj ((alone lane inside).symm.trans reached)
  exact ⟨done, result⟩

/-- A lane that is done is left alone by the iterations that follow. -/
theorem startLanes_rest {LANES i earlier later : ℕ} (ordered : earlier ≤ later) {between after : ℕ → Lane}
    (first : lockstepLoop LANES earlier (startLanes input i) = some between)
    (second : lockstepLoop LANES later (startLanes input i) = some after) {lane : ℕ}
    (inside : lane < LANES) (done : (between lane).done = true) : after lane = between lane := by
  obtain ⟨_, firstLoop, firstAlone⟩ := startLanes_loop input LANES i earlier
  obtain ⟨_, secondLoop, secondAlone⟩ := startLanes_loop input LANES i later
  obtain rfl := Option.some.inj (firstLoop.symm.trans first)
  obtain rfl := Option.some.inj (secondLoop.symm.trans second)
  obtain ⟨more, rfl⟩ := Nat.exists_eq_add_of_le ordered
  have reached := secondAlone lane inside
  rw [Lane.alone_add, firstAlone lane inside, Option.bind_eq_bind, Option.bind_some,
    Lane.alone_done done] at reached
  exact (Option.some.inj reached).symm

theorem gf64_inverse_within {rounds : ℕ} (enough : 129 ≤ rounds) (a : BitVec 64) :
    gf64_inverse rounds a = some ((⟨a⟩ : Gf64)⁻¹).bits := by
  rw [gf64_inverse]
  split
  case isTrue zero =>
    have none : (⟨a⟩ : Gf64)⁻¹ = 0 := by rw [zero]; exact inv_zero
    rw [none]
    rfl
  case isFalse nonzero =>
    have loop := inverseLoop_start nonzero enough
    rw [if_neg nonzero] at loop
    split
    case isTrue one =>
      obtain ⟨more, rfl⟩ : ∃ more, rounds = more + 1 := ⟨rounds - 1, by omega⟩
      rw [inverseLoop, if_neg fun goesOn => goesOn.1 one, if_neg nonzero] at loop
      exact loop
    case isFalse => exact loop

/-- Entries from a place on that are replaced by inverses. -/
theorem foldl_inverses (i N : ℕ) (out : ℕ → Gf64) :
    (List.range N).foldl (fun out j => Function.update out (i + j) (input (i + j))⁻¹) out =
      fun place => if i ≤ place ∧ place < i + N then (input place)⁻¹ else out place := by
  rw [FallibleLoops.foldl_update_from fun j _ => (input (i + j))⁻¹]
  funext place
  split
  case isTrue inside => rw [Nat.add_sub_cancel' inside.1]
  case isFalse => rfl

/-- The words behind a place are inverted one by one. -/
theorem gf64_inverse_batch_scalar_eq {rounds : ℕ} (enough : 129 ≤ rounds) (i N : ℕ) (out : ℕ → Gf64) :
    gf64_inverse_batch_scalar rounds input i N out =
      some fun place => if i ≤ place ∧ place < i + N then (input place)⁻¹ else out place := by
  rw [gf64_inverse_batch_scalar, FallibleLoops.foldlM_some fun out j =>
    Function.update out (i + j) (input (i + j))⁻¹, foldl_inverses]
  intro j _ out
  rw [gf64_inverse_within enough]
  rfl

theorem inverseBlock_eq (LANES i : ℕ) (out : ℕ → Gf64) :
    inverseBlock LANES input i out =
      some fun place => if i ≤ place ∧ place < i + LANES then (input place)⁻¹ else out place := by
  obtain ⟨after, looped, finished⟩ := startLanes_finished input LANES i
  rw [inverseBlock, looped, ← foldl_inverses]
  refine congrArg some (List.foldl_ext _ _ _ fun out lane inside => ?_)
  rw [(finished lane (List.mem_range.mp inside)).2]

theorem inverseBlocks_eq (LANES blocks : ℕ) (out : ℕ → Gf64) :
    (List.range blocks).foldlM (fun out b => inverseBlock LANES input (b * LANES) out) out =
      some fun place => if place < blocks * LANES then (input place)⁻¹ else out place := by
  induction blocks with
  | zero => simp
  | succ blocks ih =>
    rw [List.range_succ, List.foldlM_append, ih]
    change inverseBlock LANES input (blocks * LANES) _ >>= _ = _
    rw [inverseBlock_eq]
    refine congrArg some (funext fun place => ?_)
    rw [Nat.succ_mul]
    split_ifs <;> first | rfl | omega

/-- Whole blocks go through the lanes, and a tail shorter than a block is inverted like the rest. -/
theorem gf64_inverse_batch_lanes_eq {rounds : ℕ} (enough : 129 ≤ rounds) (LANES N : ℕ)
    (out : ℕ → Gf64) :
    gf64_inverse_batch_lanes LANES rounds input N out =
      some fun place => if place < N then (input place)⁻¹ else out place := by
  have whole := Nat.div_mul_le_self N LANES
  rw [gf64_inverse_batch_lanes, inverseBlocks_eq, Option.bind_eq_bind, Option.bind_some]
  dsimp only
  split
  case isTrue tail =>
    rw [gf64_inverse_batch_scalar_eq input enough]
    refine congrArg some (funext fun place => ?_)
    split_ifs <;> first | rfl | omega
  case isFalse none =>
    rw [Nat.le_antisymm whole (not_lt.mp none)]

end Blocks

/-- Every back end returns for each word what the inversion of one word returns, and leaves what is
behind the words alone. No shift is undefined, no lane is unfinished when its iterations end, and a lane
that is done is not changed any more, however long the others go on. -/
theorem lanes_invert_every_word (rounds : ℕ) (enough : 129 ≤ rounds) (input : ℕ → Gf64) (N : ℕ)
    (out : ℕ → Gf64) :
    (∃ inverses : ℕ → Gf64, inverses = (fun i => (input i)⁻¹) ∧
      (∀ i, gf64_inverse rounds (input i).bits = some (inverses i).bits) ∧
      ∀ method : InverseMethod, method.batch rounds input N out =
        some fun i => if i < N then inverses i else out i) ∧
    (∀ LANES i, ∃ after,
      lockstepLoop LANES GF64_INV_MAX_ITER (startLanes input i) = some after ∧
        ∀ lane < LANES, (after lane).done = true) ∧
    ∀ LANES i earlier later between after, earlier ≤ later →
      lockstepLoop LANES earlier (startLanes input i) = some between →
      lockstepLoop LANES later (startLanes input i) = some after →
      ∀ lane < LANES, (between lane).done = true → after lane = between lane := by
  refine ⟨⟨_, rfl, fun i => gf64_inverse_within enough _, fun method => ?_⟩, fun LANES i => ?_, ?_⟩
  · cases method with
    | scalar =>
      rw [InverseMethod.batch, gf64_inverse_batch_scalar_eq input enough]
      simp only [Nat.zero_le, Nat.zero_add, true_and]
    | ssse3 => exact gf64_inverse_batch_lanes_eq input enough 2 N out
    | avx2 => exact gf64_inverse_batch_lanes_eq input enough 4 N out
    | avx512 => exact gf64_inverse_batch_lanes_eq input enough 8 N out
  · obtain ⟨after, looped, finished⟩ := startLanes_finished input LANES i
    exact ⟨after, looped, fun lane inside => (finished lane inside).1⟩
  · intro LANES i earlier later between after ordered first second lane inside done
    exact startLanes_rest input ordered first second inside done

/-- Five words, of which one is zero. -/
theorem lanes_invert_every_word_five : ∃ inverses : ℕ → Gf64,
    gf64_inverse_batch_lanes 4 129 (fun i => ⟨BitVec.ofNat 64 i⟩) 5 (fun _ => 0) = some inverses ∧
      inverses 0 = 0 ∧ inverses 7 = 0 := by
  obtain ⟨⟨inverses, same, -, batch⟩, -, -⟩ := lanes_invert_every_word 129 le_rfl
    (fun i => ⟨BitVec.ofNat 64 i⟩) 5 fun _ => 0
  refine ⟨_, batch .avx2, ?_, rfl⟩
  rw [same]
  exact inv_zero

end Par3

import Par3.RecoveryContract

/-!
# The barycentric way to make recovery blocks

For more than 32 recovery blocks the coefficients of a row are computed when the row is made, and
workers take the rows from a counter. In every order in which they do, the recovery blocks become
the ones that the engine makes with the whole matrix, from its cache or newly built.
-/

namespace Par3

open Interleaving

namespace RecoveryCall

variable (call : RecoveryCall) (firstInput firstRecovery : BitVec 64) (host : EngineHost)
  (inputs : Words)

/-- The number of threads after the override from the environment, which is not for the
barycentric way. -/
def recoveryThreads (numThreads : ℤ) : ℤ :=
  let numThreads := if 0 < host.fengerThreadsEnv then host.fengerThreadsEnv else numThreads
  if numThreads ≤ 0 then host.effectiveCpuCount else numThreads

/-- The call with another number of threads. -/
def withThreads (numThreads : ℤ) : RecoveryCall := { call with numThreads := numThreads }

/-- What a call may leave in the memory and in the cache. -/
def ComputeRecoveryBlocks (cache : CoeffCache) (memory last : Memory) (after : CoeffCache) : Prop :=
  if call.numInputs = 0 ∨ call.numRecovery = 0 then last = memory ∧ after = cache
  else
    ∃ coeff, cache.GetOrBuildCoeffMatrix host (call.key firstInput firstRecovery) coeff after ∧
      (call.withThreads (recoveryThreads host call.numThreads)).ComputeRecoveryBlocksWithCoeff host
        inputs coeff memory last

/-- `recovery + r * blockSize64` -/
def rowStartAddress (r : ℕ) : Address := ⟨recoveryBuffer, r * call.blockSize64⟩

/-- A row is cleared, unless it is added to, and all inputs are added with their coefficients. -/
def processRow (r : ℕ) : List (Step Address Gf64) :=
  (if call.accumulate then [] else [memset (call.rowStartAddress r) call.blockSize64]) ++
    (List.range call.numInputs).flatMap fun c =>
      [muladd (call.rowStartAddress r) (fun w => inputs (c * call.blockSize64 + w))
        ((call.key firstInput firstRecovery).entry r c) call.blockSize64]

/-- The number of workers that take rows. -/
def rowWorkers : ℕ :=
  let n_workers := if call.numThreads ≤ 0 then host.effectiveCpuCount else call.numThreads.toNat
  let n_workers := if n_workers = 0 then 1 else n_workers
  if call.numRecovery < n_workers then call.numRecovery else n_workers

/-- What a call may leave in the memory. -/
def ComputeRecoveryBlocksBarycentric (cache : CoeffCache) (memory last : Memory) : Prop :=
  if call.numInputs = 0 ∨ call.numRecovery = 0 ∨ call.blockSize64 = 0 then last = memory
  else if call.numRecovery ≤ 32 then
    ∃ after, call.ComputeRecoveryBlocks firstInput firstRecovery host inputs cache memory last after
  else if call.rowWorkers host ≤ 1 then
    last = perform
      ((List.range call.numRecovery).flatMap (call.processRow firstInput firstRecovery inputs)) memory
  else
    Stolen call.numRecovery (call.processRow firstInput firstRecovery inputs) (call.rowWorkers host)
      memory last

/-! ## What both ways leave behind -/

/-- The sum of all inputs with their coefficients for a word of a recovery block. -/
def entrySum (r w : ℕ) : Gf64 :=
  ∑ c ∈ Finset.range call.numInputs,
    inputs (c * call.blockSize64 + w) * (call.key firstInput firstRecovery).entry r c

/-- A memory after a call: the sums are in the recovery blocks, and the words behind them are as
before. -/
structure Finished (memory last : Memory) : Prop where
  words : ∀ r < call.numRecovery, ∀ w < call.blockSize64,
    last ⟨recoveryBuffer, r * call.blockSize64 + w⟩ =
      (if call.accumulate then memory ⟨recoveryBuffer, r * call.blockSize64 + w⟩ else 0) +
        call.entrySum firstInput firstRecovery inputs r w
  behind : ∀ offset, call.numRecovery * call.blockSize64 ≤ offset →
    last ⟨recoveryBuffer, offset⟩ = memory ⟨recoveryBuffer, offset⟩

variable {call firstInput firstRecovery host inputs} {memory last other : Memory}

/-- The recovery blocks are determined by the sums. -/
theorem Finished.unique (one : call.Finished firstInput firstRecovery inputs memory last)
    (two : call.Finished firstInput firstRecovery inputs memory other) (offset : ℕ) :
    last ⟨recoveryBuffer, offset⟩ = other ⟨recoveryBuffer, offset⟩ := by
  by_cases inside : offset < call.numRecovery * call.blockSize64
  · have pos : 0 < call.blockSize64 := by
      by_contra empty
      rw [Nat.eq_zero_of_not_pos empty] at inside
      omega
    have row : offset / call.blockSize64 < call.numRecovery := by
      apply Nat.div_lt_of_lt_mul
      rwa [Nat.mul_comm]
    have word : offset % call.blockSize64 < call.blockSize64 := Nat.mod_lt _ pos
    have whole : offset / call.blockSize64 * call.blockSize64 + offset % call.blockSize64 = offset :=
      Nat.div_add_mod' _ _
    have first := one.words _ row _ word
    have second := two.words _ row _ word
    rw [whole] at first second
    rw [first, second]
  · rw [one.behind offset (by omega), two.behind offset (by omega)]

/-- The engine with the whole matrix. -/
theorem ComputeRecoveryBlocks_finished {cache after : CoeffCache} (some : call.numInputs ≠ 0)
    (sound : cache.Sound)
    (called : call.ComputeRecoveryBlocks firstInput firstRecovery host inputs cache memory last after) :
    call.Finished firstInput firstRecovery inputs memory last := by
  unfold ComputeRecoveryBlocks at called
  split at called
  · rename_i empty
    obtain ⟨rfl, _⟩ := called
    refine ⟨fun r row => ?_, fun _ _ => rfl⟩
    omega
  · obtain ⟨coeff, found, called⟩ := called
    have holds := (CoeffCache.GetOrBuildCoeffMatrix_sound sound found).1
    constructor
    · intro r row w word
      have sums : (call.withThreads (recoveryThreads host call.numThreads)).sum inputs coeff r w 0
          call.numInputs = call.entrySum firstInput firstRecovery inputs r w := by
        rw [sum, entrySum, ← Finset.range_eq_Ico]
        apply Finset.sum_congr rfl
        intro c member
        have entry : coeff (r * call.numInputs + c) =
            (call.key firstInput firstRecovery).entry r c :=
          holds r row c (Finset.mem_range.mp member)
        exact congrArg _ entry
      rw [← sums]
      exact @ComputeRecoveryBlocksWithCoeff_word
        (call.withThreads (recoveryThreads host call.numThreads)) host inputs coeff memory last some
        called r w row word
    · intro offset behind
      exact @ComputeRecoveryBlocksWithCoeff_behind
        (call.withThreads (recoveryThreads host call.numThreads)) host inputs coeff memory last called
        offset behind

/-! ## The rows -/

/-- The words of a row. -/
def rowWords (call : RecoveryCall) (r : ℕ) : Set Address :=
  {address | address.within (call.rowStartAddress r) call.blockSize64}

theorem rowWords_word {r w : ℕ} (word : w < call.blockSize64) :
    (⟨recoveryBuffer, r * call.blockSize64 + w⟩ : Address) ∈ call.rowWords r := by
  refine ⟨rfl, Nat.le_add_right _ _, ?_⟩
  exact Nat.add_lt_add_left word _

theorem rowWords_disjoint (first second : ℕ) (apart : first ≠ second) :
    Disjoint (call.rowWords first) (call.rowWords second) := by
  rw [Set.disjoint_left]
  rintro address ⟨_, lower, upper⟩ ⟨_, otherLower, otherUpper⟩
  simp only [rowStartAddress] at lower upper otherLower otherUpper
  apply apart
  have parts : ∀ r, r * call.blockSize64 ≤ address.offset →
      address.offset < r * call.blockSize64 + call.blockSize64 →
      address.offset = r * call.blockSize64 + (address.offset - r * call.blockSize64) := by omega
  exact (word_unique (by omega) (by omega)
    ((parts first lower upper).symm.trans (parts second otherLower otherUpper))).1

theorem processRow_local (r : ℕ) :
    ∀ step ∈ call.processRow firstInput firstRecovery inputs r, Local (call.rowWords r) step := by
  intro step member
  rw [processRow, List.mem_append] at member
  rcases member with member | member
  · split at member
    · cases member
    · rw [List.mem_singleton] at member
      subst member
      constructor
      · intro address
        by_cases inside : address.within (call.rowStartAddress r) call.blockSize64
        · exact ⟨_, memset_within inside⟩
        · exact ⟨_, memset_outside inside⟩
      · intro address outside
        exact memset_outside outside
  · obtain ⟨c, _, here⟩ := List.mem_flatMap.mp member
    rw [List.mem_singleton] at here
    subst here
    constructor
    · intro address
      by_cases inside : address.within (call.rowStartAddress r) call.blockSize64
      · exact ⟨_, muladd_within _ _ inside⟩
      · exact ⟨_, muladd_outside _ _ inside⟩
    · intro address outside
      exact muladd_outside _ _ outside

theorem processRow_acts {r w : ℕ} (word : w < call.blockSize64) :
    Acts (call.processRow firstInput firstRecovery inputs r)
      ⟨recoveryBuffer, r * call.blockSize64 + w⟩
      fun old => (if call.accumulate then old else 0) +
        call.entrySum firstInput firstRecovery inputs r w := by
  have inside := @rowWords_word call r w word
  have offset : r * call.blockSize64 + w - (call.rowStartAddress r).offset = w :=
    Nat.add_sub_cancel_left _ _
  have cleared : Acts (if call.accumulate then [] else
      [memset (call.rowStartAddress r) call.blockSize64])
      ⟨recoveryBuffer, r * call.blockSize64 + w⟩ fun old => if call.accumulate then old else 0 := by
    split
    · exact Acts.nil
    · exact memset_within inside
  apply cleared.append_adds
  apply Acts.adds_range
  intro c _
  have adds := muladd_within (fun w => inputs (c * call.blockSize64 + w))
    ((call.key firstInput firstRecovery).entry r c) inside
  simp only [offset] at adds
  exact adds

theorem processRow_keeps {r : ℕ} {address : Address} (outside : address ∉ call.rowWords r) :
    Acts (call.processRow firstInput firstRecovery inputs r) address id := by
  apply Acts.append_keeps
  · split
    · exact Acts.nil
    · exact memset_outside outside
  · apply Acts.keeps
    intro c _
    exact muladd_outside _ _ outside

theorem rowWorkers_pos (some : call.numRecovery ≠ 0) : 0 < call.rowWorkers host := by
  unfold rowWorkers
  dsimp only
  split_ifs <;> omega

/-- Every order in which the workers take the rows leaves the sums behind. -/
theorem ComputeRecoveryBlocksBarycentric_finished {cache : CoeffCache} (some : call.numInputs ≠ 0)
    (sound : cache.Sound)
    (called : call.ComputeRecoveryBlocksBarycentric firstInput firstRecovery host inputs cache memory
      last) : call.Finished firstInput firstRecovery inputs memory last := by
  unfold ComputeRecoveryBlocksBarycentric at called
  split at called
  · rename_i empty
    subst called
    refine ⟨fun r row w word => ?_, fun _ _ => rfl⟩
    omega
  · split at called
    · obtain ⟨after, called⟩ := called
      exact ComputeRecoveryBlocks_finished some sound called
    · rename_i work _
      have behindRow : ∀ r < call.numRecovery, ∀ offset,
          call.numRecovery * call.blockSize64 ≤ offset →
          (⟨recoveryBuffer, offset⟩ : Address) ∉ call.rowWords r := by
        rintro r row offset behind ⟨_, _, upper⟩
        have rows : (r + 1) * call.blockSize64 ≤ call.numRecovery * call.blockSize64 :=
          Nat.mul_le_mul_right _ row
        rw [Nat.succ_mul] at rows
        simp only [rowStartAddress] at upper
        omega
      split at called
      · subst called
        constructor
        · intro r row w word
          have acts : Acts ((List.range call.numRecovery).flatMap
              (call.processRow firstInput firstRecovery inputs))
              ⟨recoveryBuffer, r * call.blockSize64 + w⟩ fun old =>
                (if call.accumulate then old else 0) +
                  call.entrySum firstInput firstRecovery inputs r w := by
            apply Acts.once List.nodup_range (List.mem_range.mpr row) (processRow_acts word)
            intro other _ apart
            apply processRow_keeps
            exact Set.disjoint_left.mp (rowWords_disjoint r other (Ne.symm apart))
              (rowWords_word word)
          exact acts memory
        · intro offset behind
          have keeps : Acts ((List.range call.numRecovery).flatMap
              (call.processRow firstInput firstRecovery inputs)) ⟨recoveryBuffer, offset⟩ id := by
            apply Acts.keeps
            intro r member
            exact processRow_keeps (behindRow r (List.mem_range.mp member) offset behind)
          exact keeps memory
      · have interleaved := called.interleaved (rowWorkers_pos (by omega))
        have confined : ∀ label, ∀ step ∈ (fun row => if row < call.numRecovery then
            call.processRow firstInput firstRecovery inputs row else []) label,
            Confined (call.rowWords label) step := by
          intro label step member
          dsimp only at member
          split at member
          · exact (processRow_local label step member).confined
          · cases member
        constructor
        · intro r row w word
          rw [interleaved.apply confined rowWords_disjoint r _ (rowWords_word word), if_pos row]
          exact processRow_acts word memory
        · intro offset behind
          apply interleaved.outside confined
          intro label working
          apply behindRow label _ offset behind
          by_contra outside
          exact working (if_neg outside)

theorem ComputeRecoveryBlocks_exists (call : RecoveryCall) (firstInput firstRecovery : BitVec 64)
    (host : EngineHost) (inputs : Words) (cache : CoeffCache) (memory : Memory) :
    ∃ last after, call.ComputeRecoveryBlocks firstInput firstRecovery host inputs cache memory last
      after := by
  unfold ComputeRecoveryBlocks
  split
  · exact ⟨memory, cache, rfl, rfl⟩
  · obtain ⟨coeff, after, found⟩ := CoeffCache.GetOrBuildCoeffMatrix_exists host cache
      (call.key firstInput firstRecovery)
    obtain ⟨last, called⟩ := ComputeRecoveryBlocksWithCoeff_exists
      (call.withThreads (recoveryThreads host call.numThreads)) host inputs coeff memory
    exact ⟨last, after, coeff, found, called⟩

theorem ComputeRecoveryBlocksBarycentric_exists (call : RecoveryCall)
    (firstInput firstRecovery : BitVec 64) (host : EngineHost) (inputs : Words) (cache : CoeffCache)
    (memory : Memory) :
    ∃ last, call.ComputeRecoveryBlocksBarycentric firstInput firstRecovery host inputs cache memory
      last := by
  unfold ComputeRecoveryBlocksBarycentric
  split
  · exact ⟨memory, rfl⟩
  · split
    · obtain ⟨last, after, called⟩ := ComputeRecoveryBlocks_exists call firstInput firstRecovery host
        inputs cache memory
      exact ⟨last, after, called⟩
    · split
      · exact ⟨_, rfl⟩
      · exact stolen_exists _ _ _ _

end RecoveryCall

/-- Both ways make the same recovery buffer, word for word: whatever the two machines, thread
counts and caches are, and in every order of the workers' steps. -/
theorem barycentric_same (call : RecoveryCall) (firstInput firstRecovery : BitVec 64)
    (host plainHost : EngineHost) (numThreads : ℤ) (cache plainCache : CoeffCache)
    (reachable : cache.Reachable) (plainReachable : plainCache.Reachable) (inputs : Words)
    (memory : Memory) :
    (∃ last, call.ComputeRecoveryBlocksBarycentric firstInput firstRecovery host inputs cache memory
      last) ∧
    (∃ plain after, (call.withThreads numThreads).ComputeRecoveryBlocks firstInput firstRecovery
      plainHost inputs plainCache memory plain after) ∧
    ∀ last plain after,
      call.ComputeRecoveryBlocksBarycentric firstInput firstRecovery host inputs cache memory last →
      (call.withThreads numThreads).ComputeRecoveryBlocks firstInput firstRecovery plainHost inputs
        plainCache memory plain after →
      ∀ offset, last ⟨recoveryBuffer, offset⟩ = plain ⟨recoveryBuffer, offset⟩ := by
  refine ⟨call.ComputeRecoveryBlocksBarycentric_exists firstInput firstRecovery host inputs cache
    memory, (call.withThreads numThreads).ComputeRecoveryBlocks_exists firstInput firstRecovery
    plainHost inputs plainCache memory, ?_⟩
  intro last plain after barycentric engine offset
  by_cases empty : call.numInputs = 0
  · unfold RecoveryCall.ComputeRecoveryBlocksBarycentric at barycentric
    unfold RecoveryCall.ComputeRecoveryBlocks at engine
    rw [if_pos (.inl empty)] at barycentric
    rw [if_pos (.inl empty)] at engine
    rw [barycentric, engine.1]
  · have one := RecoveryCall.ComputeRecoveryBlocksBarycentric_finished empty reachable.sound
      barycentric
    have two := @RecoveryCall.ComputeRecoveryBlocks_finished (call.withThreads numThreads) firstInput
      firstRecovery plainHost inputs memory plain plainCache after empty plainReachable.sound engine
    have same : call.Finished firstInput firstRecovery inputs memory plain := ⟨two.words, two.behind⟩
    exact one.unique same offset

/-- Three input blocks of two words and 33 recovery blocks, the first number of them that is not
delegated, with four workers. -/
theorem many_rows_same :
    ∃ last plain after,
      (RecoveryCall.mk 3 33 2 4 false).ComputeRecoveryBlocksBarycentric 0 3 oneProcessor gf64OfNat
        .empty (fun _ => 0) last ∧
      ((RecoveryCall.mk 3 33 2 4 false).withThreads 2).ComputeRecoveryBlocks 0 3 oneProcessor
        gf64OfNat .empty (fun _ => 0) plain after ∧
      ∀ offset, last ⟨recoveryBuffer, offset⟩ = plain ⟨recoveryBuffer, offset⟩ := by
  obtain ⟨⟨last, barycentric⟩, ⟨plain, after, engine⟩, same⟩ := barycentric_same
    (RecoveryCall.mk 3 33 2 4 false) 0 3 oneProcessor oneProcessor 2 .empty .empty .start .start
    gf64OfNat fun _ => 0
  exact ⟨last, plain, after, barycentric, engine, same last plain after barycentric engine⟩

end Par3

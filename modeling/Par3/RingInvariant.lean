import Par3.RecoveryRing

/-!
# The slots of the ring

A group of a hasher fits in the ring. The slices that use one buffer are a whole ring apart, and the read of the
next one is begun only after the hasher and the consumer are done with the one before it. With this, the count of
a buffer says which of the two is still to come.
-/
namespace Par3

namespace RecoveryRing

/-! ## Sizes -/

namespace Config

variable (cfg : Config)

theorem hashBatchSize_pos : 0 < cfg.hashBatchSize := by
  have batch : 0 < cfg.requestedBatch := by
    rw [requestedBatch]
    split <;> omega
  rw [hashBatchSize, recDataSize]
  split <;> omega

theorem hashBatchSize_le : cfg.hashBatchSize ≤ cfg.recDataSize := Nat.min_le_right _ _

theorem ring_pos : 0 < cfg.ring := by
  have batch := cfg.hashBatchSize_pos
  have fits := cfg.hashBatchSize_le
  have some := cfg.positive
  rw [ring]
  omega

theorem ring_le : cfg.ring ≤ cfg.slices := Nat.min_le_left _ _

/-- A group fits in the ring. -/
theorem numBufs_le (hasher : ℕ) : cfg.numBufs hasher ≤ cfg.ring := by
  have fits := cfg.hashBatchSize_le
  rw [numBufs, ring]
  omega

theorem mem_group {hasher idx : ℕ} :
    idx ∈ cfg.group hasher ↔ idx < cfg.slices ∧ idx / cfg.hashBatchSize = hasher := by
  have batch := cfg.hashBatchSize_pos
  rw [group, List.mem_range'_1, numBufs]
  constructor
  · intro inside
    refine ⟨by omega, ?_⟩
    rw [Nat.div_eq_iff batch]
    omega
  · rintro ⟨below, rfl⟩
    have split := Nat.div_add_mod idx cfg.hashBatchSize
    have less := Nat.mod_lt idx batch
    rw [Nat.mul_comm] at split
    omega

/-- The buffers of a group stand in the ring one after the other. -/
theorem bufs_eq (hasher : ℕ) : cfg.bufs hasher = (cfg.group hasher).map (· % cfg.ring) := by
  have positive := cfg.ring_pos
  have few := cfg.numBufs_le hasher
  rw [bufs, group]
  generalize hasher * cfg.hashBatchSize = base
  have first := Nat.mod_lt base positive
  have pushed : ∀ (baseBufIdx : ℤ) (places : List ℕ) {m n : ℕ}, m = n →
      (baseBufIdx, places ++ [m]) = (baseBufIdx, places ++ [n]) := fun _ _ _ _ same => by rw [same]
  have places : ∀ count ≤ cfg.numBufs hasher, ∃ baseBufIdx : ℤ,
      (List.range count).foldl (fun (acc : ℤ × List ℕ) (i : ℕ) =>
        let baseBufIdx := if acc.1 + i ≥ cfg.ring then acc.1 - cfg.ring else acc.1
        (baseBufIdx, acc.2 ++ [(baseBufIdx + i).toNat])) (((base % cfg.ring : ℕ) : ℤ), []) =
        (baseBufIdx, (List.range' base count).map (· % cfg.ring)) ∧
      (baseBufIdx = (base % cfg.ring : ℕ) ∧ base % cfg.ring + count ≤ cfg.ring ∨
        baseBufIdx = (base % cfg.ring : ℕ) - (cfg.ring : ℤ) ∧ cfg.ring < base % cfg.ring + count) := by
    intro count below
    induction count with
    | zero => exact ⟨_, rfl, Or.inl ⟨rfl, by omega⟩⟩
    | succ count ih =>
      obtain ⟨baseBufIdx, same, position⟩ := ih (by omega)
      have next : (base + count) % cfg.ring = (base % cfg.ring + count) % cfg.ring := by
        rw [Nat.mod_add_mod]
      rw [List.range_succ, List.foldl_append, same, List.foldl_cons, List.foldl_nil, List.range'_concat,
        List.map_append, List.map_cons, List.map_nil, Nat.one_mul, next]
      dsimp only
      rcases position with ⟨value, room⟩ | ⟨value, wrapped⟩
      · by_cases full : base % cfg.ring + count = cfg.ring
        · rw [if_pos (by omega)]
          refine ⟨_, pushed _ _ ?_, Or.inr (by omega)⟩
          rw [full, Nat.mod_self]
          omega
        · rw [if_neg (by omega)]
          refine ⟨_, pushed _ _ ?_, Or.inl (by omega)⟩
          rw [Nat.mod_eq_of_lt (by omega)]
          omega
      · rw [if_neg (by omega)]
        refine ⟨_, pushed _ _ ?_, Or.inr (by omega)⟩
        rw [Nat.mod_eq_sub_mod (by omega), Nat.mod_eq_of_lt (by omega)]
        omega
  obtain ⟨baseBufIdx, same, -⟩ := places _ (Nat.le_refl _)
  rw [same]

end Config

/-! ## The slots of the ring -/

variable {cfg : Config} {state : State} {hashed released : ℕ → Bool} {idx other : ℕ}

/-- The read of a slice was begun: its buffer was free from the start, or the slice before it in the same buffer
is done with, and the read does not wait any more. -/
def Started (cfg : Config) (state : State) (hashed released : ℕ → Bool) (idx : ℕ) : Prop :=
  idx < cfg.slices ∧ (idx < cfg.ring ∨ hashed (idx - cfg.ring) ∧ released (idx - cfg.ring)) ∧
    idx ∉ state.fetching

/-- How the slots of the ring stand to the slices that the hashers and the consumer are done with -/
structure Ring (cfg : Config) (state : State) (hashed released : ℕ → Bool) : Prop where
  fetching_nodup : state.fetching.Nodup
  fetching_spec : ∀ idx ∈ state.fetching, idx < cfg.slices ∧ cfg.ring ≤ idx ∧
    (hashed (idx - cfg.ring) ∧ released (idx - cfg.ring)) ∧ state.recDataFetchCb idx ≠ .done
  reading_nodup : state.reading.Nodup
  reading_iff : ∀ idx, idx ∈ state.reading ↔
    Started cfg state hashed released idx ∧ state.recDataFetchCb idx ≠ .done
  fetched_started : ∀ idx, state.recDataFetchCb idx = .done → Started cfg state hashed released idx
  hashed_fetched : ∀ idx, hashed idx → state.recDataFetchCb idx = .done
  released_fetched : ∀ idx, released idx → state.recDataFetchCb idx = .done
  refcount : ∀ idx, Started cfg state hashed released idx →
    ¬ Started cfg state hashed released (idx + cfg.ring) →
    state.recDataRefcount (idx % cfg.ring) = (if hashed idx then 0 else 1) + (if released idx then 0 else 1)
  contents : ∀ idx, state.recDataFetchCb idx = .done → ¬ (hashed idx ∧ released idx) →
    state.recData (idx % cfg.ring) = some (state.chunk, idx)

/-- Slices with the same buffer are a whole ring apart. -/
theorem same_slot (slot : other % cfg.ring = idx % cfg.ring) (less : other < idx) :
    other + cfg.ring ≤ idx := by
  have first := Nat.div_add_mod other cfg.ring
  have second := Nat.div_add_mod idx cfg.ring
  rw [slot] at first
  have fewer : other / cfg.ring < idx / cfg.ring := by
    by_contra more
    have := Nat.mul_le_mul_left cfg.ring (Nat.le_of_not_lt more)
    omega
  have := Nat.mul_le_mul_left cfg.ring fewer
  rw [Nat.mul_succ] at this
  omega

theorem slot_sub (least : cfg.ring ≤ idx) : (idx - cfg.ring) % cfg.ring = idx % cfg.ring := by
  rw [← Nat.mod_eq_sub_mod least]

namespace Ring

/-- All slices that had the buffer before are done with. -/
theorem consumed_below (ring : Ring cfg state hashed released) (started : Started cfg state hashed released idx)
    (less : other < idx) (slot : other % cfg.ring = idx % cfg.ring) :
    hashed other ∧ released other := by
  induction idx using Nat.strongRecOn with
  | ind idx ih =>
    have positive := cfg.ring_pos
    have apart := same_slot slot less
    have before : hashed (idx - cfg.ring) ∧ released (idx - cfg.ring) :=
      started.2.1.resolve_left (by omega)
    by_cases last : other = idx - cfg.ring
    · rwa [last]
    · exact ih _ (by omega) (ring.fetched_started _ (ring.hashed_fetched _ before.1)) (by omega)
        (by rw [slot, slot_sub (by omega)])

theorem started_next (ring : Ring cfg state hashed released) (started : Started cfg state hashed released idx)
    (less : other < idx) (slot : other % cfg.ring = idx % cfg.ring) :
    Started cfg state hashed released (other + cfg.ring) := by
  have apart := same_slot slot less
  by_cases last : other + cfg.ring = idx
  · rwa [last]
  · have same : (other + cfg.ring) % cfg.ring = idx % cfg.ring := by rw [Nat.add_mod_right, slot]
    exact ring.fetched_started _ (ring.hashed_fetched _ (ring.consumed_below started (by omega) same).1)

/-- A buffer has one slice at a time. -/
theorem current (ring : Ring cfg state hashed released) (started : Started cfg state hashed released idx)
    (last : ¬ Started cfg state hashed released (idx + cfg.ring))
    (started' : Started cfg state hashed released other)
    (last' : ¬ Started cfg state hashed released (other + cfg.ring))
    (slot : other % cfg.ring = idx % cfg.ring) : other = idx := by
  rcases Nat.lt_trichotomy other idx with less | same | more
  · exact absurd (ring.started_next started less slot) last'
  · exact same
  · exact absurd (ring.started_next started' more slot.symm) last

/-- The slice behind one that is in use was not begun. -/
theorem not_started (live : ¬ (hashed idx ∧ released idx)) :
    ¬ Started cfg state hashed released (idx + cfg.ring) := by
  intro started
  have positive := cfg.ring_pos
  have before := started.2.1.resolve_left (by omega)
  rw [Nat.add_sub_cancel] at before
  exact live before

theorem symm (ring : Ring cfg state hashed released) : Ring cfg state released hashed := by
  have swap : ∀ idx, Started cfg state released hashed idx ↔ Started cfg state hashed released idx := fun idx =>
    and_congr_right' (and_congr_left' (or_congr_right and_comm))
  exact {
    fetching_nodup := ring.fetching_nodup
    fetching_spec := fun idx member => by
      obtain ⟨below, least, ⟨first, second⟩, unfetched⟩ := ring.fetching_spec idx member
      exact ⟨below, least, ⟨second, first⟩, unfetched⟩
    reading_nodup := ring.reading_nodup
    reading_iff := fun idx => by rw [ring.reading_iff, swap]
    fetched_started := fun idx fetched => (swap idx).mpr (ring.fetched_started idx fetched)
    hashed_fetched := ring.released_fetched
    released_fetched := ring.hashed_fetched
    refcount := fun idx started last => by
      rw [ring.refcount idx ((swap _).mp started) (mt (swap _).mpr last), Int.add_comm]
    contents := fun idx fetched live => ring.contents idx fetched fun both => live ⟨both.2, both.1⟩ }

end Ring

/-! ## One buffer -/

/-- What is left to do for a slice, after one of its two parties is done with it -/
def left (state : State) (cfg : Config) (idx : ℕ) : ℤ := state.recDataRefcount (idx % cfg.ring) - 1

/-- `_markRecDataConsumed` changes the count of the buffer. At zero the buffer is read into again, or let go. -/
theorem markRecDataConsumed_eq (cfg : Config) (idx : ℕ) (state : State) :
    cfg.markRecDataConsumed idx state = { state with
      recDataRefcount := Function.update state.recDataRefcount (idx % cfg.ring) (left state cfg idx)
      fetching := if left state cfg idx = 0 ∧ idx + cfg.ring < cfg.slices then
        state.fetching ++ [idx + cfg.ring] else state.fetching
      recData := if left state cfg idx = 0 ∧ ¬ idx + cfg.ring < cfg.slices then
        Function.update state.recData (idx % cfg.ring) none else state.recData
      ticks := if left state cfg idx = 0 ∧ ¬ idx + cfg.ring < cfg.slices ∧ state.recCompleteCb ∧
          cfg.isRecoveryProcessed
            (Function.update state.recDataRefcount (idx % cfg.ring) (left state cfg idx)) then
        state.ticks + 1 else state.ticks } := by
  rw [Config.markRecDataConsumed]
  dsimp only
  rw [← left]
  by_cases last : left state cfg idx = 0
  · rw [if_pos last]
    by_cases more : idx + cfg.ring < cfg.slices
    · simp [last, more]
    · rw [if_neg more]
      simp only [last, more, if_false, not_false_eq_true, and_true, if_true, true_and,
        Bool.and_eq_true, and_comm]
      split
      · rfl
      · rfl
  · simp [last]

namespace Ring

/-- A hasher that is done with a slice -/
theorem marked (ring : Ring cfg state hashed released) (fetched : state.recDataFetchCb idx = .done)
    (live : hashed idx = false) :
    Ring cfg (cfg.markRecDataConsumed idx state) (Function.update hashed idx true) released := by
  have positive := cfg.ring_pos
  have started := ring.fetched_started idx fetched
  have last : ¬ Started cfg state hashed released (idx + cfg.ring) :=
    not_started fun both => Bool.false_ne_true (live.symm.trans both.1)
  have count := ring.refcount idx started last
  rw [live, if_neg Bool.false_ne_true] at count
  have zero : left state cfg idx = 0 ↔ released idx := by
    rw [left, count]
    cases released idx
    · simp
    · simp
  have fresh : idx + cfg.ring ∉ state.fetching := by
    intro member
    have before := (ring.fetching_spec _ member).2.2.1.1
    rw [Nat.add_sub_cancel, live] at before
    exact Bool.false_ne_true before
  have shape := markRecDataConsumed_eq cfg idx state
  simp only [zero] at shape
  generalize cfg.markRecDataConsumed idx state = state' at shape ⊢
  have sameFetched : state'.recDataFetchCb = state.recDataFetchCb := by rw [shape]
  have sameReading : state'.reading = state.reading := by rw [shape]
  have sameChunk : state'.chunk = state.chunk := by rw [shape]
  have counts : state'.recDataRefcount =
      Function.update state.recDataRefcount (idx % cfg.ring) (left state cfg idx) := by rw [shape]
  have waits : state'.fetching = if released idx ∧ idx + cfg.ring < cfg.slices then
      state.fetching ++ [idx + cfg.ring] else state.fetching := by rw [shape]
  have buffers : state'.recData = if released idx ∧ ¬ idx + cfg.ring < cfg.slices then
      Function.update state.recData (idx % cfg.ring) none else state.recData := by rw [shape]
  clear shape
  have fetching : ∀ other, other ∈ state'.fetching ↔
      other ∈ state.fetching ∨ other = idx + cfg.ring ∧ released idx ∧ other < cfg.slices := by
    intro other
    rw [waits]
    split
    case isTrue more =>
      rw [List.mem_append, List.mem_singleton]
      exact or_congr_right ⟨fun same => ⟨same, more.1, same ▸ more.2⟩, And.left⟩
    case isFalse none =>
      exact ⟨Or.inl, fun cases => cases.resolve_right fun ⟨same, done, below⟩ => none ⟨done, same ▸ below⟩⟩
  have same : ∀ other, Started cfg state' (Function.update hashed idx true) released other ↔
      Started cfg state hashed released other := by
    intro other
    rw [Started, Started, fetching]
    by_cases next : other = idx + cfg.ring
    · subst next
      rw [Nat.add_sub_cancel, Function.update_self, live]
      constructor
      · rintro ⟨below, first | ⟨-, done⟩, absent⟩
        · omega
        · exact absurd (Or.inr ⟨rfl, done, below⟩) absent
      · rintro ⟨-, first | ⟨done, -⟩, -⟩
        · omega
        · exact absurd done Bool.false_ne_true
    · by_cases least : cfg.ring ≤ other
      · rw [Function.update_of_ne (by omega)]
        refine and_congr_right' (and_congr_right' (not_congr ?_))
        exact or_iff_left fun all => next all.1
      · refine and_congr_right' (and_congr ?_ (not_congr (or_iff_left fun all => next all.1)))
        exact ⟨fun _ => Or.inl (by omega), fun _ => Or.inl (by omega)⟩
  have grown : ∀ other, hashed other → Function.update hashed idx true other := by
    intro other done
    rw [Function.update_apply]
    split
    · rfl
    · exact done
  exact {
    fetching_nodup := by
      rw [waits]
      split
      · exact List.nodup_append.mpr ⟨ring.fetching_nodup, List.nodup_singleton _, fun other member other' single => by
          rw [List.mem_singleton.mp single]
          exact fun equal => fresh (equal ▸ member)⟩
      · exact ring.fetching_nodup
    fetching_spec := fun other member => by
      rcases (fetching other).mp member with old | ⟨next, done, below⟩
      · obtain ⟨below, least, ⟨first, second⟩, unfetched⟩ := ring.fetching_spec other old
        rw [sameFetched]
        exact ⟨below, least, ⟨grown _ first, second⟩, unfetched⟩
      · subst next
        rw [Nat.add_sub_cancel, Function.update_self, sameFetched]
        exact ⟨below, by omega, ⟨rfl, done⟩, fun gone => last (ring.fetched_started _ gone)⟩
    reading_nodup := sameReading ▸ ring.reading_nodup
    reading_iff := fun other => by rw [same, sameReading, sameFetched, ring.reading_iff]
    fetched_started := fun other gone => (same other).mpr (ring.fetched_started other (sameFetched ▸ gone))
    hashed_fetched := fun other done => by
      rw [sameFetched]
      rw [Function.update_apply] at done
      split at done
      case isTrue equal => exact equal ▸ fetched
      case isFalse => exact ring.hashed_fetched other done
    released_fetched := sameFetched ▸ ring.released_fetched
    refcount := fun other began ends => by
      rw [same] at began ends
      have old := ring.refcount other began ends
      rw [counts]
      by_cases equal : other = idx
      · subst equal
        rw [Function.update_self, Function.update_self, if_pos rfl, left, count]
        omega
      · have apart : other % cfg.ring ≠ idx % cfg.ring := fun slot =>
          equal (ring.current started last began ends slot)
        rw [Function.update_of_ne apart, Function.update_of_ne equal, old]
    contents := fun other gone live' => by
      have kept : ¬ (hashed other ∧ released other) := fun both => live' ⟨grown _ both.1, both.2⟩
      rw [sameFetched] at gone
      have old := ring.contents other gone kept
      rw [buffers, sameChunk]
      split
      case isFalse => exact old
      case isTrue free =>
        have apart : other % cfg.ring ≠ idx % cfg.ring := by
          intro slot
          have equal := ring.current started last (ring.fetched_started _ gone) (not_started kept) slot
          subst equal
          rw [Function.update_self] at live'
          exact live' ⟨rfl, free.1⟩
        rw [Function.update_of_ne apart]
        exact old }

/-- A read that waited is begun. -/
theorem fetch (ring : Ring cfg state hashed released) (member : idx ∈ state.fetching) :
    Ring cfg (cfg.fetchRecData idx { state with fetching := state.fetching.erase idx }) hashed released := by
  have positive := cfg.ring_pos
  obtain ⟨below, least, before, unfetched⟩ := ring.fetching_spec idx member
  have unmarked : ¬ hashed idx ∧ ¬ released idx :=
    ⟨fun done => unfetched (ring.hashed_fetched _ done), fun done => unfetched (ring.released_fetched _ done)⟩
  have idle : ¬ Started cfg state hashed released idx := fun started => started.2.2 member
  generalize after : cfg.fetchRecData idx { state with fetching := state.fetching.erase idx } = state'
  rw [Config.fetchRecData] at after
  have fetching : ∀ other, other ∈ state'.fetching ↔ other ≠ idx ∧ other ∈ state.fetching := by
    intro other
    rw [← after]
    exact ring.fetching_nodup.mem_erase_iff
  have same : ∀ other, Started cfg state' hashed released other ↔
      Started cfg state hashed released other ∨ other = idx := by
    intro other
    rw [Started, Started, fetching]
    by_cases equal : other = idx
    · subst equal
      exact ⟨fun _ => Or.inr rfl, fun _ => ⟨below, Or.inr before, fun both => both.1 rfl⟩⟩
    · rw [or_iff_left equal, and_iff_right equal]
  -- slices that were begun in this buffer are before this one
  have earlier : ∀ other, Started cfg state hashed released other → other % cfg.ring = idx % cfg.ring →
      other < idx := by
    intro other began slot
    rcases Nat.lt_trichotomy other idx with less | equal | more
    · exact less
    · exact absurd (equal ▸ began) idle
    · exact absurd (ring.consumed_below began more slot.symm).1 unmarked.1
  have previous : Started cfg state hashed released (idx - cfg.ring) :=
    ring.fetched_started _ (ring.hashed_fetched _ before.1)
  exact {
    fetching_nodup := by
      rw [← after]
      exact ring.fetching_nodup.erase _
    fetching_spec := fun other waiting => by
      rw [← after]
      exact ring.fetching_spec other ((fetching other).mp waiting).2
    reading_nodup := by
      rw [← after]
      refine List.nodup_append.mpr ⟨ring.reading_nodup, List.nodup_singleton _, fun other began other' single => ?_⟩
      rw [List.mem_singleton.mp single]
      exact fun equal => idle (equal ▸ ((ring.reading_iff other).mp began).1)
    reading_iff := fun other => by
      rw [same, ← after]
      dsimp only
      rw [List.mem_append, List.mem_singleton, ring.reading_iff, or_and_right]
      exact or_congr_right ⟨fun equal => ⟨equal, equal ▸ unfetched⟩, And.left⟩
    fetched_started := fun other gone => by
      rw [← after] at gone
      exact (same other).mpr (Or.inl (ring.fetched_started other gone))
    hashed_fetched := by
      rw [← after]
      exact ring.hashed_fetched
    released_fetched := by
      rw [← after]
      exact ring.released_fetched
    refcount := fun other began ends => by
      rw [same] at began ends
      rw [← after]
      dsimp only
      by_cases equal : other = idx
      · subst equal
        rw [Function.update_self, if_neg unmarked.1, if_neg unmarked.2]
        rfl
      · have began := began.resolve_right equal
        have apart : other % cfg.ring ≠ idx % cfg.ring := by
          intro slot
          have less := earlier other began slot
          have gap := same_slot slot less
          refine ends ?_
          by_cases next : other + cfg.ring = idx
          · exact Or.inr next
          · exact Or.inl (ring.started_next previous (by omega) (by rw [slot, slot_sub least]))
        rw [Function.update_of_ne apart]
        exact ring.refcount other began fun next => ends (Or.inl next)
    contents := fun other gone live => by
      rw [← after] at gone ⊢
      have apart : other % cfg.ring ≠ idx % cfg.ring := by
        intro slot
        have less := earlier other (ring.fetched_started _ gone) slot
        have gap := same_slot slot less
        by_cases next : other + cfg.ring = idx
        · have equal : other = idx - cfg.ring := by omega
          exact live (equal ▸ before)
        · exact live (ring.consumed_below previous (by omega) (by rw [slot, slot_sub least]))
      dsimp only
      rw [Function.update_of_ne apart]
      exact ring.contents other gone live }

end Ring

end RecoveryRing

end Par3

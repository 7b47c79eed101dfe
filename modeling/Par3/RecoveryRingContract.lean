import Mathlib.Data.Nat.Find
import Par3.RingInvariant

/-!
# What the ring of recovery buffers guarantees

In every reachable state each hasher that is being updated and each piece that the consumer has, or that is on
its way to it, finds its own slice in the buffer: the buffer is read into again only when both are done with it.
Every hasher was given its slices in order, once for every chunk that was hashed. When nothing is under way and a
slice is not done with, the consumer has to act, and when it waits it hears of the end once.
-/
namespace Par3

namespace RecoveryRing

/-- The hashers are done with a slice. -/
def State.isHashed (state : State) (idx : ℕ) : Bool := decide (state.recDataHashCb idx = .done)

/-- The consumer has got a slice and is done with it. -/
def State.isReleased (state : State) (idx : ℕ) : Bool :=
  decide (idx < state.recDataPtr ∧ state.recDataFetchCb idx = .done ∧ idx ∉ state.delivering ∧ idx ∉ state.held)

variable {cfg : Config} {state state' : State} {hashed released : ℕ → Bool} {idx : ℕ}

/-! ## Reads -/

namespace Ring

/-- Only these fields matter. -/
theorem frame (ring : Ring cfg state hashed released) (fetching : state'.fetching = state.fetching)
    (reading : state'.reading = state.reading) (counts : state'.recDataRefcount = state.recDataRefcount)
    (buffers : state'.recData = state.recData) (chunk : state'.chunk = state.chunk)
    (fetched : ∀ idx, state'.recDataFetchCb idx = .done ↔ state.recDataFetchCb idx = .done) :
    Ring cfg state' hashed released := by
  have same : ∀ idx, Started cfg state' hashed released idx ↔ Started cfg state hashed released idx := by
    intro idx
    rw [Started, Started, fetching]
  exact {
    fetching_nodup := fetching ▸ ring.fetching_nodup
    fetching_spec := fun idx member => by
      rw [ne_eq, fetched]
      exact ring.fetching_spec idx (fetching ▸ member)
    reading_nodup := reading ▸ ring.reading_nodup
    reading_iff := fun idx => by rw [same, reading, ring.reading_iff, ne_eq, ne_eq, fetched]
    fetched_started := fun idx gone => (same idx).mpr (ring.fetched_started idx ((fetched idx).mp gone))
    hashed_fetched := fun idx done => (fetched idx).mpr (ring.hashed_fetched idx done)
    released_fetched := fun idx done => (fetched idx).mpr (ring.released_fetched idx done)
    refcount := fun idx began last => by
      rw [same] at began last
      rw [counts, ring.refcount idx began last]
    contents := fun idx gone live => by
      rw [buffers, chunk, ring.contents idx ((fetched idx).mp gone) live] }

/-- A read ends. -/
theorem received (ring : Ring cfg state hashed released) (member : idx ∈ state.reading) :
    Ring cfg { state with
      reading := state.reading.erase idx
      recData := Function.update state.recData (idx % cfg.ring) (some (state.chunk, idx))
      recDataFetchCb := Function.update state.recDataFetchCb idx .done } hashed released := by
  obtain ⟨started, unfetched⟩ := (ring.reading_iff idx).mp member
  have unmarked : ¬ (hashed idx ∧ released idx) := fun both => unfetched (ring.hashed_fetched _ both.1)
  have grown : ∀ other, state.recDataFetchCb other = .done →
      Function.update state.recDataFetchCb idx .done other = .done := by
    intro other gone
    rw [Function.update_apply]
    split
    · rfl
    · exact gone
  exact {
    fetching_nodup := ring.fetching_nodup
    fetching_spec := fun other waiting => by
      have apart : other ≠ idx := fun equal => started.2.2 (equal ▸ waiting)
      dsimp only
      rw [Function.update_of_ne apart]
      exact ring.fetching_spec other waiting
    reading_nodup := ring.reading_nodup.erase _
    reading_iff := fun other => by
      dsimp only
      rw [ring.reading_nodup.mem_erase_iff, ring.reading_iff, Started, Started]
      by_cases equal : other = idx
      · subst equal
        rw [Function.update_self]
        exact ⟨fun both => absurd rfl both.1, fun both => absurd rfl both.2⟩
      · rw [Function.update_of_ne equal]
        exact and_iff_right equal
    fetched_started := fun other gone => by
      by_cases equal : other = idx
      · exact equal ▸ started
      · dsimp only at gone
        rw [Function.update_of_ne equal] at gone
        exact ring.fetched_started other gone
    hashed_fetched := fun other done => grown other (ring.hashed_fetched other done)
    released_fetched := fun other done => grown other (ring.released_fetched other done)
    refcount := ring.refcount
    contents := fun other gone live => by
      dsimp only at gone ⊢
      by_cases equal : other = idx
      · subst equal
        rw [Function.update_self]
      · rw [Function.update_of_ne equal] at gone
        have apart : other % cfg.ring ≠ idx % cfg.ring := fun slot =>
          equal (ring.current started (not_started unmarked) (ring.fetched_started _ gone) (not_started live) slot)
        rw [Function.update_of_ne apart]
        exact ring.contents other gone live }

/-- Once the consumer has released everything, the counts are zero exactly when everything is hashed. -/
theorem processed_iff (ring : Ring cfg state hashed released) (all : ∀ idx < cfg.slices, released idx) :
    cfg.isRecoveryProcessed state.recDataRefcount ↔ ∀ idx < cfg.slices, hashed idx := by
  have pos := cfg.ring_pos
  have few := cfg.ring_le
  have began : ∀ idx < cfg.slices, Started cfg state hashed released idx := fun idx below =>
    ring.fetched_started idx (ring.released_fetched idx (all idx below))
  have beyond : ∀ idx, ¬ idx < cfg.slices → ¬ Started cfg state hashed released idx := fun idx far started =>
    far started.1
  rw [Config.isRecoveryProcessed, List.all_eq_true]
  constructor
  · intro zero idx below
    by_cases more : idx + cfg.ring < cfg.slices
    · have before := (began _ more).2.1.resolve_left (by omega)
      rw [Nat.add_sub_cancel] at before
      exact before.1
    · have count := ring.refcount idx (began idx below) (beyond _ more)
      have least := zero _ (List.mem_range.mpr (Nat.mod_lt idx pos))
      rw [Bool.not_eq_true', decide_eq_false_iff_not, count, if_pos (all idx below)] at least
      by_contra open_
      rw [if_neg open_] at least
      omega
  · intro done slot inside
    have inside := List.mem_range.mp inside
    -- the last slice that uses the buffer
    have split := Nat.div_add_mod (cfg.slices - 1 - slot) cfg.ring
    have rest := Nat.mod_lt (cfg.slices - 1 - slot) pos
    generalize (cfg.slices - 1 - slot) / cfg.ring = round at split
    have place : (cfg.ring * round + slot) % cfg.ring = slot := by
      rw [Nat.mul_add_mod, Nat.mod_eq_of_lt inside]
    have below : cfg.ring * round + slot < cfg.slices := by omega
    have count := ring.refcount _ (began _ below) (beyond _ (by omega))
    rw [place, if_pos (done _ below), if_pos (all _ below)] at count
    rw [Bool.not_eq_true', decide_eq_false_iff_not, count]
    decide

end Ring

/-! ## What every step keeps -/

/-- A state in which a buffer was marked, or a slice of a hasher -/
structure Frame (state state' : State) : Prop where
  chunk : state'.chunk = state.chunk
  fetchCb : state'.recDataFetchCb = state.recDataFetchCb
  needed : state'.recDataHasherBufsNeeded = state.recDataHasherBufsNeeded
  ptr : state'.recDataPtr = state.recDataPtr
  complete : state'.recCompleteCb = state.recCompleteCb
  hashed : state'.hashed = state.hashed
  reading : state'.reading = state.reading
  updating : state'.updating = state.updating
  delivering : state'.delivering = state.delivering
  held : state'.held = state.held
  waited : state'.waited = state.waited
  completions : state'.completions = state.completions

theorem Frame.trans {last : State} (first : Frame state state') (second : Frame state' last) : Frame state last := {
  chunk := second.chunk.trans first.chunk
  fetchCb := second.fetchCb.trans first.fetchCb
  needed := second.needed.trans first.needed
  ptr := second.ptr.trans first.ptr
  complete := second.complete.trans first.complete
  hashed := second.hashed.trans first.hashed
  reading := second.reading.trans first.reading
  updating := second.updating.trans first.updating
  delivering := second.delivering.trans first.delivering
  held := second.held.trans first.held
  waited := second.waited.trans first.waited
  completions := second.completions.trans first.completions }

theorem Frame.isReleased (frame : Frame state state') : state'.isReleased = state.isReleased := by
  funext idx
  rw [State.isReleased, State.isReleased, frame.ptr, frame.fetchCb, frame.delivering, frame.held]

theorem markRecDataConsumed_frame (cfg : Config) (idx : ℕ) (state : State) :
    Frame state (cfg.markRecDataConsumed idx state) ∧
      (cfg.markRecDataConsumed idx state).recDataHashCb = state.recDataHashCb := by
  rw [markRecDataConsumed_eq]
  exact ⟨by constructor <;> rfl, rfl⟩

/-- The end is told once, when the consumer waits for it and everything is hashed. -/
structure Told (cfg : Config) (state : State) (hashed : ℕ → Bool) : Prop where
  emptied : state.waited = true → cfg.Emptied state
  asked : state.recCompleteCb = true → state.waited = true
  open_ : state.waited = true → ¬ (∀ idx < cfg.slices, hashed idx) → state.recCompleteCb = true
  told : state.ticks + state.completions =
    if state.waited = true ∧ ∀ idx < cfg.slices, hashed idx then 1 else 0

/-- What holds in every reachable state -/
structure Sound (cfg : Config) (state : State) : Prop where
  ring : Ring cfg state state.isHashed state.isReleased
  ptr_le : state.recDataPtr ≤ cfg.slices
  pieces : (state.delivering ++ state.held).Nodup
  pieces_spec : ∀ idx ∈ state.delivering ++ state.held, idx < state.recDataPtr ∧ state.recDataFetchCb idx = .done
  callback_iff : ∀ idx, state.recDataFetchCb idx = .callback ↔
    idx < state.recDataPtr ∧ state.recDataFetchCb idx ≠ .done
  whole : ∀ idx < cfg.slices, ∀ other < cfg.slices,
    other / cfg.hashBatchSize = idx / cfg.hashBatchSize → state.isHashed idx → state.isHashed other
  needed : ∀ hasher, state.recDataHasherBufsNeeded hasher =
    ((cfg.group hasher).countP fun idx => state.recDataFetchCb idx ≠ .done : ℕ)
  updating_nodup : state.updating.Nodup
  updating_iff : ∀ hasher bufs, (hasher, bufs) ∈ state.updating ↔ bufs = cfg.bufs hasher ∧
    hasher * cfg.hashBatchSize < cfg.slices ∧ (∀ idx ∈ cfg.group hasher, state.recDataFetchCb idx = .done) ∧
    ¬ state.isHashed (hasher * cfg.hashBatchSize)
  history : ∀ idx < cfg.slices, state.hashed idx =
    (List.range (state.chunk + if state.isHashed idx then 1 else 0)).map fun chunk => some (chunk, idx)
  told : Told cfg state state.isHashed

/-- When the consumer has released everything, it is done with every slice. -/
theorem Emptied.isReleased (empty : cfg.Emptied state) {idx : ℕ} (below : idx < cfg.slices) :
    state.isReleased idx := by
  obtain ⟨ptr, held, delivering, fetched⟩ := empty
  rw [State.isReleased, ptr, held, delivering]
  exact decide_eq_true ⟨below, fetched idx below, List.not_mem_nil, List.not_mem_nil⟩

/-! ### The consumer -/

/-- The consumer releases a piece. -/
theorem Sound.release (sound : Sound cfg state) (member : idx ∈ state.held) :
    Sound cfg (cfg.markRecDataConsumed idx { state with held := state.held.erase idx }) := by
  have nodup := List.nodup_append.mp sound.pieces
  obtain ⟨asked, fetched⟩ := sound.pieces_spec idx (List.mem_append_right _ member)
  have undelivered : idx ∉ state.delivering := fun other => nodup.2.2 idx other idx member rfl
  have live : state.isReleased idx = false := decide_eq_false fun all => all.2.2.2 member
  -- the consumer does not wait for the end before it has released everything
  have busy : state.waited = false := by
    by_contra waits
    have empty := (sound.told.emptied (Bool.not_eq_false _ ▸ waits)).2.1
    rw [empty] at member
    exact List.not_mem_nil member
  have silent : state.recCompleteCb = false := by
    by_contra asks
    have := sound.told.asked (Bool.not_eq_false _ ▸ asks)
    rw [busy] at this
    exact Bool.false_ne_true this
  have ring : Ring cfg { state with held := state.held.erase idx } state.isHashed state.isReleased :=
    sound.ring.frame rfl rfl rfl rfl rfl fun _ => Iff.rfl
  have marked := (ring.symm.marked fetched live).symm
  obtain ⟨frame, hashCb⟩ := markRecDataConsumed_frame cfg idx { state with held := state.held.erase idx }
  have ticks : (cfg.markRecDataConsumed idx { state with held := state.held.erase idx }).ticks = state.ticks := by
    rw [markRecDataConsumed_eq]
    exact if_neg fun all => Bool.false_ne_true (silent.symm.trans all.2.2.1)
  generalize cfg.markRecDataConsumed idx { state with held := state.held.erase idx } = state' at *
  have hashed : state'.isHashed = state.isHashed := by
    funext other
    rw [State.isHashed, State.isHashed, hashCb]
  have released : state'.isReleased = Function.update state.isReleased idx true := by
    funext other
    rw [Function.update_apply, State.isReleased, State.isReleased, frame.ptr, frame.fetchCb, frame.delivering,
      frame.held]
    dsimp only
    by_cases equal : other = idx
    · subst equal
      rw [if_pos rfl]
      exact decide_eq_true ⟨asked, fetched, undelivered, nodup.2.1.not_mem_erase⟩
    · rw [if_neg equal]
      refine decide_eq_decide.mpr (and_congr_right' (and_congr_right' (and_congr_right' (not_congr ?_))))
      exact List.mem_erase_of_ne equal
  have fewer : ∀ other, other ∈ state'.delivering ++ state'.held → other ∈ state.delivering ++ state.held := by
    intro other piece
    rw [frame.delivering, frame.held] at piece
    exact List.mem_append.mpr ((List.mem_append.mp piece).imp_right List.mem_of_mem_erase)
  exact {
    ring := by rwa [hashed, released]
    ptr_le := frame.ptr ▸ sound.ptr_le
    pieces := by
      rw [frame.delivering, frame.held]
      exact sound.pieces.sublist (List.Sublist.append_left List.erase_sublist _)
    pieces_spec := fun other piece => by
      rw [frame.ptr, frame.fetchCb]
      exact sound.pieces_spec other (fewer other piece)
    callback_iff := by rw [frame.ptr, frame.fetchCb]; exact sound.callback_iff
    whole := by rw [hashed]; exact sound.whole
    needed := by rw [frame.needed, frame.fetchCb]; exact sound.needed
    updating_nodup := by rw [frame.updating]; exact sound.updating_nodup
    updating_iff := by rw [frame.updating, frame.fetchCb, hashed]; exact sound.updating_iff
    history := by rw [frame.hashed, frame.chunk, hashed]; exact sound.history
    told := {
      emptied := fun waits => absurd ((frame.waited.symm.trans waits).symm.trans busy) (by decide)
      asked := fun asks => absurd ((frame.complete.symm.trans asks).symm.trans silent) (by decide)
      open_ := fun waits => absurd ((frame.waited.symm.trans waits).symm.trans busy) (by decide)
      told := by
        rw [ticks, frame.completions, frame.waited, hashed]
        exact sound.told.told } }

/-- A piece reaches the consumer. -/
theorem Sound.deliver (sound : Sound cfg state) (member : idx ∈ state.delivering) :
    Sound cfg { state with delivering := state.delivering.erase idx, held := state.held ++ [idx] } := by
  have moved : (state.delivering.erase idx ++ (state.held ++ [idx])).Perm (state.delivering ++ state.held) := by
    rw [← List.append_assoc]
    refine (List.perm_append_comm).trans ?_
    rw [List.singleton_append, ← List.cons_append]
    exact (List.perm_cons_erase member).symm.append_right _
  have same : ∀ other, (other ∉ state.delivering.erase idx ∧ other ∉ state.held ++ [idx]) ↔
      (other ∉ state.delivering ∧ other ∉ state.held) := by
    intro other
    rw [← not_or, ← not_or, ← List.mem_append, ← List.mem_append, moved.mem_iff]
  have released : State.isReleased { state with
      delivering := state.delivering.erase idx, held := state.held ++ [idx] } = state.isReleased := by
    funext other
    exact decide_eq_decide.mpr (and_congr_right' (and_congr_right' (same other)))
  exact {
    ring := by
      rw [released]
      exact sound.ring.frame rfl rfl rfl rfl rfl fun _ => Iff.rfl
    ptr_le := sound.ptr_le
    pieces := moved.nodup_iff.mpr sound.pieces
    pieces_spec := fun other piece => sound.pieces_spec other (moved.mem_iff.mp piece)
    callback_iff := sound.callback_iff
    whole := sound.whole
    needed := sound.needed
    updating_nodup := sound.updating_nodup
    updating_iff := sound.updating_iff
    history := sound.history
    told := {
      emptied := fun waits => by
        rw [(sound.told.emptied waits).2.2.1] at member
        exact absurd member List.not_mem_nil
      asked := sound.told.asked
      open_ := sound.told.open_
      told := sound.told.told } }

/-- The consumer asks for the next piece. -/
theorem Sound.next (sound : Sound cfg state) (taken : cfg.getNextRecoveryData state = some state') :
    Sound cfg state' := by
  rw [Config.getNextRecoveryData] at taken
  split at taken
  case isTrue => cases taken
  case isFalse more =>
    have busy : state.waited = false := by
      by_contra waits
      have ends := (sound.told.emptied (Bool.not_eq_false _ ▸ waits)).1
      omega
    have silent : ¬ state.recCompleteCb = true := fun asks =>
      Bool.false_ne_true (busy.symm.trans (sound.told.asked asks))
    have unasked : state.recDataPtr ∉ state.delivering ++ state.held := fun piece =>
      absurd (sound.pieces_spec _ piece).1 (Nat.lt_irrefl _)
    split at taken
    case isTrue fetched =>
      cases Option.some.inj taken
      have released : State.isReleased { state with
          delivering := state.delivering ++ [state.recDataPtr], recDataPtr := state.recDataPtr + 1 } =
            state.isReleased := by
        funext other
        refine decide_eq_decide.mpr ?_
        dsimp only
        rw [List.mem_append, List.mem_singleton]
        by_cases equal : other = state.recDataPtr
        · subst equal
          exact ⟨fun all => absurd (Or.inr rfl) all.2.2.1, fun all => absurd all.1 (Nat.lt_irrefl _)⟩
        · rw [or_iff_left equal]
          exact and_congr_left' ⟨fun below => by omega, fun below => by omega⟩
      exact {
        ring := by
          rw [released]
          exact sound.ring.frame rfl rfl rfl rfl rfl fun _ => Iff.rfl
        ptr_le := by
          dsimp only
          omega
        pieces := by
          dsimp only
          rw [List.append_assoc, List.singleton_append, List.perm_middle.nodup_iff, List.nodup_cons]
          exact ⟨unasked, sound.pieces⟩
        pieces_spec := fun other piece => by
          dsimp only at piece ⊢
          rw [List.append_assoc, List.singleton_append, List.perm_middle.mem_iff, List.mem_cons] at piece
          rcases piece with rfl | piece
          · exact ⟨Nat.lt_succ_self _, fetched⟩
          · have old := sound.pieces_spec other piece
            exact ⟨Nat.lt_succ_of_lt old.1, old.2⟩
        callback_iff := fun other => by
          dsimp only
          rw [sound.callback_iff]
          by_cases equal : other = state.recDataPtr
          · subst equal
            exact ⟨fun both => absurd fetched both.2, fun both => absurd fetched both.2⟩
          · exact and_congr_left' ⟨fun below => by omega, fun below => by omega⟩
        whole := sound.whole
        needed := sound.needed
        updating_nodup := sound.updating_nodup
        updating_iff := sound.updating_iff
        history := sound.history
        told := {
          emptied := fun waits => absurd (busy.symm.trans waits) Bool.false_ne_true
          asked := sound.told.asked
          open_ := sound.told.open_
          told := sound.told.told } }
    case isFalse unfetched =>
      cases Option.some.inj taken
      have same : ∀ other, Function.update state.recDataFetchCb state.recDataPtr .callback other = .done ↔
          state.recDataFetchCb other = .done := by
        intro other
        rw [Function.update_apply]
        split
        case isTrue equal =>
          rw [equal]
          exact ⟨fun wrong => absurd wrong (by decide), fun fetched => absurd fetched unfetched⟩
        case isFalse => rfl
      have released : State.isReleased { state with
          recDataFetchCb := Function.update state.recDataFetchCb state.recDataPtr .callback
          recDataPtr := state.recDataPtr + 1 } = state.isReleased := by
        funext other
        refine decide_eq_decide.mpr ?_
        dsimp only
        rw [same]
        by_cases equal : other = state.recDataPtr
        · subst equal
          exact ⟨fun all => absurd all.2.1 unfetched, fun all => absurd all.2.1 unfetched⟩
        · exact and_congr_left' ⟨fun below => by omega, fun below => by omega⟩
      exact {
        ring := by
          rw [released]
          exact sound.ring.frame rfl rfl rfl rfl rfl same
        ptr_le := by
          dsimp only
          omega
        pieces := sound.pieces
        pieces_spec := fun other piece => by
          have old := sound.pieces_spec other piece
          exact ⟨Nat.lt_succ_of_lt old.1, (same other).mpr old.2⟩
        callback_iff := fun other => by
          dsimp only
          rw [ne_eq, same, Function.update_apply]
          split
          case isTrue equal =>
            rw [equal]
            exact ⟨fun _ => ⟨Nat.lt_succ_self _, unfetched⟩, fun _ => rfl⟩
          case isFalse apart =>
            rw [sound.callback_iff]
            exact and_congr_left' ⟨fun below => by omega, fun below => by omega⟩
        whole := sound.whole
        needed := fun hasher => by
          rw [sound.needed]
          simp only [ne_eq, same]
        updating_nodup := sound.updating_nodup
        updating_iff := fun hasher bufs => by
          rw [sound.updating_iff]
          simp only [same]
          rfl
        history := sound.history
        told := {
          emptied := fun waits => absurd (busy.symm.trans waits) Bool.false_ne_true
          asked := sound.told.asked
          open_ := sound.told.open_
          told := sound.told.told } }

/-- The consumer does not wait for the end before everything was read. -/
theorem Sound.not_waited (sound : Sound cfg state) (below : idx < cfg.slices)
    (unfetched : state.recDataFetchCb idx ≠ .done) : state.waited = false := by
  by_contra waits
  exact unfetched ((sound.told.emptied (Bool.not_eq_false _ ▸ waits)).2.2.2 idx below)

theorem Sound.wait (sound : Sound cfg state) (empty : cfg.Emptied state) (busy : state.waited = false) :
    Sound cfg (cfg.waitForRecoveryComplete state) := by
  have none := sound.told.told
  rw [if_neg fun both => Bool.false_ne_true (busy.symm.trans both.1)] at none
  have ends := sound.ring.processed_iff fun idx below => Emptied.isReleased empty below
  rw [Config.waitForRecoveryComplete]
  split
  case isTrue processed =>
    have all := ends.mp processed
    exact { sound with
      ring := sound.ring.frame rfl rfl rfl rfl rfl fun _ => Iff.rfl
      told := {
        emptied := fun _ => empty
        asked := fun _ => rfl
        open_ := fun _ open_ => absurd all open_
        told := by
          rw [if_pos ⟨rfl, all⟩]
          dsimp only
          omega } }
  case isFalse unprocessed =>
    exact { sound with
      ring := sound.ring.frame rfl rfl rfl rfl rfl fun _ => Iff.rfl
      told := {
        emptied := fun _ => empty
        asked := fun _ => rfl
        open_ := fun _ _ => rfl
        told := by
          rw [if_neg fun both => unprocessed (ends.mpr both.2)]
          exact none } }

theorem Sound.tick (sound : Sound cfg state) (some : 0 < state.ticks) :
    Sound cfg { state with ticks := state.ticks - 1, completions := state.completions + 1 } := { sound with
  ring := sound.ring.frame rfl rfl rfl rfl rfl fun _ => Iff.rfl
  told := {
    emptied := sound.told.emptied
    asked := sound.told.asked
    open_ := sound.told.open_
    told := by
      have same : state.ticks - 1 + (state.completions + 1) = state.ticks + state.completions := by omega
      exact same.trans sound.told.told } }

/-! ### The reads -/

theorem Sound.fetch (sound : Sound cfg state) (member : idx ∈ state.fetching) :
    Sound cfg (cfg.fetchRecData idx { state with fetching := state.fetching.erase idx }) := { sound with
  ring := sound.ring.fetch member
  told := {
    emptied := sound.told.emptied
    asked := sound.told.asked
    open_ := sound.told.open_
    told := sound.told.told } }

/-- One element of a list is counted no more. -/
theorem countP_without {list : List ℕ} (nodup : list.Nodup) (member : idx ∈ list) {before after : ℕ → Bool}
    (counted : before idx = true) (gone : after idx = false) (same : ∀ other, other ≠ idx → after other = before other) :
    list.countP before = list.countP after + 1 := by
  induction list with
  | nil => cases member
  | cons first rest ih =>
    obtain ⟨absent, nodup⟩ := List.nodup_cons.mp nodup
    rw [List.countP_cons, List.countP_cons]
    rcases List.mem_cons.mp member with rfl | later
    · have unchanged : rest.countP before = rest.countP after :=
        List.countP_congr fun other inside => by rw [same other fun equal => absent (equal ▸ inside)]
      rw [unchanged, counted, gone]
      simp
    · rw [ih nodup later, same first fun equal => absent (equal ▸ later)]
      omega

/-- The last read of a group sends the group to its hasher, and a consumer that waits gets the piece. -/
theorem received_eq (cfg : Config) (idx : ℕ) (state : State) :
    cfg.received idx state = { state with
      recData := Function.update state.recData (idx % cfg.ring) (some (state.chunk, idx))
      recDataHasherBufsNeeded := Function.update state.recDataHasherBufsNeeded (idx / cfg.hashBatchSize)
        (state.recDataHasherBufsNeeded (idx / cfg.hashBatchSize) - 1)
      updating := if state.recDataHasherBufsNeeded (idx / cfg.hashBatchSize) - 1 = 0 then
        state.updating ++ [(idx / cfg.hashBatchSize, cfg.bufs (idx / cfg.hashBatchSize))] else state.updating
      held := if state.recDataFetchCb idx = .callback then state.held ++ [idx] else state.held
      recDataFetchCb := Function.update state.recDataFetchCb idx .done } := by
  rw [Config.received]
  dsimp only
  by_cases last : state.recDataHasherBufsNeeded (idx / cfg.hashBatchSize) - 1 = 0
  · rw [if_pos last, if_pos last]
    cases marker : state.recDataFetchCb idx with
    | callback => simp
    | unset | done => simp
  · rw [if_neg last, if_neg last]
    cases marker : state.recDataFetchCb idx with
    | callback => simp
    | unset | done => simp

section Received

variable (sound : Sound cfg state) (below : idx < cfg.slices) (unfetched : state.recDataFetchCb idx ≠ .done)
  (fetchCb : state'.recDataFetchCb = Function.update state.recDataFetchCb idx .done)

include fetchCb

theorem fetched_iff (other : ℕ) :
    state'.recDataFetchCb other = .done ↔ other = idx ∨ state.recDataFetchCb other = .done := by
  rw [fetchCb, Function.update_apply]
  split
  case isTrue equal => exact ⟨fun _ => Or.inl equal, fun _ => rfl⟩
  case isFalse apart => exact (or_iff_right apart).symm

include sound below unfetched

/-- The count of the group goes down by one. -/
theorem Sound.needed_received (hasher : ℕ) :
    Function.update state.recDataHasherBufsNeeded (idx / cfg.hashBatchSize)
        (state.recDataHasherBufsNeeded (idx / cfg.hashBatchSize) - 1) hasher =
      ((cfg.group hasher).countP fun idx => state'.recDataFetchCb idx ≠ .done : ℕ) := by
  have grown := fetched_iff fetchCb
  rw [Function.update_apply]
  split
  case isTrue equal =>
    have one : (cfg.group (idx / cfg.hashBatchSize)).countP (fun idx => state.recDataFetchCb idx ≠ .done) =
        (cfg.group (idx / cfg.hashBatchSize)).countP (fun idx => state'.recDataFetchCb idx ≠ .done) + 1 :=
      countP_without List.nodup_range' (cfg.mem_group.mpr ⟨below, rfl⟩) (decide_eq_true unfetched)
        (decide_eq_false fun wrong => wrong ((grown idx).mpr (Or.inl rfl))) fun other apart =>
          decide_eq_decide.mpr (not_congr ((grown other).trans (or_iff_right apart)))
    rw [sound.needed, equal, one]
    omega
  case isFalse apart =>
    rw [sound.needed]
    congr 1
    refine List.countP_congr fun other inside => ?_
    have other : other ≠ idx := fun equal => apart ((cfg.mem_group.mp inside).2.symm.trans (equal ▸ rfl))
    rw [decide_eq_true_iff, decide_eq_true_iff, ne_eq, ne_eq, grown, or_iff_right other]

omit fetchCb in
/-- No slice of a group with an unread slice is at a hasher. -/
theorem Sound.not_updating (bufs : List ℕ) : (idx / cfg.hashBatchSize, bufs) ∉ state.updating := fun begun =>
  unfetched (((sound.updating_iff _ _).mp begun).2.2.1 idx (cfg.mem_group.mpr ⟨below, rfl⟩))

/-- The group of the slice is sent to its hasher when it is complete. -/
theorem Sound.updating_received (hasher : ℕ) (bufs : List ℕ) :
    (hasher, bufs) ∈ (if state.recDataHasherBufsNeeded (idx / cfg.hashBatchSize) - 1 = 0 then
      state.updating ++ [(idx / cfg.hashBatchSize, cfg.bufs (idx / cfg.hashBatchSize))] else
      state.updating) ↔ bufs = cfg.bufs hasher ∧ hasher * cfg.hashBatchSize < cfg.slices ∧
        (∀ idx ∈ cfg.group hasher, state'.recDataFetchCb idx = .done) ∧
        ¬ state.isHashed (hasher * cfg.hashBatchSize) := by
  have grown := fetched_iff fetchCb
  have idle := sound.not_updating below unfetched
  have full : state.recDataHasherBufsNeeded (idx / cfg.hashBatchSize) - 1 = 0 ↔
      ∀ other ∈ cfg.group (idx / cfg.hashBatchSize), state'.recDataFetchCb other = .done := by
    have value := sound.needed_received below unfetched fetchCb (idx / cfg.hashBatchSize)
    rw [Function.update_self] at value
    rw [value, Int.natCast_eq_zero, List.countP_eq_zero]
    exact forall₂_congr fun other _ => by rw [decide_eq_true_iff, ne_eq, not_not]
  by_cases equal : hasher = idx / cfg.hashBatchSize
  · subst equal
    have batch := cfg.hashBatchSize_pos
    have start := Nat.div_mul_le_self idx cfg.hashBatchSize
    have first : state.isHashed (idx / cfg.hashBatchSize * cfg.hashBatchSize) = false := by
      by_contra done
      have same := sound.whole _ (Nat.lt_of_le_of_lt start below) idx below
        (by rw [Nat.mul_div_cancel _ batch]) (Bool.not_eq_false _ ▸ done)
      exact unfetched (sound.ring.hashed_fetched idx same)
    rw [first]
    split
    case isTrue last =>
      rw [List.mem_append, or_iff_right (idle bufs), List.mem_singleton, Prod.mk.injEq]
      exact ⟨fun both => ⟨both.2, Nat.lt_of_le_of_lt start below, full.mp last, Bool.false_ne_true⟩,
        fun all => ⟨rfl, all.1⟩⟩
    case isFalse more =>
      exact ⟨fun begun => absurd begun (idle bufs), fun all => absurd (full.mpr all.2.2.1) more⟩
  · have old : ∀ other ∈ cfg.group hasher,
        (state'.recDataFetchCb other = .done ↔ state.recDataFetchCb other = .done) := fun other inside =>
      (grown other).trans (or_iff_right fun same =>
        equal ((cfg.mem_group.mp inside).2.symm.trans (same ▸ rfl)))
    rw [forall₂_congr old, ← sound.updating_iff]
    split
    · rw [List.mem_append, List.mem_singleton, Prod.mk.injEq]
      exact or_iff_left fun both => equal both.1
    · rfl

end Received

/-- A read ends. -/
theorem Sound.received (sound : Sound cfg state) (member : idx ∈ state.reading) :
    Sound cfg (cfg.received idx { state with reading := state.reading.erase idx }) := by
  obtain ⟨started, unfetched⟩ := (sound.ring.reading_iff idx).mp member
  have busy := sound.not_waited started.1 unfetched
  have absent : idx ∉ state.delivering ++ state.held := fun piece => unfetched (sound.pieces_spec idx piece).2
  have shape := received_eq cfg idx { state with reading := state.reading.erase idx }
  generalize cfg.received idx { state with reading := state.reading.erase idx } = state' at shape ⊢
  have fetchCb : state'.recDataFetchCb = Function.update state.recDataFetchCb idx .done := by rw [shape]
  have grown := fetched_iff fetchCb
  have held : state'.held = if idx < state.recDataPtr then state.held ++ [idx] else state.held := by
    rw [shape]
    exact if_congr ((sound.callback_iff idx).trans (and_iff_left unfetched)) rfl rfl
  have delivering : state'.delivering = state.delivering := by rw [shape]
  have ptr : state'.recDataPtr = state.recDataPtr := by rw [shape]
  have hashed : state'.isHashed = state.isHashed := by
    rw [shape]
    rfl
  have updating : state'.updating = if state.recDataHasherBufsNeeded (idx / cfg.hashBatchSize) - 1 = 0 then
      state.updating ++ [(idx / cfg.hashBatchSize, cfg.bufs (idx / cfg.hashBatchSize))] else
      state.updating := by rw [shape]
  have ring : Ring cfg state' state.isHashed state.isReleased :=
    (sound.ring.received member).frame (by rw [shape]) (by rw [shape]) (by rw [shape]) (by rw [shape])
      (by rw [shape]) fun other => by rw [fetchCb]
  have pieces : ∀ other, other ∈ state'.held ↔ other ∈ state.held ∨ other = idx ∧ idx < state.recDataPtr := by
    intro other
    rw [held]
    split
    case isTrue asked =>
      rw [List.mem_append, List.mem_singleton]
      exact or_congr_right ⟨fun equal => ⟨equal, asked⟩, And.left⟩
    case isFalse unasked => exact (or_iff_left fun both => unasked both.2).symm
  have released : state'.isReleased = state.isReleased := by
    funext other
    refine decide_eq_decide.mpr ?_
    rw [ptr, grown, delivering, pieces]
    by_cases equal : other = idx
    · subst equal
      exact ⟨fun all => absurd (Or.inr ⟨rfl, all.1⟩) all.2.2.2, fun all => absurd all.2.1 unfetched⟩
    · rw [or_iff_right equal, or_iff_left fun both => equal both.1]
  exact {
    ring := by rwa [hashed, released]
    ptr_le := ptr ▸ sound.ptr_le
    pieces := by
      rw [delivering, held]
      split
      · rw [← List.append_assoc]
        exact List.nodup_append.mpr ⟨sound.pieces, List.nodup_singleton _, fun other piece other' single => by
          rw [List.mem_singleton.mp single]
          exact fun equal => absent (equal ▸ piece)⟩
      · exact sound.pieces
    pieces_spec := fun other piece => by
      rw [delivering, List.mem_append, pieces, ← or_assoc, ← List.mem_append] at piece
      rw [ptr, grown]
      rcases piece with old | ⟨rfl, asked⟩
      · exact ⟨(sound.pieces_spec other old).1, Or.inr (sound.pieces_spec other old).2⟩
      · exact ⟨asked, Or.inl rfl⟩
    callback_iff := fun other => by
      rw [ptr, ne_eq, grown, fetchCb, Function.update_apply]
      split
      case isTrue equal => exact ⟨fun wrong => absurd wrong (by decide), fun both => absurd (Or.inl equal) both.2⟩
      case isFalse apart => rw [sound.callback_iff, or_iff_right apart]
    whole := by rw [hashed]; exact sound.whole
    needed := fun hasher => by
      rw [show state'.recDataHasherBufsNeeded = _ from congrArg State.recDataHasherBufsNeeded shape]
      exact sound.needed_received started.1 unfetched fetchCb hasher
    updating_nodup := by
      rw [updating]
      split
      · exact List.nodup_append.mpr ⟨sound.updating_nodup, List.nodup_singleton _, fun other begun other' single => by
          rw [List.mem_singleton.mp single]
          exact fun equal => sound.not_updating started.1 unfetched _ (equal ▸ begun)⟩
      · exact sound.updating_nodup
    updating_iff := fun hasher bufs => by
      rw [hashed, updating]
      exact sound.updating_received started.1 unfetched fetchCb hasher bufs
    history := by
      rw [hashed, shape]
      exact sound.history
    told := {
      emptied := fun waits => absurd (busy.symm.trans (by rwa [shape] at waits)) Bool.false_ne_true
      asked := by
        rw [shape]
        exact sound.told.asked
      open_ := fun waits => absurd (busy.symm.trans (by rwa [shape] at waits)) Bool.false_ne_true
      told := by
        rw [hashed, shape]
        exact sound.told.told } }

/-! ### The hashers -/

theorem isHashed_update (hashCb : state'.recDataHashCb = Function.update state.recDataHashCb idx .done) :
    state'.isHashed = Function.update state.isHashed idx true := by
  funext other
  by_cases equal : other = idx
  · subst equal
    rw [Function.update_self]
    exact decide_eq_true (by rw [hashCb, Function.update_self])
  · rw [Function.update_of_ne equal]
    exact decide_eq_decide.mpr (by rw [hashCb, Function.update_of_ne equal])

/-- A hasher is done with one of its slices. -/
theorem release_spec (ring : Ring cfg state state.isHashed state.isReleased)
    (told : Told cfg state state.isHashed) (fetched : state.recDataFetchCb idx = .done)
    (live : state.isHashed idx = false) :
    Frame state (cfg.release state idx) ∧
      (cfg.release state idx).recDataHashCb = Function.update state.recDataHashCb idx .done ∧
      Ring cfg (cfg.release state idx) (cfg.release state idx).isHashed (cfg.release state idx).isReleased ∧
      Told cfg (cfg.release state idx) (cfg.release state idx).isHashed := by
  have pos := cfg.ring_pos
  have started := ring.fetched_started idx fetched
  have marked := ring.marked fetched live
  obtain ⟨frame, hashCb⟩ := markRecDataConsumed_frame cfg idx state
  have shape := markRecDataConsumed_eq cfg idx state
  have ticks : (cfg.markRecDataConsumed idx state).ticks = if left state cfg idx = 0 ∧
      ¬ idx + cfg.ring < cfg.slices ∧ state.recCompleteCb ∧
        cfg.isRecoveryProcessed (cfg.markRecDataConsumed idx state).recDataRefcount then
      state.ticks + 1 else state.ticks := by rw [shape]
  rw [Config.release]
  generalize cfg.markRecDataConsumed idx state = middle at *
  have last : Frame state { middle with recDataHashCb := Function.update middle.recDataHashCb idx .done } :=
    frame.trans (by constructor <;> rfl)
  have hashed : State.isHashed { middle with recDataHashCb := Function.update middle.recDataHashCb idx .done } =
      Function.update state.isHashed idx true := isHashed_update (by rw [hashCb])
  have released := last.isReleased
  refine ⟨last, by rw [hashCb], ?_, ?_⟩
  · rw [hashed, released]
    exact marked.frame rfl rfl rfl rfl rfl fun _ => Iff.rfl
  · have open_ : ¬ ∀ other < cfg.slices, state.isHashed other := fun all =>
      Bool.false_ne_true (live.symm.trans (all idx started.1))
    have none := told.told
    rw [if_neg fun both => open_ both.2] at none
    rw [hashed]
    exact {
      emptied := fun waits => by
        have empty := told.emptied (last.waited.symm.trans waits)
        rw [Config.Emptied, last.ptr, last.held, last.delivering, last.fetchCb]
        exact empty
      asked := fun asks => last.waited.trans (told.asked (last.complete.symm.trans asks))
      open_ := fun waits _ => last.complete.trans (told.open_ (last.waited.symm.trans waits) open_)
      told := by
        dsimp only
        rw [ticks, frame.waited, frame.completions]
        by_cases waits : state.waited = true
        · have asks := told.open_ waits open_
          have all : ∀ other < cfg.slices, state.isReleased other := fun other below =>
            Emptied.isReleased (told.emptied waits) below
          -- the slice was the last one in its buffer
          have final : ¬ idx + cfg.ring < cfg.slices := by
            intro more
            have next := ring.fetched_started _ (ring.released_fetched _ (all _ more))
            have before := next.2.1.resolve_left (by omega)
            rw [Nat.add_sub_cancel, live] at before
            exact Bool.false_ne_true before.1
          have zero : left state cfg idx = 0 := by
            rw [left, ring.refcount idx started fun next => final next.1, live, all idx started.1]
            rfl
          have ends := marked.processed_iff all
          by_cases done : ∀ other < cfg.slices, Function.update state.isHashed idx true other
          · rw [if_pos ⟨zero, final, asks, ends.mpr done⟩, if_pos ⟨waits, done⟩]
            omega
          · rw [if_neg fun all => done (ends.mp all.2.2.2), if_neg fun both => done both.2]
            exact none
        · have silent : ¬ state.recCompleteCb = true := fun asks => waits (told.asked asks)
          rw [if_neg fun all => silent all.2.2.1, if_neg fun both => waits both.1]
          exact none }

/-- A hasher is done with its slices. -/
theorem foldl_release_spec (idxs : List ℕ) (nodup : idxs.Nodup)
    (fetched : ∀ idx ∈ idxs, state.recDataFetchCb idx = .done) (live : ∀ idx ∈ idxs, state.isHashed idx = false)
    (ring : Ring cfg state state.isHashed state.isReleased) (told : Told cfg state state.isHashed) :
    Frame state (idxs.foldl cfg.release state) ∧
      (idxs.foldl cfg.release state).recDataHashCb =
        (fun idx => if idx ∈ idxs then .done else state.recDataHashCb idx) ∧
      Ring cfg (idxs.foldl cfg.release state) (idxs.foldl cfg.release state).isHashed
        (idxs.foldl cfg.release state).isReleased ∧
      Told cfg (idxs.foldl cfg.release state) (idxs.foldl cfg.release state).isHashed := by
  induction idxs generalizing state with
  | nil => exact ⟨by constructor <;> rfl, by funext idx; rw [if_neg List.not_mem_nil]; rfl, ring, told⟩
  | cons first rest ih =>
    obtain ⟨absent, nodup⟩ := List.nodup_cons.mp nodup
    obtain ⟨frame, hashCb, ring', told'⟩ := release_spec ring told (fetched first List.mem_cons_self)
      (live first List.mem_cons_self)
    rw [List.foldl_cons]
    generalize cfg.release state first = next at *
    have open_ : ∀ idx ∈ rest, next.isHashed idx = false := by
      intro idx member
      have apart : idx ≠ first := fun equal => absent (equal ▸ member)
      rw [State.isHashed, hashCb, Function.update_of_ne apart]
      exact live idx (List.mem_cons_of_mem _ member)
    obtain ⟨frame', hashCb', spec⟩ := ih nodup
      (fun idx member => by rw [frame.fetchCb]; exact fetched idx (List.mem_cons_of_mem _ member)) open_ ring' told'
    refine ⟨frame.trans frame', ?_, spec⟩
    funext idx
    rw [hashCb', hashCb]
    dsimp only
    by_cases equal : idx = first
    · subst equal
      rw [if_neg absent, Function.update_self, if_pos List.mem_cons_self]
    · rw [Function.update_of_ne equal]
      exact if_congr (List.mem_cons.trans (or_iff_right equal)).symm rfl rfl

/-- An update ends. -/
theorem Sound.updated {hasher : ℕ} {bufs : List ℕ} (sound : Sound cfg state)
    (member : (hasher, bufs) ∈ state.updating) :
    Sound cfg (cfg.updated hasher bufs { state with updating := state.updating.erase (hasher, bufs) }) := by
  obtain ⟨places, start, fetched, unhashed⟩ := (sound.updating_iff hasher bufs).mp member
  have batch := cfg.hashBatchSize_pos
  have first : hasher * cfg.hashBatchSize / cfg.hashBatchSize = hasher := Nat.mul_div_cancel _ batch
  have live : ∀ idx ∈ cfg.group hasher, state.isHashed idx = false := by
    intro idx inside
    obtain ⟨below, same⟩ := cfg.mem_group.mp inside
    by_contra done
    exact unhashed (sound.whole idx below _ start (first.trans same.symm) (Bool.not_eq_false _ ▸ done))
  -- the hasher reads its own slices
  have own : ∀ idx ∈ cfg.group hasher,
      state.recData (bufs.getD (idx - hasher * cfg.hashBatchSize) 0) = some (state.chunk, idx) := by
    intro idx inside
    have range := inside
    rw [Config.group, List.mem_range'_1] at range
    have place : bufs.getD (idx - hasher * cfg.hashBatchSize) 0 = idx % cfg.ring := by
      rw [places, cfg.bufs_eq, Config.group, List.getD_eq_getElem?_getD, List.getElem?_map,
        List.getElem?_range' (by omega), Option.map_some, Option.getD_some]
      congr 1
      omega
    rw [place]
    exact sound.ring.contents idx (fetched idx inside) fun both => Bool.false_ne_true ((live idx inside).symm.trans both.1)
  rw [Config.updated]
  dsimp only
  generalize before : ({ state with
      updating := state.updating.erase (hasher, bufs)
      hashed := fun idx => if idx ∈ cfg.group hasher then
        state.hashed idx ++ [state.recData (bufs.getD (idx - hasher * cfg.hashBatchSize) 0)]
        else state.hashed idx } : State) = middle
  have hashedBefore : middle.isHashed = state.isHashed := by
    rw [← before]
    rfl
  have releasedBefore : middle.isReleased = state.isReleased := by
    rw [← before]
    rfl
  have fetchBefore : middle.recDataFetchCb = state.recDataFetchCb := by rw [← before]
  have ring : Ring cfg middle middle.isHashed middle.isReleased := by
    rw [hashedBefore, releasedBefore, ← before]
    exact sound.ring.frame rfl rfl rfl rfl rfl fun _ => Iff.rfl
  have told : Told cfg middle middle.isHashed := by
    rw [hashedBefore, ← before]
    exact ⟨sound.told.emptied, sound.told.asked, sound.told.open_, sound.told.told⟩
  obtain ⟨frame, hashCb, ring, told⟩ := foldl_release_spec (cfg.group hasher) List.nodup_range'
    (by rw [fetchBefore]; exact fetched) (by rw [hashedBefore]; exact live) ring told
  generalize (cfg.group hasher).foldl cfg.release middle = state' at *
  have fetchCb : state'.recDataFetchCb = state.recDataFetchCb := frame.fetchCb.trans fetchBefore
  have ptr : state'.recDataPtr = state.recDataPtr := by rw [frame.ptr, ← before]
  have delivering : state'.delivering = state.delivering := by rw [frame.delivering, ← before]
  have held : state'.held = state.held := by rw [frame.held, ← before]
  have updating : state'.updating = state.updating.erase (hasher, bufs) := by rw [frame.updating, ← before]
  have done : ∀ idx, state'.isHashed idx = (decide (idx ∈ cfg.group hasher) || state.isHashed idx) := by
    intro idx
    have marker : state'.recDataHashCb idx =
        if idx ∈ cfg.group hasher then .done else state.recDataHashCb idx := by rw [hashCb, ← before]
    by_cases inside : idx ∈ cfg.group hasher
    · rw [decide_eq_true inside, Bool.true_or]
      exact decide_eq_true (by rw [marker, if_pos inside])
    · rw [decide_eq_false inside, Bool.false_or]
      exact decide_eq_decide.mpr (by rw [marker, if_neg inside])
  exact {
    ring := ring
    ptr_le := ptr ▸ sound.ptr_le
    pieces := by rw [delivering, held]; exact sound.pieces
    pieces_spec := by rw [delivering, held, ptr, fetchCb]; exact sound.pieces_spec
    callback_iff := by rw [ptr, fetchCb]; exact sound.callback_iff
    whole := fun idx below other below' same hashed => by
      rw [done, Bool.or_eq_true, decide_eq_true_iff, cfg.mem_group] at hashed ⊢
      rcases hashed with inside | old
      · exact Or.inl ⟨below', same.trans inside.2⟩
      · exact Or.inr (sound.whole idx below other below' same old)
    needed := by
      rw [frame.needed, fetchCb, ← before]
      exact sound.needed
    updating_nodup := by
      rw [updating]
      exact sound.updating_nodup.erase _
    updating_iff := fun hasher' bufs' => by
      rw [updating, fetchCb, sound.updating_nodup.mem_erase_iff, sound.updating_iff, done, ne_eq, Prod.mk.injEq,
        Bool.or_eq_true, decide_eq_true_iff, cfg.mem_group, Nat.mul_div_cancel _ batch]
      constructor
      · rintro ⟨other, same, below, read, open_⟩
        refine ⟨same, below, read, fun cases => ?_⟩
        rcases cases with inside | old
        · exact other ⟨inside.2, by rw [same, places, inside.2]⟩
        · exact open_ old
      · rintro ⟨same, below, read, open_⟩
        exact ⟨fun both => open_ (Or.inl ⟨below, both.1⟩), same, below, read, fun old => open_ (Or.inr old)⟩
    history := fun idx below => by
      have chunk : state'.chunk = state.chunk := by rw [frame.chunk, ← before]
      have old := sound.history idx below
      rw [frame.hashed, chunk, done, ← before]
      dsimp only
      by_cases inside : idx ∈ cfg.group hasher
      · rw [live idx inside, if_neg Bool.false_ne_true, Nat.add_zero] at old
        rw [if_pos inside, decide_eq_true inside, Bool.true_or, if_pos rfl, own idx inside, List.range_succ,
          List.map_append, old]
        rfl
      · rw [if_neg inside, decide_eq_false inside, Bool.false_or]
        exact old
    told := told }

/-! ### Chunks -/

/-- All buffers are read into. -/
theorem foldl_fetchRecData (count : ℕ) (inside : count ≤ cfg.ring) (empty : state.recData = fun _ => none)
    (free : state.recDataRefcount = fun _ => 0) :
    (List.range count).foldl (fun state i => cfg.fetchRecData i state) state = { state with
      recDataRefcount := fun slot => if slot < count then 2 else 0
      reading := state.reading ++ List.range count } := by
  induction count with
  | zero =>
    rw [List.range_zero, List.foldl_nil, List.append_nil]
    simp only [Nat.not_lt_zero, if_false]
    rw [← free]
  | succ count ih =>
    rw [List.range_succ, List.foldl_append, ih (by omega), List.foldl_cons, List.foldl_nil,
      Config.fetchRecData]
    dsimp only
    rw [Nat.mod_eq_of_lt (by omega), List.append_assoc, empty]
    congr 1
    · funext slot
      rw [Function.update_apply]
      split
      · rfl
      · rfl
    · funext slot
      rw [Function.update_apply]
      split
      case isTrue equal => rw [if_pos (by omega)]
      case isFalse apart => exact if_congr (by omega) rfl rfl

/-- A chunk is read back, after the one before it has ended. -/
theorem pullRecData_sound (chunk : ℕ) (reading : state.reading = []) (updating : state.updating = [])
    (fetching : state.fetching = []) (delivering : state.delivering = []) (held : state.held = [])
    (ticks : state.ticks = 0)
    (history : ∀ idx < cfg.slices, state.hashed idx = (List.range chunk).map fun chunk => some (chunk, idx)) :
    Sound cfg (cfg.pullRecData state chunk) := by
  have few := cfg.ring_le
  have batch := cfg.hashBatchSize_pos
  rw [Config.pullRecData, foldl_fetchRecData _ (Nat.le_refl _) rfl rfl]
  dsimp only
  rw [reading, List.nil_append]
  generalize after : State.mk _ _ _ _ _ _ _ _ _ _ _ _ _ _ _ _ _ = state'
  have unhashed : ∀ idx, state'.isHashed idx = false := by
    intro idx
    rw [← after]
    rfl
  have unreleased : ∀ idx, state'.isReleased idx = false := by
    intro idx
    rw [← after]
    exact decide_eq_false fun all => absurd all.1 (Nat.not_lt_zero _)
  have started : ∀ idx, Started cfg state' state'.isHashed state'.isReleased idx ↔ idx < cfg.ring := by
    intro idx
    have none : state'.fetching = [] := by
      rw [← after]
      exact fetching
    rw [Started, unhashed, none]
    exact ⟨fun all => all.2.1.resolve_right fun both => Bool.false_ne_true both.1,
      fun first => ⟨by omega, Or.inl first, List.not_mem_nil⟩⟩
  have unfetched : ∀ idx, state'.recDataFetchCb idx = .unset := by
    intro idx
    rw [← after]
  exact {
    ring := {
      fetching_nodup := by
        rw [← after]
        exact fetching ▸ List.nodup_nil
      fetching_spec := fun idx member => by
        rw [← after] at member
        rw [show _ = [] from fetching] at member
        cases member
      reading_nodup := by
        rw [← after]
        exact List.nodup_range
      reading_iff := fun idx => by
        rw [started, unfetched, ← after]
        exact List.mem_range.trans ⟨fun inside => ⟨inside, by decide⟩, And.left⟩
      fetched_started := fun idx gone => absurd ((unfetched idx).symm.trans gone) (by decide)
      hashed_fetched := fun idx done => absurd ((unhashed idx).symm.trans done) Bool.false_ne_true
      released_fetched := fun idx done => absurd ((unreleased idx).symm.trans done) Bool.false_ne_true
      refcount := fun idx began _ => by
        have inside := (started idx).mp began
        rw [unhashed, unreleased, ← after]
        dsimp only
        rw [Nat.mod_eq_of_lt inside, if_pos inside]
        rfl
      contents := fun idx gone => absurd ((unfetched idx).symm.trans gone) (by decide) }
    ptr_le := by
      rw [← after]
      exact Nat.zero_le _
    pieces := by
      rw [← after]
      dsimp only
      rw [delivering, held]
      exact List.nodup_nil
    pieces_spec := fun idx member => by
      rw [← after] at member
      dsimp only at member
      rw [delivering, held] at member
      cases member
    callback_iff := fun idx => by
      rw [unfetched, ← after]
      exact ⟨fun wrong => absurd wrong (by decide), fun both => absurd both.1 (Nat.not_lt_zero _)⟩
    whole := fun idx _ other _ _ done => absurd ((unhashed idx).symm.trans done) Bool.false_ne_true
    needed := fun hasher => by
      have all : (cfg.group hasher).countP (fun idx => state'.recDataFetchCb idx ≠ .done) =
          (cfg.group hasher).length :=
        List.countP_eq_length.mpr fun idx _ => decide_eq_true (by rw [unfetched]; decide)
      rw [all, Config.group, List.length_range', ← after]
    updating_nodup := by
      rw [← after]
      exact updating ▸ List.nodup_nil
    updating_iff := fun hasher bufs => by
      have none : state'.updating = [] := by
        rw [← after]
        exact updating
      rw [none]
      refine ⟨fun member => absurd member List.not_mem_nil, fun all => ?_⟩
      have first : hasher * cfg.hashBatchSize ∈ cfg.group hasher :=
        cfg.mem_group.mpr ⟨all.2.1, Nat.mul_div_cancel _ batch⟩
      exact absurd ((unfetched _).symm.trans (all.2.2.1 _ first)) (by decide)
    history := fun idx below => by
      rw [unhashed, if_neg Bool.false_ne_true, Nat.add_zero, ← after]
      exact history idx below
    told := {
      emptied := fun waits => by
        rw [← after] at waits
        exact absurd waits Bool.false_ne_true
      asked := fun asks => by
        rw [← after] at asks
        exact absurd asks Bool.false_ne_true
      open_ := fun waits => by
        rw [← after] at waits
        exact absurd waits Bool.false_ne_true
      told := by
        rw [← after]
        exact (congrArg (· + 0) ticks).trans (if_neg fun both => Bool.false_ne_true both.1).symm } }

theorem start_sound (cfg : Config) : Sound cfg cfg.start :=
  pullRecData_sound 0 rfl rfl rfl rfl rfl rfl fun _ _ => rfl

/-- When the end is told, everything was hashed and released, and nothing is under way. -/
theorem Sound.ended (sound : Sound cfg state) (heard : 0 < state.ticks + state.completions) :
    state.waited = true ∧ (∀ idx < cfg.slices, state.isHashed idx) ∧ state.reading = [] ∧ state.updating = [] ∧
      state.fetching = [] := by
  have both : state.waited = true ∧ ∀ idx < cfg.slices, state.isHashed idx := by
    by_contra not_
    have none := sound.told.told
    rw [if_neg not_] at none
    omega
  have fetched : ∀ idx < cfg.slices, state.recDataFetchCb idx = .done := (sound.told.emptied both.1).2.2.2
  refine ⟨both.1, both.2, List.eq_nil_iff_forall_not_mem.mpr fun idx member => ?_,
    List.eq_nil_iff_forall_not_mem.mpr fun update member => ?_, List.eq_nil_iff_forall_not_mem.mpr fun idx member => ?_⟩
  · obtain ⟨started, unfetched⟩ := (sound.ring.reading_iff idx).mp member
    exact unfetched (fetched idx started.1)
  · have all := (sound.updating_iff update.1 update.2).mp member
    exact all.2.2.2 (both.2 _ all.2.1)
  · obtain ⟨below, -, -, unfetched⟩ := sound.ring.fetching_spec idx member
    exact unfetched (fetched idx below)

/-- Every step keeps what holds. -/
theorem step_sound (state : State) (action : Action) (next : State) (sound : Sound cfg state)
    (taken : cfg.step state action = some next) : Sound cfg next := by
  cases action with
  | received idx =>
    obtain ⟨member, same⟩ := Option.ite_none_right_eq_some.mp taken
    obtain rfl := Option.some.inj same
    exact sound.received member
  | updated hasher bufs =>
    obtain ⟨member, same⟩ := Option.ite_none_right_eq_some.mp taken
    obtain rfl := Option.some.inj same
    exact sound.updated member
  | fetch idx =>
    obtain ⟨member, same⟩ := Option.ite_none_right_eq_some.mp taken
    obtain rfl := Option.some.inj same
    exact sound.fetch member
  | deliver idx =>
    obtain ⟨member, same⟩ := Option.ite_none_right_eq_some.mp taken
    obtain rfl := Option.some.inj same
    exact sound.deliver member
  | next => exact sound.next taken
  | release idx =>
    obtain ⟨member, same⟩ := Option.ite_none_right_eq_some.mp taken
    obtain rfl := Option.some.inj same
    exact sound.release member
  | wait =>
    obtain ⟨⟨empty, busy⟩, same⟩ := Option.ite_none_right_eq_some.mp taken
    obtain rfl := Option.some.inj same
    exact sound.wait empty busy
  | tick =>
    obtain ⟨some, same⟩ := Option.ite_none_right_eq_some.mp taken
    obtain rfl := Option.some.inj same
    exact sound.tick some
  | pull =>
    obtain ⟨heard, same⟩ := Option.ite_none_right_eq_some.mp taken
    obtain rfl := Option.some.inj same
    obtain ⟨waited, hashed, reading, updating, fetching⟩ := sound.ended (by omega)
    obtain ⟨-, held, delivering, -⟩ := sound.told.emptied waited
    have one := sound.told.told
    rw [if_pos ⟨waited, hashed⟩] at one
    refine pullRecData_sound _ reading updating fetching delivering held (by omega) fun idx below => ?_
    rw [sound.history idx below, if_pos (hashed idx below)]

/-! ## Every run -/

/-- Whoever uses a buffer finds its slice there, a buffer is read into only when both parties are done with all
slices that it had before, and each hasher was given its slices in order, one piece for every chunk. -/
structure Intact (cfg : Config) (state : State) : Prop where
  pieces : ∀ idx ∈ state.delivering ++ state.held, state.recData (idx % cfg.ring) = some (state.chunk, idx)
  updates : ∀ hasher bufs, (hasher, bufs) ∈ state.updating →
    bufs.map state.recData = (cfg.group hasher).map fun idx => some (state.chunk, idx)
  reads : ∀ idx ∈ state.reading, ∀ other < idx, other % cfg.ring = idx % cfg.ring →
    state.isHashed other ∧ state.isReleased other
  history : ∀ idx < cfg.slices, state.hashed idx =
    (List.range (state.chunk + if state.isHashed idx then 1 else 0)).map fun chunk => some (chunk, idx)

/-- Nothing but the consumer can act. -/
def Idle (state : State) : Prop :=
  state.reading = [] ∧ state.updating = [] ∧ state.fetching = [] ∧ state.delivering = []

/-- Where nothing is under way and a slice is not done with, the consumer holds a piece or the next one is there.
The end is told at most once, when both parties are done with everything, and it is told to a consumer that waits. -/
structure Live (cfg : Config) (state : State) : Prop where
  consumer : Idle state → (∃ idx < cfg.slices, ¬ (state.isHashed idx ∧ state.isReleased idx)) →
    state.held ≠ [] ∨ state.recDataPtr < cfg.slices ∧ state.recDataFetchCb state.recDataPtr = .done
  once : state.ticks + state.completions ≤ 1
  ended : 0 < state.ticks + state.completions → ∀ idx < cfg.slices, state.isHashed idx ∧ state.isReleased idx
  heard : Idle state → state.waited = true → state.ticks + state.completions = 1

theorem Sound.intact (sound : Sound cfg state) : Intact cfg state := {
  pieces := fun idx member => by
    have fetched := (sound.pieces_spec idx member).2
    refine sound.ring.contents idx fetched fun both => ?_
    rcases List.mem_append.mp member with piece | piece
    · exact (of_decide_eq_true both.2).2.2.1 piece
    · exact (of_decide_eq_true both.2).2.2.2 piece
  updates := fun hasher bufs member => by
    obtain ⟨places, start, fetched, unhashed⟩ := (sound.updating_iff hasher bufs).mp member
    rw [places, cfg.bufs_eq, List.map_map]
    refine List.map_congr_left fun idx inside => ?_
    obtain ⟨below, same⟩ := cfg.mem_group.mp inside
    refine sound.ring.contents idx (fetched idx inside) fun both => unhashed ?_
    exact sound.whole idx below _ start (by rw [Nat.mul_div_cancel _ cfg.hashBatchSize_pos, same]) both.1
  reads := fun idx member other less slot =>
    sound.ring.consumed_below ((sound.ring.reading_iff idx).mp member).1 less slot
  history := sound.history }

/-- The least slice that is not done with was read and hashed, with its whole group. -/
theorem Sound.waits_for_consumer (sound : Sound cfg state) (idle : Idle state)
    (left : ∃ idx < cfg.slices, ¬ (state.isHashed idx ∧ state.isReleased idx)) :
    state.held ≠ [] ∨ state.recDataPtr < cfg.slices ∧ state.recDataFetchCb state.recDataPtr = .done := by
  obtain ⟨noRead, noUpdate, noFetch, noDelivery⟩ := idle
  have batch := cfg.hashBatchSize_pos
  have pos := cfg.ring_pos
  obtain ⟨below, open_⟩ := Nat.find_spec left
  have before : ∀ other < Nat.find left, state.isHashed other ∧ state.isReleased other := by
    intro other less
    by_contra live
    exact Nat.find_min left less ⟨by omega, live⟩
  generalize Nat.find left = idx at below open_ before
  have fetched : ∀ other < cfg.slices, other < cfg.ring ∨ other - cfg.ring < idx →
      state.recDataFetchCb other = .done := by
    intro other inside early
    by_contra unfetched
    have started : Started cfg state state.isHashed state.isReleased other :=
      ⟨inside, early.imp_right (before _), by rw [noFetch]; exact List.not_mem_nil⟩
    have reads := (sound.ring.reading_iff other).mpr ⟨started, unfetched⟩
    rw [noRead] at reads
    exact List.not_mem_nil reads
  have own := fetched idx below (by omega)
  have first := Nat.div_mul_le_self idx cfg.hashBatchSize
  have hashed : state.isHashed idx := by
    by_contra unhashed
    have update : (idx / cfg.hashBatchSize, cfg.bufs (idx / cfg.hashBatchSize)) ∈ state.updating := by
      refine (sound.updating_iff _ _).mpr ⟨rfl, by omega, fun other inside => ?_, fun done => unhashed ?_⟩
      · have few := cfg.numBufs_le (idx / cfg.hashBatchSize)
        have range := inside
        rw [Config.group, List.mem_range'_1] at range
        exact fetched other (cfg.mem_group.mp inside).1 (by omega)
      · exact sound.whole _ (by omega) idx below (by rw [Nat.mul_div_cancel _ batch]) done
    rw [noUpdate] at update
    exact List.not_mem_nil update
  by_cases asked : idx < state.recDataPtr
  · refine Or.inl fun none => open_ ⟨hashed, decide_eq_true ⟨asked, own, ?_, ?_⟩⟩
    · rw [noDelivery]
      exact List.not_mem_nil
    · rw [none]
      exact List.not_mem_nil
  · have next : state.recDataPtr = idx := by
      by_contra apart
      exact absurd (of_decide_eq_true (before state.recDataPtr (by omega)).2).1 (Nat.lt_irrefl _)
    rw [next]
    exact Or.inr ⟨below, own⟩

theorem Sound.live (sound : Sound cfg state) : Live cfg state := {
  consumer := sound.waits_for_consumer
  once := by
    rw [sound.told.told]
    split
    · exact Nat.le_refl _
    · exact Nat.zero_le _
  ended := fun heard idx below => by
    obtain ⟨waited, hashed, -⟩ := sound.ended heard
    exact ⟨hashed idx below, Emptied.isReleased (sound.told.emptied waited) below⟩
  heard := fun idle waits => by
    rw [sound.told.told, if_pos]
    refine ⟨waits, fun idx below => ?_⟩
    have empty := sound.told.emptied waits
    by_contra open_
    rcases sound.waits_for_consumer idle ⟨idx, below, fun both => open_ both.1⟩ with holds | asks
    · exact holds empty.2.1
    · exact absurd (empty.1 ▸ asks.1) (Nat.lt_irrefl _) }

/-- In every state of every run the buffers are intact, whatever the order of the events. -/
theorem recData_intact (cfg : Config) (actions : List Action) :
    Machine.Throughout cfg.step (Intact cfg) cfg.start actions :=
  (Machine.throughout_of_step step_sound (start_sound cfg) actions).imp fun _ sound => sound.intact

/-- No state of any run is stuck before everything was hashed and released, and the end is told once. -/
theorem recData_live (cfg : Config) (actions : List Action) :
    Machine.Throughout cfg.step (Live cfg) cfg.start actions :=
  (Machine.throughout_of_step step_sound (start_sound cfg) actions).imp fun _ sound => sound.live

example : (Machine.run (Config.step ⟨3, 2, 2, by decide⟩) (Config.start ⟨3, 2, 2, by decide⟩)
    [.received 1, .received 0, .updated 0 [0, 1], .next, .deliver 0, .release 0, .fetch 2, .next, .deliver 1, .next,
      .received 2, .release 2, .updated 1 [0], .release 1, .wait, .tick, .pull]).isSome = true := by decide

end RecoveryRing

end Par3

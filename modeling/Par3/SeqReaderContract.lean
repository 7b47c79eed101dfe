import Mathlib.Data.List.Perm.Basic
import Mathlib.Data.List.Nodup
import Par3.FileSeqReader

/-!
# A buffer comes back before it is read into again

A buffer is in the pool, with the request in flight, or with a piece that the consumer holds; a file
is unopened, being opened, open, being closed or closed. When nothing is in flight, some piece is
still held or everything is done, so that the consumer's last call starts the reader again.
-/
namespace Par3

namespace SeqConfig

/-- The buffer of a request -/
def bufsOf : Option SeqRequest → List ReadBuffer
  | some (.opening _ buffer) => [buffer]
  | some (.reading _ buffer _ _) => [buffer]
  | _ => []

/-- The file that a request opens -/
def unopened : Option SeqRequest → List ℕ
  | some (.opening file _) => [file]
  | _ => []

/-- The file that a request closes -/
def unclosed : Option SeqRequest → List ℕ
  | some (.closing file) => [file]
  | _ => []

/-- The file that was read from last -/
def active : Option SeqRequest → List ℕ
  | some (.reading file _ _ _) => [file]
  | some (.calling file _) => [file]
  | _ => []

/-- The file whose last piece the consumer is being given -/
def drained : Option SeqRequest → List ℕ
  | some (.calling file true) => [file]
  | _ => []

/-- What the consumer was given of a file. -/
def delivered (given : List SeqPiece) (file : ℕ) : Buffer :=
  (given.filter fun piece => decide (piece.file = file)).flatMap SeqPiece.bytes

/-- The pieces of a file that are not hashed yet. -/
def unhashed (held : List FileReaderData) (file : ℕ) : ℕ :=
  held.countP fun data => decide (data.file = file) && !data.hashed

variable (cfg : SeqConfig)

/-- The live buffers, in any order. -/
structure Pool (live : List ReadBuffer) (bufCount allocated : ℕ) : Prop where
  count : bufCount = live.length
  bounded : bufCount ≤ cfg.maxBufs
  distinct : (live.map ReadBuffer.name).Nodup
  below : ∀ buffer ∈ live, buffer.name < allocated

/-- What holds also while `readNext` has a buffer in hand. -/
structure Base (hand : List ReadBuffer) (state : SeqState) : Prop where
  pool : ∃ lost, (lost ≠ [] → state.errors ≠ 0) ∧
    cfg.Pool (state.buf ++ (hand ++ bufsOf state.request ++
      state.held.map FileReaderData.buffer ++ lost)) state.bufCount state.allocated
  files : ∃ lost, (lost ≠ [] → state.errors ≠ 0) ∧
    (state.fileQueue ++ unopened state.request ++ state.openFiles ++ unclosed state.request ++
      state.closed ++ lost).Perm cfg.nonempty
  fresh : ∀ file ∈ state.fileQueue ++ unopened state.request,
    state.pos file = 0 ∧ state.hashQueue file = 0
  active : ∀ file ∈ active state.request, file ∈ state.openFiles
  ended : ∀ file ∈ drained state.request ++ unclosed state.request ++ state.closed,
    state.pos file = (cfg.file file).size
  given : ∀ file, delivered state.given file = (cfg.file file).content.take (state.pos file)
  queued : ∀ file, state.hashQueue file = unhashed state.held file
  refs : ∀ data ∈ state.held, (data.refs = 2 ∧ data.hashed = false ∧ data.released = false) ∨
    (data.refs = 1 ∧ data.hashed = !data.released)

/-- Everything is read, and everything is back. -/
structure Complete (state : SeqState) : Prop where
  once : state.finishes = 1
  request : state.request = none
  errors : state.errors = 0
  openFiles : state.openFiles = []
  fileQueue : state.fileQueue = []
  held : state.held = []
  back : state.buf.length = state.bufCount

structure Sound (state : SeqState) : Prop extends cfg.Base [] state where
  reading : state.isReading = true ↔ state.request ≠ none ∨ state.errors ≠ 0
  failed : state.errors ≠ 0 → state.request = none
  idle : state.isReading = false → state.finishes = 0 → state.held ≠ []
  finish : state.finishes = 0 ∨ Complete state

variable {cfg}

/-! ## Buffers -/

theorem Pool.perm {live other : List ReadBuffer} {bufCount allocated : ℕ}
    (pool : cfg.Pool live bufCount allocated) (same : other.Perm live) :
    cfg.Pool other bufCount allocated :=
  ⟨pool.count.trans same.length_eq.symm, pool.bounded, (same.map _).nodup_iff.mpr pool.distinct,
    fun buffer member => pool.below buffer (same.mem_iff.mp member)⟩

theorem Pool.drop {first : ReadBuffer} {live : List ReadBuffer} {bufCount allocated : ℕ}
    (pool : cfg.Pool (first :: live) bufCount allocated) :
    cfg.Pool live (bufCount - 1) allocated := by
  have count := pool.count
  have bounded := pool.bounded
  rw [List.length_cons] at count
  exact ⟨by omega, by omega, (List.nodup_cons.mp pool.distinct).2,
    fun buffer member => pool.below buffer (List.mem_cons_of_mem _ member)⟩

/-- A new buffer has a name of its own. -/
theorem Pool.alloc {live : List ReadBuffer} {bufCount allocated : ℕ}
    (pool : cfg.Pool live bufCount allocated) (room : bufCount < cfg.maxBufs) :
    cfg.Pool (⟨allocated, cfg.readSize⟩ :: live) (bufCount + 1) (allocated + 1) := by
  refine ⟨by rw [List.length_cons, ← pool.count], room, ?_, fun buffer member => ?_⟩
  · rw [List.map_cons, List.nodup_cons]
    refine ⟨fun member => ?_, pool.distinct⟩
    obtain ⟨buffer, live, same⟩ := List.mem_map.mp member
    exact absurd (pool.below buffer live) (by rw [same]; exact lt_irrefl _)
  · rcases List.mem_cons.mp member with rfl | old
    · exact Nat.lt_succ_self _
    · exact Nat.lt_succ_of_lt (pool.below buffer old)

theorem popLarge_pool {out buf rest : List ReadBuffer} {bufCount allocated left : ℕ}
    {found : Option ReadBuffer} (pool : cfg.Pool (buf ++ out) bufCount allocated)
    (popped : cfg.popLarge buf bufCount = (found, rest, left)) :
    cfg.Pool (found.toList ++ (rest ++ out)) left allocated ∧ (found = none → rest = []) := by
  induction buf generalizing bufCount with
  | nil =>
    rw [popLarge] at popped
    cases popped
    exact ⟨pool, fun _ => rfl⟩
  | cons first buf ih =>
    rw [popLarge] at popped
    split at popped
    case isTrue =>
      cases popped
      exact ⟨pool, fun none => by cases none⟩
    case isFalse => exact ih pool.drop popped

theorem getBuf_pool {state after : SeqState} {found : Option ReadBuffer} {out : List ReadBuffer}
    (pool : cfg.Pool (state.buf ++ out) state.bufCount state.allocated)
    (taken : cfg.getBuf state = (found, after)) : ∃ buf bufCount allocated,
      after = { state with buf := buf, bufCount := bufCount, allocated := allocated } ∧
        cfg.Pool (found.toList ++ (buf ++ out)) bufCount allocated ∧
          (found = none → buf = [] ∧ cfg.maxBufs ≤ bufCount) := by
  rw [getBuf] at taken
  split at taken
  case h_1 buffer buf left popped =>
    obtain ⟨rfl, rfl⟩ := Prod.mk.inj taken
    exact ⟨buf, left, state.allocated, rfl, (popLarge_pool pool popped).1,
      fun none => by cases none⟩
  case h_2 buf left popped =>
    obtain ⟨smaller, empty⟩ := popLarge_pool pool popped
    split at taken
    case isTrue room =>
      obtain ⟨rfl, rfl⟩ := Prod.mk.inj taken
      exact ⟨buf, left + 1, state.allocated + 1, rfl, smaller.alloc room,
        fun none => by cases none⟩
    case isFalse full =>
      obtain ⟨rfl, rfl⟩ := Prod.mk.inj taken
      exact ⟨buf, left, state.allocated, rfl, smaller, fun _ => ⟨empty rfl, by omega⟩⟩

/-! ## The next request -/

/-- The order of the open files does not matter. -/
theorem Base.reorder {hand : List ReadBuffer} {state : SeqState} {openFiles : List ℕ}
    (base : cfg.Base hand state) (same : openFiles.Perm state.openFiles) :
    cfg.Base hand { state with openFiles := openFiles } := by
  obtain ⟨lost, failure, files⟩ := base.files
  refine ⟨base.pool, ⟨lost, failure, ?_⟩, base.fresh,
    fun file member => same.mem_iff.mpr (base.active file member), base.ended, base.given,
    base.queued, base.refs⟩
  refine List.Perm.trans ?_ files
  simp only [List.append_assoc]
  exact ((same.append_right _).append_left _).append_left _

/-- Nothing is in flight, nothing has failed, and nothing is finished. -/
structure Quiet (state : SeqState) : Prop where
  request : state.request = none
  errors : state.errors = 0
  finishes : state.finishes = 0

theorem doRead_sound {state : SeqState} {file : ℕ} {buffer : ReadBuffer}
    (base : cfg.Base [buffer] state) (quiet : Quiet state) (reading : state.isReading = true)
    (opened : file ∈ state.openFiles) : cfg.Sound (cfg.doRead state file buffer) := by
  obtain ⟨pool, files, fresh, -, ended, given, queued, refs⟩ := base
  simp only [quiet.request, bufsOf, unopened, unclosed, drained, List.append_nil,
    List.nil_append] at pool files fresh ended
  refine ⟨⟨?_, ?_, ?_, ?_, ?_, given, queued, refs⟩, ?_, fun failed => absurd quiet.errors failed,
    fun stopped => ?_, Or.inl quiet.finishes⟩
  · simpa only [doRead, bufsOf, List.nil_append] using pool
  · simpa only [doRead, unopened, unclosed, List.append_nil] using files
  · simpa only [doRead, unopened, List.append_nil] using fresh
  · intro other member
    obtain rfl : other = file := by simpa [doRead, active] using member
    exact opened
  · simpa only [doRead, drained, unclosed, List.nil_append] using ended
  · simp [doRead, reading]
  · rw [show (cfg.doRead state file buffer).isReading = true from reading] at stopped
    cases stopped

theorem shortest_index (hashQueue : ℕ → ℕ) (files : List ℕ) (index : ℕ) (best : ℕ × ℕ) :
    (shortest hashQueue files index best).2 = best.2 ∨
      (shortest hashQueue files index best).2 < index + files.length := by
  induction files generalizing index best with
  | nil => exact Or.inl rfl
  | cons file files ih =>
    rw [shortest, List.length_cons]
    rcases ih (index + 1)
      (if hashQueue file < best.1 then (hashQueue file, index) else best) with same | less
    · split at same
      case isTrue shorter =>
        rw [if_pos shorter, same]
        exact Or.inr (by dsimp only; omega)
      case isFalse longer =>
        rw [if_neg longer, same]
        exact Or.inl rfl
    · exact Or.inr (by omega)

theorem readIndex_sound {state : SeqState} {index : ℕ} {buffer : ReadBuffer}
    (base : cfg.Base [buffer] state) (quiet : Quiet state) (reading : state.isReading = true)
    (inside : index < state.openFiles.length) : cfg.Sound (cfg.readIndex state index buffer) := by
  rw [readIndex, List.getElem?_eq_getElem inside]
  exact doRead_sound (base.reorder (List.getElem_cons_eraseIdx_perm inside))
    ⟨quiet.request, quiet.errors, quiet.finishes⟩ reading List.mem_cons_self

theorem readOther_sound {state : SeqState} {buffer : ReadBuffer}
    (base : cfg.Base [buffer] state) (quiet : Quiet state) (reading : state.isReading = true)
    (limit : 0 < cfg.maxQueuePerFile)
    (full : ∀ file ∈ state.openFiles.head?, cfg.maxQueuePerFile ≤ state.hashQueue file) :
    cfg.Sound (cfg.readOther state buffer) := by
  have inside : 0 < (shortest state.hashQueue state.openFiles.tail 1
      (cfg.maxQueuePerFile, 0)).2 → (shortest state.hashQueue state.openFiles.tail 1
        (cfg.maxQueuePerFile, 0)).2 < state.openFiles.length := by
    intro positive
    have bound := shortest_index state.hashQueue state.openFiles.tail 1 (cfg.maxQueuePerFile, 0)
    rw [List.length_tail] at bound
    cases same : state.openFiles with
    | nil => simp [same, shortest] at positive
    | cons first rest =>
      rw [same] at bound positive
      simp only [List.length_cons, List.tail_cons] at bound positive ⊢
      omega
  rw [readOther]
  dsimp only
  split
  case isTrue free => exact readIndex_sound base quiet reading (inside free.1)
  case isFalse =>
    split
    case h_1 file fileQueue more =>
      obtain ⟨pool, files, fresh, -, ended, given, queued, refs⟩ := base
      simp only [quiet.request, more, bufsOf, unopened, unclosed, drained, List.append_nil,
        List.nil_append] at pool files fresh ended
      refine ⟨⟨?_, ?_, ?_, ?_, ?_, given, queued, refs⟩, ?_,
        fun failed => absurd quiet.errors failed, fun stopped => ?_, Or.inl quiet.finishes⟩
      · simpa only [bufsOf, List.nil_append] using pool
      · obtain ⟨lost, failure, files⟩ := files
        refine ⟨lost, failure, List.Perm.trans ?_ files⟩
        simp only [unopened, unclosed, List.append_nil]
        exact (((List.perm_append_singleton file fileQueue).append_right _).append_right _).append_right _
      · intro other member
        apply fresh
        simpa [unopened, or_comm] using member
      · intro other member
        cases member
      · simpa only [drained, unclosed, List.nil_append] using ended
      · simp [reading]
      · rw [reading] at stopped
        cases stopped
    case h_2 none =>
      split
      case isTrue positive => exact readIndex_sound base quiet reading (inside positive)
      case isFalse =>
        have heldOfOpen : state.openFiles ≠ [] → state.held ≠ [] := by
          intro opened held
          obtain ⟨first, rest, same⟩ := List.exists_cons_of_ne_nil opened
          have busy := full first (by rw [same]; rfl)
          rw [base.queued, held, unhashed, List.countP_nil] at busy
          omega
        obtain ⟨pool, files, fresh, active, ended, given, queued, refs⟩ := base
        obtain ⟨lost, failure, pool⟩ := pool
        have lost : lost = [] := by
          by_contra some
          exact failure some quiet.errors
        simp only [quiet.request, lost, bufsOf, List.append_nil] at pool
        have count := pool.count
        simp only [List.length_append, List.length_singleton, List.length_map] at count
        have back : cfg.Pool ((buffer :: state.buf) ++ ([] ++ bufsOf state.request ++
            state.held.map FileReaderData.buffer ++ [])) state.bufCount state.allocated := by
          refine pool.perm ?_
          simp only [quiet.request, bufsOf, List.append_nil, List.nil_append, List.cons_append]
          exact List.perm_middle.symm
        split
        case isTrue done =>
          obtain ⟨closed, all⟩ := done
          rw [List.length_cons] at all
          have held : state.held = [] := List.eq_nil_of_length_eq_zero (by omega)
          refine ⟨⟨⟨[], fun some => absurd rfl some, back⟩, files, fresh, active, ended, given, queued,
            refs⟩, ?_, fun failed => absurd quiet.errors failed, fun _ finished => ?_,
            Or.inr ⟨?_, quiet.request, quiet.errors, List.eq_nil_of_length_eq_zero closed, none,
              held, all⟩⟩
          · simp [quiet.request, quiet.errors]
          · exact absurd finished (Nat.succ_ne_zero _)
          · exact congrArg (· + 1) quiet.finishes
        case isFalse undone =>
          refine ⟨⟨⟨[], fun some => absurd rfl some, back⟩, files, fresh, active, ended, given, queued,
            refs⟩, ?_, fun failed => absurd quiet.errors failed, fun _ _ held => ?_,
            Or.inl quiet.finishes⟩
          · simp [quiet.request, quiet.errors]
          · have held : state.held = [] := held
            have closed : state.openFiles = [] := by
              by_contra opened
              exact heldOfOpen opened held
            rw [held, List.length_nil] at count
            exact undone ⟨by rw [closed]; rfl, by rw [List.length_cons]; omega⟩

theorem readNext_sound {state : SeqState} (base : cfg.Base [] state) (quiet : Quiet state)
    (room : 0 < cfg.maxBufs) (limit : 0 < cfg.maxQueuePerFile) :
    cfg.Sound (cfg.readNext state) := by
  obtain ⟨pool, files, fresh, active, ended, given, queued, refs⟩ := base
  obtain ⟨lost, failure, pool⟩ := pool
  have lost : lost = [] := by
    by_contra some
    exact failure some quiet.errors
  rw [readNext]
  split
  case h_1 after taken =>
    obtain ⟨buf, bufCount, allocated, rfl, pool, full⟩ := getBuf_pool pool taken
    obtain ⟨rfl, full⟩ := full rfl
    refine ⟨⟨⟨[], fun some => absurd rfl some, ?_⟩, files, fresh, active, ended, given, queued, refs⟩,
      ?_, fun failed => absurd quiet.errors failed, fun _ _ held => ?_, Or.inl quiet.finishes⟩
    · simpa only [Option.toList_none, List.nil_append, lost, List.append_nil] using pool
    · simp [quiet.request, quiet.errors]
    · have held : state.held = [] := held
      have count := pool.count
      simp only [Option.toList_none, quiet.request, bufsOf, held, lost, List.map_nil,
        List.append_nil, List.length_nil] at count
      omega
  case h_2 buffer after taken =>
    obtain ⟨buf, bufCount, allocated, rfl, pool, -⟩ := getBuf_pool pool taken
    have base : cfg.Base [buffer] { state with
        buf := buf, bufCount := bufCount, allocated := allocated, isReading := true } := by
      refine ⟨⟨[], fun some => absurd rfl some, pool.perm ?_⟩, files, fresh, active, ended, given,
        queued, refs⟩
      simp only [quiet.request, bufsOf, lost, Option.toList_some, List.append_nil, List.nil_append,
        List.cons_append]
      exact List.perm_middle
    have quiet : Quiet { state with
        buf := buf, bufCount := bufCount, allocated := allocated, isReading := true } :=
      ⟨quiet.request, quiet.errors, quiet.finishes⟩
    dsimp only
    split
    case h_1 file rest opened =>
      split
      case isTrue => exact doRead_sound base quiet rfl (opened ▸ List.mem_cons_self)
      case isFalse full =>
        refine readOther_sound base quiet rfl limit fun other first => ?_
        rw [opened] at first
        obtain rfl : file = other := by simpa using first
        exact Nat.le_of_not_lt full
    case h_2 none =>
      refine readOther_sound base quiet rfl limit fun other first => ?_
      rw [none] at first
      cases first

/-! ## One event -/

/-- While something is in flight, nothing has failed and nothing is finished. -/
theorem Sound.busy {state : SeqState} (sound : cfg.Sound state) {request : SeqRequest}
    (flies : state.request = some request) :
    state.isReading = true ∧ state.errors = 0 ∧ state.finishes = 0 := by
  have flight : state.request ≠ none := by
    rw [flies]
    exact Option.some_ne_none _
  refine ⟨sound.reading.mpr (Or.inl flight), ?_, ?_⟩
  · by_contra failed
    exact flight (sound.failed failed)
  · rcases sound.finish with going | complete
    · exact going
    · exact absurd complete.request flight

theorem fail_sound {state : SeqState} (sound : cfg.Sound state) {request : SeqRequest}
    (flies : state.request = some request) : cfg.Sound (fail state) := by
  obtain ⟨reading, fine, going⟩ := sound.busy flies
  obtain ⟨pool, files, fresh, active, ended, given, queued, refs⟩ := sound.toBase
  have failed : (fail state).errors ≠ 0 := Nat.succ_ne_zero _
  refine ⟨⟨?_, ?_, ?_, ?_, ?_, given, queued, refs⟩, ?_, fun _ => rfl, fun stopped => ?_,
    Or.inl going⟩
  · obtain ⟨lost, -, pool⟩ := pool
    refine ⟨bufsOf state.request ++ lost, fun _ => failed, pool.perm ?_⟩
    simp only [fail, bufsOf, List.append_nil, List.nil_append]
    refine List.Perm.append_left _ ?_
    rw [← List.append_assoc]
    exact List.perm_append_comm.append_right _
  · obtain ⟨lost, -, files⟩ := files
    refine ⟨unopened state.request ++ unclosed state.request ++ lost, fun _ => failed,
      List.perm_iff_count.mpr fun file => ?_⟩
    have count := List.perm_iff_count.mp files file
    simp only [fail, unopened, unclosed, List.append_nil, List.count_append] at count ⊢
    omega
  · exact fun file member => fresh file (List.mem_append_left _ (by simpa [fail, unopened] using member))
  · intro file member
    cases member
  · intro file member
    apply ended
    simp only [fail, drained, unclosed, List.nil_append] at member
    exact List.mem_append_right _ member
  · simp [fail, reading]
  · rw [show (fail state).isReading = true from reading] at stopped
    cases stopped

theorem opened_sound {state after : SeqState} {failed : Bool} (sound : cfg.Sound state)
    (room : 0 < cfg.maxBufs) (limit : 0 < cfg.maxQueuePerFile)
    (taken : cfg.opened state failed = some after) : cfg.Sound after := by
  rw [opened] at taken
  split at taken
  case h_2 => cases taken
  case h_1 file buffer flies =>
    obtain ⟨reading, fine, going⟩ := sound.busy flies
    split at taken
    case isTrue =>
      obtain rfl := Option.some.inj taken
      exact fail_sound sound flies
    case isFalse =>
      obtain rfl := Option.some.inj taken
      refine readNext_sound ?_ ⟨rfl, fine, going⟩ room limit
      obtain ⟨pool, files, fresh, active, ended, given, queued, refs⟩ := sound.toBase
      have unread := fresh file (by simp [flies, unopened])
      have pos : Function.update state.pos file 0 = state.pos :=
        Function.update_eq_self_iff.mpr unread.1.symm
      have hashQueue : Function.update state.hashQueue file 0 = state.hashQueue :=
        Function.update_eq_self_iff.mpr unread.2.symm
      rw [pos, hashQueue]
      simp only [flies, bufsOf, unopened, unclosed, drained, List.nil_append,
        List.append_nil] at pool files fresh ended
      refine ⟨?_, ?_, ?_, ?_, ?_, given, queued, refs⟩
      · obtain ⟨lost, failure, pool⟩ := pool
        refine ⟨lost, failure, pool.perm ?_⟩
        simp only [bufsOf, List.append_nil, List.nil_append, List.cons_append]
        exact List.perm_middle.symm
      · obtain ⟨lost, failure, files⟩ := files
        refine ⟨lost, failure, List.perm_iff_count.mpr fun other => ?_⟩
        have count := List.perm_iff_count.mp files other
        simp only [unopened, unclosed, List.append_nil, List.count_append] at count ⊢
        omega
      · exact fun other member => fresh other
          (List.mem_append_left _ (by simpa [unopened] using member))
      · intro other member
        cases member
      · simpa only [drained, unclosed, List.nil_append] using ended

theorem mem_drained {other file : ℕ} {eof : Bool}
    (member : other ∈ drained (some (.calling file eof))) : other = file ∧ eof = true := by
  cases eof with
  | true => exact ⟨List.mem_singleton.mp member, rfl⟩
  | false => cases member

theorem nonempty_nodup : cfg.nonempty.Nodup := List.nodup_range.filter _

/-- A file is open or something else, not both. -/
theorem Base.apart {hand : List ReadBuffer} {state : SeqState} (base : cfg.Base hand state)
    {file : ℕ} (opened : file ∈ state.openFiles) :
    file ∉ state.fileQueue ++ unopened state.request ∧
      file ∉ unclosed state.request ++ state.closed := by
  obtain ⟨lost, -, files⟩ := base.files
  have most := List.nodup_iff_count_le_one.mp (files.nodup_iff.mpr nonempty_nodup) file
  have here := List.count_pos_iff.mpr opened
  simp only [List.count_append] at most
  constructor
  · refine List.count_eq_zero.mp ?_
    rw [List.count_append]
    omega
  · refine List.count_eq_zero.mp ?_
    rw [List.count_append]
    omega

theorem delivered_append (given : List SeqPiece) (piece : SeqPiece) (file : ℕ) :
    delivered (given ++ [piece]) file =
      delivered given file ++ if piece.file = file then piece.bytes else [] := by
  rw [delivered, delivered, List.filter_append, List.flatMap_append]
  congr 1
  by_cases same : piece.file = file <;> simp [same]

theorem read_sound {state after : SeqState} {failed : Bool} {bytesRead : ℕ}
    (sound : cfg.Sound state) (taken : cfg.read state failed bytesRead = some after) :
    cfg.Sound after := by
  rw [read] at taken
  split at taken
  case h_2 => cases taken
  case h_1 file buffer size chunks flies =>
    obtain ⟨reading, fine, going⟩ := sound.busy flies
    dsimp only at taken
    split at taken
    case isTrue =>
      obtain rfl := Option.some.inj taken
      exact fail_sound sound flies
    split at taken
    case isTrue => cases taken
    split at taken
    case isTrue =>
      obtain rfl := Option.some.inj taken
      exact fail_sound sound flies
    split at taken
    case isTrue =>
      obtain rfl := Option.some.inj taken
      exact fail_sound sound flies
    case isFalse =>
      obtain rfl := Option.some.inj taken
      have opened : file ∈ state.openFiles := sound.active file (by simp [flies, SeqConfig.active])
      obtain ⟨unread, unended⟩ := sound.apart opened
      obtain ⟨pool, files, fresh, -, ended, given, queued, refs⟩ := sound.toBase
      simp only [flies, bufsOf, unopened, unclosed, drained, List.nil_append,
        List.append_nil] at pool files fresh ended unread unended
      refine ⟨⟨?_, ?_, ?_, ?_, ?_, ?_, ?_, ?_⟩, ?_, fun failed => absurd fine failed,
        fun stopped => ?_, Or.inl going⟩
      · obtain ⟨lost, failure, pool⟩ := pool
        refine ⟨lost, failure, pool.perm (List.Perm.append_left _ ?_)⟩
        simp only [bufsOf, List.map_append, List.map_cons, List.map_nil, List.append_nil,
          List.nil_append]
        exact (List.perm_append_singleton _ _).append_right _
      · simpa only [unopened, unclosed, List.append_nil] using files
      · intro other member
        simp only [unopened, List.append_nil] at member
        have differ : other ≠ file := fun same => unread (same ▸ member)
        dsimp only
        rw [Function.update_of_ne differ, Function.update_of_ne differ]
        exact fresh other member
      · intro other member
        obtain rfl : other = file := by simpa [SeqConfig.active] using member
        exact opened
      · intro other member
        dsimp only at member ⊢
        by_cases same : other = file
        · rw [same, Function.update_self]
          by_contra more
          rw [same] at member
          simp only [decide_eq_false more, drained, unclosed, List.nil_append] at member
          exact unended member
        · rw [Function.update_of_ne same]
          apply ended
          simp only [unclosed, List.append_nil, List.mem_append] at member
          rcases member with drains | closed
          · exact absurd (mem_drained drains).1 same
          · exact closed
      · intro other
        rw [delivered_append, given]
        dsimp only
        by_cases same : file = other
        · rw [if_pos same, same, Function.update_self, List.take_add, slice,
            Nat.add_sub_cancel_left]
        · rw [if_neg same, Function.update_of_ne (Ne.symm same), List.append_nil]
      · intro other
        dsimp only
        rw [unhashed, List.countP_append, ← unhashed, ← queued]
        by_cases same : other = file
        · simp [same]
        · rw [Function.update_of_ne same]
          simp [Ne.symm same]
      · intro data member
        rcases List.mem_append.mp member with old | new
        · exact refs data old
        · rw [List.mem_singleton.mp new]
          exact Or.inl ⟨rfl, rfl, rfl⟩
      · simp [reading]
      · rw [reading] at stopped
        cases stopped

theorem returned_sound {state after : SeqState} (sound : cfg.Sound state)
    (room : 0 < cfg.maxBufs) (limit : 0 < cfg.maxQueuePerFile)
    (taken : returned cfg state = some after) : cfg.Sound after := by
  rw [returned] at taken
  split at taken
  case h_2 => cases taken
  case h_1 file eof flies =>
    obtain ⟨reading, fine, going⟩ := sound.busy flies
    have opened : file ∈ state.openFiles := sound.active file (by simp [flies, SeqConfig.active])
    obtain ⟨pool, files, fresh, -, ended, given, queued, refs⟩ := sound.toBase
    simp only [flies, bufsOf, unopened, unclosed, List.nil_append,
      List.append_nil] at pool files fresh ended
    split at taken
    case isTrue last =>
      obtain rfl := Option.some.inj taken
      refine ⟨⟨?_, ?_, ?_, ?_, ?_, given, queued, refs⟩, ?_, fun failed => absurd fine failed,
        fun stopped => ?_, Or.inl going⟩
      · simpa only [bufsOf, List.nil_append] using pool
      · obtain ⟨lost, failure, files⟩ := files
        refine ⟨lost, failure, List.perm_iff_count.mpr fun other => ?_⟩
        have count := List.perm_iff_count.mp files other
        have parts := List.perm_iff_count.mp (List.perm_cons_erase opened) other
        simp only [unopened, unclosed, List.append_nil, List.count_append, List.count_cons,
          List.count_nil] at count parts ⊢
        omega
      · simpa only [unopened, List.append_nil] using fresh
      · intro other member
        cases member
      · intro other member
        apply ended
        rw [last]
        simpa only [drained, unclosed, List.nil_append] using member
      · simp [reading]
      · rw [reading] at stopped
        cases stopped
    case isFalse =>
      obtain rfl := Option.some.inj taken
      refine readNext_sound ⟨?_, ?_, ?_, ?_, ?_, given, queued, refs⟩ ⟨rfl, fine, going⟩ room limit
      · simpa only [bufsOf, List.nil_append] using pool
      · simpa only [unopened, unclosed, List.append_nil] using files
      · simpa only [unopened, List.append_nil] using fresh
      · intro other member
        cases member
      · exact fun other member => ended other (List.mem_append_right _ (by
          simpa only [drained, unclosed, List.nil_append] using member))

theorem closed_sound {state after : SeqState} {failed : Bool} (sound : cfg.Sound state)
    (room : 0 < cfg.maxBufs) (limit : 0 < cfg.maxQueuePerFile)
    (taken : closed cfg state failed = some after) : cfg.Sound after := by
  rw [closed] at taken
  split at taken
  case h_2 => cases taken
  case h_1 file flies =>
    obtain ⟨reading, fine, going⟩ := sound.busy flies
    split at taken
    case isTrue =>
      obtain rfl := Option.some.inj taken
      exact fail_sound sound flies
    case isFalse =>
      obtain rfl := Option.some.inj taken
      obtain ⟨pool, files, fresh, -, ended, given, queued, refs⟩ := sound.toBase
      simp only [flies, bufsOf, unopened, unclosed, drained, List.nil_append,
        List.append_nil] at pool files fresh ended
      refine readNext_sound ⟨?_, ?_, ?_, ?_, ?_, given, queued, refs⟩ ⟨rfl, fine, going⟩ room limit
      · simpa only [bufsOf, List.nil_append] using pool
      · obtain ⟨lost, failure, files⟩ := files
        refine ⟨lost, failure, List.perm_iff_count.mpr fun other => ?_⟩
        have count := List.perm_iff_count.mp files other
        simp only [unopened, unclosed, List.append_nil, List.count_append] at count ⊢
        omega
      · simpa only [unopened, List.append_nil] using fresh
      · intro other member
        cases member
      · intro other member
        apply ended
        simp only [drained, unclosed, List.nil_append, List.mem_append,
          List.mem_singleton] at member ⊢
        exact member.symm

/-- One of the two references to a piece is given up. -/
theorem unref_sound {state : SeqState} {index : ℕ} {data marked : FileReaderData}
    {hashQueue : ℕ → ℕ} (sound : cfg.Sound state) (room : 0 < cfg.maxBufs)
    (limit : 0 < cfg.maxQueuePerFile) (found : state.held[index]? = some data)
    (buffer : marked.buffer = data.buffer) (refs : marked.refs = data.refs)
    (mark : (data.refs = 2 ∧ marked.hashed = !marked.released) ∨
      (data.refs = 1 ∧ marked.hashed = true))
    (less : ∀ file, hashQueue file ≤ state.hashQueue file)
    (queued : ∀ file, hashQueue file = unhashed (marked :: state.held.eraseIdx index) file) :
    cfg.Sound (cfg.unref { state with hashQueue := hashQueue } index marked) := by
  obtain ⟨inside, here⟩ := List.getElem?_eq_some_iff.mp found
  have split : (data :: state.held.eraseIdx index).Perm state.held :=
    here ▸ List.getElem_cons_eraseIdx_perm inside
  have holds : state.held ≠ [] := List.ne_nil_of_length_pos (Nat.zero_lt_of_lt inside)
  have going : state.finishes = 0 := by
    rcases sound.finish with going | complete
    · exact going
    · exact absurd complete.held holds
  obtain ⟨⟨pool, files, fresh, active, ended, given, -, old⟩, reading, failed, idle, -⟩ := sound
  obtain ⟨lost, failure, pool⟩ := pool
  have unread : ∀ file ∈ state.fileQueue ++ unopened state.request,
      state.pos file = 0 ∧ hashQueue file = 0 := by
    intro file member
    obtain ⟨pos, none⟩ := fresh file member
    exact ⟨pos, Nat.le_zero.mp (none ▸ less file)⟩
  rw [unref, refs]
  split
  case isFalse more =>
    obtain ⟨whole, differ⟩ : data.refs = 2 ∧ marked.hashed = !marked.released := by
      rcases mark with whole | half
      · exact whole
      · exact absurd (by rw [half.1]) more
    dsimp only
    have moved := List.set_perm_cons_eraseIdx inside { marked with refs := data.refs - 1 }
    refine ⟨⟨⟨lost, failure, pool.perm ?_⟩, files, unread, active, ended, given, fun file => ?_,
      fun other member => ?_⟩, reading, failed, fun stopped going => ?_, Or.inl going⟩
    · refine List.Perm.append_left _ (List.Perm.append_right _ (List.Perm.append_left _ ?_))
      refine (moved.map _).trans (List.Perm.trans ?_ (split.map _))
      rw [List.map_cons, List.map_cons, ← buffer]
    · dsimp only
      rw [queued, unhashed, unhashed, moved.countP_eq, List.countP_cons, List.countP_cons]
    · rcases List.mem_cons.mp (moved.mem_iff.mp member) with same | rest
      · rw [same]
        exact Or.inr ⟨by simp only [whole], differ⟩
      · exact old other (split.mem_iff.mp (List.mem_cons_of_mem _ rest))
    · refine List.ne_nil_of_length_pos ?_
      rw [List.length_set]
      exact Nat.zero_lt_of_lt inside
  case isTrue last =>
    have hashed : marked.hashed = true := by
      rcases mark with ⟨whole, -⟩ | half
      · rw [whole] at last
        cases last
      · exact half.2
    have base : cfg.Base [] { state with
        hashQueue := hashQueue
        held := state.held.eraseIdx index
        buf := marked.buffer :: state.buf } := by
      refine ⟨⟨lost, failure, pool.perm ?_⟩, files, unread, active, ended, given, fun file => ?_,
        fun other member => old other (split.mem_iff.mp (List.mem_cons_of_mem _ member))⟩
      · rw [buffer]
        refine List.Perm.trans List.perm_middle.symm (List.Perm.append_left _ ?_)
        simp only [List.nil_append]
        refine List.Perm.trans ?_ (((split.map FileReaderData.buffer).append_left _).append_right _)
        rw [List.map_cons, List.append_assoc, List.append_assoc, List.cons_append]
        exact List.perm_middle.symm
      · dsimp only
        rw [queued, unhashed, List.countP_cons]
        simp [hashed, unhashed]
    rw [processed]
    dsimp only
    split
    case isTrue reads =>
      refine ⟨base, reading, failed, fun stopped => ?_, Or.inl going⟩
      dsimp only at stopped
      rw [reads] at stopped
      cases stopped
    case isFalse stopped =>
      have none : ¬(state.request ≠ none ∨ state.errors ≠ 0) := fun some =>
        stopped (reading.mpr some)
      rw [not_or, not_not, not_not] at none
      exact readNext_sound base ⟨none.1, none.2, going⟩ room limit

theorem hashed_sound {state after : SeqState} {index : ℕ} (sound : cfg.Sound state)
    (room : 0 < cfg.maxBufs) (limit : 0 < cfg.maxQueuePerFile)
    (taken : cfg.hashed state index = some after) : cfg.Sound after := by
  rw [hashed] at taken
  split at taken
  case h_2 => cases taken
  case h_1 data found =>
    split at taken
    case isTrue => cases taken
    case isFalse unhashed =>
      obtain rfl := Option.some.inj taken
      obtain ⟨inside, here⟩ := List.getElem?_eq_some_iff.mp found
      have split : (data :: state.held.eraseIdx index).Perm state.held :=
        here ▸ List.getElem_cons_eraseIdx_perm inside
      have member : data ∈ state.held := here ▸ List.getElem_mem inside
      have fresh : data.hashed = false := by simpa using unhashed
      refine unref_sound sound room limit found rfl rfl ?_ (fun file => ?_) fun file => ?_
      · rcases sound.refs data member with ⟨two, -, released⟩ | ⟨one, -⟩
        · exact Or.inl ⟨two, by simp [released]⟩
        · exact Or.inr ⟨one, rfl⟩
      · by_cases same : file = data.file
        · rw [same, Function.update_self]
          exact Nat.sub_le _ _
        · rw [Function.update_of_ne same]
      · have before := sound.queued file
        rw [SeqConfig.unhashed, ← split.countP_eq, List.countP_cons] at before
        rw [SeqConfig.unhashed, List.countP_cons]
        by_cases same : file = data.file
        · subst same
          rw [Function.update_self, before]
          simp [fresh]
        · rw [Function.update_of_ne same, before]
          simp [Ne.symm same]

theorem release_sound {state after : SeqState} {index : ℕ} (sound : cfg.Sound state)
    (room : 0 < cfg.maxBufs) (limit : 0 < cfg.maxQueuePerFile)
    (taken : cfg.release state index = some after) : cfg.Sound after := by
  rw [release] at taken
  split at taken
  case h_2 => cases taken
  case h_1 data found =>
    split at taken
    case isTrue => cases taken
    case isFalse unreleased =>
      obtain rfl := Option.some.inj taken
      obtain ⟨inside, here⟩ := List.getElem?_eq_some_iff.mp found
      have split : (data :: state.held.eraseIdx index).Perm state.held :=
        here ▸ List.getElem_cons_eraseIdx_perm inside
      have member : data ∈ state.held := here ▸ List.getElem_mem inside
      have fresh : data.released = false := by simpa using unreleased
      have marked := @unref_sound cfg state index data { data with released := true }
        state.hashQueue sound room limit found rfl rfl
      refine marked ?_ (fun file => le_rfl) fun file => ?_
      · rcases sound.refs data member with ⟨two, hashed, -⟩ | ⟨one, differ⟩
        · exact Or.inl ⟨two, by simp [hashed]⟩
        · exact Or.inr ⟨one, by simpa [fresh] using differ⟩
      · rw [sound.queued, unhashed, ← split.countP_eq, unhashed, List.countP_cons, List.countP_cons]

theorem step_sound {state after : SeqState} {event : SeqEvent} (sound : cfg.Sound state)
    (room : 0 < cfg.maxBufs) (limit : 0 < cfg.maxQueuePerFile)
    (taken : cfg.step state event = some after) : cfg.Sound after := by
  cases event with
  | opened failed => exact opened_sound sound room limit taken
  | read failed bytesRead => exact read_sound sound taken
  | returned => exact returned_sound sound room limit taken
  | closed failed => exact closed_sound sound room limit taken
  | hashed index => exact hashed_sound sound room limit taken
  | release index => exact release_sound sound room limit taken

theorem start_sound (bufs : List ℕ) (fits : bufs.length ≤ cfg.maxBufs)
    (room : 0 < cfg.maxBufs) (limit : 0 < cfg.maxQueuePerFile) :
    cfg.Sound (cfg.start bufs) := by
  refine readNext_sound ⟨⟨[], fun some => absurd rfl some, ?_⟩, ⟨[], fun some => absurd rfl some, ?_⟩,
    fun _ _ => ⟨rfl, rfl⟩, ?_, ?_, fun _ => rfl, fun _ => rfl, ?_⟩ ⟨rfl, rfl, rfl⟩ room limit
  · simp only [bufsOf, List.map_nil, List.append_nil]
    refine ⟨?_, fits, ?_, ?_⟩
    · rw [List.length_map, List.length_zipIdx]
    · rw [List.map_map]
      have names : (ReadBuffer.name ∘ fun buffer : ℕ × ℕ => (⟨buffer.2, buffer.1⟩ : ReadBuffer)) =
          Prod.snd := rfl
      rw [names, List.zipIdx_map_snd]
      exact List.nodup_range'
    · intro buffer member
      obtain ⟨pair, listed, rfl⟩ := List.mem_map.mp member
      have index := List.snd_lt_of_mem_zipIdx listed
      simpa using index
  · simp only [unopened, unclosed, List.append_nil]
    exact List.Perm.refl _
  · intro file member
    cases member
  · intro file member
    cases member
  · intro data member
    cases member

/-! ## A run -/

/-- What a caller may rely on in every state. -/
structure Right (cfg : SeqConfig) (state : SeqState) : Prop where
  exclusive : ∀ file buffer size chunks,
    state.request = some (.reading file buffer size chunks) →
      ∀ data ∈ state.held, data.buffer.name ≠ buffer.name
  live : state.bufCount ≤ cfg.maxBufs ∧
    state.buf.length + (bufsOf state.request).length + state.held.length ≤ state.bufCount
  inOrder : ∀ file, delivered state.given file = (cfg.file file).content.take (state.pos file)
  atMostOnce : state.finishes ≤ 1
  finished : state.finishes = 1 → state.request = none ∧ state.errors = 0 ∧
    state.openFiles = [] ∧ state.held = [] ∧ state.buf.length = state.bufCount ∧
      ∀ file < cfg.files.length, 0 < (cfg.file file).size → file ∈ state.closed ∧
        delivered state.given file = (cfg.file file).content.take (cfg.file file).size
  goesOn : state.buf.length = state.bufCount → state.request = none → state.errors = 0 →
    state.finishes = 1

theorem Sound.right {state : SeqState} (sound : cfg.Sound state) : cfg.Right state := by
  obtain ⟨lost, failure, pool⟩ := sound.pool
  have count := pool.count
  simp only [List.length_append, List.length_map, List.length_nil] at count
  refine ⟨?_, ⟨pool.bounded, by omega⟩, sound.given, ?_, fun finished => ?_,
    fun back quiet fine => ?_⟩
  · intro file buffer size chunks flies data member same
    have distinct := pool.distinct
    rw [flies] at distinct
    simp only [bufsOf, List.nil_append, List.map_append, List.map_cons, List.cons_append] at distinct
    have tail := (List.nodup_append.mp distinct).2.1
    refine (List.nodup_cons.mp tail).1 (List.mem_append_left _ ?_)
    exact List.mem_map.mpr ⟨data.buffer, List.mem_map_of_mem member, same⟩
  · rcases sound.finish with going | complete
    · omega
    · exact complete.once.le
  · rcases sound.finish with going | complete
    · rw [going] at finished
      cases finished
    · refine ⟨complete.request, complete.errors, complete.openFiles, complete.held, complete.back, ?_⟩
      intro file inside some
      obtain ⟨lost, failure, files⟩ := sound.files
      have none : lost = [] := by
        by_contra some
        exact failure some complete.errors
      have listed : file ∈ cfg.nonempty :=
        List.mem_filter.mpr ⟨List.mem_range.mpr inside, by simpa using some⟩
      have closed := files.mem_iff.mpr listed
      simp only [complete.request, complete.openFiles, complete.fileQueue, none, unopened, unclosed,
        List.nil_append, List.append_nil] at closed
      refine ⟨closed, ?_⟩
      rw [sound.given, sound.ended file (List.mem_append_right _ closed)]
  · rcases sound.finish with going | complete
    · have none : lost = [] := by
        by_contra some
        exact failure some fine
      have stopped : state.isReading = false := by
        by_contra reads
        rcases sound.reading.mp (by simpa using reads) with flies | failed
        · exact flies quiet
        · exact failed fine
      have held := List.length_pos_iff.mpr (sound.idle stopped going)
      omega
    · exact complete.once

/-- Unless an error was reported, the reader goes on until every file is given in full. -/
theorem FileSeqReader_right (cfg : SeqConfig) (bufs : List ℕ) (actions : List SeqEvent)
    (fits : bufs.length ≤ cfg.maxBufs) (room : 0 < cfg.maxBufs)
    (limit : 0 < cfg.maxQueuePerFile) :
    Machine.Throughout cfg.step cfg.Right (cfg.start bufs) actions :=
  (Machine.throughout_of_step
    (fun _ _ _ sound taken => step_sound sound room limit taken)
    (start_sound bufs fits room limit) actions).imp fun _ sound => Sound.right sound

/-- Two files, the first of which takes two reads, and two buffers. -/
def twoFiles : SeqConfig where
  files := [⟨3, [7, 8, 9]⟩, ⟨1, [5]⟩]
  readSize := 2
  maxBufs := 2
  maxQueuePerFile := 2
  reqSliceLen := 0
  reqChunkLen := 0

theorem FileSeqReader_right_two : ∃ events last,
    Machine.run twoFiles.step (twoFiles.start []) events = some last ∧ last.finishes = 1 ∧
      Machine.Throughout twoFiles.step twoFiles.Right (twoFiles.start []) events :=
  ⟨[.opened false, .read false 2, .returned, .read false 1, .returned, .hashed 0, .hashed 1,
    .closed false, .release 0, .opened false, .read false 1, .returned, .hashed 1, .closed false,
    .release 0, .release 0], _, rfl, rfl,
    FileSeqReader_right twoFiles [] _ (Nat.zero_le 2) Nat.two_pos Nat.two_pos⟩

/-- One file of one byte, and one buffer. -/
def oneFile : SeqConfig where
  files := [⟨1, [7]⟩]
  readSize := 1
  maxBufs := 1
  maxQueuePerFile := 1
  reqSliceLen := 0
  reqChunkLen := 0

/-- After a close that failed, everything is back and nothing goes on: the error was reported. -/
theorem failed_close_stops : ∃ actions last,
    Machine.run oneFile.step (oneFile.start []) actions = some last ∧
      last.buf.length = last.bufCount ∧ last.held = [] ∧ last.request = none ∧
        last.finishes = 0 := by
  refine ⟨[.opened false, .read false 1, .returned, .hashed 0, .release 0, .closed true], _, rfl, ?_⟩
  exact ⟨rfl, rfl, rfl, rfl⟩

end SeqConfig

end Par3

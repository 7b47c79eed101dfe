import Par3.RecoveryContract

/-!
# Matrices in the heap

The cache keeps pointers to matrices that it allocated, and frees the one that makes room for another.
No pointer is kept for two keys, and none is kept that was freed, so the cache with pointers does what
the cache of matrices does, and a call returns the matrix of its own arguments.
-/

namespace Par3

/-- `s_coeffCache` and the matrices that are allocated. -/
structure MatrixCache where
  map : List (CoeffCacheKey × ℕ)
  lru : List CoeffCacheKey
  heap : ℕ → Option Words

namespace MatrixCache

variable (host : EngineHost) (cache : MatrixCache) (key : CoeffCacheKey)

def empty : MatrixCache := ⟨[], [], fun _ => none⟩

/-- `s_coeffCache.map.find(key)` -/
def find : Option ℕ := (cache.map.find? fun entry => entry.1 = key).map Prod.snd

/-- A matrix that is found becomes the last used. -/
def touch : MatrixCache := { cache with lru := key :: cache.lru.filter fun other => other ≠ key }

/-- The last key of the list goes, and its matrix, if the map has it. -/
def evict : MatrixCache :=
  if 8 ≤ cache.map.length then
    match cache.lru.getLast? with
    | none => cache
    | some evictKey =>
      match cache.find evictKey with
      | none => { cache with lru := cache.lru.dropLast }
      | some pointer =>
        { map := cache.map.filter fun entry => entry.1 ≠ evictKey
          lru := cache.lru.dropLast
          heap := Function.update cache.heap pointer none }
  else cache

/-- A new matrix, at a pointer that was not allocated. -/
def allocate (pointer : ℕ) (matrix : Words) : MatrixCache :=
  { cache with heap := Function.update cache.heap pointer (some matrix) }

def insert (pointer : ℕ) : MatrixCache :=
  { cache with
    map := (key, pointer) :: cache.map
    lru := key :: cache.lru }

/-- What `GetOrBuildCoeffMatrix` may return, and the cache after it. Without memory for a new matrix
there is no pointer. -/
def GetOrBuildCoeffMatrix (returned : Option ℕ) (after : MatrixCache) : Prop :=
  match cache.find key with
  | some pointer => returned = some pointer ∧ after = cache.touch key
  | none =>
    (returned = none ∧ after = cache) ∨
      ∃ pointer fresh matrix, cache.heap pointer = none ∧ key.BuildCauchyMatrix host fresh matrix ∧
        returned = some pointer ∧ after = ((cache.allocate pointer matrix).evict).insert key pointer

/-- The cache after some calls. -/
inductive Reachable : MatrixCache → Prop where
  | start : Reachable empty
  | call (host : EngineHost) (cache after : MatrixCache) (key : CoeffCacheKey) (returned : Option ℕ)
      (earlier : Reachable cache)
      (called : cache.GetOrBuildCoeffMatrix host key returned after) : Reachable after

/-! ## The matrices behind the pointers -/

/-- The cache with the matrices in place of the pointers. -/
def contents : CoeffCache :=
  ⟨cache.map.map fun entry => (entry.1, (cache.heap entry.2).getD fun _ => 0), cache.lru⟩

/-- Every pointer is allocated, and kept for one key. -/
structure Separate : Prop where
  live : ∀ entry ∈ cache.map, cache.heap entry.2 ≠ none
  apart : (cache.map.map Prod.snd).Nodup

variable {host cache key} {pointer : ℕ} {matrix : Words}

theorem find_mem (found : cache.find key = some pointer) : (key, pointer) ∈ cache.map := by
  obtain ⟨entry, first, rfl⟩ := Option.map_eq_some_iff.mp found
  have same : entry.1 = key := by simpa using List.find?_some first
  subst same
  exact List.mem_of_find?_eq_some first

theorem find_contents : cache.contents.find key =
    (cache.find key).map fun pointer => (cache.heap pointer).getD fun _ => 0 := by
  rw [CoeffCache.find, contents, find, List.find?_map, Option.map_map, Option.map_map]
  rfl

theorem contents_map_length : cache.contents.map.length = cache.map.length := List.length_map _

/-- An entry that is kept has another pointer than the one that goes. -/
theorem pointer_other (separate : cache.Separate) {evictKey : CoeffCacheKey}
    (found : cache.find evictKey = some pointer) {entry : CoeffCacheKey × ℕ}
    (kept : entry ∈ cache.map.filter fun entry => entry.1 ≠ evictKey) :
    entry ∈ cache.map ∧ entry.2 ≠ pointer := by
  obtain ⟨there, apart⟩ := List.mem_filter.mp kept
  refine ⟨there, fun same => ?_⟩
  have equal : entry = (evictKey, pointer) :=
    List.inj_on_of_nodup_map separate.apart there (find_mem found) same
  rw [equal] at apart
  exact of_decide_eq_true apart rfl

/-- A new matrix is not seen by the keys of the others. -/
theorem allocate_contents (separate : cache.Separate) (fresh : cache.heap pointer = none) :
    (cache.allocate pointer matrix).contents = cache.contents := by
  rw [contents, contents, CoeffCache.mk.injEq]
  refine ⟨List.map_congr_left fun entry member => ?_, rfl⟩
  have other : entry.2 ≠ pointer := fun same => separate.live entry member (same ▸ fresh)
  dsimp only [allocate]
  rw [Function.update_of_ne other]

theorem allocate_separate (separate : cache.Separate) :
    (cache.allocate pointer matrix).Separate where
  live := by
    intro entry member
    dsimp only [allocate]
    rw [Function.update_apply]
    split
    · exact Option.some_ne_none _
    · exact separate.live entry member
  apart := separate.apart

/-- The eviction frees a pointer that no other key has. -/
theorem evict_contents (separate : cache.Separate) (listed : (cache.map.map Prod.fst).Perm cache.lru) :
    cache.evict.contents = cache.contents.evict := by
  rw [CoeffCache.evict, contents_map_length, evict]
  split
  case isFalse => rfl
  case isTrue =>
    cases last : cache.lru.getLast? with
    | none =>
      have none : cache.contents.lru.getLast? = none := last
      rw [none]
    | some evictKey =>
      have some_last : cache.contents.lru.getLast? = some evictKey := last
      have member : evictKey ∈ cache.map.map Prod.fst :=
        listed.mem_iff.mpr (List.mem_of_getLast? last)
      obtain ⟨entry, inside, same⟩ := List.mem_map.mp member
      rw [some_last]
      dsimp only
      cases found : cache.find evictKey with
      | none =>
        have absent := List.find?_eq_none.mp (Option.map_eq_none_iff.mp found) entry inside
        exact absurd (decide_eq_true same) absent
      | some pointer =>
        dsimp only
        rw [contents, contents, CoeffCache.mk.injEq]
        refine ⟨?_, rfl⟩
        rw [List.filter_map]
        refine List.map_congr_left fun entry kept => ?_
        dsimp only
        rw [Function.update_of_ne (pointer_other separate found kept).2]

theorem evict_separate (separate : cache.Separate) : cache.evict.Separate := by
  rw [evict]
  split
  case isFalse => exact separate
  case isTrue =>
    split
    · exact separate
    · rename_i evictKey _
      split
      · exact ⟨separate.live, separate.apart⟩
      · rename_i pointer found
        constructor
        · intro entry kept
          obtain ⟨there, other⟩ := pointer_other separate found kept
          dsimp only
          rw [Function.update_of_ne other]
          exact separate.live entry there
        · exact separate.apart.sublist (List.filter_sublist.map _)

/-- The pointer of a new matrix stays allocated, and is not kept for a key. -/
theorem evict_allocate (separate : cache.Separate) (fresh : cache.heap pointer = none) :
    (cache.allocate pointer matrix).evict.heap pointer = some matrix ∧
      pointer ∉ (cache.allocate pointer matrix).evict.map.map Prod.snd := by
  have absent : pointer ∉ cache.map.map Prod.snd := by
    intro member
    obtain ⟨entry, inside, rfl⟩ := List.mem_map.mp member
    exact separate.live entry inside fresh
  have written : (cache.allocate pointer matrix).heap pointer = some matrix := Function.update_self ..
  rw [evict]
  split
  case isFalse => exact ⟨written, absent⟩
  case isTrue =>
    split
    · exact ⟨written, absent⟩
    · rename_i evictKey _
      split
      · exact ⟨written, absent⟩
      · rename_i evicted found
        have other : pointer ≠ evicted := by
          rintro rfl
          exact absent (List.mem_map_of_mem (find_mem found))
        refine ⟨?_, fun member => absent ?_⟩
        · dsimp only
          rw [Function.update_of_ne other, written]
        · obtain ⟨entry, kept, same⟩ := List.mem_map.mp member
          exact same ▸ List.mem_map_of_mem (List.mem_filter.mp kept).1

/-- A call with pointers is a call with matrices, unless there was no memory for a new one. -/
theorem GetOrBuildCoeffMatrix_simulates {returned : Option ℕ} {after : MatrixCache}
    (separate : cache.Separate) (listed : (cache.map.map Prod.fst).Perm cache.lru)
    (called : cache.GetOrBuildCoeffMatrix host key returned after) :
    after.Separate ∧
      ((returned = none ∧ cache.find key = none ∧ after = cache) ∨
        ∃ pointer matrix, returned = some pointer ∧ after.heap pointer = some matrix ∧
          after.find key = some pointer ∧
          cache.contents.GetOrBuildCoeffMatrix host key matrix after.contents) := by
  unfold GetOrBuildCoeffMatrix at called
  cases found : cache.find key with
  | some pointer =>
    rw [found] at called
    obtain ⟨rfl, rfl⟩ := called
    obtain ⟨matrix, stored⟩ := Option.ne_none_iff_exists'.mp
      (separate.live _ (find_mem found))
    refine ⟨⟨separate.live, separate.apart⟩, .inr ⟨pointer, matrix, rfl, stored, found, ?_⟩⟩
    rw [CoeffCache.GetOrBuildCoeffMatrix, find_contents, found]
    exact ⟨congrArg (Option.getD · _) stored.symm, rfl⟩
  | none =>
    rw [found] at called
    rcases called with ⟨rfl, rfl⟩ | ⟨pointer, fresh, matrix, free, builds, rfl, rfl⟩
    · exact ⟨separate, .inl ⟨rfl, rfl, rfl⟩⟩
    · have allocated := @allocate_separate cache pointer matrix separate
      have evicted := evict_separate allocated
      obtain ⟨stored, absent⟩ := @evict_allocate cache pointer matrix separate free
      refine ⟨⟨?_, ?_⟩, .inr ⟨pointer, matrix, rfl, stored, ?_, ?_⟩⟩
      · intro entry member
        rcases List.mem_cons.mp member with rfl | member
        · exact stored ▸ Option.some_ne_none matrix
        · exact evicted.live entry member
      · exact List.nodup_cons.mpr ⟨absent, evicted.apart⟩
      · exact congrArg (Option.map Prod.snd) (List.find?_cons_of_pos (decide_eq_true rfl))
      · rw [CoeffCache.GetOrBuildCoeffMatrix, find_contents, found]
        refine ⟨⟨fresh, builds⟩, ?_⟩
        have same : (cache.allocate pointer matrix).evict.contents = cache.contents.evict :=
          (evict_contents allocated listed).trans (by rw [allocate_contents separate free])
        rw [← same, contents, insert, List.map_cons, CoeffCache.mk.injEq]
        refine ⟨?_, rfl⟩
        dsimp only
        rw [stored]
        rfl

theorem listed_of_contents (sound : cache.contents.Sound) :
    (cache.map.map Prod.fst).Perm cache.lru := by
  have listed := sound.listed
  rw [contents, List.map_map] at listed
  exact listed

/-- Every state of the cache with pointers is one of the cache of matrices. -/
theorem Reachable.invariant (reachable : Reachable cache) :
    cache.Separate ∧ cache.contents.Reachable := by
  induction reachable with
  | start => exact ⟨⟨fun _ member => absurd member List.not_mem_nil, List.nodup_nil⟩, .start⟩
  | call host cache after key returned earlier called ih =>
    obtain ⟨separate, contents⟩ := ih
    obtain ⟨kept, result⟩ := GetOrBuildCoeffMatrix_simulates separate
      (listed_of_contents contents.sound) called
    refine ⟨kept, ?_⟩
    rcases result with ⟨-, -, rfl⟩ | ⟨pointer, matrix, -, -, -, simulated⟩
    · exact contents
    · exact .call host _ _ key matrix contents simulated

/-- After any calls there are at most eight matrices, the list of uses names their keys, each once,
and no two keys have one pointer. The next call keeps this, and returns, unless there is no memory, a
pointer that is kept for its own key alone, to the matrix that would be built for it. -/
theorem calls_return_own_matrix (reachable : cache.Reachable) (host : EngineHost)
    (key : CoeffCacheKey) (returned : Option ℕ) (after : MatrixCache)
    (called : cache.GetOrBuildCoeffMatrix host key returned after) :
    (after.map.length ≤ 8 ∧ (after.map.map Prod.fst).Perm after.lru ∧ after.lru.Nodup ∧
      (after.map.map Prod.snd).Nodup) ∧
    (returned = none → cache.find key = none ∧ after = cache) ∧
    ∀ pointer, returned = some pointer → ∃ matrix, after.heap pointer = some matrix ∧
      (∀ other, after.find other = some pointer ↔ other = key) ∧
      ∀ host fresh built, key.BuildCauchyMatrix host fresh built →
        ∀ index < key.numRecovery * key.numInputs, matrix index = built index := by
  have next : after.Reachable := .call host cache after key returned reachable called
  obtain ⟨separate, contents⟩ := reachable.invariant
  obtain ⟨kept, nextContents⟩ := next.invariant
  have sound := nextContents.sound
  obtain ⟨-, result⟩ := GetOrBuildCoeffMatrix_simulates separate
    (listed_of_contents contents.sound) called
  refine ⟨⟨contents_map_length ▸ sound.small, listed_of_contents sound, sound.distinct, kept.apart⟩,
    ?_, ?_⟩
  · rintro rfl
    rcases result with ⟨-, absent, same⟩ | ⟨pointer, _, returned, -⟩
    · exact ⟨absent, same⟩
    · cases returned
  · rintro pointer rfl
    rcases result with ⟨returned, -⟩ | ⟨own, matrix, returned, stored, found, simulated⟩
    · cases returned
    · obtain rfl := Option.some.inj returned
      have holds := (CoeffCache.GetOrBuildCoeffMatrix_sound contents.sound simulated).1
      refine ⟨matrix, stored, fun other => ⟨fun there => ?_, fun same => same ▸ found⟩, ?_⟩
      · exact congrArg Prod.fst
          (List.inj_on_of_nodup_map kept.apart (find_mem there) (find_mem found) rfl)
      · intro host fresh built builds index inside
        have builtHolds := CoeffCacheKey.BuildCauchyMatrix_holds builds
        have columns : 0 < key.numInputs := Nat.pos_of_ne_zero fun empty => by
          rw [empty, Nat.mul_zero] at inside
          exact Nat.not_lt_zero _ inside
        have row : index / key.numInputs < key.numRecovery :=
          Nat.div_lt_of_lt_mul (Nat.mul_comm _ _ ▸ inside)
        have column : index % key.numInputs < key.numInputs := Nat.mod_lt _ columns
        rw [← Nat.div_add_mod' index key.numInputs, holds _ row _ column, builtHolds _ row _ column]

theorem missed {host : EngineHost} {cache : MatrixCache} {key : CoeffCacheKey} {pointer : ℕ} {matrix : Words}
    {fresh : Words} (absent : cache.find key = none) (free : cache.heap pointer = none)
    (builds : key.BuildCauchyMatrix host fresh matrix) :
    cache.GetOrBuildCoeffMatrix host key (some pointer)
      (((cache.allocate pointer matrix).evict).insert key pointer) := by
  rw [GetOrBuildCoeffMatrix, absent]
  exact .inr ⟨pointer, fresh, matrix, free, builds, rfl, rfl⟩

/-- A key for every number. -/
def numbered (i : ℕ) : CoeffCacheKey := ⟨i + 1, 1, 0, 9⟩

/-- The cache after calls for the first keys. -/
def filled (n : ℕ) (heap : ℕ → Option Words) : MatrixCache :=
  ⟨(List.range n).reverse.map fun i => (numbered i, i), (List.range n).reverse.map numbered, heap⟩

/-- As long as there is room, all matrices are kept. -/
theorem filled_reachable (n : ℕ) (room : n ≤ 8) : ∃ heap : ℕ → Option Words,
    (filled n heap).Reachable ∧ ∀ pointer ≥ n, heap pointer = none := by
  induction n with
  | zero => exact ⟨fun _ => none, .start, fun _ _ => rfl⟩
  | succ n ih =>
    obtain ⟨heap, reachable, free⟩ := ih (by omega)
    obtain ⟨matrix, builds⟩ := (numbered n).BuildCauchyMatrix_exists oneProcessor fun _ => 0
    refine ⟨Function.update heap n (some matrix), ?_, fun pointer later => ?_⟩
    · rw [filled, List.range_succ, List.reverse_append]
      refine .call oneProcessor _ _ (numbered n) (some n) reachable ?_
      have absent : (filled n heap).find (numbered n) = none := by
        rw [find, Option.map_eq_none_iff, List.find?_eq_none]
        simp [filled, numbered]
        omega
      have called := missed absent (free n le_rfl) builds
      rwa [evict, if_neg (by simp [allocate, filled]; omega)] at called
    · rw [Function.update_of_ne (by omega), free pointer (by omega)]

/-- Eight matrices are kept and the first is asked for again, so that the second goes for a ninth. -/
theorem calls_return_own_matrix_ninth : ∃ (cache after : MatrixCache) (matrix : Words),
    cache.Reachable ∧ cache.find (numbered 0) = some 0 ∧ cache.find (numbered 1) = some 1 ∧
      cache.GetOrBuildCoeffMatrix oneProcessor (numbered 8) (some 8) after ∧
      after.heap 8 = some matrix ∧ after.find (numbered 8) = some 8 ∧
      after.find (numbered 1) = none ∧ after.find (numbered 0) = some 0 := by
  obtain ⟨heap, eight, free⟩ := filled_reachable 8 le_rfl
  have hit := Reachable.call oneProcessor _ _ (numbered 0) (some 0) eight ⟨rfl, rfl⟩
  obtain ⟨fresh, builds⟩ := (numbered 8).BuildCauchyMatrix_exists oneProcessor fun _ => 0
  have called := @missed oneProcessor ((filled 8 heap).touch (numbered 0)) _ 8 fresh _ rfl
    (free 8 le_rfl) builds
  obtain ⟨-, -, returns⟩ := calls_return_own_matrix hit oneProcessor _ _ _ called
  obtain ⟨matrix, stored, only, -⟩ := returns 8 rfl
  exact ⟨_, _, matrix, hit, rfl, rfl, called, stored, (only _).mpr rfl, rfl, rfl⟩

end MatrixCache

end Par3

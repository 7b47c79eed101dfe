import Par3.Archive
import Par3.RegionKernels
import Par3.Foundations.Loops

/-!
# The matrix of coefficients and its cache

The matrix is built row by row, by one thread or by workers that take rows from a counter. Up to
eight matrices are kept for later calls with the same parameters; the one that was not used for
the longest time makes room for a new one. A matrix from the cache is the matrix that would be
built.
-/

namespace Par3

open Interleaving

/-- What the engine finds on the machine and in the process environment. -/
structure EngineHost where
  /-- `atoi` of `PAR3_GF64_GROUP` and `PAR3_GF64_K_GROUP`, zero for a variable that is not set -/
  groupEnv : ℤ
  kGroupEnv : ℤ
  /-- `atoi` of `PAR3_FENGER_THREADS`, zero when it is not set -/
  fengerThreadsEnv : ℤ
  /-- `gf64_current_method == GF64_AVX2` -/
  avx2 : Bool
  effectiveCpuCount : ℕ
  effectiveCpuCount_pos : 0 < effectiveCpuCount
  l3PerCluster : ℕ
  inputDecompScratchCap : ℕ
  /-- whether the scratch buffer of a worker could be allocated -/
  alignAlloc : ℕ → Bool

/-- The parameters of a matrix. -/
structure CoeffCacheKey where
  numInputs : ℕ
  numRecovery : ℕ
  firstInput : BitVec 64
  firstRecovery : BitVec 64
deriving DecidableEq

namespace CoeffCacheKey

variable (key : CoeffCacheKey)

/-- `x = firstInput + c` -/
def inputPoint (c : ℕ) : Gf64 := gf64OfNat (key.firstInput.toNat + c)

/-- `y = firstRecovery + r` -/
def recoveryPoint (r : ℕ) : Gf64 := gf64OfNat (key.firstRecovery.toNat + r)

/-- The entry of a row for an input. -/
def entry (r c : ℕ) : Gf64 :=
  cauchyCoefficient key.firstInput.toNat key.firstRecovery.toNat r c

/-- One row: the inverses of its denominators are written to the matrix. -/
def matrixRow (r : ℕ) : List (Step ℕ Gf64) :=
  (List.range key.numInputs).flatMap fun c =>
    [fun matrix => Function.update matrix (r * key.numInputs + c) (key.entry r c)]

/-- An array is the matrix of its parameters. -/
def Holds (matrix : Words) : Prop :=
  ∀ r < key.numRecovery, ∀ c < key.numInputs, matrix (r * key.numInputs + c) = key.entry r c

variable (host : EngineHost)

/-- `s_cauchyWorkerCount`, `std::min(GetEffectiveCpuCount(), kCauchyMaxWorkers)` -/
def cauchyWorkerCount : ℕ := min host.effectiveCpuCount 8

/-- What a call may leave in the array. -/
def BuildCauchyMatrix (matrix built : Words) : Prop :=
  if key.numRecovery ≤ 1 ∨ cauchyWorkerCount host ≤ 1 ∨ key.numRecovery * key.numInputs ≤ 32768 then
    built = perform ((List.range key.numRecovery).flatMap key.matrixRow) matrix
  else
    Stolen key.numRecovery key.matrixRow (cauchyWorkerCount host) matrix built

/-! ## The matrix that is built -/

variable {key host}

/-- The part of the array that a row is written to. -/
def rowRegion (key : CoeffCacheKey) (r : ℕ) : Set ℕ :=
  {index | ∃ c < key.numInputs, index = r * key.numInputs + c}

theorem row_unique {r other c : ℕ} (inside : c < key.numInputs)
    (member : r * key.numInputs + c ∈ key.rowRegion other) : r = other := by
  obtain ⟨place, below, same⟩ := member
  by_contra apart
  rcases Nat.lt_or_gt_of_ne apart with before | after
  · have rows : (r + 1) * key.numInputs ≤ other * key.numInputs := Nat.mul_le_mul_right _ before
    rw [Nat.succ_mul] at rows
    omega
  · have rows : (other + 1) * key.numInputs ≤ r * key.numInputs := Nat.mul_le_mul_right _ after
    rw [Nat.succ_mul] at rows
    omega

theorem rowRegion_disjoint (first second : ℕ) (apart : first ≠ second) :
    Disjoint (key.rowRegion first) (key.rowRegion second) := by
  rw [Set.disjoint_left]
  rintro _ ⟨c, inside, rfl⟩ there
  exact apart (row_unique inside there)

theorem write_acts {index address : ℕ} {value : Gf64} :
    Acts [fun matrix => Function.update matrix index value] address
      (if address = index then fun _ => value else id) := by
  intro matrix
  rw [perform_cons, perform_nil, Function.update_apply]
  split
  · rfl
  · rfl

theorem matrixRow_local (r : ℕ) : ∀ step ∈ key.matrixRow r, Local (key.rowRegion r) step := by
  intro step member
  obtain ⟨c, below, here⟩ := List.mem_flatMap.mp member
  rw [List.mem_range] at below
  rw [List.mem_singleton] at here
  subst here
  constructor
  · intro address
    exact ⟨_, write_acts⟩
  · intro address outside
    have acts := @write_acts (r * key.numInputs + c) address (key.entry r c)
    rwa [if_neg] at acts
    rintro rfl
    exact outside ⟨c, below, rfl⟩

/-- A row leaves its entries behind. -/
theorem matrixRow_entry (r : ℕ) {c : ℕ} (inside : c < key.numInputs) :
    Acts (key.matrixRow r) (r * key.numInputs + c) fun _ => key.entry r c := by
  apply Acts.once List.nodup_range (List.mem_range.mpr inside)
  · have acts := @write_acts (r * key.numInputs + c) (r * key.numInputs + c) (key.entry r c)
    rwa [if_pos rfl] at acts
  · intro other _ apart
    have acts := @write_acts (r * key.numInputs + other) (r * key.numInputs + c) (key.entry r other)
    rwa [if_neg (by omega)] at acts

theorem matrixRow_outside (r : ℕ) {address : ℕ} (outside : address ∉ key.rowRegion r) :
    Acts (key.matrixRow r) address id := by
  apply Acts.keeps
  intro c member
  have acts := @write_acts (r * key.numInputs + c) address (key.entry r c)
  rwa [if_neg] at acts
  rintro rfl
  exact outside ⟨c, List.mem_range.mp member, rfl⟩

theorem cauchyWorkerCount_pos : 0 < cauchyWorkerCount host :=
  lt_min host.effectiveCpuCount_pos (by norm_num)

/-- However the rows were shared out, every entry is in its place. -/
theorem BuildCauchyMatrix_holds {matrix built : Words}
    (builds : key.BuildCauchyMatrix host matrix built) : key.Holds built := by
  intro r below c inside
  unfold BuildCauchyMatrix at builds
  split at builds
  · subst builds
    have once : Acts ((List.range key.numRecovery).flatMap key.matrixRow)
        (r * key.numInputs + c) fun _ => key.entry r c := by
      apply Acts.once List.nodup_range (List.mem_range.mpr below) (matrixRow_entry r inside)
      intro other _ apart
      apply matrixRow_outside
      intro here
      exact apart (row_unique inside here).symm
    exact once matrix
  · have interleaved := builds.interleaved cauchyWorkerCount_pos
    have confined : ∀ label, ∀ step ∈ (fun row =>
        if row < key.numRecovery then key.matrixRow row else []) label,
        Confined (key.rowRegion label) step := by
      intro label step member
      dsimp only at member
      split at member
      · exact (matrixRow_local label step member).confined
      · cases member
    rw [interleaved.apply confined rowRegion_disjoint r _ ⟨c, inside, rfl⟩, if_pos below]
    exact matrixRow_entry r inside matrix

theorem BuildCauchyMatrix_exists (key : CoeffCacheKey) (host : EngineHost) (matrix : Words) :
    ∃ built, key.BuildCauchyMatrix host matrix built := by
  unfold BuildCauchyMatrix
  split
  · exact ⟨_, rfl⟩
  · exact stolen_exists _ _ _ _

end CoeffCacheKey

/-! ## The cache -/

/-- The matrices that are kept, and their parameters, the last used first. -/
structure CoeffCache where
  map : List (CoeffCacheKey × Words)
  lru : List CoeffCacheKey

namespace CoeffCache

variable (host : EngineHost)

def empty : CoeffCache := ⟨[], []⟩

/-- `s_coeffCache.map.find(key)` -/
def find (cache : CoeffCache) (key : CoeffCacheKey) : Option Words :=
  (cache.map.find? fun entry => entry.1 = key).map Prod.snd

/-- A matrix that is found becomes the last used. -/
def touch (cache : CoeffCache) (key : CoeffCacheKey) : CoeffCache :=
  { cache with lru := key :: cache.lru.filter fun other => other ≠ key }

/-- From `COEFF_CACHE_MAX` matrices on, the one that was not used for the longest time goes. -/
def evict (cache : CoeffCache) : CoeffCache :=
  if 8 ≤ cache.map.length then
    match cache.lru.getLast? with
    | some evictKey => ⟨cache.map.filter fun entry => entry.1 ≠ evictKey, cache.lru.dropLast⟩
    | none => cache
  else cache

/-- What `GetOrBuildCoeffMatrix` may return, and the cache after it. -/
def GetOrBuildCoeffMatrix (cache : CoeffCache) (key : CoeffCacheKey) (matrix : Words)
    (after : CoeffCache) : Prop :=
  match cache.find key with
  | some found => matrix = found ∧ after = cache.touch key
  | none =>
    (∃ fresh, key.BuildCauchyMatrix host fresh matrix) ∧
      after = ⟨(key, matrix) :: cache.evict.map, key :: cache.evict.lru⟩

/-- The cache after some calls. -/
inductive Reachable : CoeffCache → Prop where
  | start : Reachable empty
  | call (host : EngineHost) (cache after : CoeffCache) (key : CoeffCacheKey) (matrix : Words)
      (earlier : Reachable cache)
      (called : cache.GetOrBuildCoeffMatrix host key matrix after) : Reachable after

/-- Every matrix is the one of its parameters. The list of uses names the same matrices, each
once, and there are at most eight. -/
structure Sound (cache : CoeffCache) : Prop where
  holds : ∀ entry ∈ cache.map, entry.1.Holds entry.2
  listed : (cache.map.map Prod.fst).Perm cache.lru
  distinct : cache.lru.Nodup
  small : cache.map.length ≤ 8

variable {host} {cache after : CoeffCache} {key : CoeffCacheKey} {matrix : Words}

theorem empty_sound : empty.Sound where
  holds := fun _ member => nomatch member
  listed := .nil
  distinct := List.nodup_nil
  small := Nat.zero_le _

theorem find_mem {found : Words} (here : cache.find key = some found) :
    (key, found) ∈ cache.map := by
  obtain ⟨entry, first, rfl⟩ := Option.map_eq_some_iff.mp here
  have same : entry.1 = key := by simpa using List.find?_some first
  subst same
  exact List.mem_of_find?_eq_some first

theorem find_absent (absent : cache.find key = none) : key ∉ cache.map.map Prod.fst := by
  intro member
  obtain ⟨entry, inside, same⟩ := List.mem_map.mp member
  have none := Option.map_eq_none_iff.mp absent
  have differs := List.find?_eq_none.mp none entry inside
  exact differs (decide_eq_true same)

theorem touch_sound (sound : cache.Sound) (member : key ∈ cache.lru) : (cache.touch key).Sound where
  holds := sound.holds
  listed := by
    have moved : (key :: cache.lru.filter fun other => other ≠ key).Perm cache.lru := by
      have erased := List.perm_cons_erase member
      rw [sound.distinct.erase_eq_filter] at erased
      simpa [bne, beq_eq_decide] using erased.symm
    exact sound.listed.trans moved.symm
  distinct := by
    apply List.nodup_cons.mpr
    constructor
    · intro member
      have differs := of_decide_eq_true (List.mem_filter.mp member).2
      exact differs rfl
    · exact sound.distinct.filter _
  small := sound.small

/-- The cache has room after the eviction. -/
theorem evict_sound (sound : cache.Sound) :
    cache.evict.Sound ∧ cache.evict.map.length < 8 ∧ ∀ entry ∈ cache.evict.map, entry ∈ cache.map := by
  have same : cache.map.length = cache.lru.length := by
    rw [← sound.listed.length_eq, List.length_map]
  unfold evict
  split
  · rename_i full
    split
    · rename_i evictKey last
      obtain ⟨kept, used⟩ := List.getLast?_eq_some_iff.mp last
      have apart : evictKey ∉ kept ∧ kept.Nodup := by
        have distinct := sound.distinct
        rw [used, List.nodup_append] at distinct
        exact ⟨fun member => distinct.2.2 _ member _ List.mem_cons_self rfl, distinct.1⟩
      have listed : ((cache.map.filter fun entry => entry.1 ≠ evictKey).map Prod.fst).Perm kept := by
        have filtered := sound.listed.filter fun key => key ≠ evictKey
        rw [used, List.filter_append, List.filter_map] at filtered
        have all : kept.filter (fun key => key ≠ evictKey) = kept := by
          apply List.filter_eq_self.mpr
          intro key member
          apply decide_eq_true
          rintro rfl
          exact apart.1 member
        rw [all] at filtered
        simpa [Function.comp_def] using filtered
      have shorter : (cache.map.filter fun entry => entry.1 ≠ evictKey).length < 8 := by
        have length := listed.length_eq
        rw [List.length_map] at length
        have total := sound.small
        rw [same, used, List.length_append, List.length_singleton] at total
        omega
      have inside : ∀ entry ∈ cache.map.filter fun entry => entry.1 ≠ evictKey,
          entry ∈ cache.map := fun entry member => (List.mem_filter.mp member).1
      refine ⟨⟨fun entry member => sound.holds entry (inside entry member), ?_, ?_, shorter.le⟩,
        shorter, inside⟩
      · rw [used, List.dropLast_concat]
        exact listed
      · rw [used, List.dropLast_concat]
        exact apart.2
    · rename_i none
      have short : cache.lru.length = 0 := List.length_eq_zero_iff.mpr (List.getLast?_eq_none_iff.mp none)
      omega
  · rename_i room
    exact ⟨sound, Nat.not_le.mp room, fun _ member => member⟩

/-- A call returns the matrix of its parameters, from the cache or built, and keeps the cache
sound. -/
theorem GetOrBuildCoeffMatrix_sound (sound : cache.Sound)
    (called : cache.GetOrBuildCoeffMatrix host key matrix after) :
    key.Holds matrix ∧ after.Sound := by
  unfold GetOrBuildCoeffMatrix at called
  split at called
  · rename_i found here
    obtain ⟨rfl, rfl⟩ := called
    have member := find_mem here
    refine ⟨sound.holds _ member, touch_sound sound ?_⟩
    exact sound.listed.mem_iff.mp (List.mem_map_of_mem member)
  · rename_i absent
    obtain ⟨⟨fresh, builds⟩, rfl⟩ := called
    have holds := CoeffCacheKey.BuildCauchyMatrix_holds builds
    obtain ⟨evicted, room, inside⟩ := evict_sound sound
    have new : key ∉ cache.evict.lru := by
      intro member
      obtain ⟨entry, there, same⟩ := List.mem_map.mp (evicted.listed.mem_iff.mpr member)
      exact find_absent absent (List.mem_map.mpr ⟨entry, inside entry there, same⟩)
    refine ⟨holds, ⟨?_, ?_, ?_, ?_⟩⟩
    · intro entry member
      rcases List.mem_cons.mp member with rfl | member
      · exact holds
      · exact evicted.holds entry member
    · exact evicted.listed.cons key
    · exact List.nodup_cons.mpr ⟨new, evicted.distinct⟩
    · exact room

theorem Reachable.sound (reachable : Reachable cache) : cache.Sound := by
  induction reachable with
  | start => exact empty_sound
  | call host cache after key matrix earlier called ih =>
    exact (GetOrBuildCoeffMatrix_sound ih called).2

theorem GetOrBuildCoeffMatrix_exists (host : EngineHost) (cache : CoeffCache) (key : CoeffCacheKey) :
    ∃ matrix after, cache.GetOrBuildCoeffMatrix host key matrix after := by
  unfold GetOrBuildCoeffMatrix
  split
  · exact ⟨_, _, rfl, rfl⟩
  · obtain ⟨matrix, builds⟩ := key.BuildCauchyMatrix_exists host fun _ => 0
    exact ⟨matrix, _, ⟨_, builds⟩, rfl⟩

end CoeffCache

end Par3

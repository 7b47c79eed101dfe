import Par3.RepairContract

/-!
# What the restored files hold

Repair writes one block behind the other, and each file is the start of its own blocks up
to its recorded length. The files come back exactly when every written block begins with
the bytes of the original one. A block that survives always does. The window of a short
block, however, goes on with the next packet, whose first byte is never zero, so it enters
the equations as another block than the padded one.
-/

namespace Par3

/-- The files that a list of blocks stands for: each takes its blocks, one behind the other,
up to its recorded length. -/
def restoredFiles (blockSize : ℕ) : List SourceFile → List Buffer → List Buffer
  | [], _ => []
  | file :: later, blocks =>
    (blocks.take (file.blockCount blockSize)).flatten.take file.contents.length ::
      restoredFiles blockSize later (blocks.drop (file.blockCount blockSize))

/-- The known blocks that repair builds its equations from, none when nothing is missing. -/
def equationBlocks (blake3 : Hash) (backend : Backend) (file : Buffer) : List (ℕ × Buffer) :=
  match readArchive blake3 backend file with
  | .error _ => []
  | .ok state =>
    let available := buildAvailableMap state.startPacket.block_size state.dataBlocks
      state.recoveryData
    let missing := missingBlocks available
      (double (state.totalInputBlocks + state.totalRecoveryBlocks)).toNat
    if missing.length = 0 then []
    else (state.knownInputIndices available missing).map fun index =>
      (index, (available index).getD [])

/-! ## Blocks and files -/

/-- A block is at least as long as the bytes it has to hold and at most one block size. -/
def Sized (blockSize : ℕ) (piece block : Buffer) : Prop :=
  piece.length ≤ block.length ∧ block.length ≤ blockSize

/-- A relation between two lists holds on a first part and on the rest. -/
theorem forall₂_append_left {α β : Type*} {R : α → β → Prop} (first second : List α)
    (list : List β) : List.Forall₂ R (first ++ second) list ↔
      List.Forall₂ R first (list.take first.length) ∧
        List.Forall₂ R second (list.drop first.length) := by
  constructor
  · intro related
    have front := List.forall₂_take first.length related
    have back := List.forall₂_drop first.length related
    rw [List.take_left] at front
    rw [List.drop_left] at back
    exact ⟨front, back⟩
  · rintro ⟨front, back⟩
    have whole : List.Forall₂ R (first ++ second)
        (list.take first.length ++ list.drop first.length) := List.rel_append front back
    rwa [List.take_append_drop] at whole

/-- One file is the start of its blocks exactly when every block begins with its piece. The
induction follows the cut; only the last block may be longer than its piece. -/
theorem flatten_take_iff (size : ℕ) (pos : 0 < size) (contents : Buffer)
    (blocks : List Buffer) (sized : List.Forall₂ (Sized size) (cut size contents) blocks) :
    blocks.flatten.take contents.length = contents ↔
      List.Forall₂ (· <+: ·) (cut size contents) blocks := by
  induction contents using cut.induct size generalizing blocks with
  | case1 contents empty =>
    have nil : contents = [] := List.length_eq_zero_iff.mp (by omega)
    subst nil
    rw [cut_nil] at sized ⊢
    rw [List.forall₂_nil_left_iff] at sized
    subst sized
    simp
  | case2 contents nonempty ih =>
    rw [cut_cons pos (by omega)] at sized ⊢
    obtain ⟨block, later, ⟨holds, fits⟩, rest, rfl⟩ := List.forall₂_cons_left_iff.mp sized
    rw [List.forall₂_cons, ← ih later rest, List.flatten_cons]
    rcases Nat.le_total contents.length size with short | long
    · have whole : contents.take size = contents := List.take_of_length_le short
      have nothing : contents.drop size = [] := List.drop_eq_nil_of_le short
      rw [whole] at holds ⊢
      rw [nothing, List.take_append_of_le_length holds, List.prefix_iff_eq_take]
      simp [eq_comm]
    · have width : (contents.take size).length = size := List.length_take_of_le long
      have exact : block.length = size := le_antisymm fits (width ▸ holds)
      have split : (block ++ later.flatten).take contents.length =
          block ++ later.flatten.take (contents.drop size).length := by
        rw [List.take_append, List.take_of_length_le (by omega), List.length_drop, exact]
      have parts : block ++ later.flatten.take (contents.drop size).length = contents ↔
          block = contents.take size ∧
            later.flatten.take (contents.drop size).length = contents.drop size := by
        have joined := List.take_append_drop size contents
        constructor
        · exact fun whole => List.append_inj (whole.trans joined.symm) (exact.trans width.symm)
        · rintro ⟨first, second⟩
          rw [first, second, joined]
      rw [split, parts]
      refine and_congr_left fun _ => ?_
      constructor
      · rintro rfl
        exact List.prefix_rfl
      · exact fun starts => (starts.eq_of_length (width.trans exact.symm)).symm

/-- All files come back exactly when every block begins with its piece. -/
theorem restoredFiles_iff (blockSize : ℕ) (pos : 0 < blockSize) (files : List SourceFile)
    (blocks : List Buffer)
    (sized : List.Forall₂ (Sized blockSize)
      (files.flatMap fun file => cut blockSize file.contents) blocks) :
    restoredFiles blockSize files blocks = files.map SourceFile.contents ↔
      List.Forall₂ (· <+: ·) (files.flatMap fun file => cut blockSize file.contents) blocks := by
  induction files generalizing blocks with
  | nil =>
    rw [List.flatMap_nil, List.forall₂_nil_left_iff] at sized
    subst sized
    simp [restoredFiles]
  | cons file later ih =>
    have count : file.blockCount blockSize = (cut blockSize file.contents).length :=
      (cut_length blockSize pos file.contents).symm
    rw [List.flatMap_cons, forall₂_append_left] at sized ⊢
    rw [restoredFiles, List.map_cons, List.cons.injEq, count,
      flatten_take_iff blockSize pos _ _ sized.1, ih _ sized.2]

/-! ## The written blocks -/

/-- Files with distinct indices are read back from the map they are written to. -/
theorem foldl_set_of_mem (files : List (ℕ × Buffer)) (distinct : (files.map Prod.fst).Nodup)
    (map : BlockMap) {index : ℕ} {block : Buffer} (member : (index, block) ∈ files) :
    files.foldl (fun (map : BlockMap) file => map.set file.1 file.2) map index = some block := by
  induction files using List.reverseRecOn generalizing map with
  | nil => cases member
  | append_singleton earlier last ih =>
    rw [List.map_append, List.map_singleton, List.nodup_append] at distinct
    rw [List.foldl_append, List.foldl_cons, List.foldl_nil, BlockMap.set]
    rcases List.mem_append.mp member with before | here
    · have other : index ≠ last.1 :=
        distinct.2.2 index (List.mem_map_of_mem before) last.1 (List.mem_singleton_self _)
      rw [if_neg other]
      exact ih distinct.1 map before
    · rw [List.mem_singleton] at here
      subst here
      exact if_pos rfl

/-- An index that no file has keeps its entry. -/
theorem foldl_set_of_not_mem (files : List (ℕ × Buffer)) (map : BlockMap) {index : ℕ}
    (absent : index ∉ files.map Prod.fst) :
    files.foldl (fun (map : BlockMap) file => map.set file.1 file.2) map index = map index := by
  induction files generalizing map with
  | nil => rfl
  | cons file later ih =>
    rw [List.map_cons, List.mem_cons, not_or] at absent
    rw [List.foldl_cons, ih _ absent.2, BlockMap.set, if_neg absent.1]

namespace Damage

variable {blake3 : Hash} (damage : Damage blake3) (archive : Archive) (backend : Backend)

/-- A window begins with the bytes of its block. -/
theorem blockData_prefix (index : ℕ) :
    archive.blockData.getD index [] <+: damage.readBlock archive index := by
  have bound := archive.blockData_bounded index
  rw [readBlock, List.take_append, List.take_of_length_le bound]
  exact List.prefix_append _ _

theorem readBlock_length_le (index : ℕ) :
    (damage.readBlock archive index).length ≤ archive.blockSize := by
  rw [readBlock, List.length_take]
  exact Nat.min_le_left _ _

/-- The blocks that a successful reconstruction writes: windows for survivors, solutions for
lost inputs. -/
theorem writeBlocks_getD (nonempty : 0 < archive.totalBlocks)
    (solution : Fin (damage.missing archive).length → Words) (index : ℕ)
    (inside : index < archive.totalBlocks) :
    let result := (damage.state archive).writeBlocks backend (damage.available archive)
      (damage.missing archive) solution
    result.blocks.length = archive.totalBlocks ∧
      (index ∈ damage.survivors archive →
        result.blocks.getD index [] = damage.readBlock archive index) ∧
      ∀ block, (index, block) ∈ result.blockFiles → result.blocks.getD index [] = block := by
  have inputs : (damage.state archive).totalInputBlocks = archive.totalBlocks :=
    inputCount_eq archive nonempty
  have keys : (((damage.state archive).writeBlocks backend (damage.available archive)
      (damage.missing archive) solution).blockFiles).map Prod.fst = damage.missing archive := by
    rw [RepairState.writeBlocks, List.map_map]
    exact List.map_get_finRange _
  intro result
  have length : result.blocks.length = archive.totalBlocks := by
    simp only [result, RepairState.writeBlocks, inputs, Int.toNat_natCast, List.length_map,
      List.length_range]
  have entry : result.blocks.getD index [] =
      (result.blockFiles.foldl (fun (map : BlockMap) block => map.set block.1 block.2)
        (damage.available archive) index).getD [] := by
    rw [List.getD_eq_getElem _ _ (by omega)]
    simp only [result, RepairState.writeBlocks, List.getElem_map, List.getElem_range]
  refine ⟨length, fun survives => ?_, fun block file => ?_⟩
  · have absent : index ∉ result.blockFiles.map Prod.fst := by
      rw [keys, mem_missing, mem_lostInputs]
      rintro (⟨_, lost⟩ | ⟨row, _, same⟩)
      · rw [(List.mem_filter.mp survives).2] at lost
        cases lost
      · omega
    rw [entry, foldl_set_of_not_mem _ _ absent]
    exact damage.survivors_available archive survives
  · rw [entry, foldl_set_of_mem _ (keys ▸ damage.missing_nodup archive) _ file]
    rfl

/-- A repair with losses that succeeds writes the blocks of some solution. -/
theorem par3_repair_solution (nonempty : 0 < archive.totalBlocks)
    (lossy : 0 < (damage.missing archive).length) {result : RepairResult}
    (success : par3_repair blake3 backend (damage.file archive) = .ok result) :
    ∃ solution, result = (damage.state archive).writeBlocks backend (damage.available archive)
      (damage.missing archive) solution := by
  obtain ⟨enough, reconstructed⟩ := (damage.par3_repair_lossy archive backend nonempty lossy
    result).mp success
  rw [damage.reconstruct_file archive backend nonempty lossy enough] at reconstructed
  by_cases entries : damage.nativeUsed archive backend = true ∧ damage.lostRecovery archive ≠ []
  · rw [if_pos entries] at reconstructed
    cases reconstructed
  · rw [if_neg entries] at reconstructed
    cases solved : SolveAndReconstruct (damage.systemMatrix archive)
        (damage.systemRhs archive backend) with
    | none =>
      rw [solved] at reconstructed
      cases reconstructed
    | some solution =>
      rw [solved] at reconstructed
      exact ⟨solution, (Except.ok.inj reconstructed).symm⟩

/-- Blocks relate to the pieces of the files when they do so at every index. -/
theorem forall₂_blockData (R : Buffer → Buffer → Prop) (blocks : List Buffer)
    (length : blocks.length = archive.totalBlocks) :
    List.Forall₂ R archive.blockData blocks ↔
      ∀ index < archive.totalBlocks,
        R (archive.blockData.getD index []) (blocks.getD index []) := by
  have pieces := archive.blockData_length
  rw [List.forall₂_iff_get]
  constructor
  · rintro ⟨_, related⟩ index inside
    rw [List.getD_eq_getElem _ _ (by omega), List.getD_eq_getElem _ _ (by omega)]
    exact related index (by omega) (by omega)
  · refine fun related => ⟨by omega, fun index first second => ?_⟩
    have entry := related index (by omega)
    rwa [List.getD_eq_getElem _ _ first, List.getD_eq_getElem _ _ second] at entry

theorem mem_survivors_or_lost {index : ℕ} (inside : index < archive.totalBlocks) :
    index ∈ damage.survivors archive ∨ index ∈ damage.lostInputs archive := by
  rw [survivors, List.mem_filter, List.mem_range, mem_lostInputs]
  cases (damage.data index).survives <;> simp [inside]

/-- Without a lost input every block is a window. -/
theorem dataBlocks_complete (complete : damage.lostInputs archive = []) :
    (damage.dataBlocks archive).map DataBlock.data =
      (List.range archive.totalBlocks).map (damage.readBlock archive) := by
  have survives (index : ℕ) (inside : index < archive.totalBlocks) :
      (damage.data index).survives = true := by
    rcases damage.mem_survivors_or_lost archive inside with survives | lost
    · exact (List.mem_filter.mp survives).2
    · rw [complete] at lost
      cases lost
  rw [dataBlocks, List.map_filterMap, ← List.filterMap_eq_map]
  refine List.filterMap_congr fun index member => ?_
  rw [if_pos (survives index (List.mem_range.mp member))]
  rfl

/-- Without a lost input the windows hold the files. -/
theorem restoredFiles_complete (complete : damage.lostInputs archive = []) :
    restoredFiles archive.blockSize archive.files
        ((damage.dataBlocks archive).map DataBlock.data) =
      archive.files.map SourceFile.contents := by
  have length : ((List.range archive.totalBlocks).map (damage.readBlock archive)).length =
      archive.totalBlocks := by
    rw [List.length_map, List.length_range]
  have entry (index : ℕ) (inside : index < archive.totalBlocks) :
      ((List.range archive.totalBlocks).map (damage.readBlock archive)).getD index [] =
        damage.readBlock archive index := by
    rw [List.getD_eq_getElem _ _ (by omega), List.getElem_map, List.getElem_range]
  rw [damage.dataBlocks_complete archive complete]
  refine (restoredFiles_iff archive.blockSize archive.blockSize_pos archive.files _ ?_).mpr ?_
  · refine (forall₂_blockData archive _ _ length).mpr fun index inside => ?_
    rw [entry index inside]
    exact ⟨(damage.blockData_prefix archive index).length_le,
      damage.readBlock_length_le archive index⟩
  · refine (forall₂_blockData archive _ _ length).mpr fun index inside => ?_
    rw [entry index inside]
    exact damage.blockData_prefix archive index

/-- The files come back from a successful reconstruction exactly when the block file of every
lost input begins with the original bytes. -/
theorem restoredFiles_lossy (nonempty : 0 < archive.totalBlocks)
    (lossy : 0 < (damage.missing archive).length) {result : RepairResult}
    (success : par3_repair blake3 backend (damage.file archive) = .ok result) :
    restoredFiles archive.blockSize archive.files result.blocks =
        archive.files.map SourceFile.contents ↔
      ∀ index ∈ damage.lostInputs archive, ∃ block,
        (index, block) ∈ result.blockFiles ∧ archive.blockData.getD index [] <+: block := by
  obtain ⟨solution, rfl⟩ := damage.par3_repair_solution archive backend nonempty lossy success
  have written (index : ℕ) (inside : index < archive.totalBlocks) :=
    damage.writeBlocks_getD archive backend nonempty solution index inside
  have solved (index : ℕ) (lost : index ∈ damage.lostInputs archive) :=
    (damage.mem_blockFiles archive backend solution index _).mpr
      ⟨(damage.mem_missing archive index).mpr (.inl lost), rfl⟩
  have length := (written 0 nonempty).1
  have sized : List.Forall₂ (Sized archive.blockSize) archive.blockData
      ((damage.state archive).writeBlocks backend (damage.available archive)
        (damage.missing archive) solution).blocks := by
    refine (forall₂_blockData archive _ _ length).mpr fun index inside => ?_
    rcases damage.mem_survivors_or_lost archive inside with survives | lost
    · rw [(written index inside).2.1 survives]
      exact ⟨(damage.blockData_prefix archive index).length_le,
        damage.readBlock_length_le archive index⟩
    · rw [(written index inside).2.2 _ (solved index lost)]
      have width : (ofWords (archive.blockSize / 8)
          (damage.solvedWord archive solution index)).length = archive.blockSize := by
        rw [ofWords_length, archive.blockSize_eq]
      exact ⟨width.symm ▸ archive.blockData_bounded index, width.le⟩
  have files := restoredFiles_iff archive.blockSize archive.blockSize_pos archive.files _ sized
  refine files.trans ((forall₂_blockData archive _ _ length).trans ?_)
  constructor
  · intro starts index lost
    have inside := ((damage.mem_lostInputs archive index).mp lost).1
    refine ⟨_, solved index lost, ?_⟩
    rw [← (written index inside).2.2 _ (solved index lost)]
    exact starts index inside
  · intro starts index inside
    rcases damage.mem_survivors_or_lost archive inside with survives | lost
    · rw [(written index inside).2.1 survives]
      exact damage.blockData_prefix archive index
    · obtain ⟨block, file, starts⟩ := starts index lost
      rw [(written index inside).2.2 block file]
      exact starts

/-! ## Short blocks in the equations -/

theorem equationBlocks_file (nonempty : 0 < archive.totalBlocks) :
    equationBlocks blake3 backend (damage.file archive) =
      if (damage.missing archive).length = 0 then []
      else (damage.survivors archive).map fun index => (index, damage.readBlock archive index) := by
  have blocks := archive.totalBlocks_le
  have slices := archive.recoverySlices_small
  have total : (double ((archive.totalBlocks : ℤ) + (archive.recoverySlices : ℤ))).toNat =
      archive.totalBlocks + archive.recoveryPackets := by
    rw [← Nat.cast_add, double_natCast _ (by omega), Int.toNat_natCast, Archive.recoveryPackets,
      if_neg (by omega)]
  have map : buildAvailableMap archive.startPacket.block_size (damage.dataBlocks archive)
      (damage.recoveryData archive) = damage.available archive := rfl
  have known := damage.knownInputIndices_eq archive nonempty
  rw [state] at known
  rw [equationBlocks, readArchive_file]
  simp only [map, inputCount_eq archive nonempty, total, missingBlocks_eq]
  split
  · rfl
  · rw [inputCount_eq archive nonempty] at known
    rw [known]
    refine List.map_congr_left fun index member => ?_
    rw [damage.survivors_available archive member]

/-- Behind every DATA packet stands the first byte of a packet when a RECOVERY packet
survives. -/
theorem following_head
    (follows : ∃ row < archive.recoveryPackets, (damage.recovery row).survives = true) (index : ℕ) :
    (damage.following archive index).head? = some 80 := by
  obtain ⟨row, inside, survives⟩ := follows
  have first (packets : List RawPacket) (some : packets ≠ []) :
      (packetBytes packets).head? = Option.some 80 := by
    cases packets with
    | nil => exact absurd rfl some
    | cons packet later => rfl
  refine first _ fun none => ?_
  have nothing := (List.append_eq_nil_iff.mp none).2
  rw [recoveryPackets, List.filterMap_eq_nil_iff] at nothing
  have lost := nothing row (by rw [← List.range_eq_range']; exact List.mem_range.mpr inside)
  cases fate : damage.recovery row with
  | intact =>
    rw [fate] at lost
    cases lost
  | lost => simp [fate, Fate.survives] at survives
  | damaged replacement => simp [fate, Fate.survives] at survives

/-- A window is the padded block only for a full block: padding is zero, and the next packet
does not begin with a zero. -/
theorem readBlock_eq_iff
    (follows : ∃ row < archive.recoveryPackets, (damage.recovery row).survives = true) (index : ℕ) :
    damage.readBlock archive index = archive.inputBlock index ↔
      (archive.blockData.getD index []).length = archive.blockSize := by
  have bound := archive.blockData_bounded index
  refine ⟨fun same => ?_, damage.readBlock_full archive⟩
  by_contra short
  obtain ⟨rest, packet⟩ := List.head?_eq_some_iff.mp
    (damage.following_head archive follows index)
  rw [readBlock, packet, Archive.inputBlock, padBlock, List.take_append,
    List.take_of_length_le bound, List.append_cancel_left_eq] at same
  obtain ⟨room, width⟩ : ∃ room, archive.blockSize -
      (archive.blockData.getD index []).length = room + 1 := Nat.exists_eq_succ_of_ne_zero (by omega)
  rw [width, List.take_succ_cons, List.replicate_succ] at same
  exact absurd (List.cons.inj same).1 (by decide)

/-! ## Restoring files -/

/-- Repair succeeds, the files come back, and short blocks enter the equations zero-padded. -/
def restoresFiles : Prop :=
  ∃ result, par3_repair blake3 backend (damage.file archive) = .ok result ∧
    restoredFiles archive.blockSize archive.files result.blocks =
      archive.files.map SourceFile.contents ∧
    ∀ known ∈ equationBlocks blake3 backend (damage.file archive),
      known.2 = archive.inputBlock known.1

/-- The condition under which repair restores the files. -/
def restorableFiles : Prop :=
  0 < archive.totalBlocks ∧
    ((damage.lostInputs archive = [] ∧ damage.lostRecovery archive = []) ∨
      (damage.Solvable archive backend ∧
        (∀ index ∈ damage.survivors archive,
          (archive.blockData.getD index []).length = archive.blockSize) ∧
        ∃ candidate : ℕ → Buffer,
          (∀ index ∈ damage.lostInputs archive, (candidate index).length = archive.blockSize ∧
            archive.blockData.getD index [] <+: candidate index) ∧
          damage.explains archive candidate))

theorem restoresFiles_iff : damage.restoresFiles archive backend ↔
    damage.restorableFiles archive backend := by
  rcases Nat.eq_zero_or_pos archive.totalBlocks with empty | nonempty
  · constructor
    · rintro ⟨result, success, _⟩
      rw [damage.par3_repair_empty archive backend empty] at success
      cases success
    · exact fun condition => absurd empty condition.1.ne'
  rw [restoresFiles, equationBlocks_file _ _ _ nonempty]
  rcases Nat.eq_zero_or_pos (damage.missing archive).length with complete | lossy
  · obtain ⟨inputs, recovery⟩ := (damage.missing_eq_zero archive).mp complete
    obtain ⟨result, success, written⟩ :=
      damage.par3_repair_complete archive backend nonempty complete
    refine ⟨fun _ => ⟨nonempty, .inl ⟨inputs, recovery⟩⟩, fun _ => ⟨result, success, ?_, ?_⟩⟩
    · rw [written]
      exact damage.restoredFiles_complete archive inputs
    · rw [if_pos complete]
      intro known none
      cases none
  · have general := damage.par3_repair_iff archive backend nonempty lossy
      fun index block => archive.blockData.getD index [] <+: block
    rw [if_neg (by omega)]
    constructor
    · rintro ⟨result, success, files, padded⟩
      have starts := (damage.restoredFiles_lossy archive backend nonempty lossy success).mp files
      obtain ⟨solvable, found⟩ := general.mp ⟨result, success, starts⟩
      have enough := (damage.equations_iff archive).mpr solvable.equations
      refine ⟨nonempty, .inr ⟨solvable, fun index survives => ?_, found⟩⟩
      have follows := damage.exists_surviving archive lossy enough
      exact (damage.readBlock_eq_iff archive follows index).mp
        (padded _ (List.mem_map_of_mem survives))
    · rintro ⟨_, complete | ⟨solvable, full, found⟩⟩
      · have none := (damage.missing_eq_zero archive).mpr complete
        omega
      · obtain ⟨result, success, starts⟩ := general.mpr ⟨solvable, found⟩
        refine ⟨result, success,
          (damage.restoredFiles_lossy archive backend nonempty lossy success).mpr starts, ?_⟩
        intro known member
        obtain ⟨index, survives, rfl⟩ := List.mem_map.mp member
        exact damage.readBlock_full archive (full index survives)

/-- Whenever enough recovery blocks survive: repair restores the files if and only if its
condition holds. -/
theorem repair_restores_files :
    (damage.enoughSurvive archive → damage.restoresFiles archive backend) ↔
      (damage.enoughSurvive archive → damage.restorableFiles archive backend) :=
  imp_congr_right fun _ => damage.restoresFiles_iff archive backend

end Damage

/-- A file of five bytes, shorter than a block. -/
def shortFile : SourceFile where
  name := [98]
  contents := [1, 2, 3, 4, 5]
  mode := 0
  fileId := List.replicate 16 0

/-- A short block, a full block and one recovery block. -/
def shortArchive : Archive where
  blockSize := 1024
  files := [shortFile, blockFile]
  recoverySlices := 1
  creator := none
  inputSetId := List.replicate 8 0
  blockSize_pos := oneBlock.blockSize_pos
  blockSize_words := oneBlock.blockSize_words
  blockSize_small := oneBlock.blockSize_small
  names_small := by decide +kernel
  files_small := by simp
  creator_small := oneBlock.creator_small
  inputSetId_length := oneBlock.inputSetId_length
  totalBlocks_small := by decide +kernel
  recoverySlices_small := by decide

theorem shortArchive_totalBlocks : shortArchive.totalBlocks = 2 := by decide +kernel

/-- The DATA packet of the full block is dropped. -/
def secondLost (blake3 : Hash) : Damage blake3 where
  data := fun index => if index = 1 then .lost else .intact
  recovery := fun _ => .intact
  data_fails := by
    intro index replacement fate
    split at fate <;> cases fate
  recovery_fails := intact_recovery_fails blake3

/-- The short block survives and its window ends with the first bytes of the next packet, so
the full block is not restored from the recovery block. -/
theorem short_block_unpadded : ¬ ∃ (blake3 : Hash) (backend : Backend),
    (secondLost blake3).enoughSurvive shortArchive →
      (secondLost blake3).restoresFiles shortArchive backend := by
  rintro ⟨blake3, backend, claimed⟩
  have packets : shortArchive.recoveryPackets = 1 := by
    rw [Archive.recoveryPackets, shortArchive_totalBlocks]
    rfl
  have inputs : (secondLost blake3).lostInputs shortArchive = [1] := by
    rw [Damage.lostInputs, shortArchive_totalBlocks]
    rfl
  have recovery : (secondLost blake3).lostRecovery shortArchive = [] := by
    rw [Damage.lostRecovery, packets]
    rfl
  have member : 0 ∈ (secondLost blake3).survivors shortArchive := by
    rw [Damage.survivors, shortArchive_totalBlocks]
    exact List.mem_singleton_self 0
  have short : (shortArchive.blockData.getD 0 []).length = 5 := by decide +kernel
  obtain ⟨_, complete | ⟨_, full, _⟩⟩ := ((secondLost blake3).restoresFiles_iff shortArchive
    backend).mp (claimed (by
      rw [Damage.enoughSurvive, inputs, recovery, packets]
      decide))
  · rw [inputs] at complete
    cases complete.1
  · have width := full 0 member
    rw [short] at width
    exact absurd width (by decide)

end Par3

import Par3.Foundations.FallibleLoops
import Par3.RecoveryFiles
import Mathlib.Algebra.Order.BigOperators.Group.List

/-!
# The exponents of recovery files

Whatever the scheme, the volumes of a plan take up the exponents one after the other, and none of
them is empty. A file keeps the order of its recovery packets however critical packets are spread
among them.
-/
namespace Par3

open FallibleLoops

/-- The exponents of the recovery packets of a file, in their order. -/
def PAR2OutFile.exponents (file : PAR2OutFile) : List ℕ :=
  (file.packets.filterMap id).filterMap fun pkt => if pkt.type = .recovery then pkt.index else none

namespace PAR2Gen

/-! ## Volumes -/

/-- Volumes that are not empty and follow each other. -/
def Consecutive : ℕ → List (ℕ × ℕ) → ℕ → Prop
  | start, [], stop => start = stop
  | start, (numSlices, offset) :: rest, stop =>
    offset = start ∧ 0 < numSlices ∧ Consecutive (start + numSlices) rest stop

theorem Consecutive.le {start stop : ℕ} {list : List (ℕ × ℕ)}
    (consecutive : Consecutive start list stop) : start ≤ stop := by
  induction list generalizing start with
  | nil => exact Nat.le_of_eq consecutive
  | cons first rest ih =>
    obtain ⟨-, -, later⟩ := consecutive
    exact (Nat.le_add_right _ _).trans (ih later)

theorem Consecutive.flatMap {start stop : ℕ} {list : List (ℕ × ℕ)}
    (consecutive : Consecutive start list stop) :
    list.flatMap (fun volume => List.range' volume.2 volume.1) = List.range' start (stop - start) := by
  induction list generalizing start with
  | nil =>
    obtain rfl : start = stop := consecutive
    rw [Nat.sub_self]
    rfl
  | cons first rest ih =>
    obtain ⟨numSlices, offset⟩ := first
    obtain ⟨rfl, -, later⟩ := consecutive
    have bound := later.le
    rw [List.flatMap_cons, ih later, List.range'_append_1]
    congr 1
    omega

theorem Consecutive.nonempty {start stop : ℕ} {list : List (ℕ × ℕ)}
    (consecutive : Consecutive start list stop) : ∀ volume ∈ list, 0 < volume.1 := by
  induction list generalizing start with
  | nil => exact fun volume member => nomatch member
  | cons first rest ih =>
    obtain ⟨-, pos, later⟩ := consecutive
    exact List.forall_mem_cons.mpr ⟨pos, ih later⟩

theorem Consecutive.cons {start numSlices stop : ℕ} {rest : List (ℕ × ℕ)} (pos : 0 < numSlices)
    (later : Consecutive (start + numSlices) rest stop) :
    Consecutive start ((numSlices, start) :: rest) stop := ⟨rfl, pos, later⟩

theorem ceilQuotient_nat (a b : ℕ) : ceilQuotient a (b + 1) = ((a + b) / (b + 1) : ℕ) := by
  have lower := @Nat.lt_div_mul_add (a + b) (b + 1) (Nat.succ_pos b)
  have upper := Nat.div_mul_le_self (a + b) (b + 1)
  generalize (a + b) / (b + 1) = quotient at lower upper ⊢
  have pos : (0 : ℚ) < ((b + 1 : ℤ) : ℚ) := by exact_mod_cast Nat.succ_pos b
  rw [ceilQuotient, Int.ceil_eq_iff, lt_div_iff₀ pos, div_le_iff₀ pos]
  constructor
  · have bound : ((quotient : ℤ) - 1) * (b + 1) < a := by
      have cast : (quotient : ℤ) * (b + 1) ≤ a + b := by exact_mod_cast upper
      linarith
    exact_mod_cast bound
  · have bound : a ≤ quotient * (b + 1) := by omega
    exact_mod_cast bound

/-- Volumes that grow begin where the offset or the position is. -/
theorem getSliceNumsOffsets_consecutive {totalSlices recoveryOffset outputFileMaxSlices : ℕ}
    (wide : 0 < outputFileMaxSlices) (within : recoveryOffset ≤ totalSlices) {fuel i slices : ℕ}
    (room : totalSlices ≤ fuel + i) (pos : 0 < slices) :
    Consecutive (min (max i recoveryOffset) totalSlices)
      (getSliceNumsOffsets totalSlices recoveryOffset outputFileMaxSlices fuel i slices)
      totalSlices := by
  induction fuel generalizing i slices with
  | zero =>
    rw [getSliceNumsOffsets, Consecutive]
    omega
  | succ fuel ih =>
    have later := @ih (i + slices) (min (slices * 2) outputFileMaxSlices) (by omega)
      (by omega)
    rw [getSliceNumsOffsets]
    by_cases more : i < totalSlices
    · rw [if_pos more]
      by_cases below : i + min slices (totalSlices - i) ≤ recoveryOffset
      · rw [if_pos below]
        have same : min (max i recoveryOffset) totalSlices =
            min (max (i + slices) recoveryOffset) totalSlices := by omega
        rw [same]
        exact later
      · rw [if_neg below]
        by_cases cut : recoveryOffset > i
        · rw [if_pos cut]
          have start : min (max i recoveryOffset) totalSlices = recoveryOffset := by omega
          rw [start]
          refine Consecutive.cons (by omega) ?_
          convert later using 1
          omega
        · rw [if_neg cut]
          have start : min (max i recoveryOffset) totalSlices = i := by omega
          rw [start]
          refine Consecutive.cons (by omega) ?_
          convert later using 1
          omega
    · rw [if_neg more, Consecutive]
      omega

/-- Files that share what is left evenly. -/
theorem uniformFiles_consecutive {recoverySlices recoveryOffset numFiles slicePos : ℕ}
    (within : slicePos ≤ recoverySlices) (enough : numFiles ≤ recoverySlices - slicePos)
    (all : numFiles = 0 → slicePos = recoverySlices) :
    Consecutive (slicePos + recoveryOffset)
      (uniformFiles recoverySlices recoveryOffset numFiles slicePos)
      (recoverySlices + recoveryOffset) := by
  induction numFiles generalizing slicePos with
  | zero =>
    rw [uniformFiles, Consecutive, all rfl]
  | succ numFiles ih =>
    have left : ((recoverySlices : ℤ) - slicePos) = (recoverySlices - slicePos : ℕ) := by omega
    rw [uniformFiles, left, ceilQuotient_nat, Int.toNat_natCast]
    generalize part_eq : (recoverySlices - slicePos + numFiles) / (numFiles + 1) = part
    have lower : recoverySlices - slicePos ≤ part * (numFiles + 1) := by
      have bound := @Nat.lt_div_mul_add (recoverySlices - slicePos + numFiles) (numFiles + 1)
        (Nat.succ_pos _)
      rw [part_eq] at bound
      omega
    have upper : part * (numFiles + 1) ≤ recoverySlices - slicePos + numFiles := by
      rw [← part_eq]
      exact Nat.div_mul_le_self _ _
    have pos : 0 < part := by
      apply Nat.pos_of_ne_zero
      rintro rfl
      omega
    have rest : part + numFiles ≤ recoverySlices - slicePos := by
      obtain ⟨more, rfl⟩ : ∃ more, part = more + 1 := ⟨part - 1, by omega⟩
      by_cases one : more = 0
      · omega
      · have grows := Nat.mul_le_mul_right numFiles (Nat.one_le_iff_ne_zero.mpr one)
        have expand : (more + 1) * (numFiles + 1) = more * numFiles + more + numFiles + 1 := by ring
        omega
    refine Consecutive.cons pos ?_
    have later := @ih (slicePos + part) (by omega) (by omega) (by
      rintro rfl
      omega)
    convert later using 1
    omega

/-- Files of the same size. -/
theorem equalFiles_consecutive {recoverySlices recoveryOffset slicesPerFile fuel i : ℕ}
    (room : recoverySlices ≤ fuel + i) (pos : i < recoverySlices → 0 < slicesPerFile) :
    Consecutive (min i recoverySlices + recoveryOffset)
      (equalFiles recoverySlices recoveryOffset slicesPerFile fuel i)
      (recoverySlices + recoveryOffset) := by
  induction fuel generalizing i with
  | zero =>
    rw [equalFiles, Consecutive]
    omega
  | succ fuel ih =>
    rw [equalFiles]
    by_cases more : i < recoverySlices
    · have advances := pos more
      have start : min i recoverySlices + recoveryOffset = i + recoveryOffset := by omega
      have later := @ih (i + slicesPerFile) (by omega) fun _ => advances
      rw [if_pos more, start]
      refine Consecutive.cons (by omega) ?_
      convert later using 1
      omega
    · rw [if_neg more, Consecutive]
      omega

theorem findSliceFilesList_found {list : ℕ → List (ℕ × ℕ)} {outputFileMaxSlices : ℕ}
    {outputFileCount : ℤ} {fuel slices : ℕ} (pos : 0 < slices) {found : List (ℕ × ℕ)}
    (searched : findSliceFilesList list outputFileMaxSlices outputFileCount fuel slices =
      some found) : ∃ slices, 0 < slices ∧ found = list slices := by
  induction fuel generalizing slices with
  | zero => cases searched
  | succ fuel ih =>
    rw [findSliceFilesList] at searched
    split_ifs at searched with more same few
    · exact ⟨slices, pos, (Option.some.inj searched).symm⟩
    · exact ih (by omega) searched

/-- The volumes of every scheme follow each other from the offset on. -/
theorem sliceFilesList_consecutive {recoverySlices recoveryOffset outputFirstFileSlices
      outputFileMaxSlices : ℕ} {outputFileCount : ℤ} {scheme : OutputSizeScheme}
    {list : List (ℕ × ℕ)} (first : outputFirstFileSlices ≤ recoverySlices)
    (wide : 0 < outputFileMaxSlices) (enough : outputFileCount ≤ recoverySlices)
    (planned : sliceFilesList recoverySlices recoveryOffset outputFirstFileSlices
      outputFileMaxSlices outputFileCount scheme = .ok list) :
    Consecutive recoveryOffset list (recoverySlices + recoveryOffset) := by
  cases scheme with
  | pow2 =>
    have grown (slices : ℕ) (pos : 0 < slices) :
        Consecutive recoveryOffset
          (getSliceNumsOffsets (recoverySlices + recoveryOffset) recoveryOffset outputFileMaxSlices
            (recoverySlices + recoveryOffset) 0 slices) (recoverySlices + recoveryOffset) := by
      have consecutive := @getSliceNumsOffsets_consecutive (recoverySlices + recoveryOffset)
        recoveryOffset outputFileMaxSlices wide (by omega) (recoverySlices + recoveryOffset) 0 slices
        (by omega) pos
      convert consecutive using 1
      omega
    simp only [sliceFilesList] at planned
    split_ifs at planned with counted
    · split at planned
      · next found searched =>
        cases planned
        obtain ⟨slices, pos, rfl⟩ := findSliceFilesList_found Nat.one_pos searched
        exact grown slices pos
      · cases planned
    · cases planned
      exact grown _ (by omega)
    · cases planned
      exact grown _ Nat.one_pos
  | uniform =>
    simp only [sliceFilesList] at planned
    generalize files_eq : (if outputFileCount ≠ 0 then outputFileCount
      else ceilQuotient recoverySlices outputFileMaxSlices) = numFiles at planned
    split_ifs at planned with negative
    cases planned
    have files : numFiles ≤ recoverySlices ∧ (numFiles = 0 → recoverySlices = 0) := by
      split_ifs at files_eq with counted
      · exact ⟨by omega, by omega⟩
      · obtain ⟨less, rfl⟩ := Nat.exists_eq_add_of_le' wide
        have quotient := ceilQuotient_nat recoverySlices less
        push_cast at files_eq
        rw [quotient] at files_eq
        have lower := @Nat.lt_div_mul_add (recoverySlices + less) (less + 1) (Nat.succ_pos _)
        have upper := Nat.div_mul_le_self (recoverySlices + less) (less + 1)
        rw [← files_eq]
        generalize count_eq : (recoverySlices + less) / (less + 1) = count at lower upper ⊢
        constructor
        · have small : count ≤ recoverySlices := by
            rw [← count_eq]
            by_cases none : recoverySlices = 0
            · rw [none, Nat.zero_add, Nat.div_eq_of_lt (Nat.lt_succ_self less)]
            · apply Nat.div_le_of_le_mul
              have more := Nat.mul_le_mul_left less (Nat.one_le_iff_ne_zero.mpr none)
              have expand : (less + 1) * recoverySlices = less * recoverySlices + recoverySlices := by
                ring
              omega
          exact_mod_cast small
        · intro empty
          have zero : count = 0 := by exact_mod_cast empty
          rw [zero] at lower
          omega
    have consecutive := @uniformFiles_consecutive recoverySlices recoveryOffset numFiles.toNat 0
      (Nat.zero_le _) (by omega) (by omega)
    rw [Nat.zero_add] at consecutive
    exact consecutive
  | equal =>
    simp only [sliceFilesList] at planned
    generalize perFile_eq : (if outputFileCount ≠ 0 then
      if outputFirstFileSlices ≠ 0 then
        if outputFileCount < 2 ∧ recoverySlices - outputFirstFileSlices ≠ 0 then _ else _
      else _
    else _ : Except PlanFailure ℤ) = perFile at planned
    cases perFile with
    | error failed => cases planned
    | ok slicesPerFile =>
      replace planned : (if slicesPerFile ≤ 0 ∧ outputFirstFileSlices < recoverySlices then
          Except.error PlanFailure.endless
        else .ok ((if outputFirstFileSlices ≠ 0 then [(outputFirstFileSlices, recoveryOffset)]
            else []) ++ equalFiles recoverySlices recoveryOffset slicesPerFile.toNat recoverySlices
          outputFirstFileSlices)) = .ok list := planned
      split_ifs at planned with stuck firstFile
      · cases planned
        have later := @equalFiles_consecutive recoverySlices recoveryOffset slicesPerFile.toNat
          recoverySlices outputFirstFileSlices (by omega) (by omega)
        refine Consecutive.cons (by omega) ?_
        have start : recoveryOffset + outputFirstFileSlices =
            min outputFirstFileSlices recoverySlices + recoveryOffset := by omega
        rw [start]
        exact later
      · cases planned
        have later := @equalFiles_consecutive recoverySlices recoveryOffset slicesPerFile.toNat
          recoverySlices outputFirstFileSlices (by omega) (by omega)
        rw [List.nil_append]
        convert later using 1
        omega

/-! ## Files -/

/-- A packet that is not a recovery packet. -/
def Critical (pkt : PAR2GenPacket) : Prop := pkt.type ≠ .recovery

/-- The exponents of packets without holes. -/
def exponentsOf (packets : List PAR2GenPacket) : List ℕ :=
  packets.filterMap fun pkt => if pkt.type = .recovery then pkt.index else none

theorem exponentsOf_append (first rest : List PAR2GenPacket) :
    exponentsOf (first ++ rest) = exponentsOf first ++ exponentsOf rest := List.filterMap_append

theorem exponentsOf_critical {packets : List PAR2GenPacket}
    (critical : ∀ pkt ∈ packets, Critical pkt) : exponentsOf packets = [] := by
  rw [exponentsOf, List.filterMap_eq_nil_iff]
  intro pkt member
  exact if_neg (critical pkt member)

theorem exponents_some (packets : List PAR2GenPacket) :
    ((packets.map some).filterMap id).filterMap
        (fun pkt => if pkt.type = .recovery then pkt.index else none) = exponentsOf packets := by
  have present : (packets.map some).filterMap id = packets := by
    rw [List.filterMap_map]
    exact List.filterMap_some
  rw [present]
  rfl

theorem exponents_arrayOf (length : ℕ) (elements : List PAR2GenPacket) :
    ((arrayOf length elements).filterMap id).filterMap
        (fun pkt => if pkt.type = .recovery then pkt.index else none) = exponentsOf elements := by
  have holes (count : ℕ) :
      (List.replicate count (none : Option PAR2GenPacket)).filterMap id = [] := by
    rw [List.filterMap_eq_nil_iff]
    intro hole member
    rw [List.eq_of_mem_replicate member]
    rfl
  rw [arrayOf, List.filterMap_append, holes, List.append_nil, exponents_some]

theorem critRange_critical {critPackets : List PAR2GenPacket}
    (critical : ∀ pkt ∈ critPackets, Critical pkt) (critWritten count : ℕ) :
    ∀ pkt ∈ critRange critPackets critWritten count, Critical pkt := by
  intro pkt member
  rw [critRange, List.mem_filterMap] at member
  obtain ⟨written, -, found⟩ := member
  exact critical pkt (List.mem_of_getElem? found)

/-- Critical packets do not change the order of recovery packets. -/
theorem spreadPackets_exponents {critPackets : List PAR2GenPacket}
    (critical : ∀ pkt ∈ critPackets, Critical pkt) (recvSize critNum numSlices : ℕ)
    (exponents : SliceExponents) (count i critWritten : ℕ) :
    exponentsOf (spreadPackets critPackets recvSize critNum numSlices exponents count i critWritten) =
      (List.range' i count).map exponents.exp := by
  induction count generalizing i critWritten with
  | zero => rfl
  | succ count ih =>
    rw [spreadPackets, List.range'_succ, List.map_cons, exponentsOf_append, ih,
      exponentsOf, List.filterMap_cons, if_pos rfl]
    simp only [List.cons_append]
    congr 1
    rw [← exponentsOf, exponentsOf_critical (critRange_critical critical _ _), List.nil_append]

/-- Files whose numbers of recovery slices and indexes are those of their packets. -/
structure Indexed (files : List PAR2OutFile) : Prop where
  counted : ∀ file ∈ files, file.recoverySlices = file.exponents.length
  index : ∀ before file after, files = before ++ file :: after →
    file.recoveryIndex = (before.flatMap PAR2OutFile.exponents).length

theorem Indexed.nil : Indexed [] where
  counted := fun file member => nomatch member
  index := fun before file after split => by cases before <;> cases split

/-- A file behind the others. -/
theorem Indexed.snoc {files : List PAR2OutFile} {file : PAR2OutFile} (indexed : Indexed files)
    (counted : file.recoverySlices = file.exponents.length)
    (index : file.recoveryIndex = match files.getLast? with
      | some lastFile => lastFile.recoveryIndex + lastFile.recoverySlices
      | none => 0) : Indexed (files ++ [file]) where
  counted := by
    intro other member
    rw [List.mem_append, List.mem_singleton] at member
    obtain earlier | rfl := member
    · exact indexed.counted other earlier
    · exact counted
  index := by
    intro before other after split
    obtain rfl | ⟨rest, last, rfl⟩ := List.eq_nil_or_concat' after
    · obtain ⟨rfl, same⟩ := List.append_inj' split rfl
      obtain rfl := List.singleton_inj.mp same
      rw [index]
      obtain rfl | ⟨rest, last, rfl⟩ := List.eq_nil_or_concat' files
      · rfl
      · rw [List.getLast?_concat]
        have lastIndex := indexed.index rest last [] rfl
        have lastCount := indexed.counted last (List.mem_append_right _ (List.mem_singleton_self _))
        simp only [lastIndex, lastCount, List.flatMap_append, List.flatMap_cons, List.flatMap_nil,
          List.append_nil, List.length_append]
    · have shorter : files ++ [file] = (before ++ other :: rest) ++ [last] := by
        rw [split, List.append_assoc, List.cons_append]
      obtain ⟨earlier, -⟩ := List.append_inj' shorter rfl
      exact indexed.index before other rest earlier

variable {opts : PAR2GenOptions} {par : PAR2} {crit : List PAR2GenPacket} {creator : PAR2GenPacket}

/-- Every way of building the packets has the exponents in order. -/
theorem rfPackets_exponents (critical : ∀ pkt ∈ crit, Critical pkt) (creates : Critical creator)
    {numSlices recvSize : ℕ} {exponents : SliceExponents}
    {packets : List (Option PAR2GenPacket)} {critTotalSize : ℕ}
    (built : rfPackets opts numSlices recvSize exponents crit creator = .ok (packets, critTotalSize)) :
    (packets.filterMap id).filterMap (fun pkt => if pkt.type = .recovery then pkt.index else none) =
      (List.range numSlices).map exponents.exp := by
  have creatorOnly : exponentsOf [creator] = [] :=
    exponentsOf_critical (List.forall_mem_singleton.mpr creates)
  simp only [rfPackets] at built
  split at built
  · split_ifs at built with recovery
    · cases built
      rw [exponents_arrayOf, exponentsOf_append, creatorOnly, List.append_nil,
        spreadPackets_exponents critical, List.range_eq_range']
    · cases built
      have copies : ∀ pkt ∈ (List.replicate opts.minCriticalRedundancy crit).flatten, Critical pkt := by
        intro pkt member
        obtain ⟨copy, copied, inside⟩ := List.mem_flatten.mp member
        rw [List.eq_of_mem_replicate copied] at inside
        exact critical pkt inside
      rw [exponents_arrayOf, exponentsOf_append, creatorOnly, List.append_nil,
        exponentsOf_critical copies, not_not.mp recovery]
      rfl
  · cases built
    have recovery : exponentsOf ((List.range numSlices).map fun i =>
        (⟨.recovery, recvSize, some (exponents.exp i)⟩ : PAR2GenPacket)) =
          (List.range numSlices).map exponents.exp := by
      rw [exponentsOf, List.filterMap_map]
      exact List.filterMap_eq_map.symm ▸ rfl
    rw [exponents_some, exponentsOf_append, exponentsOf_append, exponentsOf_critical critical,
      creatorOnly, recovery, List.append_nil, List.append_nil]

/-- A pushed file has the exponents that it was given. -/
theorem _rfPush_exponents (critical : ∀ pkt ∈ crit, Critical pkt) (creates : Critical creator)
    {numSlices : ℕ} {exponents : SliceExponents} {files pushed : List PAR2OutFile}
    (indexed : Indexed files)
    (push : _rfPush opts par numSlices exponents crit creator files = .ok pushed) :
    ∃ file, pushed = files ++ [file] ∧
      file.exponents = (List.range numSlices).map exponents.exp ∧ Indexed pushed := by
  rw [_rfPush] at push
  cases built : rfPackets opts numSlices (if numSlices ≠ 0 then par.packetRecoverySize else 0)
      exponents crit creator with
  | error failed =>
    rw [built] at push
    cases push
  | ok result =>
    obtain ⟨packets, critTotalSize⟩ := result
    rw [built] at push
    cases push
    have own := rfPackets_exponents critical creates built
    refine ⟨_, rfl, own, indexed.snoc ?_ rfl⟩
    rw [PAR2OutFile.exponents, own, List.length_map, List.length_range]

/-- Pushed volumes have their exponents. -/
theorem pushAll_exponents (critical : ∀ pkt ∈ crit, Critical pkt) (creates : Critical creator)
    {list : List (ℕ × ℕ)} {files pushed : List PAR2OutFile} (indexed : Indexed files)
    (push : pushAll opts par crit creator list files = .ok pushed) :
    ∃ volumes, pushed = files ++ volumes ∧
      volumes.map PAR2OutFile.exponents =
        list.map (fun volume => List.range' volume.2 volume.1) ∧ Indexed pushed := by
  induction list generalizing files with
  | nil =>
    cases push
    exact ⟨[], (List.append_nil _).symm, rfl, indexed⟩
  | cons first rest ih =>
    obtain ⟨numSlices, offset⟩ := first
    rw [pushAll] at push
    cases one : _rfPush opts par numSlices (.offset offset) crit creator files with
    | error failed =>
      rw [one] at push
      cases push
    | ok more =>
      rw [one] at push
      obtain ⟨file, rfl, own, moreIndexed⟩ := _rfPush_exponents critical creates indexed one
      obtain ⟨volumes, rfl, others, allIndexed⟩ := ih moreIndexed push
      refine ⟨file :: volumes, List.append_assoc _ _ _, ?_, allIndexed⟩
      rw [List.map_cons, List.map_cons, others, own]
      congr 1
      rw [List.range'_eq_map_range]
      exact List.map_congr_left fun i _ => Nat.add_comm i offset

/-! ## Plans -/

theorem map_eq_ok {Error Value Result : Type*} {change : Value → Result}
    {call : Except Error Value} {result : Result} :
    call.map change = .ok result ↔ ∃ value, call = .ok value ∧ change value = result := by
  cases call with
  | error error => exact ⟨fun failed => (nomatch failed), fun ⟨_, failed, _⟩ => (nomatch failed)⟩
  | ok value =>
    constructor
    · intro same
      cases same
      exact ⟨value, rfl, rfl⟩
    · rintro ⟨value, same, rfl⟩
      cases same
      rfl

theorem mapError_eq_ok {Error Other Value : Type*} {change : Error → Other}
    {call : Except Error Value} {result : Value} :
    call.mapError change = .ok result ↔ call = .ok result := by
  cases call with
  | error error => exact ⟨fun failed => (nomatch failed), fun failed => (nomatch failed)⟩
  | ok value => exact ⟨fun same => by cases same; rfl, fun same => by cases same; rfl⟩

theorem critPackets_critical {par : PAR2} {crit : List PAR2GenPacket}
    (built : critPackets opts par = .ok crit) : ∀ pkt ∈ crit, Critical pkt := by
  simp only [critPackets, bind_eq_ok] at built
  obtain ⟨files, filesBuilt, comments, commentsBuilt, built⟩ := built
  cases built
  intro pkt member
  rw [List.mem_append, List.mem_append, List.mem_singleton] at member
  obtain (inFiles | inComments) | rfl := member
  · obtain ⟨packets, inside, member⟩ := List.mem_flatten.mp inFiles
    obtain ⟨file, -, own⟩ :=
      mem_of_mapM filesBuilt packets inside
    obtain ⟨size, -, rfl⟩ := map_eq_ok.mp own
    split_ifs at member
    · obtain rfl | rfl := List.mem_pair.mp member
      · exact GenPacketType.noConfusion
      · exact GenPacketType.noConfusion
    · obtain rfl := List.mem_singleton.mp member
      exact GenPacketType.noConfusion
  · obtain ⟨comment, -, own⟩ := mem_of_mapM commentsBuilt pkt inComments
    obtain ⟨size, -, rfl⟩ := map_eq_ok.mp own
    exact GenPacketType.noConfusion
  · exact GenPacketType.noConfusion

theorem Consecutive.map_flatten {start stop : ℕ} {list : List (ℕ × ℕ)}
    (consecutive : Consecutive start list stop) {volumes : List PAR2OutFile}
    (exponents : volumes.map PAR2OutFile.exponents =
      list.map fun volume => List.range' volume.2 volume.1) :
    volumes.flatMap PAR2OutFile.exponents = List.range' start (stop - start) ∧
      ∀ file ∈ volumes, file.exponents ≠ [] := by
  constructor
  · rw [List.flatMap_def, exponents, ← List.flatMap_def, consecutive.flatMap]
  · intro file member
    have inside := List.mem_map_of_mem (f := PAR2OutFile.exponents) member
    rw [exponents, List.mem_map] at inside
    obtain ⟨volume, inList, same⟩ := inside
    have pos := consecutive.nonempty volume inList
    rw [← same]
    intro empty
    have length := congrArg List.length empty
    rw [List.length_range', List.length_nil] at length
    omega

/-- Without data there are no slices. -/
theorem inputSlices_zero (empty : totalSize par = 0) : inputSlices par = 0 := by
  rw [totalSize, List.sum_eq_zero_iff] at empty
  rw [inputSlices, List.sum_eq_zero_iff]
  intro slices member
  obtain ⟨file, inside, rfl⟩ := List.mem_map.mp member
  rw [PAR2.numSlices, empty file.size (List.mem_map_of_mem inside)]
  obtain zero | pos := Nat.eq_zero_or_pos par.sliceSize
  · rw [zero, Nat.div_zero]
  · exact Nat.div_eq_of_lt (by omega)

/-- A plan is an index and the volumes of its scheme. -/
theorem recoveryFiles_parts (plain : opts.recoveryExponents = none) {files : List PAR2OutFile}
    (planned : recoveryFiles opts par = .ok files) :
    ∃ index volumes list, files = index ++ volumes ∧ Indexed files ∧
      index.length = (if opts.outputIndex then 1 else 0) ∧
      index.flatMap PAR2OutFile.exponents = [] ∧
      volumes.map PAR2OutFile.exponents =
        list.map (fun volume => List.range' volume.2 volume.1) ∧
      Consecutive opts.recoveryOffset list (opts.recoverySlices + opts.recoveryOffset) ∧
      opts.recoverySlices + opts.recoveryOffset ≤ 65535 ∧ fileCount opts ≤ opts.recoverySlices ∧
      (0 < opts.recoverySlices → sliceFilesList opts.recoverySlices opts.recoveryOffset
        (firstFileSlices opts) (maxSlices opts) (fileCount opts) opts.outputSizeScheme = .ok list) := by
  simp only [recoveryFiles, bind_eq_ok, mapError_eq_ok] at planned
  obtain ⟨_, checked, crit, critBuilt, index, indexBuilt, all, allocated, planned⟩ := planned
  split_ifs at planned with nothing
  cases planned
  have critical := critPackets_critical critBuilt
  have creates : Critical ⟨.creator, par.packetCreatorSize opts.creator, none⟩ :=
    GenPacketType.noConfusion
  -- the index has no recovery packets
  have before : Indexed index ∧ index.flatMap PAR2OutFile.exponents = [] ∧
      index.length = if opts.outputIndex then 1 else 0 := by
    split_ifs at indexBuilt with wanted
    · obtain ⟨file, rfl, own, indexed⟩ := _rfPush_exponents critical creates Indexed.nil indexBuilt
      refine ⟨indexed, ?_, by rw [if_pos wanted]; rfl⟩
      rw [List.nil_append, List.flatMap_singleton, own]
      rfl
    · cases indexBuilt
      exact ⟨Indexed.nil, rfl, by rw [if_neg wanted]; rfl⟩
  obtain ⟨indexed, noExponents, width⟩ := before
  simp only [checkOptions] at checked
  split_ifs at checked with tooMuch noInput
  rw [allocateVolumes] at allocated
  split_ifs at allocated with tooMany data
  · rw [plain] at allocated
    obtain ⟨list, listed, pushed⟩ := bind_eq_ok.mp allocated
    obtain ⟨volumes, rfl, exponents, allIndexed⟩ :=
      pushAll_exponents critical creates indexed pushed
    have first : firstFileSlices opts ≤ opts.recoverySlices := by
      rw [firstFileSlices]
      split <;> omega
    have wide : 0 < maxSlices opts := by
      rw [maxSlices]
      omega
    exact ⟨_, volumes, list, rfl, allIndexed, width, noExponents, exponents,
      sliceFilesList_consecutive first wide (by omega) listed, by omega, by omega, fun _ => listed⟩
  · -- there is no input, and so there are no recovery slices
    cases allocated
    have noSlices : opts.recoverySlices = 0 := by
      rw [inputSlices_zero (Nat.eq_zero_of_not_pos data)] at noInput
      omega
    refine ⟨_, [], [], (List.append_nil _).symm, indexed, width, noExponents, rfl, ?_, by omega,
      by omega, by omega⟩
    rw [Consecutive, noSlices, Nat.zero_add]

/-- The recovery packets of a plan have the exponents from the offset on, each once and in order. No
volume is empty, and the index of a file is the number of recovery packets before it. -/
theorem recoveryFiles_exponents (plain : opts.recoveryExponents = none) {files : List PAR2OutFile}
    (planned : recoveryFiles opts par = .ok files) :
    files.flatMap PAR2OutFile.exponents = List.range' opts.recoveryOffset opts.recoverySlices ∧
      (∀ file ∈ files.drop (if opts.outputIndex then 1 else 0), file.exponents ≠ []) ∧
      (∀ file ∈ files, file.recoverySlices = file.exponents.length) ∧
      ∀ before file after, files = before ++ file :: after →
        file.recoveryIndex = (before.flatMap PAR2OutFile.exponents).length := by
  obtain ⟨first, volumes, list, rfl, indexed, width, noExponents, exponents, consecutive, -⟩ :=
    recoveryFiles_parts plain planned
  obtain ⟨together, nonempty⟩ := consecutive.map_flatten exponents
  refine ⟨?_, ?_, indexed.counted, indexed.index⟩
  · rw [List.flatMap_append, noExponents, List.nil_append, together, Nat.add_sub_cancel]
  · rw [← width, List.drop_left]
    exact nonempty

/-- One file of three slices. -/
def oneFile : PAR2 where
  sliceSize := 4
  files := [⟨[0x61], 10, [], [], [], fun _ => 0⟩]
  asciiCharset := fun text => text.map UInt16.toUInt8
  md5 := fun _ => List.replicate 16 0
  memory := fun _ => 0

def fourSlices : PAR2GenOptions where
  outputIndex := true
  comments := []
  creator := []
  unicode := none
  recoverySlices := 4
  recoveryOffset := 3
  recoveryExponents := none
  outputSizeScheme := .pow2
  outputFirstFileSlices := none
  outputFileMaxSlices := 2
  outputFileCount := 0
  criticalRedundancyScheme := some fun _ _ => 2
  minCriticalRedundancy := 1
  maxCriticalRedundancy := 0

/-- Four slices from the exponent three on, after an index. -/
theorem recoveryFiles_exponents_four : ∃ files,
    recoveryFiles fourSlices oneFile = .ok files ∧
      files.flatMap PAR2OutFile.exponents = List.range' 3 4 := by
  have planned : (recoveryFiles fourSlices oneFile).toOption.isSome = true := by decide +kernel
  cases built : recoveryFiles fourSlices oneFile with
  | error failed =>
    rw [built] at planned
    cases planned
  | ok files => exact ⟨files, rfl, (recoveryFiles_exponents rfl built).1⟩

end PAR2Gen

end Par3

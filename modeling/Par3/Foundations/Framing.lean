import Mathlib.Data.List.Basic

/-!
# Resumable framing of a byte stream

A framing looks at the head of a buffer and decides to wait for more input, to skip a
few symbols, or to take a frame. Decisions to skip or to take are stable: more input
behind them does not change them. A scan repeats the decision to the first wait and
remembers where its last frame ended.

A reader that receives its input in pieces keeps what lies behind the last complete
frame and scans again from there. The main result is that this never changes what is
found: after any pieces the frames, their absolute positions and the kept remainder are
those of a single scan of everything received.
-/

namespace Resync

universe u v
variable {α : Type u} {β : Type v}

/-- The verdict on the head of a buffer. Widths count the symbols that are passed over. -/
inductive Decision (β : Type v) where
  | wait
  | skip (width : ℕ)
  | frame (width : ℕ) (content : β)

/-- The same verdict with another content of the frame. -/
def Decision.map {β γ : Type*} (adjust : β → γ) : Decision β → Decision γ
  | wait => wait
  | skip width => skip width
  | frame width content => frame width (adjust content)

/-- A decision procedure whose positive verdicts consume something that is there and
survive any extension of the buffer. -/
structure Framing (α : Type u) (β : Type v) where
  decision : List α → Decision β
  skip_bound : ∀ {rest width}, decision rest = .skip width → 0 < width ∧ width ≤ rest.length
  frame_bound : ∀ {rest width content}, decision rest = .frame width content →
    0 < width ∧ width ≤ rest.length
  skip_stable : ∀ {rest width} (more : List α), decision rest = .skip width →
    decision (rest ++ more) = .skip width
  frame_stable : ∀ {rest width content} (more : List α), decision rest = .frame width content →
    decision (rest ++ more) = .frame width content

namespace Framing

variable (framing : Framing α β)

/-- Scan a buffer from an offset. The result lists the frames with their offsets and the
offset just behind the last frame, which is the given `last` when there is none. -/
def scan (buffer : List α) (offset last : ℕ) : List (ℕ × β) × ℕ :=
  match _verdict : framing.decision (buffer.drop offset) with
  | .wait => ([], last)
  | .skip width => scan buffer (offset + width) last
  | .frame width content =>
    let later := scan buffer (offset + width) (offset + width)
    ((offset, content) :: later.1, later.2)
termination_by buffer.length - offset
decreasing_by
  · have bound := framing.skip_bound _verdict
    rw [List.length_drop] at bound
    omega
  · have bound := framing.frame_bound _verdict
    rw [List.length_drop] at bound
    omega

variable {framing}

theorem scan_wait {buffer : List α} {offset last : ℕ}
    (verdict : framing.decision (buffer.drop offset) = .wait) :
    framing.scan buffer offset last = ([], last) := by
  rw [scan]
  split <;> simp_all

theorem scan_skip {buffer : List α} {offset last width : ℕ}
    (verdict : framing.decision (buffer.drop offset) = .skip width) :
    framing.scan buffer offset last = framing.scan buffer (offset + width) last := by
  rw [scan]
  split <;> simp_all

theorem scan_frame {buffer : List α} {offset last width : ℕ} {content : β}
    (verdict : framing.decision (buffer.drop offset) = .frame width content) :
    framing.scan buffer offset last =
      ((offset, content) :: (framing.scan buffer (offset + width) (offset + width)).1,
        (framing.scan buffer (offset + width) (offset + width)).2) := by
  rw [scan]
  split <;> simp_all

/-- The end of the last frame lies between the given marker and the end of the buffer. -/
theorem scan_last (buffer : List α) (offset last : ℕ) (ordered : last ≤ offset)
    (inside : last ≤ buffer.length) :
    last ≤ (framing.scan buffer offset last).2 ∧
      (framing.scan buffer offset last).2 ≤ buffer.length := by
  induction offset, last using scan.induct framing buffer with
  | case1 offset last verdict => simp [scan_wait verdict, inside]
  | case2 offset last width verdict ih =>
    rw [scan_skip verdict]
    exact ih (by omega) inside
  | case3 offset last width content verdict ih =>
    have bound := framing.frame_bound verdict
    rw [List.length_drop] at bound
    rw [scan_frame verdict]
    have later := ih (Nat.le_refl _) (by omega)
    exact ⟨by omega, later.2⟩

/-- More input behind a buffer adds frames after those already found, by a scan that
starts where the last of them ended. The premise says that the symbols between the
marker and the offset were skipped, so scanning them again changes nothing. -/
theorem scan_append (buffer more : List α) (offset last : ℕ)
    (skipped : framing.scan (buffer ++ more) last last =
      framing.scan (buffer ++ more) offset last) :
    framing.scan (buffer ++ more) offset last =
      ((framing.scan buffer offset last).1 ++
        (framing.scan (buffer ++ more) (framing.scan buffer offset last).2
          (framing.scan buffer offset last).2).1,
        (framing.scan (buffer ++ more) (framing.scan buffer offset last).2
          (framing.scan buffer offset last).2).2) := by
  induction offset, last using scan.induct framing buffer with
  | case1 offset last verdict =>
    rw [scan_wait verdict, ← skipped]
    rfl
  | case2 offset last width verdict ih =>
    have bound := framing.skip_bound verdict
    rw [List.length_drop] at bound
    have extended : framing.decision ((buffer ++ more).drop offset) = .skip width := by
      rw [List.drop_append_of_le_length (by omega)]
      exact framing.skip_stable more verdict
    rw [scan_skip verdict, scan_skip extended]
    exact ih (by rw [skipped, scan_skip extended])
  | case3 offset last width content verdict ih =>
    have bound := framing.frame_bound verdict
    rw [List.length_drop] at bound
    have extended : framing.decision ((buffer ++ more).drop offset) = .frame width content := by
      rw [List.drop_append_of_le_length (by omega)]
      exact framing.frame_stable more verdict
    rw [scan_frame verdict, scan_frame extended, ih rfl]
    rfl

/-- Move the positions of a scan result by a base offset. -/
def rebase (base : ℕ) (frames : List (ℕ × β)) : List (ℕ × β) :=
  frames.map fun frame => (base + frame.1, frame.2)

/-- Dropping a prefix moves every position by its length. -/
theorem scan_drop (buffer : List α) (base offset last : ℕ) :
    framing.scan buffer (base + offset) (base + last) =
      (rebase base (framing.scan (buffer.drop base) offset last).1,
        base + (framing.scan (buffer.drop base) offset last).2) := by
  induction offset, last using scan.induct framing (buffer.drop base) with
  | case1 offset last verdict =>
    have whole : framing.decision (buffer.drop (base + offset)) = .wait := by
      rwa [← List.drop_drop]
    rw [scan_wait verdict, scan_wait whole]
    rfl
  | case2 offset last width verdict ih =>
    have whole : framing.decision (buffer.drop (base + offset)) = .skip width := by
      rwa [← List.drop_drop]
    rw [scan_skip verdict, scan_skip whole, Nat.add_assoc, ih]
  | case3 offset last width content verdict ih =>
    have whole : framing.decision (buffer.drop (base + offset)) = .frame width content := by
      rwa [← List.drop_drop]
    rw [scan_frame verdict, scan_frame whole, Nat.add_assoc, ih]
    rfl

/-! ## Positions that a scan visits -/

/-- A scan of the whole buffer comes by a position: what it finds from there on is the rest
of its frames, and the frames before have ended. -/
def Visits (framing : Framing α β) (buffer : List α) (offset : ℕ) : Prop :=
  ∃ earlier last, (framing.scan buffer 0 0).1 = earlier ++ (framing.scan buffer offset last).1 ∧
    ∀ frame ∈ earlier, ∃ width, framing.decision (buffer.drop frame.1) = .frame width frame.2 ∧
      frame.1 + width ≤ offset

theorem visits_zero (buffer : List α) : framing.Visits buffer 0 :=
  ⟨[], 0, rfl, fun _ impossible => absurd impossible List.not_mem_nil⟩

theorem Visits.skip {buffer : List α} {offset width : ℕ} (visits : framing.Visits buffer offset)
    (verdict : framing.decision (buffer.drop offset) = .skip width) :
    framing.Visits buffer (offset + width) := by
  obtain ⟨earlier, last, frames, ended⟩ := visits
  refine ⟨earlier, last, ?_, fun frame member => ?_⟩
  · rw [frames, scan_skip verdict]
  · obtain ⟨frameWidth, decided, before⟩ := ended frame member
    exact ⟨frameWidth, decided, by omega⟩

theorem Visits.frame {buffer : List α} {offset width : ℕ} {content : β}
    (visits : framing.Visits buffer offset)
    (verdict : framing.decision (buffer.drop offset) = .frame width content) :
    framing.Visits buffer (offset + width) := by
  obtain ⟨earlier, last, frames, ended⟩ := visits
  refine ⟨earlier ++ [(offset, content)], offset + width, ?_, fun frame member => ?_⟩
  · rw [frames, scan_frame verdict, List.append_assoc]
    rfl
  · rcases List.mem_append.mp member with before | here
    · obtain ⟨frameWidth, decided, before⟩ := ended frame before
      exact ⟨frameWidth, decided, by omega⟩
    · obtain rfl := List.mem_singleton.mp here
      exact ⟨width, verdict, Nat.le_refl _⟩

/-- A scan finds its frames at visited positions from its offset on. -/
theorem scan_visits (buffer : List α) (offset last : ℕ) (visits : framing.Visits buffer offset)
    (frame : ℕ × β) (member : frame ∈ (framing.scan buffer offset last).1) :
    offset ≤ frame.1 ∧ framing.Visits buffer frame.1 ∧
      ∃ width, framing.decision (buffer.drop frame.1) = .frame width frame.2 := by
  induction offset, last using scan.induct framing buffer with
  | case1 offset last verdict =>
    rw [scan_wait verdict] at member
    cases member
  | case2 offset last width verdict ih =>
    rw [scan_skip verdict] at member
    obtain ⟨behind, rest⟩ := ih (visits.skip verdict) member
    exact ⟨by omega, rest⟩
  | case3 offset last width content verdict ih =>
    rw [scan_frame verdict] at member
    rcases List.mem_cons.mp member with rfl | later
    · exact ⟨Nat.le_refl _, visits, width, verdict⟩
    · obtain ⟨behind, rest⟩ := ih (visits.frame verdict) later
      exact ⟨by omega, rest⟩

/-- A visited position is never inside a frame. -/
theorem Visits.outside {buffer : List α} {offset : ℕ} (visits : framing.Visits buffer offset)
    (frame : ℕ × β) (member : frame ∈ (framing.scan buffer 0 0).1) :
    ∃ width, framing.decision (buffer.drop frame.1) = .frame width frame.2 ∧
      (frame.1 + width ≤ offset ∨ offset ≤ frame.1) := by
  obtain ⟨earlier, last, frames, ended⟩ := id visits
  rw [frames] at member
  rcases List.mem_append.mp member with before | behind
  · obtain ⟨width, decided, ends⟩ := ended frame before
    exact ⟨width, decided, .inl ends⟩
  · obtain ⟨from_offset, _, width, decided⟩ := scan_visits buffer offset last visits frame behind
    exact ⟨width, decided, .inr from_offset⟩

/-- A scan that stands at the first position comes by the second one. -/
inductive Reaches (framing : Framing α β) (buffer : List α) : ℕ → ℕ → Prop where
  | here (offset : ℕ) : Reaches framing buffer offset offset
  | skip {offset width target : ℕ} (verdict : framing.decision (buffer.drop offset) = .skip width)
      (later : Reaches framing buffer (offset + width) target) :
      Reaches framing buffer offset target
  | frame {offset width target : ℕ} {content : β}
      (verdict : framing.decision (buffer.drop offset) = .frame width content)
      (later : Reaches framing buffer (offset + width) target) :
      Reaches framing buffer offset target

theorem Reaches.le {buffer : List α} {offset target : ℕ}
    (reaches : framing.Reaches buffer offset target) : offset ≤ target := by
  induction reaches with
  | here => exact Nat.le_refl _
  | skip verdict later ih => omega
  | frame verdict later ih => omega

/-- Positions on the way from one position are ordered. -/
theorem Reaches.linear {buffer : List α} {offset first second : ℕ}
    (left : framing.Reaches buffer offset first) (right : framing.Reaches buffer offset second)
    (ordered : first ≤ second) : framing.Reaches buffer first second := by
  induction left with
  | here => exact right
  | skip verdict later ih =>
    have bound := framing.skip_bound verdict
    have behind := later.le
    cases right with
    | here => omega
    | skip other rest =>
      obtain rfl := Decision.skip.inj (verdict.symm.trans other)
      exact ih rest ordered
    | frame other rest =>
      rw [verdict] at other
      cases other
  | frame verdict later ih =>
    have bound := framing.frame_bound verdict
    have behind := later.le
    cases right with
    | here => omega
    | skip other rest =>
      rw [verdict] at other
      cases other
    | frame other rest =>
      obtain ⟨rfl, _⟩ := Decision.frame.inj (verdict.symm.trans other)
      exact ih rest ordered

theorem Reaches.trans {buffer : List α} {offset middle target : ℕ}
    (first : framing.Reaches buffer offset middle) (second : framing.Reaches buffer middle target) :
    framing.Reaches buffer offset target := by
  induction first with
  | here => exact second
  | skip verdict later ih => exact .skip verdict (ih second)
  | frame verdict later ih => exact .frame verdict (ih second)

/-- The frames of a scan stand where it comes by. -/
theorem scan_reaches (buffer : List α) (offset last : ℕ) (frame : ℕ × β)
    (member : frame ∈ (framing.scan buffer offset last).1) :
    framing.Reaches buffer offset frame.1 ∧
      ∃ width, framing.decision (buffer.drop frame.1) = .frame width frame.2 := by
  induction offset, last using scan.induct framing buffer with
  | case1 offset last verdict =>
    rw [scan_wait verdict] at member
    cases member
  | case2 offset last width verdict ih =>
    rw [scan_skip verdict] at member
    obtain ⟨reaches, decided⟩ := ih member
    exact ⟨.skip verdict reaches, decided⟩
  | case3 offset last width content verdict ih =>
    rw [scan_frame verdict] at member
    rcases List.mem_cons.mp member with rfl | later
    · exact ⟨.here _, width, verdict⟩
    · obtain ⟨reaches, decided⟩ := ih later
      exact ⟨.frame verdict reaches, decided⟩

/-- What a scan finds from a position on that it comes by, it finds from the start. -/
theorem Reaches.frames {buffer : List α} {offset target : ℕ}
    (reaches : framing.Reaches buffer offset target) (last : ℕ) :
    ∃ earlier last', (framing.scan buffer offset last).1 =
      earlier ++ (framing.scan buffer target last').1 := by
  induction reaches generalizing last with
  | here => exact ⟨[], last, rfl⟩
  | skip verdict later ih =>
    rw [scan_skip verdict]
    exact ih last
  | frame verdict later ih =>
    obtain ⟨earlier, last', found⟩ := ih _
    rw [scan_frame verdict, found]
    exact ⟨_ :: earlier, last', rfl⟩

/-- The frames do not depend on the marker that the scan is given. -/
theorem scan_frames_marker (buffer : List α) (offset first second : ℕ) :
    (framing.scan buffer offset first).1 = (framing.scan buffer offset second).1 := by
  induction offset, first using scan.induct framing buffer with
  | case1 offset first verdict => rw [scan_wait verdict, scan_wait verdict]
  | case2 offset first width verdict ih =>
    rw [scan_skip verdict, scan_skip verdict, ih]
  | case3 offset first width content verdict ih =>
    rw [scan_frame verdict, scan_frame verdict]

/-- A frame that a scan comes by ends before its last frame does. -/
theorem Reaches.before_last {buffer : List α} {offset target width last : ℕ} {content : β}
    (reaches : framing.Reaches buffer offset target)
    (verdict : framing.decision (buffer.drop target) = .frame width content) :
    target + width ≤ (framing.scan buffer offset last).2 := by
  induction reaches generalizing last with
  | here offset =>
    have bound := framing.frame_bound verdict
    rw [List.length_drop] at bound
    rw [scan_frame verdict]
    exact (scan_last buffer _ _ (Nat.le_refl _) (by omega)).1
  | skip other later ih =>
    rw [scan_skip other]
    exact ih verdict
  | frame other later ih =>
    rw [scan_frame other]
    exact ih verdict

/-- The marker of a scan is the one it was given, or the end of a frame. -/
theorem scan_marker (buffer : List α) (offset last : ℕ) :
    (framing.scan buffer offset last).2 = last ∨
      ∃ frame ∈ (framing.scan buffer offset last).1, ∃ width,
        framing.decision (buffer.drop frame.1) = .frame width frame.2 ∧
          (framing.scan buffer offset last).2 = frame.1 + width := by
  induction offset, last using scan.induct framing buffer with
  | case1 offset last verdict => exact .inl (by rw [scan_wait verdict])
  | case2 offset last width verdict ih =>
    rw [scan_skip verdict]
    exact ih
  | case3 offset last width content verdict ih =>
    rw [scan_frame verdict]
    refine .inr ?_
    rcases ih with here | ⟨frame, member, later⟩
    · exact ⟨(offset, content), List.mem_cons_self, width, verdict, here⟩
    · exact ⟨frame, List.mem_cons_of_mem _ member, later⟩

/-- Two buffers whose decisions agree at every visited position, up to the contents of the
frames, have the same frames up to their contents. -/
theorem scan_similar (left right : List α) (adjust : ℕ → β → β)
    (similar : ∀ offset, framing.Visits left offset →
      framing.decision (right.drop offset) =
        (framing.decision (left.drop offset)).map (adjust offset))
    (offset last : ℕ) (visits : framing.Visits left offset) :
    framing.scan right offset last =
      ((framing.scan left offset last).1.map fun frame => (frame.1, adjust frame.1 frame.2),
        (framing.scan left offset last).2) := by
  have decided := similar offset visits
  induction offset, last using scan.induct framing left with
  | case1 offset last verdict =>
    rw [verdict] at decided
    rw [scan_wait verdict, scan_wait decided]
    rfl
  | case2 offset last width verdict ih =>
    rw [verdict] at decided
    rw [scan_skip verdict, scan_skip decided]
    exact ih (visits.skip verdict) (similar _ (visits.skip verdict))
  | case3 offset last width content verdict ih =>
    rw [verdict] at decided
    rw [scan_frame verdict, scan_frame decided,
      ih (visits.frame verdict) (similar _ (visits.frame verdict))]
    rfl

/-! ## Reading in pieces -/

/-- What a reader keeps between pieces: the frames so far, the symbols behind the last
complete frame, and the number of symbols received. -/
structure Reader (α : Type u) (β : Type v) where
  frames : List (ℕ × β)
  leftover : List α
  position : ℕ

variable (framing)

/-- Receive one piece: scan the kept symbols and the piece together from the start. -/
def receive (reader : Reader α β) (piece : List α) : Reader α β :=
  let buffer := reader.leftover ++ piece
  let found := framing.scan buffer 0 0
  { frames := reader.frames ++ rebase (reader.position - reader.leftover.length) found.1
    leftover := buffer.drop found.2
    position := reader.position + piece.length }

/-- The reader that has received exactly these symbols, by one scan. -/
def received (symbols : List α) : Reader α β :=
  { frames := (framing.scan symbols 0 0).1
    leftover := symbols.drop (framing.scan symbols 0 0).2
    position := symbols.length }

variable {framing}

/-- Receiving one more piece is scanning everything at once. -/
theorem receive_received (symbols piece : List α) :
    framing.receive (framing.received symbols) piece = framing.received (symbols ++ piece) := by
  have bound := (framing.scan_last symbols 0 0 (Nat.le_refl _) (Nat.zero_le _)).2
  have whole := framing.scan_append symbols piece 0 0 rfl
  have moved := framing.scan_drop (symbols ++ piece) (framing.scan symbols 0 0).2 0 0
  rw [List.drop_append_of_le_length bound, Nat.add_zero] at moved
  rw [moved] at whole
  have base : symbols.length - (symbols.drop (framing.scan symbols 0 0).2).length =
      (framing.scan symbols 0 0).2 := by
    rw [List.length_drop]
    omega
  simp only [receive, received, base, whole, List.length_append]
  rw [← List.drop_drop, List.drop_append_of_le_length bound]

end Framing
end Resync

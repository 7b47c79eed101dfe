import Mathlib.Data.List.DropRight
import Mathlib.Tactic.IntervalCases
import Par3.Foundations.Doubles

/-!
# Strings and numbers of JavaScript

Decimal numbers in strings, the conversion to 32 bits, and the operations on strings that take apart
lists. Which letter is the small one of which is Unicode's: what is used of it are laws.
-/
namespace JavaScript

/-! ## Numbers -/

/-- A number; the sign of zero is not told apart. -/
inductive Number
  | finite (value : ℚ)
  | infinite (negative : Bool)
  | nan
  deriving DecidableEq

namespace Number

/-- The nearest number, or infinity for a number that is too large. -/
def ofRat (value : ℚ) : Number :=
  let value := Doubles.nearest value
  if 2 ^ 1024 ≤ value then infinite false else if value ≤ -2 ^ 1024 then infinite true else finite value

/-- The product with a positive integer -/
def times (factor : ℕ) : Number → Number
  | finite value => ofRat (value * factor)
  | other => other

def floor : Number → Number
  | finite value => finite ⌊value⌋
  | other => other

/-- `Math.max(0, number)` -/
def maxZero : Number → Number
  | finite value => finite (max 0 value)
  | infinite negative => if negative then finite 0 else infinite false
  | nan => nan

/-- `number | 0` -/
def toInt32 : Number → ℤ
  | finite value => (if 0 ≤ value then ⌊value⌋ else ⌈value⌉).bmod (2 ^ 32)
  | _ => 0

def isTruthy : Number → Bool
  | finite value => value ≠ 0
  | infinite _ => true
  | nan => false

/-- A number that is converted once more. -/
theorem toInt32_cast (number : Number) : (finite number.toInt32).toInt32 = number.toInt32 := by
  have twice : ∀ value : ℤ, (value.bmod (2 ^ 32)).bmod (2 ^ 32) = value.bmod (2 ^ 32) := fun value => by
    rw [Int.bmod_bmod]
  cases number with
  | finite value =>
    rw [toInt32, toInt32]
    simp only [Int.floor_intCast, Int.ceil_intCast, ite_self]
    exact twice _
  | infinite negative => rfl
  | nan => rfl

/-- A number that is not below zero is kept if it is an integer below 2^31. -/
theorem toInt32_eq_iff {number : Number} (pos : 0 ≤ number.toInt32) :
    finite number.toInt32 = number ↔ ∃ value : ℤ, number = finite value ∧ 0 ≤ value ∧ value < 2 ^ 31 := by
  constructor
  · intro same
    refine ⟨number.toInt32, same.symm, pos, ?_⟩
    cases number with
    | finite value =>
      rw [toInt32]
      have bound := @Int.bmod_lt (if 0 ≤ value then ⌊value⌋ else ⌈value⌉) (2 ^ 32) (by decide)
      omega
    | infinite negative => cases same
    | nan => cases same
  · rintro ⟨value, rfl, nonneg, less⟩
    rw [toInt32, Int.floor_intCast, Int.ceil_intCast, ite_self, Int.bmod_eq_of_le (by omega) (by omega)]

end Number

/-! ## Strings -/

abbrev Text := List Char

/-- White space and ends of lines. -/
def whitespace (c : Char) : Bool :=
  c ∈ ['\t', '\n', '\x0b', '\x0c', '\r', ' ', '\u00a0', '\u1680', '\u2000', '\u2001', '\u2002', '\u2003', '\u2004',
    '\u2005', '\u2006', '\u2007', '\u2008', '\u2009', '\u200a', '\u2028', '\u2029', '\u202f', '\u205f', '\u3000',
    '\ufeff']

/-- The ends of lines, which a dot does not match. -/
def lineEnd (c : Char) : Bool := c ∈ ['\n', '\r', '\u2028', '\u2029']

def trim (s : Text) : Text := (s.dropWhile whitespace).rdropWhile whitespace

def digit (c : Char) : Bool := '0' ≤ c ∧ c ≤ '9'

/-- The number that digits stand for. -/
def natural (digits : Text) : ℕ := digits.foldl (fun value c => 10 * value + (c.toNat - '0'.toNat)) 0

/-- Digits with at most one point. -/
def decimal (s : Text) : Number :=
  let whole := s.takeWhile digit
  match s.dropWhile digit with
  | [] => if whole = [] then .nan else .ofRat (natural whole)
  | point :: fraction =>
    if point = '.' ∧ fraction.all digit ∧ whole ++ fraction ≠ [] then
      .ofRat (natural (whole ++ fraction) / 10 ^ fraction.length)
    else .nan

/-- The conversions of letters, of which commas and white space are no part. -/
structure CaseMapping where
  toLowerCase : Text → Text
  toUpperCase : Text → Text
  lower_nil : toLowerCase [] = []
  lower_comma : ∀ before after,
    toLowerCase (before ++ ',' :: after) = toLowerCase before ++ ',' :: toLowerCase after
  no_comma : ∀ s, ',' ∉ s → ',' ∉ toLowerCase s
  lower_white : ∀ c s, whitespace c → toLowerCase (c :: s) = c :: toLowerCase s
  lower_white_last : ∀ s c, whitespace c → toLowerCase (s ++ [c]) = toLowerCase s ++ [c]
  lower_head : ∀ c s, ¬ whitespace c →
    ∃ first rest, toLowerCase (c :: s) = first :: rest ∧ ¬ whitespace first
  lower_last : ∀ s c, ¬ whitespace c →
    ∃ before last, toLowerCase (s ++ [c]) = before ++ [last] ∧ ¬ whitespace last

namespace CaseMapping

variable (mapping : CaseMapping)

theorem lower_dropWhile (s : Text) :
    mapping.toLowerCase (s.dropWhile whitespace) = (mapping.toLowerCase s).dropWhile whitespace := by
  induction s with
  | nil => rw [List.dropWhile_nil, mapping.lower_nil, List.dropWhile_nil]
  | cons c s ih =>
    by_cases white : whitespace c
    · rw [List.dropWhile_cons_of_pos white, mapping.lower_white c s white, List.dropWhile_cons_of_pos white,
        ih]
    · obtain ⟨first, rest, lower, other⟩ := mapping.lower_head c s white
      rw [List.dropWhile_cons_of_neg white, lower, List.dropWhile_cons_of_neg other]

theorem lower_rdropWhile (s : Text) :
    mapping.toLowerCase (s.rdropWhile whitespace) = (mapping.toLowerCase s).rdropWhile whitespace := by
  induction s using List.reverseRecOn with
  | nil => rw [List.rdropWhile_nil, mapping.lower_nil, List.rdropWhile_nil]
  | append_singleton s c ih =>
    by_cases white : whitespace c
    · rw [List.rdropWhile_concat_pos _ _ _ white, mapping.lower_white_last s c white,
        List.rdropWhile_concat_pos _ _ _ white, ih]
    · obtain ⟨before, last, lower, other⟩ := mapping.lower_last s c white
      rw [List.rdropWhile_concat_neg _ _ _ white, lower, List.rdropWhile_concat_neg _ _ _ other]

theorem lower_trim (s : Text) : mapping.toLowerCase (trim s) = trim (mapping.toLowerCase s) := by
  rw [trim, lower_rdropWhile, lower_dropWhile, ← trim]

/-- Letters can be made small before a string is split or after it. -/
theorem split_lower (s : Text) :
    (s.splitOn ',').map (fun part => mapping.toLowerCase (trim part)) =
      ((mapping.toLowerCase s).splitOn ',').map trim := by
  induction length : s.length using Nat.strong_induction_on generalizing s with
  | _ count ih =>
    by_cases comma : ',' ∈ s
    · obtain ⟨before, after, rfl, none⟩ := List.eq_append_cons_of_mem comma
      have shorter : after.length < count := by
        rw [← length, List.length_append, List.length_cons]
        omega
      rw [mapping.lower_comma, List.splitOn_append_cons_self_of_not_mem none,
        List.splitOn_append_cons_self_of_not_mem (mapping.no_comma _ none), List.map_cons, List.map_cons,
        ih _ shorter after rfl, mapping.lower_trim]
    · rw [List.splitOn_eq_singleton comma, List.splitOn_eq_singleton (mapping.no_comma s comma),
        List.map_singleton, List.map_singleton, mapping.lower_trim]

end CaseMapping

/-! ## The letters from A to Z -/

def letters : Text := "ABCDEFGHIJKLMNOPQRSTUVWXYZ".toList

theorem mem_letters {c : Char} (upper : c.val ≥ 'A'.val ∧ c.val ≤ 'Z'.val) : c ∈ letters := by
  have low : 65 ≤ c.toNat := UInt32.le_iff_toNat_le.mp upper.1
  have high : c.toNat ≤ 90 := UInt32.le_iff_toNat_le.mp upper.2
  have same := Char.ofNat_toNat c
  interval_cases value : c.toNat <;> rw [← same] <;> decide

theorem toLower_other {c : Char} (other : c ∉ letters) : c.toLower = c := by
  exact dif_neg fun upper => other (mem_letters upper)

theorem toLower_white {c : Char} (white : whitespace c) : c.toLower = c := by
  refine toLower_other fun letter => ?_
  have none : letters.all (fun c => ¬ whitespace c) = true := by decide
  have other := List.all_eq_true.mp none c letter
  exact of_decide_eq_true other white

/-- Small letters are neither white space nor commas. -/
theorem toLower_not {c : Char} : (¬ whitespace c → ¬ whitespace c.toLower) ∧ (c ≠ ',' → c.toLower ≠ ',') := by
  by_cases letter : c ∈ letters
  · have small : letters.all (fun c => ¬ whitespace c.toLower ∧ c.toLower ≠ ',') = true := by decide
    have both := of_decide_eq_true (List.all_eq_true.mp small c letter)
    exact ⟨fun _ => both.1, fun _ => both.2⟩
  · rw [toLower_other letter]
    exact ⟨id, id⟩

/-- The conversions of strings without other letters. -/
def asciiCase : CaseMapping where
  toLowerCase s := s.map Char.toLower
  toUpperCase s := s.map Char.toUpper
  lower_nil := rfl
  lower_comma before after := List.map_append
  no_comma s none member := by
    obtain ⟨c, inside, lower⟩ := List.mem_map.mp member
    refine toLower_not.2 (fun comma => ?_) lower
    exact none (comma ▸ inside)
  lower_white c s white := by rw [List.map_cons, toLower_white white]
  lower_white_last s c white := by rw [List.map_append, List.map_singleton, toLower_white white]
  lower_head c s other := ⟨_, _, List.map_cons, toLower_not.1 other⟩
  lower_last s c other := ⟨_, _, List.map_append, toLower_not.1 other⟩

end JavaScript

/-! Texts are lists of characters, and a position in one is any integer.
A negative position counts from the end.  `ahead` is the part still to be read at a position,
`slice` the part between two of them, and `startsAt` the test for a word at one. -/
namespace Peg

/-- A text is the list of its characters, so that every length counts characters. -/
abbrev Text := List Char

namespace Text

/-- A cutting point counts from the end when it is negative, and is never before the first
character. -/
def bound (t : Text) (i : Int) : Nat :=
  if i < 0 then (i + t.length).toNat else i.toNat

@[simp] theorem bound_natCast (t : Text) (n : Nat) : t.bound n = n := by
  rw [bound, if_neg (by omega), Int.toNat_natCast]

@[simp] theorem bound_zero (t : Text) : t.bound 0 = 0 := rfl

theorem bound_of_nonneg (t : Text) {i : Int} (h : 0 ≤ i) : t.bound i = i.toNat := by
  rw [bound, if_neg (by omega)]

/-- The characters from one position up to another. -/
def slice (t : Text) (i j : Int) : Text := (t.drop (t.bound i)).take (t.bound j - t.bound i)

theorem slice_natCast (t : Text) (m n : Nat) : t.slice m n = (t.take n).drop m := by
  simp [slice, List.drop_take]

@[simp] theorem slice_self (t : Text) (i : Int) : t.slice i i = [] := by
  simp [slice]

/-- The characters met when reading upwards from a position, one position a character.  Below
zero they start that far from the end and go on with the whole text; there is no such reading
when the position lies before the first character. -/
def ahead (t : Text) (i : Int) : Option Text :=
  if 0 ≤ i then some (t.drop i.toNat)
  else if -t.length ≤ i then some (t.drop (i + t.length).toNat ++ t)
  else none

@[simp] theorem ahead_natCast (t : Text) (n : Nat) : t.ahead n = some (t.drop n) := by
  simp [ahead]

theorem ahead_of_nonneg (t : Text) {i : Int} (h : 0 ≤ i) : t.ahead i = some (t.drop i.toNat) := by
  simp [ahead, h]

theorem ahead_eq_none_iff (t : Text) (i : Int) : t.ahead i = none ↔ i < -t.length := by
  unfold ahead; split
  · simp; omega
  · split <;> simp <;> omega

theorem length_of_ahead {t r : Text} {i : Int} (h : t.ahead i = some r) :
    (r.length : Int) = max 0 (t.length - i) := by
  unfold ahead at h
  split at h
  · cases h; simp; omega
  · split at h
    · cases h; simp; omega
    · cases h

/-- Whether a word stands at a position; past the end not even the empty word does. -/
def startsAt (t word : Text) (i : Int) : Bool :=
  word.isPrefixOf (t.drop (t.bound i)) && (!word.isEmpty || decide (t.bound i ≤ t.length))

theorem startsAt_iff (t word : Text) (i : Int) :
    t.startsAt word i = true ↔ word <+: t.drop (t.bound i) ∧ t.bound i ≤ t.length := by
  rw [startsAt, Bool.and_eq_true, List.isPrefixOf_iff_prefix]
  refine and_congr_right fun h => ?_
  cases word with
  | nil => simp
  | cons c r =>
    have := h.length_le
    simp at this ⊢
    omega

/-- How many newlines stand before a position. -/
def newlinesBefore (t : Text) (i : Int) : Nat := (t.take (t.bound i)).count '\n'

/-- Where the line that holds a position begins. -/
def lineStart (t : Text) (i : Int) : Nat :=
  let before := t.take (t.bound i)
  before.length - (before.reverse.takeWhile (· != '\n')).length

/-- Where the line that holds a position ends; the last line ends with the text. -/
def lineEnd (t : Text) (i : Int) : Nat :=
  let rest := t.drop (t.bound i)
  if '\n' ∈ rest then t.bound i + (rest.takeWhile (· != '\n')).length else t.length

/-- The line that holds a position, without its newline. -/
def lineAt (t : Text) (i : Int) : Text := t.slice (t.lineStart i) (t.lineEnd i)

/-- A text written a number of times, none for a negative number. -/
def times (t : Text) (n : Int) : Text := (List.replicate n.toNat t).flatten

/-- Texts put one after another with a separator between each two. -/
def joinWith (separator : Text) : List Text → Text
  | [] => []
  | [t] => t
  | t :: ts => t ++ separator ++ joinWith separator ts

/-- The decimal digits of a number. -/
def ofNat (n : Nat) : Text := Nat.toDigits 10 n

/-- The decimal digits of an integer, after a minus sign when it is negative. -/
def ofInt : Int → Text
  | .ofNat n => ofNat n
  | .negSucc n => '-' :: ofNat (n + 1)

end Text
end Peg

import Recognizer.Regex.Malformed
import Recognizer.Sorted.Set

/-!
# Character classes

A bracket stands for one character out of a list of members. A member `x-y` with both ends digits,
both lower-case or both upper-case letters stands for all characters from `x` to `y`; a `-` anywhere
else is a member itself. A negated bracket stands for the characters of the alphabet that are not
members.

## Main definitions

* `Alphabet`: the characters that negated brackets choose from; `Alphabet.printable`, the usual one.
* `expandRanges i members`: the characters of a list of members with its ranges written out.
* `CharClass`: the contents of a bracket; `CharClass.characters`, the characters it stands for.
-/

namespace Recognizer.Regex

/-- A finite set of characters. -/
abbrev Alphabet := SortedSet Char

/-- The characters between two characters, both included. -/
def charsBetween (low high : Char) : List Char :=
  (List.range (high.toNat + 1 - low.toNat)).map fun k => Char.ofNat (low.toNat + k)

/-- The printable characters of ASCII, and tab, line feed and carriage return. -/
def Alphabet.printable : Alphabet :=
  SortedSet.ofList (charsBetween ' ' '~' ++ ['\t', '\n', '\r'])

/-- The two characters can be the ends of a range: both are digits, both lower-case letters or both
upper-case letters of ASCII. A `-` between two other characters is a member like any other. -/
def SameKind (a b : Char) : Prop :=
  (a.isDigit ∧ b.isDigit) ∨ (a.isLower ∧ b.isLower) ∨ (a.isUpper ∧ b.isUpper)

instance (a b : Char) : Decidable (SameKind a b) := by unfold SameKind; infer_instance

/-- The members with the ranges written out, `i` being the position of the first member. A range in
the wrong order is malformed at the position of its first end. What comes after a range begins
afresh: its second end cannot be the first end of another one. -/
def expandRanges (i : Nat) : List Char → Except Malformed (List Char)
  | [] => .ok []
  | a :: '-' :: b :: rest =>
    if SameKind a b then
      if a ≤ b then (charsBetween a b ++ ·) <$> expandRanges (i + 3) rest
      else .error ⟨i, .reversedRange a b⟩
    else (a :: ·) <$> expandRanges (i + 1) ('-' :: b :: rest)
  | a :: rest => (a :: ·) <$> expandRanges (i + 1) rest

/-- The characters of a list, each at its first place only. -/
def distinct : List Char → List Char
  | [] => []
  | c :: rest => c :: (distinct rest).filter (· ≠ c)

/-- The contents of a bracket, before its ranges are written out: where it was opened, whether it is
negated, and its members. -/
structure CharClass where
  /-- The position of the opening bracket. -/
  position : Nat
  negated : Bool
  /-- The members as they are written. -/
  members : List Char
  deriving DecidableEq, Repr

/-- The characters that the bracket stands for: in the order of its members, or in the order of the
alphabet if it is negated. Members are counted from the place after the opening bracket, whether or
not a negation stands there. -/
def CharClass.characters (alphabet : Alphabet) (cls : CharClass) :
    Except Malformed (List Char) := do
  let chars ← expandRanges (cls.position + 1) cls.members
  return if cls.negated then (alphabet \ SortedSet.ofList chars).toList else distinct chars

end Recognizer.Regex

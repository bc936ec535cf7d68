import Recognizer.Regex.Token

/-!
# Regular expressions

A regular expression is a tree of alternation, concatenation and repetition over leaves. A leaf of
an expression that was read is a literal character or an action tag, which consumes no input.

## Main definitions

* `Expr α`: expressions with leaves in `α`.
* `Expr.Spells`: the strings of leaves that an expression denotes.
* `Expr.plus`, `Expr.opt`, `Expr.oneOf`: the derived operators.
* `Leaf`, `Expr.toPostfix`: the leaves of an expression that was read, and its stream of postfix
  tokens.
-/

namespace Recognizer.Regex

/-- A regular expression over leaves in `α`. The quantifiers `+` and `?` and brackets are no
constructors; they are written out when an expression is read. -/
inductive Expr (α : Type)
  | epsilon
  | leaf (a : α)
  | alt (left right : Expr α)
  | cat (left right : Expr α)
  | star (body : Expr α)
  deriving DecidableEq, Repr

namespace Expr

variable {α β : Type}

/-- The expression denotes the string of leaves. Leaves are taken as they are here: what text they
consume is said by `Leaf.text`, and where they stand in the tree by a numbering of them. -/
inductive Spells : Expr α → List α → Prop
  | epsilon : Spells epsilon []
  | leaf (a : α) : Spells (leaf a) [a]
  | altLeft {l r : Expr α} {u : List α} (h : Spells l u) : Spells (alt l r) u
  | altRight {l r : Expr α} {u : List α} (h : Spells r u) : Spells (alt l r) u
  | cat {l r : Expr α} {u v : List α} (hl : Spells l u) (hr : Spells r v) :
      Spells (cat l r) (u ++ v)
  | starNil {e : Expr α} : Spells (star e) []
  | starAppend {e : Expr α} {u v : List α} (h : Spells e u) (hs : Spells (star e) v) :
      Spells (star e) (u ++ v)

/-- The expression with `f` applied to every leaf. -/
def map (f : α → β) : Expr α → Expr β
  | epsilon => epsilon
  | leaf a => leaf (f a)
  | alt l r => alt (l.map f) (r.map f)
  | cat l r => cat (l.map f) (r.map f)
  | star e => star (e.map f)

/-- One or more repetitions. -/
def plus (e : Expr α) : Expr α := cat e (star e)

/-- The expression or nothing. -/
def opt (e : Expr α) : Expr α := alt e epsilon

/-- One of the leaves `a` and `rest`, as alternatives from the left. -/
def oneOf (a : α) (rest : List α) : Expr α := rest.foldl (fun e b => alt e (leaf b)) (leaf a)

/-- The number of nodes of the tree. -/
def size : Expr α → Nat
  | epsilon => 1
  | leaf _ => 1
  | alt l r => l.size + r.size + 1
  | cat l r => l.size + r.size + 1
  | star e => e.size + 1

/-- The number of leaves other than `ε`. -/
def leafCount : Expr α → Nat
  | epsilon => 0
  | leaf _ => 1
  | alt l r => l.leafCount + r.leafCount
  | cat l r => l.leafCount + r.leafCount
  | star e => e.leafCount

end Expr

/-- A leaf of an expression that was read: a character, or the tag of a lexer rule, which stands
behind the pattern of the rule. -/
inductive Leaf
  | lit (c : Char)
  | action (tag : ActionTag)
  deriving DecidableEq, Repr

/-- The token of a leaf. -/
def Leaf.token : Leaf → Token
  | lit c => .lit c
  | action tag => .action tag

/-- The text that a leaf consumes. -/
def Leaf.text : Leaf → List Char
  | lit c => [c]
  | action _ => []

/-- The postfix tokens of an expression, in front of a given stream. -/
def Expr.toPostfixThen : Expr Leaf → List Token → List Token
  | epsilon, rest => .epsilon :: rest
  | leaf a, rest => a.token :: rest
  | alt l r, rest => l.toPostfixThen (r.toPostfixThen (.op .alt :: rest))
  | cat l r, rest => l.toPostfixThen (r.toPostfixThen (.op .cat :: rest))
  | star e, rest => e.toPostfixThen (.op .star :: rest)

/-- The postfix tokens of an expression: the operands of an operator, from left to right, and then
the operator. -/
def Expr.toPostfix (e : Expr Leaf) : List Token := e.toPostfixThen []

/-- The expression matches a text: it denotes a string of leaves that consumes just this text.
Action tags consume nothing, so they may occur anywhere in that string. -/
def Expr.Matches (e : Expr Leaf) (text : List Char) : Prop :=
  ∃ leaves, e.Spells leaves ∧ leaves.flatMap Leaf.text = text

end Recognizer.Regex

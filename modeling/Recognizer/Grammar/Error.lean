import Recognizer.Grammar.LineToken
import Recognizer.Grammar.Symbol

/-!
# Errors of grammars

Why a rule, a grammar or its notation is rejected, and why a grammar has no automaton or table.

## Main definitions

* `RuleFault`, `LineFault`: what is wrong with a rule, and with a line of notation.
* `GrammarError`: the errors; `GrammarError.message`, the wording.
-/

namespace Recognizer

/-- What is wrong with the head and the body that were to make a rule. -/
inductive RuleFault
  /-- The head is not a nonterminal. -/
  | head
  /-- The body has no symbol, not even `ε`. -/
  | emptyBody
  /-- The body has `ε` beside other symbols. -/
  | mixedEpsilon
  /-- The body has the end marker. -/
  | endMark
  deriving DecidableEq, Repr

/-- The wording of a fault. -/
def RuleFault.message : RuleFault → String
  | head => "head is not a nonterminal"
  | emptyBody => "empty production, use an explicit epsilon"
  | mixedEpsilon => "epsilon mixed with other symbols"
  | endMark => "end marker in production"

/-- What is wrong with a line of grammar notation. -/
inductive LineFault
  /-- No token begins with this character. -/
  | unrecognized (c : Char)
  /-- This token, or the end of the line, stands where the notation does not allow it. -/
  | unexpected (token : Option LineToken)
  /-- The notation ends without a rule. -/
  | noRules
  deriving DecidableEq, Repr

/-- The wording of a fault. -/
def LineFault.message : LineFault → String
  | unrecognized c => "unrecognized input `" ++ c.toString ++ "`"
  | unexpected (some token) => "unexpected " ++ token.text
  | unexpected none => "unexpected end of line"
  | noRules => "no rules"

/-- An error of a grammar: of one of its rules, of its start, of its notation, or one that shows
when its automaton and its table are built. -/
inductive GrammarError
  /-- A rule is not well formed. -/
  | invalidRule (head : Symbol) (body : List Symbol) (fault : RuleFault)
  /-- The start symbol is not a nonterminal. -/
  | invalidStart (symbol : Symbol)
  /-- A nonterminal that the start leads to heads no rule. -/
  | undefined (symbol : Symbol)
  /-- A complete item belongs to no rule of the grammar. -/
  | ruleNotFound (head : Symbol) (body : List Symbol)
  /-- The start state has no transition on the start symbol, so that no state can accept. -/
  | noAcceptState (symbol : Symbol)
  /-- A line of the notation is malformed. -/
  | malformedLine (line : Nat) (fault : LineFault)
  deriving DecidableEq, Repr

/-- The text of a rule. -/
def ruleText (head : Symbol) (body : List Symbol) : String :=
  head.text ++ " -> " ++ Symbol.joined body

/-- The wording of an error. -/
def GrammarError.message : GrammarError → String
  | invalidRule head body fault => "invalid rule " ++ ruleText head body ++ ": " ++ fault.message
  | invalidStart symbol => "start symbol " ++ symbol.text ++ " is not a nonterminal"
  | undefined symbol => "undefined rule reference: no production for " ++ symbol.text
  | ruleNotFound head body => "rule not found: " ++ ruleText head body
  | noAcceptState symbol => "no accept state: initial state has no transition on " ++ symbol.text
  | malformedLine line fault =>
    "grammar syntax error at line " ++ toString line ++ ": " ++ fault.message

end Recognizer

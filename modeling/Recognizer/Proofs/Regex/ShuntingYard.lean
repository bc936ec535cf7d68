import Recognizer.Proofs.Regex.InfixGrammar
import Recognizer.Proofs.Regex.PostfixTrees
import Recognizer.Regex.ShuntingYard

/-!
# From infix streams to postfix streams to trees

The pass that puts a stream into postfix form works on the flat output and a stack of operators,
and the reader of infix streams builds trees. They agree step by step: the output holds the postfix
streams of the trees that the reader has built, in the order of the text, and the stack holds an
operator for each of these trees that a later one will be joined to. In particular the last operand
of the reader is what stands at the end of the output from the place that the pass remembers. So
the pass accepts the streams of the infix grammar, and the tree of its result is the one that the
grammar tells.

## Main definitions

* `Phrase.emitted`, `Phrase.waiting`: what a phrase of the reader is in the output and on the stack.
* `ShuntingYard.Follows`: the pass has taken in what the reader has read.

## Main results

* `ShuntingYard.Follows.step`: pass and reader agree on a token.
* `infixToPostfix_eq`: the result of the pass is the postfix stream of the expression that is read.
* `infixToPostfix_eq_ok_iff`: the streams that are accepted, and the trees of the results.
-/

namespace Recognizer.Regex

variable {alphabet : Alphabet} {e f : Expr Leaf} {out : List Token} {rest : List Waiting}
  {i : Nat} {t : Token} {ts : List Token}

/-! ### Phrases in the output and on the stack -/

/-- The postfix tokens of an expression that may be there. -/
def postfixTokens : Option (Expr Leaf) → List Token
  | none => []
  | some e => e.toPostfix

/-- The operator that waits where an expression is there to be joined to a later one. -/
def waitingOperator (o : Operator) : Option (Expr Leaf) → List Waiting
  | none => []
  | some _ => [.op o]

namespace Phrase

/-- The output of the phrase before its last operand. -/
def emittedBefore (p : Phrase) : List Token :=
  postfixTokens p.alternatives ++ postfixTokens p.factors

/-- The output of the phrase. -/
def emitted (p : Phrase) : List Token := p.emittedBefore ++ postfixTokens p.operand

/-- What waits on the stack for the rest of the phrase: a concatenation if there are factors, and
below it a bar if there are alternatives. -/
def waiting (p : Phrase) : List Waiting :=
  waitingOperator .cat p.factors ++ waitingOperator .alt p.alternatives

/-- The phrase where another operand begins: the last one is a factor now. -/
def opened (p : Phrase) : Phrase :=
  match p.operand with
  | none => p
  | some f => ⟨p.alternatives, some (catWith p.factors f), none⟩

theorem opened_operand (p : Phrase) : p.opened.operand = none := by
  rw [opened]
  split
  · assumption
  · rfl

theorem add_eq_opened (p : Phrase) (e : Expr Leaf) :
    p.add e = { p.opened with operand := some e } := by
  unfold add opened
  cases p.operand <;> rfl

end Phrase

/-- The output before the innermost open group. -/
def enclosingOutput : List (Nat × Phrase) → List Token
  | [] => []
  | (_, p) :: outer => enclosingOutput outer ++ p.opened.emitted

/-- What waits on the stack before the innermost open group begins, and for its end: each group with
the length that the output had when it opened. -/
def enclosingStack : List (Nat × Phrase) → List Waiting
  | [] => []
  | (position, p) :: outer =>
    .group (enclosingOutput outer ++ p.opened.emitted).length position ::
      (p.opened.waiting ++ enclosingStack outer)

namespace ShuntingYard

/-! ### Operators that leave the stack -/

theorem unload_waitingOperator_cat {o : Operator} (ho : o.precedence ≤ Operator.cat.precedence)
    (factors : Option (Expr Leaf)) :
    unload o (out ++ (postfixTokens factors ++ f.toPostfix))
        (waitingOperator .cat factors ++ rest) =
      unload o (out ++ (Phrase.catWith factors f).toPostfix) rest := by
  cases factors with
  | none => rfl
  | some e =>
    rw [waitingOperator, List.singleton_append, unload, if_neg (Nat.not_lt.mpr ho)]
    simp only [postfixTokens, Phrase.catWith, Expr.toPostfix_cat, List.append_assoc]

theorem unload_waitingOperator_alt (alternatives : Option (Expr Leaf)) :
    unload .alt (out ++ (postfixTokens alternatives ++ f.toPostfix))
        (waitingOperator .alt alternatives ++ rest) =
      unload .alt (out ++ (Phrase.altWith alternatives f).toPostfix) rest := by
  cases alternatives with
  | none => rfl
  | some e =>
    rw [waitingOperator, List.singleton_append, unload, if_neg (Nat.lt_irrefl _)]
    simp only [postfixTokens, Phrase.altWith, Expr.toPostfix_alt, List.append_assoc]

theorem unload_enclosingStack (o : Operator) (enclosing : List (Nat × Phrase)) :
    unload o out (enclosingStack enclosing) = (out, enclosingStack enclosing) := by
  cases enclosing <;> rfl

theorem unload_cat_waitingOperator_alt (alternatives : Option (Expr Leaf))
    (enclosing : List (Nat × Phrase)) :
    unload .cat out (waitingOperator .alt alternatives ++ enclosingStack enclosing) =
      (out, waitingOperator .alt alternatives ++ enclosingStack enclosing) := by
  cases alternatives with
  | none => exact unload_enclosingStack _ _
  | some e => rfl

/-- At the end of a group all its operators leave the stack. -/
theorem unloadGroup_waiting {p : Phrase} (he : p.complete = some e) :
    unloadGroup (out ++ p.emitted) (p.waiting ++ rest) = unloadGroup (out ++ e.toPostfix) rest := by
  obtain ⟨f, hf, rfl⟩ := Option.map_eq_some_iff.mp he
  obtain ⟨alternatives, factors, operand⟩ := p
  obtain rfl : operand = some f := hf
  cases alternatives <;> cases factors <;>
    simp [Phrase.emitted, Phrase.emittedBefore, Phrase.waiting, postfixTokens, waitingOperator,
      unloadGroup, Phrase.catWith, Phrase.altWith]

/-! ### What the pass and the reader have in common -/

/-- Output and stack are those of a phrase and the groups around it. This is the part of the
invariant that brackets do not touch. -/
structure Holds (y : ShuntingYard) (p : Phrase) (enclosing : List (Nat × Phrase)) : Prop where
  output : y.output = enclosingOutput enclosing ++ p.emitted
  stack : y.stack = p.waiting ++ enclosingStack enclosing
  depth : y.depth = enclosing.length

/-- The pass stands outside brackets, after a phrase. Where the phrase ends in an operand, the pass
remembers the place at which this begins in the output. -/
structure IsOutside (y : ShuntingYard) (p : Phrase) (enclosing : List (Nat × Phrase)) : Prop
    extends Holds y p enclosing where
  mode : y.mode = if y.depth = 0 then .normal else .group
  canCat : y.canCat = p.operand.isSome
  lastOperand : y.lastOperand =
    p.operand.map fun _ => (enclosingOutput enclosing ++ p.emittedBefore).length

/-- The pass stands inside a bracket, which is the next operand after a phrase. The concatenation in
front of it has been put on the stack when it was opened. -/
structure IsInside (y : ShuntingYard) (p : Phrase) (enclosing : List (Nat × Phrase))
    (cls : CharClass) : Prop extends Holds y p.opened enclosing where
  mode : y.mode = if cls.negated then .negatedBracket else .bracket
  members : y.members = cls.members
  classStart : y.classStart = y.output.length
  classPosition : y.classPosition = cls.position

/-- The pass has taken in what the reader has read. This is the simulation between flat output and
trees. -/
def Follows (y : ShuntingYard) (r : Reader) : Prop :=
  match r.bracket with
  | none => y.IsOutside r.phrase r.enclosing
  | some cls => y.IsInside r.phrase r.enclosing cls

variable {y : ShuntingYard} {r : Reader} {p : Phrase} {enclosing : List (Nat × Phrase)}

theorem IsOutside.follows (h : y.IsOutside r.phrase r.enclosing) (hr : r.bracket = none) :
    y.Follows r := by
  rw [Follows, hr]
  exact h

theorem follows_start : start.Follows Reader.start := ⟨⟨rfl, rfl, rfl⟩, rfl, rfl, rfl⟩

theorem Holds.output_eq_append (h : Holds y p enclosing) (hf : p.operand = some f) :
    y.output = enclosingOutput enclosing ++ p.emittedBefore ++ f.toPostfix := by
  rw [h.output, Phrase.emitted, hf, List.append_assoc]
  rfl

theorem Holds.unload_eq (h : Holds y p enclosing) (hf : p.operand = some f) {o : Operator}
    (ho : o.precedence ≤ Operator.cat.precedence) :
    unload o y.output y.stack =
      unload o (enclosingOutput enclosing ++ postfixTokens p.alternatives ++
          (Phrase.catWith p.factors f).toPostfix)
        (waitingOperator .alt p.alternatives ++ enclosingStack enclosing) := by
  rw [h.output_eq_append hf, h.stack, Phrase.emittedBefore, Phrase.waiting, ← List.append_assoc,
    List.append_assoc _ _ f.toPostfix, List.append_assoc (waitingOperator .cat _),
    unload_waitingOperator_cat ho]

/-- Where a concatenation comes, the last operand joins the factors. -/
theorem Holds.pushOperator_cat (h : Holds y p enclosing) (hf : p.operand = some f) :
    Holds (y.pushOperator .cat) p.opened enclosing := by
  have hunload := (h.unload_eq hf le_rfl).trans (unload_cat_waitingOperator_alt _ _)
  refine ⟨?_, ?_, h.depth⟩
  · simp only [pushOperator, hunload, Phrase.opened, hf, Phrase.emitted, Phrase.emittedBefore,
      postfixTokens, List.append_assoc, List.append_nil]
  · simp only [pushOperator, hunload, Phrase.waiting, Phrase.opened, hf, waitingOperator,
      List.cons_append, List.nil_append]

theorem Holds.pushOperator_alt (h : Holds y p enclosing) (he : p.complete = some e) :
    Holds (y.pushOperator .alt) ⟨some e, none, none⟩ enclosing := by
  obtain ⟨f, hf, rfl⟩ := Option.map_eq_some_iff.mp he
  have hunload := h.unload_eq (o := .alt) hf (by decide)
  rw [List.append_assoc, unload_waitingOperator_alt, unload_enclosingStack] at hunload
  refine ⟨?_, ?_, h.depth⟩
  · simp only [pushOperator, hunload, Phrase.emitted, Phrase.emittedBefore, postfixTokens,
      List.append_nil]
  · simp only [pushOperator, hunload, Phrase.waiting, waitingOperator, List.singleton_append,
      List.nil_append]

/-! ### Operands -/

@[simp]
theorem beginOperand_mode (y : ShuntingYard) : y.beginOperand.mode = y.mode := by
  unfold beginOperand
  split <;> rfl

@[simp]
theorem beginOperand_depth (y : ShuntingYard) : y.beginOperand.depth = y.depth := by
  unfold beginOperand
  split <;> rfl

theorem IsOutside.beginOperand (h : y.IsOutside p enclosing) :
    Holds y.beginOperand p.opened enclosing := by
  rw [ShuntingYard.beginOperand, h.canCat]
  cases hf : p.operand with
  | none => simpa [Phrase.opened, hf] using h.toHolds
  | some f => exact h.toHolds.pushOperator_cat hf

theorem Holds.endOperand (h : Holds y p.opened enclosing)
    (hmode : y.mode = if y.depth = 0 then .normal else .group) (e : Expr Leaf) :
    ({ y with output := y.output ++ e.toPostfix }.endOperand y.output.length).IsOutside
      (p.add e) enclosing := by
  have hbefore : y.output = enclosingOutput enclosing ++ (p.add e).emittedBefore := by
    rw [h.output, Phrase.emitted, p.opened_operand, p.add_eq_opened]
    exact congrArg _ (List.append_nil _)
  refine ⟨⟨?_, ?_, h.depth⟩, hmode, ?_, ?_⟩
  · rw [Phrase.emitted, ← List.append_assoc, ← hbefore, p.add_eq_opened]
    rfl
  · rw [p.add_eq_opened]
    exact h.stack
  · rw [p.add_eq_opened]
    rfl
  · rw [← hbefore, p.add_eq_opened]
    rfl

theorem IsOutside.operand (h : y.IsOutside p enclosing) (he : e.toPostfix = [t]) :
    (y.operand t).IsOutside (p.add e) enclosing := by
  rw [ShuntingYard.operand, ← he]
  exact h.beginOperand.endOperand (by simpa using h.mode) e

/-- A quantifier changes the last operand alone: this is what stands at the end of the output from
the place that the pass remembers. -/
theorem IsOutside.quantify (h : y.IsOutside r.phrase r.enclosing) (hr : r.bracket = none)
    (q : Operator) (tail : List Token → List Token) (quantified : Expr Leaf → Expr Leaf)
    (htail : ∀ f : Expr Leaf, (quantified f).toPostfix = f.toPostfix ++ tail f.toPostfix) :
    Agree Follows (y.quantify i q tail) (r.quantify i q quantified) := by
  rw [ShuntingYard.quantify, Reader.quantify, h.lastOperand, h.canCat]
  cases hf : r.phrase.operand with
  | none => exact rfl
  | some f =>
    have houtput := h.output_eq_append hf
    have hdrop : y.output.drop (enclosingOutput r.enclosing ++ r.phrase.emittedBefore).length =
        f.toPostfix := by rw [houtput, List.drop_left]
    simp only [Option.map_some, Option.filter_some, Option.isSome_some, if_true, hdrop]
    refine IsOutside.follows ⟨⟨?_, h.stack, h.depth⟩, h.mode, rfl, rfl⟩ hr
    rw [houtput, List.append_assoc, ← htail]
    exact List.append_assoc ..

/-! ### Groups and brackets -/

theorem IsOutside.openGroup (h : y.IsOutside p enclosing) (i : Nat) :
    (y.openGroup i).IsOutside .empty ((i, p) :: enclosing) := by
  have hbegin := h.beginOperand
  refine ⟨⟨?_, ?_, ?_⟩, ?_, rfl, rfl⟩
  · exact hbegin.output.trans (List.append_nil _).symm
  · exact congrArg₂ _ (congrArg (Waiting.group · i) (congrArg _ hbegin.output)) hbegin.stack
  · exact congrArg _ hbegin.depth
  · exact (if_neg (Nat.succ_ne_zero _)).symm

theorem IsOutside.closeGroup (h : y.IsOutside r.phrase r.enclosing) (hr : r.bracket = none) :
    Agree Follows (y.closeGroup i) (r.closeGroup i) := by
  rw [ShuntingYard.closeGroup, Reader.closeGroup, h.canCat]
  cases hf : r.phrase.operand with
  | none =>
    rw [Phrase.complete, hf]
    exact rfl
  | some f =>
    have he : r.phrase.complete = some _ := congrArg (Option.map _) hf
    rw [Option.isSome_some, if_pos rfl, he, h.output, h.stack, unloadGroup_waiting he]
    cases henclosing : r.enclosing with
    | nil => exact rfl
    | cons group rest =>
      obtain ⟨position, outer⟩ := group
      have hdepth : y.depth - 1 = rest.length := by rw [h.depth, henclosing]; rfl
      have hmode : y.mode = .group := by
        rw [h.mode, h.depth, henclosing]
        exact if_neg (Nat.succ_ne_zero _)
      refine IsOutside.follows (Holds.endOperand (y := { y with
        output := enclosingOutput ((position, outer) :: rest)
        stack := outer.opened.waiting ++ enclosingStack rest
        depth := y.depth - 1
        mode := if y.depth - 1 = 0 then .normal else y.mode }) ⟨rfl, rfl, hdepth⟩ ?_ _) hr
      rw [hmode]

theorem IsOutside.openBracket (h : y.IsOutside p enclosing) (i : Nat) :
    (y.openBracket i).IsInside p enclosing ⟨i, false, []⟩ := by
  have hbegin := h.beginOperand
  exact ⟨⟨hbegin.output, hbegin.stack, hbegin.depth⟩, rfl, rfl, rfl, rfl⟩

theorem IsInside.closeBracket {cls : CharClass} (h : y.IsInside r.phrase r.enclosing cls) :
    Agree Follows (y.closeBracket alphabet i) (r.closeBracket alphabet i cls) := by
  have hcls : ⟨y.classPosition, y.mode = .negatedBracket, y.members⟩ = cls := by
    rw [h.classPosition, h.members, h.mode]
    obtain ⟨position, negated, members⟩ := cls
    cases negated <;> rfl
  rw [ShuntingYard.closeBracket, Reader.closeBracket, hcls]
  refine (Agree.refl (cls.characters alphabet)).bind ?_
  rintro chars - - - rfl
  cases chars with
  | nil => exact rfl
  | cons c cs =>
    have hoperand := Holds.endOperand
      (y := { y with mode := if 0 < y.depth then .group else .normal })
      ⟨h.output, h.stack, h.depth⟩ (by simp only [Nat.pos_iff_ne_zero, ite_not])
      (.oneOf (.lit c) (cs.map .lit))
    rw [Expr.toPostfix_oneOf, ← h.classStart] at hoperand
    exact hoperand

/-! ### Tokens -/

theorem IsOutside.outside (h : y.IsOutside r.phrase r.enclosing) (hr : r.bracket = none)
    (i : Nat) (t : Token) : Agree Follows (y.outside i t) (r.outside i t) := by
  cases t with
  | epsilon => exact (h.operand Expr.toPostfix_epsilon).follows hr
  | lit c => exact (h.operand (Expr.toPostfix_leaf (.lit c))).follows hr
  | action tag => exact (h.operand (Expr.toPostfix_leaf (.action tag))).follows hr
  | op o =>
    cases o with
    | alt =>
      rw [ShuntingYard.outside, binary, Reader.outside, h.canCat]
      cases hf : r.phrase.operand with
      | none =>
        rw [Phrase.complete, hf]
        exact rfl
      | some f =>
        have he : r.phrase.complete = some _ := congrArg (Option.map _) hf
        rw [he]
        have hpush := h.toHolds.pushOperator_alt he
        exact IsOutside.follows ⟨⟨hpush.output, hpush.stack, hpush.depth⟩, h.mode, rfl, rfl⟩ hr
    | cat =>
      rw [ShuntingYard.outside, binary, Reader.outside, h.canCat]
      cases hf : r.phrase.operand with
      | none => exact rfl
      | some f =>
        have hpush := h.toHolds.pushOperator_cat hf
        rw [Phrase.opened, hf] at hpush
        exact IsOutside.follows ⟨⟨hpush.output, hpush.stack, hpush.depth⟩, h.mode, rfl, rfl⟩ hr
    | star => exact h.quantify hr .star (fun _ => [.op .star]) .star Expr.toPostfix_star
    | plus =>
      refine h.quantify hr .plus (· ++ [.op .star, .op .cat]) .plus fun f => ?_
      rw [Expr.plus, Expr.toPostfix_cat, Expr.toPostfix_star, List.append_assoc, List.append_assoc]
      rfl
    | opt =>
      refine h.quantify hr .opt (fun _ => [.epsilon, .op .alt]) .opt fun f => ?_
      rw [Expr.opt, Expr.toPostfix_alt, List.append_assoc]
      rfl
    | lparen => exact IsOutside.follows (h.openGroup i) hr
    | rparen => exact h.closeGroup hr
    | lbracket => exact h.openBracket i
    | rbracket => exact rfl
    | negate => exact rfl

theorem IsInside.inside {cls : CharClass} (h : y.IsInside r.phrase r.enclosing cls) (i : Nat)
    (t : Token) : Agree Follows (y.inside alphabet i t) (r.inside alphabet cls i t) := by
  cases t with
  | epsilon => exact rfl
  | action tag => exact rfl
  | lit c =>
    exact ⟨⟨h.output, h.stack, h.depth⟩, h.mode, congrArg (· ++ [c]) h.members, h.classStart,
      h.classPosition⟩
  | op o =>
    cases o with
    | negate =>
      have hhead : (y.mode = .bracket ∧ i = y.classPosition + 1) ↔
          (cls.negated = false ∧ i = cls.position + 1) := by
        rw [h.mode, h.classPosition]
        cases cls.negated <;> simp
      rw [ShuntingYard.inside, Reader.inside]
      by_cases hi : cls.negated = false ∧ i = cls.position + 1
      · rw [if_pos hi, if_pos (hhead.mpr hi)]
        exact ⟨⟨h.output, h.stack, h.depth⟩, rfl, h.members, h.classStart, h.classPosition⟩
      · rw [if_neg hi, if_neg (mt hhead.mp hi)]
        exact rfl
    | rbracket => exact h.closeBracket
    | _ => exact rfl

/-- Pass and reader take in a token alike: both fail with the same error, or the pass still follows
the reader after it. -/
theorem Follows.step (h : y.Follows r) (i : Nat) (t : Token) :
    Agree Follows (y.step alphabet i t) (r.step alphabet i t) := by
  rw [Follows] at h
  cases hr : r.bracket with
  | none =>
    rw [hr] at h
    have hstep : y.step alphabet i t = y.outside i t := by
      rw [ShuntingYard.step, h.mode]
      split_ifs <;> rfl
    rw [hstep, Reader.step, hr]
    exact h.outside hr i t
  | some cls =>
    rw [hr] at h
    have hstep : y.step alphabet i t = y.inside alphabet i t := by
      rw [ShuntingYard.step, h.mode]
      split_ifs <;> rfl
    rw [hstep, Reader.step, hr]
    exact h.inside i t

/-- Pass and reader take in a stream alike. -/
theorem Follows.run (h : y.Follows r) (i : Nat) (ts : List Token) :
    Agree Follows (y.run alphabet i ts) (r.run alphabet i ts) := by
  induction ts generalizing y r i with
  | nil => exact h
  | cons t ts ih => exact (h.step i t).bind fun y' r' _ _ h' => ih h' (i + 1)

/-! ### The end of the stream -/

theorem IsOutside.eq_nil (h : y.IsOutside r.phrase r.enclosing) (hr : r.bracket = none)
    (hspans : r.Spans alphabet ts) (houtput : y.output = []) (hstack : y.stack = []) : ts = [] := by
  obtain ⟨⟨alternatives, factors, operand⟩, enclosing, bracket⟩ := r
  obtain rfl : bracket = none := hr
  have hnone {o : Option (Expr Leaf)} (ho : postfixTokens o = []) : o = none := by
    cases o with
    | none => rfl
    | some e => exact absurd ho e.toPostfix_ne_nil
  rw [h.output, List.append_eq_nil_iff, Phrase.emitted, Phrase.emittedBefore,
    List.append_eq_nil_iff, List.append_eq_nil_iff] at houtput
  obtain ⟨-, ⟨halternatives, hfactors⟩, hoperand⟩ := houtput
  rw [h.stack, List.append_eq_nil_iff] at hstack
  cases enclosing with
  | cons group outer => cases hstack.2
  | nil =>
    obtain rfl := hnone halternatives
    obtain rfl := hnone hfactors
    obtain rfl := hnone hoperand
    obtain ⟨us, vs, hus, ⟨xs, ys, zs, hxs, hys, hzs, rfl⟩, ws, hws, rfl⟩ := hspans
    obtain rfl : us = [] := hus
    obtain rfl : xs = [] := hxs
    obtain rfl : ys = [] := hys
    obtain rfl : zs = [] := hzs
    obtain rfl : ws = [] := hws
    rfl

theorem Follows.finish (h : y.Follows r) (hspans : r.Spans alphabet ts) (hts : ts ≠ [])
    (length : Nat) : y.finish length = Expr.toPostfix <$> r.finish length := by
  rw [Follows] at h
  cases hr : r.bracket with
  | some cls =>
    rw [hr] at h
    rw [ShuntingYard.finish, Reader.finish, hr, h.mode, h.classPosition]
    cases cls.negated <;> rfl
  | none =>
    rw [hr] at h
    have hsome : ¬ (y.output = [] ∧ y.stack = []) := by
      rintro ⟨houtput, hstack⟩
      exact hts (h.eq_nil hr hspans houtput hstack)
    have hfinish : y.finish length =
        if y.canCat then y.flush else .error ⟨length, .noOperandAtEnd⟩ := by
      rw [ShuntingYard.finish, if_neg hsome, h.mode]
      split_ifs <;> rfl
    rw [hfinish, Reader.finish, hr, h.canCat]
    cases hf : r.phrase.operand with
    | none =>
      rw [Phrase.complete, hf]
      rfl
    | some f =>
      have he : r.phrase.complete = some _ := congrArg (Option.map _) hf
      rw [Option.isSome_some, if_pos rfl, he, flush, h.output, h.stack, unloadGroup_waiting he]
      cases r.enclosing <;> rfl

end ShuntingYard

/-! ### Whole streams -/

/-- The result of the pass is the postfix stream of the expression that is read, and the pass fails
with the error of the reader. -/
theorem infixToPostfix_eq (alphabet : Alphabet) (ts : List Token) :
    infixToPostfix alphabet ts = Expr.toPostfix <$> Expr.ofTokens alphabet ts := by
  by_cases hts : ts = []
  · subst hts
    rfl
  · rw [infixToPostfix, Expr.ofTokens, if_neg (by simpa using hts), map_bind]
    refine ((ShuntingYard.follows_start.run 0 ts).bind fun y r _ hrun h => ?_).eq
    rw [h.finish (Reader.spans_start.run hrun) hts]
    exact Agree.refl _

/-- The streams that are accepted. The pass accepts a stream of infix tokens just if it is empty or
an alternation of the grammar, where a bracket is one of the characters it stands for; the result is
then a well-formed postfix stream, and its tree is the one that the grammar tells. The result of the
empty stream is `ε`. -/
theorem infixToPostfix_eq_ok_iff (alphabet : Alphabet) (ts : List Token) :
    (∀ out, infixToPostfix alphabet ts = .ok out ↔
      (ts = [] ∧ out = [.epsilon]) ∨
        ∃ e, Reads alphabet .alternation ts e ∧ Expr.ofPostfix out = .ok e) ∧
    ∀ position negated members chars,
      CharClass.characters alphabet ⟨position, negated, members⟩ = .ok chars ↔
        StandsFor alphabet negated members chars := by
  refine ⟨fun out => ?_, fun position _ _ _ => characters_eq_ok_iff position⟩
  rw [infixToPostfix_eq, map_eq_ok_iff]
  constructor
  · rintro ⟨e, he, rfl⟩
    rcases Expr.ofTokens_eq_ok_iff.mp he with ⟨hts, rfl⟩ | hreads
    · exact Or.inl ⟨hts, rfl⟩
    · exact Or.inr ⟨e, hreads, Expr.ofPostfix_eq_ok_iff.mpr rfl⟩
  · rintro (⟨hts, rfl⟩ | ⟨e, hreads, hout⟩)
    · exact ⟨.epsilon, Expr.ofTokens_eq_ok_iff.mpr (Or.inl ⟨hts, rfl⟩), rfl⟩
    · exact ⟨e, Expr.ofTokens_eq_ok_iff.mpr (Or.inr hreads),
        (Expr.ofPostfix_eq_ok_iff.mp hout).symm⟩

/-- The operand of `+` is a whole bracket, in which the second `b` is dropped. -/
example : infixToPostfix ∅ [.lit 'x', .op .lbracket, .lit 'a', .lit '-', .lit 'b', .lit 'b',
    .op .rbracket, .op .plus] = .ok [.lit 'x', .lit 'a', .lit 'b', .op .alt, .lit 'a', .lit 'b',
      .op .alt, .op .star, .op .cat, .op .cat] := by
  decide +kernel

end Recognizer.Regex

import Recognizer.Proofs.Iteration.Results
import Recognizer.Regex.Postfix

/-!
# The trees of postfix streams

The postfix stream of an expression holds its operands before their operator, so the stack machine
that reads it has the operands of each operator on top when the operator comes. The machine gives
the expression back, and it accepts no other streams than these.

## Main results

* `Expr.pushAll_toPostfixThen`: the postfix tokens of an expression push this expression.
* `Expr.ofPostfix_eq_ok_iff`: the streams that are well formed.
-/

namespace Recognizer.Regex.Expr

variable {e : Expr Leaf} {t : Token} {ts rest : List Token} {stack stack' : List (Expr Leaf)}
  {i : Nat}

/-! ### The stream of an expression -/

theorem toPostfixThen_eq (e : Expr Leaf) (rest : List Token) :
    e.toPostfixThen rest = e.toPostfix ++ rest := by
  induction e generalizing rest with
  | epsilon | leaf a => rfl
  | alt l r ihl ihr | cat l r ihl ihr =>
    rw [toPostfix, toPostfixThen, toPostfixThen, ihl, ihr, ihl (r.toPostfixThen _), ihr [_],
      List.append_assoc, List.append_assoc]
    rfl
  | star e ih =>
    rw [toPostfix, toPostfixThen, toPostfixThen, ih, ih [_], List.append_assoc]
    rfl

@[simp]
theorem toPostfix_epsilon : toPostfix .epsilon = [.epsilon] := rfl

@[simp]
theorem toPostfix_leaf (a : Leaf) : toPostfix (.leaf a) = [a.token] := rfl

@[simp]
theorem toPostfix_alt (l r : Expr Leaf) :
    toPostfix (.alt l r) = l.toPostfix ++ r.toPostfix ++ [.op .alt] := by
  rw [toPostfix, toPostfixThen, toPostfixThen_eq, toPostfixThen_eq, List.append_assoc]

@[simp]
theorem toPostfix_cat (l r : Expr Leaf) :
    toPostfix (.cat l r) = l.toPostfix ++ r.toPostfix ++ [.op .cat] := by
  rw [toPostfix, toPostfixThen, toPostfixThen_eq, toPostfixThen_eq, List.append_assoc]

@[simp]
theorem toPostfix_star (e : Expr Leaf) : toPostfix (.star e) = e.toPostfix ++ [.op .star] := by
  rw [toPostfix, toPostfixThen, toPostfixThen_eq]

theorem toPostfix_ne_nil (e : Expr Leaf) : e.toPostfix ≠ [] := by
  cases e <;> simp

theorem toPostfix_foldl_alt (e : Expr Leaf) (alternatives : List (Expr Leaf)) :
    (alternatives.foldl .alt e).toPostfix =
      e.toPostfix ++ alternatives.flatMap fun f => f.toPostfix ++ [.op .alt] := by
  induction alternatives generalizing e with
  | nil => exact (List.append_nil _).symm
  | cons f alternatives ih =>
    rw [List.foldl_cons, ih, toPostfix_alt, List.flatMap_cons]
    simp only [List.append_assoc]

theorem toPostfix_oneOf (c : Char) (cs : List Char) :
    (oneOf (.lit c) (cs.map .lit)).toPostfix =
      .lit c :: cs.flatMap fun d => [.lit d, .op .alt] := by
  have hfoldl : oneOf (Leaf.lit c) (cs.map .lit) =
      (cs.map fun d => leaf (.lit d)).foldl .alt (.leaf (.lit c)) := by
    rw [oneOf, List.foldl_map, List.foldl_map]
  rw [hfoldl, toPostfix_foldl_alt, List.flatMap_map]
  rfl

private theorem pushAll_cons (h : push stack i t = .ok stack') :
    pushAll stack i (t :: rest) = pushAll stack' (i + 1) rest := by
  rw [pushAll, h]
  rfl

/-- The postfix tokens of an expression push this expression, whatever is on the stack before and
comes in the stream after them. -/
theorem pushAll_toPostfixThen (e : Expr Leaf) (stack : List (Expr Leaf)) (i : Nat)
    (rest : List Token) :
    pushAll stack i (e.toPostfixThen rest) = pushAll (e :: stack) (i + e.size) rest := by
  induction e generalizing stack i rest with
  | epsilon => exact pushAll_cons rfl
  | leaf a =>
    cases a with
    | lit c => exact pushAll_cons rfl
    | action tag => exact pushAll_cons rfl
  | alt l r ihl ihr | cat l r ihl ihr =>
    rw [toPostfixThen, ihl, ihr, size, ← Nat.add_assoc, ← Nat.add_assoc]
    exact pushAll_cons rfl
  | star e ih =>
    rw [toPostfixThen, ih, size, ← Nat.add_assoc]
    exact pushAll_cons rfl

/-! ### The streams that are well formed -/

/-- What has been read when a stack has been pushed: the postfix streams of its expressions, the
last one first on the stack. -/
def pushedTokens (stack : List (Expr Leaf)) : List Token := stack.reverse.flatMap toPostfix

theorem pushedTokens_cons (e : Expr Leaf) (stack : List (Expr Leaf)) :
    pushedTokens (e :: stack) = pushedTokens stack ++ e.toPostfix := by
  rw [pushedTokens, List.reverse_cons, List.flatMap_append, List.flatMap_singleton]
  rfl

private theorem pushedTokens_push (h : push stack i t = .ok stack') :
    pushedTokens stack' = pushedTokens stack ++ [t] := by
  cases t with
  | epsilon | lit c | action tag =>
    obtain rfl := Except.ok.inj h
    exact pushedTokens_cons _ _
  | op o =>
    cases o with
    | star =>
      cases stack with
      | nil => cases h
      | cons e stack =>
        obtain rfl := Except.ok.inj h
        rw [pushedTokens_cons, pushedTokens_cons, toPostfix_star, List.append_assoc]
    | alt | cat =>
      match stack with
      | [] => cases h
      | [_] => cases h
      | r :: l :: stack =>
        obtain rfl := Except.ok.inj h
        simp only [pushedTokens_cons, toPostfix_alt, toPostfix_cat, List.append_assoc]
    | _ => cases h

/-- All tokens that are pushed have been read. -/
theorem pushedTokens_pushAll (h : pushAll stack i ts = .ok stack') :
    pushedTokens stack' = pushedTokens stack ++ ts := by
  induction ts generalizing stack i with
  | nil =>
    obtain rfl := Except.ok.inj h
    exact (List.append_nil _).symm
  | cons t ts ih =>
    obtain ⟨stack₁, hpush, h⟩ := bind_eq_ok_iff.mp h
    rw [ih h, pushedTokens_push hpush, List.append_assoc]
    rfl

/-- Well-formed streams. The postfix stream of an expression is read as this expression, and no
other stream is read. -/
theorem ofPostfix_eq_ok_iff : ofPostfix ts = .ok e ↔ ts = e.toPostfix := by
  constructor
  · intro h
    obtain ⟨stack, hstack, h⟩ := bind_eq_ok_iff.mp h
    match stack, h with
    | [_], h =>
      obtain rfl := Except.ok.inj h
      exact (pushedTokens_pushAll hstack).symm.trans (List.append_nil _)
  · rintro rfl
    have hstack : pushAll [] 0 e.toPostfix = .ok [e] := pushAll_toPostfixThen e [] 0 []
    rw [ofPostfix, hstack]
    rfl

end Recognizer.Regex.Expr

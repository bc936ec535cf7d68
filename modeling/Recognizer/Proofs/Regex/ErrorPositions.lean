import Mathlib.Data.List.Infix
import Recognizer.Proofs.Regex.ShuntingYard

/-!
# What the position of an error points at

A malformed stream of infix tokens is reported with a position. At most errors this is the position
of the token that is being read. A parenthesis or bracket without a partner is found at the end of
the stream and reported at its own position, which is kept with the group or bracket while this is
open. A range in the wrong order is found at the end of its bracket; its position is counted from
the opening bracket, as if the members began right after it. So in a negated bracket it is the
position before that of the range.

## Main definitions

* `Balanced`, `Closes`: which token closes a parenthesis or bracket.
* `Reason.Blames`: the token that a reason complains about.
* `PointsAt`: what stands at the position of an error.
* `Reader.OpensAt`: the positions of the open groups.

## Main results

* `Reader.step_cases`: what the reader makes of a token.
* `Reader.OpensAt.step`, `Reader.OpensAt.run`: the positions of open groups are those of their
  parentheses.
* `Reader.exists_of_run_eq_error`: the token at which the reading fails.
* `pointsAt_of_infixToPostfix`: what stands at the position of an error of the pass.
-/

namespace Recognizer.Regex

variable {alphabet : Alphabet} {ts us vs ws : List Token} {t : Token} {i p q : Nat} {e : Malformed}
  {x y : Char}

/-! ### Partners -/

/-- Every parenthesis among the tokens has its partner there. Parentheses in brackets count, too,
but a bracket only holds literals. -/
inductive Balanced : List Token → Prop
  | nil : Balanced []
  | single {t : Token} (hopen : t ≠ .op .lparen) (hclose : t ≠ .op .rparen) : Balanced [t]
  | append {ts us : List Token} (h : Balanced ts) (h' : Balanced us) : Balanced (ts ++ us)
  | group {ts : List Token} (h : Balanced ts) : Balanced (.op .lparen :: ts ++ [.op .rparen])

/-- The token at `q` closes the parenthesis or the bracket at `p`: what stands between them is
balanced, or holds no closing bracket. -/
inductive Closes : List Token → Nat → Nat → Prop
  | group (us : List Token) {ws : List Token} (vs : List Token) (h : Balanced ws) :
      Closes (us ++ .op .lparen :: (ws ++ .op .rparen :: vs)) us.length (us.length + 1 + ws.length)
  | bracket (us : List Token) {ws : List Token} (vs : List Token) (h : .op .rbracket ∉ ws) :
      Closes (us ++ .op .lbracket :: (ws ++ .op .rbracket :: vs)) us.length
        (us.length + 1 + ws.length)

/-- Up to any place, no more parentheses are closed than have been opened, and in the end all are
closed. -/
theorem Balanced.count_le (h : Balanced ts) :
    ts.count (.op .lparen) = ts.count (.op .rparen) ∧
      ∀ us, us <+: ts → us.count (.op .rparen) ≤ us.count (.op .lparen) := by
  induction h with
  | nil => exact ⟨rfl, fun us hus => by rw [List.prefix_nil.mp hus]; exact Nat.le_refl 0⟩
  | single hopen hclose =>
    refine ⟨by simp [hopen, hclose], fun us hus => ?_⟩
    have hnone := (hus.sublist.count_le (.op .rparen)).trans_eq
      (List.count_eq_zero.mpr (by simpa using hclose.symm))
    omega
  | @append ts ts' _ _ ih ih' =>
    refine ⟨by rw [List.count_append, List.count_append, ih.1, ih'.1], fun us hus => ?_⟩
    rcases List.prefix_or_prefix_of_prefix hus (List.prefix_append ts ts') with hinner | ⟨vs, rfl⟩
    · exact ih.2 us hinner
    · have hrest := ih'.2 vs ((List.prefix_append_right_inj ts).mp hus)
      rw [List.count_append, List.count_append, ih.1]
      omega
  | @group ts _ ih =>
    have hcount : (Token.op .lparen :: ts ++ [Token.op .rparen]).count (Token.op .lparen) =
        (Token.op .lparen :: ts ++ [Token.op .rparen]).count (Token.op .rparen) := by
      simp [ih.1]
    refine ⟨hcount, fun us hus => ?_⟩
    rcases List.prefix_concat_iff.mp hus with rfl | hus
    · exact hcount.ge
    · rcases List.prefix_cons_iff.mp hus with rfl | ⟨us, rfl, hus⟩
      · exact Nat.le_refl 0
      · have hinner := ih.2 us ((List.prefix_cons_inj _).mp hus)
        simp
        omega

private theorem Closes.cases_append (h : Closes (us ++ t :: vs) us.length q) :
    (t = .op .lparen ∧ ∃ ws vs', Balanced ws ∧ vs = ws ++ .op .rparen :: vs') ∨
      t = .op .lbracket ∧ .op .rbracket ∈ vs := by
  generalize hts : us ++ t :: vs = ts at h
  generalize hp : us.length = p at h
  cases h with
  | @group us' ws vs' hws =>
    obtain ⟨rfl, rfl⟩ := List.cons.inj (List.append_inj hts hp).2
    exact Or.inl ⟨rfl, ws, vs', hws, rfl⟩
  | @bracket us' ws vs' hws =>
    obtain ⟨rfl, rfl⟩ := List.cons.inj (List.append_inj hts hp).2
    exact Or.inr ⟨rfl, by simp⟩

theorem Balanced.not_closes (h : Balanced vs) (q : Nat) :
    ¬ Closes (us ++ .op .lparen :: vs) us.length q := by
  intro hcloses
  rcases hcloses.cases_append with ⟨-, ws, vs', hws, rfl⟩ | ⟨hopen, -⟩
  · -- up to the partner, one more parenthesis is closed than is opened
    have hcount := h.count_le.2 (ws ++ [.op .rparen]) ⟨vs', by rw [List.append_assoc]; rfl⟩
    have hclosed : [Token.op .rparen].count (.op .rparen) = 1 := rfl
    have hopened : [Token.op .rparen].count (.op .lparen) = 0 := rfl
    rw [List.count_append, List.count_append, hws.count_le.1, hclosed, hopened] at hcount
    omega
  · cases hopen

theorem not_closes_of_not_mem (h : .op .rbracket ∉ vs) (q : Nat) :
    ¬ Closes (us ++ .op .lbracket :: vs) us.length q := by
  intro hcloses
  rcases hcloses.cases_append with ⟨hopen, -⟩ | ⟨-, hmem⟩
  · cases hopen
  · exact h hmem

/-! ### What an error says -/

/-- The reason complains about the token. Reasons that concern no single token, or one that is not
the token being read, blame none. -/
def Reason.Blames : Reason → Token → Prop
  | noOperandBeforeAlt, t => t = .op .alt
  | noOperandBeforeCat, t => t = .op .cat
  | noOperandBeforeClose, t => t = .op .rparen
  | noOperandForQuantifier q, t => (q = .star ∨ q = .plus ∨ q = .opt) ∧ t = .op q
  | unbalanced d, t => (d = .rparen ∨ d = .rbracket) ∧ t = .op d
  | negationOutsideHead, t => t = .op .negate
  | negationInClass, t => t = .op .negate
  | nestedClass, t => t = .op .lbracket
  | epsilonInClass, t => t = .epsilon
  | actionInClass, t => ∃ tag, t = .action tag
  | operatorInClass o, t => t = .op o
  | emptyClass, t => t = .op .rbracket
  | _, _ => False

/-- The range from `x` to `y`, in the wrong order, stands at `p` among the members of a bracket. -/
structure ReversedRangeAt (ts : List Token) (negated : Bool) (x y : Char) (p : Nat) : Prop where
  sameKind : SameKind x y
  reversed : y < x
  tokens : [.lit x, .lit '-', .lit y] <+: ts.drop p
  inClass : ∃ us members vs, ts = us ++ (bracketTokens negated members ++ vs) ∧
    us.length < p ∧ p + 3 < us.length + (bracketTokens negated members).length

/-- What stands at the position of an error in the tokens. There is a case for each way in which an
error gets its position. -/
inductive PointsAt (ts : List Token) : Malformed → Prop
  /-- The token that the reason complains about. -/
  | token {p : Nat} {t : Token} {reason : Reason} (hget : ts[p]? = some t)
      (hblames : reason.Blames t) : PointsAt ts ⟨p, reason⟩
  /-- A parenthesis or bracket that is nowhere closed. -/
  | opener {p : Nat} {d : Operator} (hd : d = .lparen ∨ d = .lbracket)
      (hget : ts[p]? = some (.op d)) (hopen : ∀ q, ¬ Closes ts p q) :
      PointsAt ts ⟨p, .unbalanced d⟩
  /-- The end of the stream. -/
  | atEnd : PointsAt ts ⟨ts.length, .noOperandAtEnd⟩
  /-- The range in the wrong order, of a bracket that is not negated. -/
  | range {x y : Char} {p : Nat} (h : ReversedRangeAt ts false x y p) :
      PointsAt ts ⟨p, .reversedRange x y⟩
  /-- The place before the range in the wrong order, in a negated bracket. -/
  | negatedRange {x y : Char} {p : Nat} (h : ReversedRangeAt ts true x y (p + 1)) :
      PointsAt ts ⟨p, .reversedRange x y⟩

/-! ### Where the open groups begin -/

namespace Reader

variable {r r' : Reader} {enclosing : List (Nat × Phrase)}

/-- The tokens have been read with these groups open, innermost first. Each of them is kept with the
position of its parenthesis, and what follows this parenthesis before the next one that is open is
balanced. -/
def OpensAt : List (Nat × Phrase) → List Token → Prop
  | [], ts => Balanced ts
  | (p, _) :: outer, ts =>
    ∃ us vs, ts = us ++ .op .lparen :: vs ∧ us.length = p ∧ Balanced vs ∧ OpensAt outer us

theorem OpensAt.append (h : OpensAt enclosing ts) (hus : Balanced us) :
    OpensAt enclosing (ts ++ us) := by
  cases enclosing with
  | nil => exact Balanced.append h hus
  | cons group outer =>
    obtain ⟨ts, vs, rfl, hlength, hvs, houter⟩ := h
    exact ⟨ts, vs ++ us, by rw [List.append_assoc]; rfl, hlength, hvs.append hus, houter⟩

/-- What reading the token at `i` does to the open groups: a parenthesis opens or closes one, and
other tokens leave them as they are. -/
inductive MovesGroups (i : Nat) (r r' : Reader) : Token → Prop
  | opens (h : r'.enclosing = (i, r.phrase) :: r.enclosing) : MovesGroups i r r' (.op .lparen)
  | closes {group : Nat × Phrase} (h : r.enclosing = group :: r'.enclosing) :
      MovesGroups i r r' (.op .rparen)
  | other {t : Token} (hopen : t ≠ .op .lparen) (hclose : t ≠ .op .rparen)
      (h : r'.enclosing = r.enclosing) : MovesGroups i r r' t

private theorem quantify_cases {q : Operator} (hq : q = .star ∨ q = .plus ∨ q = .opt)
    (r : Reader) (i : Nat) (f : Expr Leaf → Expr Leaf) :
    (∃ r', r.quantify i q f = .ok r' ∧ MovesGroups i r r' (.op q)) ∨
      ∃ reason, r.quantify i q f = .error ⟨i, reason⟩ ∧ reason.Blames (.op q) := by
  rw [quantify]
  cases r.phrase.operand with
  | none => exact Or.inr ⟨_, rfl, hq, rfl⟩
  | some e =>
    refine Or.inl ⟨_, rfl, .other ?_ ?_ rfl⟩ <;> rcases hq with rfl | rfl | rfl <;> simp

private theorem outside_cases (r : Reader) (i : Nat) (t : Token) :
    (∃ r', r.outside i t = .ok r' ∧ MovesGroups i r r' t) ∨
      ∃ reason, r.outside i t = .error ⟨i, reason⟩ ∧ reason.Blames t := by
  cases t with
  | epsilon | lit c | action tag => exact Or.inl ⟨_, rfl, .other (by simp) (by simp) rfl⟩
  | op o =>
    cases o with
    | alt =>
      rw [outside]
      cases r.phrase.complete with
      | none => exact Or.inr ⟨_, rfl, rfl⟩
      | some e => exact Or.inl ⟨_, rfl, .other (by simp) (by simp) rfl⟩
    | cat =>
      rw [outside]
      cases r.phrase.operand with
      | none => exact Or.inr ⟨_, rfl, rfl⟩
      | some f => exact Or.inl ⟨_, rfl, .other (by simp) (by simp) rfl⟩
    | star => exact quantify_cases (Or.inl rfl) r i _
    | plus => exact quantify_cases (Or.inr (Or.inl rfl)) r i _
    | opt => exact quantify_cases (Or.inr (Or.inr rfl)) r i _
    | lparen => exact Or.inl ⟨_, rfl, .opens rfl⟩
    | rparen =>
      rw [outside, closeGroup]
      cases r.phrase.complete with
      | none => exact Or.inr ⟨_, rfl, rfl⟩
      | some e =>
        cases henclosing : r.enclosing with
        | nil => exact Or.inr ⟨_, rfl, Or.inl rfl, rfl⟩
        | cons group outer => exact Or.inl ⟨_, rfl, .closes henclosing⟩
    | lbracket => exact Or.inl ⟨_, rfl, .other (by simp) (by simp) rfl⟩
    | rbracket => exact Or.inr ⟨_, rfl, Or.inr rfl, rfl⟩
    | negate => exact Or.inr ⟨_, rfl, rfl⟩

private theorem inside_cases (alphabet : Alphabet) (r : Reader) (cls : CharClass) (i : Nat)
    (t : Token) :
    (∃ r', r.inside alphabet cls i t = .ok r' ∧ MovesGroups i r r' t) ∨
      (∃ reason, r.inside alphabet cls i t = .error ⟨i, reason⟩ ∧ reason.Blames t) ∨
      ∃ e, r.inside alphabet cls i t = .error e ∧ t = .op .rbracket ∧
        cls.characters alphabet = .error e := by
  cases t with
  | lit c => exact Or.inl ⟨_, rfl, .other (by simp) (by simp) rfl⟩
  | epsilon => exact Or.inr (Or.inl ⟨_, rfl, rfl⟩)
  | action tag => exact Or.inr (Or.inl ⟨_, rfl, tag, rfl⟩)
  | op o =>
    cases o with
    | negate =>
      rw [inside]
      split_ifs
      · exact Or.inl ⟨_, rfl, .other (by simp) (by simp) rfl⟩
      · exact Or.inr (Or.inl ⟨_, rfl, rfl⟩)
    | rbracket =>
      rw [inside, closeBracket]
      cases hchars : cls.characters alphabet with
      | error e => exact Or.inr (Or.inr ⟨e, rfl, rfl, rfl⟩)
      | ok chars =>
        cases chars with
        | nil => exact Or.inr (Or.inl ⟨_, rfl, rfl⟩)
        | cons c cs => exact Or.inl ⟨_, rfl, .other (by simp) (by simp) rfl⟩
    | _ => exact Or.inr (Or.inl ⟨_, rfl, rfl⟩)

/-- What the reader makes of a token. It is read, or it is blamed at its own position, or it closes
a bracket whose members are wrong. -/
theorem step_cases (alphabet : Alphabet) (r : Reader) (i : Nat) (t : Token) :
    (∃ r', r.step alphabet i t = .ok r' ∧ MovesGroups i r r' t) ∨
      (∃ reason, r.step alphabet i t = .error ⟨i, reason⟩ ∧ reason.Blames t) ∨
      ∃ cls e, r.step alphabet i t = .error e ∧ r.bracket = some cls ∧ t = .op .rbracket ∧
        cls.characters alphabet = .error e := by
  rw [step]
  cases r.bracket with
  | none => exact (outside_cases r i t).imp_right Or.inl
  | some cls =>
    rcases inside_cases alphabet r cls i t with hread | hblames | ⟨e, herror, ht, hchars⟩
    · exact Or.inl hread
    · exact Or.inr (Or.inl hblames)
    · exact Or.inr (Or.inr ⟨cls, e, herror, rfl, ht, hchars⟩)

/-- Reading a token keeps the positions of the open groups right. -/
theorem OpensAt.step (h : OpensAt r.enclosing ts)
    (hstep : r.step alphabet ts.length t = .ok r') : OpensAt r'.enclosing (ts ++ [t]) := by
  have hmoves : MovesGroups ts.length r r' t := by
    rcases step_cases alphabet r ts.length t with ⟨r₁, hread, hmoves⟩ |
      ⟨reason, herror, -⟩ | ⟨cls, e, herror, -⟩
    · rwa [Except.ok.inj (hread.symm.trans hstep)] at hmoves
    · cases herror.symm.trans hstep
    · cases herror.symm.trans hstep
  cases hmoves with
  | opens hopen =>
    rw [hopen]
    exact ⟨ts, [], rfl, rfl, .nil, h⟩
  | closes hclose =>
    rw [hclose] at h
    obtain ⟨us, vs, rfl, -, hvs, houter⟩ := h
    rw [List.append_assoc]
    exact houter.append (.group hvs)
  | other hopen hclose hsame =>
    rw [hsame]
    exact h.append (.single hopen hclose)

/-- Reading a stream keeps the positions of the open groups right, so a group that is open at the
end is reported where its parenthesis stands. -/
theorem OpensAt.run (h : OpensAt r.enclosing ts) (hrun : r.run alphabet ts.length us = .ok r') :
    OpensAt r'.enclosing (ts ++ us) :=
  run_induction (p := fun r ts => OpensAt r.enclosing ts) OpensAt.step h hrun

/-! ### Where the reading fails -/

/-- Where the reading of a stream fails, it fails at a token, after all tokens before it have been
read. -/
theorem exists_of_run_eq_error (h : r.run alphabet i ts = .error e) :
    ∃ us t vs r', ts = us ++ t :: vs ∧ r.run alphabet i us = .ok r' ∧
      r'.step alphabet (i + us.length) t = .error e := by
  induction ts generalizing r i with
  | nil => cases h
  | cons t ts ih =>
    rcases bind_eq_error_iff.mp h with hstep | ⟨r₁, hstep, hrest⟩
    · exact ⟨[], t, ts, r, rfl, rfl, hstep⟩
    · obtain ⟨us, t', vs, r', rfl, hrun, hfail⟩ := ih hrest
      refine ⟨t :: us, t', vs, r', rfl, bind_eq_ok_iff.mpr ⟨r₁, hstep, hrun⟩, ?_⟩
      rwa [List.length_cons, show i + (us.length + 1) = i + 1 + us.length by omega]

end Reader

/-! ### Ranges in the wrong order -/

/-- Where the members of a bracket are wrong, a range among them is in the wrong order. -/
theorem exists_of_expandRanges_eq_error {members : List Char}
    (h : expandRanges i members = .error e) :
    ∃ before x y after, members = before ++ x :: '-' :: y :: after ∧ SameKind x y ∧ y < x ∧
      e = ⟨i + before.length, .reversedRange x y⟩ := by
  fun_induction expandRanges i members with
  | case1 => cases h
  | case2 i a b rest hkind hle ih =>
    obtain ⟨before, x, y, after, rfl, hkind', hlt, rfl⟩ := ih (map_eq_error_iff.mp h)
    exact ⟨a :: '-' :: b :: before, x, y, after, rfl, hkind', hlt, by
      simp only [List.length_cons]; congr 1; omega⟩
  | case3 i a b rest hkind hle =>
    obtain rfl := Except.error.inj h
    exact ⟨[], a, b, rest, rfl, hkind, Char.not_le.mp hle, rfl⟩
  | case4 i a b rest hkind ih =>
    obtain ⟨before, x, y, after, heq, hkind', hlt, rfl⟩ := ih (map_eq_error_iff.mp h)
    exact ⟨a :: before, x, y, after, by rw [heq]; rfl, hkind', hlt, by
      rw [List.length_cons]; congr 1; omega⟩
  | case5 i a rest hno ih =>
    obtain ⟨before, x, y, after, rfl, hkind', hlt, rfl⟩ := ih (map_eq_error_iff.mp h)
    exact ⟨a :: before, x, y, after, rfl, hkind', hlt, by
      rw [List.length_cons]; congr 1; omega⟩

private theorem reversedRangeAt (us vs : List Token) (negated : Bool) (before after : List Char)
    (hkind : SameKind x y) (hlt : y < x) :
    ReversedRangeAt
      (us ++ (bracketTokens negated (before ++ x :: '-' :: y :: after) ++ vs)) negated x y
      (us.length + 1 + before.length + negated.toNat) := by
  let head : List Token := .op .lbracket :: if negated then [.op .negate] else []
  let range : List Token := [.lit x, .lit '-', .lit y]
  let rest : List Token := after.map .lit ++ [.op .rbracket]
  have hhead : head.length = 1 + negated.toNat := by cases negated <;> rfl
  have hbracket : bracketTokens negated (before ++ x :: '-' :: y :: after) =
      head ++ before.map Token.lit ++ (range ++ rest) := by
    simp [bracketTokens, head, range, rest]
  rw [hbracket]
  refine ⟨hkind, hlt, ⟨rest ++ vs, ?_⟩, us, _, vs, by rw [hbracket], by omega, ?_⟩
  · have hts : us ++ (head ++ before.map Token.lit ++ (range ++ rest) ++ vs) =
        (us ++ head ++ before.map Token.lit) ++ (range ++ (rest ++ vs)) := by
      simp only [List.append_assoc]
    rw [hts, List.drop_left']
    simp only [List.length_append, List.length_map, hhead]
    omega
  · rw [hbracket]
    simp only [List.length_append, List.length_map, hhead, range, rest, List.length_cons,
      List.length_nil]
    omega

/-- Where the members of a bracket are wrong, a range is reported that stands among them, or right
after the position if the bracket is negated. -/
theorem pointsAt_of_characters_eq_error {negated : Bool} {members : List Char}
    (h : CharClass.characters alphabet ⟨us.length, negated, members⟩ = .error e) :
    PointsAt (us ++ (bracketTokens negated members ++ vs)) e := by
  have hranges : expandRanges (us.length + 1) members = .error e := by
    rcases bind_eq_error_iff.mp h with hranges | ⟨chars, -, hpure⟩
    · exact hranges
    · cases hpure
  obtain ⟨before, x, y, after, rfl, hkind, hlt, rfl⟩ := exists_of_expandRanges_eq_error hranges
  have hrange := reversedRangeAt us vs negated before after hkind hlt
  cases negated with
  | false => exact .range hrange
  | true => exact .negatedRange hrange

/-! ### Whole streams -/

private theorem getElem?_length : (us ++ t :: vs)[us.length]? = some t := by
  rw [List.getElem?_append_right (Nat.le_refl _), Nat.sub_self]
  rfl

/-- An error at a token points at it, or at a range of the bracket that it closes. -/
theorem Reader.Spans.pointsAt {r : Reader} (h : r.Spans alphabet us)
    (hstep : r.step alphabet us.length t = .error e) : PointsAt (us ++ t :: vs) e := by
  rcases Reader.step_cases alphabet r us.length t with ⟨r', hread, -⟩ |
    ⟨reason, herror, hblames⟩ | ⟨cls, e', herror, hr, rfl, hchars⟩
  · cases hread.symm.trans hstep
  · obtain rfl := Except.error.inj (herror.symm.trans hstep)
    exact .token getElem?_length hblames
  · obtain rfl := Except.error.inj (herror.symm.trans hstep)
    obtain ⟨xs, ys, -, -, ws, hws, rfl⟩ := h
    rw [hr] at hws
    obtain ⟨hposition, rfl⟩ := hws
    have hwrong : CharClass.characters alphabet ⟨(xs ++ ys).length, cls.negated, cls.members⟩ =
        .error e' := by rwa [← hposition]
    have hpoints : PointsAt (xs ++ ys ++ (bracketTokens cls.negated cls.members ++ vs)) e' :=
      pointsAt_of_characters_eq_error hwrong
    simpa only [bracketTokens, List.append_assoc, List.cons_append, List.nil_append] using hpoints

/-- An error at the end of the stream points at its end, or at what is open there and is closed by
no token. -/
theorem Reader.Spans.pointsAt_finish {r : Reader} (h : r.Spans alphabet ts)
    (hopens : Reader.OpensAt r.enclosing ts) (hfinish : r.finish ts.length = .error e) :
    PointsAt ts e := by
  rw [Reader.finish] at hfinish
  cases hr : r.bracket with
  | some cls =>
    rw [hr] at hfinish
    obtain rfl := Except.error.inj hfinish
    obtain ⟨us, vs, -, -, ws, hws, rfl⟩ := h
    rw [hr] at hws
    obtain ⟨hposition, rfl⟩ := hws
    rw [hposition]
    refine .opener (Or.inr rfl) getElem?_length (not_closes_of_not_mem ?_)
    cases cls.negated <;> simp
  | none =>
    cases hcomplete : r.phrase.complete with
    | none =>
      rw [hr, hcomplete] at hfinish
      obtain rfl := Except.error.inj hfinish
      exact .atEnd
    | some f =>
      cases henclosing : r.enclosing with
      | nil => simp [hr, hcomplete, henclosing] at hfinish
      | cons group outer =>
        obtain ⟨p, phrase⟩ := group
        rw [hr, hcomplete, henclosing] at hfinish
        obtain rfl := Except.error.inj hfinish
        rw [henclosing] at hopens
        obtain ⟨us, vs, rfl, rfl, hvs, -⟩ := hopens
        exact .opener (Or.inl rfl) getElem?_length hvs.not_closes

/-- What stands at the position of an error: the token that the reason complains about; for a range
in the wrong order, the first of its three tokens, or the token before it if the bracket is negated;
for a parenthesis or bracket that is still open at the end of the stream, this one, which no token
closes; and for an operand that is missing there, the length of the stream. -/
theorem pointsAt_of_infixToPostfix (h : infixToPostfix alphabet ts = .error e) :
    PointsAt ts e := by
  rw [infixToPostfix_eq, map_eq_error_iff, Expr.ofTokens] at h
  split_ifs at h
  rcases bind_eq_error_iff.mp h with hrun | ⟨r, hrun, hfinish⟩
  · obtain ⟨us, t, vs, r, rfl, hrun, hstep⟩ := Reader.exists_of_run_eq_error hrun
    exact (Reader.spans_start.run hrun).pointsAt (by rwa [Nat.zero_add] at hstep)
  · have hstart : Reader.OpensAt Reader.start.enclosing [] := Balanced.nil
    exact (Reader.spans_start.run hrun).pointsAt_finish (hstart.run hrun) hfinish

/-- A range in a negated bracket within a group. -/
theorem pointsAt_of_infixToPostfix_negated :
    infixToPostfix ∅ [.op .lparen, .op .lbracket, .op .negate, .lit 'z', .lit '-', .lit 'a',
        .op .rbracket] = .error ⟨2, .reversedRange 'z' 'a'⟩ ∧
      PointsAt [.op .lparen, .op .lbracket, .op .negate, .lit 'z', .lit '-', .lit 'a',
        .op .rbracket] ⟨2, .reversedRange 'z' 'a'⟩ := by
  have herror : infixToPostfix ∅ [.op .lparen, .op .lbracket, .op .negate, .lit 'z', .lit '-',
      .lit 'a', .op .rbracket] = .error ⟨2, .reversedRange 'z' 'a'⟩ := by
    decide +kernel
  exact ⟨herror, pointsAt_of_infixToPostfix herror⟩

/-- In a negated bracket the position is not that of the range. -/
theorem exists_not_prefix_drop_position :
    ∃ ts x y p, infixToPostfix ∅ ts = .error ⟨p, .reversedRange x y⟩ ∧
      ¬ [.lit x, .lit '-', .lit y] <+: ts.drop p :=
  ⟨[.op .lbracket, .op .negate, .lit 'z', .lit '-', .lit 'a', .op .rbracket], 'z', 'a', 1,
    by decide +kernel, by decide⟩

end Recognizer.Regex

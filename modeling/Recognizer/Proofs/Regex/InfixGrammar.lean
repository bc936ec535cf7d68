import Recognizer.Proofs.Regex.Brackets
import Recognizer.Proofs.Regex.Language
import Recognizer.Regex.Infix

/-!
# The grammar of infix expressions

A stream of infix tokens is an expression by a grammar of four levels: an alternation is a list of
concatenations separated by bars, a concatenation is a list of operands with quantifiers, with or
without an operator in between, and an operand is a single token, a group or a bracket. The reader
accepts just the streams of this grammar, and reads each of them as the expression that the grammar
gives it.

## Main definitions

* `Level`: the levels of the grammar.
* `Reads`: the tokens are an expression of a level.

## Main results

* `Expr.ofTokens_eq_ok_iff`: the reader and the grammar agree.
* `Reads.isPlain`: the expression has no action tags if the tokens have none.
-/

namespace Recognizer.Regex

/-- The levels of the grammar, from the one that binds strongest. -/
inductive Level
  | operand | factor | term | alternation
  deriving DecidableEq, Repr

/-- The tokens of a bracket with the given members. -/
def bracketTokens (negated : Bool) (members : List Char) : List Token :=
  .op .lbracket :: (if negated then [.op .negate] else []) ++ members.map .lit ++ [.op .rbracket]

/-- The tokens are the expression `e` of the given level. An expression of one level is also one of
the levels that bind less strongly. -/
inductive Reads (alphabet : Alphabet) : Level → List Token → Expr Leaf → Prop
  | epsilon : Reads alphabet .operand [.epsilon] .epsilon
  | lit (c : Char) : Reads alphabet .operand [.lit c] (.leaf (.lit c))
  | action (tag : ActionTag) : Reads alphabet .operand [.action tag] (.leaf (.action tag))
  | group {ts : List Token} {e : Expr Leaf} (h : Reads alphabet .alternation ts e) :
      Reads alphabet .operand (.op .lparen :: ts ++ [.op .rparen]) e
  | bracket {position : Nat} {negated : Bool} {members : List Char} {c : Char} {cs : List Char}
      (h : CharClass.characters alphabet ⟨position, negated, members⟩ = .ok (c :: cs)) :
      Reads alphabet .operand (bracketTokens negated members) (.oneOf (.lit c) (cs.map .lit))
  | ofOperand {ts : List Token} {e : Expr Leaf} (h : Reads alphabet .operand ts e) :
      Reads alphabet .factor ts e
  | star {ts : List Token} {e : Expr Leaf} (h : Reads alphabet .factor ts e) :
      Reads alphabet .factor (ts ++ [.op .star]) (.star e)
  | plus {ts : List Token} {e : Expr Leaf} (h : Reads alphabet .factor ts e) :
      Reads alphabet .factor (ts ++ [.op .plus]) (.plus e)
  | opt {ts : List Token} {e : Expr Leaf} (h : Reads alphabet .factor ts e) :
      Reads alphabet .factor (ts ++ [.op .opt]) (.opt e)
  | ofFactor {ts : List Token} {e : Expr Leaf} (h : Reads alphabet .factor ts e) :
      Reads alphabet .term ts e
  | cat {ts us : List Token} {e f : Expr Leaf} (h : Reads alphabet .term ts e)
      (h' : Reads alphabet .factor us f) : Reads alphabet .term (ts ++ us) (.cat e f)
  | catOperator {ts us : List Token} {e f : Expr Leaf} (h : Reads alphabet .term ts e)
      (h' : Reads alphabet .factor us f) :
      Reads alphabet .term (ts ++ .op .cat :: us) (.cat e f)
  | ofTerm {ts : List Token} {e : Expr Leaf} (h : Reads alphabet .term ts e) :
      Reads alphabet .alternation ts e
  | alt {ts us : List Token} {e f : Expr Leaf} (h : Reads alphabet .alternation ts e)
      (h' : Reads alphabet .term us f) :
      Reads alphabet .alternation (ts ++ .op .alt :: us) (.alt e f)

variable {alphabet : Alphabet} {level : Level} {ts us : List Token} {e : Expr Leaf}

/-! ### Reading what the grammar gives -/

namespace Reader

theorem run_cons (r : Reader) (i : Nat) (t : Token) :
    r.run alphabet i (t :: ts) =
      (r.step alphabet i t >>= fun r' => r'.run alphabet (i + 1) ts) := rfl

theorem run_append (r : Reader) (i : Nat) :
    r.run alphabet i (ts ++ us) =
      (r.run alphabet i ts >>= fun r' => r'.run alphabet (i + ts.length) us) := by
  induction ts generalizing r i with
  | nil => rfl
  | cons t ts ih =>
    rw [List.cons_append, run_cons, run_cons]
    cases r.step alphabet i t with
    | error e => rfl
    | ok r' =>
      change r'.run alphabet (i + 1) (ts ++ us) = _
      rw [ih, List.length_cons, show i + 1 + ts.length = i + (ts.length + 1) by omega]
      rfl

theorem run_members (r : Reader) (i : Nat) (cls : CharClass) (members : List Char) :
    ({ r with bracket := some cls }).run alphabet i (members.map .lit) =
      .ok { r with bracket := some { cls with members := cls.members ++ members } } := by
  induction members generalizing i cls with
  | nil => rw [List.append_nil]; rfl
  | cons c members ih =>
    rw [List.map_cons, run_cons]
    refine (ih (i + 1) { cls with members := cls.members ++ [c] }).trans ?_
    rw [List.append_assoc]
    rfl

end Reader

theorem characters_congr {i : Nat} (j : Nat) {negated : Bool} {members chars : List Char}
    (h : CharClass.characters alphabet ⟨i, negated, members⟩ = .ok chars) :
    CharClass.characters alphabet ⟨j, negated, members⟩ = .ok chars :=
  (characters_eq_ok_iff j).mpr ((characters_eq_ok_iff i).mp h)

/-- The expression of the factors and the last operand of a phrase, if it ends in an operand. -/
def Phrase.product (p : Phrase) : Option (Expr Leaf) := p.operand.map (catWith p.factors)

theorem Phrase.complete_eq (p : Phrase) :
    p.complete = p.product.map (altWith p.alternatives) := by
  rw [complete, product, Option.map_map]
  rfl

/-- A reader that stands where an expression of the level may begin reads the tokens as `e`. A term
may only begin where no factor has been read yet, an alternation only at the beginning of a
group. -/
def ReadAs (alphabet : Alphabet) (ts : List Token) (e : Expr Leaf) : Level → Prop
  | .operand | .factor => ∀ (r : Reader) i, r.bracket = none → r.run alphabet i ts = .ok (r.add e)
  | .term => ∀ (r : Reader) i, r.bracket = none → r.phrase.factors = none →
      r.phrase.operand = none → ∃ p : Phrase, p.alternatives = r.phrase.alternatives ∧
        p.product = some e ∧ r.run alphabet i ts = .ok { r with phrase := p }
  | .alternation => ∀ (r : Reader) i, r.bracket = none → r.phrase = .empty →
      ∃ p : Phrase, p.complete = some e ∧ r.run alphabet i ts = .ok { r with phrase := p }

namespace Reader

variable {r : Reader} {i : Nat} {f : Expr Leaf}

private theorem run_outside {r' : Reader} {t : Token} (hr : r.bracket = none)
    (h : r.outside i t = .ok r') : r.run alphabet i (t :: ts) = r'.run alphabet (i + 1) ts := by
  rw [run_cons, step, hr]
  dsimp only
  rw [h]
  rfl

private theorem run_quantifier {q : Operator} {f : Expr Leaf → Expr Leaf}
    (hr : r.bracket = none) (hread : r.run alphabet i ts = .ok (r.add e))
    (hq : ∀ (r : Reader) i, r.outside i (.op q) = r.quantify i q f) :
    r.run alphabet i (ts ++ [.op q]) = .ok (r.add (f e)) := by
  have hlast (i : Nat) : (r.add e).outside i (.op q) = .ok (r.add (f e)) := by
    rw [hq, quantify]
    unfold add Phrase.add
    cases r.phrase.operand with
    | none => rfl
    | some g => rfl
  rw [run_append, hread]
  exact run_outside hr (hlast _)

private theorem run_bracket (hr : r.bracket = none) {negated : Bool} {members : List Char}
    {c : Char} {cs : List Char}
    (h : CharClass.characters alphabet ⟨i, negated, members⟩ = .ok (c :: cs)) :
    r.run alphabet i (bracketTokens negated members) =
      .ok (r.add (.oneOf (.lit c) (cs.map .lit))) := by
  have hclose (j : Nat) : ({ r with bracket := some ⟨i, negated, members⟩ }).run alphabet j
      [.op .rbracket] = .ok (r.add (.oneOf (.lit c) (cs.map .lit))) := by
    rw [run_cons]
    change (closeBracket alphabet _ j ⟨i, negated, members⟩ >>= _) = _
    rw [closeBracket, h]
    simp only [add, hr]
    rfl
  have hhead : r.run alphabet i (.op .lbracket :: if negated then [.op .negate] else []) =
      .ok { r with bracket := some ⟨i, negated, []⟩ } := by
    rw [run_outside hr rfl]
    cases negated with
    | false => rfl
    | true =>
      rw [if_pos rfl, run_cons, step]
      dsimp only
      rw [inside, if_pos ⟨rfl, rfl⟩]
      rfl
  rw [bracketTokens, run_append, run_append, hhead]
  change (Reader.run alphabet _ _ _ >>= _) = _
  rw [run_members, List.nil_append]
  exact hclose _

end Reader

open Reader in
/-- The reader reads what the grammar gives, from any state in which an expression of the level may
begin and at any position. -/
theorem Reads.readAs (h : Reads alphabet level ts e) : ReadAs alphabet ts e level := by
  induction h with
  | epsilon | lit c | action tag =>
    intro r i hr
    exact run_outside hr rfl
  | @group ts e h ih =>
    intro r i hr
    obtain ⟨p, hp, hrun⟩ := ih
      { r with phrase := .empty, enclosing := (i, r.phrase) :: r.enclosing } (i + 1) hr rfl
    rw [List.cons_append, run_outside hr rfl, run_append, hrun]
    refine run_outside hr ?_
    rw [outside, closeGroup]
    simp only [hp]
    rfl
  | bracket h =>
    intro r i hr
    exact run_bracket hr (characters_congr i h)
  | ofOperand h ih => exact ih
  | star h ih =>
    intro r i hr
    exact run_quantifier hr (ih r i hr) fun _ _ => rfl
  | plus h ih =>
    intro r i hr
    exact run_quantifier hr (ih r i hr) fun _ _ => rfl
  | opt h ih =>
    intro r i hr
    exact run_quantifier hr (ih r i hr) fun _ _ => rfl
  | @ofFactor ts e h ih =>
    intro r i hr hfactors hoperand
    refine ⟨r.phrase.add e, ?_, ?_, ih r i hr⟩
    · rw [Phrase.add, hoperand]
    · rw [Phrase.add, hoperand, Phrase.product, hfactors]
      rfl
  | @cat ts us e f h h' ih ih' =>
    intro r i hr hfactors hoperand
    obtain ⟨p, halts, hproduct, hrun⟩ := ih r i hr hfactors hoperand
    obtain ⟨g, hg, rfl⟩ := Option.map_eq_some_iff.mp hproduct
    refine ⟨p.add f, ?_, ?_, ?_⟩
    · rw [Phrase.add, hg, ← halts]
    · rw [Phrase.add, hg, Phrase.product]
      rfl
    · rw [run_append, hrun]
      exact ih' _ _ hr
  | @catOperator ts us e f h h' ih ih' =>
    intro r i hr hfactors hoperand
    obtain ⟨p, halts, hproduct, hrun⟩ := ih r i hr hfactors hoperand
    obtain ⟨g, hg, rfl⟩ := Option.map_eq_some_iff.mp hproduct
    refine ⟨⟨p.alternatives, some (Phrase.catWith p.factors g), some f⟩, halts, rfl, ?_⟩
    rw [run_append, hrun]
    refine (run_outside (r := { r with phrase := p }) hr ?_).trans
      (ih' { r with phrase := ⟨p.alternatives, some (Phrase.catWith p.factors g), none⟩ } _ hr)
    rw [outside, hg]
  | @ofTerm ts e h ih =>
    intro r i hr hphrase
    obtain ⟨p, halts, hproduct, hrun⟩ := ih r i hr (by rw [hphrase]; rfl) (by rw [hphrase]; rfl)
    refine ⟨p, ?_, hrun⟩
    rw [Phrase.complete_eq, hproduct, halts, hphrase]
    rfl
  | @alt ts us e f h h' ih ih' =>
    intro r i hr hphrase
    obtain ⟨p, hcomplete, hrun⟩ := ih r i hr hphrase
    obtain ⟨q, halts, hproduct, hrun'⟩ := ih' { r with phrase := ⟨some e, none, none⟩ }
      (i + ts.length + 1) hr rfl rfl
    refine ⟨q, ?_, ?_⟩
    · rw [Phrase.complete_eq, hproduct, halts]
      rfl
    · rw [run_append, hrun]
      refine (run_outside (r := { r with phrase := p }) hr ?_).trans hrun'
      rw [outside, hcomplete]

/-! ### What has been read is of the grammar -/

/-- The tokens of the alternatives before the last bar, this bar included; there are none if no bar
has been read. -/
def ReadsAlternatives (alphabet : Alphabet) : Option (Expr Leaf) → List Token → Prop
  | none, ts => ts = []
  | some e, ts => ∃ us, Reads alphabet .alternation us e ∧ ts = us ++ [.op .alt]

/-- The tokens of the complete factors after the last bar, and of the concatenation after them if it
is written. -/
def ReadsFactors (alphabet : Alphabet) : Option (Expr Leaf) → List Token → Prop
  | none, ts => ts = []
  | some e, ts => ∃ us, Reads alphabet .term us e ∧ (ts = us ∨ ts = us ++ [.op .cat])

/-- The tokens of the last operand. -/
def ReadsOperand (alphabet : Alphabet) : Option (Expr Leaf) → List Token → Prop
  | none, ts => ts = []
  | some e, ts => Reads alphabet .factor ts e

namespace Phrase

variable {p : Phrase}

/-- The tokens since the opening of the group have been read as the phrase. -/
def Spans (alphabet : Alphabet) (p : Phrase) (ts : List Token) : Prop :=
  ∃ us vs ws, ReadsAlternatives alphabet p.alternatives us ∧ ReadsFactors alphabet p.factors vs ∧
    ReadsOperand alphabet p.operand ws ∧ ts = us ++ vs ++ ws

theorem spans_empty : Phrase.empty.Spans alphabet [] := ⟨[], [], [], rfl, rfl, rfl, rfl⟩

private theorem reads_catWith {factors : Option (Expr Leaf)} {f : Expr Leaf}
    (h : ReadsFactors alphabet factors ts) (hf : Reads alphabet .factor us f) :
    Reads alphabet .term (ts ++ us) (catWith factors f) := by
  cases factors with
  | none =>
    obtain rfl : ts = [] := h
    exact .ofFactor hf
  | some e =>
    obtain ⟨vs, he, rfl | rfl⟩ := h
    · exact .cat he hf
    · rw [List.append_assoc]
      exact .catOperator he hf

private theorem reads_altWith {alternatives : Option (Expr Leaf)} {f : Expr Leaf}
    (h : ReadsAlternatives alphabet alternatives ts) (hf : Reads alphabet .term us f) :
    Reads alphabet .alternation (ts ++ us) (altWith alternatives f) := by
  cases alternatives with
  | none =>
    obtain rfl : ts = [] := h
    exact .ofTerm hf
  | some e =>
    obtain ⟨vs, he, rfl⟩ := h
    rw [List.append_assoc]
    exact .alt he hf

theorem Spans.complete (h : p.Spans alphabet ts) (he : p.complete = some e) :
    Reads alphabet .alternation ts e := by
  obtain ⟨us, vs, ws, hus, hvs, hws, rfl⟩ := h
  obtain ⟨f, hf, rfl⟩ := Option.map_eq_some_iff.mp he
  rw [hf] at hws
  rw [List.append_assoc]
  exact reads_altWith hus (reads_catWith hvs hws)

theorem Spans.add (h : p.Spans alphabet ts) (he : Reads alphabet .operand us e) :
    (p.add e).Spans alphabet (ts ++ us) := by
  obtain ⟨vs, ws, xs, hvs, hws, hxs, rfl⟩ := h
  unfold Phrase.add
  cases hoperand : p.operand with
  | none =>
    rw [hoperand] at hxs
    obtain rfl : xs = [] := hxs
    exact ⟨vs, ws, us, hvs, hws, .ofOperand he, by rw [List.append_nil]⟩
  | some f =>
    rw [hoperand] at hxs
    exact ⟨vs, ws ++ xs, us, hvs, ⟨_, reads_catWith hws hxs, Or.inl rfl⟩, .ofOperand he,
      by simp only [List.append_assoc]⟩

end Phrase

namespace Reader

variable {r r' : Reader} {t : Token}

/-- The tokens before the innermost open group. -/
def EnclosingSpans (alphabet : Alphabet) : List (Nat × Phrase) → List Token → Prop
  | [], ts => ts = []
  | (_, p) :: outer, ts =>
    ∃ us vs, EnclosingSpans alphabet outer us ∧ p.Spans alphabet vs ∧
      ts = us ++ vs ++ [.op .lparen]

/-- The tokens of a bracket that is open, the bracket itself at `position`. -/
def BracketSpans (position : Nat) : Option CharClass → List Token → Prop
  | none, ts => ts = []
  | some cls, ts => cls.position = position ∧
      ts = .op .lbracket :: (if cls.negated then [.op .negate] else []) ++ cls.members.map .lit

/-- The tokens have been read by the reader: they are those before the innermost open group, those
of its phrase, and those of the bracket that is open, if there is one. -/
def Spans (alphabet : Alphabet) (r : Reader) (ts : List Token) : Prop :=
  ∃ us vs, EnclosingSpans alphabet r.enclosing us ∧ r.phrase.Spans alphabet vs ∧
    ∃ ws, BracketSpans (us ++ vs).length r.bracket ws ∧ ts = us ++ vs ++ ws

theorem spans_start : start.Spans alphabet [] :=
  ⟨[], [], rfl, Phrase.spans_empty, [], rfl, rfl⟩

private theorem spans_of_bracket_eq_none (hr : r.bracket = none) :
    r.Spans alphabet ts ↔ ∃ us vs, EnclosingSpans alphabet r.enclosing us ∧
      r.phrase.Spans alphabet vs ∧ ts = us ++ vs := by
  constructor
  · rintro ⟨us, vs, hus, hvs, ws, hws, rfl⟩
    rw [hr] at hws
    obtain rfl : ws = [] := hws
    exact ⟨us, vs, hus, hvs, List.append_nil _⟩
  · rintro ⟨us, vs, hus, hvs, rfl⟩
    exact ⟨us, vs, hus, hvs, [], by rw [hr]; rfl, (List.append_nil _).symm⟩

private theorem Spans.add (h : r.Spans alphabet ts) (hr : r.bracket = none)
    (he : Reads alphabet .operand us e) : (r.add e).Spans alphabet (ts ++ us) := by
  obtain ⟨vs, ws, hvs, hws, rfl⟩ := (spans_of_bracket_eq_none hr).mp h
  exact (spans_of_bracket_eq_none (r := r.add e) hr).mpr
    ⟨vs, ws ++ us, hvs, hws.add he, List.append_assoc ..⟩

private theorem Spans.phrase {p : Phrase} (h : r.Spans alphabet ts) (hr : r.bracket = none)
    (hp : ∀ vs, r.phrase.Spans alphabet vs → p.Spans alphabet (vs ++ [t])) :
    ({ r with phrase := p }).Spans alphabet (ts ++ [t]) := by
  obtain ⟨us, vs, hus, hvs, rfl⟩ := (spans_of_bracket_eq_none hr).mp h
  exact (spans_of_bracket_eq_none (r := { r with phrase := p }) hr).mpr
    ⟨us, vs ++ [t], hus, hp vs hvs, List.append_assoc ..⟩

private theorem Spans.quantify {q : Operator} {f : Expr Leaf → Expr Leaf} {i : Nat}
    (h : r.Spans alphabet ts) (hr : r.bracket = none) (hq : r.quantify i q f = .ok r')
    (hf : ∀ {ts e}, Reads alphabet .factor ts e → Reads alphabet .factor (ts ++ [.op q]) (f e)) :
    r'.Spans alphabet (ts ++ [.op q]) := by
  rw [Reader.quantify] at hq
  cases hoperand : r.phrase.operand with
  | none => simp [hoperand] at hq
  | some e =>
    rw [hoperand] at hq
    obtain rfl := Except.ok.inj hq
    refine h.phrase (t := .op q) hr fun vs hvs => ?_
    obtain ⟨us, vs, ws, hus, hvs, hws, rfl⟩ := hvs
    rw [hoperand] at hws
    refine ⟨us, vs, ws ++ [.op q], hus, hvs, ?_, List.append_assoc ..⟩
    exact hf hws

private theorem Spans.closeGroup {i : Nat} (h : r.Spans alphabet ts) (hr : r.bracket = none)
    (hclose : r.closeGroup i = .ok r') : r'.Spans alphabet (ts ++ [.op .rparen]) := by
  obtain ⟨us, vs, hus, hvs, rfl⟩ := (spans_of_bracket_eq_none hr).mp h
  rw [Reader.closeGroup] at hclose
  cases hcomplete : r.phrase.complete with
  | none => simp [hcomplete] at hclose
  | some e =>
    cases henclosing : r.enclosing with
    | nil => simp [hcomplete, henclosing] at hclose
    | cons group outer =>
      obtain ⟨position, p⟩ := group
      rw [hcomplete, henclosing] at hclose
      obtain rfl := Except.ok.inj hclose
      rw [henclosing] at hus
      obtain ⟨xs, ys, hxs, hys, rfl⟩ := hus
      have hgroup := Reads.group (hvs.complete hcomplete)
      refine (spans_of_bracket_eq_none (by exact hr)).mpr ⟨xs, _, hxs, hys.add hgroup, ?_⟩
      simp only [List.append_assoc, List.cons_append, List.nil_append]

private theorem Spans.outside (h : r.Spans alphabet ts) (hr : r.bracket = none)
    (hstep : r.outside ts.length t = .ok r') : r'.Spans alphabet (ts ++ [t]) := by
  cases t with
  | epsilon =>
    obtain rfl := Except.ok.inj hstep
    exact h.add hr .epsilon
  | lit c =>
    obtain rfl := Except.ok.inj hstep
    exact h.add hr (.lit c)
  | action tag =>
    obtain rfl := Except.ok.inj hstep
    exact h.add hr (.action tag)
  | op o =>
    cases o with
    | alt =>
      rw [Reader.outside] at hstep
      cases hcomplete : r.phrase.complete with
      | none => simp [hcomplete] at hstep
      | some e =>
        rw [hcomplete] at hstep
        obtain rfl := Except.ok.inj hstep
        exact h.phrase hr fun vs hvs =>
          ⟨vs ++ [.op .alt], [], [], ⟨vs, hvs.complete hcomplete, rfl⟩, rfl, rfl,
            by simp only [List.append_nil]⟩
    | cat =>
      rw [Reader.outside] at hstep
      cases hoperand : r.phrase.operand with
      | none => simp [hoperand] at hstep
      | some f =>
        rw [hoperand] at hstep
        obtain rfl := Except.ok.inj hstep
        refine h.phrase hr fun vs hvs => ?_
        obtain ⟨us, vs, ws, hus, hvs, hws, rfl⟩ := hvs
        rw [hoperand] at hws
        exact ⟨us, vs ++ ws ++ [.op .cat], [], hus,
          ⟨vs ++ ws, Phrase.reads_catWith hvs hws, Or.inr rfl⟩, rfl,
          by simp only [List.append_assoc, List.append_nil]⟩
    | star => exact h.quantify hr hstep .star
    | plus => exact h.quantify hr hstep .plus
    | opt => exact h.quantify hr hstep .opt
    | lparen =>
      obtain rfl := Except.ok.inj hstep
      obtain ⟨us, vs, hus, hvs, rfl⟩ := (spans_of_bracket_eq_none hr).mp h
      exact (spans_of_bracket_eq_none (by exact hr)).mpr
        ⟨_, [], ⟨us, vs, hus, hvs, rfl⟩, Phrase.spans_empty, (List.append_nil _).symm⟩
    | rparen => exact h.closeGroup hr hstep
    | lbracket =>
      obtain rfl := Except.ok.inj hstep
      obtain ⟨us, vs, hus, hvs, rfl⟩ := (spans_of_bracket_eq_none hr).mp h
      exact ⟨us, vs, hus, hvs, [.op .lbracket], ⟨rfl, rfl⟩, rfl⟩
    | rbracket => cases hstep
    | negate => cases hstep

private theorem Spans.inside {cls : CharClass} (h : r.Spans alphabet ts)
    (hr : r.bracket = some cls) (hstep : r.inside alphabet cls ts.length t = .ok r') :
    r'.Spans alphabet (ts ++ [t]) := by
  obtain ⟨us, vs, hus, hvs, ws, hws, rfl⟩ := h
  rw [hr] at hws
  obtain ⟨hposition, rfl⟩ := hws
  cases t with
  | lit c =>
    obtain rfl := Except.ok.inj hstep
    refine ⟨us, vs, hus, hvs, _, ⟨hposition, rfl⟩, ?_⟩
    simp only [List.map_append, List.append_assoc]
    rfl
  | epsilon => cases hstep
  | action tag => cases hstep
  | op o =>
    cases o with
    | negate =>
      rw [Reader.inside] at hstep
      generalize hts : us ++ vs ++ _ = ts at hstep ⊢
      by_cases hhead : cls.negated = false ∧ ts.length = cls.position + 1
      · rw [if_pos hhead] at hstep
        obtain rfl := Except.ok.inj hstep
        obtain ⟨hnegated, hlength⟩ := hhead
        -- the negation comes right after the opening bracket, so there are no members yet
        have hmembers : cls.members = [] := by
          rw [← hts, List.length_append, hposition, hnegated] at hlength
          simpa using hlength
        refine ⟨us, vs, hus, hvs, _, ⟨hposition, rfl⟩, ?_⟩
        rw [← hts, hnegated, hmembers, List.append_assoc]
        rfl
      · rw [if_neg hhead] at hstep
        cases hstep
    | rbracket =>
      obtain ⟨chars, hchars, hclose⟩ := bind_eq_ok_iff.mp hstep
      cases chars with
      | nil => cases hclose
      | cons c cs =>
        obtain rfl := Except.ok.inj hclose
        have hread : Reads alphabet .operand (bracketTokens cls.negated cls.members)
            (.oneOf (.lit c) (cs.map .lit)) := .bracket hchars
        exact (spans_of_bracket_eq_none rfl).mpr
          ⟨us, _, hus, hvs.add hread, by simp only [bracketTokens, List.append_assoc]⟩
    | _ => cases hstep

/-- What one token adds to what has been read. This is the invariant of the reader, one case for
each kind of token. -/
theorem Spans.step (h : r.Spans alphabet ts) (hstep : r.step alphabet ts.length t = .ok r') :
    r'.Spans alphabet (ts ++ [t]) := by
  rw [Reader.step] at hstep
  cases hr : r.bracket with
  | none =>
    rw [hr] at hstep
    exact h.outside hr hstep
  | some cls =>
    rw [hr] at hstep
    exact h.inside hr hstep

/-- Induction over a stream. What a token keeps true of the reader and of the tokens that it has
taken in, a stream keeps true. -/
theorem run_induction {p : Reader → List Token → Prop}
    (hp : ∀ {r ts t r'}, p r ts → r.step alphabet ts.length t = .ok r' → p r' (ts ++ [t]))
    (h : p r ts) (hrun : r.run alphabet ts.length us = .ok r') : p r' (ts ++ us) := by
  induction us generalizing r ts with
  | nil =>
    obtain rfl := Except.ok.inj hrun
    rwa [List.append_nil]
  | cons t us ih =>
    obtain ⟨r₁, hstep, hrun⟩ := bind_eq_ok_iff.mp hrun
    rw [← List.singleton_append, ← List.append_assoc]
    exact ih (hp h hstep) (by rwa [List.length_append])

/-- What a stream of tokens adds to what has been read. -/
theorem Spans.run (h : r.Spans alphabet ts) (hrun : r.run alphabet ts.length us = .ok r') :
    r'.Spans alphabet (ts ++ us) :=
  run_induction (p := fun r ts => r.Spans alphabet ts) Spans.step h hrun

/-- At the end of the stream, what has been read is an alternation. -/
theorem Spans.finish {length : Nat} (h : r.Spans alphabet ts) (hfinish : r.finish length = .ok e) :
    Reads alphabet .alternation ts e := by
  rw [Reader.finish] at hfinish
  cases hr : r.bracket with
  | some cls => simp [hr] at hfinish
  | none =>
    obtain ⟨us, vs, hus, hvs, rfl⟩ := (spans_of_bracket_eq_none hr).mp h
    cases hcomplete : r.phrase.complete with
    | none => simp [hr, hcomplete] at hfinish
    | some f =>
      cases henclosing : r.enclosing with
      | cons group outer => simp [hr, hcomplete, henclosing] at hfinish
      | nil =>
        rw [hr, hcomplete, henclosing] at hfinish
        obtain rfl := Except.ok.inj hfinish
        rw [henclosing] at hus
        obtain rfl : us = [] := hus
        exact hvs.complete hcomplete

end Reader

/-! ### The reader and the grammar -/

theorem Reads.ne_nil (h : Reads alphabet level ts e) : ts ≠ [] := by
  induction h with
  | cat _ _ ih _ => exact List.append_ne_nil_of_left_ne_nil ih _
  | ofOperand _ ih | ofFactor _ ih | ofTerm _ ih => exact ih
  | _ => simp [bracketTokens]

/-- The reader and the grammar agree. The reader accepts the empty stream and the alternations of
the grammar, and reads them as the grammar does. -/
theorem Expr.ofTokens_eq_ok_iff :
    Expr.ofTokens alphabet ts = .ok e ↔
      (ts = [] ∧ e = .epsilon) ∨ Reads alphabet .alternation ts e := by
  by_cases hts : ts = []
  · subst hts
    rw [ofTokens, List.isEmpty_nil, if_pos rfl, Except.ok.injEq, eq_comm]
    exact ⟨fun h => Or.inl ⟨rfl, h⟩, fun h => h.elim And.right fun h => absurd rfl h.ne_nil⟩
  · rw [ofTokens, if_neg (by simpa using hts), bind_eq_ok_iff]
    simp only [hts, false_and, false_or]
    constructor
    · rintro ⟨r, hrun, hfinish⟩
      exact (Reader.spans_start.run hrun).finish hfinish
    · intro h
      obtain ⟨p, hp, hrun⟩ := h.readAs Reader.start 0 rfl rfl
      refine ⟨_, hrun, ?_⟩
      rw [Reader.finish]
      simp only [hp, Reader.start]

/-- The grammar gives a stream at most one expression, since the reader reads it as each of them. -/
theorem Reads.unique {f : Expr Leaf} (h : Reads alphabet .alternation ts e)
    (h' : Reads alphabet .alternation ts f) : e = f := by
  have he := Expr.ofTokens_eq_ok_iff.mpr (Or.inr h)
  have hf := Expr.ofTokens_eq_ok_iff.mpr (Or.inr h')
  rw [he] at hf
  exact Except.ok.inj hf

theorem Expr.isPlain_oneOf (c : Char) (cs : List Char) :
    (Expr.oneOf (.lit c) (cs.map .lit)).IsPlain := by
  have hfoldl (e : Expr Leaf) (he : e.IsPlain) :
      ((cs.map Leaf.lit).foldl (fun e b => Expr.alt e (.leaf b)) e).IsPlain := by
    induction cs generalizing e with
    | nil => exact he
    | cons d cs ih =>
      exact ih _ (List.forall_mem_append.mpr ⟨he, List.forall_mem_singleton.mpr ⟨d, rfl⟩⟩)
  exact hfoldl _ (List.forall_mem_singleton.mpr ⟨c, rfl⟩)

/-- An expression has no action tags if its tokens have none. -/
theorem Reads.isPlain (h : Reads alphabet level ts e) (hts : ∀ tag, .action tag ∉ ts) :
    e.IsPlain := by
  induction h with
  | epsilon => exact List.forall_mem_nil _
  | lit c => exact List.forall_mem_singleton.mpr ⟨c, rfl⟩
  | action tag => exact absurd (List.mem_singleton_self _) (hts tag)
  | bracket => exact Expr.isPlain_oneOf _ _
  | group h ih => exact ih fun tag htag => hts tag (by simp [htag])
  | ofOperand h ih | ofFactor h ih | ofTerm h ih => exact ih hts
  | star h ih => exact ih fun tag htag => hts tag (by simp [htag])
  | opt h ih =>
    refine List.forall_mem_append.mpr ⟨ih fun tag htag => hts tag (by simp [htag]), ?_⟩
    exact List.forall_mem_nil _
  | plus h ih =>
    have hbody := ih fun tag htag => hts tag (by simp [htag])
    exact List.forall_mem_append.mpr ⟨hbody, hbody⟩
  | cat h h' ih ih' | catOperator h h' ih ih' | alt h h' ih ih' =>
    exact List.forall_mem_append.mpr ⟨ih fun tag htag => hts tag (by simp [htag]),
      ih' fun tag htag => hts tag (by simp [htag])⟩

end Recognizer.Regex

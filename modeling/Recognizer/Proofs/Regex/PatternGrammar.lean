import Mathlib.Tactic.Tauto
import Recognizer.Proofs.Regex.InfixGrammar

/-!
# The language of a pattern

What a pattern means is told by recursion on its text: the bar joins alternatives and binds weakest,
then comes juxtaposition, then the quantifiers behind their operand; parentheses group; a bracket
stands for one of its members, and a negated bracket for a character of the alphabet that is none of
its members. This is said of texts, without tokens or expressions. A pattern is read as an
expression just if it has a language in this sense, and then this is the language of the expression.

## Main definitions

* `Members`, `SpellsMembers`: the characters that a bracket stands for, and how they are written.
* `Denotes`: the language of a text, at each level of precedence.
* `PatternDenotes`: the language of a whole pattern, which may be empty.
* `Tokenized`: how a text is cut into tokens.
* `Cuts`, `CutFrom`: the tokens of a part of a text, and the part of a text that tokens come from.

## Main results

* `patternDenotes_iff_of_ofPattern`: the language of a pattern is that of its expression.
* `PatternDenotes.exists_ofPattern`: a pattern with a language is read.
-/

namespace Recognizer.Regex

open scoped Computability

/-! ### Brackets -/

/-- The members of a bracket stand for the characters in the set: from the left, two characters of
the same kind with a `-` between them stand for all characters from one to the other, and any other
member for itself. -/
inductive Members : List Char → Set Char → Prop
  | nil : Members [] ∅
  | range {a b : Char} {rest : List Char} {S : Set Char} (hkind : SameKind a b) (hle : a ≤ b)
      (h : Members rest S) : Members (a :: '-' :: b :: rest) ({c | a ≤ c ∧ c ≤ b} ∪ S)
  | single {a : Char} {rest : List Char} {S : Set Char}
      (hsingle : ∀ b rest', rest = '-' :: b :: rest' → ¬ SameKind a b) (h : Members rest S) :
      Members (a :: rest) (insert a S)

/-- The text between brackets spells the members. A closing bracket and a backslash are members only
behind a backslash. -/
inductive SpellsMembers : List Char → List Char → Prop
  | nil : SpellsMembers [] []
  | plain {c : Char} {text members : List Char} (hc : c ≠ ']') (hc' : c ≠ '\\')
      (h : SpellsMembers text members) : SpellsMembers (c :: text) (c :: members)
  | escaped (c : Char) {text members : List Char} (h : SpellsMembers text members) :
      SpellsMembers ('\\' :: c :: text) (unescape c :: members)

/-- The members of a bracket stand for the characters that they are written out to, without regard
to their order. -/
theorem members_iff {members : List Char} {S : Set Char} :
    Members members S ↔ ∃ chars, WritesOut members chars ∧ S = {c | c ∈ chars} := by
  constructor
  · intro h
    induction h with
    | nil => exact ⟨[], .nil, by simp⟩
    | @range a b rest S hkind hle h ih =>
      obtain ⟨chars, hchars, rfl⟩ := ih
      refine ⟨charsBetween a b ++ chars, .range hkind hle (pairwise_charsBetween hkind)
        (fun c => mem_charsBetween_iff hkind) hchars, ?_⟩
      ext c
      simp only [Set.mem_union, Set.mem_ofPred_eq, List.mem_append, mem_charsBetween_iff hkind]
    | @single a rest S hsingle h ih =>
      obtain ⟨chars, hchars, rfl⟩ := ih
      exact ⟨a :: chars, .single hsingle hchars, by ext c; simp⟩
  · rintro ⟨chars, h, rfl⟩
    induction h with
    | nil => simpa using Members.nil
    | range hkind hle _ hbetween _ ih =>
      convert Members.range hkind hle ih using 1
      ext c
      simp only [Set.mem_union, Set.mem_ofPred_eq, List.mem_append, hbetween]
    | single hsingle _ ih =>
      convert Members.single hsingle ih using 1
      ext c
      simp

/-! ### Patterns -/

/-- The characters that stand for themselves only behind a backslash. -/
def reserved : List Char := ['|', '*', '+', '?', '(', ')', '[', ']', '\\']

/-- The text denotes the language, at a level of precedence. An operand denotes the same at the
levels that bind less strongly, and a concatenation is written by putting texts side by side. -/
inductive Denotes (alphabet : Alphabet) : Level → List Char → Language Char → Prop
  | char {c : Char} (hc : c ∉ reserved) : Denotes alphabet .operand [c] {[c]}
  | escaped (c : Char) : Denotes alphabet .operand ['\\', c] {[unescape c]}
  | group {text : List Char} {L : Language Char} (h : Denotes alphabet .alternation text L) :
      Denotes alphabet .operand ('(' :: text ++ [')']) L
  | bracket {text members : List Char} {S : Set Char} (hhead : text.head? ≠ some '^')
      (htext : SpellsMembers text members) (hmembers : Members members S) (hne : ∃ c, c ∈ S) :
      Denotes alphabet .operand ('[' :: text ++ [']']) {w | ∃ c ∈ S, w = [c]}
  | negatedBracket {text members : List Char} {S : Set Char}
      (htext : SpellsMembers text members) (hmembers : Members members S)
      (hne : ∃ c, c ∈ alphabet ∧ c ∉ S) :
      Denotes alphabet .operand ('[' :: '^' :: text ++ [']'])
        {w | ∃ c, (c ∈ alphabet ∧ c ∉ S) ∧ w = [c]}
  | ofOperand {text : List Char} {L : Language Char} (h : Denotes alphabet .operand text L) :
      Denotes alphabet .factor text L
  | star {text : List Char} {L : Language Char} (h : Denotes alphabet .factor text L) :
      Denotes alphabet .factor (text ++ ['*']) L∗
  | plus {text : List Char} {L : Language Char} (h : Denotes alphabet .factor text L) :
      Denotes alphabet .factor (text ++ ['+']) (L * L∗)
  | opt {text : List Char} {L : Language Char} (h : Denotes alphabet .factor text L) :
      Denotes alphabet .factor (text ++ ['?']) (L + 1)
  | ofFactor {text : List Char} {L : Language Char} (h : Denotes alphabet .factor text L) :
      Denotes alphabet .term text L
  | juxtapose {text text' : List Char} {L L' : Language Char} (h : Denotes alphabet .term text L)
      (h' : Denotes alphabet .factor text' L') : Denotes alphabet .term (text ++ text') (L * L')
  | ofTerm {text : List Char} {L : Language Char} (h : Denotes alphabet .term text L) :
      Denotes alphabet .alternation text L
  | alt {text text' : List Char} {L L' : Language Char}
      (h : Denotes alphabet .alternation text L) (h' : Denotes alphabet .term text' L') :
      Denotes alphabet .alternation (text ++ '|' :: text') (L + L')

/-- The pattern denotes the language; the empty pattern denotes that of the empty text. -/
def PatternDenotes (alphabet : Alphabet) (pattern : String) (L : Language Char) : Prop :=
  (pattern.toList = [] ∧ L = 1) ∨ Denotes alphabet .alternation pattern.toList L

variable {alphabet : Alphabet} {level : Level} {text : List Char} {ts us : List Token}
  {L : Language Char} {e : Expr Leaf} {inClass : Bool}

/-! ### Tokens -/

/-- The characters that are an operator each. -/
def operatorChars : List (Char × Operator) :=
  [('|', .alt), ('*', .star), ('+', .plus), ('?', .opt), ('(', .lparen), (')', .rparen),
    (']', .rbracket)]

/-- The text is cut into the tokens; `inClass` tells whether a bracket is open. There is a case for
each kind of character, and no order in which they are tried. -/
inductive Tokenized : Bool → List Char → List Token → Prop
  | nil (inClass : Bool) : Tokenized inClass [] []
  | escaped {inClass : Bool} (c : Char) {text : List Char} {ts : List Token}
      (h : Tokenized inClass text ts) :
      Tokenized inClass ('\\' :: c :: text) (.lit (unescape c) :: ts)
  | char {c : Char} {text : List Char} {ts : List Token} (hc : c ∉ reserved)
      (h : Tokenized false text ts) : Tokenized false (c :: text) (.lit c :: ts)
  | operator {c : Char} {o : Operator} {text : List Char} {ts : List Token}
      (ho : (c, o) ∈ operatorChars) (h : Tokenized false text ts) :
      Tokenized false (c :: text) (.op o :: ts)
  | openBracket {text : List Char} {ts : List Token} (hhead : text.head? ≠ some '^')
      (h : Tokenized true text ts) : Tokenized false ('[' :: text) (.op .lbracket :: ts)
  | openNegated {text : List Char} {ts : List Token} (h : Tokenized true text ts) :
      Tokenized false ('[' :: '^' :: text) (.op .lbracket :: .op .negate :: ts)
  | member {c : Char} {text : List Char} {ts : List Token} (hc : c ≠ ']') (hc' : c ≠ '\\')
      (h : Tokenized true text ts) : Tokenized true (c :: text) (.lit c :: ts)
  | closeBracket {text : List Char} {ts : List Token} (h : Tokenized false text ts) :
      Tokenized true (']' :: text) (.op .rbracket :: ts)

private theorem tokenOf_of_not_mem {c : Char} (hc : c ∉ reserved) : tokenOf c = .lit c := by
  unfold tokenOf
  split
  all_goals first
    | rfl
    | exact absurd (by decide) hc

private theorem exists_operator {c : Char} (h : c ∈ reserved) (hc : c ≠ '[') (hc' : c ≠ '\\') :
    ∃ o, (c, o) ∈ operatorChars := by
  have hall : ∀ c ∈ reserved, c = '[' ∨ c = '\\' ∨ c ∈ operatorChars.map Prod.fst := by
    simp [reserved, operatorChars]
  rcases hall c h with h | h | h
  · exact absurd h hc
  · exact absurd h hc'
  · obtain ⟨⟨_, o⟩, ho, rfl⟩ := List.mem_map.mp h
    exact ⟨o, ho⟩

private theorem tokenOf_of_mem {c : Char} {o : Operator} (h : (c, o) ∈ operatorChars) :
    tokenOf c = .op o ∧ c ≠ '[' ∧ c ≠ '\\' := by
  have hall : ∀ x ∈ operatorChars, tokenOf x.1 = .op x.2 ∧ x.1 ≠ '[' ∧ x.1 ≠ '\\' := by decide
  exact hall _ h

private theorem tokensFrom_cons (inClass : Bool) {c : Char} (hc : c ≠ '[') (hc' : c ≠ '\\')
    (i : Nat) :
    tokensFrom inClass i (c :: text) =
      if inClass then (classTokenOf c :: ·) <$> tokensFrom (c ≠ ']') (i + 1) text
      else (tokenOf c :: ·) <$> tokensFrom (c = '[') (i + 1) text := by
  rw [tokensFrom.eq_def]
  split
  · next heq => cases heq
  · next heq => exact absurd (List.cons.inj heq).1 hc'
  · next heq => exact absurd (List.cons.inj heq).1 hc'
  · next heq => exact absurd (List.cons.inj heq).1 hc
  · next heq =>
    obtain ⟨rfl, rfl⟩ := List.cons.inj heq
    rfl

private theorem tokensFrom_false_cons {c : Char} (hc : c ≠ '[') (hc' : c ≠ '\\') (i : Nat) :
    tokensFrom false i (c :: text) = (tokenOf c :: ·) <$> tokensFrom false (i + 1) text := by
  rw [tokensFrom_cons false hc hc', if_neg Bool.false_ne_true, decide_eq_false hc]

private theorem tokensFrom_openBracket (hhead : text.head? ≠ some '^') (i : Nat) :
    tokensFrom false i ('[' :: text) = (.op .lbracket :: ·) <$> tokensFrom true (i + 1) text := by
  rw [tokensFrom.eq_def]
  split
  · next heq => cases heq
  · next heq => cases heq
  · next heq => cases heq
  · next heq =>
    obtain ⟨-, rfl⟩ := List.cons.inj heq
    exact absurd rfl hhead
  · next heq =>
    obtain ⟨rfl, rfl⟩ := List.cons.inj heq
    rfl

private theorem classTokenOf_of_ne {c : Char} (hc : c ≠ ']') : classTokenOf c = .lit c := by
  unfold classTokenOf
  split
  · exact absurd rfl hc
  · rfl

private theorem tokensFrom_member {c : Char} (hc : c ≠ ']') (hc' : c ≠ '\\') (i : Nat) :
    tokensFrom true i (c :: text) = (.lit c :: ·) <$> tokensFrom true (i + 1) text := by
  have hplain {d : Char} {text : List Char} (hd : d ≠ '[') (hd' : d ≠ '\\') (hd'' : d ≠ ']') (i) :
      tokensFrom true i (d :: text) = (.lit d :: ·) <$> tokensFrom true (i + 1) text := by
    rw [tokensFrom_cons true hd hd', if_pos rfl, classTokenOf_of_ne hd'', decide_eq_true hd'']
  by_cases hopen : c = '['
  · subst hopen
    rw [tokensFrom.eq_def]
    split
    · next heq => cases heq
    · next heq => cases heq
    · next heq => cases heq
    · next heq =>
      obtain ⟨-, rfl⟩ := List.cons.inj heq
      rw [hplain (by decide) (by decide) (by decide), if_pos rfl, Functor.map_map]
    · next heq =>
      obtain ⟨rfl, rfl⟩ := List.cons.inj heq
      rfl
  · exact hplain hopen hc' hc i

private theorem ne_backslash {c : Char} (hend : c = '\\' → text = [] → False)
    (hescape : ∀ d rest, c = '\\' → text = d :: rest → False) : c ≠ '\\' := by
  intro hc
  cases text with
  | nil => exact hend hc rfl
  | cons d rest => exact hescape d rest hc rfl

private theorem tokenized_of_tokensFrom {i : Nat} (h : tokensFrom inClass i text = .ok ts) :
    Tokenized inClass text ts := by
  fun_induction tokensFrom inClass i text generalizing ts with
  | case1 =>
    obtain rfl := Except.ok.inj h
    exact .nil _
  | case2 => cases h
  | case3 inClass i c rest ih =>
    obtain ⟨us, hus, rfl⟩ := map_eq_ok_iff.mp h
    exact .escaped c (ih hus)
  | case4 i rest ih =>
    obtain ⟨us, hus, rfl⟩ := map_eq_ok_iff.mp h
    exact .member (by decide) (by decide) (.member (by decide) (by decide) (ih hus))
  | case5 inClass i rest hout ih =>
    obtain ⟨us, hus, rfl⟩ := map_eq_ok_iff.mp h
    rw [Bool.not_eq_true] at hout
    rw [hout]
    exact .openNegated (ih hus)
  | case6 i c rest hend hescape _ ih =>
    obtain ⟨us, hus, rfl⟩ := map_eq_ok_iff.mp h
    have hc : c ≠ '\\' := ne_backslash hend hescape
    by_cases hclose : c = ']'
    · subst hclose
      exact .closeBracket (by simpa using ih hus)
    · rw [classTokenOf_of_ne hclose]
      exact .member hclose hc (by simpa [hclose] using ih hus)
  | case7 inClass i c rest hend hescape hnegated hout ih =>
    obtain ⟨us, hus, rfl⟩ := map_eq_ok_iff.mp h
    have hc : c ≠ '\\' := ne_backslash hend hescape
    rw [Bool.not_eq_true] at hout
    subst hout
    by_cases hopen : c = '['
    · subst hopen
      refine .openBracket (fun hhead => ?_) (by simpa using ih hus)
      obtain ⟨rest', rfl⟩ := List.head?_eq_some_iff.mp hhead
      exact hnegated rest' rfl rfl
    · have hrest : Tokenized false rest us := by simpa [hopen] using ih hus
      by_cases hreserved : c ∈ reserved
      · obtain ⟨o, ho⟩ := exists_operator hreserved hopen hc
        rw [(tokenOf_of_mem ho).1]
        exact .operator ho hrest
      · rw [tokenOf_of_not_mem hreserved]
        exact .char hreserved hrest

private theorem Tokenized.tokensFrom_eq (h : Tokenized inClass text ts) (i : Nat) :
    tokensFrom inClass i text = .ok ts := by
  induction h generalizing i with
  | nil => rfl
  | escaped c h ih =>
    rw [tokensFrom, ih]
    rfl
  | @char c text ts hc h ih =>
    have hopen : c ≠ '[' := by
      rintro rfl
      exact hc (by decide)
    have hescape : c ≠ '\\' := by
      rintro rfl
      exact hc (by decide)
    rw [tokensFrom_false_cons hopen hescape, tokenOf_of_not_mem hc, ih]
    rfl
  | operator ho h ih =>
    obtain ⟨htoken, hopen, hescape⟩ := tokenOf_of_mem ho
    rw [tokensFrom_false_cons hopen hescape, htoken, ih]
    rfl
  | openBracket hhead h ih =>
    rw [tokensFrom_openBracket hhead, ih]
    rfl
  | openNegated h ih =>
    rw [tokensFrom, if_neg Bool.false_ne_true, ih]
    rfl
  | member hc hc' h ih =>
    rw [tokensFrom_member hc hc', ih]
    rfl
  | closeBracket h ih =>
    rw [tokensFrom_cons true (by decide) (by decide), if_pos rfl]
    simp only [ne_eq, not_true_eq_false, decide_false, ih]
    rfl

/-- A text has the tokens that it can be cut into, from whatever index its characters are
counted. -/
theorem tokensFrom_eq_ok_iff (i : Nat) :
    tokensFrom inClass i text = .ok ts ↔ Tokenized inClass text ts :=
  ⟨tokenized_of_tokensFrom, fun h => h.tokensFrom_eq i⟩

/-! ### Characters of a bracket -/

/-- The characters that a bracket with members `S` stands for. -/
def bracketSet (alphabet : Alphabet) (negated : Bool) (S : Set Char) : Set Char :=
  if negated then {c | c ∈ alphabet ∧ c ∉ S} else S

private theorem mem_bracketSet_iff {negated : Bool} {chars : List Char} {c : Char} :
    c ∈ bracketSet alphabet negated {c | c ∈ chars} ↔
      c ∈ if negated then (alphabet \ SortedSet.ofList chars).toList else distinct chars := by
  cases negated with
  | false => exact mem_distinct.symm
  | true =>
    change c ∈ alphabet ∧ c ∉ chars ↔ c ∈ alphabet \ SortedSet.ofList chars
    rw [SortedSet.mem_sdiff, SortedSet.mem_ofList]

private theorem Members.exists_characters {members : List Char} {S : Set Char}
    (h : Members members S) (alphabet : Alphabet) (negated : Bool) :
    ∃ cs, CharClass.characters alphabet ⟨0, negated, members⟩ = .ok cs ∧
      ∀ c, c ∈ cs ↔ c ∈ bracketSet alphabet negated S := by
  obtain ⟨chars, hchars, rfl⟩ := members_iff.mp h
  refine ⟨_, ?_, fun c => mem_bracketSet_iff.symm⟩
  exact bind_eq_ok_iff.mpr ⟨chars, (writesOut_iff 1).mp hchars, rfl⟩

private theorem exists_members {members cs : List Char} {position : Nat} {negated : Bool}
    (h : CharClass.characters alphabet ⟨position, negated, members⟩ = .ok cs) :
    ∃ S, Members members S ∧ ∀ c, c ∈ cs ↔ c ∈ bracketSet alphabet negated S := by
  obtain ⟨chars, hchars, hcs⟩ := bind_eq_ok_iff.mp h
  refine ⟨_, members_iff.mpr ⟨chars, (writesOut_iff (position + 1)).mpr hchars, rfl⟩, fun c => ?_⟩
  rw [← Except.ok.inj hcs]
  exact mem_bracketSet_iff.symm

private theorem language_oneOf {c : Char} {cs : List Char} {T : Set Char}
    (h : ∀ d, d ∈ c :: cs ↔ d ∈ T) :
    (Expr.oneOf (.lit c) (cs.map .lit)).language = {w | ∃ c ∈ T, w = [c]} := by
  ext w
  rw [Expr.mem_language_oneOf]
  simp only [h]
  rfl

/-! ### From texts to tokens -/

theorem SpellsMembers.tokenized {members rest : List Char} (h : SpellsMembers text members)
    (hrest : Tokenized true rest ts) : Tokenized true (text ++ rest) (members.map .lit ++ ts) := by
  induction h with
  | nil => exact hrest
  | plain hc hc' h ih => exact .member hc hc' ih
  | escaped c h ih => exact .escaped c ih

theorem head?_append_close {rest : List Char} :
    (text ++ ']' :: rest).head? = some '^' ↔ text.head? = some '^' := by
  cases text with
  | nil => simp
  | cons c text => rfl

private theorem Members.exists_reads {members : List Char} {S : Set Char}
    (hmembers : Members members S) (negated : Bool) (hne : ∃ c, c ∈ bracketSet alphabet negated S) :
    ∃ e, Reads alphabet .operand (bracketTokens negated members) e ∧
      e.language = {w | ∃ c ∈ bracketSet alphabet negated S, w = [c]} := by
  obtain ⟨cs, hcs, hmem⟩ := hmembers.exists_characters alphabet negated
  obtain ⟨d, hd⟩ := hne
  cases cs with
  | nil => exact absurd ((hmem d).mpr hd) List.not_mem_nil
  | cons c cs => exact ⟨_, .bracket hcs, language_oneOf hmem⟩

/-- The text is cut into the tokens wherever it stands outside brackets. So texts side by side are
cut into their tokens side by side. -/
def Cuts (text : List Char) (ts : List Token) : Prop :=
  ∀ rest us, Tokenized false rest us → Tokenized false (text ++ rest) (ts ++ us)

private theorem cuts_operator {c : Char} {o : Operator} (ho : (c, o) ∈ operatorChars) :
    Cuts [c] [.op o] := fun _ _ h => .operator ho h

private theorem Cuts.append {text' : List Char} (h : Cuts text ts) (h' : Cuts text' us) :
    Cuts (text ++ text') (ts ++ us) := by
  intro rest vs hrest
  rw [List.append_assoc, List.append_assoc]
  exact h _ _ (h' _ _ hrest)

/-- A text with a language is cut into tokens that are read as an expression of this language, at
the same level. -/
theorem Denotes.exists_reads (h : Denotes alphabet level text L) :
    ∃ ts e, Reads alphabet level ts e ∧ e.language = L ∧ Cuts text ts := by
  induction h with
  | @char c hc =>
    exact ⟨[.lit c], _, .lit c, Expr.language_leaf _, fun rest us h => .char hc h⟩
  | escaped c =>
    exact ⟨[.lit (unescape c)], _, .lit _, Expr.language_leaf _, fun rest us h => .escaped c h⟩
  | group h ih =>
    obtain ⟨ts, e, hread, hlanguage, hcuts⟩ := ih
    exact ⟨_, e, .group hread, hlanguage,
      ((cuts_operator (c := '(') (by decide)).append hcuts).append (cuts_operator (by decide))⟩
  | bracket hhead htext hmembers hne =>
    obtain ⟨e, hread, hlanguage⟩ := hmembers.exists_reads false hne
    refine ⟨_, e, hread, hlanguage, fun rest us h => ?_⟩
    rw [bracketTokens, if_neg Bool.false_ne_true, List.append_assoc, List.append_assoc]
    exact .openBracket (mt head?_append_close.mp hhead) (htext.tokenized (.closeBracket h))
  | negatedBracket htext hmembers hne =>
    obtain ⟨e, hread, hlanguage⟩ := hmembers.exists_reads true hne
    refine ⟨_, e, hread, hlanguage, fun rest us h => ?_⟩
    rw [bracketTokens, if_pos rfl, List.append_assoc, List.append_assoc]
    exact .openNegated (htext.tokenized (.closeBracket h))
  | ofOperand h ih =>
    obtain ⟨ts, e, hread, hrest⟩ := ih
    exact ⟨ts, e, .ofOperand hread, hrest⟩
  | ofFactor h ih =>
    obtain ⟨ts, e, hread, hrest⟩ := ih
    exact ⟨ts, e, .ofFactor hread, hrest⟩
  | ofTerm h ih =>
    obtain ⟨ts, e, hread, hrest⟩ := ih
    exact ⟨ts, e, .ofTerm hread, hrest⟩
  | star h ih =>
    obtain ⟨ts, e, hread, rfl, hcuts⟩ := ih
    exact ⟨_, _, .star hread, Expr.language_star e, hcuts.append (cuts_operator (by decide))⟩
  | plus h ih =>
    obtain ⟨ts, e, hread, rfl, hcuts⟩ := ih
    exact ⟨_, _, .plus hread, Expr.language_plus e, hcuts.append (cuts_operator (by decide))⟩
  | opt h ih =>
    obtain ⟨ts, e, hread, rfl, hcuts⟩ := ih
    exact ⟨_, _, .opt hread, Expr.language_opt e, hcuts.append (cuts_operator (by decide))⟩
  | juxtapose h h' ih ih' =>
    obtain ⟨ts, e, hread, rfl, hcuts⟩ := ih
    obtain ⟨ts', e', hread', rfl, hcuts'⟩ := ih'
    exact ⟨_, _, .cat hread hread', Expr.language_cat e e', hcuts.append hcuts'⟩
  | alt h h' ih ih' =>
    obtain ⟨ts, e, hread, rfl, hcuts⟩ := ih
    obtain ⟨ts', e', hread', rfl, hcuts'⟩ := ih'
    exact ⟨_, _, .alt hread hread', Expr.language_alt e e',
      hcuts.append ((cuts_operator (c := '|') (by decide)).append hcuts')⟩

/-! ### From tokens to texts -/

/-- Wherever the tokens come first outside brackets, the text begins with a part that has the
property, and the tokens are those of this part. -/
def CutFrom (ts : List Token) (p : List Char → Prop) : Prop :=
  ∀ text us, Tokenized false text (ts ++ us) →
    ∃ t rest, text = t ++ rest ∧ p t ∧ Tokenized false rest us

private theorem CutFrom.mono {p q : List Char → Prop} (h : CutFrom ts p) (hpq : ∀ t, p t → q t) :
    CutFrom ts q := by
  intro text us htext
  obtain ⟨t, rest, rfl, ht, hrest⟩ := h text us htext
  exact ⟨t, rest, rfl, hpq t ht, hrest⟩

private theorem CutFrom.append {p q : List Char → Prop} (h : CutFrom ts p) (h' : CutFrom us q) :
    CutFrom (ts ++ us) fun text => ∃ t t', text = t ++ t' ∧ p t ∧ q t' := by
  intro text vs htext
  rw [List.append_assoc] at htext
  obtain ⟨t, later, rfl, ht, hlater⟩ := h text _ htext
  obtain ⟨t', rest, rfl, ht', hrest⟩ := h' later vs hlater
  exact ⟨t ++ t', rest, (List.append_assoc ..).symm, ⟨t, t', rfl, ht, ht'⟩, hrest⟩

private theorem cutFrom_lit (c : Char) :
    CutFrom [.lit c] fun t => Denotes alphabet .operand t {[c]} := by
  intro text us h
  cases h with
  | escaped d h => exact ⟨_, _, rfl, .escaped d, h⟩
  | char hc h => exact ⟨_, _, rfl, .char hc, h⟩

private theorem ne_of_mem_operatorChars {c : Char} {o : Operator} (h : (c, o) ∈ operatorChars) :
    o ≠ .lbracket ∧ o ≠ .cat := by
  have hall : ∀ x ∈ operatorChars, x.2 ≠ .lbracket ∧ x.2 ≠ .cat := by decide
  exact hall _ h

private theorem cutFrom_operator {c : Char} {o : Operator} (ho : (c, o) ∈ operatorChars) :
    CutFrom [.op o] (· = [c]) := by
  have hall : ∀ x ∈ operatorChars, ∀ y ∈ operatorChars, x.2 = y.2 → x.1 = y.1 := by decide
  intro text us h
  cases h with
  | operator ho' h => exact ⟨_, _, rfl, congrArg ([·]) (hall _ ho' _ ho rfl), h⟩
  | openBracket => exact absurd rfl (ne_of_mem_operatorChars ho).1
  | openNegated => exact absurd rfl (ne_of_mem_operatorChars ho).1

private theorem Tokenized.of_members {members : List Char}
    (h : Tokenized true text (members.map .lit ++ .op .rbracket :: ts)) :
    ∃ t rest, text = t ++ ']' :: rest ∧ SpellsMembers t members ∧ Tokenized false rest ts := by
  induction members generalizing text with
  | nil =>
    cases h with
    | closeBracket h => exact ⟨[], _, rfl, .nil, h⟩
  | cons c members ih =>
    cases h with
    | escaped d h =>
      obtain ⟨t, rest, rfl, ht, hrest⟩ := ih h
      exact ⟨_, rest, rfl, .escaped d ht, hrest⟩
    | member hc hc' h =>
      obtain ⟨t, rest, rfl, ht, hrest⟩ := ih h
      exact ⟨_, rest, rfl, .plain hc hc' ht, hrest⟩

private theorem cutFrom_bracket {members cs : List Char} {position : Nat} {negated : Bool}
    {c : Char} (hcs : CharClass.characters alphabet ⟨position, negated, members⟩ = .ok (c :: cs)) :
    CutFrom (bracketTokens negated members) fun t =>
      Denotes alphabet .operand t (Expr.oneOf (.lit c) (cs.map .lit)).language := by
  obtain ⟨S, hmembers, hmem⟩ := exists_members hcs
  have hne : ∃ c, c ∈ bracketSet alphabet negated S := ⟨c, (hmem c).mp List.mem_cons_self⟩
  rw [language_oneOf hmem]
  intro text us h
  rw [bracketTokens, List.append_assoc, List.append_assoc] at h
  cases negated with
  | false =>
    rw [if_neg Bool.false_ne_true] at h
    generalize htokens : members.map Token.lit ++ ([.op .rbracket] ++ us) = vs at h
    cases h with
    | operator ho => exact absurd rfl (ne_of_mem_operatorChars ho).1
    | openBracket hhead h =>
      subst htokens
      obtain ⟨t, rest, rfl, ht, hrest⟩ := h.of_members
      refine ⟨'[' :: t ++ [']'], rest, by simp, ?_, hrest⟩
      exact .bracket (mt head?_append_close.mpr hhead) ht hmembers hne
    | openNegated h => cases members <;> simp at htokens
  | true =>
    cases h with
    | operator ho => exact absurd rfl (ne_of_mem_operatorChars ho).1
    | openBracket hhead h => cases h
    | openNegated h =>
      obtain ⟨t, rest, rfl, ht, hrest⟩ := h.of_members
      exact ⟨'[' :: '^' :: t ++ [']'], rest, by simp, .negatedBracket ht hmembers hne, hrest⟩

/-- Tokens that are read as an expression come from a text that denotes its language, if they come
from any text. -/
theorem Reads.cutFrom (h : Reads alphabet level ts e) :
    CutFrom ts fun t => Denotes alphabet level t e.language := by
  induction h with
  | epsilon => exact fun text us htext => nomatch htext
  | lit c =>
    rw [Expr.language_leaf]
    exact cutFrom_lit c
  | action tag => exact fun text us htext => nomatch htext
  | group h ih =>
    refine (((cutFrom_operator (c := '(') (by decide)).append ih).append
      (cutFrom_operator (c := ')') (by decide))).mono ?_
    rintro _ ⟨_, _, rfl, ⟨_, t, rfl, rfl, ht⟩, rfl⟩
    exact .group ht
  | bracket h => exact cutFrom_bracket h
  | ofOperand h ih => exact ih.mono fun _ => .ofOperand
  | ofFactor h ih => exact ih.mono fun _ => .ofFactor
  | ofTerm h ih => exact ih.mono fun _ => .ofTerm
  | star h ih =>
    refine (ih.append (cutFrom_operator (c := '*') (by decide))).mono ?_
    rintro _ ⟨t, _, rfl, ht, rfl⟩
    rw [Expr.language_star]
    exact .star ht
  | plus h ih =>
    refine (ih.append (cutFrom_operator (c := '+') (by decide))).mono ?_
    rintro _ ⟨t, _, rfl, ht, rfl⟩
    rw [Expr.language_plus]
    exact .plus ht
  | opt h ih =>
    refine (ih.append (cutFrom_operator (c := '?') (by decide))).mono ?_
    rintro _ ⟨t, _, rfl, ht, rfl⟩
    rw [Expr.language_opt]
    exact .opt ht
  | cat h h' ih ih' =>
    refine (ih.append ih').mono ?_
    rintro _ ⟨t, t', rfl, ht, ht'⟩
    rw [Expr.language_cat]
    exact .juxtapose ht ht'
  | catOperator h h' ih ih' =>
    intro text us htext
    rw [List.append_assoc] at htext
    obtain ⟨t, factor, rfl, ht, hfactor⟩ := ih text _ htext
    cases hfactor with
    | operator ho => exact absurd rfl (ne_of_mem_operatorChars ho).2
  | alt h h' ih ih' =>
    refine (ih.append ((cutFrom_operator (c := '|') (by decide)).append ih')).mono ?_
    rintro _ ⟨t, _, rfl, ht, _, t', rfl, rfl, ht'⟩
    rw [Expr.language_alt]
    exact .alt ht ht'

/-! ### Patterns and expressions -/

theorem Tokenized.action_not_mem (h : Tokenized inClass text ts) (tag : ActionTag) :
    .action tag ∉ ts := by
  induction h with
  | nil => exact List.not_mem_nil
  | _ => simpa

private theorem Denotes.exists_tokenized (h : Denotes alphabet level text L) :
    ∃ ts e, Reads alphabet level ts e ∧ e.language = L ∧ Tokenized false text ts := by
  obtain ⟨ts, e, hread, hlanguage, hcuts⟩ := h.exists_reads
  have htext := hcuts [] [] (.nil false)
  rw [List.append_nil, List.append_nil] at htext
  exact ⟨ts, e, hread, hlanguage, htext⟩

private theorem ofPattern_eq_ok_iff {pattern : String} :
    Expr.ofPattern alphabet pattern = .ok e ↔
      ∃ ts, Tokenized false pattern.toList ts ∧ Expr.ofTokens alphabet ts = .ok e := by
  rw [Expr.ofPattern, bind_eq_ok_iff]
  simp only [tokenize, tokensFrom_eq_ok_iff]

/-- A pattern that denotes a language is read, as an expression of this language. -/
theorem PatternDenotes.exists_ofPattern {pattern : String}
    (h : PatternDenotes alphabet pattern L) :
    ∃ e, Expr.ofPattern alphabet pattern = .ok e ∧ e.language = L := by
  rcases h with ⟨hempty, rfl⟩ | h
  · refine ⟨.epsilon, ofPattern_eq_ok_iff.mpr ⟨[], ?_, rfl⟩, Expr.language_epsilon⟩
    rw [hempty]
    exact .nil false
  · obtain ⟨ts, e, hread, hlanguage, htext⟩ := h.exists_tokenized
    exact ⟨e, ofPattern_eq_ok_iff.mpr ⟨ts, htext, Expr.ofTokens_eq_ok_iff.mpr (Or.inr hread)⟩,
      hlanguage⟩

private theorem patternDenotes_of_ofPattern {pattern : String}
    (h : Expr.ofPattern alphabet pattern = .ok e) : PatternDenotes alphabet pattern e.language := by
  obtain ⟨ts, htext, hread⟩ := ofPattern_eq_ok_iff.mp h
  rcases Expr.ofTokens_eq_ok_iff.mp hread with ⟨rfl, rfl⟩ | hread
  · cases htext' : pattern.toList with
    | nil => exact Or.inl ⟨htext', Expr.language_epsilon⟩
    | cons c text =>
      rw [htext'] at htext
      cases htext
  · rw [← List.append_nil ts] at htext
    obtain ⟨t, rest, heq, ht, hrest⟩ := hread.cutFrom _ _ htext
    cases hrest
    rw [List.append_nil] at heq
    exact Or.inr (heq ▸ ht)

/-- The language of a pattern that is read is that of its expression, and no other. -/
theorem patternDenotes_iff_of_ofPattern {pattern : String}
    (h : Expr.ofPattern alphabet pattern = .ok e) :
    PatternDenotes alphabet pattern L ↔ L = e.language := by
  constructor
  · intro hL
    obtain ⟨f, hf, rfl⟩ := hL.exists_ofPattern
    rw [h] at hf
    rw [Except.ok.inj hf]
  · rintro rfl
    exact patternDenotes_of_ofPattern h

/-- The expression of a pattern has no action tags. -/
theorem isPlain_of_ofPattern {pattern : String} (h : Expr.ofPattern alphabet pattern = .ok e) :
    e.IsPlain := by
  obtain ⟨ts, htext, hread⟩ := ofPattern_eq_ok_iff.mp h
  rcases Expr.ofTokens_eq_ok_iff.mp hread with ⟨rfl, rfl⟩ | hread
  · exact List.forall_mem_nil _
  · exact hread.isPlain htext.action_not_mem

end Recognizer.Regex

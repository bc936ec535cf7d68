import Recognizer.Proofs.Regex.Compile

/-!
# Brackets with escaped members

Inside a bracket a backslash keeps its character from closing or negating the bracket. It does not
keep a `-` from making a range: the tokens do not tell whether a character was escaped, and the
ranges are found among the tokens. So a bracket in which every member is written with its escape
stands for the members with their ranges written out, as it would without the backslashes.

## Main definitions

* `literalMember`, `literalClass`: characters, and a bracket of characters, with all their escapes.
* `AcceptsJust`: the automaton of a pattern accepts the texts of one character out of a set.

## Main results

* `acceptsJust_of_members`: the characters that such a bracket stands for.
* `acceptsJust_literalClass_iff`: a bracket of escaped characters stands for just these if no range
  is among them.
-/

namespace Recognizer.Regex

variable {alphabet : Alphabet} {cs : List Char} {S T : Set Char} {e : Expr Leaf}

/-! ### Spelling a list of characters -/

/-- The spelling of a character by which it names itself: a control character has a letter behind a
backslash, these letters stand bare, and any other character stands behind a backslash. -/
def literalMember : Char → List Char
  | '\n' => ['\\', 'n']
  | '\t' => ['\\', 't']
  | '\r' => ['\\', 'r']
  | '\x00' => ['\\', '0']
  | 'n' => ['n']
  | 't' => ['t']
  | 'r' => ['r']
  | '0' => ['0']
  | c => ['\\', c]

/-- The pattern of a bracket whose members are the characters, each of them spelled so that it names
itself. -/
def literalClass (cs : List Char) : String :=
  String.ofList ('[' :: cs.flatMap literalMember ++ [']'])

private theorem literalMember_cases (c : Char) :
    (literalMember c = [c] ∧ c ≠ ']' ∧ c ≠ '\\' ∧ c ≠ '^') ∨
      ∃ d, literalMember c = ['\\', d] ∧ unescape d = c := by
  unfold literalMember
  split
  case h_1 | h_2 | h_3 | h_4 => exact Or.inr ⟨_, rfl, rfl⟩
  case h_5 | h_6 | h_7 | h_8 => exact Or.inl ⟨rfl, by decide, by decide, by decide⟩
  case h_9 hn ht hr h0 =>
    refine Or.inr ⟨c, rfl, ?_⟩
    unfold unescape
    split
    · exact absurd rfl hn
    · exact absurd rfl ht
    · exact absurd rfl hr
    · exact absurd rfl h0
    · rfl

theorem spellsMembers_literalMember (cs : List Char) :
    SpellsMembers (cs.flatMap literalMember) cs := by
  induction cs with
  | nil => exact .nil
  | cons c cs ih =>
    rw [List.flatMap_cons]
    rcases literalMember_cases c with ⟨hc, hclose, hescape, -⟩ | ⟨d, hc, rfl⟩
    · rw [hc]
      exact .plain hclose hescape ih
    · rw [hc]
      exact .escaped d ih

theorem head?_literalMember_ne (cs : List Char) :
    (cs.flatMap literalMember).head? ≠ some '^' := by
  cases cs with
  | nil => nofun
  | cons c cs =>
    rw [List.flatMap_cons]
    rcases literalMember_cases c with ⟨hc, -, -, hnegate⟩ | ⟨d, hc, -⟩
    · rw [hc]
      exact fun h => hnegate (Option.some.inj h)
    · rw [hc]
      nofun

theorem tokenize_literalClass (cs : List Char) :
    tokenize (literalClass cs) = .ok (bracketTokens false cs) := by
  refine (tokensFrom_eq_ok_iff 0).mpr ?_
  rw [literalClass, String.toList_ofList, bracketTokens, if_neg Bool.false_ne_true]
  exact .openBracket (mt head?_append_close.mp (head?_literalMember_ne cs))
    ((spellsMembers_literalMember cs).tokenized (.closeBracket (.nil false)))

theorem ofPattern_literalClass (alphabet : Alphabet) (cs : List Char) :
    Expr.ofPattern alphabet (literalClass cs) =
      Expr.ofTokens alphabet (bracketTokens false cs) := by
  rw [Expr.ofPattern, tokenize_literalClass]
  rfl

/-! ### What the bracket stands for -/

/-- The pattern has an automaton, and this accepts the texts of one character out of the set. -/
def AcceptsJust (alphabet : Alphabet) (pattern : String) (S : Set Char) : Prop :=
  ∃ d, compile pattern alphabet = .ok d ∧ ∀ text, d.derive text = true ↔ ∃ c ∈ S, text = [c]

theorem AcceptsJust.unique {pattern : String} (h : AcceptsJust alphabet pattern S)
    (h' : AcceptsJust alphabet pattern T) : S = T := by
  obtain ⟨d, hd, hS⟩ := h
  obtain ⟨d', hd', hT⟩ := h'
  obtain rfl := Except.ok.inj (hd.symm.trans hd')
  ext c
  have hiff := (hS [c]).symm.trans (hT [c])
  simpa using hiff

theorem Members.nonempty {members : List Char} (h : Members members S) (hne : members ≠ []) :
    S.Nonempty := by
  cases h with
  | nil => exact absurd rfl hne
  | @range a b rest S hkind hle h => exact ⟨a, Or.inl ⟨Char.le_refl a, hle⟩⟩
  | single hsingle h => exact Set.insert_nonempty _ _

theorem exists_members_of_ofTokens (h : Expr.ofTokens alphabet (bracketTokens false cs) = .ok e) :
    ∃ S, Members cs S := by
  obtain ⟨r, hrun, -⟩ := bind_eq_ok_iff.mp h
  rw [bracketTokens, if_neg Bool.false_ne_true, Reader.run_append] at hrun
  obtain ⟨r', hopen, hclose⟩ := bind_eq_ok_iff.mp hrun
  obtain rfl := Except.ok.inj ((Reader.run_members .start 1 ⟨0, false, []⟩ cs).symm.trans hopen)
  obtain ⟨r', hclose, -⟩ := bind_eq_ok_iff.mp hclose
  obtain ⟨ds, hds, -⟩ := bind_eq_ok_iff.mp hclose
  obtain ⟨chars, hchars, -⟩ := bind_eq_ok_iff.mp hds
  exact ⟨_, members_iff.mpr ⟨chars, (writesOut_iff 1).mpr hchars, rfl⟩⟩

/-- The bracket stands for what its members stand for without the escapes, ranges among them
included. -/
theorem acceptsJust_of_members (h : Members cs S) (hne : cs ≠ []) :
    AcceptsJust alphabet (literalClass cs) S := by
  have hdenotes : PatternDenotes alphabet (literalClass cs) {w | ∃ c ∈ S, w = [c]} := by
    refine Or.inr (.ofTerm (.ofFactor (.ofOperand ?_)))
    rw [literalClass, String.toList_ofList]
    exact .bracket (head?_literalMember_ne cs) (spellsMembers_literalMember cs) h (h.nonempty hne)
  obtain ⟨e, he, -⟩ := hdenotes.exists_ofPattern
  have hcompile : compile (literalClass cs) alphabet = .ok (Dfa.ofExpr e) := by rw [compile, he]
  obtain ⟨L, hL, haccepts⟩ := derive_compile_iff hcompile
  obtain rfl := (hL _).mp hdenotes
  exact ⟨_, hcompile, haccepts⟩

/-- A list of characters without a range stands for just these, although it may hold the character
`-`. -/
theorem members_of_no_range (h : ∀ x y, [x, '-', y] <:+: cs → ¬ SameKind x y) :
    Members cs {c | c ∈ cs} := by
  induction cs with
  | nil => simpa using Members.nil
  | cons a cs ih =>
    have hcs : Members cs {c | c ∈ cs} := ih fun x y hxy =>
      h x y (hxy.trans (List.suffix_cons a cs).isInfix)
    have hsingle (b : Char) (rest : List Char) (hrest : cs = '-' :: b :: rest) :
        ¬ SameKind a b :=
      h a b ⟨[], rest, by rw [hrest]; rfl⟩
    convert Members.single hsingle hcs using 1
    ext c
    simp

/-- Brackets of escaped members. Whatever the alphabet, a bracket in which every member names itself
stands for what its members stand for with their ranges written out. If no `-` is between two
characters of the same kind, these are just the members. -/
theorem acceptsJust_literalClass_iff (alphabet : Alphabet) (hne : cs ≠ []) :
    (∀ S, AcceptsJust alphabet (literalClass cs) S ↔ Members cs S) ∧
      ((∀ x y, [x, '-', y] <:+: cs → ¬ SameKind x y) →
        AcceptsJust alphabet (literalClass cs) {c | c ∈ cs}) := by
  refine ⟨fun S => ⟨fun h => ?_, fun h => acceptsJust_of_members h hne⟩, fun h =>
    acceptsJust_of_members (members_of_no_range h) hne⟩
  have hread : ∃ e, Expr.ofTokens alphabet (bracketTokens false cs) = .ok e := by
    obtain ⟨d, hd, -⟩ := h
    rw [compile, ofPattern_literalClass] at hd
    cases he : Expr.ofTokens alphabet (bracketTokens false cs) with
    | ok e => exact ⟨e, rfl⟩
    | error cause =>
      rw [he] at hd
      cases hd
  obtain ⟨e, he⟩ := hread
  obtain ⟨T, hT⟩ := exists_members_of_ofTokens he
  rwa [h.unique (acceptsJust_of_members hT hne)]

/-- The closing bracket, the negation and the `-` behind a backslash each. -/
theorem acceptsJust_literalClass_iff_delimiters :
    ['^', '-', ']'] ≠ [] ∧
      AcceptsJust .printable (literalClass ['^', '-', ']']) {c | c ∈ ['^', '-', ']']} := by
  refine ⟨List.cons_ne_nil _ _,
    (acceptsJust_literalClass_iff .printable (List.cons_ne_nil _ _)).2 fun x y h => ?_⟩
  obtain ⟨rfl, -, rfl⟩ := by simpa using h.eq_of_length rfl
  decide

/-- The bracket `[\a\-\c]` does not stand for the three characters that are escaped in it. -/
theorem not_acceptsJust_literalClass :
    literalClass ['a', '-', 'c'] = "[\\a\\-\\c]" ∧
      ¬ AcceptsJust ∅ (literalClass ['a', '-', 'c']) {c | c ∈ ['a', '-', 'c']} := by
  refine ⟨by decide, fun h => ?_⟩
  have hrange : Members ['a', '-', 'c'] ({c | 'a' ≤ c ∧ c ≤ 'c'} ∪ ∅) :=
    .range (by decide) (by decide) .nil
  have hset := h.unique (acceptsJust_of_members hrange (List.cons_ne_nil _ _))
  have hb : 'b' ∈ {c | c ∈ ['a', '-', 'c']} := by
    rw [hset]
    exact Or.inl (by decide)
  exact absurd hb (by decide)

end Recognizer.Regex

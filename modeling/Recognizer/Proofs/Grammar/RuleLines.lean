import Mathlib.Data.List.Infix
import Recognizer.Grammar.Line
import Recognizer.Proofs.Iteration.Results

/-!
# What the tokens of a line say

The tokens of a rule line are a head, an arrow, and alternatives with bars between them; a line may
also be empty. The reader finds the alternatives token by token. It rejects a line at the first
token up to which the line is not the beginning of any line that is well formed.

## Main definitions

* `RuleLine.IsSaidBy`: the tokens of a rule line.
* `RuleLine.Begins`: the beginnings of well-formed lines.
* `RuleLine.FirstMisplaced`: the first token that has no place in a line.

## Main results

* `RuleLine.readAlternatives_eq_ok_iff`: the alternatives that are read.
* `RuleLine.ofTokens_eq_ok_some_iff`, `RuleLine.ofTokens_eq_ok_none_iff`: what a line says.
* `RuleLine.ofTokens_eq_error_iff`: the token at which a line is rejected.
-/

namespace Recognizer.RuleLine

variable {tokens rest more body read : List LineToken} {bodies : List (List LineToken)}
  {symbols : List Symbol} {alternatives : List (List Symbol)} {token : LineToken} {X : Symbol}
  {line : RuleLine} {found : Option LineToken}

/-! ### Lines that are well formed -/

/-- The tokens stand for the symbols, one for one. -/
def StandFor (tokens : List LineToken) (symbols : List Symbol) : Prop :=
  List.Forall₂ (fun token X => token.symbol? = some X) tokens symbols

/-- The tokens are those of the rule line: its head, an arrow, and the tokens of its alternatives,
of which there is at least one, with bars between them. -/
structure IsSaidBy (line : RuleLine) (tokens : List LineToken) : Prop where
  ne_nil : line.alternatives ≠ []
  tokens_eq : ∃ bodies, List.Forall₂ StandFor bodies line.alternatives ∧
    tokens = .nonterminal line.head :: .arrow :: [.bar].intercalate bodies

/-- Some line, which is empty or a rule line, begins with the tokens. The end of the line is a token
of its own, so a whole line begins itself. -/
def Begins (read : List LineToken) : Prop :=
  ∃ tokens, (tokens = [] ∨ ∃ line : RuleLine, line.IsSaidBy tokens) ∧
    read <+: tokens ++ [.lineEnd]

/-- Up to the token, but not with it, the tokens begin a line that is well formed. What comes after
the token does not matter. -/
def FirstMisplaced (tokens : List LineToken) (token : LineToken) : Prop :=
  ∃ read rest, tokens = read ++ token :: rest ∧ Begins read ∧ ¬ Begins (read ++ [token])

theorem StandFor.endMark_not_mem (h : StandFor tokens symbols) : .endMark ∉ symbols := by
  induction h with
  | nil => exact List.not_mem_nil
  | @cons token X _ _ hX _ ih =>
    refine List.not_mem_cons_of_ne_of_not_mem ?_ ih
    rintro rfl
    cases token <;> cases hX

theorem Begins.mono (h : Begins tokens) (hread : read <+: tokens) : Begins read := by
  obtain ⟨line, hline, hbegins⟩ := h
  exact ⟨line, hline, hread.trans hbegins⟩

theorem FirstMisplaced.unique {token' : LineToken} (h : FirstMisplaced tokens token)
    (h' : FirstMisplaced tokens token') : token = token' := by
  obtain ⟨read, rest, rfl, hbegins, hnot⟩ := h
  obtain ⟨read', rest', heq, hbegins', hnot'⟩ := h'
  have hread : read ++ [token] <+: read ++ token :: rest := ⟨rest, by rw [List.append_assoc]; rfl⟩
  have hread' : read' ++ [token'] <+: read ++ token :: rest := by
    rw [heq]
    exact ⟨rest', by rw [List.append_assoc]; rfl⟩
  have hlength : read.length = read'.length := by
    -- if one were shorter, the other would begin a line together with a misplaced token
    by_contra hne
    rcases Nat.lt_or_gt_of_ne hne with hlt | hgt
    · refine hnot (hbegins'.mono (List.prefix_of_prefix_length_le hread
        ((List.prefix_append _ _).trans hread') ?_))
      rwa [List.length_append]
    · refine hnot' (hbegins.mono (List.prefix_of_prefix_length_le hread'
        ((List.prefix_append _ _).trans hread) ?_))
      rwa [List.length_append]
  obtain ⟨rfl, htokens⟩ := List.append_inj heq hlength
  exact (List.cons.inj htokens).1

/-! ### Reading alternatives -/

theorem readAlternatives_cons (hX : token.symbol? = some X) :
    readAlternatives (token :: rest) = consSymbol X <$> readAlternatives rest := by
  cases token with
  | nonterminal | terminal | epsilon =>
    obtain rfl := Option.some.inj hX
    rfl
  | arrow | bar | lineEnd => cases hX

theorem readAlternatives_append {first : List Symbol} {later : List (List Symbol)}
    (h : StandFor body symbols) (hmore : readAlternatives more = .ok (first :: later)) :
    readAlternatives (body ++ more) = .ok ((symbols ++ first) :: later) := by
  induction h with
  | nil => exact hmore
  | cons hX _ ih =>
    rw [List.cons_append, readAlternatives_cons hX, ih]
    rfl

/-- The alternatives that are read are those that the tokens between the bars stand for. Two bars in
a row leave an alternative without tokens. -/
theorem readAlternatives_eq_ok_iff :
    readAlternatives (tokens ++ [.lineEnd]) = .ok alternatives ↔
      alternatives ≠ [] ∧
        ∃ bodies, List.Forall₂ StandFor bodies alternatives ∧
          tokens = [.bar].intercalate bodies := by
  constructor
  · intro h
    induction tokens generalizing alternatives with
    | nil =>
      obtain rfl := Except.ok.inj h
      exact ⟨List.cons_ne_nil _ _, [[]], .cons .nil .nil, rfl⟩
    | cons token tokens ih =>
      cases hX : token.symbol? with
      | some X =>
        rw [List.cons_append, readAlternatives_cons hX] at h
        obtain ⟨later, hlater, rfl⟩ := map_eq_ok_iff.mp h
        obtain ⟨hne, bodies, hbodies, rfl⟩ := ih hlater
        cases hbodies with
        | nil => exact absurd rfl hne
        | @cons body _ bodies _ hbody hbodies =>
          refine ⟨List.cons_ne_nil _ _, (token :: body) :: bodies,
            .cons (.cons hX hbody) hbodies, ?_⟩
          cases bodies <;> rfl
      | none =>
        cases token with
        | bar =>
          obtain ⟨later, hlater, rfl⟩ := map_eq_ok_iff.mp h
          obtain ⟨hne, bodies, hbodies, rfl⟩ := ih hlater
          refine ⟨List.cons_ne_nil _ _, [] :: bodies, .cons .nil hbodies, ?_⟩
          cases hbodies with
          | nil => exact absurd rfl hne
          | cons => rfl
        | arrow => cases h
        | lineEnd => cases tokens <;> cases h
        | nonterminal | terminal | epsilon => cases hX
  · rintro ⟨hne, bodies, hbodies, rfl⟩
    induction hbodies with
    | nil => exact absurd rfl hne
    | @cons body symbols bodies alternatives hbody hbodies ih =>
      cases hbodies with
      | nil =>
        have hlast : readAlternatives [.lineEnd] = .ok [[]] := rfl
        rw [List.intercalate_singleton, readAlternatives_append hbody hlast, List.append_nil]
      | @cons body' symbols' bodies alternatives hbody' hbodies =>
        have hmore : readAlternatives (.bar :: ([.bar].intercalate (body' :: bodies) ++
            [.lineEnd])) = .ok ([] :: symbols' :: alternatives) := by
          change ([] :: ·) <$>
            readAlternatives ([.bar].intercalate (body' :: bodies) ++ [.lineEnd]) = _
          rw [ih (List.cons_ne_nil _ _)]
          rfl
        have hall := readAlternatives_append hbody hmore
        rw [List.append_nil] at hall
        rwa [List.intercalate_cons_cons, List.append_assoc, List.append_assoc]

private theorem arrow_not_mem (h : readAlternatives tokens = .ok alternatives) :
    .arrow ∉ tokens := by
  induction tokens using readAlternatives.induct generalizing alternatives with
  | case1 => exact List.not_mem_nil
  | case2 => simp
  | case3 => cases h
  | case4 rest ih =>
    obtain ⟨later, hlater, -⟩ := map_eq_ok_iff.mp h
    exact List.not_mem_cons_of_ne_of_not_mem nofun (ih hlater)
  | case5 token rest _ _ _ X hX ih =>
    rw [readAlternatives_cons hX] at h
    obtain ⟨later, hlater, -⟩ := map_eq_ok_iff.mp h
    refine List.not_mem_cons_of_ne_of_not_mem ?_ (ih hlater)
    rintro rfl
    cases hX
  | case6 token rest hend hend' hbar hX =>
    rw [readAlternatives.eq_5 token rest hend hend' hbar, hX] at h
    cases h

private theorem exists_of_readAlternatives_eq_error (hend : .lineEnd ∉ tokens)
    (h : readAlternatives (tokens ++ [.lineEnd]) = .error found) :
    ∃ before after alternatives, tokens = before ++ .arrow :: after ∧ found = some .arrow ∧
      readAlternatives (before ++ [.lineEnd]) = .ok alternatives := by
  induction tokens with
  | nil => cases h
  | cons token tokens ih =>
    obtain ⟨hne, hmore⟩ := List.ne_and_not_mem_of_not_mem_cons hend
    cases hX : token.symbol? with
    | some X =>
      rw [List.cons_append, readAlternatives_cons hX] at h
      obtain ⟨before, after, alternatives, rfl, rfl, hbefore⟩ := ih hmore (map_eq_error_iff.mp h)
      refine ⟨token :: before, after, consSymbol X alternatives, rfl, rfl, ?_⟩
      rw [List.cons_append, readAlternatives_cons hX, hbefore]
      rfl
    | none =>
      cases token with
      | bar =>
        obtain ⟨before, after, alternatives, rfl, rfl, hbefore⟩ := ih hmore (map_eq_error_iff.mp h)
        refine ⟨.bar :: before, after, [] :: alternatives, rfl, rfl, ?_⟩
        change ([] :: ·) <$> readAlternatives (before ++ [.lineEnd]) = _
        rw [hbefore]
        rfl
      | arrow => exact ⟨[], tokens, [[]], rfl, (Except.error.inj h).symm, rfl⟩
      | lineEnd => exact absurd rfl hne
      | nonterminal | terminal | epsilon => cases hX

/-! ### Reading a line -/

theorem exists_of_ofTokens (h : ofTokens tokens = .ok (some line)) :
    ∃ rest, tokens = .nonterminal line.head :: .arrow :: rest ∧
      readAlternatives rest = .ok line.alternatives := by
  unfold ofTokens at h
  split at h
  · cases h
  · cases h
  · next head rest =>
    obtain ⟨alternatives, halternatives, heq⟩ := map_eq_ok_iff.mp h
    obtain rfl := Option.some.inj heq
    exact ⟨rest, rfl, halternatives⟩
  · cases h
  · cases h

/-- A line says the rule line that its tokens are those of. -/
theorem ofTokens_eq_ok_some_iff :
    ofTokens (tokens ++ [.lineEnd]) = .ok (some line) ↔ line.IsSaidBy tokens := by
  constructor
  · intro h
    obtain ⟨rest, heq, hrest⟩ := exists_of_ofTokens h
    match tokens with
    | [] => cases heq
    | [_] => cases heq
    | first :: second :: tokens =>
      obtain ⟨rfl, rfl, rfl⟩ : first = _ ∧ second = _ ∧ tokens ++ [.lineEnd] = rest := by
        simpa using heq
      obtain ⟨hne, bodies, hbodies, rfl⟩ := readAlternatives_eq_ok_iff.mp hrest
      exact ⟨hne, bodies, hbodies, rfl⟩
  · rintro ⟨hne, bodies, hbodies, rfl⟩
    have hrest := readAlternatives_eq_ok_iff.mpr ⟨hne, bodies, hbodies, rfl⟩
    change _ <$> readAlternatives ([.bar].intercalate bodies ++ [.lineEnd]) = _
    rw [hrest]
    rfl

/-- A line says nothing if it has no tokens. -/
theorem ofTokens_eq_ok_none_iff : ofTokens (tokens ++ [.lineEnd]) = .ok none ↔ tokens = [] := by
  constructor
  · intro h
    unfold ofTokens at h
    split at h
    · next heq => exact List.append_left_eq_self.mp heq
    · cases h
    · obtain ⟨alternatives, -, hline⟩ := map_eq_ok_iff.mp h
      cases hline
    · cases h
    · cases h
  · rintro rfl
    rfl

private theorem begins_of_readAlternatives (head : String)
    (h : readAlternatives (tokens ++ [.lineEnd]) = .ok alternatives) :
    Begins (.nonterminal head :: .arrow :: tokens) := by
  refine ⟨.nonterminal head :: .arrow :: tokens,
    Or.inr ⟨⟨head, alternatives⟩, ofTokens_eq_ok_some_iff.mp ?_⟩, List.prefix_append _ _⟩
  change _ <$> readAlternatives (tokens ++ [.lineEnd]) = _
  rw [h]
  rfl

private theorem Begins.cases (h : Begins (token :: rest)) :
    token = .lineEnd ∨ ∃ head more alternatives, token = .nonterminal head ∧
      rest <+: .arrow :: more ∧ readAlternatives more = .ok alternatives := by
  obtain ⟨tokens, rfl | ⟨line, hline⟩, hread⟩ := h
  · exact Or.inl (List.cons_prefix_cons.mp hread).1
  · obtain ⟨more, heq, hmore⟩ := exists_of_ofTokens (ofTokens_eq_ok_some_iff.mpr hline)
    rw [heq] at hread
    obtain ⟨rfl, hrest⟩ := List.cons_prefix_cons.mp hread
    exact Or.inr ⟨_, more, _, rfl, hrest, hmore⟩

private theorem firstMisplaced_first (hhead : ∀ head, token ≠ .nonterminal head)
    (hend : token ≠ .lineEnd) (rest : List LineToken) : FirstMisplaced (token :: rest) token := by
  refine ⟨[], rest, rfl, ⟨[], Or.inl rfl, List.nil_prefix⟩, fun hbegins => ?_⟩
  rcases hbegins.cases with hline | ⟨head, -, -, hline, -⟩
  · exact hend hline
  · exact hhead head hline

private theorem firstMisplaced_second (head : String) (harrow : token ≠ .arrow)
    (rest : List LineToken) : FirstMisplaced (.nonterminal head :: token :: rest) token := by
  have hempty : Begins [.nonterminal head, .arrow] :=
    begins_of_readAlternatives head (rfl : readAlternatives ([] ++ [.lineEnd]) = .ok [[]])
  refine ⟨[.nonterminal head], rest, rfl, hempty.mono ⟨[.arrow], rfl⟩, fun hbegins => ?_⟩
  rcases hbegins.cases with hline | ⟨-, more, -, -, hmore, -⟩
  · cases hline
  · exact harrow (List.cons_prefix_cons.mp hmore).1

private theorem firstMisplaced_arrow (head : String) (hend : .lineEnd ∉ tokens)
    (h : readAlternatives (tokens ++ [.lineEnd]) = .error found) :
    found = some .arrow ∧
      FirstMisplaced (.nonterminal head :: .arrow :: (tokens ++ [.lineEnd])) .arrow := by
  obtain ⟨before, after, alternatives, rfl, rfl, hbefore⟩ :=
    exists_of_readAlternatives_eq_error hend h
  refine ⟨rfl, .nonterminal head :: .arrow :: before, after ++ [.lineEnd], by simp,
    begins_of_readAlternatives head hbefore, fun hbegins => ?_⟩
  rcases hbegins.cases with hline | ⟨-, more, later, -, hmore, hread⟩
  · cases hline
  · have hbegins : before ++ [.arrow] <+: more := (List.cons_prefix_cons.mp hmore).2
    exact arrow_not_mem hread (hbegins.subset (by simp))

private theorem firstMisplaced_of_ofTokens (hend : .lineEnd ∉ tokens)
    (h : ofTokens (tokens ++ [.lineEnd]) = .error found) :
    ∃ token, found = some token ∧ FirstMisplaced (tokens ++ [.lineEnd]) token := by
  cases tokens with
  | nil => cases h
  | cons first tokens =>
    obtain ⟨hfirst, hmore⟩ := List.ne_and_not_mem_of_not_mem_cons hend
    cases first with
    | lineEnd => exact absurd rfl hfirst
    | terminal | arrow | bar | epsilon =>
      obtain rfl := Except.error.inj h
      exact ⟨_, rfl, firstMisplaced_first (by simp) (by simp) _⟩
    | nonterminal head =>
      cases tokens with
      | nil =>
        obtain rfl := Except.error.inj h
        exact ⟨.lineEnd, rfl, firstMisplaced_second head (by simp) []⟩
      | cons second tokens =>
        by_cases harrow : second = .arrow
        · subst harrow
          have hrest : readAlternatives (tokens ++ [.lineEnd]) = .error found :=
            map_eq_error_iff.mp h
          obtain ⟨rfl, hmisplaced⟩ :=
            firstMisplaced_arrow head (List.not_mem_of_not_mem_cons hmore) hrest
          exact ⟨.arrow, rfl, hmisplaced⟩
        · have hsecond : ofTokens (.nonterminal head :: second :: (tokens ++ [.lineEnd])) =
              .error (some second) := by
            cases second with
            | arrow => exact absurd rfl harrow
            | _ => rfl
          obtain rfl := Except.error.inj (hsecond.symm.trans h)
          exact ⟨second, rfl, firstMisplaced_second head harrow _⟩

/-- Lines are rejected at the first misplaced token, and only if there is one. The end of the line,
which is a token of its own, may be the one that is misplaced. -/
theorem ofTokens_eq_error_iff (hend : .lineEnd ∉ tokens) :
    ofTokens (tokens ++ [.lineEnd]) = .error found ↔
      ∃ token, found = some token ∧ FirstMisplaced (tokens ++ [.lineEnd]) token := by
  refine ⟨firstMisplaced_of_ofTokens hend, ?_⟩
  rintro ⟨token, rfl, hmisplaced⟩
  have hnot : ¬ Begins (tokens ++ [.lineEnd]) := by
    intro hbegins
    obtain ⟨read, rest, heq, -, hnot⟩ := hmisplaced
    exact hnot (hbegins.mono ⟨rest, by rw [heq, List.append_assoc]; rfl⟩)
  cases hline : ofTokens (tokens ++ [.lineEnd]) with
  | ok said =>
    refine absurd ⟨tokens, ?_, List.prefix_refl _⟩ hnot
    cases said with
    | none => exact Or.inl (ofTokens_eq_ok_none_iff.mp hline)
    | some line => exact Or.inr ⟨line, ofTokens_eq_ok_some_iff.mp hline⟩
  | error found =>
    obtain ⟨token', rfl, hmisplaced'⟩ := firstMisplaced_of_ofTokens hend hline
    rw [hmisplaced.unique hmisplaced']

end Recognizer.RuleLine

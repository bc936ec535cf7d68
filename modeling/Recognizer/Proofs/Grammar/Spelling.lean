import Mathlib.Data.List.TakeDrop
import Mathlib.Data.List.TakeWhile
import Recognizer.Grammar.Line
import Recognizer.Proofs.Iteration.Results

/-!
# How tokens are written

A token of grammar notation is written in one way. The tokens of a text are written in it one after
the other, and the other way round, tokens that are written with a blank after each are read as they
are: the longest token at the place where one begins ends at the blank. So a single `-` is not taken
for a part of an arrow or for the beginning of a comment.

## Main definitions

* `LineToken.Spelled`: the characters that a token is written with.

## Main results

* `LineToken.exists_spelled_of_next?`: a text begins with the characters of its first token.
* `LineToken.next?_of_spelled`: the characters of a token, up to a blank, are read as the token.
* `LineToken.scan_intercalate`: tokens with blanks between them are read as they are.
* `LineToken.exists_spelled_of_mem_scan`: the tokens that are read from a text are written somehow.
-/

namespace Recognizer.LineToken

variable {c : Char} {l rest after s : List Char} {token : LineToken} {tokens : List LineToken}

/-- The token is written with these characters. A token is written in one way only, but characters
that begin with those of a token need not be read as the token. -/
inductive Spelled : LineToken → List Char → Prop
  | arrow : Spelled arrow ['-', '>']
  | bar : Spelled bar ['|']
  | epsilon : Spelled epsilon ['ε']
  | nonterminal {c : Char} {word primes : List Char} (hc : c.isUpper)
      (hword : ∀ x ∈ word, isWordChar x) (hprimes : ∀ x ∈ primes, x = '\x27') :
      Spelled (nonterminal (String.ofList (c :: word ++ primes))) (c :: word ++ primes)
  | word {c : Char} {word : List Char} (hc : c.isLower ∨ c = '_')
      (hword : ∀ x ∈ word, isWordChar x) :
      Spelled (terminal (String.ofList (c :: word))) (c :: word)
  | punctuation {c : Char} (hc : c ∈ punctuation) : Spelled (terminal c.toString) [c]

/-! ### The first token of a text -/

/-- A text begins with the characters of its first token. -/
theorem exists_spelled_of_next? (h : next? s = some (token, rest)) :
    ∃ l, Spelled token l ∧ s = l ++ rest := by
  unfold next? at h
  split at h
  · cases h
    exact ⟨_, .arrow, rfl⟩
  · cases h
    exact ⟨_, .bar, rfl⟩
  · cases h
    exact ⟨_, .epsilon, rfl⟩
  · next c rest' _ _ _ =>
    dsimp only at h
    split at h
    · next hc =>
      cases h
      refine ⟨_, .nonterminal hc (fun x => List.mem_takeWhile_imp) fun x hx => ?_, ?_⟩
      · simpa using List.mem_takeWhile_imp hx
      · rw [List.append_assoc, List.takeWhile_append_dropWhile, List.cons_append,
          List.takeWhile_append_dropWhile]
    · split at h
      · next hc =>
        cases h
        refine ⟨_, .word (by simpa using hc) fun x => List.mem_takeWhile_imp, ?_⟩
        rw [List.cons_append, List.takeWhile_append_dropWhile]
      · split at h
        · next hc =>
          cases h
          exact ⟨_, .punctuation hc, rfl⟩
        · cases h
  · cases h

/-- The text is empty or begins with a blank. -/
def BeginsBlank (s : List Char) : Prop := ∀ c ∈ s.head?, c = ' '

private theorem takeWhile_append_of_head? {p : Char → Bool} (hl : ∀ x ∈ l, p x)
    (hrest : ∀ x ∈ rest.head?, p x = false) :
    (l ++ rest).takeWhile p = l ∧ (l ++ rest).dropWhile p = rest := by
  rw [List.takeWhile_append_of_pos hl, List.dropWhile_append_of_pos hl]
  cases rest with
  | nil => exact ⟨List.append_nil l, rfl⟩
  | cons x rest =>
    have hx := hrest x rfl
    rw [List.takeWhile_cons_of_neg (by simp [hx]), List.dropWhile_cons_of_neg (by simp [hx]),
      List.append_nil]
    exact ⟨rfl, rfl⟩

theorem not_isUpper (hc : c.isLower ∨ c = '_') : ¬ c.isUpper := by
  rcases hc with hlower | rfl
  · intro hupper
    have ha : 'a'.val ≤ c.val := of_decide_eq_true (Bool.and_eq_true_iff.mp hlower).1
    have hz : c.val ≤ 'Z'.val := (of_decide_eq_true hupper).2
    exact absurd (UInt32.le_trans ha hz) (by decide)
  · decide

theorem next?_cons (hc : c ∉ ['-', '|', 'ε']) (rest : List Char) :
    next? (c :: rest) =
      let word := c :: rest.takeWhile isWordChar
      let after := rest.dropWhile isWordChar
      if c.isUpper then
        some (nonterminal (String.ofList (word ++ after.takeWhile (· = '\x27'))),
          after.dropWhile (· = '\x27'))
      else if c.isLower || c = '_' then some (terminal (String.ofList word), after)
      else if c ∈ punctuation then some (terminal c.toString, rest)
      else none := by
  simp only [List.mem_cons, List.not_mem_nil, or_false, not_or] at hc
  exact next?.eq_4 c rest (fun _ h _ => hc.1 h) hc.2.1 hc.2.2

theorem of_mem_punctuation (hc : c ∈ punctuation) :
    c.isUpper = false ∧ (c.isLower || c = '_') = false ∧ isBlank c = false ∧ c ≠ '|' ∧ c ≠ 'ε' ∧
      c ≠ '\n' := by
  have hall : punctuation.all fun c => c.isUpper = false ∧ (c.isLower || c = '_') = false ∧
      isBlank c = false ∧ c ≠ '|' ∧ c ≠ 'ε' ∧ c ≠ '\n' := by
    decide
  exact of_decide_eq_true (List.all_eq_true.mp hall c hc)

theorem not_mem_of_all {p : Char → Bool} (hc : p c) (hl : l.all fun x => !p x) :
    c ∉ l := fun hmem => by
  simpa [hc] using List.all_eq_true.mp hl c hmem

/-- The characters of a token, up to a blank or the end of the text, are read as the token. Without
the blank, a longer token might begin there. -/
theorem next?_of_spelled (h : Spelled token l) (hrest : BeginsBlank rest) :
    next? (l ++ rest) = some (token, rest) := by
  have hword : ∀ x ∈ rest.head?, isWordChar x = false := fun x hx => by
    rw [hrest x hx]
    decide
  cases h with
  | arrow => rfl
  | bar => rfl
  | epsilon => rfl
  | @nonterminal c word primes hc hw hp =>
    have hafter : ∀ x ∈ (primes ++ rest).head?, isWordChar x = false := by
      cases primes with
      | nil => exact hword
      | cons x primes =>
        intro y hy
        rw [← Option.mem_some_iff.mp hy, hp x List.mem_cons_self]
        decide
    have hprime : ∀ x ∈ rest.head?, decide (x = '\x27') = false := fun x hx => by
      rw [hrest x hx]
      decide
    obtain ⟨htake, hdrop⟩ := takeWhile_append_of_head? hw hafter
    obtain ⟨htake', hdrop'⟩ := takeWhile_append_of_head? (p := (· = '\x27')) (by simpa using hp)
      hprime
    have hne : c ∉ ['-', '|', 'ε'] := not_mem_of_all hc (by decide)
    rw [List.append_assoc, List.cons_append, next?_cons hne]
    simp only [hc, htake, hdrop, htake', hdrop', if_true]
  | @word c word hc hw =>
    have hne : c ∉ ['-', '|', 'ε'] :=
      not_mem_of_all (p := fun x => x.isLower || x = '_') (by simpa using hc) (by decide)
    obtain ⟨htake, hdrop⟩ := takeWhile_append_of_head? hw hword
    rw [List.cons_append, next?_cons hne]
    simp [not_isUpper hc, htake, hdrop, hc]
  | @punctuation c hc =>
    obtain ⟨hupper, hlower, -, hbar, hepsilon, -⟩ := of_mem_punctuation hc
    rw [List.singleton_append, next?.eq_4 c rest ?_ hbar hepsilon]
    · simp only [hupper, hlower, hc, if_true, if_false, Bool.false_eq_true]
    · rintro rest' rfl rfl
      exact absurd (hrest '>' rfl) (by decide)

/-! ### All tokens of a text -/

/-- The first character is not a blank, and does not begin a comment by itself. -/
theorem Spelled.exists_cons (h : Spelled token l) :
    ∃ c l', l = c :: l' ∧ isBlank c = false ∧ (c = '-' → ∀ x ∈ l'.head?, x = '>') := by
  cases h with
  | arrow => exact ⟨_, _, rfl, rfl, by simp⟩
  | bar => exact ⟨_, _, rfl, rfl, by simp⟩
  | epsilon => exact ⟨_, _, rfl, rfl, by simp⟩
  | @nonterminal c word primes hc =>
    have hne : c ∉ ['-', ' ', '\t', '\x0c', '\r'] := not_mem_of_all hc (by decide)
    rw [List.mem_cons, not_or] at hne
    exact ⟨c, word ++ primes, rfl, decide_eq_false hne.2, fun heq => absurd heq hne.1⟩
  | @word c word hc =>
    have hne : c ∉ ['-', ' ', '\t', '\x0c', '\r'] :=
      not_mem_of_all (p := fun x => x.isLower || x = '_') (by simpa using hc) (by decide)
    rw [List.mem_cons, not_or] at hne
    exact ⟨c, word, rfl, decide_eq_false hne.2, fun heq => absurd heq hne.1⟩
  | @punctuation c hc => exact ⟨c, [], rfl, (of_mem_punctuation hc).2.2.1, by simp⟩

theorem Spelled.newline_not_mem (h : Spelled token l) : '\n' ∉ l := by
  cases h with
  | arrow => decide
  | bar => decide
  | epsilon => decide
  | nonterminal hc hword hprimes =>
    intro hmem
    rcases List.mem_append.mp hmem with hmem | hmem
    · rcases List.mem_cons.mp hmem with rfl | hmem
      · exact absurd hc (by decide)
      · exact absurd (hword _ hmem) (by decide)
    · exact absurd (hprimes _ hmem) (by decide)
  | word hc hword =>
    intro hmem
    rcases List.mem_cons.mp hmem with rfl | hmem
    · exact absurd hc (by decide)
    · exact absurd (hword _ hmem) (by decide)
  | punctuation hc =>
    intro hmem
    exact (of_mem_punctuation hc).2.2.2.2.2 (List.mem_singleton.mp hmem).symm

theorem scan_of_next? (hcomment : ∀ rest', c = '-' → rest = '-' :: rest' → False)
    (hblank : ¬ isBlank c) (h : next? (c :: rest) = some (token, after)) :
    scan (c :: rest) = (token :: ·) <$> scan after := by
  rw [scan.eq_3 _ _ hcomment, if_neg hblank]
  split
  · next hnone =>
    rw [h] at hnone
    cases hnone
  · next hsome =>
    rw [h] at hsome
    cases hsome
    rfl

theorem scan_append (h : Spelled token l) (hrest : BeginsBlank rest) :
    scan (l ++ rest) = (token :: ·) <$> scan rest := by
  have hnext := next?_of_spelled h hrest
  obtain ⟨c, l', rfl, hblank, hdash⟩ := h.exists_cons
  have hcomment : ∀ rest', c = '-' → l' ++ rest = '-' :: rest' → False := by
    rintro rest' hc hl'
    cases l' with
    | nil =>
      rw [List.nil_append] at hl'
      exact absurd (hrest '-' (by rw [hl']; rfl)) (by decide)
    | cons x l' =>
      obtain ⟨rfl, -⟩ := List.cons.inj hl'
      exact absurd (hdash hc '-' rfl) (by decide)
  exact scan_of_next? hcomment (by simp [hblank]) hnext

private theorem scan_blank (rest : List Char) : scan (' ' :: rest) = scan rest := by
  rw [scan.eq_3 ' ' rest fun _ h _ => absurd h (by decide)]
  exact if_pos (by decide)

/-- Tokens are read as they are written, if blanks are put between them. -/
theorem scan_intercalate {spellings : List (List Char)}
    (h : List.Forall₂ Spelled tokens spellings) :
    scan ([' '].intercalate spellings) = .ok tokens := by
  induction h with
  | nil => exact scan.eq_1
  | @cons token l tokens spellings htoken h ih =>
    cases h with
    | nil =>
      have hscan : scan (l ++ []) = (token :: ·) <$> scan [] :=
        scan_append htoken (by simp [BeginsBlank])
      rw [List.append_nil, scan.eq_1] at hscan
      rw [List.intercalate_singleton]
      exact hscan
    | cons htoken' h =>
      rw [List.intercalate_cons_cons, List.append_assoc,
        scan_append htoken (by simp [BeginsBlank]), List.singleton_append, scan_blank, ih]
      rfl

theorem newline_not_mem_intercalate {spellings : List (List Char)}
    (h : List.Forall₂ Spelled tokens spellings) : '\n' ∉ [' '].intercalate spellings := by
  induction h with
  | nil => exact List.not_mem_nil
  | @cons token l tokens spellings htoken h ih =>
    cases h with
    | nil =>
      rw [List.intercalate_singleton]
      exact htoken.newline_not_mem
    | cons htoken' h =>
      rw [List.intercalate_cons_cons, List.append_assoc, List.mem_append, List.mem_append, not_or,
        not_or]
      exact ⟨htoken.newline_not_mem, by decide, ih⟩

/-- The tokens that are read from a text are written in some way. -/
theorem exists_spelled_of_mem_scan (h : scan s = .ok tokens) (hmem : token ∈ tokens) :
    ∃ l, Spelled token l := by
  induction s using scan.induct generalizing tokens with
  | case1 =>
    rw [scan.eq_1] at h
    cases h
    cases hmem
  | case2 rest ih =>
    rw [scan.eq_2] at h
    exact ih h hmem
  | case3 c rest hcomment hblank ih =>
    rw [scan.eq_3 _ _ hcomment, if_pos hblank] at h
    exact ih h hmem
  | case4 c rest hcomment hblank hnone =>
    rw [scan.eq_3 _ _ hcomment, if_neg hblank] at h
    split at h
    · cases h
    · next hsome =>
      rw [hnone] at hsome
      cases hsome
  | case5 c rest hcomment hblank first after hnext hlt ih =>
    rw [scan_of_next? hcomment hblank hnext] at h
    obtain ⟨later, hlater, rfl⟩ := map_eq_ok_iff.mp h
    rcases List.mem_cons.mp hmem with rfl | hmem
    · obtain ⟨l, hl, -⟩ := exists_spelled_of_next? hnext
      exact ⟨l, hl⟩
    · exact ih hlater hmem

end Recognizer.LineToken

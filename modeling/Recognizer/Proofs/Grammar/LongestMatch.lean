import Mathlib.Data.List.Infix
import Recognizer.Proofs.Grammar.Spelling

/-!
# Reading a line by longest match

A line of grammar notation is cut into pieces: tokens, comments, and runs of blanks. At each place
the longest piece that begins there is taken, and the line is rejected where no piece begins. So
`-->` is a comment and not a sign before an arrow, and a word goes on as long as it can. The pieces
are told by their patterns alone, without the order in which the reader tries them. The reader takes
blanks one by one and tells a comment from two signs by looking ahead, and still finds these pieces.

## Main definitions

* `LineToken.Piece`: what a piece of a line can be; `LineToken.LongestPiece`, the piece to take.
* `LineToken.Lexes`, `LineToken.LexFails`: the tokens of a line, and the character at which it has
  none.

## Main results

* `LineToken.scan_cases`: what the reader takes from the beginning of a text.
* `LineToken.scan_eq_ok_iff`, `LineToken.scan_eq_error_iff`: the reader takes the longest pieces.
-/

namespace Recognizer.LineToken

variable {c : Char} {l l' s rest after : List Char} {token token' : LineToken}
  {tokens : List LineToken} {piece piece' : Option LineToken}

/-! ### Pieces -/

/-- The characters are a piece of a line: a token, or a comment or some blanks, which are no token.
Any part of a comment that begins with the two signs is a comment, too. -/
inductive Piece : Option LineToken → List Char → Prop
  | token {token : LineToken} {l : List Char} (h : Spelled token l) : Piece (some token) l
  | comment {l : List Char} (h : '\n' ∉ l) : Piece none ('-' :: '-' :: l)
  | blanks {l : List Char} (hne : l ≠ []) (h : ∀ c ∈ l, isBlank c) : Piece none l

/-- The longest piece that the text begins with. Shorter pieces of any kind may begin there, too. -/
structure LongestPiece (s : List Char) (piece : Option LineToken) (l : List Char) : Prop where
  isPiece : Piece piece l
  begins : l <+: s
  longest : ∀ piece' l', Piece piece' l' → l' <+: s → l'.length ≤ l.length

/-- The text is cut into longest pieces, with these tokens among them. -/
inductive Lexes : List Char → List LineToken → Prop
  | nil : Lexes [] []
  | cons {piece : Option LineToken} {l rest : List Char} {tokens : List LineToken}
      (h : LongestPiece (l ++ rest) piece l) (hrest : Lexes rest tokens) :
      Lexes (l ++ rest) (piece.toList ++ tokens)

/-- After some longest pieces, no piece begins with the character that comes next. -/
inductive LexFails : List Char → Char → Prop
  | here {c : Char} {rest : List Char} (h : ∀ piece l, Piece piece l → ¬ l <+: c :: rest) :
      LexFails (c :: rest) c
  | cons {piece : Option LineToken} {l rest : List Char} {c : Char}
      (h : LongestPiece (l ++ rest) piece l) (hrest : LexFails rest c) : LexFails (l ++ rest) c

theorem Spelled.unique (h : Spelled token l) (h' : Spelled token' l) : token = token' := by
  have hnext : next? (l ++ []) = some (token, []) := next?_of_spelled h (by simp [BeginsBlank])
  rw [next?_of_spelled h' (by simp [BeginsBlank])] at hnext
  exact (Prod.mk.inj (Option.some.inj hnext)).1.symm

private theorem Spelled.not_piece_none (h : Spelled token l) : ¬ Piece none l := by
  obtain ⟨c, l, rfl, hblank, hdash⟩ := h.exists_cons
  intro hpiece
  cases hpiece with
  | comment => exact absurd (hdash rfl '-' rfl) (by decide)
  | blanks _ hall => simp [hall c List.mem_cons_self] at hblank

theorem Piece.unique (h : Piece piece l) (h' : Piece piece' l) : piece = piece' := by
  cases piece with
  | none =>
    cases h' with
    | token htoken => exact absurd h htoken.not_piece_none
    | comment | blanks => rfl
  | some token =>
    cases h with
    | token htoken =>
      cases piece' with
      | none => exact absurd h' htoken.not_piece_none
      | some token' =>
        cases h' with
        | token htoken' => rw [htoken.unique htoken']

theorem LongestPiece.unique (h : LongestPiece s piece l) (h' : LongestPiece s piece' l') :
    l = l' ∧ piece = piece' := by
  have hle := h'.longest _ _ h.isPiece h.begins
  have hge := h.longest _ _ h'.isPiece h'.begins
  have heq : l = l' :=
    (List.prefix_of_prefix_length_le h.begins h'.begins hle).eq_of_length (Nat.le_antisymm hle hge)
  exact ⟨heq, h.isPiece.unique (heq ▸ h'.isPiece)⟩

/-! ### The first piece of a text -/

/-- A token at the beginning of a text reaches no further than the one that is read there. So the
reader, which tries the kinds of tokens in a fixed order, always takes a longest one. -/
theorem Spelled.exists_next? (h : Spelled token l) (rest : List Char) :
    ∃ first after, next? (l ++ rest) = some (first, after) ∧ after.length ≤ rest.length := by
  have hdrop (p : Char → Bool) (s : List Char) : (s.dropWhile p).length ≤ s.length :=
    (List.dropWhile_suffix p).length_le
  cases h with
  | arrow | bar | epsilon => exact ⟨_, rest, rfl, Nat.le_refl _⟩
  | @nonterminal c word primes hc hword hprimes =>
    have hne : c ∉ ['-', '|', 'ε'] := not_mem_of_all hc (by decide)
    rw [List.append_assoc, List.cons_append, next?_cons hne]
    simp only [hc, if_true]
    refine ⟨_, _, rfl, ?_⟩
    rw [List.dropWhile_append_of_pos hword]
    cases primes with
    | nil => exact (hdrop _ _).trans (hdrop _ _)
    | cons x primes =>
      -- the word ends where the first prime stands
      have hx : isWordChar x = false := by
        rw [hprimes x List.mem_cons_self]
        decide
      rw [List.cons_append, List.dropWhile_cons_of_neg (by simp [hx]), ← List.cons_append,
        List.dropWhile_append_of_pos (by simpa using hprimes)]
      exact hdrop _ _
  | @word c word hc hword =>
    have hne : c ∉ ['-', '|', 'ε'] :=
      not_mem_of_all (p := fun x => x.isLower || x = '_') (by simpa using hc) (by decide)
    have hlower : (c.isLower || decide (c = '_')) = true := by simpa using hc
    rw [List.cons_append, next?_cons hne]
    simp only [not_isUpper hc, hlower, Bool.false_eq_true, if_true, if_false]
    refine ⟨_, _, rfl, ?_⟩
    rw [List.dropWhile_append_of_pos hword]
    exact hdrop _ _
  | @punctuation c hc =>
    obtain ⟨hupper, hlower, -, -⟩ := of_mem_punctuation hc
    cases hnext : next? (c :: rest) with
    | none =>
      unfold next? at hnext
      split at hnext
      · cases hnext
      · cases hnext
      · cases hnext
      · next heq =>
        obtain ⟨rfl, rfl⟩ := List.cons.inj heq
        simp [hupper, hlower, hc] at hnext
      · next heq => cases heq
    | some first =>
      exact ⟨first.1, first.2, hnext, Nat.lt_succ_iff.mp (length_lt_of_next? hnext)⟩

private theorem length_le_takeWhile {p : Char → Bool} (hl : ∀ x ∈ l, p x) (h : l <+: s) :
    l.length ≤ (s.takeWhile p).length := by
  obtain ⟨rest, rfl⟩ := h
  rw [List.takeWhile_append_of_pos hl, List.length_append]
  exact Nat.le_add_right _ _

/-- At two signs, the longest piece is the comment that goes on to the end of the line. -/
theorem longestPiece_comment (rest : List Char) : LongestPiece ('-' :: '-' :: rest) none
    ('-' :: '-' :: rest.takeWhile (· ≠ '\n')) := by
  refine ⟨.comment fun hmem => ?_, ?_, fun piece' l' h hl' => ?_⟩
  · simpa using List.mem_takeWhile_imp hmem
  · exact (List.prefix_cons_inj _).mpr ((List.prefix_cons_inj _).mpr (List.takeWhile_prefix _))
  · cases h with
    | token htoken =>
      obtain ⟨c, l', rfl, -, hdash⟩ := htoken.exists_cons
      obtain ⟨rfl, hmore⟩ := List.cons_prefix_cons.mp hl'
      cases l' with
      | nil => simp
      | cons x l' =>
        obtain ⟨rfl, -⟩ := List.cons_prefix_cons.mp hmore
        exact absurd (hdash rfl '-' rfl) (by decide)
    | @comment m hm =>
      have hm' : m <+: rest := by simpa using hl'
      have hlength := length_le_takeWhile (p := (· ≠ '\n')) (fun x hx => by
        simpa using fun heq : x = '\n' => hm (heq ▸ hx)) hm'
      simpa using hlength
    | blanks hne hall =>
      cases l' with
      | nil => exact absurd rfl hne
      | cons x l' =>
        obtain ⟨rfl, -⟩ := List.cons_prefix_cons.mp hl'
        exact absurd (hall '-' List.mem_cons_self) (by decide)

theorem longestPiece_blanks (hc : isBlank c) (rest : List Char) :
    LongestPiece (c :: rest) none ((c :: rest).takeWhile isBlank) := by
  refine ⟨.blanks ?_ fun x hx => List.mem_takeWhile_imp hx,
    List.takeWhile_prefix _, fun piece' l' h hl' => ?_⟩
  · rw [List.takeWhile_cons_of_pos hc]
    exact List.cons_ne_nil _ _
  · cases h with
    | token htoken =>
      obtain ⟨x, l', rfl, hblank, -⟩ := htoken.exists_cons
      obtain ⟨rfl, -⟩ := List.cons_prefix_cons.mp hl'
      simp [hc] at hblank
    | comment =>
      obtain ⟨rfl, -⟩ := List.cons_prefix_cons.mp hl'
      exact absurd hc (by decide)
    | blanks _ hall => exact length_le_takeWhile hall hl'

private theorem Piece.exists_token (h : Piece piece l) (hl : l <+: c :: rest)
    (hcomment : ∀ rest', c = '-' → rest = '-' :: rest' → False) (hblank : ¬ isBlank c) :
    ∃ token, piece = some token ∧ Spelled token l := by
  cases h with
  | token htoken => exact ⟨_, rfl, htoken⟩
  | comment =>
    obtain ⟨rfl, ⟨rest', rfl⟩⟩ := List.cons_prefix_cons.mp hl
    exact (hcomment _ rfl rfl).elim
  | blanks hne hall =>
    cases l with
    | nil => exact absurd rfl hne
    | cons x l =>
      obtain ⟨rfl, -⟩ := List.cons_prefix_cons.mp hl
      exact absurd (hall x List.mem_cons_self) hblank

/-- Where neither a comment nor a blank begins, the longest piece is the token that is read. -/
theorem longestPiece_of_next? (hcomment : ∀ rest', c = '-' → rest = '-' :: rest' → False)
    (hblank : ¬ isBlank c) (h : next? (c :: rest) = some (token, after)) :
    ∃ l, c :: rest = l ++ after ∧ LongestPiece (c :: rest) (some token) l := by
  obtain ⟨l, hl, heq⟩ := exists_spelled_of_next? h
  refine ⟨l, heq, .token hl, ⟨after, heq.symm⟩, fun piece' l' hpiece hl' => ?_⟩
  obtain ⟨token', -, htoken'⟩ := hpiece.exists_token hl' hcomment hblank
  obtain ⟨rest', heq'⟩ := hl'
  obtain ⟨first, after', hnext, hle⟩ := htoken'.exists_next? rest'
  rw [heq', h] at hnext
  obtain ⟨rfl, rfl⟩ := Prod.mk.inj (Option.some.inj hnext)
  have hlength := congrArg List.length (heq'.trans heq)
  rw [List.length_append, List.length_append] at hlength
  omega

/-! ### All pieces of a text -/

private theorem scan_dropWhile_isBlank (s : List Char) : scan s = scan (s.dropWhile isBlank) := by
  induction s with
  | nil => rfl
  | cons c rest ih =>
    by_cases hc : isBlank c
    · have hne : c ≠ '-' := by
        rintro rfl
        exact absurd hc (by decide)
      rw [scan.eq_3 c rest fun _ h _ => hne h, if_pos hc, List.dropWhile_cons_of_pos hc, ih]
    · rw [List.dropWhile_cons_of_neg hc]

/-- From a text that is not empty, the reader takes the longest piece, or rejects the first
character if there is no piece. -/
theorem scan_cases (s : List Char) :
    s = [] ∨
      (∃ piece l rest, s = l ++ rest ∧ LongestPiece s piece l ∧
        scan s = (piece.toList ++ ·) <$> scan rest) ∨
      ∃ c rest, s = c :: rest ∧ (∀ piece l, Piece piece l → ¬ l <+: s) ∧ scan s = .error c := by
  cases s with
  | nil => exact Or.inl rfl
  | cons c rest =>
    refine Or.inr ?_
    by_cases hcomment : ∃ rest', c = '-' ∧ rest = '-' :: rest'
    · obtain ⟨rest, rfl, rfl⟩ := hcomment
      refine Or.inl ⟨none, _, rest.dropWhile (· ≠ '\n'), ?_, longestPiece_comment rest, ?_⟩
      · rw [List.cons_append, List.cons_append, List.takeWhile_append_dropWhile]
      · rw [scan.eq_2]
        exact (id_map _).symm
    · have hcomment' (rest' : List Char) (hc : c = '-') (hrest : rest = '-' :: rest') : False :=
        hcomment ⟨rest', hc, hrest⟩
      by_cases hblank : isBlank c
      · refine Or.inl ⟨none, _, (c :: rest).dropWhile isBlank, ?_,
          longestPiece_blanks hblank rest, ?_⟩
        · rw [List.takeWhile_append_dropWhile]
        · rw [scan_dropWhile_isBlank]
          exact (id_map _).symm
      · cases hnext : next? (c :: rest) with
        | some first =>
          obtain ⟨token, after⟩ := first
          obtain ⟨l, heq, hlongest⟩ := longestPiece_of_next? hcomment' hblank hnext
          exact Or.inl ⟨some token, l, after, heq, hlongest,
            scan_of_next? hcomment' hblank hnext⟩
        | none =>
          refine Or.inr ⟨c, rest, rfl, fun piece l hpiece hl => ?_, ?_⟩
          · obtain ⟨token, -, htoken⟩ := hpiece.exists_token hl hcomment' hblank
            obtain ⟨rest', heq⟩ := hl
            obtain ⟨first, after, hsome, -⟩ := htoken.exists_next? rest'
            rw [heq, hnext] at hsome
            cases hsome
          · rw [scan.eq_3 _ _ hcomment', if_neg hblank]
            split
            · rfl
            · next hsome =>
              rw [hnext] at hsome
              cases hsome

theorem scan_of_longestPiece (h : LongestPiece (l ++ rest) piece l) :
    scan (l ++ rest) = (piece.toList ++ ·) <$> scan rest := by
  rcases scan_cases (l ++ rest) with hnil | ⟨piece', l', rest', heq, hlongest, hscan⟩ | hnone
  · obtain ⟨rfl, rfl⟩ := List.append_eq_nil_iff.mp hnil
    cases h.isPiece with
    | token htoken =>
      obtain ⟨c, l, hl, -⟩ := htoken.exists_cons
      cases hl
    | blanks hne => exact absurd rfl hne
  · obtain ⟨rfl, rfl⟩ := h.unique hlongest
    obtain rfl := List.append_cancel_left heq
    exact hscan
  · obtain ⟨c, rest', heq, hnone, -⟩ := hnone
    exact absurd h.begins (hnone _ _ h.isPiece)

theorem LongestPiece.length_pos (h : LongestPiece s piece l) : 0 < l.length := by
  cases h.isPiece with
  | token htoken =>
    obtain ⟨c, l, rfl, -⟩ := htoken.exists_cons
    exact Nat.succ_pos _
  | comment => exact Nat.succ_pos _
  | blanks hne => exact List.length_pos_iff.mpr hne

private theorem lexes_or_lexFails (s : List Char) :
    (∃ tokens, scan s = .ok tokens ∧ Lexes s tokens) ∨ ∃ c, scan s = .error c ∧ LexFails s c := by
  induction hn : s.length using Nat.strong_induction_on generalizing s with
  | _ n ih =>
    rcases scan_cases s with rfl | ⟨piece, l, rest, rfl, hlongest, hscan⟩ |
      ⟨c, rest, rfl, hnone, hc⟩
    · exact Or.inl ⟨[], scan.eq_1, .nil⟩
    · have hlt : rest.length < n := by
        have hpos := hlongest.length_pos
        rw [List.length_append] at hn
        omega
      rcases ih rest.length hlt rest rfl with ⟨tokens, hrest, h⟩ | ⟨c, hrest, h⟩
      · exact Or.inl ⟨piece.toList ++ tokens, by rw [hscan, hrest]; rfl, .cons hlongest h⟩
      · exact Or.inr ⟨c, by rw [hscan, hrest]; rfl, .cons hlongest h⟩
    · exact Or.inr ⟨c, hc, .here hnone⟩

/-- The reader takes the longest pieces. The tokens that it finds in a text are those among the
longest pieces that the text is cut into. -/
theorem scan_eq_ok_iff : scan s = .ok tokens ↔ Lexes s tokens := by
  constructor
  · intro h
    rcases lexes_or_lexFails s with ⟨tokens', hscan, hlexes⟩ | ⟨c, hscan, -⟩
    · obtain rfl := Except.ok.inj (hscan.symm.trans h)
      exact hlexes
    · cases hscan.symm.trans h
  · intro h
    induction h with
    | nil => exact scan.eq_1
    | cons hlongest _ ih =>
      rw [scan_of_longestPiece hlongest, ih]
      rfl

/-- A text has no tokens where, after some longest pieces, no piece begins. The reader names the
character that stands there. -/
theorem scan_eq_error_iff : scan s = .error c ↔ LexFails s c := by
  constructor
  · intro h
    rcases lexes_or_lexFails s with ⟨tokens, hscan, -⟩ | ⟨c', hscan, hfails⟩
    · cases hscan.symm.trans h
    · obtain rfl := Except.error.inj (hscan.symm.trans h)
      exact hfails
  · intro h
    induction h with
    | @here c rest hnone =>
      rcases scan_cases (c :: rest) with hnil | ⟨piece, l, rest', heq, hlongest, -⟩ | hfail
      · cases hnil
      · exact absurd hlongest.begins (hnone _ _ hlongest.isPiece)
      · obtain ⟨c', rest', heq, -, hscan⟩ := hfail
        rwa [← (List.cons.inj heq).1] at hscan
    | cons hlongest _ ih =>
      rw [scan_of_longestPiece hlongest, ih]
      rfl

/-- Two signs before an angle bracket are a comment, and one is an arrow. -/
example : scan "A-->B".toList = .ok [.nonterminal "A"] ∧
    scan "A->-a".toList = .ok [.nonterminal "A", .arrow, .terminal "-", .terminal "a"] := by
  decide +kernel

end Recognizer.LineToken

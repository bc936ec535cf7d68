import Recognizer.Proofs.Grammar.Derivations
import Recognizer.Proofs.Grammar.Follow
import Recognizer.Proofs.Iteration.Termination
import Recognizer.Proofs.Splits

/-!
# FIRST and FOLLOW by derivations

The tables say what derivations can do. A terminal is in FIRST of a string of symbols if the string
derives one that begins with the terminal, and in FOLLOW of a nonterminal if the terminal comes
right after it in a string that some nonterminal derives. What comes after the nonterminal in this
string need not be productive, and neither need be the string as a whole.

A string of symbols may mention the empty string `ε`; the string that it stands for is without it.

## Main definitions

* `Grammar.withoutEpsilon`: the string that symbols stand for.
* `Grammar.IsFirst`, `Grammar.IsFollow`: FIRST of a string, and FOLLOW of a nonterminal, by
  derivations.
* `Grammar.Respects`: in a string, only what can follow a nonterminal comes after it.

## Main results

* `Grammar.isFirst_firstSets`: the FIRST sets of strings and symbols.
* `Grammar.isFollow_firstFollow`: the FOLLOW sets of nonterminals.
-/

namespace Recognizer

/-- The string that symbols stand for, in which the empty string does not show. Derivations are
about such strings. -/
def Grammar.withoutEpsilon (α : List Symbol) : List Symbol := α.filter (· ≠ .epsilon)

/-- FIRST of symbols is that of the string that they stand for. -/
theorem SetTable.firstOfSequence_withoutEpsilon (table : SetTable) (α : List Symbol) :
    table.firstOfSequence (Grammar.withoutEpsilon α) = table.firstOfSequence α := by
  induction α with
  | nil => rfl
  | cons X α ih =>
    by_cases hX : X = .epsilon
    · subst hX
      refine SortedSet.ext fun t => ?_
      rw [Grammar.withoutEpsilon, List.filter_cons_of_neg (by simp), ← Grammar.withoutEpsilon, ih,
        mem_firstOfSequence_cons]
      simp +contextual [first]
    · rw [Grammar.withoutEpsilon, List.filter_cons_of_pos (by simpa using hX),
        ← Grammar.withoutEpsilon, firstOfSequence, firstOfSequence, ih]

theorem SetTable.firstOfSequence_singleton (table : SetTable) (X : Symbol) :
    table.firstOfSequence [X] = table.first X := by
  refine SortedSet.ext fun t => ?_
  rw [mem_firstOfSequence_cons, firstOfSequence_nil, SortedSet.mem_singleton]
  constructor
  · rintro (⟨ht, -⟩ | ⟨hX, rfl⟩)
    · exact ht
    · exact hX
  · exact fun ht => Or.inl ⟨ht, id⟩

namespace Grammar

variable {g : Grammar} {u v α β γ before rest : List Symbol} {r : Rule} {t X : Symbol}
  {name : String}

/-! ### FIRST -/

/-- The set holds the terminals that a string which the symbols derive can begin with, and `ε` if
the symbols derive the empty string. -/
structure IsFirst (g : Grammar) (α : List Symbol) (s : SymbolSet) : Prop where
  terminal_iff : ∀ t : Symbol, t.isTerminal → (t ∈ s ↔ ∃ γ, g.Derives (withoutEpsilon α) (t :: γ))
  epsilon_iff : .epsilon ∈ s ↔ g.Derives (withoutEpsilon α) []
  not_nonterminal : ∀ t ∈ s, t.isNonterminal = false

theorem epsilon_not_mem_withoutEpsilon (α : List Symbol) : .epsilon ∉ withoutEpsilon α := by
  simp [withoutEpsilon]

private theorem isFirst_firstOfSequence (g : Grammar) (α : List Symbol) :
    g.IsFirst α (g.firstSets.firstOfSequence α) := by
  have hα := epsilon_not_mem_withoutEpsilon α
  rw [← SetTable.firstOfSequence_withoutEpsilon]
  refine ⟨fun t ht => ?_, ?_, fun t ht => ?_⟩
  · have hne : t ≠ .epsilon := by
      rintro rfl
      cases ht
    rw [mem_firstOfSequence_iff hα hne, ← mem_first_iff]
    exact and_iff_right ht
  · rw [epsilon_mem_firstOfSequence_iff hα, produces_nil_iff_derives]
  · by_cases hne : t = .epsilon
    · rw [hne]
      rfl
    · have hterminal := ((mem_firstOfSequence_iff hα hne).mp ht).isTerminal
      cases t with
      | nonterminal name => cases hterminal
      | _ => rfl

/-- FIRST by derivations. The passes for FIRST come to an end by themselves. The table that they
lead to holds FIRST of every string of symbols and of every symbol, with or without a rule, and
knows which symbols derive the empty string. -/
theorem isFirst_firstSets (g : Grammar) :
    Settles g.firstPass (.tabulate g.nonterminals fun _ => ∅) g.firstSets ∧
      (∀ α, g.IsFirst α (g.firstSets.firstOfSequence α)) ∧
      ∀ X, g.IsFirst [X] (g.firstSets.first X) ∧
        (g.firstSets.Nullable X ↔ g.Derives (withoutEpsilon [X]) []) := by
  have hfirst (X : Symbol) : g.IsFirst [X] (g.firstSets.first X) := by
    rw [← SetTable.firstOfSequence_singleton]
    exact g.isFirst_firstOfSequence [X]
  exact ⟨settles_saturate g.firstPass_firstSets, g.isFirst_firstOfSequence,
    fun X => ⟨hfirst X, (hfirst X).epsilon_iff⟩⟩

/-! ### What can follow does so in a derivation -/

private theorem derives_lhs (hr : r ∈ g.rules)
    (hsymbols : r.symbols = before ++ .nonterminal name :: rest) (hrest : g.Derives rest γ) :
    g.Derives [r.lhs] (before ++ .nonterminal name :: γ) := by
  have hstep := Yields.replace [] [] hr
  rw [List.nil_append, List.nil_append, List.append_nil, hsymbols] at hstep
  have hcontext := hrest.append (before ++ [.nonterminal name]) []
  simp only [List.append_nil, List.append_assoc, List.cons_append, List.nil_append] at hcontext
  exact .step hstep hcontext

/-- In a string that is derived, the head of a rule can be replaced by the part of the rule up to a
nonterminal, if the rest can be empty. -/
private theorem Derives.replace_lhs (h : g.Derives u (α ++ r.lhs :: β)) (hr : r ∈ g.rules)
    (hsymbols : r.symbols = before ++ .nonterminal name :: rest) (hrest : g.Produces rest []) :
    g.Derives u (α ++ before ++ .nonterminal name :: β) := by
  have hlhs := (derives_lhs hr hsymbols (produces_nil_iff_derives.mp hrest)).append α β
  simp only [List.append_assoc, List.cons_append, List.nil_append] at hlhs
  rw [List.append_assoc]
  exact h.trans hlhs

private theorem StartsWith.endMark_mem (h : g.StartsWith .endMark α) : .endMark ∈ α := by
  induction h with
  | here _ α => exact List.mem_cons_self
  | @inside r _ _ _ ih => exact absurd ih r.endMark_not_mem_symbols
  | after _ _ ih => exact List.mem_cons_of_mem _ ih

theorem FollowedBy.isTerminal (h : g.FollowedBy name t) : t.isTerminal := by
  induction h with
  | start => rfl
  | first _ _ hstarts => exact hstarts.isTerminal
  | inherit _ _ _ _ ih => exact ih

/-- A terminal that can follow a nonterminal comes right after it in a string that some nonterminal
derives. -/
private theorem FollowedBy.exists_derives (h : g.FollowedBy name t) (ht : t ≠ .endMark) :
    ∃ B ∈ g.nonterminals, ∃ α β, g.Derives [.nonterminal B] (α ++ .nonterminal name :: t :: β) := by
  induction h with
  | start => exact absurd rfl ht
  | @first r before rest name t hr hsymbols hstarts =>
    obtain ⟨γ, hγ⟩ := hstarts.exists_derives
    exact ⟨r.head, head_mem_nonterminals hr, before, γ, derives_lhs hr hsymbols hγ⟩
  | inherit hr hsymbols hrest _ ih =>
    obtain ⟨B, hB, α, β, hderives⟩ := ih ht
    exact ⟨B, hB, _, β, hderives.replace_lhs hr hsymbols hrest⟩

private theorem FollowedBy.exists_derives_endMark (h : g.FollowedBy name t) (ht : t = .endMark) :
    ∃ α, g.Derives [g.startSymbol] (α ++ [.nonterminal name]) := by
  induction h with
  | start => exact ⟨[], .refl _⟩
  | @first r before rest name t hr hsymbols hstarts =>
    subst ht
    refine absurd ?_ r.endMark_not_mem_symbols
    rw [hsymbols]
    exact List.mem_append_right _ (List.mem_cons_of_mem _ hstarts.endMark_mem)
  | inherit hr hsymbols hrest _ ih =>
    obtain ⟨α, hderives⟩ := ih ht
    exact ⟨_, hderives.replace_lhs hr hsymbols hrest⟩

/-! ### What follows in a derivation can follow -/

/-- Each nonterminal of the string can be followed by whatever the symbols after it can begin with.
This is the invariant of derivations from the start and the end marker. -/
def Respects (g : Grammar) (u : List Symbol) : Prop :=
  ∀ α name γ t, u = α ++ .nonterminal name :: γ → g.StartsWith t γ → g.FollowedBy name t

theorem respects_singleton (g : Grammar) (X : Symbol) : g.Respects [X] := by
  intro α name γ t hu ht
  cases α with
  | nil =>
    obtain ⟨-, rfl⟩ := List.cons.inj hu
    cases ht
  | cons Y α => exact absurd (List.cons.inj hu).2 (by simp)

theorem respects_start (g : Grammar) : g.Respects [g.startSymbol, .endMark] := by
  intro α name γ t hu ht
  cases α with
  | nil =>
    obtain ⟨hname, rfl⟩ := List.cons.inj hu
    obtain rfl := Symbol.nonterminal.inj hname
    cases ht with
    | here => exact .start
    | after _ h => cases h
  | cons X α =>
    -- no nonterminal comes after the start
    have hmem : .nonterminal name ∈ [Symbol.endMark] := by
      rw [(List.cons.inj hu).2]
      exact List.mem_append_right _ List.mem_cons_self
    cases List.mem_singleton.mp hmem

/-- Steps add only neighbours that can follow. -/
theorem Respects.yields (h : g.Respects u) (hy : g.Yields u v) : g.Respects v := by
  intro α name γ t hv ht
  obtain @⟨p, s, r, hr⟩ := hy
  rw [List.append_assoc] at hv
  rcases append_eq_append_cons_iff.mp hv with ⟨m, rfl, rfl⟩ | ⟨m, -, hm⟩
  · -- in front of the rule: the symbols after it could begin in this way before the step
    rw [← List.append_assoc] at ht
    exact h α name _ t (by simp) (ht.of_yields (.replace m s hr))
  rcases append_eq_append_cons_iff.mp hm with ⟨m, hsymbols, rfl⟩ | ⟨m, -, rfl⟩
  · -- in the rule: the terminal comes from the rest of it, or from behind its head
    rcases ht.append_cases with ht | ⟨hrest, ht⟩
    · exact .first hr hsymbols ht
    · exact .inherit hr hsymbols hrest (h p _ s t rfl ht)
  · exact h (p ++ r.lhs :: m) name γ t (by simp) ht

theorem Respects.derives (h : g.Respects u) (hderives : g.Derives u v) : g.Respects v := by
  induction hderives with
  | refl => exact h
  | step hy _ ih => exact ih (h.yields hy)

/-! ### FOLLOW -/

/-- The set holds the terminals that come right after the nonterminal in a string that some
nonterminal of the grammar derives, the end marker if the start derives a string that ends with the
nonterminal, and nothing else. -/
structure IsFollow (g : Grammar) (name : String) (s : SymbolSet) : Prop where
  terminal_iff : ∀ a, .terminal a ∈ s ↔
    ∃ B ∈ g.nonterminals, ∃ α β,
      g.Derives [.nonterminal B] (α ++ .nonterminal name :: .terminal a :: β)
  endMark_iff : .endMark ∈ s ↔ ∃ α, g.Derives [g.startSymbol] (α ++ [.nonterminal name])
  not_epsilon : .epsilon ∉ s
  not_nonterminal : ∀ t ∈ s, t.isNonterminal = false

private theorem isFollow_followOf (g : Grammar) (name : String) :
    g.IsFollow name (g.firstFollow.followOf (.nonterminal name)) where
  terminal_iff a := by
    rw [mem_follow_iff]
    constructor
    · exact fun h => h.exists_derives nofun
    · rintro ⟨B, -, α, β, hderives⟩
      exact (g.respects_singleton _).derives hderives α name _ _ rfl (.here rfl β)
  endMark_iff := by
    rw [mem_follow_iff]
    constructor
    · exact fun h => h.exists_derives_endMark rfl
    · rintro ⟨α, hderives⟩
      have hmarked := hderives.append [] [.endMark]
      simp only [List.nil_append, List.append_assoc, List.cons_append] at hmarked
      exact g.respects_start.derives hmarked α name _ _ rfl (.here rfl [])
  not_epsilon h := by cases (mem_follow_iff.mp h).isTerminal
  not_nonterminal t ht := by
    have hterminal := (mem_follow_iff.mp ht).isTerminal
    cases t with
    | nonterminal name => cases hterminal
    | _ => rfl

/-- FOLLOW by derivations. The passes for FOLLOW come to an end by themselves. The table that they
lead to holds FOLLOW of every nonterminal, and nothing follows other symbols. -/
theorem isFollow_firstFollow (g : Grammar) :
    Settles (g.followPass g.firstSets)
        (.tabulate g.nonterminals fun name => if name = g.start then {.endMark} else ∅)
        g.firstFollow.follow ∧
      (∀ name, g.IsFollow name (g.firstFollow.followOf (.nonterminal name))) ∧
      ∀ X : Symbol, X.isNonterminal = false → g.firstFollow.followOf X = ∅ := by
  refine ⟨settles_saturate g.followPass_firstFollow, g.isFollow_followOf, fun X hX => ?_⟩
  cases X with
  | nonterminal name => cases hX
  | _ => rfl

end Grammar

end Recognizer

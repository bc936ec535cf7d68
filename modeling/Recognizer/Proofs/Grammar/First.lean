import Mathlib.Data.List.ProdSigma
import Recognizer.Grammar.FirstFollow
import Recognizer.Proofs.Grammar.Trees
import Recognizer.Proofs.Sorted.Facts

/-!
# FIRST sets

FIRST of a string of symbols holds `ε` if the string produces the empty string, and the terminals
that a string derived from it can begin with. The passes over the rules come to an end within their
bound, so the table is closed under them.

## Main results

* `Grammar.firstPass_firstSets`: the table of FIRST sets is a fixed point of the passes.
* `Grammar.epsilon_mem_firstOfSequence_iff`, `Grammar.mem_firstOfSequence_iff`,
  `Grammar.holds_firstSets_iff`: the members of FIRST.
-/

namespace Recognizer

open SortedMap (Holds)

namespace SetTable

variable {table : SetTable} {name : String} {t X : Symbol} {α : List Symbol}

theorem mem_setOf_iff : t ∈ table.setOf name ↔ table.Holds (name, some t) := by
  rw [setOf, SortedMap.holds_some_iff]
  cases table.get? name with
  | none => simp
  | some s => simp

theorem firstOfSequence_nil : table.firstOfSequence [] = {.epsilon} := rfl

theorem mem_firstOfSequence_cons :
    t ∈ table.firstOfSequence (X :: α) ↔
      (t ∈ table.first X ∧ (t = .epsilon → t ∈ table.firstOfSequence α)) ∨
        .epsilon ∈ table.first X ∧ t ∈ table.firstOfSequence α := by
  rw [firstOfSequence]
  by_cases h : .epsilon ∈ table.first X
  · simp only [h, if_true, SortedSet.mem_union, SortedSet.mem_erase, true_and]
    by_cases ht : t = .epsilon
    · simp [ht]
    · simp [ht]
  · simp only [h, if_false, false_and, or_false]
    constructor
    · intro ht
      exact ⟨ht, fun heq => absurd (heq ▸ ht) h⟩
    · exact And.left

theorem forall_mem_firstOfSequence {Q : Symbol → Prop} (hepsilon : Q .epsilon)
    (h : ∀ X ∈ α, ∀ t ∈ table.first X, Q t) : ∀ t ∈ table.firstOfSequence α, Q t := by
  induction α with
  | nil =>
    intro t ht
    rw [SortedSet.mem_singleton.mp ht]
    exact hepsilon
  | cons X α ih =>
    obtain ⟨hX, hα⟩ := List.forall_mem_cons.mp h
    intro t ht
    rcases mem_firstOfSequence_cons.mp ht with ⟨ht, -⟩ | ⟨-, ht⟩
    · exact hX t ht
    · exact ih hα t ht

/-- An empty alternative has the FIRST set of no symbols. -/
theorem firstOfSequence_symbols (table : SetTable) (r : Rule) :
    table.firstOfSequence r.symbols = table.firstOfSequence r.body := by
  rw [Rule.symbols]
  split
  · next h =>
    rw [Rule.body_of_isEpsilon h]
    refine SortedSet.ext fun t => ?_
    simp [mem_firstOfSequence_cons, firstOfSequence_nil, first]
  · rfl

end SetTable

namespace Grammar

variable {g : Grammar} {table : SetTable} {t : Symbol} {α : List Symbol} {name : String}

/-! ### Everything in the table is right -/

/-- The symbol can be in the FIRST set of the string: it is `ε` and the string produces the empty
string, or the string can begin with it. -/
def InFirst (g : Grammar) (α : List Symbol) (t : Symbol) : Prop :=
  (t = .epsilon ∧ g.Produces α []) ∨ (t ≠ .epsilon ∧ g.StartsWith t α)

theorem InFirst.cons {X : Symbol} (hX : g.InFirst [X] .epsilon) (h : g.InFirst α t) :
    g.InFirst (X :: α) t := by
  have hX : g.Produces [X] [] := by simpa [InFirst] using hX
  rcases h with ⟨ht, h⟩ | ⟨ht, h⟩
  · exact Or.inl ⟨ht, hX.append h⟩
  · exact Or.inr ⟨ht, .after hX h⟩

theorem StartsWith.append_right (h : g.StartsWith t α) (β : List Symbol) :
    g.StartsWith t (α ++ β) := by
  induction h with
  | here ht α => exact .here ht _
  | inside hr h α _ => exact .inside hr h _
  | after hX _ ih => exact .after hX ih

/-- The table holds only what its sets may hold. Every pass keeps this, whatever order the rules are
in. -/
def Sound (g : Grammar) (table : SetTable) : Prop :=
  ∀ name t, t ∈ table.setOf name → g.InFirst [.nonterminal name] t

theorem Sound.mem_firstOfSequence (h : g.Sound table) (hα : .epsilon ∉ α)
    (ht : t ∈ table.firstOfSequence α) : g.InFirst α t := by
  induction α with
  | nil =>
    rw [SetTable.firstOfSequence_nil, SortedSet.mem_singleton] at ht
    exact Or.inl ⟨ht, .nil⟩
  | cons X α ih =>
    obtain ⟨hX, hα⟩ := not_or.mp (mt List.mem_cons.mpr hα)
    have hfirst {t : Symbol} (ht : t ∈ table.first X) : g.InFirst [X] t := by
      cases X with
      | nonterminal name => exact h name t ht
      | epsilon => exact absurd rfl hX
      | terminal name =>
        obtain rfl := SortedSet.mem_singleton.mp ht
        exact Or.inr ⟨nofun, .here rfl _⟩
      | endMark =>
        obtain rfl := SortedSet.mem_singleton.mp ht
        exact Or.inr ⟨nofun, .here rfl _⟩
    rcases SetTable.mem_firstOfSequence_cons.mp ht with ⟨ht, hrest⟩ | ⟨hepsilon, ht⟩
    · by_cases hempty : t = .epsilon
      · exact (hempty ▸ hfirst ht).cons (ih hα (hrest hempty))
      · have hstarts := ((hfirst ht).resolve_left fun h => hempty h.1).2
        exact Or.inr ⟨hempty, hstarts.append_right α⟩
    · exact (hfirst hepsilon).cons (ih hα ht)

theorem InFirst.rule {r : Rule} (hr : r ∈ g.rules) (h : g.InFirst r.symbols t) :
    g.InFirst [r.lhs] t := by
  rcases h with ⟨ht, h⟩ | ⟨ht, h⟩
  · exact Or.inl ⟨ht, .rule hr h .nil⟩
  · exact Or.inr ⟨ht, .inside hr h []⟩

theorem holds_add {s : SymbolSet} {f : String × Option Symbol} :
    (table.add name s).Holds f ↔ table.Holds f ∨ f.1 = name ∧ ∀ x ∈ f.2, x ∈ s :=
  SortedMap.holds_insertWith

private theorem Sound.add {r : Rule} (h : g.Sound table) (hr : r ∈ g.rules) :
    g.Sound (table.add r.head (table.firstOfSequence r.body)) := by
  intro name t ht
  rcases holds_add.mp (SetTable.mem_setOf_iff.mp ht) with ht | ⟨hname, ht⟩
  · exact h name t (SetTable.mem_setOf_iff.mpr ht)
  · obtain rfl : name = r.head := hname
    have ht : t ∈ table.firstOfSequence r.symbols := by
      rw [SetTable.firstOfSequence_symbols]
      exact ht t rfl
    exact (h.mem_firstOfSequence r.epsilon_not_mem_symbols ht).rule hr

private theorem firstPass_induction {P : SetTable → Prop}
    (hadd : ∀ table, P table → ∀ r ∈ g.rules,
      P (table.add r.head (table.firstOfSequence r.body))) (h : P table) :
    P (g.firstPass table) := by
  rw [firstPass]
  exact List.foldlRecOn _ _ h hadd

private theorem holds_firstPass {f : String × Option Symbol} (h : Holds table f) :
    Holds (g.firstPass table) f :=
  firstPass_induction (P := fun table => Holds table f) (fun _ h _ _ => holds_add.mpr (Or.inl h)) h

/-! ### The table is closed -/

theorem mem_terminals {r : Rule} (hr : r ∈ g.rules) (h : .terminal name ∈ r.body) :
    name ∈ g.terminals := by
  rw [terminals, SortedSet.mem_ofList]
  exact List.mem_flatMap.mpr ⟨r, hr, List.mem_filterMap.mpr ⟨_, h, rfl⟩⟩

theorem head_mem_nonterminals {r : Rule} (hr : r ∈ g.rules) : r.head ∈ g.nonterminals := by
  rw [nonterminals, SortedSet.mem_ofList]
  exact List.mem_cons_of_mem _ (List.mem_flatMap.mpr ⟨r, hr, List.mem_cons_self⟩)

theorem start_mem_nonterminals (g : Grammar) : g.start ∈ g.nonterminals := by
  rw [nonterminals, SortedSet.mem_ofList]
  exact List.mem_cons_self

theorem mem_nonterminals_of_mem_body {r : Rule} (hr : r ∈ g.rules)
    (h : .nonterminal name ∈ r.body) : name ∈ g.nonterminals := by
  rw [nonterminals, SortedSet.mem_ofList]
  refine List.mem_cons_of_mem _ (List.mem_flatMap.mpr ⟨r, hr, List.mem_cons_of_mem _ ?_⟩)
  exact List.mem_filterMap.mpr ⟨_, h, rfl⟩

/-- The symbol is `ε` or a terminal of the grammar. Nothing else comes into a FIRST set of the
grammar's own symbols. -/
def IsFirstSymbol (g : Grammar) (t : Symbol) : Prop :=
  t = .epsilon ∨ ∃ name ∈ g.terminals, t = .terminal name

/-- The facts that a table can hold whose sets are made of terminals and one symbol more, which is
`ε` for FIRST and the end marker for FOLLOW. -/
def setFacts (g : Grammar) (extra : Symbol) : List (String × Option Symbol) :=
  g.nonterminals.toList ×ˢ
    (none :: some extra :: g.terminals.toList.map fun name => some (.terminal name))

theorem mem_setFacts {extra : Symbol} {f : String × Option Symbol} :
    f ∈ g.setFacts extra ↔ f.1 ∈ g.nonterminals ∧
      ∀ t ∈ f.2, t = extra ∨ ∃ name ∈ g.terminals, t = .terminal name := by
  obtain ⟨name, o⟩ := f
  rw [setFacts, List.mem_product]
  refine and_congr Iff.rfl ?_
  cases o with
  | none => simp
  | some t => simp [SortedSet.mem_def, eq_comm]

theorem length_setFacts_lt (h : ∀ name ∈ g.nonterminals, table.Holds (name, none))
    (extra : Symbol) :
    (g.setFacts extra).length < g.setCapacity + 1 + (SortedMap.facts table).length := by
  have hsub : (g.nonterminals.toList.map fun name => (name, (none : Option Symbol))) ⊆
      SortedMap.facts table := by
    intro f hf
    obtain ⟨name, hname, rfl⟩ := List.mem_map.mp hf
    exact SortedMap.mem_facts.mpr (h name hname)
  have hnodup := g.nonterminals.nodup_toList.map (Prod.mk_left_injective (none : Option Symbol))
  have hkeys := (hnodup.subperm hsub).length_le
  rw [List.length_map] at hkeys
  have hlength : (g.setFacts extra).length = g.nonterminals.size * (g.terminals.size + 2) := by
    rw [setFacts, List.length_product, List.length_cons, List.length_cons, List.length_map]
    rfl
  rw [hlength, setCapacity, Nat.mul_add, Nat.mul_add]
  change g.nonterminals.size ≤ _ at hkeys
  omega

private theorem isFirstSymbol_of_mem_first {r : Rule} {X : Symbol}
    (h : ∀ f, table.Holds f → f ∈ g.setFacts .epsilon) (hr : r ∈ g.rules) (hX : X ∈ r.body) :
    ∀ t ∈ table.first X, g.IsFirstSymbol t := by
  intro t ht
  cases X with
  | nonterminal name => exact (mem_setFacts.mp (h _ (SetTable.mem_setOf_iff.mp ht))).2 t rfl
  | epsilon => exact Or.inl (SortedSet.mem_singleton.mp ht)
  | terminal name =>
    exact Or.inr ⟨name, mem_terminals hr hX, SortedSet.mem_singleton.mp ht⟩
  | endMark => exact absurd hX r.wellFormed.2.2

private theorem setFacts_add {r : Rule} (h : ∀ f, table.Holds f → f ∈ g.setFacts .epsilon)
    (hr : r ∈ g.rules) (f : String × Option Symbol)
    (hf : (table.add r.head (table.firstOfSequence r.body)).Holds f) : f ∈ g.setFacts .epsilon := by
  rcases holds_add.mp hf with hf | ⟨hhead, hf⟩
  · exact h f hf
  · refine mem_setFacts.mpr ⟨?_, fun t ht => ?_⟩
    · rw [hhead]
      exact head_mem_nonterminals hr
    · exact SetTable.forall_mem_firstOfSequence (Or.inl rfl)
        (fun X hX => isFirstSymbol_of_mem_first h hr hX) t (hf t ht)

private theorem setFacts_firstPass (h : ∀ f, table.Holds f → f ∈ g.setFacts .epsilon) :
    ∀ f, Holds (g.firstPass table) f → f ∈ g.setFacts .epsilon :=
  firstPass_induction (P := fun table => ∀ f, Holds table f → f ∈ g.setFacts .epsilon)
    (fun _ h _ hr => setFacts_add h hr) h

/-- The table that the passes begin with. -/
private def noFirst (g : Grammar) : SetTable := .tabulate g.nonterminals fun _ => ∅

private theorem holds_noFirst {f : String × Option Symbol} :
    g.noFirst.Holds f ↔ f.1 ∈ g.nonterminals ∧ f.2 = none := by
  obtain ⟨name, o⟩ := f
  simp only [Holds, noFirst, SortedMap.get?_tabulate]
  by_cases hname : name ∈ g.nonterminals
  · cases o with
    | none => simp [hname]
    | some t => simp
  · simp [hname]

private theorem setFacts_noFirst : ∀ f, Holds g.noFirst f → f ∈ g.setFacts .epsilon := by
  intro f hf
  obtain ⟨hname, hnone⟩ := holds_noFirst.mp hf
  exact mem_setFacts.mpr ⟨hname, by simp [hnone]⟩

/-- The FIRST sets are a fixed point. A pass does not change the table any more, since the bound on
the passes exceeds the number of facts that can be added. -/
theorem firstPass_firstSets (g : Grammar) : g.firstPass g.firstSets = g.firstSets := by
  refine SortedMap.step_saturate_of_growing
    (P := fun table => ∀ f, table.Holds f → f ∈ g.setFacts .epsilon) (g.setFacts .epsilon)
    (fun _ => setFacts_firstPass) (fun _ h => h) (fun _ _ _ hf => holds_firstPass hf) _
    setFacts_noFirst ?_
  exact length_setFacts_lt (fun name hname => holds_noFirst.mpr ⟨hname, rfl⟩) _

private theorem setFacts_firstSets (g : Grammar) :
    ∀ f, Holds g.firstSets f → f ∈ g.setFacts .epsilon :=
  saturate_induction (P := fun table => ∀ f, Holds table f → f ∈ g.setFacts .epsilon)
    (fun _ => setFacts_firstPass) _ _ setFacts_noFirst

theorem isFirstSymbol_of_mem_firstOfSequence {r : Rule} (hr : r ∈ g.rules)
    (hα : ∀ X ∈ α, X ∈ r.body) : ∀ t ∈ g.firstSets.firstOfSequence α, g.IsFirstSymbol t :=
  SetTable.forall_mem_firstOfSequence (Or.inl rfl) fun X hX =>
    isFirstSymbol_of_mem_first (setFacts_firstSets g) hr (hα X hX)

/-- If adding one thing after the other changes nothing in the end, adding each of them changes
nothing, because nothing that is added is taken back. -/
theorem add_eq_self_of_foldl_eq_self {ρ : Type} {l : List ρ} {f : SetTable → ρ → SetTable}
    (hgrow : ∀ table x h, Holds table h → Holds (f table x) h)
    (hfixed : l.foldl f table = table) : ∀ x ∈ l, f table x = table := by
  have hfoldl (l : List ρ) (table : SetTable) {h : String × Option Symbol}
      (hh : table.Holds h) : (l.foldl f table).Holds h := by
    induction l generalizing table with
    | nil => exact hh
    | cons x l ih => exact ih _ (hgrow table x h hh)
  induction l with
  | nil => exact List.forall_mem_nil _
  | cons x l ih =>
    have hx : f table x = table := SortedMap.ext_holds fun h =>
      ⟨fun hh => hfixed ▸ hfoldl l _ hh, hgrow table x h⟩
    rw [List.foldl_cons, hx] at hfixed
    exact List.forall_mem_cons.mpr ⟨hx, ih hfixed⟩

/-- FIRST of a body is part of FIRST of its head. -/
theorem mem_setOf_head {r : Rule} (hr : r ∈ g.rules)
    (ht : t ∈ g.firstSets.firstOfSequence r.symbols) : t ∈ g.firstSets.setOf r.head := by
  have hadd := add_eq_self_of_foldl_eq_self
    (fun table r f hf => holds_add.mpr (Or.inl hf)) (firstPass_firstSets g) r hr
  rw [SetTable.mem_setOf_iff, ← hadd]
  refine holds_add.mpr (Or.inr ⟨rfl, fun x hx => ?_⟩)
  obtain rfl := Option.mem_some_iff.mp hx
  rwa [← SetTable.firstOfSequence_symbols]

/-! ### The members of FIRST -/

theorem sound_firstSets (g : Grammar) : g.Sound g.firstSets := by
  refine saturate_induction (fun table h => firstPass_induction (fun table h r => h.add) h) _ _ ?_
  intro name t ht
  have hnone := (holds_noFirst.mp (SetTable.mem_setOf_iff.mp ht)).2
  cases hnone

private theorem epsilon_mem_of_produces {w : List String} (h : g.Produces α w) (hw : w = []) :
    .epsilon ∈ g.firstSets.firstOfSequence α := by
  induction h with
  | nil => exact SortedSet.mem_singleton.mpr rfl
  | terminal name => cases hw
  | rule hr hu h ihu ih =>
    obtain ⟨rfl, rfl⟩ := List.append_eq_nil_iff.mp hw
    exact SetTable.mem_firstOfSequence_cons.mpr (Or.inr ⟨mem_setOf_head hr (ihu rfl), ih rfl⟩)

private theorem mem_firstOfSequence_of_startsWith (h : g.StartsWith t α) :
    t ∈ g.firstSets.firstOfSequence α := by
  have hne : t ≠ .epsilon := by
    rintro rfl
    exact absurd h.isTerminal Bool.false_ne_true
  refine (?_ : t ≠ .epsilon → _) hne
  induction h with
  | here ht α =>
    intro hne
    refine SetTable.mem_firstOfSequence_cons.mpr (Or.inl ⟨?_, fun h => absurd h hne⟩)
    cases t with
    | nonterminal name => cases ht
    | _ => exact SortedSet.mem_singleton.mpr rfl
  | inside hr h α ih =>
    intro hne
    exact SetTable.mem_firstOfSequence_cons.mpr
      (Or.inl ⟨mem_setOf_head hr (ih hne), fun h => absurd h hne⟩)
  | @after X α hX h ih =>
    intro hne
    have hepsilon := epsilon_mem_of_produces hX rfl
    rw [SetTable.mem_firstOfSequence_cons] at hepsilon
    exact SetTable.mem_firstOfSequence_cons.mpr
      (Or.inr ⟨hepsilon.elim And.left And.left, ih hne⟩)

/-- FIRST of a string holds `ε` if and only if the string produces the empty string. -/
theorem epsilon_mem_firstOfSequence_iff (hα : .epsilon ∉ α) :
    .epsilon ∈ g.firstSets.firstOfSequence α ↔ g.Produces α [] := by
  constructor
  · intro h
    exact ((g.sound_firstSets.mem_firstOfSequence hα h).resolve_right fun h => h.1 rfl).2
  · exact fun h => epsilon_mem_of_produces h rfl

/-- FIRST of a string holds a terminal if and only if the string can begin with it. -/
theorem mem_firstOfSequence_iff (hα : .epsilon ∉ α) (ht : t ≠ .epsilon) :
    t ∈ g.firstSets.firstOfSequence α ↔ g.StartsWith t α := by
  constructor
  · intro h
    exact ((g.sound_firstSets.mem_firstOfSequence hα h).resolve_left fun h => ht h.1).2
  · exact mem_firstOfSequence_of_startsWith

/-- The table has an entry for every nonterminal, with just the symbols that can be in it. -/
theorem holds_firstSets_iff {f : String × Option Symbol} : Holds g.firstSets f ↔
    f.1 ∈ g.nonterminals ∧ ∀ t ∈ f.2, g.InFirst [.nonterminal f.1] t := by
  obtain ⟨name, o⟩ := f
  constructor
  · intro hf
    refine ⟨(mem_setFacts.mp (setFacts_firstSets g _ hf)).1, fun t ht => ?_⟩
    obtain rfl : o = some t := ht
    exact g.sound_firstSets name t (SetTable.mem_setOf_iff.mpr hf)
  · rintro ⟨hname, ht⟩
    cases o with
    | none =>
      exact saturate_induction (P := fun table => Holds table (name, none))
        (fun table => holds_firstPass) _ _ (holds_noFirst.mpr ⟨hname, rfl⟩)
    | some t =>
      rw [← SetTable.mem_setOf_iff]
      have hmem : t ∈ g.firstSets.firstOfSequence [.nonterminal name] := by
        rcases ht t rfl with ⟨rfl, hempty⟩ | ⟨-, hstarts⟩
        · exact epsilon_mem_of_produces hempty rfl
        · exact mem_firstOfSequence_of_startsWith hstarts
      rcases SetTable.mem_firstOfSequence_cons.mp hmem with ⟨hfirst, -⟩ | ⟨hfirst, hnil⟩
      · exact hfirst
      · rwa [SortedSet.mem_singleton.mp hnil]

end Grammar

end Recognizer

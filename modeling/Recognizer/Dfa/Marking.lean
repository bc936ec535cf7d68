import Recognizer.Dfa.Basic
import Recognizer.Iteration.Saturate

/-!
# The table of marked pairs

Two states are distinct if just one of them is accepting, if their tags differ, or if a character
leads them to distinct states. All pairs of states are marked in a table, by a recursion along the
transitions: a pair is entered as its own acceptance and tags have it, then the pairs that the
characters lead to are marked, and the pair becomes distinct at the first of these that is. A pair
that is in the table already is not marked again, even if it is still being marked further up. So a
pair may be left equivalent because of a pair that turns out to be distinct later. In the end, the
table is swept until no equivalent pair leads to a distinct one.

## Main definitions

* `Marking`, `StatePair`, `PairTable`: markings of pairs of states.
* `Dfa.mark`, `Dfa.markAll`: the recursion, within a depth, and the marking of all pairs.
* `Dfa.sweep`, `Dfa.settle`: one sweep, and all of them.
* `Dfa.pairTable`: the table of all pairs.
-/

namespace Recognizer

/-- What is known of a pair of states. While pairs are still marked, a pair that is known as
equivalent may become distinct, but not the other way round. -/
inductive Marking
  | equivalent
  | distinct
  deriving DecidableEq, Repr

/-- A pair of states. Pairs are ordered by their first and then by their second state;
`StatePair.of` puts the smaller state first, so two states make one pair. -/
structure StatePair where
  first : StateId
  second : StateId
  deriving DecidableEq, Repr

namespace StatePair

/-- The pair of two states, the smaller one first. -/
def of (a b : StateId) : StatePair := if (compare a b).isLE then ⟨a, b⟩ else ⟨b, a⟩

instance : Ord StatePair := ⟨compareLex (compareOn first) (compareOn second)⟩

instance : Std.TransOrd StatePair :=
  inferInstanceAs (Std.TransCmp (compareLex (compareOn first) (compareOn second)))

instance : Std.LawfulEqOrd StatePair where
  eq_of_compare {p q} h := by
    obtain ⟨hfirst, hsecond⟩ := compareLex_eq_eq.mp h
    have hfirst : compare p.first q.first = .eq := hfirst
    have hsecond : compare p.second q.second = .eq := hsecond
    cases p
    cases q
    simp_all [Std.LawfulEqCmp.compare_eq_iff_eq]

end StatePair

/-- The markings of some pairs of states. -/
abbrev PairTable := SortedMap StatePair Marking

namespace PairTable

/-- The marking of two states. A state is equivalent to itself, and states whose pair is not in the
table are distinct. -/
def marking (table : PairTable) (a b : StateId) : Marking :=
  if a = b then .equivalent else (table.get? (.of a b)).getD .distinct

/-- The states are marked equivalent. -/
def IsEquivalent (table : PairTable) (a b : StateId) : Prop := table.marking a b = .equivalent

instance (table : PairTable) (a b : StateId) : Decidable (table.IsEquivalent a b) :=
  inferInstanceAs (Decidable (table.marking a b = .equivalent))

/-- The number of pairs that are marked equivalent. -/
def equivalentCount (table : PairTable) : Nat :=
  (table.values.filter fun m => m = .equivalent).length

end PairTable

namespace Dfa

/-- The marking of two states by their own acceptance and tags. -/
def initialMarking (d : Dfa) (a b : StateId) : Marking :=
  if (d.Accepting a ↔ d.Accepting b) ∧ d.tag? a = d.tag? b then .equivalent else .distinct

/-- The marking of two states by the states that some characters lead to, which are marked by
`mark`, up to the first that are distinct. Only then is the pair entered again, as distinct. -/
def markSuccessors (d : Dfa)
    (mark : PairTable → StateId → StateId → Option (Marking × PairTable)) (a b : StateId) :
    List Char → PairTable → Option (Marking × PairTable)
  | [], table => some (.equivalent, table)
  | c :: rest, table =>
    match mark table (d.step a c) (d.step b c) with
    | none => none
    | some (.distinct, table) => some (.distinct, table.insert (.of a b) .distinct)
    | some (.equivalent, table) => d.markSuccessors mark a b rest table

/-- The marking of two states, and the table with all pairs that have been marked on the way; none,
if the recursion goes deeper than allowed. The pair is entered before the recursion goes on, so it
is met in the table if it comes up again further down. -/
def mark (d : Dfa) : Nat → PairTable → StateId → StateId → Option (Marking × PairTable)
  | 0, _, _, _ => none
  | depth + 1, table, a, b =>
    if a = b then some (.equivalent, table)
    else
      match table.get? (.of a b) with
      | some marking => some (marking, table)
      | none =>
        let marking := d.initialMarking a b
        let entered := table.insert (.of a b) marking
        match marking with
        | .distinct => some (.distinct, entered)
        | .equivalent => d.markSuccessors (d.mark depth) a b d.alphabet.toList entered

/-- The pairs of states in a list, with the earlier state first. -/
def statePairs : List StateId → List (StateId × StateId)
  | [] => []
  | a :: rest => rest.map (fun b => (a, b)) ++ statePairs rest

/-- The table after the recursion for every pair of states, in order, each beginning with the table
of the one before; none, if some of it goes deeper than allowed. -/
def markAll (d : Dfa) (depth : Nat) : Option PairTable :=
  (statePairs d.states.toList).foldlM
    (fun table pair => Prod.snd <$> d.mark depth table pair.1 pair.2) ∅

/-- Some character leads the states of the pair to different states that are marked distinct. -/
def LeadsApart (d : Dfa) (table : PairTable) (pair : StatePair) : Prop :=
  ∃ c ∈ d.alphabet.toList, d.step pair.first c ≠ d.step pair.second c ∧
    table.get? (.of (d.step pair.first c) (d.step pair.second c)) = some .distinct

instance (d : Dfa) (table : PairTable) (pair : StatePair) : Decidable (d.LeadsApart table pair) :=
  List.decidableBEx _ _

/-- The table with all equivalent pairs marked distinct that lead to distinct ones. All pairs are
judged by the table as it was before the sweep. -/
def sweep (d : Dfa) (table : PairTable) : PairTable :=
  table.mapWithKey fun pair marking =>
    if marking = .equivalent ∧ d.LeadsApart table pair then .distinct else marking

/-- The table after all sweeps. Each but the last marks a pair. -/
def settle (d : Dfa) (table : PairTable) : PairTable := saturate d.sweep (table.size + 1) table

/-- The table of all pairs, if the recursion stays within the depth. -/
def pairTableWithin (d : Dfa) (depth : Nat) : Option PairTable := d.settle <$> d.markAll depth

/-- A depth that the recursion stays within: it goes deeper only at a pair that is not in the table.
-/
def depthBound (d : Dfa) : Nat := d.states.size * d.states.size + 1

/-- The table of all pairs of states, marked within `depthBound` and swept. For total automata the
recursion stays within this depth (`pairTableWithin_eq`), so the empty table never stands in for
it. -/
def pairTable (d : Dfa) : PairTable := (d.pairTableWithin d.depthBound).getD ∅

end Dfa

end Recognizer

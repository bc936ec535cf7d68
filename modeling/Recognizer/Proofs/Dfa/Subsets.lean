import Recognizer.Dfa.OfPositions
import Recognizer.Proofs.Dfa.StateNames
import Recognizer.Proofs.Dfa.Verdicts
import Recognizer.Proofs.Iteration.Termination
import Recognizer.Proofs.Sorted.Entries

/-!
# States as sets of leaves

The automaton of a position table reaches after a text the state that stands for a set of leaves:
those that can come next. This holds if leaves are told apart by their positions and only leaves
follow leaves, because then different sets have different names.

## Main definitions

* `PositionTable.Proper`: the tables of which this is said.
* `PositionTable.advance`, `PositionTable.after`: the leaves that come after a character, and after
  a text.

## Main results

* `Dfa.run_ofRows`: the state after a text stands for the leaves that come after the text.
* `Dfa.accepting_ofRows_iff`, `Dfa.tag?_ofRows`: what is said of this state.
* `Dfa.trapIsDead_ofRows`: nothing is accepted once the trap is reached.
* `Dfa.isTotal_ofRows`, `Dfa.hasFullRows_ofRows`: every character leads from every state to a state.
* `Dfa.isAccessible_ofRows`: texts lead to all states but the trap.
-/

namespace Recognizer

open Regex

namespace PositionTable

variable {table : PositionTable} {nodes start : NodeSet}

/-- The ordinal of a node among the leaves. -/
def position? (table : PositionTable) (n : Nat) : Option Nat := (table[n]?).bind Row.position

/-- All nodes of the set are leaves other than `ε`, which are the nodes that have a position. -/
def AllLeaves (table : PositionTable) (nodes : NodeSet) : Prop :=
  ∀ n ∈ nodes, (table.position? n).isSome

/-- Leaves are told apart by their positions, and only leaves follow. In such a table the name of a
state tells its set of leaves. -/
structure Proper (table : PositionTable) : Prop where
  position_inj : ∀ m n k, table.position? m = some k → table.position? n = some k → m = n
  follow_leaves : ∀ (n : Nat) row, table[n]? = some row → table.AllLeaves row.follow

/-- The leaves that can follow a leaf of the set with the character `c`, whether or not the table
has the character. -/
def advance (table : PositionTable) (nodes : NodeSet) (c : Char) : NodeSet :=
  .unionOf ((table.rowsOf nodes).filter (·.symbol = some c)) Row.follow

/-- The leaves that can come after a text. -/
def after (table : PositionTable) (nodes : NodeSet) (text : List Char) : NodeSet :=
  text.foldl table.advance nodes

/-! ### Sets of leaves -/

theorem mem_rowsOf {row : Row} : row ∈ table.rowsOf nodes ↔ ∃ n ∈ nodes, table[n]? = some row :=
  List.mem_filterMap

theorem mem_advance {c : Char} {m : Nat} :
    m ∈ table.advance nodes c ↔
      ∃ n ∈ nodes, ∃ row, table[n]? = some row ∧ row.symbol = some c ∧ m ∈ row.follow := by
  simp only [advance, SortedSet.mem_unionOf, List.mem_filter, decide_eq_true_eq, mem_rowsOf]
  constructor
  · rintro ⟨row, ⟨⟨n, hn, hrow⟩, hsymbol⟩, hm⟩
    exact ⟨n, hn, row, hrow, hsymbol, hm⟩
  · rintro ⟨n, hn, row, hrow, hsymbol, hm⟩
    exact ⟨row, ⟨⟨n, hn, hrow⟩, hsymbol⟩, hm⟩

theorem advance_empty (c : Char) : table.advance ∅ c = ∅ :=
  SortedSet.ext fun m => by simp [mem_advance]

theorem after_empty (text : List Char) : table.after ∅ text = ∅ := by
  induction text with
  | nil => rfl
  | cons c text ih =>
    rw [after, List.foldl_cons, advance_empty]
    exact ih

theorem after_append (text text' : List Char) :
    table.after nodes (text ++ text') = table.after (table.after nodes text) text' :=
  List.foldl_append

theorem Proper.advance_leaves (h : table.Proper) (nodes : NodeSet) (c : Char) :
    table.AllLeaves (table.advance nodes c) := fun m hm => by
  obtain ⟨n, -, row, hrow, -, hm⟩ := mem_advance.mp hm
  exact h.follow_leaves n row hrow m hm

theorem Proper.after_leaves (h : table.Proper) (hstart : table.AllLeaves start)
    (text : List Char) : table.AllLeaves (table.after start text) := by
  rcases List.eq_nil_or_concat text with rfl | ⟨text, c, rfl⟩
  · exact hstart
  · rw [List.concat_eq_append, after_append]
    exact h.advance_leaves _ c

theorem advance_of_not_mem_alphabet {c : Char} (h : c ∉ table.alphabet) :
    table.advance nodes c = ∅ := by
  refine SortedSet.ext fun m => ⟨fun hm => ?_, fun hm => absurd hm (SortedSet.not_mem_empty m)⟩
  obtain ⟨n, -, row, hrow, hsymbol, -⟩ := mem_advance.mp hm
  refine absurd (SortedSet.mem_ofList.mpr (List.mem_filterMap.mpr ⟨row, ?_, hsymbol⟩)) h
  exact Array.mem_toList_iff.mpr (Array.mem_of_getElem? hrow)

/-! ### Names -/

theorem mem_positions_rowsOf {k : Nat} :
    k ∈ (table.rowsOf nodes).filterMap Row.position ↔ ∃ n ∈ nodes, table.position? n = some k := by
  simp only [List.mem_filterMap, mem_rowsOf, position?, Option.bind_eq_some_iff]
  constructor
  · rintro ⟨row, ⟨n, hn, hrow⟩, hk⟩
    exact ⟨n, hn, row, hrow, hk⟩
  · rintro ⟨n, hn, row, hrow, hk⟩
    exact ⟨row, ⟨n, hn, hrow⟩, hk⟩

/-- Different sets of leaves have different names. -/
theorem Proper.stateId_inj (h : table.Proper) {s t : NodeSet} (hs : table.AllLeaves s)
    (ht : table.AllLeaves t) (heq : table.stateId s = table.stateId t) : s = t := by
  have hsub {s t : NodeSet} (hs : table.AllLeaves s)
      (heq : table.stateId s = table.stateId t) (n : Nat) (hn : n ∈ s) : n ∈ t := by
    obtain ⟨k, hk⟩ := Option.isSome_iff_exists.mp (hs n hn)
    have hmem := (StateId.ofPositions_inj.mp heq k).mp (mem_positions_rowsOf.mpr ⟨n, hn, hk⟩)
    obtain ⟨m, hm, hmk⟩ := mem_positions_rowsOf.mp hmem
    rwa [h.position_inj n m k hk hmk]
  exact SortedSet.ext fun n => ⟨hsub hs heq n, hsub ht heq.symm n⟩

theorem not_isFinal_empty : ¬ table.IsFinal ∅ := by
  rintro (hfinal | ⟨row, hrow, -⟩)
  · cases hfinal
  · cases hrow

theorem stateId_empty : table.stateId ∅ = .trap := rfl

/-! ### Moves -/

private theorem mem_foldl_moves (rows : List Row) (m : SortedMap Char NodeSet) (c : Char)
    (n : Nat) :
    n ∈ ((rows.foldl (fun m row =>
        match row.symbol with
        | none => m
        | some c => m.insertWith (· ∪ ·) c row.follow) m).get? c).getD ∅ ↔
      n ∈ (m.get? c).getD ∅ ∨ ∃ row ∈ rows, row.symbol = some c ∧ n ∈ row.follow := by
  induction rows generalizing m with
  | nil => simp
  | cons row rows ih =>
    rw [List.foldl_cons, ih, List.exists_mem_cons_iff]
    cases hsymbol : row.symbol with
    | none => simp
    | some d =>
      simp only [SortedMap.get?_insertWith, Option.some.injEq]
      by_cases hcd : c = d
      · subst hcd
        cases m.get? c with
        | none => simp
        | some old =>
          simp only [if_true, Option.elim_some, Option.getD_some, SortedSet.mem_union, true_and]
          tauto
      · simp [hcd, Ne.symm hcd]

theorem mem_moves {c : Char} {next : NodeSet} :
    (c, next) ∈ table.moves nodes ↔ next = table.advance nodes c ∧ next ≠ ∅ := by
  simp only [moves, List.mem_filter, SortedMap.mem_toList]
  generalize hfollow : (table.rowsOf nodes).foldl _ (∅ : SortedMap Char NodeSet) = follow
  have hget : (follow.get? c).getD ∅ = table.advance nodes c := by
    refine SortedSet.ext fun n => ?_
    rw [← hfollow]
    exact (mem_foldl_moves (table.rowsOf nodes) ∅ c n).trans (by simp [advance, and_assoc])
  have hempty (s : NodeSet) : (!s.isEmpty) = true ↔ s ≠ ∅ := by
    rw [Bool.not_eq_true', SortedSet.isEmpty, List.isEmpty_eq_false_iff, Ne, Ne, not_iff_not]
    exact ⟨fun h => SortedSet.toList_injective h, fun h => h ▸ rfl⟩
  rw [hempty, ← hget]
  cases follow.get? c with
  | none => simp
  | some s => simp [eq_comm (a := s)]

theorem nodup_map_fst_moves : ((table.moves nodes).map Prod.fst).Nodup :=
  (SortedMap.nodup_map_fst_toList _).sublist (List.filter_sublist.map _)

/-! ### The states that are found -/

/-- The states that the moves of a state lead to. These are the edges along which the search for
states goes. -/
def next (table : PositionTable) (state : Found) : List (Char × Found) :=
  (table.moves state.nodes).map fun move => (move.1, table.found move.2)

theorem edge_next_iff {s : NodeSet} {t : Found} :
    Edge table.next (table.found s) t ↔
      ∃ c, table.advance s c ≠ ∅ ∧ t = table.found (table.advance s c) := by
  simp only [Edge, next, List.mem_map, Prod.exists, Prod.mk.injEq]
  constructor
  · rintro ⟨c, _, next, hmove, rfl, rfl⟩
    obtain ⟨rfl, hne⟩ := mem_moves.mp hmove
    exact ⟨_, hne, rfl⟩
  · rintro ⟨c, hne, rfl⟩
    exact ⟨c, c, _, mem_moves.mpr ⟨rfl, hne⟩, rfl, rfl⟩

/-- A found state is named after its leaves. -/
def IsFound (table : PositionTable) (state : Found) : Prop :=
  state = table.found state.nodes ∧ table.AllLeaves state.nodes

theorem Proper.eq_of_id_eq (h : table.Proper) {a b : Found} (ha : table.IsFound a)
    (hb : table.IsFound b) (hid : a.id = b.id) : a = b := by
  obtain ⟨ha, haleaves⟩ := ha
  obtain ⟨hb, hbleaves⟩ := hb
  rw [ha, hb] at hid
  rw [ha, hb, h.stateId_inj haleaves hbleaves hid]

private theorem Proper.isFound_of_edge (h : table.Proper) {a b : Found} (ha : table.IsFound a)
    (hab : Edge table.next a b) : table.IsFound b := by
  rw [ha.1, edge_next_iff] at hab
  obtain ⟨c, -, rfl⟩ := hab
  exact ⟨rfl, h.advance_leaves _ c⟩

private theorem exists_ids (table : PositionTable) : ∃ ids : List StateId,
    ids.length ≤ Nat.pow 2 table.size ∧ ∀ state, table.IsFound state → state.id ∈ ids := by
  obtain ⟨ids, hlength, hids⟩ := exists_keys (P := table.IsFound) Found.id
    (List.range table.size) (fun state n => n ∈ state.nodes) (by
      rintro a b ⟨ha, haleaves⟩ ⟨hb, hbleaves⟩ hab
      have hlt {s : NodeSet} (hs : table.AllLeaves s) (n : Nat) (hn : n ∈ s) :
          n ∈ List.range table.size := by
        obtain ⟨k, hk⟩ := Option.isSome_iff_exists.mp (hs n hn)
        obtain ⟨row, hrow, -⟩ := Option.bind_eq_some_iff.mp hk
        exact List.mem_range.mpr (Array.getElem?_eq_some_iff.mp hrow).1
      have hnodes : a.nodes = b.nodes := SortedSet.ext fun n =>
        ⟨fun hn => (hab n (hlt haleaves n hn)).mp hn, fun hn => (hab n (hlt hbleaves n hn)).mpr hn⟩
      rw [ha, hb, hnodes])
  exact ⟨ids, by simpa using hlength, hids⟩

/-- The bound on the exploration is large enough. -/
theorem Proper.reached_explored (h : table.Proper) (hstart : table.AllLeaves start) :
    Explored Found.id table.next (table.found start) (table.reached start) := by
  obtain ⟨ids, hlength, hids⟩ := table.exists_ids
  exact breadthFirst_explored ⟨rfl, hstart⟩ (fun _ _ => h.isFound_of_edge) hids hlength

/-- The search for states ends. The states are those that a queue of states leads to, and the queue
runs empty. -/
theorem Proper.drains_reached (h : table.Proper) (hstart : table.AllLeaves start) :
    Drains Found.id table.next {table.stateId start} [table.found start] (table.reached start) := by
  obtain ⟨ids, hlength, hids⟩ := table.exists_ids
  have hfound : table.IsFound (table.found start) := ⟨rfl, hstart⟩
  exact drains_breadthFirst hfound (fun _ _ => h.isFound_of_edge) hids hlength

theorem Proper.isFound_of_reaches (h : table.Proper) (hstart : table.AllLeaves start)
    {state : Found} (hstate : Reaches table.next (table.found start) state) :
    table.IsFound state := by
  induction hstate with
  | refl => exact ⟨rfl, hstart⟩
  | tail _ hedge ih => exact h.isFound_of_edge ih hedge

/-- Every state that is reached is found: no other one has its name. -/
theorem Proper.mem_reached_of_reaches (h : table.Proper) (hstart : table.AllLeaves start)
    {state : Found} (hstate : Reaches table.next (table.found start) state) :
    (state, table.next state) ∈ table.reached start := by
  refine (h.reached_explored hstart).mem_of_reaches (fun a b ha hb => ?_) hstate
  exact h.eq_of_id_eq (h.isFound_of_reaches hstart ha) (h.isFound_of_reaches hstart hb)

/-- Every state found stands for the leaves that come after some text. The text is put together of
the characters on the way to the state. -/
theorem Proper.exists_after (h : table.Proper) (hstart : table.AllLeaves start)
    {e : Found × List (Char × Found)} (he : e ∈ table.reached start) :
    ∃ text, e.1 = table.found (table.after start text) := by
  have hreach := (h.reached_explored hstart).reached e he
  generalize e.1 = state at hreach
  induction hreach with
  | refl => exact ⟨[], rfl⟩
  | @tail s t _ hedge ih =>
    obtain ⟨text, rfl⟩ := ih
    obtain ⟨c, -, rfl⟩ := edge_next_iff.mp hedge
    exact ⟨text ++ [c], by rw [after_append]; rfl⟩

theorem reaches_after (text : List Char) (hne : table.after start text ≠ ∅) :
    Reaches table.next (table.found start) (table.found (table.after start text)) := by
  induction text using List.reverseRecOn with
  | nil => exact .refl
  | append_singleton text c ih =>
    rw [after_append] at hne ⊢
    have hbefore : table.after start text ≠ ∅ := fun hempty => hne (by rw [hempty, after_empty])
    exact (ih hbefore).tail (edge_next_iff.mpr ⟨c, hne, rfl⟩)

/-- The state after every text is found, unless no leaf comes after it. -/
theorem Proper.after_mem_reached (h : table.Proper) (hstart : table.AllLeaves start)
    (text : List Char) (hne : table.after start text ≠ ∅) :
    (table.found (table.after start text), table.next (table.found (table.after start text))) ∈
      table.reached start :=
  h.mem_reached_of_reaches hstart (reaches_after text hne)

end PositionTable

/-! ### The automaton -/

namespace Dfa

open PositionTable

section OfRows

variable {rows : List Row} {root : Row} {table : PositionTable}

/-- The transitions of a state with the given moves, as `Dfa.ofRows` makes them. -/
private def transitions (table : PositionTable) (moves : List (Char × Found)) :
    SortedMap Char StateId :=
  .tabulate table.alphabet fun c =>
    ((SortedMap.ofList (moves.map fun move => (move.1, move.2.id))).get? c).getD .trap

private theorem target_transitions (s : NodeSet) (c : Char) :
    ((transitions table (table.next (table.found s))).get? c).getD .trap =
      table.stateId (table.advance s c) := by
  rw [transitions, SortedMap.get?_tabulate]
  by_cases hc : c ∈ table.alphabet
  swap
  · rw [if_neg hc, advance_of_not_mem_alphabet hc, stateId_empty]
    rfl
  rw [if_pos hc, Option.getD_some]
  have hnodup : (((table.next (table.found s)).map fun move => (move.1, move.2.id)).map
      Prod.fst).Nodup := by
    rw [next, List.map_map, List.map_map]
    exact nodup_map_fst_moves
  by_cases hne : table.advance s c = ∅
  · rw [hne, stateId_empty]
    cases hget : (SortedMap.ofList ((table.next (table.found s)).map fun move =>
      (move.1, move.2.id))).get? c with
    | none => rfl
    | some id =>
      obtain ⟨_, hnext, heq⟩ := List.mem_map.mp (SortedMap.mem_of_get?_ofList hget)
      obtain ⟨⟨d, nodes⟩, hmove, rfl⟩ := List.mem_map.mp hnext
      obtain ⟨rfl, -⟩ := Prod.mk.inj heq
      obtain ⟨rfl, hne'⟩ := mem_moves.mp hmove
      exact absurd hne hne'
  · have hmove : (c, table.found (table.advance s c)) ∈ table.next (table.found s) :=
      List.mem_map.mpr ⟨_, mem_moves.mpr ⟨rfl, hne⟩, rfl⟩
    rw [(SortedMap.get?_ofList_eq_some_iff hnodup).mpr (List.mem_map.mpr ⟨_, hmove, rfl⟩)]
    rfl

private theorem ofRows_eq (htable : rows.toArray = table) (hroot : rows.getLast? = some root) :
    let reached := table.reached root.first
    ofRows rows =
      { initial := table.stateId root.first
        trap := .trap
        alphabet := table.alphabet
        rows := (SortedMap.ofList (reached.map fun state =>
          (state.1.id, transitions table state.2))).insert .trap (transitions table [])
        accepting := .ofList (((reached.map Prod.fst).filter fun state =>
          table.IsFinal state.nodes).map (·.id))
        tags := .ofList ((reached.map Prod.fst).filterMap fun state =>
          (table.bestTag? state.nodes).map fun tag => (state.id, tag)) } := by
  have hne : rows.isEmpty = false := by
    cases rows with
    | nil => cases hroot
    | cons => rfl
  subst htable
  simp only [ofRows, hroot, Option.map_some, Option.getD_some, hne, Bool.false_eq_true, if_false]
  rfl

variable (htable : rows.toArray = table) (hroot : rows.getLast? = some root)

theorem trap_ofRows (rows : List Row) : (ofRows rows).trap = .trap := rfl

include htable hroot

theorem initial_ofRows : (ofRows rows).initial = table.stateId root.first := by
  rw [ofRows_eq htable hroot]

private theorem step_trap_ofRows (c : Char) : (ofRows rows).step .trap c = .trap := by
  rw [step, trap_ofRows, ofRows_eq htable hroot]
  simp only [SortedMap.get?_insert, if_true, Option.bind_some]
  have htarget : ((transitions table (table.next (table.found ∅))).get? c).getD .trap =
      table.stateId (table.advance ∅ c) := target_transitions ∅ c
  rw [advance_empty] at htarget
  exact htarget

/-- The states are those that have been found, and the trap. -/
theorem mem_states_ofRows {s : StateId} :
    s ∈ (ofRows rows).states ↔ s = .trap ∨ ∃ e ∈ table.reached root.first, e.1.id = s := by
  rw [states, SortedMap.mem_keys, ofRows_eq htable hroot]
  simp only [SortedMap.get?_insert]
  by_cases htrap : s = .trap
  · simp [htrap]
  · rw [if_neg htrap, or_iff_right htrap]
    constructor
    · intro h
      obtain ⟨row, hrow⟩ := Option.isSome_iff_exists.mp h
      obtain ⟨e, he, heq⟩ := List.mem_map.mp (SortedMap.mem_of_get?_ofList hrow)
      exact ⟨e, he, congrArg Prod.fst heq⟩
    · rintro ⟨e, he, rfl⟩
      exact SortedMap.isSome_get?_ofList (List.mem_map.mpr ⟨e, he, rfl⟩)

theorem hasFullRows_ofRows : (ofRows rows).HasFullRows := by
  intro s row hrow
  rw [ofRows_eq htable hroot] at hrow ⊢
  rw [SortedMap.get?_insert] at hrow
  split at hrow
  · rw [← Option.some.inj hrow]
    exact SortedMap.keys_tabulate _ _
  · obtain ⟨state, -, heq⟩ := List.mem_map.mp (SortedMap.mem_of_get?_ofList hrow)
    rw [← (Prod.mk.inj heq).2]
    exact SortedMap.keys_tabulate _ _

/-- Only accepting states have a tag. -/
theorem accepting_of_tag?_ofRows {s : StateId} {tag : ActionTag}
    (htag : (ofRows rows).tag? s = some tag) : (ofRows rows).Accepting s := by
  rw [tag?, ofRows_eq htable hroot] at htag
  obtain ⟨state, hstate, hsome⟩ :=
    List.mem_filterMap.mp (SortedMap.mem_of_get?_ofList htag)
  obtain ⟨best, hbest, heq⟩ := Option.map_eq_some_iff.mp hsome
  obtain ⟨rfl, -⟩ := Prod.mk.inj heq
  rw [Accepting, ofRows_eq htable hroot]
  refine SortedSet.mem_ofList.mpr (List.mem_map.mpr ⟨state, List.mem_filter.mpr ⟨hstate, ?_⟩, rfl⟩)
  exact decide_eq_true (Or.inl (Option.isSome_of_eq_some hbest))

variable (hproper : table.Proper) (hleaves : table.AllLeaves root.first)

include hproper hleaves

private theorem step_ofRows (text : List Char) (c : Char) :
    (ofRows rows).step (table.stateId (table.after root.first text)) c =
      table.stateId (table.after root.first (text ++ [c])) := by
  have hexplored := hproper.reached_explored hleaves
  rw [step, trap_ofRows, ofRows_eq htable hroot, after_append]
  change _ = table.stateId (table.advance (table.after root.first text) c)
  have hset := hproper.after_leaves hleaves text
  have hmem := hproper.after_mem_reached hleaves text
  generalize table.after root.first text = s at *
  simp only [SortedMap.get?_insert]
  split
  · next htrap =>
    obtain rfl : s = ∅ := hproper.stateId_inj hset (by simp [AllLeaves]) htrap
    exact target_transitions ∅ c
  · next htrap =>
    have hrow : (SortedMap.ofList ((table.reached root.first).map fun state =>
        (state.1.id, transitions table state.2))).get? (table.stateId s) =
          some (transitions table (table.next (table.found s))) :=
      (SortedMap.get?_ofList_eq_some_iff (by
        rw [List.map_map]
        exact hexplored.nodup)).mpr (List.mem_map.mpr ⟨_, hmem fun h => htrap (h ▸ rfl), rfl⟩)
    rw [hrow]
    exact target_transitions s c

/-- States stand for sets of leaves. The state after a text is the one that is named after the
leaves which can come after the text. -/
theorem run_ofRows (text : List Char) :
    (ofRows rows).run (ofRows rows).initial text =
      table.stateId (table.after root.first text) := by
  induction text using List.reverseRecOn with
  | nil => exact initial_ofRows htable hroot
  | append_singleton text c ih =>
    rw [run, List.foldl_append]
    change (ofRows rows).step ((ofRows rows).run (ofRows rows).initial text) c = _
    rw [ih, step_ofRows htable hroot hproper hleaves]

/-- The state after a text is accepting if the set of leaves is final. -/
theorem accepting_ofRows_iff (text : List Char) :
    (ofRows rows).Accepting (table.stateId (table.after root.first text)) ↔
      table.IsFinal (table.after root.first text) := by
  rw [Accepting, ofRows_eq htable hroot]
  simp only [SortedSet.mem_ofList, List.mem_map, List.mem_filter, decide_eq_true_eq]
  constructor
  · rintro ⟨_, ⟨⟨e, he, rfl⟩, hfinal⟩, hid⟩
    obtain ⟨text', htext'⟩ := hproper.exists_after hleaves he
    rw [htext'] at hid hfinal
    rwa [← hproper.stateId_inj (hproper.after_leaves hleaves text')
      (hproper.after_leaves hleaves text) hid]
  · intro hfinal
    have hne : table.after root.first text ≠ ∅ := fun hempty =>
      not_isFinal_empty (hempty ▸ hfinal)
    exact ⟨_, ⟨⟨_, hproper.after_mem_reached hleaves text hne, rfl⟩, hfinal⟩, rfl⟩

/-- The state after a text has the best tag of its leaves. -/
theorem tag?_ofRows (text : List Char) :
    (ofRows rows).tag? (table.stateId (table.after root.first text)) =
      table.bestTag? (table.after root.first text) := by
  rw [tag?, ofRows_eq htable hroot]
  have hnodup : (((table.reached root.first).map Prod.fst).filterMap fun state =>
      (table.bestTag? state.nodes).map fun tag => (state.id, tag)).Pairwise
        fun a b => a.1 ≠ b.1 := by
    rw [List.pairwise_filterMap, List.pairwise_map]
    have hids := (hproper.reached_explored hleaves).nodup
    rw [List.nodup_iff_pairwise_ne, List.pairwise_map] at hids
    refine hids.imp fun hne a ha b hb => ?_
    obtain ⟨_, -, rfl⟩ := Option.map_eq_some_iff.mp ha
    obtain ⟨_, -, rfl⟩ := Option.map_eq_some_iff.mp hb
    exact hne
  refine Option.ext fun tag => ?_
  rw [SortedMap.get?_ofList_eq_some_iff (by
    rw [List.nodup_iff_pairwise_ne, List.pairwise_map]; exact hnodup), List.mem_filterMap]
  simp only [List.mem_map, Option.map_eq_some_iff, Prod.mk.injEq]
  constructor
  · rintro ⟨_, ⟨e, he, rfl⟩, _, htag, hid, rfl⟩
    obtain ⟨text', htext'⟩ := hproper.exists_after hleaves he
    rw [htext'] at hid htag
    rwa [← hproper.stateId_inj (hproper.after_leaves hleaves text')
      (hproper.after_leaves hleaves text) hid]
  · intro htag
    have hne : table.after root.first text ≠ ∅ := fun hempty => by
      rw [hempty] at htag
      cases htag
    exact ⟨_, ⟨_, hproper.after_mem_reached hleaves text hne, rfl⟩, tag, htag, rfl, rfl⟩

/-- Nothing is accepted once the trap is reached. -/
theorem trapIsDead_ofRows : (ofRows rows).TrapIsDead := fun text => by
  have hrun : (ofRows rows).run .trap text = .trap := by
    induction text with
    | nil => rfl
    | cons c text ih =>
      rw [run_cons, step_trap_ofRows htable hroot]
      exact ih
  rw [trap_ofRows, hrun]
  rw [Accepting, ofRows_eq htable hroot]
  simp only [SortedSet.mem_ofList, List.mem_map, List.mem_filter, decide_eq_true_eq]
  rintro ⟨_, ⟨⟨e, he, rfl⟩, hfinal⟩, hid⟩
  obtain ⟨text', htext'⟩ := hproper.exists_after hleaves he
  rw [htext'] at hid hfinal
  have hempty : table.after root.first text' = ∅ :=
    hproper.stateId_inj (hproper.after_leaves hleaves text') (by simp [AllLeaves]) hid
  exact not_isFinal_empty (hempty ▸ hfinal)

private theorem exists_after_of_mem_states {s : StateId} (hs : s ∈ (ofRows rows).states) :
    s = .trap ∨ ∃ text, s = table.stateId (table.after root.first text) := by
  refine ((mem_states_ofRows htable hroot).mp hs).imp_right ?_
  rintro ⟨e, he, rfl⟩
  obtain ⟨text, htext⟩ := hproper.exists_after hleaves he
  exact ⟨text, by rw [htext]; rfl⟩

private theorem stateId_after_mem_states (text : List Char) :
    table.stateId (table.after root.first text) ∈ (ofRows rows).states := by
  rw [mem_states_ofRows htable hroot]
  by_cases hne : table.after root.first text = ∅
  · exact Or.inl (by rw [hne, stateId_empty])
  · exact Or.inr ⟨_, hproper.after_mem_reached hleaves text hne, rfl⟩

/-- Texts lead to all states but the trap. -/
theorem isAccessible_ofRows : (ofRows rows).IsAccessible := fun s hs => by
  refine (exists_after_of_mem_states htable hroot hproper hleaves hs).imp_right ?_
  rintro ⟨text, rfl⟩
  exact ⟨text, (run_ofRows htable hroot hproper hleaves text).symm⟩

theorem isTotal_ofRows : (ofRows rows).IsTotal where
  initial_mem := by
    rw [initial_ofRows htable hroot]
    exact stateId_after_mem_states htable hroot hproper hleaves []
  trap_mem := (mem_states_ofRows htable hroot).mpr (Or.inl rfl)
  step_mem s hs c := by
    rcases exists_after_of_mem_states htable hroot hproper hleaves hs with rfl | ⟨text, rfl⟩
    · rw [step_trap_ofRows htable hroot]
      exact hs
    · rw [step_ofRows htable hroot hproper hleaves]
      exact stateId_after_mem_states htable hroot hproper hleaves _
  step_of_not_mem s hs c hc := by
    rcases exists_after_of_mem_states htable hroot hproper hleaves hs with rfl | ⟨text, rfl⟩
    · exact step_trap_ofRows htable hroot c
    · have hc : c ∉ table.alphabet := by
        rw [ofRows_eq htable hroot] at hc
        exact hc
      rw [step_ofRows htable hroot hproper hleaves, after_append]
      exact congrArg table.stateId (advance_of_not_mem_alphabet hc)
  mem_of_accepting s hs := by
    rw [Accepting, ofRows_eq htable hroot] at hs
    simp only [SortedSet.mem_ofList, List.mem_map, List.mem_filter] at hs
    obtain ⟨_, ⟨⟨e, he, rfl⟩, -⟩, rfl⟩ := hs
    exact (mem_states_ofRows htable hroot).mpr (Or.inr ⟨e, he, rfl⟩)
  mem_of_tag? s tag htag := by
    rw [tag?, ofRows_eq htable hroot] at htag
    have hmem := SortedMap.mem_of_get?_ofList htag
    simp only [List.mem_filterMap, List.mem_map] at hmem
    obtain ⟨_, ⟨e, he, rfl⟩, hid⟩ := hmem
    obtain ⟨_, -, heq⟩ := Option.map_eq_some_iff.mp hid
    exact (mem_states_ofRows htable hroot).mpr (Or.inr ⟨e, he, congrArg Prod.fst heq⟩)

end OfRows

end Dfa

end Recognizer

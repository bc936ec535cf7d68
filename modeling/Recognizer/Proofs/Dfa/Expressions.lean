import Recognizer.Proofs.Dfa.Runs
import Recognizer.Proofs.Dfa.Subsets
import Recognizer.Proofs.Regex.PositionTable
import Recognizer.Proofs.Regex.Priority

/-!
# The automaton of an expression

The position table of an expression tells its leaves apart, and the leaves that can come after a
text are those that come after it in a string of the augmented tree: if a string can be left at some
leaf, every other string through this leaf can be left there in the same way.

## Main definitions

* `Expr.Offers`: the leaf comes after the text in a string of the augmented tree.

## Main results

* `Expr.mem_after_iff`: the leaves that can come after a text.
* `Dfa.exists_leaves_run_ofExpr`: the state that a text leads to.
* `Dfa.drains_ofExpr`: the search for states ends by itself.
* `Dfa.accepting_ofExpr_iff`, `Dfa.tag?_ofExpr_eq_some_iff`: the states of the automaton of an
  expression.
* `Dfa.trapIsDead_ofExpr`, `Dfa.isTotal_ofExpr`, `Dfa.hasFullRows_ofExpr`: nothing is accepted once
  the trap is reached, and every character leads from every state to a state.
* `Dfa.isAccessible_ofExpr`: texts lead to all states but the trap.
* `Dfa.mem_alphabet_ofExpr_iff`: the characters of the automaton.
-/

namespace Recognizer.Regex.Expr

variable {e : Expr Leaf}

/-- A text as a string of leaves of an augmented tree. -/
def marks (text : List Char) : List Mark := text.map fun c => .leaf (.lit c)

/-- The leaf comes after the text in a string of the augmented tree: the string begins with the
literals of the text, and the leaf is next. So an action in front of it is not passed over. -/
def Offers (e : Expr Leaf) (text : List Char) (a : Mark) : Prop :=
  ∃ v, e.augmented.Spells (marks text ++ a :: v)

/-! ### The table of an expression -/

/-- The leaves that the expression can begin with, the end marker among them if it can be empty. -/
private def start (e : Expr Leaf) : NodeSet := (e.augmented.positions 0 0).first

private theorem getLast?_positionTable (e : Expr Leaf) :
    ∃ root, e.positionTable.getLast? = some root ∧ root.first = e.start :=
  ⟨_, List.getLast?_concat, rfl⟩

private theorem table_getElem? (e : Expr Leaf) (n : Nat) :
    e.positionTable.toArray[n]? = ((e.augmented.positions 0 0).rows ∅)[n]? :=
  List.getElem?_toArray

private theorem exists_row {x : Nat × Mark} (hx : x ∈ (e.augmented.numbered 0).leaves) :
    ∃ position next, e.positionTable.toArray[x.1]? = some (.ofLeaf x.1 position next x.2) ∧
      ∀ m, m ∈ next ↔ ∃ b, (e.augmented.numbered 0).Adjacent x (m, b) := by
  obtain ⟨_, hrow, position, next, rfl, hnext⟩ := rows_getElem?_leaf 0 ∅ hx
  exact ⟨position, next, (table_getElem? e x.1).trans hrow, fun m => by simp [hnext]⟩

private theorem position?_isSome {x : Nat × Mark} (hx : x ∈ (e.augmented.numbered 0).leaves) :
    (PositionTable.position? e.positionTable.toArray x.1).isSome := by
  obtain ⟨position, next, hrow, -⟩ := exists_row hx
  rw [PositionTable.position?, hrow, Option.bind_some, position_ofLeaf, Option.isSome_some]

private theorem allLeaves_start (e : Expr Leaf) :
    PositionTable.AllLeaves e.positionTable.toArray e.start := fun n hn => by
  obtain ⟨a, ha⟩ := (mem_first_positions_iff 0 0 e.augmented n).mp hn
  exact position?_isSome ha.mem_leaves

theorem exists_root_positionTable (e : Expr Leaf) :
    ∃ root, e.positionTable.getLast? = some root ∧
      PositionTable.AllLeaves e.positionTable.toArray root.first := by
  obtain ⟨root, hroot, hstart⟩ := e.getLast?_positionTable
  exact ⟨root, hroot, hstart ▸ e.allLeaves_start⟩

/-- The table of an expression tells leaves apart by their positions, and only leaves follow. -/
theorem proper_positionTable (e : Expr Leaf) :
    PositionTable.Proper e.positionTable.toArray where
  position_inj m n k hm hn := by
    obtain ⟨row, hrow, hk⟩ := Option.bind_eq_some_iff.mp hm
    obtain ⟨row', hrow', hk'⟩ := Option.bind_eq_some_iff.mp hn
    rw [table_getElem?] at hrow hrow'
    have hnodup : (((e.augmented.positions 0 0).rows ∅).filterMap Row.position).Nodup := by
      rw [filterMap_position_rows]
      exact List.nodup_range'
    rw [List.nodup_iff_pairwise_ne, List.pairwise_filterMap, List.pairwise_iff_getElem] at hnodup
    obtain ⟨hm, rfl⟩ := List.getElem?_eq_some_iff.mp hrow
    obtain ⟨hn, rfl⟩ := List.getElem?_eq_some_iff.mp hrow'
    by_contra hne
    rcases Nat.lt_or_gt_of_ne hne with hlt | hlt
    · exact hnodup m n hm hn hlt k hk k hk' rfl
    · exact hnodup n m hn hm hlt k hk' k hk rfl
  follow_leaves n row hrow m hm := by
    rw [table_getElem?] at hrow
    cases hposition : row.position with
    | none =>
      rw [follow_eq_empty (List.mem_of_getElem? hrow) hposition] at hm
      exact absurd hm (SortedSet.not_mem_empty m)
    | some k =>
      obtain ⟨a, ha⟩ := mem_leaves_of_position hrow (by rw [hposition, Option.isSome_some])
      rw [Nat.zero_add] at ha
      obtain ⟨position, next, hrow', hnext⟩ := exists_row ha
      rw [table_getElem?, hrow, Option.some.injEq] at hrow'
      rw [hrow', follow_ofLeaf] at hm
      obtain ⟨b, hb⟩ := (hnext m).mp hm
      exact position?_isSome hb.mem_leaves.2

/-! ### The leaves after a text -/

/-- The leaves after a text. The leaves that the moves of the table lead to along a text are those
that come after the text in some string of the augmented tree. -/
theorem mem_after_iff (text : List Char) (n : Nat) :
    n ∈ PositionTable.after e.positionTable.toArray e.start text ↔
      ∃ u a v, (e.augmented.numbered 0).Spells (u ++ (n, a) :: v) ∧
        u.map Prod.snd = marks text := by
  have hleaves := (nodup_leaves_numbered 0 e.augmented).of_map Prod.fst
  induction text using List.reverseRecOn generalizing n with
  | nil =>
    refine (mem_first_positions_iff 0 0 e.augmented n).trans ⟨?_, ?_⟩
    · rintro ⟨a, v, h⟩
      exact ⟨[], a, v, h, rfl⟩
    · rintro ⟨u, a, v, h, hu⟩
      obtain rfl := List.map_eq_nil_iff.mp hu
      exact ⟨a, v, h⟩
  | append_singleton text c ih =>
    rw [PositionTable.after_append]
    refine PositionTable.mem_advance.trans ?_
    have hmarks : marks (text ++ [c]) = marks text ++ [.leaf (.lit c)] := List.map_append
    constructor
    · rintro ⟨m, hm, row, hrow, hsymbol, hn⟩
      obtain ⟨u, a, v, hspells, hu⟩ := (ih m).mp hm
      obtain ⟨position, next, hrow', hnext⟩ := exists_row (x := (m, a))
        (hspells.mem_leaves _ (by simp))
      rw [hrow', Option.some.injEq] at hrow
      subst hrow
      rw [follow_ofLeaf] at hn
      obtain rfl := symbol_ofLeaf.mp hsymbol
      -- what can follow the leaf in some string can follow it in this one
      obtain ⟨b, u', v', hadj⟩ := (hnext n).mp hn
      refine ⟨u ++ [(m, .leaf (.lit c))], b, v', ?_, ?_⟩
      · rw [List.append_assoc]
        exact hspells.exchange hleaves hadj
      · rw [List.map_append, hu, hmarks]
        rfl
    · rintro ⟨u, a, v, hspells, hu⟩
      rw [hmarks] at hu
      obtain ⟨u, w, rfl, hbefore, hw⟩ := List.map_eq_append_iff.mp hu
      obtain ⟨⟨m, b⟩, rfl, rfl⟩ := List.map_eq_singleton_iff.mp hw
      rw [List.append_assoc] at hspells
      obtain ⟨position, next, hrow, hnext⟩ := exists_row (x := (m, .leaf (.lit c)))
        (hspells.mem_leaves _ (by simp))
      refine ⟨m, (ih m).mpr ⟨u, _, _, hspells, hbefore⟩, _, hrow, symbol_ofLeaf.mpr rfl, ?_⟩
      rw [follow_ofLeaf]
      exact (hnext n).mpr ⟨a, u, v, hspells⟩

theorem offers_iff {text : List Char} {a : Mark} :
    e.Offers text a ↔ ∃ u n v, (e.augmented.numbered 0).Spells (u ++ (n, a) :: v) ∧
      u.map Prod.snd = marks text := by
  constructor
  · rintro ⟨v, hspells⟩
    obtain ⟨w, hw, hmap⟩ := (spells_iff_numbered 0).mp hspells
    obtain ⟨u, v, rfl, hu, hv⟩ := List.map_eq_append_iff.mp hmap
    obtain ⟨⟨n, a⟩, v, rfl, rfl, -⟩ := List.map_eq_cons_iff.mp hv
    exact ⟨u, n, v, hw, hu⟩
  · rintro ⟨u, n, v, hw, hu⟩
    refine ⟨v.map Prod.snd, (spells_iff_numbered 0).mpr ⟨_, hw, ?_⟩⟩
    rw [List.map_append, hu, List.map_cons]

private theorem mem_rowsOf_after {text : List Char} {row : Row}
    (h : row ∈ PositionTable.rowsOf e.positionTable.toArray
      (PositionTable.after e.positionTable.toArray e.start text)) :
    ∃ id position next a, row = .ofLeaf id position next a ∧ e.Offers text a := by
  obtain ⟨n, hn, hrow⟩ := PositionTable.mem_rowsOf.mp h
  obtain ⟨u, a, v, hspells, hu⟩ := (mem_after_iff text n).mp hn
  obtain ⟨position, next, hrow', -⟩ := exists_row (x := (n, a)) (hspells.mem_leaves _ (by simp))
  rw [hrow', Option.some.injEq] at hrow
  exact ⟨n, position, next, a, hrow.symm, offers_iff.mpr ⟨u, n, v, hspells, hu⟩⟩

private theorem exists_mem_rowsOf_after {text : List Char} {a : Mark} (h : e.Offers text a) :
    ∃ id position next, Row.ofLeaf id position next a ∈
      PositionTable.rowsOf e.positionTable.toArray
        (PositionTable.after e.positionTable.toArray e.start text) := by
  obtain ⟨u, n, v, hw, hu⟩ := offers_iff.mp h
  obtain ⟨position, next, hrow, -⟩ := exists_row (x := (n, a)) (hw.mem_leaves _ (by simp))
  exact ⟨n, position, next,
    PositionTable.mem_rowsOf.mpr ⟨n, (mem_after_iff text n).mpr ⟨u, a, v, hw, hu⟩, hrow⟩⟩

/-- A property that tells the rows of one leaf from all others is that of a row after a text if this
leaf is offered there. -/
private theorem exists_row_after_iff {text : List Char} {p : Row → Prop} {b : Mark}
    (hp : ∀ {id position next a}, p (.ofLeaf id position next a) ↔ a = b) :
    (∃ row ∈ PositionTable.rowsOf e.positionTable.toArray
        (PositionTable.after e.positionTable.toArray e.start text), p row) ↔ e.Offers text b := by
  constructor
  · rintro ⟨row, hrow, hb⟩
    obtain ⟨id, position, next, a, rfl, ha⟩ := mem_rowsOf_after hrow
    rwa [← hp.mp hb]
  · intro h
    obtain ⟨id, position, next, hrow⟩ := exists_mem_rowsOf_after h
    exact ⟨_, hrow, hp.mpr rfl⟩

private theorem mem_actions_after {text : List Char} {tag : ActionTag} :
    tag ∈ (PositionTable.rowsOf e.positionTable.toArray
        (PositionTable.after e.positionTable.toArray e.start text)).filterMap Row.action ↔
      e.Offers text (.leaf (.action tag)) :=
  List.mem_filterMap.trans (exists_row_after_iff action_ofLeaf)

private theorem exists_accept_after {text : List Char} :
    (∃ row ∈ PositionTable.rowsOf e.positionTable.toArray
        (PositionTable.after e.positionTable.toArray e.start text), row.accept = true) ↔
      e.Offers text .finish :=
  exists_row_after_iff accept_ofLeaf

end Recognizer.Regex.Expr

namespace Recognizer.Dfa

open Regex

private theorem run_eq_stateId (e : Expr Leaf) (text : List Char) :
    (ofExpr e).run (ofExpr e).initial text =
      PositionTable.stateId e.positionTable.toArray
        (PositionTable.after e.positionTable.toArray e.start text) := by
  obtain ⟨root, hroot, hstart⟩ := e.getLast?_positionTable
  have hrun := run_ofRows rfl hroot e.proper_positionTable (hstart ▸ e.allLeaves_start) text
  rwa [hstart] at hrun

/-- What makes the state after a text accepting, and its tag. -/
private theorem run_ofExpr (e : Expr Leaf) (text : List Char) :
    ((ofExpr e).Accepting ((ofExpr e).run (ofExpr e).initial text) ↔
        PositionTable.IsFinal e.positionTable.toArray
          (PositionTable.after e.positionTable.toArray e.start text)) ∧
      (ofExpr e).tag? ((ofExpr e).run (ofExpr e).initial text) =
        PositionTable.bestTag? e.positionTable.toArray
          (PositionTable.after e.positionTable.toArray e.start text) := by
  obtain ⟨root, hroot, hstart⟩ := e.getLast?_positionTable
  have hproper := e.proper_positionTable
  have hleaves := hstart ▸ e.allLeaves_start
  have haccepting := accepting_ofRows_iff rfl hroot hproper hleaves text
  have htag := tag?_ofRows rfl hroot hproper hleaves text
  rw [hstart] at haccepting htag
  rw [run_eq_stateId]
  exact ⟨haccepting, htag⟩

/-- A text leads to the state of the leaves that come after it in strings of the augmented tree. -/
theorem exists_leaves_run_ofExpr (e : Expr Leaf) (text : List Char) :
    ∃ leaves : NodeSet, PositionTable.AllLeaves e.positionTable.toArray leaves ∧
      (∀ n, n ∈ leaves ↔ ∃ u a v, (e.augmented.numbered 0).Spells (u ++ (n, a) :: v) ∧
        u.map Prod.snd = Expr.marks text) ∧
      (ofExpr e).run (ofExpr e).initial text =
        PositionTable.stateId e.positionTable.toArray leaves :=
  ⟨_, e.proper_positionTable.after_leaves e.allLeaves_start text, Expr.mem_after_iff text,
    run_eq_stateId e text⟩

/-- The search for states ends. The states of the automaton of an expression are found by a queue
that runs empty. -/
theorem drains_ofExpr (e : Expr Leaf) :
    ∃ root, e.positionTable.getLast? = some root ∧
      Drains PositionTable.Found.id (PositionTable.next e.positionTable.toArray)
        {PositionTable.stateId e.positionTable.toArray root.first}
        [PositionTable.found e.positionTable.toArray root.first]
        (PositionTable.reached e.positionTable.toArray root.first) := by
  obtain ⟨root, hroot, hleaves⟩ := e.exists_root_positionTable
  exact ⟨root, hroot, e.proper_positionTable.drains_reached hleaves⟩

/-- A text leads to an accepting state if and only if an action tag or the end marker is offered
after it. -/
theorem accepting_ofExpr_iff (e : Expr Leaf) (text : List Char) :
    (ofExpr e).Accepting ((ofExpr e).run (ofExpr e).initial text) ↔
      (∃ tag, e.Offers text (.leaf (.action tag))) ∨ e.Offers text .finish := by
  rw [(run_ofExpr e text).1, PositionTable.IsFinal, PositionTable.bestTag?,
    ActionTag.isSome_best?_iff, Expr.exists_accept_after]
  simp only [Expr.mem_actions_after]

theorem isSome_tag?_ofExpr_iff (e : Expr Leaf) (text : List Char) :
    ((ofExpr e).tag? ((ofExpr e).run (ofExpr e).initial text)).isSome ↔
      ∃ tag, e.Offers text (.leaf (.action tag)) := by
  rw [(run_ofExpr e text).2, PositionTable.bestTag?, ActionTag.isSome_best?_iff]
  simp only [Expr.mem_actions_after]

/-- The tag of the state that a text leads to is the best one of those offered after it: it is
offered, and it outranks every other tag that is. -/
theorem tag?_ofExpr_eq_some_iff (e : Expr Leaf) (text : List Char) (tag : ActionTag) :
    (ofExpr e).tag? ((ofExpr e).run (ofExpr e).initial text) = some tag ↔
      e.Offers text (.leaf (.action tag)) ∧
        ∀ tag', e.Offers text (.leaf (.action tag')) → tag' = tag ∨ tag.Outranks tag' := by
  rw [(run_ofExpr e text).2, PositionTable.bestTag?, ActionTag.best?_eq_some_iff]
  simp only [Expr.mem_actions_after]

/-- Nothing is accepted once the trap is reached. -/
theorem trapIsDead_ofExpr (e : Expr Leaf) : (ofExpr e).TrapIsDead := by
  obtain ⟨root, hroot, hleaves⟩ := e.exists_root_positionTable
  exact trapIsDead_ofRows rfl hroot e.proper_positionTable hleaves

/-- The automaton of an expression is total: every character, in the alphabet or not, leads from
every state to a state. -/
theorem isTotal_ofExpr (e : Expr Leaf) : (ofExpr e).IsTotal := by
  obtain ⟨root, hroot, hleaves⟩ := e.exists_root_positionTable
  exact isTotal_ofRows rfl hroot e.proper_positionTable hleaves

theorem hasFullRows_ofExpr (e : Expr Leaf) : (ofExpr e).HasFullRows := by
  obtain ⟨root, hroot, -⟩ := e.getLast?_positionTable
  exact hasFullRows_ofRows rfl hroot

/-- Texts lead to all states but the trap. -/
theorem isAccessible_ofExpr (e : Expr Leaf) : (ofExpr e).IsAccessible := by
  obtain ⟨root, hroot, hleaves⟩ := e.exists_root_positionTable
  exact isAccessible_ofRows rfl hroot e.proper_positionTable hleaves

/-- The trap rejects all texts, without a tag. -/
theorem verdict_trap_ofExpr (e : Expr Leaf) :
    (ofExpr e).verdict (ofExpr e).trap = fun _ => (false, none) := by
  obtain ⟨root, hroot, -⟩ := e.getLast?_positionTable
  exact verdict_trap (trapIsDead_ofExpr e) fun _ _ => accepting_of_tag?_ofRows rfl hroot

/-- The characters of the automaton are those of the expression. -/
theorem mem_alphabet_ofExpr_iff {e : Expr Leaf} {c : Char} :
    c ∈ (ofExpr e).alphabet ↔ .lit c ∈ e.leaves := by
  change c ∈ PositionTable.alphabet e.positionTable.toArray ↔ _
  rw [PositionTable.alphabet, SortedSet.mem_ofList, Expr.positionTable, Expr.mem_symbols_rows_iff,
    Expr.augmented, Expr.leaves, Expr.leaves_map]
  simp [Expr.leaves]

end Recognizer.Dfa

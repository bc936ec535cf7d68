import Mathlib.Tactic.Tauto
import Recognizer.Proofs.Regex.Adjacency
import Recognizer.Regex.Positions

/-!
# What the position table says

The leaves of an expression are told apart by their node numbers. The position data of a subtree say
whether its expression denotes the empty string and which leaves begin and end it, and the row of a
leaf says which leaves are adjacent to it, and which ones can follow the subtree if the leaf ends
it.

## Main definitions

* `Expr.numbered`: the expression with every leaf paired with its node number.

## Main results

* `Expr.nullable_positions_iff`, `Expr.mem_first_positions_iff`, `Expr.mem_last_positions_iff`: the
  position data of a subtree.
* `Expr.rows_getElem?_leaf`: the row of a leaf.
* `Expr.filterMap_position_rows`: the positions of the leaves count them from the left.
* `Expr.mem_symbols_rows_iff`: the characters of the table.
-/

namespace Recognizer.Regex.Expr

variable {α : Type}

/-- The expression with every leaf paired with its node number, the numbering beginning at `id`. The
numbers of inner nodes are passed over. -/
def numbered (id : Nat) : Expr α → Expr (Nat × α)
  | epsilon => epsilon
  | leaf a => leaf (id, a)
  | alt l r => alt (l.numbered id) (r.numbered (id + l.size))
  | cat l r => cat (l.numbered id) (r.numbered (id + l.size))
  | star e => star (e.numbered id)

/-! ### Numbered leaves -/

theorem map_snd_numbered (id : Nat) (e : Expr α) : (e.numbered id).map Prod.snd = e := by
  induction e generalizing id with
  | epsilon => rfl
  | leaf a => rfl
  | alt l r ihl ihr => rw [numbered, map, ihl, ihr]
  | cat l r ihl ihr => rw [numbered, map, ihl, ihr]
  | star e ih => rw [numbered, map, ih]

theorem spells_iff_numbered (id : Nat) {e : Expr α} {w : List α} :
    e.Spells w ↔ ∃ u, (e.numbered id).Spells u ∧ u.map Prod.snd = w := by
  rw [← spells_map_iff, map_snd_numbered]

theorem bounds_of_mem_leaves {id : Nat} {e : Expr α} {x : Nat × α}
    (h : x ∈ (e.numbered id).leaves) : id ≤ x.1 ∧ x.1 < id + e.size := by
  induction e generalizing id with
  | epsilon => simp [numbered, leaves] at h
  | leaf a =>
    obtain rfl : x = (id, a) := by simpa [numbered, leaves] using h
    simp [size]
  | alt l r ihl ihr | cat l r ihl ihr =>
    rw [size]
    rcases List.mem_append.mp h with h | h
    · have := ihl h
      omega
    · have := ihr h
      omega
  | star e ih =>
    have := ih h
    rw [size]
    omega

theorem nodup_leaves_numbered (id : Nat) (e : Expr α) :
    ((e.numbered id).leaves.map Prod.fst).Nodup := by
  induction e generalizing id with
  | epsilon => exact List.nodup_nil
  | leaf a => exact List.nodup_singleton id
  | alt l r ihl ihr | cat l r ihl ihr =>
    rw [numbered, leaves, List.map_append]
    refine List.nodup_append.mpr ⟨ihl _, ihr _, ?_⟩
    rintro m hm n hn rfl
    obtain ⟨x, hx, hxm⟩ := List.mem_map.mp hm
    obtain ⟨y, hy, hym⟩ := List.mem_map.mp hn
    have := bounds_of_mem_leaves hx
    have := bounds_of_mem_leaves hy
    omega
  | star e ih => exact ih id

theorem eq_of_mem_leaves_numbered {id n : Nat} {e : Expr α} {a b : α}
    (ha : (n, a) ∈ (e.numbered id).leaves) (hb : (n, b) ∈ (e.numbered id).leaves) : a = b :=
  congrArg Prod.snd (List.inj_on_of_nodup_map (nodup_leaves_numbered id e) ha hb rfl)

theorem Begins.mem_leaves {e : Expr α} {x : α} (h : e.Begins x) : x ∈ e.leaves := by
  obtain ⟨v, hv⟩ := h
  exact hv.mem_leaves x List.mem_cons_self

theorem Ends.mem_leaves {e : Expr α} {x : α} (h : e.Ends x) : x ∈ e.leaves := by
  obtain ⟨u, hu⟩ := h
  exact hu.mem_leaves x (by simp)

theorem Adjacent.mem_leaves {e : Expr α} {x y : α} (h : e.Adjacent x y) :
    x ∈ e.leaves ∧ y ∈ e.leaves := by
  obtain ⟨u, v, hw⟩ := h
  exact ⟨hw.mem_leaves x (by simp), hw.mem_leaves y (by simp)⟩

theorem not_ends_of_not_mem {e : Expr α} {x : α} (h : x ∉ e.leaves) : ¬ e.Ends x :=
  mt Ends.mem_leaves h

theorem not_adjacent_of_not_mem {e : Expr α} {x y : α} (h : x ∉ e.leaves) : ¬ e.Adjacent x y :=
  fun hadjacent => h hadjacent.mem_leaves.1

/-! ### The data of a subtree -/

@[simp] theorem size_positions (id position : Nat) (e : Expr Mark) :
    (e.positions id position).size = e.size := by
  induction e generalizing id position with
  | epsilon => rfl
  | leaf a => rfl
  | alt l r ihl ihr | cat l r ihl ihr => simp only [positions, size, ihl, ihr]
  | star e ih => simp only [positions, size, ih]

@[simp] theorem leafCount_positions (id position : Nat) (e : Expr Mark) :
    (e.positions id position).leafCount = e.leafCount := by
  induction e generalizing id position with
  | epsilon => rfl
  | leaf a => rfl
  | alt l r ihl ihr | cat l r ihl ihr => simp only [positions, leafCount, ihl, ihr]
  | star e ih => simp only [positions, leafCount, ih]

@[simp] theorem length_rows_positions (id position : Nat) (e : Expr Mark) (follow : NodeSet) :
    ((e.positions id position).rows follow).length = e.size := by
  induction e generalizing id position follow with
  | epsilon => rfl
  | leaf a => rfl
  | alt l r ihl ihr | cat l r ihl ihr =>
    simp only [positions, List.length_append, ihl, ihr, size, List.length_cons, List.length_nil]
  | star e ih => simp only [positions, List.length_append, ih, size, List.length_cons,
      List.length_nil]

theorem spells_cat_nil_iff {l r : Expr α} : (cat l r).Spells [] ↔ l.Spells [] ∧ r.Spells [] := by
  simp [spells_cat_iff]

/-- A subtree is nullable if its expression denotes the empty string. -/
theorem nullable_positions_iff (id position : Nat) (e : Expr Mark) :
    (e.positions id position).nullable = true ↔ (e.numbered id).Spells [] := by
  induction e generalizing id position with
  | epsilon => simp [positions, numbered, spells_epsilon_iff]
  | leaf a => simp [positions, numbered, spells_leaf_iff]
  | alt l r ihl ihr => simp [positions, numbered, spells_alt_iff, ihl, ihr]
  | cat l r ihl ihr => simp [positions, numbered, spells_cat_nil_iff, ihl, ihr]
  | star e ih => simp [positions, numbered, Spells.starNil]

/-- A subtree can begin with the leaves that begin its expression. -/
theorem mem_first_positions_iff (id position : Nat) (e : Expr Mark) (n : Nat) :
    n ∈ (e.positions id position).first ↔ ∃ a, (e.numbered id).Begins (n, a) := by
  induction e generalizing id position with
  | epsilon => simp [positions, numbered, Begins, spells_epsilon_iff]
  | leaf a => simp [positions, numbered, begins_leaf_iff]
  | alt l r ihl ihr =>
    simp only [positions, numbered, SortedSet.mem_union, ihl, ihr, begins_alt_iff, size_positions,
      exists_or]
  | cat l r ihl ihr =>
    simp only [positions, numbered, begins_cat_iff, size_positions, exists_or, exists_and_left,
      ← nullable_positions_iff id position]
    split
    · next h => simp only [SortedSet.mem_union, ihl, ihr, h, true_and]
    · next h => simp only [ihl, h, false_and, or_false, Bool.false_eq_true]
  | star e ih => simp only [positions, numbered, begins_star_iff, ih]

/-- A subtree can end with the leaves that end its expression. -/
theorem mem_last_positions_iff (id position : Nat) (e : Expr Mark) (n : Nat) :
    n ∈ (e.positions id position).last ↔ ∃ a, (e.numbered id).Ends (n, a) := by
  induction e generalizing id position with
  | epsilon => simp [positions, numbered, Ends, spells_epsilon_iff]
  | leaf a => simp [positions, numbered, ends_leaf_iff]
  | alt l r ihl ihr =>
    simp only [positions, numbered, SortedSet.mem_union, ihl, ihr, ends_alt_iff, size_positions,
      exists_or]
  | cat l r ihl ihr =>
    simp only [positions, numbered, ends_cat_iff, size_positions, exists_or, exists_and_left,
      leafCount_positions, ← nullable_positions_iff _ (position + l.leafCount)]
    split
    · next h => simp only [SortedSet.mem_union, ihl, ihr, h, true_and]
    · next h => simp only [ihr, h, false_and, or_false, Bool.false_eq_true]
  | star e ih => simp only [positions, numbered, ends_star_iff, ih]

/-! ### The rows of leaves -/

section Rows

variable (id position : Nat) (follow : NodeSet)

private theorem rows_alt (l r : Expr Mark) :
    ∃ root : Row, root.position = none ∧
      ((alt l r).positions id position).rows follow = (l.positions id position).rows follow ++
        ((r.positions (id + l.size) (position + l.leafCount)).rows follow ++ [root]) := by
  simp only [positions, size_positions, leafCount_positions, List.append_assoc]
  exact ⟨_, by rfl, rfl⟩

/-- The rows of a concatenation: the first side can be followed by what the second begins with, and
if this is nullable, by what can follow the whole. -/
private theorem rows_cat (l r : Expr Mark) :
    ∃ root : Row, root.position = none ∧
      ((cat l r).positions id position).rows follow =
        (l.positions id position).rows
          (if (r.positions (id + l.size) (position + l.leafCount)).nullable then
            (r.positions (id + l.size) (position + l.leafCount)).first ∪ follow
          else (r.positions (id + l.size) (position + l.leafCount)).first) ++
        ((r.positions (id + l.size) (position + l.leafCount)).rows follow ++ [root]) := by
  simp only [positions, size_positions, leafCount_positions, List.append_assoc]
  exact ⟨_, by rfl, rfl⟩

private theorem rows_star (e : Expr Mark) :
    ∃ root : Row, root.position = none ∧
      ((star e).positions id position).rows follow =
        (e.positions id position).rows ((e.positions id position).first ∪ follow) ++ [root] :=
  ⟨_, rfl, rfl⟩

end Rows

theorem position_ofLeaf (id position : Nat) (follow : NodeSet) (a : Mark) :
    (Row.ofLeaf id position follow a).position = some position := by
  rcases a with (_ | _) | _ <;> rfl

theorem follow_ofLeaf (id position : Nat) (follow : NodeSet) (a : Mark) :
    (Row.ofLeaf id position follow a).follow = follow := by
  rcases a with (_ | _) | _ <;> rfl

theorem symbol_ofLeaf {id position : Nat} {follow : NodeSet} {a : Mark} {c : Char} :
    (Row.ofLeaf id position follow a).symbol = some c ↔ a = .leaf (.lit c) := by
  rcases a with (_ | _) | _ <;> simp [Row.ofLeaf]

theorem action_ofLeaf {id position : Nat} {follow : NodeSet} {a : Mark} {tag : ActionTag} :
    (Row.ofLeaf id position follow a).action = some tag ↔ a = .leaf (.action tag) := by
  rcases a with (_ | _) | _ <;> simp [Row.ofLeaf]

theorem accept_ofLeaf {id position : Nat} {follow : NodeSet} {a : Mark} :
    (Row.ofLeaf id position follow a).accept = true ↔ a = .finish := by
  rcases a with (_ | _) | _ <;> simp [Row.ofLeaf]

/-- The row of a leaf holds what can follow the leaf: the leaves adjacent to it, and those that can
follow the whole subtree if the leaf ends it. -/
def RowFollows (e : Expr (Nat × Mark)) (follow : NodeSet) (x : Nat × Mark) (row : Row) : Prop :=
  ∃ position next, row = .ofLeaf x.1 position next x.2 ∧
    ∀ m, m ∈ next ↔ (∃ b, e.Adjacent x (m, b)) ∨ e.Ends x ∧ m ∈ follow

theorem RowFollows.imp {e e' : Expr (Nat × Mark)} {follow follow' : NodeSet} {x : Nat × Mark}
    {row : Row} (h : RowFollows e follow x row)
    (hiff : ∀ m, (∃ b, e.Adjacent x (m, b)) ∨ e.Ends x ∧ m ∈ follow ↔
      (∃ b, e'.Adjacent x (m, b)) ∨ e'.Ends x ∧ m ∈ follow') :
    RowFollows e' follow' x row := by
  obtain ⟨position, next, hrow, hnext⟩ := h
  exact ⟨position, next, hrow, fun m => (hnext m).trans (hiff m)⟩

private theorem not_mem_leaves_right {id : Nat} {l : Expr Mark} (r : Expr Mark) {x : Nat × Mark}
    (hx : x ∈ (l.numbered id).leaves) : x ∉ (r.numbered (id + l.size)).leaves := fun hr => by
  have := bounds_of_mem_leaves hx
  have := bounds_of_mem_leaves hr
  omega

private theorem getElem?_append_right_of_eq_some {first second later : List Row} {row : Row}
    {id size n : Nat} (hlength : first.length = size) (hn : id + size ≤ n)
    (hrow : second[n - (id + size)]? = some row) :
    (first ++ (second ++ later))[n - id]? = some row := by
  rw [List.getElem?_append_right (by omega), hlength, Nat.sub_sub,
    List.getElem?_append_left (List.getElem?_eq_some_iff.mp hrow).1, hrow]

/-- The row of a leaf in the rows of a subtree holds the leaves adjacent to it in the subtree, and
what can follow the subtree if the leaf ends it. -/
theorem rows_getElem?_leaf {id : Nat} {e : Expr Mark} {x : Nat × Mark} (position : Nat)
    (follow : NodeSet) (hx : x ∈ (e.numbered id).leaves) :
    ∃ row, ((e.positions id position).rows follow)[x.1 - id]? = some row ∧
      RowFollows (e.numbered id) follow x row := by
  induction e generalizing id position follow with
  | epsilon => simp [numbered, leaves] at hx
  | leaf a =>
    obtain rfl : x = (id, a) := by simpa [numbered, leaves] using hx
    refine ⟨.ofLeaf id position follow a, by simp [positions], position, follow, rfl, fun m => ?_⟩
    simp [numbered, not_adjacent_leaf, ends_leaf_iff]
  | alt l r ihl ihr =>
    obtain ⟨root, -, hrows⟩ := rows_alt id position follow l r
    rcases List.mem_append.mp hx with hx | hx
    · have hr := not_mem_leaves_right r hx
      obtain ⟨row, hrow, hfollow⟩ := ihl position follow hx
      refine ⟨row, ?_, hfollow.imp fun m => ?_⟩
      · rw [hrows, List.getElem?_append_left (List.getElem?_eq_some_iff.mp hrow).1, hrow]
      · simp only [numbered, adjacent_alt_iff, ends_alt_iff, not_adjacent_of_not_mem hr,
          not_ends_of_not_mem hr, or_false]
    · have hl := fun h : x ∈ (l.numbered id).leaves => not_mem_leaves_right r h hx
      obtain ⟨row, hrow, hfollow⟩ := ihr (position + l.leafCount) follow hx
      refine ⟨row, ?_, hfollow.imp fun m => ?_⟩
      · rw [hrows]
        exact getElem?_append_right_of_eq_some (length_rows_positions ..)
          (bounds_of_mem_leaves hx).1 hrow
      · simp only [numbered, adjacent_alt_iff, ends_alt_iff, not_adjacent_of_not_mem hl,
          not_ends_of_not_mem hl, false_or]
  | cat l r ihl ihr =>
    obtain ⟨root, -, hrows⟩ := rows_cat id position follow l r
    generalize hR : r.positions (id + l.size) (position + l.leafCount) = R at hrows
    rcases List.mem_append.mp hx with hx | hx
    · have hr := not_mem_leaves_right r hx
      obtain ⟨row, hrow, hfollow⟩ := ihl position
        (if R.nullable then R.first ∪ follow else R.first) hx
      refine ⟨row, ?_, hfollow.imp fun m => ?_⟩
      · rw [hrows, List.getElem?_append_left (List.getElem?_eq_some_iff.mp hrow).1, hrow]
      · simp only [numbered, adjacent_cat_iff, ends_cat_iff, not_adjacent_of_not_mem hr,
          not_ends_of_not_mem hr, false_or, exists_or, exists_and_left,
          ← mem_first_positions_iff _ (position + l.leafCount),
          ← nullable_positions_iff _ (position + l.leafCount), hR]
        cases R.nullable with
        | true =>
          simp only [↓reduceIte, SortedSet.mem_union, true_and]
          tauto
        | false => simp only [↓reduceIte, false_and, or_false, Bool.false_eq_true]
    · have hl := fun h : x ∈ (l.numbered id).leaves => not_mem_leaves_right r h hx
      obtain ⟨row, hrow, hfollow⟩ := ihr (position + l.leafCount) follow hx
      rw [hR] at hrow
      refine ⟨row, ?_, hfollow.imp fun m => ?_⟩
      · rw [hrows]
        exact getElem?_append_right_of_eq_some (length_rows_positions ..)
          (bounds_of_mem_leaves hx).1 hrow
      · simp only [numbered, adjacent_cat_iff, ends_cat_iff, not_adjacent_of_not_mem hl,
          not_ends_of_not_mem hl, false_or, false_and, or_false, and_false]
  | star e ih =>
    obtain ⟨root, -, hrows⟩ := rows_star id position follow e
    obtain ⟨row, hrow, hfollow⟩ := ih position
      ((e.positions id position).first ∪ follow) hx
    refine ⟨row, ?_, hfollow.imp fun m => ?_⟩
    · rw [hrows, List.getElem?_append_left (List.getElem?_eq_some_iff.mp hrow).1, hrow]
    · simp only [numbered, adjacent_star_iff, ends_star_iff, SortedSet.mem_union, exists_or,
        exists_and_left, mem_first_positions_iff]
      tauto

/-- The positions of the rows count the leaves from the left. -/
theorem filterMap_position_rows (id position : Nat) (e : Expr Mark) (follow : NodeSet) :
    ((e.positions id position).rows follow).filterMap Row.position =
      List.range' position e.leafCount := by
  induction e generalizing id position follow with
  | epsilon => rfl
  | leaf a => rcases a with (_ | _) | _ <;> rfl
  | alt l r ihl ihr =>
    obtain ⟨root, hroot, hrows⟩ := rows_alt id position follow l r
    rw [hrows, leafCount, ← List.range'_append_1]
    simp [ihl, ihr, hroot]
  | cat l r ihl ihr =>
    obtain ⟨root, hroot, hrows⟩ := rows_cat id position follow l r
    rw [hrows, leafCount, ← List.range'_append_1]
    simp [ihl, ihr, hroot]
  | star e ih =>
    obtain ⟨root, hroot, hrows⟩ := rows_star id position follow e
    rw [hrows, leafCount]
    simp [ih, hroot]

/-- The characters of the rows are those of the leaves. -/
theorem mem_symbols_rows_iff {id position : Nat} {e : Expr Mark} {follow : NodeSet} {c : Char} :
    c ∈ ((e.positions id position).rows follow).filterMap Row.symbol ↔
      .leaf (.lit c) ∈ e.leaves := by
  induction e generalizing id position follow with
  | epsilon => simp [positions, Row.inner, leaves]
  | leaf a => rcases a with (_ | _) | _ <;> simp [positions, Row.ofLeaf, leaves, eq_comm]
  | alt l r ihl ihr | cat l r ihl ihr =>
    simp only [positions, List.filterMap_append, List.mem_append, ihl, ihr, leaves]
    simp [Row.inner]
  | star e ih =>
    simp only [positions, List.filterMap_append, List.mem_append, ih, leaves]
    simp [Row.inner]

/-- Only leaves have something that follows them; the set of any other node is empty. -/
theorem follow_eq_empty {id position : Nat} {e : Expr Mark} {follow : NodeSet} {row : Row}
    (hrow : row ∈ (e.positions id position).rows follow) (hposition : row.position = none) :
    row.follow = ∅ := by
  induction e generalizing id position follow with
  | epsilon =>
    obtain rfl : row = .inner true ∅ ∅ := by simpa [positions] using hrow
    rfl
  | leaf a =>
    obtain rfl : row = .ofLeaf id position follow a := by simpa [positions] using hrow
    rcases a with (_ | _) | _ <;> simp [Row.ofLeaf] at hposition
  | alt l r ihl ihr | cat l r ihl ihr =>
    simp only [positions, List.mem_append, List.mem_singleton] at hrow
    rcases hrow with (hrow | hrow) | rfl
    · exact ihl hrow
    · exact ihr hrow
    · rfl
  | star e ih =>
    simp only [positions, List.mem_append, List.mem_singleton] at hrow
    rcases hrow with hrow | rfl
    · exact ih hrow
    · rfl

theorem getElem?_sides {rows rows' : List Row} {root row : Row} {i m n : Nat}
    (hm : rows.length = m) (hn : rows'.length = n)
    (hrow : (rows ++ rows' ++ [root])[i]? = some row) :
    rows[i]? = some row ∨ m ≤ i ∧ rows'[i - m]? = some row ∨ i = m + n ∧ root = row := by
  subst hm hn
  rcases Nat.lt_or_ge i (rows ++ rows').length with hi | hi
  · rw [List.getElem?_append_left hi] at hrow
    rcases Nat.lt_or_ge i rows.length with hi' | hi'
    · rw [List.getElem?_append_left hi'] at hrow
      exact Or.inl hrow
    · rw [List.getElem?_append_right hi'] at hrow
      exact Or.inr (Or.inl ⟨hi', hrow⟩)
  · rw [List.getElem?_append_right hi, List.getElem?_singleton] at hrow
    split at hrow
    · next h =>
      rw [List.length_append] at hi h
      exact Or.inr (Or.inr ⟨by omega, Option.some.inj hrow⟩)
    · cases hrow

theorem mem_leaves_of_position {id position : Nat} {e : Expr Mark} {follow : NodeSet} {i : Nat}
    {row : Row} (hrow : ((e.positions id position).rows follow)[i]? = some row)
    (hposition : row.position.isSome) : ∃ a, (id + i, a) ∈ (e.numbered id).leaves := by
  induction e generalizing id position follow i with
  | epsilon =>
    have hmem := List.mem_of_getElem? hrow
    obtain rfl : row = .inner true ∅ ∅ := by simpa [positions] using hmem
    simp [Row.inner] at hposition
  | leaf a =>
    have hi := (List.getElem?_eq_some_iff.mp hrow).1
    obtain rfl : i = 0 := by simpa [positions] using hi
    exact ⟨a, by simp [numbered, leaves]⟩
  | alt l r ihl ihr | cat l r ihl ihr =>
    simp only [positions, size_positions, leafCount_positions] at hrow
    rcases getElem?_sides (length_rows_positions ..) (length_rows_positions ..) hrow with
      hrow | ⟨hi, hrow⟩ | ⟨-, rfl⟩
    · obtain ⟨a, ha⟩ := ihl hrow
      exact ⟨a, List.mem_append_left _ ha⟩
    · obtain ⟨a, ha⟩ := ihr hrow
      rw [show id + l.size + (i - l.size) = id + i by omega] at ha
      exact ⟨a, List.mem_append_right _ ha⟩
    · cases hposition
  | star e ih =>
    simp only [positions] at hrow
    rw [← List.append_nil (Positions.rows _ _)] at hrow
    rcases getElem?_sides (length_rows_positions ..) rfl hrow with hrow | ⟨-, hrow⟩ | ⟨-, rfl⟩
    · exact ih hrow
    · cases hrow
    · cases hposition

end Recognizer.Regex.Expr

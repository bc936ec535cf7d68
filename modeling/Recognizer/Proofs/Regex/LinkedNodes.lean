import Recognizer.Proofs.Iteration.Results
import Recognizer.Proofs.Regex.Annotation
import Recognizer.Regex.Postfix

/-!
# The strings of linked nodes

A node of a tree denotes strings of leaves, which are told apart by their numbers; literals and
actions are letters of these strings, and the leaf `ε` is none. What a node denotes is read off the
links between the nodes. The annotation of the nodes says of each node whether it denotes the empty
string and with which leaves its strings begin and end, and of each leaf which leaves come right
after it in the strings of the root.

## Main definitions

* `Node.Spells`: the strings that a node denotes.
* `Node.IsLetter`: the node is a literal or an action.
* `Expr.LinkedAt`: the nodes of a subtree are linked.
* `Row.Describes`: the row says how a node takes part in the strings.

## Main results

* `Expr.spells_rootId_iff`: the strings of the root of a subtree.
* `Expr.exists_isRootRow`: every row is that of the root of a subtree.
* `Expr.describes_of_getElem?`: the rows of the position table describe the nodes.
* `Node.describes_annotate`: so do the rows of the annotation.
-/

namespace Recognizer.Regex

/-! ### What a node denotes -/

namespace Node

/-- The node with the given number denotes the string of leaves. Only the tokens and the links to
children are used, so this can be said of any list of nodes. -/
inductive Spells (nodes : List Node) : Nat → List Nat → Prop
  | epsilon {n : Nat} {parent left right position : Option Nat}
      (h : nodes[n]? = some ⟨.epsilon, parent, left, right, position⟩) : Spells nodes n []
  | lit {n : Nat} {c : Char} {parent left right position : Option Nat}
      (h : nodes[n]? = some ⟨.lit c, parent, left, right, position⟩) : Spells nodes n [n]
  | action {n : Nat} {tag : ActionTag} {parent left right position : Option Nat}
      (h : nodes[n]? = some ⟨.action tag, parent, left, right, position⟩) : Spells nodes n [n]
  | altLeft {n l r : Nat} {parent position : Option Nat} {u : List Nat}
      (h : nodes[n]? = some ⟨.op .alt, parent, some l, some r, position⟩) (hl : Spells nodes l u) :
      Spells nodes n u
  | altRight {n l r : Nat} {parent position : Option Nat} {u : List Nat}
      (h : nodes[n]? = some ⟨.op .alt, parent, some l, some r, position⟩) (hr : Spells nodes r u) :
      Spells nodes n u
  | cat {n l r : Nat} {parent position : Option Nat} {u v : List Nat}
      (h : nodes[n]? = some ⟨.op .cat, parent, some l, some r, position⟩) (hl : Spells nodes l u)
      (hr : Spells nodes r v) : Spells nodes n (u ++ v)
  | starNil {n body : Nat} {parent position : Option Nat}
      (h : nodes[n]? = some ⟨.op .star, parent, some body, none, position⟩) : Spells nodes n []
  | starAppend {n body : Nat} {parent position : Option Nat} {u v : List Nat}
      (h : nodes[n]? = some ⟨.op .star, parent, some body, none, position⟩)
      (hbody : Spells nodes body u) (hs : Spells nodes n v) : Spells nodes n (u ++ v)

/-- The node with the given number holds the token. -/
def Holds (nodes : List Node) (n : Nat) (token : Token) : Prop :=
  ∃ node, nodes[n]? = some node ∧ node.value = token

/-- The node is a leaf other than `ε`: a literal or an action. -/
def IsLetter (nodes : List Node) (n : Nat) : Prop :=
  (∃ c, Holds nodes n (.lit c)) ∨ ∃ tag, Holds nodes n (.action tag)

variable {nodes : List Node} {n l r : Nat} {parent left right position : Option Nat} {w : List Nat}

theorem Spells.isLetter (h : Spells nodes n w) : ∀ m ∈ w, IsLetter nodes m := by
  induction h with
  | epsilon | starNil => exact List.forall_mem_nil _
  | lit h => exact List.forall_mem_singleton.mpr (Or.inl ⟨_, _, h, rfl⟩)
  | action h => exact List.forall_mem_singleton.mpr (Or.inr ⟨_, _, h, rfl⟩)
  | altLeft _ _ ih | altRight _ _ ih => exact ih
  | cat _ _ _ ihl ihr => exact List.forall_mem_append.mpr ⟨ihl, ihr⟩
  | starAppend _ _ _ ihbody ihs => exact List.forall_mem_append.mpr ⟨ihbody, ihs⟩

theorem spells_epsilon_iff (h : nodes[n]? = some ⟨.epsilon, parent, left, right, position⟩) :
    Spells nodes n w ↔ w = [] := by
  constructor
  · intro hw
    cases hw with
    | epsilon => rfl
    | _ => cases h.symm.trans ‹nodes[n]? = _›
  · rintro rfl
    exact .epsilon h

theorem spells_leaf_iff {a : Mark}
    (h : nodes[n]? = some ⟨a.token, parent, left, right, position⟩) :
    Spells nodes n w ↔ w = [n] := by
  constructor
  · intro hw
    cases hw with
    | lit | action => rfl
    | _ =>
      have heq := h.symm.trans ‹nodes[n]? = _›
      rcases a with (_ | _) | _ <;> cases heq
  · rintro rfl
    rcases a with (_ | _) | _
    · exact .lit h
    · exact .action h
    · exact .lit h

theorem spells_alt_iff (h : nodes[n]? = some ⟨.op .alt, parent, some l, some r, position⟩) :
    Spells nodes n w ↔ Spells nodes l w ∨ Spells nodes r w := by
  constructor
  · intro hw
    cases hw with
    | altLeft h' hl =>
      cases h.symm.trans h'
      exact Or.inl hl
    | altRight h' hr =>
      cases h.symm.trans h'
      exact Or.inr hr
    | _ => cases h.symm.trans ‹nodes[n]? = _›
  · rintro (hl | hr)
    · exact .altLeft h hl
    · exact .altRight h hr

theorem spells_cat_iff (h : nodes[n]? = some ⟨.op .cat, parent, some l, some r, position⟩) :
    Spells nodes n w ↔ ∃ u v, Spells nodes l u ∧ Spells nodes r v ∧ u ++ v = w := by
  constructor
  · intro hw
    cases hw with
    | cat h' hl hr =>
      cases h.symm.trans h'
      exact ⟨_, _, hl, hr, rfl⟩
    | _ => cases h.symm.trans ‹nodes[n]? = _›
  · rintro ⟨u, v, hl, hr, rfl⟩
    exact .cat h hl hr

end Node

/-! ### Subtrees among the nodes -/

namespace Expr

/-- The nodes of the subtree stand in the list from the number `id` on, and are linked. -/
def LinkedAt (nodes : List Node) (id : Nat) : Expr Mark → Prop
  | epsilon => ∃ parent, nodes[id]? = some ⟨.epsilon, parent, none, none, none⟩
  | leaf a => ∃ parent position, nodes[id]? = some ⟨a.token, parent, none, none, some position⟩
  | alt l r => LinkedAt nodes id l ∧ LinkedAt nodes (id + l.size) r ∧ ∃ parent,
      nodes[(alt l r).rootId id]? =
        some ⟨.op .alt, parent, some (l.rootId id), some (r.rootId (id + l.size)), none⟩
  | cat l r => LinkedAt nodes id l ∧ LinkedAt nodes (id + l.size) r ∧ ∃ parent,
      nodes[(cat l r).rootId id]? =
        some ⟨.op .cat, parent, some (l.rootId id), some (r.rootId (id + l.size)), none⟩
  | star e => LinkedAt nodes id e ∧ ∃ parent,
      nodes[(star e).rootId id]? = some ⟨.op .star, parent, some (e.rootId id), none, none⟩

variable {nodes : List Node} {e : Expr Mark} {id position : Nat} {parent : Option Nat}
  {follow : NodeSet} {row : Row} {w : List Nat}

theorem length_nodesFrom (e : Expr Mark) (id position : Nat) (parent : Option Nat) :
    (e.nodesFrom id position parent).length = e.size := by
  induction e generalizing id position parent with
  | epsilon | leaf a => rfl
  | alt l r ihl ihr | cat l r ihl ihr =>
    rw [nodesFrom, List.length_append, List.length_append, ihl, ihr]
    rfl
  | star e ih =>
    rw [nodesFrom, List.length_append, ih]
    rfl

private theorem getElem?_of_eq {before after : List Node} {node : Node} {i : Nat}
    (hnodes : nodes = before ++ node :: after) (hi : before.length = i) :
    nodes[i]? = some node := by
  rw [hnodes, List.getElem?_append_right (by omega), hi, Nat.sub_self]
  rfl

theorem linkedAt_of_eq {before after : List Node}
    (hnodes : nodes = before ++ (e.nodesFrom id position parent ++ after))
    (hid : before.length = id) : e.LinkedAt nodes id := by
  induction e generalizing id position parent before after with
  | epsilon => exact ⟨parent, getElem?_of_eq hnodes hid⟩
  | leaf a => exact ⟨parent, position, getElem?_of_eq hnodes hid⟩
  | alt l r ihl ihr | cat l r ihl ihr =>
    simp only [nodesFrom, List.append_assoc] at hnodes
    refine ⟨ihl hnodes hid, ihr (hnodes.trans (List.append_assoc ..).symm) ?_, parent, ?_⟩
    · rw [List.length_append, hid, length_nodesFrom]
    · rw [← List.append_assoc, ← List.append_assoc] at hnodes
      refine getElem?_of_eq hnodes ?_
      rw [List.length_append, List.length_append, hid, length_nodesFrom, length_nodesFrom, rootId,
        size]
      omega
  | star e ih =>
    simp only [nodesFrom, List.append_assoc] at hnodes
    refine ⟨ih hnodes hid, parent, ?_⟩
    rw [← List.append_assoc] at hnodes
    exact getElem?_of_eq hnodes (by simp [length_nodesFrom, rootId, size, hid])

theorem linkedAt_nodes (e : Expr Leaf) : e.augmented.LinkedAt e.nodes 0 := by
  have hnodes : e.nodes = [] ++ (e.augmented.nodesFrom 0 0 none ++ []) := (List.append_nil _).symm
  exact linkedAt_of_eq hnodes rfl

/-- The end marker's leaf and the root come last. -/
theorem length_nodes (e : Expr Leaf) : e.nodes.length = e.size + 2 := by
  rw [nodes, length_nodesFrom, augmented, size, size_map, size]

theorem finishId_eq (e : Expr Leaf) : e.finishId = e.nodes.length - 2 := by
  rw [length_nodes, finishId, Nat.add_sub_cancel]

theorem rootId_augmented (e : Expr Leaf) : e.augmented.rootId 0 = e.nodes.length - 1 := by
  rw [nodes, length_nodesFrom, rootId, Nat.zero_add]

theorem LinkedAt.holds (h : e.LinkedAt nodes id) {x : Nat × Mark}
    (hx : x ∈ (e.numbered id).leaves) : Node.Holds nodes x.1 x.2.token := by
  induction e generalizing id with
  | epsilon => simp [numbered, leaves] at hx
  | leaf a =>
    obtain rfl : x = (id, a) := by simpa [numbered, leaves] using hx
    obtain ⟨parent, position, hn⟩ := h
    exact ⟨_, hn, rfl⟩
  | alt l r ihl ihr | cat l r ihl ihr =>
    obtain ⟨hl, hr, -⟩ := h
    rcases List.mem_append.mp hx with hx | hx
    · exact ihl hl hx
    · exact ihr hr hx
  | star e ih => exact ih h.1 hx

private theorem spells_star_iff {body : Nat}
    (hn : nodes[(star e).rootId id]? = some ⟨.op .star, parent, some body, none, none⟩)
    (ih : ∀ w, Node.Spells nodes body w ↔ ∃ u, (e.numbered id).Spells u ∧ u.map Prod.fst = w) :
    Node.Spells nodes ((star e).rootId id) w ↔
      ∃ u, ((star e).numbered id).Spells u ∧ u.map Prod.fst = w := by
  constructor
  · -- what comes after the first string of the body is a string of the same node again
    intro h
    generalize (star e).rootId id = n at hn h
    induction h with
    | starNil => exact ⟨[], .starNil, rfl⟩
    | starAppend h hbody _ _ ihs =>
      cases hn.symm.trans h
      obtain ⟨u, hu, rfl⟩ := (ih _).mp hbody
      obtain ⟨v, hv, rfl⟩ := ihs hn
      exact ⟨u ++ v, .starAppend hu hv, List.map_append⟩
    | epsilon h | lit h | action h | altLeft h | altRight h | cat h => cases hn.symm.trans h
  · rintro ⟨u, hu, rfl⟩
    rw [numbered] at hu
    generalize hs : star (e.numbered id) = s at hu
    induction hu with
    | starNil => exact .starNil hn
    | starAppend h _ _ ihs =>
      cases hs
      rw [List.map_append]
      exact .starAppend hn ((ih _).mpr ⟨_, h, rfl⟩) (ihs rfl)
    | _ => cases hs

/-- The root of a subtree denotes the strings of the subtree, with numbers for leaves. So what is
proved of expressions can be said of linked nodes. -/
theorem spells_rootId_iff (h : e.LinkedAt nodes id) :
    Node.Spells nodes (e.rootId id) w ↔ ∃ u, (e.numbered id).Spells u ∧ u.map Prod.fst = w := by
  induction e generalizing id w with
  | epsilon =>
    obtain ⟨parent, hn⟩ := h
    refine (Node.spells_epsilon_iff hn).trans ?_
    simp [numbered, Expr.spells_epsilon_iff, eq_comm]
  | leaf a =>
    obtain ⟨parent, position, hn⟩ := h
    refine (Node.spells_leaf_iff hn).trans ?_
    simp [numbered, Expr.spells_leaf_iff, eq_comm]
  | alt l r ihl ihr =>
    obtain ⟨hl, hr, parent, hn⟩ := h
    rw [Node.spells_alt_iff hn, ihl hl, ihr hr, numbered]
    simp only [Expr.spells_alt_iff, or_and_right, exists_or]
  | cat l r ihl ihr =>
    obtain ⟨hl, hr, parent, hn⟩ := h
    rw [Node.spells_cat_iff hn, numbered]
    simp only [ihl hl, ihr hr, Expr.spells_cat_iff]
    constructor
    · rintro ⟨_, _, ⟨u, hu, rfl⟩, ⟨v, hv, rfl⟩, rfl⟩
      exact ⟨u ++ v, ⟨u, v, hu, hv, rfl⟩, List.map_append⟩
    · rintro ⟨_, ⟨u, v, hu, hv, rfl⟩, rfl⟩
      exact ⟨_, _, ⟨u, hu, rfl⟩, ⟨v, hv, rfl⟩, List.map_append.symm⟩
  | star e ih =>
    obtain ⟨hbody, parent, hn⟩ := h
    exact spells_star_iff hn fun w => ih hbody

theorem exists_begins_iff (h : e.LinkedAt nodes id) {p : Nat} :
    (∃ a, (e.numbered id).Begins (p, a)) ↔ ∃ v, Node.Spells nodes (e.rootId id) (p :: v) := by
  simp only [spells_rootId_iff h, Begins]
  constructor
  · rintro ⟨a, v, hv⟩
    exact ⟨v.map Prod.fst, _, hv, rfl⟩
  · rintro ⟨v, w, hw, hmap⟩
    obtain ⟨⟨_, a⟩, v, rfl, rfl, -⟩ := List.map_eq_cons_iff.mp hmap
    exact ⟨a, v, hw⟩

theorem exists_ends_iff (h : e.LinkedAt nodes id) {p : Nat} :
    (∃ a, (e.numbered id).Ends (p, a)) ↔ ∃ u, Node.Spells nodes (e.rootId id) (u ++ [p]) := by
  simp only [spells_rootId_iff h, Ends]
  constructor
  · rintro ⟨a, u, hu⟩
    exact ⟨u.map Prod.fst, _, hu, List.map_append⟩
  · rintro ⟨u, w, hw, hmap⟩
    obtain ⟨u, v, rfl, -, hv⟩ := List.map_eq_append_iff.mp hmap
    obtain ⟨⟨_, a⟩, rfl, rfl⟩ := List.map_eq_singleton_iff.mp hv
    exact ⟨a, u, hw⟩

theorem exists_adjacent_iff (h : e.LinkedAt nodes id) {p q : Nat} :
    (∃ a b, (e.numbered id).Adjacent (p, a) (q, b)) ↔
      ∃ u v, Node.Spells nodes (e.rootId id) (u ++ p :: q :: v) := by
  simp only [spells_rootId_iff h, Adjacent]
  constructor
  · rintro ⟨a, b, u, v, hw⟩
    exact ⟨u.map Prod.fst, v.map Prod.fst, _, hw, List.map_append⟩
  · rintro ⟨u, v, w, hw, hmap⟩
    obtain ⟨u, _, rfl, -, hv⟩ := List.map_eq_append_iff.mp hmap
    obtain ⟨⟨_, a⟩, _, rfl, rfl, hrest⟩ := List.map_eq_cons_iff.mp hv
    obtain ⟨⟨_, b⟩, v, rfl, rfl, -⟩ := List.map_eq_cons_iff.mp hrest
    exact ⟨a, b, u, v, hw⟩

/-! ### What the rows say -/

/-- Every row is that of the root of a subtree. -/
theorem exists_isRootRow {i : Nat} (h : e.LinkedAt nodes id)
    (hrow : ((e.positions id position).rows follow)[i]? = some row) :
    ∃ (e' : Expr Mark) (id' position' : Nat), e'.LinkedAt nodes id' ∧ e'.rootId id' = id + i ∧
      IsRootRow (e'.positions id' position') row := by
  induction e generalizing id position follow i with
  | epsilon =>
    obtain ⟨rfl, rfl⟩ : i = 0 ∧ .inner true ∅ ∅ = row := by
      simpa [positions, List.getElem?_singleton] using hrow
    exact ⟨epsilon, id, position, h, rfl, rfl, rfl, rfl⟩
  | leaf a =>
    obtain ⟨rfl, rfl⟩ : i = 0 ∧ .ofLeaf id position follow a = row := by
      simpa [positions, List.getElem?_singleton] using hrow
    refine ⟨leaf a, id, position, h, rfl, ?_⟩
    rcases a with (_ | _) | _ <;> exact ⟨rfl, rfl, rfl⟩
  | alt l r ihl ihr | cat l r ihl ihr =>
    simp only [positions, size_positions, leafCount_positions] at hrow
    rcases getElem?_sides (length_rows_positions ..) (length_rows_positions ..) hrow with
      hrow | ⟨hi, hrow⟩ | ⟨rfl, hroot⟩
    · exact ihl h.1 hrow
    · obtain ⟨e', id', position', h', hid, hroot⟩ := ihr h.2.1 hrow
      exact ⟨e', id', position', h', by omega, hroot⟩
    · refine ⟨_, id, position, h, ?_, ?_⟩
      · rw [rootId, size]
        omega
      · subst hroot
        simp only [positions, size_positions, leafCount_positions]
        exact ⟨rfl, rfl, rfl⟩
  | star e ih =>
    simp only [positions] at hrow
    rw [← List.append_nil (Positions.rows _ _)] at hrow
    rcases getElem?_sides (length_rows_positions ..) rfl hrow with
      hrow | ⟨-, hrow⟩ | ⟨rfl, hroot⟩
    · exact ih h.1 hrow
    · cases hrow
    · refine ⟨star e, id, position, h, ?_, ?_⟩
      · rw [rootId, size]
        rfl
      · subst hroot
        exact ⟨rfl, rfl, rfl⟩

/-- A row holds the leaves that come right after its leaf in strings of the tree, and no other row
holds any. -/
theorem mem_follow_iff {n q : Nat}
    (hrow : ((e.positions 0 position).rows ∅)[n]? = some row) :
    q ∈ row.follow ↔ ∃ a b, (e.numbered 0).Adjacent (n, a) (q, b) := by
  by_cases hleaf : ∃ a, (n, a) ∈ (e.numbered 0).leaves
  · obtain ⟨a, ha⟩ := hleaf
    obtain ⟨_, hrow', _, next, rfl, hnext⟩ := rows_getElem?_leaf position ∅ ha
    obtain rfl := Option.some.inj (hrow.symm.trans hrow')
    rw [follow_ofLeaf, hnext, or_iff_left fun h => SortedSet.not_mem_empty q h.2]
    refine ⟨fun ⟨b, hb⟩ => ⟨a, b, hb⟩, fun ⟨a', b, hb⟩ => ⟨b, ?_⟩⟩
    rwa [eq_of_mem_leaves_numbered hb.mem_leaves.1 ha] at hb
  · have hposition : row.position = none := by
      by_contra hne
      obtain ⟨a, ha⟩ := mem_leaves_of_position hrow (Option.isSome_iff_ne_none.mpr hne)
      exact hleaf ⟨a, Nat.zero_add n ▸ ha⟩
    rw [follow_eq_empty (List.mem_of_getElem? hrow) hposition]
    refine iff_of_false (SortedSet.not_mem_empty q) ?_
    rintro ⟨a, b, hab⟩
    exact hleaf ⟨a, hab.mem_leaves.1⟩

end Expr

/-- The row says how the node with number `n` takes part in the strings: whether it denotes the
empty string, with which leaves its strings begin and end, and which leaves come right after it in
the strings of the node with number `root`. -/
structure Row.Describes (row : Row) (nodes : List Node) (root n : Nat) : Prop where
  nullable_iff : row.nullable = true ↔ Node.Spells nodes n []
  mem_first_iff : ∀ p, p ∈ row.first ↔ ∃ v, Node.Spells nodes n (p :: v)
  mem_last_iff : ∀ p, p ∈ row.last ↔ ∃ u, Node.Spells nodes n (u ++ [p])
  mem_follow_iff : ∀ q, q ∈ row.follow ↔ ∃ u v, Node.Spells nodes root (u ++ n :: q :: v)
  isLetter : ∀ p, p ∈ row.first ∨ p ∈ row.last ∨ p ∈ row.follow → Node.IsLetter nodes p

/-- The rows of the position table describe the nodes of the tree, each of them by the strings of
its own subtree and those of the root. -/
theorem Expr.describes_of_getElem? {e : Expr Leaf} {n : Nat} {row : Row}
    (hrow : e.positionTable[n]? = some row) :
    row.Describes e.nodes (e.augmented.rootId 0) n := by
  have htree := e.linkedAt_nodes
  obtain ⟨e', id, position, h, hid, hroot⟩ := exists_isRootRow htree hrow
  rw [Nat.zero_add] at hid
  have hfirst (p : Nat) : p ∈ row.first ↔ ∃ v, Node.Spells e.nodes n (p :: v) := by
    rw [hroot.first_eq, mem_first_positions_iff, exists_begins_iff h, hid]
  have hlast (p : Nat) : p ∈ row.last ↔ ∃ u, Node.Spells e.nodes n (u ++ [p]) := by
    rw [hroot.last_eq, mem_last_positions_iff, exists_ends_iff h, hid]
  have hfollow (q : Nat) : q ∈ row.follow ↔
      ∃ u v, Node.Spells e.nodes (e.augmented.rootId 0) (u ++ n :: q :: v) := by
    rw [mem_follow_iff hrow, exists_adjacent_iff htree]
  refine { nullable_iff := ?_, mem_first_iff := hfirst, mem_last_iff := hlast,
           mem_follow_iff := hfollow, isLetter := fun p hp => ?_ }
  · rw [hroot.nullable_eq, nullable_positions_iff, ← hid, spells_rootId_iff h]
    simp
  · rcases hp with hp | hp | hp
    · obtain ⟨v, hv⟩ := (hfirst p).mp hp
      exact hv.isLetter p (by simp)
    · obtain ⟨u, hu⟩ := (hlast p).mp hp
      exact hu.isLetter p (by simp)
    · obtain ⟨u, v, hw⟩ := (hfollow p).mp hp
      exact hw.isLetter p (by simp)

namespace Node

/-- The annotation describes the nodes. If a postfix stream is that of a tree, the nodes of the tree
have an annotation, which has a row for each of them and says how it takes part in the strings. -/
theorem describes_annotate {tokens : List Token} {nodes : List Node}
    (h : Expr.nodes <$> Expr.ofPostfix tokens = .ok nodes) :
    ∃ rows, annotate (nodes.length - 2) nodes = some rows ∧ rows.size = nodes.length ∧
      ∀ (n : Nat) (row : Row), rows[n]? = some row → row.Describes nodes (nodes.length - 1) n := by
  obtain ⟨e, -, rfl⟩ := map_eq_ok_iff.mp h
  refine ⟨e.positionTable.toArray, ?_, ?_, fun n row hrow => ?_⟩
  · rw [← e.finishId_eq, e.annotate_nodes]
  · rw [List.size_toArray, Expr.positionTable, Expr.length_rows_positions, Expr.nodes,
      Expr.length_nodesFrom]
  · rw [List.getElem?_toArray] at hrow
    rw [← e.rootId_augmented]
    exact Expr.describes_of_getElem? hrow

/-- Nodes with an action in the body of a repetition. -/
theorem describes_annotate_action :
    let tag : ActionTag := ⟨"r", 0⟩
    let nodes : List Node :=
      [⟨.lit 'a', some 2, none, none, some 0⟩, ⟨.action tag, some 2, none, none, some 1⟩,
        ⟨.op .cat, some 3, some 0, some 1, none⟩, ⟨.op .star, some 5, some 2, none, none⟩,
        ⟨.lit 'b', some 5, none, none, some 2⟩, ⟨.op .cat, some 7, some 3, some 4, none⟩,
        ⟨.lit '#', some 7, none, none, some 3⟩, ⟨.op .cat, none, some 5, some 6, none⟩]
    Expr.nodes <$> Expr.ofPostfix
        [.lit 'a', .action tag, .op .cat, .op .star, .lit 'b', .op .cat] = .ok nodes ∧
      ∃ rows, annotate (nodes.length - 2) nodes = some rows ∧ rows.size = nodes.length ∧
        ∀ (n : Nat) (row : Row), rows[n]? = some row →
          row.Describes nodes (nodes.length - 1) n := by
  intro tag nodes
  have h : Expr.nodes <$> Expr.ofPostfix
      [.lit 'a', .action tag, .op .cat, .op .star, .lit 'b', .op .cat] = .ok nodes := rfl
  exact ⟨h, describes_annotate h⟩

end Node

end Recognizer.Regex

import Recognizer.Proofs.Regex.PositionTable
import Recognizer.Proofs.Sorted.Entries
import Recognizer.Regex.Annotation

/-!
# The two passes over the nodes

The two passes over the linked nodes of a tree compute its position table. The first pass enters the
rows of a subtree after those of the nodes before it, still without what can follow the leaves. When
the second pass has gone through a subtree, the rows say what follows inside it. What comes to
follow the subtree as a whole later on is added to its last leaves, and this is what the rows hold
if the subtree is told beforehand.

## Main definitions

* `Row.bare`: the row of a node before the second pass.
* `Row.handDown`: a part of a table in which some leaves can be followed by some others in addition.

## Main results

* `Expr.handDown_rows`: adding what follows a subtree to its last leaves.
* `Expr.exists_foldlM_enter`, `Expr.exists_foldlM_sew`: the two passes over the nodes of a subtree.
* `Expr.annotate_nodes`: the annotation of the nodes of a tree is its position table.
-/

namespace Recognizer.Regex

variable {rows before after : List Row} {ends starts : NodeSet} {id : Nat}

/-! ### What follows leaves -/

namespace Row

/-- The row without what can follow, as the first pass enters it. -/
def bare (row : Row) : Row := { row with follow := ∅ }

theorem bare_inner (nullable : Bool) (first last : NodeSet) :
    (inner nullable first last).bare = inner nullable first last := rfl

/-- The rows, numbered from `id` on, in which the leaves in `starts` can come right after each of
the leaves in `ends`, in addition to those that can already. -/
def handDown (id : Nat) (ends starts : NodeSet) (rows : List Row) : List Row :=
  rows.mapIdx fun i row => if id + i ∈ ends then row.addFollow starts else row

private theorem getElem?_foldl_modify {l : List Nat} (hl : l.Nodup) (f : Row → Row)
    (rows : Array Row) (i : Nat) :
    (l.foldl (fun rows n => rows.modify n f) rows)[i]? =
      if i ∈ l then rows[i]?.map f else rows[i]? := by
  induction l generalizing rows with
  | nil => simp
  | cons n l ih =>
    obtain ⟨hn, hl⟩ := List.nodup_cons.mp hl
    rw [List.foldl_cons, ih hl, Array.getElem?_modify]
    by_cases hin : n = i
    · subst hin
      simp [hn]
    · simp [hin, Ne.symm hin]

theorem toList_connect (ends starts : NodeSet) (rows : Array Row) :
    (connect ends starts rows).toList = handDown 0 ends starts rows.toList := by
  refine List.ext_getElem? fun i => ?_
  rw [Array.getElem?_toList, connect, getElem?_foldl_modify ends.nodup_toList, handDown,
    List.getElem?_mapIdx, Array.getElem?_toList]
  simp only [Nat.zero_add, SortedSet.mem_def]
  split
  · rfl
  · exact Option.map_id'.symm

theorem handDown_append (rows rows' : List Row) :
    handDown id ends starts (rows ++ rows') =
      handDown id ends starts rows ++ handDown (id + rows.length) ends starts rows' := by
  rw [handDown, List.mapIdx_append]
  congr 2
  funext i row
  rw [Nat.add_comm i, Nat.add_assoc]

theorem handDown_eq_self (h : ∀ i < rows.length, id + i ∉ ends) :
    handDown id ends starts rows = rows := by
  refine List.ext_getElem? fun i => ?_
  rw [handDown, List.getElem?_mapIdx]
  cases hrow : rows[i]? with
  | none => rfl
  | some row => simp [h i (List.getElem?_eq_some_iff.mp hrow).1]

theorem handDown_congr {ends' : NodeSet}
    (h : ∀ i < rows.length, id + i ∈ ends ↔ id + i ∈ ends') :
    handDown id ends starts rows = handDown id ends' starts rows := by
  refine List.ext_getElem? fun i => ?_
  rw [handDown, handDown, List.getElem?_mapIdx, List.getElem?_mapIdx]
  cases hrow : rows[i]? with
  | none => rfl
  | some row => simp only [h i (List.getElem?_eq_some_iff.mp hrow).1]

theorem handDown_middle (hid : before.length = id)
    (hends : ∀ n ∈ ends, id ≤ n ∧ n < id + rows.length) :
    handDown 0 ends starts (before ++ (rows ++ after)) =
      before ++ (handDown id ends starts rows ++ after) := by
  have hbefore : handDown 0 ends starts before = before := handDown_eq_self fun i hi hmem => by
    have := hends _ hmem
    omega
  have hafter : handDown (id + rows.length) ends starts after = after :=
    handDown_eq_self fun i _ hmem => by
      have := hends _ hmem
      omega
  rw [handDown_append, handDown_append, Nat.zero_add, hid, hbefore, hafter]

end Row

namespace Expr

variable {e l r : Expr Mark} {position n finish : Nat} {parent : Option Nat} {follow : NodeSet}

theorem size_pos (e : Expr Mark) : 0 < e.size := by
  cases e <;> exact Nat.succ_pos _

theorem bounds_of_mem_last (h : n ∈ (e.positions id position).last) : id ≤ n ∧ n < id + e.size := by
  obtain ⟨a, ha⟩ := (mem_last_positions_iff id position e n).mp h
  exact bounds_of_mem_leaves ha.mem_leaves

private theorem handDown_sides {first second : List Row} {root : Row} {A B : NodeSet}
    (hfirst : first.length = l.size) (hsecond : second.length = r.size)
    (hends : ∀ n, n ∈ ends ↔ n ∈ A ∨ n ∈ B)
    (hL : ∀ n ∈ A, id ≤ n ∧ n < id + l.size)
    (hR : ∀ n ∈ B, id + l.size ≤ n ∧ n < id + l.size + r.size) :
    Row.handDown id ends starts (first ++ second ++ [root]) =
      Row.handDown id A starts first ++ Row.handDown (id + l.size) B starts second ++
        [root] := by
  rw [Row.handDown_append, Row.handDown_append, List.length_append, hfirst, hsecond]
  have hfirstEnds : ∀ i < first.length, id + i ∈ ends ↔ id + i ∈ A := fun i hi => by
    rw [hends, or_iff_left]
    intro hmem
    have := hR _ hmem
    omega
  have hsecondEnds : ∀ i < second.length, id + l.size + i ∈ ends ↔ id + l.size + i ∈ B :=
    fun i hi => by
      rw [hends, or_iff_right]
      intro hmem
      have := hL _ hmem
      omega
  have hroot : ∀ i < [root].length, id + (l.size + r.size) + i ∉ ends := fun i hi hmem => by
    rcases (hends _).mp hmem with hmem | hmem
    · have := hL _ hmem
      omega
    · have := hR _ hmem
      omega
  rw [Row.handDown_congr hfirstEnds, Row.handDown_congr hsecondEnds, Row.handDown_eq_self hroot]

/-- The rows of a subtree hold what follows it after it has been added to its last leaves. So it
makes no difference whether a subtree is told beforehand what follows it or learns it later. -/
theorem handDown_rows (e : Expr Mark) (id position : Nat) (follow more : NodeSet) :
    Row.handDown id (e.positions id position).last more ((e.positions id position).rows follow) =
      (e.positions id position).rows (follow ∪ more) := by
  induction e generalizing id position follow with
  | epsilon => rfl
  | leaf a => rcases a with (c | tag) | _ <;> simp [Row.handDown, Row.ofLeaf, Row.addFollow]
  | alt l r ihl ihr =>
    simp only [positions, size_positions, leafCount_positions]
    rw [handDown_sides (length_rows_positions ..) (length_rows_positions ..)
      (fun n => SortedSet.mem_union) (fun n => bounds_of_mem_last) (fun n => bounds_of_mem_last),
      ihl, ihr]
  | cat l r ihl ihr =>
    simp only [positions, size_positions, leafCount_positions]
    generalize hR : r.positions (id + l.size) (position + l.leafCount) = R
    cases hnullable : R.nullable with
    | true =>
      simp only [if_true]
      rw [handDown_sides (length_rows_positions ..) (hR ▸ length_rows_positions ..)
        (fun n => SortedSet.mem_union.trans or_comm) (fun n => bounds_of_mem_last)
        (fun n hn => bounds_of_mem_last (hR.symm ▸ hn)), ihl, ← hR, ihr, SortedSet.union_assoc]
    | false =>
      -- the first side does not end the whole
      simp only [Bool.false_eq_true, if_false]
      rw [handDown_sides (A := ∅) (B := R.last) (length_rows_positions ..)
        (hR ▸ length_rows_positions ..) (fun n => by simp)
        (fun n hn => absurd hn (SortedSet.not_mem_empty n))
        (fun n hn => bounds_of_mem_last (hR.symm ▸ hn)), ← hR, ihr,
        Row.handDown_eq_self fun _ _ => SortedSet.not_mem_empty _]
  | star e ih =>
    simp only [positions]
    rw [Row.handDown_append, ih, SortedSet.union_assoc, length_rows_positions, Row.handDown_eq_self]
    intro i _ hmem
    have := bounds_of_mem_last hmem
    omega

/-! ### The roots of subtrees -/

/-- The row says of the root of a subtree what the position data of the subtree say. This is what
the passes read of a child. -/
structure IsRootRow (data : Positions) (row : Row) : Prop where
  nullable_eq : row.nullable = data.nullable
  first_eq : row.first = data.first
  last_eq : row.last = data.last

/-- A list of rows for the nodes of a subtree, of which the last is that of the root. -/
structure EndsInRoot (e : Expr Mark) (data : Positions) (block : List Row) : Prop where
  length_eq : block.length = e.size
  root : ∃ row, block[e.size - 1]? = some row ∧ IsRootRow data row

theorem endsInRoot_rows (e : Expr Mark) (id position : Nat) (follow : NodeSet) :
    EndsInRoot e (e.positions id position) ((e.positions id position).rows follow) := by
  refine ⟨length_rows_positions .., ?_⟩
  cases e with
  | epsilon => exact ⟨_, rfl, rfl, rfl, rfl⟩
  | leaf a => rcases a with (c | tag) | _ <;> exact ⟨_, rfl, rfl, rfl, rfl⟩
  | alt l r | cat l r =>
    refine ⟨.inner _ _ _, ?_, rfl, rfl, rfl⟩
    simp only [positions, size_positions, leafCount_positions, size, Nat.add_sub_cancel]
    rw [List.getElem?_append_right (by simp), List.length_append, length_rows_positions,
      length_rows_positions, Nat.sub_self]
    rfl
  | star e =>
    refine ⟨.inner _ _ _, ?_, rfl, rfl, rfl⟩
    simp only [positions, size, Nat.add_sub_cancel]
    rw [List.getElem?_append_right (by simp), length_rows_positions, Nat.sub_self]
    rfl

theorem EndsInRoot.map_bare {data : Positions} {block : List Row} (h : EndsInRoot e data block) :
    EndsInRoot e data (block.map Row.bare) := by
  obtain ⟨row, hrow, hroot⟩ := h.root
  refine ⟨by rw [List.length_map, h.length_eq], row.bare, ?_, ?_⟩
  · rw [List.getElem?_map, hrow, Option.map_some]
  · exact ⟨hroot.nullable_eq, hroot.first_eq, hroot.last_eq⟩

private theorem EndsInRoot.exists_row {data : Positions} {block : List Row} {table : Array Row}
    (h : EndsInRoot e data block) (htable : table.toList = before ++ (block ++ after))
    (hid : before.length = id) : ∃ row, table[e.rootId id]? = some row ∧ IsRootRow data row := by
  obtain ⟨row, hrow, hroot⟩ := h.root
  have hpos := e.size_pos
  have hlength := h.length_eq
  refine ⟨row, ?_, hroot⟩
  rw [← Array.getElem?_toList, htable, rootId, List.getElem?_append_right (by omega), hid,
    List.getElem?_append_left (by omega), show id + e.size - 1 - id = e.size - 1 by omega, hrow]

private theorem EndsInRoot.exists_rows {data data' : Positions} {block block' : List Row}
    {table : Array Row} (h : EndsInRoot l data block) (h' : EndsInRoot r data' block')
    (htable : table.toList = before ++ (block ++ (block' ++ after))) (hid : before.length = id) :
    ∃ L R, table[l.rootId id]? = some L ∧ table[r.rootId (id + l.size)]? = some R ∧
      IsRootRow data L ∧ IsRootRow data' R := by
  obtain ⟨L, hL, hrootL⟩ := h.exists_row htable hid
  rw [← List.append_assoc] at htable
  obtain ⟨R, hR, hrootR⟩ := h'.exists_row htable (by rw [List.length_append, hid, h.length_eq])
  exact ⟨L, R, hL, hR, hrootL, hrootR⟩

private theorem foldlM_sides {f : Array Row → Node → Option (Array Row)} {t t₁ t₂ t₃ : Array Row}
    {ns ns' : List Node} {n : Node} (h₁ : ns.foldlM f t = some t₁) (h₂ : ns'.foldlM f t₁ = some t₂)
    (h₃ : f t₂ n = some t₃) : (ns ++ ns' ++ [n]).foldlM f t = some t₃ := by
  rw [List.foldlM_append, List.foldlM_append, h₁]
  simp [h₂, h₃]

/-! ### The first pass -/

private theorem enter_eq_push {table : Array Row} {node : Node} {row : Row}
    (h : node.row? finish table table.size = some row) :
    node.enter finish table = some (table.push row) := by
  rw [Node.enter, h]
  rfl

private theorem row?_leaf (table : Array Row) (position : Nat) (parent : Option Nat) {a : Mark}
    (h : a = .finish ↔ id = finish) :
    Node.row? finish table id ⟨a.token, parent, none, none, some position⟩ =
      some (Row.ofLeaf id position ∅ a) := by
  rcases a with (c | tag) | _
  · have hne : id ≠ finish := fun heq => nomatch h.mpr heq
    simp [Node.row?, Mark.token, Leaf.token, Row.ofLeaf, hne]
  · rfl
  · obtain rfl := h.mp rfl
    simp [Node.row?, Mark.token, Row.ofLeaf]

theorem bare_ofLeaf (id position : Nat) (follow : NodeSet) (a : Mark) :
    (Row.ofLeaf id position follow a).bare = Row.ofLeaf id position ∅ a := by
  rcases a with (c | tag) | _ <;> rfl

private theorem exists_enter_operator {table t₁ t₂ : Array Row} {ns ns' : List Node} {node : Node}
    {root : Row} {F G : NodeSet} (hid : table.toList.length = id)
    (h₁ : ns.foldlM (Node.enter finish) table = some t₁)
    (hrows₁ : t₁.toList = table.toList ++ ((l.positions id position).rows F).map Row.bare)
    (h₂ : ns'.foldlM (Node.enter finish) t₁ = some t₂)
    (hrows₂ : t₂.toList = t₁.toList ++
      ((r.positions (id + l.size) (position + l.leafCount)).rows G).map Row.bare)
    (hroot : root.bare = root)
    (hnode : ∀ L R, t₂[l.rootId id]? = some L → t₂[r.rootId (id + l.size)]? = some R →
      IsRootRow (l.positions id position) L →
      IsRootRow (r.positions (id + l.size) (position + l.leafCount)) R →
      node.row? finish t₂ t₂.size = some root) :
    ∃ table', (ns ++ ns' ++ [node]).foldlM (Node.enter finish) table = some table' ∧
      table'.toList = table.toList ++ ((l.positions id position).rows F ++
        (r.positions (id + l.size) (position + l.leafCount)).rows G ++ [root]).map Row.bare := by
  rw [hrows₁, List.append_assoc] at hrows₂
  have hsides : t₂.toList = table.toList ++ (((l.positions id position).rows F).map Row.bare ++
      (((r.positions (id + l.size) (position + l.leafCount)).rows G).map Row.bare ++ [])) := by
    rw [hrows₂, List.append_nil]
  obtain ⟨L, R, hL, hR, hrootL, hrootR⟩ := (endsInRoot_rows l id position F).map_bare.exists_rows
    (endsInRoot_rows r _ _ G).map_bare hsides hid
  refine ⟨t₂.push root, foldlM_sides h₁ h₂ (enter_eq_push (hnode L R hL hR hrootL hrootR)), ?_⟩
  rw [Array.toList_push, hrows₂, List.map_append, List.map_append, List.map_singleton, hroot,
    List.append_assoc]

/-- The first pass enters the rows of a subtree, but for what can follow its leaves, after the rows
of the nodes that come before the subtree. -/
theorem exists_foldlM_enter (e : Expr Mark) (id position : Nat) (parent : Option Nat)
    (follow : NodeSet) (table : Array Row) (hid : table.toList.length = id)
    (hfinish : ∀ x ∈ (e.numbered id).leaves, x.2 = .finish ↔ x.1 = finish) :
    ∃ table', (e.nodesFrom id position parent).foldlM (Node.enter finish) table = some table' ∧
      table'.toList = table.toList ++ ((e.positions id position).rows follow).map Row.bare := by
  induction e generalizing id position parent follow table with
  | epsilon => exact ⟨_, rfl, by simp [positions, Row.bare_inner]⟩
  | leaf a =>
    have hmark := hfinish (id, a) (by simp [numbered, leaves])
    subst hid
    have hrow := enter_eq_push (row?_leaf table position parent hmark)
    refine ⟨table.push (Row.ofLeaf table.size position ∅ a), ?_, ?_⟩
    · simp [nodesFrom, hrow]
    · simp [positions, bare_ofLeaf]
  | alt l r ihl ihr | cat l r ihl ihr =>
    obtain ⟨t₁, h₁, hrows₁⟩ := ihl id position (some (id + l.size + r.size)) _ table hid
      fun x hx => hfinish x (List.mem_append_left _ hx)
    obtain ⟨t₂, h₂, hrows₂⟩ := ihr (id + l.size) (position + l.leafCount)
      (some (id + l.size + r.size)) follow t₁ (by simp [hrows₁, hid])
      fun x hx => hfinish x (List.mem_append_right _ hx)
    simp only [positions, size_positions, leafCount_positions]
    refine exists_enter_operator hid h₁ hrows₁ h₂ hrows₂ rfl fun L R hL hR hrootL hrootR => ?_
    simp [Node.row?, hL, hR, hrootL.nullable_eq, hrootL.first_eq, hrootL.last_eq,
      hrootR.nullable_eq, hrootR.first_eq, hrootR.last_eq]
  | star e ih =>
    obtain ⟨t₁, h₁, hrows₁⟩ := ih id position (some (id + e.size))
      ((e.positions id position).first ∪ follow) table hid hfinish
    rw [← List.append_nil (List.map _ _)] at hrows₁
    obtain ⟨E, hE, hroot⟩ := (endsInRoot_rows e id position _).map_bare.exists_row hrows₁ hid
    have hnode : Node.row? finish t₁ t₁.size ⟨.op .star, parent, some (e.rootId id), none, none⟩ =
        some (.inner true (e.positions id position).first (e.positions id position).last) := by
      simp [Node.row?, hE, hroot.first_eq, hroot.last_eq]
    refine ⟨t₁.push (.inner true (e.positions id position).first (e.positions id position).last),
      ?_, ?_⟩
    · rw [nodesFrom, List.foldlM_append, h₁]
      simp [enter_eq_push hnode]
    · rw [Array.toList_push, hrows₁]
      simp [positions, Row.bare_inner]

/-! ### The second pass -/

private theorem sew_eq_connect {table : Array Row} {node : Node}
    (h : node.seam? table = some (ends, starts)) :
    node.sew table = some (Row.connect ends starts table) := by
  rw [Node.sew, h]
  rfl

/-- The second pass puts into the rows of a subtree what follows the leaves inside it, and leaves
all other rows of the table as they are. -/
theorem exists_foldlM_sew (e : Expr Mark) (id position : Nat) (parent : Option Nat)
    (follow : NodeSet) (before after : List Row) (table : Array Row) (hid : before.length = id)
    (htable : table.toList =
      before ++ (((e.positions id position).rows follow).map Row.bare ++ after)) :
    ∃ table', (e.nodesFrom id position parent).foldlM Node.sew table = some table' ∧
      table'.toList = before ++ ((e.positions id position).rows ∅ ++ after) := by
  induction e generalizing id position parent follow before after table with
  | epsilon => exact ⟨table, rfl, htable⟩
  | leaf a =>
    refine ⟨table, ?_, by simpa [positions, bare_ofLeaf] using htable⟩
    rcases a with (c | tag) | _ <;> rfl
  | alt l r ihl ihr =>
    simp only [positions, size_positions, leafCount_positions, List.map_append,
      List.append_assoc] at htable
    obtain ⟨t₁, h₁, hrows₁⟩ := ihl id position (some (id + l.size + r.size)) follow before _ table
      hid htable
    rw [← List.append_assoc] at hrows₁
    obtain ⟨t₂, h₂, hrows₂⟩ := ihr (id + l.size) (position + l.leafCount)
      (some (id + l.size + r.size)) follow _ _ t₁ (by simp [hid]) hrows₁
    refine ⟨t₂, foldlM_sides h₁ h₂ rfl, ?_⟩
    simpa [positions, Row.bare_inner] using hrows₂
  | cat l r ihl ihr =>
    simp only [positions, size_positions, leafCount_positions, List.map_append,
      List.append_assoc] at htable
    obtain ⟨t₁, h₁, hrows₁⟩ := ihl id position (some (id + l.size + r.size)) _ before _ table
      hid htable
    rw [← List.append_assoc] at hrows₁
    obtain ⟨t₂, h₂, hrows₂⟩ := ihr (id + l.size) (position + l.leafCount)
      (some (id + l.size + r.size)) follow _ _ t₁ (by simp [hid]) hrows₁
    rw [List.append_assoc] at hrows₂
    obtain ⟨L, R, hL, hR, hrootL, hrootR⟩ := (endsInRoot_rows l id position ∅).exists_rows
      (endsInRoot_rows r _ _ ∅) hrows₂ hid
    have hnode : Node.seam? t₂ ⟨.op .cat, parent, some (l.rootId id), some (r.rootId (id + l.size)),
        none⟩ = some ((l.positions id position).last,
          (r.positions (id + l.size) (position + l.leafCount)).first) := by
      simp [Node.seam?, hL, hR, hrootL.last_eq, hrootR.first_eq]
    refine ⟨_, foldlM_sides h₁ h₂ (sew_eq_connect hnode), ?_⟩
    rw [Row.toList_connect, hrows₂, Row.handDown_middle hid, handDown_rows, SortedSet.empty_union]
    · simp [positions, Row.bare_inner]
    · intro n hn
      rw [length_rows_positions]
      exact bounds_of_mem_last hn
  | star e ih =>
    simp only [positions, List.map_append, List.append_assoc] at htable
    obtain ⟨t₁, h₁, hrows₁⟩ := ih id position (some (id + e.size)) _ before _ table hid htable
    obtain ⟨E, hE, hroot⟩ := (endsInRoot_rows e id position ∅).exists_row hrows₁ hid
    have hnode : Node.seam? t₁ ⟨.op .star, parent, some (e.rootId id), none, none⟩ =
        some ((e.positions id position).last, (e.positions id position).first) := by
      simp [Node.seam?, hE, hroot.first_eq, hroot.last_eq]
    refine ⟨Row.connect (e.positions id position).last (e.positions id position).first t₁, ?_, ?_⟩
    · rw [nodesFrom, List.foldlM_append, h₁]
      simp [sew_eq_connect hnode]
    · rw [Row.toList_connect, hrows₁, Row.handDown_middle hid, handDown_rows,
        SortedSet.empty_union]
      · simp [positions, Row.bare_inner]
      · intro n hn
        rw [length_rows_positions]
        exact bounds_of_mem_last hn

/-! ### Both passes -/

theorem size_map {α β : Type} (f : α → β) (e : Expr α) : (e.map f).size = e.size := by
  induction e with
  | epsilon | leaf a => rfl
  | alt l r ihl ihr | cat l r ihl ihr => rw [map, size, size, ihl, ihr]
  | star e ih => rw [map, size, size, ih]

theorem eq_finish_iff (e : Expr Leaf) :
    ∀ x ∈ (e.augmented.numbered 0).leaves, x.2 = .finish ↔ x.1 = e.finishId := by
  intro x hx
  rcases List.mem_append.mp hx with hx | hx
  · have hbounds := bounds_of_mem_leaves hx
    rw [size_map] at hbounds
    have hmark : x.2 ∈ (e.map Mark.leaf).leaves := by
      rw [← map_snd_numbered 0 (e.map Mark.leaf), leaves_map]
      exact List.mem_map_of_mem hx
    rw [leaves_map] at hmark
    obtain ⟨a, -, ha⟩ := List.mem_map.mp hmark
    rw [← ha, finishId]
    exact iff_of_false nofun (by omega)
  · obtain rfl : x = (0 + (e.map Mark.leaf).size, Mark.finish) := by
      simpa [numbered, leaves] using hx
    simp [size_map, finishId]

/-- The annotation is the position table. The two passes over the nodes of a tree succeed and
compute what the recursion over the tree does. -/
theorem annotate_nodes (e : Expr Leaf) :
    Node.annotate e.finishId e.nodes = some e.positionTable.toArray := by
  obtain ⟨t₁, h₁, hrows₁⟩ := exists_foldlM_enter e.augmented 0 0 none ∅ #[] rfl e.eq_finish_iff
  obtain ⟨t₂, h₂, hrows₂⟩ := exists_foldlM_sew e.augmented 0 0 none ∅ [] [] t₁ rfl
    (by simpa using hrows₁)
  rw [Node.annotate, nodes, h₁, Option.bind_eq_bind, Option.bind_some, h₂, Option.some.injEq]
  exact Array.toList_inj.mp (by simpa [positionTable] using hrows₂)

end Expr

end Recognizer.Regex

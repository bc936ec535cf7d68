import Recognizer.Regex.Positions

/-!
# Annotating linked nodes

The position table of an augmented tree, computed from its linked nodes in two passes over their
list. Children come before their parents in the list. So the first pass, which says of each node
whether its subtree can be empty and with which leaves it can begin and end, finds the rows of the
children in the table when it comes to the parent. The second pass adds to the rows of leaves what
can follow them: at a concatenation, what ends the first side can be followed by what begins the
second side, and at a repetition, what ends the body can be followed by what begins the body. The
row of one leaf receives additions from any number of nodes above it.

Nodes that lack a child which their operator needs, or that have one too many, have no annotation.

## Main definitions

* `Node.row?`: the row of a node, but for what can follow it, by the rows of the nodes before it.
* `Node.seam?`: the leaves between which a node is a seam.
* `Row.connect`: a table in which some leaves can be followed by some others in addition.
* `Node.annotate`: the position table of a list of nodes.
-/

namespace Recognizer.Regex

/-- The row with more leaves that can come right after the leaf. -/
def Row.addFollow (row : Row) (more : NodeSet) : Row := { row with follow := row.follow ∪ more }

/-- The table in which the leaves in `starts` can come right after each of the leaves in `ends`, in
addition to those that can already. The other rows stay as they are. -/
def Row.connect (ends starts : NodeSet) (rows : Array Row) : Array Row :=
  ends.toList.foldl (fun rows leaf => rows.modify leaf (·.addFollow starts)) rows

namespace Node

/-- The row of a node with number `id`, but for what can follow it, if `rows` are the rows of the
nodes before it and `finish` is the number of the end marker's leaf. There is none if a child is
missing, if its row is not in the table yet, or if the node has a child that its operator has no use
for. -/
def row? (finish : Nat) (rows : Array Row) (id : Nat) (node : Node) : Option Row :=
  match node.value, node.left, node.right with
  | .epsilon, _, _ => some (.inner true ∅ ∅)
  | .lit c, _, _ =>
    some ⟨false, {id}, {id}, ∅, if id = finish then none else some c, id = finish, node.position,
      none⟩
  | .action tag, _, _ => some ⟨false, {id}, {id}, ∅, none, false, node.position, some tag⟩
  | .op .alt, some left, some right => do
    let l ← rows[left]?
    let r ← rows[right]?
    return .inner (l.nullable || r.nullable) (l.first ∪ r.first) (l.last ∪ r.last)
  | .op .cat, some left, some right => do
    let l ← rows[left]?
    let r ← rows[right]?
    return .inner (l.nullable && r.nullable)
      (if l.nullable then l.first ∪ r.first else l.first)
      (if r.nullable then r.last ∪ l.last else r.last)
  | .op .star, some body, none => do
    let e ← rows[body]?
    return .inner true e.first e.last
  | _, _, _ => none

/-- The leaves that end the part before the seam of a node, and those that begin the part after it:
the seam of a concatenation is between its two sides, that of a repetition between its body and the
body again. A node of another kind has no seam. -/
def seam? (rows : Array Row) (node : Node) : Option (NodeSet × NodeSet) :=
  match node.value, node.left, node.right with
  | .op .cat, some left, some right => do
    let l ← rows[left]?
    let r ← rows[right]?
    return (l.last, r.first)
  | .op .star, some body, none => do
    let e ← rows[body]?
    return (e.last, e.first)
  | _, _, _ => some (∅, ∅)

/-- The first pass takes the row of a node into the table. -/
def enter (finish : Nat) (rows : Array Row) (node : Node) : Option (Array Row) :=
  rows.push <$> node.row? finish rows rows.size

/-- The second pass connects the leaves at the seam of a node. -/
def sew (rows : Array Row) (node : Node) : Option (Array Row) :=
  (fun seam => Row.connect seam.1 seam.2 rows) <$> node.seam? rows

/-- The position table of a list of nodes, of which the one with number `finish` is the end marker's
leaf. The first pass fills it row by row, and the second one, which begins when all rows are there,
sews the seams. -/
def annotate (finish : Nat) (nodes : List Node) : Option (Array Row) := do
  nodes.foldlM sew (← nodes.foldlM (enter finish) #[])

end Node

end Recognizer.Regex

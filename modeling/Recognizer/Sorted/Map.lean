import Std.Data.ExtTreeMap
import Recognizer.Sorted.Set

/-!
# Finite maps in order

A finite map with ordered keys is kept as a balanced search tree, so that a look-up takes few
comparisons. Trees with the same look-ups count as equal, so equality of maps is equality of
look-ups, and every listing of a map is in the order of its keys.

## Main definitions

* `SortedMap κ ν`: a finite map, with `get?`, `insert`, `unionWith`, `mapValues`, `toList`, `keys`.
* `SortedMap.ofList`, `SortedMap.firstOf`: the map of some entries, of which for each key the last
  one counts, or the first.
* `SortedMap.places l`: the place of the first occurrence of each value in a list.

## Main results

* `SortedMap.ext`: maps with the same look-ups are equal.
* `SortedMap.mem_toList`: the listing holds what the look-ups find; `SortedMap.ascending_toList`: it
  is in the order of the keys.
* `SortedMap.get?_unionWith` and its companions: the look-ups in each operation's result.
-/

namespace Recognizer

/-- A finite map, as a balanced search tree. Maps are compared by their look-ups (`SortedMap.ext`),
not by the shape of their trees. -/
structure SortedMap (κ ν : Type) [Ord κ] where
  tree : Std.ExtTreeMap κ ν compare

namespace SortedMap

variable {κ ν μ : Type} [Ord κ]

instance : EmptyCollection (SortedMap κ ν) := ⟨⟨∅⟩⟩

instance : Inhabited (SortedMap κ ν) := ⟨∅⟩

variable [Std.TransOrd κ]

/-- The entries in the order of their keys. -/
def toList (m : SortedMap κ ν) : List (κ × ν) := m.tree.toList

theorem toList_injective {m n : SortedMap κ ν} (h : m.toList = n.toList) : m = n := by
  cases m
  cases n
  exact congrArg mk (Std.ExtTreeMap.toList_inj.mp h)

instance [DecidableEq κ] [DecidableEq ν] : DecidableEq (SortedMap κ ν) := fun m n =>
  decidable_of_iff (m.toList = n.toList) ⟨toList_injective, fun h => h ▸ rfl⟩

/-- The value at `k`. -/
def get? (m : SortedMap κ ν) (k : κ) : Option ν := m.tree[k]?

/-- The number of entries. -/
def size (m : SortedMap κ ν) : Nat := m.tree.size

/-- The keys in order. -/
def keys (m : SortedMap κ ν) : SortedSet κ := ⟨m.tree.keys, m.tree.ordered_keys⟩

/-- The values in the order of their keys. -/
def values (m : SortedMap κ ν) : List ν := m.toList.map Prod.snd

/-- The map with `f k x` in the place of every value `x`, `k` being its key. -/
def mapWithKey (f : κ → ν → μ) (m : SortedMap κ ν) : SortedMap κ μ := ⟨m.tree.map f⟩

/-- The map with `f` applied to every value. -/
def mapValues (f : ν → μ) (m : SortedMap κ ν) : SortedMap κ μ := m.mapWithKey fun _ => f

/-- The map with `k ↦ x` in the place of any entry for `k`. -/
def insert (m : SortedMap κ ν) (k : κ) (x : ν) : SortedMap κ ν := ⟨m.tree.insert k x⟩

/-- The map with `k ↦ x`; the new value is combined with one already there by `f`. -/
def insertWith (f : ν → ν → ν) (m : SortedMap κ ν) (k : κ) (x : ν) : SortedMap κ ν :=
  ⟨m.tree.alter k fun old => some (old.elim x (f x))⟩

/-- Both maps in one; the values of a key in both are combined by `f`, the value of the first map
being its first argument. -/
def unionWith (f : ν → ν → ν) (m n : SortedMap κ ν) : SortedMap κ ν :=
  n.toList.foldl (fun m e => m.insertWith (fun x old => f old x) e.1 e.2) m

/-- The map of a list of entries; of several entries for one key the last one counts. -/
def ofList (l : List (κ × ν)) : SortedMap κ ν := l.foldl (fun m e => m.insert e.1 e.2) ∅

/-- The map of a list of entries; of several entries for one key the first one counts. -/
def firstOf (l : List (κ × ν)) : SortedMap κ ν := ofList l.reverse

/-- The map that takes each member `k` of a set to `f k`. -/
def tabulate (s : SortedSet κ) (f : κ → ν) : SortedMap κ ν :=
  ofList (s.toList.map fun k => (k, f k))

/-- The place of the first occurrence of each value in a list. -/
def places (l : List κ) : SortedMap κ Nat := firstOf l.zipIdx

/-! ### Listings -/

theorem ascending_toList (m : SortedMap κ ν) :
    m.toList.Pairwise fun a b => compare a.1 b.1 = .lt :=
  m.tree.ordered_keys_toList

theorem map_fst_toList (m : SortedMap κ ν) : m.toList.map Prod.fst = m.keys.toList :=
  m.tree.map_fst_toList_eq_keys

@[simp] theorem length_toList (m : SortedMap κ ν) : m.toList.length = m.size :=
  m.tree.length_toList

@[simp] theorem toList_empty : (∅ : SortedMap κ ν).toList = [] := rfl

@[simp] theorem toList_mapWithKey (f : κ → ν → μ) (m : SortedMap κ ν) :
    (m.mapWithKey f).toList = m.toList.map fun e => (e.1, f e.1 e.2) :=
  Std.ExtTreeMap.toList_map

/-! ### Look-ups -/

@[simp] theorem get?_empty (k : κ) : (∅ : SortedMap κ ν).get? k = none :=
  Std.ExtTreeMap.getElem?_empty

section Lawful

variable [Std.LawfulEqOrd κ]

/-- The listing holds the entries that look-ups find. -/
theorem mem_toList {m : SortedMap κ ν} {k : κ} {x : ν} : (k, x) ∈ m.toList ↔ m.get? k = some x :=
  Std.ExtTreeMap.mem_toList_iff_getElem?_eq_some

theorem mem_keys {m : SortedMap κ ν} {k : κ} : k ∈ m.keys ↔ (m.get? k).isSome := by
  rw [SortedSet.mem_def, ← map_fst_toList, List.mem_map, Option.isSome_iff_exists]
  constructor
  · rintro ⟨⟨_, x⟩, h, rfl⟩
    exact ⟨x, mem_toList.mp h⟩
  · rintro ⟨x, h⟩
    exact ⟨(k, x), mem_toList.mpr h, rfl⟩

/-- Maps with the same look-ups are equal. -/
@[ext] theorem ext {m n : SortedMap κ ν} (h : ∀ k, m.get? k = n.get? k) : m = n := by
  cases m
  cases n
  exact congrArg mk (Std.ExtTreeMap.ext_getElem? h)

@[simp] theorem get?_mapWithKey (f : κ → ν → μ) (m : SortedMap κ ν) (k : κ) :
    (m.mapWithKey f).get? k = (m.get? k).map (f k) :=
  Std.ExtTreeMap.getElem?_map

@[simp] theorem get?_mapValues (f : ν → μ) (m : SortedMap κ ν) (k : κ) :
    (m.mapValues f).get? k = (m.get? k).map f := get?_mapWithKey ..

section DecidableKeys

variable [DecidableEq κ]

theorem get?_insert (m : SortedMap κ ν) (l : κ) (x : ν) (k : κ) :
    (m.insert l x).get? k = if k = l then some x else m.get? k := by
  simp only [get?, insert, Std.ExtTreeMap.getElem?_insert, Std.LawfulEqCmp.compare_eq_iff_eq,
    eq_comm (a := l)]

theorem get?_insertWith (f : ν → ν → ν) (m : SortedMap κ ν) (l : κ) (x : ν) (k : κ) :
    (m.insertWith f l x).get? k =
      if k = l then some ((m.get? k).elim x (f x)) else m.get? k := by
  simp only [get?, insertWith, Std.ExtTreeMap.getElem?_alter, Std.LawfulEqCmp.compare_eq_iff_eq,
    eq_comm (a := l)]
  split
  · next h => rw [h]
  · rfl

private theorem get?_foldl_insert (l : List (κ × ν)) (m : SortedMap κ ν) (k : κ) :
    (l.foldl (fun m e => m.insert e.1 e.2) m).get? k =
      ((l.reverse.find? fun e => e.1 = k).map Prod.snd).or (m.get? k) := by
  induction l generalizing m with
  | nil => rfl
  | cons e es ih =>
    rw [List.foldl_cons, ih, List.reverse_cons, List.find?_append, get?_insert]
    cases es.reverse.find? fun e => e.1 = k with
    | some found => rfl
    | none => by_cases h : e.1 = k <;> simp [h, eq_comm (a := k)]

theorem get?_ofList (l : List (κ × ν)) (k : κ) :
    (ofList l).get? k = (l.reverse.find? fun e => e.1 = k).map Prod.snd := by
  rw [ofList, get?_foldl_insert, get?_empty, Option.or_none]

/-- The first entry for a key counts. -/
theorem get?_firstOf (l : List (κ × ν)) (k : κ) :
    (firstOf l).get? k = (l.find? fun e => e.1 = k).map Prod.snd := by
  rw [firstOf, get?_ofList, List.reverse_reverse]

@[simp] theorem get?_tabulate (s : SortedSet κ) (f : κ → ν) (k : κ) :
    (tabulate s f).get? k = if k ∈ s then some (f k) else none := by
  rw [tabulate, get?_ofList, ← List.map_reverse, List.find?_map, Option.map_map]
  cases h : s.toList.reverse.find? ((fun e => decide (e.1 = k)) ∘ fun k => (k, f k)) with
  | none =>
    have hk : k ∉ s := fun hk => by
      simpa using List.find?_eq_none.mp h k (List.mem_reverse.mpr hk)
    rw [if_neg hk]
    rfl
  | some found =>
    have hfound : found = k := by simpa using List.find?_some h
    have hk : k ∈ s := hfound ▸ List.mem_reverse.mp (List.mem_of_find?_eq_some h)
    rw [if_pos hk, hfound]
    rfl

private theorem find?_zipIdx (l : List κ) (n : Nat) (k : κ) :
    ((l.zipIdx n).find? fun e => e.1 = k).map Prod.snd = (l.idxOf? k).map (· + n) := by
  induction l generalizing n with
  | nil => rfl
  | cons a as ih =>
    rw [List.zipIdx_cons, List.find?_cons, List.idxOf?_cons]
    by_cases h : a = k
    · simp [h]
    · have := ih (n + 1)
      simp only [h, decide_false, beq_iff_eq, if_false, this, Option.map_map]
      congr 1
      funext i
      simp only [Function.comp_apply]
      omega

theorem get?_places (l : List κ) (k : κ) : (places l).get? k = l.idxOf? k := by
  rw [places, get?_firstOf, find?_zipIdx]
  simp

private theorem get?_foldl_insertWith_of_forall_ne (f : ν → ν → ν) {l : List (κ × ν)}
    (m : SortedMap κ ν) {k : κ} (h : ∀ e ∈ l, e.1 ≠ k) :
    (l.foldl (fun m e => m.insertWith (fun x old => f old x) e.1 e.2) m).get? k = m.get? k := by
  induction l generalizing m with
  | nil => rfl
  | cons e es ih =>
    rw [List.foldl_cons, ih _ fun e he => h e (List.mem_cons_of_mem _ he), get?_insertWith,
      if_neg fun hk => h e List.mem_cons_self hk.symm]

private theorem get?_foldl_insertWith_of_mem (f : ν → ν → ν) {l : List (κ × ν)}
    (m : SortedMap κ ν) {k : κ} {x : ν} (hl : l.Pairwise fun a b => compare a.1 b.1 = .lt)
    (h : (k, x) ∈ l) :
    (l.foldl (fun m e => m.insertWith (fun x old => f old x) e.1 e.2) m).get? k =
      some ((m.get? k).elim x fun old => f old x) := by
  induction l generalizing m with
  | nil => simp at h
  | cons e es ih =>
    obtain ⟨he, hes⟩ := List.pairwise_cons.mp hl
    have hne : ∀ b ∈ es, b.1 ≠ e.1 := fun b hb hbe => by
      have := he b hb
      simp [hbe] at this
    rw [List.foldl_cons]
    rcases List.mem_cons.mp h with rfl | h
    · rw [get?_foldl_insertWith_of_forall_ne f _ hne, get?_insertWith, if_pos rfl]
    · rw [ih _ hes h, get?_insertWith, if_neg (hne _ h)]

@[simp] theorem get?_unionWith (f : ν → ν → ν) (m n : SortedMap κ ν) (k : κ) :
    (m.unionWith f n).get? k = (m.get? k).merge f (n.get? k) := by
  rw [unionWith]
  cases h : n.get? k with
  | none =>
    rw [get?_foldl_insertWith_of_forall_ne f m, Option.merge_none_right]
    rintro ⟨l, x⟩ he rfl
    rw [mem_toList.mp he] at h
    cases h
  | some x =>
    rw [get?_foldl_insertWith_of_mem f m n.ascending_toList (mem_toList.mpr h)]
    cases m.get? k <;> rfl

end DecidableKeys

end Lawful

end SortedMap

end Recognizer

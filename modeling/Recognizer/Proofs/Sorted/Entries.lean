import Mathlib.Data.List.Nodup
import Recognizer.Sorted.Map

/-!
# The entries of finite maps and sets

What a look-up finds in a map that was made from a list of entries, and how often a listing names a
value.

## Main results

* `SortedMap.get?_ofList_eq_some_iff`: if no key occurs twice, look-ups find just the entries.
* `SortedMap.get?_ofList_places_eq_some_iff`: look-ups of places lead to where the values stand.
* `SortedMap.keys_tabulate`, `SortedMap.keys_mapValues`: the keys of a map.
* `SortedMap.nodup_map_fst_toList`: no key occurs twice in a listing.
* `SortedMap.get?_firstOf_map_toList`: look-ups in a map whose keys have been renamed.
* `SortedMap.ofList_toList`, `SortedSet.ofList_toList`: the map and the set of a listing.
-/

/-- No value is less than itself. -/
theorem Recognizer.ne_of_compare_eq_lt {α : Type} [Ord α] [Std.TransOrd α] {a b : α}
    (h : compare a b = .lt) : a ≠ b := by
  rintro rfl
  have hself : compare a a = .eq := Std.ReflCmp.compare_self
  rw [hself] at h
  cases h

namespace Recognizer.SortedMap

variable {κ ν : Type} [Ord κ] [Std.TransOrd κ] [Std.LawfulEqOrd κ]

theorem mem_of_get?_ofList [DecidableEq κ] {l : List (κ × ν)} {k : κ} {x : ν}
    (h : (ofList l).get? k = some x) : (k, x) ∈ l := by
  rw [get?_ofList, Option.map_eq_some_iff] at h
  obtain ⟨e, he, rfl⟩ := h
  obtain rfl : e.1 = k := by simpa using List.find?_some he
  exact List.mem_reverse.mp (List.mem_of_find?_eq_some he)

theorem isSome_get?_ofList [DecidableEq κ] {l : List (κ × ν)} {k : κ} {x : ν} (h : (k, x) ∈ l) :
    ((ofList l).get? k).isSome := by
  rw [get?_ofList, Option.isSome_map, List.find?_isSome]
  exact ⟨(k, x), List.mem_reverse.mpr h, by simp⟩

/-- If no key occurs twice, look-ups find just the entries of the list. -/
theorem get?_ofList_eq_some_iff [DecidableEq κ] {l : List (κ × ν)} (hl : (l.map Prod.fst).Nodup)
    {k : κ} {x : ν} : (ofList l).get? k = some x ↔ (k, x) ∈ l := by
  refine ⟨mem_of_get?_ofList, fun h => ?_⟩
  obtain ⟨y, hy⟩ := Option.isSome_iff_exists.mp (isSome_get?_ofList h)
  have heq := List.inj_on_of_nodup_map hl h (mem_of_get?_ofList hy) rfl
  rw [hy, (Prod.mk.inj heq).2]

/-- If no key occurs twice, the place of a key is where it stands. -/
theorem get?_places_eq_some_iff [DecidableEq κ] {keys : List κ} (hkeys : keys.Nodup) {k : κ}
    {n : Nat} : (places keys).get? k = some n ↔ keys[n]? = some k := by
  rw [get?_places]
  constructor
  · intro h
    obtain ⟨hn, heq, -⟩ := List.findIdx?_eq_some_iff_getElem.mp h
    rw [List.getElem?_eq_getElem hn, beq_iff_eq.mp heq]
  · intro h
    obtain ⟨hn, heq⟩ := List.getElem?_eq_some_iff.mp h
    refine List.findIdx?_eq_some_iff_getElem.mpr ⟨hn, beq_iff_eq.mpr heq, fun m hm hmk => ?_⟩
    have hmn := (List.Nodup.getElem_inj_iff hkeys).mp ((beq_iff_eq.mp hmk).trans heq.symm)
    exact Nat.ne_of_lt hm hmn

theorem exists_get?_places [DecidableEq κ] {keys : List κ} {k : κ} (h : k ∈ keys) :
    ∃ n, (places keys).get? k = some n ∧ keys[n]? = some k := by
  obtain ⟨n, hn⟩ := Option.isSome_iff_exists.mp (List.isSome_idxOf?.mpr h)
  refine ⟨n, (get?_places keys k).trans hn, ?_⟩
  obtain ⟨hlt, heq, -⟩ := List.findIdx?_eq_some_iff_getElem.mp hn
  rw [List.getElem?_eq_getElem hlt, beq_iff_eq.mp heq]

/-- The places of the values that some labels lead to: if no label occurs twice, the map takes a
label to the place where the key of its value stands. -/
theorem get?_ofList_places_eq_some_iff {label α : Type} [Ord label] [Std.TransOrd label]
    [Std.LawfulEqOrd label] [DecidableEq label] [DecidableEq κ] {keys : List κ}
    (hkeys : keys.Nodup) (key : α → κ) {out : List (label × α)} (hout : (out.map Prod.fst).Nodup)
    {l : label} {n : Nat} :
    (ofList (out.filterMap fun e => ((places keys).get? (key e.2)).map fun n => (e.1, n))).get? l =
      some n ↔ ∃ a, (l, a) ∈ out ∧ keys[n]? = some (key a) := by
  rw [get?_ofList_eq_some_iff, List.mem_filterMap]
  · simp only [Option.map_eq_some_iff, get?_places_eq_some_iff hkeys, Prod.mk.injEq]
    constructor
    · rintro ⟨⟨_, a⟩, ha, _, hn, rfl, rfl⟩
      exact ⟨a, ha, hn⟩
    · rintro ⟨a, ha, hn⟩
      exact ⟨_, ha, _, hn, rfl, rfl⟩
  · rw [List.nodup_iff_pairwise_ne, List.pairwise_map] at hout ⊢
    rw [List.pairwise_filterMap]
    refine hout.imp fun hne a ha b hb => ?_
    obtain ⟨_, -, rfl⟩ := Option.map_eq_some_iff.mp ha
    obtain ⟨_, -, rfl⟩ := Option.map_eq_some_iff.mp hb
    exact hne

theorem keys_tabulate [DecidableEq κ] (s : SortedSet κ) (f : κ → ν) : (tabulate s f).keys = s := by
  refine SortedSet.ext fun k => ?_
  rw [mem_keys, get?_tabulate]
  by_cases hk : k ∈ s <;> simp [hk]

theorem keys_mapValues {μ : Type} (f : ν → μ) (m : SortedMap κ ν) :
    (m.mapValues f).keys = m.keys := by
  refine SortedSet.ext fun k => ?_
  rw [mem_keys, mem_keys, get?_mapValues, Option.isSome_map]

omit [Std.LawfulEqOrd κ] in
theorem nodup_map_fst_toList (m : SortedMap κ ν) : (m.toList.map Prod.fst).Nodup := by
  rw [List.nodup_iff_pairwise_ne, List.pairwise_map]
  exact m.ascending_toList.imp ne_of_compare_eq_lt

/-- If several keys are renamed to one, the first of them counts. -/
theorem get?_firstOf_map_toList {μ ξ : Type} [Ord μ] [Std.TransOrd μ] [Std.LawfulEqOrd μ]
    [DecidableEq μ] (f : κ → μ) (g : ν → ξ) (m : SortedMap κ ν) (k : μ) :
    (firstOf (m.toList.map fun e => (f e.1, g e.2))).get? k =
      (m.keys.toList.find? fun l => f l = k).bind fun l => (m.get? l).map g := by
  rw [get?_firstOf, List.find?_map, ← map_fst_toList, List.find?_map]
  change Option.map _ (Option.map _ (m.toList.find? fun e => f e.1 = k)) =
    (Option.map _ (m.toList.find? fun e => f e.1 = k)).bind _
  cases h : m.toList.find? fun e => f e.1 = k with
  | none => rfl
  | some e => simp [mem_toList.mp (List.mem_of_find?_eq_some h)]

theorem ofList_toList [DecidableEq κ] (m : SortedMap κ ν) : ofList m.toList = m := by
  refine ext fun k => Option.ext fun x => ?_
  rw [get?_ofList_eq_some_iff m.nodup_map_fst_toList, mem_toList]

end Recognizer.SortedMap

theorem Recognizer.SortedSet.nodup_toList {α : Type} [Ord α] [Std.TransOrd α] (s : SortedSet α) :
    s.toList.Nodup := by
  rw [List.nodup_iff_pairwise_ne]
  exact s.ascending.imp ne_of_compare_eq_lt

theorem Recognizer.SortedSet.ofList_toList {α : Type} [Ord α] [Std.TransOrd α] [Std.LawfulEqOrd α]
    (s : SortedSet α) : ofList s.toList = s :=
  ext fun _ => mem_ofList

import Mathlib.Data.List.Basic

/-!
# Places in a part of a list

`filterMap f` keeps some entries of a list, in their order.  An entry that is kept stands behind the
kept ones that were before it, and changing it changes the kept list there and nowhere else.
-/

namespace Places

variable {α β : Type*} (f : α → Option β) {l : List α} {i : Nat} {a a' : α} {b b' : β}

/-- Where the entry at `i` stands among those that are kept. -/
def place (l : List α) (i : Nat) : Nat := ((l.take i).filterMap f).length

variable {f}

theorem filterMap_split (h : l[i]? = some a) :
    l.filterMap f = (l.take i).filterMap f ++ (f a).toList ++ (l.drop (i + 1)).filterMap f := by
  obtain ⟨hlt, rfl⟩ := List.getElem?_eq_some_iff.1 h
  nth_rewrite 1 [← List.take_append_drop i l]
  rw [List.drop_eq_getElem_cons hlt, List.filterMap_append, List.filterMap_cons]
  cases f l[i] <;> simp

theorem filterMap_set (h : l[i]? = some a) :
    (l.set i a').filterMap f =
      (l.take i).filterMap f ++ (f a').toList ++ (l.drop (i + 1)).filterMap f := by
  obtain ⟨hlt, -⟩ := List.getElem?_eq_some_iff.1 h
  rw [List.set_eq_take_append_cons_drop, if_pos hlt, List.filterMap_append, List.filterMap_cons]
  cases f a' <;> simp

theorem getElem?_place (h : l[i]? = some a) (hf : f a = some b) :
    (l.filterMap f)[place f l i]? = some b := by
  rw [filterMap_split h, hf, List.append_assoc, place,
    List.getElem?_append_right (Nat.le_refl _), Nat.sub_self]
  rfl

theorem set_place (h : l[i]? = some a) (hf : f a = some b) (hf' : f a' = some b') :
    (l.set i a').filterMap f = (l.filterMap f).set (place f l i) b' := by
  rw [filterMap_set h, filterMap_split h, hf, hf', List.append_assoc, List.append_assoc, place,
    List.set_append_right _ _ (Nat.le_refl _), Nat.sub_self]
  rfl

theorem set_of_none (h : l[i]? = some a) (hf : f a = none) (hf' : f a' = none) :
    (l.set i a').filterMap f = l.filterMap f := by
  rw [filterMap_set h, filterMap_split h, hf, hf']

end Places

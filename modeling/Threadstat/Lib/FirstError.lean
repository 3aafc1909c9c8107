import Mathlib.Data.List.Forall2

/-!
# The first error of a list

Looking up the entries of a list one after the other ends with all results, or with the error of
the leftmost entry that has none.
-/

namespace FirstError

variable {α β ε : Type*}

/-- The entry at which `f` first fails, and the error. -/
def Fails (f : α → Except ε β) (xs : List α) (e : ε) : Prop :=
  ∃ earlier x later, xs = earlier ++ x :: later ∧ (∀ y ∈ earlier, ∃ z, f y = .ok z) ∧
    f x = .error e

theorem mapM_cons_error {f : α → Except ε β} {x : α} {e : ε} (h : f x = .error e)
    (xs : List α) : (x :: xs).mapM f = .error e := by
  rw [List.mapM_cons, h]
  rfl

theorem mapM_cons_ok {f : α → Except ε β} {x : α} {y : β} (h : f x = .ok y) (xs : List α) :
    (x :: xs).mapM f = (xs.mapM f).map (y :: ·) := by
  rw [List.mapM_cons, h]
  cases hxs : xs.mapM f <;> rfl

theorem forall₂_of_mapM {f : α → Except ε β} {xs : List α} {ys : List β}
    (h : xs.mapM f = .ok ys) : List.Forall₂ (fun x y => f x = .ok y) xs ys := by
  induction xs generalizing ys with
  | nil =>
      obtain rfl := Except.ok.inj h
      exact .nil
  | cons x xs ih =>
      cases hx : f x with
      | error e =>
          rw [mapM_cons_error hx] at h
          cases h
      | ok y =>
          rw [mapM_cons_ok hx] at h
          cases hxs : xs.mapM f with
          | error e =>
              rw [hxs] at h
              cases h
          | ok zs =>
              rw [hxs] at h
              obtain rfl := Except.ok.inj h
              exact .cons hx (ih hxs)

theorem fails_of_mapM {f : α → Except ε β} {xs : List α} {e : ε} (h : xs.mapM f = .error e) :
    Fails f xs e := by
  induction xs with
  | nil => cases h
  | cons x xs ih =>
      cases hx : f x with
      | error e' =>
          rw [mapM_cons_error hx] at h
          obtain rfl := Except.error.inj h
          exact ⟨[], x, xs, rfl, by simp, hx⟩
      | ok y =>
          rw [mapM_cons_ok hx] at h
          cases hxs : xs.mapM f with
          | ok zs =>
              rw [hxs] at h
              cases h
          | error e' =>
              rw [hxs] at h
              obtain rfl := Except.error.inj h
              obtain ⟨earlier, z, later, rfl, hok, hz⟩ := ih hxs
              refine ⟨x :: earlier, z, later, rfl, fun w hw => ?_, hz⟩
              rcases List.mem_cons.1 hw with rfl | hw
              · exact ⟨y, hx⟩
              · exact hok w hw

theorem exists_of_mem_left {R : α → β → Prop} {xs : List α} {ys : List β}
    (h : List.Forall₂ R xs ys) {x : α} (hx : x ∈ xs) : ∃ y ∈ ys, R x y := by
  induction h with
  | nil => cases hx
  | @cons a b xs ys hab _ ih =>
      rcases List.mem_cons.1 hx with rfl | hx
      · exact ⟨b, List.mem_cons_self, hab⟩
      · obtain ⟨y, hy, hr⟩ := ih hx
        exact ⟨y, List.mem_cons_of_mem b hy, hr⟩

theorem exists_of_mem_right {R : α → β → Prop} {xs : List α} {ys : List β}
    (h : List.Forall₂ R xs ys) {y : β} (hy : y ∈ ys) : ∃ x ∈ xs, R x y :=
  exists_of_mem_left h.flip hy

/-- All entries have results if and only if the list has. -/
theorem exists_mapM_iff {f : α → Except ε β} {xs : List α} :
    (∃ ys, xs.mapM f = .ok ys) ↔ ∀ x ∈ xs, ∃ y, f x = .ok y := by
  constructor
  · rintro ⟨ys, hys⟩ x hx
    obtain ⟨y, -, hy⟩ := exists_of_mem_left (forall₂_of_mapM hys) hx
    exact ⟨y, hy⟩
  · intro h
    cases hxs : xs.mapM f with
    | ok ys => exact ⟨ys, rfl⟩
    | error e =>
        obtain ⟨earlier, x, later, rfl, -, hx⟩ := fails_of_mapM hxs
        obtain ⟨y, hy⟩ := h x (by simp)
        rw [hx] at hy
        cases hy

theorem fails_flatten {f : α → Except ε β} {xss : List (List α)} {e : ε}
    (h : xss.mapM (fun xs => xs.mapM f) = .error e) : Fails f xss.flatten e := by
  obtain ⟨earlier, xs, later, rfl, hok, hxs⟩ := fails_of_mapM h
  obtain ⟨before, x, after, rfl, hbefore, hx⟩ := fails_of_mapM hxs
  refine ⟨earlier.flatten ++ before, x, after ++ later.flatten, by simp, fun y hy => ?_, hx⟩
  rcases List.mem_append.1 hy with hy | hy
  · obtain ⟨ys, hys, hy⟩ := List.mem_flatten.1 hy
    exact exists_mapM_iff.1 (hok ys hys) y hy
  · exact hbefore y hy

theorem exists_mapM_mapM_iff {f : α → Except ε β} {xss : List (List α)} :
    (∃ yss, xss.mapM (fun xs => xs.mapM f) = .ok yss) ↔ ∀ x ∈ xss.flatten, ∃ y, f x = .ok y := by
  rw [exists_mapM_iff]
  simp only [exists_mapM_iff, List.mem_flatten]
  exact ⟨fun h x ⟨xs, hxs, hx⟩ => h xs hxs x hx, fun h xs hxs x hx => h x ⟨xs, hxs, hx⟩⟩

theorem map_of_mapM {f : α → Except ε β} {g : β → α} (hg : ∀ x y, f x = .ok y → g y = x)
    {xs : List α} {ys : List β} (h : xs.mapM f = .ok ys) : ys.map g = xs := by
  have hforall := forall₂_of_mapM h
  clear h
  induction hforall with
  | nil => rfl
  | cons hxy _ ih => rw [List.map_cons, hg _ _ hxy, ih]

end FirstError

import Mathlib.Data.List.Basic
import Mathlib.Logic.Equiv.Basic
import Mathlib.Data.Set.Function
import Mathlib.Order.Interval.Set.Basic

/-!
# Numbering the entries of a list

A list is gone through from the front and its entries are numbered as they come.  What an entry
yields carries its number.  Going through the same entries in another order changes the numbers, by
one permutation, and nothing else.
-/

namespace Numbering

variable {α β κ : Type*}

/-- What the entries of a list yield, each under its number, counting from `n`. -/
def collect (rows : α → Nat → List β) (n : Nat) : List α → List β
  | [] => []
  | a :: l => rows a n ++ collect rows (n + 1) l

theorem mem_collect {rows : α → Nat → List β} {n : Nat} {l : List α} {b : β}
    (h : b ∈ collect rows n l) : ∃ i a, l[i]? = some a ∧ b ∈ rows a (n + i) := by
  induction l generalizing n with
  | nil => cases h
  | cons a l ih =>
      rw [collect, List.mem_append] at h
      rcases h with h | h
      · exact ⟨0, a, rfl, h⟩
      · obtain ⟨i, a', hi, hb⟩ := ih h
        refine ⟨i + 1, a', hi, ?_⟩
        rwa [Nat.add_right_comm] at hb

section Keys

variable [DecidableEq κ] {key : β → κ} {k : κ} {bs : List β}

theorem filter_key_eq (h : ∀ b ∈ bs, key b = k) : bs.filter (fun b => key b = k) = bs := by
  rw [List.filter_eq_self]
  exact fun b hb => decide_eq_true (h b hb)

theorem filter_key_ne (h : ∀ b ∈ bs, key b ≠ k) : bs.filter (fun b => key b = k) = [] := by
  rw [List.filter_eq_nil_iff]
  intro b hb
  rw [decide_eq_true_iff]
  exact h b hb

/-- If the numbers of the entries have different keys, the rows under the key of one of them are the
rows of that entry. -/
theorem filter_collect {rows : α → Nat → List β} {num : Nat → κ}
    (hkey : ∀ a i, ∀ b ∈ rows a i, key b = num i) {n : Nat} {l : List α}
    (hnum : Set.InjOn num (Set.Ico n (n + l.length))) {i : Nat} {a : α} (hi : l[i]? = some a) :
    (collect rows n l).filter (fun b => key b = num (n + i)) = rows a (n + i) := by
  induction l generalizing n i with
  | nil => cases hi
  | cons first l ih =>
      rw [List.length_cons] at hnum
      rw [collect, List.filter_append]
      cases i with
      | zero =>
          obtain rfl : first = a := Option.some.inj hi
          have hlater : ∀ b ∈ collect rows (n + 1) l, key b ≠ num (n + 0) := by
            intro b hb heq
            obtain ⟨j, a', hj, hb⟩ := mem_collect hb
            have hlt : j < l.length := (List.getElem?_eq_some_iff.1 hj).1
            rw [hkey a' _ b hb] at heq
            have hsame := hnum ⟨by omega, by omega⟩ ⟨by omega, by omega⟩ heq
            omega
          rw [filter_key_ne hlater, List.append_nil]
          exact filter_key_eq (hkey first n)
      | succ i =>
          have hi' : l[i]? = some a := hi
          have hlt : i < l.length := (List.getElem?_eq_some_iff.1 hi').1
          have hfirst : ∀ b ∈ rows first n, key b ≠ num (n + (i + 1)) := by
            intro b hb heq
            rw [hkey first n b hb] at heq
            have hsame := hnum ⟨by omega, by omega⟩ ⟨by omega, by omega⟩ heq
            omega
          have hrest : Set.InjOn num (Set.Ico (n + 1) (n + 1 + l.length)) := by
            apply hnum.mono
            apply Set.Ico_subset_Ico <;> omega
          have hshift : n + (i + 1) = n + 1 + i := by omega
          rw [filter_key_ne hfirst, List.nil_append, hshift]
          exact ih hrest hi

end Keys

def shifted (π : Equiv.Perm Nat) : Equiv.Perm Nat where
  toFun
    | 0 => 0
    | i + 1 => π i + 1
  invFun
    | 0 => 0
    | i + 1 => π.symm i + 1
  left_inv i := by cases i <;> simp
  right_inv i := by cases i <;> simp

theorem exists_places {l l' : List α} (h : l.Perm l') :
    ∃ π : Equiv.Perm Nat, ∀ i, l'[π i]? = l[i]? := by
  induction h with
  | nil => exact ⟨Equiv.refl Nat, fun i => rfl⟩
  | cons a h ih =>
      obtain ⟨π, hπ⟩ := ih
      refine ⟨shifted π, fun i => ?_⟩
      cases i with
      | zero => rfl
      | succ i => exact hπ i
  | swap a b l =>
      refine ⟨Equiv.swap 0 1, fun i => ?_⟩
      cases i with
      | zero => simp
      | succ i =>
          cases i with
          | zero => simp
          | succ i =>
              rw [Equiv.swap_apply_of_ne_of_ne (by omega) (by omega)]
              rfl
  | trans h h' ih ih' =>
      obtain ⟨π, hπ⟩ := ih
      obtain ⟨π', hπ'⟩ := ih'
      refine ⟨π.trans π', fun i => ?_⟩
      rw [Equiv.trans_apply, hπ', hπ]

theorem places_bijOn {l l' : List α} {π : Equiv.Perm Nat} (hπ : ∀ i, l'[π i]? = l[i]?) :
    Set.BijOn π (Set.Iio l.length) (Set.Iio l'.length) := by
  apply π.bijOn
  intro i
  rw [Set.mem_Iio, Set.mem_Iio, ← not_le, ← not_le, ← List.getElem?_eq_none_iff,
    ← List.getElem?_eq_none_iff, hπ]

/-- Numbers that are moved by a permutation of the places: the keys are moved by a bijection. -/
theorem exists_renumbering [Nonempty κ] {num : Nat → κ} {n : Nat} (hnum : Set.InjOn num (Set.Iio n))
    {π : Equiv.Perm Nat} (hπ : Set.BijOn π (Set.Iio n) (Set.Iio n)) :
    ∃ σ : κ → κ, Set.BijOn σ (num '' Set.Iio n) (num '' Set.Iio n) ∧
      ∀ i, i < n → σ (num i) = num (π i) := by
  have hkeys : Set.BijOn num (Set.Iio n) (num '' Set.Iio n) := hnum.bijOn_image
  have hinv : Set.InvOn (Function.invFunOn num (Set.Iio n)) num (Set.Iio n) (num '' Set.Iio n) :=
    hkeys.invOn_invFunOn
  have hnumbers := hkeys.symm hinv.symm
  refine ⟨num ∘ π ∘ Function.invFunOn num (Set.Iio n), (hkeys.comp hπ).comp hnumbers, ?_⟩
  intro i hi
  rw [Function.comp_apply, Function.comp_apply, hinv.1 hi]

end Numbering

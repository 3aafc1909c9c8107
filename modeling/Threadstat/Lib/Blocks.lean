import Mathlib.Data.List.Basic
import Mathlib.Logic.Function.Basic

/-!
# Blocks of memory and their owners

A heap gives the contents of its live blocks.  Owners come one after the other and each owns one
block or none, so that ownership is a discipline: a block that is live has just one owner, who
knows what it holds.  An owner may change the contents of its own block, give the block up, or pass
it on by becoming another owner.
-/

namespace Blocks

variable {ο α δ : Type*}

/-- `own` says which block an owner has, and what it holds. -/
structure Owned (own : ο → Option (α × δ)) (heap : α → Option δ) (owners : List ο) : Prop where
  holds : ∀ {i : Nat} {o a d}, owners[i]? = some o → own o = some (a, d) → heap a = some d
  unique : ∀ {i j : Nat} {o o' a d d'}, owners[i]? = some o → owners[j]? = some o' →
    own o = some (a, d) → own o' = some (a, d') → i = j
  live : ∀ {a}, heap a ≠ none → ∃ (i : Nat) (o : ο) (d : δ),
    owners[i]? = some o ∧ own o = some (a, d)

namespace Owned

variable {own : ο → Option (α × δ)} {heap : α → Option δ} {owners : List ο} {i : Nat} {o o' : ο}
  {a : α} {d d' : δ}

theorem empty : Owned own (fun _ => none) [] := by
  constructor <;> simp

variable [DecidableEq α]

theorem alloc (h : Owned own heap owners) (hfree : heap a = none) (ho : own o = some (a, d)) :
    Owned own (Function.update heap a (some d)) (owners ++ [o]) := by
  have hother : ∀ {j : Nat} {o' b e}, owners[j]? = some o' → own o' = some (b, e) → b ≠ a := by
    rintro j o' b e hj hown rfl
    rw [h.holds hj hown] at hfree
    cases hfree
  have hsnoc : ∀ {j : Nat} {o'}, (owners ++ [o])[j]? = some o' →
      owners[j]? = some o' ∨ (j = owners.length ∧ o' = o) := by
    intro j o' hj
    rcases Nat.lt_or_ge j owners.length with hlt | hge
    · rw [List.getElem?_append_left hlt] at hj
      exact .inl hj
    · rw [List.getElem?_append_right hge, List.getElem?_singleton] at hj
      split at hj
      · exact .inr ⟨by omega, (Option.some.inj hj).symm⟩
      · cases hj
  constructor
  · intro j o' b e hj hown
    rcases hsnoc hj with hj | ⟨-, rfl⟩
    · rw [Function.update_of_ne (hother hj hown)]
      exact h.holds hj hown
    · obtain ⟨rfl, rfl⟩ := Prod.mk.inj (Option.some.inj (ho.symm.trans hown))
      exact Function.update_self ..
  · intro j k o₁ o₂ b e e' hj hk hown hown'
    rcases hsnoc hj with hj' | ⟨rfl, rfl⟩ <;> rcases hsnoc hk with hk' | ⟨rfl, rfl⟩
    · exact h.unique hj' hk' hown hown'
    · obtain ⟨rfl, -⟩ := Prod.mk.inj (Option.some.inj (ho.symm.trans hown'))
      exact absurd rfl (hother hj' hown)
    · obtain ⟨rfl, -⟩ := Prod.mk.inj (Option.some.inj (ho.symm.trans hown))
      exact absurd rfl (hother hk' hown')
    · rfl
  · intro b hb
    by_cases hab : b = a
    · subst hab
      exact ⟨owners.length, o, d, by simp, ho⟩
    · rw [Function.update_of_ne hab] at hb
      obtain ⟨j, o', e, hj, hown⟩ := h.live hb
      refine ⟨j, o', e, ?_, hown⟩
      rwa [List.getElem?_append_left (List.getElem?_eq_some_iff.1 hj).1]

/-- The owner at one place becomes another one, who has the same block or none. -/
theorem update (h : Owned own heap owners) (hi : owners[i]? = some o) (ho : own o = some (a, d))
    (ho' : own o' = some (a, d') ∨ own o' = none) :
    Owned own (Function.update heap a ((own o').map Prod.snd)) (owners.set i o') := by
  have hset : ∀ j : Nat, (owners.set i o')[j]? = if i = j then some o' else owners[j]? := by
    intro j
    rw [List.getElem?_set]
    simp [(List.getElem?_eq_some_iff.1 hi).1]
  have hother : ∀ {j : Nat} {o₁ b e}, i ≠ j → owners[j]? = some o₁ → own o₁ = some (b, e) →
      b ≠ a := by
    rintro j o₁ b e hij hj hown rfl
    exact hij (h.unique hi hj ho hown)
  have hown : ∀ {b e}, own o' = some (b, e) → b = a := by
    intro b e hb
    rcases ho' with ho' | ho'
    · exact (Prod.mk.inj (Option.some.inj (hb.symm.trans ho'))).1
    · rw [ho'] at hb
      cases hb
  constructor
  · intro j o₁ b e hj hb
    rw [hset] at hj
    split at hj
    · obtain rfl := Option.some.inj hj
      obtain rfl := hown hb
      rw [Function.update_self, hb]
      rfl
    · next hij =>
      rw [Function.update_of_ne (hother hij hj hb)]
      exact h.holds hj hb
  · intro j k o₁ o₂ b e e' hj hk hb hb'
    rw [hset] at hj hk
    split at hj <;> split at hk
    · next hij hik => exact hij.symm.trans hik
    · next hij hik =>
      obtain rfl := Option.some.inj hj
      obtain rfl := hown hb
      exact absurd rfl (hother hik hk hb')
    · next hij hik =>
      obtain rfl := Option.some.inj hk
      obtain rfl := hown hb'
      exact absurd rfl (hother hij hj hb)
    · exact h.unique hj hk hb hb'
  · intro b hb
    by_cases hab : b = a
    · subst hab
      rw [Function.update_self] at hb
      rcases ho' with ho' | ho'
      · exact ⟨i, o', d', by simp [hset], ho'⟩
      · rw [ho'] at hb
        exact absurd rfl hb
    · rw [Function.update_of_ne hab] at hb
      obtain ⟨j, o₁, e, hj, hown'⟩ := h.live hb
      have hij : i ≠ j := by
        rintro rfl
        obtain rfl := Option.some.inj (hi.symm.trans hj)
        exact hab (Prod.mk.inj (Option.some.inj (hown'.symm.trans ho))).1
      exact ⟨j, o₁, e, by rwa [hset, if_neg hij], hown'⟩

theorem pass (h : Owned own heap owners) (hi : owners[i]? = some o) (ho : own o = some (a, d))
    (ho' : own o' = some (a, d)) : Owned own heap (owners.set i o') := by
  have hpassed := h.update hi ho (.inl ho')
  rwa [ho', Option.map_some, ← h.holds hi ho, Function.update_eq_self] at hpassed

end Owned

end Blocks

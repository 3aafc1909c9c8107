import Mathlib.Data.List.Infix

/-!
# What passes through a queue

Elements enter a queue behind the others and leave it at its head.  In whatever order that happens,
what was in it and what has entered since is, in this order, what has left and what is in it now.
-/

namespace Fifo

variable {α : Type*}

/-- From `q` to `q'` exactly `taken` has left, and any number of elements may have entered. -/
def Passed (q taken q' : List α) : Prop := ∃ entered, q ++ entered = taken ++ q'

namespace Passed

variable {q q' q'' taken taken' : List α}

theorem refl (q : List α) : Passed q [] q := ⟨[], List.append_nil q⟩

theorem enter (q : List α) (a : α) : Passed q [] (q ++ [a]) := ⟨[a], rfl⟩

theorem leave (a : α) (q : List α) : Passed (a :: q) [a] q := ⟨[], List.append_nil _⟩

theorem trans (h : Passed q taken q') (h' : Passed q' taken' q'') :
    Passed q (taken ++ taken') q'' := by
  obtain ⟨entered, heq⟩ := h
  obtain ⟨entered', heq'⟩ := h'
  refine ⟨entered ++ entered', ?_⟩
  calc
    q ++ (entered ++ entered') = taken ++ q' ++ entered' := by rw [← List.append_assoc, heq]
    _ = taken ++ taken' ++ q'' := by rw [List.append_assoc, heq', List.append_assoc]

theorem length_le (h : Passed q taken []) : q.length ≤ taken.length := by
  obtain ⟨entered, heq⟩ := h
  have hlength := congrArg List.length heq
  simp only [List.length_append, List.length_nil] at hlength
  omega

theorem take_prefix (h : Passed q taken q') {n : Nat} (hn : min n q.length ≤ taken.length) :
    q.take n <+: taken := by
  obtain ⟨entered, heq⟩ := h
  have hpre : q.take n <+: taken ++ q' := by
    rw [← heq]
    exact (List.take_prefix n q).trans (List.prefix_append q entered)
  refine List.prefix_of_prefix_length_le hpre (List.prefix_append taken q') ?_
  rwa [List.length_take]

end Passed

end Fifo

import Threadstat.Lib.Transition
import Mathlib.Data.List.Nodup

/-!
# Resources that are taken and given back

A log of moves is sound if no resource is taken twice without being given back in between and none
is given back that is not out.  What is out after a sound log is what was taken more often than it
was given back.
-/

namespace Holding

variable {ρ : Type*} [DecidableEq ρ]

inductive Move (ρ : Type*) where
  | acquire (r : ρ)
  | release (r : ρ)
  deriving DecidableEq

def step (held : List ρ) : Move ρ → Option (List ρ)
  | .acquire r => if r ∈ held then none else some (held ++ [r])
  | .release r => if r ∈ held then some (held.filter (· ≠ r)) else none

/-- What is out after a log of moves, if every move of it was possible. -/
def after (moves : List (Move ρ)) : Option (List ρ) := Transition.run step [] moves

theorem after_append {moves moves' : List (Move ρ)} {held : List ρ}
    (h : after moves = some held) :
    after (moves ++ moves') = Transition.run step held moves' := by
  rw [after, Transition.run, List.foldlM_append, ← Transition.run, ← after, h]
  rfl

theorem after_snoc {moves : List (Move ρ)} {move : Move ρ} {held : List ρ}
    (h : after moves = some held) : after (moves ++ [move]) = step held move := by
  rw [after_append h, Transition.run_cons]
  simp

theorem run_release {held rs : List ρ} (hnodup : rs.Nodup) (hsub : ∀ r ∈ rs, r ∈ held) :
    Transition.run step held (rs.map .release) = some (held.filter (· ∉ rs)) := by
  induction rs generalizing held with
  | nil => simp
  | cons r rs ih =>
      obtain ⟨hr, hnodup⟩ := List.nodup_cons.1 hnodup
      have hrest : ∀ r' ∈ rs, r' ∈ held.filter (· ≠ r) := by
        intro r' hr'
        have hne : r' ≠ r := by
          rintro rfl
          exact hr hr'
        exact List.mem_filter.2 ⟨hsub r' (by simp [hr']), by simpa using hne⟩
      rw [List.map_cons, Transition.run_cons, step, if_pos (hsub r (by simp)), Option.bind_some,
        ih hnodup hrest, List.filter_filter]
      congr 1
      apply List.filter_congr
      intro r' _
      simp [Bool.and_comm]

theorem after_nodup {moves : List (Move ρ)} {held : List ρ} (h : after moves = some held) :
    held.Nodup := by
  refine Transition.run_induction (P := fun _ held => held.Nodup) List.nodup_nil ?_ h
  rintro - u (r | r) u' - hu hstep
  · rw [step] at hstep
    split at hstep
    · cases hstep
    · next hr =>
        obtain rfl := Option.some.inj hstep
        exact hu.append (List.nodup_singleton r) (by simpa using hr)
  · rw [step] at hstep
    split at hstep
    · obtain rfl := Option.some.inj hstep
      exact hu.filter _
    · cases hstep

/-- Every resource was given back as often as it was taken, or once less if it is still out. -/
theorem after_count {moves : List (Move ρ)} {held : List ρ} (h : after moves = some held) (r : ρ) :
    moves.count (.acquire r) = moves.count (.release r) + if r ∈ held then 1 else 0 := by
  refine Transition.run_induction (P := fun moves held => moves.count (.acquire r) =
    moves.count (.release r) + if r ∈ held then 1 else 0) (by simp) ?_ h
  rintro moves u (s | s) u' - hu hstep
  · rw [step] at hstep
    split at hstep
    · cases hstep
    · next hs =>
        obtain rfl := Option.some.inj hstep
        by_cases heq : s = r
        · subst heq
          simpa [hs] using hu
        · simpa [heq, Ne.symm heq] using hu
  · rw [step] at hstep
    split at hstep
    · next hs =>
        obtain rfl := Option.some.inj hstep
        by_cases heq : s = r
        · subst heq
          simpa [hs] using hu
        · simpa [heq, Ne.symm heq] using hu
    · cases hstep

end Holding

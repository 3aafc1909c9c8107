import Mathlib.Data.List.Pairwise
import Mathlib.Data.List.Count
import Mathlib.Data.List.Infix

/-!
# Append-only logs

A log is a list that only grows at its end.  Some of its entries are *marks*, and every entry
belongs to the last mark at or before it.  The first half numbers entries by their mark; the
second half is the rule for proving facts about whole logs: if every entry was allowed by the
log before it, a property of the log follows by looking at one entry at a time.
-/

namespace Journal

variable {α β : Type*}

section Stamps

variable (mark : α → Bool)

/-- Every entry together with the number of marks up to and including it, counting from `n`. -/
def stampFrom : Nat → List α → List (Nat × α)
  | _, [] => []
  | n, a :: log =>
      let m := if mark a then n + 1 else n
      (m, a) :: stampFrom m log

def stamps (log : List α) : List (Nat × α) := stampFrom mark 0 log

def marks (log : List α) : Nat := log.countP mark

/-- The payloads `f` finds in a log, each numbered by its mark. -/
def select (f : α → Option β) (log : List α) : List (Nat × β) :=
  (stamps mark log).filterMap fun p => (f p.2).map (p.1, ·)

@[simp] theorem marks_nil : marks mark [] = 0 := rfl

@[simp] theorem marks_append (xs ys : List α) :
    marks mark (xs ++ ys) = marks mark xs + marks mark ys := by
  simp [marks]

theorem marks_singleton (a : α) : marks mark [a] = if mark a then 1 else 0 := by
  simp [marks, List.countP_cons]

theorem stampFrom_append (n : Nat) (xs ys : List α) :
    stampFrom mark n (xs ++ ys) =
      stampFrom mark n xs ++ stampFrom mark (n + marks mark xs) ys := by
  induction xs generalizing n with
  | nil => simp [stampFrom]
  | cons x xs ih =>
      simp only [List.cons_append, stampFrom, ih, marks, List.countP_cons]
      split <;> simp [Nat.add_comm, Nat.add_left_comm]

theorem stamps_snoc (log : List α) (a : α) :
    stamps mark (log ++ [a]) = stamps mark log ++ [(marks mark (log ++ [a]), a)] := by
  rw [stamps, stampFrom_append, marks_append, marks_singleton]
  simp only [stamps, stampFrom, Nat.zero_add]
  split <;> simp

@[simp] theorem map_snd_stamps (log : List α) : (stamps mark log).map Prod.snd = log := by
  induction log using List.reverseRecOn with
  | nil => rfl
  | append_singleton log a ih => rw [stamps_snoc]; simp [ih]

theorem mem_stamps_snoc {log : List α} {a b : α} {i : Nat} :
    (i, b) ∈ stamps mark (log ++ [a]) ↔
      (i, b) ∈ stamps mark log ∨ (i = marks mark (log ++ [a]) ∧ b = a) := by
  rw [stamps_snoc]
  simp

theorem last_mem_stamps (log : List α) (a : α) :
    (marks mark (log ++ [a]), a) ∈ stamps mark (log ++ [a]) :=
  (mem_stamps_snoc mark).2 (.inr ⟨rfl, rfl⟩)

theorem mem_stamps_append {xs ys : List α} {p : Nat × α} (h : p ∈ stamps mark xs) :
    p ∈ stamps mark (xs ++ ys) := by
  rw [stamps, stampFrom_append]
  exact List.mem_append_left _ h

theorem stamp_le_marks {log : List α} {i : Nat} {a : α} (h : (i, a) ∈ stamps mark log) :
    i ≤ marks mark log := by
  induction log using List.reverseRecOn with
  | nil => simp [stamps, stampFrom] at h
  | append_singleton log b ih =>
      rcases (mem_stamps_snoc mark).1 h with h | ⟨rfl, -⟩
      · have := ih h
        rw [marks_append]
        omega
      · exact le_rfl

/-- Marks are numbered one by one: no two marks carry the same number. -/
theorem mark_stamp_unique {log : List α} {i : Nat} {a b : α}
    (ha : (i, a) ∈ stamps mark log) (hb : (i, b) ∈ stamps mark log)
    (hma : mark a = true) (hmb : mark b = true) : a = b := by
  induction log using List.reverseRecOn with
  | nil => simp [stamps, stampFrom] at ha
  | append_singleton log c ih =>
      rcases (mem_stamps_snoc mark).1 ha with ha' | ⟨hia, rfl⟩
      · rcases (mem_stamps_snoc mark).1 hb with hb' | ⟨hib, rfl⟩
        · exact ih ha' hb'
        · have hle := stamp_le_marks mark ha'
          rw [marks_append, marks_singleton, if_pos hmb] at hib
          omega
      · rcases (mem_stamps_snoc mark).1 hb with hb' | ⟨-, rfl⟩
        · have hle := stamp_le_marks mark hb'
          rw [marks_append, marks_singleton, if_pos hma] at hia
          omega
        · rfl

theorem select_snoc (f : α → Option β) (log : List α) (a : α) :
    select mark f (log ++ [a]) =
      select mark f log ++ ((f a).map (marks mark (log ++ [a]), ·)).toList := by
  rw [select, stamps_snoc, List.filterMap_append]
  cases h : f a <;> simp [select, h]

theorem mem_select {f : α → Option β} {log : List α} {i : Nat} {b : β} :
    (i, b) ∈ select mark f log ↔ ∃ a, (i, a) ∈ stamps mark log ∧ f a = some b := by
  simp only [select, List.mem_filterMap, Option.map_eq_some_iff]
  constructor
  · rintro ⟨⟨j, a⟩, hp, b', hb', heq⟩
    obtain ⟨rfl, rfl⟩ := Prod.mk.inj heq
    exact ⟨a, hp, hb'⟩
  · rintro ⟨a, hp, hb⟩
    exact ⟨(i, a), hp, b, hb, rfl⟩

theorem map_snd_select (f : α → Option β) (log : List α) :
    (select mark f log).map Prod.snd = log.filterMap f := by
  induction log using List.reverseRecOn with
  | nil => rfl
  | append_singleton log a ih =>
      rw [select_snoc, List.filterMap_append, List.map_append, ih]
      cases h : f a <;> simp [h]

theorem select_le_marks {f : α → Option β} {log : List α} {p : Nat × β}
    (h : p ∈ select mark f log) : p.1 ≤ marks mark log := by
  obtain ⟨a, ha, -⟩ := (mem_select mark (i := p.1) (b := p.2)).1 h
  exact stamp_le_marks mark ha

theorem select_sorted (f : α → Option β) (log : List α) :
    (select mark f log).Pairwise fun p q => p.1 ≤ q.1 := by
  induction log using List.reverseRecOn with
  | nil => exact List.Pairwise.nil
  | append_singleton log a ih =>
      rw [select_snoc, List.pairwise_append]
      refine ⟨ih, by cases f a <;> simp, ?_⟩
      intro p hp q hq
      have hle := select_le_marks mark hp
      cases h : f a with
      | none => simp [h] at hq
      | some b =>
          simp only [h, Option.map_some, Option.toList_some, List.mem_singleton] at hq
          subst hq
          rw [marks_append]
          exact Nat.le_add_right_of_le hle

end Stamps

/-- In a sorted list, what lies between two entries with one key has that key too. -/
theorem eq_between {κ : Type*} {rows : List (Nat × β)} (key : β → κ)
    (hsorted : rows.Pairwise fun p q => p.1 ≤ q.1)
    (hkey : ∀ p ∈ rows, ∀ q ∈ rows, key p.2 = key q.2 → p.1 = q.1)
    (hstamp : ∀ p ∈ rows, ∀ q ∈ rows, p.1 = q.1 → key p.2 = key q.2)
    {i j k : Nat} (hi : i < rows.length) (hj : j < rows.length) (hk : k < rows.length)
    (hij : i ≤ j) (hjk : j ≤ k) (heq : key rows[i].2 = key rows[k].2) :
    key rows[j].2 = key rows[k].2 := by
  have hle : ∀ {a b : Nat} (ha : a < rows.length) (hb : b < rows.length), a ≤ b →
      rows[a].1 ≤ rows[b].1 := by
    intro a b ha hb hab
    rcases Nat.eq_or_lt_of_le hab with rfl | hlt
    · exact le_rfl
    · exact List.pairwise_iff_getElem.1 hsorted a b ha hb hlt
  have hik := hkey _ (List.getElem_mem _) _ (List.getElem_mem _) heq
  have h₁ := hle hi hj hij
  have h₂ := hle hj hk hjk
  exact hstamp _ (List.getElem_mem _) _ (List.getElem_mem _) (by omega)

section Discipline

/-- Every entry was allowed by the log before it. -/
inductive Disciplined (Allowed : List α → α → Prop) : List α → Prop
  | nil : Disciplined Allowed []
  | snoc {log : List α} {a : α} :
      Disciplined Allowed log → Allowed log a → Disciplined Allowed (log ++ [a])

variable {Allowed : List α → α → Prop}

theorem Disciplined.allowed {pre post : List α} {a : α}
    (h : Disciplined Allowed (pre ++ a :: post)) : Allowed pre a := by
  induction post using List.reverseRecOn with
  | nil =>
      generalize hlog : pre ++ [a] = log at h
      cases h with
      | nil => simp at hlog
      | snoc _ hallowed =>
          obtain ⟨rfl, heq⟩ := List.append_inj' hlog rfl
          cases heq
          exact hallowed
  | append_singleton post b ih =>
      generalize hlog : pre ++ a :: (post ++ [b]) = log at h
      cases h with
      | nil => simp at hlog
      | snoc hd _ =>
          rw [← List.cons_append, ← List.append_assoc] at hlog
          obtain ⟨rfl, -⟩ := List.append_inj' hlog rfl
          exact ih hd

theorem Disciplined.forall {P : α → Prop} {log : List α} (h : Disciplined Allowed log)
    (hp : ∀ old a, Allowed old a → P a) : ∀ a ∈ log, P a := by
  induction h with
  | nil => simp
  | @snoc log a _ hallowed ih =>
      intro b hb
      rcases List.mem_append.1 hb with hb | hb
      · exact ih b hb
      · obtain rfl := List.mem_singleton.1 hb
        exact hp log b hallowed

theorem Disciplined.append_free {log tail : List α} (h : Disciplined Allowed log)
    (htail : ∀ a ∈ tail, ∀ l, Allowed l a) : Disciplined Allowed (log ++ tail) := by
  induction tail using List.reverseRecOn with
  | nil => simpa using h
  | append_singleton tail a ih =>
      rw [← List.append_assoc]
      refine .snoc (ih fun b hb => htail b (by simp [hb])) (htail a (by simp) _)

end Discipline

end Journal

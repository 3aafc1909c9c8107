import Threadstat.Parse
import Mathlib.Computability.StateTransition

/-!
# The scan step by step

`parse_event_groups` as a machine that takes one test of a loop condition or one statement at a
time.  Indexing and slicing are checked here: a byte index out of bounds and a slice that is refused
are panics of their own, beside the one of `InternC::new`.  No run gets to either of them, every run
ends, and it ends as `parseEventGroups` does.
-/

namespace Threadstat

open Utf8 StateTransition

inductive Panic where
  /-- `b[i]` with `i` out of bounds. -/
  | index
  /-- `s[start..i]` off a character boundary, or with `start` beyond `i`. -/
  | slice
  /-- `InternC::new` of a name with a NUL in it. -/
  | intern
  deriving DecidableEq

inductive Point where
  /-- At the head of the outer loop. -/
  | pass
  /-- At the condition of the loop over commas and whitespace. -/
  | skip
  /-- At `if b[i] == b'['`. -/
  | choose
  /-- At the condition of the loop up to `]`. -/
  | inner (start : Nat)
  /-- At `&s[start..i]`, and what follows it in the pass. -/
  | innerEnd (start : Nat)
  /-- At the condition of the loop up to `,` or `[`. -/
  | name (start : Nat)
  /-- At `s[start..i].trim()`, and what follows it in the pass. -/
  | nameEnd (start : Nat)
  deriving DecidableEq

structure Scan where
  point : Point
  i : Nat
  groups : EventGroups

inductive Ended where
  | returned (result : Except ParseError EventGroups)
  | panicked (why : Panic)

def Ended.parsed : Ended → Parsed (Except ParseError EventGroups)
  | .returned result => .returned result
  | .panicked _ => .panicked

inductive ScanState where
  | running (sc : Scan)
  | ended (e : Ended)

/-- `b[i]`. -/
def byteAt (s : Str) (i : Nat) : Except Ended UInt8 :=
  match (bytes s)[i]? with
  | some x => .ok x
  | none => .error (.panicked .index)

/-- `s[start..stop]`. -/
def sliceAt (s : Str) (start stop : Nat) : Except Ended Str :=
  match slice s start stop with
  | some mid => .ok mid
  | none => .error (.panicked .slice)

/-- `i < b.len() && cond(b[i])`. -/
def test (s : Str) (cond : UInt8 → Bool) (i : Nat) : Except Ended Bool :=
  if i < (bytes s).length then (byteAt s i).map cond else .ok false

namespace Scan

def entry : Scan := ⟨.pass, 0, []⟩

section Step

variable (pfm : Pfm) (s : Str)

def next (sc : Scan) : Except Ended Scan :=
  match sc.point with
  | .pass => .ok { sc with point := .skip }
  | .skip => do
    if ← test s (fun x => x == ','.toUInt8 || isAsciiWhitespace x) sc.i then
      return { sc with i := sc.i + 1 }
    else if sc.i ≥ (bytes s).length then .error (.returned (.ok sc.groups))
    else return { sc with point := .choose }
  | .choose => do
    if (← byteAt s sc.i) = '['.toUInt8 then
      return { sc with point := .inner (sc.i + 1), i := sc.i + 1 }
    else return { sc with point := .name sc.i }
  | .inner start => do
    if ← test s (· != ']'.toUInt8) sc.i then return { sc with i := sc.i + 1 }
    else return { sc with point := .innerEnd start }
  | .innerEnd start => do
    let inner ← sliceAt s start sc.i
    let i := if sc.i < (bytes s).length then sc.i + 1 else sc.i
    match bracketedGroup pfm inner with
    | .error e => .error (.returned (.error e))
    | .ok group => return ⟨.pass, i, sc.groups ++ group.toList⟩
  | .name start => do
    if ← test s (fun x => x != ','.toUInt8 && x != '['.toUInt8) sc.i then
      return { sc with i := sc.i + 1 }
    else return { sc with point := .nameEnd start }
  | .nameEnd start => do
    let name := trim (← sliceAt s start sc.i)
    if name.isEmpty then return { sc with point := .pass }
    else
      match InternC.tryNew name with
      | .error _ => .error (.panicked .intern)
      | .ok interned =>
        match PerfConfig.fromPfmString pfm interned interned with
        | .error e => .error (.returned (.error (.Pfm e)))
        | .ok config => return ⟨.pass, sc.i, sc.groups ++ [.newSingle config]⟩

/-- One step; a parser that has ended takes none. -/
def step : ScanState → Option ScanState
  | .running sc =>
    match sc.next pfm s with
    | .ok sc => some (.running sc)
    | .error e => some (.ended e)
  | .ended _ => none

end Step

end Scan

/-! ## What a checked access gives -/

section Access

variable {s : Str} {i : Nat}

theorem byteAt_of_lt (h : i < (bytes s).length) : byteAt s i = .ok (bytes s)[i] := by
  rw [byteAt, List.getElem?_eq_getElem h]

theorem sliceAt_of_isBoundary {start stop : Nat} (hstart : IsBoundary s start)
    (hstop : IsBoundary s stop) (h : start ≤ stop) : ∃ mid, sliceAt s start stop = .ok mid := by
  obtain ⟨mid, hmid⟩ := slice_of_isBoundary hstart hstop h
  exact ⟨mid, by rw [sliceAt, hmid]⟩

theorem test_cases (cond : UInt8 → Bool) (i : Nat) :
    (∃ h : i < (bytes s).length, cond (bytes s)[i] = true ∧ test s cond i = .ok true) ∨
      ((∀ h : i < (bytes s).length, cond (bytes s)[i] = false) ∧ test s cond i = .ok false) := by
  by_cases h : i < (bytes s).length
  · cases hcond : cond (bytes s)[i] with
    | true => exact .inl ⟨h, hcond, by rw [test, if_pos h, byteAt_of_lt h, Except.map, hcond]⟩
    | false =>
        exact .inr ⟨fun _ => hcond, by rw [test, if_pos h, byteAt_of_lt h, Except.map, hcond]⟩
  · exact .inr ⟨fun h' => absurd h' h, by rw [test, if_neg h]⟩

theorem isBoundary_of_stop (hle : i ≤ (bytes s).length)
    (hstop : ∀ h : i < (bytes s).length, (bytes s)[i] < 128) : IsBoundary s i := by
  rcases hle.lt_or_eq with h | rfl
  · exact isBoundary_of_ascii h (hstop h)
  · exact .length s

end Access

theorem lt_of_isAsciiWhitespace {x : UInt8} (h : isAsciiWhitespace x = true) : x < 128 := by
  simp only [isAsciiWhitespace, Bool.or_eq_true, beq_iff_eq] at h
  obtain (((h | h) | h) | h) | h := h <;> exact lt_of_eq_toUInt8 (by decide) h

/-! ## The invariant -/

namespace Scan

/-- What the index is at each point: the first loop and the outer loop move between characters, the
other two over bytes from a boundary on. -/
def Inv (s : Str) (sc : Scan) : Prop :=
  match sc.point with
  | .pass | .skip => IsBoundary s sc.i
  | .choose => IsBoundary s sc.i ∧ ∃ h : sc.i < (bytes s).length, (bytes s)[sc.i] ≠ ','.toUInt8
  | .inner start => IsBoundary s start ∧ start ≤ sc.i ∧ sc.i ≤ (bytes s).length
  | .innerEnd start => IsBoundary s start ∧ start ≤ sc.i ∧ IsBoundary s sc.i ∧
      ∀ h : sc.i < (bytes s).length, (bytes s)[sc.i] = ']'.toUInt8
  -- Where a name starts there is a byte that belongs to it.
  | .name start => IsBoundary s start ∧ start ≤ sc.i ∧ sc.i ≤ (bytes s).length ∧
      (sc.i = start → ∃ h : sc.i < (bytes s).length,
        (bytes s)[sc.i] ≠ ','.toUInt8 ∧ (bytes s)[sc.i] ≠ '['.toUInt8)
  | .nameEnd start => IsBoundary s start ∧ start < sc.i ∧ IsBoundary s sc.i

/-- The pass that began at `p` is over, or it is under way and has not gone back. -/
def Past (p : Nat) (sc : Scan) : Prop :=
  match sc.point with
  | .pass => p < sc.i
  | .skip | .choose => p ≤ sc.i
  | .inner start | .innerEnd start => p < start
  | .name start | .nameEnd start => p ≤ start

def cutStart : Point → Option Nat
  | .innerEnd start | .nameEnd start => some start
  | _ => none

/-- The index is within the string, and what is sliced starts and ends on a boundary, in order. -/
structure InBounds (s : Str) (sc : Scan) : Prop where
  index : sc.i ≤ (bytes s).length
  slice : ∀ start, cutStart sc.point = some start →
    start ≤ sc.i ∧ IsBoundary s start ∧ IsBoundary s sc.i

/-- A step that keeps the invariant and goes on in the pass, or ends other than by an access. -/
def Safe (s : Str) (sc : Scan) : Except Ended Scan → Prop
  | .ok sc' => sc'.Inv s ∧ ∀ p, sc.Past p → sc'.Past p
  | .error (.returned _) => True
  | .error (.panicked why) => why = .intern

section Step

variable (pfm : Pfm) {s : Str} {i start : Nat} {groups : EventGroups}

theorem next_skip {b : Bool}
    (h : test s (fun x => x == ','.toUInt8 || isAsciiWhitespace x) i = .ok b) :
    next pfm s ⟨.skip, i, groups⟩ =
      if b then .ok ⟨.skip, i + 1, groups⟩
      else if i ≥ (bytes s).length then .error (.returned (.ok groups))
      else .ok ⟨.choose, i, groups⟩ := by
  simp only [next, h]
  rfl

theorem next_choose (h : i < (bytes s).length) :
    next pfm s ⟨.choose, i, groups⟩ =
      if (bytes s)[i] = '['.toUInt8 then .ok ⟨.inner (i + 1), i + 1, groups⟩
      else .ok ⟨.name i, i, groups⟩ := by
  simp only [next, byteAt_of_lt h]
  rfl

theorem next_inner {b : Bool} (h : test s (· != ']'.toUInt8) i = .ok b) :
    next pfm s ⟨.inner start, i, groups⟩ =
      if b then .ok ⟨.inner start, i + 1, groups⟩ else .ok ⟨.innerEnd start, i, groups⟩ := by
  simp only [next, h]
  rfl

theorem next_innerEnd {inner : Str} (h : sliceAt s start i = .ok inner) :
    next pfm s ⟨.innerEnd start, i, groups⟩ =
      match bracketedGroup pfm inner with
      | .error e => .error (.returned (.error e))
      | .ok group =>
        .ok ⟨.pass, if i < (bytes s).length then i + 1 else i, groups ++ group.toList⟩ := by
  simp only [next, h]
  rfl

theorem next_name {b : Bool}
    (h : test s (fun x => x != ','.toUInt8 && x != '['.toUInt8) i = .ok b) :
    next pfm s ⟨.name start, i, groups⟩ =
      if b then .ok ⟨.name start, i + 1, groups⟩ else .ok ⟨.nameEnd start, i, groups⟩ := by
  simp only [next, h]
  rfl

theorem next_nameEnd {name : Str} (h : sliceAt s start i = .ok name) :
    next pfm s ⟨.nameEnd start, i, groups⟩ =
      if (trim name).isEmpty then .ok ⟨.pass, i, groups⟩
      else
        match InternC.tryNew (trim name) with
        | .error _ => .error (.panicked .intern)
        | .ok interned =>
          match PerfConfig.fromPfmString pfm interned interned with
          | .error e => .error (.returned (.error (.Pfm e)))
          | .ok config => .ok ⟨.pass, i, groups ++ [.newSingle config]⟩ := by
  simp only [next, h]
  rfl

theorem skip_safe (h : IsBoundary s i) :
    Safe s ⟨.skip, i, groups⟩ (next pfm s ⟨.skip, i, groups⟩) := by
  rcases test_cases (s := s) (fun x => x == ','.toUInt8 || isAsciiWhitespace x) i with
    ⟨hi, hcond, htest⟩ | ⟨hstop, htest⟩
  · rw [next_skip pfm htest, if_pos rfl]
    have hascii : (bytes s)[i] < 128 := by
      rw [Bool.or_eq_true, beq_iff_eq] at hcond
      rcases hcond with hcomma | hspace
      · exact lt_of_eq_toUInt8 (by decide) hcomma
      · exact lt_of_isAsciiWhitespace hspace
    exact ⟨isBoundary_succ_of_ascii hi hascii, fun p hp => Nat.le_succ_of_le hp⟩
  · rw [next_skip pfm htest, if_neg Bool.false_ne_true]
    split
    · trivial
    · next hi =>
      rw [ge_iff_le, not_le] at hi
      have hbyte := hstop hi
      rw [Bool.or_eq_false_iff, beq_eq_false_iff_ne] at hbyte
      exact ⟨⟨h, hi, hbyte.1⟩, fun p hp => hp⟩

theorem choose_safe (h : IsBoundary s i)
    (hbyte : ∃ h : i < (bytes s).length, (bytes s)[i] ≠ ','.toUInt8) :
    Safe s ⟨.choose, i, groups⟩ (next pfm s ⟨.choose, i, groups⟩) := by
  obtain ⟨hi, hcomma⟩ := hbyte
  rw [next_choose pfm hi]
  split
  · next hopen =>
    have hascii := lt_of_eq_toUInt8 (by decide) hopen
    exact ⟨⟨isBoundary_succ_of_ascii hi hascii, le_refl _, hi⟩, fun p hp => Nat.lt_succ_of_le hp⟩
  · next hopen => exact ⟨⟨h, le_refl i, hi.le, fun _ => ⟨hi, hcomma, hopen⟩⟩, fun p hp => hp⟩

theorem inner_safe (hstart : IsBoundary s start) (hle : start ≤ i) (hlen : i ≤ (bytes s).length) :
    Safe s ⟨.inner start, i, groups⟩ (next pfm s ⟨.inner start, i, groups⟩) := by
  rcases test_cases (s := s) (· != ']'.toUInt8) i with ⟨hi, -, htest⟩ | ⟨hstop, htest⟩
  · rw [next_inner pfm htest, if_pos rfl]
    exact ⟨⟨hstart, Nat.le_succ_of_le hle, hi⟩, fun p hp => hp⟩
  · rw [next_inner pfm htest, if_neg Bool.false_ne_true]
    have hclose : ∀ h : i < (bytes s).length, (bytes s)[i] = ']'.toUInt8 :=
      fun h => by simpa using hstop h
    have hbound : IsBoundary s i :=
      isBoundary_of_stop hlen fun h => lt_of_eq_toUInt8 (by decide) (hclose h)
    exact ⟨⟨hstart, hle, hbound, hclose⟩, fun p hp => hp⟩

theorem innerEnd_safe (hstart : IsBoundary s start) (hle : start ≤ i) (hi : IsBoundary s i)
    (hclose : ∀ h : i < (bytes s).length, (bytes s)[i] = ']'.toUInt8) :
    Safe s ⟨.innerEnd start, i, groups⟩ (next pfm s ⟨.innerEnd start, i, groups⟩) := by
  obtain ⟨inner, hslice⟩ := sliceAt_of_isBoundary hstart hi hle
  rw [next_innerEnd pfm hslice]
  cases bracketedGroup pfm inner with
  | error e => trivial
  | ok group =>
      dsimp only [Safe, Inv, Past]
      split
      · next hlt =>
        have hascii := lt_of_eq_toUInt8 (by decide) (hclose hlt)
        exact ⟨isBoundary_succ_of_ascii hlt hascii, fun p hp => by omega⟩
      · exact ⟨hi, fun p hp => by omega⟩

theorem name_safe (hstart : IsBoundary s start) (hle : start ≤ i) (hlen : i ≤ (bytes s).length)
    (hfirst : i = start → ∃ h : i < (bytes s).length,
      (bytes s)[i] ≠ ','.toUInt8 ∧ (bytes s)[i] ≠ '['.toUInt8) :
    Safe s ⟨.name start, i, groups⟩ (next pfm s ⟨.name start, i, groups⟩) := by
  rcases test_cases (s := s) (fun x => x != ','.toUInt8 && x != '['.toUInt8) i with
    ⟨hi, -, htest⟩ | ⟨hstop, htest⟩
  · rw [next_name pfm htest, if_pos rfl]
    exact ⟨⟨hstart, Nat.le_succ_of_le hle, hi, fun h => absurd h (by dsimp only; omega)⟩,
      fun p hp => hp⟩
  · rw [next_name pfm htest, if_neg Bool.false_ne_true]
    have hlt : start < i := by
      rcases hle.lt_or_eq with hlt | heq
      · exact hlt
      · -- The first byte belongs to the name, so the loop did not stop at it.
        obtain ⟨hi, hcomma, hopen⟩ := hfirst heq.symm
        have hbyte := hstop hi
        simp [hcomma, hopen] at hbyte
    have hbound : IsBoundary s i := by
      apply isBoundary_of_stop hlen
      intro h
      have hbyte := hstop h
      simp only [Bool.and_eq_false_iff, bne_eq_false_iff_eq] at hbyte
      rcases hbyte with hcomma | hopen
      · exact lt_of_eq_toUInt8 (by decide) hcomma
      · exact lt_of_eq_toUInt8 (by decide) hopen
    exact ⟨⟨hstart, hlt, hbound⟩, fun p hp => hp⟩

theorem nameEnd_safe (hstart : IsBoundary s start) (hlt : start < i) (hi : IsBoundary s i) :
    Safe s ⟨.nameEnd start, i, groups⟩ (next pfm s ⟨.nameEnd start, i, groups⟩) := by
  obtain ⟨name, hslice⟩ := sliceAt_of_isBoundary hstart hi hlt.le
  rw [next_nameEnd pfm hslice]
  split
  · exact ⟨hi, fun p hp => lt_of_le_of_lt hp hlt⟩
  · cases InternC.tryNew (trim name) with
    | error e => rfl
    | ok interned =>
        dsimp only
        cases PerfConfig.fromPfmString pfm interned interned with
        | error e => trivial
        | ok config => exact ⟨hi, fun p hp => lt_of_le_of_lt hp hlt⟩

theorem next_safe {sc : Scan} (h : sc.Inv s) : sc.Safe s (sc.next pfm s) := by
  obtain ⟨point, i, groups⟩ := sc
  cases point with
  | pass => exact ⟨h, fun p hp => hp.le⟩
  | skip => exact skip_safe pfm h
  | choose => exact choose_safe pfm h.1 h.2
  | inner start => exact inner_safe pfm h.1 h.2.1 h.2.2
  | innerEnd start => exact innerEnd_safe pfm h.1 h.2.1 h.2.2.1 h.2.2.2
  | name start => exact name_safe pfm h.1 h.2.1 h.2.2.1 h.2.2.2
  | nameEnd start => exact nameEnd_safe pfm h.1 h.2.1 h.2.2

/-! ## Runs -/

/-- What the invariant says of a state: of a parser that has ended, that no access ended it. -/
def StateInv (s : Str) : ScanState → Prop
  | .running sc => sc.Inv s
  | .ended (.returned _) => True
  | .ended (.panicked why) => why = .intern

theorem step_running {sc : Scan} {st : ScanState} (h : st ∈ step pfm s (.running sc)) :
    (∃ sc', sc.next pfm s = .ok sc' ∧ st = .running sc') ∨
      ∃ e, sc.next pfm s = .error e ∧ st = .ended e := by
  simp only [step] at h
  cases hnext : sc.next pfm s with
  | ok sc' =>
      rw [hnext] at h
      exact .inl ⟨sc', rfl, (Option.some.inj h).symm⟩
  | error e =>
      rw [hnext] at h
      exact .inr ⟨e, rfl, (Option.some.inj h).symm⟩

theorem step_inv {st st' : ScanState} (h : StateInv s st) (hstep : st' ∈ step pfm s st) :
    StateInv s st' := by
  cases st with
  | ended e => cases hstep
  | running sc =>
      have hsafe := next_safe pfm h
      rcases step_running pfm hstep with ⟨sc', hnext, rfl⟩ | ⟨e, hnext, rfl⟩ <;> rw [hnext] at hsafe
      · exact hsafe.1
      · cases e <;> exact hsafe

theorem reaches_inv {st : ScanState} (h : Reaches (step pfm s) (.running entry) st) :
    StateInv s st := by
  induction h with
  | refl => exact IsBoundary.zero s
  | tail _ hstep ih => exact step_inv pfm ih hstep

/-- A pass that is over has moved the index forward, however many steps later. -/
theorem reaches_past {p : Nat} {sc : Scan} {st : ScanState} (hinv : sc.Inv s) (hpast : sc.Past p)
    (h : Reaches (step pfm s) (.running sc) st) :
    StateInv s st ∧ ∀ sc', st = .running sc' → sc'.Past p := by
  induction h with
  | refl =>
      refine ⟨hinv, fun sc' heq => ?_⟩
      cases heq
      exact hpast
  | @tail u v _ hstep ih =>
      refine ⟨step_inv pfm ih.1 hstep, fun sc' heq => ?_⟩
      subst heq
      cases u with
      | ended e => cases hstep
      | running sc =>
          have hsafe := next_safe pfm ih.1
          rcases step_running pfm hstep with ⟨sc'', hnext, heq⟩ | ⟨e, hnext, heq⟩
          · cases heq
            rw [hnext] at hsafe
            exact hsafe.2 p (ih.2 sc rfl)
          · cases heq

/-! ## The machine does what the parser does -/

variable {pfm}

theorem step_ok {sc sc' : Scan} (h : sc.next pfm s = .ok sc') :
    Reaches (step pfm s) (.running sc) (.running sc') :=
  .single (by simp [step, h])

theorem step_error {sc : Scan} {e : Ended} (h : sc.next pfm s = .error e) :
    Reaches (step pfm s) (.running sc) (.ended e) :=
  .single (by simp [step, h])

/-- A loop gets to where `skipWhile` does, and there it stops. -/
theorem reaches_loop {point : Point} {cond : UInt8 → Bool} {stop : Nat → Except Ended Scan}
    (hnext : ∀ i b, test s cond i = .ok b → next pfm s ⟨point, i, groups⟩ =
      if b then .ok ⟨point, i + 1, groups⟩ else stop i) (i : Nat) :
    Reaches (step pfm s) (.running ⟨point, i, groups⟩)
        (.running ⟨point, skipWhile cond (bytes s) i, groups⟩) ∧
      next pfm s ⟨point, skipWhile cond (bytes s) i, groups⟩ =
        stop (skipWhile cond (bytes s) i) := by
  have hgo : ∀ i (h : i < (bytes s).length), cond (bytes s)[i] = true →
      next pfm s ⟨point, i, groups⟩ = .ok ⟨point, i + 1, groups⟩ := by
    intro i h hcond
    rcases test_cases (s := s) cond i with ⟨-, -, htest⟩ | ⟨hstop, -⟩
    · exact hnext i true htest
    · rw [hstop h] at hcond
      cases hcond
  constructor
  · fun_induction skipWhile cond (bytes s) i with
    | case1 i h hcond ih => exact (step_ok (hgo i h hcond)).trans ih
    | case2 i h hcond => exact .refl
    | case3 i h => exact .refl
  · rcases test_cases (s := s) cond (skipWhile cond (bytes s) i) with ⟨h, hcond, -⟩ | ⟨-, htest⟩
    · rw [skipWhile_stops h] at hcond
      cases hcond
    · exact hnext _ false htest

/-- The parser gets from a state to where a pass ends. -/
def Lands (pfm : Pfm) (s : Str) (sc : Scan) : Pass → Prop
  | .exit => Reaches (step pfm s) (.running sc) (.ended (.returned (.ok sc.groups)))
  | .next j group =>
    Reaches (step pfm s) (.running sc) (.running ⟨.pass, j, sc.groups ++ group.toList⟩)
  | .failed e => Reaches (step pfm s) (.running sc) (.ended (.returned (.error e)))
  | .panicked => ∃ why, Reaches (step pfm s) (.running sc) (.ended (.panicked why))

theorem Lands.of_reaches {point point' : Point} {j : Nat} {p : Pass}
    (h : Reaches (step pfm s) (.running ⟨point, i, groups⟩) (.running ⟨point', j, groups⟩))
    (hlands : Lands pfm s ⟨point', j, groups⟩ p) : Lands pfm s ⟨point, i, groups⟩ p := by
  cases p with
  | exit => exact h.trans hlands
  | next k group => exact h.trans hlands
  | failed e => exact h.trans hlands
  | panicked => exact hlands.imp fun why hwhy => h.trans hwhy

theorem Lands.of_loop {point after : Point} {cond : UInt8 → Bool} {p : Pass}
    (hnext : ∀ i b, test s cond i = .ok b → next pfm s ⟨point, i, groups⟩ =
      if b then .ok ⟨point, i + 1, groups⟩ else .ok ⟨after, i, groups⟩)
    (hlands : Lands pfm s ⟨after, skipWhile cond (bytes s) i, groups⟩ p) :
    Lands pfm s ⟨point, i, groups⟩ p := by
  obtain ⟨hloop, hstop⟩ := reaches_loop hnext i
  exact hlands.of_reaches (hloop.trans (step_ok hstop))

theorem sliceAt_of_none {stop : Nat} (h : slice s start stop = none) :
    sliceAt s start stop = .error (.panicked .slice) := by
  rw [sliceAt, h]

theorem sliceAt_of_some {stop : Nat} {mid : Str} (h : slice s start stop = some mid) :
    sliceAt s start stop = .ok mid := by
  rw [sliceAt, h]

theorem bracketedPass_lands (start : Nat) :
    Lands pfm s ⟨.inner start, start, groups⟩ (bracketedPass pfm s start) := by
  apply Lands.of_loop (fun i b h => next_inner pfm h)
  unfold bracketedPass
  dsimp only
  generalize skipWhile (· != ']'.toUInt8) (bytes s) start = i
  cases hslice : slice s start i with
  | none =>
      refine ⟨.slice, step_error ?_⟩
      simp only [next, sliceAt_of_none hslice]
      rfl
  | some inner =>
      have hend : next pfm s ⟨.innerEnd start, i, groups⟩ = _ :=
        next_innerEnd pfm (sliceAt_of_some hslice)
      dsimp only
      cases hgroup : bracketedGroup pfm inner with
      | error e =>
          rw [hgroup] at hend
          exact step_error hend
      | ok group =>
          rw [hgroup] at hend
          exact step_ok hend

theorem barePass_lands (start : Nat) :
    Lands pfm s ⟨.name start, start, groups⟩ (barePass pfm s start) := by
  apply Lands.of_loop (fun i b h => next_name pfm h)
  unfold barePass
  dsimp only
  generalize skipWhile (fun x => x != ','.toUInt8 && x != '['.toUInt8) (bytes s) start = i
  cases hslice : slice s start i with
  | none =>
      refine ⟨.slice, step_error ?_⟩
      simp only [next, sliceAt_of_none hslice]
      rfl
  | some raw =>
      have hend : next pfm s ⟨.nameEnd start, i, groups⟩ = _ :=
        next_nameEnd pfm (sliceAt_of_some hslice)
      dsimp only
      split
      · next hempty =>
        rw [if_pos hempty] at hend
        simpa [Lands] using step_ok hend
      · next hempty =>
        rw [if_neg hempty] at hend
        cases hname : InternC.tryNew (trim raw) with
        | error e =>
            rw [hname] at hend
            exact ⟨.intern, step_error hend⟩
        | ok interned =>
            rw [hname] at hend
            dsimp only at hend ⊢
            cases hconfig : PerfConfig.fromPfmString pfm interned interned with
            | error e =>
                rw [hconfig] at hend
                exact step_error hend
            | ok config =>
                rw [hconfig] at hend
                exact step_ok hend

theorem pass_lands (i : Nat) : Lands pfm s ⟨.pass, i, groups⟩ (pass pfm s i) := by
  have hnext : ∀ i b, test s (fun x => x == ','.toUInt8 || isAsciiWhitespace x) i = .ok b →
      next pfm s ⟨.skip, i, groups⟩ =
        if b then .ok ⟨.skip, i + 1, groups⟩
        else if i ≥ (bytes s).length then .error (.returned (.ok groups))
        else .ok ⟨.choose, i, groups⟩ :=
    fun i b h => next_skip pfm h
  have hpass : next pfm s ⟨.pass, i, groups⟩ = .ok ⟨.skip, i, groups⟩ := rfl
  obtain ⟨hloop, hstop⟩ := reaches_loop hnext i
  apply Lands.of_reaches ((step_ok hpass).trans hloop)
  unfold pass
  dsimp only
  generalize skipWhile (fun x => x == ','.toUInt8 || isAsciiWhitespace x) (bytes s) i = j at hstop ⊢
  split
  · next hlt =>
    rw [if_neg (Nat.not_le_of_lt hlt)] at hstop
    apply Lands.of_reaches (step_ok hstop)
    have hchoose : next pfm s ⟨.choose, j, groups⟩ = _ := next_choose pfm hlt
    split
    · next hopen =>
      rw [if_pos hopen] at hchoose
      exact .of_reaches (step_ok hchoose) (bracketedPass_lands (j + 1))
    · next hopen =>
      rw [if_neg hopen] at hchoose
      exact .of_reaches (step_ok hchoose) (barePass_lands j)
  · next hlt =>
    rw [if_pos (Nat.le_of_not_lt hlt)] at hstop
    exact step_error hstop

theorem lands_of_pass {p : Pass} (h : pass pfm s i = p) :
    Lands pfm s ⟨.pass, i, groups⟩ p := h ▸ pass_lands i

/-- From the head of the outer loop the machine ends as the loop does. -/
theorem ends (pfm : Pfm) (s : Str) (i : Nat) (groups : EventGroups) :
    ∃ e, Reaches (step pfm s) (.running ⟨.pass, i, groups⟩) (.ended e) ∧
      e.parsed = parseFrom pfm s i groups := by
  fun_induction parseFrom pfm s i groups with
  | case1 i groups hpass => exact ⟨_, lands_of_pass hpass, rfl⟩
  | case2 i groups j group hpass ih =>
      obtain ⟨e, hreach, he⟩ := ih
      exact ⟨e, (lands_of_pass hpass).trans hreach, he⟩
  | case3 i groups err hpass => exact ⟨_, lands_of_pass hpass, rfl⟩
  | case4 i groups hpass =>
      obtain ⟨why, hreach⟩ := lands_of_pass hpass
      exact ⟨_, hreach, rfl⟩

end Step

theorem Inv.inBounds {s : Str} {sc : Scan} (h : sc.Inv s) : sc.InBounds s := by
  obtain ⟨point, i, groups⟩ := sc
  cases point with
  | pass => exact ⟨IsBoundary.le h, nofun⟩
  | skip => exact ⟨IsBoundary.le h, nofun⟩
  | choose => exact ⟨IsBoundary.le h.1, nofun⟩
  | inner start => exact ⟨h.2.2, nofun⟩
  | innerEnd start =>
      refine ⟨h.2.2.1.le, ?_⟩
      rintro _ ⟨rfl⟩
      exact ⟨h.2.1, h.1, h.2.2.1⟩
  | name start => exact ⟨h.2.2.1, nofun⟩
  | nameEnd start =>
      refine ⟨h.2.2.le, ?_⟩
      rintro _ ⟨rfl⟩
      exact ⟨h.2.1.le, h.1, h.2.2⟩

/-- For every string, whatever libpfm knows: the scan ends, as the parser does, and neither an index
nor a slice ends it.  In every state on the way the index is within the string, a slice starts and
ends on character boundaries, and a pass of the outer loop that goes on has moved the index on. -/
theorem scan_safe (pfm : Pfm) (s : Str) :
    (∃ e, .ended e ∈ eval (step pfm s) (.running entry) ∧
        e.parsed = parseEventGroups pfm s ∧ ∀ why, e = .panicked why → why = .intern) ∧
      (∀ sc, Reaches (step pfm s) (.running entry) (.running sc) → sc.InBounds s) ∧
      ∀ sc sc', Reaches (step pfm s) (.running entry) (.running sc) →
        Reaches₁ (step pfm s) (.running sc) (.running sc') →
        sc.point = .pass → sc'.point = .pass → sc.i < sc'.i := by
  refine ⟨?_, fun sc h => Inv.inBounds (reaches_inv pfm h), ?_⟩
  · obtain ⟨e, hreach, he⟩ := ends pfm s 0 []
    refine ⟨e, mem_eval.2 ⟨hreach, rfl⟩, he, ?_⟩
    rintro why rfl
    exact reaches_inv pfm hreach
  · intro sc sc' hreach hpass hsc hsc'
    obtain ⟨st, hstep, hrest⟩ := Relation.TransGen.head'_iff.1 hpass
    obtain ⟨point, i, groups⟩ := sc
    obtain rfl : point = .pass := hsc
    obtain rfl : .running ⟨.skip, i, groups⟩ = st := Option.some.inj hstep
    have hinv : Inv s ⟨.pass, i, groups⟩ := reaches_inv pfm hreach
    have hskip : Inv s ⟨.skip, i, groups⟩ := hinv
    have hpast := (reaches_past pfm hskip (le_refl i) hrest).2 sc' rfl
    rw [Past, hsc'] at hpast
    exact hpast

end Scan

end Threadstat

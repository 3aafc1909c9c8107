import Threadstat.Basic
import Threadstat.Lib.Utf8
import Mathlib.Data.List.DropRight

/-!
# Event strings

`parse_event_groups` scans the bytes of the event string with one index through four loops and
slices the string between two values of that index.  libpfm decides which names are events; its
answers are an argument.
-/

namespace Threadstat

open Utf8

/-! ## libpfm -/

structure PfmError where
  code : Int32
  deriving DecidableEq

/-- libpfm: whether it could be initialised, and what it answers for an event string. -/
structure Pfm where
  init : Except PfmError Unit
  getPerfAttr : InternC → Except PfmError PerfEventAttr

def PerfConfig.fromPfmString {N : Type} (pfm : Pfm) (event : InternC) (name : N) :
    Except PfmError (PerfConfig N) := do
  pfm.init
  let attr ← pfm.getPerfAttr event
  return { attr, name }

/-! ## Text -/

def isAsciiWhitespace (x : UInt8) : Bool :=
  x == '\t'.toUInt8 || x == '\n'.toUInt8 || x == '\x0C'.toUInt8 || x == '\r'.toUInt8 || x == ' '.toUInt8

/-- `char::is_whitespace`: the Unicode property `White_Space`. -/
def isWhitespace (c : Char) : Bool :=
  let n := c.toNat
  (0x09 ≤ n && n ≤ 0x0D) || n == 0x20 || n == 0x85 || n == 0xA0 || n == 0x1680 ||
    (0x2000 ≤ n && n ≤ 0x200A) || n == 0x2028 || n == 0x2029 || n == 0x202F || n == 0x205F ||
    n == 0x3000

def trim (s : Str) : Str := (s.dropWhile isWhitespace).rdropWhile isWhitespace

/-! ## The parser -/

inductive ParseError where
  | Pfm (e : PfmError)
  | InternalNULL (e : InteriorNulError)
  deriving DecidableEq

inductive Parsed (α : Type) where
  | returned (result : α)
  | panicked

abbrev EventGroups := List (NonEmpty (PerfConfig InternC))

/-- `while i < b.len() && cond(b[i]) { i += 1; }` -/
def skipWhile (cond : UInt8 → Bool) (b : List UInt8) (i : Nat) : Nat :=
  if h : i < b.length then
    if cond b[i] then skipWhile cond b (i + 1) else i
  else i
termination_by b.length - i

inductive Pass where
  /-- `break`. -/
  | exit
  /-- The pass stops at `i`, having pushed a group or not. -/
  | next (i : Nat) (group : Option (NonEmpty (PerfConfig InternC)))
  | failed (e : ParseError)
  | panicked

section Parser

variable (pfm : Pfm)

/-- The closure that looks up one name of a bracketed section. -/
def bracketedConfig (e : Str) : Except ParseError (PerfConfig InternC) := do
  let interned ← (InternC.tryNew e).mapError .InternalNULL
  (PerfConfig.fromPfmString pfm interned interned).mapError .Pfm

/-- The group between two brackets, collected up to the first error. -/
def bracketedGroup (inner : Str) : Except ParseError (Option (NonEmpty (PerfConfig InternC))) := do
  let configs ← (((inner.splitOn ',').map trim).filter fun e => !e.isEmpty).mapM
    (bracketedConfig pfm)
  return MaybeNonEmpty.fromIter configs

/-- A pass that has consumed a `[`. -/
def bracketedPass (s : Str) (start : Nat) : Pass :=
  let b := bytes s
  let i := skipWhile (· != ']'.toUInt8) b start
  match slice s start i with
  | none => .panicked
  | some inner =>
    let i := if i < b.length then i + 1 else i
    match bracketedGroup pfm inner with
    | .error e => .failed e
    | .ok group => .next i group

/-- A pass that has found a name outside brackets. -/
def barePass (s : Str) (start : Nat) : Pass :=
  let i := skipWhile (fun x => x != ','.toUInt8 && x != '['.toUInt8) (bytes s) start
  match slice s start i with
  | none => .panicked
  | some raw =>
    let name := trim raw
    if name.isEmpty then .next i none
    else
      match InternC.tryNew name with
      -- `InternC::new` panics.
      | .error _ => .panicked
      | .ok interned =>
        match PerfConfig.fromPfmString pfm interned interned with
        | .error e => .failed (.Pfm e)
        | .ok config => .next i (some (.newSingle config))

def pass (s : Str) (i : Nat) : Pass :=
  let b := bytes s
  let i := skipWhile (fun x => x == ','.toUInt8 || isAsciiWhitespace x) b i
  if h : i < b.length then
    if b[i] = '['.toUInt8 then bracketedPass pfm s (i + 1) else barePass pfm s i
  else .exit

end Parser

/-! ## Progress -/

theorem skipWhile_eq (cond : UInt8 → Bool) (b : List UInt8) (i : Nat) :
    skipWhile cond b i = i + ((b.drop i).takeWhile cond).length := by
  fun_induction skipWhile cond b i with
  | case1 i h hcond ih =>
      rw [ih, List.drop_eq_getElem_cons h, List.takeWhile_cons_of_pos hcond, List.length_cons]
      omega
  | case2 i h hcond =>
      rw [List.drop_eq_getElem_cons h, List.takeWhile_cons_of_neg hcond]
      rfl
  | case3 i h =>
      rw [List.drop_eq_nil_of_le (by omega)]
      rfl

theorem le_skipWhile (cond : UInt8 → Bool) (b : List UInt8) (i : Nat) :
    i ≤ skipWhile cond b i := by
  rw [skipWhile_eq]
  exact Nat.le_add_right _ _

theorem skipWhile_le (cond : UInt8 → Bool) {b : List UInt8} {i : Nat} (h : i ≤ b.length) :
    skipWhile cond b i ≤ b.length := by
  have hlen := (List.takeWhile_prefix cond (l := b.drop i)).length_le
  rw [List.length_drop] at hlen
  rw [skipWhile_eq]
  omega

theorem skipWhile_stops {cond : UInt8 → Bool} {b : List UInt8} {i : Nat}
    (h : skipWhile cond b i < b.length) : cond b[skipWhile cond b i] = false := by
  fun_induction skipWhile cond b i with
  | case1 i hlt hcond ih => exact ih h
  | case2 i hlt hcond => simpa using hcond
  | case3 i hlt => exact absurd h hlt

theorem lt_skipWhile (cond : UInt8 → Bool) {b : List UInt8} {i : Nat} (h : i < b.length)
    (hcond : cond b[i] = true) : i < skipWhile cond b i := by
  rw [skipWhile, dif_pos h, if_pos hcond]
  exact le_skipWhile cond b (i + 1)

theorem bracketedPass_next {pfm : Pfm} {s : Str} {start j : Nat}
    {group : Option (NonEmpty (PerfConfig InternC))} (hstart : start ≤ (bytes s).length)
    (h : bracketedPass pfm s start = .next j group) : start ≤ j ∧ j ≤ (bytes s).length := by
  have hle := le_skipWhile (· != ']'.toUInt8) (bytes s) start
  have hlen := skipWhile_le (· != ']'.toUInt8) hstart
  unfold bracketedPass at h
  dsimp only at h
  split at h
  · cases h
  · split at h
    · cases h
    · obtain ⟨rfl, -⟩ := Pass.next.inj h
      split <;> omega

theorem barePass_next {pfm : Pfm} {s : Str} {start j : Nat}
    {group : Option (NonEmpty (PerfConfig InternC))}
    (h : barePass pfm s start = .next j group) :
    j = skipWhile (fun x => x != ','.toUInt8 && x != '['.toUInt8) (bytes s) start := by
  unfold barePass at h
  dsimp only at h
  split at h
  · cases h
  · split at h
    · exact (Pass.next.inj h).1.symm
    · split at h
      · cases h
      · split at h
        · cases h
        · exact (Pass.next.inj h).1.symm

/-- A pass that does not end the loop moves the index forward, and not beyond the end. -/
theorem pass_next {pfm : Pfm} {s : Str} {i j : Nat}
    {group : Option (NonEmpty (PerfConfig InternC))} (h : pass pfm s i = .next j group) :
    i < j ∧ j ≤ (bytes s).length := by
  have hle := le_skipWhile (fun x => x == ','.toUInt8 || isAsciiWhitespace x) (bytes s) i
  unfold pass at h
  dsimp only at h
  split at h
  · next hlt =>
    have hstop := skipWhile_stops hlt
    simp only [Bool.or_eq_false_iff, beq_eq_false_iff_ne] at hstop
    split at h
    · have hnext := bracketedPass_next hlt h
      omega
    · next hopen =>
      -- The first byte is neither a comma nor a bracket, so the name is not empty.
      obtain rfl := barePass_next h
      have hname := lt_skipWhile (fun x => x != ','.toUInt8 && x != '['.toUInt8) hlt
        (by simp [hstop.1, hopen])
      exact ⟨by omega, skipWhile_le _ hlt.le⟩
  · cases h

def parseFrom (pfm : Pfm) (s : Str) (i : Nat) (groups : EventGroups) :
    Parsed (Except ParseError EventGroups) :=
  match _h : pass pfm s i with
  | .exit => .returned (.ok groups)
  | .next j group => parseFrom pfm s j (groups ++ group.toList)
  | .failed e => .returned (.error e)
  | .panicked => .panicked
termination_by (bytes s).length - i
decreasing_by
  have := pass_next _h
  omega

def parseEventGroups (pfm : Pfm) (s : Str) : Parsed (Except ParseError EventGroups) :=
  parseFrom pfm s 0 []

end Threadstat

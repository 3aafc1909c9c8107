import Mathlib.Data.List.Basic

/-!
# Shared vocabulary

The integer types, errors and small containers that every crate of the repository uses.
-/

namespace Threadstat

abbrev Pid := Int32

/-- A file descriptor number; `-1` is no descriptor. -/
abbrev RawFd := Int

abbrev Str := List Char

inductive IoError where
  | os (errno : Nat)
  | other (message : String)
  deriving DecidableEq, Repr

namespace IoError

def EINTR : IoError := .os 4
def EBADF : IoError := .os 9
def ENOENT : IoError := .os 2

def isInterrupted (e : IoError) : Bool := e = EINTR

end IoError

/-- `NonEmpty<U>`: a boxed slice that holds at least one element. -/
structure NonEmpty (U : Type) where
  toList : List U
  ne : toList ≠ []

namespace NonEmpty

variable {U : Type}

@[ext] theorem ext {a b : NonEmpty U} (h : a.toList = b.toList) : a = b := by
  cases a
  cases b
  simpa using h

def newSingle (val : U) : NonEmpty U := ⟨[val], by simp⟩

/-- `get_unchecked(0)`, in bounds because of `ne`. -/
def first (xs : NonEmpty U) : U := xs.toList.head xs.ne

def len (xs : NonEmpty U) : Nat := xs.toList.length

@[simp] theorem toList_newSingle (val : U) : (newSingle val).toList = [val] := rfl

theorem len_pos (xs : NonEmpty U) : 0 < xs.len := List.length_pos_iff.2 xs.ne

theorem first_mem (xs : NonEmpty U) : xs.first ∈ xs.toList := List.head_mem xs.ne

theorem toList_eq_cons (xs : NonEmpty U) : xs.toList = xs.first :: xs.toList.tail :=
  (List.cons_head_tail xs.ne).symm

end NonEmpty

/-- `MaybeNonEmpty::from_iter(..).into_option()`. -/
def MaybeNonEmpty.fromIter {U : Type} (vals : List U) : Option (NonEmpty U) :=
  if h : vals = [] then none else some ⟨vals, h⟩

@[simp] theorem MaybeNonEmpty.fromIter_nil {U : Type} :
    MaybeNonEmpty.fromIter ([] : List U) = none := rfl

theorem MaybeNonEmpty.fromIter_of_ne {U : Type} {vals : List U} (h : vals ≠ []) :
    MaybeNonEmpty.fromIter vals = some ⟨vals, h⟩ := dif_neg h

@[simp] theorem MaybeNonEmpty.fromIter_toList {U : Type} (xs : NonEmpty U) :
    MaybeNonEmpty.fromIter xs.toList = some xs := MaybeNonEmpty.fromIter_of_ne xs.ne

/-- The character an interned C string may not hold. -/
def nul : Char := Char.ofNat 0

structure InteriorNulError where
  deriving DecidableEq, Repr

/-- `string_intern::InternC`: text without an interior NUL. -/
structure InternC where
  text : Str
  noNul : nul ∉ text
  deriving DecidableEq

def InternC.tryNew (s : Str) : Except InteriorNulError InternC :=
  if h : nul ∈ s then .error {} else .ok ⟨s, h⟩

/-- The fields of `struct perf_event_attr` this repository writes itself.  libpfm fills the
structure as a whole and the rest of it is passed on untouched. -/
structure PerfEventAttr where
  size : UInt32
  type : UInt32
  config : UInt64
  readFormat : UInt64
  excludeHv : Bool
  deriving DecidableEq, Repr

structure PerfConfig (N : Type) where
  attr : PerfEventAttr
  name : N

end Threadstat

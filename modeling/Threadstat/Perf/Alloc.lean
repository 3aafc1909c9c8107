import Threadstat.Perf.GroupReader
import Mathlib.Logic.Function.Basic

/-!
# The global allocator

`std::alloc` as unsafe code meets it: the live allocations with the layouts they were made with, and
what a call must meet for its behaviour to be defined.  What the allocator grants is an argument,
and it may refuse any request.  A pointer knows the allocation it was made for, so it stays invalid
when its address is given out again.
-/

namespace Threadstat

def isizeMax : Nat := 2 ^ 63 - 1

structure LayoutError where
  deriving DecidableEq, Repr

/-- The size rounded up to the alignment does not exceed `isize::MAX`. -/
def Layout.Fits (l : Layout) : Prop := l.size ≤ isizeMax - (l.align - 1)

instance (l : Layout) : Decidable l.Fits := inferInstanceAs (Decidable (_ ≤ _))

def Layout.fromSizeAlign (size align : Nat) : Except LayoutError Layout :=
  if align.isPowerOfTwo ∧ Layout.Fits ⟨size, align⟩ then .ok ⟨size, align⟩ else .error {}

/-- A raw pointer: an address, and the number of the allocation it was made for. -/
structure Ptr where
  addr : Nat
  alloc : Nat
  deriving DecidableEq, Repr

def Ptr.null : Ptr := ⟨0, 0⟩

structure NonNull where
  ptr : Ptr
  nonNull : ptr.addr ≠ 0

def NonNull.new (p : Ptr) : Option NonNull := if h : p.addr = 0 then none else some ⟨p, h⟩

/-- A live allocation: where it is, the layout it was last allocated or reallocated with, and what
it holds. -/
structure Allocation where
  addr : Nat
  layout : Layout
  bytes : Nat → UInt8

inductive Request where
  | alloc (layout : Layout)
  | realloc (ptr : Ptr) (layout : Layout) (newSize : Nat)
  | dealloc (ptr : Ptr) (layout : Layout)
  deriving DecidableEq, Repr

/-- The live allocations, each under the number of the request that made it, and the requests. -/
structure Heap where
  live : Nat → Option Allocation
  trace : List Request
  fresh : ∀ id, trace.length ≤ id → live id = none

structure Grant (align : Nat) where
  addr : Nat
  bytes : Nat → UInt8
  nonNull : addr ≠ 0
  aligned : addr % align = 0

/-- A global allocator: the block it grants for a layout, or none, when the heap's last request asks
for one. -/
abbrev Allocator := Heap → (layout : Layout) → Option (Grant layout.align)

namespace Heap

def empty : Heap := ⟨fun _ => none, [], fun _ _ => rfl⟩

/-- The allocation that begins where a pointer points, if it is the pointer's own. -/
def find (h : Heap) (p : Ptr) : Option Allocation :=
  (h.live p.alloc).filter fun a => a.addr = p.addr

def note (h : Heap) (r : Request) : Heap where
  live := h.live
  trace := h.trace ++ [r]
  fresh id hid := h.fresh id (by simp at hid; omega)

def put (h : Heap) (id : Nat) (hid : id < h.trace.length) (a : Allocation) : Heap where
  live := Function.update h.live id (some a)
  trace := h.trace
  fresh id' hid' := by rw [Function.update_of_ne (by omega), h.fresh id' hid']

def free (h : Heap) (id : Nat) : Heap where
  live := Function.update h.live id none
  trace := h.trace
  fresh id' hid' := by
    by_cases heq : id' = id
    · rw [heq, Function.update_self]
    · rw [Function.update_of_ne heq, h.fresh id' hid']

section Calls

variable (A : Allocator) (h : Heap)

/-- `alloc`; `none` is undefined behaviour. -/
def alloc (layout : Layout) : Option (Ptr × Heap) :=
  if layout.size = 0 then none
  else
    let h' := h.note (.alloc layout)
    match A h' layout with
    | none => some (.null, h')
    | some grant =>
      some (⟨grant.addr, h.trace.length⟩,
        h'.put h.trace.length (by simp [h', note]) ⟨grant.addr, layout, grant.bytes⟩)

/-- `realloc`; `none` is undefined behaviour.  Refused, it leaves the old block as it is. -/
def realloc (ptr : Ptr) (layout : Layout) (newSize : Nat) : Option (Ptr × Heap) :=
  match h.find ptr with
  | none => none
  | some old =>
    if old.layout = layout ∧ 0 < newSize ∧ Layout.Fits ⟨newSize, layout.align⟩ then
      let h' := h.note (.realloc ptr layout newSize)
      match A h' ⟨newSize, layout.align⟩ with
      | none => some (.null, h')
      | some grant =>
        some (⟨grant.addr, h.trace.length⟩,
          (h'.free ptr.alloc).put h.trace.length (by simp [h', note, free])
            ⟨grant.addr, ⟨newSize, layout.align⟩,
              fun i => if i < layout.size then old.bytes i else grant.bytes i⟩)
    else none

/-- `dealloc`; `none` is undefined behaviour. -/
def dealloc (ptr : Ptr) (layout : Layout) : Option (Unit × Heap) :=
  match h.find ptr with
  | none => none
  | some a =>
    if a.layout = layout then some ((), (h.note (.dealloc ptr layout)).free ptr.alloc) else none

/-- `slice::from_raw_parts_mut` over bytes; `none` is undefined behaviour. -/
def fromRawPartsMut (data : Ptr) (len : Nat) : Option Slice :=
  match h.find data with
  | none => none
  | some a =>
    if len ≤ a.layout.size ∧ len ≤ isizeMax then some ⟨data.addr, (List.range len).map a.bytes⟩
    else none

end Calls

/-! ## What a call leaves -/

section Spec

variable {A : Allocator} {h : Heap} {ptr : Ptr} {layout : Layout} {newSize len : Nat}
  {a : Allocation}

theorem find_put (h : Heap) {id : Nat} (hid : id < h.trace.length) (a : Allocation) :
    (h.put id hid a).find ⟨a.addr, id⟩ = some a := by
  simp [find, put]

theorem find_free (h : Heap) (ptr : Ptr) : (h.free ptr.alloc).find ptr = none := by
  simp [find, free]

/-- Refused, or a new allocation with the layout that was asked for. -/
theorem alloc_cases (A : Allocator) (h : Heap) (hsize : 0 < layout.size) :
    (A (h.note (.alloc layout)) layout = none ∧ ∃ h', h.alloc A layout = some (.null, h')) ∨
      ∃ (grant : Grant layout.align) (p : Ptr) (h' : Heap),
        A (h.note (.alloc layout)) layout = some grant ∧ h.alloc A layout = some (p, h') ∧
        p.addr = grant.addr ∧ h'.find p = some ⟨grant.addr, layout, grant.bytes⟩ := by
  rw [alloc, if_neg hsize.ne']
  dsimp only
  split
  · next hrefused => exact .inl ⟨hrefused, _, rfl⟩
  · next grant hgrant => exact .inr ⟨grant, _, _, hgrant, rfl, rfl, find_put _ _ _⟩

/-- Refused, or an allocation of the new size in place of the old one, with the old bytes in
front. -/
theorem realloc_cases (A : Allocator) (hfind : h.find ptr = some a) (hsize : 0 < newSize)
    (hfits : Layout.Fits ⟨newSize, a.layout.align⟩) :
    let granted := A (h.note (.realloc ptr a.layout newSize)) ⟨newSize, a.layout.align⟩
    (granted = none ∧ ∃ h', h.realloc A ptr a.layout newSize = some (.null, h')) ∨
      ∃ (grant : Grant a.layout.align) (p : Ptr) (h' : Heap), granted = some grant ∧
        h.realloc A ptr a.layout newSize = some (p, h') ∧ p.addr = grant.addr ∧
        h'.find p = some ⟨grant.addr, ⟨newSize, a.layout.align⟩,
          fun i => if i < a.layout.size then a.bytes i else grant.bytes i⟩ := by
  intro granted
  rw [realloc, hfind]
  dsimp only
  rw [if_pos ⟨rfl, hsize, hfits⟩]
  split
  · next hrefused => exact .inl ⟨hrefused, _, rfl⟩
  · next grant hgrant => exact .inr ⟨grant, _, _, hgrant, rfl, rfl, find_put _ _ _⟩

theorem dealloc_eq (hfind : h.find ptr = some a) :
    ∃ h', h.dealloc ptr a.layout = some ((), h') ∧ h'.find ptr = none := by
  rw [dealloc, hfind]
  dsimp only
  rw [if_pos rfl]
  exact ⟨_, rfl, find_free _ _⟩

theorem fromRawPartsMut_eq (hfind : h.find ptr = some a) (hlen : len ≤ a.layout.size)
    (hmax : len ≤ isizeMax) :
    h.fromRawPartsMut ptr len = some ⟨ptr.addr, (List.range len).map a.bytes⟩ := by
  rw [fromRawPartsMut, hfind]
  dsimp only
  rw [if_pos ⟨hlen, hmax⟩]

end Spec

end Heap

theorem NonNull.new_of_ne {p : Ptr} (h : p.addr ≠ 0) : NonNull.new p = some ⟨p, h⟩ := dif_neg h

theorem NonNull.new_null : NonNull.new .null = none := rfl

end Threadstat

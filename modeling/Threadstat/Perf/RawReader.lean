import Threadstat.Perf.Alloc
import Threadstat.Lib.Transition
import Mathlib.Order.MinMax

/-!
# The read buffer by its pointer

`ensure_sized` and `Drop` with the pointer and the layout that `PerfGroupReader` keeps in step by
hand.  Both are taken out of the reader while a call works on them, so a panic leaves it without a
buffer.  Whatever the allocator refuses, the reader is that of the owned buffer it models.
-/

namespace Threadstat

def Grant.toBlock (g : Grant 8) : Block := ⟨g.addr, g.bytes, g.aligned⟩

namespace Raw

structure PerfGroupReaderInner where
  data : NonNull
  layout : Layout

structure Mem where
  heap : Heap
  /-- `PerfGroupReader`. -/
  reader : Option PerfGroupReaderInner

inductive Fault where
  | panicked
  | undefined
  deriving DecidableEq, Repr

/-- Code that works on a reader; a panic leaves the state it finds. -/
abbrev Run := EStateM Fault Mem

def onHeap {α : Type} (f : Heap → Option (α × Heap)) : Run α := fun m =>
  match f m.heap with
  | none => .error .undefined m
  | some (a, heap) => .ok a { m with heap }

def expect {α : Type} : Option α → Run α
  | none => throw .panicked
  | some a => pure a

def take : Run (Option PerfGroupReaderInner) := fun m => .ok m.reader { m with reader := none }

/-- `self.0 = Some(inner)`. -/
def hold (inner : PerfGroupReaderInner) : Run Unit :=
  fun m => .ok () { m with reader := some inner }

def getLayoutFromCount (count : Nat) : Except LayoutError Layout :=
  Layout.fromSizeAlign (necessaryBufferSize count) 8

section Code

variable (A : Allocator)

/-- The buffer `ensure_sized` gets where the reader has none. -/
def allocated (count : Nat) : Run PerfGroupReaderInner := do
  let l ← expect (getLayoutFromCount count).toOption
  let p ← onHeap fun h => h.alloc A l
  let nn ← expect (NonNull.new p)
  return { data := nn, layout := l }

/-- The buffer `ensure_sized` gets where the reader's is too small. -/
def reallocated (count : Nat) (data : NonNull) (layout : Layout) : Run PerfGroupReaderInner := do
  let l ← expect (getLayoutFromCount count).toOption
  let p ← onHeap fun h => h.realloc A data.ptr layout (necessaryBufferSize count)
  let nn ← expect (NonNull.new p)
  return { data := nn, layout := l }

def ensureSized (count : Nat) : Run Slice := do
  let minSize := necessaryBufferSize count
  let tmp ← match ← take with
    | some ⟨data, layout⟩ =>
      if minSize > layout.size then reallocated A count data layout else pure ⟨data, layout⟩
    | none => allocated A count
  hold tmp
  onHeap fun h => (h.fromRawPartsMut tmp.data.ptr minSize).map (·, h)

def drop : Run Unit := do
  if let some v := (← get).reader then
    onHeap fun h => h.dealloc v.data.ptr v.layout

/-- The allocator refuses what `ensure_sized` asks it for. -/
def Refused (m : Mem) (count : Nat) : Prop :=
  let l : Layout := ⟨necessaryBufferSize count, 8⟩
  match m.reader with
  | none => A (m.heap.note (.alloc l)) l = none
  | some ⟨data, layout⟩ =>
    l.size > layout.size ∧ A (m.heap.note (.realloc data.ptr layout l.size)) l = none

/-- A call whose panic is caught; there is no state after undefined behaviour. -/
def call (m : Mem) (count : Nat) : Option Mem :=
  match ensureSized A count m with
  | .ok _ m => some m
  | .error .panicked m => some m
  | .error .undefined _ => none

end Code

/-! ## The buffer behind the pointer -/

/-- The pointer is to the block of an owned buffer, and the stored layout is the one its allocation
was made with. -/
structure Backed (heap : Heap) (raw : PerfGroupReaderInner)
    (inner : Threadstat.PerfGroupReaderInner) : Prop where
  layout : raw.layout = inner.layout
  align : inner.layout.align = 8
  addr : raw.data.ptr.addr = inner.data.addr
  find : heap.find raw.data.ptr = some ⟨inner.data.addr, inner.layout, inner.data.bytes⟩

/-- Both readers hold the same buffer or none. -/
def Represents (m : Mem) (self : PerfGroupReader) : Prop :=
  Option.Rel (Backed m.heap) m.reader self.inner

section Steps

variable {α β : Type} {m m' : Mem} {x : Run α} {f : α → Run β}

theorem bind_of_ok {a : α} (h : x m = .ok a m') : (x >>= f) m = f a m' := by
  simp only [bind, EStateM.bind, h]

theorem bind_of_error {e : Fault} (h : x m = .error e m') : (x >>= f) m = .error e m' := by
  simp only [bind, EStateM.bind, h]

theorem onHeap_of_some {g : Heap → Option (α × Heap)} {a : α} {heap : Heap}
    (h : g m.heap = some (a, heap)) : onHeap g m = .ok a { m with heap } := by
  simp only [onHeap, h]

end Steps

section Simulation

variable {A : Allocator} {count : Nat} {m : Mem}

theorem fits_of_le (h : necessaryBufferSize count ≤ isizeMax) :
    Layout.Fits ⟨necessaryBufferSize count, 8⟩ := by
  show necessaryBufferSize count ≤ isizeMax - 7
  rw [necessaryBufferSize, isizeMax] at h ⊢
  -- The size is a multiple of 8, and `isize::MAX` is 7 more than one.
  omega

theorem getLayoutFromCount_eq (h : necessaryBufferSize count ≤ isizeMax) :
    getLayoutFromCount count = .ok (PerfGroupReader.layoutFromCount count) := by
  have hpow : Nat.isPowerOfTwo 8 := ⟨3, rfl⟩
  rw [getLayoutFromCount, Layout.fromSizeAlign, if_pos ⟨hpow, fits_of_le h⟩]
  rfl

theorem expect_layout (h : necessaryBufferSize count ≤ isizeMax) (m : Mem) :
    expect (getLayoutFromCount count).toOption m =
      .ok (PerfGroupReader.layoutFromCount count) m := by
  rw [getLayoutFromCount_eq h]
  rfl

theorem expect_new_of_ne {p : Ptr} (h : p.addr ≠ 0) (m : Mem) :
    expect (NonNull.new p) m = .ok ⟨p, h⟩ m := by
  rw [NonNull.new_of_ne h]
  rfl

theorem expect_new_null (m : Mem) : expect (NonNull.new .null) m = .error .panicked m := by
  rw [NonNull.new_null]
  rfl

theorem allocated_cases (A : Allocator) (h : necessaryBufferSize count ≤ isizeMax) (m : Mem) :
    let l := PerfGroupReader.layoutFromCount count
    (A (m.heap.note (.alloc l)) l = none ∧
        ∃ m', allocated A count m = .error .panicked m' ∧ m'.reader = m.reader) ∨
      (A (m.heap.note (.alloc l)) l ≠ none ∧
        ∃ raw m' block, allocated A count m = .ok raw m' ∧ Backed m'.heap raw ⟨block, l⟩) := by
  intro l
  have hsize : 0 < (PerfGroupReader.layoutFromCount count).size := by
    show 0 < 24 + count * 16
    omega
  rw [allocated, bind_of_ok (expect_layout h m)]
  rcases m.heap.alloc_cases A hsize with
    ⟨hrefused, heap, halloc⟩ | ⟨grant, p, heap, hgrant, halloc, haddr, hfind⟩
  · rw [bind_of_ok (onHeap_of_some halloc), bind_of_error (expect_new_null _)]
    exact .inl ⟨hrefused, _, rfl, rfl⟩
  · have hne : p.addr ≠ 0 := haddr ▸ grant.nonNull
    rw [bind_of_ok (onHeap_of_some halloc), bind_of_ok (expect_new_of_ne hne _)]
    refine .inr ⟨?_, _, _, grant.toBlock, rfl, ⟨rfl, rfl, haddr, hfind⟩⟩
    rw [hgrant]
    exact Option.some_ne_none grant

theorem reallocated_cases (A : Allocator) (h : necessaryBufferSize count ≤ isizeMax)
    {raw : PerfGroupReaderInner} {inner : Threadstat.PerfGroupReaderInner}
    (hraw : Backed m.heap raw inner) :
    let l := PerfGroupReader.layoutFromCount count
    let granted := A (m.heap.note (.realloc raw.data.ptr raw.layout l.size)) l
    (granted = none ∧ ∃ m', reallocated A count raw.data raw.layout m = .error .panicked m' ∧
        m'.reader = m.reader) ∨
      (granted ≠ none ∧ ∃ (raw' : PerfGroupReaderInner) (m' : Mem) (block : Block),
        reallocated A count raw.data raw.layout m = .ok raw' m' ∧
        Backed m'.heap raw' ⟨block.keep inner.data inner.layout.size, l⟩) := by
  intro l granted
  obtain ⟨data, size, align⟩ := inner
  obtain ⟨rawData, rawLayout⟩ := raw
  obtain ⟨hlayout, halign, -, hfind⟩ := hraw
  dsimp only at hlayout halign hfind ⊢
  subst hlayout halign
  have hsize : 0 < necessaryBufferSize count := by
    rw [necessaryBufferSize]
    omega
  rw [reallocated, bind_of_ok (expect_layout h m)]
  rcases m.heap.realloc_cases A hfind hsize (fits_of_le h) with
    ⟨hrefused, heap, hrealloc⟩ | ⟨grant, p, heap, hgrant, hrealloc, haddr, hfind'⟩
  · rw [bind_of_ok (onHeap_of_some hrealloc), bind_of_error (expect_new_null _)]
    exact .inl ⟨hrefused, _, rfl, rfl⟩
  · have hne : p.addr ≠ 0 := haddr ▸ grant.nonNull
    rw [bind_of_ok (onHeap_of_some hrealloc), bind_of_ok (expect_new_of_ne hne _)]
    refine .inr ⟨?_, _, _, grant.toBlock, rfl, ⟨rfl, rfl, haddr, hfind'⟩⟩
    rw [show granted = some grant from hgrant]
    exact Option.some_ne_none grant

theorem lend_eq {raw : PerfGroupReaderInner} {inner : Threadstat.PerfGroupReaderInner}
    (hraw : Backed m.heap raw inner) (hmax : necessaryBufferSize count ≤ isizeMax)
    (hlen : necessaryBufferSize count ≤ inner.layout.size) :
    (do
      hold raw
      onHeap fun h => (h.fromRawPartsMut raw.data.ptr (necessaryBufferSize count)).map (·, h)) m =
      .ok (inner.data.slice (necessaryBufferSize count)) ⟨m.heap, some raw⟩ := by
  have hslice := m.heap.fromRawPartsMut_eq hraw.find hlen hmax
  rw [hraw.addr] at hslice
  rw [bind_of_ok (show hold raw m = .ok () ⟨m.heap, some raw⟩ from rfl)]
  exact onHeap_of_some (by rw [hslice]; rfl)

/-- A call panics if the allocator refuses, and the reader is left without a buffer; otherwise it
returns the slice and leaves the buffer of the owned reader, for some block. -/
theorem ensureSized_cases (A : Allocator) (h : necessaryBufferSize count ≤ isizeMax)
    {self : PerfGroupReader} (hself : Represents m self) :
    (Refused A m count ∧ ∃ m', ensureSized A count m = .error .panicked m' ∧ m'.reader = none) ∨
      (¬ Refused A m count ∧ ∃ m' block, ensureSized A count m = .ok (self.buffer count block) m' ∧
        Represents m' ⟨some (self.ensureSized count block)⟩) := by
  obtain ⟨heap, reader⟩ := m
  obtain ⟨inner⟩ := self
  rw [ensureSized, bind_of_ok (show take ⟨heap, reader⟩ = .ok reader ⟨heap, none⟩ from rfl)]
  cases hself with
  | none =>
      rcases allocated_cases A h ⟨heap, none⟩ with
        ⟨hrefused, m', hfail, hreader⟩ | ⟨hgranted, raw, m', block, hok, hraw⟩
      · exact .inl ⟨hrefused, m', bind_of_error hfail, hreader⟩
      · refine .inr ⟨hgranted, ⟨m'.heap, some raw⟩, block, ?_, .some hraw⟩
        exact (bind_of_ok hok).trans (lend_eq hraw h (le_refl _))
  | @some raw inner hraw =>
      have hraw : Backed (Mem.mk heap none).heap raw inner := hraw
      dsimp only
      rw [hraw.layout]
      split
      · next hgrow =>
        have hself : ∀ block, (PerfGroupReader.mk (some inner)).ensureSized count block =
            ⟨block.keep inner.data inner.layout.size, PerfGroupReader.layoutFromCount count⟩ :=
          fun block => if_pos hgrow
        rw [← hraw.layout] at hgrow ⊢
        rcases reallocated_cases A h hraw with
          ⟨hrefused, m', hfail, hreader⟩ | ⟨hgranted, raw', m', block, hok, hraw'⟩
        · exact .inl ⟨⟨hgrow, hrefused⟩, m', bind_of_error hfail, hreader⟩
        · refine .inr ⟨fun hrefused => hgranted hrefused.2, ⟨m'.heap, some raw'⟩, block, ?_, ?_⟩
          · rw [PerfGroupReader.buffer, hself]
            exact (bind_of_ok hok).trans (lend_eq hraw' h (le_refl _))
          · rw [hself]
            exact .some hraw'
      · next hkeep =>
        have hself : ∀ block, (PerfGroupReader.mk (some inner)).ensureSized count block = inner :=
          fun block => if_neg hkeep
        refine .inr ⟨fun hrefused => hkeep ?_, ⟨heap, some raw⟩, .zeroed, ?_, ?_⟩
        · rw [← hraw.layout]
          exact hrefused.1
        · rw [PerfGroupReader.buffer, hself, ← hraw.layout]
          exact (bind_of_ok rfl).trans (lend_eq hraw h (Nat.le_of_not_lt hkeep))
        · rw [hself]
          exact .some hraw

/-- `Drop` frees the buffer with the layout of its allocation. -/
theorem drop_eq {self : PerfGroupReader} (hself : Represents m self) :
    ∃ m', drop m = .ok () m' ∧
      ∀ raw, m.reader = some raw → m'.heap.find raw.data.ptr = none := by
  obtain ⟨heap, reader⟩ := m
  obtain ⟨inner⟩ := self
  have hget : (get : Run Mem) ⟨heap, reader⟩ = .ok ⟨heap, reader⟩ ⟨heap, reader⟩ := rfl
  rw [drop, bind_of_ok hget]
  cases hself with
  | none => exact ⟨⟨heap, none⟩, rfl, by rintro raw ⟨⟩⟩
  | @some raw inner hraw =>
      obtain ⟨heap', hdealloc, hfind⟩ := Heap.dealloc_eq hraw.find
      rw [← hraw.layout] at hdealloc
      refine ⟨⟨heap', some raw⟩, onHeap_of_some hdealloc, ?_⟩
      rintro _ ⟨rfl⟩
      exact hfind

end Simulation

/-! ## Runs -/

/-- `held` are the counts asked for since the reader last held no buffer. -/
def HeldSince (A : Allocator) (m : Mem) (counts held : List Nat) : Prop :=
  ∃ before, counts = before ++ held ∧
    (∃ u, Transition.run (call A) m before = some u ∧ u.reader = none) ∧
    ∀ mid, mid ≠ [] → mid <+: held →
      ∃ u, Transition.run (call A) m (before ++ mid) = some u ∧ u.reader ≠ none

section Runs

variable {A : Allocator} {m u : Mem} {counts held : List Nat} {n : Nat}

theorem heldSince_nil (h : Transition.run (call A) m counts = some u) (hu : u.reader = none) :
    HeldSince A m counts [] := by
  refine ⟨counts, (List.append_nil counts).symm, ⟨u, h, hu⟩, fun mid hne hmid => ?_⟩
  exact absurd (List.prefix_nil.1 hmid) hne

theorem HeldSince.snoc (hheld : HeldSince A m counts held)
    (h : Transition.run (call A) m (counts ++ [n]) = some u) (hu : u.reader ≠ none) :
    HeldSince A m (counts ++ [n]) (held ++ [n]) := by
  obtain ⟨before, rfl, hbefore, hmid⟩ := hheld
  refine ⟨before, List.append_assoc before held [n], hbefore, fun mid hne hprefix => ?_⟩
  rcases List.prefix_concat_iff.1 hprefix with rfl | hprefix
  · exact ⟨u, by rw [← List.append_assoc]; exact h, hu⟩
  · exact hmid mid hne hprefix

theorem max?_snoc {self : PerfGroupReader} (block : Block)
    (h : (held.map necessaryBufferSize).max? = self.inner.map fun inner => inner.layout.size) :
    ((held ++ [n]).map necessaryBufferSize).max? =
      some (self.ensureSized n block).layout.size := by
  rw [self.size_ensureSized block n, List.map_append, List.map_singleton]
  obtain ⟨inner⟩ := self
  cases inner with
  | none =>
      rw [Option.map_none, List.max?_eq_none_iff] at h
      rw [h, List.nil_append, List.max?_singleton]
      exact congrArg some (Nat.zero_max _).symm
  | some inner =>
      rw [Option.map_some, List.max?_eq_some_iff] at h
      rw [List.max?_eq_some_iff]
      dsimp only [Option.elim]
      constructor
      · rcases max_choice inner.layout.size (necessaryBufferSize n) with hmax | hmax <;> rw [hmax]
        · exact List.mem_append_left _ h.1
        · exact List.mem_append_right _ (List.mem_singleton_self _)
      · intro size hsize
        rcases List.mem_append.1 hsize with hsize | hsize
        · exact (h.2 size hsize).trans (le_max_left _ _)
        · rw [List.mem_singleton.1 hsize]
          exact le_max_right _ _

/-- What a call that returns has lent out: as many bytes as it was asked for, aligned and within the
allocation that the reader holds, which is no smaller than the one before. -/
structure Lent (n : Nat) (m : Mem) (slice : Slice) (m' : Mem) : Prop where
  len : slice.len = 24 + 16 * n
  aligned : slice.addr % 8 = 0
  inside : ∃ raw a, m'.reader = some raw ∧ m'.heap.find raw.data.ptr = some a ∧
    a.layout = raw.layout ∧ slice.addr = a.addr ∧ slice.len ≤ a.layout.size
  grows : ∀ old new, m.reader = some old → m'.reader = some new → old.layout.size ≤ new.layout.size
  /-- Whatever is then read into the slice, it is a header and `n` entries. -/
  casts : ∀ e (filled : Slice), filled.addr = slice.addr → filled.len = slice.len →
    ∃ header rest entries, PerfGroupReadHeader.refFromPrefix e filled = .ok (header, rest) ∧
      PerfGroupReadEntry.refFromBytesWithElems e rest n = .ok entries ∧ entries.length = n

theorem lent_of_represents {m' : Mem} {self : PerfGroupReader} {block : Block}
    (h : Represents m self) (h' : Represents m' ⟨some (self.ensureSized n block)⟩) :
    Lent n m (self.buffer n block) m' := by
  have hlen := self.len_buffer block n
  have haddr : (self.buffer n block).addr % 8 = 0 := (self.ensureSized n block).data.aligned
  have hsize := self.size_ensureSized block n
  obtain ⟨heap, reader⟩ := m
  obtain ⟨heap', reader'⟩ := m'
  cases h' with
  | @some raw _ hraw =>
      refine ⟨?_, haddr, ⟨raw, _, rfl, hraw.find, hraw.layout.symm, rfl, ?_⟩, ?_, ?_⟩
      · rw [hlen, necessaryBufferSize]
        omega
      · rw [hlen, hsize]
        exact le_max_right _ _
      · rintro old _ hold ⟨rfl⟩
        rw [hraw.layout, hsize]
        obtain ⟨inner⟩ := self
        obtain rfl : reader = some old := hold
        cases h with
        | @some _ inner holds =>
            rw [holds.layout]
            exact le_max_left _ _
      · intro e filled hfilled hfill
        obtain ⟨hheader, hentries⟩ := casts_ok e (hfilled ▸ haddr) (hfill.trans hlen)
        exact ⟨_, _, _, hheader, hentries, by simp⟩

/-- After any calls the reader is that of an owned buffer, of the largest size that was asked for
since it held none. -/
theorem run_represents (A : Allocator) (heap : Heap)
    (hcounts : ∀ n ∈ counts, necessaryBufferSize n ≤ isizeMax) :
    ∃ m self held, Transition.run (call A) ⟨heap, none⟩ counts = some m ∧ Represents m self ∧
      HeldSince A ⟨heap, none⟩ counts held ∧
      (held.map necessaryBufferSize).max? = self.inner.map fun inner => inner.layout.size := by
  induction counts using List.reverseRecOn with
  | nil => exact ⟨⟨heap, none⟩, .new, [], rfl, .none, heldSince_nil rfl rfl, rfl⟩
  | append_singleton counts n ih =>
      obtain ⟨m, self, held, hrun, hself, hheld, hmax⟩ :=
        ih fun k hk => hcounts k (List.mem_append_left _ hk)
      have hn := hcounts n (List.mem_append_right _ (List.mem_singleton_self n))
      have hsnoc : ∀ u, call A m n = some u →
          Transition.run (call A) ⟨heap, none⟩ (counts ++ [n]) = some u :=
        fun u hu => (Transition.run_snoc_eq_some _).2 ⟨m, hrun, hu⟩
      rcases ensureSized_cases A hn hself with
        ⟨-, m', hfail, hreader⟩ | ⟨-, m', block, hok, hself'⟩
      · have hrun' := hsnoc m' (by rw [call, hfail])
        refine ⟨m', .new, [], hrun', ?_, heldSince_nil hrun' hreader, rfl⟩
        rw [Represents, hreader]
        exact .none
      · have hrun' := hsnoc m' (by rw [call, hok])
        have hreader : m'.reader ≠ none := by
          intro hnone
          rw [Represents, hnone] at hself'
          cases hself'
        exact ⟨m', _, held ++ [n], hrun', hself', hheld.snoc hrun' hreader, max?_snoc block hmax⟩

end Runs

theorem Represents.size_eq {m : Mem} {self : PerfGroupReader} (h : Represents m self) :
    (m.reader.map fun raw => raw.layout.size) = self.inner.map fun inner => inner.layout.size := by
  obtain ⟨heap, reader⟩ := m
  obtain ⟨inner⟩ := self
  cases h with
  | none => rfl
  | some hraw => exact congrArg (fun layout => some (Layout.size layout)) hraw.layout

theorem Represents.live {m : Mem} {self : PerfGroupReader} (h : Represents m self)
    {raw : PerfGroupReaderInner} (hraw : m.reader = some raw) :
    ∃ a, m.heap.find raw.data.ptr = some a ∧ a.layout = raw.layout := by
  obtain ⟨heap, reader⟩ := m
  obtain ⟨inner⟩ := self
  obtain rfl : reader = some raw := hraw
  cases h with
  | some hbacked => exact ⟨_, hbacked.find, hbacked.layout.symm⟩

/-- For every sequence of calls whose sizes fit `isize::MAX`, whatever the allocator grants and
refuses: no call does anything undefined, the stored layout is that of the live allocation, and its
size is the largest asked for since the reader last held no buffer.  The next call panics if the
allocator refuses what it asks for, and then leaves no buffer; otherwise it lends out its part of
the allocation.  `Drop` frees what is held. -/
theorem ensureSized_in_step (A : Allocator) (heap : Heap) {counts : List Nat}
    (hcounts : ∀ n ∈ counts, necessaryBufferSize n ≤ isizeMax) :
    ∃ m, Transition.run (call A) ⟨heap, none⟩ counts = some m ∧
      (∀ raw, m.reader = some raw →
        ∃ a, m.heap.find raw.data.ptr = some a ∧ a.layout = raw.layout) ∧
      (∃ held, HeldSince A ⟨heap, none⟩ counts held ∧
        (held.map necessaryBufferSize).max? = m.reader.map fun raw => raw.layout.size) ∧
      (∀ n, necessaryBufferSize n ≤ isizeMax →
        (Refused A m n → ∃ m', ensureSized A n m = .error .panicked m' ∧ m'.reader = none) ∧
          (¬ Refused A m n → ∃ slice m', ensureSized A n m = .ok slice m' ∧ Lent n m slice m')) ∧
      ∃ m', drop m = .ok () m' ∧
        ∀ raw, m.reader = some raw → m'.heap.find raw.data.ptr = none := by
  obtain ⟨m, self, held, hrun, hself, hheld, hmax⟩ := run_represents A heap hcounts
  refine ⟨m, hrun, fun raw hraw => hself.live hraw, ⟨held, hheld, hmax.trans hself.size_eq.symm⟩,
    fun n hn => ?_, drop_eq hself⟩
  rcases ensureSized_cases A hn hself with
    ⟨hrefused, m', hfail, hreader⟩ | ⟨hgranted, m', block, hok, hself'⟩
  · exact ⟨fun _ => ⟨m', hfail, hreader⟩, absurd hrefused⟩
  · exact ⟨fun hrefused => absurd hrefused hgranted,
      fun _ => ⟨_, m', hok, lent_of_represents hself hself'⟩⟩

/-- Hands out one page after another, and refuses every third request. -/
def pages : Allocator := fun heap layout =>
  if h : layout.align = 8 ∧ layout.size ≤ 4096 ∧ heap.trace.length % 3 ≠ 0 then
    some
      { addr := 4096 * heap.trace.length + 4096
        bytes := fun _ => 0
        nonNull := by omega
        aligned := by rw [h.1]; omega }
  else none

/-- The first buffer grows and is used again.  A fourth entry would still be refused, three fit. -/
theorem ensureSized_in_step_pages :
    ∃ m, Transition.run (call pages) ⟨.empty, none⟩ [1, 3, 2] = some m ∧
      (∃ m', ensureSized pages 4 m = .error .panicked m' ∧ m'.reader = none) ∧
      (∃ slice m', ensureSized pages 3 m = .ok slice m' ∧ Lent 3 m slice m') ∧
      ∃ m', drop m = .ok () m' ∧
        ∀ raw, m.reader = some raw → m'.heap.find raw.data.ptr = none := by
  have hcounts : ∀ n ∈ [1, 3, 2], necessaryBufferSize n ≤ isizeMax := by decide
  obtain ⟨m, hrun, -, -, hnext, hdrop⟩ := ensureSized_in_step pages .empty hcounts
  have hreader : (Transition.run (call pages) ⟨.empty, none⟩ [1, 3, 2]).map
      (fun m => (m.heap.trace.length, m.reader.map fun raw => raw.layout.size)) =
        some (2, some 72) := rfl
  rw [hrun] at hreader
  obtain ⟨htrace, hsize⟩ := Prod.mk.inj (Option.some.inj hreader)
  obtain ⟨raw, hraw, hsize⟩ := Option.map_eq_some_iff.1 hsize
  refine ⟨m, hrun, (hnext 4 (by decide)).1 ?_, (hnext 3 (by decide)).2 ?_, hdrop⟩
  · rw [Refused, hraw]
    refine ⟨?_, ?_⟩
    · dsimp only
      rw [hsize]
      decide
    · simp [pages, Heap.note, htrace]
  · rw [Refused, hraw]
    rintro ⟨hgrow, -⟩
    dsimp only at hgrow
    rw [hsize] at hgrow
    exact absurd hgrow (by decide)

example :
    (Transition.run (call pages) ⟨.empty, none⟩ [1, 3, 2]).map
      (fun m => m.reader.map fun raw => (raw.data.ptr.addr, raw.layout)) =
        some (some (12288, ⟨72, 8⟩)) := by rfl

example :
    (Transition.run (call pages) ⟨.empty, none⟩ [1, 3, 2, 5]).map
      (fun m => m.reader.map fun raw => raw.layout) = some none := by rfl

end Raw

end Threadstat

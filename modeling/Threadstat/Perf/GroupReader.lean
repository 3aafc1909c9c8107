import Threadstat.Perf.Stat
import Mathlib.Data.List.Forall2

/-!
# The reusable read buffer

`PerfGroupReader` keeps one allocation and grows it to the largest record it has been asked for.
A call reads the record of a group into its first bytes and decodes them.  Whether what it
decodes came from the kernel depends on how much the kernel wrote, because the length of the
read is only checked in debug builds.
-/

namespace Threadstat

open WordBytes

structure GroupInfo where
  timeEnabled : UInt64
  timeRunning : UInt64
  deriving DecidableEq, Repr

structure EventInfo where
  id : UInt64
  count : UInt64
  deriving DecidableEq, Repr

structure Layout where
  size : Nat
  align : Nat
  deriving DecidableEq, Repr

/-- A block of memory, aligned for the header, with whatever bytes it holds. -/
structure Block where
  addr : Nat
  bytes : Nat → UInt8
  aligned : addr % 8 = 0

def Block.zeroed : Block := ⟨0, fun _ => 0, rfl⟩

def Block.slice (b : Block) (len : Nat) : Slice := ⟨b.addr, (List.range len).map b.bytes⟩

def Block.store (b : Block) (s : Slice) : Block :=
  { b with bytes := fun i => s.bytes.getD i (b.bytes i) }

/-- What `realloc` makes of an old block: the new one with the old bytes in front. -/
def Block.keep (new old : Block) (oldSize : Nat) : Block :=
  { new with bytes := fun i => if i < oldSize then old.bytes i else new.bytes i }

structure PerfGroupReaderInner where
  data : Block
  layout : Layout

structure PerfGroupReader where
  inner : Option PerfGroupReaderInner

/-- Header size plus `count` entries, for counts below `2 ^ 60 - 1`, where `usize` would wrap.  A
group owns one `i32` descriptor per member, so its count stays below `2 ^ 31`. -/
def necessaryBufferSize (count : Nat) : Nat := 24 + count * 16

namespace PerfGroupReader

def new : PerfGroupReader := ⟨none⟩

def layoutFromCount (count : Nat) : Layout := ⟨necessaryBufferSize count, 8⟩

/-- The buffer `ensure_sized` leaves behind, where `answer` is the block `alloc` or `realloc`
gives it if it has to ask. -/
def ensureSized (self : PerfGroupReader) (count : Nat) (answer : Block) : PerfGroupReaderInner :=
  match self.inner with
  | some inner =>
    if necessaryBufferSize count > inner.layout.size then
      { data := answer.keep inner.data inner.layout.size, layout := layoutFromCount count }
    else inner
  | none => { data := answer, layout := layoutFromCount count }

def buffer (self : PerfGroupReader) (count : Nat) (answer : Block) : Slice :=
  (self.ensureSized count answer).data.slice (necessaryBufferSize count)

/-- `read_group`, where `answer` is what `read(2)` returned. -/
def readGroup {T : Type} (e : Endian) (self : PerfGroupReader) (group : PerfStatGroup T)
    (block : Block) (answer : Except IoError (List UInt8)) :
    Except PerfError (GroupInfo × List EventInfo) × PerfGroupReader :=
  let inner := self.ensureSized group.len block
  let (result, buf) := group.read e answer (self.buffer group.len block)
  let self : PerfGroupReader := ⟨some { inner with data := inner.data.store buf }⟩
  match result with
  | .error err => (.error err, self)
  | .ok (header, events) =>
    (.ok (⟨header.timeEnabled, header.timeRunning⟩, events.map fun e => ⟨e.id, e.value⟩), self)

end PerfGroupReader

/-! ## What a read decodes -/

section Decode

variable {T : Type} (e : Endian)

def infoOf (bs : List UInt8) : GroupInfo where
  timeEnabled := decode e ((bs.drop 8).take 8)
  timeRunning := decode e ((bs.drop 16).take 8)

def eventsOf (bs : List UInt8) (n : Nat) : List EventInfo :=
  (List.range n).map fun i =>
    ⟨decode e ((bs.drop (24 + 16 * i + 8)).take 8), decode e ((bs.drop (24 + 16 * i)).take 8)⟩

@[simp] theorem length_eventsOf (bs : List UInt8) (n : Nat) :
    (eventsOf e bs n).length = n := by
  simp [eventsOf]

/-- On an aligned buffer of the right length the two casts succeed, whatever the bytes are. -/
theorem casts_ok {s : Slice} {n : Nat} (haddr : s.addr % 8 = 0)
    (hlen : s.len = necessaryBufferSize n) :
    PerfGroupReadHeader.refFromPrefix e s =
        .ok (.ofBytes e (s.bytes.take 24), ⟨s.addr + 24, s.bytes.drop 24⟩) ∧
      PerfGroupReadEntry.refFromBytesWithElems e ⟨s.addr + 24, s.bytes.drop 24⟩ n =
        .ok ((List.range n).map fun i =>
          .ofBytes e (((s.bytes.drop 24).drop (i * 16)).take 16)) := by
  constructor
  · rw [PerfGroupReadHeader.refFromPrefix, if_neg (by omega), if_neg]
    rw [hlen, necessaryBufferSize]
    omega
  · rw [PerfGroupReadEntry.refFromBytesWithElems, if_neg (by dsimp only; omega), if_neg]
    rw [Slice.len] at hlen ⊢
    rw [List.length_drop, hlen, necessaryBufferSize]
    omega

theorem PerfStatGroup.read_ok (group : PerfStatGroup T) {buffer : Slice} {bs : List UInt8}
    (haddr : buffer.addr % 8 = 0) (hlen : buffer.len = necessaryBufferSize group.len)
    (hbs : bs.length ≤ buffer.len) :
    ∃ header events, group.read e (.ok bs) buffer = (.ok (header, events), buffer.fill bs) ∧
      GroupInfo.mk header.timeEnabled header.timeRunning = infoOf e (buffer.fill bs).bytes ∧
      events.map (fun x => EventInfo.mk x.id x.value) =
        eventsOf e (buffer.fill bs).bytes group.len := by
  have hfill : (buffer.fill bs).len = necessaryBufferSize group.len := by
    rw [Slice.len_fill _ _ hbs, hlen]
  generalize hb : buffer.fill bs = filled at hfill
  have haddr' : filled.addr % 8 = 0 := by rw [← hb]; exact haddr
  obtain ⟨hheader, hentries⟩ := casts_ok e haddr' hfill
  refine ⟨.ofBytes e (filled.bytes.take 24), (List.range group.len).map
    fun i => .ofBytes e (((filled.bytes.drop 24).drop (i * 16)).take 16), ?_, ?_, ?_⟩
  · simp only [PerfStatGroup.read, hb, hheader, hentries]
  · simp [PerfGroupReadHeader.ofBytes, infoOf, List.drop_take, List.take_take]
  · rw [List.map_map, eventsOf]
    apply List.map_congr_left
    intro i _
    simp only [Function.comp, PerfGroupReadEntry.ofBytes, EventInfo.mk.injEq]
    constructor
    · rw [List.drop_take, List.take_take, List.drop_drop, List.drop_drop]
      congr 3
      omega
    · rw [List.take_take, List.drop_drop]
      congr 3
      omega

variable (self : PerfGroupReader) (group : PerfStatGroup T) (block : Block)

@[simp] theorem PerfGroupReader.len_buffer (count : Nat) :
    (self.buffer count block).len = necessaryBufferSize count := by
  simp [PerfGroupReader.buffer, Block.slice, Slice.len]

/-- The buffer is as large as the largest record asked for since it was allocated. -/
theorem PerfGroupReader.size_ensureSized (count : Nat) :
    (self.ensureSized count block).layout.size =
      max (self.inner.elim 0 fun inner => inner.layout.size) (necessaryBufferSize count) := by
  obtain ⟨inner⟩ := self
  cases inner with
  | none => exact (Nat.zero_max _).symm
  | some inner =>
      rw [PerfGroupReader.ensureSized]
      dsimp only [Option.elim]
      split
      · next hgrow => exact (max_eq_right hgrow.le).symm
      · next hkeep => exact (max_eq_left (not_lt.1 hkeep)).symm

/-- The bytes a call decodes: what `read(2)` returned, then whatever the buffer held. -/
def PerfGroupReader.decoded (bs : List UInt8) : List UInt8 :=
  ((self.buffer group.len block).fill bs).bytes

/-- However short the read was, `read_group` decodes the whole buffer and reports success. -/
theorem PerfGroupReader.readGroup_ok {bs : List UInt8}
    (hbs : bs.length ≤ necessaryBufferSize group.len) :
    (self.readGroup e group block (.ok bs)).1 =
      .ok (infoOf e (self.decoded group block bs),
        eventsOf e (self.decoded group block bs) group.len) := by
  have haddr : (self.buffer group.len block).addr % 8 = 0 :=
    (self.ensureSized group.len block).data.aligned
  obtain ⟨header, events, hread, hinfo, hevents⟩ :=
    group.read_ok e haddr (self.len_buffer block group.len) (by rwa [self.len_buffer])
  simp only [readGroup, hread, decoded, hinfo, hevents]

theorem PerfGroupReader.readGroup_error (err : IoError) :
    (self.readGroup e group block (.error err)).1 = .error (.io err) := rfl

/-- After a whole record only the kernel's bytes are decoded. -/
theorem PerfGroupReader.decoded_of_length_eq {bs : List UInt8}
    (hbs : bs.length = necessaryBufferSize group.len) : self.decoded group block bs = bs :=
  Slice.fill_bytes_of_len_eq _ _ (by rw [self.len_buffer, hbs])

end Decode

/-! ## The kernel's record -/

/-- The record the kernel writes for `PERF_FORMAT_GROUP` with ids and both times: `nr`, the two
times, then value and id of each member. -/
def groupRecord (e : Endian) (timeEnabled timeRunning : UInt64)
    (entries : List PerfGroupReadEntry) : List UInt8 :=
  encodeAll e (UInt64.ofNat entries.length :: timeEnabled :: timeRunning ::
    entries.flatMap fun x => [x.value, x.id])

section Record

variable (e : Endian) (timeEnabled timeRunning : UInt64) (entries : List PerfGroupReadEntry)

theorem length_groupRecord :
    (groupRecord e timeEnabled timeRunning entries).length =
      necessaryBufferSize entries.length := by
  have hpairs : (entries.flatMap fun x => [x.value, x.id]).length = 2 * entries.length := by
    induction entries with
    | nil => rfl
    | cons x xs ih =>
        simp only [List.flatMap_cons, List.length_append, List.length_cons, List.length_nil, ih]
        ring
  simp only [groupRecord, length_encodeAll, List.length_cons, hpairs, necessaryBufferSize]
  ring

theorem drop_entryWords (i : Nat) :
    (entries.flatMap fun x => [x.value, x.id]).drop (2 * i) =
      (entries.drop i).flatMap fun x => [x.value, x.id] := by
  induction i generalizing entries with
  | zero => rfl
  | succ i ih =>
      cases entries with
      | nil => rfl
      | cons x xs => exact ih xs

theorem infoOf_groupRecord :
    infoOf e (groupRecord e timeEnabled timeRunning entries) = ⟨timeEnabled, timeRunning⟩ := by
  rw [infoOf, groupRecord, show 8 = 8 * 1 from rfl, show 16 = 8 * 2 from rfl,
    decode_encodeAll e _ 1 (by simp), decode_encodeAll e _ 2 (by simp)]
  rfl

theorem eventsOf_groupRecord :
    eventsOf e (groupRecord e timeEnabled timeRunning entries) entries.length =
      entries.map fun x => ⟨x.id, x.value⟩ := by
  apply List.ext_getElem
  · simp
  · intro i hi _
    rw [length_eventsOf] at hi
    -- Words `3 + 2 i` and `3 + 2 i + 1` of the record are entry `i`.
    have hdrop : (groupRecord e timeEnabled timeRunning entries).drop (24 + 16 * i) =
        encodeAll e (entries[i].value :: entries[i].id ::
          (entries.drop (i + 1)).flatMap fun x => [x.value, x.id]) := by
      rw [groupRecord, show 24 + 16 * i = 8 * (2 * i + 3) by ring, drop_encodeAll]
      simp only [List.drop_succ_cons]
      rw [drop_entryWords, List.drop_eq_getElem_cons hi]
      rfl
    have hvalue := decode_encodeAll e (entries[i].value :: entries[i].id ::
      (entries.drop (i + 1)).flatMap fun x => [x.value, x.id]) 0 (by simp)
    have hid := decode_encodeAll e (entries[i].value :: entries[i].id ::
      (entries.drop (i + 1)).flatMap fun x => [x.value, x.id]) 1 (by simp)
    have hnext : (groupRecord e timeEnabled timeRunning entries).drop (24 + 16 * i + 8) =
        ((groupRecord e timeEnabled timeRunning entries).drop (24 + 16 * i)).drop 8 :=
      List.drop_drop.symm
    simp only [eventsOf, List.getElem_map, List.getElem_range, hnext, hdrop]
    exact congrArg₂ EventInfo.mk hid hvalue

end Record

/-! ## What the kernel wrote

`FromKernel` compares what a call reports with the bytes the kernel wrote during that call, so it
fails as soon as one reported number would need a byte the kernel did not write.
-/

/-- Every number is read off the bytes `bs`, and the events are as many as their `nr` says. -/
def FromKernel (e : Endian) (bs : List UInt8) (info : GroupInfo) (events : List EventInfo) :
    Prop :=
  (∃ nr, wordAt e bs 0 = some nr ∧ events.length = nr.toNat) ∧
    wordAt e bs 8 = some info.timeEnabled ∧ wordAt e bs 16 = some info.timeRunning ∧
    ∀ i (h : i < events.length),
      wordAt e bs (24 + 16 * i) = some events[i].count ∧
        wordAt e bs (24 + 16 * i + 8) = some events[i].id

/-- One `read_group`: the group, the block the allocator would give, and the answer of `read(2)`,
which returns at most the buffer's length. -/
structure ReadCall (T : Type) where
  group : PerfStatGroup T
  block : Block
  answer : Except IoError (List UInt8)
  fits : ∀ bs, answer = .ok bs → bs.length ≤ necessaryBufferSize group.len

def PerfGroupReader.readAll {T : Type} (e : Endian) :
    PerfGroupReader → List (ReadCall T) → List (Except PerfError (GroupInfo × List EventInfo))
  | _, [] => []
  | self, call :: calls =>
    let (result, self) := self.readGroup e call.group call.block call.answer
    result :: readAll e self calls

/-- A call reports success only with numbers the kernel wrote during it, and reports a read that
did not fill the record as an error. -/
def ReadCall.Sound {T : Type} (e : Endian) (call : ReadCall T)
    (result : Except PerfError (GroupInfo × List EventInfo)) : Prop :=
  (∀ info events, result = .ok (info, events) →
      ∃ bs, call.answer = .ok bs ∧ FromKernel e bs info events) ∧
    ∀ bs, call.answer = .ok bs → bs.length < necessaryBufferSize call.group.len →
      ∃ err, result = .error err

/-- The read failed, or returned a whole record whose `nr` is the size of the group. -/
def ReadCall.Complete {T : Type} (e : Endian) (call : ReadCall T) : Prop :=
  ∀ bs, call.answer = .ok bs → bs.length = necessaryBufferSize call.group.len ∧
    ∃ nr, wordAt e bs 0 = some nr ∧ call.group.len = nr.toNat

section Sound

variable {T : Type} {e : Endian}

theorem fromKernel_of_length_eq {bs : List UInt8} {n : Nat} {nr : UInt64}
    (hbs : bs.length = necessaryBufferSize n) (hnr : wordAt e bs 0 = some nr)
    (hn : n = nr.toNat) : FromKernel e bs (infoOf e bs) (eventsOf e bs n) := by
  rw [necessaryBufferSize] at hbs
  refine ⟨⟨nr, hnr, by rw [length_eventsOf, hn]⟩, wordAt_eq_some (by omega),
    wordAt_eq_some (by omega), ?_⟩
  intro i hi
  rw [length_eventsOf] at hi
  rw [wordAt_eq_some (by omega), wordAt_eq_some (by omega)]
  simp [eventsOf]

/-- One call is sound exactly when its read was complete, whatever the reader held before. -/
theorem ReadCall.sound_iff (call : ReadCall T) (self : PerfGroupReader) :
    call.Sound e (self.readGroup e call.group call.block call.answer).1 ↔ call.Complete e := by
  constructor
  · rintro ⟨hok, -⟩ bs hanswer
    have hle := call.fits bs hanswer
    rw [hanswer] at hok
    obtain ⟨bs', hbs', ⟨nr, hnr, hlen⟩, -, -, hevents⟩ :=
      hok _ _ (self.readGroup_ok e call.group call.block hle)
    obtain rfl : bs = bs' := by simpa using hbs'
    rw [length_eventsOf] at hlen
    -- The id of the last entry ends where the record ends.
    have hpos := call.group.len_pos
    have hlast := wordAt_isSome (hevents (call.group.len - 1) (by rw [length_eventsOf]; omega)).2
    rw [necessaryBufferSize] at hle ⊢
    exact ⟨by omega, nr, hnr, hlen⟩
  · intro hcomplete
    cases hanswer : call.answer with
    | error err =>
        refine ⟨?_, by simp [hanswer]⟩
        intro info events hres
        rw [self.readGroup_error] at hres
        cases hres
    | ok bs =>
        obtain ⟨hlen, nr, hnr, hn⟩ := hcomplete bs hanswer
        refine ⟨?_, ?_⟩
        · intro info events hres
          rw [self.readGroup_ok e call.group call.block hlen.le,
            self.decoded_of_length_eq call.group call.block hlen] at hres
          obtain ⟨rfl, rfl⟩ := Prod.mk.inj (Except.ok.inj hres)
          exact ⟨bs, hanswer, fromKernel_of_length_eq hlen hnr hn⟩
        · intro bs' hbs' hlt
          obtain rfl : bs = bs' := by simpa [hanswer] using hbs'
          omega

/-- A sequence of calls is sound, whatever the reader was used for before, exactly when every read
failed or returned a whole record of the group's size. -/
theorem readAll_sound_iff (e : Endian) (self : PerfGroupReader) (calls : List (ReadCall T)) :
    List.Forall₂ (ReadCall.Sound e) calls (self.readAll e calls) ↔
      ∀ call ∈ calls, call.Complete e := by
  induction calls generalizing self with
  | nil => simp [PerfGroupReader.readAll]
  | cons call calls ih =>
      rw [PerfGroupReader.readAll, List.forall₂_cons, List.forall_mem_cons, call.sound_iff, ih]

end Sound

/-- A one-event group whose second read returns no bytes at all. -/
def staleReads : List (ReadCall Unit) :=
  let group : PerfStatGroup Unit := ⟨.newSingle ⟨3, ()⟩⟩
  [⟨group, .zeroed, .ok (encodeAll .little [1, 50, 40, 700, 9]), by
      rintro bs ⟨rfl⟩
      decide⟩,
    ⟨group, .zeroed, .ok [], by simp⟩]

/-- The second call reports the numbers of the first read as its own. -/
theorem stale_read_is_reported :
    PerfGroupReader.new.readAll .little staleReads =
        [.ok (⟨50, 40⟩, [⟨9, 700⟩]), .ok (⟨50, 40⟩, [⟨9, 700⟩])] ∧
      ¬ List.Forall₂ (ReadCall.Sound .little) staleReads
        (PerfGroupReader.new.readAll .little staleReads) := by
  have hrun : PerfGroupReader.new.readAll .little staleReads =
      [.ok (⟨50, 40⟩, [⟨9, 700⟩]), .ok (⟨50, 40⟩, [⟨9, 700⟩])] := by rfl
  refine ⟨hrun, ?_⟩
  rw [hrun]
  intro h
  simp only [staleReads, List.forall₂_cons] at h
  obtain ⟨-, hsecond, -⟩ := h
  obtain ⟨err, herr⟩ := hsecond.2 [] rfl (by decide)
  cases herr

end Threadstat

import Threadstat.Perf.Kernel
import Threadstat.Lib.WordBytes

/-!
# Groups of perf events

`PerfStatGroup::new` opens the events of one group, the first as leader and the others under its
descriptor, and closes what it opened when one of them fails.  `PerfStatGroup::read` hands a
buffer to `read(2)` and casts what is then in it to a header and entries.

The build modelled is the release build: the two `debug_assert`s of `read` are compiled out.
-/

namespace Threadstat

open WordBytes

structure PerfStat (T : Type) where
  fd : RawFd
  name : T

structure PerfStatGroup (T : Type) where
  fds : NonEmpty (PerfStat T)

/-- `zerocopy::CastError`. -/
inductive CastError where
  | alignment
  | size
  deriving DecidableEq, Repr

inductive PerfError where
  | io (e : IoError)
  | empty
  | headerCast (e : CastError)
  | entryCast (e : CastError)
  deriving DecidableEq, Repr

/-! ## Opening a group -/

/-- `PERF_FORMAT_GROUP | TOTAL_TIME_ENABLED | TOTAL_TIME_RUNNING | ID`. -/
def groupReadFormat : UInt64 := 8 ||| 1 ||| 2 ||| 4

def PERF_FLAG_FD_CLOEXEC : UInt64 := 8

section Open

variable {T : Type}

/-- Dropping opened events closes their descriptors, in order. -/
def closeAll (k : Kernel T) (stats : List (PerfStat T)) : Kernel T :=
  stats.foldl (fun k stat => k.close stat.fd) k

/-- The lazy rest of `collect`: open the members one by one, and on the first failure drop what
has been collected. -/
def openRest (os : Os T) (pid : Pid) (firstRaw : RawFd) :
    List (PerfConfig T) → List (PerfStat T) → Kernel T →
      Except IoError (List (PerfStat T)) × Kernel T
  | [], collected, k => (.ok collected, k)
  | config :: rest, collected, k =>
    match k.perfEventOpen os ⟨config, pid, -1, firstRaw, PERF_FLAG_FD_CLOEXEC⟩ with
    | (.error e, k) => (.error e, closeAll k collected)
    | (.ok fd, k) => openRest os pid firstRaw rest (collected ++ [⟨fd, config.name⟩]) k

def leaderConfig (first : PerfConfig T) : PerfConfig T :=
  { first with attr := { first.attr with readFormat := groupReadFormat } }

def PerfStatGroup.new (os : Os T) (input : List (PerfConfig T)) (pid : Pid) (k : Kernel T) :
    Except PerfError (PerfStatGroup T) × Kernel T :=
  match input with
  | [] => (.error .empty, k)
  | first :: rest =>
    match k.perfEventOpen os ⟨leaderConfig first, pid, -1, -1, PERF_FLAG_FD_CLOEXEC⟩ with
    | (.error e, k) => (.error (.io e), k)
    | (.ok firstFd, k) =>
      match openRest os pid firstFd rest [⟨firstFd, first.name⟩] k with
      | (.error e, k) => (.error (.io e), k)
      | (.ok stats, k) =>
        match MaybeNonEmpty.fromIter stats with
        | none => (.error .empty, k)
        | some fds => (.ok ⟨fds⟩, k)

end Open

namespace PerfStatGroup

variable {T : Type}

def len (group : PerfStatGroup T) : Nat := group.fds.len

def leaderFd (group : PerfStatGroup T) : RawFd := group.fds.first.fd

theorem len_pos (group : PerfStatGroup T) : 0 < group.len := group.fds.len_pos

end PerfStatGroup

/-! ## Reading a group -/

structure PerfGroupReadHeader where
  nr : UInt64
  timeEnabled : UInt64
  timeRunning : UInt64
  deriving DecidableEq, Repr

structure PerfGroupReadEntry where
  value : UInt64
  id : UInt64
  deriving DecidableEq, Repr

structure Slice where
  addr : Nat
  bytes : List UInt8

def Slice.len (s : Slice) : Nat := s.bytes.length

/-- What `read(2)` leaves in a buffer: the bytes returned, then what was there before. -/
def Slice.fill (s : Slice) (bs : List UInt8) : Slice :=
  { s with bytes := bs ++ s.bytes.drop bs.length }

@[simp] theorem Slice.len_fill (s : Slice) (bs : List UInt8) (h : bs.length ≤ s.len) :
    (s.fill bs).len = s.len := by
  simp only [Slice.len] at h
  simp [Slice.len, Slice.fill]
  omega

theorem Slice.fill_bytes_of_len_eq (s : Slice) (bs : List UInt8) (h : bs.length = s.len) :
    (s.fill bs).bytes = bs := by
  simp [Slice.fill, h, Slice.len]

section Decode

variable (e : Endian)

def PerfGroupReadHeader.ofBytes (bs : List UInt8) : PerfGroupReadHeader where
  nr := decode e (bs.take 8)
  timeEnabled := decode e ((bs.drop 8).take 8)
  timeRunning := decode e ((bs.drop 16).take 8)

def PerfGroupReadEntry.ofBytes (bs : List UInt8) : PerfGroupReadEntry where
  value := decode e (bs.take 8)
  id := decode e ((bs.drop 8).take 8)

/-- zerocopy's `FromBytes::ref_from_prefix`: the address is aligned and there are bytes enough. -/
def PerfGroupReadHeader.refFromPrefix (s : Slice) :
    Except CastError (PerfGroupReadHeader × Slice) :=
  if s.addr % 8 ≠ 0 then .error .alignment
  else if s.len < 24 then .error .size
  else .ok (.ofBytes e (s.bytes.take 24), ⟨s.addr + 24, s.bytes.drop 24⟩)

/-- zerocopy's `FromBytes::ref_from_bytes_with_elems`: the address is aligned and the bytes are
those of `count` entries. -/
def PerfGroupReadEntry.refFromBytesWithElems (s : Slice) (count : Nat) :
    Except CastError (List PerfGroupReadEntry) :=
  if s.addr % 8 ≠ 0 then .error .alignment
  else if s.len ≠ count * 16 then .error .size
  else .ok ((List.range count).map fun i => .ofBytes e ((s.bytes.drop (i * 16)).take 16))

/-- `PerfStatGroup::read` on a buffer, given what `read(2)` on the leader answered; also the
buffer afterwards. -/
def PerfStatGroup.read {T : Type} (group : PerfStatGroup T)
    (answer : Except IoError (List UInt8)) (buffer : Slice) :
    Except PerfError (PerfGroupReadHeader × List PerfGroupReadEntry) × Slice :=
  match answer with
  | .error err => (.error (.io err), buffer)
  | .ok bs =>
    -- A short read is only noticed by a `debug_assert`.
    let buffer := buffer.fill bs
    match PerfGroupReadHeader.refFromPrefix e buffer with
    | .error err => (.error (.headerCast err), buffer)
    | .ok (header, remaining) =>
      match PerfGroupReadEntry.refFromBytesWithElems e remaining group.len with
      | .error err => (.error (.entryCast err), buffer)
      | .ok events => (.ok (header, events), buffer)

end Decode

end Threadstat

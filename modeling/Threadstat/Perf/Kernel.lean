import Threadstat.Rows
import Mathlib.Data.List.Pairwise
import Mathlib.Data.List.Nodup

/-!
# The kernel under the daemon

The system calls the daemon makes and what it can observe of them.  A `Kernel` holds the perf
descriptors that are open and a trace of every call made so far; an `Os` is whatever decides the
answers.  An `Os` may look at the whole history, so quantifying over it quantifies over every
pattern of failures.  All it must respect is in the types of its fields: a new perf event gets a
descriptor that is not open and an id never given before, and a `read(2)` returns at most the
bytes asked for.

The name of an event is the daemon's own label.  The kernel never sees it; the trace carries it
along so that statements can say what an event was opened for.
-/

namespace Threadstat

/-- An open perf event: its descriptor, its id, the id of the event that leads its group, the
thread it counts, and the configuration it was opened with. -/
structure PerfEvent (T : Type) where
  fd : RawFd
  id : UInt64
  leader : UInt64
  pid : Pid
  config : PerfConfig T

structure OpenArgs (T : Type) where
  config : PerfConfig T
  pid : Pid
  cpu : Int
  groupFd : RawFd
  flags : UInt64

/-- One call and its answer.  A call on a descriptor also notes the id of the event behind it. -/
inductive Syscall (T : Type) where
  | perfEventOpen (args : OpenArgs T) (answer : Except IoError (PerfEvent T))
  | ioctlId (fd : RawFd) (event : Option UInt64) (answer : Except IoError UInt64)
  | read (fd : RawFd) (event : Option UInt64) (len : Nat) (answer : Except IoError (List UInt8))
  | close (fd : RawFd)
  | write (row : CsvRow) (answer : Except IoError Unit)

namespace Syscall

variable {T : Type}

def isRead : Syscall T → Bool
  | read .. => true
  | _ => false

def opened? : Syscall T → Option (PerfEvent T)
  | perfEventOpen _ (.ok ev) => some ev
  | _ => none

def eventRow? : Syscall T → Option EventRow
  | write (.event row) (.ok _) => some row
  | _ => none

def readRow? : Syscall T → Option ReadRow
  | write (.read row) (.ok _) => some row
  | _ => none

def descRow? : Syscall T → Option DescRow
  | write (.desc row) (.ok _) => some row
  | _ => none

end Syscall

structure Kernel (T : Type) where
  /-- The open perf events, in the order they were opened. -/
  table : List (PerfEvent T)
  trace : List (Syscall T)

namespace Kernel

variable {T : Type}

def init : Kernel T := ⟨[], []⟩

def opened (k : Kernel T) : List (PerfEvent T) := k.trace.filterMap Syscall.opened?

def find (k : Kernel T) (fd : RawFd) : Option (PerfEvent T) := k.table.find? (·.fd = fd)

/-- The open events of the group led by the event `leader`, in the order they joined. -/
def members (k : Kernel T) (leader : UInt64) : List (PerfEvent T) :=
  k.table.filter (·.leader = leader)

def note (k : Kernel T) (s : Syscall T) : Kernel T := { k with trace := k.trace ++ [s] }

def push (k : Kernel T) (args : OpenArgs T) (ev : PerfEvent T) : Kernel T :=
  { table := k.table ++ [ev], trace := k.trace ++ [.perfEventOpen args (.ok ev)] }

end Kernel

/-- What `perf_event_open` can hand out in a given state. -/
structure Fresh {T : Type} (k : Kernel T) where
  fd : RawFd
  id : UInt64
  fd_nonneg : 0 ≤ fd
  fd_unused : ∀ ev ∈ k.table, ev.fd ≠ fd
  id_unused : ∀ ev ∈ k.opened, ev.id ≠ id

structure Os (T : Type) where
  perfEventOpen : (k : Kernel T) → OpenArgs T → Except IoError (Fresh k)
  /-- The error of `ioctl(PERF_EVENT_IOC_ID)`, if it fails. -/
  ioctlId : Kernel T → RawFd → Option IoError
  read : Kernel T → RawFd → (len : Nat) → Except IoError { bs : List UInt8 // bs.length ≤ len }
  /-- The error of writing a line, if that fails. -/
  write : Kernel T → CsvRow → Option IoError

namespace Kernel

variable {T : Type}

/-- The id of the leader of the group a new event joins: itself for `group_fd = -1`. -/
def leaderFor (k : Kernel T) (groupFd : RawFd) (id : UInt64) : Option UInt64 :=
  if groupFd = -1 then some id else (k.find groupFd).map (·.leader)

def perfEventOpen (os : Os T) (args : OpenArgs T) (k : Kernel T) :
    Except IoError RawFd × Kernel T :=
  match os.perfEventOpen k args with
  | .error e => (.error e, k.note (.perfEventOpen args (.error e)))
  | .ok new =>
    match k.leaderFor args.groupFd new.id with
    | none => (.error .EBADF, k.note (.perfEventOpen args (.error .EBADF)))
    | some leader => (.ok new.fd, k.push args ⟨new.fd, new.id, leader, args.pid, args.config⟩)

def ioctlId (os : Os T) (fd : RawFd) (k : Kernel T) : Except IoError UInt64 × Kernel T :=
  let event := (k.find fd).map (·.id)
  let answer : Except IoError UInt64 :=
    match os.ioctlId k fd, event with
    | some e, _ => .error e
    | none, some id => .ok id
    | none, none => .error .EBADF
  (answer, k.note (.ioctlId fd event answer))

def read (os : Os T) (fd : RawFd) (len : Nat) (k : Kernel T) :
    Except IoError (List UInt8) × Kernel T :=
  let event := (k.find fd).map (·.id)
  let answer : Except IoError (List UInt8) :=
    match event with
    | none => .error .EBADF
    | some _ => (os.read k fd len).map Subtype.val
  (answer, k.note (.read fd event len answer))

def close (fd : RawFd) (k : Kernel T) : Kernel T :=
  { table := k.table.filter (·.fd ≠ fd), trace := k.trace ++ [.close fd] }

def write (os : Os T) (row : CsvRow) (k : Kernel T) : Except IoError Unit × Kernel T :=
  let answer : Except IoError Unit := match os.write k row with
    | some e => .error e
    | none => .ok ()
  (answer, k.note (.write row answer))

@[simp] theorem table_note (k : Kernel T) (s : Syscall T) : (k.note s).table = k.table := rfl

@[simp] theorem trace_note (k : Kernel T) (s : Syscall T) :
    (k.note s).trace = k.trace ++ [s] := rfl

theorem opened_note (k : Kernel T) (s : Syscall T) :
    (k.note s).opened = k.opened ++ s.opened?.toList := by
  simp only [opened, trace_note, List.filterMap_append]
  cases h : s.opened? <;> simp [h]

@[simp] theorem opened_push (k : Kernel T) (args : OpenArgs T) (ev : PerfEvent T) :
    (k.push args ev).opened = k.opened ++ [ev] := by
  simp [opened, push, Syscall.opened?]

@[simp] theorem opened_close (k : Kernel T) (fd : RawFd) : (k.close fd).opened = k.opened := by
  simp [opened, close, Syscall.opened?]

@[simp] theorem members_note (k : Kernel T) (s : Syscall T) (leader : UInt64) :
    (k.note s).members leader = k.members leader := rfl

/-- What holds of every kernel a history can lead to: no id was given twice, the table lists
events that were opened, open descriptors are distinct, and every leader is a known event. -/
structure Ok (k : Kernel T) : Prop where
  ids : (k.opened.map (·.id)).Nodup
  sub : k.table.Sublist k.opened
  fds : (k.table.map (·.fd)).Nodup
  leaders : ∀ ev ∈ k.opened, ∃ l ∈ k.opened, l.id = ev.leader

structure Admits (k : Kernel T) (args : OpenArgs T) (ev : PerfEvent T) : Prop where
  fd_nonneg : 0 ≤ ev.fd
  fd_unused : ∀ old ∈ k.table, old.fd ≠ ev.fd
  id_unused : ∀ old ∈ k.opened, old.id ≠ ev.id
  leader : k.leaderFor args.groupFd ev.id = some ev.leader
  pid : ev.pid = args.pid
  config : ev.config = args.config

theorem perfEventOpen_cases (os : Os T) (args : OpenArgs T) (k : Kernel T) :
    (∃ e, k.perfEventOpen os args = (.error e, k.note (.perfEventOpen args (.error e)))) ∨
      ∃ ev, k.Admits args ev ∧ k.perfEventOpen os args = (.ok ev.fd, k.push args ev) := by
  unfold perfEventOpen
  cases os.perfEventOpen k args with
  | error e => exact .inl ⟨e, rfl⟩
  | ok new =>
      dsimp only
      cases hleader : k.leaderFor args.groupFd new.id with
      | none => exact .inl ⟨_, rfl⟩
      | some leader =>
          exact .inr ⟨⟨new.fd, new.id, leader, args.pid, args.config⟩,
            ⟨new.fd_nonneg, new.fd_unused, new.id_unused, hleader, rfl, rfl⟩, rfl⟩

theorem init_ok : (init : Kernel T).Ok := by
  constructor <;> simp [init, opened]

namespace Ok

variable {k : Kernel T}

theorem mem_opened (hk : k.Ok) {ev : PerfEvent T} (h : ev ∈ k.table) : ev ∈ k.opened :=
  hk.sub.mem h

theorem eq_of_id (hk : k.Ok) {ev ev' : PerfEvent T} (h : ev ∈ k.opened) (h' : ev' ∈ k.opened)
    (heq : ev.id = ev'.id) : ev = ev' :=
  List.inj_on_of_nodup_map hk.ids h h' heq

theorem eq_of_fd (hk : k.Ok) {ev ev' : PerfEvent T} (h : ev ∈ k.table) (h' : ev' ∈ k.table)
    (heq : ev.fd = ev'.fd) : ev = ev' :=
  List.inj_on_of_nodup_map hk.fds h h' heq

theorem find_eq (hk : k.Ok) {ev : PerfEvent T} (h : ev ∈ k.table) : k.find ev.fd = some ev := by
  cases hfind : k.find ev.fd with
  | none =>
      have hnone := List.find?_eq_none.1 hfind ev h
      simp at hnone
  | some ev' =>
      have hmem := List.mem_of_find?_eq_some hfind
      have hfd : ev'.fd = ev.fd := by simpa using List.find?_some hfind
      rw [hk.eq_of_fd hmem h hfd]

theorem note (hk : k.Ok) {s : Syscall T} (hs : s.opened? = none) : (k.note s).Ok := by
  have hopened : (k.note s).opened = k.opened := by simp [opened_note, hs]
  exact ⟨hopened ▸ hk.ids, hopened ▸ hk.sub, hk.fds, hopened ▸ hk.leaders⟩

theorem close (hk : k.Ok) (fd : RawFd) : (k.close fd).Ok where
  ids := by simpa using hk.ids
  sub := by
    rw [opened_close]
    exact List.filter_sublist.trans hk.sub
  fds := hk.fds.sublist (List.filter_sublist.map _)
  leaders := by simpa using hk.leaders

theorem push (hk : k.Ok) {args : OpenArgs T} {ev : PerfEvent T} (h : k.Admits args ev) :
    (k.push args ev).Ok where
  ids := by
    rw [opened_push, List.map_append, List.nodup_append]
    refine ⟨hk.ids, by simp, ?_⟩
    intro id hid id' hid'
    obtain ⟨old, hold, rfl⟩ := List.mem_map.1 hid
    have hid'' : id' = ev.id := by simpa using hid'
    rw [hid'']
    exact h.id_unused old hold
  sub := by
    rw [opened_push]
    exact hk.sub.append (List.Sublist.refl _)
  fds := by
    simp only [Kernel.push, List.map_append, List.nodup_append]
    refine ⟨hk.fds, by simp, ?_⟩
    intro fd hfd fd' hfd'
    obtain ⟨old, hold, rfl⟩ := List.mem_map.1 hfd
    have hfd'' : fd' = ev.fd := by simpa using hfd'
    rw [hfd'']
    exact h.fd_unused old hold
  leaders := by
    intro e he
    rw [opened_push, List.mem_append, List.mem_singleton] at he
    rw [opened_push]
    rcases he with he | rfl
    · obtain ⟨l, hl, hid⟩ := hk.leaders e he
      exact ⟨l, List.mem_append_left _ hl, hid⟩
    · have hleader := h.leader
      unfold leaderFor at hleader
      split at hleader
      · exact ⟨e, by simp, Option.some.inj hleader⟩
      · -- The group leader named by the descriptor is itself in the table.
        obtain ⟨g, hg, hgl⟩ := Option.map_eq_some_iff.1 hleader
        obtain ⟨l, hl, hid⟩ := hk.leaders g (hk.mem_opened (List.mem_of_find?_eq_some hg))
        exact ⟨l, List.mem_append_left _ hl, hid.trans hgl⟩

end Ok

end Kernel

end Threadstat

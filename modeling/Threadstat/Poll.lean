import Threadstat.Basic
import Mathlib.Data.List.AList

/-!
# The poller

A `Poller` keeps its sources in a slab and has the kernel watch their descriptors, with the slab
key of each as the data epoll hands back.  A `PollWorld` is both registries, the context passed to
the handlers, and a trace of what was done.  A handler is known by a name `H`; whatever it captured
lives in the context type `C`, so `PollEnv.call` is an arbitrary function of the two.

What the kernel will answer to the successive waits of one `poll_once` is a script.  A wait the
script does not answer blocks.
-/

namespace Threadstat

inductive PollAction where
  | Continue
  | Stop
  | Remove
  deriving DecidableEq, Repr

def EPOLLIN : UInt32 := 1
def EPOLLERR : UInt32 := 8
def EPOLLHUP : UInt32 := 16

def HANGUP : UInt32 := EPOLLERR ||| EPOLLHUP
def READABLE : UInt32 := EPOLLIN

def COUNT : Nat := 10

def EEXIST : IoError := .os 17

structure Source (H : Type) where
  fd : RawFd
  handler : H
  deriving DecidableEq

abbrev Slab (H : Type) := AList fun _ : Nat => Source H

/-- The interest list of the epoll descriptor, with the data word of each entry. -/
abbrev Interest := AList fun _ : RawFd => Nat

/-- What the kernel reports as ready: every descriptor at most once, at most `COUNT` of them. -/
structure Batch where
  ready : List (RawFd × UInt32)
  nodup : (ready.map Prod.fst).Nodup
  length_le : ready.length ≤ COUNT

abbrev WaitAnswer := Except IoError Batch

/-- `libc::epoll_event`, and the descriptor it is about, which the poller does not see. -/
structure EpollEvent where
  events : UInt32
  u64 : Nat
  fd : RawFd
  deriving DecidableEq

namespace EpollEvent

def relevant (event : EpollEvent) : Bool := event.events &&& (READABLE ||| HANGUP) ≠ 0

def hangup (event : EpollEvent) : Bool := event.events &&& HANGUP ≠ 0

end EpollEvent

/-- What the trace records; the registries are those at that moment. -/
inductive PollStep (H : Type) where
  | register (fd : RawFd) (handler : H) (key : Nat)
  | wait (sources : Slab H) (interest : Interest) (answer : Option WaitAnswer)
  | call (sources : Slab H) (interest : Interest) (event : EpollEvent) (handler : H)
      (result : Except IoError PollAction)
  | ctlDel (interest : Interest) (fd : RawFd) (answer : Except IoError Unit)

structure PollWorld (H C : Type) where
  sources : Slab H
  interest : Interest
  ctx : C
  trace : List (PollStep H)

/-- What decides the rest: the handlers, the slab's choice of keys, and the refusals of
`epoll_ctl`.  The slab hands out keys by what was in it before, which is in the trace.  A refused
`EPOLL_CTL_DEL` leaves the descriptor watched, as `EBADF` does while a duplicate of it is open; one
that the kernel has dropped by itself is gone from both registries and is none of these. -/
structure PollEnv (H C : Type) where
  call : H → C → Except IoError PollAction × C
  vacantKey : PollWorld H C → Nat
  vacant : ∀ w, vacantKey w ∉ w.sources
  ctlAdd : PollWorld H C → RawFd → Option IoError
  ctlDel : PollWorld H C → RawFd → Option IoError

/-- How a call ends, if it does: `blocked` is a wait that is never answered. -/
inductive Outcome (α : Type) where
  | done (result : α)
  | panicked
  | blocked

namespace PollWorld

variable {H C : Type}

def new (ctx : C) : PollWorld H C := ⟨∅, ∅, ctx, []⟩

def note (w : PollWorld H C) (s : PollStep H) : PollWorld H C := { w with trace := w.trace ++ [s] }

variable (env : PollEnv H C)

def ctlAdd (fd : RawFd) (data : Nat) (w : PollWorld H C) : Except IoError Unit × PollWorld H C :=
  match env.ctlAdd w fd with
  | some e => (.error e, w)
  | none =>
    if fd ∈ w.interest then (.error EEXIST, w)
    else (.ok (), { w with interest := w.interest.insert fd data })

def ctlDel (fd : RawFd) (w : PollWorld H C) : Except IoError Unit × PollWorld H C :=
  let answer : Except IoError Unit :=
    match env.ctlDel w fd with
    | some e => .error e
    | none => if fd ∈ w.interest then .ok () else .error .ENOENT
  let noted := w.note (.ctlDel w.interest fd answer)
  match answer with
  | .error e => (.error e, noted)
  | .ok () => (.ok (), { noted with interest := w.interest.erase fd })

/-- `register_mut`; a refused `EPOLL_CTL_ADD` fails its assertion. -/
def registerMut (fd : RawFd) (handler : H) (w : PollWorld H C) : Outcome Unit × PollWorld H C :=
  let key := env.vacantKey w
  let w := { w with sources := w.sources.insert key ⟨fd, handler⟩ }
  match (w.note (.register fd handler key)).ctlAdd env fd key with
  | (.error _, w) => (.panicked, w)
  | (.ok (), w) => (.done (), w)

def deregister (key : Nat) (w : PollWorld H C) : Except IoError Unit × PollWorld H C :=
  match w.sources.lookup key with
  | none => (.ok (), w)
  | some source => ({ w with sources := w.sources.erase key } : PollWorld H C).ctlDel env source.fd

def waitReady : List WaitAnswer → PollWorld H C → Outcome (Except IoError Batch) × PollWorld H C
  | [], w => (.blocked, w.note (.wait w.sources w.interest none))
  | answer :: script, w =>
    let w := w.note (.wait w.sources w.interest (some answer))
    match answer with
    | .ok batch => (.done (.ok batch), w)
    | .error e => if e.isInterrupted then waitReady script w else (.done (.error e), w)

/-- The events the kernel writes for a batch; it only reports what is in the interest list. -/
def eventsOf (interest : Interest) (batch : Batch) : List EpollEvent :=
  batch.ready.filterMap fun (fd, flags) => (interest.lookup fd).map fun data => ⟨flags, data, fd⟩

/-- `let action = match result`. -/
def actionOf (hangup : Bool) (result : Except IoError PollAction) : Except IoError PollAction :=
  match result with
  | .ok action => .ok action
  | .error e => if hangup then .ok .Remove else .error e

/-- `self.deregister(key)?`: what `poll_once` returns here, unless it goes on. -/
def removeSource (key : Nat) (w : PollWorld H C) :
    Option (Outcome (Except IoError PollAction)) × PollWorld H C :=
  match w.deregister env key with
  | (.error e, w) => (some (.done (.error e)), w)
  | (.ok (), w) => (none, w)

/-- One turn of the loop over the events: what `poll_once` returns here, unless it goes on. -/
def handleEvent (event : EpollEvent) (w : PollWorld H C) :
    Option (Outcome (Except IoError PollAction)) × PollWorld H C :=
  if !event.relevant then (none, w)
  else
    match w.sources.lookup event.u64 with
    | none => (some .panicked, w)
    | some source =>
      let (result, ctx) := env.call source.handler w.ctx
      let w := { w.note (.call w.sources w.interest event source.handler result) with ctx }
      match actionOf event.hangup result with
      | .error e => (some (.done (.error e)), w)
      | .ok .Stop => (some (.done (.ok .Stop)), w)
      | .ok .Remove => w.removeSource env event.u64
      | .ok .Continue => if event.hangup then w.removeSource env event.u64 else (none, w)

/-- The loop over the events of a batch and the check for emptiness after it. -/
def handleEvents :
    List EpollEvent → PollWorld H C → Outcome (Except IoError PollAction) × PollWorld H C
  | [], w => (.done (.ok (if w.sources.entries.isEmpty then .Stop else .Continue)), w)
  | event :: events, w =>
    match w.handleEvent env event with
    | (some out, w) => (out, w)
    | (none, w) => handleEvents events w

def pollOnce (script : List WaitAnswer) (w : PollWorld H C) :
    Outcome (Except IoError PollAction) × PollWorld H C :=
  match waitReady script w with
  | (.done (.ok batch), w) => handleEvents env (eventsOf w.interest batch) w
  | (.done (.error e), w) => (.done (.error e), w)
  | (.panicked, w) => (.panicked, w)
  | (.blocked, w) => (.blocked, w)

/-- `run`, with one script for each turn of its loop. -/
def run : List (List WaitAnswer) → PollWorld H C → Outcome (Except IoError Unit) × PollWorld H C
  | [], w => (.blocked, (w.pollOnce env []).2)
  | script :: scripts, w =>
    match w.pollOnce env script with
    | (.done (.ok .Stop), w) => (.done (.ok ()), w)
    | (.done (.ok .Continue), w) => run scripts w
    | (.done (.ok .Remove), w) => (.panicked, w)
    | (.done (.error e), w) => (.done (.error e), w)
    | (.panicked, w) => (.panicked, w)
    | (.blocked, w) => (.blocked, w)

end PollWorld

inductive PollCall (H : Type) where
  | registerMut (fd : RawFd) (handler : H)
  | pollOnce (script : List WaitAnswer)
  | run (scripts : List (List WaitAnswer))

def Outcome.forget {α : Type} : Outcome α → Outcome Unit
  | .done _ => .done ()
  | .panicked => .panicked
  | .blocked => .blocked

namespace PollWorld

variable {H C : Type} (env : PollEnv H C)

def exec (w : PollWorld H C) : PollCall H → Outcome Unit × PollWorld H C
  | .registerMut fd handler => w.registerMut env fd handler
  | .pollOnce script => let (out, w) := w.pollOnce env script; (out.forget, w)
  | .run scripts => let (out, w) := w.run env scripts; (out.forget, w)

/-- Calls one after the other; one that panics or blocks is the last. -/
def session : PollWorld H C → List (PollCall H) → Outcome Unit × PollWorld H C
  | w, [] => (.done (), w)
  | w, call :: calls =>
    match w.exec env call with
    | (.done (), w) => session w calls
    | (.panicked, w) => (.panicked, w)
    | (.blocked, w) => (.blocked, w)

end PollWorld

end Threadstat

import Threadstat.Perf.Groups
import Threadstat.Perf.GroupReader
import Mathlib.Data.List.AList

/-!
# The daemon's state

`State` keeps the groups it has opened for each thread, one reader, the three CSV files and the
counter that numbers reads.  A `World` is that state together with the kernel it talks to; an
`Env` decides everything the state cannot: the answers of the kernel, the clock, the allocator,
and the order in which the hash map yields its entries.  Messages on standard error are left out.
-/

namespace Threadstat

open CsvText WordBytes

/-! ## The CSV files -/

/-- `CsvWriter`: the text of the three files. -/
structure CsvWriter where
  event : Str
  read : Str
  desc : Str
  deriving DecidableEq

namespace CsvWriter

/-- `CsvWriter::open`: three empty files with their header lines. -/
def openFiles : CsvWriter where
  event := unlines [eventHeader]
  read := unlines [readHeader]
  desc := unlines [descHeader]

def append (csv : CsvWriter) : CsvRow → CsvWriter
  | .event row => { csv with event := csv.event ++ unlines [row.line] }
  | .read row => { csv with read := csv.read ++ unlines [row.line] }
  | .desc row => { csv with desc := csv.desc ++ unlines [row.line] }

/-- `writeln!` of one row; a write that fails appends nothing. -/
def write {T : Type} (os : Os T) (row : CsvRow) (csv : CsvWriter) (k : Kernel T) :
    Except IoError Unit × CsvWriter × Kernel T :=
  match k.write os row with
  | (.ok (), k) => (.ok (), csv.append row, k)
  | (.error e, k) => (.error e, csv, k)

variable {T : Type} (os : Os T)

def writeEvent (readId count id : UInt64) :
    CsvWriter → Kernel T → Except IoError Unit × CsvWriter × Kernel T :=
  write os (.event ⟨readId, count, id⟩)

def writeRead (readId : UInt64) (timestamp : Nat) (timeRunning timeEnabled : UInt64) :
    CsvWriter → Kernel T → Except IoError Unit × CsvWriter × Kernel T :=
  write os (.read ⟨readId, timestamp, timeRunning, timeEnabled⟩)

def writeDesc (id : UInt64) (name : Str) (tid : Pid) :
    CsvWriter → Kernel T → Except IoError Unit × CsvWriter × Kernel T :=
  write os (.desc ⟨id, name, tid⟩)

end CsvWriter

/-! ## State -/

abbrev TidGroups := List (PerfStatGroup InternC)

abbrev GroupMap := AList fun _ : Pid => TidGroups

structure State where
  eventConfigs : List (NonEmpty (PerfConfig InternC))
  groups : GroupMap
  reader : PerfGroupReader
  csv : CsvWriter
  readId : UInt64

structure Env where
  os : Os InternC
  endian : Endian
  /-- Nanoseconds since the epoch, unless the clock stands before it. -/
  now : Kernel InternC → Option Nat
  /-- The block `alloc` or `realloc` hands out. -/
  alloc : Kernel InternC → Nat → Block
  /-- The order in which the hash map yields its entries. -/
  iter : Kernel InternC → List (Sigma fun _ : Pid => TidGroups) →
    List (Sigma fun _ : Pid => TidGroups)
  iter_perm : ∀ k entries, (iter k entries).Perm entries

structure World where
  state : State
  kernel : Kernel InternC

namespace World

variable (env : Env)

def new (eventConfigs : List (NonEmpty (PerfConfig InternC))) : World where
  state :=
    { eventConfigs, groups := ∅, reader := .new, csv := .openFiles, readId := 0 }
  kernel := .init

/-- A call on the CSV writer whose error is only printed. -/
def onCsv (f : CsvWriter → Kernel InternC → Except IoError Unit × CsvWriter × Kernel InternC)
    (w : World) : World :=
  let (_, csv, kernel) := f w.state.csv w.kernel
  { state := { w.state with csv }, kernel }

def readGroup (group : PerfStatGroup InternC) (w : World) :
    Except PerfError (GroupInfo × List EventInfo) × World :=
  let size := necessaryBufferSize group.len
  let (answer, kernel) := w.kernel.read env.os group.leaderFd size
  let (result, reader) :=
    w.state.reader.readGroup env.endian group (env.alloc w.kernel size) answer
  (result, { state := { w.state with reader }, kernel })

/-- One turn of the loop of `flush_groups`. -/
def flushGroup (group : PerfStatGroup InternC) (w : World) : World :=
  let readId := w.state.readId
  let w := { w with state := { w.state with readId := w.state.readId + 1 } }
  let timestamp := (env.now w.kernel).getD 0
  match w.readGroup env group with
  | (.error _, w) => w
  | (.ok (info, events), w) =>
    let w := w.onCsv
      (CsvWriter.writeRead env.os readId timestamp info.timeRunning info.timeEnabled)
    events.foldl
      (fun w event => w.onCsv (CsvWriter.writeEvent env.os readId event.count event.id)) w

def flushGroups (groups : TidGroups) (w : World) : World :=
  groups.foldl (fun w group => w.flushGroup env group) w

/-- The `filter_map` over the configurations: the groups that open. -/
def openGroups (tid : Pid) :
    List (NonEmpty (PerfConfig InternC)) → Kernel InternC → TidGroups × Kernel InternC
  | [], k => ([], k)
  | config :: configs, k =>
    match PerfStatGroup.new env.os config.toList tid k with
    | (.error _, k) => openGroups tid configs k
    | (.ok group, k) =>
      let (groups, k) := openGroups tid configs k
      (group :: groups, k)

/-- One member of `name_and_ids`, described if its id can be had. -/
def describe (tid : Pid) (stat : PerfStat InternC) (w : World) : World :=
  match w.kernel.ioctlId env.os stat.fd with
  | (.error _, kernel) => { w with kernel }
  | (.ok id, kernel) => { w with kernel }.onCsv (CsvWriter.writeDesc env.os id stat.name.text tid)

def openTid (tid : Pid) (w : World) : World :=
  if tid ∈ w.state.groups then w
  else
    let (tidGroups, kernel) := openGroups env tid w.state.eventConfigs w.kernel
    let w := { w with kernel }
    let w := tidGroups.foldl
      (fun w group => group.fds.toList.foldl (fun w stat => w.describe env tid stat) w) w
    { w with state := { w.state with groups := w.state.groups.insert tid tidGroups } }

/-- `close_tid`; the removed groups are dropped at its end. -/
def closeTid (tid : Pid) (w : World) : World :=
  match w.state.groups.lookup tid with
  | none => w
  | some groups =>
    let w := { w with state := { w.state with groups := w.state.groups.erase tid } }
    let w := w.flushGroups env groups
    { w with kernel := closeAll w.kernel (groups.flatMap fun group => group.fds.toList) }

def flushAll (w : World) : World :=
  (env.iter w.kernel w.state.groups.entries).foldl (fun w entry => w.flushGroups env entry.2) w

inductive Op where
  | openTid (tid : Pid)
  | closeTid (tid : Pid)
  | flushAll
  deriving DecidableEq, Repr

def exec (w : World) : Op → World
  | .openTid tid => w.openTid env tid
  | .closeTid tid => w.closeTid env tid
  | .flushAll => w.flushAll env

def run (w : World) (ops : List Op) : World := ops.foldl (exec env) w

end World

end Threadstat

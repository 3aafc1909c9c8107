import Threadstat.Session
import Threadstat.State.Descriptions
import Threadstat.Lib.BufWriter
import Threadstat.Lib.Utf8

/-!
# The files on disk

`CsvWriter` holds three `BufWriter<File>`s.  The state's own account of a file is the lines whose
`writeln!` succeeded; here is what is then in the file and in the buffer in front of it.  The
answers of the buffers depend on every row written before, so they are replayed from the trace.

The descriptors of the files and the paths they are opened under are left out.
-/

namespace Threadstat

open CsvText BufWriter Utf8

/-! ## Rows in pieces -/

/-- A signed number as `pad_integral` writes it: the sign is a piece of its own. -/
def signedPieces (z : Int) : List Str :=
  if z < 0 then [['-'], decimal z.natAbs] else [decimal z.natAbs]

def EventRow.pieces (r : EventRow) : List Str :=
  [decimal r.readId.toNat, [','], decimal r.count.toNat, [','], decimal r.id.toNat, ['\n']]

def ReadRow.pieces (r : ReadRow) : List Str :=
  [decimal r.readId.toNat, [','], decimal r.timestamp, [','], decimal r.timeRunning.toNat, [','],
    decimal r.timeEnabled.toNat, ['\n']]

def DescRow.pieces (r : DescRow) : List Str :=
  [decimal r.id.toNat, [','], r.name, [',']] ++ signedPieces r.tid.toInt ++ [['\n']]

inductive CsvFile where
  | event
  | read
  | desc
  deriving DecidableEq, Repr

def CsvFile.header : CsvFile → Str
  | .event => eventHeader
  | .read => readHeader
  | .desc => descHeader

def CsvWriter.file (csv : CsvWriter) : CsvFile → Str
  | .event => csv.event
  | .read => csv.read
  | .desc => csv.desc

namespace CsvRow

def file : CsvRow → CsvFile
  | .event _ => .event
  | .read _ => .read
  | .desc _ => .desc

def line : CsvRow → Str
  | .event row => row.line
  | .read row => row.line
  | .desc row => row.line

def pieces : CsvRow → List Str
  | .event row => row.pieces
  | .read row => row.pieces
  | .desc row => row.pieces

def bytes (row : CsvRow) : List UInt8 := Utf8.bytes (unlines [row.line])

theorem flatten_pieces (row : CsvRow) : row.pieces.flatten = unlines [row.line] := by
  cases row with
  | event row => simp [pieces, line, EventRow.pieces, EventRow.line, join, unlines]
  | read row => simp [pieces, line, ReadRow.pieces, ReadRow.line, join, unlines]
  | desc row =>
      have hsigned : (signedPieces row.tid.toInt).flatten = signed row.tid.toInt := by
        unfold signedPieces signed
        split <;> simp
      simp [pieces, line, DescRow.pieces, DescRow.line, join, unlines, hsigned]

end CsvRow

/-! ## The buffers -/

def bufConfig : BufWriter.Config IoError where
  capacity := 8 * 1024
  flushZero := .other "failed to write the buffered data"
  writeZero := .other "failed to write whole buffer"

abbrev Sinks := CsvFile → Sink UInt8 IoError

structure Disk where
  event : Writer UInt8
  read : Writer UInt8
  desc : Writer UInt8

namespace Disk

def file (d : Disk) : CsvFile → Writer UInt8
  | .event => d.event
  | .read => d.read
  | .desc => d.desc

def set (d : Disk) (f : CsvFile) (w : Writer UInt8) : Disk :=
  match f with
  | .event => { d with event := w }
  | .read => { d with read := w }
  | .desc => { d with desc := w }

variable (sinks : Sinks)

def writeln (f : CsvFile) (pieces : List Str) (d : Disk) : Except IoError Unit × Disk :=
  let (answer, w) := (d.file f).writeFmt bufConfig (sinks f) (pieces.map Utf8.bytes)
  (answer, d.set f w)

def write (row : CsvRow) (d : Disk) : Except IoError Unit × Disk :=
  d.writeln sinks row.file row.pieces

/-- `CsvWriter::open` once the files are open. -/
def openFiles : Except IoError Disk :=
  let d : Disk := ⟨.new, .new, .new⟩
  match d.writeln sinks .event [unlines [eventHeader]] with
  | (.error e, _) => .error e
  | (.ok (), d) =>
    match d.writeln sinks .read [unlines [readHeader]] with
    | (.error e, _) => .error e
    | (.ok (), d) =>
      match d.writeln sinks .desc [unlines [descHeader]] with
      | (.error e, _) => .error e
      | (.ok (), d) => .ok d

/-- The headers fit in the buffers, so the kernel is not asked. -/
theorem openFiles_succeeds : (openFiles sinks).toOption.isSome := by rfl

def opened : Disk := (openFiles sinks).toOption.get (openFiles_succeeds sinks)

theorem file_opened (f : CsvFile) :
    (opened sinks).file f = ⟨⟨[], 0⟩, Utf8.bytes (unlines [f.header])⟩ := by
  cases f <;> rfl

/-- Dropping a `BufWriter` flushes it and ignores the answer. -/
def drop (d : Disk) : Disk where
  event := (d.event.flushBuf bufConfig (sinks .event)).2
  read := (d.read.flushBuf bufConfig (sinks .read)).2
  desc := (d.desc.flushBuf bufConfig (sinks .desc)).2

def put (d : Disk) : Syscall InternC → Disk
  | .write row _ => (d.write sinks row).2
  | _ => d

def replay (log : List (Syscall InternC)) : Disk := log.foldl (put sinks) (opened sinks)

@[simp] theorem file_set (d : Disk) (f : CsvFile) (w : Writer UInt8) (f' : CsvFile) :
    (d.set f w).file f' = if f' = f then w else d.file f' := by
  cases f <;> cases f' <;> rfl

theorem file_drop (d : Disk) (f : CsvFile) :
    (d.drop sinks).file f = ((d.file f).flushBuf bufConfig (sinks f)).2 := by
  cases f <;> rfl

@[simp] theorem replay_snoc (log : List (Syscall InternC)) (s : Syscall InternC) :
    replay sinks (log ++ [s]) = (replay sinks log).put sinks s := by
  simp [replay]

theorem replay_quiet (log : List (Syscall InternC)) {tail : List (Syscall InternC)}
    (htail : ∀ s ∈ tail, ¬ s.isWrite) : replay sinks (log ++ tail) = replay sinks log := by
  induction tail using List.reverseRecOn with
  | nil => rw [List.append_nil]
  | append_singleton tail s ih =>
      rw [← List.append_assoc, replay_snoc,
        ih fun s' hs' => htail s' (List.mem_append_left _ hs')]
      cases s with
      | write row answer => exact absurd trivial (htail (.write row answer) (by simp))
      | _ => rfl

/-- A row changes its own file, and in it adds a prefix of its bytes. -/
theorem write_written (row : CsvRow) {d : Disk}
    (hroom : (d.file row.file).buf.length ≤ bufConfig.capacity) :
    ∃ part, Wrote bufConfig.capacity row.bytes part (d.write sinks row).1 (d.file row.file)
      ((d.write sinks row).2.file row.file) := by
  have hbytes : (row.pieces.map Utf8.bytes).flatten = row.bytes := by
    rw [CsvRow.bytes, ← row.flatten_pieces, Utf8.bytes_flatten]
  obtain ⟨part, hpart⟩ := (d.file row.file).writeFmt_written bufConfig (sinks row.file)
    (row.pieces.map Utf8.bytes) hroom
  rw [hbytes] at hpart
  exact ⟨part, by simpa [write, writeln] using hpart⟩

theorem write_other {row : CsvRow} {f : CsvFile} (h : f ≠ row.file) (d : Disk) :
    (d.write sinks row).2.file f = d.file f := by
  simp [write, writeln, h]

end Disk

/-! ## The daemon on these files -/

/-- Rows are answered by the buffers in front of `sinks`. -/
def Os.buffered (os : Os InternC) (sinks : Sinks) : Os InternC :=
  { os with
    write := fun k row =>
      match ((Disk.replay sinks k.trace).write sinks row).1 with
      | .ok () => none
      | .error e => some e }

def Env.buffered (env : Env) (sinks : Sinks) : Env := { env with os := env.os.buffered sinks }

theorem Os.buffered_answer (os : Os InternC) (sinks : Sinks) (k : Kernel InternC) (row : CsvRow) :
    (k.write (os.buffered sinks) row).1 = ((Disk.replay sinks k.trace).write sinks row).1 := by
  simp only [Kernel.write, buffered]
  rcases ((Disk.replay sinks k.trace).write sinks row).1 with e | ⟨⟩ <;> rfl

/-- What the calls of a run keep true of the kernel if it holds at the start, however the daemon
goes about its work: other calls than writes leave it, and so does writing a row. -/
structure KeptByCalls (env : Env) (I : Kernel InternC → Prop) : Prop where
  quiet : ∀ {k k' : Kernel InternC}, I k → Kernel.Extends (fun s => ¬ s.isWrite) k k' → I k'
  write : ∀ {k : Kernel InternC} (row : CsvRow), I k → I (k.write env.os row).2

namespace KeptByCalls

variable {env : Env} {I : Kernel InternC → Prop} (h : KeptByCalls env I)
include h

theorem writeRows (rows : List CsvRow) {w : World} (hw : I w.kernel) :
    I (w.writeRows env rows).kernel := by
  induction rows generalizing w with
  | nil => exact hw
  | cons row rows ih => exact ih (by rw [World.writeRow_kernel]; exact h.write row hw)

theorem flushGroups (groups : TidGroups) {w : World} (hw : I w.kernel) :
    I (w.flushGroups env groups).kernel := by
  induction groups generalizing w with
  | nil => exact hw
  | cons group groups ih =>
      have hread : I (w.afterRead env group).kernel :=
        h.quiet hw (.one (s := w.readCall env group) rfl id)
      refine ih (w := w.flushGroup env group) ?_
      rcases w.flushGroup_cases env group with ⟨e, -, heq⟩ | ⟨bs, -, heq⟩
      · rwa [heq]
      · rw [heq]
        exact h.writeRows _ hread

theorem describeAll (tid : Pid) (stats : List (PerfStat InternC)) {w : World} (hw : I w.kernel) :
    I (w.describeAll env tid stats).kernel := by
  induction stats generalizing w with
  | nil => exact hw
  | cons stat stats ih =>
      refine ih (w := w.describe env tid stat) ?_
      have hasked : I (w.kernel.ioctlId env.os stat.fd).2 :=
        h.quiet hw (.one (s := .ioctlId stat.fd _ _) rfl id)
      unfold World.describe
      generalize w.kernel.ioctlId env.os stat.fd = asked at hasked
      obtain ⟨e | id, kernel⟩ := asked
      · exact hasked
      · exact h.writeRows [.desc ⟨id, stat.name.text, tid⟩] (w := { w with kernel }) hasked

theorem openTid (tid : Pid) {w : World} (hok : w.Ok) (hw : I w.kernel) :
    I (w.openTid env tid).kernel := by
  by_cases hmem : tid ∈ w.state.groups
  · rwa [World.openTid_of_mem env hmem]
  · rw [World.openTid_of_notMem env hmem]
    have hopens := World.openGroups_spec env tid w.state.eventConfigs hok.kernel
    refine h.describeAll tid _ (h.quiet hw (hopens.calls.mono fun s hs => ?_))
    cases s <;> first | exact id | exact absurd hs id

theorem closeTid (tid : Pid) {w : World} (hw : I w.kernel) : I (w.closeTid env tid).kernel := by
  cases hlookup : w.state.groups.lookup tid with
  | none => rwa [World.closeTid_of_none env hlookup]
  | some groups =>
      rw [World.closeTid_of_some env hlookup]
      have hflushed := h.flushGroups groups (w := w.afterRemove tid) hw
      refine h.quiet hflushed ((closeAll_extends _ _).mono fun s hs => ?_)
      cases s <;> first | exact id | exact absurd hs id

theorem flushAll {w : World} (hw : I w.kernel) : I (w.flushAll env).kernel := by
  unfold World.flushAll
  generalize env.iter w.kernel w.state.groups.entries = entries
  induction entries generalizing w with
  | nil => exact hw
  | cons entry entries ih => exact ih (h.flushGroups entry.2 hw)

theorem exec (op : World.Op) {w : World} (hok : w.Ok) (hw : I w.kernel) :
    I (w.exec env op).kernel := by
  cases op with
  | openTid tid => exact h.openTid tid hok hw
  | closeTid tid => exact h.closeTid tid hw
  | flushAll => exact h.flushAll hw

theorem run (ops : List World.Op) {w : World} (hok : w.Ok) (hw : I w.kernel) :
    I (w.run env ops).kernel := by
  have hboth : (w.run env ops).Ok ∧ I (w.run env ops).kernel :=
    World.run_induction (P := fun w => w.Ok ∧ I w.kernel) env ⟨hok, hw⟩
      (fun _ op hw => ⟨World.exec_ok env op hw.1, h.exec op hw.1 hw.2⟩) ops
  exact hboth.2

end KeptByCalls

/-! ## What is on disk -/

def Syscall.tried? (f : CsvFile) : Syscall InternC → Option (List UInt8 × Except IoError Unit)
  | .write row answer => if row.file = f then some (row.bytes, answer) else none
  | _ => none

def Kernel.tried (k : Kernel InternC) (f : CsvFile) : List (List UInt8 × Except IoError Unit) :=
  k.trace.filterMap (Syscall.tried? f)

/-- The file holds the rows of the trace as far as they were written. -/
structure Disk.Sound (sinks : Sinks) (k : Kernel InternC) (f : CsvFile) : Prop where
  holds : ((replay sinks k.trace).file f).Holds (Utf8.bytes (unlines [f.header])) (k.tried f)
  room : ((replay sinks k.trace).file f).buf.length ≤ bufConfig.capacity

namespace Disk.Sound

variable {sinks : Sinks} {k k' : Kernel InternC} {f : CsvFile}

theorem init : Disk.Sound sinks .init f := by
  constructor
  · exact ⟨[], by simp [replay, Kernel.init, file_opened, Writer.text], .nil⟩
  · simp only [replay, Kernel.init, List.foldl_nil, file_opened]
    cases f <;> decide

theorem quiet (h : Disk.Sound sinks k f)
    (hcalls : Kernel.Extends (fun s => ¬ s.isWrite) k k') :
    Disk.Sound sinks k' f ∧ replay sinks k'.trace = replay sinks k.trace := by
  obtain ⟨tail, htrace, htail⟩ := hcalls
  have hreplay : replay sinks k'.trace = replay sinks k.trace := by
    rw [htrace, replay_quiet sinks _ htail]
  have hnone : tail.filterMap (Syscall.tried? f) = [] := by
    rw [List.filterMap_eq_nil_iff]
    intro s hs
    cases s with
    | write => exact absurd trivial (htail _ hs)
    | _ => rfl
  have htried : k'.tried f = k.tried f := by
    rw [Kernel.tried, htrace, List.filterMap_append, hnone, List.append_nil, Kernel.tried]
  exact ⟨⟨hreplay ▸ htried ▸ h.holds, hreplay ▸ h.room⟩, hreplay⟩

theorem write (h : ∀ f, Disk.Sound sinks k f) (os : Os InternC) (row : CsvRow) (f : CsvFile) :
    Disk.Sound sinks (k.write (os.buffered sinks) row).2 f ∧
      ((replay sinks k.trace).file f).out.taken <+:
        ((replay sinks (k.write (os.buffered sinks) row).2.trace).file f).out.taken := by
  have htrace : (k.write (os.buffered sinks) row).2.trace =
      k.trace ++ [.write row ((replay sinks k.trace).write sinks row).1] := by
    rw [← os.buffered_answer sinks k row]
    rfl
  have hreplay : replay sinks (k.write (os.buffered sinks) row).2.trace =
      ((replay sinks k.trace).write sinks row).2 := by
    rw [htrace, replay_snoc]
    rfl
  have htried : (k.write (os.buffered sinks) row).2.tried f = k.tried f ++
      if row.file = f then [(row.bytes, ((replay sinks k.trace).write sinks row).1)] else [] := by
    rw [Kernel.tried, htrace, List.filterMap_append, Kernel.tried]
    by_cases hf : row.file = f <;> simp [Syscall.tried?, hf]
  rw [hreplay]
  by_cases hf : row.file = f
  · subst hf
    obtain ⟨part, hpart⟩ := write_written sinks row (h row.file).room
    refine ⟨⟨?_, ?_⟩, hpart.grows⟩
    · rw [hreplay, htried, if_pos rfl]
      exact (h row.file).holds.snoc hpart
    · rw [hreplay]
      exact hpart.room
  · rw [write_other sinks (Ne.symm hf)]
    refine ⟨⟨?_, ?_⟩, List.prefix_rfl⟩
    · rw [hreplay, htried, if_neg hf, List.append_nil, write_other sinks (Ne.symm hf)]
      exact (h f).holds
    · rw [hreplay, write_other sinks (Ne.symm hf)]
      exact (h f).room

end Disk.Sound

/-- What calls keep of the files: they are sound, and what `old` says is in them stays. -/
theorem Disk.kept (env : Env) (sinks : Sinks) (old : CsvFile → List UInt8) :
    KeptByCalls (env.buffered sinks) fun k => ∀ f, Disk.Sound sinks k f ∧
      old f <+: ((replay sinks k.trace).file f).out.taken where
  quiet h hcalls f := by
    obtain ⟨hsound, hreplay⟩ := (h f).1.quiet hcalls
    exact ⟨hsound, hreplay ▸ (h f).2⟩
  write row h f := by
    obtain ⟨hsound, hgrows⟩ := Disk.Sound.write (fun f => (h f).1) env.os row f
    exact ⟨hsound, (h f).2.trans hgrows⟩

namespace World

variable (env : Env) (sinks : Sinks)

/-- Whatever the disk does, in every run and for every file: file and buffer together are the
header and a prefix of each row tried, the whole row just when its `writeln!` succeeded.  At most
8192 bytes are not in the file yet, and what is in it stays there to the end, when dropping the
state puts some more of the buffer there. -/
theorem rows_on_disk (configs : EventGroups) (ops more : List Op) (f : CsvFile) :
    let w := (new configs).run (env.buffered sinks) ops
    let w' := (new configs).run (env.buffered sinks) (ops ++ more)
    let disk (w : World) := Disk.replay sinks w.kernel.trace
    ((disk w).file f).Holds (Utf8.bytes (unlines [f.header])) (w.kernel.tried f) ∧
      ((disk w).file f).text.length ≤ ((disk w).file f).out.taken.length + 8192 ∧
      ((disk w).file f).out.taken <+: ((disk w').file f).out.taken ∧
      ((disk w').file f).out.taken <+: (((disk w').drop sinks).file f).out.taken ∧
      (((disk w').drop sinks).file f).out.taken <+: ((disk w').file f).text := by
  intro w w' disk
  have hok : w.Ok := run_ok (env.buffered sinks) configs ops
  have hsound := fun f => ((Disk.kept env sinks fun _ => []).run ops (new_ok configs)
    fun f => ⟨.init, List.nil_prefix⟩) f
  have hlater := (Disk.kept env sinks fun f => ((disk w).file f).out.taken).run more hok
    fun f => ⟨(hsound f).1, List.prefix_rfl⟩
  have hrun : w.run (env.buffered sinks) more = w' := (run_append _ _ ops more).symm
  rw [hrun] at hlater
  obtain ⟨answer, dropped, hdrop, htext, -, -, hgrows⟩ :=
    ((disk w').file f).flushBuf_cases bufConfig (sinks f)
  refine ⟨(hsound f).1.holds, ?_, (hlater f).2, ?_, ?_⟩
  · rw [Writer.text, List.length_append]
    exact Nat.add_le_add_left (hsound f).1.room _
  · rwa [Disk.file_drop, hdrop]
  · rw [Disk.file_drop, hdrop, ← htext]
    exact List.prefix_append _ _

end World

/-! ## A disk that always takes something -/

theorem CsvWriter.file_append (csv : CsvWriter) (row : CsvRow) (f : CsvFile) :
    (csv.append row).file f = csv.file f ++ if row.file = f then unlines [row.line] else [] := by
  cases row <;> cases f <;> simp [append, file, CsvRow.file, CsvRow.line]

/-- If no row failed, the state's account of a file is the header and every row tried. -/
theorem bytes_csvOf (f : CsvFile) {log : List (Syscall InternC)}
    (hok : ∀ row answer, .write row answer ∈ log → answer = .ok ()) :
    Utf8.bytes ((csvOf log).file f) = Utf8.bytes (unlines [f.header]) ++
      ((log.filterMap (Syscall.tried? f)).map Prod.fst).flatten := by
  induction log using List.reverseRecOn with
  | nil => cases f <;> rfl
  | append_singleton log s ih =>
      have hlog := ih fun row answer h => hok row answer (List.mem_append_left _ h)
      cases s with
      | write row answer =>
          obtain rfl := hok row answer (by simp)
          rw [csvOf_write, CsvWriter.file_append, Utf8.bytes_append, hlog]
          by_cases hf : row.file = f <;>
            simp [Syscall.tried?, hf, CsvRow.bytes]
      | _ =>
          rw [csvOf_quiet log (by simp [Syscall.isWrite]), hlog]
          simp [Syscall.tried?]

namespace World

theorem writes_ok (env : Env) {sinks : Sinks} (hsinks : ∀ f, (sinks f).Willing) :
    KeptByCalls (env.buffered sinks) fun k =>
      ∀ row answer, .write row answer ∈ k.trace → answer = .ok () where
  quiet := by
    rintro k k' h ⟨tail, htrace, htail⟩ row answer hmem
    rw [htrace, List.mem_append] at hmem
    rcases hmem with hmem | hmem
    · exact h row answer hmem
    · exact absurd trivial (htail _ hmem)
  write := by
    intro k row h row' answer hmem
    have hanswer : (k.write (env.os.buffered sinks) row).1 = .ok () := by
      rw [Os.buffered_answer]
      exact (hsinks row.file).writeFmt_ok bufConfig _ _
    rcases List.mem_append.1 hmem with hmem | hmem
    · exact h row' answer hmem
    · obtain ⟨-, rfl⟩ := Syscall.write.inj (List.mem_singleton.1 hmem)
      exact hanswer

/-- On a disk that always takes something no row is lost: at every time the files are the
beginnings of what the state has written, and all of it once the state is dropped. -/
theorem files_complete (env : Env) {sinks : Sinks} (hsinks : ∀ f, (sinks f).Willing)
    (configs : EventGroups) (ops : List Op) :
    let w := (new configs).run (env.buffered sinks) ops
    let disk := Disk.replay sinks w.kernel.trace
    (∀ row answer, .write row answer ∈ w.kernel.trace → answer = .ok ()) ∧
      ∀ f, (disk.file f).out.taken <+: Utf8.bytes (w.state.csv.file f) ∧
        ((disk.drop sinks).file f).out.taken = Utf8.bytes (w.state.csv.file f) := by
  intro w disk
  have hok := (writes_ok env hsinks).run ops (new_ok configs) (by simp [new, Kernel.init])
  have hsound := (Disk.kept env sinks fun _ => []).run ops (new_ok configs)
    fun f => ⟨.init, List.nil_prefix⟩
  refine ⟨hok, fun f => ?_⟩
  have htext : (disk.file f).text = Utf8.bytes (w.state.csv.file f) := by
    rw [(run_logged (env.buffered sinks) configs ops).files, bytes_csvOf f hok]
    refine (hsound f).1.holds.text_eq ?_
    rintro ⟨bytes, answer⟩ htried
    obtain ⟨s, hs, hsome⟩ := List.mem_filterMap.1 htried
    cases s with
    | write row answer' =>
        obtain rfl := hok row answer' hs
        simp only [Syscall.tried?] at hsome
        split at hsome
        · exact (Prod.mk.inj (Option.some.inj hsome)).2.symm
        · cases hsome
    | _ => cases hsome
  refine ⟨htext ▸ List.prefix_append _ _, ?_⟩
  obtain ⟨answer, dropped, hdrop, hsame, hempty, -, -⟩ :=
    (disk.file f).flushBuf_cases bufConfig (sinks f)
  have hflushed := (hsinks f).flushBuf_ok bufConfig (disk.file f)
  rw [hdrop] at hflushed
  rw [Disk.file_drop, hdrop, ← htext, ← hsame, Writer.text, hempty.1 hflushed, List.append_nil]

def byteByByte : Sinks := fun _ => ⟨fun _ data => .ok ⟨min 1 data.length, Nat.min_le_right _ _⟩⟩

theorem files_complete_byteByByte :
    let w := (new [cyclesGroup]).run (Env.steady.buffered byteByByte) [.openTid 1, .flushAll]
    (((Disk.replay byteByByte w.kernel.trace).drop byteByByte).file .desc).out.taken =
      Utf8.bytes "event_id,name,pid\n0,cycles,1\n".toList := by
  have hwilling : ∀ f, (byteByByte f).Willing := by
    intro f calls data hne
    refine ⟨_, rfl, ?_⟩
    have hpos := List.length_pos_iff.2 hne
    exact Nat.lt_min.2 ⟨Nat.one_pos, hpos⟩
  exact ((files_complete .steady hwilling [cyclesGroup] [.openTid 1, .flushAll]).2 .desc).2

end World

end Threadstat

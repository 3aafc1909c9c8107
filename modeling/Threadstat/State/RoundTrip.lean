import Threadstat.State.Steady

/-!
# From the kernel's record to the files and back

Flushing a group whose read filled the whole record appends one line to the read file and one line
per event to the event file.  Read under the column names of the headers, the lines give back the
numbers the kernel encoded.
-/

namespace Threadstat

open CsvText WordBytes

def Syscall.writeOk {T : Type} : Syscall T → Prop
  | .write _ (.error _) => False
  | _ => True

def headerOf (text : Str) : Str := (lines text).headD []

theorem headerOf_openFiles : headerOf CsvWriter.openFiles.event = eventHeader ∧
    headerOf CsvWriter.openFiles.read = readHeader := by
  decide

theorem foldl_append_events (rows : List EventRow) (csv : CsvWriter) :
    (rows.map .event).foldl CsvWriter.append csv =
      { csv with event := csv.event ++ unlines (rows.map EventRow.line) } := by
  induction rows generalizing csv with
  | nil => simp [unlines]
  | cons row rows ih =>
      rw [List.map_cons, List.foldl_cons, ih]
      simp [CsvWriter.append, unlines]

namespace World

variable (env : Env)

theorem writeRows_csv (rows : List CsvRow) (w : World)
    (hok : Kernel.Extends Syscall.writeOk w.kernel (w.writeRows env rows).kernel) :
    (w.writeRows env rows).state.csv = rows.foldl CsvWriter.append w.state.csv := by
  induction rows generalizing w with
  | nil => rfl
  | cons row rows ih =>
      obtain ⟨tail, htrace, htail⟩ := hok
      obtain ⟨tail', htrace', -⟩ := writeRows_extends env rows (w.writeRow env row)
      have htails : tail = .write row (w.writeAnswer env row) :: tail' := by
        have heq : w.kernel.trace ++ tail =
            w.kernel.trace ++ .write row (w.writeAnswer env row) :: tail' := by
          rw [← htrace, writeRows, List.foldl_cons, ← writeRows, htrace', writeRow_kernel]
          simp
        exact List.append_cancel_left heq
      have hanswer := htail (.write row (w.writeAnswer env row)) (by simp [htails])
      have hcsv : (w.writeRow env row).state.csv = w.state.csv.append row := by
        rw [writeRow_csv]
        cases h : w.writeAnswer env row with
        | ok _ => rfl
        | error e =>
            rw [h] at hanswer
            exact absurd hanswer id
      have hrest := ih (w.writeRow env row)
        ⟨tail', htrace', fun s hs => htail s (by simp [htails, hs])⟩
      rw [writeRows, List.foldl_cons, ← writeRows, hrest, hcsv, List.foldl_cons]

variable {env}

/-- Whatever the reader held before, a whole record decodes to its own numbers. -/
theorem decoded_groupRecord {w : World} {group : PerfStatGroup InternC}
    {timeEnabled timeRunning : UInt64} {entries : List PerfGroupReadEntry}
    (hlen : entries.length = group.len) :
    w.decoded env group (groupRecord env.endian timeEnabled timeRunning entries) =
      groupRecord env.endian timeEnabled timeRunning entries :=
  w.state.reader.decoded_of_length_eq _ _ (by rw [length_groupRecord, hlen])

theorem eventRows_groupRecord {w : World} {group : PerfStatGroup InternC}
    {timeEnabled timeRunning : UInt64} {entries : List PerfGroupReadEntry}
    (hlen : entries.length = group.len) :
    w.eventRows env group (groupRecord env.endian timeEnabled timeRunning entries) =
      entries.map fun x => ⟨w.state.readId, x.value, x.id⟩ := by
  rw [eventRows, ← hlen, eventsOf_groupRecord, List.map_map]
  rfl

/-- After a read of the whole record the rows of its numbers are written. -/
theorem flushGroup_groupRecord {w : World} {group : PerfStatGroup InternC}
    {timeEnabled timeRunning : UInt64} {entries : List PerfGroupReadEntry}
    (hlen : entries.length = group.len)
    (hread : w.readAnswer env group =
      .ok (groupRecord env.endian timeEnabled timeRunning entries)) :
    w.flushGroup env group = (w.afterRead env group).writeRows env
      (.read ⟨w.state.readId, (env.now w.kernel).getD 0, timeRunning, timeEnabled⟩ ::
        (entries.map fun x => ⟨w.state.readId, x.value, x.id⟩).map .event) := by
  rcases w.flushGroup_cases env group with ⟨e, herr, -⟩ | ⟨bs, hok, heq⟩
  · rw [hread] at herr
    cases herr
  · obtain rfl : groupRecord env.endian timeEnabled timeRunning entries = bs := by
      rw [hread] at hok
      exact Except.ok.inj hok
    rw [heq, decoded_groupRecord hlen, flushRows, eventRows_groupRecord hlen, readRow,
      infoOf_groupRecord]

theorem writeOk_of_flush {w : World} {group : PerfStatGroup InternC} {rows : List CsvRow}
    (hok : Kernel.Extends Syscall.writeOk w.kernel
      ((w.afterRead env group).writeRows env rows).kernel) :
    Kernel.Extends Syscall.writeOk (w.afterRead env group).kernel
      ((w.afterRead env group).writeRows env rows).kernel := by
  obtain ⟨tail, htrace, htail⟩ := hok
  obtain ⟨tail', htrace', -⟩ := writeRows_extends env rows (w.afterRead env group)
  refine ⟨tail', htrace', fun s hs => htail s ?_⟩
  rw [htrace', afterRead, Kernel.trace_note, List.append_assoc] at htrace
  rw [← List.append_cancel_left htrace]
  simp [hs]

theorem numbers_event_lines (rows : List EventRow) :
    (rows.map EventRow.line).map (fun line =>
        (number eventHeader line "read_id", number eventHeader line "count",
          number eventHeader line "event_id")) =
      rows.map fun row => (some row.readId.toNat, some row.count.toNat, some row.id.toNat) := by
  rw [List.map_map]
  apply List.map_congr_left
  intro row _
  obtain ⟨hid, hcount, hevent⟩ := row.number_line
  simp only [Function.comp, hid, hcount, hevent]

/-- The record the kernel encoded comes back out of the text of the files. -/
theorem flush_round_trip {w : World} {group : PerfStatGroup InternC}
    {timeEnabled timeRunning : UInt64} {entries : List PerfGroupReadEntry}
    (hlen : entries.length = group.len)
    (hread : w.readAnswer env group =
      .ok (groupRecord env.endian timeEnabled timeRunning entries)) :
    (w.readGroup env group).1 =
        .ok (⟨timeEnabled, timeRunning⟩, entries.map fun x => ⟨x.id, x.value⟩) ∧
      (Kernel.Extends Syscall.writeOk w.kernel (w.flushGroup env group).kernel →
        ∃ readLine eventLines,
          (w.flushGroup env group).state.csv =
            { event := w.state.csv.event ++ unlines eventLines
              read := w.state.csv.read ++ unlines [readLine]
              desc := w.state.csv.desc } ∧
          '\n' ∉ readLine ∧ (∀ line ∈ eventLines, '\n' ∉ line) ∧
          number (headerOf CsvWriter.openFiles.read) readLine "read_id" =
            some w.state.readId.toNat ∧
          number (headerOf CsvWriter.openFiles.read) readLine "time_running" =
            some timeRunning.toNat ∧
          number (headerOf CsvWriter.openFiles.read) readLine "time_enabled" =
            some timeEnabled.toNat ∧
          eventLines.map (fun line =>
              (number (headerOf CsvWriter.openFiles.event) line "read_id",
                number (headerOf CsvWriter.openFiles.event) line "count",
                number (headerOf CsvWriter.openFiles.event) line "event_id")) =
            entries.map fun x =>
              (some w.state.readId.toNat, some x.value.toNat, some x.id.toNat)) := by
  have hfits : (groupRecord env.endian timeEnabled timeRunning entries).length ≤
      necessaryBufferSize group.len := by
    rw [length_groupRecord, hlen]
  refine ⟨?_, fun hwrites => ?_⟩
  · have hresult : (w.readGroup env group).1 = (w.state.reader.readGroup env.endian group
        (env.alloc w.kernel (necessaryBufferSize group.len)) (w.readAnswer env group)).1 := rfl
    rw [hresult, hread, w.state.reader.readGroup_ok _ _ _ hfits, ← decoded, decoded_groupRecord hlen,
      infoOf_groupRecord, ← hlen, eventsOf_groupRecord]
  · obtain ⟨hevent, hreadHeader⟩ := headerOf_openFiles
    have hflush := flushGroup_groupRecord hlen hread
    set row : ReadRow :=
      ⟨w.state.readId, (env.now w.kernel).getD 0, timeRunning, timeEnabled⟩ with hrow
    set rows : List EventRow := entries.map fun x => ⟨w.state.readId, x.value, x.id⟩ with hrows
    rw [hflush] at hwrites
    have hcsv := writeRows_csv env _ _ (writeOk_of_flush hwrites)
    rw [List.foldl_cons, foldl_append_events] at hcsv
    obtain ⟨hid, -, hrunning, henabled⟩ := row.number_line
    refine ⟨row.line, rows.map EventRow.line, by rw [hflush]; exact hcsv, row.newline_notMem_line,
      ?_, hreadHeader ▸ hid, hreadHeader ▸ hrunning, hreadHeader ▸ henabled, ?_⟩
    · intro line hline
      obtain ⟨r, -, rfl⟩ := List.mem_map.1 hline
      exact r.newline_notMem_line
    · rw [hevent, numbers_event_lines, hrows, List.map_map]
      rfl

theorem flushGroup_writeOk (hwrite : ∀ k row, env.os.write k row = none) (w : World)
    (group : PerfStatGroup InternC) :
    Kernel.Extends Syscall.writeOk w.kernel (w.flushGroup env group).kernel := by
  have hread : Kernel.Extends Syscall.writeOk w.kernel (w.afterRead env group).kernel :=
    .one (s := w.readCall env group) rfl trivial
  rcases w.flushGroup_cases env group with ⟨e, -, heq⟩ | ⟨bs, -, heq⟩
  · exact heq ▸ hread
  · rw [heq]
    refine hread.trans ⟨_, writeRows_trace_granted hwrite _ _, fun s hs => ?_⟩
    obtain ⟨row, -, rfl⟩ := List.mem_map.1 hs
    trivial

/-- The steady machine after a while: every group was enabled for 900 nanoseconds and running for
700, and the event with id `n` stands at `n + 40`. -/
def counted : Env :=
  { Env.steady with
    os := { Os.steady with
      read := fun k fd len =>
        match k.find fd with
        | none => .error .EBADF
        | some ev =>
          let record := groupRecord .little 900 700
            ((k.members ev.leader).map fun ev => ⟨ev.id + 40, ev.id⟩)
          if h : record.length ≤ len then .ok ⟨record, h⟩ else .error ENOSPC } }

/-- The second group of a thread, read through the reader that has read both groups before. -/
theorem flush_round_trip_counted :
    let w := (new [cyclesGroup, pairGroup]).run counted [.openTid 1, .flushAll]
    ∃ first group, w.state.groups.lookup 1 = some [first, group] ∧
      (w.readGroup counted group).1 = .ok (⟨900, 700⟩, [⟨1, 41⟩, ⟨2, 42⟩]) ∧
        ∃ readLine eventLines,
          (w.flushGroup counted group).state.csv =
            { event := w.state.csv.event ++ unlines eventLines
              read := w.state.csv.read ++ unlines [readLine]
              desc := w.state.csv.desc } ∧
          number (headerOf CsvWriter.openFiles.read) readLine "read_id" = some 2 ∧
          number (headerOf CsvWriter.openFiles.read) readLine "time_running" = some 700 ∧
          number (headerOf CsvWriter.openFiles.read) readLine "time_enabled" = some 900 ∧
          eventLines.map (fun line =>
              (number (headerOf CsvWriter.openFiles.event) line "read_id",
                number (headerOf CsvWriter.openFiles.event) line "count",
                number (headerOf CsvWriter.openFiles.event) line "event_id")) =
            [(some 2, some 41, some 1), (some 2, some 42, some 2)] := by
  intro w
  let group : PerfStatGroup InternC :=
    ⟨⟨[⟨4, ⟨"cycles".toList, nul_notMem_cycles⟩⟩, ⟨5, ⟨"branches".toList, by decide⟩⟩],
      List.cons_ne_nil _ _⟩⟩
  have hreadId : w.state.readId = 2 := by rfl
  have hread : w.readAnswer counted group =
      .ok (groupRecord counted.endian 900 700 [⟨41, 1⟩, ⟨42, 2⟩]) := by rfl
  obtain ⟨hdecoded, hlines⟩ := flush_round_trip (by rfl) hread
  obtain ⟨readLine, eventLines, hcsv, -, -, hid, hrunning, henabled, hevents⟩ :=
    hlines (flushGroup_writeOk (fun _ _ => rfl) w group)
  rw [hreadId] at hid hevents
  exact ⟨⟨.newSingle ⟨3, ⟨"cycles".toList, nul_notMem_cycles⟩⟩⟩, group, by rfl, hdecoded,
    readLine, eventLines, hcsv, hid, hrunning, henabled, hevents⟩

end World

end Threadstat

import Threadstat.State.Steps
import Threadstat.Lib.Journal

/-!
# What is written to the three files, and when

Every write the daemon attempts is allowed by the trace before it (`Allowed`): a read row follows
the read it reports, an event row follows the read row of its read and names a member of the group
that was read, and a description is written once for an event under the name and thread it was
opened with.  This discipline is kept by every operation; what the files say about each other is
then read off the trace alone.
-/

namespace Threadstat

open CsvText WordBytes Journal

abbrev readCount (log : List (Syscall InternC)) : Nat := marks Syscall.isRead log

abbrev readStamps (log : List (Syscall InternC)) : List (Nat × Syscall InternC) :=
  stamps Syscall.isRead log

def openedIn (log : List (Syscall InternC)) : List (PerfEvent InternC) :=
  log.filterMap Syscall.opened?

/-- Describing the event was tried: its id could not be had, or its row was handed to the file. -/
def DescribeTried (log : List (Syscall InternC)) (ev : PerfEvent InternC) : Prop :=
  (∃ fd e, .ioctlId fd (some ev.id) (.error e) ∈ log) ∨
    ∃ answer, .write (.desc ⟨ev.id, ev.config.name.text, ev.pid⟩) answer ∈ log

def Allowed (log : List (Syscall InternC)) : Syscall InternC → Prop
  | .write (.read row) _ =>
      row.readId = UInt64.ofNat (readCount log - 1) ∧ 0 < readCount log ∧
        ∀ old answer, (readCount log, .write (.read old) answer) ∉ readStamps log
  | .write (.event row) _ =>
      row.readId = UInt64.ofNat (readCount log - 1) ∧ 0 < readCount log ∧
        (∃ read answer, (readCount log, .write (.read read) answer) ∈ readStamps log ∧
          read.readId = row.readId) ∧
        (∃ ev ∈ openedIn log, ev.id = row.id ∧ DescribeTried log ev ∧ ∃ fd len answer,
          (readCount log, .read fd (some ev.leader) len answer) ∈ readStamps log) ∧
        ∀ old answer, (readCount log, .write (.event old) answer) ∈ readStamps log →
          old.id ≠ row.id
  | .write (.desc row) _ =>
      (∃ ev ∈ openedIn log, ev.id = row.id ∧ ev.config.name.text = row.name ∧
          ev.pid = row.tid) ∧
        ∀ old answer, .write (.desc old) answer ∈ log → old.id ≠ row.id
  | _ => True

theorem openedIn_append (log tail : List (Syscall InternC)) :
    openedIn (log ++ tail) = openedIn log ++ openedIn tail := by
  simp [openedIn]

theorem DescribeTried.append {log : List (Syscall InternC)} {ev : PerfEvent InternC}
    (h : DescribeTried log ev) (tail : List (Syscall InternC)) :
    DescribeTried (log ++ tail) ev := by
  rcases h with ⟨fd, e, h⟩ | ⟨answer, h⟩
  · exact .inl ⟨fd, e, List.mem_append_left _ h⟩
  · exact .inr ⟨answer, List.mem_append_left _ h⟩

theorem allowed_of_not_isWrite {s : Syscall InternC} (hs : ¬ s.isWrite)
    (log : List (Syscall InternC)) : Allowed log s := by
  cases s with
  | write => exact absurd trivial hs
  | _ => trivial

/-! ## What a disciplined trace says -/

section Disciplined

variable {log : List (Syscall InternC)}

theorem mem_split_of_stamp {i : Nat} {s : Syscall InternC} (h : (i, s) ∈ readStamps log) :
    ∃ pre post, log = pre ++ s :: post ∧ i = readCount (pre ++ [s]) := by
  induction log using List.reverseRecOn with
  | nil => simp [stamps, stampFrom] at h
  | append_singleton log b ih =>
      rcases (mem_stamps_snoc Syscall.isRead).1 h with h | ⟨rfl, rfl⟩
      · obtain ⟨pre, post, rfl, hi⟩ := ih h
        exact ⟨pre, post ++ [b], by simp, hi⟩
      · exact ⟨log, [], rfl, rfl⟩

theorem readCount_write (row : CsvRow) (answer : Except IoError Unit) :
    readCount (log ++ [.write row answer]) = readCount log := by
  simp [readCount, marks_singleton, Syscall.isRead]

theorem readCount_append_of_not_isRead {tail : List (Syscall InternC)}
    (htail : ∀ s ∈ tail, s.isRead = false) : readCount (log ++ tail) = readCount log := by
  have hnone : tail.countP Syscall.isRead = 0 := by
    rw [List.countP_eq_zero]
    exact fun s hs => by simp [htail s hs]
  rw [readCount, marks_append, marks, marks, hnone, Nat.add_zero]
  rfl

theorem stamp_mem_of_prefix {pre post : List (Syscall InternC)} {p : Nat × Syscall InternC}
    (h : p ∈ readStamps pre) : p ∈ readStamps (pre ++ post) :=
  mem_stamps_append Syscall.isRead h

theorem allowed_at (h : Disciplined Allowed log) {i : Nat} {row : CsvRow}
    {answer : Except IoError Unit} (hmem : (i, .write row answer) ∈ readStamps log) :
    ∃ pre post, log = pre ++ .write row answer :: post ∧ i = readCount pre ∧
      Allowed pre (.write row answer) := by
  obtain ⟨pre, post, rfl, hi⟩ := mem_split_of_stamp hmem
  exact ⟨pre, post, rfl, by rwa [readCount_write] at hi, h.allowed⟩

theorem read_stamp (h : Disciplined Allowed log) {i : Nat} {row : ReadRow}
    {answer : Except IoError Unit} (hmem : (i, .write (.read row) answer) ∈ readStamps log) :
    0 < i ∧ row.readId = UInt64.ofNat (i - 1) := by
  obtain ⟨pre, post, -, rfl, hid, hpos, -⟩ := allowed_at h hmem
  exact ⟨hpos, hid⟩

theorem event_stamp (h : Disciplined Allowed log) {i : Nat} {row : EventRow}
    {answer : Except IoError Unit} (hmem : (i, .write (.event row) answer) ∈ readStamps log) :
    0 < i ∧ row.readId = UInt64.ofNat (i - 1) := by
  obtain ⟨pre, post, -, rfl, hid, hpos, -⟩ := allowed_at h hmem
  exact ⟨hpos, hid⟩

/-- The event of an event row: opened, of the group that was read, and described as far as that
went. -/
theorem event_source (h : Disciplined Allowed log) {i : Nat} {row : EventRow}
    {answer : Except IoError Unit} (hmem : (i, .write (.event row) answer) ∈ readStamps log) :
    ∃ ev ∈ openedIn log, ev.id = row.id ∧ DescribeTried log ev ∧ ∃ fd len answer,
      (i, .read fd (some ev.leader) len answer) ∈ readStamps log := by
  obtain ⟨pre, post, rfl, rfl, -, -, -, ⟨ev, hev, hid, htried, fd, len, a, hread⟩, -⟩ :=
    allowed_at h hmem
  exact ⟨ev, by rw [openedIn_append]; exact List.mem_append_left _ hev, hid, htried.append _,
    fd, len, a, stamp_mem_of_prefix hread⟩

theorem event_read (h : Disciplined Allowed log) {i : Nat} {row : EventRow}
    {answer : Except IoError Unit} (hmem : (i, .write (.event row) answer) ∈ readStamps log) :
    ∃ read answer, (i, .write (.read read) answer) ∈ readStamps log ∧
      read.readId = row.readId := by
  obtain ⟨pre, post, rfl, rfl, -, -, ⟨read, a, hread, hid⟩, -⟩ := allowed_at h hmem
  exact ⟨read, a, stamp_mem_of_prefix hread, hid⟩

theorem desc_source (h : Disciplined Allowed log) {row : DescRow}
    {answer : Except IoError Unit} (hmem : .write (.desc row) answer ∈ log) :
    ∃ ev ∈ openedIn log, ev.id = row.id ∧ ev.config.name.text = row.name ∧ ev.pid = row.tid := by
  obtain ⟨pre, post, rfl⟩ := List.append_of_mem hmem
  obtain ⟨⟨ev, hev, hrest⟩, -⟩ := h.allowed
  exact ⟨ev, by rw [openedIn_append]; exact List.mem_append_left _ hev, hrest⟩

end Disciplined

/-! ## The files and the trace -/

def csvOf (log : List (Syscall InternC)) : CsvWriter where
  event := unlines (eventHeader :: (log.filterMap Syscall.eventRow?).map EventRow.line)
  read := unlines (readHeader :: (log.filterMap Syscall.readRow?).map ReadRow.line)
  desc := unlines (descHeader :: (log.filterMap Syscall.descRow?).map DescRow.line)

theorem csvOf_quiet (log : List (Syscall InternC)) {tail : List (Syscall InternC)}
    (htail : ∀ s ∈ tail, ¬ s.isWrite) : csvOf (log ++ tail) = csvOf log := by
  have hnone : ∀ {R : Type} (row? : Syscall InternC → Option R),
      (∀ s, ¬ s.isWrite → row? s = none) → tail.filterMap row? = [] := by
    intro R row? hrow
    rw [List.filterMap_eq_nil_iff]
    exact fun s hs => hrow s (htail s hs)
  have hevent := hnone Syscall.eventRow? fun s hs => by
    cases s <;> first | rfl | exact absurd trivial hs
  have hread := hnone Syscall.readRow? fun s hs => by
    cases s <;> first | rfl | exact absurd trivial hs
  have hdesc := hnone Syscall.descRow? fun s hs => by
    cases s <;> first | rfl | exact absurd trivial hs
  simp only [csvOf, List.filterMap_append, hevent, hread, hdesc, List.append_nil]

theorem csvOf_write (log : List (Syscall InternC)) (row : CsvRow) (answer : Except IoError Unit) :
    csvOf (log ++ [.write row answer]) = match answer with
      | .ok () => (csvOf log).append row
      | .error _ => csvOf log := by
  have hlines : ∀ (header : Str) (ls : List Str) (l : Str),
      unlines (header :: (ls ++ [l])) = unlines (header :: ls) ++ unlines [l] := by
    intro header ls l
    rw [← List.cons_append, unlines_append]
  cases answer with
  | error e =>
      cases row <;>
        simp [csvOf, List.filterMap_cons, Syscall.eventRow?, Syscall.readRow?, Syscall.descRow?]
  | ok _ =>
      cases row <;>
        simp [csvOf, CsvWriter.append, List.filterMap_cons, Syscall.eventRow?, Syscall.readRow?,
          Syscall.descRow?, hlines]

namespace World

variable (env : Env)

/-- The state agrees with the trace, and the trace is disciplined. -/
structure Journaled (w : World) : Prop where
  kernel : w.kernel.Ok
  disciplined : Disciplined Allowed w.kernel.trace
  readId : w.state.readId = UInt64.ofNat (readCount w.kernel.trace)
  files : w.state.csv = csvOf w.kernel.trace

theorem new_journaled (configs : List (NonEmpty (PerfConfig InternC))) :
    (new configs).Journaled :=
  ⟨Kernel.init_ok, .nil, rfl, rfl⟩

theorem Journaled.quiet {w w' : World} (h : w.Journaled) (hk : w'.kernel.Ok)
    (hreadId : w'.state.readId = w.state.readId) (hcsv : w'.state.csv = w.state.csv)
    (hcalls : Kernel.Extends (fun s => ¬ s.isWrite ∧ s.isRead = false) w.kernel w'.kernel) :
    w'.Journaled := by
  obtain ⟨tail, htrace, htail⟩ := hcalls
  refine ⟨hk, ?_, ?_, ?_⟩
  · rw [htrace]
    exact h.disciplined.append_free fun s hs => allowed_of_not_isWrite (htail s hs).1
  · rw [hreadId, h.readId, htrace, readCount_append_of_not_isRead fun s hs => (htail s hs).2]
  · rw [hcsv, h.files, htrace, csvOf_quiet _ fun s hs => (htail s hs).1]

theorem Journaled.writeRow {w : World} (h : w.Journaled) {row : CsvRow}
    (hallowed : ∀ answer, Allowed w.kernel.trace (.write row answer)) :
    (w.writeRow env row).Journaled := by
  refine ⟨?_, ?_, ?_, ?_⟩
  · rw [writeRow_kernel]
    exact h.kernel.note rfl
  · rw [writeRow_kernel]
    exact .snoc h.disciplined (hallowed _)
  · rw [writeRow_readId, h.readId, writeRow_kernel, Kernel.trace_note, readCount_write]
  · rw [writeRow_csv, writeRow_kernel, Kernel.trace_note, h.files]
    exact (csvOf_write _ _ _).symm

/-! ## Flushing -/

/-- The group is the kernel's, and describing each of its events was tried. -/
def Described (k : Kernel InternC) (tid : Pid) (group : PerfStatGroup InternC) : Prop :=
  ∃ leader, Backs k tid leader group ∧ ∀ ev ∈ k.members leader, DescribeTried k.trace ev

theorem Described.same {w w' : World} (h : SameGroups w w') {tid : Pid}
    {group : PerfStatGroup InternC} (hgroup : Described w.kernel tid group) :
    Described w'.kernel tid group := by
  obtain ⟨leader, hbacks, htried⟩ := hgroup
  obtain ⟨tail, htrace, -⟩ := h.calls
  refine ⟨leader, h.backs hbacks, fun ev hev => ?_⟩
  rw [htrace]
  exact (htried ev (h.members leader ▸ hev)).append _

/-- A group read fills the whole record of the group the descriptor leads, or fails. -/
def GroupReads (env : Env) : Prop :=
  ∀ (k : Kernel InternC) (fd : RawFd) (len : Nat) (ev : PerfEvent InternC) bs,
    k.find fd = some ev → ev.leader = ev.id → ev.config.attr.readFormat = groupReadFormat →
    env.os.read k fd len = .ok bs →
    ∃ timeEnabled timeRunning entries,
      bs.val = groupRecord env.endian timeEnabled timeRunning entries ∧
        entries.map (·.id) = (k.members ev.id).map (·.id)

variable {env}

/-- Under a kernel that reads whole groups, what a flush decodes are the group's own members. -/
theorem eventsOf_decoded (hreads : GroupReads env) {w : World} (hk : w.kernel.Ok) {tid : Pid}
    {leader : UInt64} {group : PerfStatGroup InternC} (hbacks : Backs w.kernel tid leader group)
    {bs : List UInt8} (hanswer : w.readAnswer env group = .ok bs) :
    (eventsOf env.endian (w.decoded env group bs) group.len).map (·.id) =
      (w.kernel.members leader).map (·.id) := by
  obtain ⟨ev, rest, hmembers, htable, hid, hfd, hformat⟩ := hbacks.leader_event
  have hfind : w.kernel.find group.leaderFd = some ev := hfd ▸ hk.find_eq htable
  have hleader : ev.leader = ev.id := by
    have hev : ev ∈ w.kernel.members leader := by simp [hmembers]
    rw [(Kernel.mem_members.1 hev).2, hid]
  simp only [readAnswer, Kernel.read, hfind, Option.map_some] at hanswer
  cases hread : env.os.read w.kernel group.leaderFd (necessaryBufferSize group.len) with
  | error e => simp [hread, Except.map] at hanswer
  | ok answer =>
      simp only [hread, Except.map, Except.ok.injEq] at hanswer
      obtain ⟨te, tr, entries, hrecord, hids⟩ :=
        hreads _ _ _ _ _ hfind hleader hformat hread
      rw [hid] at hids
      have hlen : entries.length = group.len := by
        rw [← hbacks.length_members, ← List.length_map (f := (·.id)), hids, List.length_map]
      have hbs : bs.length = necessaryBufferSize group.len := by
        rw [← hanswer, hrecord, length_groupRecord, hlen]
      rw [decoded, w.state.reader.decoded_of_length_eq _ _ hbs, ← hanswer, hrecord, ← hlen,
        eventsOf_groupRecord, List.map_map]
      exact hids

theorem readCount_afterRead (w : World) (group : PerfStatGroup InternC) :
    readCount (w.afterRead env group).kernel.trace = readCount w.kernel.trace + 1 := by
  simp [World.afterRead, readCount, marks_singleton, readCall, Syscall.isRead]

theorem Journaled.afterRead {w : World} (h : w.Journaled) (group : PerfStatGroup InternC) :
    (w.afterRead env group).Journaled := by
  refine ⟨h.kernel.note rfl, .snoc h.disciplined trivial, ?_, ?_⟩
  · rw [readCount_afterRead, UInt64.ofNat_add, ← h.readId]
    rfl
  · rw [World.afterRead, Kernel.trace_note, csvOf_quiet _ (by simp [readCall, Syscall.isWrite]),
      ← h.files]

theorem no_stamp_afterRead {w : World} {group : PerfStatGroup InternC} {row : CsvRow}
    {answer : Except IoError Unit} :
    (readCount (w.afterRead env group).kernel.trace, .write row answer) ∉
      readStamps (w.afterRead env group).kernel.trace := by
  intro hmem
  rw [readCount_afterRead, World.afterRead, Kernel.trace_note] at hmem
  rcases (mem_stamps_snoc Syscall.isRead).1 hmem with hold | ⟨-, hcall⟩
  · exact absurd (stamp_le_marks Syscall.isRead hold) (Nat.not_succ_le_self _)
  · cases hcall

/-- What the event rows of one read need: the read and its read row, and distinct ids of members
of the group that are not yet in the file under this read. -/
structure EventsReady (log : List (Syscall InternC)) (rows : List EventRow) : Prop where
  pos : 0 < readCount log
  readId : ∀ row ∈ rows, row.readId = UInt64.ofNat (readCount log - 1)
  read : ∃ read answer, (readCount log, .write (.read read) answer) ∈ readStamps log ∧
    read.readId = UInt64.ofNat (readCount log - 1)
  source : ∀ row ∈ rows, ∃ ev ∈ openedIn log, ev.id = row.id ∧ DescribeTried log ev ∧
    ∃ fd len answer, (readCount log, .read fd (some ev.leader) len answer) ∈ readStamps log
  new : ∀ row ∈ rows, ∀ old answer,
    (readCount log, .write (.event old) answer) ∈ readStamps log → old.id ≠ row.id
  nodup : (rows.map (·.id)).Nodup

theorem EventsReady.allowed {log : List (Syscall InternC)} {row : EventRow}
    {rows : List EventRow} (h : EventsReady log (row :: rows)) (answer : Except IoError Unit) :
    Allowed log (.write (.event row) answer) := by
  have hid := h.readId row (by simp)
  obtain ⟨read, a, hread, hrid⟩ := h.read
  exact ⟨hid, h.pos, ⟨read, a, hread, hrid.trans hid.symm⟩, h.source row (by simp),
    h.new row (by simp)⟩

theorem EventsReady.tail {log : List (Syscall InternC)} {row : EventRow} {rows : List EventRow}
    (h : EventsReady log (row :: rows)) (answer : Except IoError Unit) :
    EventsReady (log ++ [.write (.event row) answer]) rows := by
  have hnodup := List.nodup_cons.1 h.nodup
  have hcount : readCount (log ++ [.write (.event row) answer]) = readCount log :=
    readCount_write _ _
  obtain ⟨read, a, hread, hrid⟩ := h.read
  refine ⟨by rw [hcount]; exact h.pos, ?_, ⟨read, a, ?_, ?_⟩, ?_, ?_, hnodup.2⟩
  · rw [hcount]
    exact fun r hr => h.readId r (by simp [hr])
  · rw [hcount]
    exact stamp_mem_of_prefix hread
  · rw [hcount]
    exact hrid
  · intro r hr
    obtain ⟨ev, hev, hid, htried, fd, len, b, hb⟩ := h.source r (by simp [hr])
    refine ⟨ev, by rw [openedIn_append]; exact List.mem_append_left _ hev, hid, htried.append _,
      fd, len, b, ?_⟩
    rw [hcount]
    exact stamp_mem_of_prefix hb
  · intro r hr old b hold
    rw [hcount] at hold
    rcases (mem_stamps_snoc Syscall.isRead).1 hold with hold | ⟨-, heq⟩
    · exact h.new r (by simp [hr]) old b hold
    · cases heq
      intro hid
      exact hnodup.1 (List.mem_map.2 ⟨r, hr, hid.symm⟩)

theorem Journaled.writeEvents {w : World} (h : w.Journaled) {rows : List EventRow}
    (hready : EventsReady w.kernel.trace rows) :
    (w.writeRows env (rows.map .event)).Journaled := by
  induction rows generalizing w with
  | nil => exact h
  | cons row rows ih =>
      refine ih (h.writeRow env fun answer => hready.allowed answer) ?_
      rw [writeRow_kernel, Kernel.trace_note]
      exact hready.tail _

theorem readCall_mem_stamps (w : World) (group : PerfStatGroup InternC) :
    (readCount (w.afterRead env group).kernel.trace, w.readCall env group) ∈
      readStamps (w.afterRead env group).kernel.trace := by
  rw [World.afterRead, Kernel.trace_note]
  exact last_mem_stamps Syscall.isRead _ _

theorem eventsReady_afterRead {w : World} (h : w.Journaled) {leader : UInt64}
    {group : PerfStatGroup InternC} {record : List UInt8}
    (hfind : (w.kernel.find group.leaderFd).map (·.id) = some leader)
    (htried : ∀ ev ∈ w.kernel.members leader, DescribeTried w.kernel.trace ev)
    (hids : (eventsOf env.endian record group.len).map (·.id) =
      (w.kernel.members leader).map (·.id)) {read : ReadRow} (hread : read.readId = w.state.readId)
    (answer : Except IoError Unit) :
    EventsReady ((w.afterRead env group).kernel.trace ++ [.write (.read read) answer])
      (w.eventRows env group record) := by
  -- `readId` numbers this read, which is the last one in the trace so far.
  have hcount : readCount ((w.afterRead env group).kernel.trace ++ [.write (.read read) answer]) =
      readCount w.kernel.trace + 1 := by
    rw [readCount_write, readCount_afterRead]
  have hnum : w.state.readId = UInt64.ofNat (readCount w.kernel.trace + 1 - 1) := h.readId
  refine ⟨by rw [hcount]; exact Nat.succ_pos _, ?_, ⟨read, answer, last_mem_stamps _ _ _, ?_⟩,
    ?_, ?_, ?_⟩
  · intro row hrow
    obtain ⟨event, -, rfl⟩ := List.mem_map.1 hrow
    rw [hcount]
    exact hnum
  · rw [hcount, hread]
    exact hnum
  · intro row hrow
    obtain ⟨event, hevent, rfl⟩ := List.mem_map.1 hrow
    obtain ⟨ev, hev, hid⟩ := List.mem_map.1 (hids ▸ List.mem_map_of_mem hevent)
    obtain ⟨htable, hleader⟩ := Kernel.mem_members.1 hev
    refine ⟨ev, ?_, hid, ?_, group.leaderFd, necessaryBufferSize group.len,
      w.readAnswer env group, ?_⟩
    · rw [World.afterRead, Kernel.trace_note, List.append_assoc, openedIn_append]
      exact List.mem_append_left _ (h.kernel.mem_opened htable)
    · rw [World.afterRead, Kernel.trace_note, List.append_assoc]
      exact (htried ev hev).append _
    · rw [readCount_write, hleader, ← hfind]
      exact stamp_mem_of_prefix (readCall_mem_stamps w group)
  · intro row _ old answer' hold
    rw [readCount_write] at hold
    rcases (mem_stamps_snoc Syscall.isRead).1 hold with hold | ⟨-, heq⟩
    · exact absurd hold no_stamp_afterRead
    · cases heq
  · have hnodup := h.kernel.members_nodup leader
    rw [← hids] at hnodup
    rw [eventRows, List.map_map]
    exact hnodup

theorem flushGroup_journaled (hreads : GroupReads env) {w : World} (h : w.Journaled) {tid : Pid}
    {group : PerfStatGroup InternC} (hgroup : Described w.kernel tid group) :
    (w.flushGroup env group).Journaled := by
  obtain ⟨leader, hbacks, htried⟩ := hgroup
  rcases w.flushGroup_cases env group with ⟨e, -, heq⟩ | ⟨bs, hanswer, heq⟩
  · exact heq ▸ h.afterRead group
  · have hids := eventsOf_decoded hreads h.kernel hbacks hanswer
    rw [heq, flushRows]
    have hread : ((w.afterRead env group).writeRow env
        (.read (w.readRow env (w.decoded env group bs)))).Journaled := by
      apply (h.afterRead group).writeRow env
      intro answer
      rw [Allowed, readCount_afterRead]
      exact ⟨h.readId, Nat.succ_pos _, fun old a hold =>
        no_stamp_afterRead (by rw [readCount_afterRead]; exact hold)⟩
    apply hread.writeEvents
    rw [writeRow_kernel, Kernel.trace_note]
    exact eventsReady_afterRead h (hbacks.find_leaderFd h.kernel) htried hids rfl _

theorem flushGroups_journaled (hreads : GroupReads env) {w : World} (h : w.Journaled)
    {groups : TidGroups} (hgroups : ∀ group ∈ groups, ∃ tid, Described w.kernel tid group) :
    (w.flushGroups env groups).Journaled := by
  induction groups generalizing w with
  | nil => exact h
  | cons group groups ih =>
      obtain ⟨tid, hgroup⟩ := hgroups group (by simp)
      refine ih (flushGroup_journaled hreads h hgroup) fun g hg => ?_
      obtain ⟨tid', hg'⟩ := hgroups g (by simp [hg])
      exact ⟨tid', hg'.same (flushGroup_same env group w)⟩

/-! ## Describing -/

def Undescribed (log : List (Syscall InternC)) (ev : PerfEvent InternC) : Prop :=
  ∀ row answer, .write (.desc row) answer ∈ log → row.id ≠ ev.id

theorem describe_cases (env : Env) {w : World} (hk : w.kernel.Ok) {ev : PerfEvent InternC}
    (hev : ev ∈ w.kernel.table) :
    (∃ e, w.describe env ev.pid (.of ev) =
        { w with kernel := w.kernel.note (.ioctlId ev.fd (some ev.id) (.error e)) }) ∨
      w.describe env ev.pid (.of ev) =
        World.writeRow env (.desc ⟨ev.id, ev.config.name.text, ev.pid⟩)
          { w with kernel := w.kernel.note (.ioctlId ev.fd (some ev.id) (.ok ev.id)) } := by
  have hfind := hk.find_eq hev
  cases hos : env.os.ioctlId w.kernel ev.fd with
  | some e =>
      have hcall : w.kernel.ioctlId env.os ev.fd =
          (.error e, w.kernel.note (.ioctlId ev.fd (some ev.id) (.error e))) := by
        simp [Kernel.ioctlId, hos, hfind]
      refine .inl ⟨e, ?_⟩
      simp only [describe, PerfStat.fd_of, hcall]
  | none =>
      have hcall : w.kernel.ioctlId env.os ev.fd =
          (.ok ev.id, w.kernel.note (.ioctlId ev.fd (some ev.id) (.ok ev.id))) := by
        simp [Kernel.ioctlId, hos, hfind]
      right
      simp only [describe, PerfStat.fd_of, hcall]
      rfl

/-- One `describe`: the journal is kept, describing the event was tried, and nothing was written
about any other event. -/
theorem describe_journaled (env : Env) {w : World} (h : w.Journaled) {ev : PerfEvent InternC}
    (hev : ev ∈ w.kernel.table) (hnew : Undescribed w.kernel.trace ev) :
    (w.describe env ev.pid (.of ev)).Journaled ∧
      DescribeTried (w.describe env ev.pid (.of ev)).kernel.trace ev ∧
        ∀ other : PerfEvent InternC, other.id ≠ ev.id → Undescribed w.kernel.trace other →
          Undescribed (w.describe env ev.pid (.of ev)).kernel.trace other := by
  have hnote : ∀ answer, World.Journaled
      { w with kernel := w.kernel.note (.ioctlId ev.fd (some ev.id) answer) } := fun answer =>
    h.quiet (h.kernel.note rfl) rfl rfl
      (.one (s := .ioctlId ev.fd (some ev.id) answer) rfl ⟨id, rfl⟩)
  rcases describe_cases env h.kernel hev with ⟨e, heq⟩ | heq
  · rw [heq]
    refine ⟨hnote _, .inl ⟨ev.fd, e, by simp⟩, fun other _ hother row answer hmem => ?_⟩
    exact hother row answer (by simpa using hmem)
  · set w₁ : World :=
      { w with kernel := w.kernel.note (.ioctlId ev.fd (some ev.id) (.ok ev.id)) } with hw₁
    set row : DescRow := ⟨ev.id, ev.config.name.text, ev.pid⟩ with hrow
    have hread : w₁.Journaled := hnote _
    rw [heq]
    have htrace : (w₁.writeRow env (.desc row)).kernel.trace = w.kernel.trace ++
        [.ioctlId ev.fd (some ev.id) (.ok ev.id),
          .write (.desc row) (w₁.writeAnswer env (.desc row))] := by
      rw [writeRow_kernel, Kernel.trace_note]
      simp [hw₁]
    refine ⟨hread.writeRow env fun answer => ⟨⟨ev, ?_, rfl, rfl, rfl⟩, ?_⟩,
      .inr ⟨w₁.writeAnswer env (.desc row), by simp [hrow]⟩, ?_⟩
    · exact hread.kernel.mem_opened hev
    · intro old a hold
      exact hnew old a (by simpa [hw₁] using hold)
    · intro other hne hother r a hmem
      rw [htrace, List.mem_append] at hmem
      rcases hmem with hmem | hmem
      · exact hother r a hmem
      · have hrow' : r = row := by
          simp only [List.mem_cons, reduceCtorEq, Syscall.write.injEq, CsvRow.desc.injEq,
            List.not_mem_nil, or_false, false_or] at hmem
          exact hmem.1
        rw [hrow']
        exact fun hid => hne hid.symm

/-- Describing newly opened events one after the other. -/
theorem describeAll_journaled (env : Env) {w : World} (h : w.Journaled) {tid : Pid}
    {evs : List (PerfEvent InternC)} (htable : ∀ ev ∈ evs, ev ∈ w.kernel.table)
    (hpid : ∀ ev ∈ evs, ev.pid = tid) (hnodup : (evs.map (·.id)).Nodup)
    (hnew : ∀ ev ∈ evs, Undescribed w.kernel.trace ev) :
    (w.describeAll env tid (evs.map .of)).Journaled ∧
      ∀ ev ∈ evs, DescribeTried (w.describeAll env tid (evs.map .of)).kernel.trace ev := by
  induction evs generalizing w with
  | nil => exact ⟨h, by simp⟩
  | cons ev evs ih =>
      obtain rfl := hpid ev (by simp)
      obtain ⟨hids, hnodup⟩ := List.nodup_cons.1 hnodup
      obtain ⟨hj, htried, hothers⟩ := describe_journaled env h (htable ev (by simp))
        (hnew ev (by simp))
      have hsame := describe_same env ev.pid (.of ev) w
      have hrest := ih hj (fun e he => hsame.table ▸ htable e (by simp [he]))
        (fun e he => hpid e (by simp [he])) hnodup fun e he =>
          hothers e (fun heq => hids (List.mem_map.2 ⟨e, he, heq⟩)) (hnew e (by simp [he]))
      refine ⟨hrest.1, fun e he => ?_⟩
      rcases List.mem_cons.1 he with rfl | he
      · obtain ⟨tail, htrace, -⟩ :=
          (describeAll_same env e.pid (evs.map .of) (w.describe env e.pid (.of e))).calls
        rw [List.map_cons, describeAll, List.foldl_cons, ← describeAll, htrace]
        exact htried.append _
      · exact hrest.2 e he

/-! ## The three operations -/

variable (env)

structure Recorded (w : World) : Prop extends w.Journaled, w.Ok where
  described : ∀ tid groups, w.state.groups.lookup tid = some groups →
    ∀ group ∈ groups, Described w.kernel tid group

theorem new_recorded (configs : List (NonEmpty (PerfConfig InternC))) : (new configs).Recorded :=
  { new_journaled configs, new_ok configs with described := by simp [new] }

variable {env}

theorem members_of_held {k : Kernel InternC} (hk : k.Ok) {tid : Pid} {leaders : List UInt64}
    {groups : TidGroups} (hbacks : List.Forall₂ (Backs k tid) leaders groups)
    (hnodup : leaders.Nodup) :
    ∃ evs : List (PerfEvent InternC),
      evs.map PerfStat.of = groups.flatMap (fun group => group.fds.toList) ∧
        (∀ ev, ev ∈ evs ↔ ∃ leader ∈ leaders, ev ∈ k.members leader) ∧
        (evs.map (·.id)).Nodup := by
  induction hbacks with
  | nil => exact ⟨[], rfl, by simp, List.nodup_nil⟩
  | @cons leader group leaders groups hb _ ih =>
      obtain ⟨hleader, hleaders⟩ := List.nodup_cons.1 hnodup
      obtain ⟨evs, hstats, hmem, hids⟩ := ih hleaders
      refine ⟨k.members leader ++ evs, ?_, ?_, ?_⟩
      · rw [List.map_append, hb.stats, hstats, List.flatMap_cons]
      · simp [hmem]
      · rw [List.map_append, List.nodup_append]
        refine ⟨hk.members_nodup leader, hids, ?_⟩
        intro id hid id' hid'
        obtain ⟨ev, hev, rfl⟩ := List.mem_map.1 hid
        obtain ⟨ev', hev', rfl⟩ := List.mem_map.1 hid'
        obtain ⟨leader', hl', hev'⟩ := (hmem ev').1 hev'
        obtain ⟨htable, hlead⟩ := Kernel.mem_members.1 hev
        obtain ⟨htable', hlead'⟩ := Kernel.mem_members.1 hev'
        intro heq
        have hsame := hk.eq_of_id (hk.mem_opened htable) (hk.mem_opened htable') heq
        rw [hsame, hlead'] at hlead
        exact hleader (hlead ▸ hl')

theorem OpensGroups.events {k k' : Kernel InternC} {tid : Pid} {groups : TidGroups}
    (h : OpensGroups k k' tid groups) :
    ∃ evs : List (PerfEvent InternC),
      evs.map PerfStat.of = groups.flatMap (fun group => group.fds.toList) ∧
        (evs.map (·.id)).Nodup ∧
        (∀ ev ∈ evs, ev ∈ k'.table ∧ ev.pid = tid ∧ ∀ old ∈ k.opened, old.id ≠ ev.id) ∧
        ∀ group ∈ groups, ∃ leader, Backs k' tid leader group ∧
          ∀ ev ∈ k'.members leader, ev ∈ evs := by
  obtain ⟨leaders, hbacks, hnodup⟩ := h.held
  obtain ⟨evs, hstats, hevs, hids⟩ := members_of_held h.ok hbacks hnodup
  refine ⟨evs, hstats, hids, ?_, ?_⟩
  · intro ev hev
    obtain ⟨leader, -, hmember⟩ := (hevs ev).1 hev
    have htable := (Kernel.mem_members.1 hmember).1
    have hstat : PerfStat.of ev ∈ groups.flatMap fun group => group.fds.toList :=
      hstats ▸ List.mem_map_of_mem hev
    obtain ⟨group, hgroup, hstat⟩ := List.mem_flatMap.1 hstat
    obtain ⟨ev', htable', hof, hpid, hfresh⟩ := h.fresh group hgroup _ hstat
    obtain rfl : ev' = ev := h.ok.eq_of_fd htable' htable (congrArg PerfStat.fd hof)
    exact ⟨htable, hpid, hfresh⟩
  · intro group hgroup
    obtain ⟨leader, hleader, hb⟩ := FirstError.exists_of_mem_right hbacks hgroup
    exact ⟨leader, hb, fun ev hev => (hevs ev).2 ⟨leader, hleader, hev⟩⟩

/-- No row can mention an event that was opened after it. -/
theorem undescribed_of_new {log tail : List (Syscall InternC)} (h : Disciplined Allowed log)
    (htail : ∀ s ∈ tail, s.isFdCall) {ev : PerfEvent InternC}
    (hnew : ∀ old ∈ openedIn log, old.id ≠ ev.id) : Undescribed (log ++ tail) ev := by
  intro row answer hrow
  rcases List.mem_append.1 hrow with hrow | hrow
  · obtain ⟨old, hold, hid, -⟩ := desc_source h hrow
    rw [← hid]
    exact hnew old hold
  · exact absurd (htail _ hrow) id

theorem Journaled.afterOpen {w : World} (h : w.Journaled) (tid : Pid) :
    (w.afterOpen env tid).Journaled := by
  have hopens := openGroups_spec env tid w.state.eventConfigs h.kernel
  refine h.quiet hopens.ok rfl rfl (hopens.calls.mono fun s hs => ?_)
  cases s <;> first | exact ⟨id, rfl⟩ | exact absurd hs id

theorem openTid_recorded (tid : Pid) {w : World} (h : w.Recorded) :
    (w.openTid env tid).Recorded := by
  by_cases hmem : tid ∈ w.state.groups
  · rwa [openTid_of_mem env hmem]
  · have hok := openTid_ok env tid h.toOk
    have hopens := openGroups_spec env tid w.state.eventConfigs h.kernel
    obtain ⟨tail, htrace, htail⟩ := hopens.calls
    obtain ⟨evs, hstats, hids, hevs, hgroups⟩ := hopens.events
    have hnew : ∀ ev ∈ evs, Undescribed (w.afterOpen env tid).kernel.trace ev := by
      intro ev hev
      rw [afterOpen, htrace]
      exact undescribed_of_new h.disciplined htail (hevs ev hev).2.2
    have hdescribed := describeAll_journaled env (h.toJournaled.afterOpen tid)
      (fun ev hev => (hevs ev hev).1) (fun ev hev => (hevs ev hev).2.1) hids hnew
    have hsame := describeAll_same env tid
      ((w.openedGroups env tid).flatMap fun group => group.fds.toList) (w.afterOpen env tid)
    rw [hstats] at hdescribed
    rw [openTid_of_notMem env hmem] at hok ⊢
    refine { hdescribed.1, hok with described := ?_ }
    intro tid' groups hlookup group hgroup
    by_cases heq : tid' = tid
    · subst heq
      obtain rfl : w.openedGroups env tid' = groups := by simpa using hlookup
      obtain ⟨leader, hb, hmembers⟩ := hgroups group hgroup
      refine ⟨leader, hsame.backs hb, fun ev hev => hdescribed.2 ev (hmembers ev ?_)⟩
      exact hsame.members leader ▸ hev
    · dsimp only at hlookup
      rw [AList.lookup_insert_ne heq, hsame.groups] at hlookup
      obtain ⟨leader, hb, htried⟩ := h.described tid' groups hlookup group hgroup
      refine Described.same hsame ⟨leader, hopens.frame h.kernel hb, fun ev hev => ?_⟩
      have hmembers := hopens.members leader (hb.leader_opened h.kernel)
      rw [afterOpen, htrace]
      exact (htried ev (hmembers ▸ hev)).append _

theorem closeTid_recorded (hreads : GroupReads env) (tid : Pid) {w : World} (h : w.Recorded) :
    (w.closeTid env tid).Recorded := by
  cases hlookup : w.state.groups.lookup tid with
  | none => rwa [closeTid_of_none env hlookup]
  | some groups =>
      have hok := closeTid_ok env tid h.toOk
      have hremoved : (w.afterRemove tid).Journaled :=
        ⟨h.kernel, h.disciplined, h.readId, h.files⟩
      have hflushed : ((w.afterRemove tid).flushGroups env groups).Journaled :=
        flushGroups_journaled hreads hremoved fun group hgroup =>
          ⟨tid, h.described tid groups hlookup group hgroup⟩
      have hsame := flushGroups_same env groups (w.afterRemove tid)
      have hcalls := closeAll_trace ((w.afterRemove tid).flushGroups env groups).kernel
        (groups.flatMap fun group => group.fds.toList)
      rw [closeTid_of_some env hlookup] at hok ⊢
      have hclosed : World.Journaled
          { (w.afterRemove tid).flushGroups env groups with
            kernel := closeAll ((w.afterRemove tid).flushGroups env groups).kernel
              (groups.flatMap fun group => group.fds.toList) } := hflushed.quiet
        (closeAll_ok hflushed.kernel _) rfl rfl ⟨_, hcalls, fun s hs => by
          obtain ⟨stat, -, rfl⟩ := List.mem_map.1 hs
          exact ⟨id, rfl⟩⟩
      refine { hclosed, hok with described := ?_ }
      intro tid' groups' hlookup' group' hgroup'
      dsimp only at hlookup'
      have hne : tid' ≠ tid := by
        rintro rfl
        rw [hsame.groups] at hlookup'
        simp [afterRemove] at hlookup'
      rw [hsame.groups, afterRemove, AList.lookup_erase_ne hne] at hlookup'
      obtain ⟨leader, hb, htried⟩ := Described.same hsame
        (h.described tid' groups' hlookup' group' hgroup')
      have hheld : Held ((w.afterRemove tid).flushGroups env groups).kernel tid groups :=
        (h.held tid groups hlookup).of_table_eq hsame.table
      have hmembers := members_close_other hflushed.kernel hne hheld hb
      refine ⟨leader, hb.of_members_eq hmembers, fun ev hev => ?_⟩
      dsimp only at hev ⊢
      rw [hcalls]
      exact (htried ev (hmembers ▸ hev)).append _

theorem flushEntries_journaled (hreads : GroupReads env) {w : World} (h : w.Journaled)
    {entries : List (Sigma fun _ : Pid => TidGroups)}
    (hentries : ∀ entry ∈ entries, ∀ group ∈ entry.2, Described w.kernel entry.1 group) :
    (entries.foldl (fun w entry => w.flushGroups env entry.2) w).Journaled := by
  induction entries generalizing w with
  | nil => exact h
  | cons entry entries ih =>
      refine ih (flushGroups_journaled hreads h fun group hgroup =>
        ⟨entry.1, hentries entry (by simp) group hgroup⟩) fun e he group hgroup => ?_
      exact (hentries e (by simp [he]) group hgroup).same (flushGroups_same env entry.2 w)

theorem flushAll_recorded (hreads : GroupReads env) {w : World} (h : w.Recorded) :
    (w.flushAll env).Recorded := by
  have hsame := flushAll_same env w
  have hflushed : (w.flushAll env).Journaled := by
    refine flushEntries_journaled hreads h.toJournaled fun entry hentry group hgroup => ?_
    have hmem := (env.iter_perm w.kernel _).mem_iff.1 hentry
    exact h.described entry.1 entry.2 (AList.mem_lookup_iff.2 hmem) group hgroup
  refine { hflushed, hsame.ok h.toOk with described := ?_ }
  intro tid groups hlookup group hgroup
  rw [hsame.groups] at hlookup
  exact (h.described tid groups hlookup group hgroup).same hsame

theorem exec_recorded (hreads : GroupReads env) (op : Op) {w : World} (h : w.Recorded) :
    (w.exec env op).Recorded := by
  cases op with
  | openTid tid => exact openTid_recorded tid h
  | closeTid tid => exact closeTid_recorded hreads tid h
  | flushAll => exact flushAll_recorded hreads h

theorem run_recorded (hreads : GroupReads env) (configs : List (NonEmpty (PerfConfig InternC)))
    (ops : List Op) : ((new configs).run env ops).Recorded :=
  run_induction env (new_recorded configs) (fun _ op h => exec_recorded hreads op h) ops

end World

end Threadstat

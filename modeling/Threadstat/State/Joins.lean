import Threadstat.State.Steady

/-!
# Joining the three files

What the files say about each other, for every run: a description row describes the event it is
joined with, and rows that share a `read_id` come from one read of one group.  The second half
holds as long as `read_id` has not wrapped around.  It also says exactly which failures leave an
event row without its read row or its description row.
-/

namespace Threadstat

open CsvText WordBytes Journal

/-! ## The rows in the files -/

/-- The rows of the read file, each with the number of the group read before it. -/
abbrev fileReads (log : List (Syscall InternC)) : List (Nat × ReadRow) :=
  select Syscall.isRead Syscall.readRow? log

abbrev fileEvents (log : List (Syscall InternC)) : List (Nat × EventRow) :=
  select Syscall.isRead Syscall.eventRow? log

abbrev fileDescs (log : List (Syscall InternC)) : List DescRow := log.filterMap Syscall.descRow?

theorem readRow?_eq_some {s : Syscall InternC} {row : ReadRow} :
    s.readRow? = some row ↔ s = .write (.read row) (.ok ()) := by
  constructor
  · intro h
    cases s with
    | write r answer =>
        cases r <;> cases answer <;> simp_all [Syscall.readRow?]
    | _ => cases h
  · rintro rfl
    rfl

theorem eventRow?_eq_some {s : Syscall InternC} {row : EventRow} :
    s.eventRow? = some row ↔ s = .write (.event row) (.ok ()) := by
  constructor
  · intro h
    cases s with
    | write r answer =>
        cases r <;> cases answer <;> simp_all [Syscall.eventRow?]
    | _ => cases h
  · rintro rfl
    rfl

theorem descRow?_eq_some {s : Syscall InternC} {row : DescRow} :
    s.descRow? = some row ↔ s = .write (.desc row) (.ok ()) := by
  constructor
  · intro h
    cases s with
    | write r answer =>
        cases r <;> cases answer <;> simp_all [Syscall.descRow?]
    | _ => cases h
  · rintro rfl
    rfl

section Rows

variable {log : List (Syscall InternC)}

theorem mem_fileReads {i : Nat} {row : ReadRow} :
    (i, row) ∈ fileReads log ↔ (i, .write (.read row) (.ok ())) ∈ readStamps log := by
  simp [fileReads, mem_select, readRow?_eq_some]

theorem mem_fileEvents {i : Nat} {row : EventRow} :
    (i, row) ∈ fileEvents log ↔ (i, .write (.event row) (.ok ())) ∈ readStamps log := by
  simp [fileEvents, mem_select, eventRow?_eq_some]

theorem mem_fileDescs {row : DescRow} :
    row ∈ fileDescs log ↔ .write (.desc row) (.ok ()) ∈ log := by
  simp [fileDescs, descRow?_eq_some]

theorem fileReads_increasing (h : Disciplined Allowed log) :
    (fileReads log).Pairwise fun p q => p.1 < q.1 := by
  induction h with
  | nil => exact List.Pairwise.nil
  | @snoc log s _ hallowed ih =>
      rw [fileReads, select_snoc, List.pairwise_append]
      refine ⟨ih, by cases s.readRow? <;> simp, ?_⟩
      intro p hp q hq
      cases hrow : s.readRow? with
      | none => simp [hrow] at hq
      | some row =>
          obtain rfl := readRow?_eq_some.1 hrow
          simp only [hrow, Option.map_some, Option.toList_some, List.mem_singleton] at hq
          have hcount : q.1 = readCount log := by rw [hq]; exact readCount_write _ _
          rw [hcount]
          rcases Nat.lt_or_eq_of_le (select_le_marks _ hp) with hlt | heq
          · exact hlt
          · -- The row was only allowed because this read had no row yet.
            obtain ⟨-, -, hfree⟩ := hallowed
            exact absurd (heq ▸ mem_fileReads.1 hp) (hfree p.2 _)

/-- No event has two rows under one read. -/
theorem fileEvents_once (h : Disciplined Allowed log) :
    (fileEvents log).Pairwise fun p q => p.1 = q.1 → p.2.id ≠ q.2.id := by
  induction h with
  | nil => exact List.Pairwise.nil
  | @snoc log s _ hallowed ih =>
      rw [fileEvents, select_snoc, List.pairwise_append]
      refine ⟨ih, by cases s.eventRow? <;> simp, ?_⟩
      intro p hp q hq
      cases hrow : s.eventRow? with
      | none => simp [hrow] at hq
      | some row =>
          obtain rfl := eventRow?_eq_some.1 hrow
          simp only [hrow, Option.map_some, Option.toList_some, List.mem_singleton] at hq
          have hcount : q.1 = readCount log := by rw [hq]; exact readCount_write _ _
          intro heq
          obtain ⟨-, -, -, -, hfree⟩ := hallowed
          rw [hq]
          exact hfree p.2 _ (hcount ▸ heq ▸ mem_fileEvents.1 hp)

theorem fileDescs_nodup (h : Disciplined Allowed log) :
    ((fileDescs log).map (·.id)).Nodup := by
  induction h with
  | nil => exact List.nodup_nil
  | @snoc log s _ hallowed ih =>
      rw [fileDescs, List.filterMap_append, List.map_append, List.nodup_append]
      refine ⟨ih, by cases hs : s.descRow? <;> simp [hs], ?_⟩
      intro id hid id' hid'
      obtain ⟨old, hold, rfl⟩ := List.mem_map.1 hid
      obtain ⟨row, hrow, rfl⟩ := List.mem_map.1 hid'
      obtain ⟨s', hs', hrow'⟩ := List.mem_filterMap.1 hrow
      obtain rfl := List.mem_singleton.1 hs'
      obtain rfl := descRow?_eq_some.1 hrow'
      exact hallowed.2 old _ (mem_fileDescs.1 hold)

/-! ## Below the wrap-around -/

theorem readId_lt {i j : Nat} (hi : 0 < i) (hj : j ≤ 2 ^ 64) (hij : i < j) :
    UInt64.ofNat (i - 1) < UInt64.ofNat (j - 1) := by
  have hsize : UInt64.size = 2 ^ 64 := rfl
  rw [UInt64.lt_iff_toNat_lt, UInt64.toNat_ofNat_of_lt' (by omega),
    UInt64.toNat_ofNat_of_lt' (by omega)]
  omega

theorem eq_of_readId_eq {i j : Nat} (hi : 0 < i) (hj : 0 < j) (hi' : i ≤ 2 ^ 64)
    (hj' : j ≤ 2 ^ 64) (heq : UInt64.ofNat (i - 1) = UInt64.ofNat (j - 1)) : i = j := by
  rcases Nat.lt_trichotomy i j with hlt | rfl | hlt
  · exact absurd heq (UInt64.ne_of_lt (readId_lt hi hj' hlt))
  · rfl
  · exact absurd heq.symm (UInt64.ne_of_lt (readId_lt hj hi' hlt))

structure Numbered (log : List (Syscall InternC)) (i : Nat) (id : UInt64) : Prop where
  pos : 0 < i
  le : i ≤ readCount log
  id_eq : id = UInt64.ofNat (i - 1)

theorem Numbered.unique (hcount : readCount log ≤ 2 ^ 64) {i j : Nat} {id : UInt64}
    (h : Numbered log i id) (h' : Numbered log j id) : i = j := by
  apply eq_of_readId_eq h.pos h'.pos (h.le.trans hcount) (h'.le.trans hcount)
  rw [← h.id_eq, h'.id_eq]

theorem fileReads_numbered (h : Disciplined Allowed log) {p : Nat × ReadRow}
    (hp : p ∈ fileReads log) : Numbered log p.1 p.2.readId := by
  obtain ⟨hpos, hid⟩ := read_stamp h (mem_fileReads.1 hp)
  exact ⟨hpos, select_le_marks _ hp, hid⟩

theorem fileEvents_numbered (h : Disciplined Allowed log) {p : Nat × EventRow}
    (hp : p ∈ fileEvents log) : Numbered log p.1 p.2.readId := by
  obtain ⟨hpos, hid⟩ := event_stamp h (mem_fileEvents.1 hp)
  exact ⟨hpos, select_le_marks _ hp, hid⟩

def ReadOf (log : List (Syscall InternC)) (i : Nat) (leader : UInt64) : Prop :=
  ∃ fd len answer, (i, .read fd (some leader) len answer) ∈ readStamps log

def MemberRow (log : List (Syscall InternC)) (leader : UInt64) (row : EventRow) : Prop :=
  ∃ ev ∈ openedIn log, ev.id = row.id ∧ ev.leader = leader

/-- Rows joined by `read_id` belong together. -/
structure ReadJoins (log : List (Syscall InternC)) : Prop where
  increasing : ((log.filterMap Syscall.readRow?).map (·.readId)).Pairwise (· < ·)
  one_read : ∀ id, ∃ i leader, (∀ p ∈ fileReads log, p.2.readId = id → p.1 = i) ∧
    ∀ p ∈ fileEvents log, p.2.readId = id →
      p.1 = i ∧ ReadOf log i leader ∧ MemberRow log leader p.2
  contiguous : ∀ (rows : List EventRow), log.filterMap Syscall.eventRow? = rows →
    ∀ (i j k : Nat) (hij : i ≤ j) (hjk : j ≤ k) (hk : k < rows.length),
      rows[i].readId = rows[k].readId → rows[j].readId = rows[k].readId
  once : ((log.filterMap Syscall.eventRow?).map fun row => (row.readId, row.id)).Nodup

/-- Rows joined by `event_id` belong together. -/
structure DescJoins (log : List (Syscall InternC)) : Prop where
  nodup : ((log.filterMap Syscall.descRow?).map (·.id)).Nodup
  ids : ((openedIn log).map (·.id)).Nodup
  source : ∀ row ∈ log.filterMap Syscall.eventRow?, ∃ ev ∈ openedIn log, ev.id = row.id ∧
    ∀ desc ∈ log.filterMap Syscall.descRow?, desc.id = row.id →
      desc.name = ev.config.name.text ∧ desc.tid = ev.pid

theorem descJoins (h : Disciplined Allowed log) (hids : ((openedIn log).map (·.id)).Nodup) :
    DescJoins log := by
  refine ⟨fileDescs_nodup h, hids, fun row hrow => ?_⟩
  rw [← map_snd_select Syscall.isRead, List.mem_map] at hrow
  obtain ⟨p, hp, rfl⟩ := hrow
  obtain ⟨ev, hev, hid, -⟩ := event_source h (mem_fileEvents.1 hp)
  refine ⟨ev, hev, hid, fun desc hdesc heq => ?_⟩
  obtain ⟨ev', hev', hid', hname, hpid⟩ := desc_source h (mem_fileDescs.1 hdesc)
  have hsame : ev' = ev :=
    List.inj_on_of_nodup_map hids hev' hev (by rw [hid', heq, hid])
  exact ⟨by rw [← hname, hsame], by rw [← hpid, hsame]⟩

/-- The event rows of one read report events of the group that was read. -/
theorem memberRow_of_readOf (h : Disciplined Allowed log) {p : Nat × EventRow}
    (hp : p ∈ fileEvents log) {leader : UInt64} (hread : ReadOf log p.1 leader) :
    MemberRow log leader p.2 := by
  obtain ⟨fd, len, answer, hread⟩ := hread
  obtain ⟨ev, hev, hid, -, fd', len', answer', hread'⟩ := event_source h (mem_fileEvents.1 hp)
  -- Both name the read with number `p.1`, and there is only one.
  have hsame := mark_stamp_unique Syscall.isRead hread hread' rfl rfl
  simp only [Syscall.read.injEq, Option.some.injEq] at hsame
  exact ⟨ev, hev, hid, hsame.2.1.symm⟩

theorem readJoins (h : Disciplined Allowed log) (hcount : readCount log ≤ 2 ^ 64) :
    ReadJoins log where
  increasing := by
    rw [← map_snd_select Syscall.isRead, List.map_map, List.pairwise_map]
    refine (fileReads_increasing h).imp_of_mem fun {p q} hp hq hlt => ?_
    have hnum := fileReads_numbered h hp
    have hnum' := fileReads_numbered h hq
    simp only [Function.comp, hnum.id_eq, hnum'.id_eq]
    exact readId_lt hnum.pos (hnum'.le.trans hcount) hlt
  one_read := by
    intro id
    by_cases hevent : ∃ q ∈ fileEvents log, q.2.readId = id
    · obtain ⟨q, hq, rfl⟩ := hevent
      have hnum := fileEvents_numbered h hq
      obtain ⟨ev, -, -, -, hread⟩ := event_source h (mem_fileEvents.1 hq)
      refine ⟨q.1, ev.leader, fun p hp heq => ?_, fun p hp heq => ?_⟩
      · exact (heq ▸ fileReads_numbered h hp).unique hcount hnum
      · have hstamp := (heq ▸ fileEvents_numbered h hp).unique hcount hnum
        exact ⟨hstamp, hread, memberRow_of_readOf h hp (hstamp ▸ hread)⟩
    · by_cases hread : ∃ q ∈ fileReads log, q.2.readId = id
      · obtain ⟨q, hq, rfl⟩ := hread
        refine ⟨q.1, 0, fun p hp heq => ?_, fun p hp heq => absurd ⟨p, hp, heq⟩ hevent⟩
        exact (heq ▸ fileReads_numbered h hp).unique hcount (fileReads_numbered h hq)
      · exact ⟨0, 0, fun p hp heq => absurd ⟨p, hp, heq⟩ hread,
          fun p hp heq => absurd ⟨p, hp, heq⟩ hevent⟩
  contiguous := by
    intro rows hrows i j k hij hjk hk heq
    rw [← map_snd_select Syscall.isRead] at hrows
    subst hrows
    rw [List.length_map] at hk
    simp only [List.getElem_map] at heq ⊢
    apply eq_between EventRow.readId (select_sorted _ _ _) _ _ (by omega) (by omega) hk hij hjk heq
    · intro p hp q hq hid
      exact (hid ▸ fileEvents_numbered h hp).unique hcount (fileEvents_numbered h hq)
    · intro p hp q hq hstamp
      rw [(fileEvents_numbered h hp).id_eq, (fileEvents_numbered h hq).id_eq, hstamp]
  once := by
    rw [← map_snd_select Syscall.isRead, List.map_map, List.Nodup, List.pairwise_map]
    refine (fileEvents_once h).imp_of_mem fun {p q} hp hq hne heq => ?_
    obtain ⟨hreadId, hid⟩ := Prod.mk.inj heq
    have hstamp := (hreadId ▸ fileEvents_numbered h hp).unique hcount (fileEvents_numbered h hq)
    exact hne hstamp hid

end Rows

namespace World

variable {env : Env} (configs : List (NonEmpty (PerfConfig InternC))) (ops : List Op)

/-- For every run and every pattern of failures the files are what the trace says was written,
description rows never mislead, and reads are never confused until `read_id` wraps around. -/
theorem csv_files_join (hreads : GroupReads env) :
    let w := (new configs).run env ops
    w.state.csv = csvOf w.kernel.trace ∧ DescJoins w.kernel.trace ∧
      (readCount w.kernel.trace ≤ 2 ^ 64 → ReadJoins w.kernel.trace) := by
  have h := run_recorded hreads configs ops
  exact ⟨h.files, descJoins h.disciplined h.kernel.ids, readJoins h.disciplined⟩

theorem csv_files_join_steady :
    let w := (new [cyclesGroup]).run Env.steady [.openTid 1, .flushAll, .closeTid 1]
    w.state.csv = csvOf w.kernel.trace ∧ DescJoins w.kernel.trace ∧ ReadJoins w.kernel.trace := by
  have h := csv_files_join [cyclesGroup] [.openTid 1, .flushAll, .closeTid 1] steady_groupReads
  exact ⟨h.1, h.2.1, h.2.2 (by decide)⟩

theorem not_nodup_ofNat {n : Nat} (hn : 2 ^ 64 < n) :
    ¬ ((List.range n).map UInt64.ofNat).Nodup := by
  intro hnodup
  have heq : UInt64.ofNat 0 = UInt64.ofNat (2 ^ 64) := by decide
  have hzero : 0 ∈ List.range n := List.mem_range.2 (by omega)
  have htop : 2 ^ 64 ∈ List.range n := List.mem_range.2 hn
  exact absurd (List.inj_on_of_nodup_map hnodup hzero htop heq) (by decide)

/-- The read after `2 ^ 64` others is numbered zero again. -/
theorem read_id_wraps :
    GroupReads Env.steady ∧
      ¬ ((((new [cyclesGroup]).run Env.steady
        (.openTid 1 :: List.replicate (2 ^ 64 + 1) .flushAll)).kernel.trace.filterMap
          Syscall.readRow?).map (·.readId)).Nodup := by
  refine ⟨steady_groupReads, ?_⟩
  have hgroups : (((new [cyclesGroup]).openTid Env.steady 1).state.groups.entries =
      [⟨1, [⟨.newSingle ⟨3, ⟨"cycles".toList, by decide⟩⟩⟩]⟩]) := by rfl
  have hids := steady_flushAll_reads (openTid_ok Env.steady 1 (new_ok [cyclesGroup])) hgroups
    (by rfl) (by rfl) (2 ^ 64 + 1)
  rw [run, List.foldl_cons, ← run, exec, hids]
  exact not_nodup_ofNat (Nat.lt_succ_self _)

/-- An event row lacks its read row only if writing the read row failed, and lacks its description
only if the id could not be had or writing the description failed. -/
theorem event_rows_referenced (hreads : GroupReads env) :
    let log := ((new configs).run env ops).kernel.trace
    ((new configs).run env ops).state.csv = csvOf log ∧
      ∀ p ∈ fileEvents log,
        ((∃ read, (p.1, read) ∈ fileReads log ∧ read.readId = p.2.readId) ∨
          ∃ read e, (p.1, .write (.read read) (.error e)) ∈ readStamps log ∧
            read.readId = p.2.readId) ∧
        ((∃ desc ∈ fileDescs log, desc.id = p.2.id) ∨
          (∃ fd e, .ioctlId fd (some p.2.id) (.error e) ∈ log) ∨
          ∃ desc e, .write (.desc desc) (.error e) ∈ log ∧ desc.id = p.2.id) := by
  have h := run_recorded hreads configs ops
  refine ⟨h.files, fun p hp => ⟨?_, ?_⟩⟩
  · obtain ⟨read, answer, hread, hid⟩ := event_read h.disciplined (mem_fileEvents.1 hp)
    cases answer with
    | ok _ => exact .inl ⟨read, mem_fileReads.2 hread, hid⟩
    | error e => exact .inr ⟨read, e, hread, hid⟩
  · obtain ⟨ev, -, hid, htried, -⟩ := event_source h.disciplined (mem_fileEvents.1 hp)
    rcases htried with ⟨fd, e, hioctl⟩ | ⟨answer, hdesc⟩
    · exact .inr (.inl ⟨fd, e, hid ▸ hioctl⟩)
    · cases answer with
      | ok _ => exact .inl ⟨_, mem_fileDescs.2 hdesc, hid⟩
      | error e => exact .inr (.inr ⟨_, e, hdesc, hid⟩)

/-- The steady machine, except that some rows are not written and some ids are not told. -/
def faulty (write : CsvRow → Option IoError) (ioctlId : RawFd → Option IoError) : Env :=
  { Env.steady with
    os := { Os.steady with
      write := fun _ row => write row
      ioctlId := fun _ fd => ioctlId fd } }

theorem faulty_groupReads (write : CsvRow → Option IoError) (ioctlId : RawFd → Option IoError) :
    GroupReads (faulty write ioctlId) := steady_groupReads

def lostRows : CsvRow → Option IoError
  | .read row => if row.readId = 0 then some ENOSPC else none
  | .desc row => if row.id = 1 then some ENOSPC else none
  | .event _ => none

def untold (fd : RawFd) : Option IoError := if fd = 3 then some .EBADF else none

/-- Of three events one has no read row and one no description because it was not written, and one
no description because its id was not told. -/
theorem event_rows_referenced_faulty :
    let log := ((new [cyclesGroup, pairGroup]).run (faulty lostRows untold)
      [.openTid 1, .flushAll]).kernel.trace
    fileEvents log = [(1, ⟨0, 0, 0⟩), (2, ⟨1, 0, 1⟩), (2, ⟨1, 0, 2⟩)] ∧
      fileReads log = [(2, ⟨1, 0, 0, 0⟩)] ∧ fileDescs log = [⟨2, "branches".toList, 1⟩] ∧
      (∃ read e, (1, .write (.read read) (.error e)) ∈ readStamps log ∧ read.readId = 0) ∧
      ∀ id, id = 0 ∨ id = 1 → (∃ fd e, .ioctlId fd (some id) (.error e) ∈ log) ∨
        ∃ desc e, .write (.desc desc) (.error e) ∈ log ∧ desc.id = id := by
  intro log
  have hevents : fileEvents log = [(1, ⟨0, 0, 0⟩), (2, ⟨1, 0, 1⟩), (2, ⟨1, 0, 2⟩)] := by rfl
  have hfileReads : fileReads log = [(2, ⟨1, 0, 0, 0⟩)] := by rfl
  have hfileDescs : fileDescs log = [⟨2, "branches".toList, 1⟩] := by rfl
  obtain ⟨-, h⟩ := event_rows_referenced [cyclesGroup, pairGroup] [.openTid 1, .flushAll]
    (faulty_groupReads lostRows untold)
  have hfirst := h (1, ⟨0, 0, 0⟩) (by rw [hevents]; simp)
  have hsecond := h (2, ⟨1, 0, 1⟩) (by rw [hevents]; simp)
  have hundescribed : ∀ id, id ≠ 2 → ¬ ∃ desc ∈ fileDescs log, desc.id = id := by
    rintro id hid ⟨desc, hdesc, rfl⟩
    rw [hfileDescs, List.mem_singleton] at hdesc
    exact hid (by rw [hdesc])
  refine ⟨hevents, hfileReads, hfileDescs, hfirst.1.resolve_left ?_, ?_⟩
  · rintro ⟨read, hread, -⟩
    rw [hfileReads, List.mem_singleton] at hread
    cases (Prod.mk.inj hread).1
  · rintro id (rfl | rfl)
    · exact hfirst.2.resolve_left (hundescribed 0 (by decide))
    · exact hsecond.2.resolve_left (hundescribed 1 (by decide))

def Referenced (log : List (Syscall InternC)) : Prop :=
  ∀ row ∈ log.filterMap Syscall.eventRow?,
    (∃ read ∈ log.filterMap Syscall.readRow?, read.readId = row.readId) ∧
      ∃ desc ∈ log.filterMap Syscall.descRow?, desc.id = row.id

theorem Referenced.ne_nil {log : List (Syscall InternC)} (h : Referenced log) (row : EventRow)
    (hevents : log.filterMap Syscall.eventRow? = [row]) :
    log.filterMap Syscall.readRow? ≠ [] ∧ log.filterMap Syscall.descRow? ≠ [] := by
  obtain ⟨⟨read, hread, -⟩, desc, hdesc, -⟩ := h row (by rw [hevents]; simp)
  exact ⟨List.ne_nil_of_mem hread, List.ne_nil_of_mem hdesc⟩

def lostReads : CsvRow → Option IoError
  | .read _ => some ENOSPC
  | _ => none

def lostDescs : CsvRow → Option IoError
  | .desc _ => some ENOSPC
  | _ => none

/-- One thread with one event, opened and read once. -/
def flushedOnce (env : Env) : List (Syscall InternC) :=
  ((new [cyclesGroup]).run env [.openTid 1, .flushAll]).kernel.trace

/-- The event row is written although its read row was lost, although its description was lost, and
although there was no description because the id was not told. -/
theorem event_row_unreferenced :
    (GroupReads (faulty lostReads fun _ => none) ∧
        ¬ Referenced (flushedOnce (faulty lostReads fun _ => none))) ∧
      (GroupReads (faulty lostDescs fun _ => none) ∧
        ¬ Referenced (flushedOnce (faulty lostDescs fun _ => none))) ∧
      GroupReads (faulty (fun _ => none) untold) ∧
        ¬ Referenced (flushedOnce (faulty (fun _ => none) untold)) := by
  refine ⟨⟨faulty_groupReads _ _, fun h => ?_⟩, ⟨faulty_groupReads _ _, fun h => ?_⟩,
    faulty_groupReads _ _, fun h => ?_⟩
  · exact (h.ne_nil ⟨0, 0, 0⟩ (by rfl)).1 (by rfl)
  · exact (h.ne_nil ⟨0, 0, 0⟩ (by rfl)).2 (by rfl)
  · exact (h.ne_nil ⟨0, 0, 0⟩ (by rfl)).2 (by rfl)

end World

end Threadstat

import Threadstat.Basic
import Threadstat.Lib.CsvText

/-!
# The rows of the three CSV files

What one call of `write_event`, `write_read` and `write_desc` puts in its file, as a value and
as the line of text it becomes.
-/

namespace Threadstat

open CsvText

structure EventRow where
  readId : UInt64
  count : UInt64
  id : UInt64
  deriving DecidableEq, Repr

/-- The arguments of `write_read`; the time stamp is a `u128`. -/
structure ReadRow where
  readId : UInt64
  timestamp : Nat
  timeRunning : UInt64
  timeEnabled : UInt64
  deriving DecidableEq, Repr

structure DescRow where
  id : UInt64
  name : Str
  tid : Pid
  deriving DecidableEq, Repr

inductive CsvRow where
  | event (row : EventRow)
  | read (row : ReadRow)
  | desc (row : DescRow)
  deriving DecidableEq, Repr

/-- `"{read_id},{count},{id}"`. -/
def EventRow.line (r : EventRow) : Str :=
  join [decimal r.readId.toNat, decimal r.count.toNat, decimal r.id.toNat]

/-- `"{read_id},{timestamp},{time_running},{time_enabled}"`. -/
def ReadRow.line (r : ReadRow) : Str :=
  join [decimal r.readId.toNat, decimal r.timestamp, decimal r.timeRunning.toNat,
    decimal r.timeEnabled.toNat]

/-- `"{id},{name},{tid}"`. -/
def DescRow.line (r : DescRow) : Str :=
  join [decimal r.id.toNat, r.name, signed r.tid.toInt]

def eventHeader : Str := "read_id,count,event_id".toList
def readHeader : Str := "read_id,timestamp,time_running,time_enabled".toList
def descHeader : Str := "event_id,name,pid".toList

theorem EventRow.fields_line (r : EventRow) :
    fields r.line = [decimal r.readId.toNat, decimal r.count.toNat, decimal r.id.toNat] := by
  apply fields_join (by simp)
  simp [plain_decimal]

theorem ReadRow.fields_line (r : ReadRow) :
    fields r.line = [decimal r.readId.toNat, decimal r.timestamp, decimal r.timeRunning.toNat,
      decimal r.timeEnabled.toNat] := by
  apply fields_join (by simp)
  simp [plain_decimal]

theorem EventRow.number_line (r : EventRow) :
    number eventHeader r.line "read_id" = some r.readId.toNat ∧
      number eventHeader r.line "count" = some r.count.toNat ∧
      number eventHeader r.line "event_id" = some r.id.toNat := by
  have hheader : fields eventHeader =
      ["read_id".toList, "count".toList, "event_id".toList] := by decide
  have hline : fields r.line = [r.readId.toNat, r.count.toNat, r.id.toNat].map decimal :=
    r.fields_line
  exact ⟨number_of_fields hheader hline (by decide) 0 (by decide) (by simp) rfl,
    number_of_fields hheader hline (by decide) 1 (by decide) (by simp) rfl,
    number_of_fields hheader hline (by decide) 2 (by decide) (by simp) rfl⟩

theorem ReadRow.number_line (r : ReadRow) :
    number readHeader r.line "read_id" = some r.readId.toNat ∧
      number readHeader r.line "timestamp" = some r.timestamp ∧
      number readHeader r.line "time_running" = some r.timeRunning.toNat ∧
      number readHeader r.line "time_enabled" = some r.timeEnabled.toNat := by
  have hheader : fields readHeader = ["read_id".toList, "timestamp".toList,
      "time_running".toList, "time_enabled".toList] := by decide
  have hline : fields r.line = [r.readId.toNat, r.timestamp, r.timeRunning.toNat,
      r.timeEnabled.toNat].map decimal := r.fields_line
  exact ⟨number_of_fields hheader hline (by decide) 0 (by decide) (by simp) rfl,
    number_of_fields hheader hline (by decide) 1 (by decide) (by simp) rfl,
    number_of_fields hheader hline (by decide) 2 (by decide) (by simp) rfl,
    number_of_fields hheader hline (by decide) 3 (by decide) (by simp) rfl⟩

theorem EventRow.newline_notMem_line (r : EventRow) : '\n' ∉ r.line := by
  apply newline_notMem_join
  simp [plain_decimal]

theorem ReadRow.newline_notMem_line (r : ReadRow) : '\n' ∉ r.line := by
  apply newline_notMem_join
  simp [plain_decimal]

/-- A line of the description file: the id, the name and the thread between its commas. -/
def descOfLine (line : Str) : Option (Nat × Str × Int) :=
  match fields line with
  | [id, name, tid] =>
    (parseDecimal id).bind fun id => (parseSigned tid).map fun tid => (id, name, tid)
  | _ => none

theorem DescRow.plain_fields {r : DescRow} (h : Plain r.name) :
    ∀ f ∈ [decimal r.id.toNat, r.name, signed r.tid.toInt], Plain f := by
  simp [plain_decimal, plain_signed, h]

theorem DescRow.fields_line {r : DescRow} (h : Plain r.name) :
    fields r.line = [decimal r.id.toNat, r.name, signed r.tid.toInt] :=
  fields_join (by simp) (DescRow.plain_fields h)

theorem DescRow.newline_notMem_line {r : DescRow} (h : Plain r.name) : '\n' ∉ r.line :=
  newline_notMem_join (DescRow.plain_fields h)

theorem DescRow.ofLine_line {r : DescRow} (h : Plain r.name) :
    descOfLine r.line = some (r.id.toNat, r.name, r.tid.toInt) := by
  rw [descOfLine, DescRow.fields_line h]
  simp

end Threadstat

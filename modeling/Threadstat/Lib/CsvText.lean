import Mathlib.Data.List.Basic
import Mathlib.Tactic.Linarith

/-!
# Comma-separated text

Decimal numerals, and lines made of fields joined by commas.  Nothing is quoted, so reading a
line back needs that no field holds a comma or a line break; numerals never do.
-/

namespace CsvText

abbrev Text := List Char

def decimal (n : Nat) : Text := Nat.toDigits 10 n

def signed (z : Int) : Text := if z < 0 then '-' :: decimal z.natAbs else decimal z.natAbs

/-- The number a non-empty run of decimal digits stands for. -/
def parseDecimal (s : Text) : Option Nat :=
  if s ≠ [] ∧ s.all Char.isDigit then some (Nat.ofDigitChars 10 s 0) else none

def parseSigned : Text → Option Int
  | '+' :: s => (parseDecimal s).map Int.ofNat
  | '-' :: s => (parseDecimal s).map fun n => -Int.ofNat n
  | s => (parseDecimal s).map Int.ofNat

def join (fs : List Text) : Text := [','].intercalate fs

def fields (line : Text) : List Text := line.splitOn ','

/-- Lines, each ended by a line break. -/
def unlines (ls : List Text) : Text := ls.flatMap (· ++ ['\n'])

/-- A text split at its line breaks; what follows the last one is dropped. -/
def lines (text : Text) : List Text := (text.splitOn '\n').dropLast

/-- The field of `line` that stands under the name `col` in `header`. -/
def column (header line : Text) (col : Text) : Option Text :=
  ((fields header).zip (fields line)).lookup col

def number (header line : Text) (col : String) : Option Nat :=
  (column header line col.toList).bind parseDecimal

theorem isDigit_of_mem_decimal {n : Nat} {c : Char} (h : c ∈ decimal n) : c.isDigit = true :=
  Nat.isDigit_of_mem_toDigits (by decide) (by decide) h

@[simp] theorem parseDecimal_decimal (n : Nat) : parseDecimal (decimal n) = some n := by
  have hne : decimal n ≠ [] := Nat.toDigits_ne_nil
  have hall : (decimal n).all Char.isDigit = true :=
    List.all_eq_true.2 fun c hc => isDigit_of_mem_decimal hc
  rw [parseDecimal, if_pos ⟨hne, hall⟩, decimal, Nat.ofDigitChars_ten_toDigits]

theorem parseSigned_of_digit {c : Char} (hc : c.isDigit = true) (s : Text) :
    parseSigned (c :: s) = (parseDecimal (c :: s)).map Int.ofNat := by
  unfold parseSigned
  split
  · next heq =>
    obtain ⟨rfl, -⟩ := List.cons.inj heq
    exact absurd hc (by decide)
  · next heq =>
    obtain ⟨rfl, -⟩ := List.cons.inj heq
    exact absurd hc (by decide)
  · rfl

@[simp] theorem parseSigned_signed (z : Int) : parseSigned (signed z) = some z := by
  unfold signed
  split
  · have habs : -(z.natAbs : Int) = z := by omega
    simpa [parseSigned] using habs
  · have habs : (z.natAbs : Int) = z := by omega
    obtain ⟨c, s, heq⟩ := List.exists_cons_of_ne_nil (l := decimal z.natAbs) Nat.toDigits_ne_nil
    have hc : c.isDigit = true := isDigit_of_mem_decimal (n := z.natAbs) (by rw [heq]; simp)
    rw [heq, parseSigned_of_digit hc, ← heq, parseDecimal_decimal]
    exact congrArg some habs

/-- Text that can stand as a field: no comma and no line break. -/
def Plain (s : Text) : Prop := ',' ∉ s ∧ '\n' ∉ s

theorem plain_decimal (n : Nat) : Plain (decimal n) := by
  constructor <;> intro h <;> exact absurd (isDigit_of_mem_decimal h) (by decide)

theorem plain_signed (z : Int) : Plain (signed z) := by
  have h := plain_decimal z.natAbs
  unfold signed
  split
  · simpa [Plain] using h
  · exact h

theorem fields_join {fs : List Text} (hne : fs ≠ []) (hplain : ∀ f ∈ fs, Plain f) :
    fields (join fs) = fs :=
  List.splitOn_intercalate ',' (fun f hf => (hplain f hf).1) hne

theorem newline_notMem_join {fs : List Text} (hplain : ∀ f ∈ fs, Plain f) : '\n' ∉ join fs := by
  induction fs with
  | nil => simp [join]
  | cons f fs ih =>
      cases fs with
      | nil => simpa [join] using (hplain f (by simp)).2
      | cons g gs =>
          have hrest := ih fun x hx => hplain x (by simp [hx])
          have hf := (hplain f (by simp)).2
          rw [join, List.intercalate_cons_cons]
          simp only [List.append_assoc, List.mem_append, List.cons_append, List.nil_append,
            List.mem_cons]
          rintro (h | h | h)
          · exact hf h
          · exact absurd h (by decide)
          · exact hrest h

@[simp] theorem unlines_append (ls ms : List Text) :
    unlines (ls ++ ms) = unlines ls ++ unlines ms := by
  simp [unlines]

theorem lookup_zip {β : Type*} {names : List Text} {values : List β} (hnodup : names.Nodup)
    {i : Nat} (hi : i < names.length) (hi' : i < values.length) :
    (names.zip values).lookup names[i] = some values[i] := by
  induction names generalizing values i with
  | nil => simp at hi
  | cons name names ih =>
      obtain ⟨hname, hnames⟩ := List.nodup_cons.1 hnodup
      cases values with
      | nil => simp at hi'
      | cons value values =>
          cases i with
          | zero => simp
          | succ i =>
              have hne : ((name :: names)[i + 1] == name) = false := by
                rw [List.getElem_cons_succ, beq_eq_false_iff_ne]
                exact fun heq => hname (heq ▸ List.getElem_mem _)
              rw [List.zip_cons_cons, List.lookup_cons, hne]
              exact ih hnames (by simpa using hi) (by simpa using hi')

/-- A line of numbers is read back by the names its header gives them. -/
theorem number_of_fields {header line : Text} {names : List Text} {values : List Nat}
    (hheader : fields header = names) (hline : fields line = values.map decimal)
    (hnodup : names.Nodup) (i : Nat) (hi : i < names.length) (hi' : i < values.length)
    {col : String} (hcol : names[i] = col.toList) : number header line col = some values[i] := by
  have hlookup : column header line col.toList = some (decimal values[i]) := by
    rw [column, hheader, hline, ← hcol, lookup_zip hnodup hi (by simpa using hi')]
    simp
  rw [number, hlookup, Option.bind_some, parseDecimal_decimal]

theorem lines_unlines {ls : List Text} (h : ∀ l ∈ ls, '\n' ∉ l) : lines (unlines ls) = ls := by
  induction ls with
  | nil => rfl
  | cons l ls ih =>
      have hl := h l (by simp)
      have hrest := ih fun x hx => h x (by simp [hx])
      have hsplit : (unlines (l :: ls)).splitOn '\n' = l :: (unlines ls).splitOn '\n' := by
        rw [unlines, List.flatMap_cons, List.append_assoc]
        exact List.splitOn_append_cons_self_of_not_mem hl _
      rw [lines, hsplit, List.dropLast_cons_of_ne_nil (List.splitOn_ne_nil _ _)]
      exact congrArg (l :: ·) hrest

end CsvText

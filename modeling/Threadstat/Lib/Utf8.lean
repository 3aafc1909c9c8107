import Mathlib.Data.List.TakeWhile
import Mathlib.Data.List.Flatten
import Mathlib.Data.UInt

/-!
# UTF-8 text by byte index

A string is its list of characters; a program that scans its bytes and slices it between two byte
indices depends on how the two views line up.  A slice is refused off a character boundary.
Scanning for ASCII bytes never stops inside a character.
-/

namespace Utf8

def bytes (s : List Char) : List UInt8 := s.flatMap String.utf8EncodeChar

def dropBytes : List Char → Nat → Option (List Char)
  | s, 0 => some s
  | [], _ + 1 => none
  | c :: s, n + 1 => if c.utf8Size ≤ n + 1 then dropBytes s (n + 1 - c.utf8Size) else none

def takeBytes : List Char → Nat → Option (List Char)
  | _, 0 => some []
  | [], _ + 1 => none
  | c :: s, n + 1 =>
    if c.utf8Size ≤ n + 1 then (takeBytes s (n + 1 - c.utf8Size)).map (c :: ·) else none

/-- The string between two byte indices, both on character boundaries and in order. -/
def slice (s : List Char) (start stop : Nat) : Option (List Char) :=
  if start ≤ stop then (dropBytes s start).bind (takeBytes · (stop - start)) else none

@[simp] theorem bytes_nil : bytes [] = [] := rfl

@[simp] theorem bytes_cons (c : Char) (s : List Char) :
    bytes (c :: s) = String.utf8EncodeChar c ++ bytes s := rfl

@[simp] theorem bytes_append (s t : List Char) : bytes (s ++ t) = bytes s ++ bytes t := by
  simp [bytes]

theorem bytes_flatten (pieces : List (List Char)) :
    bytes pieces.flatten = (pieces.map bytes).flatten := by
  induction pieces with
  | nil => rfl
  | cons piece pieces ih =>
      rw [List.flatten_cons, bytes_append, ih, List.map_cons, List.flatten_cons]

/-! ## Slices -/

theorem dropBytes_cons (c : Char) (s : List Char) (n : Nat) :
    dropBytes (c :: s) (c.utf8Size + n) = dropBytes s n := by
  obtain ⟨m, hm⟩ := Nat.exists_eq_add_of_lt (Nat.add_pos_left c.utf8Size_pos n)
  rw [Nat.zero_add] at hm
  rw [hm, dropBytes, if_pos (by omega)]
  congr 1
  omega

theorem takeBytes_cons (c : Char) (s : List Char) (n : Nat) :
    takeBytes (c :: s) (c.utf8Size + n) = (takeBytes s n).map (c :: ·) := by
  obtain ⟨m, hm⟩ := Nat.exists_eq_add_of_lt (Nat.add_pos_left c.utf8Size_pos n)
  rw [Nat.zero_add] at hm
  rw [hm, takeBytes, if_pos (by omega)]
  congr 2
  omega

theorem dropBytes_append (s t : List Char) : dropBytes (s ++ t) (bytes s).length = some t := by
  induction s with
  | nil => cases t <;> rfl
  | cons c s ih =>
      rw [List.cons_append, bytes_cons, List.length_append, String.length_utf8EncodeChar,
        dropBytes_cons]
      exact ih

theorem takeBytes_append (s t : List Char) : takeBytes (s ++ t) (bytes s).length = some s := by
  induction s with
  | nil => cases t <;> rfl
  | cons c s ih =>
      rw [List.cons_append, bytes_cons, List.length_append, String.length_utf8EncodeChar,
        takeBytes_cons, ih]
      rfl

theorem slice_append (s t u : List Char) :
    slice (s ++ t ++ u) (bytes s).length ((bytes s).length + (bytes t).length) = some t := by
  rw [slice, if_pos (Nat.le_add_right _ _), List.append_assoc, dropBytes_append,
    Nat.add_sub_cancel_left]
  exact takeBytes_append t u

/-! ## Scanning for ASCII bytes -/

theorem utf8EncodeChar_ascii {c : Char} (h : c.val ≤ 127) :
    String.utf8EncodeChar c = [c.toUInt8] :=
  String.utf8EncodeChar_eq_singleton (Char.utf8Size_eq_one_iff.2 h)

theorem le_or_of_le {m x y : UInt8} (h : m ≤ y) : m ≤ x ||| y := by
  rw [UInt8.le_iff_toNat_le] at h ⊢
  rw [UInt8.toNat_or]
  exact h.trans Nat.right_le_or

theorem le_of_mem_utf8EncodeChar {c : Char} (h : ¬ c.val ≤ 127) {b : UInt8}
    (hb : b ∈ String.utf8EncodeChar c) : 128 ≤ b := by
  have hone : c.utf8Size ≠ 1 := fun hc => h (Char.utf8Size_eq_one_iff.1 hc)
  have hpos := c.utf8Size_pos
  have hle := c.utf8Size_le_four
  obtain hc | hc | hc : c.utf8Size = 2 ∨ c.utf8Size = 3 ∨ c.utf8Size = 4 := by omega
  · rw [String.utf8EncodeChar_eq_cons_cons hc] at hb
    simp only [List.mem_cons, List.not_mem_nil, or_false] at hb
    obtain rfl | rfl := hb <;> exact le_or_of_le (by decide)
  · rw [String.utf8EncodeChar_eq_cons_cons_cons hc] at hb
    simp only [List.mem_cons, List.not_mem_nil, or_false] at hb
    obtain rfl | rfl | rfl := hb <;> exact le_or_of_le (by decide)
  · rw [String.utf8EncodeChar_eq_cons_cons_cons_cons hc] at hb
    simp only [List.mem_cons, List.not_mem_nil, or_false] at hb
    obtain rfl | rfl | rfl | rfl := hb <;> exact le_or_of_le (by decide)

/-- All bytes outside ASCII look alike to the predicate. -/
def AsciiOnly (p : UInt8 → Bool) : Prop := ∀ b, 128 ≤ b → p b = p 128

def onChars (p : UInt8 → Bool) (c : Char) : Bool := if c.val ≤ 127 then p c.toUInt8 else p 128

theorem toUInt8_inj {c d : Char} (hc : c.val ≤ 127) (hd : d.val ≤ 127)
    (h : c.toUInt8 = d.toUInt8) : c = d := by
  rw [UInt32.le_iff_toNat_le] at hc hd
  have hnat := congrArg UInt8.toNat h
  simp only [Char.toUInt8, UInt32.toNat_toUInt8] at hnat
  apply Char.ext
  rw [← UInt32.toNat_inj]
  have : (127 : UInt32).toNat = 127 := rfl
  omega

theorem toUInt8_lt {d : Char} (hd : d.val ≤ 127) : d.toUInt8 < 128 := by
  rw [UInt32.le_iff_toNat_le] at hd
  rw [UInt8.lt_iff_toNat_lt, Char.toUInt8, UInt32.toNat_toUInt8]
  have : (127 : UInt32).toNat = 127 := rfl
  have : (128 : UInt8).toNat = 128 := rfl
  omega

theorem lt_of_eq_toUInt8 {d : Char} (hd : d.val ≤ 127) {b : UInt8} (h : b = d.toUInt8) :
    b < 128 := h ▸ toUInt8_lt hd

theorem ne_toUInt8 {d : Char} (hd : d.val ≤ 127) {b : UInt8} (hb : 128 ≤ b) : b ≠ d.toUInt8 := by
  rintro rfl
  exact absurd (toUInt8_lt hd) (UInt8.not_lt.2 hb)

theorem asciiOnly_eq {d : Char} (hd : d.val ≤ 127) : AsciiOnly (· == d.toUInt8) := by
  intro b hb
  simp [ne_toUInt8 hd hb, ne_toUInt8 hd (UInt8.le_refl 128)]

theorem asciiOnly_ne {d : Char} (hd : d.val ≤ 127) : AsciiOnly (· != d.toUInt8) := by
  intro b hb
  simp [bne, asciiOnly_eq hd b hb]

theorem AsciiOnly.or {p q : UInt8 → Bool} (hp : AsciiOnly p) (hq : AsciiOnly q) :
    AsciiOnly fun x => p x || q x := by
  intro b hb
  simp only [hp b hb, hq b hb]

theorem AsciiOnly.and {p q : UInt8 → Bool} (hp : AsciiOnly p) (hq : AsciiOnly q) :
    AsciiOnly fun x => p x && q x := by
  intro b hb
  simp only [hp b hb, hq b hb]

theorem onChars_eq {d : Char} (hd : d.val ≤ 127) (c : Char) :
    onChars (· == d.toUInt8) c = (c == d) := by
  unfold onChars
  split
  · next hc =>
    rw [Bool.eq_iff_iff, beq_iff_eq, beq_iff_eq]
    exact ⟨toUInt8_inj hc hd, congrArg Char.toUInt8⟩
  · next hc =>
    have hne : c ≠ d := fun h => hc (h ▸ hd)
    simp [hne, ne_toUInt8 hd (UInt8.le_refl 128)]

theorem onChars_ne {d : Char} (hd : d.val ≤ 127) (c : Char) :
    onChars (· != d.toUInt8) c = (c != d) := by
  have heq := onChars_eq hd c
  unfold onChars at heq ⊢
  rw [bne, ← heq]
  split <;> rfl

theorem onChars_or (p q : UInt8 → Bool) (c : Char) :
    onChars (fun x => p x || q x) c = (onChars p c || onChars q c) := by
  unfold onChars
  split <;> rfl

theorem onChars_and (p q : UInt8 → Bool) (c : Char) :
    onChars (fun x => p x && q x) c = (onChars p c && onChars q c) := by
  unfold onChars
  split <;> rfl

theorem eq_onChars {p : UInt8 → Bool} (hp : AsciiOnly p) {c : Char} {b : UInt8}
    (hb : b ∈ String.utf8EncodeChar c) : p b = onChars p c := by
  unfold onChars
  split
  · next h =>
    rw [utf8EncodeChar_ascii h, List.mem_singleton] at hb
    rw [hb]
  · next h => exact hp b (le_of_mem_utf8EncodeChar h hb)

/-- A byte scan stops between two characters. -/
theorem takeWhile_bytes {p : UInt8 → Bool} (hp : AsciiOnly p) (s : List Char) :
    (bytes s).takeWhile p = bytes (s.takeWhile (onChars p)) := by
  induction s with
  | nil => rfl
  | cons c s ih =>
      cases hc : onChars p c with
      | true =>
          have htake : ∀ b ∈ String.utf8EncodeChar c, p b = true :=
            fun b hb => (eq_onChars hp hb).trans hc
          rw [bytes_cons, List.takeWhile_append_of_pos htake, ih, List.takeWhile_cons_of_pos hc,
            bytes_cons]
      | false =>
          obtain ⟨b, bs, hbs⟩ := List.exists_cons_of_ne_nil (String.utf8EncodeChar_ne_nil (c := c))
          have hb : p b = false := (eq_onChars hp (by simp [hbs])).trans hc
          rw [bytes_cons, hbs, List.cons_append, List.takeWhile_cons_of_neg (by simp [hb]),
            List.takeWhile_cons_of_neg (by simp [hc])]
          rfl

/-! ## Character boundaries -/

/-- A byte index at which a character begins, or the end of the string. -/
def IsBoundary (s : List Char) (i : Nat) : Prop :=
  ∃ before after, s = before ++ after ∧ i = (bytes before).length

theorem IsBoundary.zero (s : List Char) : IsBoundary s 0 := ⟨[], s, rfl, rfl⟩

theorem IsBoundary.length (s : List Char) : IsBoundary s (bytes s).length :=
  ⟨s, [], (List.append_nil s).symm, rfl⟩

theorem IsBoundary.le {s : List Char} {i : Nat} (h : IsBoundary s i) : i ≤ (bytes s).length := by
  obtain ⟨before, after, rfl, rfl⟩ := h
  rw [bytes_append, List.length_append]
  exact Nat.le_add_right _ _

theorem exists_of_ascii {s : List Char} {i : Nat} (h : i < (bytes s).length)
    (hascii : (bytes s)[i] < 128) :
    ∃ before c after, s = before ++ c :: after ∧ i = (bytes before).length ∧
      (String.utf8EncodeChar c).length = 1 := by
  induction s generalizing i with
  | nil => simp at h
  | cons c s ih =>
      by_cases hi : i < (String.utf8EncodeChar c).length
      · have hget : (bytes (c :: s))[i] = (String.utf8EncodeChar c)[i] :=
          List.getElem_append_left hi
        have hc : c.val ≤ 127 := by
          by_contra hc
          have hle := le_of_mem_utf8EncodeChar hc (List.getElem_mem hi)
          rw [hget] at hascii
          exact UInt8.not_lt.2 hle hascii
        have hone : (String.utf8EncodeChar c).length = 1 := by rw [utf8EncodeChar_ascii hc]; rfl
        refine ⟨[], c, s, rfl, ?_, hone⟩
        rw [hone] at hi
        simpa using hi
      · rw [Nat.not_lt] at hi
        obtain ⟨j, rfl⟩ := Nat.exists_eq_add_of_le hi
        have hj : j < (bytes s).length := by
          rw [bytes_cons, List.length_append] at h
          omega
        have hget : (bytes (c :: s))[(String.utf8EncodeChar c).length + j] = (bytes s)[j] := by
          simp
        rw [hget] at hascii
        obtain ⟨before, d, after, rfl, rfl, hone⟩ := ih hj hascii
        exact ⟨c :: before, d, after, rfl, by simp, hone⟩

theorem isBoundary_of_ascii {s : List Char} {i : Nat} (h : i < (bytes s).length)
    (hascii : (bytes s)[i] < 128) : IsBoundary s i := by
  obtain ⟨before, c, after, hs, hi, -⟩ := exists_of_ascii h hascii
  exact ⟨before, c :: after, hs, hi⟩

theorem isBoundary_succ_of_ascii {s : List Char} {i : Nat} (h : i < (bytes s).length)
    (hascii : (bytes s)[i] < 128) : IsBoundary s (i + 1) := by
  obtain ⟨before, c, after, rfl, rfl, hone⟩ := exists_of_ascii h hascii
  exact ⟨before ++ [c], after, by simp, by rw [bytes_append]; simp [hone]⟩

theorem slice_of_isBoundary {s : List Char} {start stop : Nat} (hstart : IsBoundary s start)
    (hstop : IsBoundary s stop) (h : start ≤ stop) : ∃ mid, slice s start stop = some mid := by
  obtain ⟨before, after, rfl, rfl⟩ := hstart
  obtain ⟨before', after', hs, rfl⟩ := hstop
  obtain ⟨mid, rfl, rfl⟩ | ⟨mid, rfl, rfl⟩ := List.append_eq_append_iff.1 hs
  · refine ⟨mid, ?_⟩
    rw [← List.append_assoc, bytes_append, List.length_append]
    exact slice_append before mid after'
  · -- The first index is not before the second, so nothing lies between them.
    rw [bytes_append, List.length_append] at h
    have hmid : (bytes mid).length = 0 := by omega
    refine ⟨[], ?_⟩
    have hslice := slice_append (before' ++ mid) [] after
    rw [bytes_append, List.length_append, hmid] at hslice ⊢
    simpa using hslice

end Utf8

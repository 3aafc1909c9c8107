import Threadstat.Parse

/-!
# Pieces of an event string

Read character by character, an event string is a sequence of bracketed sections and bare names
between commas and whitespace.  The byte scanner finds exactly these pieces, in order, and every
index it slices at lies on a character boundary.
-/

namespace Threadstat

open Utf8

/-- What one pass of the outer loop cuts out. -/
inductive Piece where
  | bracketed (inner : Str)
  | bare (raw : Str)
  deriving DecidableEq

def isSkipped (c : Char) : Bool :=
  c == ',' || (c == '\t' || c == '\n' || c == '\x0C' || c == '\r' || c == ' ')

def isBare (c : Char) : Bool := c != ',' && c != '['

theorem not_of_dropWhile {p : Char → Bool} {s t : Str} {c : Char} (h : s.dropWhile p = c :: t) :
    p c = false := by
  have hne : s.dropWhile p ≠ [] := by
    rw [h]
    exact List.cons_ne_nil c t
  have hhead := List.head_dropWhile_not p hne
  simpa [h] using hhead

theorem eq_closing_of_dropWhile {s t : Str} {c : Char} (h : s.dropWhile (· != ']') = c :: t) :
    c = ']' := by
  simpa using not_of_dropWhile h

/-- The first piece of a string and what follows it. -/
def nextPiece (s : Str) : Option (Piece × Str) :=
  match s.dropWhile isSkipped with
  | [] => none
  | c :: t =>
    if c = '[' then
      some (.bracketed (t.takeWhile (· != ']')), (t.dropWhile (· != ']')).drop 1)
    else some (.bare ((c :: t).takeWhile isBare), (c :: t).dropWhile isBare)

theorem nextPiece_length {s rest : Str} {piece : Piece} (h : nextPiece s = some (piece, rest)) :
    rest.length < s.length := by
  have hskip := (List.dropWhile_suffix isSkipped (l := s)).length_le
  unfold nextPiece at h
  split at h
  · cases h
  · next c t hdrop =>
    rw [hdrop, List.length_cons] at hskip
    split at h
    · obtain ⟨-, rfl⟩ := Prod.mk.inj (Option.some.inj h)
      have hle := (List.dropWhile_suffix (· != ']') (l := t)).length_le
      rw [List.length_drop]
      omega
    · next hopen =>
      obtain ⟨-, rfl⟩ := Prod.mk.inj (Option.some.inj h)
      -- The character that ended the skipping is not a comma, so it belongs to the name.
      have hcomma : c ≠ ',' := by
        rintro rfl
        exact absurd (not_of_dropWhile hdrop) (by decide)
      have hbare : isBare c = true := by simp [isBare, hcomma, hopen]
      rw [List.dropWhile_cons_of_pos hbare]
      have hle := (List.dropWhile_suffix isBare (l := t)).length_le
      omega

def pieces (s : Str) : List Piece :=
  match _h : nextPiece s with
  | none => []
  | some (piece, rest) => piece :: pieces rest
termination_by s.length
decreasing_by exact nextPiece_length _h

theorem pieces_of_none {s : Str} (h : nextPiece s = none) : pieces s = [] := by
  rw [pieces]
  split
  · rfl
  · next heq =>
    rw [h] at heq
    cases heq

theorem pieces_of_some {s rest : Str} {piece : Piece} (h : nextPiece s = some (piece, rest)) :
    pieces s = piece :: pieces rest := by
  rw [pieces]
  split
  · next heq =>
    rw [h] at heq
    cases heq
  · next heq =>
    rw [h] at heq
    obtain ⟨rfl, rfl⟩ := Prod.mk.inj (Option.some.inj heq)
    rfl

/-- What holds of a string without pieces and survives a piece in front holds of every string. -/
@[elab_as_elim]
theorem pieces_induction {P : Str → Prop} (none : ∀ s, nextPiece s = none → P s)
    (some : ∀ s piece rest, nextPiece s = some (piece, rest) → P rest → P s) (s : Str) : P s := by
  induction hn : s.length using Nat.strong_induction_on generalizing s with
  | _ n ih =>
      cases hnext : nextPiece s with
      | none => exact none s hnext
      | some next =>
          obtain ⟨piece, rest⟩ := next
          exact some s piece rest hnext (ih _ (hn ▸ nextPiece_length hnext) rest rfl)

/-! ## What a piece yields -/

section Result

variable (pfm : Pfm)

def Piece.result : Piece → Parsed (Except ParseError (Option (NonEmpty (PerfConfig InternC))))
  | .bracketed inner => .returned (bracketedGroup pfm inner)
  | .bare raw =>
    if (trim raw).isEmpty then .returned (.ok none)
    else
      match InternC.tryNew (trim raw) with
      | .error _ => .panicked
      | .ok interned =>
        match PerfConfig.fromPfmString pfm interned interned with
        | .error e => .returned (.error (.Pfm e))
        | .ok config => .returned (.ok (some (.newSingle config)))

def Parsed.toPass (j : Nat) :
    Parsed (Except ParseError (Option (NonEmpty (PerfConfig InternC)))) → Pass
  | .returned (.ok group) => .next j group
  | .returned (.error e) => .failed e
  | .panicked => .panicked

/-- The outcome of all pieces in order. -/
def configure : List Piece → EventGroups → Parsed (Except ParseError EventGroups)
  | [], groups => .returned (.ok groups)
  | piece :: rest, groups =>
    match piece.result pfm with
    | .returned (.ok group) => configure rest (groups ++ group.toList)
    | .returned (.error e) => .returned (.error e)
    | .panicked => .panicked

end Result

/-! ## The scanner finds the pieces -/

theorem asciiOnly_skipped :
    AsciiOnly fun x => x == ','.toUInt8 || isAsciiWhitespace x := by
  refine (asciiOnly_eq (by decide)).or ((((AsciiOnly.or ?_ ?_).or ?_).or ?_).or ?_) <;>
    exact asciiOnly_eq (by decide)

theorem onChars_skipped (c : Char) :
    onChars (fun x => x == ','.toUInt8 || isAsciiWhitespace x) c = isSkipped c := by
  unfold isAsciiWhitespace isSkipped
  simp only [onChars_or]
  rw [onChars_eq (by decide), onChars_eq (by decide), onChars_eq (by decide),
    onChars_eq (by decide), onChars_eq (by decide), onChars_eq (by decide)]

theorem asciiOnly_bare : AsciiOnly fun x => x != ','.toUInt8 && x != '['.toUInt8 :=
  (asciiOnly_ne (by decide)).and (asciiOnly_ne (by decide))

theorem onChars_bare (c : Char) :
    onChars (fun x => x != ','.toUInt8 && x != '['.toUInt8) c = isBare c := by
  rw [onChars_and, onChars_ne (by decide), onChars_ne (by decide)]
  rfl

/-- From a character boundary, a byte loop gets to the next character it does not skip. -/
theorem skipWhile_bytes {p : UInt8 → Bool} (hp : AsciiOnly p) {q : Char → Bool}
    (hq : ∀ c, onChars p c = q c) (before rest : Str) :
    skipWhile p (bytes (before ++ rest)) (bytes before).length =
      (bytes (before ++ rest.takeWhile q)).length := by
  have hfun : onChars p = q := funext hq
  rw [skipWhile_eq, bytes_append, List.drop_left, takeWhile_bytes hp, hfun, bytes_append,
    List.length_append]

theorem slice_bytes (before mid rest : Str) :
    slice (before ++ (mid ++ rest)) (bytes before).length (bytes (before ++ mid)).length =
      some mid := by
  rw [bytes_append, List.length_append, ← List.append_assoc]
  exact slice_append before mid rest

theorem getElem_bytes {before rest : Str} {c : Char} {d : Char} (hd : d.val ≤ 127)
    (h : (bytes before).length < (bytes (before ++ c :: rest)).length) :
    (bytes (before ++ c :: rest))[(bytes before).length] = d.toUInt8 ↔ c = d := by
  obtain ⟨b, bs, hbs⟩ := List.exists_cons_of_ne_nil (String.utf8EncodeChar_ne_nil (c := c))
  have hget : (bytes (before ++ c :: rest))[(bytes before).length] = b := by
    simp [hbs]
  have hb := eq_onChars (asciiOnly_eq hd) (c := c) (b := b) (by simp [hbs])
  rw [onChars_eq hd, Bool.eq_iff_iff, beq_iff_eq, beq_iff_eq] at hb
  rw [hget, hb]

theorem length_bytes_sub (before mid rest : Str) :
    (bytes (before ++ (mid ++ rest))).length - (bytes rest).length =
      (bytes (before ++ mid)).length := by
  simp only [bytes_append, List.length_append]
  omega

theorem bracketedPass_eq (pfm : Pfm) (before t : Str) :
    bracketedPass pfm (before ++ t) (bytes before).length =
      ((Piece.bracketed (t.takeWhile (· != ']'))).result pfm).toPass
        ((bytes (before ++ t)).length - (bytes ((t.dropWhile (· != ']')).drop 1)).length) := by
  have hsplit : t.takeWhile (· != ']') ++ t.dropWhile (· != ']') = t :=
    List.takeWhile_append_dropWhile
  have hskip := skipWhile_bytes (asciiOnly_ne (d := ']') (by decide)) (onChars_ne (by decide))
    before t
  have hslice := slice_bytes before (t.takeWhile (· != ']')) (t.dropWhile (· != ']'))
  rw [hsplit] at hslice
  unfold bracketedPass
  dsimp only
  rw [hskip, hslice]
  have hnext : (if (bytes (before ++ t.takeWhile (· != ']'))).length < (bytes (before ++ t)).length
      then (bytes (before ++ t.takeWhile (· != ']'))).length + 1
      else (bytes (before ++ t.takeWhile (· != ']'))).length) =
      (bytes (before ++ t)).length - (bytes ((t.dropWhile (· != ']')).drop 1)).length := by
    generalize hinner : t.takeWhile (· != ']') = inner at hsplit ⊢
    cases hrest : t.dropWhile (· != ']') with
    | nil =>
        rw [hrest, List.append_nil] at hsplit
        simp [hsplit]
    | cons c u =>
        obtain rfl := eq_closing_of_dropWhile hrest
        rw [hrest] at hsplit
        rw [← hsplit]
        have hone : String.utf8EncodeChar ']' = [']'.toUInt8] := utf8EncodeChar_ascii (by decide)
        simp only [bytes_append, bytes_cons, hone, List.length_append, List.length_cons,
          List.length_nil, List.drop_one, List.tail_cons]
        split <;> omega
  rw [hnext, Piece.result]
  dsimp only
  cases bracketedGroup pfm (t.takeWhile (· != ']')) <;> rfl

theorem barePass_eq (pfm : Pfm) (before t : Str) :
    barePass pfm (before ++ t) (bytes before).length =
      ((Piece.bare (t.takeWhile isBare)).result pfm).toPass
        ((bytes (before ++ t)).length - (bytes (t.dropWhile isBare)).length) := by
  have hsplit : t.takeWhile isBare ++ t.dropWhile isBare = t := List.takeWhile_append_dropWhile
  have hskip := skipWhile_bytes asciiOnly_bare onChars_bare before t
  have hslice := slice_bytes before (t.takeWhile isBare) (t.dropWhile isBare)
  have hnext := length_bytes_sub before (t.takeWhile isBare) (t.dropWhile isBare)
  rw [hsplit] at hslice hnext
  unfold barePass
  dsimp only
  rw [hskip, hslice, hnext, Piece.result]
  dsimp only
  split
  · rfl
  · cases InternC.tryNew (trim (t.takeWhile isBare)) with
    | error e => rfl
    | ok interned =>
        dsimp only
        cases PerfConfig.fromPfmString pfm interned interned <;> rfl

def passAt (pfm : Pfm) (s : Str) (i : Nat) : Option Char → Pass
  | none => .exit
  | some c => if c = '[' then bracketedPass pfm s (i + 1) else barePass pfm s i

theorem pass_eq_passAt (pfm : Pfm) (before rest : Str) {i : Nat}
    (hskip : skipWhile (fun x => x == ','.toUInt8 || isAsciiWhitespace x) (bytes (before ++ rest)) i =
      (bytes before).length) :
    pass pfm (before ++ rest) i = passAt pfm (before ++ rest) (bytes before).length rest.head? := by
  unfold pass
  simp only [hskip]
  cases rest with
  | nil => simp [passAt]
  | cons c t =>
      have hpos : 0 < (String.utf8EncodeChar c).length :=
        List.length_pos_iff.2 String.utf8EncodeChar_ne_nil
      have hlt : (bytes before).length < (bytes (before ++ c :: t)).length := by
        rw [bytes_append, bytes_cons, List.length_append, List.length_append]
        omega
      rw [dif_pos hlt, List.head?_cons, passAt]
      by_cases hopen : c = '['
      · rw [if_pos ((getElem_bytes (by decide) hlt).2 hopen), if_pos hopen]
      · rw [if_neg fun h => hopen ((getElem_bytes (by decide) hlt).1 h), if_neg hopen]

/-- At a character boundary, a pass finds the next piece and stops at the boundary after it. -/
theorem pass_eq (pfm : Pfm) (before rest : Str) :
    pass pfm (before ++ rest) (bytes before).length =
      match nextPiece rest with
      | none => .exit
      | some (piece, rest') =>
        (piece.result pfm).toPass ((bytes (before ++ rest)).length - (bytes rest').length) := by
  have hall : before ++ rest = before ++ rest.takeWhile isSkipped ++ rest.dropWhile isSkipped := by
    rw [List.append_assoc, List.takeWhile_append_dropWhile]
  have hskip := skipWhile_bytes asciiOnly_skipped onChars_skipped before rest
  rw [hall] at hskip ⊢
  rw [pass_eq_passAt pfm _ _ hskip, nextPiece]
  clear hall hskip
  cases rest.dropWhile isSkipped with
  | nil => rfl
  | cons c t =>
      by_cases hopen : c = '['
      · subst hopen
        have hone : (bytes (before ++ rest.takeWhile isSkipped ++ ['['])).length =
            (bytes (before ++ rest.takeWhile isSkipped)).length + 1 := by
          simp [utf8EncodeChar_ascii, Nat.add_assoc]
        rw [List.head?_cons, passAt, if_pos rfl, ← hone, List.append_cons _ '[' t]
        exact bracketedPass_eq pfm _ t
      · rw [List.head?_cons, passAt, if_neg hopen]
        dsimp only
        rw [if_neg hopen]
        exact barePass_eq pfm _ (c :: t)

theorem nextPiece_suffix {s rest : Str} {piece : Piece} (h : nextPiece s = some (piece, rest)) :
    rest <:+ s := by
  have hskip := List.dropWhile_suffix isSkipped (l := s)
  unfold nextPiece at h
  split at h
  · cases h
  · next c t hdrop =>
    rw [hdrop] at hskip
    split at h
    · obtain ⟨-, rfl⟩ := Prod.mk.inj (Option.some.inj h)
      have hinner := List.dropWhile_suffix (· != ']') (l := t)
      exact ((List.drop_suffix 1 _).trans hinner).trans ((List.suffix_cons c t).trans hskip)
    · obtain ⟨-, rfl⟩ := Prod.mk.inj (Option.some.inj h)
      exact (List.dropWhile_suffix isBare).trans hskip

theorem parseFrom_eq (pfm : Pfm) (s : Str) (i : Nat) (groups : EventGroups) :
    parseFrom pfm s i groups =
      match pass pfm s i with
      | .exit => .returned (.ok groups)
      | .next j group => parseFrom pfm s j (groups ++ group.toList)
      | .failed e => .returned (.error e)
      | .panicked => .panicked := by
  rw [parseFrom]
  split <;> next h => rw [h]

theorem parseFrom_pieces (pfm : Pfm) (rest before : Str) (groups : EventGroups) :
    parseFrom pfm (before ++ rest) (bytes before).length groups =
      configure pfm (pieces rest) groups := by
  induction rest using pieces_induction generalizing before groups with
  | none rest hnone =>
      rw [parseFrom_eq, pass_eq, hnone, pieces_of_none hnone]
      rfl
  | some rest piece rest' hnext ih =>
      obtain ⟨mid, rfl⟩ := nextPiece_suffix hnext
      rw [parseFrom_eq, pass_eq, hnext, pieces_of_some hnext, configure]
      dsimp only
      rw [length_bytes_sub]
      cases piece.result pfm with
      | panicked => rfl
      | returned result =>
          cases result with
          | error e => rfl
          | ok group =>
              dsimp only [Parsed.toPass]
              rw [← List.append_assoc]
              exact ih (before ++ mid) _

/-- The byte scanner configures the pieces of the string in order. -/
theorem parseEventGroups_pieces (pfm : Pfm) (s : Str) :
    parseEventGroups pfm s = configure pfm (pieces s) [] :=
  parseFrom_pieces pfm s [] []

end Threadstat

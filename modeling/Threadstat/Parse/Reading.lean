import Threadstat.Parse.Pieces
import Mathlib.Data.List.SplitBy

/-!
# What an event string says

The declarative reading of an event string: which positions lie inside a bracketed section, which
characters are delimiters there, and how the names between the delimiters fall into groups.  The
parser returns the groups of this reading.
-/

namespace Threadstat

/-! ## The reading -/

/-- Where a position lies: inside a bracketed section or not, and how many sections have been
opened before it. -/
structure Place where
  inside : Bool
  opened : Nat
  deriving DecidableEq

namespace Place

def start : Place := ⟨false, 0⟩

/-- The place after a character.  A `[` counts outside and a `]` inside. -/
def next (p : Place) (c : Char) : Place :=
  if p.inside then
    if c = ']' then { p with inside := false } else p
  else if c = '[' then { inside := true, opened := p.opened + 1 } else p

/-- Every `,`, every `[` outside and every `]` inside. -/
def isDelimiter (p : Place) (c : Char) : Bool :=
  c == ',' || (if p.inside then c == ']' else c == '[')

def after (before : Str) : Place := before.foldl next start

end Place

def placed (s : Str) : List (Char × Place) := s.mapIdx fun k c => (c, .after (s.take k))

def delimits (cp : Char × Place) : Bool := cp.2.isDelimiter cp.1

/-- The maximal parts without a delimiter. -/
def segments (s : Str) : List (List (Char × Place)) := (placed s).splitOnP delimits

structure Name where
  text : Str
  place : Place
  deriving DecidableEq

/-- The name in a segment, unless nothing is left of it after trimming. -/
def Name.ofSegment (segment : List (Char × Place)) : Option Name :=
  match segment with
  | [] => none
  | (_, place) :: _ =>
    if trim (segment.map Prod.fst) = [] then none else some ⟨trim (segment.map Prod.fst), place⟩

def Name.sameSection (a b : Name) : Bool :=
  a.place.inside && b.place.inside && a.place.opened == b.place.opened

/-- The groups of names of an event string. -/
def reading (s : Str) : List (List Str) :=
  (((segments s).filterMap Name.ofSegment).splitBy Name.sameSection).map
    (·.map Name.text)

example : reading "a,[b, c[]] d,[,] e".toList =
    [["a".toList], ["b".toList, "c[".toList], ["] d".toList], ["e".toList]] := by
  decide

/-! ## The names from a place on -/

def placedFrom (p : Place) : Str → List (Char × Place)
  | [] => []
  | c :: s => (c, p) :: placedFrom (p.next c) s

def namesFrom (p : Place) (s : Str) : List Name :=
  ((placedFrom p s).splitOnP delimits).filterMap Name.ofSegment

theorem mapIdx_placed (p : Place) (s : Str) :
    s.mapIdx (fun k c => (c, (s.take k).foldl Place.next p)) = placedFrom p s := by
  induction s generalizing p with
  | nil => rfl
  | cons c s ih =>
      rw [List.mapIdx_cons, placedFrom, ← ih (p.next c)]
      rfl

theorem segments_filterMap (s : Str) :
    (segments s).filterMap Name.ofSegment = namesFrom .start s := by
  rw [namesFrom, ← mapIdx_placed]
  rfl

def Name.at (p : Place) (raw : Str) : Option Name :=
  if trim raw = [] then none else some ⟨trim raw, p⟩

theorem Name.ofSegment_map (p : Place) (raw : Str) :
    Name.ofSegment (raw.map (·, p)) = Name.at p raw := by
  cases raw with
  | nil => rfl
  | cons c raw =>
      rw [List.map_cons, Name.ofSegment, Name.at]
      simp [Function.comp_def]

theorem placedFrom_append {p : Place} {s : Str} (h : ∀ c ∈ s, p.next c = p) (rest : Str) :
    placedFrom p (s ++ rest) = s.map (·, p) ++ placedFrom p rest := by
  induction s with
  | nil => rfl
  | cons c s ih =>
      rw [List.cons_append, placedFrom, h c List.mem_cons_self,
        ih fun d hd => h d (List.mem_cons_of_mem c hd)]
      rfl

theorem splitOnP_map_placed (p : Place) (s : Str) :
    (s.map (·, p)).splitOnP delimits =
      (s.splitOnP p.isDelimiter).map (·.map (·, p)) := by
  induction s with
  | nil => rfl
  | cons c s ih =>
      rw [List.map_cons, List.splitOnP_cons_eq_if_modifyHead, List.splitOnP_cons_eq_if_modifyHead,
        ih]
      obtain ⟨head, tail, htail⟩ := List.exists_cons_of_ne_nil
        (List.splitOnP_ne_nil p.isDelimiter s)
      rw [htail, delimits]
      cases p.isDelimiter c <;> rfl

theorem namesFrom_append_cons {p : Place} {s : Str} (h : ∀ c ∈ s, p.next c = p) {d : Char}
    (hd : p.isDelimiter d = true) (rest : Str) :
    namesFrom p (s ++ d :: rest) =
      (s.splitOnP p.isDelimiter).filterMap (Name.at p) ++ namesFrom (p.next d) rest := by
  rw [namesFrom, placedFrom_append h, placedFrom,
    List.splitOnP_append_cons (p := delimits) _ _ (show delimits (d, p) = true from hd),
    List.filterMap_append, splitOnP_map_placed, List.filterMap_map]
  congr 1
  exact List.filterMap_congr fun raw _ => Name.ofSegment_map p raw

theorem namesFrom_same {p : Place} {s : Str} (h : ∀ c ∈ s, p.next c = p) :
    namesFrom p s = (s.splitOnP p.isDelimiter).filterMap (Name.at p) := by
  have happend := placedFrom_append h []
  rw [List.append_nil, placedFrom, List.append_nil] at happend
  rw [namesFrom, happend, splitOnP_map_placed, List.filterMap_map]
  exact List.filterMap_congr fun raw _ => Name.ofSegment_map p raw

/-! ## Outside a section -/

variable {n : Nat}

theorem isDelimiter_outside (c : Char) : Place.isDelimiter ⟨false, n⟩ c = !isBare c := by
  simp [Place.isDelimiter, isBare, bne]

theorem next_outside {c : Char} (h : c ≠ '[') : Place.next ⟨false, n⟩ c = ⟨false, n⟩ := by
  simp [Place.next, h]

theorem ne_of_isBare {c : Char} (h : isBare c = true) : c ≠ '[' := by
  rintro rfl
  simp [isBare] at h

theorem filterMap_singleton (p : Place) (raw : Str) :
    [raw].filterMap (Name.at p) = (Name.at p raw).toList := by
  cases h : Name.at p raw <;> simp [h]

/-- Outside, the first name ends at the first comma or opening bracket. -/
theorem namesFrom_outside (s : Str) :
    namesFrom ⟨false, n⟩ s = (Name.at ⟨false, n⟩ (s.takeWhile isBare)).toList ++
      match s.dropWhile isBare with
      | [] => []
      | d :: rest => namesFrom (Place.next ⟨false, n⟩ d) rest := by
  have hsplit : s.takeWhile isBare ++ s.dropWhile isBare = s := List.takeWhile_append_dropWhile
  have hbare : ∀ c ∈ s.takeWhile isBare, isBare c = true := fun c => List.mem_takeWhile_imp
  have hnext : ∀ c ∈ s.takeWhile isBare, Place.next ⟨false, n⟩ c = ⟨false, n⟩ :=
    fun c hc => next_outside (ne_of_isBare (hbare c hc))
  have hone : (s.takeWhile isBare).splitOnP (Place.isDelimiter ⟨false, n⟩) =
      [s.takeWhile isBare] :=
    List.splitOnP_eq_singleton fun c hc => by simp [isDelimiter_outside, hbare c hc]
  conv_lhs => rw [← hsplit]
  cases hrest : s.dropWhile isBare with
  | nil =>
      rw [List.append_nil, namesFrom_same hnext, hone, filterMap_singleton, List.append_nil]
  | cons d rest =>
      have hd : Place.isDelimiter ⟨false, n⟩ d = true := by
        rw [isDelimiter_outside, not_of_dropWhile hrest]
        rfl
      rw [namesFrom_append_cons hnext hd, hone, filterMap_singleton]

theorem trim_cons {c : Char} (h : isWhitespace c = true) (s : Str) : trim (c :: s) = trim s := by
  rw [trim, List.dropWhile_cons_of_pos h, trim]

/-- Commas and whitespace before a name change nothing. -/
theorem namesFrom_skip {c : Char} (h : isSkipped c = true) (s : Str) :
    namesFrom ⟨false, n⟩ (c :: s) = namesFrom ⟨false, n⟩ s := by
  by_cases hcomma : c = ','
  · subst hcomma
    rw [namesFrom_outside]
    rfl
  · have hwhite : isWhitespace c = true := by
      simp only [isSkipped, hcomma, beq_iff_eq, Bool.or_eq_true, false_or] at h
      obtain (((rfl | rfl) | rfl) | rfl) | rfl := h <;> decide
    have hbare : isBare c = true := by
      have hopen : c ≠ '[' := by
        rintro rfl
        simp [isSkipped] at h
      simp [isBare, hcomma, hopen]
    rw [namesFrom_outside, namesFrom_outside s, List.takeWhile_cons_of_pos hbare,
      List.dropWhile_cons_of_pos hbare, Name.at, trim_cons hwhite]
    rfl

theorem namesFrom_dropWhile (s : Str) :
    namesFrom ⟨false, n⟩ (s.dropWhile isSkipped) = namesFrom ⟨false, n⟩ s := by
  induction s with
  | nil => rfl
  | cons c s ih =>
      cases h : isSkipped c with
      | true => rw [List.dropWhile_cons_of_pos h, ih, namesFrom_skip h]
      | false => rw [List.dropWhile_cons_of_neg (by simp [h])]

/-! ## Inside a section -/

def sectionNames (n : Nat) (inner : Str) : List Name :=
  (inner.splitOn ',').filterMap (Name.at ⟨true, n⟩)

theorem next_inside {c : Char} (h : c ≠ ']') : Place.next ⟨true, n⟩ c = ⟨true, n⟩ := by
  simp [Place.next, h]

theorem splitOnP_congr {p q : Char → Bool} {s : Str} (h : ∀ c ∈ s, p c = q c) :
    s.splitOnP p = s.splitOnP q := by
  induction s with
  | nil => rfl
  | cons c s ih =>
      rw [List.splitOnP_cons_eq_if_modifyHead, List.splitOnP_cons_eq_if_modifyHead,
        h c List.mem_cons_self, ih fun d hd => h d (List.mem_cons_of_mem c hd)]

/-- A section ends at the first closing bracket. -/
theorem namesFrom_inside (t : Str) :
    namesFrom ⟨true, n⟩ t = sectionNames n (t.takeWhile (· != ']')) ++
      namesFrom ⟨false, n⟩ ((t.dropWhile (· != ']')).drop 1) := by
  have hsplit : t.takeWhile (· != ']') ++ t.dropWhile (· != ']') = t :=
    List.takeWhile_append_dropWhile
  have hinner : ∀ c ∈ t.takeWhile (· != ']'), c ≠ ']' := fun c hc => by
    simpa using List.mem_takeWhile_imp hc
  have hnext : ∀ c ∈ t.takeWhile (· != ']'), Place.next ⟨true, n⟩ c = ⟨true, n⟩ :=
    fun c hc => next_inside (hinner c hc)
  have hcommas : (t.takeWhile (· != ']')).splitOnP (Place.isDelimiter ⟨true, n⟩) =
      (t.takeWhile (· != ']')).splitOn ',' := by
    rw [List.splitOn_eq_splitOnP]
    exact splitOnP_congr fun c hc => by simp [Place.isDelimiter, hinner c hc]
  conv_lhs => rw [← hsplit]
  cases hrest : t.dropWhile (· != ']') with
  | nil =>
      rw [List.append_nil, namesFrom_same hnext, hcommas]
      exact (List.append_nil _).symm
  | cons d rest =>
      obtain rfl := eq_closing_of_dropWhile hrest
      rw [namesFrom_append_cons hnext rfl, hcommas]
      rfl

/-! ## Piece by piece -/

theorem namesFrom_nil (p : Place) : namesFrom p [] = [] := rfl

theorem namesFrom_bare (s : Str) :
    namesFrom ⟨false, n⟩ s = (Name.at ⟨false, n⟩ (s.takeWhile isBare)).toList ++
      namesFrom ⟨false, n⟩ (s.dropWhile isBare) := by
  rw [namesFrom_outside]
  cases hrest : s.dropWhile isBare with
  | nil => rfl
  | cons d rest =>
      have hd : isBare d = false := not_of_dropWhile hrest
      rw [namesFrom_outside (d :: rest), List.takeWhile_cons_of_neg (by simp [hd]),
        List.dropWhile_cons_of_neg (by simp [hd])]
      rfl

theorem namesFrom_of_none {s : Str} (h : nextPiece s = none) : namesFrom ⟨false, n⟩ s = [] := by
  rw [← namesFrom_dropWhile]
  unfold nextPiece at h
  split at h
  · next hdrop => rw [hdrop, namesFrom_nil]
  · split at h <;> cases h

theorem namesFrom_of_bracketed {s inner rest : Str}
    (h : nextPiece s = some (.bracketed inner, rest)) :
    namesFrom ⟨false, n⟩ s = sectionNames (n + 1) inner ++ namesFrom ⟨false, n + 1⟩ rest := by
  rw [← namesFrom_dropWhile]
  unfold nextPiece at h
  split at h
  · cases h
  · next c t hdrop =>
    split at h
    · next hopen =>
      simp only [Option.some.injEq, Prod.mk.injEq, Piece.bracketed.injEq] at h
      obtain ⟨rfl, rfl⟩ := h
      rw [hdrop, hopen, namesFrom_outside, ← namesFrom_inside]
      rfl
    · simp at h

theorem namesFrom_of_bare {s raw rest : Str} (h : nextPiece s = some (.bare raw, rest)) :
    namesFrom ⟨false, n⟩ s = (Name.at ⟨false, n⟩ raw).toList ++ namesFrom ⟨false, n⟩ rest := by
  rw [← namesFrom_dropWhile]
  unfold nextPiece at h
  split at h
  · cases h
  · next c t hdrop =>
    split at h
    · simp at h
    · simp only [Option.some.injEq, Prod.mk.injEq, Piece.bare.injEq] at h
      obtain ⟨rfl, rfl⟩ := h
      rw [hdrop]
      exact namesFrom_bare (c :: t)

theorem Name.at_place {p : Place} {raw : Str} {name : Name} (h : Name.at p raw = some name) :
    name.place = p := by
  unfold Name.at at h
  split at h
  · cases h
  · rw [← Option.some.inj h]

theorem sectionNames_place {inner : Str} {name : Name} (h : name ∈ sectionNames n inner) :
    name.place = ⟨true, n⟩ := by
  obtain ⟨raw, -, hraw⟩ := List.mem_filterMap.1 h
  exact Name.at_place hraw

theorem namesFrom_place (s : Str) {name : Name} (h : name ∈ namesFrom ⟨false, n⟩ s) :
    name.place.inside = false ∨ n < name.place.opened := by
  induction s using pieces_induction generalizing n with
  | none s hnone =>
      rw [namesFrom_of_none hnone] at h
      cases h
  | some s piece rest hnext ih =>
      cases piece with
      | bracketed inner =>
          rw [namesFrom_of_bracketed hnext] at h
          rcases List.mem_append.1 h with h | h
          · rw [sectionNames_place h]
            exact .inr (Nat.lt_succ_self n)
          · exact (ih h).imp_right (Nat.lt_of_succ_lt)
      | bare raw =>
          rw [namesFrom_of_bare hnext] at h
          rcases List.mem_append.1 h with h | h
          · rw [Name.at_place (Option.mem_toList.1 h)]
            exact .inl rfl
          · exact ih h

def Piece.names : Piece → List Str
  | .bracketed inner => ((inner.splitOn ',').map trim).filter fun e => !e.isEmpty
  | .bare raw => [trim raw].filter fun e => !e.isEmpty

def groupsOf (names : List Name) : List (List Str) :=
  (names.splitBy Name.sameSection).map (·.map Name.text)

theorem filterMap_at_text (p : Place) (raws : List Str) :
    (raws.filterMap (Name.at p)).map Name.text =
      (raws.map trim).filter fun e => !e.isEmpty := by
  induction raws with
  | nil => rfl
  | cons raw raws ih =>
      cases htrim : trim raw with
      | nil =>
          have hnone : Name.at p raw = none := if_pos htrim
          rw [List.filterMap_cons_none hnone, ih, List.map_cons, htrim,
            List.filter_cons_of_neg (by simp)]
      | cons c text =>
          have hsome : Name.at p raw = some ⟨trim raw, p⟩ := if_neg (by simp [htrim])
          rw [List.filterMap_cons_some hsome, List.map_cons, ih, List.map_cons,
            List.filter_cons_of_pos (by simp [htrim])]

theorem sectionNames_text (n : Nat) (inner : Str) :
    (sectionNames n inner).map Name.text = (Piece.bracketed inner).names :=
  filterMap_at_text _ _

theorem at_text (p : Place) (raw : Str) :
    (Name.at p raw).toList.map Name.text = (Piece.bare raw).names := by
  rw [← filterMap_singleton, filterMap_at_text]
  rfl

theorem groupsOf_append {a b : List Name}
    (h : ∀ x ∈ a, ∀ y ∈ b, Name.sameSection x y = false) :
    groupsOf (a ++ b) = groupsOf a ++ groupsOf b := by
  have hsplit := List.splitBy_append (r := Name.sameSection) (l := a) (m := b) fun x hx y hy =>
    h x (List.mem_of_mem_getLast? hx) y (List.mem_of_mem_head? hy)
  rw [groupsOf, hsplit, List.map_append]
  rfl

theorem groupsOf_section (n : Nat) (inner : Str) :
    groupsOf (sectionNames n inner) =
      [(Piece.bracketed inner).names].filter fun names => !names.isEmpty := by
  rw [← sectionNames_text n]
  by_cases hne : sectionNames n inner = []
  · rw [hne]
    rfl
  · have hchain : (sectionNames n inner).IsChain fun a b => Name.sameSection a b = true := by
      refine List.Pairwise.isChain (List.pairwise_of_forall_mem_list fun a ha b hb => ?_)
      rw [Name.sameSection, sectionNames_place ha, sectionNames_place hb]
      simp
    rw [groupsOf, List.splitBy_of_isChain hne hchain, List.filter_cons_of_pos (by simpa using hne)]
    rfl

theorem groupsOf_at (n : Nat) (raw : Str) :
    groupsOf (Name.at ⟨false, n⟩ raw).toList =
      [(Piece.bare raw).names].filter fun names => !names.isEmpty := by
  rw [← at_text ⟨false, n⟩]
  cases Name.at ⟨false, n⟩ raw <;> rfl

theorem groupsOf_namesFrom (s : Str) :
    groupsOf (namesFrom ⟨false, n⟩ s) =
      ((pieces s).map Piece.names).filter fun names => !names.isEmpty := by
  induction s using pieces_induction generalizing n with
  | none s hnone =>
      rw [namesFrom_of_none hnone, pieces_of_none hnone]
      rfl
  | some s piece rest hnext ih =>
      rw [pieces_of_some hnext, List.map_cons, ← List.singleton_append, List.filter_append]
      cases piece with
      | bracketed inner =>
          rw [namesFrom_of_bracketed hnext, groupsOf_append, groupsOf_section, ih]
          intro x hx y hy
          rw [Name.sameSection, sectionNames_place hx]
          rcases namesFrom_place rest hy with hout | hlater
          · simp [hout]
          · simp [Nat.ne_of_lt hlater]
      | bare raw =>
          rw [namesFrom_of_bare hnext, groupsOf_append, groupsOf_at, ih]
          intro x hx y hy
          rw [Name.sameSection, Name.at_place (Option.mem_toList.1 hx)]
          rfl

theorem reading_eq (s : Str) :
    reading s = ((pieces s).map Piece.names).filter fun names => !names.isEmpty := by
  rw [← groupsOf_namesFrom (n := 0)]
  show groupsOf ((segments s).filterMap Name.ofSegment) = _
  rw [segments_filterMap]
  rfl

end Threadstat

import Threadstat.Parse.Lookup

/-!
# Putting event strings together

Between two groups an event string can be cut in two: the pieces of the whole are the pieces of the
parts.  So words joined by commas parse like the words one after the other, and one group can be
spelled differently without the others noticing.
-/

namespace Threadstat

/-! ## The pieces of a written string -/

theorem nextPiece_skip {sep : Str} (hsep : ∀ c ∈ sep, isSkipped c = true) (t : Str) :
    nextPiece (sep ++ t) = nextPiece t := by
  rw [nextPiece, nextPiece, List.dropWhile_append_of_pos hsep]

theorem pieces_skip {sep : Str} (hsep : ∀ c ∈ sep, isSkipped c = true) (t : Str) :
    pieces (sep ++ t) = pieces t := by
  cases hnext : nextPiece t with
  | none => rw [pieces_of_none hnext, pieces_of_none (by rw [nextPiece_skip hsep, hnext])]
  | some next =>
      obtain ⟨piece, rest⟩ := next
      rw [pieces_of_some hnext, pieces_of_some (by rw [nextPiece_skip hsep, hnext])]

theorem pieces_nil : pieces [] = [] := pieces_of_none rfl

theorem pieces_blank {sep : Str} (hsep : ∀ c ∈ sep, isSkipped c = true) : pieces sep = [] := by
  have hskip := pieces_skip hsep []
  rwa [List.append_nil, pieces_nil] at hskip

theorem pieces_section {inner : Str} (hinner : ']' ∉ inner) (t : Str) :
    pieces ('[' :: inner ++ ']' :: t) = .bracketed inner :: pieces t := by
  apply pieces_of_some
  have hall : ∀ c ∈ inner, (c != ']') = true := by
    intro c hc
    simpa using ne_of_mem_of_not_mem hc hinner
  have htake : (inner ++ ']' :: t).takeWhile (· != ']') = inner := by
    rw [List.takeWhile_append_of_pos hall, List.takeWhile_cons_of_neg (by decide),
      List.append_nil]
  have hdrop : (inner ++ ']' :: t).dropWhile (· != ']') = ']' :: t := by
    rw [List.dropWhile_append_of_pos hall, List.dropWhile_cons_of_neg (by decide)]
  rw [nextPiece, List.cons_append, List.dropWhile_cons_of_neg (by decide)]
  dsimp only
  rw [if_pos rfl, htake, hdrop]
  rfl

theorem pieces_unclosed {inner : Str} (hinner : ']' ∉ inner) :
    pieces ('[' :: inner) = [.bracketed inner] := by
  have hall : ∀ c ∈ inner, (c != ']') = true := by
    intro c hc
    simpa using ne_of_mem_of_not_mem hc hinner
  have hnext : nextPiece ('[' :: inner) = some (.bracketed inner, []) := by
    rw [nextPiece, List.dropWhile_cons_of_neg (by decide)]
    dsimp only
    rw [if_pos rfl, List.takeWhile_eq_self_iff.2 hall, List.dropWhile_eq_nil_iff.2 hall]
    rfl
  rw [pieces_of_some hnext, pieces_nil]

/-- Nothing, or something that ends a bare name. -/
def EndsBare (t : Str) : Prop := ∀ c ∈ t.head?, isBare c = false

theorem pieces_bare {c : Char} {raw t : Str} (hskip : isSkipped c = false)
    (hraw : ∀ d ∈ c :: raw, isBare d = true) (ht : EndsBare t) :
    pieces (c :: raw ++ t) = .bare (c :: raw) :: pieces t := by
  apply pieces_of_some
  have hopen : c ≠ '[' := ne_of_isBare (hraw c List.mem_cons_self)
  have htake : (c :: raw ++ t).takeWhile isBare = c :: raw := by
    rw [List.takeWhile_append_of_pos hraw]
    cases t with
    | nil => simp
    | cons d t => rw [List.takeWhile_cons_of_neg (by simp [ht d rfl]), List.append_nil]
  have hdrop : (c :: raw ++ t).dropWhile isBare = t := by
    rw [List.dropWhile_append_of_pos hraw]
    cases t with
    | nil => rfl
    | cons d t => rw [List.dropWhile_cons_of_neg (by simp [ht d rfl])]
  rw [nextPiece, List.cons_append, List.dropWhile_cons_of_neg (by simp [hskip])]
  dsimp only
  rw [if_neg hopen, ← List.cons_append, htake, hdrop]

theorem exists_span (p : Char → Bool) (s : Str) :
    ∃ front rest, s = front ++ rest ∧ (∀ c ∈ front, p c = true) ∧
      ∀ c ∈ rest.head?, p c = false := by
  refine ⟨s.takeWhile p, s.dropWhile p, List.takeWhile_append_dropWhile.symm, ?_, ?_⟩
  · exact fun c hc => List.mem_takeWhile_imp hc
  · intro c hc
    cases hdrop : s.dropWhile p with
    | nil =>
        rw [hdrop] at hc
        cases hc
    | cons d rest =>
        rw [hdrop] at hc
        obtain rfl : d = c := Option.some.inj hc
        exact not_of_dropWhile hdrop

theorem isBare_of_not_isSkipped {c : Char} (hskip : isSkipped c = false) (hopen : c ≠ '[') :
    isBare c = true := by
  have hcomma : c ≠ ',' := by
    rintro rfl
    exact absurd hskip (by decide)
  simp [isBare, hcomma, hopen]

/-- Every string is blank, or separators and then a section or a bare name. -/
@[elab_as_elim]
theorem scan_induction {P : Str → Prop} (blank : ∀ sep, (∀ c ∈ sep, isSkipped c = true) → P sep)
    (closed : ∀ sep inner rest, (∀ c ∈ sep, isSkipped c = true) → ']' ∉ inner → P rest →
      P (sep ++ ('[' :: inner ++ ']' :: rest)))
    (unclosed : ∀ sep inner, (∀ c ∈ sep, isSkipped c = true) → ']' ∉ inner →
      P (sep ++ '[' :: inner))
    (bare : ∀ sep c raw rest, (∀ c ∈ sep, isSkipped c = true) → isSkipped c = false →
      (∀ d ∈ c :: raw, isBare d = true) → EndsBare rest → P rest → P (sep ++ (c :: raw ++ rest)))
    (s : Str) : P s := by
  induction hn : s.length using Nat.strong_induction_on generalizing s with
  | _ n ih =>
      obtain ⟨sep, rest, rfl, hsep, hstop⟩ := exists_span isSkipped s
      rw [List.length_append] at hn
      cases rest with
      | nil =>
          rw [List.append_nil]
          exact blank sep hsep
      | cons c t =>
          have hc : isSkipped c = false := hstop c rfl
          rw [List.length_cons] at hn
          by_cases hopen : c = '['
          · subst hopen
            by_cases hclosing : ']' ∈ t
            · obtain ⟨inner, rest, rfl, hinner⟩ := List.eq_append_cons_of_mem hclosing
              rw [List.length_append, List.length_cons] at hn
              exact closed sep inner rest hsep hinner (ih rest.length (by omega) rest rfl)
            · exact unclosed sep t hsep hclosing
          · obtain ⟨raw, rest, rfl, hraw, hends⟩ := exists_span isBare t
            rw [List.length_append] at hn
            have hall : ∀ d ∈ c :: raw, isBare d = true :=
              List.forall_mem_cons.2 ⟨isBare_of_not_isSkipped hc hopen, hraw⟩
            exact bare sep c raw rest hsep hc hall hends (ih rest.length (by omega) rest rfl)

/-! ## Where a string can be cut -/

theorem foldl_next_inside (s : Str) (b : Bool) (n m : Nat) :
    (s.foldl Place.next ⟨b, n⟩).inside = (s.foldl Place.next ⟨b, m⟩).inside := by
  induction s generalizing b n m with
  | nil => rfl
  | cons c s ih =>
      rw [List.foldl_cons, List.foldl_cons]
      have hnext : ∀ k, ∃ k', Place.next ⟨b, k⟩ c = ⟨(Place.next ⟨b, n⟩ c).inside, k'⟩ := by
        intro k
        unfold Place.next
        cases b with
        | true =>
            by_cases hc : c = ']'
            · exact ⟨k, by simp [hc]⟩
            · exact ⟨k, by simp [hc]⟩
        | false =>
            by_cases hc : c = '['
            · exact ⟨k + 1, by simp [hc]⟩
            · exact ⟨k, by simp [hc]⟩
      obtain ⟨k, hk⟩ := hnext n
      obtain ⟨k', hk'⟩ := hnext m
      rw [hk, hk']
      exact ih _ k k'

theorem after_append_inside {x : Str} (hx : (Place.after x).inside = false) (s : Str) :
    (Place.after (x ++ s)).inside = (Place.after s).inside := by
  rw [Place.after, List.foldl_append]
  show (s.foldl Place.next (Place.after x)).inside = (s.foldl Place.next ⟨false, 0⟩).inside
  generalize Place.after x = p at hx ⊢
  obtain ⟨b, n⟩ := p
  obtain rfl : b = false := hx
  exact foldl_next_inside s false n 0

theorem foldl_next_same {p : Place} {s : Str} (h : ∀ c ∈ s, p.next c = p) :
    s.foldl Place.next p = p := by
  induction s with
  | nil => rfl
  | cons c s ih =>
      rw [List.foldl_cons, h c List.mem_cons_self]
      exact ih fun d hd => h d (List.mem_cons_of_mem c hd)

theorem after_of_noOpen {s : Str} (h : '[' ∉ s) : Place.after s = .start :=
  foldl_next_same fun _ hc => next_outside (ne_of_mem_of_not_mem hc h)

theorem open_notMem_skipped {sep : Str} (hsep : ∀ c ∈ sep, isSkipped c = true) : '[' ∉ sep :=
  fun hmem => absurd (hsep _ hmem) (by decide)

theorem after_open {sep inner : Str} (hsep : ∀ c ∈ sep, isSkipped c = true)
    (hinner : ']' ∉ inner) : Place.after (sep ++ '[' :: inner) = ⟨true, 1⟩ := by
  have hskip : Place.after sep = .start := after_of_noOpen (open_notMem_skipped hsep)
  rw [Place.after, List.foldl_append, List.foldl_cons]
  show inner.foldl Place.next (Place.next (Place.after sep) '[') = _
  rw [hskip]
  exact foldl_next_same fun c hc => next_inside (ne_of_mem_of_not_mem hc hinner)

/-- The string is empty or ends with a delimiter. -/
def EndsGroup (w : Str) : Prop :=
  ∀ pre c, w = pre ++ [c] → (Place.after pre).isDelimiter c = true

theorem EndsGroup.suffix {x r : Str} (hx : (Place.after x).inside = false)
    (h : EndsGroup (x ++ r)) : EndsGroup r := by
  intro pre c heq
  have hdelimiter := h (x ++ pre) c (by rw [heq, List.append_assoc])
  rw [Place.isDelimiter, after_append_inside hx] at hdelimiter
  exact hdelimiter

theorem not_endsGroup_bare {front raw : Str} {c : Char} (hopen : '[' ∉ front ++ c :: raw)
    (hraw : ∀ d ∈ c :: raw, isBare d = true) : ¬ EndsGroup (front ++ c :: raw) := by
  intro hgroup
  obtain ⟨init, d, hlast⟩ : ∃ init d, c :: raw = init ++ [d] :=
    ⟨_, _, (List.dropLast_append_getLast (List.cons_ne_nil c raw)).symm⟩
  have hdelimiter := hgroup (front ++ init) d (by rw [hlast, List.append_assoc])
  have hnoOpen : '[' ∉ front ++ init := by
    intro hmem
    apply hopen
    rw [hlast, ← List.append_assoc]
    exact List.mem_append_left _ hmem
  have hd : isBare d = true := hraw d (by rw [hlast]; simp)
  rw [after_of_noOpen hnoOpen, Place.start, isDelimiter_outside, hd] at hdelimiter
  cases hdelimiter

theorem EndsBare.append {rest t : Str} (hrest : EndsBare rest) (ht : rest = [] → EndsBare t) :
    EndsBare (rest ++ t) := by
  cases rest with
  | nil => exact ht rfl
  | cons d rest => exact hrest

/-- A string that ends outside a section can be cut off where it ends a group, or where what follows
does not belong to a bare name. -/
theorem pieces_append {w t : Str} (hout : (Place.after w).inside = false)
    (hcut : EndsGroup w ∨ EndsBare t) : pieces (w ++ t) = pieces w ++ pieces t := by
  induction w using scan_induction with
  | blank sep hsep => rw [pieces_skip hsep, pieces_blank hsep, List.nil_append]
  | closed sep inner rest hsep hinner ih =>
      have hsplit : sep ++ ('[' :: inner ++ ']' :: rest) =
          (sep ++ '[' :: inner ++ [']']) ++ rest := by
        simp
      have hx : (Place.after (sep ++ '[' :: inner ++ [']'])).inside = false := by
        rw [Place.after, List.foldl_append]
        show (Place.next (Place.after (sep ++ '[' :: inner)) ']').inside = false
        rw [after_open hsep hinner]
        rfl
      rw [hsplit, after_append_inside hx] at hout
      have hrest := ih hout (hcut.imp_left fun h => EndsGroup.suffix hx (hsplit ▸ h))
      have hassoc : sep ++ ('[' :: inner ++ ']' :: rest) ++ t =
          sep ++ ('[' :: inner ++ ']' :: (rest ++ t)) := by
        simp
      rw [hassoc, pieces_skip hsep, pieces_section hinner, pieces_skip hsep,
        pieces_section hinner, hrest]
      rfl
  | unclosed sep inner hsep hinner =>
      rw [after_open hsep hinner] at hout
      cases hout
  | bare sep c raw rest hsep hc hraw hends ih =>
      have hsplit : sep ++ (c :: raw ++ rest) = (sep ++ c :: raw) ++ rest := by simp
      have hopen : '[' ∉ sep ++ c :: raw := by
        intro hmem
        rcases List.mem_append.1 hmem with hmem | hmem
        · exact open_notMem_skipped hsep hmem
        · exact absurd (hraw _ hmem) (by decide)
      have hx : (Place.after (sep ++ c :: raw)).inside = false := by
        rw [after_of_noOpen hopen]
        rfl
      have hends' : EndsBare (rest ++ t) := by
        apply hends.append
        rintro rfl
        apply hcut.resolve_left
        rw [List.append_nil]
        exact not_endsGroup_bare hopen hraw
      rw [hsplit, after_append_inside hx] at hout
      have hrest := ih hout (hcut.imp_left fun h => EndsGroup.suffix hx (hsplit ▸ h))
      have hassoc : sep ++ (c :: raw ++ rest) ++ t = sep ++ (c :: raw ++ (rest ++ t)) := by simp
      rw [hassoc, pieces_skip hsep, pieces_bare hc hraw hends', pieces_skip hsep,
        pieces_bare hc hraw hends, hrest]
      rfl

/-! ## Words joined by commas -/

/-- `events.join(",")`. -/
def eventString (words : List Str) : Str := [','].intercalate words

theorem pieces_comma {w : Str} (hout : (Place.after w).inside = false) (t : Str) :
    pieces (w ++ ',' :: t) = pieces w ++ pieces t := by
  have hends : EndsBare (',' :: t) := by
    intro c hc
    obtain rfl := Option.some.inj hc
    rfl
  have hcomma : ∀ c ∈ [','], isSkipped c = true := List.all_eq_true.1 (by decide)
  have hskip : pieces (',' :: t) = pieces t := pieces_skip hcomma t
  rw [pieces_append hout (.inr hends), hskip]

theorem reading_comma {w : Str} (hout : (Place.after w).inside = false) (t : Str) :
    reading (w ++ ',' :: t) = reading w ++ reading t := by
  rw [reading_eq, reading_eq, reading_eq, pieces_comma hout, List.map_append, List.filter_append]

section Words

variable (pfm : Pfm)

/-- What the parser returns for a string without NUL characters. -/
def configured (s : Str) : Except ParseError EventGroups :=
  (lookupAll pfm (reading s)).map (·.filterMap MaybeNonEmpty.fromIter)

/-- Some outcomes one after the other: all of their groups, or the first error. -/
def inSequence (results : List (Except ParseError EventGroups)) :
    Except ParseError EventGroups :=
  (results.mapM id).map List.flatten

variable {pfm}

theorem configured_comma {w : Str} (hout : (Place.after w).inside = false) (t : Str) :
    configured pfm (w ++ ',' :: t) =
      match configured pfm w with
      | .error e => .error e
      | .ok groups => (configured pfm t).map (groups ++ ·) := by
  rw [configured, reading_comma hout, lookupAll, List.mapM_append, ← lookupAll, ← lookupAll,
    configured, configured]
  cases lookupAll pfm (reading w) with
  | error e => rfl
  | ok configs =>
      cases lookupAll pfm (reading t) with
      | error e => rfl
      | ok configs' => exact congrArg Except.ok (List.filterMap_append ..)

theorem inSequence_cons (result : Except ParseError EventGroups)
    (results : List (Except ParseError EventGroups)) :
    inSequence (result :: results) =
      match result with
      | .error e => .error e
      | .ok groups => (inSequence results).map (groups ++ ·) := by
  cases result with
  | error e => rw [inSequence, FirstError.mapM_cons_error (f := id) rfl]; rfl
  | ok groups =>
      rw [inSequence, FirstError.mapM_cons_ok (f := id) rfl, inSequence]
      cases results.mapM id <;> rfl

theorem configured_eventString {words : List Str}
    (hout : ∀ w ∈ words.dropLast, (Place.after w).inside = false) :
    configured pfm (eventString words) = inSequence (words.map (configured pfm)) := by
  induction words with
  | nil => rfl
  | cons w words ih =>
      cases words with
      | nil =>
          rw [List.map_singleton, inSequence_cons, eventString, List.intercalate_singleton]
          cases configured pfm w with
          | error e => rfl
          | ok groups => exact congrArg Except.ok (List.append_nil groups).symm
      | cons w' words =>
          have hstring :
              eventString (w :: w' :: words) = w ++ ',' :: eventString (w' :: words) := by
            rw [eventString, List.intercalate_cons_cons, List.append_assoc]
            rfl
          rw [hstring, configured_comma (hout w (by simp)), List.map_cons, inSequence_cons,
            ih fun v hv => hout v (by simp [hv])]

theorem nul_notMem_eventString {words : List Str} (hnul : ∀ w ∈ words, nul ∉ w) :
    nul ∉ eventString words := by
  induction words with
  | nil => simp [eventString]
  | cons w words ih =>
      cases words with
      | nil => simpa [eventString] using hnul w (by simp)
      | cons w' words =>
          have hrest := ih fun v hv => hnul v (by simp [hv])
          have hcomma : nul ≠ ',' := by decide
          rw [eventString, List.intercalate_cons_cons, List.append_assoc, List.mem_append,
            List.mem_append, List.mem_singleton]
          rintro (hw | hc | hs)
          · exact hnul w (by simp) hw
          · exact hcomma hc
          · exact hrest hs

end Words

/-- For every list of words without NUL characters of which each but the last ends outside a
section, parsing the words joined by commas gives what parsing them one after the other gives: the
groups of all words in order, or the error of the first word that does not parse. -/
theorem parse_joined_words (pfm : Pfm) (words : List Str) (hnul : ∀ w ∈ words, nul ∉ w)
    (hout : ∀ w ∈ words.dropLast, (Place.after w).inside = false) :
    ∃ results, List.Forall₂ (fun w result => parseEventGroups pfm w = .returned result) words
        results ∧
      parseEventGroups pfm (eventString words) = .returned (inSequence results) := by
  refine ⟨words.map (configured pfm), ?_, ?_⟩
  · rw [List.forall₂_map_right_iff, List.forall₂_same]
    exact fun w hw => parseEventGroups_eq (hnul w hw)
  · rw [parseEventGroups_eq (nul_notMem_eventString hnul)]
    exact congrArg Parsed.returned (configured_eventString hout)

/-- The first word ends with a comma, and the last one with a section that is not closed. -/
theorem parse_joined_words_small :
    ∃ results, List.Forall₂ (fun w result => parseEventGroups smallPfm w = .returned result)
        ["cycles ,".toList, "[instructions,cycles]".toList, "cycles,[instructions".toList]
        results ∧
      parseEventGroups smallPfm "cycles ,,[instructions,cycles],cycles,[instructions".toList =
        .returned (inSequence results) :=
  parse_joined_words smallPfm
    ["cycles ,".toList, "[instructions,cycles]".toList, "cycles,[instructions".toList]
    (by decide) (by decide)

end Threadstat

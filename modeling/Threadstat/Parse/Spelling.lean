import Threadstat.Parse.Compose

/-!
# Bare and bracketed names

A group of one name can be written with brackets or without.  The two are read by different parts
of the parser, which look the name up in the same way but treat a NUL character in it differently.
-/

namespace Threadstat

/-! ## Trimming -/

theorem trim_append_whitespace {ws : Str} (h : ∀ c ∈ ws, isWhitespace c = true) (s : Str) :
    trim (s ++ ws) = trim s := by
  induction ws using List.reverseRecOn with
  | nil => rw [List.append_nil]
  | append_singleton ws c ih =>
      have hc : isWhitespace c = true := h c (by simp)
      have hrest := ih fun d hd => h d (by simp [hd])
      rw [← hrest, ← List.append_assoc, trim, trim]
      generalize s ++ ws = s
      by_cases hall : ∀ d ∈ s, isWhitespace d = true
      · rw [List.dropWhile_append_of_pos hall, List.dropWhile_cons_of_pos hc,
          List.dropWhile_eq_nil_iff.2 hall]
        rfl
      · obtain ⟨d, t, hdrop⟩ := List.exists_cons_of_ne_nil
          (mt List.dropWhile_eq_nil_iff.1 hall)
        rw [List.dropWhile_append, hdrop]
        exact List.rdropWhile_concat_pos isWhitespace (d :: t) c hc

theorem trim_whitespace_append {ws : Str} (h : ∀ c ∈ ws, isWhitespace c = true) (s : Str) :
    trim (ws ++ s) = trim s := by
  rw [trim, List.dropWhile_append_of_pos h, trim]

theorem isWhitespace_of_isSkipped {c : Char} (hcomma : c ≠ ',') (h : isSkipped c = true) :
    isWhitespace c = true := by
  simp only [isSkipped, hcomma, beq_iff_eq, Bool.or_eq_true, false_or] at h
  obtain (((rfl | rfl) | rfl) | rfl) | rfl := h <;> decide

theorem mem_trim_of_mem {c : Char} (hc : isWhitespace c = false) {s : Str} (h : c ∈ s) :
    c ∈ trim s := by
  have hkept : ∀ t : Str, c ∈ t → c ∈ t.dropWhile isWhitespace := by
    intro t ht
    rw [← List.takeWhile_append_dropWhile (p := isWhitespace) (l := t), List.mem_append] at ht
    refine ht.resolve_left fun htake => ?_
    rw [List.mem_takeWhile_imp htake] at hc
    cases hc
  rw [trim, List.rdropWhile, List.mem_reverse]
  exact hkept _ (List.mem_reverse.2 (hkept s h))

/-! ## The two spellings -/

structure Undelimited (e : Str) : Prop where
  comma : ',' ∉ e
  opening : '[' ∉ e
  closing : ']' ∉ e

theorem Undelimited.isBare {e : Str} (h : Undelimited e) {c : Char} (hc : c ∈ e) :
    isBare c = true := by
  have hcomma : c ≠ ',' := ne_of_mem_of_not_mem hc h.comma
  have hopening : c ≠ '[' := ne_of_mem_of_not_mem hc h.opening
  simp [Threadstat.isBare, hcomma, hopening]

theorem pieces_bare_name {e : Str} (htrim : trim e ≠ []) (h : Undelimited e) {after : Str}
    (hafter : EndsBare after) :
    ∃ raw, trim raw = trim e ∧ pieces (e ++ after) = .bare raw :: pieces after := by
  obtain ⟨sep, rest, rfl, hsep, hstop⟩ := exists_span isSkipped e
  have hspace : ∀ c ∈ sep, isWhitespace c = true := by
    intro c hc
    have hcomma : c ≠ ',' := ne_of_mem_of_not_mem (List.mem_append_left rest hc) h.comma
    exact isWhitespace_of_isSkipped hcomma (hsep c hc)
  have hraw : trim (sep ++ rest) = trim rest := trim_whitespace_append hspace rest
  refine ⟨rest, hraw.symm, ?_⟩
  cases rest with
  | nil =>
      rw [hraw] at htrim
      exact absurd rfl htrim
  | cons c raw =>
      have hall : ∀ d ∈ c :: raw, isBare d = true := fun d hd =>
        h.isBare (List.mem_append_right sep hd)
      rw [List.append_assoc, pieces_skip hsep, pieces_bare (hstop c rfl) hall hafter]

theorem names_bracketed {e : Str} (htrim : trim e ≠ []) (h : Undelimited e) :
    (Piece.bracketed e).names = [trim e] := by
  have hsplit : e.splitOn ',' = [e] := by
    rw [List.splitOn_eq_splitOnP]
    exact List.splitOnP_eq_singleton fun c hc => by
      simpa using ne_of_mem_of_not_mem hc h.comma
  rw [Piece.names, hsplit, List.map_singleton, List.filter_cons_of_pos (by simpa using htrim)]
  rfl

theorem names_bare {raw : Str} (htrim : trim raw ≠ []) : (Piece.bare raw).names = [trim raw] := by
  rw [Piece.names, List.filter_cons_of_pos (by simpa using htrim)]
  rfl

/-! ## Between other groups -/

section Configure

variable {pfm : Pfm}

theorem configure_append {ps : List Piece} {groups gs : EventGroups}
    (h : configure pfm ps groups = .returned (.ok gs)) (qs : List Piece) :
    configure pfm (ps ++ qs) groups = configure pfm qs gs := by
  induction ps generalizing groups with
  | nil =>
      rw [configure] at h
      cases h
      rfl
  | cons piece ps ih =>
      rw [configure] at h
      rw [List.cons_append, configure]
      generalize piece.result pfm = result at h ⊢
      cases result with
      | panicked => cases h
      | returned result =>
          cases result with
          | error e => cases h
          | ok group => exact ih h

/-- Accepted pieces add the same groups to whatever was there. -/
theorem configure_prepend {ps : List Piece} {groups gs : EventGroups}
    (h : configure pfm ps groups = .returned (.ok gs)) (before : EventGroups) :
    configure pfm ps (before ++ groups) = .returned (.ok (before ++ gs)) := by
  induction ps generalizing groups with
  | nil =>
      rw [configure] at h
      cases h
      rfl
  | cons piece ps ih =>
      rw [configure] at h ⊢
      generalize piece.result pfm = result at h ⊢
      cases result with
      | panicked => cases h
      | returned result =>
          cases result with
          | error e => cases h
          | ok group =>
              dsimp only at h ⊢
              rw [List.append_assoc]
              exact ih h

theorem result_of_name {name : Str} (hnul : nul ∉ name) {piece : Piece}
    (hnames : piece.names = [name]) :
    piece.result pfm =
      .returned ((bracketedConfig pfm name).map fun config => some (.newSingle config)) := by
  have hnoNul : ∀ n ∈ piece.names, nul ∉ n := by
    intro n hn
    rw [hnames] at hn
    rwa [List.mem_singleton.1 hn]
  rw [Piece.result_of_noNul hnoNul, hnames, lookupGroup]
  cases hconfig : bracketedConfig pfm name with
  | error e =>
      rw [FirstError.mapM_cons_error hconfig]
      rfl
  | ok config =>
      rw [FirstError.mapM_cons_ok hconfig]
      rfl

theorem configure_around {ps qs : List Piece} {gs gs' : EventGroups}
    (hps : configure pfm ps [] = .returned (.ok gs))
    (hqs : configure pfm qs [] = .returned (.ok gs')) {name : Str} (hnul : nul ∉ name)
    {piece : Piece} (hnames : piece.names = [name]) :
    configure pfm (ps ++ piece :: qs) [] =
      .returned ((bracketedConfig pfm name).map fun config => gs ++ .newSingle config :: gs') := by
  rw [configure_append hps, configure, result_of_name hnul hnames]
  cases bracketedConfig pfm name with
  | error e => rfl
  | ok config =>
      have hrest := configure_prepend hqs (gs ++ [.newSingle config])
      rw [List.append_nil, List.append_assoc] at hrest
      exact hrest

end Configure

/-- The bare and the bracketed spelling of `e` give the same result, and no panic, wherever they
stand between accepted groups: the groups around them and one group of the trimmed name, or an
error. -/
def SpellingsAgree (pfm : Pfm) (e : Str) : Prop :=
  ∀ before after gs gs', (Place.after before).inside = false → EndsGroup before →
    EndsBare after → parseEventGroups pfm before = .returned (.ok gs) →
    parseEventGroups pfm after = .returned (.ok gs') →
    ∃ result, parseEventGroups pfm (before ++ e ++ after) = .returned result ∧
      parseEventGroups pfm (before ++ ('[' :: e ++ ']' :: after)) = .returned result ∧
      ((∃ err, result = .error err) ∨
        ∃ config, config.name.text = trim e ∧ result = .ok (gs ++ .newSingle config :: gs'))

theorem spellings_agree {pfm : Pfm} {e : Str} (htrim : trim e ≠ []) (h : Undelimited e)
    (hnul : nul ∉ e) : SpellingsAgree pfm e := by
  intro before after gs gs' hout hgroup hafter hbefore hlater
  have hname : nul ∉ trim e := fun hmem => hnul (mem_trim hmem)
  rw [parseEventGroups_pieces] at hbefore hlater
  obtain ⟨raw, hraw, hbare⟩ := pieces_bare_name htrim h hafter
  refine ⟨(bracketedConfig pfm (trim e)).map fun config => gs ++ .newSingle config :: gs',
    ?_, ?_, ?_⟩
  · rw [parseEventGroups_pieces, List.append_assoc, pieces_append hout (.inl hgroup), hbare]
    apply configure_around hbefore hlater hname
    rw [names_bare (by rwa [hraw]), hraw]
  · rw [parseEventGroups_pieces, pieces_append hout (.inl hgroup), pieces_section h.closing]
    exact configure_around hbefore hlater hname (names_bracketed htrim h)
  · cases hconfig : bracketedConfig pfm (trim e) with
    | error err => exact .inl ⟨err, rfl⟩
    | ok config => exact .inr ⟨config, (bracketedConfig_ok hconfig).1, rfl⟩

theorem parse_empty (pfm : Pfm) : parseEventGroups pfm [] = .returned (.ok []) := by
  rw [parseEventGroups_pieces, pieces_nil]
  rfl

theorem parse_bare_nul (pfm : Pfm) {e : Str} (htrim : trim e ≠ []) (h : Undelimited e)
    (hnul : nul ∈ e) : parseEventGroups pfm e = .panicked := by
  have hmem : nul ∈ trim e := mem_trim_of_mem (by decide) hnul
  have hends : EndsBare [] := by simp [EndsBare]
  obtain ⟨raw, hraw, hbare⟩ := pieces_bare_name htrim h hends
  rw [List.append_nil, pieces_nil] at hbare
  have hresult : (Piece.bare raw).result pfm = .panicked := by
    rw [Piece.result, hraw, if_neg (by simpa using htrim), InternC.tryNew, dif_pos hmem]
  rw [parseEventGroups_pieces, hbare, configure, hresult]

theorem parse_bracketed_nul (pfm : Pfm) {e : Str} (htrim : trim e ≠ []) (h : Undelimited e)
    (hnul : nul ∈ e) :
    parseEventGroups pfm ('[' :: e ++ [']']) = .returned (.error (.InternalNULL {})) := by
  have hmem : nul ∈ trim e := mem_trim_of_mem (by decide) hnul
  have hgroup : bracketedGroup pfm e = .error (.InternalNULL {}) := by
    have hnames := names_bracketed htrim h
    rw [Piece.names] at hnames
    rw [bracketedGroup, hnames, FirstError.mapM_cons_error (bracketedConfig_of_nul hmem)]
    rfl
  rw [parseEventGroups_pieces, pieces_section h.closing, configure, Piece.result, hgroup]

/-- For every name without delimiters: its two spellings agree between all accepted groups exactly
if there is no NUL character in it. -/
theorem spellings_agree_iff (pfm : Pfm) {e : Str} (htrim : trim e ≠ []) (h : Undelimited e) :
    SpellingsAgree pfm e ↔ nul ∉ e := by
  refine ⟨fun hagree hnul => ?_, spellings_agree htrim h⟩
  obtain ⟨result, hbare, -⟩ := hagree [] [] [] [] rfl (by simp [EndsGroup]) (by simp [EndsBare])
    (parse_empty pfm) (parse_empty pfm)
  rw [List.nil_append, List.append_nil, parse_bare_nul pfm htrim h hnul] at hbare
  cases hbare

theorem spellings_agree_small : SpellingsAgree smallPfm " cycles".toList :=
  (spellings_agree_iff smallPfm (by decide) ⟨by decide, by decide, by decide⟩).2 (by decide)

def withNul : Str := "cycles".toList ++ [nul]

/-- The bare spelling panics and the bracketed one is an error. -/
theorem spellings_differ :
    parseEventGroups smallPfm withNul = .panicked ∧
      parseEventGroups smallPfm ('[' :: withNul ++ [']']) =
        .returned (.error (.InternalNULL {})) ∧
      ¬ SpellingsAgree smallPfm withNul := by
  have htrim : trim withNul ≠ [] := by decide
  have h : Undelimited withNul := ⟨by decide, by decide, by decide⟩
  have hnul : nul ∈ withNul := by decide
  refine ⟨parse_bare_nul smallPfm htrim h hnul, parse_bracketed_nul smallPfm htrim h hnul, ?_⟩
  intro hagree
  obtain ⟨result, hbare, -⟩ := hagree [] [] [] [] rfl (by simp [EndsGroup]) (by simp [EndsBare])
    (parse_empty smallPfm) (parse_empty smallPfm)
  rw [List.nil_append, List.append_nil, parse_bare_nul smallPfm htrim h hnul] at hbare
  cases hbare

end Threadstat

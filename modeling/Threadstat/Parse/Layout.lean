import Threadstat.Parse.Spelling

/-!
# Writing groups down

The same groups can be written in many ways: names alone with or without brackets, sections with
commas and whitespace around their names, and separators between the groups.  The parser reads all
of them back to the same groups.
-/

namespace Threadstat

/-! ## Layouts -/

def isPadding (c : Char) : Bool := c == ',' || isWhitespace c

structure Writable (name : Str) : Prop extends Undelimited name where
  nonempty : name ≠ []
  trimmed : trim name = name
  noNul : nul ∉ name

/-- The text of a section after its leading padding: the names with padding after each of them,
which has a comma unless the name is the last. -/
inductive InSection : List Str → Str → Prop where
  | last (name : Str) {pad : Str} (hpad : ∀ c ∈ pad, isPadding c = true) :
      InSection [name] (name ++ pad)
  | next (name : Str) {gap : Str} {names : List Str} {inner : Str}
      (hgap : ∀ c ∈ gap, isPadding c = true) (hcomma : ',' ∈ gap) (hrest : InSection names inner) :
      InSection (name :: names) (name ++ gap ++ inner)

/-- The text of some groups with separators after each of them, and whether it starts with a bare
name.  Only the last section may lack its closing bracket. -/
inductive Written : Bool → List (List Str) → Str → Prop where
  | nil : Written false [] []
  | bare (name : Str) {sep : Str} {startsBare : Bool} {groups : List (List Str)} {text : Str}
      (hsep : ∀ c ∈ sep, isSkipped c = true) (hcomma : startsBare = true → ',' ∈ sep)
      (hrest : Written startsBare groups text) :
      Written true ([name] :: groups) (name ++ sep ++ text)
  | closed {pad inner sep : Str} {names : List Str} {startsBare : Bool}
      {groups : List (List Str)} {text : Str} (hpad : ∀ c ∈ pad, isPadding c = true)
      (hinner : InSection names inner) (hsep : ∀ c ∈ sep, isSkipped c = true)
      (hrest : Written startsBare groups text) :
      Written false (names :: groups) ('[' :: (pad ++ inner) ++ ']' :: (sep ++ text))
  | unclosed {pad inner : Str} {names : List Str} (hpad : ∀ c ∈ pad, isPadding c = true)
      (hinner : InSection names inner) : Written false [names] ('[' :: (pad ++ inner))

/-! ## Sections -/

theorem isWhitespace_of_isPadding {c : Char} (hcomma : c ≠ ',') (h : isPadding c = true) :
    isWhitespace c = true := by
  simpa [isPadding, hcomma] using h

theorem closing_notMem_padding {pad : Str} (h : ∀ c ∈ pad, isPadding c = true) : ']' ∉ pad :=
  fun hmem => absurd (h _ hmem) (by decide)

theorem names_comma (s t : Str) :
    (Piece.bracketed (s ++ ',' :: t)).names =
      (Piece.bracketed s).names ++ (Piece.bracketed t).names := by
  simp only [Piece.names, List.splitOn_eq_splitOnP]
  rw [List.splitOnP_append_cons _ _ (by simp), List.map_append, List.filter_append]

theorem names_whitespace {c : Char} (hc : isWhitespace c = true) (s : Str) :
    (Piece.bracketed (c :: s)).names = (Piece.bracketed s).names := by
  have hcomma : (c == ',') = false := by
    rw [beq_eq_false_iff_ne]
    rintro rfl
    exact absurd hc (by decide)
  have htrim : ∀ head : Str, trim (c :: head) = trim head := by
    intro head
    rw [trim, List.dropWhile_cons_of_pos hc, trim]
  simp only [Piece.names, List.splitOn_eq_splitOnP]
  rw [List.splitOnP_cons_eq_if_modifyHead, if_neg (by simp [hcomma])]
  cases s.splitOnP (· == ',') with
  | nil => rfl
  | cons head tail => rw [List.modifyHead_cons, List.map_cons, List.map_cons, htrim]

theorem names_padding {pad : Str} (h : ∀ c ∈ pad, isPadding c = true) (s : Str) :
    (Piece.bracketed (pad ++ s)).names = (Piece.bracketed s).names := by
  induction pad with
  | nil => rfl
  | cons c pad ih =>
      have hrest := ih fun d hd => h d (List.mem_cons_of_mem c hd)
      by_cases hcomma : c = ','
      · subst hcomma
        rw [← hrest]
        exact names_comma [] (pad ++ s)
      · rw [← hrest]
        exact names_whitespace (isWhitespace_of_isPadding hcomma (h c List.mem_cons_self)) _

theorem Writable.append_whitespace {name : Str} (h : Writable name) {ws : Str}
    (hws : ∀ c ∈ ws, isWhitespace c = true) : Undelimited (name ++ ws) := by
  have hnot : ∀ d, isWhitespace d = false → d ∉ name → d ∉ name ++ ws := by
    intro d hd hname hmem
    rcases List.mem_append.1 hmem with hmem | hmem
    · exact hname hmem
    · rw [hws d hmem] at hd
      cases hd
  exact ⟨hnot _ (by decide) h.comma, hnot _ (by decide) h.opening, hnot _ (by decide) h.closing⟩

theorem Writable.names_bracketed {name : Str} (h : Writable name) {ws : Str}
    (hws : ∀ c ∈ ws, isWhitespace c = true) : (Piece.bracketed (name ++ ws)).names = [name] := by
  have htrim : trim (name ++ ws) = name := by rw [trim_append_whitespace hws, h.trimmed]
  have hne : trim (name ++ ws) ≠ [] := by
    rw [htrim]
    exact h.nonempty
  rw [Threadstat.names_bracketed hne (h.append_whitespace hws), htrim]

theorem padding_split {pad : Str} (h : ∀ c ∈ pad, isPadding c = true) (hcomma : ',' ∈ pad) :
    ∃ ws pad', pad = ws ++ ',' :: pad' ∧ (∀ c ∈ ws, isWhitespace c = true) ∧
      ∀ c ∈ pad', isPadding c = true := by
  obtain ⟨ws, pad', rfl, hws⟩ := List.eq_append_cons_of_mem hcomma
  refine ⟨ws, pad', rfl, ?_, ?_⟩
  · intro c hc
    exact isWhitespace_of_isPadding (ne_of_mem_of_not_mem hc hws) (h c (by simp [hc]))
  · intro c hc
    exact h c (by simp [hc])

theorem Writable.names_gap {name : Str} (h : Writable name) {gap : Str}
    (hgap : ∀ c ∈ gap, isPadding c = true) (hcomma : ',' ∈ gap) (s : Str) :
    (Piece.bracketed (name ++ gap ++ s)).names = name :: (Piece.bracketed s).names := by
  obtain ⟨ws, gap', rfl, hws, hgap'⟩ := padding_split hgap hcomma
  have hassoc : name ++ (ws ++ ',' :: gap') ++ s = (name ++ ws) ++ ',' :: (gap' ++ s) := by simp
  rw [hassoc, names_comma, h.names_bracketed hws, names_padding hgap']
  rfl

/-- A section yields the names it was written with. -/
theorem InSection.names {names : List Str} {inner : Str} (h : InSection names inner)
    (hnames : ∀ name ∈ names, Writable name) : (Piece.bracketed inner).names = names := by
  induction h with
  | last name hpad =>
      rename_i pad
      have hname : Writable name := hnames name List.mem_cons_self
      by_cases hcomma : ',' ∈ pad
      · have hgap := hname.names_gap hpad hcomma []
        rw [List.append_nil] at hgap
        rw [hgap]
        rfl
      · apply hname.names_bracketed
        intro c hc
        exact isWhitespace_of_isPadding (ne_of_mem_of_not_mem hc hcomma) (hpad c hc)
  | next name hgap hcomma hrest ih =>
      rw [(hnames name List.mem_cons_self).names_gap hgap hcomma,
        ih fun n hn => hnames n (List.mem_cons_of_mem name hn)]

theorem InSection.closing {names : List Str} {inner : Str} (h : InSection names inner)
    (hnames : ∀ name ∈ names, Writable name) : ']' ∉ inner := by
  induction h with
  | last name hpad =>
      rw [List.mem_append]
      exact not_or_intro (hnames name List.mem_cons_self).closing (closing_notMem_padding hpad)
  | next name hgap hcomma hrest ih =>
      have hlater := ih fun n hn => hnames n (List.mem_cons_of_mem name hn)
      rw [List.mem_append, List.mem_append]
      exact not_or_intro (not_or_intro (hnames name List.mem_cons_self).closing
        (closing_notMem_padding hgap)) hlater

theorem InSection.ne_nil {names : List Str} {inner : Str} (h : InSection names inner) :
    names ≠ [] := by
  cases h with
  | last name hpad => exact List.cons_ne_nil name []
  | next name hgap hcomma hrest => exact List.cons_ne_nil name _

/-! ## Groups -/

theorem Written.endsBare {groups : List (List Str)} {text : Str} (h : Written false groups text) :
    EndsBare text := by
  intro c hc
  cases h with
  | nil => cases hc
  | closed hpad hinner hsep hrest =>
      obtain rfl : '[' = c := Option.some.inj hc
      rfl
  | unclosed hpad hinner =>
      obtain rfl : '[' = c := Option.some.inj hc
      rfl

theorem Written.ne_nil {startsBare : Bool} {groups : List (List Str)} {text : Str}
    (h : Written startsBare groups text) : ∀ names ∈ groups, names ≠ [] := by
  induction h with
  | nil => simp
  | bare name hsep hcomma hrest ih => exact List.forall_mem_cons.2 ⟨by simp, ih⟩
  | closed hpad hinner hsep hrest ih => exact List.forall_mem_cons.2 ⟨hinner.ne_nil, ih⟩
  | unclosed hpad hinner => exact List.forall_mem_singleton.2 hinner.ne_nil

theorem Writable.pieces_bare {name : Str} (h : Writable name) {sep t : Str}
    (hsep : ∀ c ∈ sep, isSkipped c = true) (hends : ',' ∈ sep ∨ EndsBare t) :
    (pieces (name ++ sep ++ t)).map Piece.names = [name] :: (pieces t).map Piece.names := by
  -- Up to the first comma the separators belong to the bare name and are trimmed off.
  obtain ⟨ws, later, rfl, hws, hlater⟩ : ∃ ws later, sep = ws ++ later ∧
      (∀ c ∈ ws, isSkipped c = true ∧ c ≠ ',') ∧ EndsBare (later ++ t) := by
    by_cases hcomma : ',' ∈ sep
    · obtain ⟨ws, later, rfl, hws⟩ := List.eq_append_cons_of_mem hcomma
      refine ⟨ws, ',' :: later, rfl, ?_, ?_⟩
      · intro c hc
        exact ⟨hsep c (List.mem_append_left _ hc), ne_of_mem_of_not_mem hc hws⟩
      · intro c hc
        obtain rfl : ',' = c := Option.some.inj hc
        rfl
    · refine ⟨sep, [], (List.append_nil sep).symm, ?_, hends.resolve_left hcomma⟩
      intro c hc
      exact ⟨hsep c hc, ne_of_mem_of_not_mem hc hcomma⟩
  have hspace : ∀ c ∈ ws, isWhitespace c = true := fun c hc =>
    isWhitespace_of_isSkipped (hws c hc).2 (hws c hc).1
  have htrim : trim (name ++ ws) = name := by rw [trim_append_whitespace hspace, h.trimmed]
  have hne : trim (name ++ ws) ≠ [] := by
    rw [htrim]
    exact h.nonempty
  obtain ⟨raw, hraw, hpieces⟩ := pieces_bare_name hne (h.append_whitespace hspace) hlater
  have hassoc : name ++ (ws ++ later) ++ t = (name ++ ws) ++ (later ++ t) := by simp
  have hskip : pieces (later ++ t) = pieces t :=
    pieces_skip (fun c hc => hsep c (List.mem_append_right ws hc)) t
  rw [hassoc, hpieces, hskip, List.map_cons, names_bare (by rwa [hraw]), hraw, htrim]

/-- The pieces of written groups yield the groups. -/
theorem Written.names {startsBare : Bool} {groups : List (List Str)} {text : Str}
    (h : Written startsBare groups text) (hnames : ∀ name ∈ groups.flatten, Writable name) :
    (pieces text).map Piece.names = groups := by
  induction h with
  | nil =>
      rw [pieces_nil]
      rfl
  | @bare name sep startsBare groups text hsep hcomma hrest ih =>
      have hends : ',' ∈ sep ∨ EndsBare text := by
        cases startsBare with
        | true => exact .inl (hcomma rfl)
        | false => exact .inr hrest.endsBare
      rw [(hnames name (by simp)).pieces_bare hsep hends,
        ih fun n hn => hnames n (by simp [hn])]
  | @closed pad inner sep names startsBare groups text hpad hinner hsep hrest ih =>
      have hwritable : ∀ name ∈ names, Writable name := fun n hn => hnames n (by simp [hn])
      have hclosing : ']' ∉ pad ++ inner := by
        rw [List.mem_append]
        exact not_or_intro (closing_notMem_padding hpad) (hinner.closing hwritable)
      rw [pieces_section hclosing, pieces_skip hsep, List.map_cons, names_padding hpad,
        hinner.names hwritable, ih fun n hn => hnames n (List.mem_append_right names hn)]
  | @unclosed pad inner names hpad hinner =>
      have hwritable : ∀ name ∈ names, Writable name := fun n hn => hnames n (by simp [hn])
      have hclosing : ']' ∉ pad ++ inner := by
        rw [List.mem_append]
        exact not_or_intro (closing_notMem_padding hpad) (hinner.closing hwritable)
      rw [pieces_unclosed hclosing, List.map_singleton, names_padding hpad, hinner.names hwritable]

/-- For every list of groups of names that can be written down and that libpfm accepts, and for
every way of writing it: the parser returns exactly these groups, with the same names in the same
order and each name with the configuration libpfm gives it. -/
theorem parse_written (pfm : Pfm) {sep text : Str} {startsBare : Bool} {groups : List (List Str)}
    (hsep : ∀ c ∈ sep, isSkipped c = true) (hwritten : Written startsBare groups text)
    (hwritable : ∀ name ∈ groups.flatten, Writable name)
    (haccepts : ∀ name ∈ groups.flatten, pfm.Accepts name) :
    ∃ parsed, parseEventGroups pfm (sep ++ text) = .returned (.ok parsed) ∧
      parsed.map (fun group => group.toList.map (·.name.text)) = groups ∧
      ∀ group ∈ parsed, ∀ config ∈ group.toList,
        PerfConfig.fromPfmString pfm config.name config.name = .ok config := by
  have hpieces : (pieces (sep ++ text)).map Piece.names = groups := by
    rw [pieces_skip hsep, hwritten.names hwritable]
  have hnoNul : ∀ piece ∈ pieces (sep ++ text), ∀ name ∈ piece.names, nul ∉ name := by
    intro piece hpiece name hname
    refine (hwritable name ?_).noNul
    rw [← hpieces]
    exact List.mem_flatten.2 ⟨piece.names, List.mem_map_of_mem hpiece, hname⟩
  have hfilter : (groups.filter fun names => !names.isEmpty) = groups := by
    rw [List.filter_eq_self]
    intro names hmem
    simpa using hwritten.ne_nil names hmem
  obtain ⟨configs, hconfigs⟩ : ∃ configs, lookupAll pfm groups = .ok configs := by
    apply FirstError.exists_mapM_mapM_iff.2
    intro name hname
    exact exists_bracketedConfig_iff.2 (haccepts name hname)
  refine ⟨configs.filterMap MaybeNonEmpty.fromIter, ?_, lookupAll_groups hconfigs hwritten.ne_nil⟩
  rw [parseEventGroups_pieces, configure_eq hnoNul, hpieces, hfilter, hconfigs]
  rfl

/-- A section, a bare name right after it, and a section that is not closed. -/
theorem parse_written_small :
    ∃ parsed,
      parseEventGroups smallPfm
          ", [ ,cycles,,\u00a0instructions\x0b]cycles [instructions,".toList =
        .returned (.ok parsed) ∧
      parsed.map (fun group => group.toList.map (·.name.text)) =
        [["cycles".toList, "instructions".toList], ["cycles".toList], ["instructions".toList]] := by
  have hcycles : Writable "cycles".toList :=
    ⟨⟨by decide, by decide, by decide⟩, by decide, by decide, by decide⟩
  have hinstructions : Writable "instructions".toList :=
    ⟨⟨by decide, by decide, by decide⟩, by decide, by decide, by decide⟩
  have hsep : ∀ c ∈ ", ".toList, isSkipped c = true := List.all_eq_true.1 (by decide)
  have hpad : ∀ c ∈ " ,".toList, isPadding c = true := List.all_eq_true.1 (by decide)
  have hgap : ∀ c ∈ ",,\u00a0".toList, isPadding c = true := List.all_eq_true.1 (by decide)
  have hend : ∀ c ∈ "\x0b".toList, isPadding c = true := List.all_eq_true.1 (by decide)
  have hcomma : ∀ c ∈ ",".toList, isPadding c = true := List.all_eq_true.1 (by decide)
  have hnothing : ∀ c ∈ "".toList, isPadding c = true := List.all_eq_true.1 (by decide)
  have hnone : ∀ c ∈ "".toList, isSkipped c = true := List.all_eq_true.1 (by decide)
  have hspace : ∀ c ∈ " ".toList, isSkipped c = true := List.all_eq_true.1 (by decide)
  have hlast := Written.unclosed hnothing (.last "instructions".toList hcomma)
  have hbare := Written.bare "cycles".toList hspace (by decide) hlast
  have hwritten := Written.closed hpad (.next "cycles".toList hgap (by decide)
    (.last "instructions".toList hend)) hnone hbare
  have haccepts : ∀ name ∈ ["cycles".toList, "instructions".toList],
      Writable name ∧ smallPfm.Accepts name := by
    intro name hname
    rcases List.mem_pair.1 hname with rfl | rfl
    · exact ⟨hcycles, ⟨"cycles".toList, by decide⟩, _, rfl, rfl⟩
    · exact ⟨hinstructions, ⟨"instructions".toList, by decide⟩, _, rfl, rfl⟩
  have hsubset : [["cycles".toList, "instructions".toList], ["cycles".toList],
      ["instructions".toList]].flatten ⊆ ["cycles".toList, "instructions".toList] := by simp
  obtain ⟨parsed, hparsed, hgroups, -⟩ := parse_written smallPfm hsep hwritten
    (fun name hname => (haccepts name (hsubset hname)).1)
    (fun name hname => (haccepts name (hsubset hname)).2)
  exact ⟨parsed, hparsed, hgroups⟩

end Threadstat

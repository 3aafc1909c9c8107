import Threadstat.Parse.Spelling

/-!
# What the parser can return

Brackets are not symmetric: a section ends at the first `]` and so may hold a `[`, while a bare name
ends at a `[` and may hold a `]`.  That and the trimming decide which groups of names there is an
event string for.  Each such list of groups has a canonical one, which the parser treats like any
other string that reads the same.
-/

namespace Threadstat

/-! ## Spellable groups -/

/-- Some event string has a group of these names. -/
structure Spellable (names : List Str) : Prop where
  ne_nil : names ≠ []
  nonempty : ∀ name ∈ names, name ≠ []
  trimmed : ∀ name ∈ names, trim name = name
  comma : ∀ name ∈ names, ',' ∉ name
  brackets : (∀ name ∈ names, ']' ∉ name) ∨ ∃ name, names = [name] ∧ '[' ∉ name

theorem trim_trim (s : Str) : trim (trim s) = trim s := by
  have hhead : (trim s).dropWhile isWhitespace = trim s := by
    cases hs : trim s with
    | nil => rfl
    | cons c t =>
        have hprefix : trim s <+: s.dropWhile isWhitespace := List.rdropWhile_prefix isWhitespace _
        rw [hs] at hprefix
        obtain ⟨u, hu⟩ := hprefix
        have hc : isWhitespace c = false := not_of_dropWhile hu.symm
        rw [List.dropWhile_cons_of_neg (by simp [hc])]
  have htail : (trim s).rdropWhile isWhitespace = trim s := List.rdropWhile_idempotent _ _
  rw [trim, hhead, htail]

theorem nextPiece_brackets {s rest : Str} {piece : Piece} (h : nextPiece s = some (piece, rest)) :
    (∀ inner, piece = .bracketed inner → ']' ∉ inner) ∧
      ∀ raw, piece = .bare raw → '[' ∉ raw := by
  unfold nextPiece at h
  split at h
  · cases h
  · split at h
    · obtain ⟨rfl, -⟩ := Prod.mk.inj (Option.some.inj h)
      refine ⟨?_, fun raw hraw => by cases hraw⟩
      rintro inner ⟨⟩ hmem
      exact absurd (List.mem_takeWhile_imp hmem) (by decide)
    · obtain ⟨rfl, -⟩ := Prod.mk.inj (Option.some.inj h)
      refine ⟨fun _ hinner => (nomatch hinner), ?_⟩
      rintro raw ⟨⟩ hmem
      exact absurd (List.mem_takeWhile_imp hmem) (by decide)

theorem pieces_brackets {s : Str} {piece : Piece} (h : piece ∈ pieces s) :
    (∀ inner, piece = .bracketed inner → ']' ∉ inner) ∧
      ∀ raw, piece = .bare raw → '[' ∉ raw := by
  induction s using pieces_induction with
  | none s hnone =>
      rw [pieces_of_none hnone] at h
      cases h
  | some s first rest hnext ih =>
      rw [pieces_of_some hnext] at h
      rcases List.mem_cons.1 h with rfl | h
      · exact nextPiece_brackets hnext
      · exact ih h

theorem Piece.names_trimmed {piece : Piece} {name : Str} (h : name ∈ piece.names) :
    name ≠ [] ∧ trim name = name := by
  cases piece with
  | bracketed inner =>
      obtain ⟨hmem, hne⟩ := List.mem_filter.1 h
      obtain ⟨part, -, rfl⟩ := List.mem_map.1 hmem
      exact ⟨by simpa using hne, trim_trim part⟩
  | bare raw =>
      obtain ⟨hmem, hne⟩ := List.mem_filter.1 h
      obtain rfl := List.mem_singleton.1 hmem
      exact ⟨by simpa using hne, trim_trim raw⟩

theorem spellable_reading {s : Str} {names : List Str} (h : names ∈ reading s) :
    Spellable names := by
  have hne := reading_ne_nil h
  rw [reading_eq] at h
  obtain ⟨piece, hpiece, rfl⟩ := List.mem_map.1 (List.mem_of_mem_filter h)
  obtain ⟨hsection, hbare⟩ := pieces_brackets hpiece
  refine ⟨hne, fun name hname => (Piece.names_trimmed hname).1,
    fun name hname => (Piece.names_trimmed hname).2,
    fun name hname => comma_notMem_names hpiece hname, ?_⟩
  cases piece with
  | bracketed inner =>
      exact .inl fun name hname hmem =>
        hsection inner rfl ((Piece.names_text hname).subset hmem)
  | bare raw =>
      have htrim : trim raw ≠ [] := by
        intro hnil
        apply hne
        rw [Piece.names, hnil]
        rfl
      exact .inr ⟨trim raw, names_bare htrim, fun hmem => hbare raw rfl (mem_trim hmem)⟩

/-! ## The canonical string -/

/-- A name alone if it can stand alone, and a section otherwise. -/
def canonicalGroup : List Str → Str
  | [name] => if '[' ∈ name then '[' :: name ++ [']'] else name
  | names => '[' :: [','].intercalate names ++ [']']

def canonical (groups : List (List Str)) : Str := eventString (groups.map canonicalGroup)

theorem Spellable.canonicalGroup_cases {names : List Str} (h : Spellable names) :
    (∃ name, names = [name] ∧ '[' ∉ name ∧ canonicalGroup names = name) ∨
      (∀ name ∈ names, ']' ∉ name) ∧
        canonicalGroup names = '[' :: [','].intercalate names ++ [']'] := by
  by_cases halone : ∃ name, names = [name] ∧ '[' ∉ name
  · obtain ⟨name, rfl, hopen⟩ := halone
    exact .inl ⟨name, rfl, hopen, if_neg hopen⟩
  · refine .inr ⟨h.brackets.resolve_right halone, ?_⟩
    unfold canonicalGroup
    split
    · next name =>
      have hopen : '[' ∈ name := by
        by_contra hopen
        exact halone ⟨name, rfl, hopen⟩
      rw [if_pos hopen, List.intercalate_singleton]
    · rfl

theorem mem_intercalate {c : Char} {names : List Str} (h : c ∈ [','].intercalate names) :
    c = ',' ∨ ∃ name ∈ names, c ∈ name := by
  induction names with
  | nil => simp at h
  | cons name names ih =>
      cases names with
      | nil => exact .inr ⟨name, List.mem_cons_self, by simpa using h⟩
      | cons name' names =>
          rw [List.intercalate_cons_cons, List.append_assoc, List.mem_append, List.mem_append,
            List.mem_singleton] at h
          rcases h with h | h | h
          · exact .inr ⟨name, List.mem_cons_self, h⟩
          · exact .inl h
          · rcases ih h with h | ⟨n, hn, hc⟩
            · exact .inl h
            · exact .inr ⟨n, List.mem_cons_of_mem name hn, hc⟩

namespace Spellable

variable {names : List Str}

theorem names_section (h : Spellable names) :
    (Piece.bracketed ([','].intercalate names)).names = names := by
  have htrim : names.map trim = names := by
    conv_rhs => rw [← List.map_id names]
    exact List.map_congr_left h.trimmed
  rw [Piece.names, List.splitOn_intercalate ',' h.comma h.ne_nil, htrim, List.filter_eq_self]
  intro name hname
  simpa using h.nonempty name hname

theorem pieces_alone {name : Str} (h : Spellable [name]) (hopen : '[' ∉ name) :
    pieces name = [.bare name] := by
  have hcomma : ',' ∉ name := h.comma name (by simp)
  have htrim : trim name = name := h.trimmed name (by simp)
  obtain ⟨c, raw, rfl⟩ := List.exists_cons_of_ne_nil (h.nonempty name (by simp))
  have hbare : ∀ d ∈ c :: raw, isBare d = true := by
    intro d hd
    have hd₁ : d ≠ ',' := ne_of_mem_of_not_mem hd hcomma
    have hd₂ : d ≠ '[' := ne_of_mem_of_not_mem hd hopen
    simp [isBare, hd₁, hd₂]
  have hskip : isSkipped c = false := by
    by_contra hskip
    rw [Bool.not_eq_false] at hskip
    have hspace := isWhitespace_of_isSkipped (ne_of_mem_of_not_mem List.mem_cons_self hcomma) hskip
    -- Trimming would have shortened the name.
    have hlength := congrArg List.length ((trim_cons hspace raw).symm.trans htrim)
    have hle := (trim_isInfix raw).length_le
    rw [List.length_cons] at hlength
    omega
  have hpieces := pieces_bare hskip hbare (t := []) fun _ hd => by cases hd
  rwa [List.append_nil, pieces_nil] at hpieces

theorem names_canonicalGroup (h : Spellable names) :
    (pieces (canonicalGroup names)).map Piece.names = [names] ∧
      (Place.after (canonicalGroup names)).inside = false := by
  rcases h.canonicalGroup_cases with ⟨name, rfl, hopen, heq⟩ | ⟨hclosing, heq⟩
  · have htrim : trim name = name := h.trimmed name (by simp)
    have hne : trim name ≠ [] := by
      rw [htrim]
      exact h.nonempty name (by simp)
    rw [heq, h.pieces_alone hopen, after_of_noOpen hopen, List.map_singleton, names_bare hne, htrim]
    exact ⟨rfl, rfl⟩
  · have hinner : ']' ∉ [','].intercalate names := by
      intro hmem
      rcases mem_intercalate hmem with hc | ⟨name, hname, hc⟩
      · cases hc
      · exact hclosing name hname hc
    rw [heq, pieces_section hinner, pieces_nil, List.map_singleton, h.names_section]
    refine ⟨rfl, ?_⟩
    have hafter : Place.after ([] ++ '[' :: [','].intercalate names) = ⟨true, 1⟩ :=
      after_open (fun _ hc => by cases hc) hinner
    rw [Place.after, List.foldl_append]
    show (Place.next (Place.after ([] ++ '[' :: [','].intercalate names)) ']').inside = false
    rw [hafter]
    rfl

end Spellable

theorem reading_canonicalGroup {names : List Str} (h : Spellable names) :
    reading (canonicalGroup names) = [names] := by
  rw [reading_eq, h.names_canonicalGroup.1]
  exact List.filter_cons_of_pos (by simpa using h.ne_nil)

/-- The canonical string reads as what it was made from. -/
theorem reading_canonical {groups : List (List Str)} (h : ∀ names ∈ groups, Spellable names) :
    reading (canonical groups) = groups := by
  induction groups with
  | nil =>
      rw [canonical, List.map_nil, eventString, List.intercalate_nil, reading_eq, pieces_nil]
      rfl
  | cons names groups ih =>
      have hnames := h names List.mem_cons_self
      have hrest := ih fun n hn => h n (List.mem_cons_of_mem names hn)
      cases groups with
      | nil =>
          rw [canonical, List.map_singleton, eventString, List.intercalate_singleton]
          exact reading_canonicalGroup hnames
      | cons names' groups =>
          have hstring : canonical (names :: names' :: groups) =
              canonicalGroup names ++ ',' :: canonical (names' :: groups) := by
            rw [canonical, List.map_cons, List.map_cons, eventString, List.intercalate_cons_cons,
              List.append_assoc]
            rfl
          rw [hstring, reading_comma hnames.names_canonicalGroup.2, reading_canonicalGroup hnames,
            hrest]
          rfl

theorem nul_notMem_canonical {groups : List (List Str)} (h : ∀ names ∈ groups, Spellable names)
    (hnul : ∀ names ∈ groups, ∀ name ∈ names, nul ∉ name) : nul ∉ canonical groups := by
  apply nul_notMem_eventString
  intro w hw
  obtain ⟨names, hnames, rfl⟩ := List.mem_map.1 hw
  rcases (h names hnames).canonicalGroup_cases with ⟨name, rfl, -, heq⟩ | ⟨-, heq⟩
  · rw [heq]
    exact hnul _ hnames name (by simp)
  · rw [heq, List.mem_append, List.mem_cons, List.mem_singleton]
    rintro ((hc | hc) | hc)
    · exact absurd hc (by decide)
    · rcases mem_intercalate hc with hc | ⟨name, hname, hc⟩
      · exact absurd hc (by decide)
      · exact hnul names hnames name hname hc
    · exact absurd hc (by decide)

/-! ## Parsing the canonical string -/

/-- The parser treats the canonical string of what a string says like the string itself: it returns
the same groups or fails with the same error. -/
theorem parse_canonical (pfm : Pfm) {s : Str} (hs : nul ∉ s) :
    parseEventGroups pfm (canonical (reading s)) = parseEventGroups pfm s := by
  have hspellable : ∀ names ∈ reading s, Spellable names := fun _ => spellable_reading
  have hnul : nul ∉ canonical (reading s) := by
    refine nul_notMem_canonical hspellable fun names hnames name hname hmem => hs ?_
    exact (reading_isInfix (List.mem_flatten.2 ⟨names, hnames, hname⟩)).1.subset hmem
  rw [parseEventGroups_eq hnul, parseEventGroups_eq hs, reading_canonical hspellable]

theorem parse_canonical_small :
    parseEventGroups smallPfm "[cycles,instructions],cycles".toList =
      parseEventGroups smallPfm ", [ ,cycles,,instructions ]\tcycles ,".toList := by
  have hcanonical : canonical (reading ", [ ,cycles,,instructions ]\tcycles ,".toList) =
      "[cycles,instructions],cycles".toList := by decide
  rw [← hcanonical]
  exact parse_canonical smallPfm (by decide)

/-- The parser can return groups of these names, in this order, if and only if each group is
spellable and libpfm accepts each name. -/
theorem parse_reaches_iff (pfm : Pfm) (groups : List (List Str)) :
    (∃ s parsed, parseEventGroups pfm s = .returned (.ok parsed) ∧
        parsed.map (fun group => group.toList.map (·.name.text)) = groups) ↔
      ∀ names ∈ groups, Spellable names ∧ ∀ name ∈ names, pfm.Accepts name := by
  constructor
  · rintro ⟨s, parsed, hparse, rfl⟩ names hnames
    obtain ⟨hreading, hconfigs⟩ := accepted_reading hparse
    refine ⟨spellable_reading (hreading ▸ hnames), fun name hname => ?_⟩
    obtain ⟨group, hgroup, rfl⟩ := List.mem_map.1 hnames
    obtain ⟨config, hconfig, rfl⟩ := List.mem_map.1 hname
    exact ⟨config.name, config, rfl, hconfigs group hgroup config hconfig⟩
  · intro h
    have hspellable : ∀ names ∈ groups, Spellable names := fun names hnames => (h names hnames).1
    have hreading := reading_canonical hspellable
    have hnul : nul ∉ canonical groups := by
      refine nul_notMem_canonical hspellable fun names hnames name hname => ?_
      obtain ⟨interned, -, rfl, -⟩ := (h names hnames).2 name hname
      exact interned.noNul
    obtain ⟨result, hparse, haccepted, hgroups, -⟩ :=
      parse_returns_reading pfm (canonical groups) hnul
    rw [hreading] at haccepted hgroups
    obtain ⟨parsed, rfl⟩ := haccepted.2 fun name hname => by
      obtain ⟨names, hnames, hmem⟩ := List.mem_flatten.1 hname
      exact (h names hnames).2 name hmem
    exact ⟨canonical groups, parsed, hparse, (hgroups parsed rfl).1⟩

end Threadstat

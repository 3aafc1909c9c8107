import Threadstat.Lib.FirstError
import Threadstat.Parse.Reading

/-!
# Looking the names up

Every name of an event string is looked up in libpfm, from left to right, and the first name that
libpfm rejects decides the error.  Together with the reading this says what the parser returns.
-/

namespace Threadstat

/-! ## Where names come from -/

theorem trim_isInfix (s : Str) : trim s <:+: s := by
  have hleft : s.dropWhile isWhitespace <:+: s := (List.dropWhile_suffix isWhitespace).isInfix
  exact (List.rdropWhile_prefix isWhitespace _).isInfix.trans hleft

theorem mem_trim {c : Char} {s : Str} (h : c ∈ trim s) : c ∈ s := (trim_isInfix s).subset h

theorem splitOnP_isInfix {p : Char → Bool} {s part : Str} (hpart : part ∈ s.splitOnP p) :
    part <:+: s := by
  -- The first part is even a prefix of the string.
  suffices hparts : (∀ head ∈ (s.splitOnP p).head?, head <+: s) ∧ ∀ q ∈ s.splitOnP p, q <:+: s from
    hparts.2 part hpart
  clear hpart
  induction s with
  | nil => simp
  | cons d s ih =>
      obtain ⟨head, tail, htail⟩ := List.exists_cons_of_ne_nil (List.splitOnP_ne_nil p s)
      rw [htail] at ih
      have hprefix : head <+: s := ih.1 head rfl
      have hlater : ∀ q ∈ head :: tail, q <:+: d :: s := fun q hq =>
        (ih.2 q hq).trans (List.suffix_cons d s).isInfix
      rw [List.splitOnP_cons_eq_if_modifyHead, htail]
      split
      · refine ⟨by simp, fun q hq => ?_⟩
        rcases List.mem_cons.1 hq with rfl | hq
        · exact List.nil_infix
        · exact hlater q hq
      · have hhead : d :: head <+: d :: s := (List.prefix_cons_inj d).2 hprefix
        rw [List.modifyHead_cons]
        refine ⟨fun q hq => ?_, fun q hq => ?_⟩
        · obtain rfl : d :: head = q := Option.some.inj hq
          exact hhead
        · rcases List.mem_cons.1 hq with rfl | hq
          · exact hhead.isInfix
          · exact hlater q (List.mem_cons_of_mem head hq)

theorem splitOnP_free {p : Char → Bool} {s part : Str} (hpart : part ∈ s.splitOnP p) {c : Char}
    (hc : c ∈ part) : p c = false := by
  induction s generalizing part with
  | nil =>
      rw [List.splitOnP_nil, List.mem_singleton] at hpart
      rw [hpart] at hc
      cases hc
  | cons d s ih =>
      rw [List.splitOnP_cons_eq_if_modifyHead] at hpart
      split at hpart
      · rcases List.mem_cons.1 hpart with rfl | hpart
        · cases hc
        · exact ih hpart hc
      · next hd =>
        obtain ⟨head, tail, htail⟩ := List.exists_cons_of_ne_nil (List.splitOnP_ne_nil p s)
        rw [htail, List.modifyHead_cons] at hpart
        rw [htail] at ih
        rcases List.mem_cons.1 hpart with rfl | hpart
        · rcases List.mem_cons.1 hc with rfl | hc
          · simpa using hd
          · exact ih List.mem_cons_self hc
        · exact ih (List.mem_cons_of_mem head hpart) hc

def Piece.text : Piece → Str
  | .bracketed inner => inner
  | .bare raw => raw

theorem nextPiece_text {s rest : Str} {piece : Piece} (h : nextPiece s = some (piece, rest)) :
    piece.text <:+: s ∧ ∀ raw, piece = .bare raw → ',' ∉ raw := by
  have hskip := (List.dropWhile_suffix isSkipped (l := s)).isInfix
  unfold nextPiece at h
  split at h
  · cases h
  · next d t hdrop =>
    rw [hdrop] at hskip
    split at h
    · obtain ⟨rfl, -⟩ := Prod.mk.inj (Option.some.inj h)
      have hinner : t.takeWhile (· != ']') <:+: d :: t :=
        (List.takeWhile_prefix _).isInfix.trans (List.suffix_cons d t).isInfix
      exact ⟨hinner.trans hskip, fun raw hraw => by cases hraw⟩
    · obtain ⟨rfl, -⟩ := Prod.mk.inj (Option.some.inj h)
      refine ⟨(List.takeWhile_prefix _).isInfix.trans hskip, ?_⟩
      rintro raw ⟨⟩ hcomma
      exact absurd (List.mem_takeWhile_imp hcomma) (by decide)

theorem pieces_text {s : Str} {piece : Piece} (h : piece ∈ pieces s) :
    piece.text <:+: s ∧ ∀ raw, piece = .bare raw → ',' ∉ raw := by
  induction s using pieces_induction with
  | none s hnone =>
      rw [pieces_of_none hnone] at h
      cases h
  | some s first rest hnext ih =>
      rw [pieces_of_some hnext] at h
      rcases List.mem_cons.1 h with rfl | h
      · exact nextPiece_text hnext
      · obtain ⟨hwithin, hcomma⟩ := ih h
        exact ⟨hwithin.trans (nextPiece_suffix hnext).isInfix, hcomma⟩

theorem Piece.names_text {piece : Piece} {name : Str} (h : name ∈ piece.names) :
    name <:+: piece.text := by
  cases piece with
  | bracketed inner =>
      obtain ⟨part, hpart, rfl⟩ := List.mem_map.1 (List.mem_of_mem_filter h)
      rw [List.splitOn_eq_splitOnP] at hpart
      exact (trim_isInfix part).trans (splitOnP_isInfix hpart)
  | bare raw =>
      rw [Piece.names] at h
      obtain rfl := List.mem_singleton.1 (List.mem_of_mem_filter h)
      exact trim_isInfix raw

theorem comma_notMem_names {s name : Str} {piece : Piece} (hpiece : piece ∈ pieces s)
    (h : name ∈ piece.names) : ',' ∉ name := by
  intro hcomma
  cases piece with
  | bracketed inner =>
      obtain ⟨part, hpart, rfl⟩ := List.mem_map.1 (List.mem_of_mem_filter h)
      rw [List.splitOn_eq_splitOnP] at hpart
      exact absurd (splitOnP_free hpart (mem_trim hcomma)) (by simp)
  | bare raw =>
      rw [Piece.names] at h
      obtain rfl := List.mem_singleton.1 (List.mem_of_mem_filter h)
      exact (pieces_text hpiece).2 raw rfl (mem_trim hcomma)

/-! ## Looking the names up -/

section Lookup

variable (pfm : Pfm)

def lookupGroup (names : List Str) : Except ParseError (Option (NonEmpty (PerfConfig InternC))) :=
  (names.mapM (bracketedConfig pfm)).map MaybeNonEmpty.fromIter

def lookupAll (groups : List (List Str)) : Except ParseError (List (List (PerfConfig InternC))) :=
  groups.mapM fun names => names.mapM (bracketedConfig pfm)

variable {pfm}

theorem bracketedConfig_of_noNul {e : Str} (h : nul ∉ e) :
    bracketedConfig pfm e = (PerfConfig.fromPfmString pfm ⟨e, h⟩ ⟨e, h⟩).mapError .Pfm := by
  rw [bracketedConfig, InternC.tryNew, dif_neg h]
  rfl

/-- Without NUL characters, bare and bracketed names are looked up alike. -/
theorem Piece.result_of_noNul {piece : Piece} (h : ∀ name ∈ piece.names, nul ∉ name) :
    piece.result pfm = .returned (lookupGroup pfm piece.names) := by
  cases piece with
  | bracketed inner =>
      rw [Piece.result, bracketedGroup, lookupGroup, Piece.names]
      cases (((inner.splitOn ',').map trim).filter fun e => !e.isEmpty).mapM
        (bracketedConfig pfm) <;> rfl
  | bare raw =>
      rw [Piece.result]
      cases htrim : trim raw with
      | nil =>
          rw [Piece.names, htrim]
          rfl
      | cons c text =>
          have hnames : (Piece.bare raw).names = [c :: text] := by rw [Piece.names, htrim]; rfl
          have hnul : nul ∉ c :: text := h _ (by rw [hnames]; exact List.mem_cons_self)
          rw [hnames, lookupGroup, List.isEmpty_cons, InternC.tryNew, dif_neg hnul]
          dsimp only [Bool.false_eq_true, if_false]
          let interned : InternC := ⟨c :: text, hnul⟩
          cases hconfig : PerfConfig.fromPfmString pfm interned interned with
          | error e =>
              rw [FirstError.mapM_cons_error (by rw [bracketedConfig_of_noNul hnul, hconfig]; rfl)]
              rfl
          | ok config =>
              rw [FirstError.mapM_cons_ok (by rw [bracketedConfig_of_noNul hnul, hconfig]; rfl)]
              rfl

theorem lookupAll_cons (names : List Str) (groups : List (List Str)) :
    lookupAll pfm (names :: groups) =
      match names.mapM (bracketedConfig pfm) with
      | .error e => .error e
      | .ok configs => (lookupAll pfm groups).map (configs :: ·) := by
  unfold lookupAll
  cases hnames : names.mapM (bracketedConfig pfm) with
  | error e => exact FirstError.mapM_cons_error hnames groups
  | ok configs => exact FirstError.mapM_cons_ok hnames groups

theorem configure_eq {ps : List Piece} (h : ∀ piece ∈ ps, ∀ name ∈ piece.names, nul ∉ name)
    (groups : EventGroups) :
    configure pfm ps groups =
      .returned ((lookupAll pfm ((ps.map Piece.names).filter fun names => !names.isEmpty)).map
        fun configs => groups ++ configs.filterMap MaybeNonEmpty.fromIter) := by
  induction ps generalizing groups with
  | nil =>
      exact congrArg (fun gs => Parsed.returned (Except.ok gs)) (List.append_nil groups).symm
  | cons piece ps ih =>
      have ih := ih fun p hp => h p (List.mem_cons_of_mem piece hp)
      rw [configure, Piece.result_of_noNul (h piece List.mem_cons_self), lookupGroup,
        List.map_cons]
      cases hempty : piece.names with
      | nil =>
          rw [List.filter_cons_of_neg (by simp)]
          show configure pfm ps (groups ++ []) = _
          rw [List.append_nil]
          exact ih groups
      | cons name names =>
          rw [List.filter_cons_of_pos (by simp), lookupAll_cons]
          cases hconfigs : (name :: names).mapM (bracketedConfig pfm) with
          | error e => rfl
          | ok configs =>
              dsimp only [Except.map]
              rw [ih]
              cases lookupAll pfm ((ps.map Piece.names).filter fun names => !names.isEmpty) with
              | error e => rfl
              | ok rest =>
                  dsimp only [Except.map]
                  rw [List.append_assoc]
                  cases hgroup : MaybeNonEmpty.fromIter configs with
                  | none => rw [List.filterMap_cons_none hgroup]; rfl
                  | some group => rw [List.filterMap_cons_some hgroup]; rfl

theorem mem_reading {s name : Str} (h : name ∈ (reading s).flatten) :
    ∃ piece ∈ pieces s, name ∈ piece.names := by
  rw [reading_eq] at h
  obtain ⟨names, hnames, hname⟩ := List.mem_flatten.1 h
  obtain ⟨piece, hpiece, rfl⟩ := List.mem_map.1 (List.mem_of_mem_filter hnames)
  exact ⟨piece, hpiece, hname⟩

/-- A name of an event string stands in it as it is, and has no comma. -/
theorem reading_isInfix {s name : Str} (h : name ∈ (reading s).flatten) :
    name <:+: s ∧ ',' ∉ name := by
  obtain ⟨piece, hpiece, hname⟩ := mem_reading h
  exact ⟨(Piece.names_text hname).trans (pieces_text hpiece).1, comma_notMem_names hpiece hname⟩

theorem reading_ne_nil {s : Str} {names : List Str} (h : names ∈ reading s) : names ≠ [] := by
  rw [reading_eq] at h
  simpa using (List.mem_filter.1 h).2

/-- The parser looks up the reading of the string. -/
theorem parseEventGroups_eq {s : Str} (hs : nul ∉ s) :
    parseEventGroups pfm s =
      .returned ((lookupAll pfm (reading s)).map (·.filterMap MaybeNonEmpty.fromIter)) := by
  rw [parseEventGroups_pieces, reading_eq]
  refine configure_eq (fun piece hpiece name hname hnul => ?_) []
  exact hs ((pieces_text hpiece).1.subset ((Piece.names_text hname).subset hnul))

theorem fromPfmString_ok {event name : InternC} {config : PerfConfig InternC}
    (h : PerfConfig.fromPfmString pfm event name = .ok config) :
    pfm.getPerfAttr event = .ok config.attr ∧ config.name = name := by
  unfold PerfConfig.fromPfmString at h
  cases hinit : pfm.init with
  | error e =>
      rw [hinit] at h
      cases h
  | ok u =>
      cases hattr : pfm.getPerfAttr event with
      | error e =>
          rw [hinit, hattr] at h
          cases h
      | ok attr =>
          rw [hinit, hattr] at h
          obtain rfl := Except.ok.inj h
          exact ⟨rfl, rfl⟩

def Pfm.Accepts (pfm : Pfm) (name : Str) : Prop :=
  ∃ (interned : InternC) (config : PerfConfig InternC), interned.text = name ∧
    PerfConfig.fromPfmString pfm interned interned = .ok config

theorem bracketedConfig_of_nul {e : Str} (h : nul ∈ e) :
    bracketedConfig pfm e = .error (.InternalNULL {}) := by
  rw [bracketedConfig, InternC.tryNew, dif_pos h]
  rfl

theorem bracketedConfig_ok {e : Str} {config : PerfConfig InternC}
    (h : bracketedConfig pfm e = .ok config) :
    config.name.text = e ∧ PerfConfig.fromPfmString pfm config.name config.name = .ok config := by
  by_cases hnul : nul ∈ e
  · rw [bracketedConfig_of_nul hnul] at h
    cases h
  · rw [bracketedConfig_of_noNul hnul] at h
    cases hfrom : PerfConfig.fromPfmString pfm (⟨e, hnul⟩ : InternC) (⟨e, hnul⟩ : InternC) with
    | error perr =>
        rw [hfrom] at h
        cases h
    | ok config' =>
        rw [hfrom] at h
        obtain rfl : config' = config := Except.ok.inj h
        rw [(fromPfmString_ok hfrom).2]
        exact ⟨rfl, hfrom⟩

theorem exists_bracketedConfig_iff {e : Str} :
    (∃ config, bracketedConfig pfm e = .ok config) ↔ pfm.Accepts e := by
  constructor
  · rintro ⟨config, hconfig⟩
    obtain ⟨hname, hfrom⟩ := bracketedConfig_ok hconfig
    exact ⟨config.name, config, hname, hfrom⟩
  · rintro ⟨interned, config, rfl, hfrom⟩
    refine ⟨config, ?_⟩
    rw [bracketedConfig_of_noNul interned.noNul]
    exact congrArg (Except.mapError ParseError.Pfm) hfrom

theorem bracketedConfig_error {e : Str} (hnul : nul ∉ e) {err : ParseError}
    (h : bracketedConfig pfm e = .error err) :
    ∃ (interned : InternC) (perr : PfmError), interned.text = e ∧
      PerfConfig.fromPfmString pfm interned interned = .error perr ∧ err = .Pfm perr := by
  rw [bracketedConfig_of_noNul hnul] at h
  cases hfrom : PerfConfig.fromPfmString pfm (⟨e, hnul⟩ : InternC) (⟨e, hnul⟩ : InternC) with
  | error perr =>
      rw [hfrom] at h
      exact ⟨_, perr, rfl, hfrom, (Except.error.inj h).symm⟩
  | ok config =>
      rw [hfrom] at h
      cases h

theorem map_toList_filterMap {configs : List (List (PerfConfig InternC))}
    (h : ∀ group ∈ configs, group ≠ []) :
    (configs.filterMap MaybeNonEmpty.fromIter).map NonEmpty.toList = configs := by
  induction configs with
  | nil => rfl
  | cons group configs ih =>
      have hgroup := MaybeNonEmpty.fromIter_of_ne (h group List.mem_cons_self)
      rw [List.filterMap_cons_some hgroup, List.map_cons,
        ih fun g hg => h g (List.mem_cons_of_mem group hg)]

theorem lookupAll_names {groups : List (List Str)} {configs : List (List (PerfConfig InternC))}
    (h : lookupAll pfm groups = .ok configs) :
    configs.map (·.map (·.name.text)) = groups :=
  FirstError.map_of_mapM (fun _ _ hnames =>
    FirstError.map_of_mapM (fun _ _ hname => (bracketedConfig_ok hname).1) hnames) h

theorem lookupAll_configs {groups : List (List Str)} {configs : List (List (PerfConfig InternC))}
    (h : lookupAll pfm groups = .ok configs) {group : List (PerfConfig InternC)}
    (hgroup : group ∈ configs) {config : PerfConfig InternC} (hconfig : config ∈ group) :
    PerfConfig.fromPfmString pfm config.name config.name = .ok config := by
  obtain ⟨names, -, hnames⟩ :=
    FirstError.exists_of_mem_right (FirstError.forall₂_of_mapM h) hgroup
  obtain ⟨name, -, hname⟩ :=
    FirstError.exists_of_mem_right (FirstError.forall₂_of_mapM hnames) hconfig
  exact (bracketedConfig_ok hname).2

theorem lookupAll_groups {groups : List (List Str)} {configs : List (List (PerfConfig InternC))}
    (h : lookupAll pfm groups = .ok configs) (hne : ∀ names ∈ groups, names ≠ []) :
    (configs.filterMap MaybeNonEmpty.fromIter).map (fun group => group.toList.map (·.name.text)) =
        groups ∧
      ∀ group ∈ configs.filterMap MaybeNonEmpty.fromIter, ∀ config ∈ group.toList,
        PerfConfig.fromPfmString pfm config.name config.name = .ok config := by
  have hnames := lookupAll_names h
  have hconfigs : ∀ group ∈ configs, group ≠ [] := by
    rintro group hgroup rfl
    refine hne [] ?_ rfl
    rw [← hnames]
    exact List.mem_map.2 ⟨[], hgroup, rfl⟩
  have hgroups := map_toList_filterMap hconfigs
  constructor
  · conv_rhs => rw [← hnames, ← hgroups, List.map_map]
    rfl
  · intro group hgroup config hconfig
    refine lookupAll_configs h ?_ hconfig
    rw [← hgroups]
    exact List.mem_map.2 ⟨group, hgroup, rfl⟩

/-! ## Accepted strings -/

theorem noNul_of_bracketedConfig {e : Str} {config : PerfConfig InternC}
    (h : bracketedConfig pfm e = .ok config) : nul ∉ e := by
  intro hnul
  rw [bracketedConfig_of_nul hnul] at h
  cases h

theorem noNul_of_result {piece : Piece} {group : Option (NonEmpty (PerfConfig InternC))}
    (h : piece.result pfm = .returned (.ok group)) : ∀ name ∈ piece.names, nul ∉ name := by
  intro name hname
  cases piece with
  | bracketed inner =>
      rw [Piece.result, bracketedGroup, ← Piece.names] at h
      obtain ⟨configs, hconfigs⟩ :
          ∃ configs, (Piece.bracketed inner).names.mapM (bracketedConfig pfm) = .ok configs := by
        generalize (Piece.bracketed inner).names.mapM (bracketedConfig pfm) = answer at h
        cases answer with
        | error e => cases h
        | ok configs => exact ⟨configs, rfl⟩
      obtain ⟨config, hconfig⟩ := FirstError.exists_mapM_iff.1 ⟨configs, hconfigs⟩ name hname
      exact noNul_of_bracketedConfig hconfig
  | bare raw =>
      rw [Piece.names] at hname
      obtain ⟨hmem, hne⟩ := List.mem_filter.1 hname
      obtain rfl := List.mem_singleton.1 hmem
      rw [Piece.result, if_neg (by simpa using hne)] at h
      intro hnul
      rw [InternC.tryNew, dif_pos hnul] at h
      cases h

theorem noNul_of_configure {ps : List Piece} {before groups : EventGroups}
    (h : configure pfm ps before = .returned (.ok groups)) :
    ∀ piece ∈ ps, ∀ name ∈ piece.names, nul ∉ name := by
  induction ps generalizing before with
  | nil => simp
  | cons piece ps ih =>
      rw [configure] at h
      cases hresult : piece.result pfm with
      | panicked =>
          rw [hresult] at h
          cases h
      | returned result =>
          rw [hresult] at h
          cases result with
          | error e => cases h
          | ok group => exact List.forall_mem_cons.2 ⟨noNul_of_result hresult, ih h⟩

/-- The groups of an accepted string are those of its reading, whatever characters it has. -/
theorem accepted_reading {s : Str} {groups : EventGroups}
    (h : parseEventGroups pfm s = .returned (.ok groups)) :
    groups.map (fun group => group.toList.map (·.name.text)) = reading s ∧
      ∀ group ∈ groups, ∀ config ∈ group.toList,
        PerfConfig.fromPfmString pfm config.name config.name = .ok config := by
  rw [parseEventGroups_pieces] at h
  have hnoNul := noNul_of_configure h
  rw [configure_eq hnoNul, ← reading_eq] at h
  cases hlookup : lookupAll pfm (reading s) with
  | error e =>
      rw [hlookup] at h
      cases h
  | ok configs =>
      rw [hlookup] at h
      obtain rfl : configs.filterMap MaybeNonEmpty.fromIter = groups :=
        Except.ok.inj (Parsed.returned.inj h)
      exact lookupAll_groups hlookup fun names => reading_ne_nil

end Lookup

/-- Without NUL characters the parser returns exactly the groups of the reading, each name with the
configuration libpfm gives it, if libpfm accepts every name, and otherwise the error of the
leftmost name it rejects. -/
theorem parse_returns_reading (pfm : Pfm) (s : Str) (hs : nul ∉ s) :
    ∃ result, parseEventGroups pfm s = .returned result ∧
      ((∃ groups, result = .ok groups) ↔ ∀ name ∈ (reading s).flatten, pfm.Accepts name) ∧
      (∀ groups, result = .ok groups →
        groups.map (fun group => group.toList.map (·.name.text)) = reading s ∧
        ∀ group ∈ groups, ∀ config ∈ group.toList,
          PerfConfig.fromPfmString pfm config.name config.name = .ok config) ∧
      ∀ e, result = .error e → ∃ earlier interned later perr,
        (reading s).flatten = earlier ++ interned.text :: later ∧
        (∀ name ∈ earlier, pfm.Accepts name) ∧
        PerfConfig.fromPfmString pfm interned interned = .error perr ∧ e = .Pfm perr := by
  have hiff : (∃ configs, lookupAll pfm (reading s) = .ok configs) ↔
      ∀ name ∈ (reading s).flatten, pfm.Accepts name := by
    simp only [lookupAll, FirstError.exists_mapM_mapM_iff, exists_bracketedConfig_iff]
  refine ⟨_, parseEventGroups_eq hs, ?_⟩
  cases hlookup : lookupAll pfm (reading s) with
  | error e =>
      refine ⟨?_, fun groups h => (nomatch h), fun e' h => ?_⟩
      · rw [← hiff]
        refine ⟨fun ⟨groups, h⟩ => (nomatch h), fun ⟨configs, h⟩ => ?_⟩
        rw [show lookupAll pfm (reading s) = .ok configs from h] at hlookup
        cases hlookup
      · obtain rfl := Except.error.inj h
        obtain ⟨earlier, name, later, hsplit, hok, hname⟩ := FirstError.fails_flatten hlookup
        have hnul : nul ∉ name := fun hc =>
          hs ((reading_isInfix (by rw [hsplit]; simp)).1.subset hc)
        obtain ⟨interned, perr, rfl, hfrom, rfl⟩ := bracketedConfig_error hnul hname
        exact ⟨earlier, interned, later, perr, hsplit,
          fun y hy => exists_bracketedConfig_iff.1 (hok y hy), hfrom, rfl⟩
  | ok configs =>
      refine ⟨iff_of_true ⟨_, rfl⟩ (hiff.1 ⟨configs, hlookup⟩), fun groups h => ?_,
        fun e h => (nomatch h)⟩
      obtain rfl := Except.ok.inj h
      exact lookupAll_groups hlookup fun names => reading_ne_nil

def smallPfm : Pfm where
  init := .ok ()
  getPerfAttr event :=
    if event.text = "cycles".toList then .ok ⟨136, 0, 0, 0, true⟩
    else if event.text = "instructions".toList then .ok ⟨136, 0, 1, 0, true⟩
    else .error ⟨-4⟩

theorem parse_returns_reading_small :
    ∃ groups, parseEventGroups smallPfm "cycles [instructions, cycles".toList =
        .returned (.ok groups) ∧
      groups.map (fun group => group.toList.map (·.name.text)) =
        [["cycles".toList], ["instructions".toList, "cycles".toList]] := by
  obtain ⟨result, hresult, hiff, hgroups, -⟩ :=
    parse_returns_reading smallPfm "cycles [instructions, cycles".toList (by decide)
  have hreading : reading "cycles [instructions, cycles".toList =
      [["cycles".toList], ["instructions".toList, "cycles".toList]] := by decide
  have haccepts : ∀ name ∈ ["cycles".toList, "instructions".toList], smallPfm.Accepts name := by
    intro name hname
    rcases List.mem_pair.1 hname with rfl | rfl
    · exact ⟨⟨"cycles".toList, by decide⟩, _, rfl, rfl⟩
    · exact ⟨⟨"instructions".toList, by decide⟩, _, rfl, rfl⟩
  have hsubset : (reading "cycles [instructions, cycles".toList).flatten ⊆
      ["cycles".toList, "instructions".toList] := by
    rw [hreading]
    simp
  obtain ⟨groups, rfl⟩ := hiff.2 fun name hname => haccepts name (hsubset hname)
  exact ⟨groups, hresult, (hgroups groups rfl).1.trans hreading⟩

end Threadstat

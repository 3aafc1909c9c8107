import Threadstat.Parse.Lookup
import Threadstat.State.Joins
import Threadstat.State.Opening

/-!
# Reading the description file back

The names in the description file come from the event string and are written as they are.  They can
be split off again because the parser never lets a comma into a name, which holds of the groups it
returns, of the members the daemon opens from them and of every row it writes about these.
-/

namespace Threadstat

open CsvText

/-! ## Where description rows come from -/

/-- The row describes an event that was opened for its thread under the name of a configured one. -/
structure Describes (configs : List (NonEmpty (PerfConfig InternC))) (log : List (Syscall InternC))
    (row : DescRow) : Prop where
  configured : ∃ group ∈ configs, ∃ config ∈ group.toList, config.name.text = row.name
  opened : ∃ ev ∈ openedIn log, ev.id = row.id ∧ ev.config.name.text = row.name ∧ ev.pid = row.tid

theorem Describes.append {configs : List (NonEmpty (PerfConfig InternC))}
    {log : List (Syscall InternC)} {row : DescRow} (h : Describes configs log row)
    (tail : List (Syscall InternC)) : Describes configs (log ++ tail) row := by
  obtain ⟨ev, hev, hrest⟩ := h.opened
  refine ⟨h.configured, ev, ?_, hrest⟩
  rw [openedIn_append]
  exact List.mem_append_left _ hev

theorem Attempt.names {tid : Pid} {configs : List (PerfConfig InternC)}
    {calls : List (Syscall InternC)} {group : PerfStatGroup InternC}
    {evs : List (PerfEvent InternC)} (h : Attempt tid configs calls (some (group, evs)))
    {stat : PerfStat InternC} (hstat : stat ∈ group.fds.toList) :
    ∃ config ∈ configs, config.name = stat.name := by
  cases h with
  | whole first evs group hlength hstats =>
      rw [hstats, statsOf, List.mem_iff_getElem] at hstat
      obtain ⟨i, hi, rfl⟩ := hstat
      have hconfig : i < configs.length := by
        rw [List.length_zipWith] at hi
        omega
      refine ⟨configs[i], List.getElem_mem hconfig, ?_⟩
      rw [List.getElem_zipWith]

namespace World

theorem openGroups_names (env : Env) (tid : Pid) {configs : List (NonEmpty (PerfConfig InternC))}
    {k : Kernel InternC} (hk : k.Ok) {group : PerfStatGroup InternC}
    (hgroup : group ∈ (openGroups env tid configs k).1) {stat : PerfStat InternC}
    (hstat : stat ∈ group.fds.toList) :
    ∃ group ∈ configs, ∃ config ∈ group.toList, config.name = stat.name := by
  obtain ⟨attempts, hall, -, hgroups, -⟩ := openGroups_attempts env tid configs hk
  rw [hgroups] at hgroup
  obtain ⟨whole, hwhole, rfl⟩ := List.mem_map.1 hgroup
  obtain ⟨attempt, hattempt, hsome⟩ := List.mem_filterMap.1 hwhole
  obtain ⟨input, hinput, hone⟩ := FirstError.exists_of_mem_right hall hattempt
  rw [hsome] at hone
  exact ⟨input, hinput, hone.names hstat⟩

/-! ## The file and the trace -/

/-- The files hold what the trace says was written, and every description among it has a source. -/
structure Logged (configs : List (NonEmpty (PerfConfig InternC))) (w : World) : Prop where
  files : w.state.csv = csvOf w.kernel.trace
  descs : ∀ row ∈ fileDescs w.kernel.trace, Describes configs w.kernel.trace row

section Logged

variable {env : Env} {configs : List (NonEmpty (PerfConfig InternC))} {w w' : World}

theorem new_logged : (new configs).Logged configs := ⟨rfl, by simp [new, fileDescs, Kernel.init]⟩

theorem Logged.quiet (h : w.Logged configs) (hcsv : w'.state.csv = w.state.csv)
    (hcalls : Kernel.Extends (fun s => ¬ s.isWrite) w.kernel w'.kernel) : w'.Logged configs := by
  obtain ⟨tail, htrace, htail⟩ := hcalls
  constructor
  · rw [hcsv, h.files, htrace, csvOf_quiet _ htail]
  · intro row hrow
    rw [htrace, mem_fileDescs, List.mem_append] at hrow
    rw [htrace]
    rcases hrow with hrow | hrow
    · exact (h.descs row (mem_fileDescs.2 hrow)).append tail
    · exact absurd trivial (htail _ hrow)

theorem Logged.writeRow (h : w.Logged configs) {row : CsvRow}
    (hrow : ∀ desc, row = .desc desc → Describes configs w.kernel.trace desc) :
    (w.writeRow env row).Logged configs := by
  constructor
  · rw [writeRow_csv, writeRow_kernel, Kernel.trace_note, h.files]
    exact (csvOf_write _ _ _).symm
  · intro desc hdesc
    rw [writeRow_kernel, Kernel.trace_note, mem_fileDescs, List.mem_append,
      List.mem_singleton] at hdesc
    rw [writeRow_kernel, Kernel.trace_note]
    apply Describes.append
    rcases hdesc with hdesc | hdesc
    · exact h.descs desc (mem_fileDescs.2 hdesc)
    · exact hrow desc (Syscall.write.inj hdesc).1.symm

theorem Logged.writeRows (h : w.Logged configs) {rows : List CsvRow}
    (hrows : ∀ row ∈ rows, ∀ desc, row ≠ .desc desc) : (w.writeRows env rows).Logged configs := by
  induction rows generalizing w with
  | nil => exact h
  | cons row rows ih =>
      have hrow : (w.writeRow env row).Logged configs :=
        h.writeRow fun desc heq => absurd heq (hrows row List.mem_cons_self desc)
      exact ih hrow fun r hr => hrows r (List.mem_cons_of_mem row hr)

theorem Logged.flushGroup (h : w.Logged configs) (group : PerfStatGroup InternC) :
    (w.flushGroup env group).Logged configs := by
  have hread : (w.afterRead env group).Logged configs :=
    h.quiet rfl (.one (s := w.readCall env group) rfl id)
  rcases w.flushGroup_cases env group with ⟨e, -, heq⟩ | ⟨bs, -, heq⟩
  · rwa [heq]
  · rw [heq]
    apply hread.writeRows
    intro row hrow desc heq
    subst heq
    simp [flushRows] at hrow

theorem Logged.flushGroups (h : w.Logged configs) (groups : TidGroups) :
    (w.flushGroups env groups).Logged configs := by
  induction groups generalizing w with
  | nil => exact h
  | cons group groups ih => exact ih (h.flushGroup group)

theorem Logged.flushEntries (h : w.Logged configs)
    (entries : List (Sigma fun _ : Pid => TidGroups)) :
    (entries.foldl (fun w entry => w.flushGroups env entry.2) w).Logged configs := by
  induction entries generalizing w with
  | nil => exact h
  | cons entry entries ih => exact ih (h.flushGroups entry.2)

/-- Describing an open event writes a row about it, if it writes one. -/
theorem Logged.describe (h : w.Logged configs) (hk : w.kernel.Ok) {ev : PerfEvent InternC}
    (hev : ev ∈ w.kernel.table)
    (hname : ∃ group ∈ configs, ∃ config ∈ group.toList, config.name = ev.config.name) :
    (w.describe env ev.pid (.of ev)).Logged configs := by
  rcases describe_cases env hk hev with ⟨e, heq⟩ | heq
  · rw [heq]
    exact h.quiet rfl (.one (s := .ioctlId ev.fd (some ev.id) (.error e)) rfl id)
  · rw [heq]
    have hnote : Logged configs
        { w with kernel := w.kernel.note (.ioctlId ev.fd (some ev.id) (.ok ev.id)) } :=
      h.quiet rfl (.one (s := .ioctlId ev.fd (some ev.id) (.ok ev.id)) rfl id)
    apply hnote.writeRow
    intro desc hdesc
    obtain rfl := CsvRow.desc.inj hdesc
    obtain ⟨group, hgroup, config, hconfig, hsame⟩ := hname
    refine ⟨⟨group, hgroup, config, hconfig, congrArg InternC.text hsame⟩, ev, ?_, rfl, rfl, rfl⟩
    rw [Kernel.trace_note, openedIn_append]
    exact List.mem_append_left _ (hk.mem_opened hev)

theorem Logged.describeAll (h : w.Logged configs) (hw : w.Ok) {tid : Pid}
    {evs : List (PerfEvent InternC)}
    (hevs : ∀ ev ∈ evs, (ev ∈ w.kernel.table ∧ ev.pid = tid) ∧
      ∃ group ∈ configs, ∃ config ∈ group.toList, config.name = ev.config.name) :
    (w.describeAll env tid (evs.map .of)).Logged configs := by
  induction evs generalizing w with
  | nil => exact h
  | cons ev evs ih =>
      obtain ⟨⟨htable, rfl⟩, hname⟩ := hevs ev List.mem_cons_self
      have hsame := describe_same env ev.pid (.of ev) w
      refine ih (h.describe hw.kernel htable hname) (hsame.ok hw) fun e he => ?_
      rw [hsame.table]
      exact hevs e (List.mem_cons_of_mem ev he)

end Logged

theorem openTid_logged (env : Env) (tid : Pid) {w : World} (hw : w.Ok)
    (h : w.Logged w.state.eventConfigs) : (w.openTid env tid).Logged w.state.eventConfigs := by
  by_cases hmem : tid ∈ w.state.groups
  · rwa [openTid_of_mem env hmem]
  · have hopens := openGroups_spec env tid w.state.eventConfigs hw.kernel
    have hcalls : Kernel.Extends (fun s => ¬ s.isWrite) w.kernel (w.afterOpen env tid).kernel := by
      apply hopens.calls.mono
      intro s hs
      cases s <;> first | exact id | exact absurd hs id
    have hopened : (w.afterOpen env tid).Logged w.state.eventConfigs := h.quiet rfl hcalls
    obtain ⟨evs, hstats, -, hevs, -⟩ := hopens.events
    have hdescribed : ((w.afterOpen env tid).describeAll env tid (evs.map .of)).Logged
        w.state.eventConfigs := by
      apply hopened.describeAll (afterOpen_ok env tid hw)
      intro ev hev
      obtain ⟨htable, hpid, -⟩ := hevs ev hev
      have hstat : PerfStat.of ev ∈ (w.openedGroups env tid).flatMap fun group =>
          group.fds.toList := hstats ▸ List.mem_map_of_mem hev
      obtain ⟨group, hgroup, hstat⟩ := List.mem_flatMap.1 hstat
      exact ⟨⟨htable, hpid⟩, openGroups_names env tid hw.kernel hgroup hstat⟩
    rw [hstats] at hdescribed
    rw [openTid_of_notMem env hmem]
    exact ⟨hdescribed.files, hdescribed.descs⟩

theorem closeTid_logged (env : Env) (tid : Pid) {configs : List (NonEmpty (PerfConfig InternC))}
    {w : World} (h : w.Logged configs) : (w.closeTid env tid).Logged configs := by
  cases hlookup : w.state.groups.lookup tid with
  | none => rwa [closeTid_of_none env hlookup]
  | some groups =>
      have hremoved : (w.afterRemove tid).Logged configs := ⟨h.files, h.descs⟩
      have hflushed : ((w.afterRemove tid).flushGroups env groups).Logged configs :=
        hremoved.flushGroups groups
      rw [closeTid_of_some env hlookup]
      refine hflushed.quiet rfl ((closeAll_extends _ _).mono fun s hs => ?_)
      cases s <;> first | exact id | exact absurd hs id

theorem exec_logged (env : Env) (op : Op) {w : World} (hw : w.Ok)
    (h : w.Logged w.state.eventConfigs) : (w.exec env op).Logged w.state.eventConfigs := by
  cases op with
  | openTid tid => exact openTid_logged env tid hw h
  | closeTid tid => exact closeTid_logged env tid h
  | flushAll => exact h.flushEntries _

theorem run_logged (env : Env) (configs : List (NonEmpty (PerfConfig InternC))) (ops : List Op) :
    ((new configs).run env ops).Logged configs := by
  have hrun : ((new configs).run env ops).Ok ∧ ((new configs).run env ops).Logged
      ((new configs).run env ops).state.eventConfigs := by
    apply run_induction (P := fun w => w.Ok ∧ w.Logged w.state.eventConfigs) env
      ⟨new_ok configs, new_logged⟩
    intro w op h
    refine ⟨exec_ok env op h.1, ?_⟩
    rw [exec_eventConfigs]
    exact exec_logged env op h.1 h.2
  rw [run_eventConfigs] at hrun
  exact hrun.2

end World

/-! ## The names -/

/-- The names of accepted groups stand in the event string, and can be written as fields. -/
theorem accepted_name {pfm : Pfm}
    (hpfm : ∀ event attr, pfm.getPerfAttr event = .ok attr → '\n' ∉ event.text) {s : Str}
    {groups : EventGroups} (hparse : parseEventGroups pfm s = .returned (.ok groups))
    {group : NonEmpty (PerfConfig InternC)} (hgroup : group ∈ groups) {config : PerfConfig InternC}
    (hconfig : config ∈ group.toList) :
    config.name.text ∈ (reading s).flatten ∧ config.name.text <:+: s ∧ Plain config.name.text := by
  obtain ⟨hreading, hconfigs⟩ := accepted_reading hparse
  have hmem : config.name.text ∈ (reading s).flatten := by
    rw [← hreading, List.mem_flatten]
    exact ⟨_, List.mem_map_of_mem hgroup, List.mem_map_of_mem hconfig⟩
  obtain ⟨hwithin, hcomma⟩ := reading_isInfix hmem
  have hattr := (fromPfmString_ok (hconfigs group hgroup config hconfig)).1
  exact ⟨hmem, hwithin, hcomma, hpfm config.name config.attr hattr⟩

namespace World

/-- For every accepted event string, every run of calls and every pattern of failures: split at line
breaks and then at commas, the description file is its header and lines of three fields, and these
are the descriptions that were written, in order.  Each has the thread of its event and the name of
its event as it stands in the event string. -/
theorem descriptions_read_back (env : Env) {pfm : Pfm}
    (hpfm : ∀ event attr, pfm.getPerfAttr event = .ok attr → '\n' ∉ event.text) {s : Str}
    {configs : EventGroups} (hparse : parseEventGroups pfm s = .returned (.ok configs))
    (ops : List Op) :
    let w := (new configs).run env ops
    ∃ ls, lines w.state.csv.desc = descHeader :: ls ∧
      (∀ line ∈ ls, (fields line).length = 3) ∧
      ls.map descOfLine =
        (fileDescs w.kernel.trace).map (fun row => some (row.id.toNat, row.name, row.tid.toInt)) ∧
      ∀ row ∈ fileDescs w.kernel.trace, row.name ∈ (reading s).flatten ∧ row.name <:+: s ∧
        ∃ ev ∈ openedIn w.kernel.trace,
          ev.id = row.id ∧ ev.config.name.text = row.name ∧ ev.pid = row.tid := by
  intro w
  have h : w.Logged configs := run_logged env configs ops
  have hname : ∀ row ∈ fileDescs w.kernel.trace,
      row.name ∈ (reading s).flatten ∧ row.name <:+: s ∧ Plain row.name := by
    intro row hrow
    obtain ⟨group, hgroup, config, hconfig, hsame⟩ := (h.descs row hrow).configured
    rw [← hsame]
    exact accepted_name hpfm hparse hgroup hconfig
  have hlines : ∀ line ∈ descHeader :: (fileDescs w.kernel.trace).map DescRow.line,
      '\n' ∉ line := by
    rw [List.forall_mem_cons]
    refine ⟨by decide, fun line hline => ?_⟩
    obtain ⟨row, hrow, rfl⟩ := List.mem_map.1 hline
    exact DescRow.newline_notMem_line (hname row hrow).2.2
  refine ⟨(fileDescs w.kernel.trace).map DescRow.line, ?_, ?_, ?_, ?_⟩
  · rw [h.files]
    exact lines_unlines hlines
  · intro line hline
    obtain ⟨row, hrow, rfl⟩ := List.mem_map.1 hline
    rw [DescRow.fields_line (hname row hrow).2.2]
    rfl
  · rw [List.map_map]
    apply List.map_congr_left
    intro row hrow
    exact DescRow.ofLine_line (hname row hrow).2.2
  · intro row hrow
    obtain ⟨hreading, hwithin, -⟩ := hname row hrow
    exact ⟨hreading, hwithin, (h.descs row hrow).opened⟩

theorem descriptions_read_back_steady :
    let w := (new [cyclesGroup]).run Env.steady [.openTid 1, .flushAll, .openTid (-1)]
    ∃ ls, lines w.state.csv.desc = descHeader :: ls ∧
      ls.map descOfLine = [some (0, "cycles".toList, 1), some (1, "cycles".toList, -1)] := by
  have hreading : reading ", cycles".toList = [["cycles".toList]] := by decide
  have hparse : parseEventGroups smallPfm ", cycles".toList = .returned (.ok [cyclesGroup]) := by
    rw [parseEventGroups_eq (by decide), hreading]
    rfl
  have hpfm : ∀ event attr, smallPfm.getPerfAttr event = .ok attr → '\n' ∉ event.text := by
    intro event attr h
    unfold smallPfm at h
    dsimp only at h
    split at h
    · next heq =>
      rw [heq]
      decide
    · split at h
      · next heq =>
        rw [heq]
        decide
      · cases h
  obtain ⟨ls, hlines, -, hmap, -⟩ :=
    descriptions_read_back Env.steady hpfm hparse [.openTid 1, .flushAll, .openTid (-1)]
  exact ⟨ls, hlines, hmap⟩

end World

end Threadstat

import Threadstat.Session
import Threadstat.Lib.Holding

/-!
# What is open at any time

Every perf descriptor the kernel hands out is either closed once or held by one member of one
group in the map.  The calls of a run are a sound log of moves on descriptors, whatever fails in
between, and what that log leaves out is what the map holds.
-/

namespace Threadstat

open Holding

section Kernel

variable {T : Type}

def Syscall.move? : Syscall T → Option (Move RawFd)
  | .perfEventOpen _ (.ok ev) => some (.acquire ev.fd)
  | .close fd => some (.release fd)
  | _ => none

def Kernel.moves (k : Kernel T) : List (Move RawFd) := k.trace.filterMap Syscall.move?

/-- The trace never closes a descriptor that is not open, and it leaves open what the table
lists. -/
def Kernel.Accounted (k : Kernel T) : Prop := after k.moves = some (k.table.map (·.fd))

namespace Kernel.Accounted

variable {k k' : Kernel T}

theorem init : (Kernel.init : Kernel T).Accounted := rfl

theorem of_extends (hk : k.Accounted) (htable : k'.table = k.table)
    (hcalls : Kernel.Extends (fun s => ¬ s.isFdCall) k k') : k'.Accounted := by
  obtain ⟨tail, htrace, htail⟩ := hcalls
  have hnone : tail.filterMap Syscall.move? = [] := by
    rw [List.filterMap_eq_nil_iff]
    intro s hs
    cases s with
    | perfEventOpen => exact absurd trivial (htail _ hs)
    | close => exact absurd trivial (htail _ hs)
    | _ => rfl
  rw [Accounted, htable, Kernel.moves, htrace, List.filterMap_append, hnone, List.append_nil]
  exact hk

theorem failed (hk : k.Accounted) (args : OpenArgs T) (e : IoError) :
    (k.note (.perfEventOpen args (.error e))).Accounted := by
  have hmoves : (k.note (.perfEventOpen args (.error e))).moves = k.moves := by
    simp [Kernel.moves, Syscall.move?]
  rw [Accounted, hmoves]
  exact hk

theorem push (hk : k.Accounted) {args : OpenArgs T} {ev : PerfEvent T} (h : k.Admits args ev) :
    (k.push args ev).Accounted := by
  have hmoves : (k.push args ev).moves = k.moves ++ [.acquire ev.fd] := by
    simp [Kernel.moves, Kernel.push, Syscall.move?]
  have hunused : ev.fd ∉ k.table.map (·.fd) := by
    rw [List.mem_map]
    rintro ⟨old, hold, heq⟩
    exact h.fd_unused old hold heq
  rw [Accounted, hmoves, after_snoc hk, step, if_neg hunused]
  simp [Kernel.push]

theorem closeAll (hk : k.Accounted) {stats : List (PerfStat T)}
    (hnodup : (stats.map (·.fd)).Nodup)
    (hopen : ∀ stat ∈ stats, stat.fd ∈ k.table.map (·.fd)) :
    (Threadstat.closeAll k stats).Accounted := by
  have hmoves : (Threadstat.closeAll k stats).moves =
      k.moves ++ (stats.map (·.fd)).map .release := by
    rw [Kernel.moves, closeAll_trace, List.filterMap_append, List.filterMap_map, ← Kernel.moves,
      List.map_map]
    congr 1
    exact congrFun List.filterMap_eq_map stats
  have hsub : ∀ fd ∈ stats.map (·.fd), fd ∈ k.table.map (·.fd) := by
    intro fd hfd
    obtain ⟨stat, hstat, rfl⟩ := List.mem_map.1 hfd
    exact hopen stat hstat
  rw [Accounted, hmoves, after_append hk, run_release hnodup hsub, closeAll_table, List.filter_map]
  rfl

end Kernel.Accounted

/-- A failure part way closes exactly what had been opened. -/
theorem openRest_accounted (os : Os T) (tid : Pid) (firstRaw : RawFd)
    (rest : List (PerfConfig T)) (collected : List (PerfStat T)) {k : Kernel T}
    (hk : k.Accounted) (hsub : (collected.map (·.fd)).Sublist (k.table.map (·.fd))) :
    (openRest os tid firstRaw rest collected k).2.Accounted := by
  induction rest generalizing k collected with
  | nil => exact hk
  | cons config rest ih =>
      unfold openRest
      rcases Kernel.perfEventOpen_cases os ⟨config, tid, -1, firstRaw, PERF_FLAG_FD_CLOEXEC⟩ k with
        ⟨e, hopen⟩ | ⟨ev, hadmits, hopen⟩
      · rw [hopen]
        refine (hk.failed _ e).closeAll ((after_nodup hk).sublist hsub) fun stat hstat => ?_
        exact hsub.mem (List.mem_map_of_mem hstat)
      · rw [hopen]
        refine ih _ (hk.push hadmits) ?_
        simpa [Kernel.push] using hsub

theorem PerfStatGroup.new_accounted (os : Os T) (input : List (PerfConfig T)) (tid : Pid)
    {k : Kernel T} (hk : k.Accounted) : (PerfStatGroup.new os input tid k).2.Accounted := by
  cases input with
  | nil => exact hk
  | cons first rest =>
      unfold PerfStatGroup.new
      dsimp only
      rcases Kernel.perfEventOpen_cases os
          ⟨leaderConfig first, tid, -1, -1, PERF_FLAG_FD_CLOEXEC⟩ k with
        ⟨e, hopen⟩ | ⟨ev, hadmits, hopen⟩
      · rw [hopen]
        exact hk.failed _ e
      · have hrest := openRest_accounted os tid ev.fd rest [⟨ev.fd, first.name⟩]
          (hk.push hadmits) (by simp [Kernel.push])
        rw [hopen]
        dsimp only
        generalize openRest os tid ev.fd rest _ _ = r at hrest ⊢
        obtain ⟨_ | stats, k'⟩ := r
        · exact hrest
        · dsimp only
          cases MaybeNonEmpty.fromIter stats <;> exact hrest

end Kernel

/-! ## The map -/

def TidGroups.stats (groups : TidGroups) : List (PerfStat InternC) :=
  groups.flatMap fun group => group.fds.toList

namespace World

variable (env : Env)

def heldFds (w : World) : List RawFd :=
  w.state.groups.entries.flatMap fun entry => (TidGroups.stats entry.2).map (·.fd)

/-- The kernel's open perf descriptors are those in the map. -/
structure Conserved (w : World) : Prop where
  accounted : w.kernel.Accounted
  perm : (w.kernel.table.map (·.fd)).Perm w.heldFds

theorem openGroups_accounted (tid : Pid) (configs : List (NonEmpty (PerfConfig InternC)))
    {k : Kernel InternC} (hk : k.Accounted) : (openGroups env tid configs k).2.Accounted := by
  induction configs generalizing k with
  | nil => exact hk
  | cons config configs ih =>
      have hnew := PerfStatGroup.new_accounted env.os config.toList tid hk
      rw [openGroups]
      generalize PerfStatGroup.new env.os config.toList tid k = r at hnew ⊢
      obtain ⟨_ | group, k'⟩ := r
      · exact ih hnew
      · exact ih hnew

/-- The groups that opened hold what was added to the table. -/
theorem openGroups_table (tid : Pid) (configs : List (NonEmpty (PerfConfig InternC)))
    {k : Kernel InternC} (hk : k.Ok) :
    (openGroups env tid configs k).2.table.map (·.fd) =
      k.table.map (·.fd) ++ (TidGroups.stats (openGroups env tid configs k).1).map (·.fd) := by
  induction configs generalizing k with
  | nil => simp [openGroups, TidGroups.stats]
  | cons config configs ih =>
      rw [openGroups]
      generalize hnew : PerfStatGroup.new env.os config.toList tid k = r
      obtain ⟨answer, k'⟩ := r
      rcases PerfStatGroup.new_spec env.os hk hnew with
        ⟨first, rest, group, ev, evs, -, rfl, hstats, hj⟩ | ⟨⟨e, rfl⟩, hok, htable, -, -⟩
      · have hfds : group.fds.toList.map (·.fd) = (ev :: evs).map (·.fd) := by
          rw [← hstats]
          simp
        dsimp only
        rw [ih hj.ok, hj.table]
        simp only [TidGroups.stats, List.flatMap_cons, List.map_append, hfds, List.append_assoc]
      · dsimp only
        rw [ih hok, htable]

theorem SameGroups.conserved {w w' : World} (h : SameGroups w w') (hw : w.Conserved) :
    w'.Conserved where
  accounted := hw.accounted.of_extends h.table h.calls
  perm := by
    rw [heldFds, h.groups, h.table]
    exact hw.perm

theorem openTid_conserved (tid : Pid) {w : World} (hok : w.Ok) (hw : w.Conserved) :
    (w.openTid env tid).Conserved := by
  by_cases hmem : tid ∈ w.state.groups
  · rwa [openTid_of_mem env hmem]
  · have hsame := describeAll_same env tid
      ((w.openedGroups env tid).flatMap fun group => group.fds.toList) (w.afterOpen env tid)
    rw [openTid_of_notMem env hmem]
    constructor
    · exact (openGroups_accounted env tid _ hw.accounted).of_extends hsame.table hsame.calls
    · have htable := openGroups_table env tid w.state.eventConfigs hok.kernel
      have hentries : (w.state.groups.insert tid (w.openedGroups env tid)).entries =
          ⟨tid, w.openedGroups env tid⟩ :: w.state.groups.entries :=
        AList.entries_insert_of_notMem hmem
      dsimp only
      rw [heldFds, hsame.table, hsame.groups]
      dsimp only [afterOpen]
      rw [hentries, List.flatMap_cons, htable]
      exact (hw.perm.append_right _).trans List.perm_append_comm

theorem heldFds_perm {tid : Pid} {w : World} {groups : TidGroups}
    (h : w.state.groups.lookup tid = some groups) :
    w.heldFds.Perm ((TidGroups.stats groups).map (·.fd) ++ (w.afterRemove tid).heldFds) := by
  have hmem : tid ∈ w.state.groups.entries.keys := AList.lookup_isSome.1 (by rw [h]; rfl)
  obtain ⟨groups', before, rest, hbefore, hentries, herase⟩ := List.exists_of_kerase hmem
  have hlookup : w.state.groups.lookup tid = some groups' :=
    AList.mem_lookup_iff.2 (by rw [hentries]; simp)
  obtain rfl : groups = groups' := Option.some.inj (h.symm.trans hlookup)
  have hrest : (w.afterRemove tid).state.groups.entries = before ++ rest := herase
  rw [heldFds, heldFds, hentries, hrest]
  simp only [List.flatMap_append, List.flatMap_cons]
  rw [← List.append_assoc, ← List.append_assoc]
  exact List.perm_append_comm.append_right _

theorem closeTid_conserved (tid : Pid) {w : World} (hw : w.Conserved) :
    (w.closeTid env tid).Conserved := by
  cases hlookup : w.state.groups.lookup tid with
  | none => rwa [closeTid_of_none env hlookup]
  | some groups =>
      have hsame := flushGroups_same env groups (w.afterRemove tid)
      have hflushed : ((w.afterRemove tid).flushGroups env groups).kernel.Accounted :=
        hw.accounted.of_extends hsame.table hsame.calls
      have hperm : (((w.afterRemove tid).flushGroups env groups).kernel.table.map (·.fd)).Perm
          ((TidGroups.stats groups).map (·.fd) ++ (w.afterRemove tid).heldFds) := by
        rw [hsame.table]
        exact hw.perm.trans (heldFds_perm hlookup)
      have hnodup := hperm.nodup_iff.1 (after_nodup hflushed)
      obtain ⟨hmine, hothers, hdisj⟩ := List.nodup_append.1 hnodup
      rw [closeTid_of_some env hlookup]
      constructor
      · refine hflushed.closeAll hmine fun stat hstat => ?_
        exact hperm.mem_iff.2 (List.mem_append_left _ (List.mem_map_of_mem hstat))
      · have hkept : (w.afterRemove tid).heldFds.filter
            (· ∉ (TidGroups.stats groups).map (·.fd)) = (w.afterRemove tid).heldFds := by
          rw [List.filter_eq_self]
          intro fd hfd
          simpa using fun stat hstat heq =>
            hdisj stat.fd (List.mem_map_of_mem hstat) fd hfd heq
        have hgone : ((TidGroups.stats groups).map (·.fd)).filter
            (· ∉ (TidGroups.stats groups).map (·.fd)) = [] := by
          rw [List.filter_eq_nil_iff]
          intro fd hfd
          simpa using hfd
        have hfilter := hperm.filter (· ∉ (TidGroups.stats groups).map (·.fd))
        rw [List.filter_append, hgone, hkept, List.nil_append, List.filter_map] at hfilter
        dsimp only
        rw [closeAll_table, heldFds, hsame.groups]
        exact hfilter

theorem exec_conserved (op : Op) {w : World} (hok : w.Ok) (hw : w.Conserved) :
    (w.exec env op).Conserved := by
  cases op with
  | openTid tid => exact openTid_conserved env tid hok hw
  | closeTid tid => exact closeTid_conserved env tid hw
  | flushAll => exact (flushAll_same env w).conserved hw

theorem new_conserved (configs : List (NonEmpty (PerfConfig InternC))) :
    (new configs).Conserved :=
  ⟨.init, .refl []⟩

theorem run_conserved (configs : List (NonEmpty (PerfConfig InternC))) (ops : List Op) :
    ((new configs).run env ops).Conserved := by
  have hboth : ((new configs).run env ops).Ok ∧ ((new configs).run env ops).Conserved :=
    run_induction (P := fun w => w.Ok ∧ w.Conserved) env ⟨new_ok configs, new_conserved configs⟩
      (fun _ op hw => ⟨exec_ok env op hw.1, exec_conserved env op hw.1 hw.2⟩) ops
  exact hboth.2

theorem handle_conserved {w : World} (hok : w.Ok) (hw : w.Conserved) (input : Input) :
    (w.handle env input).Conserved := by
  cases htick : input.isTick with
  | true => exact handle_tick env w htick ▸ (flushAll_same env w).conserved hw
  | false =>
      cases hmsg : input.message? env.endian with
      | none => rwa [handle_garbage env w htick hmsg]
      | some msg =>
          rw [handle_message env w hmsg]
          exact exec_conserved env msg.op hok hw

theorem daemon_conserved (configs : List (NonEmpty (PerfConfig InternC))) (inputs : List Input) :
    (daemon env configs inputs).Conserved := by
  induction inputs using List.reverseRecOn with
  | nil => exact new_conserved configs
  | append_singleton inputs input ih =>
      rw [daemon_snoc]
      exact handle_conserved env (daemon_ok env configs inputs) ih input

/-- The state goes out of scope: the map drops its groups in whatever order it yields them. -/
def drop (w : World) : World where
  state := { w.state with groups := ∅ }
  kernel := closeAll w.kernel
    ((env.iter w.kernel w.state.groups.entries).flatMap fun entry => TidGroups.stats entry.2)

/-- Dropping the state closes whatever is open, and nothing else. -/
theorem drop_closed {w : World} (hw : w.Conserved) :
    (w.drop env).kernel.table = [] ∧ after (w.drop env).kernel.moves = some [] := by
  have hiter := env.iter_perm w.kernel w.state.groups.entries
  have hstats : (((env.iter w.kernel w.state.groups.entries).flatMap
      fun entry => TidGroups.stats entry.2).map (·.fd)).Perm w.heldFds := by
    rw [List.map_flatMap]
    exact hiter.flatMap_right _
  have hopen := hw.perm.trans hstats.symm
  have htable : (w.drop env).kernel.table = [] := by
    dsimp only [drop]
    rw [closeAll_table, List.filter_eq_nil_iff]
    intro ev hev
    simpa only [decide_eq_true_eq, not_not] using hopen.mem_iff.1 (List.mem_map_of_mem hev)
  have haccounted : (w.drop env).kernel.Accounted := by
    have hnodup := hopen.nodup_iff.1 (after_nodup hw.accounted)
    refine hw.accounted.closeAll hnodup fun stat hstat => ?_
    exact hopen.mem_iff.2 (List.mem_map_of_mem hstat)
  rw [Kernel.Accounted, htable] at haccounted
  exact ⟨htable, haccounted⟩

/-- In every run no descriptor is closed that is not open, the open ones are those of the groups
in the map, each held by one member, and when the state is dropped every descriptor has been
closed as often as it was opened. -/
theorem descriptors_conserved (configs : List (NonEmpty (PerfConfig InternC))) (ops : List Op) :
    let w := (new configs).run env ops
    (∃ held, after w.kernel.moves = some held ∧ held.Perm w.heldFds) ∧ w.heldFds.Nodup ∧
      (w.kernel.table.map (·.fd)).Perm w.heldFds ∧
      after (w.drop env).kernel.moves = some [] ∧
      ∀ fd, (w.drop env).kernel.moves.count (.acquire fd) =
        (w.drop env).kernel.moves.count (.release fd) := by
  intro w
  have hw : w.Conserved := run_conserved env configs ops
  obtain ⟨-, hafter⟩ := drop_closed env hw
  refine ⟨⟨_, hw.accounted, hw.perm⟩, hw.perm.nodup_iff.1 (after_nodup hw.accounted), hw.perm,
    hafter, fun fd => ?_⟩
  simpa using after_count hafter fd

end World

end Threadstat

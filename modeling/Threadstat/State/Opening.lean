import Threadstat.State.Steady

/-!
# What opening a thread opens

`open_tid` goes through the configurations in order.  For each it opens members until all are open
or one fails, and a failure closes what that configuration had opened.  The trace of an `open_tid`
is the concatenation of these attempts, and the descriptors left are those of the attempts that
were whole.
-/

namespace Threadstat

section Group

variable {T : Type}

/-- The arguments with which the members of a group are opened; `leader` is the descriptor of the
first. -/
def groupArgs (tid : Pid) (leader : RawFd) : List (PerfConfig T) → List (OpenArgs T)
  | [] => []
  | first :: rest =>
      ⟨leaderConfig first, tid, -1, -1, PERF_FLAG_FD_CLOEXEC⟩ ::
        rest.map fun config => ⟨config, tid, -1, leader, PERF_FLAG_FD_CLOEXEC⟩

def openings (args : List (OpenArgs T)) (evs : List (PerfEvent T)) : List (Syscall T) :=
  List.zipWith (fun args ev => .perfEventOpen args (.ok ev)) args evs

def statsOf (configs : List (PerfConfig T)) (evs : List (PerfEvent T)) : List (PerfStat T) :=
  List.zipWith (fun config ev => ⟨ev.fd, config.name⟩) configs evs

/-- An attempt to open one group: its calls, and the group with the events behind it if all of its
members were opened.  After the first failure the events opened are closed, and nothing else is
done. -/
inductive Attempt (tid : Pid) (configs : List (PerfConfig T)) :
    List (Syscall T) → Option (PerfStatGroup T × List (PerfEvent T)) → Prop
  | whole (first : PerfEvent T) (evs : List (PerfEvent T)) (group : PerfStatGroup T)
      (hlength : (first :: evs).length = configs.length)
      (hstats : group.fds.toList = statsOf configs (first :: evs)) :
      Attempt tid configs (openings (groupArgs tid first.fd configs) (first :: evs))
        (some (group, first :: evs))
  | broken (leader : RawFd) (evs : List (PerfEvent T)) (args : OpenArgs T) (e : IoError)
      (hleader : ∀ first ∈ evs.head?, first.fd = leader)
      (hargs : (groupArgs tid leader configs)[evs.length]? = some args) :
      Attempt tid configs
        (openings (groupArgs tid leader configs) evs ++
          .perfEventOpen args (.error e) :: evs.map fun ev => .close ev.fd) none

theorem statsOf_fds {configs : List (PerfConfig T)} {evs : List (PerfEvent T)}
    (h : evs.length ≤ configs.length) :
    (statsOf configs evs).map (fun stat => (.close stat.fd : Syscall T)) =
      evs.map fun ev => .close ev.fd := by
  induction configs generalizing evs with
  | nil =>
      obtain rfl : evs = [] := by simpa using h
      rfl
  | cons config configs ih =>
      cases evs with
      | nil => rfl
      | cons ev evs =>
          have hrest := ih (by simpa using h)
          simp only [statsOf, List.zipWith_cons_cons, List.map_cons] at hrest ⊢
          rw [hrest]

/-- The members after the first are opened in order, up to the first failure, which closes those
opened so far. -/
theorem openRest_calls (os : Os T) (tid : Pid) (leader : RawFd) {k k' : Kernel T}
    {rest : List (PerfConfig T)} {collected : List (PerfStat T)}
    {answer : Except IoError (List (PerfStat T))}
    (h : openRest os tid leader rest collected k = (answer, k')) :
    let args := rest.map fun config =>
      (⟨config, tid, -1, leader, PERF_FLAG_FD_CLOEXEC⟩ : OpenArgs T)
    (∃ evs, evs.length = rest.length ∧ answer = .ok (collected ++ statsOf rest evs) ∧
        k'.trace = k.trace ++ openings args evs ∧ k'.table = k.table ++ evs) ∨
      ∃ evs failed e, evs.length ≤ rest.length ∧ args[evs.length]? = some failed ∧
        answer = .error e ∧
        k'.trace = k.trace ++ (openings args evs ++ .perfEventOpen failed (.error e) ::
          (collected ++ statsOf rest evs).map fun stat => .close stat.fd) := by
  induction rest generalizing k collected with
  | nil =>
      obtain ⟨rfl, rfl⟩ := Prod.mk.inj h
      left
      exact ⟨[], rfl, by simp [statsOf], by simp [openings], by simp⟩
  | cons config rest ih =>
      intro args
      unfold openRest at h
      rcases Kernel.perfEventOpen_cases os ⟨config, tid, -1, leader, PERF_FLAG_FD_CLOEXEC⟩ k with
        ⟨e, hopen⟩ | ⟨ev, -, hopen⟩
      · rw [hopen] at h
        obtain ⟨rfl, rfl⟩ := Prod.mk.inj h
        right
        refine ⟨[], _, e, by simp, rfl, rfl, ?_⟩
        simp [closeAll_trace, openings, statsOf]
      · rw [hopen] at h
        rcases ih h with ⟨evs, hlength, hanswer, htrace, htable⟩ |
          ⟨evs, failed, e, hlength, hfailed, hanswer, htrace⟩
        · left
          refine ⟨ev :: evs, by simp [hlength], ?_, ?_, ?_⟩
          · rw [hanswer]
            simp [statsOf]
          · rw [htrace]
            simp [args, openings, Kernel.push]
          · rw [htable]
            simp [Kernel.push]
        · right
          refine ⟨ev :: evs, failed, e, by simpa using hlength, by simpa [args] using hfailed,
            hanswer, ?_⟩
          rw [htrace]
          simp [args, openings, statsOf, Kernel.push]

theorem statsOf_ne_nil {first : PerfConfig T} {rest : List (PerfConfig T)} {ev : PerfEvent T}
    {evs : List (PerfEvent T)} : statsOf (first :: rest) (ev :: evs) ≠ [] := by
  simp [statsOf]

theorem PerfStatGroup.new_calls (os : Os T) {k k' : Kernel T} {tid : Pid}
    {first : PerfConfig T} {rest : List (PerfConfig T)}
    {answer : Except PerfError (PerfStatGroup T)}
    (h : PerfStatGroup.new os (first :: rest) tid k = (answer, k')) :
    ∃ calls, k'.trace = k.trace ++ calls ∧
      ((∃ group evs, answer = .ok group ∧ Attempt tid (first :: rest) calls (some (group, evs)) ∧
          k'.table = k.table ++ evs) ∨
        (∃ e, answer = .error e) ∧ Attempt tid (first :: rest) calls none) := by
  unfold PerfStatGroup.new at h
  dsimp only at h
  rcases Kernel.perfEventOpen_cases os
      ⟨leaderConfig first, tid, -1, -1, PERF_FLAG_FD_CLOEXEC⟩ k with
    ⟨e, hopen⟩ | ⟨ev, -, hopen⟩
  · -- The first member fails, and nothing was opened.
    rw [hopen] at h
    obtain ⟨rfl, rfl⟩ := Prod.mk.inj h
    refine ⟨_, rfl, .inr ⟨⟨_, rfl⟩, ?_⟩⟩
    exact .broken (T := T) 0 [] ⟨leaderConfig first, tid, -1, -1, PERF_FLAG_FD_CLOEXEC⟩ e
      (by simp) rfl
  · rw [hopen] at h
    dsimp only at h
    generalize hrest : openRest os tid ev.fd rest [⟨ev.fd, first.name⟩] _ = r at h
    obtain ⟨collected, k₁⟩ := r
    rcases openRest_calls os tid ev.fd hrest with ⟨evs, hlength, rfl, htrace, htable⟩ |
      ⟨evs, failed, e, hlength, hfailed, rfl, htrace⟩
    · have hstats : [⟨ev.fd, first.name⟩] ++ statsOf rest evs =
          statsOf (first :: rest) (ev :: evs) := rfl
      dsimp only at h
      rw [hstats, MaybeNonEmpty.fromIter_of_ne statsOf_ne_nil] at h
      obtain ⟨rfl, rfl⟩ := Prod.mk.inj h
      refine ⟨openings (groupArgs tid ev.fd (first :: rest)) (ev :: evs), ?_, .inl ?_⟩
      · rw [htrace]
        simp [openings, groupArgs, Kernel.push]
      · refine ⟨_, ev :: evs, rfl, .whole ev evs _ (by simp [hlength]) rfl, ?_⟩
        rw [htable]
        simp [Kernel.push]
    · obtain ⟨rfl, rfl⟩ := Prod.mk.inj h
      refine ⟨openings (groupArgs tid ev.fd (first :: rest)) (ev :: evs) ++
        .perfEventOpen failed (.error e) :: (ev :: evs).map fun ev => .close ev.fd, ?_,
        .inr ⟨⟨_, rfl⟩, .broken ev.fd (ev :: evs) failed e (by simp) ?_⟩⟩
      · have hlength' : (ev :: evs).length ≤ (first :: rest).length := by simpa using hlength
        rw [htrace, ← statsOf_fds hlength']
        simp [openings, groupArgs, statsOf, Kernel.push]
      · simpa [groupArgs] using hfailed

/-- An attempt adds its events to the open ones, or leaves these as they were. -/
theorem PerfStatGroup.new_attempt (os : Os T) {k k' : Kernel T} (hk : k.Ok) {tid : Pid}
    {config : NonEmpty (PerfConfig T)} {answer : Except PerfError (PerfStatGroup T)}
    (h : PerfStatGroup.new os config.toList tid k = (answer, k')) :
    k'.Ok ∧ ∃ calls, k'.trace = k.trace ++ calls ∧
      ((∃ group evs, answer = .ok group ∧ Attempt tid config.toList calls (some (group, evs)) ∧
          k'.table = k.table ++ evs) ∨
        (∃ e, answer = .error e) ∧ Attempt tid config.toList calls none ∧
          k'.table = k.table) := by
  have hcalls := h
  rw [config.toList_eq_cons] at hcalls
  obtain ⟨calls, htrace, hattempt⟩ := PerfStatGroup.new_calls os hcalls
  rw [← config.toList_eq_cons] at hattempt
  rcases PerfStatGroup.new_spec os hk h with
    ⟨_, _, group, _, _, -, rfl, -, hj⟩ | ⟨⟨e, rfl⟩, hok, htable, -, -⟩
  · refine ⟨hj.ok, calls, htrace, .inl ?_⟩
    rcases hattempt with hwhole | ⟨⟨e, herror⟩, -⟩
    · exact hwhole
    · cases herror
  · refine ⟨hok, calls, htrace, .inr ?_⟩
    rcases hattempt with ⟨group, evs, hok', -⟩ | ⟨herror, hbroken⟩
    · cases hok'
    · exact ⟨herror, hbroken, htable⟩

end Group

namespace World

variable (env : Env)

theorem openGroups_attempts (tid : Pid) (configs : List (NonEmpty (PerfConfig InternC)))
    {k : Kernel InternC} (hk : k.Ok) :
    ∃ attempts, List.Forall₂ (fun config a => Attempt tid config.toList a.1 a.2) configs attempts ∧
      (openGroups env tid configs k).2.trace = k.trace ++ attempts.flatMap Prod.fst ∧
      (openGroups env tid configs k).1 = (attempts.filterMap Prod.snd).map Prod.fst ∧
      (openGroups env tid configs k).2.table =
        k.table ++ (attempts.filterMap Prod.snd).flatMap Prod.snd := by
  induction configs generalizing k with
  | nil => exact ⟨[], .nil, by simp [openGroups], rfl, by simp [openGroups]⟩
  | cons config configs ih =>
      generalize hnew : PerfStatGroup.new env.os config.toList tid k = r
      obtain ⟨answer, k₁⟩ := r
      obtain ⟨hok, calls, htrace, hcases⟩ := PerfStatGroup.new_attempt env.os hk hnew
      obtain ⟨attempts, hall, htrace', hgroups, htable'⟩ := ih hok
      rcases hcases with ⟨group, evs, rfl, hattempt, htable⟩ | ⟨⟨e, rfl⟩, hattempt, htable⟩
      · refine ⟨(calls, some (group, evs)) :: attempts, .cons hattempt hall, ?_, ?_, ?_⟩
        · rw [openGroups, hnew, List.flatMap_cons, ← List.append_assoc, ← htrace]
          exact htrace'
        · rw [openGroups, hnew]
          simpa using hgroups
        · rw [openGroups, hnew]
          simpa [htable] using htable'
      · refine ⟨(calls, none) :: attempts, .cons hattempt hall, ?_, ?_, ?_⟩
        · rw [openGroups, hnew, List.flatMap_cons, ← List.append_assoc, ← htrace]
          exact htrace'
        · rw [openGroups, hnew]
          simpa using hgroups
        · rw [openGroups, hnew]
          simpa [htable] using htable'

/-- For every list of configurations, every run before and every pattern of failures: opening a
thread that is not open makes one attempt for each configuration and no other call that opens or
closes a descriptor.  The thread is left with the groups of the whole attempts, in order, exactly
their events are open in addition to those from before, and no other thread's groups change. -/
theorem openTid_attempts (configs : List (NonEmpty (PerfConfig InternC))) (ops : List Op)
    (tid : Pid) (htid : tid ∉ ((new configs).run env ops).state.groups) :
    let w := (new configs).run env ops
    let w' := w.openTid env tid
    ∃ attempts rest,
      List.Forall₂ (fun config a => Attempt tid config.toList a.1 a.2) configs attempts ∧
      w'.kernel.trace = w.kernel.trace ++ attempts.flatMap Prod.fst ++ rest ∧
      (∀ s ∈ rest, ¬ s.isFdCall) ∧
      w'.state.groups.lookup tid = some ((attempts.filterMap Prod.snd).map Prod.fst) ∧
      w'.kernel.table = w.kernel.table ++ (attempts.filterMap Prod.snd).flatMap Prod.snd ∧
      ∀ tid', tid' ≠ tid → w'.state.groups.lookup tid' = w.state.groups.lookup tid' := by
  intro w w'
  have hconfigs : w.state.eventConfigs = configs := run_eventConfigs env configs ops
  obtain ⟨attempts, hall, htrace, hgroups, htable⟩ :=
    openGroups_attempts env tid w.state.eventConfigs (run_ok env configs ops).kernel
  have hsame := describeAll_same env tid
    ((w.openedGroups env tid).flatMap fun group => group.fds.toList) (w.afterOpen env tid)
  obtain ⟨rest, hrest, hquiet⟩ := hsame.calls
  have hopen : w' = _ := openTid_of_notMem env htid
  refine ⟨attempts, rest, hconfigs ▸ hall, ?_, hquiet, ?_, ?_, ?_⟩
  · rw [hopen]
    show (((w.afterOpen env tid).describeAll env tid _).kernel).trace = _
    rw [hrest, ← htrace]
    rfl
  · rw [hopen, ← hgroups]
    exact AList.lookup_insert _
  · rw [hopen, ← htable]
    exact hsame.table
  · intro tid' hne
    rw [hopen]
    show (AList.insert tid _ ((w.afterOpen env tid).describeAll env tid _).state.groups).lookup
      tid' = _
    rw [AList.lookup_insert_ne hne, hsame.groups]
    rfl

def noBranches : Env :=
  { Env.steady with
    os := { Os.steady with
      perfEventOpen := fun k args =>
        if args.config.name.text = "branches".toList then .error .ENOENT
        else Os.steady.perfEventOpen k args } }

/-- The first group is opened halfway and closed again, and the second gets its descriptor. -/
theorem openTid_attempts_pair :
    let w' := (new [pairGroup, cyclesGroup]).openTid noBranches 7
    w'.kernel.table.map (·.fd) = [3] ∧ (w'.state.groups.lookup 7).map List.length = some 1 ∧
      ∃ attempts rest,
        List.Forall₂ (fun config a => Attempt 7 config.toList a.1 a.2) [pairGroup, cyclesGroup]
          attempts ∧
        w'.kernel.trace = attempts.flatMap Prod.fst ++ rest ∧ ∀ s ∈ rest, ¬ s.isFdCall := by
  refine ⟨by rfl, by rfl, ?_⟩
  obtain ⟨attempts, rest, hall, htrace, hrest, -⟩ :=
    openTid_attempts noBranches [pairGroup, cyclesGroup] [] 7 (by simp [run, new])
  exact ⟨attempts, rest, hall, htrace, hrest⟩

end World

end Threadstat

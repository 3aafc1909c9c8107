import Threadstat.Perf.Stat

/-!
# What opening and closing a group does to the kernel

`PerfStatGroup.new` either leaves exactly its own events behind, in order and under one leader,
or leaves the table of open events as it was.  `Backs` says that a group the daemon holds is the
kernel's group: the same descriptors under the same names, in the kernel's order.
-/

namespace Threadstat

variable {T : Type}

def Syscall.isFdCall : Syscall T → Prop
  | .perfEventOpen .. => True
  | .close _ => True
  | _ => False

/-- The calls made between two states, all of them of one kind. -/
def Kernel.Extends (P : Syscall T → Prop) (k k' : Kernel T) : Prop :=
  ∃ tail, k'.trace = k.trace ++ tail ∧ ∀ s ∈ tail, P s

namespace Kernel.Extends

variable {P : Syscall T → Prop} {k k' k'' : Kernel T}

theorem refl (k : Kernel T) : Kernel.Extends P k k := ⟨[], by simp, by simp⟩

theorem trans (h : Kernel.Extends P k k') (h' : Kernel.Extends P k' k'') :
    Kernel.Extends P k k'' := by
  obtain ⟨tail, htrace, htail⟩ := h
  obtain ⟨tail', htrace', htail'⟩ := h'
  refine ⟨tail ++ tail', by rw [htrace', htrace, List.append_assoc], ?_⟩
  intro s hs
  rcases List.mem_append.1 hs with hs | hs
  · exact htail s hs
  · exact htail' s hs

theorem one {s : Syscall T} (h : k'.trace = k.trace ++ [s]) (hs : P s) :
    Kernel.Extends P k k' := ⟨[s], h, by simpa using hs⟩

theorem mono {Q : Syscall T → Prop} (hPQ : ∀ s, P s → Q s) (h : Kernel.Extends P k k') :
    Kernel.Extends Q k k' := by
  obtain ⟨tail, htrace, htail⟩ := h
  exact ⟨tail, htrace, fun s hs => hPQ s (htail s hs)⟩

end Kernel.Extends

def PerfStat.of (ev : PerfEvent T) : PerfStat T := ⟨ev.fd, ev.config.name⟩

@[simp] theorem PerfStat.fd_of (ev : PerfEvent T) : (PerfStat.of ev).fd = ev.fd := rfl

@[simp] theorem PerfStat.name_of (ev : PerfEvent T) : (PerfStat.of ev).name = ev.config.name := rfl

/-! ## Closing -/

theorem closeAll_table (k : Kernel T) (stats : List (PerfStat T)) :
    (closeAll k stats).table = k.table.filter fun ev => ev.fd ∉ stats.map (·.fd) := by
  induction stats generalizing k with
  | nil => simp [closeAll]
  | cons stat stats ih =>
      rw [closeAll, List.foldl_cons, ← closeAll, ih, Kernel.close, List.filter_filter]
      apply List.filter_congr
      intro ev _
      simp only [List.map_cons, List.mem_cons, not_or, Bool.decide_and, Bool.and_comm]

theorem closeAll_opened (k : Kernel T) (stats : List (PerfStat T)) :
    (closeAll k stats).opened = k.opened := by
  induction stats generalizing k with
  | nil => rfl
  | cons stat stats ih =>
      rw [closeAll, List.foldl_cons, ← closeAll, ih, Kernel.opened_close]

theorem closeAll_ok {k : Kernel T} (hk : k.Ok) (stats : List (PerfStat T)) :
    (closeAll k stats).Ok := by
  induction stats generalizing k with
  | nil => exact hk
  | cons stat stats ih => exact ih (hk.close stat.fd)

theorem closeAll_trace (k : Kernel T) (stats : List (PerfStat T)) :
    (closeAll k stats).trace = k.trace ++ stats.map fun stat => .close stat.fd := by
  induction stats generalizing k with
  | nil => simp [closeAll]
  | cons stat stats ih =>
      rw [closeAll, List.foldl_cons, ← closeAll, ih]
      simp [Kernel.close]

theorem closeAll_extends (k : Kernel T) (stats : List (PerfStat T)) :
    Kernel.Extends Syscall.isFdCall k (closeAll k stats) := by
  refine ⟨_, closeAll_trace k stats, ?_⟩
  intro s hs
  obtain ⟨stat, -, rfl⟩ := List.mem_map.1 hs
  trivial

/-! ## Opening -/

/-- The state `k'` is `k` with the events `evs` newly opened for the thread `tid`, from the given
configurations and in the group of `leader`. -/
structure Joined (k k' : Kernel T) (tid : Pid) (leader : UInt64) (configs : List (PerfConfig T))
    (evs : List (PerfEvent T)) : Prop where
  ok : k'.Ok
  table : k'.table = k.table ++ evs
  opened : k'.opened = k.opened ++ evs
  calls : Kernel.Extends Syscall.isFdCall k k'
  configs : evs.map (·.config) = configs
  leader : ∀ ev ∈ evs, ev.leader = leader
  pid : ∀ ev ∈ evs, ev.pid = tid

theorem Joined.snoc {k k' : Kernel T} {tid : Pid} {leader : UInt64}
    {configs : List (PerfConfig T)} {evs : List (PerfEvent T)}
    (h : Joined k k' tid leader configs evs) {args : OpenArgs T} {ev : PerfEvent T}
    (hadmits : k'.Admits args ev) (hpid : args.pid = tid) (hleader : ev.leader = leader) :
    Joined k (k'.push args ev) tid leader (configs ++ [args.config]) (evs ++ [ev]) where
  ok := h.ok.push hadmits
  table := by simp [Kernel.push, h.table]
  opened := by simp [h.opened]
  calls := h.calls.trans (.one rfl trivial)
  configs := by simp [h.configs, hadmits.config]
  leader := by
    intro e he
    rcases List.mem_append.1 he with he | he
    · exact h.leader e he
    · rwa [List.mem_singleton.1 he]
  pid := by
    intro e he
    rcases List.mem_append.1 he with he | he
    · exact h.pid e he
    · rw [List.mem_singleton.1 he, hadmits.pid, hpid]

/-- Closing what was just opened gives the table back. -/
theorem Joined.closeAll_table {k k' : Kernel T} {tid : Pid} {leader : UInt64}
    {configs : List (PerfConfig T)} {evs : List (PerfEvent T)}
    (h : Joined k k' tid leader configs evs) :
    (closeAll k' (evs.map PerfStat.of)).table = k.table := by
  have hnodup : (k.table.map (·.fd) ++ evs.map (·.fd)).Nodup := by
    rw [← List.map_append, ← h.table]
    exact h.ok.fds
  have hdisj := (List.nodup_append.1 hnodup).2.2
  have hfds : (evs.map PerfStat.of).map (·.fd) = evs.map (·.fd) := by simp
  rw [Threadstat.closeAll_table, h.table, hfds, List.filter_append]
  have hkeep : k.table.filter (fun ev => ev.fd ∉ evs.map (·.fd)) = k.table := by
    rw [List.filter_eq_self]
    intro ev hev
    have hne := hdisj ev.fd (List.mem_map_of_mem hev)
    simpa using fun e he heq => hne e.fd (List.mem_map_of_mem he) heq.symm
  have hdrop : evs.filter (fun ev => ev.fd ∉ evs.map (·.fd)) = [] := by
    rw [List.filter_eq_nil_iff]
    intro ev hev
    simpa using ⟨ev, hev, rfl⟩
  rw [hkeep, hdrop, List.append_nil]

/-- Opening the rest of a group either joins every remaining event to it, or closes all of it. -/
theorem openRest_spec (os : Os T) {k₀ k k' : Kernel T} {tid : Pid} {leader : UInt64}
    {firstRaw : RawFd} {first : PerfEvent T} {done rest : List (PerfConfig T)}
    {evs : List (PerfEvent T)} {answer : Except IoError (List (PerfStat T))}
    (hjoined : Joined k₀ k tid leader done evs)
    (hfirst : first ∈ evs) (hfd : first.fd = firstRaw) (hnonneg : 0 ≤ firstRaw)
    (h : openRest os tid firstRaw rest (evs.map PerfStat.of) k = (answer, k')) :
    (∃ evs', answer = .ok (evs'.map PerfStat.of) ∧ evs <+: evs' ∧
        Joined k₀ k' tid leader (done ++ rest) evs') ∨
      (∃ e, answer = .error e) ∧ k'.Ok ∧ k'.table = k₀.table ∧
        (∃ evs', k'.opened = k₀.opened ++ evs') ∧ Kernel.Extends Syscall.isFdCall k₀ k' := by
  induction rest generalizing k done evs with
  | nil =>
      obtain ⟨rfl, rfl⟩ := Prod.mk.inj h
      exact .inl ⟨evs, rfl, List.prefix_rfl, by simpa using hjoined⟩
  | cons config rest ih =>
      unfold openRest at h
      rcases Kernel.perfEventOpen_cases os ⟨config, tid, -1, firstRaw, PERF_FLAG_FD_CLOEXEC⟩ k with
        ⟨e, hopen⟩ | ⟨ev, hadmits, hopen⟩
      · -- The failed member: everything collected so far is dropped.
        rw [hopen] at h
        obtain ⟨rfl, rfl⟩ := Prod.mk.inj h
        have hnote : Joined k₀ (k.note (.perfEventOpen
            ⟨config, tid, -1, firstRaw, PERF_FLAG_FD_CLOEXEC⟩ (.error e))) tid leader done evs :=
          { hjoined with
            ok := hjoined.ok.note rfl
            opened := by simp [Kernel.opened_note, Syscall.opened?, hjoined.opened]
            calls := hjoined.calls.trans (.one rfl trivial) }
        refine .inr ⟨⟨e, rfl⟩, closeAll_ok hnote.ok _, hnote.closeAll_table, ⟨evs, ?_⟩,
          hnote.calls.trans (closeAll_extends _ _)⟩
        rw [closeAll_opened, hnote.opened]
      · rw [hopen] at h
        have hmem : first ∈ k.table := by
          rw [hjoined.table]
          exact List.mem_append_right _ hfirst
        have hleader : ev.leader = leader := by
          have hl := hadmits.leader
          have hne : firstRaw ≠ -1 := by
            rintro rfl
            exact absurd hnonneg (by decide)
          rw [Kernel.leaderFor, if_neg hne, ← hfd, hjoined.ok.find_eq hmem] at hl
          exact (Option.some.inj hl).symm.trans (hjoined.leader first hfirst)
        have hnext := hjoined.snoc hadmits rfl hleader
        have hcollected : evs.map PerfStat.of ++ [⟨ev.fd, config.name⟩] =
            (evs ++ [ev]).map PerfStat.of := by
          simp [PerfStat.of, hadmits.config]
        dsimp only at h
        rw [hcollected] at h
        rcases ih hnext (List.mem_append_left _ hfirst) h with ⟨evs', hans, hprefix, hj⟩ | herr
        · exact .inl ⟨evs', hans, (List.prefix_append _ _).trans hprefix, by simpa using hj⟩
        · exact .inr herr

/-- `new` makes one whole group, led by its first event, or leaves the table as it was. -/
theorem PerfStatGroup.new_spec (os : Os T) {k k' : Kernel T} (hk : k.Ok) {tid : Pid}
    {input : List (PerfConfig T)} {answer : Except PerfError (PerfStatGroup T)}
    (h : PerfStatGroup.new os input tid k = (answer, k')) :
    (∃ first rest group ev evs, input = first :: rest ∧ answer = .ok group ∧
        (ev :: evs).map PerfStat.of = group.fds.toList ∧
        Joined k k' tid ev.id (leaderConfig first :: rest) (ev :: evs)) ∨
      (∃ e, answer = .error e) ∧ k'.Ok ∧ k'.table = k.table ∧
        (∃ evs, k'.opened = k.opened ++ evs) ∧ Kernel.Extends Syscall.isFdCall k k' := by
  cases input with
  | nil =>
      obtain ⟨rfl, rfl⟩ := Prod.mk.inj h
      exact .inr ⟨⟨_, rfl⟩, hk, rfl, ⟨[], by simp⟩, .refl k⟩
  | cons first rest =>
      unfold PerfStatGroup.new at h
      dsimp only at h
      rcases Kernel.perfEventOpen_cases os
          ⟨leaderConfig first, tid, -1, -1, PERF_FLAG_FD_CLOEXEC⟩ k with
        ⟨e, hopen⟩ | ⟨ev, hadmits, hopen⟩
      · rw [hopen] at h
        obtain ⟨rfl, rfl⟩ := Prod.mk.inj h
        exact .inr ⟨⟨_, rfl⟩, hk.note rfl, rfl,
          ⟨[], by simp [Kernel.opened_note, Syscall.opened?]⟩, .one rfl trivial⟩
      · rw [hopen] at h
        have hstart : Joined k k tid ev.id [] [] :=
          ⟨hk, by simp, by simp, .refl k, rfl, by simp, by simp⟩
        have hself : ev.leader = ev.id := (Option.some.inj hadmits.leader).symm
        have hone : Joined k (k.push _ ev) tid ev.id [leaderConfig first] [ev] :=
          hstart.snoc hadmits rfl hself
        have hcollected : [(⟨ev.fd, first.name⟩ : PerfStat T)] = [ev].map PerfStat.of := by
          simp [PerfStat.of, hadmits.config, leaderConfig]
        dsimp only at h
        rw [hcollected] at h
        generalize hrest : openRest os tid ev.fd rest ([ev].map PerfStat.of) _ = r at h
        obtain ⟨collected, k₁⟩ := r
        rcases openRest_spec os hone (List.mem_singleton_self ev) rfl hadmits.fd_nonneg hrest with
          ⟨evs', rfl, ⟨evs, rfl⟩, hj⟩ | ⟨⟨e, rfl⟩, hok, htable, hopened, hcalls⟩
        · have hne : ([ev] ++ evs).map PerfStat.of ≠ [] := by simp
          dsimp only at h
          rw [MaybeNonEmpty.fromIter_of_ne hne] at h
          obtain ⟨rfl, rfl⟩ := Prod.mk.inj h
          exact .inl ⟨first, rest, _, ev, evs, rfl, rfl, rfl, hj⟩
        · obtain ⟨rfl, rfl⟩ := Prod.mk.inj h
          exact .inr ⟨⟨_, rfl⟩, hok, htable, hopened, hcalls⟩

/-! ## The daemon's groups are the kernel's groups -/

/-- The group the daemon holds is the kernel's group led by the event `leader`: the same open
descriptors under the same names, all counting `tid`, and read as a whole through the leader. -/
structure Backs (k : Kernel T) (tid : Pid) (leader : UInt64) (group : PerfStatGroup T) :
    Prop where
  stats : (k.members leader).map PerfStat.of = group.fds.toList
  lead : ∃ ev rest, k.members leader = ev :: rest ∧ ev.id = leader ∧
    ev.config.attr.readFormat = groupReadFormat
  pid : ∀ ev ∈ k.members leader, ev.pid = tid

theorem Kernel.mem_members {k : Kernel T} {leader : UInt64} {ev : PerfEvent T} :
    ev ∈ k.members leader ↔ ev ∈ k.table ∧ ev.leader = leader := by
  simp [Kernel.members]

theorem Kernel.Ok.members_nodup {k : Kernel T} (hk : k.Ok) (leader : UInt64) :
    ((k.members leader).map (·.id)).Nodup :=
  hk.ids.sublist ((List.filter_sublist.trans hk.sub).map _)

theorem Joined.id_ne {k k' : Kernel T} {tid : Pid} {leader : UInt64}
    {configs : List (PerfConfig T)} {evs : List (PerfEvent T)}
    (h : Joined k k' tid leader configs evs) {old ev : PerfEvent T} (hold : old ∈ k.opened)
    (hev : ev ∈ evs) : old.id ≠ ev.id := by
  have hnodup := h.ok.ids
  rw [h.opened, List.map_append, List.nodup_append] at hnodup
  exact hnodup.2.2 old.id (List.mem_map_of_mem hold) ev.id (List.mem_map_of_mem hev)

theorem Joined.leader_ne {k k' : Kernel T} {tid : Pid} {configs : List (PerfConfig T)}
    {ev : PerfEvent T} {evs : List (PerfEvent T)} (hk : k.Ok)
    (h : Joined k k' tid ev.id configs (ev :: evs)) : ∀ old ∈ k.opened, old.leader ≠ ev.id := by
  intro old hold heq
  obtain ⟨l, hl, hid⟩ := hk.leaders old hold
  exact h.id_ne hl List.mem_cons_self (hid.trans heq)

/-- Opening another group leaves the groups of earlier events alone. -/
theorem Joined.members_eq {k k' : Kernel T} {tid : Pid} {configs : List (PerfConfig T)}
    {ev : PerfEvent T} {evs : List (PerfEvent T)} (h : Joined k k' tid ev.id configs (ev :: evs))
    {leader : UInt64} (hold : ∃ old ∈ k.opened, old.id = leader) :
    k'.members leader = k.members leader := by
  obtain ⟨old, hold, rfl⟩ := hold
  have hne : ev.id ≠ old.id := (h.id_ne hold List.mem_cons_self).symm
  have hnew : (ev :: evs).filter (fun e => e.leader = old.id) = [] := by
    rw [List.filter_eq_nil_iff]
    intro e he
    simpa [h.leader e he] using hne
  rw [Kernel.members, h.table, List.filter_append, hnew, List.append_nil, Kernel.members]

theorem Joined.backs {k k' : Kernel T} {tid : Pid} {first : PerfConfig T}
    {rest : List (PerfConfig T)} {group : PerfStatGroup T} {ev : PerfEvent T}
    {evs : List (PerfEvent T)} (hk : k.Ok)
    (h : Joined k k' tid ev.id (leaderConfig first :: rest) (ev :: evs))
    (hstats : (ev :: evs).map PerfStat.of = group.fds.toList) : Backs k' tid ev.id group := by
  have hmembers : k'.members ev.id = ev :: evs := by
    have hold : k.table.filter (fun e => e.leader = ev.id) = [] := by
      rw [List.filter_eq_nil_iff]
      intro old hold
      simpa using h.leader_ne hk old (hk.mem_opened hold)
    have hnew : (ev :: evs).filter (fun e => e.leader = ev.id) = ev :: evs := by
      rw [List.filter_eq_self]
      intro e he
      simpa using h.leader e he
    rw [Kernel.members, h.table, List.filter_append, hold, hnew, List.nil_append]
  refine ⟨hmembers ▸ hstats, ⟨ev, evs, hmembers, rfl, ?_⟩, fun e he => h.pid e (hmembers ▸ he)⟩
  have hconfig : ev.config = leaderConfig first := (List.cons.inj h.configs).1
  rw [hconfig, leaderConfig]

namespace Backs

variable {k k' : Kernel T} {tid : Pid} {leader : UInt64} {group : PerfStatGroup T}

theorem of_members_eq (h : Backs k tid leader group)
    (heq : k'.members leader = k.members leader) : Backs k' tid leader group :=
  ⟨heq ▸ h.stats, heq ▸ h.lead, heq ▸ h.pid⟩

theorem mem_table (h : Backs k tid leader group) {stat : PerfStat T}
    (hstat : stat ∈ group.fds.toList) : ∃ ev ∈ k.table, ev.leader = leader ∧ PerfStat.of ev = stat := by
  rw [← h.stats, List.mem_map] at hstat
  obtain ⟨ev, hev, hof⟩ := hstat
  obtain ⟨htable, hleader⟩ := Kernel.mem_members.1 hev
  exact ⟨ev, htable, hleader, hof⟩

theorem leader_event (h : Backs k tid leader group) :
    ∃ ev rest, k.members leader = ev :: rest ∧ ev ∈ k.table ∧ ev.id = leader ∧
      ev.fd = group.leaderFd ∧ ev.config.attr.readFormat = groupReadFormat := by
  obtain ⟨ev, rest, hmembers, hid, hformat⟩ := h.lead
  have hev : ev ∈ k.members leader := by simp [hmembers]
  refine ⟨ev, rest, hmembers, (Kernel.mem_members.1 hev).1, hid, ?_, hformat⟩
  have hstats := h.stats
  rw [hmembers, NonEmpty.toList_eq_cons] at hstats
  exact congrArg PerfStat.fd (List.cons.inj hstats).1

theorem find_leaderFd (hk : k.Ok) (h : Backs k tid leader group) :
    (k.find group.leaderFd).map (·.id) = some leader := by
  obtain ⟨ev, -, -, htable, hid, hfd, -⟩ := h.leader_event
  rw [← hfd, hk.find_eq htable, Option.map_some, hid]

theorem length_members (h : Backs k tid leader group) :
    (k.members leader).length = group.len := by
  have hlen := congrArg List.length h.stats
  simpa [PerfStatGroup.len, NonEmpty.len] using hlen

theorem members_closeAll (h : Backs k tid leader group) {stats : List (PerfStat T)}
    (hfds : ∀ stat ∈ group.fds.toList, ∀ other ∈ stats, stat.fd ≠ other.fd) :
    (closeAll k stats).members leader = k.members leader := by
  rw [Kernel.members, closeAll_table, List.filter_filter, Kernel.members]
  apply List.filter_congr
  intro ev hev
  by_cases hleader : ev.leader = leader
  · have hstat : PerfStat.of ev ∈ group.fds.toList := by
      rw [← h.stats]
      exact List.mem_map_of_mem (Kernel.mem_members.2 ⟨hev, hleader⟩)
    simpa [hleader] using fun other hother => (hfds _ hstat other hother).symm
  · simp [hleader]

theorem leader_opened (hk : k.Ok) (h : Backs k tid leader group) :
    ∃ ev ∈ k.opened, ev.id = leader := by
  obtain ⟨lead, -, -, htable, hid, -, -⟩ := h.leader_event
  exact ⟨lead, hk.mem_opened htable, hid⟩

end Backs

end Threadstat

import Threadstat.State.Steps

/-!
# How often a group is read

A group is followed by the id of the event that leads it, which no later event shares.  While the
group is in the map every flush reads it once; closing its thread reads it once more; after that
it is never read again.
-/

namespace Threadstat

def LedBy {T : Type} (k : Kernel T) (tid : Pid) (leader : UInt64)
    (groups : List (PerfStatGroup T)) : Prop :=
  ∃ group ∈ groups, Backs k tid leader group

theorem Backs.leader_unique {T : Type} {k : Kernel T} (hk : k.Ok) {tid tid' : Pid}
    {leader leader' : UInt64} {group : PerfStatGroup T} (h : Backs k tid leader group)
    (h' : Backs k tid' leader' group) : leader = leader' := by
  have hfind := h.find_leaderFd hk
  rw [h'.find_leaderFd hk] at hfind
  exact (Option.some.inj hfind).symm

theorem Backs.pid_unique {T : Type} {k : Kernel T} {tid tid' : Pid}
    {leader : UInt64} {group group' : PerfStatGroup T} (h : Backs k tid leader group)
    (h' : Backs k tid' leader group') : tid = tid' := by
  obtain ⟨ev, rest, hmembers, -⟩ := h.lead
  have hev : ev ∈ k.members leader := by simp [hmembers]
  rw [← h.pid ev hev, h'.pid ev hev]

theorem mem_leaders_iff {T : Type} {k : Kernel T} (hk : k.Ok) {tid : Pid}
    {leaders : List UInt64} {groups : List (PerfStatGroup T)}
    (hbacks : List.Forall₂ (Backs k tid) leaders groups) {leader : UInt64} :
    leader ∈ leaders ↔ LedBy k tid leader groups := by
  constructor
  · intro hmem
    exact FirstError.exists_of_mem_left hbacks hmem
  · rintro ⟨group, hgroup, hb⟩
    obtain ⟨leader', hmem, hb'⟩ := FirstError.exists_of_mem_right hbacks hgroup
    exact hb.leader_unique hk hb' ▸ hmem

namespace Kernel

variable {T : Type} {k k' : Kernel T}

theorem readsOf_append {tail : List (Syscall T)} (h : k'.trace = k.trace ++ tail)
    (leader : UInt64) :
    k'.readsOf leader = k.readsOf leader + tail.countP (Syscall.readsEvent leader) := by
  rw [readsOf, h, List.countP_append, readsOf]

theorem Extends.readsOf (h : Kernel.Extends (fun s => s.isRead = false) k k') (leader : UInt64) :
    k'.readsOf leader = k.readsOf leader := by
  obtain ⟨tail, htrace, htail⟩ := h
  have hnone : tail.countP (Syscall.readsEvent leader) = 0 := by
    rw [List.countP_eq_zero]
    intro s hs
    have hread := htail s hs
    cases s with
    | read => cases hread
    | _ => exact Bool.false_ne_true
  rw [readsOf_append htrace, hnone, Nat.add_zero]

end Kernel

theorem Syscall.not_isRead_of_isFdCall {T : Type} {s : Syscall T} (h : s.isFdCall) :
    s.isRead = false := by
  cases s with
  | read => exact absurd h id
  | _ => rfl

theorem Syscall.not_isRead_of_isWrite {T : Type} {s : Syscall T} (h : s.isWrite) :
    s.isRead = false := by
  cases s with
  | read => exact absurd h id
  | _ => rfl

namespace World

variable (env : Env)

/-! ## Flushing -/

theorem flushGroup_reads {w : World} (hw : w.kernel.Ok) {tid : Pid} {leader : UInt64}
    {group : PerfStatGroup InternC} (hb : Backs w.kernel tid leader group) (event : UInt64) :
    (w.flushGroup env group).kernel.readsOf event =
      w.kernel.readsOf event + if leader = event then 1 else 0 := by
  obtain ⟨tail, htrace, htail⟩ := w.flushGroup_trace env group
  have hnone : tail.countP (Syscall.readsEvent event) = 0 := by
    rw [List.countP_eq_zero]
    intro s hs
    have hwrite := htail s hs
    cases s with
    | write => exact Bool.false_ne_true
    | _ => exact absurd hwrite id
  rw [Kernel.readsOf_append htrace, List.countP_cons, hnone, readCall, hb.find_leaderFd hw]
  simp [Syscall.readsEvent]

theorem flushGroups_reads {w : World} (hw : w.kernel.Ok) {tid : Pid} {leaders : List UInt64}
    {groups : TidGroups} (hbacks : List.Forall₂ (Backs w.kernel tid) leaders groups)
    (event : UInt64) :
    (w.flushGroups env groups).kernel.readsOf event =
      w.kernel.readsOf event + leaders.count event := by
  induction groups generalizing w leaders with
  | nil =>
      cases hbacks
      simp [flushGroups]
  | cons group groups ih =>
      cases hbacks with
      | @cons leader _ leaders _ hb hrest =>
          have hsame := flushGroup_same env group w
          rw [flushGroups, List.foldl_cons, ← flushGroups,
            ih (hsame.kernelOk hw) (hrest.imp fun _ _ => hsame.backs),
            flushGroup_reads env hw hb, List.count_cons]
          simp only [beq_iff_eq]
          omega

/-- A flush reads the group led by `event` once if it is among the groups, and else not at all. -/
theorem flushGroups_reads_held {w : World} (hw : w.kernel.Ok) {tid : Pid} {groups : TidGroups}
    (hheld : Held w.kernel tid groups) (event : UInt64) :
    (LedBy w.kernel tid event groups →
      (w.flushGroups env groups).kernel.readsOf event = w.kernel.readsOf event + 1) ∧
    (¬ LedBy w.kernel tid event groups →
      (w.flushGroups env groups).kernel.readsOf event = w.kernel.readsOf event) := by
  obtain ⟨leaders, hbacks, hnodup⟩ := hheld
  have hreads := flushGroups_reads env hw hbacks event
  rw [← mem_leaders_iff hw hbacks]
  refine ⟨fun hmem => ?_, fun hmem => ?_⟩
  · rw [hreads, List.count_eq_one_of_mem hnodup hmem]
  · rw [hreads, List.count_eq_zero_of_not_mem hmem, Nat.add_zero]

/-- The map holds a group of `tid` led by the event `leader`. -/
def Leads (w : World) (tid : Pid) (leader : UInt64) : Prop :=
  ∃ groups, w.state.groups.lookup tid = some groups ∧ LedBy w.kernel tid leader groups

theorem Leads.pid_unique {w : World} {tid tid' : Pid} {leader : UInt64}
    (h : w.Leads tid leader) (h' : w.Leads tid' leader) : tid = tid' := by
  obtain ⟨_, -, _, -, hb⟩ := h
  obtain ⟨_, -, _, -, hb'⟩ := h'
  exact hb.pid_unique hb'

theorem SameGroups.ledBy {w w' : World} (h : SameGroups w w') {tid : Pid} {leader : UInt64}
    {groups : TidGroups} : LedBy w'.kernel tid leader groups ↔ LedBy w.kernel tid leader groups := by
  refine exists_congr fun group => and_congr_right fun _ => ?_
  exact ⟨fun hb => hb.of_members_eq (h.members leader).symm, h.backs⟩

theorem SameGroups.leads {w w' : World} (h : SameGroups w w') {tid : Pid} {leader : UInt64} :
    w'.Leads tid leader ↔ w.Leads tid leader := by
  simp only [Leads, h.groups, h.ledBy]

theorem flushEntries_reads {w : World} (hw : w.kernel.Ok)
    {entries : List (Sigma fun _ : Pid => TidGroups)}
    (hheld : ∀ entry ∈ entries, Held w.kernel entry.1 entry.2)
    (hnodup : (entries.map Sigma.fst).Nodup) (event : UInt64) :
    ((∃ entry ∈ entries, LedBy w.kernel entry.1 event entry.2) →
      (entries.foldl (fun w entry => w.flushGroups env entry.2) w).kernel.readsOf event =
        w.kernel.readsOf event + 1) ∧
    ((∀ entry ∈ entries, ¬ LedBy w.kernel entry.1 event entry.2) →
      (entries.foldl (fun w entry => w.flushGroups env entry.2) w).kernel.readsOf event =
        w.kernel.readsOf event) := by
  induction entries generalizing w with
  | nil => simp
  | cons entry entries ih =>
      obtain ⟨hfirst, hnodup⟩ := List.nodup_cons.1 hnodup
      have hsame := flushGroups_same env entry.2 w
      have hone := flushGroups_reads_held env hw (hheld entry (by simp)) event
      have hrest := ih (hsame.kernelOk hw)
        (fun e he => (hheld e (by simp [he])).of_table_eq hsame.table) hnodup
      rw [List.foldl_cons]
      simp only [hsame.ledBy] at hrest
      by_cases hled : LedBy w.kernel entry.1 event entry.2
      · -- No other thread can hold a group led by this event.
        have hothers : ∀ e ∈ entries, ¬ LedBy w.kernel e.1 event e.2 := by
          rintro e he ⟨group, -, hb⟩
          obtain ⟨group', -, hb'⟩ := hled
          exact hfirst (List.mem_map.2 ⟨e, he, hb.pid_unique hb'⟩)
        refine ⟨fun _ => by rw [hrest.2 hothers, hone.1 hled], fun h => absurd hled (h entry (by simp))⟩
      · refine ⟨?_, fun h => ?_⟩
        · rintro ⟨e, he, hled'⟩
          rcases List.mem_cons.1 he with rfl | he
          · exact absurd hled' hled
          · rw [hrest.1 ⟨e, he, hled'⟩, hone.2 hled]
        · rw [hrest.2 fun e he => h e (by simp [he]), hone.2 hled]

theorem flushAll_reads {w : World} (hw : w.Ok) (event : UInt64) :
    ((∃ tid, w.Leads tid event) →
      (w.flushAll env).kernel.readsOf event = w.kernel.readsOf event + 1) ∧
    ((∀ tid, ¬ w.Leads tid event) →
      (w.flushAll env).kernel.readsOf event = w.kernel.readsOf event) := by
  have hperm := env.iter_perm w.kernel w.state.groups.entries
  have hmem : ∀ entry, entry ∈ env.iter w.kernel w.state.groups.entries ↔
      w.state.groups.lookup entry.1 = some entry.2 := by
    intro entry
    rw [hperm.mem_iff]
    exact AList.mem_lookup_iff.symm
  have hreads := flushEntries_reads env hw.kernel
    (fun entry hentry => hw.held entry.1 entry.2 ((hmem entry).1 hentry))
    ((hperm.map Sigma.fst).nodup_iff.2 w.state.groups.nodupKeys) event
  refine ⟨?_, fun h => ?_⟩
  · rintro ⟨tid, groups, hlookup, hled⟩
    exact hreads.1 ⟨⟨tid, groups⟩, (hmem _).2 hlookup, hled⟩
  · exact hreads.2 fun entry hentry hled => h entry.1 ⟨entry.2, (hmem entry).1 hentry, hled⟩

/-! ## Opening and closing -/

theorem describe_calls (tid : Pid) (stat : PerfStat InternC) (w : World) :
    Kernel.Extends (fun s => s.isRead = false) w.kernel (w.describe env tid stat).kernel := by
  have hioctl : Kernel.Extends (fun s => s.isRead = false) w.kernel
      (w.kernel.ioctlId env.os stat.fd).2 :=
    .one (s := .ioctlId stat.fd ((w.kernel.find stat.fd).map (·.id)) _) rfl rfl
  unfold describe
  cases hcall : w.kernel.ioctlId env.os stat.fd with
  | mk answer kernel =>
      rw [hcall] at hioctl
      cases answer with
      | error e => exact hioctl
      | ok id =>
          have hwrite := writeRows_extends env [.desc ⟨id, stat.name.text, tid⟩]
            { w with kernel := kernel }
          exact hioctl.trans (hwrite.mono fun _ => Syscall.not_isRead_of_isWrite)

theorem describeAll_calls (tid : Pid) (stats : List (PerfStat InternC)) (w : World) :
    Kernel.Extends (fun s => s.isRead = false) w.kernel (w.describeAll env tid stats).kernel := by
  induction stats generalizing w with
  | nil => exact .refl _
  | cons stat stats ih => exact (describe_calls env tid stat w).trans (ih _)

theorem openTid_reads (tid : Pid) {w : World} (hw : w.Ok) (event : UInt64) :
    (w.openTid env tid).kernel.readsOf event = w.kernel.readsOf event := by
  by_cases hmem : tid ∈ w.state.groups
  · rw [openTid_of_mem env hmem]
  · have hopens := openGroups_spec env tid w.state.eventConfigs hw.kernel
    have hdescribe := describeAll_calls env tid
      ((w.openedGroups env tid).flatMap fun group => group.fds.toList) (w.afterOpen env tid)
    rw [openTid_of_notMem env hmem]
    exact ((hopens.calls.mono fun _ => Syscall.not_isRead_of_isFdCall).trans hdescribe).readsOf event

theorem closeTid_reads (tid : Pid) {w : World} (hw : w.Ok) (event : UInt64) :
    (w.Leads tid event →
      (w.closeTid env tid).kernel.readsOf event = w.kernel.readsOf event + 1) ∧
    (¬ w.Leads tid event →
      (w.closeTid env tid).kernel.readsOf event = w.kernel.readsOf event) := by
  cases hlookup : w.state.groups.lookup tid with
  | none =>
      rw [closeTid_of_none env hlookup]
      refine ⟨?_, fun _ => rfl⟩
      rintro ⟨groups, hgroups, -⟩
      rw [hlookup] at hgroups
      cases hgroups
  | some groups =>
      have hflush := flushGroups_reads_held env (w := w.afterRemove tid) hw.kernel
        (hw.held tid groups hlookup) event
      have hclose := ((closeAll_extends ((w.afterRemove tid).flushGroups env groups).kernel
        (groups.flatMap fun group => group.fds.toList)).mono
          fun _ => Syscall.not_isRead_of_isFdCall).readsOf event
      rw [closeTid_of_some env hlookup]
      dsimp only
      rw [hclose]
      refine ⟨?_, fun hleads => hflush.2 fun hled => hleads ⟨groups, hlookup, hled⟩⟩
      rintro ⟨groups', hgroups', hled⟩
      rw [hlookup] at hgroups'
      obtain rfl := Option.some.inj hgroups'
      exact hflush.1 hled

/-! ## Who holds which group -/

theorem ledBy_of_frame {k k' : Kernel InternC} (hk' : k'.Ok) {tid : Pid} {leader : UInt64}
    {groups : TidGroups} (hheld : Held k tid groups)
    (hframe : ∀ {leader group}, Backs k tid leader group → Backs k' tid leader group) :
    LedBy k' tid leader groups ↔ LedBy k tid leader groups := by
  constructor
  · rintro ⟨group, hgroup, hb'⟩
    obtain ⟨leader', hb⟩ := hheld.backs hgroup
    exact ⟨group, hgroup, hb'.leader_unique hk' (hframe hb) ▸ hb⟩
  · rintro ⟨group, hgroup, hb⟩
    exact ⟨group, hgroup, hframe hb⟩

def Known (w : World) (event : UInt64) : Prop := ∃ ev ∈ w.kernel.opened, ev.id = event

theorem Leads.known {w : World} (hw : w.Ok) {tid : Pid} {leader : UInt64}
    (h : w.Leads tid leader) : w.Known leader := by
  obtain ⟨_, -, _, -, hb⟩ := h
  exact hb.leader_opened hw.kernel

theorem openTid_opened (tid : Pid) {w : World} (hw : w.Ok) :
    ∃ evs, (w.openTid env tid).kernel.opened = w.kernel.opened ++ evs := by
  by_cases hmem : tid ∈ w.state.groups
  · exact ⟨[], by rw [openTid_of_mem env hmem, List.append_nil]⟩
  · obtain ⟨evs, hevs⟩ := (openGroups_spec env tid w.state.eventConfigs hw.kernel).opened
    have hsame := describeAll_same env tid
      ((w.openedGroups env tid).flatMap fun group => group.fds.toList) (w.afterOpen env tid)
    exact ⟨evs, by rw [openTid_of_notMem env hmem]; exact hsame.opened.trans hevs⟩

theorem closeTid_opened (tid : Pid) (w : World) :
    (w.closeTid env tid).kernel.opened = w.kernel.opened := by
  cases hlookup : w.state.groups.lookup tid with
  | none => rw [closeTid_of_none env hlookup]
  | some groups =>
      have hsame := flushGroups_same env groups (w.afterRemove tid)
      rw [closeTid_of_some env hlookup]
      exact (closeAll_opened _ _).trans hsame.opened

/-- The groups of a thread that was just opened are led by events that did not exist before. -/
theorem openTid_unknown {tid : Pid} {w : World} (hw : w.Ok) (hmem : tid ∉ w.state.groups)
    {leader : UInt64} (h : (w.openTid env tid).Leads tid leader) : ¬ w.Known leader := by
  have hopens := openGroups_spec env tid w.state.eventConfigs hw.kernel
  have hsame := describeAll_same env tid
    ((w.openedGroups env tid).flatMap fun group => group.fds.toList) (w.afterOpen env tid)
  rw [openTid_of_notMem env hmem] at h
  obtain ⟨groups, hgroups, hled⟩ := h
  obtain rfl : w.openedGroups env tid = groups := by simpa using hgroups
  obtain ⟨group, hgroup, hb⟩ := hsame.ledBy.1 hled
  rintro ⟨old, hold, hid⟩
  exact hopens.leader_new hgroup hb old hold hid

theorem openTid_leads (tid : Pid) {w : World} (hw : w.Ok) {leader : UInt64}
    (hknown : w.Known leader) {tid' : Pid} :
    (w.openTid env tid).Leads tid' leader ↔ w.Leads tid' leader := by
  by_cases hmem : tid ∈ w.state.groups
  · rw [openTid_of_mem env hmem]
  · by_cases heq : tid' = tid
    · subst heq
      constructor
      · exact fun h => absurd hknown (openTid_unknown env hw hmem h)
      · rintro ⟨groups, hgroups, -⟩
        rw [AList.lookup_eq_none.2 hmem] at hgroups
        cases hgroups
    · have hopens := openGroups_spec env tid w.state.eventConfigs hw.kernel
      have hsame := describeAll_same env tid
        ((w.openedGroups env tid).flatMap fun group => group.fds.toList) (w.afterOpen env tid)
      rw [openTid_of_notMem env hmem]
      simp only [Leads]
      rw [AList.lookup_insert_ne heq, hsame.groups]
      refine exists_congr fun groups => and_congr_right fun hlookup => ?_
      rw [hsame.ledBy]
      exact ledBy_of_frame hopens.ok (hw.held tid' groups hlookup) (hopens.frame hw.kernel)

/-- Closing a thread takes its groups out of the map and leaves the others. -/
theorem closeTid_leads (tid : Pid) {w : World} (hw : w.Ok) {leader : UInt64} {tid' : Pid} :
    (w.closeTid env tid).Leads tid' leader ↔ tid' ≠ tid ∧ w.Leads tid' leader := by
  have hok := closeTid_ok env tid hw
  cases hlookup : w.state.groups.lookup tid with
  | none =>
      rw [closeTid_of_none env hlookup]
      refine ⟨fun h => ⟨?_, h⟩, And.right⟩
      rintro rfl
      obtain ⟨groups, hgroups, -⟩ := h
      rw [hlookup] at hgroups
      cases hgroups
  | some groups =>
      have hsame := flushGroups_same env groups (w.afterRemove tid)
      have hkernel : ((w.afterRemove tid).flushGroups env groups).kernel.Ok :=
        hsame.kernelOk hw.kernel
      have hheld : Held ((w.afterRemove tid).flushGroups env groups).kernel tid groups :=
        (hw.held tid groups hlookup).of_table_eq hsame.table
      rw [closeTid_of_some env hlookup] at hok ⊢
      simp only [Leads, hsame.groups]
      by_cases heq : tid' = tid
      · subst heq
        simp [afterRemove]
      · simp only [afterRemove, ne_eq, heq, not_false_eq_true, true_and, AList.lookup_erase_ne]
        refine exists_congr fun groups' => and_congr_right fun hlookup' => ?_
        have hheld' := hw.held tid' groups' hlookup'
        refine ledBy_of_frame hok.kernel hheld' fun hb => ?_
        have hb' : Backs ((w.afterRemove tid).flushGroups env groups).kernel tid' _ _ :=
          hsame.backs hb
        exact hb'.of_members_eq (members_close_other hkernel heq hheld hb')

end World

end Threadstat

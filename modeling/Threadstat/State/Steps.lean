import Threadstat.State
import Threadstat.Lib.FirstError

/-!
# What one call on the state does

Each operation is described once: which calls it makes, in which order, and which part of the
world it leaves alone.  The invariant `World.Ok` says that the groups in the map are groups of the
kernel; it holds of every world a run can reach.
-/

namespace Threadstat

def Syscall.isWrite {T : Type} : Syscall T → Prop
  | .write .. => True
  | _ => False

def Syscall.readsEvent {T : Type} (leader : UInt64) : Syscall T → Bool
  | .read _ (some id) _ _ => id = leader
  | _ => false

/-- How often the group led by the event `leader` has been read. -/
def Kernel.readsOf {T : Type} (k : Kernel T) (leader : UInt64) : Nat :=
  k.trace.countP (Syscall.readsEvent leader)

/-- The groups of one thread, each a group of the kernel under a leader of its own. -/
def Held {T : Type} (k : Kernel T) (tid : Pid) (groups : List (PerfStatGroup T)) : Prop :=
  ∃ leaders : List UInt64, List.Forall₂ (Backs k tid) leaders groups ∧ leaders.Nodup

theorem Held.imp {T : Type} {k k' : Kernel T} {tid : Pid} {groups : List (PerfStatGroup T)}
    (h : Held k tid groups)
    (himp : ∀ leader, ∀ group ∈ groups, Backs k tid leader group → Backs k' tid leader group) :
    Held k' tid groups := by
  obtain ⟨leaders, hbacks, hnodup⟩ := h
  refine ⟨leaders, ?_, hnodup⟩
  clear hnodup
  induction hbacks with
  | nil => exact .nil
  | cons hb _ ih =>
      exact .cons (himp _ _ (by simp) hb) (ih fun l g hg => himp l g (by simp [hg]))

theorem Held.of_table_eq {T : Type} {k k' : Kernel T} {tid : Pid}
    {groups : List (PerfStatGroup T)} (h : Held k tid groups) (heq : k'.table = k.table) :
    Held k' tid groups :=
  h.imp fun _ _ _ hb => hb.of_members_eq (by rw [Kernel.members, heq, Kernel.members])

theorem Held.backs {T : Type} {k : Kernel T} {tid : Pid} {groups : List (PerfStatGroup T)}
    (h : Held k tid groups) {group : PerfStatGroup T} (hmem : group ∈ groups) :
    ∃ leader, Backs k tid leader group := by
  obtain ⟨leaders, hbacks, -⟩ := h
  obtain ⟨leader, -, hb⟩ := FirstError.exists_of_mem_right hbacks hmem
  exact ⟨leader, hb⟩

namespace World

variable (env : Env)

/-! ## Writing rows -/

def writeRow (row : CsvRow) (w : World) : World := w.onCsv (CsvWriter.write env.os row)

def writeRows (rows : List CsvRow) (w : World) : World :=
  rows.foldl (fun w row => w.writeRow env row) w

def writeAnswer (row : CsvRow) (w : World) : Except IoError Unit := (w.kernel.write env.os row).1

@[simp] theorem writeRow_kernel (row : CsvRow) (w : World) :
    (w.writeRow env row).kernel = w.kernel.note (.write row (w.writeAnswer env row)) := by
  simp only [writeRow, onCsv, CsvWriter.write, writeAnswer, Kernel.write]
  cases env.os.write w.kernel row <;> rfl

theorem writeRow_csv (row : CsvRow) (w : World) :
    (w.writeRow env row).state.csv = match w.writeAnswer env row with
      | .ok () => w.state.csv.append row
      | .error _ => w.state.csv := by
  simp only [writeRow, onCsv, CsvWriter.write, writeAnswer, Kernel.write]
  cases env.os.write w.kernel row <;> rfl

/-- No descriptor was opened or closed and the map of groups is as before. -/
structure SameGroups (w w' : World) : Prop where
  eventConfigs : w'.state.eventConfigs = w.state.eventConfigs
  groups : w'.state.groups = w.state.groups
  table : w'.kernel.table = w.kernel.table
  calls : Kernel.Extends (fun s => ¬ s.isFdCall) w.kernel w'.kernel

theorem SameGroups.refl (w : World) : SameGroups w w := ⟨rfl, rfl, rfl, .refl _⟩

theorem SameGroups.trans {w w' w'' : World} (h : SameGroups w w') (h' : SameGroups w' w'') :
    SameGroups w w'' :=
  ⟨h'.1.trans h.1, h'.2.trans h.2, h'.3.trans h.3, h.4.trans h'.4⟩

theorem writeRow_same (row : CsvRow) (w : World) : SameGroups w (w.writeRow env row) :=
  ⟨rfl, rfl, by simp, .one (s := .write row (w.writeAnswer env row)) (by simp) id⟩

@[simp] theorem writeRow_readId (row : CsvRow) (w : World) :
    (w.writeRow env row).state.readId = w.state.readId := rfl

theorem writeRows_same (rows : List CsvRow) (w : World) : SameGroups w (w.writeRows env rows) := by
  induction rows generalizing w with
  | nil => exact .refl w
  | cons row rows ih => exact (writeRow_same env row w).trans (ih _)

theorem writeRows_readId (rows : List CsvRow) (w : World) :
    (w.writeRows env rows).state.readId = w.state.readId := by
  induction rows generalizing w with
  | nil => rfl
  | cons row rows ih => exact (ih _).trans (writeRow_readId env row w)

theorem writeRows_extends (rows : List CsvRow) (w : World) :
    Kernel.Extends Syscall.isWrite w.kernel (w.writeRows env rows).kernel := by
  induction rows generalizing w with
  | nil => exact .refl _
  | cons row rows ih =>
      have hone : Kernel.Extends Syscall.isWrite w.kernel (w.writeRow env row).kernel :=
        .one (s := .write row (w.writeAnswer env row)) (by simp) trivial
      exact hone.trans (ih _)

/-! ## Flushing -/

def readAnswer (group : PerfStatGroup InternC) (w : World) : Except IoError (List UInt8) :=
  (w.kernel.read env.os group.leaderFd (necessaryBufferSize group.len)).1

def readCall (group : PerfStatGroup InternC) (w : World) : Syscall InternC :=
  .read group.leaderFd ((w.kernel.find group.leaderFd).map (·.id))
    (necessaryBufferSize group.len) (w.readAnswer env group)

def afterRead (group : PerfStatGroup InternC) (w : World) : World where
  state :=
    { w.state with
      readId := w.state.readId + 1
      reader := (w.state.reader.readGroup env.endian group
        (env.alloc w.kernel (necessaryBufferSize group.len)) (w.readAnswer env group)).2 }
  kernel := w.kernel.note (w.readCall env group)

def decoded (group : PerfStatGroup InternC) (bs : List UInt8) (w : World) : List UInt8 :=
  w.state.reader.decoded group (env.alloc w.kernel (necessaryBufferSize group.len)) bs

def readRow (bs : List UInt8) (w : World) : ReadRow :=
  let info := infoOf env.endian bs
  ⟨w.state.readId, (env.now w.kernel).getD 0, info.timeRunning, info.timeEnabled⟩

def eventRows (group : PerfStatGroup InternC) (bs : List UInt8) (w : World) : List EventRow :=
  (eventsOf env.endian bs group.len).map fun event => ⟨w.state.readId, event.count, event.id⟩

def flushRows (group : PerfStatGroup InternC) (bs : List UInt8) (w : World) : List CsvRow :=
  .read (w.readRow env bs) :: (w.eventRows env group bs).map .event

theorem readAnswer_length {group : PerfStatGroup InternC} {w : World} {bs : List UInt8}
    (h : w.readAnswer env group = .ok bs) : bs.length ≤ necessaryBufferSize group.len := by
  simp only [readAnswer, Kernel.read] at h
  cases hfind : (w.kernel.find group.leaderFd).map (·.id) with
  | none => simp [hfind] at h
  | some id =>
      simp only [hfind] at h
      cases hread : env.os.read w.kernel group.leaderFd (necessaryBufferSize group.len) with
      | error e => simp [hread, Except.map] at h
      | ok bs' =>
          simp only [hread, Except.map, Except.ok.injEq] at h
          exact h ▸ bs'.2

/-- A turn of the flush loop reads once; if that fails it stops there, and otherwise it writes the
rows of what was decoded. -/
theorem flushGroup_cases (group : PerfStatGroup InternC) (w : World) :
    (∃ e, w.readAnswer env group = .error e ∧ w.flushGroup env group = w.afterRead env group) ∨
      ∃ bs, w.readAnswer env group = .ok bs ∧
        w.flushGroup env group = (w.afterRead env group).writeRows env
          (w.flushRows env group (w.decoded env group bs)) := by
  let block := env.alloc w.kernel (necessaryBufferSize group.len)
  let numbered : World := { w with state := { w.state with readId := w.state.readId + 1 } }
  have hread : numbered.readGroup env group =
      ((w.state.reader.readGroup env.endian group block (w.readAnswer env group)).1,
        w.afterRead env group) := rfl
  cases hanswer : w.readAnswer env group with
  | error e =>
      refine .inl ⟨e, rfl, ?_⟩
      rw [hanswer, w.state.reader.readGroup_error] at hread
      simp only [flushGroup]
      rw [hread]
  | ok bs =>
      refine .inr ⟨bs, rfl, ?_⟩
      rw [hanswer, w.state.reader.readGroup_ok env.endian group block
        (w.readAnswer_length env hanswer)] at hread
      simp only [flushGroup]
      rw [hread]
      simp only [flushRows, readRow, eventRows, writeRows, List.foldl_cons, List.foldl_map]
      rfl

theorem afterRead_same (group : PerfStatGroup InternC) (w : World) :
    SameGroups w (w.afterRead env group) :=
  ⟨rfl, rfl, rfl, .one (s := w.readCall env group) rfl id⟩

theorem flushGroup_same (group : PerfStatGroup InternC) (w : World) :
    SameGroups w (w.flushGroup env group) := by
  rcases w.flushGroup_cases env group with ⟨e, -, heq⟩ | ⟨bs, -, heq⟩
  · exact heq ▸ afterRead_same env group w
  · exact heq ▸ (afterRead_same env group w).trans (writeRows_same env _ _)

theorem flushGroup_readId (group : PerfStatGroup InternC) (w : World) :
    (w.flushGroup env group).state.readId = w.state.readId + 1 := by
  rcases w.flushGroup_cases env group with ⟨e, -, heq⟩ | ⟨bs, -, heq⟩
  · rw [heq]
    rfl
  · rw [heq, writeRows_readId]
    rfl

/-- The trace grows by the read and then by writes only. -/
theorem flushGroup_trace (group : PerfStatGroup InternC) (w : World) :
    ∃ tail, (w.flushGroup env group).kernel.trace =
        w.kernel.trace ++ w.readCall env group :: tail ∧ ∀ s ∈ tail, s.isWrite := by
  rcases w.flushGroup_cases env group with ⟨e, -, heq⟩ | ⟨bs, -, heq⟩
  · exact ⟨[], by rw [heq]; rfl, by simp⟩
  · obtain ⟨tail, htrace, htail⟩ := writeRows_extends env
      (w.flushRows env group (w.decoded env group bs)) (w.afterRead env group)
    refine ⟨tail, ?_, htail⟩
    rw [heq, htrace]
    simp [afterRead]

theorem flushGroups_same (groups : TidGroups) (w : World) :
    SameGroups w (w.flushGroups env groups) := by
  induction groups generalizing w with
  | nil => exact .refl w
  | cons group groups ih => exact (flushGroup_same env group w).trans (ih _)

/-! ## Opening a thread -/

/-- The groups that opened are the kernel's, and all of their events are new. -/
structure OpensGroups (k k' : Kernel InternC) (tid : Pid) (groups : TidGroups) : Prop where
  ok : k'.Ok
  held : Held k' tid groups
  fresh : ∀ group ∈ groups, ∀ stat ∈ group.fds.toList,
    ∃ ev ∈ k'.table, PerfStat.of ev = stat ∧ ev.pid = tid ∧ ∀ old ∈ k.opened, old.id ≠ ev.id
  members : ∀ leader, (∃ ev ∈ k.opened, ev.id = leader) → k'.members leader = k.members leader
  opened : ∃ evs, k'.opened = k.opened ++ evs
  calls : Kernel.Extends Syscall.isFdCall k k'

theorem OpensGroups.frame {k k' : Kernel InternC} {tid : Pid} {groups : TidGroups}
    (h : OpensGroups k k' tid groups) (hk : k.Ok) {tid' : Pid} {leader : UInt64}
    {group : PerfStatGroup InternC} (hb : Backs k tid' leader group) : Backs k' tid' leader group :=
  hb.of_members_eq (h.members leader (hb.leader_opened hk))

theorem OpensGroups.leader_new {k k' : Kernel InternC} {tid : Pid} {groups : TidGroups}
    (h : OpensGroups k k' tid groups) {leader : UInt64} {group : PerfStatGroup InternC}
    (hgroup : group ∈ groups) (hb : Backs k' tid leader group) :
    ∀ old ∈ k.opened, old.id ≠ leader := by
  intro old hold
  obtain ⟨lead, -, -, htable, hid, hfd, -⟩ := hb.leader_event
  obtain ⟨ev, hev, hof, -, hne⟩ := h.fresh group hgroup _ (NonEmpty.first_mem _)
  have hsame : ev = lead := by
    apply h.ok.eq_of_fd hev htable
    rw [hfd]
    exact congrArg PerfStat.fd hof
  rw [← hid, ← hsame]
  exact hne old hold

theorem OpensGroups.nil {k : Kernel InternC} (hk : k.Ok) (tid : Pid) : OpensGroups k k tid [] :=
  ⟨hk, ⟨[], .nil, List.nodup_nil⟩, by simp, fun _ _ => rfl, ⟨[], by simp⟩, .refl k⟩

theorem OpensGroups.cons {k k₁ k' : Kernel InternC} {tid : Pid} {first : PerfConfig InternC}
    {rest : List (PerfConfig InternC)} {group : PerfStatGroup InternC} {groups : TidGroups}
    {ev : PerfEvent InternC} {evs : List (PerfEvent InternC)} (hk : k.Ok)
    (hj : Joined k k₁ tid ev.id (leaderConfig first :: rest) (ev :: evs))
    (hstats : (ev :: evs).map PerfStat.of = group.fds.toList) (h : OpensGroups k₁ k' tid groups) :
    OpensGroups k k' tid (group :: groups) := by
  have hold₁ : ∀ old ∈ k.opened, old ∈ k₁.opened := by
    intro old hold
    rw [hj.opened]
    exact List.mem_append_left _ hold
  have hgroup : Backs k' tid ev.id group := h.frame hj.ok (hj.backs hk hstats)
  obtain ⟨leaders, hbacks, hnodup⟩ := h.held
  obtain ⟨evs', hevs'⟩ := h.opened
  refine ⟨h.ok, ⟨ev.id :: leaders, .cons hgroup hbacks, List.nodup_cons.2 ⟨?_, hnodup⟩⟩, ?_, ?_,
    ⟨(ev :: evs) ++ evs', ?_⟩, hj.calls.trans h.calls⟩
  · -- The later groups are led by events that did not exist when this one opened.
    intro hmem
    obtain ⟨later, hlater, hb⟩ := FirstError.exists_of_mem_left hbacks hmem
    exact h.leader_new hlater hb ev (by rw [hj.opened]; simp) rfl
  · intro g hg stat hstat
    rcases List.mem_cons.1 hg with rfl | hg
    · obtain ⟨e, he, hleader, hof⟩ := hgroup.mem_table hstat
      refine ⟨e, he, hof, hgroup.pid _ (Kernel.mem_members.2 ⟨he, hleader⟩), ?_⟩
      -- An event led by a new leader is itself new.
      intro old hold hid
      have hold' : old ∈ k'.opened := by
        rw [hevs']
        exact List.mem_append_left _ (hold₁ old hold)
      have hsame := h.ok.eq_of_id hold' (h.ok.mem_opened he) hid
      exact hj.leader_ne hk old hold (hsame ▸ hleader)
    · obtain ⟨e, he, hof, hpid, hne⟩ := h.fresh g hg stat hstat
      exact ⟨e, he, hof, hpid, fun old hold => hne old (hold₁ old hold)⟩
  · rintro leader ⟨old, hold, hid⟩
    rw [h.members leader ⟨old, hold₁ old hold, hid⟩, hj.members_eq ⟨old, hold, hid⟩]
  · rw [hevs', hj.opened, List.append_assoc]

theorem OpensGroups.skip {k k₁ k' : Kernel InternC} {tid : Pid} {groups : TidGroups}
    (htable : k₁.table = k.table) (hopened : ∃ evs, k₁.opened = k.opened ++ evs)
    (hcalls : Kernel.Extends Syscall.isFdCall k k₁) (h : OpensGroups k₁ k' tid groups) :
    OpensGroups k k' tid groups := by
  obtain ⟨evs, hevs⟩ := hopened
  obtain ⟨evs', hevs'⟩ := h.opened
  have hold₁ : ∀ old ∈ k.opened, old ∈ k₁.opened := by
    intro old hold
    rw [hevs]
    exact List.mem_append_left _ hold
  refine ⟨h.ok, h.held, ?_, ?_, ⟨evs ++ evs', by rw [hevs', hevs, List.append_assoc]⟩,
    hcalls.trans h.calls⟩
  · intro g hg stat hstat
    obtain ⟨e, he, hof, hpid, hne⟩ := h.fresh g hg stat hstat
    exact ⟨e, he, hof, hpid, fun old hold => hne old (hold₁ old hold)⟩
  · rintro leader ⟨old, hold, hid⟩
    rw [h.members leader ⟨old, hold₁ old hold, hid⟩, Kernel.members, htable, Kernel.members]

theorem openGroups_spec (tid : Pid) (configs : List (NonEmpty (PerfConfig InternC)))
    {k : Kernel InternC} (hk : k.Ok) :
    OpensGroups k (openGroups env tid configs k).2 tid (openGroups env tid configs k).1 := by
  induction configs generalizing k with
  | nil => exact .nil hk tid
  | cons config configs ih =>
      generalize hnew : PerfStatGroup.new env.os config.toList tid k = r
      obtain ⟨answer, k₁⟩ := r
      rcases PerfStatGroup.new_spec env.os hk hnew with
        ⟨first, rest, group, ev, evs, -, rfl, hstats, hj⟩ |
          ⟨⟨e, rfl⟩, hok, htable, hopened, hcalls⟩
      · have heq : openGroups env tid (config :: configs) k =
            (group :: (openGroups env tid configs k₁).1, (openGroups env tid configs k₁).2) := by
          rw [openGroups, hnew]
        rw [heq]
        exact .cons hk hj hstats (ih hj.ok)
      · have heq : openGroups env tid (config :: configs) k = openGroups env tid configs k₁ := by
          rw [openGroups, hnew]
        rw [heq]
        exact .skip htable hopened hcalls (ih hok)

theorem describe_same (tid : Pid) (stat : PerfStat InternC) (w : World) :
    SameGroups w (w.describe env tid stat) := by
  unfold describe
  have hnote : SameGroups w { w with kernel := (w.kernel.ioctlId env.os stat.fd).2 } :=
    ⟨rfl, rfl, rfl, .one (s := .ioctlId stat.fd ((w.kernel.find stat.fd).map (·.id)) _) rfl id⟩
  cases hioctl : w.kernel.ioctlId env.os stat.fd with
  | mk answer kernel =>
      rw [hioctl] at hnote
      cases answer with
      | error e => exact hnote
      | ok id => exact hnote.trans (writeRow_same env _ _)

def describeAll (tid : Pid) (stats : List (PerfStat InternC)) (w : World) : World :=
  stats.foldl (fun w stat => w.describe env tid stat) w

theorem describeAll_same (tid : Pid) (stats : List (PerfStat InternC)) (w : World) :
    SameGroups w (w.describeAll env tid stats) := by
  induction stats generalizing w with
  | nil => exact .refl w
  | cons stat stats ih => exact (describe_same env tid stat w).trans (ih _)

def afterOpen (tid : Pid) (w : World) : World :=
  { w with kernel := (openGroups env tid w.state.eventConfigs w.kernel).2 }

def openedGroups (tid : Pid) (w : World) : TidGroups :=
  (openGroups env tid w.state.eventConfigs w.kernel).1

theorem openTid_of_mem {tid : Pid} {w : World} (h : tid ∈ w.state.groups) :
    w.openTid env tid = w := if_pos h

theorem openTid_of_notMem {tid : Pid} {w : World} (h : tid ∉ w.state.groups) :
    w.openTid env tid =
      let w' := (w.afterOpen env tid).describeAll env tid
        ((w.openedGroups env tid).flatMap fun group => group.fds.toList)
      { w' with state :=
          { w'.state with groups := w'.state.groups.insert tid (w.openedGroups env tid) } } := by
  unfold openTid
  rw [if_neg h]
  simp only [describeAll, afterOpen, openedGroups, List.foldl_flatMap]

theorem closeTid_of_none {tid : Pid} {w : World} (h : w.state.groups.lookup tid = none) :
    w.closeTid env tid = w := by
  rw [closeTid, h]

def afterRemove (tid : Pid) (w : World) : World :=
  { w with state := { w.state with groups := w.state.groups.erase tid } }

theorem closeTid_of_some {tid : Pid} {w : World} {groups : TidGroups}
    (h : w.state.groups.lookup tid = some groups) :
    w.closeTid env tid =
      let w' := (w.afterRemove tid).flushGroups env groups
      { w' with kernel := closeAll w'.kernel (groups.flatMap fun group => group.fds.toList) } := by
  rw [closeTid, h]
  rfl

/-! ## The invariant of the map -/

/-- The kernel is in a possible state and every group in the map is one of its groups. -/
structure Ok (w : World) : Prop where
  kernel : w.kernel.Ok
  held : ∀ tid groups, w.state.groups.lookup tid = some groups → Held w.kernel tid groups

theorem SameGroups.opened {w w' : World} (h : SameGroups w w') :
    w'.kernel.opened = w.kernel.opened := by
  obtain ⟨tail, htrace, htail⟩ := h.calls
  have hnone : tail.filterMap Syscall.opened? = [] := by
    rw [List.filterMap_eq_nil_iff]
    intro s hs
    cases s with
    | perfEventOpen => exact absurd trivial (htail _ hs)
    | _ => rfl
  rw [Kernel.opened, htrace, List.filterMap_append, hnone, List.append_nil, Kernel.opened]

theorem SameGroups.kernelOk {w w' : World} (h : SameGroups w w') (hk : w.kernel.Ok) :
    w'.kernel.Ok where
  ids := h.opened ▸ hk.ids
  sub := h.opened ▸ h.table ▸ hk.sub
  fds := h.table ▸ hk.fds
  leaders := h.opened ▸ hk.leaders

theorem SameGroups.members {w w' : World} (h : SameGroups w w') (leader : UInt64) :
    w'.kernel.members leader = w.kernel.members leader := by
  rw [Kernel.members, h.table, Kernel.members]

theorem SameGroups.backs {w w' : World} (h : SameGroups w w') {tid : Pid} {leader : UInt64}
    {group : PerfStatGroup InternC} (hb : Backs w.kernel tid leader group) :
    Backs w'.kernel tid leader group :=
  hb.of_members_eq (h.members leader)

theorem SameGroups.ok {w w' : World} (h : SameGroups w w') (hw : w.Ok) : w'.Ok where
  kernel := h.kernelOk hw.kernel
  held := fun tid groups hlookup =>
    (hw.held tid groups (h.groups ▸ hlookup)).of_table_eq h.table

theorem new_ok (configs : List (NonEmpty (PerfConfig InternC))) : (new configs).Ok :=
  ⟨Kernel.init_ok, by simp [new]⟩

theorem afterOpen_ok (tid : Pid) {w : World} (hw : w.Ok) : (w.afterOpen env tid).Ok := by
  have hopens := openGroups_spec env tid w.state.eventConfigs hw.kernel
  refine ⟨hopens.ok, fun tid' groups h => ?_⟩
  exact (hw.held tid' groups h).imp fun _ _ _ => hopens.frame hw.kernel

theorem openTid_ok (tid : Pid) {w : World} (hw : w.Ok) : (w.openTid env tid).Ok := by
  by_cases hmem : tid ∈ w.state.groups
  · rwa [openTid_of_mem env hmem]
  · have hopens := openGroups_spec env tid w.state.eventConfigs hw.kernel
    have hopen := afterOpen_ok env tid hw
    have hsame := describeAll_same env tid
      ((w.openedGroups env tid).flatMap fun group => group.fds.toList) (w.afterOpen env tid)
    have hdescribed := hsame.ok hopen
    rw [openTid_of_notMem env hmem]
    refine ⟨hdescribed.kernel, ?_⟩
    intro tid' groups hlookup
    by_cases heq : tid' = tid
    · subst heq
      obtain rfl : w.openedGroups env tid' = groups := by simpa using hlookup
      exact Held.of_table_eq hopens.held hsame.table
    · dsimp only at hlookup
      rw [AList.lookup_insert_ne heq] at hlookup
      exact hdescribed.held tid' groups hlookup

theorem fd_ne_of_pid_ne {k : Kernel InternC} (hk : k.Ok) {tid tid' : Pid} (hne : tid ≠ tid')
    {leader leader' : UInt64} {group group' : PerfStatGroup InternC}
    (h : Backs k tid leader group) (h' : Backs k tid' leader' group')
    {stat stat' : PerfStat InternC} (hstat : stat ∈ group.fds.toList)
    (hstat' : stat' ∈ group'.fds.toList) : stat.fd ≠ stat'.fd := by
  obtain ⟨ev, hev, hleader, rfl⟩ := h.mem_table hstat
  obtain ⟨ev', hev', hleader', rfl⟩ := h'.mem_table hstat'
  intro heq
  have hsame := hk.eq_of_fd hev hev' heq
  have hpid := h.pid ev (Kernel.mem_members.2 ⟨hev, hleader⟩)
  have hpid' := h'.pid ev' (Kernel.mem_members.2 ⟨hev', hleader'⟩)
  exact hne (by rw [← hpid, ← hpid', hsame])

/-- Closing the groups of one thread leaves those of another alone. -/
theorem members_close_other {k : Kernel InternC} (hk : k.Ok) {tid tid' : Pid} (hne : tid' ≠ tid)
    {groups : TidGroups} (hgroups : Held k tid groups) {leader : UInt64}
    {group : PerfStatGroup InternC} (hb : Backs k tid' leader group) :
    (closeAll k (groups.flatMap fun group => group.fds.toList)).members leader =
      k.members leader := by
  refine hb.members_closeAll fun stat hstat other hother => ?_
  obtain ⟨closed, hclosed, hmem⟩ := List.mem_flatMap.1 hother
  obtain ⟨leader', hb'⟩ := hgroups.backs hclosed
  exact fd_ne_of_pid_ne hk hne hb hb' hstat hmem

theorem closeTid_ok (tid : Pid) {w : World} (hw : w.Ok) : (w.closeTid env tid).Ok := by
  cases hlookup : w.state.groups.lookup tid with
  | none => rwa [closeTid_of_none env hlookup]
  | some groups =>
      have hremoved : (w.afterRemove tid).Ok := by
        refine ⟨hw.kernel, fun tid' groups' h => ?_⟩
        have hne : tid' ≠ tid := by
          rintro rfl
          simp [afterRemove] at h
        exact hw.held tid' groups' (by rwa [afterRemove, AList.lookup_erase_ne hne] at h)
      have hsame := flushGroups_same env groups (w.afterRemove tid)
      have hflushed := hsame.ok hremoved
      have hheld : Held ((w.afterRemove tid).flushGroups env groups).kernel tid groups :=
        (hw.held tid groups hlookup).of_table_eq hsame.table
      rw [closeTid_of_some env hlookup]
      refine ⟨closeAll_ok hflushed.kernel _, fun tid' groups' h => ?_⟩
      have hne : tid' ≠ tid := by
        rintro rfl
        dsimp only at h
        rw [hsame.groups] at h
        simp [afterRemove] at h
      exact (hflushed.held tid' groups' h).imp fun leader group _ hb =>
        hb.of_members_eq (members_close_other hflushed.kernel hne hheld hb)

theorem flushEntries_same (entries : List (Sigma fun _ : Pid => TidGroups)) (w : World) :
    SameGroups w (entries.foldl (fun w entry => w.flushGroups env entry.2) w) := by
  induction entries generalizing w with
  | nil => exact .refl w
  | cons entry entries ih => exact (flushGroups_same env entry.2 w).trans (ih _)

theorem flushAll_same (w : World) : SameGroups w (w.flushAll env) := flushEntries_same env _ w

theorem exec_ok (op : Op) {w : World} (hw : w.Ok) : (w.exec env op).Ok := by
  cases op with
  | openTid tid => exact openTid_ok env tid hw
  | closeTid tid => exact closeTid_ok env tid hw
  | flushAll => exact (flushAll_same env w).ok hw

theorem run_append (w : World) (ops ops' : List Op) :
    w.run env (ops ++ ops') = (w.run env ops).run env ops' := by
  simp [run]

/-- Whatever holds of a new daemon and is kept by every operation holds after every run. -/
theorem run_induction {P : World → Prop} {w : World} (h0 : P w)
    (hstep : ∀ w op, P w → P (w.exec env op)) (ops : List Op) : P (w.run env ops) := by
  induction ops generalizing w with
  | nil => exact h0
  | cons op ops ih => exact ih (hstep w op h0)

theorem exec_eventConfigs (w : World) (op : Op) :
    (w.exec env op).state.eventConfigs = w.state.eventConfigs := by
  cases op with
  | openTid tid =>
      show (w.openTid env tid).state.eventConfigs = _
      by_cases hmem : tid ∈ w.state.groups
      · rw [openTid_of_mem env hmem]
      · rw [openTid_of_notMem env hmem]
        exact (describeAll_same env tid _ (w.afterOpen env tid)).eventConfigs
  | closeTid tid =>
      show (w.closeTid env tid).state.eventConfigs = _
      cases hlookup : w.state.groups.lookup tid with
      | none => rw [closeTid_of_none env hlookup]
      | some groups =>
          rw [closeTid_of_some env hlookup]
          exact (flushGroups_same env groups (w.afterRemove tid)).eventConfigs
  | flushAll => exact (flushAll_same env w).eventConfigs

theorem run_eventConfigs (configs : List (NonEmpty (PerfConfig InternC))) (ops : List Op) :
    ((new configs).run env ops).state.eventConfigs = configs :=
  run_induction (P := fun w => w.state.eventConfigs = configs) env rfl
    (fun w op h => (exec_eventConfigs env w op).trans h) ops

theorem run_ok (configs : List (NonEmpty (PerfConfig InternC))) (ops : List Op) :
    ((new configs).run env ops).Ok :=
  run_induction env (new_ok configs) (fun _ op hw => exec_ok env op hw) ops

end World

end Threadstat

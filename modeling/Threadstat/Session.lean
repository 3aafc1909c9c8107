import Threadstat.Handlers
import Threadstat.State.Reads

/-!
# Sessions

The log of received messages alone says which threads are in session: those whose last valid
message was an ADD.  The daemon's state refines this model, and every group it opens is read once
at each tick of its session and once when the session ends.
-/

namespace Threadstat

/-- What reaches the daemon: an answer of `mq_receive`, or the timer. -/
inductive Input where
  | receive (answer : Except IoError (List UInt8))
  | tick (expirations : UInt64)

namespace Input

def message? (e : WordBytes.Endian) : Input → Option ThreadstatMessage
  | .receive answer =>
    match MQueueReader.read e answer with
    | .ok raw => (ThreadstatMessage.tryFrom raw).toOption
    | .error _ => none
  | .tick _ => none

def isTick : Input → Bool
  | .tick _ => true
  | .receive _ => false

end Input

/-! ## The model -/

def lastFlag (e : WordBytes.Endian) (inputs : List Input) (tid : Pid) : Option MessageFlag :=
  inputs.reverse.findSome? fun input =>
    (input.message? e).bind fun msg => if msg.tid = tid then some msg.flag else none

def InSession (e : WordBytes.Endian) (inputs : List Input) (tid : Pid) : Prop :=
  lastFlag e inputs tid = some .AddProcess

def Ongoing (e : WordBytes.Endian) (inputs : List Input) (tid : Pid) : Prop :=
  ∀ input ∈ inputs, input.message? e ≠ some ⟨tid, .RemoveProcess⟩

instance (e : WordBytes.Endian) (inputs : List Input) (tid : Pid) :
    Decidable (Ongoing e inputs tid) :=
  inferInstanceAs (Decidable (∀ input ∈ inputs, input.message? e ≠ some ⟨tid, .RemoveProcess⟩))

/-- The input reads the groups of `tid`: a tick, or the REMOVE for it. -/
def Reads (e : WordBytes.Endian) (tid : Pid) (input : Input) : Prop :=
  input.isTick = true ∨ input.message? e = some ⟨tid, .RemoveProcess⟩

instance (e : WordBytes.Endian) (tid : Pid) (input : Input) : Decidable (Reads e tid input) :=
  inferInstanceAs (Decidable (_ ∨ _))

/-- The input says nothing new: no valid message, an ADD for a thread in session, or a REMOVE for
one that is not. -/
def Idle (e : WordBytes.Endian) (inputs : List Input) (input : Input) : Prop :=
  input.isTick = false ∧ ∀ tid flag, input.message? e = some ⟨tid, flag⟩ →
    (flag = .AddProcess ↔ InSession e inputs tid)

theorem lastFlag_snoc (e : WordBytes.Endian) (inputs : List Input) (input : Input) (tid : Pid) :
    lastFlag e (inputs ++ [input]) tid =
      match input.message? e with
      | some msg => if msg.tid = tid then some msg.flag else lastFlag e inputs tid
      | none => lastFlag e inputs tid := by
  rw [lastFlag, List.reverse_append, List.reverse_singleton, List.singleton_append,
    List.findSome?_cons]
  cases input.message? e with
  | none => rfl
  | some msg =>
      by_cases h : msg.tid = tid
      · simp [h]
      · simp [h, lastFlag]

theorem ongoing_snoc (e : WordBytes.Endian) (inputs : List Input) (input : Input) (tid : Pid) :
    Ongoing e (inputs ++ [input]) tid ↔
      Ongoing e inputs tid ∧ input.message? e ≠ some ⟨tid, .RemoveProcess⟩ := by
  simp [Ongoing, or_imp, forall_and]

theorem reads_iff {e : WordBytes.Endian} {tid : Pid} {input : Input}
    (htick : input.isTick = false) :
    Reads e tid input ↔ input.message? e = some ⟨tid, .RemoveProcess⟩ := by
  simp [Reads, htick]

/-! ## The daemon -/

def ThreadstatMessage.op (msg : ThreadstatMessage) : World.Op :=
  match msg.flag with
  | .AddProcess => .openTid msg.tid
  | .RemoveProcess => .closeTid msg.tid

namespace World

variable (env : Env)

def handle (w : World) : Input → World
  | .receive answer => (queueHandler env answer w).2
  | .tick expirations => (timerHandler env (.ok expirations) w).2

def daemon (configs : List (NonEmpty (PerfConfig InternC))) (inputs : List Input) : World :=
  inputs.foldl (handle env) (new configs)

theorem daemon_snoc (configs : List (NonEmpty (PerfConfig InternC))) (inputs : List Input)
    (input : Input) :
    daemon env configs (inputs ++ [input]) = (daemon env configs inputs).handle env input := by
  simp [daemon]

theorem handle_eq (w : World) (input : Input) :
    w.handle env input =
      if input.isTick then w.flushAll env
      else match input.message? env.endian with
        | some ⟨tid, .AddProcess⟩ => w.openTid env tid
        | some ⟨tid, .RemoveProcess⟩ => w.closeTid env tid
        | none => w := by
  cases input with
  | tick n => rfl
  | receive answer =>
      simp only [handle, queueHandler, Input.isTick, Input.message?, Bool.false_eq_true, if_false]
      cases MQueueReader.read env.endian answer with
      | error e => rfl
      | ok raw =>
          cases htry : ThreadstatMessage.tryFrom raw with
          | error e => simp only [htry]; rfl
          | ok msg =>
              obtain ⟨tid, flag⟩ := msg
              cases flag <;> simp only [htry] <;> rfl

theorem handle_tick (w : World) {input : Input} (h : input.isTick = true) :
    w.handle env input = w.flushAll env := by
  rw [handle_eq, if_pos h]

theorem message?_of_tick {e : WordBytes.Endian} {input : Input} (h : input.isTick = true) :
    input.message? e = none := by
  cases input with
  | tick n => rfl
  | receive answer => cases h

theorem handle_message (w : World) {input : Input} {msg : ThreadstatMessage}
    (h : input.message? env.endian = some msg) : w.handle env input = w.exec env msg.op := by
  have htick : input.isTick = false := by
    cases hin : input.isTick with
    | false => rfl
    | true => rw [message?_of_tick hin] at h; cases h
  obtain ⟨tid, flag⟩ := msg
  rw [handle_eq, h, htick]
  cases flag <;> rfl

theorem handle_garbage (w : World) {input : Input} (htick : input.isTick = false)
    (h : input.message? env.endian = none) : w.handle env input = w := by
  rw [handle_eq, h, htick]
  rfl

theorem handle_ok {w : World} (hw : w.Ok) (input : Input) : (w.handle env input).Ok := by
  cases htick : input.isTick with
  | true => exact handle_tick env w htick ▸ (flushAll_same env w).ok hw
  | false =>
      cases hmsg : input.message? env.endian with
      | none => rwa [handle_garbage env w htick hmsg]
      | some msg =>
          rw [handle_message env w hmsg]
          exact exec_ok env msg.op hw

theorem daemon_ok (configs : List (NonEmpty (PerfConfig InternC))) (inputs : List Input) :
    (daemon env configs inputs).Ok := by
  induction inputs using List.reverseRecOn with
  | nil => exact new_ok configs
  | append_singleton inputs input ih =>
      rw [daemon_snoc]
      exact handle_ok env ih input

/-! ## Which threads have groups -/

theorem openTid_mem_groups (tid tid' : Pid) (w : World) :
    tid' ∈ (w.openTid env tid).state.groups ↔ tid' = tid ∨ tid' ∈ w.state.groups := by
  by_cases hmem : tid ∈ w.state.groups
  · rw [openTid_of_mem env hmem]
    refine ⟨.inr, ?_⟩
    rintro (rfl | h)
    · exact hmem
    · exact h
  · have hsame := describeAll_same env tid
      ((w.openedGroups env tid).flatMap fun group => group.fds.toList) (w.afterOpen env tid)
    rw [openTid_of_notMem env hmem]
    dsimp only
    rw [hsame.groups]
    exact AList.mem_insert _

theorem closeTid_mem_groups (tid tid' : Pid) (w : World) :
    tid' ∈ (w.closeTid env tid).state.groups ↔ tid' ≠ tid ∧ tid' ∈ w.state.groups := by
  cases hlookup : w.state.groups.lookup tid with
  | none =>
      rw [closeTid_of_none env hlookup]
      refine ⟨fun h => ⟨?_, h⟩, And.right⟩
      rintro rfl
      exact AList.lookup_eq_none.1 hlookup h
  | some groups =>
      have hsame := flushGroups_same env groups (w.afterRemove tid)
      rw [closeTid_of_some env hlookup]
      dsimp only
      rw [hsame.groups]
      exact AList.mem_erase

/-- The groups of a thread stay as they are while others come and go. -/
theorem openTid_lookup {tid tid' : Pid} {w : World} (h : tid' ∈ w.state.groups ∨ tid' ≠ tid) :
    (w.openTid env tid).state.groups.lookup tid' = w.state.groups.lookup tid' := by
  by_cases hmem : tid ∈ w.state.groups
  · rw [openTid_of_mem env hmem]
  · have hne : tid' ≠ tid := by
      rcases h with h | h
      · rintro rfl
        exact hmem h
      · exact h
    have hsame := describeAll_same env tid
      ((w.openedGroups env tid).flatMap fun group => group.fds.toList) (w.afterOpen env tid)
    rw [openTid_of_notMem env hmem]
    dsimp only
    rw [hsame.groups]
    exact AList.lookup_insert_ne hne

theorem closeTid_lookup {tid tid' : Pid} (h : tid' ≠ tid) (w : World) :
    (w.closeTid env tid).state.groups.lookup tid' = w.state.groups.lookup tid' := by
  cases hlookup : w.state.groups.lookup tid with
  | none => rw [closeTid_of_none env hlookup]
  | some groups =>
      have hsame := flushGroups_same env groups (w.afterRemove tid)
      rw [closeTid_of_some env hlookup]
      dsimp only
      rw [hsame.groups]
      exact AList.lookup_erase_ne h

theorem handle_groups_of_none (w : World) {input : Input}
    (h : input.message? env.endian = none) :
    (w.handle env input).state.groups = w.state.groups := by
  cases htick : input.isTick with
  | true => rw [handle_tick env w htick, (flushAll_same env w).groups]
  | false => rw [handle_garbage env w htick h]

/-- A valid message decides whether its own thread has groups, and no other. -/
theorem handle_mem_groups (w : World) {input : Input} {tid : Pid} {flag : MessageFlag}
    (h : input.message? env.endian = some ⟨tid, flag⟩) (tid' : Pid) :
    tid' ∈ (w.handle env input).state.groups ↔
      if tid = tid' then flag = .AddProcess else tid' ∈ w.state.groups := by
  rw [handle_message env w h]
  cases flag with
  | AddProcess =>
      dsimp only [ThreadstatMessage.op, exec]
      rw [openTid_mem_groups]
      by_cases heq : tid = tid'
      · simp [heq]
      · simp [heq, Ne.symm heq]
  | RemoveProcess =>
      dsimp only [ThreadstatMessage.op, exec]
      rw [closeTid_mem_groups]
      by_cases heq : tid = tid'
      · simp [heq]
      · simp [heq, Ne.symm heq]

theorem handle_lookup {w : World} {input : Input} {tid : Pid} (h : tid ∈ w.state.groups)
    (h' : tid ∈ (w.handle env input).state.groups) :
    (w.handle env input).state.groups.lookup tid = w.state.groups.lookup tid := by
  cases hmsg : input.message? env.endian with
  | none => rw [handle_groups_of_none env w hmsg]
  | some msg =>
      obtain ⟨tid', flag⟩ := msg
      rw [handle_message env w hmsg] at h' ⊢
      cases flag with
      | AddProcess => exact openTid_lookup env (.inl h)
      | RemoveProcess =>
          dsimp only [ThreadstatMessage.op, exec] at h' ⊢
          exact closeTid_lookup env ((closeTid_mem_groups env tid' tid w).1 h').1 w

/-- The threads with groups are the threads in session. -/
theorem mem_groups_iff (configs : List (NonEmpty (PerfConfig InternC))) (inputs : List Input)
    (tid : Pid) :
    tid ∈ (daemon env configs inputs).state.groups ↔ InSession env.endian inputs tid := by
  induction inputs using List.reverseRecOn with
  | nil => simp [daemon, new, InSession, lastFlag]
  | append_singleton inputs input ih =>
      rw [daemon_snoc, InSession, lastFlag_snoc]
      cases hmsg : input.message? env.endian with
      | none => rw [handle_groups_of_none env _ hmsg]; exact ih
      | some msg =>
          obtain ⟨tid', flag⟩ := msg
          rw [handle_mem_groups env _ hmsg]
          by_cases h : tid' = tid
          · simp [h]
          · simp only [h, if_false]
            exact ih

/-- An input that says nothing new changes nothing at all. -/
theorem handle_idle (configs : List (NonEmpty (PerfConfig InternC))) (inputs : List Input)
    {input : Input} (h : Idle env.endian inputs input) :
    (daemon env configs inputs).handle env input = daemon env configs inputs := by
  obtain ⟨htick, hidle⟩ := h
  cases hmsg : input.message? env.endian with
  | none => exact handle_garbage env _ htick hmsg
  | some msg =>
      obtain ⟨tid, flag⟩ := msg
      have hiff := hidle tid flag hmsg
      rw [← mem_groups_iff env configs inputs tid] at hiff
      rw [handle_message env _ hmsg]
      cases flag with
      | AddProcess => exact openTid_of_mem env (hiff.1 rfl)
      | RemoveProcess =>
          refine closeTid_of_none env (AList.lookup_eq_none.2 fun hmem => ?_)
          cases hiff.2 hmem

/-! ## How often a group is read -/

theorem Known.handle {w : World} (hw : w.Ok) {event : UInt64} (h : w.Known event)
    (input : Input) : (w.handle env input).Known event := by
  obtain ⟨ev, hev, hid⟩ := h
  suffices hgrows : ∃ evs, (w.handle env input).kernel.opened = w.kernel.opened ++ evs by
    obtain ⟨evs, hevs⟩ := hgrows
    exact ⟨ev, by rw [hevs]; exact List.mem_append_left _ hev, hid⟩
  cases htick : input.isTick with
  | true =>
      rw [handle_tick env w htick]
      exact ⟨[], by rw [(flushAll_same env w).opened, List.append_nil]⟩
  | false =>
      cases hmsg : input.message? env.endian with
      | none => exact ⟨[], by rw [handle_garbage env w htick hmsg, List.append_nil]⟩
      | some msg =>
          obtain ⟨tid, flag⟩ := msg
          rw [handle_message env w hmsg]
          cases flag with
          | AddProcess => exact openTid_opened env tid hw
          | RemoveProcess => exact ⟨[], by rw [List.append_nil]; exact closeTid_opened env tid w⟩

/-- A group stays in the map until the REMOVE of its thread. -/
theorem handle_leads {w : World} (hw : w.Ok) {leader : UInt64} (hknown : w.Known leader)
    (input : Input) (tid : Pid) :
    (w.handle env input).Leads tid leader ↔
      w.Leads tid leader ∧ input.message? env.endian ≠ some ⟨tid, .RemoveProcess⟩ := by
  cases htick : input.isTick with
  | true =>
      rw [handle_tick env w htick, (flushAll_same env w).leads, message?_of_tick htick]
      simp
  | false =>
      cases hmsg : input.message? env.endian with
      | none =>
          rw [handle_garbage env w htick hmsg]
          simp
      | some msg =>
          obtain ⟨tid', flag⟩ := msg
          rw [handle_message env w hmsg]
          cases flag with
          | AddProcess =>
              dsimp only [ThreadstatMessage.op, exec]
              rw [openTid_leads env tid' hw hknown]
              simp
          | RemoveProcess =>
              dsimp only [ThreadstatMessage.op, exec]
              rw [closeTid_leads env tid' hw, and_comm]
              simp [eq_comm]

/-- A turn reads the group of a thread if the thread is held and the input asks for it. -/
theorem handle_reads {w : World} (hw : w.Ok) {leader : UInt64} {tid : Pid}
    (hleads : ∀ tid', w.Leads tid' leader → tid' = tid) (input : Input) :
    (w.Leads tid leader → Reads env.endian tid input →
      (w.handle env input).kernel.readsOf leader = w.kernel.readsOf leader + 1) ∧
    (¬ (w.Leads tid leader ∧ Reads env.endian tid input) →
      (w.handle env input).kernel.readsOf leader = w.kernel.readsOf leader) := by
  cases htick : input.isTick with
  | true =>
      have hall := flushAll_reads env hw leader
      rw [handle_tick env w htick]
      refine ⟨fun h _ => hall.1 ⟨tid, h⟩, fun h => hall.2 fun tid' h' => h ⟨?_, .inl htick⟩⟩
      exact hleads tid' h' ▸ h'
  | false =>
      rw [reads_iff htick]
      cases hmsg : input.message? env.endian with
      | none =>
          rw [handle_garbage env w htick hmsg]
          refine ⟨fun _ h => ?_, fun _ => rfl⟩
          cases h
      | some msg =>
          obtain ⟨tid', flag⟩ := msg
          rw [handle_message env w hmsg]
          cases flag with
          | AddProcess =>
              refine ⟨fun _ h => ?_, fun _ => openTid_reads env tid' hw leader⟩
              cases h
          | RemoveProcess =>
              have hclose := closeTid_reads env tid' hw leader
              refine ⟨fun h hreads => ?_, fun h => hclose.2 fun h' => ?_⟩
              · obtain rfl : tid' = tid := congrArg ThreadstatMessage.tid (Option.some.inj hreads)
                exact hclose.1 h
              · obtain rfl := hleads tid' h'
                exact h ⟨h', rfl⟩

theorem readsOf_unknown (configs : List (NonEmpty (PerfConfig InternC))) (inputs : List Input)
    {event : UInt64} (h : ¬ (daemon env configs inputs).Known event) :
    (daemon env configs inputs).kernel.readsOf event = 0 := by
  induction inputs using List.reverseRecOn with
  | nil => rfl
  | append_singleton inputs input ih =>
      have hok := daemon_ok env configs inputs
      rw [daemon_snoc] at h ⊢
      have hold : ¬ (daemon env configs inputs).Known event := fun hk => h (hk.handle env hok input)
      have hnone : ∀ tid, ¬ (daemon env configs inputs).Leads tid event := fun tid hl =>
        hold (hl.known hok)
      have hother : ∀ tid', (daemon env configs inputs).Leads tid' event → tid' = 0 :=
        fun tid' hl => absurd hl (hnone tid')
      have hreads := handle_reads env hok hother input
      rw [hreads.2 fun hl => hnone 0 hl.1, ih hold]

/-- What is true of a group of `tid` after the inputs `later` of its session. -/
theorem daemon_leads (configs : List (NonEmpty (PerfConfig InternC))) {inputs : List Input}
    {tid : Pid} {leader : UInt64} (h : (daemon env configs inputs).Leads tid leader)
    (later : List Input) :
    (daemon env configs (inputs ++ later)).Known leader ∧ ∀ tid',
      (daemon env configs (inputs ++ later)).Leads tid' leader ↔
        tid' = tid ∧ Ongoing env.endian later tid := by
  induction later using List.reverseRecOn with
  | nil =>
      rw [List.append_nil]
      refine ⟨h.known (daemon_ok env configs inputs), fun tid' => ⟨fun h' => ?_, ?_⟩⟩
      · exact ⟨h'.pid_unique h, by simp [Ongoing]⟩
      · rintro ⟨rfl, -⟩
        exact h
  | append_singleton later input ih =>
      have hok := daemon_ok env configs (inputs ++ later)
      obtain ⟨hknown, hiff⟩ := ih
      rw [← List.append_assoc, daemon_snoc]
      refine ⟨hknown.handle env hok input, fun tid' => ?_⟩
      rw [handle_leads env hok hknown, hiff, ongoing_snoc, and_assoc]
      refine and_congr_right fun heq => ?_
      rw [heq]

/-- The daemon refines the session model: it holds groups for exactly the threads in session, an
input that says nothing new changes nothing, and each group it opens is read once at every tick
of its session, once at the REMOVE or else the final flush that ends it, and at no other time. -/
theorem session_refinement (configs : List (NonEmpty (PerfConfig InternC)))
    (inputs : List Input) :
    (∀ tid, tid ∈ (daemon env configs inputs).state.groups ↔ InSession env.endian inputs tid) ∧
    (∀ input, Idle env.endian inputs input →
      daemon env configs (inputs ++ [input]) = daemon env configs inputs) ∧
    ∀ input tid, input.message? env.endian = some ⟨tid, .AddProcess⟩ →
      ¬ InSession env.endian inputs tid →
      ∀ groups, (daemon env configs (inputs ++ [input])).state.groups.lookup tid = some groups →
      ∀ group ∈ groups, ∃ leader,
        Backs (daemon env configs (inputs ++ [input])).kernel tid leader group ∧
        (daemon env configs (inputs ++ [input])).kernel.readsOf leader = 0 ∧
        ∀ later,
          (∀ next, (daemon env configs (inputs ++ [input] ++ later ++ [next])).kernel.readsOf leader =
            (daemon env configs (inputs ++ [input] ++ later)).kernel.readsOf leader +
              if Ongoing env.endian later tid ∧ Reads env.endian tid next then 1 else 0) ∧
          ((daemon env configs (inputs ++ [input] ++ later)).flushAll env).kernel.readsOf leader =
            (daemon env configs (inputs ++ [input] ++ later)).kernel.readsOf leader +
              if Ongoing env.endian later tid then 1 else 0 := by
  have hok := daemon_ok env configs inputs
  refine ⟨mem_groups_iff env configs inputs, fun input hidle => ?_, ?_⟩
  · rw [daemon_snoc]
    exact handle_idle env configs inputs hidle
  · intro input tid hmsg hout groups hlookup group hgroup
    have hnotin : tid ∉ (daemon env configs inputs).state.groups :=
      fun hmem => hout ((mem_groups_iff env configs inputs tid).1 hmem)
    have hopen : daemon env configs (inputs ++ [input]) =
        (daemon env configs inputs).openTid env tid := by
      rw [daemon_snoc, handle_message env _ hmsg]
      rfl
    obtain ⟨leader, hb⟩ := ((daemon_ok env configs (inputs ++ [input])).held tid groups
      hlookup).backs hgroup
    have hleads : (daemon env configs (inputs ++ [input])).Leads tid leader :=
      ⟨groups, hlookup, group, hgroup, hb⟩
    refine ⟨leader, hb, ?_, fun later => ?_⟩
    · -- The leader is new, so nothing has been read through it.
      rw [hopen] at hleads ⊢
      rw [openTid_reads env tid hok, readsOf_unknown env configs inputs
        (openTid_unknown env hok hnotin hleads)]
    · have hok' := daemon_ok env configs (inputs ++ [input] ++ later)
      obtain ⟨-, hiff⟩ := daemon_leads env configs hleads later
      refine ⟨fun next => ?_, ?_⟩
      · have hreads := handle_reads env hok' (fun tid' hl => ((hiff tid').1 hl).1) next
        rw [hiff] at hreads
        simp only [true_and] at hreads
        rw [daemon_snoc]
        split
        · next hcond => exact hreads.1 hcond.1 hcond.2
        · next hcond => exact hreads.2 hcond
      · have hflush := flushAll_reads env hok' leader
        simp only [hiff] at hflush
        split
        · next hongoing => exact hflush.1 ⟨tid, rfl, hongoing⟩
        · next hongoing => exact hflush.2 fun tid' hl => hongoing hl.2

end World

end Threadstat

import Mathlib.Data.List.TakeWhile
import Threadstat.System.Drain

/-!
# Every thread has its session

As long as no tid is given out again before its thread is signed off, no message is lost on the
daemon: an ADD finds its tid free and opens a session, and a REMOVE ends the session of its own
sender.  So the groups of a thread are read at each tick between its two messages, once more at the
end, and never again.
-/

namespace Threadstat

/-! ## How often a session is read -/

/-- The ticks before the REMOVE of `tid`. -/
def sessionTicks (e : WordBytes.Endian) (tid : Pid) (later : List Input) : Nat :=
  (later.takeWhile fun input => input.message? e ≠ some ⟨tid, .RemoveProcess⟩).countP Input.isTick

theorem sessionTicks_snoc (e : WordBytes.Endian) (tid : Pid) (later : List Input) (input : Input) :
    sessionTicks e tid (later ++ [input]) =
      sessionTicks e tid later + if Ongoing e later tid ∧ input.isTick = true then 1 else 0 := by
  unfold sessionTicks
  by_cases hongoing : Ongoing e later tid
  · have hall : ∀ input ∈ later,
        decide (input.message? e ≠ some ⟨tid, .RemoveProcess⟩) = true :=
      fun input hin => decide_eq_true (hongoing input hin)
    rw [List.takeWhile_append_of_pos hall, List.takeWhile_eq_self_iff.2 hall, List.countP_append]
    cases htick : input.isTick with
    | true => simp [World.message?_of_tick htick, htick, hongoing]
    | false =>
        rw [if_neg (by simp)]
        by_cases hremove : input.message? e = some ⟨tid, .RemoveProcess⟩
        · simp [hremove]
        · simp [hremove, htick]
  · rw [List.takeWhile_append, if_neg, if_neg (fun h => hongoing h.1), Nat.add_zero]
    intro hlength
    have hself := (List.takeWhile_sublist _).eq_of_length hlength
    refine hongoing fun input hin => ?_
    simpa using List.takeWhile_eq_self_iff.1 hself input hin

namespace World

variable (env : Env) (configs : List (NonEmpty (PerfConfig InternC))) {inputs : List Input}
  {tid : Pid} {leader : UInt64}

/-- A group is read at every tick of its session and once at the end. -/
theorem session_reads (h : (daemon env configs inputs).Leads tid leader) (later : List Input) :
    (daemon env configs (inputs ++ later)).kernel.readsOf leader +
        (if Ongoing env.endian later tid then 1 else 0) =
      (daemon env configs inputs).kernel.readsOf leader +
        sessionTicks env.endian tid later + 1 := by
  induction later using List.reverseRecOn with
  | nil => simp [Ongoing, sessionTicks]
  | append_singleton later input ih =>
      obtain ⟨-, hiff⟩ := daemon_leads env configs h later
      have hreads := handle_reads env (daemon_ok env configs (inputs ++ later))
        (fun tid' hl => ((hiff tid').1 hl).1) input
      rw [hiff] at hreads
      simp only [true_and] at hreads
      rw [← List.append_assoc, daemon_snoc, sessionTicks_snoc]
      by_cases hongoing : Ongoing env.endian later tid
      · rw [if_pos hongoing] at ih
        by_cases htick : input.isTick = true
        · have hstill : Ongoing env.endian (later ++ [input]) tid := by
            rw [ongoing_snoc, message?_of_tick htick]
            exact ⟨hongoing, by simp⟩
          rw [hreads.1 hongoing (.inl htick), if_pos hstill, if_pos ⟨hongoing, htick⟩]
          omega
        · have hnone : ¬ (Ongoing env.endian later tid ∧ input.isTick = true) :=
            fun hand => htick hand.2
          rw [if_neg hnone]
          by_cases hremove : input.message? env.endian = some ⟨tid, .RemoveProcess⟩
          · have hover : ¬ Ongoing env.endian (later ++ [input]) tid :=
              fun hall => ((ongoing_snoc _ _ _ _).1 hall).2 hremove
            rw [hreads.1 hongoing (.inr hremove), if_neg hover]
            omega
          · have hstill : Ongoing env.endian (later ++ [input]) tid :=
              (ongoing_snoc _ _ _ _).2 ⟨hongoing, hremove⟩
            have hquiet : ¬ Reads env.endian tid input := fun hread => hread.elim htick hremove
            rw [hreads.2 (fun hand => hquiet hand.2), if_pos hstill]
            omega
      · have hover : ¬ Ongoing env.endian (later ++ [input]) tid :=
          fun hall => hongoing ((ongoing_snoc _ _ _ _).1 hall).1
        have hnone : ¬ (Ongoing env.endian later tid ∧ input.isTick = true) :=
          fun hand => hongoing hand.1
        rw [if_neg hongoing] at ih
        rw [hreads.2 (fun hand => hongoing hand.1), if_neg hover, if_neg hnone]
        omega

/-- The groups an ADD opens have not been read, and in the end they have been read once for each
tick of their session and once more. -/
theorem opened_reads {input : Input} (hmsg : input.message? env.endian = some ⟨tid, .AddProcess⟩)
    (hout : ¬ InSession env.endian inputs tid) (later : List Input) :
    ∃ groups, (daemon env configs (inputs ++ [input])).state.groups.lookup tid = some groups ∧
      ∀ group ∈ groups, ∃ leader,
        Backs (daemon env configs (inputs ++ [input])).kernel tid leader group ∧
        ((daemon env configs (inputs ++ [input] ++ later)).flushAll env).kernel.readsOf leader =
          sessionTicks env.endian tid later + 1 := by
  have hok := daemon_ok env configs inputs
  have hnotin : tid ∉ (daemon env configs inputs).state.groups :=
    fun hmem => hout ((mem_groups_iff env configs inputs tid).1 hmem)
  have hopen : daemon env configs (inputs ++ [input]) =
      (daemon env configs inputs).openTid env tid := by
    rw [daemon_snoc, handle_message env _ hmsg]
    rfl
  have hin : tid ∈ (daemon env configs (inputs ++ [input])).state.groups := by
    rw [hopen, openTid_mem_groups]
    exact .inl rfl
  obtain ⟨groups, hlookup⟩ := Option.isSome_iff_exists.1 (AList.lookup_isSome.2 hin)
  refine ⟨groups, hlookup, fun group hgroup => ?_⟩
  obtain ⟨leader, hb⟩ :=
    ((daemon_ok env configs (inputs ++ [input])).held tid groups hlookup).backs hgroup
  have hleads : (daemon env configs (inputs ++ [input])).Leads tid leader :=
    ⟨groups, hlookup, group, hgroup, hb⟩
  have hnew : (daemon env configs (inputs ++ [input])).kernel.readsOf leader = 0 := by
    rw [hopen] at hleads ⊢
    rw [openTid_reads env tid hok, readsOf_unknown env configs inputs
      (openTid_unknown env hok hnotin hleads)]
  have hreads := session_reads env configs hleads later
  obtain ⟨-, hiff⟩ := daemon_leads env configs hleads later
  have hflush := flushAll_reads env (daemon_ok env configs (inputs ++ [input] ++ later)) leader
  simp only [hiff] at hflush
  refine ⟨leader, hb, ?_⟩
  by_cases hongoing : Ongoing env.endian later tid
  · rw [if_pos hongoing] at hreads
    rw [hflush.1 ⟨tid, rfl, hongoing⟩]
    omega
  · rw [if_neg hongoing] at hreads
    rw [hflush.2 fun tid' hl => hongoing hl.2]
    omega

end World

/-! ## No message is lost on the daemon -/

def Posted.message? (posted : Posted) : Option ThreadstatMessage :=
  (ThreadstatMessage.tryFrom posted.msg).toOption

namespace System

/-- An ADD is the first message of its sender and finds the tid free; a REMOVE is for the session
of its sender. -/
def Fits (earlier : List Posted) (posted : Posted) : Prop :=
  ∀ tid flag, posted.message? = some ⟨tid, flag⟩ → match flag with
    | .AddProcess => holder earlier tid = none ∧ ∀ other ∈ earlier, other.sender ≠ posted.sender
    | .RemoveProcess => holder earlier tid = some posted.sender

def Matched (log : List Posted) : Prop :=
  ∀ earlier posted later, log = earlier ++ posted :: later → Fits earlier posted

theorem Matched.snoc {log : List Posted} (h : Matched log) {posted : Posted}
    (hfits : Fits log posted) : Matched (log ++ [posted]) := by
  intro earlier other later heq
  cases later using List.reverseRecOn with
  | nil =>
      obtain ⟨rfl, hlast⟩ := List.append_inj' heq rfl
      obtain rfl := List.singleton_inj.1 hlast
      exact hfits
  | append_singleton later last =>
      rw [← List.cons_append, ← List.append_assoc] at heq
      exact h earlier other later (List.append_inj' heq rfl).1

theorem fits_add {log : List Posted} {i : Nat} {tid : Pid} (hfree : holder log tid = none)
    (hfirst : ∀ other ∈ log, other.sender ≠ i) : Fits log ⟨i, Thread.addMessage tid⟩ := by
  intro tid' flag hmsg
  obtain ⟨rfl, rfl⟩ := ThreadstatMessage.mk.inj (Option.some.inj hmsg)
  exact ⟨hfree, hfirst⟩

theorem fits_remove {log : List Posted} {i : Nat} {tid : Pid} (hheld : holder log tid = some i) :
    Fits log ⟨i, Thread.removeMessage tid⟩ := by
  intro tid' flag hmsg
  obtain ⟨rfl, rfl⟩ := ThreadstatMessage.mk.inj (Option.some.inj hmsg)
  exact hheld

variable {env : Env} {configs : List (NonEmpty (PerfConfig InternC))}

theorem Sound.matched_thread {s s' : System} (h : s.Sound) (hmatched : Matched s.log) {i : Nat}
    {action : Thread.Action} (hstep : s.step env (.thread i action) = some s') :
    Matched s'.log := by
  simp only [System.step, Option.bind_eq_bind, Option.bind_eq_some_iff, Option.pure_def,
    Option.some.injEq] at hstep
  obtain ⟨t, ht, t', ht', rfl⟩ := hstep
  have hordered := h.good.ordered
  simp only [log, ← List.append_assoc]
  by_cases hend : t.pc = .ended
  · obtain ⟨-, hsent⟩ := Thread.step_ended hend ht'
    rw [hsent, List.drop_length, List.map_nil, List.append_nil]
    exact hmatched
  obtain ⟨lost, hinv⟩ := hordered.inv t (List.mem_of_getElem? ht) hend
  rcases hinv.step_sent ht' with hsent | ⟨hsent, hsent'⟩ | ⟨hsent, hsent'⟩
  · rw [hsent, List.drop_length, List.map_nil, List.append_nil]
    exact hmatched
  · rw [hsent, hsent']
    refine hmatched.snoc (fits_add ((hordered.sole i t ht hend).1 hsent) fun other hother => ?_)
    rintro rfl
    obtain ⟨u, hu, hmsg⟩ := hordered.posted other hother
    obtain rfl : t = u := Option.some.inj (ht.symm.trans hu)
    rw [hsent] at hmsg
    cases hmsg
  · rw [hsent, hsent']
    exact hmatched.snoc (fits_remove (h.exclusive.held ht hsent))

theorem Sound.matched_step {s s' : System} {a : Step} (h : s.Sound) (hmatched : Matched s.log)
    (hstep : s.step env a = some s') : Matched s'.log := by
  cases a with
  | spawn routine tid =>
      simp only [System.step, Option.ite_none_left_eq_some, Option.some.injEq] at hstep
      obtain ⟨-, rfl⟩ := hstep
      exact hmatched
  | thread i action => exact h.matched_thread hmatched hstep
  | kill i =>
      simp only [System.step, Option.bind_eq_bind, Option.bind_eq_some_iff, Option.pure_def,
        Option.some.injEq] at hstep
      obtain ⟨t, -, rfl⟩ := hstep
      exact hmatched
  | receive =>
      simp only [System.step] at hstep
      split at hstep
      · cases hstep
      · next posted queue hqueue =>
        obtain rfl := Option.some.inj hstep
        rw [log, hqueue, ← List.singleton_append, ← List.append_assoc] at hmatched
        exact hmatched
  | other input =>
      simp only [System.step, Option.ite_none_right_eq_some, Option.some.injEq] at hstep
      obtain ⟨-, rfl⟩ := hstep
      exact hmatched

/-! ## The daemon's inputs and the log -/

/-- The daemon has done some inputs, whose valid messages are those of the handled ones. -/
def Heard (env : Env) (configs : List (NonEmpty (PerfConfig InternC))) (s : System) : Prop :=
  ∃ inputs, s.world = World.daemon env configs inputs ∧
    inputs.filterMap (·.message? env.endian) = s.handled.filterMap (·.message?)

theorem Heard.step {s s' : System} {a : Step} (h : Heard env configs s)
    (hstep : s.step env a = some s') : Heard env configs s' := by
  obtain ⟨inputs, hworld, hmessages⟩ := h
  cases a with
  | spawn routine tid =>
      simp only [System.step, Option.ite_none_left_eq_some, Option.some.injEq] at hstep
      obtain ⟨-, rfl⟩ := hstep
      exact ⟨inputs, hworld, hmessages⟩
  | thread i action =>
      simp only [System.step, Option.bind_eq_bind, Option.bind_eq_some_iff, Option.pure_def,
        Option.some.injEq] at hstep
      obtain ⟨t, -, t', -, rfl⟩ := hstep
      exact ⟨inputs, hworld, hmessages⟩
  | kill i =>
      simp only [System.step, Option.bind_eq_bind, Option.bind_eq_some_iff, Option.pure_def,
        Option.some.injEq] at hstep
      obtain ⟨t, -, rfl⟩ := hstep
      exact ⟨inputs, hworld, hmessages⟩
  | receive =>
      simp only [System.step] at hstep
      split at hstep
      · cases hstep
      · next posted queue hqueue =>
        obtain rfl := Option.some.inj hstep
        refine ⟨inputs ++ [.receive (.ok (posted.msg.toBytes env.endian))], ?_, ?_⟩
        · rw [World.daemon_snoc, hworld]
        · have hmsg := message?_toBytes env.endian posted.msg
          simp [List.filterMap_cons, hmessages, hmsg, Posted.message?]
  | other input =>
      simp only [System.step, Option.ite_none_right_eq_some, Option.some.injEq] at hstep
      obtain ⟨hnone, rfl⟩ := hstep
      refine ⟨inputs ++ [input], ?_, ?_⟩
      · rw [World.daemon_snoc, hworld]
      · simp [hmessages, hnone]

def lastOf (msgs : List ThreadstatMessage) (tid : Pid) : Option MessageFlag :=
  msgs.reverse.findSome? fun msg => if msg.tid = tid then some msg.flag else none

theorem lastOf_snoc (msgs : List ThreadstatMessage) (msg : ThreadstatMessage) (tid : Pid) :
    lastOf (msgs ++ [msg]) tid = if msg.tid = tid then some msg.flag else lastOf msgs tid := by
  unfold lastOf
  rw [List.reverse_append, List.reverse_singleton, List.singleton_append, List.findSome?_cons]
  split <;> simp_all

theorem holder_isSome_iff (log : List Posted) (tid : Pid) :
    (holder log tid).isSome = true ↔
      lastOf (log.filterMap (·.message?)) tid = some .AddProcess := by
  induction log using List.reverseRecOn with
  | nil => simp [holder, lastOf]
  | append_singleton log posted ih =>
      rw [holder_snoc, List.filterMap_append]
      unfold holderStep
      cases htry : ThreadstatMessage.tryFrom posted.msg with
      | error e =>
          have hnone : [posted].filterMap (·.message?) = [] := by
            simp [Posted.message?, htry, Except.toOption]
          rwa [hnone, List.append_nil]
      | ok msg =>
          have hsome : [posted].filterMap (·.message?) = [msg] := by
            simp [Posted.message?, htry, Except.toOption]
          rw [hsome, lastOf_snoc]
          by_cases htid : msg.tid = tid
          · cases hflag : msg.flag with
            | AddProcess => cases holder log tid <;> simp [htid, hflag]
            | RemoveProcess => simp [htid, hflag]
          · simpa [htid] using ih

/-- A tid is in session as long as somebody holds it. -/
theorem inSession_iff_holder {inputs : List Input} {log : List Posted}
    (hmessages : inputs.filterMap (·.message? env.endian) = log.filterMap (·.message?))
    (tid : Pid) : InSession env.endian inputs tid ↔ (holder log tid).isSome = true := by
  rw [holder_isSome_iff, ← hmessages, lastOf, ← List.filterMap_reverse, ← List.head?_filterMap,
    List.filterMap_filterMap, List.head?_filterMap]
  rfl

theorem foldl_holderStep_held {tid : Pid} {log : List Posted}
    (h : ⟨tid, .RemoveProcess⟩ ∉ log.filterMap (·.message?)) (i : Nat) :
    log.foldl (holderStep tid) (some i) = some i := by
  induction log with
  | nil => rfl
  | cons posted log ih =>
      have hstay : holderStep tid (some i) posted = some i := by
        unfold holderStep
        cases htry : ThreadstatMessage.tryFrom posted.msg with
        | error e => rfl
        | ok msg =>
            obtain ⟨tid', flag⟩ := msg
            cases flag with
            | AddProcess => simp
            | RemoveProcess =>
                have hne : tid' ≠ tid := by
                  rintro rfl
                  exact h (by simp [Posted.message?, htry, Except.toOption])
                simp [hne]
      rw [List.foldl_cons, hstay]
      refine ih fun hin => h ?_
      obtain ⟨other, hother, hmsg⟩ := List.mem_filterMap.1 hin
      exact List.mem_filterMap.2 ⟨other, List.mem_cons_of_mem _ hother, hmsg⟩

theorem msg_of_remove {posted : Posted} {tid : Pid}
    (h : posted.message? = some ⟨tid, .RemoveProcess⟩) : posted.msg = Thread.removeMessage tid := by
  obtain ⟨sender, tid', flags⟩ := posted
  unfold Posted.message? ThreadstatMessage.tryFrom at h
  split_ifs at h with hadd hremove
  · simp [Except.toOption] at h
  · obtain rfl : flags = MESSAGE_FLAG_REMOVE_PROCESS := hremove
    obtain rfl : tid' = tid := congrArg ThreadstatMessage.tid (Option.some.inj h)
    rfl
  · simp [Except.toOption] at h

/-- After the ADD of a thread the first REMOVE for its tid, if there is one, is its own. -/
theorem Matched.own_remove {earlier rest : List Posted} {i : Nat} {tid : Pid}
    (h : Matched (earlier ++ ⟨i, Thread.addMessage tid⟩ :: rest)) :
    ⟨tid, .RemoveProcess⟩ ∈ rest.filterMap (·.message?) ↔
      ⟨i, Thread.removeMessage tid⟩ ∈ earlier ++ ⟨i, Thread.addMessage tid⟩ :: rest := by
  obtain ⟨hfree, hfirst⟩ := h earlier _ rest rfl tid .AddProcess rfl
  constructor
  · intro hin
    obtain ⟨before, after, heq, hnot⟩ := List.eq_append_cons_of_mem hin
    obtain ⟨mid, later, rfl, rfl, hlater⟩ := List.filterMap_eq_append_iff.1 heq
    obtain ⟨skipped, posted, later, rfl, hskipped, hmsg, -⟩ := List.filterMap_eq_cons_iff.1 hlater
    -- Up to here the thread holds its tid.
    have hheld : holder (earlier ++ ⟨i, Thread.addMessage tid⟩ :: (mid ++ skipped)) tid =
        some i := by
      rw [List.append_cons, holder_append, holder_add hfree (by simp)]
      refine foldl_holderStep_held ?_ i
      rw [List.filterMap_append, List.filterMap_eq_nil_iff.2 hskipped, List.append_nil]
      exact hnot
    have hfits : holder (earlier ++ ⟨i, Thread.addMessage tid⟩ :: (mid ++ skipped)) tid =
        some posted.sender := h _ posted later (by simp) tid .RemoveProcess hmsg
    have hsender : i = posted.sender := Option.some.inj (hheld.symm.trans hfits)
    have hposted : posted = ⟨i, Thread.removeMessage tid⟩ := by
      rw [hsender, ← msg_of_remove hmsg]
    simp [hposted]
  · intro hin
    rcases List.mem_append.1 hin with hin | hin
    · exact absurd rfl (hfirst ⟨i, Thread.removeMessage tid⟩ hin)
    · rcases List.mem_cons.1 hin with heq | hin
      · have hflags := congrArg (fun posted : Posted => posted.msg.flags) heq
        simp [Thread.removeMessage, Thread.addMessage, MESSAGE_FLAG_REMOVE_PROCESS,
          MESSAGE_FLAG_ADD_PROCESS] at hflags
      · exact List.mem_filterMap.2 ⟨_, hin, rfl⟩

/-! ## Whole runs -/

variable (env configs) in
/-- Every ADD the daemon has handled has opened a session, which ends with the REMOVE of the same
thread and with nothing else, provided no tid is given out again before the REMOVE of every earlier
thread that announced itself with it.  Each group opened then is read once for every tick of the
session and once at its end, which is the final flush if the REMOVE has not come. -/
theorem every_thread_has_session (steps : List Step) {s : System}
    (hrun : Transition.run (step env) (init configs) steps = some s)
    (hmeets : Transition.Meets (step env) TidReleased (init configs) steps)
    {i : Nat} {tid : Pid} (hhandled : ⟨i, Thread.addMessage tid⟩ ∈ s.handled) :
    ∃ before input later, s.world = World.daemon env configs (before ++ [input] ++ later) ∧
      input.message? env.endian = some ⟨tid, .AddProcess⟩ ∧ ¬ InSession env.endian before tid ∧
      (Ongoing env.endian later tid ↔ ⟨i, Thread.removeMessage tid⟩ ∉ s.handled) ∧
      ∃ groups,
        (World.daemon env configs (before ++ [input])).state.groups.lookup tid = some groups ∧
        ∀ group ∈ groups, ∃ leader,
          Backs (World.daemon env configs (before ++ [input])).kernel tid leader group ∧
          (s.world.flushAll env).kernel.readsOf leader =
            sessionTicks env.endian tid later + 1 := by
  have hall : s.Sound ∧ Matched s.log ∧ Heard env configs s := by
    refine Transition.meets_induction
      (P := fun _ s => s.Sound ∧ Matched s.log ∧ Heard env configs s) ?_ ?_ hmeets hrun
    · exact ⟨init_sound configs, by simp [Matched, init, log], [], rfl, rfl⟩
    · rintro _ u a u' ⟨hsound, hmatched, hheard⟩ hreleased hstep
      exact ⟨hsound.step hreleased hstep, hsound.matched_step hmatched hstep, hheard.step hstep⟩
  obtain ⟨-, hmatched, inputs, hworld, hmessages⟩ := hall
  obtain ⟨earlier, rest, hsplit⟩ := List.append_of_mem hhandled
  have hmatched' : Matched (earlier ++ ⟨i, Thread.addMessage tid⟩ :: rest) := by
    rw [log, hsplit] at hmatched
    intro e posted l heq
    exact hmatched e posted (l ++ s.queue) (by rw [heq]; simp)
  obtain ⟨hfree, -⟩ := hmatched' earlier _ rest rfl tid .AddProcess rfl
  -- The ADD stands among the inputs, after what was handled before it.
  rw [hsplit, List.filterMap_append] at hmessages
  obtain ⟨first, tail, rfl, hfirst, htail⟩ := List.filterMap_eq_append_iff.1 hmessages
  obtain ⟨skipped, input, later, rfl, hskipped, hmsg, hlater⟩ :=
    List.filterMap_eq_cons_iff.1 htail
  have hbefore : (first ++ skipped).filterMap (·.message? env.endian) =
      earlier.filterMap (·.message?) := by
    rw [List.filterMap_append, List.filterMap_eq_nil_iff.2 hskipped, List.append_nil, hfirst]
  have hout : ¬ InSession env.endian (first ++ skipped) tid := by
    rw [inSession_iff_holder hbefore, hfree]
    simp
  have hongoing : Ongoing env.endian later tid ↔ ⟨i, Thread.removeMessage tid⟩ ∉ s.handled := by
    rw [hsplit, ← hmatched'.own_remove, ← hlater, List.mem_filterMap]
    simp [Ongoing]
  have hinputs : first ++ (skipped ++ input :: later) = (first ++ skipped) ++ [input] ++ later := by
    simp
  obtain ⟨groups, hlookup, hgroups⟩ := World.opened_reads env configs hmsg hout later
  rw [hinputs] at hworld
  refine ⟨first ++ skipped, input, later, hworld, hmsg, hout, hongoing, groups, hlookup, ?_⟩
  rw [hworld]
  exact hgroups

def sampled : List Step :=
  [.spawn .wrapper 5, .thread 0 .advance, .thread 0 .advance, .receive, .other (.tick 1),
    .other (.tick 1)] ++ List.replicate 6 (.thread 0 .advance) ++ [.receive, .other (.tick 1)]

theorem every_thread_has_session_sampled :
    ∃ s, Transition.run (step .steady) (init [cyclesGroup]) sampled = some s ∧
      ∃ before input later,
        s.world = World.daemon .steady [cyclesGroup] (before ++ [input] ++ later) ∧
        input.message? .little = some ⟨5, .AddProcess⟩ ∧ ¬ Ongoing .little later 5 := by
  obtain ⟨before, input, later, hworld, hmsg, -, hongoing, -⟩ :=
    every_thread_has_session .steady [cyclesGroup] sampled rfl (by decide)
      (show Posted.mk 0 (Thread.addMessage 5) ∈ _ by decide)
  exact ⟨_, rfl, before, input, later, hworld, hmsg, fun hall => hongoing.1 hall (by decide)⟩

end System

end Threadstat

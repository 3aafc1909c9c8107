import Threadstat.Lib.Places
import Threadstat.System.Bounded

/-!
# Daemons come and go

A queue is found by its name.  A daemon that starts opens the queue that has the name or makes one,
and unlinks the name when it leaves `main`.  A monitored process opens the queue that has the name
when the library is loaded, and keeps it for all its threads, whatever becomes of the name.

Where every daemon that starts finds no queue of that name, each has its own, and sees just the
threads of the processes that were started beside it.
-/

namespace Threadstat

/-- A daemon, from the opening of its queue to the end of its polling loop. -/
structure Daemon where
  queue : Nat
  configs : List (NonEmpty (PerfConfig InternC))
  world : World
  running : Bool

structure Member where
  process : Nat
  /-- What `pid_message_queue` of the process is open on. -/
  queue : Nat
  thread : Thread

structure Host where
  /-- What `THREADSTAT_MQ` names. -/
  name : Option Nat
  /-- All queues ever made. -/
  queues : List MQueue
  /-- All daemons ever started. -/
  daemons : List Daemon
  /-- All threads ever started. -/
  members : List Member

namespace Host

inductive Step where
  /-- A daemon opens its queue; the configurations are those it goes on to parse. -/
  | start (k : MqKernel) (configs : List (NonEmpty (PerfConfig InternC)))
  /-- A daemon takes a message off its queue and handles it. -/
  | receive (d : Nat)
  /-- Any other turn of a daemon. -/
  | other (d : Nat) (input : Input)
  /-- A daemon leaves `main`, which drops its `MQueueReader`. -/
  | quit (d : Nat)
  /-- A daemon is killed. -/
  | die (d : Nat)
  /-- The library is loaded into a new process, whose first thread has this tid. -/
  | exec (tid : Pid)
  /-- The process of thread `i` gets another thread. -/
  | create (i : Nat) (tid : Pid)
  | thread (i : Nat) (action : Thread.Action)
  /-- The thread ends with its process, wherever it is. -/
  | kill (i : Nat)

def init : Host where
  name := none
  queues := []
  daemons := []
  members := []

def Running (s : Host) (tid : Pid) : Prop :=
  ∃ m ∈ s.members, m.thread.pc ≠ .ended ∧ m.thread.tid = tid

instance (s : Host) (tid : Pid) : Decidable (s.Running tid) :=
  inferInstanceAs (Decidable (∃ m ∈ s.members, m.thread.pc ≠ .ended ∧ m.thread.tid = tid))

def spawn (s : Host) (process queue : Nat) (routine : Routine) (tid : Pid) : Option Host :=
  if s.Running tid then none
  else some { s with members := s.members ++ [⟨process, queue, .start routine tid⟩] }

def setMember (s : Host) (i : Nat) (m : Member) (t : Thread) (queue : MQueue) : Host :=
  { s with
    members := s.members.set i { m with thread := t }
    queues := s.queues.set m.queue queue }

def exit (s : Host) (process : Nat) : Host :=
  { s with
    members := s.members.map fun m =>
      if m.process = process then { m with thread := { m.thread with pc := .ended } } else m }

variable (env : Env)

def step (s : Host) : Step → Option Host
  | .start k configs =>
    match MQueueReader.new k Message.size (s.name.bind fun q => s.queues[q]?) with
    -- The daemon panics with "failed to open mqueue".
    | .error _ => some s
    | .ok queue =>
      match s.name with
      | some q => some { s with daemons := s.daemons ++ [⟨q, configs, .new configs, true⟩] }
      | none =>
        some { s with
          name := some s.queues.length
          queues := s.queues ++ [queue]
          daemons := s.daemons ++ [⟨s.queues.length, configs, .new configs, true⟩] }
  | .receive d => do
    let daemon ← s.daemons[d]?
    let queue ← s.queues[daemon.queue]?
    let (answer, queue) ← queue.mqReceive Message.size
    if daemon.running then
      let world := daemon.world.handle env (.receive answer)
      some { s with
        queues := s.queues.set daemon.queue queue
        daemons := s.daemons.set d { daemon with world } }
    else none
  | .other d input => do
    let daemon ← s.daemons[d]?
    if daemon.running ∧ input.message? env.endian = none then
      some { s with
        daemons := s.daemons.set d { daemon with world := daemon.world.handle env input } }
    else none
  | .quit d => do
    let daemon ← s.daemons[d]?
    if daemon.running then
      -- `mq_unlink`, whichever queue has the name by now.
      some { s with name := none, daemons := s.daemons.set d { daemon with running := false } }
    else none
  | .die d => do
    let daemon ← s.daemons[d]?
    some { s with daemons := s.daemons.set d { daemon with running := false } }
  | .exec tid =>
    match s.name with
    -- `constructor` exits with "Failed to open message queue".
    | none => some s
    | some q => s.spawn s.members.length q .constructor tid
  | .create i tid => do
    let m ← s.members[i]?
    if m.thread.pc = .ended then none else s.spawn m.process m.queue .wrapper tid
  | .thread i action => do
    let m ← s.members[i]?
    let queue ← s.queues[m.queue]?
    let t ← m.thread.step action
    match t.sent.drop m.thread.sent.length with
    | [] => some (s.setMember i m t queue)
    | msg :: _ =>
      match queue.mqSend ⟨0, msg.toBytes env.endian⟩ with
      | (.ok (), queue) => some (s.setMember i m t queue)
      | (.error e, _) => if e = EAGAIN then none else some (s.exit m.process)
  | .kill i => do
    let m ← s.members[i]?
    let queue ← s.queues[m.queue]?
    some (s.setMember i m { m.thread with pc := .ended } queue)

/-- A daemon that starts finds no queue of its name. -/
def Alone (s : Host) : Step → Prop
  | .start _ _ => s.name = none
  | _ => True

instance (s : Host) : ∀ a, Decidable (s.Alone a)
  | .start _ _ => inferInstanceAs (Decidable (s.name = none))
  | .receive _ | .other _ _ | .quit _ | .die _ | .exec _ | .create _ _ | .thread _ _ | .kill _ =>
    .isTrue trivial

section Cases

variable {env : Env} {s s' : Host} {d i : Nat}

theorem receive_cases (h : s.step env (.receive d) = some s') :
    ∃ daemon queue answer queue', s.daemons[d]? = some daemon ∧ daemon.running = true ∧
      s.queues[daemon.queue]? = some queue ∧
      queue.mqReceive Message.size = some (answer, queue') ∧
      s' = { s with
        queues := s.queues.set daemon.queue queue'
        daemons := s.daemons.set d
          { daemon with world := daemon.world.handle env (.receive answer) } } := by
  simp only [step, Option.bind_eq_bind, Option.bind_eq_some_iff,
    Option.ite_none_right_eq_some] at h
  obtain ⟨daemon, hd, queue, hqueue, ⟨answer, queue'⟩, hreceive, hrun, heq⟩ := h
  exact ⟨daemon, queue, answer, queue', hd, hrun, hqueue, hreceive, (Option.some.inj heq).symm⟩

theorem other_cases {input : Input} (h : s.step env (.other d input) = some s') :
    ∃ daemon, s.daemons[d]? = some daemon ∧ daemon.running = true ∧
      input.message? env.endian = none ∧
      s' = { s with
        daemons := s.daemons.set d { daemon with world := daemon.world.handle env input } } := by
  simp only [step, Option.bind_eq_bind, Option.bind_eq_some_iff,
    Option.ite_none_right_eq_some] at h
  obtain ⟨daemon, hd, ⟨hrun, hinput⟩, heq⟩ := h
  exact ⟨daemon, hd, hrun, hinput, (Option.some.inj heq).symm⟩

theorem quit_cases (h : s.step env (.quit d) = some s') :
    ∃ daemon, s.daemons[d]? = some daemon ∧ daemon.running = true ∧
      s' = { s with
        name := none, daemons := s.daemons.set d { daemon with running := false } } := by
  simp only [step, Option.bind_eq_bind, Option.bind_eq_some_iff,
    Option.ite_none_right_eq_some] at h
  obtain ⟨daemon, hd, hrun, heq⟩ := h
  exact ⟨daemon, hd, hrun, (Option.some.inj heq).symm⟩

theorem die_cases (h : s.step env (.die d) = some s') :
    ∃ daemon, s.daemons[d]? = some daemon ∧
      s' = { s with daemons := s.daemons.set d { daemon with running := false } } := by
  simp only [step, Option.bind_eq_bind, Option.bind_eq_some_iff] at h
  obtain ⟨daemon, hd, heq⟩ := h
  exact ⟨daemon, hd, (Option.some.inj heq).symm⟩

theorem exec_cases {tid : Pid} (h : s.step env (.exec tid) = some s') :
    s' = s ∨ ∃ q, s.name = some q ∧ s.spawn s.members.length q .constructor tid = some s' := by
  simp only [step] at h
  split at h
  · exact .inl (Option.some.inj h).symm
  · next q hname => exact .inr ⟨q, hname, h⟩

theorem create_cases {tid : Pid} (h : s.step env (.create i tid) = some s') :
    ∃ m, s.members[i]? = some m ∧ s.spawn m.process m.queue .wrapper tid = some s' := by
  simp only [step, Option.bind_eq_bind, Option.bind_eq_some_iff,
    Option.ite_none_left_eq_some] at h
  obtain ⟨m, hm, -, hspawn⟩ := h
  exact ⟨m, hm, hspawn⟩

theorem kill_cases (h : s.step env (.kill i) = some s') :
    ∃ m queue, s.members[i]? = some m ∧ s.queues[m.queue]? = some queue ∧
      s' = s.setMember i m { m.thread with pc := .ended } queue := by
  simp only [step, Option.bind_eq_bind, Option.bind_eq_some_iff] at h
  obtain ⟨m, hm, queue, hqueue, heq⟩ := h
  exact ⟨m, queue, hm, hqueue, (Option.some.inj heq).symm⟩

end Cases

/-! ## One daemon's part -/

def threadOn (q : Nat) (m : Member) : Option Thread := if m.queue = q then some m.thread else none

def view (s : Host) (q : Nat) (queue : MQueue) (world : World) : Bounded where
  threads := s.members.filterMap (threadOn q)
  queue
  world

/-- The daemon, its queue and these threads can have come so far by themselves. -/
def Reached (configs : List (NonEmpty (PerfConfig InternC))) (v : Bounded) : Prop :=
  ∃ queue steps, queue.msgsize = Message.size ∧ queue.messages = [] ∧
    Transition.run (Bounded.step env) (.init configs queue) steps = some v

variable {env} {configs : List (NonEmpty (PerfConfig InternC))} {v v' : Bounded}

theorem Reached.step {a : System.Step} (h : Reached env configs v)
    (hstep : v.step env a = some v') : Reached env configs v' := by
  obtain ⟨queue, steps, hmsgsize, hmessages, hrun⟩ := h
  exact ⟨queue, steps ++ [a], hmsgsize, hmessages,
    (Transition.run_snoc_eq_some _).2 ⟨v, hrun, hstep⟩⟩

theorem Reached.refines (h : Reached env configs v) :
    ∃ steps t, Transition.run (System.step env) (.init configs) steps = some t ∧
      v.Refines env v.queue.maxmsg t := by
  obtain ⟨queue, steps, hmsgsize, hmessages, hrun⟩ := h
  obtain ⟨-, t, ht, hrefines⟩ := Bounded.run_refines
    (Bounded.init_refines hmsgsize hmessages) hrun
  exact ⟨steps, t, ht, by rwa [hrefines.maxmsg]⟩

variable (env) in
/-- Every daemon has the queue it has made, and has come so far with the threads on that queue. -/
structure Inv (s : Host) : Prop where
  made : s.queues.length = s.daemons.length
  own : ∀ {d : Nat} {daemon : Daemon}, s.daemons[d]? = some daemon → daemon.queue = d
  name : ∀ {q : Nat}, s.name = some q → q < s.queues.length
  members : ∀ m ∈ s.members, m.queue < s.queues.length
  reached : ∀ {d : Nat} {daemon : Daemon} {queue : MQueue}, s.daemons[d]? = some daemon →
    s.queues[d]? = some queue → Reached env daemon.configs (s.view d queue daemon.world)

theorem init_inv : (init).Inv env where
  made := rfl
  own h := by cases h
  name h := by cases h
  members _ h := by cases h
  reached h := by cases h

structure Only (q : Nat) (s s' : Host) : Prop where
  name : ∀ {p : Nat}, s'.name = some p → s.name = some p
  queues : s'.queues.length = s.queues.length ∧ ∀ j ≠ q, s'.queues[j]? = s.queues[j]?
  daemons : s'.daemons.length = s.daemons.length ∧ ∀ j ≠ q, s'.daemons[j]? = s.daemons[j]?
  members : ∀ m ∈ s'.members, m.queue = q ∨ m ∈ s.members
  threads : ∀ j ≠ q, s'.members.filterMap (threadOn j) = s.members.filterMap (threadOn j)

variable {s s' : Host}

theorem Inv.only {q : Nat} {daemon : Daemon} {queue : MQueue} (h : s.Inv env) (honly : Only q s s')
    (hdaemon : s'.daemons[q]? = some daemon) (hown : daemon.queue = q)
    (hqueue : s'.queues[q]? = some queue)
    (hreached : Reached env daemon.configs (s'.view q queue daemon.world)) : s'.Inv env where
  made := by rw [honly.queues.1, honly.daemons.1, h.made]
  own {d e} he := by
    by_cases hd : d = q
    · subst hd
      obtain rfl := Option.some.inj (hdaemon.symm.trans he)
      exact hown
    · exact h.own ((honly.daemons.2 d hd).symm.trans he)
  name hp := by
    rw [honly.queues.1]
    exact h.name (honly.name hp)
  members m hm := by
    rw [honly.queues.1]
    rcases honly.members m hm with rfl | hm
    · have hlt := (List.getElem?_eq_some_iff.1 hqueue).1
      rwa [honly.queues.1] at hlt
    · exact h.members m hm
  reached {d e r} he hr := by
    by_cases hd : d = q
    · subst hd
      obtain rfl := Option.some.inj (hdaemon.symm.trans he)
      obtain rfl := Option.some.inj (hqueue.symm.trans hr)
      exact hreached
    · rw [honly.daemons.2 d hd] at he
      rw [honly.queues.2 d hd] at hr
      have hview : s'.view d r e.world = s.view d r e.world := by
        rw [view, view, honly.threads d hd]
      rw [hview]
      exact h.reached he hr

theorem Inv.daemon {q : Nat} (h : s.Inv env) (hq : q < s.queues.length) :
    ∃ daemon queue, s.daemons[q]? = some daemon ∧ daemon.queue = q ∧
      s.queues[q]? = some queue ∧ Reached env daemon.configs (s.view q queue daemon.world) := by
  have hdaemon := List.getElem?_eq_getElem (h.made ▸ hq : q < s.daemons.length)
  have hqueue := List.getElem?_eq_getElem hq
  exact ⟨_, _, hdaemon, h.own hdaemon, hqueue, h.reached hdaemon hqueue⟩

/-! ## Steps -/

theorem Inv.spawn {process q : Nat} {routine : Routine} {tid : Pid} (h : s.Inv env)
    (hq : q < s.queues.length) (hstep : s.spawn process q routine tid = some s') :
    s'.Inv env := by
  simp only [Host.spawn, Option.ite_none_left_eq_some, Option.some.injEq] at hstep
  obtain ⟨hrun, rfl⟩ := hstep
  obtain ⟨daemon, queue, hdaemon, hown, hqueue, hreached⟩ := h.daemon hq
  refine h.only (q := q) ⟨id, ⟨rfl, fun _ _ => rfl⟩, ⟨rfl, fun _ _ => rfl⟩, fun m hm => ?_,
    fun j hj => ?_⟩ hdaemon hown hqueue (hreached.step (a := .spawn routine tid) ?_)
  · rcases List.mem_append.1 hm with hm | hm
    · exact .inr hm
    · exact .inl (by rw [List.mem_singleton.1 hm])
  · simp [threadOn, Ne.symm hj]
  · have hfree : ¬ (s.view q queue daemon.world).Running tid := by
      rintro ⟨t, ht, hpc, htid⟩
      obtain ⟨m, hm, hon⟩ := List.mem_filterMap.1 ht
      obtain ⟨-, heq⟩ := Option.ite_none_right_eq_some.1 hon
      obtain rfl := Option.some.inj heq
      exact hrun ⟨m, hm, hpc, htid⟩
    rw [Bounded.step, if_neg hfree]
    simp [view, threadOn]

section Member

variable {i : Nat} {m : Member} {t : Thread} {queue queue' : MQueue}

theorem only_setMember (hm : s.members[i]? = some m) :
    Only m.queue s (s.setMember i m t queue') where
  name := id
  queues := ⟨List.length_set, fun j hj => List.getElem?_set_ne hj.symm⟩
  daemons := ⟨rfl, fun _ _ => rfl⟩
  members m' hm' := by
    rcases List.mem_or_eq_of_mem_set hm' with hm' | rfl
    · exact .inr hm'
    · exact .inl rfl
  threads j hj := Places.set_of_none hm (if_neg hj.symm) (if_neg hj.symm)

theorem view_thread (hm : s.members[i]? = some m) (queue : MQueue) (world : World) :
    (s.view m.queue queue world).threads[Places.place (threadOn m.queue) s.members i]? =
      some m.thread :=
  Places.getElem?_place hm (if_pos rfl)

/-- A step of one thread is the step of its part. -/
theorem Inv.setMember {a : System.Step} (h : s.Inv env) (hm : s.members[i]? = some m)
    (hqueue : s.queues[m.queue]? = some queue)
    (hstep : ∀ world, (s.view m.queue queue world).step env a =
      some ⟨(s.view m.queue queue world).threads.set
        (Places.place (threadOn m.queue) s.members i) t, queue', world⟩) :
    (s.setMember i m t queue').Inv env := by
  have hlt : m.queue < s.queues.length := h.members m (List.mem_of_getElem? hm)
  obtain ⟨daemon, r, hdaemon, hown, hr, hreached⟩ := h.daemon hlt
  obtain rfl : queue = r := Option.some.inj (hqueue.symm.trans hr)
  have hthreads : (s.setMember i m t queue').members.filterMap (threadOn m.queue) =
      (s.view m.queue queue daemon.world).threads.set
        (Places.place (threadOn m.queue) s.members i) t :=
    Places.set_place hm (if_pos rfl) (if_pos rfl)
  refine h.only (only_setMember hm) hdaemon hown (List.getElem?_set_self hlt) ?_
  rw [view, hthreads]
  exact hreached.step (hstep daemon.world)

theorem Inv.thread_cases {action : Thread.Action} (h : s.Inv env) (hm : s.members[i]? = some m)
    (hqueue : s.queues[m.queue]? = some queue) (ht : m.thread.step action = some t) :
    (t.sent = m.thread.sent ∧
      s.step env (.thread i action) = some (s.setMember i m t queue)) ∨
    (t.sent = m.thread.sent ++ [m.thread.msg] ∧
      ((queue.messages.length < queue.maxmsg ∧ ∃ queue',
          queue.mqSend ⟨0, m.thread.msg.toBytes env.endian⟩ = (.ok (), queue') ∧
          queue'.messages = queue.messages ++ [⟨0, m.thread.msg.toBytes env.endian⟩] ∧
          queue'.maxmsg = queue.maxmsg ∧
          s.step env (.thread i action) = some (s.setMember i m t queue')) ∨
        (queue.messages.length = queue.maxmsg ∧ s.step env (.thread i action) = none))) := by
  simp only [Host.step, Option.bind_eq_bind, Option.bind_some, hm, hqueue, ht]
  refine (Thread.step_frame ht).2.2.imp (fun hsent => ⟨hsent, by simp [hsent]⟩) fun hsent =>
    ⟨hsent, ?_⟩
  have hdrop : t.sent.drop m.thread.sent.length = [m.thread.msg] := by simp [hsent]
  simp only [hdrop]
  obtain ⟨daemon, r, -, -, hr, hreached⟩ := h.daemon (h.members m (List.mem_of_getElem? hm))
  obtain rfl : queue = r := Option.some.inj (hqueue.symm.trans hr)
  obtain ⟨-, u, -, hrefines⟩ := hreached.refines
  obtain ⟨hroom, hfull⟩ := hrefines.mqSend m.thread.msg
  rw [hrefines.length] at hroom hfull
  dsimp only [view] at hroom hfull
  rcases Nat.lt_or_ge queue.messages.length queue.maxmsg with hlt | hge
  · obtain ⟨queue', hsend, hmessages, -, hmaxmsg⟩ := hroom hlt
    exact .inl ⟨hlt, queue', hsend, hmessages, hmaxmsg, by rw [hsend]⟩
  · refine .inr ⟨Nat.le_antisymm queue.depth hge, ?_⟩
    rw [hfull hge]
    rfl

theorem Inv.thread {action : Thread.Action} (h : s.Inv env)
    (hstep : s.step env (.thread i action) = some s') : s'.Inv env := by
  have hsome := hstep
  simp only [Host.step, Option.bind_eq_bind, Option.bind_eq_some_iff] at hsome
  obtain ⟨m, hm, queue, hqueue, t, ht, -⟩ := hsome
  have hat := view_thread hm queue
  rcases h.thread_cases hm hqueue ht with
    ⟨hsent, heq⟩ | ⟨hsent, ⟨-, queue', hsend, -, -, heq⟩ | ⟨-, heq⟩⟩
  · have hdrop : t.sent.drop m.thread.sent.length = [] := by simp [hsent]
    obtain rfl := Option.some.inj (heq.symm.trans hstep)
    refine h.setMember (a := .thread (Places.place (threadOn m.queue) s.members i) action) hm
      hqueue fun world => ?_
    simp only [Bounded.step, hat, Option.bind_eq_bind, Option.bind_some, ht, hdrop]
    rfl
  · have hdrop : t.sent.drop m.thread.sent.length = [m.thread.msg] := by simp [hsent]
    obtain rfl := Option.some.inj (heq.symm.trans hstep)
    refine h.setMember (a := .thread (Places.place (threadOn m.queue) s.members i) action) hm
      hqueue fun world => ?_
    have hsend : (s.view m.queue queue world).queue.mqSend
        ⟨0, m.thread.msg.toBytes env.endian⟩ = (.ok (), queue') := hsend
    simp only [Bounded.step, hat, Option.bind_eq_bind, Option.bind_some, ht, hdrop, Bounded.send,
      hsend]
    rfl
  · rw [heq] at hstep
    cases hstep

end Member

theorem Inv.setDaemon {d : Nat} {daemon : Daemon} {queue queue' : MQueue} (h : s.Inv env)
    (daemon' : Daemon) (hd : s.daemons[d]? = some daemon) (hqueue : s.queues[d]? = some queue)
    (hown : daemon'.queue = d) (hname : ∀ {p : Nat}, s'.name = some p → s.name = some p)
    (hqueues : s'.queues = s.queues.set d queue') (hdaemons : s'.daemons = s.daemons.set d daemon')
    (hmembers : s'.members = s.members)
    (hreached : Reached env daemon'.configs (s.view d queue' daemon'.world)) : s'.Inv env := by
  have hltd : d < s.daemons.length := (List.getElem?_eq_some_iff.1 hd).1
  have hltq : d < s.queues.length := (List.getElem?_eq_some_iff.1 hqueue).1
  have hd' : s'.daemons[d]? = some daemon' := by rw [hdaemons, List.getElem?_set_self hltd]
  have hqueue' : s'.queues[d]? = some queue' := by rw [hqueues, List.getElem?_set_self hltq]
  have hview : s'.view d queue' daemon'.world = s.view d queue' daemon'.world := by
    rw [view, view, hmembers]
  refine h.only ⟨hname, ?_, ?_, fun m hm => .inr (hmembers ▸ hm), fun j _ => by rw [hmembers]⟩
    hd' hown hqueue' (hview ▸ hreached)
  · rw [hqueues]
    exact ⟨List.length_set, fun j hj => List.getElem?_set_ne hj.symm⟩
  · rw [hdaemons]
    exact ⟨List.length_set, fun j hj => List.getElem?_set_ne hj.symm⟩

theorem Inv.daemonOnly {d : Nat} {daemon : Daemon} (h : s.Inv env) (daemon' : Daemon)
    (hd : s.daemons[d]? = some daemon) (hown : daemon'.queue = daemon.queue)
    (hname : ∀ {p : Nat}, s'.name = some p → s.name = some p) (hqueues : s'.queues = s.queues)
    (hdaemons : s'.daemons = s.daemons.set d daemon') (hmembers : s'.members = s.members)
    (hreached : ∀ queue, Reached env daemon.configs (s.view d queue daemon.world) →
      Reached env daemon'.configs (s.view d queue daemon'.world)) : s'.Inv env := by
  have hlt : d < s.queues.length := by
    rw [h.made]
    exact (List.getElem?_eq_some_iff.1 hd).1
  have hqueue := List.getElem?_eq_getElem hlt
  refine h.setDaemon daemon' hd hqueue (hown.trans (h.own hd)) hname ?_ hdaemons hmembers
    (hreached _ (h.reached hd hqueue))
  rw [hqueues, List.set_getElem_self]

theorem Inv.start {k : MqKernel} (h : s.Inv env) (hname : s.name = none)
    (hstep : s.step env (.start k configs) = some s') : s'.Inv env := by
  simp only [Host.step, hname, Option.bind_none] at hstep
  cases hnew : MQueueReader.new k Message.size none with
  | error e =>
      rw [hnew] at hstep
      obtain rfl := Option.some.inj hstep
      exact h
  | ok queue =>
      rw [hnew] at hstep
      obtain rfl := Option.some.inj hstep
      obtain ⟨hmsgsize, hmessages⟩ := QueueWorld.new_fresh hnew (by simp)
      -- Every daemon but the new one was there before.
      have hcases : ∀ {d : Nat} {daemon : Daemon},
          (s.daemons ++ [⟨s.queues.length, configs, .new configs, true⟩])[d]? = some daemon →
          s.daemons[d]? = some daemon ∨
            d = s.queues.length ∧ daemon = ⟨s.queues.length, configs, .new configs, true⟩ := by
        intro d daemon hd
        have hlt := (List.getElem?_eq_some_iff.1 hd).1
        rw [List.length_append, List.length_singleton] at hlt
        rcases Nat.lt_succ_iff_lt_or_eq.1 hlt with hlt | rfl
        · exact .inl ((List.getElem?_append_left hlt).symm.trans hd)
        · rw [List.getElem?_concat_length] at hd
          exact .inr ⟨h.made.symm, (Option.some.inj hd).symm⟩
      refine ⟨by simp [h.made], fun he => ?_, fun hq => ?_, fun m hm => ?_, fun {d e r} he hr => ?_⟩
      · rcases hcases he with he | ⟨rfl, rfl⟩
        · exact h.own he
        · rfl
      · obtain rfl := Option.some.inj hq
        simp
      · have hlt := h.members m hm
        rw [List.length_append, List.length_singleton]
        omega
      · rcases hcases he with he | ⟨rfl, rfl⟩
        · rw [List.getElem?_append_left (h.made ▸ (List.getElem?_eq_some_iff.1 he).1)] at hr
          exact h.reached he hr
        · rw [List.getElem?_concat_length] at hr
          obtain rfl := Option.some.inj hr
          -- Nobody has the new queue yet.
          have hnone : s.members.filterMap (threadOn s.queues.length) = [] :=
            List.filterMap_eq_nil_iff.2 fun m hm => if_neg (h.members m hm).ne
          refine ⟨queue, [], hmsgsize, hmessages, ?_⟩
          rw [view, hnone]
          rfl

/-- A step in which no daemon finds a queue keeps the invariant. -/
theorem Inv.step {a : Step} (h : s.Inv env) (halone : s.Alone a)
    (hstep : s.step env a = some s') : s'.Inv env := by
  cases a with
  | start k configs => exact h.start halone hstep
  | receive d =>
      obtain ⟨daemon, queue, answer, queue', hd, -, hqueue, hreceive, rfl⟩ := receive_cases hstep
      rw [h.own hd] at hqueue
      refine h.setDaemon { daemon with world := daemon.world.handle env (.receive answer) } hd
        hqueue (show daemon.queue = d from h.own hd) id (by rw [h.own hd]) rfl rfl
        ((h.reached hd hqueue).step (a := .receive) ?_)
      simp only [Bounded.step, view, hreceive]
      rfl
  | other d input =>
      obtain ⟨daemon, hd, -, hinput, rfl⟩ := other_cases hstep
      refine h.daemonOnly { daemon with world := daemon.world.handle env input } hd rfl id rfl rfl
        rfl fun queue hreached => hreached.step (a := .other input) ?_
      rw [Bounded.step, if_pos hinput]
      rfl
  | quit d =>
      obtain ⟨daemon, hd, -, rfl⟩ := quit_cases hstep
      exact h.daemonOnly { daemon with running := false } hd rfl (by simp) rfl rfl rfl fun _ => id
  | die d =>
      obtain ⟨daemon, hd, rfl⟩ := die_cases hstep
      exact h.daemonOnly { daemon with running := false } hd rfl id rfl rfl rfl fun _ => id
  | exec tid =>
      rcases exec_cases hstep with rfl | ⟨q, hname, hspawn⟩
      · exact h
      · exact h.spawn (h.name hname) hspawn
  | create i tid =>
      obtain ⟨m, hm, hspawn⟩ := create_cases hstep
      exact h.spawn (h.members m (List.mem_of_getElem? hm)) hspawn
  | thread i action => exact h.thread hstep
  | kill i =>
      obtain ⟨m, queue, hm, hqueue, rfl⟩ := kill_cases hstep
      refine h.setMember (a := .kill (Places.place (threadOn m.queue) s.members i)) hm hqueue
        fun world => ?_
      simp only [Bounded.step, view_thread hm queue, Option.bind_eq_bind, Option.bind_some]
      rfl

/-! ## A queue without its daemon -/

def Grows (queue queue' : MQueue) : Prop :=
  queue.messages <+: queue'.messages ∧ queue'.maxmsg = queue.maxmsg

theorem Grows.refl (queue : MQueue) : Grows queue queue := ⟨List.prefix_rfl, rfl⟩

theorem Grows.trans {queue queue' queue'' : MQueue} (h : Grows queue queue')
    (h' : Grows queue' queue'') : Grows queue queue'' :=
  ⟨h.1.trans h'.1, h'.2.trans h.2⟩

theorem Grows.eq_of_full {queue queue' : MQueue} (h : Grows queue queue')
    (hfull : queue.messages.length = queue.maxmsg) : queue'.messages = queue.messages := by
  refine (h.1.eq_of_length_le ?_).symm
  rw [hfull, ← h.2]
  exact queue'.depth

def Stopped (s : Host) (d : Nat) : Prop :=
  ∃ daemon, s.daemons[d]? = some daemon ∧ daemon.running = false

variable {d : Nat} {queue : MQueue}

theorem Stopped.ne {daemon : Daemon} {d' : Nat} (h : s.Stopped d)
    (hd' : s.daemons[d']? = some daemon) (hrun : daemon.running = true) : d' ≠ d := by
  rintro rfl
  obtain ⟨daemon', hd, hstop⟩ := h
  obtain rfl := Option.some.inj (hd'.symm.trans hd)
  rw [hrun] at hstop
  cases hstop

theorem Stopped.snoc {daemon : Daemon} (h : s.Stopped d)
    (hdaemons : s'.daemons = s.daemons ++ [daemon]) : s'.Stopped d := by
  obtain ⟨daemon', hd, hstop⟩ := h
  refine ⟨daemon', ?_, hstop⟩
  rw [hdaemons, List.getElem?_append_left (List.getElem?_eq_some_iff.1 hd).1, hd]

theorem Stopped.set {daemon : Daemon} {d' : Nat} (h : s.Stopped d) (hne : d' ≠ d)
    (hdaemons : s'.daemons = s.daemons.set d' daemon) : s'.Stopped d := by
  obtain ⟨daemon', hd, hstop⟩ := h
  exact ⟨daemon', by rw [hdaemons, List.getElem?_set_ne hne, hd], hstop⟩

/-- Daemon `d` has stopped, and its queue is `queue` with messages added, if any. -/
def Abandoned (s : Host) (d : Nat) (queue : MQueue) : Prop :=
  s.Stopped d ∧ ∃ queue', s.queues[d]? = some queue' ∧ Grows queue queue'

theorem Abandoned.frame (h : s.Abandoned d queue) (hstop : s'.Stopped d)
    (hqueues : ∀ queue', s.queues[d]? = some queue' → s'.queues[d]? = some queue') :
    s'.Abandoned d queue := by
  obtain ⟨-, queue', hqueue', hgrows⟩ := h
  exact ⟨hstop, queue', hqueues queue' hqueue', hgrows⟩

theorem Abandoned.spawn {process q : Nat} {routine : Routine} {tid : Pid}
    (h : s.Abandoned d queue) (hstep : s.spawn process q routine tid = some s') :
    s'.Abandoned d queue := by
  simp only [Host.spawn, Option.ite_none_left_eq_some, Option.some.injEq] at hstep
  obtain ⟨-, rfl⟩ := hstep
  exact h.frame h.1 fun _ => id

theorem Abandoned.setMember {i : Nat} {m : Member} {t : Thread} {own own' : MQueue}
    (h : s.Abandoned d queue) (hown : s.queues[m.queue]? = some own) (hgrows : Grows own own') :
    (s.setMember i m t own').Abandoned d queue := by
  by_cases heq : m.queue = d
  · subst heq
    obtain ⟨hstop, queue', hqueue', hbefore⟩ := h
    obtain rfl : own = queue' := Option.some.inj (hown.symm.trans hqueue')
    exact ⟨hstop, own', List.getElem?_set_self (List.getElem?_eq_some_iff.1 hown).1,
      hbefore.trans hgrows⟩
  · exact h.frame h.1 fun _ hqueue' => (List.getElem?_set_ne heq).trans hqueue'

theorem Abandoned.thread {i : Nat} {action : Thread.Action} (hinv : s.Inv env)
    (h : s.Abandoned d queue) (hstep : s.step env (.thread i action) = some s') :
    s'.Abandoned d queue := by
  have hsome := hstep
  simp only [Host.step, Option.bind_eq_bind, Option.bind_eq_some_iff] at hsome
  obtain ⟨m, hm, own, hown, t, ht, -⟩ := hsome
  rcases hinv.thread_cases hm hown ht with
    ⟨-, heq⟩ | ⟨-, ⟨-, own', -, hmessages, hmaxmsg, heq⟩ | ⟨-, heq⟩⟩
  · obtain rfl := Option.some.inj (heq.symm.trans hstep)
    exact h.setMember hown (.refl own)
  · obtain rfl := Option.some.inj (heq.symm.trans hstep)
    exact h.setMember hown ⟨by rw [hmessages]; exact List.prefix_append _ _, hmaxmsg⟩
  · rw [heq] at hstep
    cases hstep

theorem Abandoned.start {k : MqKernel} (h : s.Abandoned d queue)
    (hstep : s.step env (.start k configs) = some s') : s'.Abandoned d queue := by
  simp only [Host.step] at hstep
  split at hstep
  · obtain rfl := Option.some.inj hstep
    exact h
  · split at hstep
    · obtain rfl := Option.some.inj hstep
      exact h.frame (h.1.snoc rfl) fun _ => id
    · obtain rfl := Option.some.inj hstep
      refine h.frame (h.1.snoc rfl) fun queue' hqueue' => ?_
      exact (List.getElem?_append_left (List.getElem?_eq_some_iff.1 hqueue').1).trans hqueue'

theorem Abandoned.receive {d' : Nat} (hinv : s.Inv env) (h : s.Abandoned d queue)
    (hstep : s.step env (.receive d') = some s') : s'.Abandoned d queue := by
  obtain ⟨daemon, own, answer, own', hd', hrun, -, -, rfl⟩ := receive_cases hstep
  have hne := h.1.ne hd' hrun
  refine h.frame (h.1.set hne rfl) fun queue' hqueue' => ?_
  rw [hinv.own hd']
  exact (List.getElem?_set_ne hne).trans hqueue'

theorem Abandoned.die {d' : Nat} (h : s.Abandoned d queue)
    (hstep : s.step env (.die d') = some s') : s'.Abandoned d queue := by
  obtain ⟨daemon, hd', rfl⟩ := die_cases hstep
  refine h.frame ?_ fun _ => id
  by_cases heq : d' = d
  · subst heq
    exact ⟨_, List.getElem?_set_self (List.getElem?_eq_some_iff.1 hd').1, rfl⟩
  · exact h.1.set heq rfl

theorem Abandoned.step {a : Step} (hinv : s.Inv env) (h : s.Abandoned d queue)
    (hstep : s.step env a = some s') : s'.Abandoned d queue := by
  cases a with
  | start k configs => exact h.start hstep
  | receive d' => exact h.receive hinv hstep
  | other d' input =>
      obtain ⟨daemon, hd', hrun, -, rfl⟩ := other_cases hstep
      exact h.frame (h.1.set (h.1.ne hd' hrun) rfl) fun _ => id
  | quit d' =>
      obtain ⟨daemon, hd', hrun, rfl⟩ := quit_cases hstep
      exact h.frame (h.1.set (h.1.ne hd' hrun) rfl) fun _ => id
  | die d' => exact h.die hstep
  | exec tid =>
      rcases exec_cases hstep with rfl | ⟨q, -, hspawn⟩
      · exact h
      · exact h.spawn hspawn
  | create i tid =>
      obtain ⟨m, -, hspawn⟩ := create_cases hstep
      exact h.spawn hspawn
  | thread i action => exact h.thread hinv hstep
  | kill i =>
      obtain ⟨m, own, -, hown, rfl⟩ := kill_cases hstep
      exact h.setMember hown (.refl own)

/-! ## Whole runs -/

theorem run_inv {steps : List Step} (halone : Transition.Meets (step env) Alone init steps)
    (hrun : Transition.run (step env) init steps = some s) : s.Inv env :=
  Transition.meets_induction (P := fun _ s => s.Inv env) init_inv
    (fun _ _ _ _ hinv halone hstep => hinv.step halone hstep) halone hrun

/-- Daemons start and leave or are killed, and monitored processes start, in any order, but no
daemon starts while there is a queue of the name.  Then no two daemons share a queue, and every
thread has the queue of one of them.  A daemon, its queue and the threads of the processes that
opened it are as in a run of `System` of their own: whatever holds in every run of that holds of
each daemon and the threads beside it. -/
theorem daemons_apart (env : Env) (steps : List Step) {s : Host}
    (halone : Transition.Meets (step env) Alone init steps)
    (hrun : Transition.run (step env) init steps = some s) :
    (∀ (d : Nat) (daemon : Daemon), s.daemons[d]? = some daemon →
      (∀ (d' : Nat) (daemon' : Daemon), s.daemons[d']? = some daemon' →
        daemon'.queue = daemon.queue → d' = d) ∧
      ∃ queue taken t, s.queues[daemon.queue]? = some queue ∧
        Transition.run (System.step env) (.init daemon.configs) taken = some t ∧
        (s.view daemon.queue queue daemon.world).Refines env queue.maxmsg t) ∧
    ∀ m ∈ s.members, ∃ daemon ∈ s.daemons, daemon.queue = m.queue := by
  have hinv := run_inv halone hrun
  refine ⟨fun d daemon hd => ⟨fun d' daemon' hd' hqueue => ?_, ?_⟩, fun m hm => ?_⟩
  · rw [← hinv.own hd', hqueue, hinv.own hd]
  · have hlt : d < s.queues.length := by
      rw [hinv.made]
      exact (List.getElem?_eq_some_iff.1 hd).1
    have hqueue := List.getElem?_eq_getElem hlt
    obtain ⟨taken, t, ht, hrefines⟩ := (hinv.reached hd hqueue).refines
    rw [hinv.own hd]
    exact ⟨_, taken, t, hqueue, ht, hrefines⟩
  · obtain ⟨daemon, -, hd, hown, -, -⟩ := hinv.daemon (hinv.members m hm)
    exact ⟨daemon, List.mem_of_getElem? hd, hown⟩

/-- A process started beside the first daemon makes a thread when the second is running, and
another process starts beside that. -/
def twoDaemons : List Step :=
  [.start QueueWorld.stockKernel [cyclesGroup], .exec 5, .thread 0 .advance, .quit 0,
    .start QueueWorld.stockKernel [cyclesGroup], .create 0 6, .thread 1 .advance,
    .thread 1 .advance, .exec 7, .thread 2 .advance, .thread 2 .advance, .receive 1]

theorem daemons_apart_twoDaemons :
    ∃ s, Transition.run (step .steady) init twoDaemons = some s ∧ s.daemons.length = 2 ∧
      ∃ daemon taken t, s.daemons[1]? = some daemon ∧
        Transition.run (System.step .steady) (.init [cyclesGroup]) taken = some t ∧
        t.queue = [] ∧ t.threads.map (·.tid) = [7] := by
  obtain ⟨hdaemons, -⟩ := daemons_apart .steady twoDaemons (by decide) rfl
  obtain ⟨-, queue, taken, t, hqueue, ht, hrefines⟩ := hdaemons 1 _ rfl
  refine ⟨_, rfl, rfl, _, taken, t, rfl, ht, ?_, ?_⟩
  · obtain rfl := Option.some.inj hqueue
    exact List.map_eq_nil_iff.1 hrefines.messages.symm
  · rw [← hrefines.threads]
    rfl

theorem Inv.run_abandoned {d : Nat} {queue : MQueue} {later : List Step} (h : s.Inv env)
    (halone : Transition.Meets (Host.step env) Alone s later) (hstop : s.Abandoned d queue)
    (hrun : Transition.run (Host.step env) s later = some s') :
    s'.Inv env ∧ s'.Abandoned d queue := by
  refine Transition.meets_induction (P := fun _ s' => s'.Inv env ∧ s'.Abandoned d queue)
    ⟨h, hstop⟩ ?_ halone hrun
  rintro - u a u' ⟨hinv, hleft⟩ halone hstep
  exact ⟨hinv.step halone hstep, hleft.step hinv hstep⟩

/-- If no daemon starts while there is a queue of the name: once a daemon has stopped, nothing is
taken off its queue any more.  The threads on that queue go on as long as there is room for their
messages; once it is full it stays so, and a thread that has a message to send waits for ever. -/
theorem full_for_ever (env : Env) (steps later : List Step) {s s' : Host} {d : Nat}
    (halone : Transition.Meets (step env) Alone init steps)
    (hrun : Transition.run (step env) init steps = some s) (hstop : s.Stopped d)
    (hlater : Transition.Meets (step env) Alone s later)
    (hrun' : Transition.run (step env) s later = some s') :
    ∃ queue queue', s.queues[d]? = some queue ∧ s'.queues[d]? = some queue' ∧
      Grows queue queue' ∧
      (queue.messages.length = queue.maxmsg → queue'.messages = queue.messages) ∧
      ∀ i m action t, s'.members[i]? = some m → m.queue = d → m.thread.step action = some t →
        t.sent ≠ m.thread.sent →
        (s'.step env (.thread i action) = none ↔ queue'.messages.length = queue'.maxmsg) := by
  have hinv := run_inv halone hrun
  have hlt : d < s.queues.length := by
    obtain ⟨daemon, hd, -⟩ := hstop
    rw [hinv.made]
    exact (List.getElem?_eq_some_iff.1 hd).1
  have hqueue := List.getElem?_eq_getElem hlt
  obtain ⟨hinv', -, queue', hqueue', hgrows⟩ :=
    hinv.run_abandoned hlater ⟨hstop, _, hqueue, .refl _⟩ hrun'
  refine ⟨_, queue', hqueue, hqueue', hgrows, hgrows.eq_of_full, ?_⟩
  intro i m action t hm hon ht hsent
  rcases hinv'.thread_cases hm (hon ▸ hqueue') ht with
    ⟨heq, -⟩ | ⟨-, ⟨hroom, _, -, -, -, heq⟩ | ⟨hfull, heq⟩⟩
  · exact absurd heq hsent
  · rw [heq]
    simp only [reduceCtorEq, false_iff]
    omega
  · rw [heq]
    simp [hfull]

def smallKernel : MqKernel where
  refuse attr queue := if queue.isNone ∧ 1 < attr.mq_maxmsg then some EINVAL else none
  msgMax := some "1\n".toList

def leaving : List Step :=
  [.start smallKernel [cyclesGroup], .exec 5, .thread 0 .advance, .thread 0 .advance, .quit 0]

theorem full_for_ever_leaving :
    ∃ s s', Transition.run (step .steady) init leaving = some s ∧
      Transition.run (step .steady) s [.create 0 6, .thread 1 .advance] = some s' ∧
      s'.step .steady (.thread 1 .advance) = none := by
  obtain ⟨queue, queue', hqueue, -, hgrows, hfull, hwait⟩ :=
    full_for_ever .steady leaving [.create 0 6, .thread 1 .advance] (d := 0) (by decide) rfl
      ⟨_, rfl, rfl⟩ (by decide) rfl
  obtain rfl := Option.some.inj hqueue
  refine ⟨_, _, rfl, rfl, (hwait 1 _ .advance _ rfl rfl rfl (by decide)).2 ?_⟩
  rw [hfull rfl, hgrows.2]
  rfl

end Host

end Threadstat

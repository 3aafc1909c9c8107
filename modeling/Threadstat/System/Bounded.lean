import Threadstat.MQueue
import Threadstat.System

/-!
# The queue between them

`System` has a queue that takes any number of messages whole.  Here threads and daemon share the
queue the daemon has opened: it holds bytes, sorts them by priority and has room for so many
messages.  A thread whose `mq_send` finds no room waits in it, and one whose `mq_send` fails ends
its process.

The two have the same runs, up to those in which the queue of `System` outgrows the real one.
-/

namespace Threadstat

structure Bounded where
  threads : List Thread
  queue : MQueue
  world : World

namespace Bounded

def init (configs : List (NonEmpty (PerfConfig InternC))) (queue : MQueue) : Bounded where
  threads := []
  queue
  world := .new configs

def Running (s : Bounded) (tid : Pid) : Prop := ∃ t ∈ s.threads, t.pc ≠ .ended ∧ t.tid = tid

instance (s : Bounded) (tid : Pid) : Decidable (s.Running tid) :=
  inferInstanceAs (Decidable (∃ t ∈ s.threads, t.pc ≠ .ended ∧ t.tid = tid))

variable (env : Env)

/-- `mq_send(pid_message_queue, &msg, sizeof(struct message), 0)` on thread `i`, which is `t` before
it and `t'` after it. -/
def send (s : Bounded) (i : Nat) (t t' : Thread) (msg : Message) : Option Bounded :=
  match s.queue.mqSend ⟨0, msg.toBytes env.endian⟩ with
  | (.ok (), queue) => some { s with threads := s.threads.set i t', queue }
  | (.error e, _) =>
    if e = EAGAIN then none
    -- `exit(EXIT_FAILURE)`
    else some { s with threads := s.threads.set i { t with pc := .ended } }

def step (s : Bounded) : System.Step → Option Bounded
  | .spawn routine tid =>
    if s.Running tid then none else some { s with threads := s.threads ++ [.start routine tid] }
  | .thread i action => do
    let t ← s.threads[i]?
    let t' ← t.step action
    match t'.sent.drop t.sent.length with
    | [] => some { s with threads := s.threads.set i t' }
    | msg :: _ => s.send env i t t' msg
  | .kill i => do
    let t ← s.threads[i]?
    return { s with threads := s.threads.set i { t with pc := .ended } }
  | .receive => do
    let (answer, queue) ← s.queue.mqReceive Message.size
    return { s with queue, world := s.world.handle env (.receive answer) }
  | .other input =>
    if input.message? env.endian = none then some { s with world := s.world.handle env input }
    else none

/-! ## The step that both take -/

/-- The same threads and daemon, with the messages of the one queue as bytes in the other. -/
structure Refines (maxmsg : Nat) (s : Bounded) (t : System) : Prop where
  threads : s.threads = t.threads
  world : s.world = t.world
  messages : s.queue.messages = t.queue.map fun p => ⟨0, p.msg.toBytes env.endian⟩
  msgsize : s.queue.msgsize = Message.size
  maxmsg : s.queue.maxmsg = maxmsg

end Bounded

/-- A message stands after all that are as urgent, and all that threads send are. -/
theorem MQueue.insert_messages {q : MQueue} {m : QueuedMessage}
    (hdepth : q.messages.length < q.maxmsg) (hfits : m.text.length ≤ q.msgsize)
    (hpriority : ∀ m' ∈ q.messages, m.priority ≤ m'.priority) :
    (q.insert m hdepth hfits).messages = q.messages ++ [m] := by
  have hall : ∀ m' ∈ q.messages, decide (m.priority ≤ m'.priority) = true := fun m' hm' =>
    decide_eq_true (hpriority m' hm')
  simp only [MQueue.insert]
  rw [List.takeWhile_eq_self_iff.2 hall, List.dropWhile_eq_nil_iff.2 hall]

theorem QueueWorld.new_fresh {k : MqKernel} {before : Option MQueue} {queue : MQueue}
    (hnew : MQueueReader.new k Message.size before = .ok queue)
    (hbefore : ∀ old, before = some old → old.msgsize = Message.size ∧ old.messages = []) :
    queue.msgsize = Message.size ∧ queue.messages = [] := by
  have hopen : ∀ maxmsg, MQueueReader.open k Message.size maxmsg before = .ok queue →
      queue.msgsize = Message.size ∧ queue.messages = [] := by
    intro maxmsg h
    unfold MQueueReader.open MqKernel.mqOpen MQueue.create at h
    split at h
    · cases h
    · split at h
      · next old _ =>
        obtain rfl : old = queue := Except.ok.inj h
        exact hbefore old rfl
      · split at h
        · obtain rfl := Except.ok.inj h
          exact ⟨rfl, rfl⟩
        · cases h
  unfold MQueueReader.new at hnew
  split at hnew
  · split at hnew
    · exact hopen _ hnew
    · cases hnew
  · next heq => exact hopen _ (heq.trans hnew)

namespace Bounded

variable {env : Env} {maxmsg : Nat} {s : Bounded} {t : System}

theorem Refines.length (h : s.Refines env maxmsg t) :
    t.queue.length = s.queue.messages.length := by
  rw [h.messages, List.length_map]

theorem Refines.room (h : s.Refines env maxmsg t) : t.queue.length ≤ maxmsg := by
  rw [h.length, ← h.maxmsg]
  exact s.queue.depth

/-- One more message goes behind the others, if there is room for it. -/
theorem Refines.mqSend (h : s.Refines env maxmsg t) (msg : Message) :
    (t.queue.length < maxmsg → ∃ queue,
      s.queue.mqSend ⟨0, msg.toBytes env.endian⟩ = (.ok (), queue) ∧
      queue.messages = s.queue.messages ++ [⟨0, msg.toBytes env.endian⟩] ∧
      queue.msgsize = Message.size ∧ queue.maxmsg = maxmsg) ∧
    (maxmsg ≤ t.queue.length →
      s.queue.mqSend ⟨0, msg.toBytes env.endian⟩ = (.error EAGAIN, s.queue)) := by
  have hfits : (msg.toBytes env.endian).length ≤ s.queue.msgsize := by
    rw [h.msgsize, Message.length_toBytes]
  rw [h.length, ← h.maxmsg]
  constructor
  · intro hdepth
    refine ⟨s.queue.insert ⟨0, msg.toBytes env.endian⟩ hdepth hfits, ?_, ?_, h.msgsize, rfl⟩
    · rw [MQueue.mqSend, dif_pos hfits, dif_pos hdepth]
    · exact MQueue.insert_messages hdepth hfits fun _ _ => Nat.zero_le _
  · intro hfull
    rw [MQueue.mqSend, dif_pos hfits, dif_neg (by omega)]

/-- What a step may do on one side it may do on the other, unless there is no room. -/
def Matches (env : Env) (maxmsg : Nat) (s' : Option Bounded) : Option System → Prop
  | none => s' = none
  | some t' =>
    if t'.queue.length ≤ maxmsg then ∃ u, s' = some u ∧ u.Refines env maxmsg t' else s' = none

theorem Matches.of_some {s' : Bounded} {t' : Option System}
    (h : Matches env maxmsg (some s') t') :
    ∃ u, t' = some u ∧ u.queue.length ≤ maxmsg ∧ s'.Refines env maxmsg u := by
  cases t' with
  | none => cases h
  | some u =>
      rw [Matches] at h
      split at h
      · next hroom =>
        obtain ⟨s'', heq, hrefines⟩ := h
        obtain rfl := Option.some.inj heq
        exact ⟨u, rfl, hroom, hrefines⟩
      · cases h

theorem Refines.thread (h : s.Refines env maxmsg t) (i : Nat) (action : Thread.Action) :
    Matches env maxmsg (s.step env (.thread i action)) (t.step env (.thread i action)) := by
  simp only [Bounded.step, System.step, h.threads]
  cases hi : t.threads[i]? with
  | none => rfl
  | some u =>
      cases hu : u.step action with
      | none =>
          simp only [Option.bind_eq_bind, Option.bind_some, hu]
          rfl
      | some u' =>
          simp only [Option.bind_eq_bind, Option.bind_some, hu]
          rcases (Thread.step_frame hu).2.2 with hsent | hsent
          · have hdrop : u'.sent.drop u.sent.length = [] := by simp [hsent]
            simp only [hdrop, List.map_nil, List.append_nil]
            refine (if_pos h.room).mpr ⟨_, rfl, ?_⟩
            exact ⟨rfl, h.world, h.messages, h.msgsize, h.maxmsg⟩
          · have hdrop : u'.sent.drop u.sent.length = [u.msg] := by simp [hsent]
            simp only [hdrop, Bounded.send]
            obtain ⟨hroom, hfull⟩ := h.mqSend u.msg
            rcases Nat.lt_or_ge t.queue.length maxmsg with hlt | hge
            · obtain ⟨queue, hsend, hmessages, hmsgsize, hmaxmsg⟩ := hroom hlt
              rw [hsend]
              refine (if_pos ?_).mpr ⟨_, rfl, ?_⟩
              · simpa using hlt
              · refine ⟨?_, h.world, by simp [hmessages, h.messages], hmsgsize, hmaxmsg⟩
                simp only [h.threads]
            · rw [hfull hge]
              refine (if_neg ?_).mpr rfl
              simpa using hge

theorem Refines.receive (h : s.Refines env maxmsg t) :
    Matches env maxmsg (s.step env .receive) (t.step env .receive) := by
  have hmessages := h.messages
  cases hqueue : t.queue with
  | nil =>
      rw [hqueue] at hmessages
      simp [Bounded.step, System.step, hqueue, MQueue.mqReceive, h.msgsize, hmessages, Matches]
  | cons posted queue =>
      rw [hqueue, List.map_cons] at hmessages
      have hlen : queue.length ≤ maxmsg := by
        have := h.room
        rw [hqueue, List.length_cons] at this
        omega
      simp only [Bounded.step, System.step, hqueue,
        MQueue.mqReceive_fits h.msgsize.le hmessages]
      refine (if_pos hlen).mpr ⟨_, rfl, h.threads, ?_, ?_, h.msgsize, h.maxmsg⟩
      · rw [h.world]
      · simp [MQueue.dropHead, hmessages]

theorem Refines.step (h : s.Refines env maxmsg t) (a : System.Step) :
    Matches env maxmsg (s.step env a) (t.step env a) := by
  cases a with
  | spawn routine tid =>
      have hrunning : s.Running tid ↔ t.Running tid := by
        rw [Running, System.Running, h.threads]
      by_cases hrun : t.Running tid
      · simp [Bounded.step, System.step, hrunning, hrun, Matches]
      · simp only [Bounded.step, System.step, hrunning, hrun, if_false]
        refine (if_pos h.room).mpr ⟨_, rfl, ?_, h.world, h.messages, h.msgsize, h.maxmsg⟩
        rw [h.threads]
  | thread i action => exact h.thread i action
  | kill i =>
      simp only [Bounded.step, System.step, h.threads]
      cases hi : t.threads[i]? with
      | none => rfl
      | some u =>
          refine (if_pos h.room).mpr ⟨_, rfl, ?_⟩
          exact ⟨rfl, h.world, h.messages, h.msgsize, h.maxmsg⟩
  | receive => exact h.receive
  | other input =>
      by_cases hinput : input.message? env.endian = none
      · simp only [Bounded.step, System.step, hinput, if_true]
        refine (if_pos h.room).mpr ⟨_, rfl, h.threads, ?_, h.messages, h.msgsize, h.maxmsg⟩
        rw [h.world]
      · simp [Bounded.step, System.step, hinput, Matches]

variable (env) in
theorem thread_room {i : Nat} {u u' : Thread} {action : Thread.Action}
    (hu : t.threads[i]? = some u) (hu' : u.step action = some u') :
    ∃ t', t.step env (.thread i action) = some t' ∧ t'.queue.length ≤ t.queue.length + 1 := by
  simp only [System.step, hu, Option.bind_eq_bind, Option.bind_some, hu']
  refine ⟨_, rfl, ?_⟩
  rcases (Thread.step_frame hu').2.2 with hsent | hsent <;> simp [hsent]

/-- A thread that waits for room waits for the daemon only. -/
theorem Refines.wait (h : s.Refines env maxmsg t) {i : Nat} {u u' : Thread}
    {action : Thread.Action} (hu : s.threads[i]? = some u) (hu' : u.step action = some u')
    (hwait : s.step env (.thread i action) = none) :
    ∃ s₁ s₂, s.step env .receive = some s₁ ∧ s₁.step env (.thread i action) = some s₂ := by
  have hroom := h.room
  have hti : t.threads[i]? = some u := h.threads ▸ hu
  obtain ⟨t', ht', hlen⟩ := thread_room env hti hu'
  -- The step is refused for want of room, so there is a message to be taken.
  have hfull : maxmsg < t'.queue.length := by
    by_contra hfits
    have hmatch := h.thread i action
    rw [ht', hwait, Matches, if_pos (by omega)] at hmatch
    obtain ⟨_, hcontra, -⟩ := hmatch
    cases hcontra
  have hpos := s.queue.maxmsg_pos
  rw [h.maxmsg] at hpos
  obtain ⟨posted, queue, hqueue⟩ : ∃ posted queue, t.queue = posted :: queue :=
    List.exists_cons_of_ne_nil fun hnil => by
      rw [hnil, List.length_nil] at hlen
      omega
  rw [hqueue, List.length_cons] at hroom
  -- After that the same step has room.
  obtain ⟨t₁, ht₁, hthreads, hqueue₁⟩ : ∃ t₁, t.step env .receive = some t₁ ∧
      t₁.threads = t.threads ∧ t₁.queue = queue := by
    simp only [System.step, hqueue]
    exact ⟨_, rfl, rfl, rfl⟩
  have hmatch₁ := h.receive
  rw [ht₁, Matches, if_pos (by rw [hqueue₁]; omega)] at hmatch₁
  obtain ⟨s₁, hs₁, h₁⟩ := hmatch₁
  obtain ⟨t₂, ht₂, hlen₂⟩ := thread_room env (hthreads ▸ hti) hu'
  have hmatch₂ := h₁.thread i action
  rw [ht₂, Matches, if_pos (by rw [hqueue₁] at hlen₂; omega)] at hmatch₂
  obtain ⟨s₂, hs₂, -⟩ := hmatch₂
  exact ⟨s₁, s₂, hs₁, hs₂⟩

end Bounded

/-! ## Whole runs -/

def System.Room (env : Env) (maxmsg : Nat) (t : System) (a : System.Step) : Prop :=
  ∀ t' ∈ t.step env a, t'.queue.length ≤ maxmsg

namespace Bounded

variable {env : Env} {maxmsg : Nat} {configs : List (NonEmpty (PerfConfig InternC))}
  {queue : MQueue} {steps : List System.Step}

theorem init_refines (hmsgsize : queue.msgsize = Message.size) (hmessages : queue.messages = []) :
    (init configs queue).Refines env queue.maxmsg (.init configs) where
  threads := rfl
  world := rfl
  messages := hmessages
  msgsize := hmsgsize
  maxmsg := rfl

/-- Every run over the real queue is a run of the system whose queue never gets longer. -/
theorem run_refines {s s' : Bounded} {t : System} (h : s.Refines env maxmsg t)
    (hrun : Transition.run (step env) s steps = some s') :
    Transition.Meets (System.step env) (System.Room env maxmsg) t steps ∧
      ∃ t', Transition.run (System.step env) t steps = some t' ∧ s'.Refines env maxmsg t' := by
  have hstep : ∀ (s : Bounded) (t : System) a s', s.Refines env maxmsg t → True →
      s.step env a = some s' →
      System.Room env maxmsg t a ∧ ∃ t', t.step env a = some t' ∧ s'.Refines env maxmsg t' := by
    intro s t a s' h _ hs
    obtain ⟨t', ht', hroom, hrefines⟩ := (hs ▸ h.step a).of_some
    refine ⟨fun t'' ht'' => ?_, t', ht', hrefines⟩
    obtain rfl : t' = t'' := Option.some.inj (ht'.symm.trans ht'')
    exact hroom
  exact Transition.meets_simulation (R := fun s t => Refines env maxmsg s t) hstep h
    (fun _ _ _ _ _ _ => trivial) hrun

/-- Every run of the system whose queue never gets longer is one over the real queue. -/
theorem run_of_room {s : Bounded} {t t' : System} (h : s.Refines env maxmsg t)
    (hroom : Transition.Meets (System.step env) (System.Room env maxmsg) t steps)
    (hrun : Transition.run (System.step env) t steps = some t') :
    ∃ s', Transition.run (step env) s steps = some s' := by
  have hstep : ∀ (t : System) (s : Bounded) a t', s.Refines env maxmsg t →
      System.Room env maxmsg t a → t.step env a = some t' →
      True ∧ ∃ s', s.step env a = some s' ∧ s'.Refines env maxmsg t' := by
    intro t s a t' h hroom ht
    have hmatch := h.step a
    rw [ht, Matches, if_pos (hroom t' ht)] at hmatch
    exact ⟨trivial, hmatch⟩
  obtain ⟨-, s', hs', -⟩ := Transition.meets_simulation
    (R := fun t s => Refines env maxmsg s t) hstep h hroom hrun
  exact ⟨s', hs'⟩

/-- The daemon makes its queue as it starts, or finds one that is empty and for messages of the same
size.  The runs over that queue are the runs of `System` in which the queue never holds more than
`maxmsg` messages.  They end with the same threads and the same daemon, so no `mq_send` has failed,
and with the same messages in the same order.  A thread that waits in `mq_send` can go on once the
daemon has taken a message, and the daemon can take one. -/
theorem bounded_runs (env : Env) (configs : List (NonEmpty (PerfConfig InternC))) (k : MqKernel)
    {before : Option MQueue} {queue : MQueue}
    (hnew : MQueueReader.new k Message.size before = .ok queue)
    (hbefore : ∀ old, before = some old → old.msgsize = Message.size ∧ old.messages = [])
    (steps : List System.Step) :
    ((Transition.run (step env) (init configs queue) steps).isSome ↔
      (Transition.run (System.step env) (.init configs) steps).isSome ∧
        Transition.Meets (System.step env) (System.Room env queue.maxmsg) (.init configs) steps) ∧
    ∀ s, Transition.run (step env) (init configs queue) steps = some s →
      (∃ t, Transition.run (System.step env) (.init configs) steps = some t ∧
        s.Refines env queue.maxmsg t) ∧
      ∀ i u action u', s.threads[i]? = some u → u.step action = some u' →
        s.step env (.thread i action) = none →
        ∃ s₁ s₂, s.step env .receive = some s₁ ∧ s₁.step env (.thread i action) = some s₂ := by
  obtain ⟨hmsgsize, hmessages⟩ := QueueWorld.new_fresh hnew hbefore
  have hinit : (init configs queue).Refines env queue.maxmsg (.init configs) :=
    init_refines hmsgsize hmessages
  refine ⟨⟨fun hsome => ?_, fun ⟨hsome, hroom⟩ => ?_⟩, fun s hrun => ?_⟩
  · obtain ⟨s, hs⟩ := Option.isSome_iff_exists.1 hsome
    obtain ⟨hroom, t, ht, -⟩ := run_refines hinit hs
    exact ⟨by rw [ht]; rfl, hroom⟩
  · obtain ⟨t, ht⟩ := Option.isSome_iff_exists.1 hsome
    obtain ⟨s, hs⟩ := run_of_room hinit hroom ht
    rw [hs]
    rfl
  · obtain ⟨-, t, ht, hrefines⟩ := run_refines hinit hrun
    exact ⟨⟨t, ht, hrefines⟩, fun i u action u' hu hu' hwait => hrefines.wait hu hu' hwait⟩

def oneMessage : MQueue :=
  { QueueWorld.freshQueue with
    maxmsg := 1
    maxmsg_pos := by decide
    depth := by decide }

/-- The second thread comes to its `mq_send` while the message of the first is in the queue. -/
def crowded : List System.Step :=
  [.spawn .wrapper 5, .spawn .wrapper 6, .thread 0 .advance, .thread 0 .advance,
    .thread 1 .advance]

theorem bounded_runs_crowded :
    ∃ s, Transition.run (step .steady) (init [cyclesGroup] oneMessage) crowded = some s ∧
      s.step .steady (.thread 1 .advance) = none ∧
      ∃ s₁ s₂, s.step .steady .receive = some s₁ ∧
        s₁.step .steady (.thread 1 .advance) = some s₂ := by
  have hnew : MQueueReader.new QueueWorld.stockKernel Message.size (some oneMessage) =
      .ok oneMessage := rfl
  obtain ⟨-, hruns⟩ := bounded_runs .steady [cyclesGroup] QueueWorld.stockKernel hnew
    (fun old hold => Option.some.inj hold ▸ ⟨rfl, rfl⟩) crowded
  obtain ⟨-, hwait⟩ := hruns _ rfl
  exact ⟨_, rfl, rfl, hwait 1 _ .advance _ rfl rfl rfl⟩

end Bounded

end Threadstat

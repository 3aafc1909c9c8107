import Threadstat.Handlers
import Threadstat.Parse
import Threadstat.State.Steady

/-!
# The message queue

The daemon opens its queue by name and takes one message for each time the poller says that there is
one.  A queue that already has the name is opened as it is, with the attributes it was created
with; what the daemon asks for only matters for a queue it creates.  Afterwards any process may
send to the queue and receive from it.
-/

namespace Threadstat

open CsvText

def EINVAL : IoError := .os 22
def EMSGSIZE : IoError := .os 90
def EAGAIN : IoError := .os 11

def IoError.isInvalidInput (e : IoError) : Bool := e = EINVAL

/-- The fields of `struct mq_attr` that `mq_open` reads. -/
structure MqAttr where
  mq_maxmsg : Int
  mq_msgsize : Int

structure QueuedMessage where
  priority : Nat
  text : List UInt8
  deriving DecidableEq

/-- A message queue in the kernel; the head is what is received next. -/
structure MQueue where
  msgsize : Nat
  maxmsg : Nat
  messages : List QueuedMessage
  maxmsg_pos : 0 < maxmsg
  depth : messages.length ≤ maxmsg
  fits : ∀ m ∈ messages, m.text.length ≤ msgsize

namespace MQueue

def create (attr : MqAttr) : Except IoError MQueue :=
  if h : 0 < attr.mq_maxmsg ∧ 0 < attr.mq_msgsize then
    .ok
      { msgsize := attr.mq_msgsize.toNat
        maxmsg := attr.mq_maxmsg.toNat
        messages := []
        maxmsg_pos := by omega
        depth := by simp
        fits := by simp }
  else .error EINVAL

def dropHead (q : MQueue) : MQueue :=
  { q with
    messages := q.messages.tail
    depth := by
      have h := q.depth
      rw [List.length_tail]
      omega
    fits := fun m hm => q.fits m (List.mem_of_mem_tail hm) }

/-- The message stands after all of at least its priority. -/
def insert (m : QueuedMessage) (q : MQueue) (hdepth : q.messages.length < q.maxmsg)
    (hfits : m.text.length ≤ q.msgsize) : MQueue :=
  { q with
    messages := q.messages.takeWhile (m.priority ≤ ·.priority) ++
      m :: q.messages.dropWhile (m.priority ≤ ·.priority)
    depth := by
      have h := congrArg List.length
        (List.takeWhile_append_dropWhile (p := (m.priority ≤ ·.priority)) (l := q.messages))
      simp only [List.length_append, List.length_cons] at h ⊢
      omega
    fits := by
      intro m' hm'
      rcases List.mem_append.1 hm' with hm' | hm'
      · exact q.fits m' ((List.takeWhile_prefix _).subset hm')
      · rcases List.mem_cons.1 hm' with rfl | hm'
        · exact hfits
        · exact q.fits m' ((List.dropWhile_suffix _).subset hm') }

/-- `mq_send`; a sender that would wait for room sends nothing. -/
def mqSend (m : QueuedMessage) (q : MQueue) : Except IoError Unit × MQueue :=
  if hfits : m.text.length ≤ q.msgsize then
    if hdepth : q.messages.length < q.maxmsg then (.ok (), q.insert m hdepth hfits)
    else (.error EAGAIN, q)
  else (.error EMSGSIZE, q)

/-- `mq_receive` into a buffer of `len` bytes; nothing as long as it waits for a message. -/
def mqReceive (len : Nat) (q : MQueue) : Option (Except IoError (List UInt8) × MQueue) :=
  if len < q.msgsize then some (.error EMSGSIZE, q)
  else q.messages.head?.map fun m => (.ok m.text, q.dropHead)

end MQueue

/-! ## Opening the queue -/

/-- What the kernel says about the queue's name: which openings it refuses, and the text of
`/proc/sys/fs/mqueue/msg_max` if that can be read. -/
structure MqKernel where
  refuse : MqAttr → Option MQueue → Option IoError
  msgMax : Option Str

def MqKernel.mqOpen (k : MqKernel) (attr : MqAttr) (queue : Option MQueue) :
    Except IoError MQueue :=
  match k.refuse attr queue with
  | some e => .error e
  | none =>
    match queue with
    | some queue => .ok queue
    | none => MQueue.create attr

def DESIRED_MAXMSG : Int := 50

def parseI64 (s : Str) : Option Int :=
  (parseSigned s).filter fun z => -(2 ^ 63) ≤ z ∧ z < 2 ^ 63

def kernelMaxmsgLimit (k : MqKernel) : Int :=
  (k.msgMax.bind fun s => parseI64 (trim s)).getD 10

namespace MQueueReader

/-- `open`, where `size` is `size_of::<T>()`. -/
def «open» (k : MqKernel) (size : Nat) (maxmsg : Int) (queue : Option MQueue) :
    Except IoError MQueue :=
  k.mqOpen ⟨maxmsg, size⟩ queue

def new (k : MqKernel) (size : Nat) (queue : Option MQueue) : Except IoError MQueue :=
  match MQueueReader.open k size DESIRED_MAXMSG queue with
  | .error e =>
    if e.isInvalidInput then MQueueReader.open k size (kernelMaxmsgLimit k) queue else .error e
  | .ok queue => .ok queue

end MQueueReader

/-! ## The open queue -/

structure QueueWorld where
  queue : MQueue
  state : World

inductive QueueStep where
  | send (m : QueuedMessage)
  | receive (len : Nat)
  | dispatch

namespace QueueWorld

variable (env : Env)

/-- `queue_handler` on the open queue, unless it waits for a message. -/
def dispatch (s : QueueWorld) : Option (Except IoError PollAction × QueueWorld) :=
  (s.queue.mqReceive Message.size).map fun r =>
    ((queueHandler env r.1 s.state).1, ⟨r.2, (queueHandler env r.1 s.state).2⟩)

def step (s : QueueWorld) : QueueStep → QueueWorld
  | .send m => { s with queue := (s.queue.mqSend m).2 }
  | .receive len => { s with queue := ((s.queue.mqReceive len).map Prod.snd).getD s.queue }
  | .dispatch => ((s.dispatch env).map Prod.snd).getD s

def run : QueueWorld → List QueueStep → QueueWorld
  | s, [] => s
  | s, step :: steps => run (s.step env step) steps

/-- A dispatch on a queue that is not empty takes exactly its head off, hands that to the reader and
answers `Continue`. -/
def Progress (s : QueueWorld) : Prop :=
  ∀ m rest, s.queue.messages = m :: rest →
    s.dispatch env =
      some (.ok .Continue, ⟨s.queue.dropHead, (queueHandler env (.ok m.text) s.state).2⟩)

end QueueWorld

theorem queueHandler_continue (env : Env) (answer : Except IoError (List UInt8)) (w : World) :
    (queueHandler env answer w).1 = .ok .Continue := by
  unfold queueHandler
  split
  · split
    · split <;> rfl
    · rfl
  · rfl

namespace MQueue

theorem mqReceive_fits {q : MQueue} {len : Nat} (hlen : q.msgsize ≤ len) {m : QueuedMessage}
    {rest : List QueuedMessage} (hm : q.messages = m :: rest) :
    q.mqReceive len = some (.ok m.text, q.dropHead) := by
  rw [mqReceive, if_neg (by omega), hm]
  rfl

theorem mqReceive_small {q : MQueue} {len : Nat} (hlen : len < q.msgsize) :
    q.mqReceive len = some (.error EMSGSIZE, q) := if_pos hlen

theorem mqReceive_msgsize {q q' : MQueue} {len : Nat} {answer : Except IoError (List UInt8)}
    (h : q.mqReceive len = some (answer, q')) : q'.msgsize = q.msgsize := by
  unfold mqReceive at h
  split at h
  · cases h
    rfl
  · obtain ⟨m, -, heq⟩ := Option.map_eq_some_iff.1 h
    cases heq
    rfl

theorem mqSend_msgsize (m : QueuedMessage) (q : MQueue) : (q.mqSend m).2.msgsize = q.msgsize := by
  unfold mqSend
  split
  · split <;> rfl
  · rfl

end MQueue

namespace QueueWorld

variable {env : Env}

theorem dispatch_eq (s : QueueWorld) :
    s.dispatch env = (s.queue.mqReceive Message.size).map fun r =>
      (.ok .Continue, ⟨r.2, (queueHandler env r.1 s.state).2⟩) := by
  simp only [dispatch, queueHandler_continue]

theorem step_msgsize (s : QueueWorld) (step : QueueStep) :
    (s.step env step).queue.msgsize = s.queue.msgsize := by
  cases step with
  | send m => exact MQueue.mqSend_msgsize m s.queue
  | receive len =>
      rw [QueueWorld.step]
      cases hreceive : s.queue.mqReceive len with
      | none => rfl
      | some r => exact MQueue.mqReceive_msgsize hreceive
  | dispatch =>
      rw [QueueWorld.step, dispatch_eq]
      cases hreceive : s.queue.mqReceive Message.size with
      | none => rfl
      | some r => exact MQueue.mqReceive_msgsize hreceive

theorem run_msgsize (s : QueueWorld) (steps : List QueueStep) :
    (s.run env steps).queue.msgsize = s.queue.msgsize := by
  induction steps generalizing s with
  | nil => rfl
  | cons step steps ih =>
      rw [run, ih]
      exact s.step_msgsize step

theorem progress_of_fits {s : QueueWorld} (h : s.queue.msgsize ≤ Message.size) :
    s.Progress env := by
  intro m rest hm
  rw [dispatch_eq, MQueue.mqReceive_fits h hm]
  rfl

/-- A message that does not fit the buffer is not taken off, whatever it is. -/
theorem dispatch_stuck {s : QueueWorld} (h : Message.size < s.queue.msgsize) :
    s.dispatch env = some (.ok .Continue, s) := by
  rw [dispatch_eq, MQueue.mqReceive_small h]
  rfl

variable (env) in
theorem exists_nonempty (s : QueueWorld) :
    ∃ steps, (s.run env steps).queue.messages ≠ [] := by
  by_cases hempty : s.queue.messages = []
  · refine ⟨[.send ⟨0, []⟩], ?_⟩
    have hpos := s.queue.maxmsg_pos
    simp [run, step, MQueue.mqSend, hempty, hpos, MQueue.insert]
  · exact ⟨[], hempty⟩

theorem progress_iff (s : QueueWorld) :
    (∀ steps, (s.run env steps).Progress env) ↔ s.queue.msgsize ≤ Message.size := by
  constructor
  · intro h
    by_contra hlarge
    obtain ⟨steps, hsteps⟩ := s.exists_nonempty env
    obtain ⟨m, rest, hm⟩ := List.exists_cons_of_ne_nil hsteps
    have hstuck : (s.run env steps).dispatch env = some (.ok .Continue, s.run env steps) := by
      apply dispatch_stuck
      rw [run_msgsize]
      omega
    have hprogress := h steps m rest hm
    rw [hstuck] at hprogress
    have hqueue := congrArg (fun r => (r.map fun r => r.2.queue.messages.length)) hprogress
    simp [MQueue.dropHead, hm] at hqueue
  · intro h steps
    apply progress_of_fits
    rw [run_msgsize]
    exact h

theorem mqOpen_msgsize {k : MqKernel} {attr : MqAttr} {before : Option MQueue} {queue : MQueue}
    (h : k.mqOpen attr before = .ok queue) :
    before = some queue ∨ before = none ∧ queue.msgsize = attr.mq_msgsize.toNat := by
  unfold MqKernel.mqOpen at h
  split at h
  · cases h
  · split at h
    · cases h
      exact .inl rfl
    · right
      unfold MQueue.create at h
      split at h
      · cases h
        exact ⟨rfl, rfl⟩
      · cases h

theorem new_msgsize {k : MqKernel} {size : Nat} {before : Option MQueue} {queue : MQueue}
    (h : MQueueReader.new k size before = .ok queue) :
    before = some queue ∨ before = none ∧ queue.msgsize = size := by
  have hopen : ∀ maxmsg, MQueueReader.open k size maxmsg before = .ok queue →
      before = some queue ∨ before = none ∧ queue.msgsize = size :=
    fun maxmsg h => mqOpen_msgsize h
  unfold MQueueReader.new at h
  split at h
  · split at h
    · exact hopen _ h
    · cases h
  · next heq =>
    cases h
    exact hopen _ heq

/-- For every state of the named queue with which the daemon starts: every later dispatch on a
queue that is not empty takes exactly the message at its head off exactly if there was no queue or
its messages fit the buffer. -/
theorem dispatch_progress_iff (k : MqKernel) (env : Env) (w : World) {before : Option MQueue}
    {queue : MQueue} (hnew : MQueueReader.new k Message.size before = .ok queue) :
    (∀ steps, ((⟨queue, w⟩ : QueueWorld).run env steps).Progress env) ↔
      ∀ old, before = some old → old.msgsize ≤ Message.size := by
  rw [progress_iff]
  rcases new_msgsize hnew with rfl | ⟨rfl, hsize⟩
  · constructor
    · rintro h old heq
      rw [← Option.some.inj heq]
      exact h
    · intro h
      exact h queue rfl
  · simp [hsize]

def stockKernel : MqKernel where
  refuse attr queue := if queue.isNone ∧ 10 < attr.mq_maxmsg then some EINVAL else none
  msgMax := some "10\n".toList

def freshQueue : MQueue where
  msgsize := 8
  maxmsg := 10
  messages := []
  maxmsg_pos := by decide
  depth := by decide
  fits := by simp

/-- The first attempt is too deep for the kernel, and the second creates the queue. -/
theorem dispatch_progress_fresh :
    MQueueReader.new stockKernel Message.size none = .ok freshQueue ∧
      ∀ steps, ((⟨freshQueue, .new []⟩ : QueueWorld).run Env.steady steps).Progress
        Env.steady := by
  have hnew : MQueueReader.new stockKernel Message.size none = .ok freshQueue := by rfl
  exact ⟨hnew, (dispatch_progress_iff stockKernel Env.steady (.new []) hnew).2 (by simp)⟩

def leftover : MQueue where
  msgsize := 16
  maxmsg := 10
  messages := [⟨0, List.replicate 16 0⟩]
  maxmsg_pos := by decide
  depth := by decide
  fits := by decide

/-- The daemon opens the queue, and its handler changes nothing and asks to go on. -/
theorem leftover_never_taken :
    MQueueReader.new stockKernel Message.size (some leftover) = .ok leftover ∧
      (⟨leftover, .new []⟩ : QueueWorld).dispatch Env.steady =
        some (.ok .Continue, ⟨leftover, .new []⟩) ∧
      ¬ ∀ steps, ((⟨leftover, .new []⟩ : QueueWorld).run Env.steady steps).Progress
        Env.steady := by
  refine ⟨by rfl, dispatch_stuck (by decide), ?_⟩
  rw [progress_iff]
  decide

end QueueWorld

end Threadstat

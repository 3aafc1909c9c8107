import Threadstat.Lib.Transition
import Threadstat.Handlers

/-!
# The wrapper library

What the preloaded library does on one thread.  A main thread announces itself in `constructor`;
a thread made by the interposed `pthread_create` runs `wrapper` around its own function.  The
thread's function is arbitrary code: it may push and pop handlers of its own, change its
cancellation state, call `pthread_exit`, and reach any number of cancellation points.
-/

namespace Threadstat

/-- An entry on a thread's stack of cleanup handlers: `cleanup_handler` with the address of
`wrapper`'s message, or one pushed by the thread's function. -/
inductive Handler where
  | cleanupHandler
  | own
  deriving DecidableEq, Repr

inductive Routine where
  | constructor
  | wrapper
  deriving DecidableEq, Repr

inductive Pc where
  /-- Before the message is filled in. -/
  | entry
  /-- In the `mq_send` of the ADD. -/
  | sendAdd
  /-- At `pthread_cleanup_push`. -/
  | push
  /-- In the thread's function, or in `main`. -/
  | func
  /-- At `pthread_cleanup_pop(1)`. -/
  | pop
  /-- In the `mq_send` of `cleanup_handler`, called by `pthread_cleanup_pop`. -/
  | popSend
  /-- At the `return` of `wrapper`. -/
  | ret
  /-- Between two cleanup handlers of a thread that is exiting. -/
  | unwind
  /-- In the `mq_send` of `cleanup_handler`, called because the thread is exiting. -/
  | unwindSend
  | ended
  deriving DecidableEq, Repr

structure Thread where
  routine : Routine
  /-- What `gettid` returns. -/
  tid : Pid
  pc : Pc
  /-- The local variable `msg`. -/
  msg : Message
  /-- Cleanup handlers, the last pushed first. -/
  handlers : List Handler
  cancelEnabled : Bool
  /-- A cancellation request has arrived. -/
  pending : Bool
  /-- `pthread_exit` or a cancellation is under way, so no further request is acted on. -/
  exiting : Bool
  /-- The messages this thread has put in the queue. -/
  sent : List Message
  deriving DecidableEq

namespace Thread

inductive Action where
  /-- The thread goes on: an `mq_send` succeeds, a function returns. -/
  | advance
  /-- A cancellation request arrives. -/
  | request
  /-- A cancellation request is acted on. -/
  | act
  /-- `pthread_exit`. -/
  | exit
  | setCancelState (enabled : Bool)
  | pushOwn
  | popOwn
  deriving DecidableEq, Repr

/-- A new thread; its `msg` is filled in before it is read. -/
def start (routine : Routine) (tid : Pid) : Thread where
  routine
  tid
  pc := .entry
  msg := ⟨0, 0⟩
  handlers := []
  cancelEnabled := true
  pending := false
  exiting := false
  sent := []

def addMessage (tid : Pid) : Message := ⟨tid, MESSAGE_FLAG_ADD_PROCESS⟩
def removeMessage (tid : Pid) : Message := ⟨tid, MESSAGE_FLAG_REMOVE_PROCESS⟩

def mqSend (t : Thread) : Thread := { t with sent := t.sent ++ [t.msg] }

def atCancellationPoint (t : Thread) : Bool :=
  t.pc = .sendAdd || t.pc = .func || t.pc = .popSend || t.pc = .unwindSend

def advance (t : Thread) : Option Thread :=
  match t.pc with
  | .entry => some { t with msg := addMessage t.tid, pc := .sendAdd }
  | .sendAdd =>
    match t.routine with
    | .constructor => some { t.mqSend with pc := .func }
    | .wrapper => some { t.mqSend with pc := .push }
  | .push =>
    some { t with
      msg := { t.msg with flags := MESSAGE_FLAG_REMOVE_PROCESS }
      handlers := .cleanupHandler :: t.handlers
      pc := .func }
  | .func =>
    match t.handlers, t.routine with
    | .own :: _, _ => none
    | _, .constructor => some { t with pc := .ended }
    | _, .wrapper => some { t with pc := .pop }
  -- The handler leaves the stack before it runs.
  | .pop => some { t with handlers := t.handlers.tail, pc := .popSend }
  | .popSend => some { t.mqSend with pc := .ret }
  | .ret => some { t with exiting := true, pc := .unwind }
  | .unwind =>
    match t.handlers with
    | [] => some { t with pc := .ended }
    | .own :: handlers => some { t with handlers }
    | .cleanupHandler :: handlers => some { t with handlers, pc := .unwindSend }
  | .unwindSend => some { t.mqSend with pc := .unwind }
  | .ended => none

def step (t : Thread) : Action → Option Thread
  | .advance => t.advance
  | .request => some { t with pending := true }
  | .act =>
    if t.atCancellationPoint && t.pending && t.cancelEnabled && !t.exiting then
      some { t with exiting := true, pc := .unwind }
    else none
  | .exit => if t.pc = .func then some { t with exiting := true, pc := .unwind } else none
  | .setCancelState cancelEnabled =>
    if t.pc = .func then some { t with cancelEnabled } else none
  | .pushOwn =>
    if t.pc = .func then some { t with handlers := .own :: t.handlers } else none
  | .popOwn =>
    if t.pc = .func then
      match t.handlers with
      | .own :: handlers => some { t with handlers }
      | _ => none
    else none

/-! ## The invariant -/

def kept : Routine → List Handler
  | .constructor => []
  | .wrapper => [.cleanupHandler]

/-- The ADD is sent, and where a REMOVE is owed its handler lies under the function's own. -/
structure Armed (t : Thread) : Prop where
  sent : t.sent = [addMessage t.tid]
  handlers : ∃ n, t.handlers = List.replicate n .own ++ kept t.routine
  msg : t.routine = .wrapper → t.msg = removeMessage t.tid

/-- The ADD is sent and the REMOVE is in `msg`, with these handlers on the stack. -/
structure Owing (handlers : List Handler) (t : Thread) : Prop where
  routine : t.routine = .wrapper
  sent : t.sent = [addMessage t.tid]
  handlers : t.handlers = handlers
  msg : t.msg = removeMessage t.tid

/-- What a thread may have sent when it has no handler left. -/
def Settled (lost : Prop) (t : Thread) : Prop :=
  (t.sent = [addMessage t.tid] ∧ (lost ∨ t.routine = .constructor)) ∨
    (¬ lost ∧ (t.sent = [] ∨ t.sent = [addMessage t.tid, removeMessage t.tid]))

/-- The state of a thread at each point, where `lost` says that its REMOVE has been lost. -/
def Inv (lost : Prop) (t : Thread) : Prop :=
  match t.pc with
  | .entry => ¬ lost ∧ t.sent = [] ∧ t.handlers = []
  | .sendAdd => ¬ lost ∧ t.sent = [] ∧ t.handlers = [] ∧ t.msg = addMessage t.tid
  | .push => ¬ lost ∧ t.routine = .wrapper ∧ t.sent = [addMessage t.tid] ∧ t.handlers = [] ∧
      t.msg = addMessage t.tid
  | .func => ¬ lost ∧ t.Armed
  | .pop => ¬ lost ∧ t.Owing [.cleanupHandler]
  | .popSend => ¬ lost ∧ t.Owing []
  | .ret => ¬ lost ∧ t.handlers = [] ∧ t.sent = [addMessage t.tid, removeMessage t.tid]
  | .unwind => t.exiting = true ∧ ((¬ lost ∧ t.Armed) ∨ (t.handlers = [] ∧ t.Settled lost))
  | .unwindSend => t.exiting = true ∧ ¬ lost ∧ t.Owing []
  | .ended => t.Settled lost

/-- A cancellation acted on while `pthread_cleanup_pop` runs the handler it has removed. -/
def LosesRemove (t : Thread) (a : Action) : Prop := a = .act ∧ t.pc = .popSend

theorem start_inv (routine : Routine) (tid : Pid) : (start routine tid).Inv False :=
  ⟨id, rfl, rfl⟩

/-- A step never changes a thread's tid or routine, and sends `msg` at most once. -/
theorem step_frame {t t' : Thread} {a : Action} (h : t.step a = some t') :
    t'.tid = t.tid ∧ t'.routine = t.routine ∧
      (t'.sent = t.sent ∨ t'.sent = t.sent ++ [t.msg]) := by
  cases a <;> simp only [step, advance, mqSend] at h <;> (repeat' split at h) <;>
    first
      | contradiction
      | obtain rfl := Option.some.inj h
        simp

theorem kept_eq_nil {r : Routine} : kept r = [] ↔ r = .constructor := by
  cases r <;> simp [kept]

theorem kept_eq_cons {r : Routine} {hs : List Handler} :
    kept r = .cleanupHandler :: hs ↔ r = .wrapper ∧ hs = [] := by
  cases r <;> simp [kept, eq_comm]

theorem Armed.not_own {t : Thread} (h : t.Armed) (hown : ∀ hs, t.handlers ≠ .own :: hs) :
    t.handlers = kept t.routine := by
  obtain ⟨n, hn⟩ := h.handlers
  cases n with
  | zero => exact hn
  | succ n => exact absurd hn (hown _)

theorem Armed.tail {t : Thread} (h : t.Armed) {hs : List Handler}
    (hown : t.handlers = .own :: hs) : ∃ n, hs = List.replicate n .own ++ kept t.routine := by
  obtain ⟨n, hn⟩ := h.handlers
  cases n with
  | zero =>
      rw [hown] at hn
      cases hr : t.routine <;> simp [hr, kept] at hn
  | succ n =>
      rw [hown, List.replicate_succ, List.cons_append] at hn
      exact ⟨n, (List.cons.inj hn).2⟩

/-- Unwinding runs the handlers that are left, the thread's own first. -/
theorem unwind_inv {lost : Prop} {t t' : Thread} (h : t.Inv lost) (hpc : t.pc = .unwind)
    (hstep : t.advance = some t') : t'.Inv lost := by
  simp only [Inv, hpc] at h
  simp only [advance, hpc] at hstep
  obtain ⟨hexiting, h⟩ := h
  split at hstep
  · next hnil =>
    obtain rfl := Option.some.inj hstep
    rcases h with ⟨hlost, harmed⟩ | ⟨-, hsettled⟩
    · have hkept := harmed.not_own (by simp [hnil])
      exact .inl ⟨harmed.sent, .inr (kept_eq_nil.1 (hkept.symm.trans hnil))⟩
    · exact hsettled
  · next hs hown =>
    obtain rfl := Option.some.inj hstep
    rcases h with ⟨hlost, harmed⟩ | ⟨hnil, -⟩
    · exact ⟨hexiting, .inl ⟨hlost, harmed.sent, harmed.tail hown, harmed.msg⟩⟩
    · rw [hown] at hnil
      cases hnil
  · next hs hcleanup =>
    obtain rfl := Option.some.inj hstep
    rcases h with ⟨hlost, harmed⟩ | ⟨hnil, -⟩
    · have hkept := harmed.not_own (by simp [hcleanup])
      obtain ⟨hr, hnil⟩ := kept_eq_cons.1 (hkept.symm.trans hcleanup)
      exact ⟨hexiting, hlost, hr, harmed.sent, hnil, harmed.msg hr⟩
    · rw [hcleanup] at hnil
      cases hnil

theorem advance_inv {lost : Prop} {t t' : Thread} (h : t.Inv lost) (hstep : t.advance = some t') :
    t'.Inv lost := by
  by_cases hunwind : t.pc = .unwind
  · exact unwind_inv h hunwind hstep
  cases hpc : t.pc <;> simp only [Inv, hpc] at h <;> simp only [advance, hpc] at hstep
  case entry =>
      obtain ⟨hlost, hsent, hhandlers⟩ := h
      obtain rfl := Option.some.inj hstep
      exact ⟨hlost, hsent, hhandlers, rfl⟩
  case sendAdd =>
      obtain ⟨hlost, hsent, hhandlers, hmsg⟩ := h
      have hadd : t.sent ++ [t.msg] = [addMessage t.tid] := by rw [hsent, hmsg, List.nil_append]
      cases hr : t.routine <;> simp only [hr] at hstep <;> obtain rfl := Option.some.inj hstep
      case constructor =>
          refine ⟨hlost, hadd, ⟨0, ?_⟩, fun hw => ?_⟩
          · rw [show t.mqSend.routine = .constructor from hr]
            exact hhandlers
          · exact absurd (hr.symm.trans hw) (by decide)
      case wrapper => exact ⟨hlost, hr, hadd, hhandlers, hmsg⟩
  case push =>
      obtain ⟨hlost, hr, hsent, hhandlers, hmsg⟩ := h
      obtain rfl := Option.some.inj hstep
      refine ⟨hlost, hsent, ⟨0, ?_⟩, fun _ => ?_⟩
      · simp [hhandlers, hr, kept]
      · simp [hmsg, addMessage, removeMessage]
  case func =>
      obtain ⟨hlost, harmed⟩ := h
      split at hstep
      · cases hstep
      · next hr hown =>
        obtain rfl := Option.some.inj hstep
        exact .inl ⟨harmed.sent, .inr hr⟩
      · next hr hown =>
        obtain rfl := Option.some.inj hstep
        refine ⟨hlost, hr, harmed.sent, ?_, harmed.msg hr⟩
        have hkept := harmed.not_own fun hs heq => hown hs heq
        rwa [hr] at hkept
  case pop =>
      obtain ⟨hlost, howing⟩ := h
      obtain rfl := Option.some.inj hstep
      exact ⟨hlost, howing.routine, howing.sent, by simp [howing.handlers], howing.msg⟩
  case popSend =>
      obtain ⟨hlost, howing⟩ := h
      obtain rfl := Option.some.inj hstep
      exact ⟨hlost, howing.handlers, by simp [mqSend, howing.sent, howing.msg]⟩
  case ret =>
      obtain ⟨hlost, hhandlers, hsent⟩ := h
      obtain rfl := Option.some.inj hstep
      exact ⟨rfl, .inr ⟨hhandlers, .inr ⟨hlost, .inr hsent⟩⟩⟩
  case unwind => exact absurd hpc hunwind
  case unwindSend =>
      obtain ⟨hexiting, hlost, howing⟩ := h
      obtain rfl := Option.some.inj hstep
      refine ⟨hexiting, .inr ⟨howing.handlers, .inr ⟨hlost, .inr ?_⟩⟩⟩
      simp [mqSend, howing.sent, howing.msg]
  case ended => cases hstep

theorem step_act {t t' : Thread} (h : t.step .act = some t') :
    t.atCancellationPoint = true ∧ t.exiting = false ∧
      t' = { t with exiting := true, pc := .unwind } := by
  simp only [step, Option.ite_none_right_eq_some, Option.some.injEq, Bool.and_eq_true,
    Bool.not_eq_true'] at h
  obtain ⟨⟨⟨⟨hpoint, -⟩, -⟩, hexiting⟩, heq⟩ := h
  exact ⟨hpoint, hexiting, heq.symm⟩

/-- While the thread's function runs, it only changes its own handlers and its cancellation state,
unless it calls `pthread_exit`. -/
theorem func_inv {lost : Prop} {t : Thread} {a : Action} (ha : a ≠ .advance ∧ a ≠ .request ∧ a ≠ .act)
    {t' : Thread} (hstep : t.step a = some t') (h : t.Inv lost) : t'.Inv lost := by
  cases a with
  | advance => exact absurd rfl ha.1
  | request => exact absurd rfl ha.2.1
  | act => exact absurd rfl ha.2.2
  | exit =>
      simp only [step, Option.ite_none_right_eq_some, Option.some.injEq] at hstep
      obtain ⟨hpc, rfl⟩ := hstep
      simp only [Inv, hpc] at h
      exact ⟨rfl, .inl ⟨h.1, h.2.sent, h.2.handlers, h.2.msg⟩⟩
  | setCancelState enabled =>
      simp only [step, Option.ite_none_right_eq_some, Option.some.injEq] at hstep
      obtain ⟨hpc, rfl⟩ := hstep
      simp only [Inv, hpc] at h ⊢
      exact ⟨h.1, h.2.sent, h.2.handlers, h.2.msg⟩
  | pushOwn =>
      simp only [step, Option.ite_none_right_eq_some, Option.some.injEq] at hstep
      obtain ⟨hpc, rfl⟩ := hstep
      simp only [Inv, hpc] at h ⊢
      obtain ⟨n, hn⟩ := h.2.handlers
      exact ⟨h.1, h.2.sent, ⟨n + 1, by simp [hn, List.replicate_succ]⟩, h.2.msg⟩
  | popOwn =>
      simp only [step, Option.ite_none_right_eq_some] at hstep
      obtain ⟨hpc, hstep⟩ := hstep
      split at hstep
      · next hs hown =>
        obtain rfl := Option.some.inj hstep
        simp only [Inv, hpc] at h ⊢
        exact ⟨h.1, h.2.sent, h.2.tail hown, h.2.msg⟩
      · cases hstep

theorem request_inv {lost : Prop} {t : Thread} (h : t.Inv lost) :
    Inv lost { t with pending := true } := by
  cases hpc : t.pc <;> simp only [Inv, hpc] at h ⊢
  case func => exact ⟨h.1, h.2.sent, h.2.handlers, h.2.msg⟩
  case pop => exact ⟨h.1, h.2.routine, h.2.sent, h.2.handlers, h.2.msg⟩
  case popSend => exact ⟨h.1, h.2.routine, h.2.sent, h.2.handlers, h.2.msg⟩
  case unwind =>
      refine ⟨h.1, h.2.imp_left fun h => ⟨h.1, h.2.sent, h.2.handlers, h.2.msg⟩⟩
  case unwindSend => exact ⟨h.1, h.2.1, h.2.2.routine, h.2.2.sent, h.2.2.handlers, h.2.2.msg⟩
  all_goals exact h

theorem act_inv {lost : Prop} {t t' : Thread} (h : t.Inv lost) (hkeep : t.pc ≠ .popSend)
    (hstep : t.step .act = some t') : t'.Inv lost := by
  obtain ⟨hpoint, hexiting, rfl⟩ := step_act hstep
  cases hpc : t.pc <;> simp only [atCancellationPoint, hpc] at hpoint <;> try cases hpoint
  all_goals simp only [Inv, hpc] at h
  case sendAdd =>
      obtain ⟨hlost, hsent, hhandlers, -⟩ := h
      exact ⟨rfl, .inr ⟨hhandlers, .inr ⟨hlost, .inl hsent⟩⟩⟩
  case func => exact ⟨rfl, .inl ⟨h.1, h.2.sent, h.2.handlers, h.2.msg⟩⟩
  case popSend => exact absurd hpc hkeep
  case unwindSend =>
      rw [hexiting] at h
      cases h.1

/-- One step keeps the invariant, and loses the REMOVE exactly as `LosesRemove` says. -/
theorem step_inv {lost : Prop} {t t' : Thread} {a : Action} (h : t.Inv lost)
    (hstep : t.step a = some t') : t'.Inv (lost ∨ t.LosesRemove a) := by
  by_cases hloses : t.LosesRemove a
  · obtain ⟨rfl, hpc⟩ := hloses
    simp only [Inv, hpc] at h
    obtain ⟨-, -, rfl⟩ := step_act hstep
    have howing : t.Owing [] := h.2
    exact ⟨rfl, .inr ⟨howing.handlers, .inl ⟨howing.sent, .inl (.inr ⟨rfl, hpc⟩)⟩⟩⟩
  · rw [or_iff_left hloses |> propext]
    by_cases hadvance : a = .advance
    · subst hadvance
      exact advance_inv h hstep
    by_cases hrequest : a = .request
    · subst hrequest
      obtain rfl := Option.some.inj hstep
      exact request_inv h
    by_cases hact : a = .act
    · subst hact
      exact act_inv h (fun hpc => hloses ⟨rfl, hpc⟩) hstep
    · exact func_inv ⟨hadvance, hrequest, hact⟩ hstep h

/-- At every moment a thread has sent nothing, its ADD, or its ADD and its REMOVE. -/
theorem Inv.sent_cases {lost : Prop} {t : Thread} (h : t.Inv lost) :
    t.sent = [] ∨ t.sent = [addMessage t.tid] ∨
      t.sent = [addMessage t.tid, removeMessage t.tid] := by
  cases hpc : t.pc <;> simp only [Inv, hpc, Settled] at h
  case entry => exact .inl h.2.1
  case sendAdd => exact .inl h.2.1
  case push => exact .inr (.inl h.2.2.1)
  case func => exact .inr (.inl h.2.sent)
  case pop => exact .inr (.inl h.2.sent)
  case popSend => exact .inr (.inl h.2.sent)
  case ret => exact .inr (.inr h.2.2)
  case unwind =>
      rcases h with ⟨-, ⟨-, h⟩ | ⟨-, ⟨h, -⟩ | ⟨-, h | h⟩⟩⟩
      · exact .inr (.inl h.sent)
      · exact .inr (.inl h)
      · exact .inl h
      · exact .inr (.inr h)
  case unwindSend => exact .inr (.inl h.2.2.sent)
  case ended =>
      rcases h with ⟨h, -⟩ | ⟨-, h | h⟩
      · exact .inr (.inl h)
      · exact .inl h
      · exact .inr (.inr h)

theorem Inv.step_sent {lost : Prop} {t t' : Thread} {a : Action} (h : t.Inv lost)
    (hstep : t.step a = some t') :
    t'.sent = t.sent ∨ (t.sent = [] ∧ t'.sent = [addMessage t.tid]) ∨
      (t.sent = [addMessage t.tid] ∧ t'.sent = [addMessage t.tid, removeMessage t.tid]) := by
  obtain ⟨htid, -, hsame | hnew⟩ := step_frame hstep
  · exact .inl hsame
  have hcases := (step_inv h hstep).sent_cases
  rw [htid] at hcases
  rcases h.sent_cases with hsent | hsent | hsent <;> rw [hsent] at hnew ⊢ <;> rw [hnew] at hcases ⊢ <;>
    simp at hcases ⊢ <;> exact hcases

theorem step_ended {t t' : Thread} {a : Action} (hend : t.pc = .ended)
    (hstep : t.step a = some t') : t'.pc = .ended ∧ t'.sent = t.sent := by
  cases a <;> simp [step, advance, atCancellationPoint, hend] at hstep
  subst hstep
  exact ⟨rfl, rfl⟩

/-! ## Whole runs -/

def KeepsRemove (routine : Routine) (tid : Pid) (actions : List Action) : Prop :=
  Transition.Meets step (fun t a => ¬ t.LosesRemove a) (start routine tid) actions

theorem run_inv {routine : Routine} {tid : Pid} {actions : List Action} {t : Thread}
    (h : Transition.run step (start routine tid) actions = some t) :
    t.tid = tid ∧ t.routine = routine ∧ t.Inv (¬ KeepsRemove routine tid actions) := by
  refine Transition.run_induction
    (P := fun actions t => t.tid = tid ∧ t.routine = routine ∧
      t.Inv (¬ KeepsRemove routine tid actions)) ?_ ?_ h
  · refine ⟨rfl, rfl, ?_⟩
    rw [show (¬ KeepsRemove routine tid []) = False by simp [KeepsRemove, Transition.meets_nil]]
    exact start_inv routine tid
  · rintro actions u a u' hu ⟨htid, hroutine, hinv⟩ hstep
    obtain ⟨htid', hroutine', -⟩ := step_frame hstep
    refine ⟨htid'.trans htid, hroutine'.trans hroutine, ?_⟩
    have hiff : (¬ KeepsRemove routine tid (actions ++ [a])) =
        (¬ KeepsRemove routine tid actions ∨ u.LosesRemove a) := by
      rw [KeepsRemove, Transition.meets_snoc, hu, not_and_or]
      simp [KeepsRemove]
    rw [hiff]
    exact step_inv hinv hstep

/-- A thread made by `pthread_create` has sent nothing or its ADD and its REMOVE when it ends, if
and only if no cancellation is acted on while `pthread_cleanup_pop` runs its handler. -/
theorem messages_complete_iff (tid : Pid) (actions : List Action) {t : Thread}
    (h : Transition.run step (start .wrapper tid) actions = some t) (hend : t.pc = .ended) :
    (t.sent = [] ∨ t.sent = [addMessage tid, removeMessage tid]) ↔
      KeepsRemove .wrapper tid actions := by
  obtain ⟨htid, hroutine, hinv⟩ := run_inv h
  simp only [Inv, hend, Settled, htid, hroutine, reduceCtorEq, or_false, not_not] at hinv
  rcases hinv with ⟨hsent, hlost⟩ | ⟨hkeeps, hsent⟩
  · simp [hsent, hlost]
  · simp [hsent, hkeeps]

def returns : List Action :=
  [.advance, .advance, .advance, .setCancelState false, .advance, .advance, .request, .advance,
    .advance, .advance]

theorem messages_complete_returns :
    Transition.run step (start .wrapper 7) returns =
        some { start .wrapper 7 with
          pc := .ended, msg := removeMessage 7, cancelEnabled := false, pending := true,
          exiting := true, sent := [addMessage 7, removeMessage 7] } ∧
      KeepsRemove .wrapper 7 returns :=
  ⟨by decide, (messages_complete_iff 7 returns rfl rfl).1 (.inr rfl)⟩

/-- A request that arrives in `cleanup_handler`, called by `pthread_cleanup_pop`. -/
def cancelledInPop : List Action :=
  [.advance, .advance, .advance, .advance, .advance, .request, .act, .advance]

theorem remove_lost : ¬ ∀ (tid : Pid) (actions : List Action) (t : Thread),
    Transition.run step (start .wrapper tid) actions = some t → t.pc = .ended →
      t.sent = [] ∨ t.sent = [addMessage tid, removeMessage tid] := by
  intro h
  have hrun := h 7 cancelledInPop _ rfl rfl
  revert hrun
  decide

end Thread

end Threadstat

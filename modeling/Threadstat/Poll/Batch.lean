import Threadstat.Poll.Hangup

/-!
# What one batch does

The handlers of a batch run one after the other on one context until one of them ends it.  What
`poll_once` returns and which sources are left are both read off the list of these calls.
-/

namespace Threadstat

variable {H C : Type}

namespace EpollEvent

def carries (event : EpollEvent) (flag : UInt32) : Bool := event.events &&& flag ≠ 0

theorem carries_or (event : EpollEvent) (a b : UInt32) :
    event.carries (a ||| b) = (event.carries a || event.carries b) := by
  have hand : event.events &&& (a ||| b) = event.events &&& a ||| event.events &&& b := by
    apply UInt32.eq_of_toBitVec_eq
    exact BitVec.and_or_distrib_left
  rw [Bool.eq_iff_iff]
  simp only [carries, hand, ne_eq, UInt32.or_eq_zero_iff, Bool.or_eq_true, decide_eq_true_eq]
  exact not_and_or

theorem hangup_eq (event : EpollEvent) :
    event.hangup = (event.carries EPOLLERR || event.carries EPOLLHUP) :=
  event.carries_or EPOLLERR EPOLLHUP

theorem relevant_eq (event : EpollEvent) :
    event.relevant =
      (event.carries EPOLLIN || (event.carries EPOLLERR || event.carries EPOLLHUP)) := by
  rw [← hangup_eq]
  exact event.carries_or READABLE HANGUP

theorem filter_cons_relevant {event : EpollEvent} (h : event.relevant = true)
    (events : List EpollEvent) :
    ((event :: events).filter fun event =>
        event.carries EPOLLIN || (event.carries EPOLLERR || event.carries EPOLLHUP)) =
      event :: events.filter fun event =>
        event.carries EPOLLIN || (event.carries EPOLLERR || event.carries EPOLLHUP) := by
  apply List.filter_cons_of_pos
  rw [← relevant_eq]
  exact h

theorem filter_cons_skipped {event : EpollEvent} (h : event.relevant = false)
    (events : List EpollEvent) :
    ((event :: events).filter fun event =>
        event.carries EPOLLIN || (event.carries EPOLLERR || event.carries EPOLLHUP)) =
      events.filter fun event =>
        event.carries EPOLLIN || (event.carries EPOLLERR || event.carries EPOLLHUP) := by
  apply List.filter_cons_of_neg
  rw [← relevant_eq, h]
  exact Bool.false_ne_true

end EpollEvent

structure Dispatch (H C : Type) where
  event : EpollEvent
  handler : H
  before : C
  result : Except IoError PollAction
  after : C

namespace Dispatch

def fails (d : Dispatch H C) (e : IoError) : Prop :=
  d.result = .error e ∧ d.event.carries EPOLLERR = false ∧ d.event.carries EPOLLHUP = false

/-- The call answers `Stop`, or fails on an event without a hangup flag. -/
def ends (d : Dispatch H C) : Prop := d.result = .ok .Stop ∨ ∃ e, d.fails e

/-- The call answers `Remove`, or its event had a hangup flag and it answers `Continue` or
fails. -/
def removes (d : Dispatch H C) : Prop :=
  d.result = .ok .Remove ∨
    (d.event.carries EPOLLERR = true ∨ d.event.carries EPOLLHUP = true) ∧
      (d.result = .ok .Continue ∨ ∃ e, d.result = .error e)

def entry (d : Dispatch H C) : EpollEvent × H × Except IoError PollAction :=
  (d.event, d.handler, d.result)

theorem fails_iff (d : Dispatch H C) (e : IoError) :
    d.fails e ↔ d.result = .error e ∧ d.event.hangup = false := by
  rw [fails, EpollEvent.hangup_eq, Bool.or_eq_false_iff]

theorem ends_iff (d : Dispatch H C) :
    d.ends ↔ d.result = .ok .Stop ∨ ∃ e, d.result = .error e ∧ d.event.hangup = false := by
  simp only [ends, fails_iff]

theorem removes_iff (d : Dispatch H C) :
    d.removes ↔ d.result = .ok .Remove ∨
      d.event.hangup = true ∧ (d.result = .ok .Continue ∨ ∃ e, d.result = .error e) := by
  rw [removes, EpollEvent.hangup_eq, Bool.or_eq_true]

theorem not_removes_of_ends {d : Dispatch H C} (h : d.ends) : ¬ d.removes := by
  rw [removes_iff]
  rcases d.ends_iff.1 h with hstop | ⟨e, herror, halive⟩
  · simp [hstop]
  · simp [herror, halive]

end Dispatch

def PollStep.dispatch : PollStep H → Option (EpollEvent × H × Except IoError PollAction)
  | .call _ _ event handler result => some (event, handler, result)
  | _ => none

namespace PollWorld

/-- The context of the first call is `ctx`, that of every other is what the call before it left,
and `ctx'` is what the last one left. -/
def Threaded (env : PollEnv H C) (ctx : C) : List (Dispatch H C) → C → Prop
  | [], ctx' => ctx' = ctx
  | d :: calls, ctx' =>
      d.before = ctx ∧ env.call d.handler d.before = (d.result, d.after) ∧
        Threaded env d.after calls ctx'

/-- `poll_once` on the events of a batch makes exactly these calls, returns `result` and leaves
`w'`. -/
structure Dispatched (env : PollEnv H C) (w : PollWorld H C) (events : List EpollEvent)
    (calls : List (Dispatch H C)) (result : Except IoError PollAction) (w' : PollWorld H C) :
    Prop where
  order : calls.map Dispatch.event <+: events.filter fun event =>
    event.carries EPOLLIN || (event.carries EPOLLERR || event.carries EPOLLHUP)
  registered : ∀ d ∈ calls, w.sources.lookup d.event.u64 = some ⟨d.event.fd, d.handler⟩
  threaded : Threaded env w.ctx calls w'.ctx
  trace : w'.trace.filterMap PollStep.dispatch =
    w.trace.filterMap PollStep.dispatch ++ calls.map Dispatch.entry
  upTo : ∀ pre d post, calls = pre ++ d :: post → d.ends → post = []
  whole : (∀ d ∈ calls, ¬ d.ends) → calls.map Dispatch.event = events.filter fun event =>
    event.carries EPOLLIN || (event.carries EPOLLERR || event.carries EPOLLHUP)
  fail : ∀ e, result = .error e ↔ ∃ d ∈ calls, d.fails e
  stop : result = .ok .Stop ↔ (∃ d ∈ calls, d.result = .ok .Stop) ∨ w'.sources = ∅
  notRemove : result ≠ .ok .Remove
  left : ∀ key source, w'.sources.lookup key = some source ↔
    w.sources.lookup key = some source ∧ ∀ d ∈ calls, d.removes → d.event.u64 ≠ key

variable {env : PollEnv H C}

/-! ## One call -/

structure Called (env : PollEnv H C) (w : PollWorld H C) (event : EpollEvent) (d : Dispatch H C)
    (w' : PollWorld H C) : Prop where
  about : d.event = event
  relevant : event.relevant = true
  live : w.sources.lookup event.u64 = some ⟨event.fd, d.handler⟩
  before : d.before = w.ctx
  call : env.call d.handler d.before = (d.result, d.after)
  after : w'.ctx = d.after
  trace : w'.trace.filterMap PollStep.dispatch = w.trace.filterMap PollStep.dispatch ++ [d.entry]
  left : ∀ key source, w'.sources.lookup key = some source ↔
    w.sources.lookup key = some source ∧ (d.removes → event.u64 ≠ key)

def callOf (env : PollEnv H C) (event : EpollEvent) (handler : H) (w : PollWorld H C) :
    Dispatch H C :=
  ⟨event, handler, w.ctx, (env.call handler w.ctx).1, (env.call handler w.ctx).2⟩

theorem called_afterCall {w : PollWorld H C} {event : EpollEvent} {handler : H}
    (hrel : event.relevant = true)
    (hlive : w.sources.lookup event.u64 = some ⟨event.fd, handler⟩)
    (hkeep : ¬ (w.callOf env event handler).removes) :
    Called env w event (w.callOf env event handler) (w.afterCall env event handler) where
  about := rfl
  relevant := hrel
  live := hlive
  before := rfl
  call := rfl
  after := rfl
  trace := by simp [afterCall, note, PollStep.dispatch, callOf, Dispatch.entry]
  left := by
    intro key source
    simp [hkeep, afterCall, note]

theorem called_afterRemove {w : PollWorld H C} {event : EpollEvent} {handler : H}
    (hrel : event.relevant = true)
    (hlive : w.sources.lookup event.u64 = some ⟨event.fd, handler⟩)
    (hremove : (w.callOf env event handler).removes) :
    Called env w event (w.callOf env event handler)
      ((w.afterCall env event handler).afterRemove event) where
  about := rfl
  relevant := hrel
  live := hlive
  before := rfl
  call := rfl
  after := rfl
  trace := by simp [afterRemove, afterCall, note, PollStep.dispatch, callOf, Dispatch.entry]
  left := by
    intro key source
    show (w.sources.erase event.u64).lookup key = some source ↔ _
    by_cases hkey : key = event.u64
    · subst hkey
      simp [hremove]
    · rw [AList.lookup_erase_ne hkey]
      simp [Ne.symm hkey]

/-- A turn on a relevant event is one call, and it is the last one exactly if the call ends the
batch. -/
theorem Turn.called {w w' : PollWorld H C} {event : EpollEvent}
    {out : Option (Except IoError PollAction)} (hturn : Turn env w event out w')
    (hrel : event.relevant = true) :
    ∃ d, Called env w event d w' ∧ (out = none → ¬ d.ends) ∧
      ∀ result, out = some result → d.ends ∧ result = d.result := by
  cases hturn with
  | skip hskip =>
      rw [hrel] at hskip
      cases hskip
  | stop handler hlive _ hstop =>
      have hends : (w.callOf env event handler).ends := .inl hstop
      refine ⟨_, called_afterCall hrel hlive (Dispatch.not_removes_of_ends hends), by simp, ?_⟩
      rintro result ⟨⟩
      exact ⟨hends, hstop.symm⟩
  | fail handler hlive _ e herror halive =>
      have hends : (w.callOf env event handler).ends :=
        (Dispatch.ends_iff _).2 (.inr ⟨e, herror, halive⟩)
      refine ⟨_, called_afterCall hrel hlive (Dispatch.not_removes_of_ends hends), by simp, ?_⟩
      rintro result ⟨⟩
      exact ⟨hends, herror.symm⟩
  | remove handler hlive _ hremove =>
      have hremoves : (w.callOf env event handler).removes := by
        rw [Dispatch.removes_iff]
        rcases hremove with hremove | ⟨hhang, hstop⟩
        · exact .inl hremove
        · cases hresult : (env.call handler w.ctx).1 with
          | error e => exact .inr ⟨hhang, .inr ⟨e, hresult⟩⟩
          | ok action =>
              cases action with
              | Stop => exact absurd hresult hstop
              | Remove => exact .inl hresult
              | Continue => exact .inr ⟨hhang, .inl hresult⟩
      refine ⟨_, called_afterRemove hrel hlive hremoves, ?_, by simp⟩
      intro _ hends
      exact Dispatch.not_removes_of_ends hends hremoves
  | keep handler hlive _ hkeep halive =>
      have hremoves : ¬ (w.callOf env event handler).removes := by
        rw [Dispatch.removes_iff]
        simp [callOf, hkeep, halive]
      refine ⟨_, called_afterCall hrel hlive hremoves, ?_, by simp⟩
      rw [Dispatch.ends_iff]
      simp [callOf, hkeep]

/-! ## The calls of a batch -/

theorem Dispatched.nil (w : PollWorld H C) :
    Dispatched env w [] [] (.ok (if w.sources.entries.isEmpty then .Stop else .Continue)) w where
  order := List.prefix_rfl
  registered := by simp
  threaded := rfl
  trace := by simp
  upTo := by simp
  whole := fun _ => rfl
  fail := by simp
  stop := by simp [AList.ext_iff]
  notRemove := by split <;> simp
  left := by simp

theorem Dispatched.skip {w w' : PollWorld H C} {event : EpollEvent} {events : List EpollEvent}
    {calls : List (Dispatch H C)} {result : Except IoError PollAction}
    (h : Dispatched env w events calls result w') (hskip : event.relevant = false) :
    Dispatched env w (event :: events) calls result w' where
  order := by
    rw [EpollEvent.filter_cons_skipped hskip]
    exact h.order
  registered := h.registered
  threaded := h.threaded
  trace := h.trace
  upTo := h.upTo
  whole := by
    rw [EpollEvent.filter_cons_skipped hskip]
    exact h.whole
  fail := h.fail
  stop := h.stop
  notRemove := h.notRemove
  left := h.left

theorem Dispatched.last {w w' : PollWorld H C} {event : EpollEvent} {d : Dispatch H C}
    (h : Called env w event d w') (hends : d.ends) (events : List EpollEvent) :
    Dispatched env w (event :: events) [d] d.result w' where
  order := by
    rw [EpollEvent.filter_cons_relevant h.relevant]
    simp [h.about]
  registered := by
    intro d' hd'
    obtain rfl := List.mem_singleton.1 hd'
    rw [h.about]
    exact h.live
  threaded := ⟨h.before, h.call, h.after⟩
  trace := by simpa using h.trace
  upTo := by
    intro pre d' post heq _
    have hlength := congrArg List.length heq
    simp only [List.length_cons, List.length_nil, List.length_append] at hlength
    exact List.length_eq_zero_iff.1 (by omega)
  whole := by simp [hends]
  fail := by
    intro e
    simp only [List.mem_singleton, exists_eq_left]
    refine ⟨fun herror => ?_, And.left⟩
    rcases hends with hstop | ⟨e', hfails⟩
    · rw [hstop] at herror
      cases herror
    · obtain rfl := Except.error.inj (hfails.1.symm.trans herror)
      exact hfails
  stop := by
    simp only [List.mem_singleton, exists_eq_left]
    refine ⟨.inl, fun hcases => hcases.resolve_right ?_⟩
    -- The source of the call is still there.
    have hlive := (h.left event.u64 _).2
      ⟨h.live, fun hremoves => absurd hremoves (Dispatch.not_removes_of_ends hends)⟩
    intro hempty
    rw [hempty] at hlive
    simp at hlive
  notRemove := by
    rcases hends with hstop | ⟨e, hfails⟩
    · simp [hstop]
    · simp [hfails.1]
  left := by
    intro key source
    rw [h.left key source]
    simp [h.about]

theorem Dispatched.cons {w w' w'' : PollWorld H C} {event : EpollEvent} {d : Dispatch H C}
    {events : List EpollEvent} {calls : List (Dispatch H C)} {result : Except IoError PollAction}
    (h : Called env w event d w') (hgoes : ¬ d.ends)
    (hrest : Dispatched env w' events calls result w'') :
    Dispatched env w (event :: events) (d :: calls) result w'' where
  order := by
    rw [EpollEvent.filter_cons_relevant h.relevant, List.map_cons, h.about, List.cons_prefix_cons]
    exact ⟨rfl, hrest.order⟩
  registered := by
    intro d' hd'
    rcases List.mem_cons.1 hd' with rfl | hd'
    · rw [h.about]
      exact h.live
    · exact ((h.left _ _).1 (hrest.registered d' hd')).1
  threaded := ⟨h.before, h.call, by rw [← h.after]; exact hrest.threaded⟩
  trace := by
    rw [hrest.trace, h.trace, List.append_assoc]
    rfl
  upTo := by
    intro pre d' post heq hends
    cases pre with
    | nil =>
        obtain ⟨rfl, -⟩ := List.cons.inj heq
        exact absurd hends hgoes
    | cons first pre =>
        obtain ⟨-, htail⟩ := List.cons.inj heq
        exact hrest.upTo pre d' post htail hends
  whole := by
    intro hnone
    rw [EpollEvent.filter_cons_relevant h.relevant, List.map_cons, h.about,
      hrest.whole fun d' hd' => hnone d' (by simp [hd'])]
  fail := by
    intro e
    have hnot : ¬ d.fails e := fun hfails => hgoes (.inr ⟨e, hfails⟩)
    rw [hrest.fail e]
    simp [hnot]
  stop := by
    have hnot : d.result ≠ .ok .Stop := fun hstop => hgoes (.inl hstop)
    rw [hrest.stop]
    simp [hnot]
  notRemove := hrest.notRemove
  left := by
    intro key source
    rw [hrest.left key source, h.left key source, and_assoc]
    simp [h.about]

theorem Turn.eq_of_skipped {w w' : PollWorld H C} {event : EpollEvent}
    {out : Option (Except IoError PollAction)} (hturn : Turn env w event out w')
    (hskip : event.relevant = false) : w' = w := by
  cases hturn with
  | skip => rfl
  | stop _ _ hrel | fail _ _ hrel | remove _ _ hrel | keep _ _ hrel =>
      rw [hskip] at hrel
      cases hrel

theorem Turns.dispatched {w w' : PollWorld H C} {events : List EpollEvent}
    {result : Except IoError PollAction} (hturns : Turns env w events result w') :
    ∃ calls, Dispatched env w events calls result w' := by
  induction hturns with
  | nil w => exact ⟨[], .nil w⟩
  | @last w w' event events result hturn =>
      have hrel : event.relevant = true := by cases hturn <;> assumption
      obtain ⟨d, hcalled, -, hlast⟩ := hturn.called hrel
      obtain ⟨hends, rfl⟩ := hlast result rfl
      exact ⟨[d], .last hcalled hends events⟩
  | @next w w' w'' event events result hturn _ ih =>
      obtain ⟨calls, hrest⟩ := ih
      cases hrel : event.relevant with
      | false =>
          obtain rfl := hturn.eq_of_skipped hrel
          exact ⟨calls, .skip hrest hrel⟩
      | true =>
          obtain ⟨d, hcalled, hnone, -⟩ := hturn.called hrel
          exact ⟨d :: calls, .cons hcalled (hnone rfl) hrest⟩

/-! ## A whole `poll_once` -/

theorem waitReady_interrupted {interrupted : List IoError}
    (hinterrupted : ∀ e ∈ interrupted, e.isInterrupted = true) (batch : Batch)
    (rest : List WaitAnswer) (w : PollWorld H C) :
    w.waitReady (interrupted.map .error ++ .ok batch :: rest) =
      (.done (.ok batch), w.afterWait interrupted (some (.ok batch))) := by
  induction interrupted generalizing w with
  | nil => simp [waitReady, afterWait, noteInterrupted]
  | cons e interrupted ih =>
      have he : e.isInterrupted = true := hinterrupted e (by simp)
      have hstep : w.waitReady ((e :: interrupted).map .error ++ .ok batch :: rest) =
          (w.note (.wait w.sources w.interest (some (.error e)))).waitReady
            (interrupted.map .error ++ .ok batch :: rest) := by
        simp [waitReady, he]
      rw [hstep, ih fun e' he' => hinterrupted e' (by simp [he'])]
      simp [afterWait, noteInterrupted, note]

theorem afterWait_dispatch (interrupted : List IoError) (answer : Option WaitAnswer)
    (w : PollWorld H C) :
    (w.afterWait interrupted answer).trace.filterMap PollStep.dispatch =
      w.trace.filterMap PollStep.dispatch := by
  have hnone : (interrupted.map fun e =>
      (.wait w.sources w.interest (some (.error e)) : PollStep H)).filterMap
        PollStep.dispatch = [] := by
    simp [List.filterMap_eq_nil_iff, PollStep.dispatch]
  simp [afterWait, noteInterrupted, note, hnone, PollStep.dispatch]

theorem run_not_panicked (henv : env.Deletes) (scripts : List (List WaitAnswer))
    {w : PollWorld H C} (hone : OneToOne w.sources w.interest) :
    (w.run env scripts).1 ≠ .panicked := by
  induction scripts generalizing w with
  | nil => simp [run]
  | cons script scripts ih =>
      have hround := pollOnce_round henv script hone
      have hone' := hround.oneToOne hone
      have hpanic := hround.not_panicked
      have hremove := hround.not_remove
      rw [run]
      split
      · simp
      · next heq => exact ih (by rw [heq] at hone'; exact hone')
      · next heq => exact absurd (by rw [heq]) hremove
      · simp
      · next heq => exact absurd (by rw [heq]) hpanic
      · simp

/-- For every registry, every batch delivered after any number of interrupted waits and every
behaviour of the handlers: the handlers of the relevant events run in batch order on one context, up
to the first that ends the batch, and these calls decide what `poll_once` returns and which sources
are left; and `run` never gets an action it does not expect. -/
theorem pollOnce_dispatched (henv : env.Deletes) {w : PollWorld H C}
    (hone : OneToOne w.sources w.interest) {interrupted : List IoError}
    (hinterrupted : ∀ e ∈ interrupted, e.isInterrupted = true) (batch : Batch)
    (rest : List WaitAnswer) :
    let out := w.pollOnce env (interrupted.map .error ++ .ok batch :: rest)
    (∃ calls result, out.1 = .done result ∧
      Dispatched env w (eventsOf w.interest batch) calls result out.2) ∧
    ∀ scripts, (w.run env scripts).1 ≠ .panicked := by
  refine ⟨?_, fun scripts => run_not_panicked henv scripts hone⟩
  have hone' : OneToOne (w.afterWait interrupted (some (.ok batch))).sources
      (w.afterWait interrupted (some (.ok batch))).interest := hone
  obtain ⟨result, w', hturns, hhandle⟩ :=
    handleEvents_turns henv hone' (eventsOf_current batch _)
  obtain ⟨calls, hcalls⟩ := hturns.dispatched
  have hpoll : w.pollOnce env (interrupted.map .error ++ .ok batch :: rest) =
      (.done result, w') := by
    rw [pollOnce, waitReady_interrupted hinterrupted]
    exact hhandle
  rw [hpoll]
  refine ⟨calls, result, rfl, ?_⟩
  exact { hcalls with trace := by rw [hcalls.trace, afterWait_dispatch] }

/-- After an interrupted wait both handlers run, and the source that hung up is gone. -/
theorem pollOnce_dispatched_twoSources :
    let out := twoSources.pollOnce counting [.error .EINTR, .ok oneHungUp]
    out.2.ctx = 2 ∧ out.2.sources.keys = [1] ∧ ∃ calls result, out.1 = .done result ∧
      Dispatched counting twoSources (eventsOf twoSources.interest oneHungUp) calls result
        out.2 := by
  have hinterrupted : ∀ e ∈ [IoError.EINTR], e.isInterrupted = true := by decide
  refine ⟨by rfl, by rfl, ?_⟩
  exact (pollOnce_dispatched counting_reliable.del twoSources_oneToOne hinterrupted oneHungUp []).1

end PollWorld

end Threadstat

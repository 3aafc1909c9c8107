import Threadstat.Poll.Registry
import Mathlib.Data.List.TakeWhile

/-!
# Sources that hang up

A source whose descriptor has hung up is dispatched once more and is gone, whatever its handler
answers, unless the handler stops the whole loop.  The facts are about the trace of one `run`,
whatever batches the kernel reports; a kernel that keeps reporting a hung-up descriptor until it
is removed is one such.
-/

namespace Threadstat

open Journal

variable {H C : Type}

namespace PollStep

def isWait : PollStep H → Bool
  | .wait .. => true
  | _ => false

def calls (fd : RawFd) : PollStep H → Prop
  | .call _ _ event _ _ => event.fd = fd
  | _ => False

def hangsUp (fd : RawFd) : PollStep H → Prop
  | .call _ _ event _ _ => event.fd = fd ∧ event.hangup = true
  | _ => False

def drops (fd : RawFd) : PollStep H → Prop
  | .call _ _ event _ result => event.fd = fd ∧ (result = .ok .Remove ∨ event.hangup = true)
  | _ => False

def stops : PollStep H → Prop
  | .call _ _ _ _ result => result = .ok .Stop
  | _ => False

/-- A handler fails with `e` on a source that has not hung up. -/
def fails (e : IoError) : PollStep H → Prop
  | .call _ _ event _ result => result = .error e ∧ event.hangup = false
  | _ => False

def waitFails (e : IoError) : PollStep H → Prop
  | .wait _ _ answer => answer = some (.error e)
  | _ => False

end PollStep

/-- No handler runs again after it ran for a hangup. -/
def Once (log : List (PollStep H)) (s : PollStep H) : Prop :=
  ∀ fd, s.calls fd → ∀ old ∈ log, ¬ old.hangsUp fd

/-- Every event of a batch is dispatched before the next wait, unless a handler in this batch
answers `Stop` or fails on a source that has not hung up. -/
def Unskipped (log : List (PollStep H)) : Prop :=
  ∀ pre sources interest batch post,
    log = pre ++ .wait sources interest (some (.ok batch)) :: post →
    ∀ event ∈ PollWorld.eventsOf interest batch, event.relevant = true →
      ∃ s ∈ post.takeWhile (fun s => !s.isWait),
        s.calls event.fd ∨ s.stops ∨ ∃ e, s.fails e

theorem mem_takeWhile_append {α : Type*} {p : α → Bool} {xs : List α} {a : α}
    (h : a ∈ xs.takeWhile p) (ys : List α) : a ∈ (xs ++ ys).takeWhile p := by
  rw [List.takeWhile_append]
  split
  · exact List.mem_append_left _ ((List.takeWhile_prefix p).subset h)
  · exact h

theorem Unskipped.append {xs ys : List (PollStep H)} (hx : Unskipped xs) (hy : Unskipped ys) :
    Unskipped (xs ++ ys) := by
  intro pre sources interest batch post heq event hevent hrel
  rcases List.append_eq_append_iff.1 heq with ⟨mid, rfl, hys⟩ | ⟨mid, rfl, hpost⟩
  · exact hy mid sources interest batch post hys event hevent hrel
  · cases mid with
    | nil =>
        exact hy [] sources interest batch post (by simpa using hpost.symm) event hevent hrel
    | cons s mid =>
        rw [List.cons_append, List.cons.injEq] at hpost
        obtain ⟨rfl, rfl⟩ := hpost
        obtain ⟨s, hs, hcases⟩ := hx pre sources interest batch mid rfl event hevent hrel
        exact ⟨s, mem_takeWhile_append hs _, hcases⟩

theorem Unskipped.of_no_batch {log : List (PollStep H)}
    (h : ∀ sources interest batch, .wait sources interest (some (.ok batch)) ∉ log) :
    Unskipped log := by
  intro pre sources interest batch post heq
  exact absurd (by simp [heq]) (h sources interest batch)

theorem Unskipped.served {sources : Slab H} {interest : Interest} {batch : Batch}
    {served : List (PollStep H)} (hwaits : ∀ s ∈ served, s.isWait = false)
    (h : ∀ event ∈ PollWorld.eventsOf interest batch, event.relevant = true →
      ∃ s ∈ served, s.calls event.fd ∨ s.stops ∨ ∃ e, s.fails e) :
    Unskipped (.wait sources interest (some (.ok batch)) :: served) := by
  intro pre sources' interest' batch' post heq event hevent hrel
  cases pre with
  | nil =>
      rw [List.nil_append, List.cons.injEq] at heq
      obtain ⟨hwait, rfl⟩ := heq
      cases hwait
      obtain ⟨s, hs, hcases⟩ := h event hevent hrel
      have hall : served.takeWhile (fun s => !s.isWait) = served :=
        List.takeWhile_eq_self_iff.2 fun s hs => by simp [hwaits s hs]
      exact ⟨s, hall.symm ▸ hs, hcases⟩
  | cons s pre =>
      rw [List.cons_append, List.cons.injEq] at heq
      have hmem : .wait sources' interest' (some (.ok batch')) ∈ served := by simp [heq.2]
      cases hwaits _ hmem

namespace PollWorld

variable {env : PollEnv H C}

/-! ## What a run keeps -/

structure Ran (w₀ w : PollWorld H C) (tail : List (PollStep H)) : Prop where
  trace : w.trace = w₀.trace ++ tail
  once : Disciplined Once tail
  kept : ∀ key source, w₀.sources.lookup key = some source →
    w.sources.lookup key = some source ∨ ∃ s ∈ tail, s.drops source.fd

/-- A run that is not over: the registries are in step, and whoever hung up is not watched. -/
structure Going (w₀ w : PollWorld H C) (tail : List (PollStep H)) : Prop
    extends Ran w₀ w tail where
  oneToOne : OneToOne w.sources w.interest
  gone : ∀ fd, ∀ s ∈ tail, s.hangsUp fd → fd ∉ w.interest

theorem Going.refl {w : PollWorld H C} (hone : OneToOne w.sources w.interest) : Going w w [] where
  trace := by simp
  once := .nil
  kept := fun _ _ h => .inl h
  oneToOne := hone
  gone := by simp

theorem Going.quiet {w₀ w w' : PollWorld H C} {tail new : List (PollStep H)} (h : Going w₀ w tail)
    (htrace : w'.trace = w.trace ++ new) (hquiet : ∀ s ∈ new, ∀ fd, ¬ s.calls fd ∧ ¬ s.hangsUp fd)
    (hsources : w'.sources = w.sources) (hinterest : w'.interest = w.interest) :
    Going w₀ w' (tail ++ new) where
  trace := by rw [htrace, h.trace, List.append_assoc]
  once := h.once.append_free fun s hs _ fd hcall => absurd hcall (hquiet s hs fd).1
  kept := by
    intro key source hlookup
    rw [hsources]
    refine (h.kept key source hlookup).imp id ?_
    rintro ⟨s, hs, hdrops⟩
    exact ⟨s, List.mem_append_left _ hs, hdrops⟩
  oneToOne := by rw [hsources, hinterest]; exact h.oneToOne
  gone := by
    intro fd s hs hhang
    rw [hinterest]
    rcases List.mem_append.1 hs with hs | hs
    · exact h.gone fd s hs hhang
    · exact absurd hhang (hquiet s hs fd).2

def callStep (env : PollEnv H C) (event : EpollEvent) (handler : H) (w : PollWorld H C) :
    PollStep H :=
  .call w.sources w.interest event handler (env.call handler w.ctx).1

theorem Going.call {w₀ w : PollWorld H C} {tail : List (PollStep H)} (h : Going w₀ w tail)
    {event : EpollEvent} (hevent : w.interest.lookup event.fd = some event.u64) (handler : H) :
    Ran w₀ (w.afterCall env event handler) (tail ++ [w.callStep env event handler]) where
  trace := by rw [afterCall, note, h.trace, List.append_assoc]; rfl
  once := by
    refine .snoc h.once ?_
    rintro fd rfl old hold hhang
    -- A source that hung up is not watched, so no event is about it.
    have hnone := AList.lookup_eq_none.2 (h.gone event.fd old hold hhang)
    rw [hevent] at hnone
    cases hnone
  kept := by
    intro key source hlookup
    refine (h.kept key source hlookup).imp id ?_
    rintro ⟨s, hs, hdrops⟩
    exact ⟨s, List.mem_append_left _ hs, hdrops⟩

theorem Going.keep {w₀ w : PollWorld H C} {tail : List (PollStep H)} (h : Going w₀ w tail)
    {event : EpollEvent} (hevent : w.interest.lookup event.fd = some event.u64) (handler : H)
    (halive : event.hangup = false) :
    Going w₀ (w.afterCall env event handler) (tail ++ [w.callStep env event handler]) where
  toRan := h.call hevent handler
  oneToOne := h.oneToOne
  gone := by
    intro fd s hs hhang
    rcases List.mem_append.1 hs with hs | hs
    · exact h.gone fd s hs hhang
    · obtain rfl := List.mem_singleton.1 hs
      rw [hhang.2] at halive
      cases halive

theorem Going.remove {w₀ w : PollWorld H C} {tail : List (PollStep H)} (h : Going w₀ w tail)
    {event : EpollEvent} (hevent : w.interest.lookup event.fd = some event.u64) {handler : H}
    (hlive : w.sources.lookup event.u64 = some ⟨event.fd, handler⟩)
    (hremove : (env.call handler w.ctx).1 = .ok .Remove ∨ event.hangup = true) :
    Going w₀ ((w.afterCall env event handler).afterRemove event)
      (tail ++ [w.callStep env event handler, .ctlDel w.interest event.fd (.ok ())]) where
  trace := by
    have hran : Ran w₀ (w.afterCall env event handler) _ := h.call hevent handler
    rw [afterRemove, note, hran.trace, List.append_assoc, List.append_assoc]
    rfl
  once := by
    have hran : Ran w₀ (w.afterCall env event handler) _ := h.call hevent handler
    have hquiet : Once (tail ++ [w.callStep env event handler])
        (.ctlDel w.interest event.fd (.ok ())) := fun fd hcall => absurd hcall id
    have hboth := hran.once.snoc hquiet
    rwa [List.append_assoc] at hboth
  kept := by
    intro key source hlookup
    rcases h.kept key source hlookup with hkept | ⟨s, hs, hdrops⟩
    · by_cases hkey : key = event.u64
      · subst hkey
        rw [hlive] at hkept
        obtain rfl := Option.some.inj hkept
        exact .inr ⟨w.callStep env event handler, by simp, rfl, hremove⟩
      · left
        rw [afterRemove, AList.lookup_erase_ne hkey]
        exact hkept
    · exact .inr ⟨s, List.mem_append_left _ hs, hdrops⟩
  oneToOne := h.oneToOne.erase hevent
  gone := by
    intro fd s hs hhang
    rw [afterRemove, AList.mem_erase, not_and]
    intro hne
    rcases List.mem_append.1 hs with hs | hs
    · exact h.gone fd s hs hhang
    · rcases List.mem_pair.1 hs with rfl | rfl
      · exact absurd hhang.1.symm hne
      · exact absurd hhang id

/-! ## A batch -/

/-- How the turns on some events end: `new` are their steps. -/
structure Served (w₀ : PollWorld H C) (tail : List (PollStep H)) (events : List EpollEvent)
    (result : Except IoError PollAction) (w : PollWorld H C) (new : List (PollStep H)) :
    Prop where
  ran : Ran w₀ w (tail ++ new)
  going : result = .ok .Continue → Going w₀ w (tail ++ new)
  waits : ∀ s ∈ new, s.isWait = false
  unskipped : ∀ event ∈ events, event.relevant = true →
    ∃ s ∈ new, s.calls event.fd ∨ s.stops ∨ ∃ e, s.fails e
  stop : result = .ok .Stop → (∃ s ∈ new, s.stops) ∨ w.sources.entries = []
  fail : ∀ e, result = .error e → ∃ s, new.getLast? = some s ∧ s.fails e

theorem Served.cons {w₀ w : PollWorld H C} {tail first new : List (PollStep H)}
    {event : EpollEvent} {events : List EpollEvent} {result : Except IoError PollAction}
    (h : Served w₀ (tail ++ first) events result w new)
    (hfirst : ∀ s ∈ first, s.isWait = false)
    (hevent : event.relevant = true → ∃ s ∈ first, s.calls event.fd) :
    Served w₀ tail (event :: events) result w (first ++ new) where
  ran := by rw [← List.append_assoc]; exact h.ran
  going := by rw [← List.append_assoc]; exact h.going
  waits := by
    intro s hs
    rcases List.mem_append.1 hs with hs | hs
    · exact hfirst s hs
    · exact h.waits s hs
  unskipped := by
    intro other hother hrel
    rcases List.mem_cons.1 hother with rfl | hother
    · obtain ⟨s, hs, hcalls⟩ := hevent hrel
      exact ⟨s, List.mem_append_left _ hs, .inl hcalls⟩
    · obtain ⟨s, hs, hcases⟩ := h.unskipped other hother hrel
      exact ⟨s, List.mem_append_right _ hs, hcases⟩
  stop := by
    intro heq
    refine (h.stop heq).imp ?_ id
    rintro ⟨s, hs, hstop⟩
    exact ⟨s, List.mem_append_right _ hs, hstop⟩
  fail := by
    intro e heq
    obtain ⟨s, hs, hfail⟩ := h.fail e heq
    exact ⟨s, by rw [List.getLast?_append, hs]; rfl, hfail⟩

theorem Turns.served {w₀ w w' : PollWorld H C} {events : List EpollEvent}
    {result : Except IoError PollAction} (hturns : Turns env w events result w')
    {tail : List (PollStep H)} (h : Going w₀ w tail) (hcur : Current w events) :
    ∃ new, Served w₀ tail events result w' new := by
  induction hturns generalizing tail with
  | nil w =>
      refine ⟨[], by simpa using h.toRan, fun _ => by simpa using h, by simp, by simp, ?_, ?_⟩
      · intro heq
        right
        by_contra hne
        have hfalse : w.sources.entries.isEmpty = false := by simpa using hne
        simp [hfalse] at heq
      · intro e heq
        split at heq <;> cases heq
  | @last w w' event events result hturn =>
      have hevent := hcur.live event (by simp)
      cases hturn with
      | stop handler hlive hrel hstop =>
          refine ⟨[w.callStep env event handler], h.call hevent handler, by simp,
            by simp [callStep, PollStep.isWait], ?_, ?_, by simp⟩
          · exact fun _ _ _ => ⟨_, List.mem_singleton_self _, .inr (.inl hstop)⟩
          · exact fun _ => .inl ⟨_, List.mem_singleton_self _, hstop⟩
      | fail handler hlive hrel e herror halive =>
          refine ⟨[w.callStep env event handler], h.call hevent handler, by simp,
            by simp [callStep, PollStep.isWait], ?_, by simp, ?_⟩
          · exact fun _ _ _ => ⟨_, List.mem_singleton_self _, .inr (.inr ⟨e, herror, halive⟩)⟩
          · intro e' heq
            obtain rfl := Except.error.inj heq
            exact ⟨_, rfl, herror, halive⟩
  | @next w w' w'' event events result hturn _ ih =>
      have hevent := hcur.live event (by simp)
      have hrest := hcur.tail hturn
      cases hturn with
      | skip hskip =>
          have hsame : Going w₀ w (tail ++ []) := by simpa using h
          obtain ⟨new, hnew⟩ := ih hsame hrest
          exact ⟨[] ++ new, hnew.cons (by simp) fun hrel => by rw [hskip] at hrel; cases hrel⟩
      | remove handler hlive hrel hremove =>
          obtain ⟨new, hnew⟩ := ih (h.remove hevent hlive (hremove.imp id And.left)) hrest
          exact ⟨_, hnew.cons (by simp [callStep, PollStep.isWait]) fun _ =>
            ⟨w.callStep env event handler, by simp, rfl⟩⟩
      | keep handler hlive hrel hkeep halive =>
          obtain ⟨new, hnew⟩ := ih (h.keep hevent handler halive) hrest
          exact ⟨_, hnew.cons (by simp [callStep, PollStep.isWait]) fun _ =>
            ⟨w.callStep env event handler, by simp, rfl⟩⟩

/-! ## A whole run -/

def waitSteps (interrupted : List IoError) (answer : Option WaitAnswer) (w : PollWorld H C) :
    List (PollStep H) :=
  (interrupted.map fun e => .wait w.sources w.interest (some (.error e))) ++
    [.wait w.sources w.interest answer]

theorem Going.afterWait {w₀ w : PollWorld H C} {tail : List (PollStep H)} (h : Going w₀ w tail)
    (interrupted : List IoError) (answer : Option WaitAnswer) :
    Going w₀ (w.afterWait interrupted answer) (tail ++ w.waitSteps interrupted answer) := by
  refine h.quiet ?_ ?_ rfl rfl
  · simp [PollWorld.afterWait, noteInterrupted, note, waitSteps]
  · intro s hs fd
    rcases List.mem_append.1 hs with hs | hs
    · obtain ⟨e, -, rfl⟩ := List.mem_map.1 hs
      exact ⟨id, id⟩
    · obtain rfl := List.mem_singleton.1 hs
      exact ⟨id, id⟩

theorem unskipped_interrupted (w : PollWorld H C) (interrupted : List IoError) :
    Unskipped (interrupted.map fun e =>
      (.wait w.sources w.interest (some (.error e)) : PollStep H)) :=
  .of_no_batch fun _ _ _ hmem => by
    obtain ⟨e, -, heq⟩ := List.mem_map.1 hmem
    cases heq

/-- How a `poll_once` of a run ends: `steps` are all steps so far. -/
structure RoundEnds (w₀ : PollWorld H C) (out : Outcome (Except IoError PollAction))
    (w : PollWorld H C) (steps : List (PollStep H)) : Prop where
  ran : Ran w₀ w steps
  unskipped : Unskipped steps
  going : out = .done (.ok .Continue) → Going w₀ w steps
  stop : out = .done (.ok .Stop) → (∃ s ∈ steps, s.stops) ∨ w.sources.entries = []
  fail : ∀ e, out = .done (.error e) →
    ∃ s, steps.getLast? = some s ∧ (s.fails e ∨ s.waitFails e)

theorem unskipped_waitSteps {w : PollWorld H C} (interrupted : List IoError)
    {answer : Option WaitAnswer} (hanswer : ∀ batch, answer ≠ some (.ok batch)) :
    Unskipped (w.waitSteps interrupted answer) := by
  refine (unskipped_interrupted w interrupted).append (.of_no_batch fun sources interest batch => ?_)
  rw [List.mem_singleton]
  intro heq
  obtain ⟨-, -, rfl⟩ := PollStep.wait.inj heq
  exact hanswer batch rfl

theorem Round.ends {w₀ w w' : PollWorld H C} {out : Outcome (Except IoError PollAction)}
    (hround : Round env w out w') {tail : List (PollStep H)} (h : Going w₀ w tail)
    (hunskipped : Unskipped tail) : ∃ new, RoundEnds w₀ out w' (tail ++ new) := by
  cases hround with
  | blocked interrupted =>
      refine ⟨w.waitSteps interrupted none, (h.afterWait interrupted none).toRan,
        hunskipped.append (unskipped_waitSteps interrupted (by simp)), ?_, ?_, ?_⟩ <;> simp
  | failed interrupted e he =>
      refine ⟨w.waitSteps interrupted (some (.error e)), (h.afterWait interrupted _).toRan,
        hunskipped.append (unskipped_waitSteps interrupted (by simp)), by simp, by simp, ?_⟩
      intro e' heq
      obtain rfl := Except.error.inj (Outcome.done.inj heq)
      exact ⟨.wait w.sources w.interest (some (.error e)), by simp [waitSteps], .inr rfl⟩
  | @served interrupted batch result _ hserved =>
      have hwait := h.afterWait interrupted (some (.ok batch))
      obtain ⟨new, hnew⟩ := hserved.served hwait
        (eventsOf_current batch (w.afterWait interrupted (some (.ok batch))))
      refine ⟨w.waitSteps interrupted (some (.ok batch)) ++ new, ?_, ?_, ?_, ?_, ?_⟩
      · rw [← List.append_assoc]
        exact hnew.ran
      · have hbatch : Unskipped (.wait w.sources w.interest (some (.ok batch)) :: new) :=
          .served hnew.waits hnew.unskipped
        rw [waitSteps, List.append_assoc]
        exact hunskipped.append ((unskipped_interrupted w interrupted).append hbatch)
      · intro heq
        rw [← List.append_assoc]
        exact hnew.going (Outcome.done.inj heq)
      · intro heq
        refine (hnew.stop (Outcome.done.inj heq)).imp ?_ id
        rintro ⟨s, hs, hstop⟩
        exact ⟨s, by simp [hs], hstop⟩
      · intro e heq
        obtain ⟨s, hs, hfail⟩ := hnew.fail e (Outcome.done.inj heq)
        exact ⟨s, by rw [← List.append_assoc, List.getLast?_append, hs]; rfl, .inl hfail⟩

structure RunEnds (w₀ : PollWorld H C) (out : Outcome (Except IoError Unit)) (w : PollWorld H C)
    (steps : List (PollStep H)) : Prop where
  ran : Ran w₀ w steps
  unskipped : Unskipped steps
  stop : out = .done (.ok ()) → (∃ s ∈ steps, s.stops) ∨ w.sources.entries = []
  fail : ∀ e, out = .done (.error e) →
    ∃ s, steps.getLast? = some s ∧ (s.fails e ∨ s.waitFails e)

theorem run_ends (henv : env.Deletes) (scripts : List (List WaitAnswer)) {w₀ w : PollWorld H C}
    {tail : List (PollStep H)} (h : Going w₀ w tail) (hunskipped : Unskipped tail) :
    ∃ new, RunEnds w₀ (w.run env scripts).1 (w.run env scripts).2 (tail ++ new) := by
  induction scripts generalizing w tail with
  | nil =>
      obtain ⟨new, hends⟩ := (pollOnce_round henv [] h.oneToOne).ends h hunskipped
      exact ⟨new, hends.ran, hends.unskipped, by simp [run], by simp [run]⟩
  | cons script scripts ih =>
      have hround := pollOnce_round henv script h.oneToOne
      have hpanic := hround.not_panicked
      have hremove := hround.not_remove
      obtain ⟨new, hends⟩ := hround.ends h hunskipped
      generalize hres : w.pollOnce env script = res at hpanic hremove hends
      obtain ⟨out, w'⟩ := res
      rw [run, hres]
      cases out with
      | panicked => exact absurd rfl hpanic
      | blocked => exact ⟨new, hends.ran, hends.unskipped, by simp, by simp⟩
      | done result =>
          cases result with
          | error e =>
              refine ⟨new, hends.ran, hends.unskipped, by simp, fun e' heq => ?_⟩
              obtain rfl := Except.error.inj (Outcome.done.inj heq)
              exact hends.fail e rfl
          | ok action =>
              cases action with
              | Stop => exact ⟨new, hends.ran, hends.unskipped, fun _ => hends.stop rfl, by simp⟩
              | Remove => exact absurd rfl hremove
              | Continue =>
                  obtain ⟨more, hmore⟩ := ih (hends.going rfl) hends.unskipped
                  exact ⟨new ++ more, by rw [← List.append_assoc]; exact hmore⟩

/-- In every run a source that hung up is handled once and never again; other sources are neither
removed nor skipped nor stopped by it unless its handler answers `Stop`; and the error of a run
comes from the wait or from a handler whose source had not hung up. -/
theorem hangup_handled_once (henv : env.Deletes) {w : PollWorld H C}
    (hone : OneToOne w.sources w.interest) (scripts : List (List WaitAnswer)) :
    let out := (w.run env scripts).1
    let w' := (w.run env scripts).2
    ∃ steps, w'.trace = w.trace ++ steps ∧
      (∀ pre s post fd, steps = pre ++ s :: post → s.hangsUp fd →
        ∀ later ∈ post, ¬ later.calls fd) ∧
      (∀ key source, w.sources.lookup key = some source →
        w'.sources.lookup key = some source ∨ ∃ s ∈ steps, s.drops source.fd) ∧
      Unskipped steps ∧
      (out = .done (.ok ()) → (∃ s ∈ steps, s.stops) ∨ w'.sources.entries = []) ∧
      ∀ e, out = .done (.error e) →
        ∃ s, steps.getLast? = some s ∧ (s.fails e ∨ s.waitFails e) := by
  obtain ⟨steps, hends⟩ := run_ends henv scripts (Going.refl hone)
    (Unskipped.of_no_batch (by simp))
  refine ⟨steps, hends.ran.trace, ?_, hends.ran.kept, hends.unskipped, hends.stop, hends.fail⟩
  intro pre s post fd heq hhang later hlater hcalls
  obtain ⟨mid, rest, rfl⟩ := List.append_of_mem hlater
  have honce := hends.ran.once
  rw [List.nil_append, heq, ← List.cons_append, ← List.append_assoc] at honce
  exact honce.allowed fd hcalls s (by simp) hhang

def twoSources : PollWorld Nat Nat where
  sources := ((∅ : Slab Nat).insert 0 ⟨4, 1⟩).insert 1 ⟨5, 2⟩
  interest := ((∅ : Interest).insert 4 0).insert 5 1
  ctx := 0
  trace := []

theorem twoSources_oneToOne : OneToOne twoSources.sources twoSources.interest :=
  (OneToOne.empty.insert (by simp) (by simp) 1).insert (by decide) (by decide) 2

/-- The writer of descriptor 4 is gone, and descriptor 5 is readable. -/
def oneHungUp : Batch := ⟨[(4, EPOLLIN ||| EPOLLHUP), (5, EPOLLIN)], by decide, by decide⟩

/-- Descriptor 4 is reported as hung up twice and its handler runs once. -/
theorem hangup_handled_once_twoSources :
    let w' := (twoSources.run counting [[.ok oneHungUp], [.ok oneHungUp]]).2
    w'.ctx = 3 ∧ ∃ steps, w'.trace = twoSources.trace ++ steps ∧
      ∀ pre s post fd, steps = pre ++ s :: post → s.hangsUp fd →
        ∀ later ∈ post, ¬ later.calls fd := by
  obtain ⟨steps, htrace, honce, -⟩ := hangup_handled_once counting_reliable.del twoSources_oneToOne
    [[.ok oneHungUp], [.ok oneHungUp]]
  exact ⟨by rfl, steps, htrace, honce⟩

end PollWorld

end Threadstat

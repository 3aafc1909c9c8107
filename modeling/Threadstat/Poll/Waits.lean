import Threadstat.Poll.Registry

/-!
# Waits on an empty poller

`poll_once` looks for an empty slab after a batch, and never before a wait.  So the loop of `run`
does not go back to waiting on an empty poller, but the first wait of a call can be one.  Nothing is
assumed of the kernel here.
-/

namespace Threadstat

variable {H C : Type}

/-- A wait while no source is registered. -/
def PollStep.idle : PollStep H → Prop
  | .wait sources _ _ => sources = ∅
  | _ => False

def PollCall.polls : PollCall H → Prop
  | .registerMut .. => False
  | .pollOnce _ => True
  | .run _ => True

namespace PollWorld

def Extends (P : PollStep H → Prop) (w w' : PollWorld H C) : Prop :=
  ∃ new, w'.trace = w.trace ++ new ∧ ∀ s ∈ new, P s

section Extends

variable {P Q : PollStep H → Prop} {w w' w'' : PollWorld H C}

theorem Extends.refl (w : PollWorld H C) : Extends P w w := ⟨[], by simp, by simp⟩

theorem Extends.trans (h : Extends P w w') (h' : Extends P w' w'') : Extends P w w'' := by
  obtain ⟨new, htrace, hnew⟩ := h
  obtain ⟨new', htrace', hnew'⟩ := h'
  refine ⟨new ++ new', by rw [htrace', htrace, List.append_assoc], ?_⟩
  intro s hs
  rcases List.mem_append.1 hs with hs | hs
  · exact hnew s hs
  · exact hnew' s hs

theorem Extends.mono (h : Extends P w w') (hpq : ∀ s, P s → Q s) : Extends Q w w' := by
  obtain ⟨new, htrace, hnew⟩ := h
  exact ⟨new, htrace, fun s hs => hpq s (hnew s hs)⟩

theorem Extends.mem (h : Extends P w w') {s : PollStep H} (hs : s ∈ w.trace) : s ∈ w'.trace := by
  obtain ⟨new, htrace, -⟩ := h
  rw [htrace]
  exact List.mem_append_left _ hs

theorem Extends.forall (h : Extends P w w') (hw : ∀ s ∈ w.trace, P s) : ∀ s ∈ w'.trace, P s := by
  obtain ⟨new, htrace, hnew⟩ := h
  intro s hs
  rw [htrace] at hs
  rcases List.mem_append.1 hs with hs | hs
  · exact hw s hs
  · exact hnew s hs

end Extends

variable (env : PollEnv H C)

/-! ## What the calls do to the trace -/

def Serves : PollStep H → Prop
  | .register .. => False
  | .wait .. => False
  | .call .. => True
  | .ctlDel .. => True

theorem ctlDel_extends (fd : RawFd) (w : PollWorld H C) :
    Extends Serves w (w.ctlDel env fd).2 := by
  unfold ctlDel
  dsimp only
  split <;> exact ⟨_, rfl, by simp [Serves]⟩

theorem deregister_extends (key : Nat) (w : PollWorld H C) :
    Extends Serves w (w.deregister env key).2 := by
  unfold deregister
  split
  · exact .refl w
  · exact ctlDel_extends env _ { w with sources := w.sources.erase key }

theorem removeSource_extends (key : Nat) (w : PollWorld H C) :
    Extends Serves w (w.removeSource env key).2 := by
  have h := deregister_extends env key w
  unfold removeSource
  split <;>
    next heq =>
      rw [heq] at h
      exact h

theorem handleEvent_extends (event : EpollEvent) (w : PollWorld H C) :
    Extends Serves w (w.handleEvent env event).2 := by
  have hcall : ∀ handler, Extends Serves w (w.afterCall env event handler) :=
    fun handler => ⟨_, rfl, by simp [Serves]⟩
  unfold handleEvent
  split
  · exact .refl w
  · split
    · exact .refl w
    · next source _ =>
      dsimp only
      split
      · exact hcall source.handler
      · exact hcall source.handler
      · exact (hcall source.handler).trans (removeSource_extends env _ _)
      · split
        · exact (hcall source.handler).trans (removeSource_extends env _ _)
        · exact hcall source.handler

theorem handleEvents_extends (events : List EpollEvent) (w : PollWorld H C) :
    Extends Serves w (w.handleEvents env events).2 := by
  induction events generalizing w with
  | nil => exact .refl w
  | cons event events ih =>
      have hone := handleEvent_extends env event w
      rw [handleEvents]
      split
      · next heq =>
        rw [heq] at hone
        exact hone
      · next heq =>
        rw [heq] at hone
        exact hone.trans (ih _)

/-- Every wait of a `poll_once` is on the sources it began with. -/
theorem pollOnce_extends (script : List WaitAnswer) (w : PollWorld H C) :
    Extends (fun s => s.idle → w.sources = ∅) w (w.pollOnce env script).2 := by
  have hwait : ∀ interrupted answer,
      Extends (fun s => s.idle → w.sources = ∅) w (w.afterWait interrupted answer) := by
    intro interrupted answer
    refine ⟨(interrupted.map fun e => .wait w.sources w.interest (some (.error e))) ++
      [.wait w.sources w.interest answer], by simp [afterWait, noteInterrupted, note], ?_⟩
    intro s hs
    rcases List.mem_append.1 hs with hs | hs
    · obtain ⟨e, -, rfl⟩ := List.mem_map.1 hs
      exact id
    · obtain rfl := List.mem_singleton.1 hs
      exact id
  obtain ⟨interrupted, heq | ⟨e, -, heq⟩ | ⟨batch, heq⟩⟩ := w.waitReady_cases script
  · rw [pollOnce, heq]
    exact hwait interrupted none
  · rw [pollOnce, heq]
    exact hwait interrupted _
  · rw [pollOnce, heq]
    refine (hwait interrupted _).trans ((handleEvents_extends env _ _).mono ?_)
    intro s hserves hidle
    cases s <;> first | exact absurd hserves id | exact absurd hidle id

theorem pollOnce_idle (script : List WaitAnswer) {w : PollWorld H C} (hempty : w.sources = ∅) :
    ∃ s ∈ (w.pollOnce env script).2.trace, s.idle := by
  have hwait : ∀ interrupted answer,
      ∃ s ∈ (w.afterWait interrupted answer).trace, s.idle := by
    intro interrupted answer
    exact ⟨.wait w.sources w.interest answer, by simp [afterWait, note], hempty⟩
  obtain ⟨interrupted, heq | ⟨e, -, heq⟩ | ⟨batch, heq⟩⟩ := w.waitReady_cases script
  · rw [pollOnce, heq]
    exact hwait interrupted none
  · rw [pollOnce, heq]
    exact hwait interrupted _
  · rw [pollOnce, heq]
    obtain ⟨s, hs, hidle⟩ := hwait interrupted (some (.ok batch))
    exact ⟨s, (handleEvents_extends env _ _).mem hs, hidle⟩

theorem handleEvent_ne_continue (event : EpollEvent) (w : PollWorld H C) :
    (w.handleEvent env event).1 ≠ some (.done (.ok .Continue)) := by
  have hremove : ∀ key (w : PollWorld H C),
      (w.removeSource env key).1 ≠ some (.done (.ok .Continue)) := by
    intro key w
    unfold removeSource
    split <;> simp
  unfold handleEvent
  split
  · simp
  · split
    · simp
    · dsimp only
      split
      · simp
      · simp
      · exact hremove _ _
      · split
        · exact hremove _ _
        · simp

theorem handleEvents_continue {events : List EpollEvent} {w : PollWorld H C}
    (h : (w.handleEvents env events).1 = .done (.ok .Continue)) :
    (w.handleEvents env events).2.sources ≠ ∅ := by
  induction events generalizing w with
  | nil =>
      intro hempty
      have hentries : w.sources.entries = [] := congrArg AList.entries hempty
      simp [handleEvents, hentries] at h
  | cons event events ih =>
      have hone := handleEvent_ne_continue env event w
      rw [handleEvents] at h ⊢
      split at h
      · next heq =>
        rw [heq] at hone
        exact absurd (congrArg some h) hone
      · exact ih h

theorem pollOnce_continue {script : List WaitAnswer} {w : PollWorld H C}
    (h : (w.pollOnce env script).1 = .done (.ok .Continue)) :
    (w.pollOnce env script).2.sources ≠ ∅ := by
  unfold pollOnce at h ⊢
  split at h
  · exact handleEvents_continue env h
  all_goals cases h

/-- The loop of `run` goes on with what a `poll_once` left if that said `Continue`, and ends with it
otherwise. -/
theorem run_cons (script : List WaitAnswer) (scripts : List (List WaitAnswer))
    (w : PollWorld H C) :
    (w.pollOnce env script).1 = .done (.ok .Continue) ∧
        w.run env (script :: scripts) = (w.pollOnce env script).2.run env scripts ∨
      (w.run env (script :: scripts)).2 = (w.pollOnce env script).2 := by
  rw [run]
  generalize w.pollOnce env script = poll
  obtain ⟨out, w'⟩ := poll
  cases out with
  | panicked => exact .inr rfl
  | blocked => exact .inr rfl
  | done result =>
      cases result with
      | error e => exact .inr rfl
      | ok action =>
          cases action with
          | Stop => exact .inr rfl
          | Remove => exact .inr rfl
          | Continue => exact .inl ⟨rfl, rfl⟩

theorem run_extends (scripts : List (List WaitAnswer)) (w : PollWorld H C) :
    Extends (fun s => s.idle → w.sources = ∅) w (w.run env scripts).2 := by
  induction scripts generalizing w with
  | nil => exact pollOnce_extends env [] w
  | cons script scripts ih =>
      have hone := pollOnce_extends env script w
      rcases run_cons env script scripts w with ⟨hcontinue, heq⟩ | heq
      · -- The loop goes on only with a source left.
        rw [heq]
        refine hone.trans ((ih _).mono ?_)
        intro s hidle hs
        exact absurd (hidle hs) (pollOnce_continue env hcontinue)
      · rw [heq]
        exact hone

theorem run_idle (scripts : List (List WaitAnswer)) {w : PollWorld H C} (hempty : w.sources = ∅) :
    ∃ s ∈ (w.run env scripts).2.trace, s.idle := by
  cases scripts with
  | nil => exact pollOnce_idle env [] hempty
  | cons script scripts =>
      obtain ⟨s, hs, hidle⟩ := pollOnce_idle env script hempty
      rcases run_cons env script scripts w with ⟨-, heq⟩ | heq
      · rw [heq]
        exact ⟨s, (run_extends env scripts _).mem hs, hidle⟩
      · rw [heq]
        exact ⟨s, hs, hidle⟩

theorem registerMut_extends (fd : RawFd) (handler : H) (w : PollWorld H C) :
    Extends (fun s => ¬ s.idle) w (w.registerMut env fd handler).2 := by
  have htrace : (w.registerMut env fd handler).2.trace =
      w.trace ++ [.register fd handler (env.vacantKey w)] := by
    by_cases hadd : env.ctlAdd (w.beforeAdd env fd handler) fd = none ∧ fd ∉ w.interest
    · rw [registerMut_added hadd.1 hadd.2]
      rfl
    · rw [registerMut_refused (by tauto)]
      rfl
  exact ⟨_, htrace, by simp [PollStep.idle]⟩

/-! ## Sequences of calls -/

theorem exec_extends (call : PollCall H) (w : PollWorld H C) :
    Extends (fun s => s.idle → call.polls ∧ w.sources = ∅) w (w.exec env call).2 := by
  cases call with
  | registerMut fd handler =>
      exact (registerMut_extends env fd handler w).mono fun s hs hidle => absurd hidle hs
  | pollOnce script =>
      exact (pollOnce_extends env script w).mono fun s hs hidle => ⟨trivial, hs hidle⟩
  | run scripts => exact (run_extends env scripts w).mono fun s hs hidle => ⟨trivial, hs hidle⟩

theorem exec_idle {call : PollCall H} (hpolls : call.polls) {w : PollWorld H C}
    (hempty : w.sources = ∅) : ∃ s ∈ (w.exec env call).2.trace, s.idle := by
  cases call with
  | registerMut => exact absurd hpolls id
  | pollOnce script => exact pollOnce_idle env script hempty
  | run scripts => exact run_idle env scripts hempty

theorem session_cons (call : PollCall H) (calls : List (PollCall H)) (w : PollWorld H C) :
    (w.exec env call).1 = .done () ∧
        w.session env (call :: calls) = (w.exec env call).2.session env calls ∨
      (w.exec env call).1 ≠ .done () ∧ w.session env (call :: calls) = w.exec env call := by
  rw [session]
  generalize w.exec env call = out
  obtain ⟨out, w'⟩ := out
  cases out with
  | done => exact .inl ⟨rfl, rfl⟩
  | panicked => exact .inr ⟨by simp, rfl⟩
  | blocked => exact .inr ⟨by simp, rfl⟩

variable {env} in
theorem session_cons_done {call : PollCall H} {w : PollWorld H C}
    (hdone : (w.exec env call).1 = .done ()) (calls : List (PollCall H)) :
    w.session env (call :: calls) = (w.exec env call).2.session env calls := by
  rcases session_cons env call calls w with ⟨-, heq⟩ | ⟨hnot, -⟩
  · exact heq
  · exact absurd hdone hnot

theorem session_extends (calls : List (PollCall H)) (w : PollWorld H C) :
    Extends (fun _ => True) w (w.session env calls).2 := by
  induction calls generalizing w with
  | nil => exact .refl w
  | cons call calls ih =>
      have hone := (exec_extends env call w).mono fun s _ => trivial
      rcases session_cons env call calls w with ⟨-, heq⟩ | ⟨-, heq⟩
      · rw [heq]
        exact hone.trans (ih _)
      · rw [heq]
        exact hone

def Occupied (w : PollWorld H C) (calls : List (PollCall H)) : Prop :=
  ∀ pre call post, calls = pre ++ call :: post → call.polls →
    (w.session env pre).1 = .done () → (w.session env pre).2.sources ≠ ∅

theorem occupied_cons (call : PollCall H) (calls : List (PollCall H)) (w : PollWorld H C) :
    Occupied env w (call :: calls) ↔ (call.polls → w.sources ≠ ∅) ∧
      ((w.exec env call).1 = .done () → Occupied env (w.exec env call).2 calls) := by
  constructor
  · intro h
    refine ⟨fun hpolls => h [] call calls rfl hpolls rfl, ?_⟩
    intro hdone pre later post heq hpolls hpre
    have hlater := h (call :: pre) later post (by rw [heq]; rfl) hpolls
    rw [session_cons_done hdone] at hlater
    exact hlater hpre
  · intro h pre later post heq hpolls hpre
    cases pre with
    | nil =>
        obtain ⟨rfl, -⟩ := List.cons.inj heq
        exact h.1 hpolls
    | cons first pre =>
        obtain ⟨rfl, htail⟩ := List.cons.inj heq
        rcases session_cons env call pre w with ⟨hdone, hsession⟩ | ⟨hnot, hsession⟩
        · rw [hsession] at hpre ⊢
          exact h.2 hdone pre later post htail hpolls hpre
        · rw [hsession] at hpre
          exact absurd hpre hnot

theorem session_idle_iff (calls : List (PollCall H)) {w : PollWorld H C}
    (hw : ∀ s ∈ w.trace, ¬ s.idle) :
    (∀ s ∈ (w.session env calls).2.trace, ¬ s.idle) ↔ Occupied env w calls := by
  induction calls generalizing w with
  | nil =>
      refine ⟨fun _ pre call post heq => ?_, fun _ => hw⟩
      simp at heq
  | cons call calls ih =>
      rw [occupied_cons]
      -- The waits of this call are on the sources before it.
      have hcall : (∀ s ∈ (w.exec env call).2.trace, ¬ s.idle) ↔ (call.polls → w.sources ≠ ∅) := by
        constructor
        · intro hidle hpolls hempty
          obtain ⟨s, hs, hs'⟩ := exec_idle env hpolls hempty
          exact hidle s hs hs'
        · intro hsources
          apply ((exec_extends env call w).mono ?_).forall hw
          intro s hs hidle
          exact hsources (hs hidle).1 (hs hidle).2
      rcases session_cons env call calls w with ⟨hdone, heq⟩ | ⟨hnot, heq⟩
      · rw [heq]
        constructor
        · intro hidle
          have hhere : ∀ s ∈ (w.exec env call).2.trace, ¬ s.idle :=
            fun s hs => hidle s ((session_extends env calls _).mem hs)
          exact ⟨hcall.1 hhere, fun _ => (ih hhere).1 hidle⟩
        · intro h
          exact (ih (hcall.2 h.1)).2 (h.2 hdone)
      · rw [heq, hcall]
        exact ⟨fun h => ⟨h, fun hdone => absurd hdone hnot⟩, And.left⟩

/-- For every sequence of calls on a new poller, whatever the handlers return and the kernel
reports: no wait is entered with no source registered exactly if a source is registered whenever
`poll_once` or `run` is called. -/
theorem waits_occupied_iff (ctx : C) (calls : List (PollCall H)) :
    (∀ s ∈ ((new ctx).session env calls).2.trace, ¬ s.idle) ↔ Occupied env (new ctx) calls :=
  session_idle_iff env calls (by simp [new])

/-- The only source asks to be removed, which ends `run`, and `run` is called again. -/
def runTwice : List (PollCall Nat) :=
  [.registerMut 4 0, .run [[.ok (readable 4)]], .run []]

/-- The second `run` waits with no source registered, and would wait forever. -/
theorem runTwice_waits_empty :
    ((new 0).session counting [.registerMut 4 0, .run [[.ok (readable 4)]]]).1 = .done () ∧
      ((new 0).session counting runTwice).1 = .blocked ∧
      ¬ ∀ s ∈ ((new 0).session counting runTwice).2.trace, ¬ s.idle := by
  refine ⟨by rfl, by rfl, fun h => ?_⟩
  have hlast : .wait ∅ ∅ none ∈ ((new 0).session counting runTwice).2.trace := by
    have htrace : ((new 0).session counting runTwice).2.trace.getLast? = some (.wait ∅ ∅ none) := by
      rfl
    exact List.mem_of_getLast? htrace
  exact h _ hlast rfl

end PollWorld

end Threadstat

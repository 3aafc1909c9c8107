import Threadstat.Lib.Fifo
import Threadstat.System.Bounded
import Threadstat.System.Live

/-!
# Whose turn it is

One pass of the poller reads once from every descriptor that was readable, so neither messages nor
ticks hold up the other.  Messages are taken in the order they were sent, at least one in each pass,
so one that is in the queue waits for no more passes than there are messages up to it.
-/

namespace Threadstat

open Fifo

/-! ## Messages of one priority -/

/-- What is sent is no more urgent than what threads send. -/
def Happening.Plain : Happening → Prop
  | .send m => m.priority = 0
  | .pass _ | .sigint => True

def LiveStep.Plain : LiveStep → Prop
  | .happen e => e.Plain
  | .round _ _ script => ∀ part ∈ script, ∀ e ∈ part, e.Plain

def LiveStep.isRound : LiveStep → Bool
  | .happen _ => false
  | .round _ _ _ => true

def passes (steps : List LiveStep) : Nat := steps.countP LiveStep.isRound

def queueAnswers (readings : List Reading) : List (Except IoError (List UInt8)) :=
  readings.filterMap fun r => if r.source = .mq then some r.answer else none

namespace LiveCtx

/-- The queue is one for the daemon's messages, and nothing in it or still to come is urgent. -/
structure Plain (ctx : LiveCtx) : Prop where
  msgsize : ctx.queue.msgsize ≤ Message.size
  queue : ∀ m ∈ ctx.queue.messages, m.priority = 0
  script : ∀ part ∈ ctx.script, ∀ e ∈ part, e.Plain

def pending (ctx : LiveCtx) : List (Except IoError (List UInt8)) :=
  ctx.queue.messages.map fun m => .ok m.text

variable {m : MainEnv} {siginfo : List UInt8} {ctx : LiveCtx} {source : MainSource}

theorem Plain.happen (h : ctx.Plain) {e : Happening} (he : e.Plain) :
    (ctx.happen e).Plain ∧ Passed ctx.pending [] (ctx.happen e).pending := by
  cases e with
  | send msg =>
      have hmsgsize := MQueue.mqSend_msgsize msg ctx.queue
      suffices hsent : (ctx.queue.mqSend msg).2.messages = ctx.queue.messages ∨
          (ctx.queue.mqSend msg).2.messages = ctx.queue.messages ++ [msg] by
        rcases hsent with hsent | hsent
        · refine ⟨⟨hmsgsize ▸ h.msgsize, ?_, h.script⟩, ?_⟩
          · simp only [LiveCtx.happen, hsent]
            exact h.queue
          · simp only [pending, LiveCtx.happen, hsent]
            exact .refl _
        · refine ⟨⟨hmsgsize ▸ h.msgsize, ?_, h.script⟩, ?_⟩
          · simp only [LiveCtx.happen, hsent]
            rw [List.forall_mem_append, List.forall_mem_singleton]
            exact ⟨h.queue, he⟩
          · simp only [pending, LiveCtx.happen, hsent, List.map_append, List.map_singleton]
            exact .enter _ _
      unfold MQueue.mqSend
      split
      · split
        · next hfits hdepth =>
          refine .inr (MQueue.insert_messages hdepth hfits fun m' hm' => ?_)
          have hzero : msg.priority = 0 := he
          omega
        · exact .inl rfl
      · exact .inl rfl
  | pass d => exact ⟨⟨h.msgsize, h.queue, h.script⟩, .refl _⟩
  | sigint => exact ⟨⟨h.msgsize, h.queue, h.script⟩, .refl _⟩

theorem Plain.play (h : ctx.Plain) : ctx.play.Plain ∧ Passed ctx.pending [] ctx.play.pending := by
  have hfold : ∀ (es : List Happening) (start : LiveCtx), start.Plain → (∀ e ∈ es, e.Plain) →
      (es.foldl LiveCtx.happen start).Plain ∧
        Passed start.pending [] (es.foldl LiveCtx.happen start).pending := by
    intro es
    induction es with
    | nil => exact fun start hstart _ => ⟨hstart, .refl _⟩
    | cons e es ih =>
        intro start hstart hes
        obtain ⟨hplain, hflow⟩ := hstart.happen (hes e List.mem_cons_self)
        obtain ⟨hplain', hflow'⟩ :=
          ih (start.happen e) hplain fun e' he' => hes e' (List.mem_cons_of_mem e he')
        exact ⟨hplain', hflow.trans hflow'⟩
  refine hfold _ { ctx with script := ctx.script.tail } ⟨h.msgsize, h.queue, ?_⟩ ?_
  · exact fun part hpart => h.script part (List.mem_of_mem_tail hpart)
  · cases hscript : ctx.script with
    | nil => simp
    | cons part rest => exact h.script part (by simp [hscript])

/-- A read of the queue takes its first message; the other reads take none. -/
theorem Plain.read (h : ctx.Plain) (havailable : ctx.available source = true) :
    ∃ answer ctx', ctx.read m siginfo source = some (answer, ctx') ∧ ctx'.main = ctx.main ∧
      ctx'.Plain ∧ Passed ctx.pending (queueAnswers [⟨source, answer⟩]) ctx'.pending := by
  cases source with
  | signalFd =>
      exact ⟨.ok siginfo, { ctx with sigint := false }, if_pos havailable, rfl,
        ⟨h.msgsize, h.queue, h.script⟩, .refl _⟩
  | mq =>
      simp only [available, Bool.not_eq_true', List.isEmpty_eq_false_iff] at havailable
      obtain ⟨msg, rest, hmessages⟩ := List.exists_cons_of_ne_nil havailable
      refine ⟨.ok msg.text, { ctx with queue := ctx.queue.dropHead }, ?_, rfl,
        ⟨h.msgsize, fun m' hm' => h.queue m' (List.mem_of_mem_tail hm'), h.script⟩, ?_⟩
      · rw [LiveCtx.read, MQueue.mqReceive_fits h.msgsize hmessages]
        rfl
      · simp only [pending, MQueue.dropHead, hmessages, List.map_cons, List.tail_cons]
        exact .leave _ _
  | flushTimer =>
      simp only [available, decide_eq_true_eq] at havailable
      refine ⟨.ok (WordBytes.encode m.env.endian (.ofNat ctx.timer.expirations)),
        { ctx with timer := ctx.timer.take }, ?_, rfl, ⟨h.msgsize, h.queue, h.script⟩, .refl _⟩
      rw [LiveCtx.read, TimerFD.kernelRead, if_neg havailable]
      rfl

variable (m siginfo) in
theorem Plain.call (h : ctx.Plain) (havailable : ctx.available source = true) :
    (LiveCtx.call m siginfo source ctx).2.Plain ∧ ∃ answer,
      (LiveCtx.call m siginfo source ctx).2.main.readings =
        ctx.main.readings ++ [⟨source, answer⟩] ∧
      Passed ctx.pending (queueAnswers [⟨source, answer⟩])
        (LiveCtx.call m siginfo source ctx).2.pending := by
  obtain ⟨hplain, hflow⟩ := h.play
  obtain ⟨hmain, -, hkept⟩ := ctx.play_frame
  obtain ⟨answer, ctx', hread, hmain', hplain', hflow'⟩ :=
    hplain.read (m := m) (hkept source havailable)
  unfold LiveCtx.call
  rw [hread]
  dsimp only
  rw [hmain', hmain]
  exact ⟨⟨hplain'.msgsize, hplain'.queue, hplain'.script⟩, answer, call_readings _ _ _,
    hflow.trans hflow'⟩

/-- A batch without SIGINT reads once from each of its sources. -/
theorem Plain.serve (h : ctx.Plain) {batch : List MainSource}
    (hready : (readers m siginfo).Ready batch ctx) (hsignal : .signalFd ∉ batch) :
    ((readers m siginfo).serve batch ctx).2.Plain ∧ ∃ new,
      ((readers m siginfo).serve batch ctx).2.main.readings = ctx.main.readings ++ new ∧
      new.map Reading.source = batch ∧
      Passed ctx.pending (queueAnswers new) ((readers m siginfo).serve batch ctx).2.pending := by
  induction batch generalizing ctx with
  | nil => exact ⟨h, [], (List.append_nil _).symm, rfl, .refl _⟩
  | cons source batch ih =>
      obtain ⟨hne, hrest⟩ := not_or.1 (List.mem_cons.not.1 hsignal)
      obtain ⟨hplain, answer, hreadings, hpassed⟩ :=
        h.call m siginfo (hready.available source List.mem_cons_self)
      obtain ⟨hplain', new, hreadings', hsources, hpassed'⟩ :=
        ih hplain hready.tail hrest
      rw [Readers.serve, if_neg (by simpa [readers] using Ne.symm hne)]
      refine ⟨hplain', ⟨source, answer⟩ :: new, ?_, ?_, ?_⟩
      · refine hreadings'.trans ?_
        rw [hreadings, List.append_assoc, List.singleton_append]
      · rw [List.map_cons, hsources]
      · have hanswers : queueAnswers (⟨source, answer⟩ :: new) =
            queueAnswers [⟨source, answer⟩] ++ queueAnswers new := by
          rw [queueAnswers, ← List.singleton_append, List.filterMap_append]
          rfl
        rw [hanswers]
        exact hpassed.trans hpassed'

end LiveCtx

/-! ## Passes of the poller -/

theorem queueAnswers_append (readings later : List Reading) :
    queueAnswers (readings ++ later) = queueAnswers readings ++ queueAnswers later :=
  List.filterMap_append

theorem queueAnswers_pos {readings : List Reading} (h : .mq ∈ readings.map Reading.source) :
    0 < (queueAnswers readings).length := by
  obtain ⟨r, hr, hsource⟩ := List.mem_map.1 h
  refine List.length_pos_of_mem (List.mem_filterMap.2 ⟨r, hr, if_pos hsource⟩)

namespace Live

variable {m : MainEnv} {siginfo : List UInt8} {configs : EventGroups}
  {sources : List (RawFd × MainSource)} {s s' : Live}

theorem Inv.pass (h : s.Inv m siginfo configs sources) (hplain : s.world.ctx.Plain)
    (hnodup : (sources.map Prod.snd).Nodup) (hsources : sources ≠ []) {interrupted : List IoError}
    {batch : Batch} {script : List (List Happening)}
    (hscript : (LiveStep.round interrupted batch script).Plain)
    (hstep : s.step m siginfo sources (.round interrupted batch script) = some s')
    (hgoes : s'.result = .done (.ok .Continue)) :
    s'.world.ctx.Plain ∧ ∃ new,
      s'.world.ctx.main.readings = s.world.ctx.main.readings ++ new ∧
      (new.map Reading.source).Perm (readableSources sources s.world.ctx) ∧
      Passed s.world.ctx.pending (queueAnswers new) s'.world.ctx.pending := by
  obtain ⟨hresult, -, served, hperm, hready, hresult', hctx'⟩ :=
    round_spec hnodup hsources h.registered hstep
  have hsignal : .signalFd ∉ served := by
    intro hin
    obtain ⟨-, -, hstops⟩ := serve_served hready (h.looping hresult)
    rw [hresult', hstops hin] at hgoes
    cases hgoes
  have hstart : LiveCtx.Plain { s.world.ctx with script } := ⟨hplain.msgsize, hplain.queue, hscript⟩
  obtain ⟨hplain', new, hreadings, hnew, hpassed⟩ := hstart.serve hready hsignal
  rw [hctx']
  exact ⟨hplain', new, hreadings, hnew ▸ hperm, hpassed⟩

/-- What the queue has answered in a run: every pass that found a message there has taken one. -/
structure Taken (s s' : Live) (steps : List LiveStep) (new : List Reading) : Prop where
  readings : s'.world.ctx.main.readings = s.world.ctx.main.readings ++ new
  passed : Passed s.world.ctx.pending (queueAnswers new) s'.world.ctx.pending
  enough : min (passes steps) s.world.ctx.pending.length ≤ (queueAnswers new).length

theorem Taken.happen {steps : List LiveStep} {new : List Reading} (h : Taken s s' steps new)
    (hplain : s'.world.ctx.Plain) {e : Happening} (he : e.Plain) :
    Taken s { s' with world := { s'.world with ctx := s'.world.ctx.happen e } }
      (steps ++ [.happen e]) new where
  readings := by
    obtain ⟨hmain, -, -⟩ := s'.world.ctx.happen_frame e
    dsimp only
    rw [hmain, h.readings]
  passed := by
    have hpassed := h.passed.trans (hplain.happen he).2
    rwa [List.append_nil] at hpassed
  enough := by
    have henough := h.enough
    simpa [passes, LiveStep.isRound] using henough

theorem Taken.pass {steps : List LiveStep} {new new' : List Reading} {s'' : Live}
    (h : Taken s s' steps new) {interrupted : List IoError} {batch : Batch}
    {script : List (List Happening)}
    (hreadings : s''.world.ctx.main.readings = s'.world.ctx.main.readings ++ new')
    (hpassed : Passed s'.world.ctx.pending (queueAnswers new') s''.world.ctx.pending)
    (htakes : s'.world.ctx.pending ≠ [] → 0 < (queueAnswers new').length) :
    Taken s s'' (steps ++ [.round interrupted batch script]) (new ++ new') where
  readings := by rw [hreadings, h.readings, List.append_assoc]
  passed := by
    rw [queueAnswers_append]
    exact h.passed.trans hpassed
  enough := by
    have henough := h.enough
    have hpasses : passes (steps ++ [.round interrupted batch script]) = passes steps + 1 := by
      simp [passes, LiveStep.isRound]
    rw [queueAnswers_append, List.length_append, hpasses]
    by_cases hempty : s'.world.ctx.pending = []
    · have hall := (hempty ▸ h.passed).length_le
      omega
    · have hone := htakes hempty
      omega

theorem run_goes {steps : List LiveStep}
    (hrun : Transition.run (step m siginfo sources) s steps = some s')
    (hgoes : s'.result = .done (.ok .Continue)) : s.result = .done (.ok .Continue) := by
  have hback : s'.result = .done (.ok .Continue) → s.result = .done (.ok .Continue) := by
    refine Transition.run_induction
      (P := fun _ u => u.result = .done (.ok .Continue) → s.result = .done (.ok .Continue))
      id ?_ hrun
    intro _ u a u' _ hu hstep hgoes
    cases a with
    | happen e =>
        obtain rfl := Option.some.inj hstep
        exact hu hgoes
    | round interrupted batch script =>
        refine hu ?_
        simp only [step] at hstep
        split at hstep
        · assumption
        · cases hstep
  exact hback hgoes

theorem run_taken (hnodup : (sources.map Prod.snd).Nodup) {fd : RawFd} (hmq : (fd, .mq) ∈ sources)
    (hinv : s.Inv m siginfo configs sources) (hplain : s.world.ctx.Plain) {steps : List LiveStep}
    (hsteps : ∀ a ∈ steps, a.Plain)
    (hrun : Transition.run (step m siginfo sources) s steps = some s')
    (hgoes : s'.result = .done (.ok .Continue)) :
    s'.Inv m siginfo configs sources ∧ s'.world.ctx.Plain ∧ ∃ new, Taken s s' steps new := by
  have hsources : sources ≠ [] := List.ne_nil_of_mem hmq
  have hall : (∀ a ∈ steps, a.Plain) → s'.Inv m siginfo configs sources ∧
      (s'.result = .done (.ok .Continue) →
        s'.world.ctx.Plain ∧ ∃ new, Taken s s' steps new) := by
    refine Transition.run_induction (P := fun steps u => (∀ a ∈ steps, a.Plain) →
      u.Inv m siginfo configs sources ∧ (u.result = .done (.ok .Continue) →
        u.world.ctx.Plain ∧ ∃ new, Taken s u steps new)) ?_ ?_ hrun
    · refine fun _ => ⟨hinv, fun _ => ⟨hplain, [], (List.append_nil _).symm, .refl _, ?_⟩⟩
      simp [passes]
    · intro steps u a u' _ ih hstep hsteps
      rw [List.forall_mem_append, List.forall_mem_singleton] at hsteps
      obtain ⟨hu, htaken⟩ := ih hsteps.1
      cases a with
      | happen e =>
          obtain rfl := Option.some.inj hstep
          refine ⟨hu.happen e, fun hgoes => ?_⟩
          obtain ⟨huplain, new, hnew⟩ := htaken hgoes
          exact ⟨(huplain.happen hsteps.2).1, new, hnew.happen huplain hsteps.2⟩
      | round interrupted batch script =>
          refine ⟨(hu.round hnodup hsources hstep).1, fun hgoes => ?_⟩
          obtain ⟨hresult, -⟩ := round_spec hnodup hsources hu.registered hstep
          obtain ⟨huplain, new, hnew⟩ := htaken hresult
          obtain ⟨huplain', new', hreadings, hperm, hpassed⟩ :=
            hu.pass huplain hnodup hsources hsteps.2 hstep hgoes
          refine ⟨huplain', new ++ new', hnew.pass hreadings hpassed fun hpending => ?_⟩
          refine queueAnswers_pos (hperm.mem_iff.2 ?_)
          refine List.mem_map.2 ⟨(fd, .mq), List.mem_filter.2 ⟨hmq, ?_⟩, rfl⟩
          simpa [LiveCtx.available, LiveCtx.pending] using hpending
  obtain ⟨hinv', htaken⟩ := hall hsteps
  exact ⟨hinv', htaken hgoes⟩

/-- Whatever is sent, expires or arrives meanwhile, as long as SIGINT has not been read: the
messages that are in the queue are taken in their order, each within as many passes of the poller as
there are messages up to it; and the next pass reads exactly once from every descriptor that is
readable when its wait ends. -/
theorem served_in_turn {os : Setup} {args : Args} (hsetup : setup os args = .ok (configs, sources))
    {ctx : LiveCtx} (hmain : ctx.main = ⟨.new configs, [], false⟩) (hidle : ctx.waiting = false)
    (hctx : ctx.Plain) {w : PollWorld MainSource LiveCtx}
    (hsession : (PollWorld.new ctx).session (livePollEnv m siginfo)
      (sources.map fun s => .registerMut s.1 s.2) = (.done (), w))
    {steps later : List LiveStep} (hplain : ∀ a ∈ steps ++ later, a.Plain)
    (hrun : Transition.run (step m siginfo sources) ⟨.done (.ok .Continue), w⟩ steps = some s)
    (hlater : Transition.run (step m siginfo sources) s later = some s')
    (hgoes : s'.result = .done (.ok .Continue)) :
    (∃ new, s'.world.ctx.main.readings = s.world.ctx.main.readings ++ new ∧
      (s.world.ctx.queue.messages.map fun m => .ok m.text).take (passes later) <+:
        queueAnswers new) ∧
      ∀ interrupted batch script s'', (LiveStep.round interrupted batch script).Plain →
        s'.step m siginfo sources (.round interrupted batch script) = some s'' →
        s''.result = .done (.ok .Continue) →
        ∃ new, s''.world.ctx.main.readings = s'.world.ctx.main.readings ++ new ∧
          (new.map Reading.source).Perm (readableSources sources s'.world.ctx) := by
  obtain ⟨hnodup, -, fd, hmq⟩ := setup_sources hsetup
  rw [List.forall_mem_append] at hplain
  have hstart : w.ctx = ctx := by
    have hkept := PollWorld.register_ctx (livePollEnv m siginfo) sources (PollWorld.new ctx)
    rw [hsession] at hkept
    exact hkept
  have hinv : Inv m siginfo configs sources ⟨.done (.ok .Continue), w⟩ :=
    run_inv hsetup hmain hidle hsession (Transition.run_nil _ _)
  obtain ⟨hs, hsplain, -⟩ := run_taken hnodup hmq hinv (hstart ▸ hctx) hplain.1 hrun
    (run_goes hlater hgoes)
  obtain ⟨hs', hsplain', new, hnew⟩ := run_taken hnodup hmq hs hsplain hplain.2 hlater hgoes
  refine ⟨⟨new, hnew.readings, hnew.passed.take_prefix hnew.enough⟩, ?_⟩
  intro interrupted batch script s'' hscript hstep hgoes'
  obtain ⟨-, new', hreadings, hperm, -⟩ :=
    hs'.pass hsplain' hnodup (List.ne_nil_of_mem hmq) hscript hstep hgoes'
  exact ⟨new', hreadings, hperm⟩

def addMessageOf (tid : Pid) : QueuedMessage := ⟨0, (Thread.addMessage tid).toBytes .little⟩

/-- Two threads announce themselves, and a third while the first message is served. -/
def announcements : List LiveStep :=
  [.happen (.send (addMessageOf 5)), .happen (.send (addMessageOf 6))]

def twoPasses : List LiveStep :=
  [.round [] (PollWorld.readable 3) [[.send (addMessageOf 7)]],
    .round [] (PollWorld.readable 3) []]

theorem served_in_turn_twoPasses : ∃ s s',
    Transition.run (step interrupted [] grantedSources) ⟨.done (.ok .Continue), granted.2⟩
      announcements = some s ∧
    Transition.run (step interrupted [] grantedSources) s twoPasses = some s' ∧
    ∃ new, s'.world.ctx.main.readings = s.world.ctx.main.readings ++ new ∧
      [.ok (addMessageOf 5).text, .ok (addMessageOf 6).text] <+: queueAnswers new := by
  have hfirst : (Transition.run (step interrupted [] grantedSources)
      ⟨.done (.ok .Continue), granted.2⟩ announcements).map
        (fun s => s.world.ctx.queue.messages) = some [addMessageOf 5, addMessageOf 6] := rfl
  obtain ⟨s, hs, hmessages⟩ := Option.map_eq_some_iff.1 hfirst
  have hsecond : (Transition.run (step interrupted [] grantedSources)
      ⟨.done (.ok .Continue), granted.2⟩ (announcements ++ twoPasses)).map
        (fun s => s.result) = some (.done (.ok .Continue)) := rfl
  rw [Transition.run_append, hs] at hsecond
  obtain ⟨s', hs', hgoes⟩ := Option.map_eq_some_iff.1 hsecond
  have hplain : ∀ a ∈ announcements ++ twoPasses, a.Plain := by
    simp [announcements, twoPasses, LiveStep.Plain, Happening.Plain, addMessageOf]
  have hsession : granted = (.done (), granted.2) := Prod.ext rfl rfl
  obtain ⟨⟨new, hreadings, hprefix⟩, -⟩ :=
    served_in_turn grantsAll_setup rfl rfl ⟨by decide, by simp [QueueWorld.freshQueue], by simp⟩
      hsession hplain hs hs' hgoes
  rw [hmessages] at hprefix
  exact ⟨s, s', hs, hs', new, hreadings, hprefix⟩

end Live

end Threadstat

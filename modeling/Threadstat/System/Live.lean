import Threadstat.Poll.Readers
import Threadstat.Timer

/-!
# The daemon and its descriptors

The descriptors of the daemon block: a handler that reads when there is nothing to be read would
hold up everything else, SIGINT included.  Here the reads of the handlers are answered by the queue,
the timer and the pending signal as they are at that moment, and meanwhile other processes send,
time passes and SIGINT arrives.  The poller and the handlers are those of `main`.
-/

namespace Threadstat

/-! ## Reads that wait -/

inductive Happening where
  | send (m : QueuedMessage)
  /-- So many nanoseconds pass. -/
  | pass (d : Nat)
  | sigint

/-- What `main` hands to its handlers, and what they read from. -/
structure LiveCtx where
  main : MainCtx
  queue : MQueue
  timer : Countdown
  /-- SIGINT is pending. -/
  sigint : Bool
  /-- What is to happen before each of the next reads. -/
  script : List (List Happening)
  /-- A handler waits in its read. -/
  waiting : Bool

namespace LiveCtx

def happen (ctx : LiveCtx) : Happening → LiveCtx
  | .send m => { ctx with queue := (ctx.queue.mqSend m).2 }
  | .pass d => { ctx with timer := ctx.timer.pass d }
  | .sigint => { ctx with sigint := true }

def available (ctx : LiveCtx) : MainSource → Bool
  | .signalFd => ctx.sigint
  | .mq => !ctx.queue.messages.isEmpty
  | .flushTimer => ctx.timer.expirations ≠ 0

variable (m : MainEnv) (siginfo : List UInt8)

/-- The `read(2)` or `mq_receive` of a handler; nothing if it waits. -/
def read (ctx : LiveCtx) : MainSource → Option (Except IoError (List UInt8) × LiveCtx)
  | .signalFd => if ctx.sigint then some (.ok siginfo, { ctx with sigint := false }) else none
  | .mq => (ctx.queue.mqReceive Message.size).map fun r => (r.1, { ctx with queue := r.2 })
  | .flushTimer =>
    (TimerFD.kernelRead m.env.endian ctx.timer).map fun r => (.ok r.1, { ctx with timer := r.2 })

def play (ctx : LiveCtx) : LiveCtx :=
  (ctx.script.headD []).foldl happen { ctx with script := ctx.script.tail }

def call (source : MainSource) (ctx : LiveCtx) : Except IoError PollAction × LiveCtx :=
  match ctx.play.read m siginfo source with
  | none => (.ok .Stop, { ctx.play with waiting := true })
  | some (answer, ctx) =>
    let (result, main) := { m with answer := fun _ _ => answer }.call source ctx.main
    (result, { ctx with main })

end LiveCtx

/-- The poller of `main`, which the kernel refuses nothing. -/
def livePollEnv (m : MainEnv) (siginfo : List UInt8) : PollEnv MainSource LiveCtx where
  call := LiveCtx.call m siginfo
  vacantKey w := m.poller.vacantKey { w with ctx := w.ctx.main }
  vacant w := m.poller.vacant { w with ctx := w.ctx.main }
  ctlAdd _ _ := none
  ctlDel _ _ := none

structure Live where
  result : Outcome (Except IoError PollAction)
  world : PollWorld MainSource LiveCtx

inductive LiveStep where
  | happen (e : Happening)
  /-- The wait returns what is readable, after some interruptions; the script is what happens from
  then on. -/
  | round (interrupted : List IoError) (batch : Batch) (script : List (List Happening))

namespace Live

variable (m : MainEnv) (siginfo : List UInt8) (sources : List (RawFd × MainSource))

def readable (ctx : LiveCtx) : List (RawFd × UInt32) :=
  (sources.filter fun source => ctx.available source.2).map fun source => (source.1, EPOLLIN)

/-- What happens while the poller waits, and one more `poll_once` of `run`. -/
def step (s : Live) : LiveStep → Option Live
  | .happen e => some { s with world := { s.world with ctx := s.world.ctx.happen e } }
  | .round interrupted batch script =>
    match s.result with
    | .done (.ok .Continue) =>
      if (∀ e ∈ interrupted, e.isInterrupted = true) ∧ batch.ready ≠ [] ∧
          batch.ready.Perm (readable sources s.world.ctx) then
        let w := { s.world with ctx := { s.world.ctx with script } }
        let (result, world) :=
          w.pollOnce (livePollEnv m siginfo) (interrupted.map .error ++ [.ok batch])
        some { result, world }
      else none
    | _ => none

end Live

/-! ## One handler -/

theorem MQueue.mqSend_ne_nil {q : MQueue} (h : q.messages ≠ []) (m : QueuedMessage) :
    (q.mqSend m).2.messages ≠ [] := by
  unfold MQueue.mqSend
  split
  · split
    · simp [MQueue.insert]
    · exact h
  · exact h

namespace LiveCtx

variable {m : MainEnv} {siginfo : List UInt8} {ctx : LiveCtx} {source : MainSource}

/-- What happens outside makes descriptors readable and does nothing else. -/
theorem happen_frame (ctx : LiveCtx) (e : Happening) :
    (ctx.happen e).main = ctx.main ∧ (ctx.happen e).waiting = ctx.waiting ∧
      ∀ source, ctx.available source = true → (ctx.happen e).available source = true := by
  cases e with
  | send msg =>
      refine ⟨rfl, rfl, fun source h => ?_⟩
      cases source with
      | mq =>
          simp only [available, Bool.not_eq_true', List.isEmpty_eq_false_iff] at h ⊢
          exact MQueue.mqSend_ne_nil h msg
      | signalFd => exact h
      | flushTimer => exact h
  | pass d =>
      refine ⟨rfl, rfl, fun source h => ?_⟩
      cases source with
      | flushTimer =>
          simp only [available, decide_eq_true_eq] at h ⊢
          have hle := Countdown.le_pass d ctx.timer
          simp only [happen]
          omega
      | signalFd => exact h
      | mq => exact h
  | sigint =>
      refine ⟨rfl, rfl, fun source h => ?_⟩
      cases source with
      | signalFd => rfl
      | mq => exact h
      | flushTimer => exact h

theorem play_frame (ctx : LiveCtx) :
    ctx.play.main = ctx.main ∧ ctx.play.waiting = ctx.waiting ∧
      ∀ source, ctx.available source = true → ctx.play.available source = true := by
  have hfold : ∀ (es : List Happening) (start : LiveCtx),
      (es.foldl happen start).main = start.main ∧
      (es.foldl happen start).waiting = start.waiting ∧
      ∀ source, start.available source = true →
        (es.foldl happen start).available source = true := by
    intro es
    induction es with
    | nil => exact fun start => ⟨rfl, rfl, fun _ => id⟩
    | cons e es ih =>
        intro start
        obtain ⟨hmain, hwaiting, havailable⟩ := start.happen_frame e
        obtain ⟨hmain', hwaiting', havailable'⟩ := ih (start.happen e)
        exact ⟨hmain'.trans hmain, hwaiting'.trans hwaiting,
          fun source h => havailable' source (havailable source h)⟩
  exact hfold _ { ctx with script := ctx.script.tail }

variable (m siginfo) in
/-- A read of a readable descriptor does not wait, and takes nothing from another. -/
theorem read_of_available (h : ctx.available source = true) :
    ∃ answer ctx', ctx.read m siginfo source = some (answer, ctx') ∧ ctx'.main = ctx.main ∧
      ctx'.waiting = ctx.waiting ∧
      (∀ other, other ≠ source → ctx.available other = true → ctx'.available other = true) ∧
      match source with
      | .signalFd => answer = .ok siginfo
      | .mq => True
      | .flushTimer => ∃ n, TimerFD.read m.env.endian answer = .ok n := by
  cases source with
  | signalFd =>
      refine ⟨.ok siginfo, { ctx with sigint := false }, if_pos h, rfl, rfl, ?_, rfl⟩
      intro other hne hother
      cases other with
      | signalFd => exact absurd rfl hne
      | mq => exact hother
      | flushTimer => exact hother
  | mq =>
      simp only [available, Bool.not_eq_true', List.isEmpty_eq_false_iff] at h
      obtain ⟨r, hr⟩ : ∃ r, ctx.queue.mqReceive Message.size = some r := by
        unfold MQueue.mqReceive
        obtain ⟨m, rest, hm⟩ := List.exists_cons_of_ne_nil h
        split
        · exact ⟨_, rfl⟩
        · exact ⟨_, by rw [hm]; rfl⟩
      refine ⟨r.1, { ctx with queue := r.2 }, by rw [read, hr]; rfl, rfl, rfl, ?_, trivial⟩
      intro other hne hother
      cases other with
      | mq => exact absurd rfl hne
      | signalFd => exact hother
      | flushTimer => exact hother
  | flushTimer =>
      simp only [available, decide_eq_true_eq] at h
      refine ⟨.ok (WordBytes.encode m.env.endian (.ofNat ctx.timer.expirations)),
        { ctx with timer := ctx.timer.take }, ?_, rfl, rfl, ?_, _, TimerRun.read_encode _ _⟩
      · rw [read, TimerFD.kernelRead, if_neg h]
        rfl
      · intro other hne hother
        cases other with
        | flushTimer => exact absurd rfl hne
        | signalFd => exact hother
        | mq => exact hother

variable (m siginfo) in
theorem call_of_available (h : ctx.available source = true) :
    (call m siginfo source ctx).1 = .ok (if source = .signalFd then .Stop else .Continue) ∧
      (call m siginfo source ctx).2.waiting = ctx.waiting ∧
      (∀ other, other ≠ source → ctx.available other = true →
        (call m siginfo source ctx).2.available other = true) ∧
      ∃ answer, (source = .signalFd → answer = .ok siginfo) ∧
        (call m siginfo source ctx).2.main =
          (({ m with answer := fun _ _ => answer } : MainEnv).call source ctx.main).2 := by
  obtain ⟨hmain, hwaiting, havailable⟩ := ctx.play_frame
  obtain ⟨answer, ctx', hread, hmain', hwaiting', hothers, hanswer⟩ :=
    read_of_available m siginfo (havailable source h)
  unfold call
  rw [hread]
  dsimp only
  rw [hmain', hmain]
  refine ⟨?_, hwaiting'.trans hwaiting, fun other hne hother => ?_, answer, ?_, rfl⟩
  · cases source with
    | signalFd =>
        obtain rfl := hanswer
        rfl
    | mq => exact queueHandler_continue m.env answer ctx.main.world
    | flushTimer =>
        obtain ⟨n, hn⟩ := hanswer
        simp [MainEnv.call, timerHandler, hn]
  · have hother' := hothers other hne (havailable other hother)
    cases other <;> exact hother'
  · rintro rfl
    exact hanswer

def readers (m : MainEnv) (siginfo : List UInt8) : Readers MainSource LiveCtx where
  env := livePollEnv m siginfo
  available := available
  stops source := source = .signalFd
  answers source ctx h := by
    obtain ⟨hresult, -⟩ := call_of_available m siginfo h
    simp only [decide_eq_true_eq]
    exact hresult
  others source other ctx h := by
    obtain ⟨-, -, hothers, -⟩ := call_of_available m siginfo h
    exact hothers other

end LiveCtx

/-! ## One round -/

section Round

variable {m : MainEnv} {siginfo : List UInt8} {configs : EventGroups} {ctx : LiveCtx}
  {batch : List MainSource} {w : PollWorld MainSource LiveCtx}

theorem Looping.answering {mine : MainSource → Prop} {ctx : MainCtx}
    (h : Looping m configs mine ctx)
    (answer : List Reading → MainSource → Except IoError (List UInt8)) :
    Looping { m with answer } configs mine ctx :=
  ⟨h.world, h.quiet, h.mine, h.unwinding⟩

/-- The daemon after a `poll_once`: it goes on, or it has read SIGINT and nothing after it. -/
inductive Served (m : MainEnv) (siginfo : List UInt8) (configs : EventGroups) (ctx : MainCtx) :
    PollAction → Prop
  | goes (h : Looping m configs (fun _ => True) ctx) : Served m siginfo configs ctx .Continue
  | stops (before : MainCtx) (h : Looping m configs (fun _ => True) before)
      (hctx : ctx = { before with readings := before.readings ++ [⟨.signalFd, .ok siginfo⟩] }) :
      Served m siginfo configs ctx .Stop

/-- A batch leaves the daemon in order, and no handler waits. -/
theorem serve_served (h : (LiveCtx.readers m siginfo).Ready batch ctx)
    (hctx : Looping m configs (fun _ => True) ctx.main) :
    Served m siginfo configs ((LiveCtx.readers m siginfo).serve batch ctx).2.main
        ((LiveCtx.readers m siginfo).serve batch ctx).1 ∧
      ((LiveCtx.readers m siginfo).serve batch ctx).2.waiting = ctx.waiting ∧
      (.signalFd ∈ batch → ((LiveCtx.readers m siginfo).serve batch ctx).1 = .Stop) := by
  induction batch generalizing ctx with
  | nil => exact ⟨.goes hctx, rfl, by simp⟩
  | cons source batch ih =>
      obtain ⟨-, hwaiting, -, answer, hsignal, hmain⟩ :=
        LiveCtx.call_of_available m siginfo (h.available source List.mem_cons_self)
      rw [Readers.serve]
      by_cases hsource : source = .signalFd
      · subst hsource
        obtain rfl := hsignal rfl
        exact ⟨.stops ctx.main hctx hmain, hwaiting, fun _ => rfl⟩
      · have hgoes : (({ m with answer := fun _ _ => answer } : MainEnv).call source ctx.main).1 ≠
            .ok .Stop := fun hstop => hsource ((call_stop_iff _ _ source).1 hstop)
        have hnext := call_looping _ configs _ source ctx.main trivial
          (hctx.answering fun _ _ => answer) hgoes
        rw [← hmain] at hnext
        obtain ⟨hserved, hwaiting', hstop⟩ := ih h.tail (hnext.answering m.answer)
        rw [if_neg (by simpa [LiveCtx.readers] using hsource)]
        refine ⟨hserved, hwaiting'.trans hwaiting, fun hin => hstop ?_⟩
        exact (List.mem_cons.1 hin).resolve_left (Ne.symm hsource)

end Round

/-! ## Any order of events -/

namespace Live

variable {m : MainEnv} {siginfo : List UInt8} {configs : EventGroups}
  {sources : List (RawFd × MainSource)} {s s' : Live}

/-- The sources are those of `main`, no handler waits, and the daemon has done what it has read. -/
structure Inv (m : MainEnv) (siginfo : List UInt8) (configs : EventGroups)
    (sources : List (RawFd × MainSource)) (s : Live) : Prop where
  registered : s.world.Registered sources
  waiting : s.world.ctx.waiting = false
  served : ∃ action,
    s.result = .done (.ok action) ∧ Served m siginfo configs s.world.ctx.main action

theorem Inv.happen (h : s.Inv m siginfo configs sources) (e : Happening) :
    Inv m siginfo configs sources
      { s with world := { s.world with ctx := s.world.ctx.happen e } } := by
  obtain ⟨hmain, hwaiting, -⟩ := s.world.ctx.happen_frame e
  obtain ⟨action, hresult, hserved⟩ := h.served
  exact ⟨⟨h.registered.oneToOne, h.registered.lookup⟩, hwaiting.trans h.waiting, action, hresult,
    hmain ▸ hserved⟩

theorem Inv.looping (h : s.Inv m siginfo configs sources)
    (hresult : s.result = .done (.ok .Continue)) :
    Looping m configs (fun _ => True) s.world.ctx.main := by
  obtain ⟨action, haction, hserved⟩ := h.served
  rw [hresult] at haction
  obtain rfl : PollAction.Continue = action := by
    injection haction with haction
    injection haction
  obtain ⟨hctx⟩ := hserved
  exact hctx

def readableSources (sources : List (RawFd × MainSource)) (ctx : LiveCtx) : List MainSource :=
  (sources.filter fun source => ctx.available source.2).map Prod.snd

/-- A `poll_once` that finds something to read calls the handlers of what is readable, in some
order. -/
theorem round_spec (hnodup : (sources.map Prod.snd).Nodup) (hsources : sources ≠ [])
    (hregistered : s.world.Registered sources) {interrupted : List IoError} {batch : Batch}
    {script : List (List Happening)}
    (hstep : s.step m siginfo sources (.round interrupted batch script) = some s') :
    s.result = .done (.ok .Continue) ∧ s'.world.Registered sources ∧
      ∃ served : List MainSource, served.Perm (readableSources sources s.world.ctx) ∧
        (LiveCtx.readers m siginfo).Ready served { s.world.ctx with script } ∧
        s'.result = .done
          (.ok ((LiveCtx.readers m siginfo).serve served { s.world.ctx with script }).1) ∧
        s'.world.ctx =
          ((LiveCtx.readers m siginfo).serve served { s.world.ctx with script }).2 := by
  simp only [step] at hstep
  split at hstep
  · next hresult =>
    obtain ⟨⟨hinterrupted, -, hready⟩, hstep⟩ := Option.ite_none_right_eq_some.1 hstep
    obtain rfl := Option.some.inj hstep
    have hw : PollWorld.Registered { s.world with ctx := { s.world.ctx with script } } sources :=
      ⟨hregistered.oneToOne, hregistered.lookup⟩
    obtain ⟨served, hperm, hserved, w', hpoll, hregistered', hctx'⟩ :=
      Readers.pollOnce_serve (r := LiveCtx.readers m siginfo) hnodup hsources hw hinterrupted hready
    dsimp only
    rw [show livePollEnv m siginfo = (LiveCtx.readers m siginfo).env from rfl, hpoll]
    exact ⟨hresult, hregistered', served, hperm, hserved, rfl, hctx'⟩
  · cases hstep

theorem Inv.round (hnodup : (sources.map Prod.snd).Nodup) (hsources : sources ≠ [])
    (h : s.Inv m siginfo configs sources) {interrupted : List IoError} {batch : Batch}
    {script : List (List Happening)}
    (hstep : s.step m siginfo sources (.round interrupted batch script) = some s') :
    s'.Inv m siginfo configs sources ∧
      ∀ fd, (fd, .signalFd) ∈ sources → s.world.ctx.sigint = true →
        s'.result = .done (.ok .Stop) := by
  obtain ⟨hresult, hregistered, served, hperm, hready, hresult', hctx'⟩ :=
    round_spec hnodup hsources h.registered hstep
  obtain ⟨hserved', hwaiting, hstops⟩ := serve_served hready (h.looping hresult)
  rw [← hctx'] at hserved' hwaiting
  refine ⟨⟨hregistered, hwaiting.trans h.waiting, _, hresult', hserved'⟩, fun fd hin hsigint => ?_⟩
  have hsignal : .signalFd ∈ served := by
    rw [hperm.mem_iff]
    exact List.mem_map.2 ⟨(fd, .signalFd), List.mem_filter.2 ⟨hin, hsigint⟩, rfl⟩
  rw [hresult', hstops hsignal]

theorem setup_sources {os : Setup} {args : Args} (h : setup os args = .ok (configs, sources)) :
    (sources.map Prod.snd).Nodup ∧ (∃ fd, (fd, .signalFd) ∈ sources) ∧
      ∃ fd, (fd, .mq) ∈ sources := by
  obtain ⟨mq, -, h⟩ := bind_eq_ok.1 h
  obtain ⟨configs', -, h⟩ := bind_eq_ok.1 h
  obtain ⟨-, -, h⟩ := bind_eq_ok.1 h
  obtain ⟨-, -, h⟩ := bind_eq_ok.1 h
  obtain ⟨signalFd, -, h⟩ := bind_eq_ok.1 h
  obtain ⟨timer, htimer, h⟩ := bind_eq_ok.1 h
  obtain ⟨-, -, h⟩ := bind_eq_ok.1 h
  obtain ⟨-, rfl⟩ := Prod.mk.inj (Except.ok.inj h)
  refine ⟨?_, ⟨signalFd, List.mem_cons_self⟩, mq, by simp⟩
  unfold flushTimer at htimer
  split at htimer
  · obtain ⟨fd, -, htimer⟩ := bind_eq_ok.1 htimer
    obtain ⟨-, -, htimer⟩ := bind_eq_ok.1 htimer
    obtain rfl := Except.ok.inj htimer
    simp
  · obtain rfl := Except.ok.inj htimer
    simp

theorem sources_length (hnodup : (sources.map Prod.snd).Nodup) : sources.length ≤ COUNT := by
  have hall : sources.map Prod.snd ⊆ [.signalFd, .mq, .flushTimer] := by
    intro source _
    cases source <;> decide
  have hlength := (List.subperm_of_subset hnodup hall).length_le
  rw [List.length_map] at hlength
  exact hlength.trans (by decide)

theorem run_inv {os : Setup} {args : Args} (hsetup : setup os args = .ok (configs, sources))
    {ctx : LiveCtx} (hmain : ctx.main = ⟨.new configs, [], false⟩) (hidle : ctx.waiting = false)
    {w : PollWorld MainSource LiveCtx}
    (hsession : (PollWorld.new ctx).session (livePollEnv m siginfo)
      (sources.map fun s => .registerMut s.1 s.2) = (.done (), w))
    {steps : List LiveStep}
    (hrun : Transition.run (step m siginfo sources) ⟨.done (.ok .Continue), w⟩ steps = some s) :
    s.Inv m siginfo configs sources := by
  obtain ⟨hnodup, ⟨fd, hsignal⟩, -⟩ := setup_sources hsetup
  have hctx : w.ctx = ctx := by
    have hkept := PollWorld.register_ctx (livePollEnv m siginfo) sources (PollWorld.new ctx)
    rw [hsession] at hkept
    exact hkept
  have hstart : Inv m siginfo configs sources ⟨.done (.ok .Continue), w⟩ := by
    refine ⟨PollWorld.registered_new ctx hsession, hctx ▸ hidle, .Continue, rfl, .goes ?_⟩
    dsimp only
    rw [hctx, hmain]
    exact ⟨rfl, by simp, by simp, rfl⟩
  refine Transition.run_induction (P := fun _ s => s.Inv m siginfo configs sources) hstart ?_ hrun
  intro _ u a u' _ hu hstep
  cases a with
  | happen e =>
      obtain rfl := Option.some.inj hstep
      exact hu.happen e
  | round => exact (hu.round hnodup (List.ne_nil_of_mem hsignal) hstep).1

/-- Whatever is sent, however time passes and whenever SIGINT arrives, also between the reads of one
batch: no handler waits in its read, the daemon has done exactly what was read, and only SIGINT,
read last, ends the loop.  Once it is pending, the next wait need not block, and the next
`poll_once` stops. -/
theorem loop_never_waits {os : Setup} {args : Args}
    (hsetup : setup os args = .ok (configs, sources)) {ctx : LiveCtx}
    (hmain : ctx.main = ⟨.new configs, [], false⟩) (hidle : ctx.waiting = false)
    {w : PollWorld MainSource LiveCtx}
    (hsession : (PollWorld.new ctx).session (livePollEnv m siginfo)
      (sources.map fun s => .registerMut s.1 s.2) = (.done (), w))
    {steps : List LiveStep}
    (hrun : Transition.run (step m siginfo sources) ⟨.done (.ok .Continue), w⟩ steps = some s) :
    s.world.ctx.waiting = false ∧ s.world.ctx.main.unwinding = false ∧
      s.world.ctx.main.world = World.daemon m.env configs (s.world.ctx.main.inputs m.env.endian) ∧
      ((s.result = .done (.ok .Continue) ∧
          ∀ r ∈ s.world.ctx.main.readings, r.source ≠ .signalFd) ∨
        (s.result = .done (.ok .Stop) ∧ ∃ earlier, (∀ r ∈ earlier, r.source ≠ .signalFd) ∧
          s.world.ctx.main.readings = earlier ++ [⟨.signalFd, .ok siginfo⟩])) ∧
      (s.result = .done (.ok .Continue) → s.world.ctx.sigint = true →
        (∃ batch, ∀ script, ∃ s', s.step m siginfo sources (.round [] batch script) = some s') ∧
        ∀ interrupted batch script s',
          s.step m siginfo sources (.round interrupted batch script) = some s' →
            s'.result = .done (.ok .Stop)) := by
  obtain ⟨hnodup, ⟨fd, hsignal⟩, -⟩ := setup_sources hsetup
  have hinv : s.Inv m siginfo configs sources := run_inv hsetup hmain hidle hsession hrun
  have hnext : s.result = .done (.ok .Continue) → s.world.ctx.sigint = true →
      (∃ batch, ∀ script, ∃ s', s.step m siginfo sources (.round [] batch script) = some s') ∧
      ∀ interrupted batch script s',
        s.step m siginfo sources (.round interrupted batch script) = some s' →
          s'.result = .done (.ok .Stop) := by
    intro hgoes hpending
    refine ⟨?_, fun interrupted batch script s' hstep =>
      (hinv.round hnodup (List.ne_nil_of_mem hsignal) hstep).2 fd hsignal hpending⟩
    obtain ⟨batch, hbatch⟩ : ∃ batch : Batch, batch.ready = readable sources s.world.ctx :=
      Readers.readable_batch (r := LiveCtx.readers m siginfo) hinv.registered hnodup
        (sources_length hnodup)
    refine ⟨batch, fun script => ?_⟩
    have hsome : batch.ready ≠ [] := by
      rw [hbatch]
      exact List.ne_nil_of_mem
        (List.mem_map_of_mem (List.mem_filter.2 ⟨hsignal, hpending⟩))
    rw [step, hgoes]
    exact ⟨_, if_pos ⟨by simp, hsome, hbatch ▸ List.Perm.refl _⟩⟩
  obtain ⟨action, hresult, hserved⟩ := hinv.served
  cases hserved with
  | goes hlooping =>
      exact ⟨hinv.waiting, hlooping.unwinding, hlooping.world,
        .inl ⟨hresult, hlooping.quiet⟩, hnext⟩
  | stops before hbefore heq =>
      refine ⟨hinv.waiting, ?_, ?_, .inr ⟨hresult, before.readings, hbefore.quiet, ?_⟩, hnext⟩
      · rw [heq]
        exact hbefore.unwinding
      · rw [heq]
        dsimp only
        rw [inputs_snoc, hbefore.world]
        simp [MainCtx.inputs, Reading.input?]
      · rw [heq]

/-- A thread announces itself, and SIGINT arrives before it is served. -/
def lateSignal : List LiveStep :=
  [.happen (.send ⟨0, Message.toBytes .little ⟨5, MESSAGE_FLAG_ADD_PROCESS⟩⟩),
    .round [] (PollWorld.readable 3) [[.sigint]]]

def grantedSources : List (RawFd × MainSource) := [(4, .signalFd), (3, .mq), (5, .flushTimer)]

def granted : Outcome Unit × PollWorld MainSource LiveCtx :=
  (PollWorld.new
    ⟨⟨.new [cyclesGroup], [], false⟩, QueueWorld.freshQueue, .set 0 0, false, [], false⟩).session
    (livePollEnv interrupted []) (grantedSources.map fun s => .registerMut s.1 s.2)

theorem loop_never_waits_lateSignal : ∃ s,
    Transition.run (step interrupted [] grantedSources) ⟨.done (.ok .Continue), granted.2⟩
      lateSignal = some s ∧ s.world.ctx.waiting = false ∧ s.world.ctx.main.readings.length = 1 ∧
      ∃ batch, ∀ script, ∃ s',
        s.step interrupted [] grantedSources (.round [] batch script) = some s' := by
  have hrun : (Transition.run (step interrupted [] grantedSources)
      ⟨.done (.ok .Continue), granted.2⟩ lateSignal).map
        (fun s => (s.result, s.world.ctx.sigint, s.world.ctx.main.readings.length)) =
      some (.done (.ok .Continue), true, 1) := rfl
  obtain ⟨s, hs, heq⟩ := Option.map_eq_some_iff.1 hrun
  obtain ⟨hresult, heq⟩ := Prod.mk.inj heq
  obtain ⟨hsigint, hlength⟩ := Prod.mk.inj heq
  have hsession : granted = (.done (), granted.2) := Prod.ext rfl rfl
  obtain ⟨hwaiting, -, -, -, hnext⟩ := loop_never_waits grantsAll_setup rfl rfl hsession hs
  exact ⟨s, hs, hwaiting, hlength, (hnext hresult hsigint).1⟩

end Live

end Threadstat

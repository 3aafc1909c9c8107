import Threadstat.MQueue
import Threadstat.Parse.Compose
import Threadstat.Poll.Client
import Threadstat.Session
import Threadstat.State.Closing

/-!
# The program

`main` opens everything, registers a handler each for the signal descriptor, the message queue and
the flush timer, and leaves the rest to the poller.  The handlers share one context, the daemon's
state.  What their reads answer is an argument, and so is everything the poller asks the kernel.

A handler that panics unwinds through the poller and out of `main`.  The model lets it answer
`Stop`, which leaves the poller at the same point, and marks the context.
-/

namespace Threadstat

open WordBytes

/-- `TimerFD::read`, where `answer` is what `read(2)` put in the counter. -/
def TimerFD.read (e : Endian) (answer : Except IoError (List UInt8)) : Except IoError UInt64 :=
  match answer with
  | .error err => .error err
  | .ok bs => if bs.length = 8 then .ok (decode e bs) else .error (.other "short read from timerfd")

/-- `SignalFD::read`, where `answer` is what `read(2)` put in the structure; a short count passes. -/
def SignalFD.read (answer : Except IoError (List UInt8)) : Except IoError (List UInt8) := answer

/-! ## The handlers -/

inductive MainSource where
  | signalFd
  | mq
  | flushTimer
  deriving DecidableEq, Repr

structure Reading where
  source : MainSource
  answer : Except IoError (List UInt8)

structure MainCtx where
  world : World
  /-- What the handlers have read so far. -/
  readings : List Reading
  /-- A handler has panicked. -/
  unwinding : Bool

structure MainEnv where
  env : Env
  answer : List Reading → MainSource → Except IoError (List UInt8)
  poller : PollEnv MainSource MainCtx

namespace MainEnv

variable (m : MainEnv)

def call (source : MainSource) (ctx : MainCtx) : Except IoError PollAction × MainCtx :=
  let answer := m.answer ctx.readings source
  let readings := ctx.readings ++ [⟨source, answer⟩]
  match source with
  | .signalFd =>
    match SignalFD.read answer with
    | .ok _ => (.ok .Stop, { ctx with readings })
    | .error _ => (.ok .Stop, { ctx with readings, unwinding := true })
  | .mq =>
    let (result, world) := queueHandler m.env answer ctx.world
    (result, { ctx with world, readings })
  | .flushTimer =>
    let (result, world) := timerHandler m.env (TimerFD.read m.env.endian answer) ctx.world
    (result, { ctx with world, readings })

def pollEnv : PollEnv MainSource MainCtx := { m.poller with call := m.call }

end MainEnv

/-! ## `main` -/

/-- `Args`, without the folder, which only the kernel looks at. -/
structure Args where
  events : List Str
  frequency : UInt32

/-- What the system answers while `main` sets things up. -/
structure Setup where
  mqueue : Except IoError RawFd
  pfm : Pfm
  csv : Except IoError Unit
  block : Except IoError Unit
  signalfd : Except IoError RawFd
  timerfd : Except IoError RawFd
  arm : Except IoError Unit
  epoll : Except IoError Unit

inductive MainPanic where
  /-- An `expect` of `main` or of the constructors it calls. -/
  | expect (message : String)
  /-- `InternC::new`, in the parser. -/
  | intern
  /-- The assertion of `register_mut`. -/
  | register
  /-- An `expect` of `poll_once`. -/
  | poller
  deriving DecidableEq, Repr

inductive Exit where
  | returned
  | panicked (panic : MainPanic)
  | running
  deriving DecidableEq, Repr

def expect {ε α : Type} (message : String) : Except ε α → Except MainPanic α :=
  Except.mapError fun _ => .expect message

/-- `parse_event_groups(..).expect(..)` on the joined words. -/
def eventConfigs (os : Setup) (args : Args) : Except MainPanic EventGroups :=
  match parseEventGroups os.pfm (eventString args.events) with
  | .panicked => .error .intern
  | .returned parsed => expect "Failed to parse events" parsed

def flushTimer (os : Setup) (args : Args) : Except MainPanic (List (RawFd × MainSource)) :=
  if 0 < args.frequency then do
    let timer ← expect "failed to create timerfd" os.timerfd
    expect "failed to arm the flush timer" os.arm
    return [(timer, .flushTimer)]
  else .ok []

/-- `main` up to the poller: the configurations and the sources to register. -/
def setup (os : Setup) (args : Args) :
    Except MainPanic (EventGroups × List (RawFd × MainSource)) := do
  let mq ← expect "failed to open mqueue" os.mqueue
  let configs ← eventConfigs os args
  expect "Failed To Open CSV's in output Folder" os.csv
  expect "failed to block SIGINT" os.block
  let signalFd ← expect "failed to create signalfd" os.signalfd
  let timer ← flushTimer os args
  expect "Failed to open epoll" os.epoll
  return (configs, (signalFd, .signalFd) :: (mq, .mq) :: timer)

def leave (env : Env) (w : PollWorld MainSource MainCtx) : PollWorld MainSource MainCtx :=
  { w with ctx := { w.ctx with world := w.ctx.world.drop env } }

def conclude (env : Env) :
    Outcome (Except IoError Unit) × PollWorld MainSource MainCtx →
      Exit × PollWorld MainSource MainCtx
  | (.done (.ok ()), w) =>
    if w.ctx.unwinding then (.panicked (.expect "failed to read signalfd"), leave env w)
    else
      let world := w.ctx.world.flushAll env
      (.returned, leave env { w with ctx := { w.ctx with world } })
  | (.done (.error _), w) => (.panicked (.expect "poll error"), leave env w)
  | (.panicked, w) => (.panicked .poller, leave env w)
  | (.blocked, w) => (.running, w)

/-- `main`, with one script for each `poll_once`; also what the poller and its context are then, if
it got that far. -/
def main (m : MainEnv) (os : Setup) (args : Args) (scripts : List (List WaitAnswer)) :
    Exit × Option (PollWorld MainSource MainCtx) :=
  match setup os args with
  | .error panic => (.panicked panic, none)
  | .ok (configs, sources) =>
    let start : PollWorld MainSource MainCtx := .new ⟨.new configs, [], false⟩
    match start.session m.pollEnv (sources.map fun s => .registerMut s.1 s.2) with
    | (.done (), w) => (conclude m.env (w.run m.pollEnv scripts)).map id some
    | (_, w) => (.panicked .register, some (leave m.env w))

/-! ## The daemon in `main` -/

def Reading.input? (e : Endian) (r : Reading) : Option Input :=
  match r.source with
  | .signalFd => none
  | .mq => some (.receive r.answer)
  | .flushTimer => (TimerFD.read e r.answer).toOption.map .tick

def MainCtx.inputs (e : Endian) (ctx : MainCtx) : List Input := ctx.readings.filterMap (·.input? e)

theorem inputs_snoc (e : Endian) (world : World) (readings : List Reading) (r : Reading)
    (unwinding : Bool) :
    MainCtx.inputs e ⟨world, readings ++ [r], unwinding⟩ =
      readings.filterMap (·.input? e) ++ (r.input? e).toList := by
  cases h : r.input? e <;> simp [MainCtx.inputs, h]

section Loop

variable (m : MainEnv) (configs : EventGroups) (mine : MainSource → Prop)

/-- Between two calls of handlers: the world is the daemon's after what was read, and nothing has
come from the signal descriptor. -/
structure Looping (ctx : MainCtx) : Prop where
  world : ctx.world = World.daemon m.env configs (ctx.inputs m.env.endian)
  quiet : ∀ r ∈ ctx.readings, r.source ≠ .signalFd
  mine : ∀ r ∈ ctx.readings, mine r.source
  unwinding : ctx.unwinding = false

theorem call_world {ctx : MainCtx} (h : Looping m configs mine ctx) (source : MainSource) :
    (m.call source ctx).2.world =
      World.daemon m.env configs ((m.call source ctx).2.inputs m.env.endian) := by
  have hworld := h.world
  rw [MainCtx.inputs] at hworld
  cases source with
  | signalFd =>
      unfold MainEnv.call
      dsimp only
      split <;> rw [inputs_snoc, hworld] <;> simp [Reading.input?]
  | mq =>
      unfold MainEnv.call
      dsimp only
      rw [inputs_snoc, hworld]
      simp [Reading.input?, World.daemon_snoc, World.handle]
  | flushTimer =>
      unfold MainEnv.call
      dsimp only
      rw [inputs_snoc, hworld]
      cases hread : TimerFD.read m.env.endian (m.answer ctx.readings .flushTimer) with
      | error e => simp [Reading.input?, hread, timerHandler, Except.toOption]
      | ok n =>
          simp only [Reading.input?, hread, Except.toOption, Option.map_some, Option.toList_some]
          rw [World.daemon_snoc]
          rfl

theorem call_readings (ctx : MainCtx) (source : MainSource) :
    (m.call source ctx).2.readings =
      ctx.readings ++ [⟨source, m.answer ctx.readings source⟩] := by
  cases source with
  | signalFd =>
      unfold MainEnv.call
      dsimp only
      split <;> rfl
  | mq => rfl
  | flushTimer => rfl

/-- Only the signal handler stops the loop, and it never does anything else. -/
theorem call_stop_iff (ctx : MainCtx) (source : MainSource) :
    (m.call source ctx).1 = .ok .Stop ↔ source = .signalFd := by
  cases source with
  | signalFd =>
      unfold MainEnv.call
      dsimp only
      split <;> simp
  | mq =>
      have hcontinue := queueHandler_continue m.env (m.answer ctx.readings .mq) ctx.world
      simp [MainEnv.call, hcontinue]
  | flushTimer =>
      unfold MainEnv.call timerHandler
      dsimp only
      split <;> simp

theorem call_looping (source : MainSource) (ctx : MainCtx) (hmine : mine source)
    (h : Looping m configs mine ctx) (hgoes : (m.call source ctx).1 ≠ .ok .Stop) :
    Looping m configs mine (m.call source ctx).2 := by
  have hsource : source ≠ .signalFd := fun heq => hgoes ((call_stop_iff m ctx source).2 heq)
  have hreadings := call_readings m ctx source
  refine ⟨call_world m configs mine h source, ?_, ?_, ?_⟩
  · rw [hreadings, List.forall_mem_append, List.forall_mem_singleton]
    exact ⟨h.quiet, hsource⟩
  · rw [hreadings, List.forall_mem_append, List.forall_mem_singleton]
    exact ⟨h.mine, hmine⟩
  · cases source with
    | signalFd => exact absurd rfl hsource
    | mq => exact h.unwinding
    | flushTimer => exact h.unwinding

theorem pollEnv_keeps :
    PollWorld.Keeps m.pollEnv mine (Looping m configs mine) :=
  fun source ctx => call_looping m configs mine source ctx

end Loop

theorem bind_eq_ok {ε α β : Type} {x : Except ε α} {f : α → Except ε β} {b : β} :
    x >>= f = .ok b ↔ ∃ a, x = .ok a ∧ f a = .ok b := by
  cases x with
  | error e => simp [bind, Except.bind]
  | ok a => simp [bind, Except.bind]

theorem eventConfigs_eq_ok {os : Setup} {args : Args} {configs : EventGroups}
    (h : eventConfigs os args = .ok configs) :
    parseEventGroups os.pfm (eventString args.events) = .returned (.ok configs) := by
  unfold eventConfigs at h
  split at h
  · cases h
  · next parsed hparse =>
    cases parsed with
    | error e => cases h
    | ok configs' => rw [hparse, Except.ok.inj h]

theorem setup_eq_ok {os : Setup} {args : Args} {configs : EventGroups}
    {sources : List (RawFd × MainSource)} (h : setup os args = .ok (configs, sources)) :
    parseEventGroups os.pfm (eventString args.events) = .returned (.ok configs) ∧
      (args.frequency = 0 → .flushTimer ∉ sources.map Prod.snd) := by
  obtain ⟨mq, -, h⟩ := bind_eq_ok.1 h
  obtain ⟨configs', hconfigs, h⟩ := bind_eq_ok.1 h
  obtain ⟨-, -, h⟩ := bind_eq_ok.1 h
  obtain ⟨-, -, h⟩ := bind_eq_ok.1 h
  obtain ⟨signalFd, -, h⟩ := bind_eq_ok.1 h
  obtain ⟨timer, htimer, h⟩ := bind_eq_ok.1 h
  obtain ⟨-, -, h⟩ := bind_eq_ok.1 h
  obtain ⟨rfl, rfl⟩ := Prod.mk.inj (Except.ok.inj h)
  refine ⟨eventConfigs_eq_ok hconfigs, fun hzero => ?_⟩
  rw [flushTimer, hzero, if_neg (by decide)] at htimer
  obtain rfl := Except.ok.inj htimer
  simp

theorem main_cases {m : MainEnv} {os : Setup} {args : Args} {scripts : List (List WaitAnswer)}
    {exit : Exit} {w : PollWorld MainSource MainCtx}
    (h : main m os args scripts = (exit, some w)) :
    ∃ configs sources, setup os args = .ok (configs, sources) ∧
      ((exit = .panicked .register ∧ ∃ w₀ : PollWorld MainSource MainCtx,
          w = leave m.env w₀ ∧ w₀.ctx = ⟨.new configs, [], false⟩) ∨
        ∃ out w₀, out ≠ .panicked ∧ (exit, w) = conclude m.env (out, w₀) ∧
          PollWorld.Ended m.pollEnv (· ∈ sources.map Prod.snd)
            (Looping m configs (· ∈ sources.map Prod.snd)) w₀ out) := by
  unfold main at h
  split at h
  · cases h
  · next configs sources hsetup =>
    refine ⟨configs, sources, hsetup, ?_⟩
    let mine : MainSource → Prop := (· ∈ sources.map Prod.snd)
    have hstart : (PollWorld.new ⟨.new configs, [], false⟩ : PollWorld MainSource MainCtx).Client
        mine (Looping m configs mine) :=
      ⟨by simp [PollWorld.new], ⟨rfl, by simp [PollWorld.new], by simp [PollWorld.new], rfl⟩⟩
    dsimp only at h
    split at h
    · next w₀ hsession =>
      obtain ⟨hclient, hone⟩ := hstart.register (fun s hs => List.mem_map_of_mem hs) .empty hsession
      obtain ⟨hpanic, hended⟩ :=
        PollWorld.run_ended (pollEnv_keeps m configs mine) scripts hclient hone
      refine .inr ⟨_, _, hpanic, ?_, hended⟩
      obtain ⟨hexit, hw⟩ := Prod.mk.inj h
      exact Prod.ext hexit.symm (Option.some.inj hw).symm
    · next session w₀ hne hsession =>
      obtain ⟨hexit, hw⟩ := Prod.mk.inj h
      refine .inl ⟨hexit.symm, w₀, (Option.some.inj hw).symm, ?_⟩
      have hctx := PollWorld.register_ctx m.pollEnv sources
        (PollWorld.new ⟨.new configs, [], false⟩)
      rw [hsession] at hctx
      exact hctx

def Exit.finish (env : Env) : Exit → World → World
  | .returned, w => (w.flushAll env).drop env
  | .panicked _, w => w.drop env
  | .running, w => w

theorem conclude_frame {env : Env} {out : Outcome (Except IoError Unit)}
    {w₀ w : PollWorld MainSource MainCtx} {exit : Exit} (h : (exit, w) = conclude env (out, w₀)) :
    w.ctx.world = exit.finish env w₀.ctx.world ∧ w.ctx.readings = w₀.ctx.readings ∧
      w.sources = w₀.sources := by
  cases out with
  | panicked =>
      obtain ⟨rfl, rfl⟩ := Prod.mk.inj h
      exact ⟨rfl, rfl, rfl⟩
  | blocked =>
      obtain ⟨rfl, rfl⟩ := Prod.mk.inj h
      exact ⟨rfl, rfl, rfl⟩
  | done result =>
      cases result with
      | error e =>
          obtain ⟨rfl, rfl⟩ := Prod.mk.inj h
          exact ⟨rfl, rfl, rfl⟩
      | ok _ =>
          rw [conclude] at h
          split at h <;> obtain ⟨rfl, rfl⟩ := Prod.mk.inj h <;> exact ⟨rfl, rfl, rfl⟩

theorem conclude_exit {env : Env} {out : Outcome (Except IoError Unit)}
    {w₀ w : PollWorld MainSource MainCtx} {exit : Exit} (h : (exit, w) = conclude env (out, w₀)) :
    (exit = .panicked .poller → out = .panicked) ∧ (exit = .returned → out = .done (.ok ())) := by
  cases out with
  | panicked =>
      obtain ⟨rfl, -⟩ := Prod.mk.inj h
      simp
  | blocked =>
      obtain ⟨rfl, -⟩ := Prod.mk.inj h
      simp
  | done result =>
      cases result with
      | error e =>
          obtain ⟨rfl, -⟩ := Prod.mk.inj h
          simp
      | ok _ =>
          rw [conclude] at h
          split at h <;> obtain ⟨rfl, -⟩ := Prod.mk.inj h <;> simp

def interrupted : MainEnv where
  env := .steady
  answer readings source :=
    match source, readings.length with
    | .mq, _ => .ok (Message.toBytes .little ⟨5, MESSAGE_FLAG_ADD_PROCESS⟩)
    | .flushTimer, _ => .ok (encode .little 1)
    | .signalFd, n => .ok (List.replicate n 0)
  poller :=
    { call := fun _ ctx => (.ok .Stop, ctx)
      vacantKey := PollWorld.slabKey
      vacant := PollWorld.slabKey_vacant
      ctlAdd := fun _ _ => none
      ctlDel := fun _ _ => none }

def grantsAll : Setup where
  mqueue := .ok 3
  pfm := smallPfm
  csv := .ok ()
  block := .ok ()
  signalfd := .ok 4
  timerfd := .ok 5
  arm := .ok ()
  epoll := .ok ()

def cyclesTenTimes : Args := ⟨["cycles".toList], 10⟩

def oneEach : List (List WaitAnswer) := [3, 5, 4].map fun fd => [.ok (PollWorld.readable fd)]

theorem grantsAll_setup : setup grantsAll cyclesTenTimes =
    .ok ([cyclesGroup], [(4, .signalFd), (3, .mq), (5, .flushTimer)]) := by
  have hreading : reading (eventString cyclesTenTimes.events) = [["cycles".toList]] := by decide
  have hconfigs : eventConfigs grantsAll cyclesTenTimes = .ok [cyclesGroup] := by
    unfold eventConfigs
    rw [parseEventGroups_eq (by decide), hreading]
    rfl
  unfold setup
  rw [hconfigs]
  rfl

theorem interrupted_returns :
    ∃ w, main interrupted grantsAll cyclesTenTimes oneEach = (.returned, some w) := by
  unfold main
  rw [grantsAll_setup]
  exact ⟨_, rfl⟩

section Results

variable {m : MainEnv} {configs : EventGroups} {mine : MainSource → Prop}
  {out : Outcome (Except IoError Unit)} {w₀ : PollWorld MainSource MainCtx}

theorem ended_cases (h : PollWorld.Ended m.pollEnv mine (Looping m configs mine) w₀ out)
    (hpanic : out ≠ .panicked) :
    (Looping m configs mine w₀.ctx ∧ (out = .done (.ok ()) → w₀.sources.entries = [])) ∨
      (out = .done (.ok ()) ∧ ∃ ctx, Looping m configs mine ctx ∧
        w₀.ctx = (m.call .signalFd ctx).2) := by
  cases h with
  | stopped source ctx hmine hctx hcall =>
      have hsource : source = .signalFd :=
        (call_stop_iff m ctx source).1 (congrArg Prod.fst hcall)
      subst hsource
      exact .inr ⟨rfl, ctx, hctx, (congrArg Prod.snd hcall).symm⟩
  | idle hempty hctx => exact .inl ⟨hctx, fun _ => hempty⟩
  | failed source ctx e hmine hctx hcall =>
      have hresult : (m.call source ctx).1 = .error e := congrArg Prod.fst hcall
      have hnext := call_looping m configs mine source ctx hmine hctx (by simp [hresult])
      have hworld : (m.call source ctx).2 = w₀.ctx := congrArg Prod.snd hcall
      exact .inl ⟨hworld ▸ hnext, by simp⟩
  | poller e hctx => exact .inl ⟨hctx, by simp⟩
  | blocked hctx => exact .inl ⟨hctx, by simp⟩
  | panicked => exact absurd rfl hpanic

theorem ended_world (h : PollWorld.Ended m.pollEnv mine (Looping m configs mine) w₀ out)
    (hpanic : out ≠ .panicked) :
    w₀.ctx.world = World.daemon m.env configs (w₀.ctx.inputs m.env.endian) ∧
      ∀ r ∈ w₀.ctx.readings, r.source = .signalFd ∨ mine r.source := by
  rcases ended_cases h hpanic with ⟨hctx, -⟩ | ⟨-, ctx, hctx, heq⟩
  · exact ⟨hctx.world, fun r hr => .inr (hctx.mine r hr)⟩
  · rw [heq]
    refine ⟨call_world m configs mine hctx .signalFd, ?_⟩
    rw [call_readings, List.forall_mem_append, List.forall_mem_singleton]
    exact ⟨fun r hr => .inr (hctx.mine r hr), .inl rfl⟩

variable {os : Setup} {args : Args} {scripts : List (List WaitAnswer)} {exit : Exit}
  {w : PollWorld MainSource MainCtx}

/-- Whatever the poller and the kernel do, `main` runs the daemon on exactly what its handlers read,
flushes once more only if it returns, and drops the state when it is left.  Without a frequency the
daemon never ticks. -/
theorem main_runs_daemon (h : main m os args scripts = (exit, some w)) :
    ∃ configs, parseEventGroups os.pfm (eventString args.events) = .returned (.ok configs) ∧
      (args.frequency = 0 → ∀ input ∈ w.ctx.inputs m.env.endian, input.isTick = false) ∧
      w.ctx.world =
        exit.finish m.env (World.daemon m.env configs (w.ctx.inputs m.env.endian)) := by
  obtain ⟨configs, sources, hsetup, hcases⟩ := main_cases h
  obtain ⟨hparse, htimer⟩ := setup_eq_ok hsetup
  refine ⟨configs, hparse, ?_⟩
  rcases hcases with ⟨rfl, w₀, rfl, hctx⟩ | ⟨out, w₀, hpanic, hconclude, hended⟩
  · simp [leave, hctx, MainCtx.inputs, Exit.finish, World.daemon]
  · obtain ⟨hworld, hmine⟩ := ended_world hended hpanic
    obtain ⟨hfinish, hreadings, -⟩ := conclude_frame hconclude
    rw [MainCtx.inputs, hreadings, ← MainCtx.inputs, hfinish, ← hworld]
    refine ⟨fun hzero input hinput => ?_, rfl⟩
    obtain ⟨r, hr, hsome⟩ := List.mem_filterMap.1 hinput
    unfold Reading.input? at hsome
    split at hsome
    · cases hsome
    · rw [← Option.some.inj hsome]
      rfl
    · next hsource =>
      -- There is no timer to read.
      rcases hmine r hr with hsignal | hin
      · rw [hsource] at hsignal
        cases hsignal
      · exact absurd (hsource ▸ hin) (htimer hzero)

theorem main_runs_daemon_interrupted :
    ∃ w configs, main interrupted grantsAll cyclesTenTimes oneEach = (.returned, some w) ∧
      w.ctx.world = ((World.daemon .steady configs (w.ctx.inputs .little)).flushAll .steady).drop
        .steady := by
  obtain ⟨w, hmain⟩ := interrupted_returns
  obtain ⟨configs, -, -, hworld⟩ := main_runs_daemon hmain
  exact ⟨w, configs, hmain, hworld⟩

theorem last_of_quiet {readings : List Reading} {last : Reading}
    (hquiet : ∀ r ∈ readings, r.source ≠ .signalFd) {earlier later : List Reading} {r : Reading}
    (heq : readings ++ [last] = earlier ++ r :: later) (hr : r.source = .signalFd) :
    r = last ∧ later = [] := by
  cases later using List.reverseRecOn with
  | nil => exact ⟨(List.singleton_inj.1 (List.append_inj' heq rfl).2).symm, rfl⟩
  | append_singleton later x =>
      rw [← List.cons_append, ← List.append_assoc] at heq
      have hin : r ∈ readings := by
        rw [(List.append_inj' heq rfl).1]
        simp
      exact absurd hr (hquiet r hin)

theorem finish_closed (env : Env) {world : World} (hw : world.Conserved)
    (hleft : exit ≠ .running) :
    (exit.finish env world).kernel.table = [] ∧
      Holding.after (exit.finish env world).kernel.moves = some [] := by
  cases exit with
  | returned => exact World.drop_closed env ((World.flushAll_same env world).conserved hw)
  | panicked => exact World.drop_closed env hw
  | running => exact absurd rfl hleft

/-- The answer of the signal handler is the last thing that is read and decides how `main` is
left. -/
theorem signal_last {ctx : MainCtx} (hctx : Looping m configs mine ctx)
    (heq : w₀.ctx = (m.call .signalFd ctx).2)
    (hconclude : (exit, w) = conclude m.env (.done (.ok ()), w₀)) {earlier later : List Reading}
    {r : Reading} (hr : w₀.ctx.readings = earlier ++ r :: later) (hsource : r.source = .signalFd) :
    later = [] ∧ exit = match r.answer with
      | .ok _ => .returned
      | .error _ => .panicked (.expect "failed to read signalfd") := by
  rw [heq, call_readings] at hr
  obtain ⟨rfl, hlater⟩ := last_of_quiet hctx.quiet hr hsource
  refine ⟨hlater, ?_⟩
  rw [conclude, heq] at hconclude
  have hunwinding := hctx.unwinding
  unfold MainEnv.call SignalFD.read at hconclude
  dsimp only at hconclude ⊢
  cases hanswer : m.answer ctx.readings .signalFd with
  | ok bs =>
      simp only [hanswer, hunwinding, Bool.false_eq_true, if_false] at hconclude
      exact (Prod.mk.inj hconclude).1
  | error e =>
      simp only [hanswer, if_true] at hconclude
      exact (Prod.mk.inj hconclude).1

/-- `main` does nothing after it has read a signal but finish: it returns if the read succeeded and
panics if not.  It returns for no other reason than a signal or an empty poller, no `poll_once` fails
an `expect` (the assertion of `register_mut` is the exit `.panicked .register`), and however `main`
is left no perf descriptor stays open. -/
theorem main_ends (h : main m os args scripts = (exit, some w)) :
    exit ≠ .panicked .poller ∧
      (∀ earlier r later, w.ctx.readings = earlier ++ r :: later → r.source = .signalFd →
        later = [] ∧ exit = match r.answer with
          | .ok _ => .returned
          | .error _ => .panicked (.expect "failed to read signalfd")) ∧
      (exit = .returned →
        (∃ r ∈ w.ctx.readings, r.source = .signalFd) ∨ w.sources.entries = []) ∧
      (exit ≠ .running → w.ctx.world.kernel.table = [] ∧
        Holding.after w.ctx.world.kernel.moves = some []) := by
  obtain ⟨configs, sources, hsetup, hcases⟩ := main_cases h
  rcases hcases with ⟨rfl, w₀, rfl, hctx⟩ | ⟨out, w₀, hpanic, hconclude, hended⟩
  · refine ⟨by simp, by simp [leave, hctx], by simp, fun _ => ?_⟩
    have hclosed := World.drop_closed m.env (World.new_conserved configs)
    simpa [leave, hctx] using hclosed
  · obtain ⟨hworld, -⟩ := ended_world hended hpanic
    obtain ⟨hfinish, hreadings, hsources⟩ := conclude_frame hconclude
    have hclosed : exit ≠ .running → w.ctx.world.kernel.table = [] ∧
        Holding.after w.ctx.world.kernel.moves = some [] := by
      rw [hfinish, hworld]
      exact finish_closed m.env (World.daemon_conserved m.env configs _)
    obtain ⟨hpoller, hreturned⟩ := conclude_exit hconclude
    have hnot : exit ≠ .panicked .poller := fun heq => hpanic (hpoller heq)
    rw [hreadings, hsources]
    rcases ended_cases hended hpanic with ⟨hctx, hempty⟩ | ⟨rfl, ctx, hctx, heq⟩
    · refine ⟨hnot, ?_, fun hexit => .inr (hempty (hreturned hexit)), hclosed⟩
      intro earlier r later hr hsource
      exact absurd hsource (hctx.quiet r (by simp [hr]))
    · refine ⟨hnot, ?_, ?_, hclosed⟩
      · intro earlier r later hr hsource
        exact signal_last hctx heq hconclude hr hsource
      · intro _
        rw [heq, call_readings]
        exact .inl ⟨_, List.mem_append_right _ List.mem_cons_self, rfl⟩

theorem main_ends_interrupted :
    ∃ w, main interrupted grantsAll cyclesTenTimes oneEach = (.returned, some w) ∧
      w.ctx.world.kernel.table = [] := by
  obtain ⟨w, hmain⟩ := interrupted_returns
  obtain ⟨-, -, -, hclosed⟩ := main_ends hmain
  exact ⟨w, hmain, (hclosed (by simp)).1⟩

end Results

end Threadstat

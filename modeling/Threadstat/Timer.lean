import Threadstat.Lib.Countdown
import Threadstat.Main

/-!
# The timer descriptor

`TimerFD` sets a timer of the kernel, and a read takes the number of times it has expired.  The
kernel's part is a countdown in nanoseconds; whether `timerfd_settime` succeeds is an argument.
-/

namespace Threadstat

open WordBytes

structure Duration where
  secs : UInt64
  nanos : UInt32
  nanos_lt : nanos.toNat < 1000000000

def Duration.asNanos (d : Duration) : Nat := d.secs.toNat * 1000000000 + d.nanos.toNat

def Duration.isZero (d : Duration) : Bool := d.secs = 0 && d.nanos = 0

theorem Duration.asNanos_pos {d : Duration} (h : ¬ d.isZero) : 0 < d.asNanos := by
  by_contra hzero
  have hnanos : d.secs.toNat = 0 ∧ d.nanos.toNat = 0 := by
    unfold asNanos at hzero
    omega
  have hsecs : d.secs = 0 := UInt64.toNat_inj.1 hnanos.1
  have hnanos : d.nanos = 0 := UInt32.toNat_inj.1 hnanos.2
  simp [isZero, hsecs, hnanos] at h

structure Timespec where
  tv_sec : Int
  tv_nsec : Int

def Timespec.asNanos (ts : Timespec) : Nat := ts.tv_sec.toNat * 1000000000 + ts.tv_nsec.toNat

structure Itimerspec where
  it_interval : Timespec
  it_value : Timespec

namespace TimerFD

def ZERO : Timespec := ⟨0, 0⟩

def tooLarge : IoError := .other "duration exceeds timespec"

/-- `to_timespec`, where `time_t` and `c_long` have 64 bits. -/
def toTimespec (d : Duration) : Except IoError Timespec :=
  if d.secs.toNat < 2 ^ 63 then .ok ⟨d.secs.toNat, d.nanos.toNat⟩ else .error tooLarge

/-- `settime`, where `refuse` is the error of `timerfd_settime`, if any. -/
def settime (refuse : Option IoError) (spec : Itimerspec) (timer : Countdown) :
    Except IoError Unit × Countdown :=
  match refuse with
  | some e => (.error e, timer)
  | none => (.ok (), .set spec.it_value.asNanos spec.it_interval.asNanos)

def arm (zero : String) (interval : Timespec → Timespec) (refuse : Option IoError) (d : Duration)
    (timer : Countdown) : Except IoError Unit × Countdown :=
  if d.isZero then (.error (.other zero), timer)
  else
    match toTimespec d with
    | .error e => (.error e, timer)
    | .ok ts => settime refuse { it_interval := interval ts, it_value := ts } timer

def armPeriodic : Option IoError → Duration → Countdown → Except IoError Unit × Countdown :=
  arm "a zero period would disarm the timer; call disarm() instead" id

def armOneshot : Option IoError → Duration → Countdown → Except IoError Unit × Countdown :=
  arm "a zero delay would disarm the timer; call disarm() instead" fun _ => ZERO

def disarm (refuse : Option IoError) (timer : Countdown) : Except IoError Unit × Countdown :=
  settime refuse { it_interval := ZERO, it_value := ZERO } timer

/-- `read(2)` on the descriptor; nothing as long as it waits. -/
def kernelRead (e : Endian) (timer : Countdown) : Option (List UInt8 × Countdown) :=
  if timer.expirations = 0 then none
  else some (encode e (.ofNat timer.expirations), timer.take)

theorem toTimespec_ok {d : Duration} {ts : Timespec} (h : toTimespec d = .ok ts) :
    ts.asNanos = d.asNanos := by
  unfold toTimespec at h
  split at h
  · obtain rfl := Except.ok.inj h
    rfl
  · cases h

/-- Arming a timer never disarms it. -/
theorem arm_cases (zero : String) (interval : Timespec → Timespec) (refuse : Option IoError)
    (d : Duration) (timer : Countdown) :
    (∃ err, arm zero interval refuse d timer = (.error err, timer)) ∨
      0 < d.asNanos ∧ ∃ ts, ts.asNanos = d.asNanos ∧
        arm zero interval refuse d timer = (.ok (), .set ts.asNanos (interval ts).asNanos) := by
  unfold arm
  split
  · exact .inl ⟨_, rfl⟩
  · next hzero =>
    split
    · exact .inl ⟨_, rfl⟩
    · next ts hts =>
      cases refuse with
      | some err => exact .inl ⟨err, rfl⟩
      | none => exact .inr ⟨d.asNanos_pos hzero, ts, toTimespec_ok hts, rfl⟩

end TimerFD

/-! ## Runs of a timer -/

inductive Arming where
  | disarmed
  | periodic (period : Duration)
  | oneshot (delay : Duration)

namespace Arming

/-- How often a timer that is set so expires in `e` nanoseconds. -/
def due : Arming → Nat → Nat
  | .disarmed, _ => 0
  | .periodic period, e => e / period.asNanos
  | .oneshot delay, e => if e < delay.asNanos then 0 else 1

def Proper : Arming → Prop
  | .disarmed => True
  | .periodic period => 0 < period.asNanos
  | .oneshot delay => 0 < delay.asNanos

def value : Arming → Nat
  | .disarmed => 0
  | .periodic period => period.asNanos
  | .oneshot delay => delay.asNanos

def interval : Arming → Nat
  | .disarmed | .oneshot _ => 0
  | .periodic period => period.asNanos

theorem due_eq {a : Arming} (h : a.Proper) (e : Nat) :
    Countdown.due a.value a.interval e = a.due e := by
  cases a with
  | disarmed => exact Countdown.due_of_zero 0 e
  | periodic period => exact Countdown.due_periodic h e
  | oneshot delay => exact Countdown.due_once h e

end Arming

structure TimerRun where
  timer : Countdown
  arming : Arming
  elapsed : Nat
  reads : List UInt64

namespace TimerRun

inductive Step where
  | armPeriodic (refuse : Option IoError) (period : Duration)
  | armOneshot (refuse : Option IoError) (delay : Duration)
  | disarm (refuse : Option IoError)
  | read
  /-- So many nanoseconds pass. -/
  | pass (d : Nat)

/-- `TimerFD::new`: the kernel makes a timer that is not set. -/
def new : TimerRun where
  timer := .set 0 0
  arming := .disarmed
  elapsed := 0
  reads := []

def setTo (s : TimerRun) (arming : Arming) : Except IoError Unit × Countdown → TimerRun
  | (.ok (), timer) => { timer, arming, elapsed := 0, reads := [] }
  | (.error _, timer) => { s with timer }

variable (e : Endian)

/-- One step; a read that has to wait is none. -/
def step (s : TimerRun) : Step → Option TimerRun
  | .armPeriodic refuse period =>
    some (s.setTo (.periodic period) (TimerFD.armPeriodic refuse period s.timer))
  | .armOneshot refuse delay =>
    some (s.setTo (.oneshot delay) (TimerFD.armOneshot refuse delay s.timer))
  | .disarm refuse => some (s.setTo .disarmed (TimerFD.disarm refuse s.timer))
  | .read => do
    let (answer, timer) ← TimerFD.kernelRead e s.timer
    match TimerFD.read e (.ok answer) with
    | .ok expirations => some { s with timer, reads := s.reads ++ [expirations] }
    | .error _ => some { s with timer }
  | .pass d => some { s with timer := s.timer.pass d, elapsed := s.elapsed + d }

def total (s : TimerRun) : Nat := (s.reads.map UInt64.toNat).sum

/-- The timer is where its settings and the time that has passed put it. -/
structure Inv (s : TimerRun) : Prop where
  proper : s.arming.Proper
  interval : s.timer.interval = s.arming.interval
  since : ∃ taken, (s.elapsed < 2 ^ 64 → s.total = taken ∧ ∀ n ∈ s.reads, n ≠ 0) ∧
    Countdown.Since s.arming.value s.arming.interval s.elapsed
      (taken + s.timer.expirations) s.timer.left

theorem new_inv : new.Inv where
  proper := trivial
  interval := rfl
  since := ⟨0, fun _ => ⟨rfl, by simp [new]⟩, .start 0 0⟩

variable {e} {s s' : TimerRun}

theorem set_inv {arming : Arming} (h : arming.Proper) :
    (⟨.set arming.value arming.interval, arming, 0, []⟩ : TimerRun).Inv where
  proper := h
  interval := rfl
  since := ⟨0, fun _ => ⟨rfl, by simp⟩, .start _ _⟩

theorem Inv.setTo {arming : Arming} {r : Except IoError Unit × Countdown} (h : s.Inv)
    (hr : (∃ err, r = (.error err, s.timer)) ∨
      arming.Proper ∧ r = (.ok (), .set arming.value arming.interval)) : (s.setTo arming r).Inv := by
  rcases hr with ⟨err, rfl⟩ | ⟨hproper, rfl⟩
  · exact h
  · exact set_inv hproper

theorem read_encode (e : Endian) (n : UInt64) : TimerFD.read e (.ok (encode e n)) = .ok n := by
  rw [TimerFD.read]
  simp

theorem step_read (s : TimerRun) :
    s.step e .read =
      if s.timer.expirations = 0 then none
      else some { s with
        timer := s.timer.take
        reads := s.reads ++ [.ofNat s.timer.expirations] } := by
  simp only [step, TimerFD.kernelRead]
  split
  · rfl
  · simp [read_encode]

theorem Inv.read (h : s.Inv) (hstep : s.step e .read = some s') : s'.Inv := by
  rw [step_read, Option.ite_none_left_eq_some] at hstep
  obtain ⟨hsome, hstep⟩ := hstep
  obtain rfl := Option.some.inj hstep
  obtain ⟨taken, htaken, hsince⟩ := h.since
  refine ⟨h.proper, h.interval, taken + s.timer.expirations, fun hlong => ?_, hsince⟩
  obtain ⟨htotal, hpos⟩ := htaken hlong
  have hle := hsince.le_elapsed
  have hexact : (UInt64.ofNat s.timer.expirations).toNat = s.timer.expirations := by
    rw [UInt64.toNat_ofNat']
    exact Nat.mod_eq_of_lt (by dsimp only at hlong; omega)
  constructor
  · rw [total, List.map_append, List.sum_append, ← total, htotal]
    simp [hexact]
  · rw [List.forall_mem_append, List.forall_mem_singleton]
    refine ⟨hpos, fun hzero => hsome ?_⟩
    rw [← hexact, hzero]
    rfl

theorem Inv.step {a : Step} (h : s.Inv) (hstep : s.step e a = some s') : s'.Inv := by
  cases a with
  | armPeriodic refuse period =>
      obtain rfl := Option.some.inj hstep
      refine h.setTo ((TimerFD.arm_cases _ _ refuse period s.timer).imp id ?_)
      rintro ⟨hpos, ts, hts, harm⟩
      exact ⟨hpos, harm.trans (by rw [id, hts]; rfl)⟩
  | armOneshot refuse delay =>
      obtain rfl := Option.some.inj hstep
      refine h.setTo ((TimerFD.arm_cases _ _ refuse delay s.timer).imp id ?_)
      rintro ⟨hpos, ts, hts, harm⟩
      exact ⟨hpos, harm.trans (by rw [hts]; rfl)⟩
  | disarm refuse =>
      obtain rfl := Option.some.inj hstep
      refine h.setTo ?_
      cases refuse with
      | some err => exact .inl ⟨err, rfl⟩
      | none => exact .inr ⟨trivial, rfl⟩
  | read => exact h.read hstep
  | pass d =>
      obtain rfl := Option.some.inj hstep
      obtain ⟨taken, htaken, hsince⟩ := h.since
      refine ⟨h.proper, ?_, taken, fun hlong => htaken ?_, hsince.pass h.interval d⟩
      · rw [Countdown.pass_interval, h.interval]
      · dsimp only at hlong
        omega

/-- However a timer is set, refused, read and left alone: since it was last set, its reads have
returned together, with what is still to be read, the number of whole periods that have passed, or
whether the delay has, for as long as a 64-bit count of nanoseconds lasts.  No read returns zero;
it waits instead.  A period or delay that was accepted is not zero. -/
theorem reads_count (e : Endian) (steps : List Step) {s : TimerRun}
    (hrun : Transition.run (step e) new steps = some s) (hlong : s.elapsed < 2 ^ 64) :
    s.arming.Proper ∧ s.total + s.timer.expirations = s.arming.due s.elapsed ∧
      (∀ n ∈ s.reads, n ≠ 0) ∧
      (s.step e .read = none ↔ s.total = s.arming.due s.elapsed) := by
  have hinv : s.Inv := Transition.run_induction (P := fun _ s => s.Inv) new_inv
    (fun _ _ _ _ _ hinv hstep => hinv.step hstep) hrun
  obtain ⟨taken, htaken, hsince⟩ := hinv.since
  obtain ⟨htotal, hpos⟩ := htaken hlong
  have hcount : s.total + s.timer.expirations = s.arming.due s.elapsed := by
    rw [htotal, hsince.eq_due, Arming.due_eq hinv.proper]
  refine ⟨hinv.proper, hcount, hpos, ?_⟩
  rw [step_read, ite_eq_left_iff, ← hcount]
  simp

/-- Two reads' worth of a period of five nanoseconds, with two settings refused in between. -/
def refusals : List Step :=
  [.armPeriodic none ⟨0, 5, by decide⟩, .pass 12, .read, .armPeriodic none ⟨0, 0, by decide⟩,
    .armOneshot (some EINVAL) ⟨1, 0, by decide⟩, .pass 4]

theorem reads_count_refusals :
    ∃ s, Transition.run (step .little) new refusals = some s ∧ s.reads = [2] ∧
      s.total + s.timer.expirations = 3 := by
  obtain ⟨-, hcount, -, -⟩ := reads_count .little refusals rfl (by decide)
  exact ⟨_, rfl, rfl, hcount⟩

end TimerRun

end Threadstat

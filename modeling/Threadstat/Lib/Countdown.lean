import Mathlib.Data.Nat.Basic

/-!
# Interval timers

A timer that is set expires after some time and then again after each interval, if it has one, and
counts its expirations until somebody takes the count.  Time is in whole units and passes in steps
of any length.
-/

structure Countdown where
  /-- Time to the next expiration, or 0 if there is none. -/
  left : Nat
  interval : Nat
  /-- Expirations that nobody has taken yet. -/
  expirations : Nat
  deriving DecidableEq

namespace Countdown

def set (value interval : Nat) : Countdown := ⟨value, interval, 0⟩

def pass (d : Nat) (c : Countdown) : Countdown :=
  if c.left = 0 ∨ d < c.left then { c with left := c.left - d }
  else if c.interval = 0 then { c with left := 0, expirations := c.expirations + 1 }
  else
    { c with
      left := c.interval - (d - c.left) % c.interval
      expirations := c.expirations + 1 + (d - c.left) / c.interval }

@[simp] theorem pass_interval (d : Nat) (c : Countdown) : (c.pass d).interval = c.interval := by
  unfold pass
  split
  · rfl
  · split <;> rfl

theorem le_pass (d : Nat) (c : Countdown) : c.expirations ≤ (c.pass d).expirations := by
  unfold pass
  split
  · exact Nat.le_refl _
  · split
    · exact Nat.le_succ _
    · exact Nat.le_trans (Nat.le_succ _) (Nat.le_add_right _ _)

def take (c : Countdown) : Countdown := { c with expirations := 0 }

/-! ## How often a timer has expired -/

/-- Expirations of a timer with these settings in time `e`. -/
def due (value period e : Nat) : Nat :=
  if value = 0 ∨ e < value then 0
  else if period = 0 then 1
  else 1 + (e - value) / period

/-- The timer was set so, time `e` ago, and has expired `n` times since. -/
inductive Since (value period e n left : Nat) : Prop where
  /-- It was not set to expire at all. -/
  | disarmed (hvalue : value = 0) (hn : n = 0) (hleft : left = 0)
  /-- It has not expired yet. -/
  | first (hn : n = 0) (hleft : 0 < left) (htime : e + left = value)
  /-- It has expired for good. -/
  | spent (hvalue : 0 < value) (hperiod : period = 0) (hn : n = 1) (hleft : left = 0)
      (htime : value ≤ e)
  /-- It has expired, and will again. -/
  | again (hvalue : 0 < value) (hn : 0 < n) (hleft : 0 < left) (hbound : left ≤ period)
      (htime : e + left = value + period * n)

theorem due_of_zero (period e : Nat) : due 0 period e = 0 := if_pos (.inl rfl)

theorem due_once {value : Nat} (h : 0 < value) (e : Nat) :
    due value 0 e = if e < value then 0 else 1 := by
  unfold due
  by_cases hearly : e < value
  · rw [if_pos (.inr hearly), if_pos hearly]
  · rw [if_neg (by omega), if_pos rfl, if_neg hearly]

theorem due_periodic {period : Nat} (h : 0 < period) (e : Nat) :
    due period period e = e / period := by
  unfold due
  by_cases hearly : e < period
  · rw [if_pos (.inr hearly), Nat.div_eq_of_lt hearly]
  · rw [if_neg (by omega), if_neg (by omega), Nat.add_comm, ← Nat.div_eq_sub_div h (by omega)]

variable {value period e n d : Nat}

theorem Since.start (value period : Nat) : Since value period 0 0 (set value period).left := by
  rcases Nat.eq_zero_or_pos value with rfl | hpos
  · exact .disarmed rfl rfl rfl
  · exact .first rfl hpos (Nat.zero_add value)

theorem Since.expire {left : Nat} (hvalue : 0 < value) (hpos : 0 < period) (hleft : left ≤ d)
    (htime : e + left = value + period * n) :
    Since value period (e + d) (n + 1 + (d - left) / period)
      (period - (d - left) % period) := by
  have hmod := Nat.mod_lt (d - left) hpos
  have hdecomp := Nat.div_add_mod (d - left) period
  refine .again hvalue (Nat.add_pos_left n.succ_pos _) (by omega) (by omega) ?_
  rw [Nat.mul_add, Nat.mul_add, Nat.mul_one]
  omega

/-- Time may pass in one step or in many. -/
theorem Since.pass {c : Countdown} {taken : Nat} (hperiod : c.interval = period)
    (h : Since value period e (taken + c.expirations) c.left) (d : Nat) :
    Since value period (e + d) (taken + (c.pass d).expirations) (c.pass d).left := by
  unfold Countdown.pass
  by_cases hwait : c.left = 0 ∨ d < c.left
  · rw [if_pos hwait]
    cases h with
    | disarmed hvalue hn hleft => exact .disarmed hvalue hn (by simp [hleft])
    | first hn hleft htime => exact .first hn (by simp; omega) (by simp; omega)
    | spent hvalue hperiod' hn hleft htime =>
        exact .spent hvalue hperiod' hn (by simp [hleft]) (by omega)
    | again hvalue hn hleft hbound htime =>
        exact .again hvalue hn (by simp; omega) (by simp; omega) (by simp; omega)
  · rw [if_neg hwait, hperiod]
    rw [not_or, Nat.not_lt] at hwait
    obtain ⟨hleft0, hd⟩ := hwait
    by_cases hzero : period = 0
    · rw [if_pos hzero]
      cases h with
      | disarmed _ _ hleft => exact absurd hleft hleft0
      | first hn hleft htime => exact .spent (by omega) hzero (by simp; omega) rfl (by omega)
      | spent _ _ _ hleft _ => exact absurd hleft hleft0
      | again _ _ hleft hbound _ => omega
    · rw [if_neg hzero, ← Nat.add_assoc, ← Nat.add_assoc]
      have hpos := Nat.pos_of_ne_zero hzero
      cases h with
      | disarmed _ _ hleft => exact absurd hleft hleft0
      | first hn _ htime => exact .expire (by omega) hpos hd (by rw [htime, hn]; simp)
      | spent _ hperiod' _ _ _ => exact absurd hperiod' hzero
      | again hvalue _ _ _ htime => exact .expire hvalue hpos hd htime

theorem Since.eq_due {left : Nat} (h : Since value period e n left) : n = due value period e := by
  unfold due
  cases h with
  | disarmed hvalue hn _ => rw [hn, if_pos (.inl hvalue)]
  | first hn hleft htime => rw [hn, if_pos (.inr (by omega))]
  | spent hvalue hperiod hn _ htime =>
      rw [if_neg (by omega), if_pos hperiod, hn]
  | again hvalue hn hleft hbound htime =>
      obtain ⟨k, rfl⟩ := Nat.exists_eq_add_of_lt hn
      rw [Nat.zero_add, Nat.mul_add, Nat.mul_one] at htime
      have hlast : e - value = period - left + period * k := by omega
      rw [if_neg (by omega), if_neg (by omega), hlast, Nat.add_mul_div_left _ _ (by omega),
        Nat.div_eq_of_lt (by omega)]
      omega

theorem Since.le_elapsed {left : Nat} (h : Since value period e n left) : n ≤ e := by
  cases h with
  | disarmed _ hn _ => omega
  | first hn _ _ => omega
  | spent hvalue _ hn _ htime => omega
  | again hvalue hn hleft hbound htime =>
      obtain ⟨k, rfl⟩ := Nat.exists_eq_add_of_lt hn
      rw [Nat.zero_add, Nat.mul_add, Nat.mul_one] at htime
      have hk : k ≤ period * k := Nat.le_mul_of_pos_left k (by omega)
      omega

end Countdown

import Threadstat.Poll.Waits

/-!
# Refused deletions

`deregister` takes a source out of the slab and then has the kernel delete its descriptor.  If the
kernel refuses while it watches the descriptor (`EBADF`, with the descriptor closed and a duplicate
of it open), the descriptor stays watched under a key the slab may hand out again.  Up to the first
refusal a poller behaves as with a kernel that refuses none.
-/

namespace Threadstat

open Journal

variable {H C : Type}

def PollStep.refused : PollStep H → Prop
  | .ctlDel _ _ (.error _) => True
  | _ => False

/-- A handler that is run is that of the source with the event's descriptor. -/
def PollStep.delivered : PollStep H → Prop
  | .call sources _ event handler _ =>
      sources.lookup event.u64 = some ⟨event.fd, handler⟩
  | _ => True

/-- The same handlers and keys with a kernel that refuses no deletion. -/
def PollEnv.deleting (env : PollEnv H C) : PollEnv H C := { env with ctlDel := fun _ _ => none }

theorem PollEnv.deleting_deletes (env : PollEnv H C) : env.deleting.Deletes := fun _ _ _ => rfl

namespace PollWorld

/-- The last step is a refusal: a descriptor is watched under a key that no source has. -/
def Orphaned (w : PollWorld H C) : Prop :=
  ∃ fd key e, w.trace.getLast? = some (.ctlDel w.interest fd (.error e)) ∧
    w.interest.lookup fd = some key ∧ key ∉ w.sources

theorem Orphaned.not_oneToOne {w : PollWorld H C} (h : w.Orphaned) :
    ¬ OneToOne w.sources w.interest := by
  obtain ⟨fd, key, e, -, hwatched, hgone⟩ := h
  intro hone
  obtain ⟨handler, hlive⟩ := (hone key fd).2 hwatched
  rw [AList.lookup_eq_none.2 hgone] at hlive
  cases hlive

theorem Orphaned.refused {w : PollWorld H C} (h : w.Orphaned) :
    ∃ s, w.trace.getLast? = some s ∧ s.refused := by
  obtain ⟨fd, key, e, hlast, -, -⟩ := h
  exact ⟨_, hlast, trivial⟩

def afterRefusal (key : Nat) (fd : RawFd) (e : IoError) (w : PollWorld H C) : PollWorld H C :=
  { w.note (.ctlDel w.interest fd (.error e)) with sources := w.sources.erase key }

theorem orphaned_afterRefusal {w : PollWorld H C} {key : Nat} {fd : RawFd}
    (hwatched : w.interest.lookup fd = some key) (e : IoError) :
    (w.afterRefusal key fd e).Orphaned :=
  ⟨fd, key, e, by simp [afterRefusal, note], hwatched, by simp [afterRefusal, AList.mem_erase]⟩

variable (env : PollEnv H C)

/-! ## Up to the first refusal -/

theorem removeSource_cases {w : PollWorld H C} {key : Nat} {source : Source H}
    (hlive : w.sources.lookup key = some source) :
    w.removeSource env key = w.removeSource env.deleting key ∨
      ∃ e, w.removeSource env key =
        (some (.done (.error e)), w.afterRefusal key source.fd e) := by
  cases hdel : env.ctlDel { w with sources := w.sources.erase key } source.fd with
  | none =>
      left
      simp [removeSource, deregister, hlive, ctlDel, hdel, PollEnv.deleting]
  | some e =>
      right
      refine ⟨e, ?_⟩
      simp [removeSource, deregister, hlive, ctlDel, hdel, afterRefusal, note]

/-- What a turn of the loop returned is the error of a refusal, which orphaned a descriptor. -/
def Refusal (turn : Option (Outcome (Except IoError PollAction)) × PollWorld H C) : Prop :=
  ∃ e, turn.1 = some (.done (.error e)) ∧ turn.2.Orphaned

def settle (event : EpollEvent) (w : PollWorld H C) :
    Except IoError PollAction → Option (Outcome (Except IoError PollAction)) × PollWorld H C
  | .error e => (some (.done (.error e)), w)
  | .ok .Stop => (some (.done (.ok .Stop)), w)
  | .ok .Remove => w.removeSource env event.u64
  | .ok .Continue => if event.hangup then w.removeSource env event.u64 else (none, w)

theorem handleEvent_settle {w : PollWorld H C} {event : EpollEvent} {handler : H}
    (hrel : event.relevant = true)
    (hlive : w.sources.lookup event.u64 = some ⟨event.fd, handler⟩) :
    w.handleEvent env event = (w.afterCall env event handler).settle env event
      (actionOf event.hangup (env.call handler w.ctx).1) := by
  simp only [handleEvent, hrel, hlive, Bool.not_true, Bool.false_eq_true, if_false]
  unfold settle
  rfl

theorem handleEvent_cases {w : PollWorld H C} (hone : OneToOne w.sources w.interest)
    {event : EpollEvent} (hevent : w.interest.lookup event.fd = some event.u64) :
    w.handleEvent env event = w.handleEvent env.deleting event ∨
      Refusal (w.handleEvent env event) := by
  cases hrel : event.relevant with
  | false =>
      left
      simp [handleEvent, hrel]
  | true =>
      obtain ⟨handler, hlive⟩ := (hone event.u64 event.fd).2 hevent
      rw [handleEvent_settle env hrel hlive, handleEvent_settle env.deleting hrel hlive]
      have hremove : (w.afterCall env event handler).removeSource env event.u64 =
            (w.afterCall env event handler).removeSource env.deleting event.u64 ∨
          Refusal ((w.afterCall env event handler).removeSource env event.u64) := by
        refine (removeSource_cases env (w := w.afterCall env event handler) hlive).imp id ?_
        rintro ⟨e, hrefused⟩
        rw [hrefused]
        exact ⟨e, rfl, orphaned_afterRefusal (w := w.afterCall env event handler) hevent e⟩
      show (w.afterCall env event handler).settle env event
            (actionOf event.hangup (env.call handler w.ctx).1) =
          (w.afterCall env event handler).settle env.deleting event
            (actionOf event.hangup (env.call handler w.ctx).1) ∨ _
      cases actionOf event.hangup (env.call handler w.ctx).1 with
      | error e => exact .inl rfl
      | ok action =>
          cases action with
          | Stop => exact .inl rfl
          | Remove => exact hremove
          | Continue =>
              cases hhang : event.hangup with
              | false =>
                  left
                  simp [settle, hhang]
              | true => simpa [settle, hhang] using hremove

theorem handleEvents_cases {w : PollWorld H C} (hone : OneToOne w.sources w.interest)
    {events : List EpollEvent} (hcur : Current w events) :
    w.handleEvents env events = w.handleEvents env.deleting events ∨
      ∃ e, (w.handleEvents env events).1 = .done (.error e) ∧
        (w.handleEvents env events).2.Orphaned := by
  induction events generalizing w with
  | nil => exact .inl rfl
  | cons event events ih =>
      have hevent := hcur.live event (by simp)
      rcases handleEvent_cases env hone hevent with heq | ⟨e, hout, horphaned⟩
      · obtain ⟨out, w', hturn, hdeleting⟩ :=
          handleEvent_turn env.deleting_deletes hone hevent
        rw [handleEvents, handleEvents, heq, hdeleting]
        cases out with
        | some result => exact .inl rfl
        | none => exact ih (hturn.oneToOne hone hevent) (hcur.tail hturn)
      · right
        refine ⟨e, ?_⟩
        rw [handleEvents]
        generalize w.handleEvent env event = turn at hout horphaned
        obtain ⟨out, w'⟩ := turn
        subst hout
        exact ⟨rfl, horphaned⟩

theorem pollOnce_cases (script : List WaitAnswer) {w : PollWorld H C}
    (hone : OneToOne w.sources w.interest) :
    w.pollOnce env script = w.pollOnce env.deleting script ∨
      ∃ e, (w.pollOnce env script).1 = .done (.error e) ∧
        (w.pollOnce env script).2.Orphaned := by
  obtain ⟨interrupted, heq | ⟨e, -, heq⟩ | ⟨batch, heq⟩⟩ := w.waitReady_cases script
  · rw [pollOnce, pollOnce, heq]
    exact .inl rfl
  · rw [pollOnce, pollOnce, heq]
    exact .inl rfl
  · rw [pollOnce, pollOnce, heq]
    exact handleEvents_cases env (w := w.afterWait interrupted (some (.ok batch))) hone
      (eventsOf_current batch _)

theorem run_cases (scripts : List (List WaitAnswer)) {w : PollWorld H C}
    (hone : OneToOne w.sources w.interest) :
    w.run env scripts = w.run env.deleting scripts ∨
      ∃ e, (w.run env scripts).1 = .done (.error e) ∧ (w.run env scripts).2.Orphaned := by
  induction scripts generalizing w with
  | nil =>
      rcases pollOnce_cases env [] hone with heq | ⟨e, hout, -⟩
      · rw [run, run, heq]
        exact .inl rfl
      · -- An unanswered wait returns nothing.
        cases hout
  | cons script scripts ih =>
      rcases pollOnce_cases env script hone with heq | ⟨e, hout, horphaned⟩
      · have hone' := (pollOnce_round env.deleting_deletes script hone).oneToOne hone
        rw [run, run, heq]
        generalize w.pollOnce env.deleting script = poll at hone'
        obtain ⟨out, w'⟩ := poll
        cases out with
        | panicked => exact .inl rfl
        | blocked => exact .inl rfl
        | done result =>
            cases result with
            | error e => exact .inl rfl
            | ok action =>
                cases action with
                | Stop => exact .inl rfl
                | Remove => exact .inl rfl
                | Continue => exact ih hone'
      · right
        refine ⟨e, ?_⟩
        rw [run]
        generalize w.pollOnce env script = poll at hout horphaned
        obtain ⟨out, w'⟩ := poll
        subst hout
        exact ⟨rfl, horphaned⟩

theorem exec_cases (call : PollCall H) {w : PollWorld H C}
    (hone : OneToOne w.sources w.interest) :
    w.exec env call = w.exec env.deleting call ∨
      (w.exec env call).1 = .done () ∧ (w.exec env call).2.Orphaned := by
  cases call with
  | registerMut fd handler => exact .inl rfl
  | pollOnce script =>
      rcases pollOnce_cases env script hone with heq | ⟨e, hout, horphaned⟩
      · left
        simp only [exec, heq]
      · right
        simp only [exec, hout]
        exact ⟨rfl, horphaned⟩
  | run scripts =>
      rcases run_cases env scripts hone with heq | ⟨e, hout, horphaned⟩
      · left
        simp only [exec, heq]
      · right
        simp only [exec, hout]
        exact ⟨rfl, horphaned⟩

/-! ## Sequences of calls -/

theorem StepSound.not_refused {log : List (PollStep H)} {s : PollStep H} (h : StepSound log s) :
    ¬ s.refused := by
  cases s with
  | ctlDel interest fd answer =>
      obtain ⟨-, rfl⟩ := h
      exact id
  | _ => exact id

theorem StepSound.delivered {log : List (PollStep H)} {s : PollStep H} (h : StepSound log s) :
    s.delivered := by
  cases s with
  | call sources interest event handler result => exact h.2.2.1
  | _ => trivial

/-- What a call on a linked poller leaves if the kernel refuses no deletion: only a registration
can panic, and after any other end of the call the poller is still linked. -/
structure Kept (call : PollCall H) (out : Outcome Unit × PollWorld H C) : Prop where
  disciplined : Disciplined StepSound out.2.trace
  linked : out.1 = .done () → out.2.Linked
  noPanic : call.polls → out.1 ≠ .panicked

variable {env}

theorem exec_kept (henv : env.Deletes) {w : PollWorld H C} (h : w.Linked) (call : PollCall H) :
    Kept call (w.exec env call) := by
  cases call with
  | registerMut fd handler =>
      by_cases hadd : env.ctlAdd (w.beforeAdd env fd handler) fd = none ∧ fd ∉ w.interest
      · have hlinked := h.afterRegister (env.vacant w) hadd.2 handler
        rw [exec, registerMut_added hadd.1 hadd.2]
        exact ⟨hlinked.disciplined, fun _ => hlinked, fun hpolls => absurd hpolls id⟩
      · rw [exec, registerMut_refused (by tauto)]
        refine ⟨.snoc h.disciplined trivial, ?_, fun hpolls => absurd hpolls id⟩
        intro hdone
        cases hdone
  | pollOnce script =>
      have hround := pollOnce_round henv script h.oneToOne
      have hlinked := hround.linked h
      have hpanic := hround.not_panicked
      refine ⟨hlinked.disciplined, fun _ => hlinked, fun _ => ?_⟩
      simp only [exec]
      cases hout : (w.pollOnce env script).1 <;> simp_all [Outcome.forget]
  | run scripts =>
      obtain ⟨hpanic, hlinked⟩ := run_linked henv scripts h
      refine ⟨hlinked.disciplined, fun _ => hlinked, fun _ => ?_⟩
      simp only [exec]
      cases hout : (w.run env scripts).1 <;> simp_all [Outcome.forget]

variable (env) in
theorem exec_kept_or_orphaned (call : PollCall H) {w : PollWorld H C} (h : w.Linked) :
    Kept call (w.exec env call) ∨
      (w.exec env call).1 = .done () ∧ (w.exec env call).2.Orphaned := by
  refine (exec_cases env call h.oneToOne).imp ?_ id
  intro heq
  rw [heq]
  exact exec_kept env.deleting_deletes h call

theorem session_append {pre : List (PollCall H)} {w : PollWorld H C}
    (hdone : (w.session env pre).1 = .done ()) (post : List (PollCall H)) :
    w.session env (pre ++ post) = (w.session env pre).2.session env post := by
  induction pre generalizing w with
  | nil => rfl
  | cons call pre ih =>
      rcases session_cons env call pre w with ⟨hcall, heq⟩ | ⟨hcall, heq⟩
      · rw [heq] at hdone
        rw [List.cons_append, session_cons_done hcall, session_cons_done hcall]
        exact ih hdone
      · rw [heq] at hdone
        exact absurd hdone hcall

variable (env) in
/-- A session either keeps everything or has a call that a refusal ends and that orphans a
descriptor. -/
theorem session_kept_or_orphaned (calls : List (PollCall H)) {w : PollWorld H C} (h : w.Linked) :
    Disciplined StepSound (w.session env calls).2.trace ∧
        ((w.session env calls).1 = .done () → (w.session env calls).2.Linked) ∨
      ∃ pre post w', calls = pre ++ post ∧ w.session env pre = (.done (), w') ∧ w'.Orphaned := by
  induction calls generalizing w with
  | nil => exact .inl ⟨h.disciplined, fun _ => h⟩
  | cons call calls ih =>
      rcases session_cons env call calls w with ⟨hdone, heq⟩ | ⟨hnot, heq⟩
      · rcases exec_kept_or_orphaned env call h with hkept | ⟨-, horphaned⟩
        · rw [heq]
          refine (ih (hkept.linked hdone)).imp id ?_
          rintro ⟨pre, post, w', rfl, hpre, horphaned⟩
          exact ⟨call :: pre, post, w', rfl, by rw [session_cons_done hdone, hpre], horphaned⟩
        · right
          refine ⟨[call], calls, (w.exec env call).2, rfl, ?_, horphaned⟩
          rw [session_cons_done hdone]
          rfl
      · rw [heq]
        rcases exec_kept_or_orphaned env call h with hkept | ⟨hdone, -⟩
        · exact .inl ⟨hkept.disciplined, hkept.linked⟩
        · exact absurd hdone hnot

/-- The registries are in step, and in the calls that come later no `poll_once` panics and every
event goes to the handler of its own descriptor. -/
structure Sound (env : PollEnv H C) (w : PollWorld H C) (later : List (PollCall H)) : Prop where
  oneToOne : OneToOne w.sources w.interest
  noPanic : ∀ pre call post, later = pre ++ call :: post → call.polls →
    (w.session env pre).1 = .done () → ((w.session env pre).2.exec env call).1 ≠ .panicked
  delivered : ∀ new, (w.session env later).2.trace = w.trace ++ new → ∀ s ∈ new, s.delivered

/-- Whenever a `poll_once` has just ended with the error of a refused deletion, the poller is left
sound. -/
def LeftSound (env : PollEnv H C) (w : PollWorld H C) (calls : List (PollCall H)) : Prop :=
  ∀ pre later w', calls = pre ++ later → w.session env pre = (.done (), w') →
    (∃ s, w'.trace.getLast? = some s ∧ s.refused) → Sound env w' later

theorem sound_of_no_refusal {w w' : PollWorld H C} (h : w.Linked) {pre later : List (PollCall H)}
    (hnone : ∀ s ∈ (w.session env (pre ++ later)).2.trace, ¬ s.refused)
    (hpre : w.session env pre = (.done (), w')) : Sound env w' later := by
  -- What a prefix of the calls leaves has a prefix of the trace, so nothing is orphaned there.
  have hkept : ∀ mid post, pre ++ later = mid ++ post →
      Disciplined StepSound (w.session env mid).2.trace ∧
        ((w.session env mid).1 = .done () → (w.session env mid).2.Linked) := by
    intro mid post heq
    refine (session_kept_or_orphaned env mid h).resolve_right ?_
    rintro ⟨first, rest, w₁, rfl, hfirst, horphaned⟩
    obtain ⟨s, hlast, hrefused⟩ := horphaned.refused
    have hdone : (w.session env first).1 = .done () := by rw [hfirst]
    refine hnone s ?_ hrefused
    rw [heq, List.append_assoc, session_append hdone, hfirst]
    exact (session_extends env _ w₁).mem (List.mem_of_getLast? hlast)
  have hdone : (w.session env pre).1 = .done () := by rw [hpre]
  constructor
  · have hlinked := (hkept pre later rfl).2 hdone
    rw [hpre] at hlinked
    exact hlinked.oneToOne
  · rintro mid call post rfl hpolls hmid
    have hsession : w.session env (pre ++ mid) = w'.session env mid := by
      rw [session_append hdone, hpre]
    have hlinked := (hkept (pre ++ mid) (call :: post) (by simp)).2 (by rw [hsession, hmid])
    rw [hsession] at hlinked
    rcases exec_kept_or_orphaned env call hlinked with hcall | ⟨hcall, -⟩
    · exact hcall.noPanic hpolls
    · rw [hcall]
      simp
  · intro new htrace s hs
    have hall := (hkept (pre ++ later) [] (by simp)).1.forall fun _ _ => StepSound.delivered
    apply hall
    rw [session_append hdone, hpre, htrace]
    exact List.mem_append_right _ hs

/-- For every sequence of calls: the poller is left sound by every refused deletion exactly if there
is none.  And if there is none, it is sound after every call.  A refusal leaves the descriptor
watched; a descriptor that the kernel has already dropped is gone from both registries, and its
refusal is not one of these. -/
theorem leftSound_iff (ctx : C) (calls : List (PollCall H)) :
    (LeftSound env (new ctx) calls ↔
        ∀ s ∈ ((new ctx).session env calls).2.trace, ¬ s.refused) ∧
      ((∀ s ∈ ((new ctx).session env calls).2.trace, ¬ s.refused) →
        ∀ pre later w', calls = pre ++ later → (new ctx).session env pre = (.done (), w') →
          Sound env w' later) := by
  have hsound : (∀ s ∈ ((new ctx).session env calls).2.trace, ¬ s.refused) →
      ∀ pre later w', calls = pre ++ later → (new ctx).session env pre = (.done (), w') →
        Sound env w' later := by
    rintro hnone pre later w' rfl hpre
    exact sound_of_no_refusal (new_linked ctx) hnone hpre
  refine ⟨⟨fun hleft => ?_, fun hnone pre later w' heq hpre _ => ?_⟩, hsound⟩
  · rcases session_kept_or_orphaned env calls (new_linked ctx) with
      ⟨hdisciplined, -⟩ | ⟨pre, later, w', heq, hpre, horphaned⟩
    · exact hdisciplined.forall fun _ _ => StepSound.not_refused
    · have h := hleft pre later w' heq hpre horphaned.refused
      exact absurd h.oneToOne horphaned.not_oneToOne
  · exact hsound hnone pre later w' heq hpre

def refusing : PollEnv Nat Nat :=
  { counting with ctlDel := fun _ fd => if fd = 4 then some (.os 9) else none }

def refusedRemoval : List (PollCall Nat) := [.registerMut 4 0, .pollOnce [.ok (readable 4)]]

def readyAgain : List (PollCall Nat) := [.registerMut 5 1, .pollOnce [.ok (readable 4)]]

/-- After the refusal the next event of descriptor 4 panics, or goes to the handler of
descriptor 5. -/
theorem refused_removal_misdelivers :
    ((new 0).session refusing (refusedRemoval ++ [.pollOnce [.ok (readable 4)]])).1 = .panicked ∧
      (∃ sources interest,
        ((new 0).session refusing (refusedRemoval ++ readyAgain)).2.trace.getLast? =
          some (.call sources interest ⟨EPOLLIN, 0, 4⟩ 1 (.ok .Continue))) ∧
      ¬ LeftSound refusing (new 0) (refusedRemoval ++ readyAgain) := by
  refine ⟨by rfl, ⟨_, _, by rfl⟩, fun h => ?_⟩
  have hdone : ((new 0).session refusing refusedRemoval).1 = .done () := by rfl
  have hlast : ((new 0).session refusing refusedRemoval).2.trace.getLast? =
      some (.ctlDel ((∅ : Interest).insert 4 0) 4 (.error (.os 9))) := by
    rfl
  have hsound := h refusedRemoval readyAgain ((new 0).session refusing refusedRemoval).2 rfl
    (Prod.ext hdone rfl) ⟨_, hlast, trivial⟩
  have hwatched : ((new 0).session refusing refusedRemoval).2.interest.lookup 4 = some 0 := by rfl
  have hgone : ((new 0).session refusing refusedRemoval).2.sources.lookup 0 = none := by rfl
  obtain ⟨handler, hlive⟩ := (hsound.oneToOne 0 4).2 hwatched
  rw [hgone] at hlive
  cases hlive

end PollWorld

end Threadstat

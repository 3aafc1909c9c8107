import Threadstat.Poll

/-!
# What one `poll_once` can do

With a kernel that deletes what it is asked to, every turn of the loop over a batch is one of five
(`Turn`), a batch is a sequence of turns (`Turns`), and a whole `poll_once` waits forever, gives up
on the wait, or serves a batch (`Round`).  Everything about the poller is proved by cases on these.
-/

namespace Threadstat

variable {H C : Type}

/-- Key `key` is live with descriptor `fd` exactly if `fd` is watched with data `key`. -/
def OneToOne (sources : Slab H) (interest : Interest) : Prop :=
  ∀ key fd, (∃ handler, sources.lookup key = some ⟨fd, handler⟩) ↔ interest.lookup fd = some key

theorem OneToOne.empty : OneToOne (∅ : Slab H) ∅ := by
  intro key fd
  simp

theorem OneToOne.insert {sources : Slab H} {interest : Interest} (h : OneToOne sources interest)
    {key : Nat} {fd : RawFd} (hkey : key ∉ sources) (hfd : fd ∉ interest) (handler : H) :
    OneToOne (sources.insert key ⟨fd, handler⟩) (interest.insert fd key) := by
  intro key' fd'
  have hkey' : sources.lookup key = none := AList.lookup_eq_none.2 hkey
  have hfd' : interest.lookup fd = none := AList.lookup_eq_none.2 hfd
  by_cases hk : key' = key
  · subst hk
    by_cases hf : fd' = fd
    · subst hf
      simp
    · have hold := (h key' fd').not.1 (by simp [hkey'])
      simpa [AList.lookup_insert_ne hf, Ne.symm hf] using hold
  · rw [AList.lookup_insert_ne hk]
    by_cases hf : fd' = fd
    · subst hf
      have hold := (h key' fd').not.2 (by simp [hfd'])
      simpa [Ne.symm hk] using hold
    · rw [AList.lookup_insert_ne hf]
      exact h key' fd'

theorem OneToOne.erase {sources : Slab H} {interest : Interest} (h : OneToOne sources interest)
    {key : Nat} {fd : RawFd} (hlive : interest.lookup fd = some key) :
    OneToOne (sources.erase key) (interest.erase fd) := by
  intro key' fd'
  by_cases hk : key' = key
  · subst hk
    by_cases hf : fd' = fd
    · subst hf
      simp
    · -- A second descriptor under this key would make the slab entry ambiguous.
      have hne : interest.lookup fd' ≠ some key' := by
        intro hother
        obtain ⟨handler, hlookup⟩ := (h key' fd').2 hother
        obtain ⟨handler', hlookup'⟩ := (h key' fd).2 hlive
        rw [hlookup] at hlookup'
        exact hf (congrArg Source.fd (Option.some.inj hlookup'))
      simpa [AList.lookup_erase_ne hf] using hne
  · rw [AList.lookup_erase_ne hk]
    by_cases hf : fd' = fd
    · subst hf
      have hne : ¬ ∃ handler, sources.lookup key' = some ⟨fd', handler⟩ := by
        rw [h key' fd', hlive]
        exact fun heq => hk (Option.some.inj heq).symm
      simpa using hne
    · rw [AList.lookup_erase_ne hf]
      exact h key' fd'

/-! ## What one turn of the loop can do -/

def PollEnv.Deletes (env : PollEnv H C) : Prop :=
  ∀ w fd, fd ∈ w.interest → env.ctlDel w fd = none

/-- The kernel adds every new descriptor and deletes every registered one. -/
structure PollEnv.Reliable (env : PollEnv H C) : Prop where
  add : ∀ w fd, fd ∉ w.interest → env.ctlAdd w fd = none
  del : env.Deletes

namespace PollWorld

variable (env : PollEnv H C)

def afterCall (event : EpollEvent) (handler : H) (w : PollWorld H C) : PollWorld H C :=
  { w.note (.call w.sources w.interest event handler (env.call handler w.ctx).1) with
    ctx := (env.call handler w.ctx).2 }

def afterRemove (event : EpollEvent) (w : PollWorld H C) : PollWorld H C :=
  { w.note (.ctlDel w.interest event.fd (.ok ())) with
    sources := w.sources.erase event.u64
    interest := w.interest.erase event.fd }

/-- What one turn of the loop over the events can do, and what `poll_once` returns if it ends
there. -/
inductive Turn (w : PollWorld H C) (event : EpollEvent) :
    Option (Except IoError PollAction) → PollWorld H C → Prop
  | skip (hskip : event.relevant = false) : Turn w event none w
  | stop (handler : H) (hlive : w.sources.lookup event.u64 = some ⟨event.fd, handler⟩)
      (hrel : event.relevant = true) (hstop : (env.call handler w.ctx).1 = .ok .Stop) :
      Turn w event (some (.ok .Stop)) (w.afterCall env event handler)
  | fail (handler : H) (hlive : w.sources.lookup event.u64 = some ⟨event.fd, handler⟩)
      (hrel : event.relevant = true) (e : IoError)
      (herror : (env.call handler w.ctx).1 = .error e) (halive : event.hangup = false) :
      Turn w event (some (.error e)) (w.afterCall env event handler)
  | remove (handler : H) (hlive : w.sources.lookup event.u64 = some ⟨event.fd, handler⟩)
      (hrel : event.relevant = true)
      (hremove : (env.call handler w.ctx).1 = .ok .Remove ∨
        event.hangup = true ∧ (env.call handler w.ctx).1 ≠ .ok .Stop) :
      Turn w event none ((w.afterCall env event handler).afterRemove event)
  | keep (handler : H) (hlive : w.sources.lookup event.u64 = some ⟨event.fd, handler⟩)
      (hrel : event.relevant = true) (hkeep : (env.call handler w.ctx).1 = .ok .Continue)
      (halive : event.hangup = false) : Turn w event none (w.afterCall env event handler)

variable {env}

theorem removeSource_eq (henv : env.Deletes) {w : PollWorld H C} {event : EpollEvent}
    {handler : H} (hlive : w.sources.lookup event.u64 = some ⟨event.fd, handler⟩)
    (hwatched : event.fd ∈ w.interest) :
    w.removeSource env event.u64 = (none, w.afterRemove event) := by
  have hdel := henv { w with sources := w.sources.erase event.u64 } event.fd hwatched
  simp only [removeSource, deregister, hlive, ctlDel, hdel, hwatched, if_true]
  rfl

/-- A turn on an event the kernel reported for a registered source. -/
theorem handleEvent_turn (henv : env.Deletes) {w : PollWorld H C}
    (hone : OneToOne w.sources w.interest) {event : EpollEvent}
    (hevent : w.interest.lookup event.fd = some event.u64) :
    ∃ out w', Turn env w event out w' ∧ w.handleEvent env event = (out.map .done, w') := by
  cases hrel : event.relevant with
  | false => exact ⟨none, w, .skip hrel, by simp [handleEvent, hrel]⟩
  | true =>
      obtain ⟨handler, hlive⟩ := (hone event.u64 event.fd).2 hevent
      have hwatched : event.fd ∈ w.interest :=
        AList.lookup_isSome.1 (by rw [hevent]; rfl)
      have hremoved : (w.afterCall env event handler).removeSource env event.u64 =
          (none, (w.afterCall env event handler).afterRemove event) :=
        removeSource_eq henv hlive hwatched
      cases hresult : (env.call handler w.ctx).1 with
      | error e =>
          cases hhang : event.hangup with
          | true =>
              refine ⟨none, _, .remove handler hlive hrel (.inr ⟨hhang, by simp [hresult]⟩), ?_⟩
              simpa [handleEvent, afterCall, hrel, hlive, hresult, hhang, actionOf] using hremoved
          | false =>
              refine ⟨some (.error e), _, .fail handler hlive hrel e hresult hhang, ?_⟩
              simp [handleEvent, afterCall, hrel, hlive, hresult, hhang, actionOf]
      | ok action =>
          cases action with
          | Stop =>
              refine ⟨some (.ok .Stop), _, .stop handler hlive hrel hresult, ?_⟩
              simp [handleEvent, afterCall, hrel, hlive, hresult, actionOf]
          | Remove =>
              refine ⟨none, _, .remove handler hlive hrel (.inl hresult), ?_⟩
              simpa [handleEvent, afterCall, hrel, hlive, hresult, actionOf] using hremoved
          | Continue =>
              cases hhang : event.hangup with
              | true =>
                  refine ⟨none, _, .remove handler hlive hrel (.inr ⟨hhang, by simp [hresult]⟩), ?_⟩
                  simpa [handleEvent, afterCall, hrel, hlive, hresult, hhang, actionOf] using hremoved
              | false =>
                  refine ⟨none, _, .keep handler hlive hrel hresult hhang, ?_⟩
                  simp [handleEvent, afterCall, hrel, hlive, hresult, hhang, actionOf]

theorem Turn.lookup_ne {w w' : PollWorld H C} {event : EpollEvent}
    {out : Option (Except IoError PollAction)} (h : Turn env w event out w') {fd : RawFd}
    (hfd : fd ≠ event.fd) : w'.interest.lookup fd = w.interest.lookup fd := by
  cases h with
  | remove handler => exact AList.lookup_erase_ne hfd
  | _ => rfl

theorem Turn.oneToOne {w w' : PollWorld H C} {event : EpollEvent}
    {out : Option (Except IoError PollAction)} (h : Turn env w event out w')
    (hone : OneToOne w.sources w.interest)
    (hevent : w.interest.lookup event.fd = some event.u64) : OneToOne w'.sources w'.interest := by
  cases h with
  | remove handler => exact hone.erase hevent
  | _ => exact hone

/-! ## A batch, and a whole `poll_once` -/

variable (env)

inductive Turns :
    PollWorld H C → List EpollEvent → Except IoError PollAction → PollWorld H C → Prop
  | nil (w : PollWorld H C) :
      Turns w [] (.ok (if w.sources.entries.isEmpty then .Stop else .Continue)) w
  | last {w w' : PollWorld H C} {event : EpollEvent} {events : List EpollEvent}
      {result : Except IoError PollAction} (hturn : Turn env w event (some result) w') :
      Turns w (event :: events) result w'
  | next {w w' w'' : PollWorld H C} {event : EpollEvent} {events : List EpollEvent}
      {result : Except IoError PollAction} (hturn : Turn env w event none w')
      (hrest : Turns w' events result w'') : Turns w (event :: events) result w''

/-- The events are about different descriptors, each watched under the key it carries. -/
structure Current (w : PollWorld H C) (events : List EpollEvent) : Prop where
  nodup : (events.map (·.fd)).Nodup
  live : ∀ event ∈ events, w.interest.lookup event.fd = some event.u64

variable {env}

theorem Current.tail {w w' : PollWorld H C} {event : EpollEvent} {events : List EpollEvent}
    {out : Option (Except IoError PollAction)} (h : Current w (event :: events))
    (hturn : Turn env w event out w') : Current w' events := by
  obtain ⟨hfd, hnodup⟩ := List.nodup_cons.1 h.nodup
  refine ⟨hnodup, fun other hother => ?_⟩
  have hne : other.fd ≠ event.fd := fun heq => hfd (List.mem_map.2 ⟨other, hother, heq⟩)
  rw [hturn.lookup_ne hne]
  exact h.live other (by simp [hother])

theorem handleEvents_turns (henv : env.Deletes) {w : PollWorld H C}
    (hone : OneToOne w.sources w.interest) {events : List EpollEvent} (hcur : Current w events) :
    ∃ result w', Turns env w events result w' ∧ w.handleEvents env events = (.done result, w') := by
  induction events generalizing w with
  | nil => exact ⟨_, w, .nil w, rfl⟩
  | cons event events ih =>
      have hevent := hcur.live event (by simp)
      obtain ⟨out, w', hturn, heq⟩ := handleEvent_turn henv hone hevent
      cases out with
      | some result => exact ⟨result, w', .last hturn, by rw [handleEvents, heq]; rfl⟩
      | none =>
          obtain ⟨result, w'', hrest, heq'⟩ := ih (hturn.oneToOne hone hevent) (hcur.tail hturn)
          exact ⟨result, w'', .next hturn hrest, by rw [handleEvents, heq]; exact heq'⟩

theorem eventsOf_current (batch : Batch) (w : PollWorld H C) :
    Current w (eventsOf w.interest batch) := by
  have hsub : ∀ ready : List (RawFd × UInt32),
      ((ready.filterMap fun r => (w.interest.lookup r.1).map fun data =>
        (⟨r.2, data, r.1⟩ : EpollEvent)).map (·.fd)).Sublist (ready.map Prod.fst) := by
    intro ready
    induction ready with
    | nil => exact .slnil
    | cons r ready ih =>
        cases hdata : w.interest.lookup r.1 with
        | none =>
            simp only [List.filterMap_cons, hdata, Option.map_none, List.map_cons]
            exact ih.cons _
        | some data =>
            simp only [List.filterMap_cons, hdata, Option.map_some, List.map_cons]
            exact ih.cons_cons _
  refine ⟨batch.nodup.sublist (hsub _), fun event hevent => ?_⟩
  obtain ⟨⟨fd, flags⟩, -, hmap⟩ := List.mem_filterMap.1 hevent
  obtain ⟨data, hdata, rfl⟩ := Option.map_eq_some_iff.1 hmap
  exact hdata

def noteInterrupted (errors : List IoError) (w : PollWorld H C) : PollWorld H C :=
  { w with trace := w.trace ++ errors.map fun e => .wait w.sources w.interest (some (.error e)) }

def afterWait (interrupted : List IoError) (answer : Option WaitAnswer) (w : PollWorld H C) :
    PollWorld H C :=
  (w.noteInterrupted interrupted).note (.wait w.sources w.interest answer)

variable (env)

/-- What one `poll_once` can do: wait forever, give up on the wait, or serve a batch. -/
inductive Round (w : PollWorld H C) :
    Outcome (Except IoError PollAction) → PollWorld H C → Prop
  | blocked (interrupted : List IoError) : Round w .blocked (w.afterWait interrupted none)
  | failed (interrupted : List IoError) (e : IoError) (he : e.isInterrupted = false) :
      Round w (.done (.error e)) (w.afterWait interrupted (some (.error e)))
  | served (interrupted : List IoError) (batch : Batch)
      {result : Except IoError PollAction} {w' : PollWorld H C}
      (hserved : Turns env (w.afterWait interrupted (some (.ok batch)))
        (eventsOf w.interest batch) result w') : Round w (.done result) w'

variable {env}

theorem waitReady_cases (script : List WaitAnswer) (w : PollWorld H C) :
    ∃ interrupted : List IoError,
      w.waitReady script = (.blocked, w.afterWait interrupted none) ∨
      (∃ e, e.isInterrupted = false ∧
        w.waitReady script = (.done (.error e), w.afterWait interrupted (some (.error e)))) ∨
      ∃ batch,
        w.waitReady script = (.done (.ok batch), w.afterWait interrupted (some (.ok batch))) := by
  induction script generalizing w with
  | nil => exact ⟨[], .inl (by simp [waitReady, afterWait, noteInterrupted])⟩
  | cons answer script ih =>
      cases answer with
      | ok batch =>
          exact ⟨[], .inr (.inr ⟨batch, by simp [waitReady, afterWait, noteInterrupted]⟩)⟩
      | error e =>
          cases he : e.isInterrupted with
          | false =>
              exact ⟨[], .inr (.inl ⟨e, he, by simp [waitReady, he, afterWait, noteInterrupted]⟩)⟩
          | true =>
              have hstep : ∀ interrupted answer,
                  (w.note (.wait w.sources w.interest (some (.error e)))).afterWait interrupted
                    answer = w.afterWait (e :: interrupted) answer := by
                intro interrupted answer
                simp [afterWait, noteInterrupted, note]
              have heq : w.waitReady (.error e :: script) =
                  (w.note (.wait w.sources w.interest (some (.error e)))).waitReady script := by
                simp [waitReady, he]
              obtain ⟨interrupted, hcases⟩ :=
                ih (w.note (.wait w.sources w.interest (some (.error e))))
              refine ⟨e :: interrupted, ?_⟩
              rw [heq]
              simpa only [hstep] using hcases

theorem pollOnce_round (henv : env.Deletes) (script : List WaitAnswer) {w : PollWorld H C}
    (hone : OneToOne w.sources w.interest) :
    Round env w (w.pollOnce env script).1 (w.pollOnce env script).2 := by
  obtain ⟨interrupted, heq | ⟨e, he, heq⟩ | ⟨batch, heq⟩⟩ := w.waitReady_cases script
  · rw [pollOnce, heq]
    exact .blocked interrupted
  · rw [pollOnce, heq]
    exact .failed interrupted e he
  · have hone' : OneToOne (w.afterWait interrupted (some (.ok batch))).sources
        (w.afterWait interrupted (some (.ok batch))).interest := hone
    obtain ⟨result, w', hturns, hhandle⟩ :=
      handleEvents_turns henv hone' (eventsOf_current batch _)
    have hround : w.pollOnce env script = (.done result, w') := by
      rw [pollOnce, heq]
      exact hhandle
    rw [hround]
    exact .served interrupted batch hturns

theorem Turns.oneToOne {w w' : PollWorld H C} {events : List EpollEvent}
    {result : Except IoError PollAction} (hturns : Turns env w events result w')
    (hone : OneToOne w.sources w.interest) (hcur : Current w events) :
    OneToOne w'.sources w'.interest := by
  induction hturns with
  | nil => exact hone
  | last hturn => exact hturn.oneToOne hone (hcur.live _ (by simp))
  | next hturn _ ih =>
      exact ih (hturn.oneToOne hone (hcur.live _ (by simp))) (hcur.tail hturn)

theorem Round.oneToOne {w w' : PollWorld H C} {out : Outcome (Except IoError PollAction)}
    (hround : Round env w out w') (hone : OneToOne w.sources w.interest) :
    OneToOne w'.sources w'.interest := by
  cases hround with
  | blocked => exact hone
  | failed => exact hone
  | served interrupted batch hserved =>
      exact hserved.oneToOne hone
        (eventsOf_current batch (w.afterWait interrupted (some (.ok batch))))

theorem Round.not_panicked {w w' : PollWorld H C} {out : Outcome (Except IoError PollAction)}
    (hround : Round env w out w') : out ≠ .panicked := by
  cases hround <;> simp

/-- Only `Stop` and `Continue` come out of a batch. -/
theorem Turns.not_remove {w w' : PollWorld H C} {events : List EpollEvent}
    {result : Except IoError PollAction} (hturns : Turns env w events result w') :
    result ≠ .ok .Remove := by
  induction hturns with
  | nil => split <;> simp
  | last hturn => cases hturn <;> simp
  | next _ _ ih => exact ih

theorem Round.not_remove {w w' : PollWorld H C} {out : Outcome (Except IoError PollAction)}
    (hround : Round env w out w') : out ≠ .done (.ok .Remove) := by
  cases hround with
  | blocked => simp
  | failed => simp
  | served interrupted batch hserved =>
      intro heq
      exact hserved.not_remove (Outcome.done.inj heq)

end PollWorld

end Threadstat

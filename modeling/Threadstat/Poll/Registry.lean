import Threadstat.Poll.Rounds
import Threadstat.Lib.Journal

/-!
# The two registries of the poller

The slab and the interest list are updated by separate calls, and the keys of a batch were taken
before its handlers ran.  As long as the kernel adds and deletes what it is asked to, the two
stay in one-to-one correspondence and every event reaches the handler registered with its
descriptor, because a batch names every descriptor at most once and a source only ever removes
itself.
-/

namespace Threadstat

open Journal

variable {H C : Type}

/-! ## The invariant -/

def PollStep.handlerFor (fd : RawFd) : PollStep H → Option H
  | .register fd' handler _ => if fd' = fd then some handler else none
  | _ => none

def lastHandler (log : List (PollStep H)) (fd : RawFd) : Option H :=
  log.reverse.findSome? (PollStep.handlerFor fd)

theorem lastHandler_snoc (log : List (PollStep H)) (s : PollStep H) (fd : RawFd) :
    lastHandler (log ++ [s]) fd = (s.handlerFor fd).or (lastHandler log fd) := by
  rw [lastHandler, List.reverse_append, List.reverse_singleton, List.singleton_append,
    List.findSome?_cons]
  cases s.handlerFor fd <;> rfl

/-- What may be done after a given trace: wait and dispatch with the registries in step, dispatch to
the handler last registered for the event's descriptor, and delete what is watched. -/
def StepSound (log : List (PollStep H)) : PollStep H → Prop
  | .register .. => True
  | .wait sources interest _ => OneToOne sources interest
  | .call sources interest event handler _ =>
      OneToOne sources interest ∧ interest.lookup event.fd = some event.u64 ∧
        sources.lookup event.u64 = some ⟨event.fd, handler⟩ ∧
        lastHandler log event.fd = some handler
  | .ctlDel interest fd answer => fd ∈ interest ∧ answer = .ok ()

namespace PollWorld

variable {env : PollEnv H C}

/-- The registries are in step, live sources have the handler they were registered with, and so it
was at every step so far. -/
structure Linked (w : PollWorld H C) : Prop where
  oneToOne : OneToOne w.sources w.interest
  handlers : ∀ key source, w.sources.lookup key = some source →
    lastHandler w.trace source.fd = some source.handler
  disciplined : Disciplined StepSound w.trace

theorem new_linked (ctx : C) : (new ctx : PollWorld H C).Linked :=
  ⟨.empty, by simp [new], .nil⟩

/-- A step that registers nothing and is sound where it stands. -/
theorem Linked.step {w w' : PollWorld H C} (h : w.Linked) {s : PollStep H}
    (hsound : StepSound w.trace s) (hs : ∀ fd, s.handlerFor fd = none)
    (htrace : w'.trace = w.trace ++ [s]) (hone : OneToOne w'.sources w'.interest)
    (hsub : ∀ key source, w'.sources.lookup key = some source →
      w.sources.lookup key = some source) : w'.Linked where
  oneToOne := hone
  handlers := by
    intro key source hlookup
    rw [htrace, lastHandler_snoc, hs, Option.none_or]
    exact h.handlers key source (hsub key source hlookup)
  disciplined := htrace ▸ .snoc h.disciplined hsound

theorem Linked.afterCall {w : PollWorld H C} (h : w.Linked) {event : EpollEvent} {handler : H}
    (hevent : w.interest.lookup event.fd = some event.u64)
    (hlive : w.sources.lookup event.u64 = some ⟨event.fd, handler⟩) :
    (w.afterCall env event handler).Linked :=
  h.step (s := .call w.sources w.interest event handler (env.call handler w.ctx).1)
    ⟨h.oneToOne, hevent, hlive, h.handlers _ _ hlive⟩ (fun _ => rfl) rfl h.oneToOne fun _ _ => id

theorem Linked.afterRemove {w : PollWorld H C} (h : w.Linked) {event : EpollEvent}
    (hevent : w.interest.lookup event.fd = some event.u64) : (w.afterRemove event).Linked := by
  have hwatched : event.fd ∈ w.interest := AList.lookup_isSome.1 (by rw [hevent]; rfl)
  refine h.step (s := .ctlDel w.interest event.fd (.ok ())) ⟨hwatched, rfl⟩ (fun _ => rfl) rfl
    (h.oneToOne.erase hevent) ?_
  intro key source hlookup
  by_cases hkey : key = event.u64
  · subst hkey
    simp [PollWorld.afterRemove] at hlookup
  · rwa [PollWorld.afterRemove, AList.lookup_erase_ne hkey] at hlookup

theorem Turn.linked {w w' : PollWorld H C} {event : EpollEvent}
    {out : Option (Except IoError PollAction)} (hturn : Turn env w event out w') (h : w.Linked)
    (hevent : w.interest.lookup event.fd = some event.u64) : w'.Linked := by
  cases hturn with
  | skip => exact h
  | stop handler hlive => exact h.afterCall hevent hlive
  | fail handler hlive => exact h.afterCall hevent hlive
  | remove handler hlive =>
      have hcall : (w.afterCall env event handler).Linked := h.afterCall hevent hlive
      exact hcall.afterRemove hevent
  | keep handler hlive => exact h.afterCall hevent hlive

theorem Turns.linked {w w' : PollWorld H C} {events : List EpollEvent}
    {result : Except IoError PollAction} (hturns : Turns env w events result w') (h : w.Linked)
    (hcur : Current w events) : w'.Linked := by
  induction hturns with
  | nil => exact h
  | last hturn => exact hturn.linked h (hcur.live _ (by simp))
  | next hturn _ ih => exact ih (hturn.linked h (hcur.live _ (by simp))) (hcur.tail hturn)

theorem Linked.wait {w : PollWorld H C} (h : w.Linked) (answer : Option WaitAnswer) :
    (w.note (.wait w.sources w.interest answer)).Linked :=
  h.step (s := .wait w.sources w.interest answer) h.oneToOne (fun _ => rfl) rfl h.oneToOne
    fun _ _ => id

theorem Linked.afterWait {w : PollWorld H C} (h : w.Linked) (interrupted : List IoError)
    (answer : Option WaitAnswer) : (w.afterWait interrupted answer).Linked := by
  have hinterrupted : (w.noteInterrupted interrupted).Linked := by
    induction interrupted using List.reverseRecOn with
    | nil => simpa [noteInterrupted] using h
    | append_singleton interrupted e ih =>
        have hnote : w.noteInterrupted (interrupted ++ [e]) = (w.noteInterrupted interrupted).note
            (.wait w.sources w.interest (some (.error e))) := by
          simp [noteInterrupted, note]
        rw [hnote]
        exact ih.wait _
  exact hinterrupted.wait answer

theorem Round.linked {w w' : PollWorld H C} {out : Outcome (Except IoError PollAction)}
    (hround : Round env w out w') (h : w.Linked) : w'.Linked := by
  cases hround with
  | blocked interrupted => exact h.afterWait interrupted none
  | failed interrupted e => exact h.afterWait interrupted _
  | served interrupted batch hserved =>
      exact hserved.linked (h.afterWait interrupted _)
        (eventsOf_current batch (w.afterWait interrupted (some (.ok batch))))

theorem run_linked (henv : env.Deletes) (scripts : List (List WaitAnswer)) {w : PollWorld H C}
    (h : w.Linked) : (w.run env scripts).1 ≠ .panicked ∧ (w.run env scripts).2.Linked := by
  induction scripts generalizing w with
  | nil => exact ⟨by simp [run], (pollOnce_round henv [] h.oneToOne).linked h⟩
  | cons script scripts ih =>
      have hround := pollOnce_round henv script h.oneToOne
      have hlinked := hround.linked h
      have hpanic := hround.not_panicked
      have hremove := hround.not_remove
      generalize hres : w.pollOnce env script = res at hround hlinked hpanic hremove
      obtain ⟨out, w'⟩ := res
      rw [run, hres]
      cases out with
      | panicked => exact absurd rfl hpanic
      | blocked => exact ⟨by simp, hlinked⟩
      | done result =>
          cases result with
          | error e => exact ⟨by simp, hlinked⟩
          | ok action =>
              cases action with
              | Stop => exact ⟨by simp, hlinked⟩
              | Remove => exact absurd rfl hremove
              | Continue => exact ih hlinked

def afterRegister (fd : RawFd) (handler : H) (key : Nat) (w : PollWorld H C) : PollWorld H C where
  sources := w.sources.insert key ⟨fd, handler⟩
  interest := w.interest.insert fd key
  ctx := w.ctx
  trace := w.trace ++ [.register fd handler key]

theorem Linked.afterRegister {w : PollWorld H C} (h : w.Linked) {fd : RawFd} {key : Nat}
    (hkey : key ∉ w.sources) (hfd : fd ∉ w.interest) (handler : H) :
    (w.afterRegister fd handler key).Linked where
  oneToOne := h.oneToOne.insert hkey hfd handler
  handlers := by
    intro key' source hlookup
    unfold PollWorld.afterRegister at hlookup ⊢
    dsimp only at hlookup ⊢
    rw [lastHandler_snoc]
    by_cases hk : key' = key
    · subst hk
      obtain rfl : source = ⟨fd, handler⟩ := by simpa using hlookup.symm
      simp [PollStep.handlerFor]
    · rw [AList.lookup_insert_ne hk] at hlookup
      -- The descriptor is new, so no live source has it.
      have hne : fd ≠ source.fd := by
        intro heq
        have hlive := (h.oneToOne key' source.fd).1 ⟨source.handler, hlookup⟩
        exact hfd (AList.lookup_isSome.1 (by rw [heq, hlive]; rfl))
      simp only [PollStep.handlerFor, hne, if_false, Option.none_or]
      exact h.handlers key' source hlookup
  disciplined := .snoc h.disciplined trivial

def beforeAdd (env : PollEnv H C) (fd : RawFd) (handler : H) (w : PollWorld H C) :
    PollWorld H C :=
  { w with
    sources := w.sources.insert (env.vacantKey w) ⟨fd, handler⟩
    trace := w.trace ++ [.register fd handler (env.vacantKey w)] }

theorem registerMut_added {w : PollWorld H C} {fd : RawFd} {handler : H}
    (hadd : env.ctlAdd (w.beforeAdd env fd handler) fd = none) (hfd : fd ∉ w.interest) :
    w.registerMut env fd handler =
      (.done (), w.afterRegister fd handler (env.vacantKey w)) := by
  simp only [beforeAdd] at hadd
  simp [registerMut, ctlAdd, note, hadd, hfd, afterRegister]

theorem registerMut_refused {w : PollWorld H C} {fd : RawFd} {handler : H}
    (h : env.ctlAdd (w.beforeAdd env fd handler) fd ≠ none ∨ fd ∈ w.interest) :
    w.registerMut env fd handler = (.panicked, w.beforeAdd env fd handler) := by
  cases hadd : env.ctlAdd (w.beforeAdd env fd handler) fd with
  | some e =>
      simp only [beforeAdd] at hadd
      simp [registerMut, ctlAdd, note, hadd, beforeAdd]
  | none =>
      have hfd : fd ∈ w.interest := h.resolve_left fun hne => hne hadd
      simp only [beforeAdd] at hadd
      simp [registerMut, ctlAdd, note, hadd, hfd, beforeAdd]

theorem registerMut_linked (henv : env.Reliable) {w : PollWorld H C} (h : w.Linked) {fd : RawFd}
    (hfd : fd ∉ w.interest) (handler : H) :
    (w.registerMut env fd handler).1 ≠ .panicked ∧ (w.registerMut env fd handler).2.Linked := by
  rw [registerMut_added (henv.add (w.beforeAdd env fd handler) fd hfd) hfd]
  exact ⟨by simp, h.afterRegister (env.vacant w) hfd handler⟩

/-- Every descriptor that gets registered is not watched at that moment. -/
def Distinct (env : PollEnv H C) (w : PollWorld H C) (calls : List (PollCall H)) : Prop :=
  ∀ pre fd handler post, calls = pre ++ .registerMut fd handler :: post →
    fd ∉ (w.session env pre).2.interest

theorem exec_linked (henv : env.Reliable) {w : PollWorld H C} (h : w.Linked) (call : PollCall H)
    (hfd : ∀ fd handler, call = .registerMut fd handler → fd ∉ w.interest) :
    (w.exec env call).1 ≠ .panicked ∧ (w.exec env call).2.Linked := by
  cases call with
  | registerMut fd handler => exact registerMut_linked henv h (hfd fd handler rfl) handler
  | pollOnce script =>
      have hround := pollOnce_round henv.del script h.oneToOne
      have hpanic := hround.not_panicked
      refine ⟨?_, hround.linked h⟩
      simp only [exec]
      cases hout : (w.pollOnce env script).1 <;> simp_all [Outcome.forget]
  | run scripts =>
      obtain ⟨hpanic, hlinked⟩ := run_linked henv.del scripts h
      refine ⟨?_, hlinked⟩
      simp only [exec]
      cases hout : (w.run env scripts).1 <;> simp_all [Outcome.forget]

theorem session_linked (henv : env.Reliable) {calls : List (PollCall H)} {w : PollWorld H C}
    (h : w.Linked) (hfds : Distinct env w calls) :
    (w.session env calls).1 ≠ .panicked ∧ (w.session env calls).2.Linked := by
  induction calls generalizing w with
  | nil => exact ⟨by simp [session], h⟩
  | cons call calls ih =>
      obtain ⟨hpanic, hlinked⟩ := exec_linked henv h call fun fd handler heq =>
        hfds [] fd handler calls (by simp [heq])
      rw [session]
      cases hexec : w.exec env call with
      | mk out w' =>
          rw [hexec] at hpanic hlinked
          cases out with
          | panicked => exact absurd rfl hpanic
          | blocked => exact ⟨by simp, hlinked⟩
          | done _ =>
              refine ih hlinked fun pre fd handler post heq => ?_
              have hlater := hfds (call :: pre) fd handler post (by simp [heq])
              rwa [session, hexec] at hlater

/-! ## Descriptors registered once -/

theorem deregister_interest {key : Nat} {w : PollWorld H C} {fd : RawFd}
    (h : fd ∈ (w.deregister env key).2.interest) : fd ∈ w.interest := by
  unfold deregister at h
  split at h
  · exact h
  · next source _ =>
      unfold ctlDel at h
      dsimp only at h
      split at h
      · exact h
      · exact (AList.mem_erase.1 h).2

theorem removeSource_interest {key : Nat} {w : PollWorld H C} {fd : RawFd}
    (h : fd ∈ (w.removeSource env key).2.interest) : fd ∈ w.interest := by
  suffices hderegister : fd ∈ (w.deregister env key).2.interest from deregister_interest hderegister
  unfold removeSource at h
  split at h <;>
    next heq =>
      rw [heq]
      exact h

theorem handleEvent_interest {event : EpollEvent} {w : PollWorld H C} {fd : RawFd}
    (h : fd ∈ (w.handleEvent env event).2.interest) : fd ∈ w.interest := by
  unfold handleEvent at h
  split at h
  · exact h
  · split at h
    · exact h
    · dsimp only at h
      split at h
      · exact h
      · exact h
      · have hold := removeSource_interest h
        exact hold
      · split at h
        · have hold := removeSource_interest h
          exact hold
        · exact h

theorem handleEvents_interest {events : List EpollEvent} {w : PollWorld H C} {fd : RawFd}
    (h : fd ∈ (w.handleEvents env events).2.interest) : fd ∈ w.interest := by
  induction events generalizing w with
  | nil => exact h
  | cons event events ih =>
      have hone := @handleEvent_interest H C env event w fd
      rw [handleEvents] at h
      generalize w.handleEvent env event = turn at h hone
      obtain ⟨out, w'⟩ := turn
      cases out with
      | some out => exact hone h
      | none => exact hone (ih h)

theorem pollOnce_interest {script : List WaitAnswer} {w : PollWorld H C} {fd : RawFd}
    (h : fd ∈ (w.pollOnce env script).2.interest) : fd ∈ w.interest := by
  obtain ⟨interrupted, heq | ⟨e, -, heq⟩ | ⟨batch, heq⟩⟩ := w.waitReady_cases script
  · rwa [pollOnce, heq] at h
  · rwa [pollOnce, heq] at h
  · rw [pollOnce, heq] at h
    have hold := handleEvents_interest h
    exact hold

theorem run_interest {scripts : List (List WaitAnswer)} {w : PollWorld H C} {fd : RawFd}
    (h : fd ∈ (w.run env scripts).2.interest) : fd ∈ w.interest := by
  induction scripts generalizing w with
  | nil => exact pollOnce_interest h
  | cons script scripts ih =>
      have hone := @pollOnce_interest H C env script w fd
      rw [run] at h
      split at h <;> next heq => rw [heq] at hone; first | exact hone h | exact hone (ih h)

theorem registerMut_interest {fd : RawFd} {handler : H} {w : PollWorld H C} {fd' : RawFd}
    (h : fd' ∈ (w.registerMut env fd handler).2.interest) : fd' ∈ w.interest ∨ fd' = fd := by
  unfold registerMut ctlAdd at h
  dsimp only at h
  split at h <;> next heq =>
    split at heq
    · obtain ⟨-, rfl⟩ := Prod.mk.inj heq
      exact .inl h
    · split at heq
      · obtain ⟨-, rfl⟩ := Prod.mk.inj heq
        exact .inl h
      · obtain ⟨-, rfl⟩ := Prod.mk.inj heq
        exact ((AList.mem_insert _).1 h).symm

def fdOf : PollCall H → Option RawFd
  | .registerMut fd _ => some fd
  | _ => none

theorem session_interest {calls : List (PollCall H)} {w : PollWorld H C} {fd : RawFd}
    (h : fd ∈ (w.session env calls).2.interest) : fd ∈ w.interest ∨ fd ∈ calls.filterMap fdOf := by
  induction calls generalizing w with
  | nil => exact .inl h
  | cons call calls ih =>
      have hone : fd ∈ (w.exec env call).2.interest → fd ∈ w.interest ∨ fdOf call = some fd := by
        intro hexec
        cases call with
        | registerMut fd' handler =>
            exact (registerMut_interest hexec).imp id fun heq => congrArg some heq.symm
        | pollOnce script => exact .inl (pollOnce_interest hexec)
        | run scripts => exact .inl (run_interest hexec)
      have hhere : fd ∈ (w.exec env call).2.interest →
          fd ∈ w.interest ∨ fd ∈ (call :: calls).filterMap fdOf := fun hexec =>
        (hone hexec).imp id fun heq => List.mem_filterMap.2 ⟨call, by simp, heq⟩
      rw [session] at h
      split at h
      · next heq =>
          rcases ih h with hold | hlater
          · exact hhere (by rw [heq]; exact hold)
          · obtain ⟨later, hmem, hfd⟩ := List.mem_filterMap.1 hlater
            exact .inr (List.mem_filterMap.2 ⟨later, by simp [hmem], hfd⟩)
      · next heq => exact hhere (by rw [heq]; exact h)
      · next heq => exact hhere (by rw [heq]; exact h)

/-- Sources with pairwise distinct descriptors are never registered twice. -/
theorem distinct_of_nodup (ctx : C) {calls : List (PollCall H)}
    (h : (calls.filterMap fdOf).Nodup) : Distinct env (new ctx) calls := by
  intro pre fd handler post heq hmem
  rcases session_interest hmem with hnew | hbefore
  · simp [new] at hnew
  · rw [heq, List.filterMap_append, List.nodup_append] at h
    exact h.2.2 fd hbefore fd (by simp [fdOf]) rfl

/-- For every sequence of calls the poller never panics, at every step the two registries are in
one-to-one correspondence, only watched descriptors are deleted, and every event reaches the
handler that was registered with its descriptor. -/
theorem poller_consistent (henv : env.Reliable) (ctx : C) (calls : List (PollCall H))
    (hfds : Distinct env (new ctx) calls) :
    let w := ((new ctx : PollWorld H C).session env calls).2
    ((new ctx : PollWorld H C).session env calls).1 ≠ .panicked ∧
      OneToOne w.sources w.interest ∧
      ∀ pre step post, w.trace = pre ++ step :: post → StepSound pre step := by
  obtain ⟨hpanic, hlinked⟩ := session_linked henv (new_linked ctx) hfds
  refine ⟨hpanic, hlinked.oneToOne, fun pre step post heq => ?_⟩
  have h := hlinked.disciplined
  rw [heq] at h
  exact h.allowed

/-- The least key above all live ones. -/
def nextKey (sources : Slab H) : Nat := sources.keys.foldr (fun key top => max (key + 1) top) 0

theorem nextKey_vacant (sources : Slab H) : nextKey sources ∉ sources := by
  have hlt : ∀ keys : List Nat, ∀ key ∈ keys,
      key < keys.foldr (fun key top => max (key + 1) top) 0 := by
    intro keys
    induction keys with
    | nil => simp
    | cons key keys ih =>
        intro k hk
        rcases List.mem_cons.1 hk with rfl | hk
        · exact Nat.lt_of_lt_of_le (Nat.lt_succ_self _) (Nat.le_max_left _ _)
        · exact Nat.lt_of_lt_of_le (ih k hk) (Nat.le_max_right _ _)
  intro hmem
  exact absurd (hlt _ _ (AList.mem_keys.1 hmem)) (Nat.lt_irrefl _)

/-- The keys that were freed and not handed out again, and how many there are altogether. -/
structure FreeKeys where
  freed : List Nat
  made : Nat

def FreeKeys.after (keys : FreeKeys) : PollStep H → FreeKeys
  | .register _ _ key =>
    if keys.freed.head? = some key then { keys with freed := keys.freed.tail }
    else { keys with made := keys.made + 1 }
  -- The source is out of the slab before the kernel is asked.
  | .ctlDel interest fd _ => { keys with freed := (interest.lookup fd).toList ++ keys.freed }
  | _ => keys

/-- The key that was freed last or else a new one, as the slab chooses it, and some other where that
one is in use. -/
def slabKey (w : PollWorld H C) : Nat :=
  let keys := w.trace.foldl FreeKeys.after ⟨[], 0⟩
  let key := keys.freed.headD keys.made
  if key ∈ w.sources then nextKey w.sources else key

theorem slabKey_vacant (w : PollWorld H C) : slabKey w ∉ w.sources := by
  unfold slabKey
  dsimp only
  split
  · exact nextKey_vacant w.sources
  · next hfree => exact hfree

/-- Handler `0` asks to be removed, every other handler carries on; the context counts the calls. -/
def counting : PollEnv Nat Nat where
  call handler n := (if handler = 0 then .ok .Remove else .ok .Continue, n + 1)
  vacantKey := slabKey
  vacant := slabKey_vacant
  ctlAdd _ _ := none
  ctlDel _ _ := none

theorem counting_reliable : counting.Reliable := ⟨fun _ _ _ => rfl, fun _ _ _ => rfl⟩

def readable (fd : RawFd) : Batch := ⟨[(fd, EPOLLIN)], by simp, by simp [COUNT]⟩

def reusedKey : List (PollCall Nat) :=
  [.registerMut 4 0, .pollOnce [.ok (readable 4)], .registerMut 5 1,
    .pollOnce [.error .EINTR, .ok (readable 5)]]

/-- Of two sources removed in one batch the later one leaves its key to the next. -/
example :
    ((new 0).session counting
      [.registerMut 4 0, .registerMut 5 0,
        .pollOnce [.ok ⟨[(4, EPOLLIN), (5, EPOLLIN)], by decide, by decide⟩],
        .registerMut 6 1]).2.sources.lookup 1 = some ⟨6, 1⟩ := by rfl

/-- The second source gets the key of the first. -/
theorem poller_consistent_reused_key :
    let w := ((new 0).session counting reusedKey).2
    w.ctx = 2 ∧ ((new 0).session counting reusedKey).1 ≠ .panicked ∧
      OneToOne w.sources w.interest ∧
      ∀ pre step post, w.trace = pre ++ step :: post → StepSound pre step :=
  ⟨by rfl, poller_consistent counting_reliable 0 reusedKey (distinct_of_nodup 0 (by decide))⟩

end PollWorld

end Threadstat

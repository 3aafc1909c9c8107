import Threadstat.Poll.Batch
import Threadstat.Poll.Refusal

/-!
# The poller as a loop over its handlers

Who uses a `Poller` proves what each of its handlers does to the context.  From an invariant that
the handlers keep, the rule here says how a whole `run` may end: a handler stopped it, no source is
left, a handler failed, or the poller itself did.  The kernel may refuse whatever it likes.
-/

namespace Threadstat

variable {H C : Type}

/-- What `poll_once` returns when `run` returns `out` after it. -/
def Outcome.stopping : Outcome (Except IoError Unit) → Outcome (Except IoError PollAction)
  | .done result => .done (result.map fun _ => .Stop)
  | .panicked => .panicked
  | .blocked => .blocked

namespace PollWorld

variable (env : PollEnv H C) (S : H → Prop) (I : C → Prop)

/-- Only handlers of the client are registered, and its invariant holds of the context. -/
structure Client (w : PollWorld H C) : Prop where
  handlers : ∀ key source, w.sources.lookup key = some source → S source.handler
  ctx : I w.ctx

/-- The handlers of the client keep its invariant unless they stop the loop. -/
def Keeps : Prop :=
  ∀ handler ctx, S handler → I ctx → (env.call handler ctx).1 ≠ .ok .Stop →
    I (env.call handler ctx).2

inductive Ended (w : PollWorld H C) : Outcome (Except IoError Unit) → Prop
  | stopped (handler : H) (ctx : C) (hmine : S handler) (hctx : I ctx)
      (hcall : env.call handler ctx = (.ok .Stop, w.ctx)) : Ended w (.done (.ok ()))
  | idle (hempty : w.sources.entries = []) (hctx : I w.ctx) : Ended w (.done (.ok ()))
  | failed (handler : H) (ctx : C) (e : IoError) (hmine : S handler) (hctx : I ctx)
      (hcall : env.call handler ctx = (.error e, w.ctx)) : Ended w (.done (.error e))
  /-- The wait failed, or the kernel refused to remove a source. -/
  | poller (e : IoError) (hctx : I w.ctx) : Ended w (.done (.error e))
  | blocked (hctx : I w.ctx) : Ended w .blocked
  | panicked : Ended w .panicked

variable {env S I}

variable (env) in
theorem deregister_frame (key : Nat) (w : PollWorld H C) :
    (w.deregister env key).2.ctx = w.ctx ∧ ∀ key' source,
      (w.deregister env key).2.sources.lookup key' = some source →
        w.sources.lookup key' = some source := by
  unfold deregister
  cases hlookup : w.sources.lookup key with
  | none => exact ⟨rfl, fun _ _ h => h⟩
  | some source =>
      have herase : ∀ key' source', (w.sources.erase key).lookup key' = some source' →
          w.sources.lookup key' = some source' := by
        intro key' source' h
        by_cases heq : key' = key
        · subst heq
          simp at h
        · rwa [AList.lookup_erase_ne heq] at h
      dsimp only
      unfold ctlDel
      dsimp only
      split <;> exact ⟨rfl, herase⟩

variable (env) in
theorem Client.deregister {w : PollWorld H C} (h : w.Client S I) (key : Nat) :
    (w.deregister env key).2.Client S I := by
  obtain ⟨hctx, hsources⟩ := deregister_frame env key w
  exact ⟨fun key' source hlookup => h.handlers key' source (hsources key' source hlookup),
    hctx ▸ h.ctx⟩

def Left (env : PollEnv H C) (S : H → Prop) (I : C → Prop)
    (turn : Option (Outcome (Except IoError PollAction)) × PollWorld H C) : Prop :=
  (turn.1 = none ∧ turn.2.Client S I) ∨
    ∃ out, turn.1 = some out.stopping ∧ Ended env S I turn.2 out

theorem removeSource_left {w : PollWorld H C} (h : w.Client S I) (key : Nat) :
    Left env S I (w.removeSource env key) := by
  have hclient := h.deregister env key
  unfold removeSource
  generalize w.deregister env key = removed at hclient
  obtain ⟨e | _, w'⟩ := removed
  · exact .inr ⟨.done (.error e), rfl, .poller e hclient.ctx⟩
  · exact .inl ⟨rfl, hclient⟩

theorem handleEvent_left (hkeeps : Keeps env S I) {w : PollWorld H C} (h : w.Client S I)
    (event : EpollEvent) : Left env S I (w.handleEvent env event) := by
  unfold handleEvent
  split
  · exact .inl ⟨rfl, h⟩
  · split
    · exact .inr ⟨.panicked, rfl, .panicked⟩
    · next source hlookup =>
      have hmine := h.handlers event.u64 source hlookup
      have hkept := hkeeps source.handler w.ctx hmine h.ctx
      generalize hcall : env.call source.handler w.ctx = called at hkept
      obtain ⟨result, ctx⟩ := called
      dsimp only at hkept ⊢
      have hnext : result ≠ .ok .Stop → ∀ s, Client S I { w.note s with ctx } :=
        fun hne s => ⟨h.handlers, hkept hne⟩
      cases result with
      | error e =>
          cases hhang : event.hangup with
          | false =>
              exact .inr ⟨.done (.error e), rfl, .failed source.handler w.ctx e hmine h.ctx hcall⟩
          | true => exact removeSource_left (hnext (by simp) _) event.u64
      | ok action =>
          cases action with
          | Stop =>
              exact .inr ⟨.done (.ok ()), rfl, .stopped source.handler w.ctx hmine h.ctx hcall⟩
          | Remove => exact removeSource_left (hnext (by simp) _) event.u64
          | Continue =>
              dsimp only [actionOf]
              split
              · exact removeSource_left (hnext (by simp) _) event.u64
              · exact .inl ⟨rfl, hnext (by simp) _⟩

theorem handleEvents_left (hkeeps : Keeps env S I) (events : List EpollEvent) {w : PollWorld H C}
    (h : w.Client S I) :
    ((w.handleEvents env events).1 = .done (.ok .Continue) ∧
        (w.handleEvents env events).2.Client S I) ∨
      ∃ out, (w.handleEvents env events).1 = out.stopping ∧
        Ended env S I (w.handleEvents env events).2 out := by
  induction events generalizing w with
  | nil =>
      rw [handleEvents]
      cases hempty : w.sources.entries.isEmpty with
      | false => exact .inl ⟨rfl, h⟩
      | true => exact .inr ⟨.done (.ok ()), rfl, .idle (List.isEmpty_iff.1 hempty) h.ctx⟩
  | cons event events ih =>
      have hturn := handleEvent_left hkeeps h event
      rw [handleEvents]
      generalize w.handleEvent env event = turn at hturn
      obtain ⟨out, w'⟩ := turn
      rcases hturn with ⟨hnone, hclient⟩ | ⟨out', hout, hended⟩
      · obtain rfl : out = none := hnone
        exact ih hclient
      · obtain rfl : out = some out'.stopping := hout
        exact .inr ⟨out', rfl, hended⟩

theorem Client.afterWait {w : PollWorld H C} (h : w.Client S I) (interrupted : List IoError)
    (answer : Option WaitAnswer) : (w.afterWait interrupted answer).Client S I :=
  ⟨h.handlers, h.ctx⟩

theorem pollOnce_left (hkeeps : Keeps env S I) (script : List WaitAnswer) {w : PollWorld H C}
    (h : w.Client S I) :
    ((w.pollOnce env script).1 = .done (.ok .Continue) ∧ (w.pollOnce env script).2.Client S I) ∨
      ∃ out, (w.pollOnce env script).1 = out.stopping ∧
        Ended env S I (w.pollOnce env script).2 out := by
  obtain ⟨interrupted, heq | ⟨e, he, heq⟩ | ⟨batch, heq⟩⟩ := w.waitReady_cases script
  · rw [pollOnce, heq]
    exact .inr ⟨.blocked, rfl, .blocked (h.afterWait interrupted none).ctx⟩
  · rw [pollOnce, heq]
    exact .inr ⟨.done (.error e), rfl, .poller e (h.afterWait interrupted _).ctx⟩
  · rw [pollOnce, heq]
    exact handleEvents_left hkeeps _ (h.afterWait interrupted _)

/-- The rule for `run`. -/
theorem run_ended (hkeeps : Keeps env S I) (scripts : List (List WaitAnswer))
    {w : PollWorld H C} (h : w.Client S I) (hone : OneToOne w.sources w.interest) :
    (w.run env scripts).1 ≠ .panicked ∧
      Ended env S I (w.run env scripts).2 (w.run env scripts).1 := by
  constructor
  · rcases run_cases env scripts hone with heq | ⟨e, hout, -⟩
    · rw [heq]
      exact run_not_panicked env.deleting_deletes scripts hone
    · rw [hout]
      simp
  · clear hone
    induction scripts generalizing w with
    | nil =>
        have hround := pollOnce_left hkeeps [] h
        rw [run]
        rcases hround with ⟨hout, -⟩ | ⟨out, hout, hended⟩
        · cases hout
        · cases out with
          | blocked => exact hended
          | done => cases hout
          | panicked => cases hout
    | cons script scripts ih =>
        have hround := pollOnce_left hkeeps script h
        rw [run]
        generalize w.pollOnce env script = poll at hround
        obtain ⟨out, w'⟩ := poll
        rcases hround with ⟨hout, hclient⟩ | ⟨out', hout, hended⟩
        · obtain rfl : out = .done (.ok .Continue) := hout
          exact ih hclient
        · obtain rfl : out = out'.stopping := hout
          cases out' with
          | blocked => exact hended
          | panicked => exact hended
          | done result =>
              cases result with
              | error e => exact hended
              | ok _ => exact hended

variable (env) in
theorem registerMut_ctx (fd : RawFd) (handler : H) (w : PollWorld H C) :
    (w.registerMut env fd handler).2.ctx = w.ctx := by
  by_cases hadd : env.ctlAdd (w.beforeAdd env fd handler) fd = none ∧ fd ∉ w.interest
  · rw [registerMut_added hadd.1 hadd.2]
    rfl
  · rw [not_and_or, not_not] at hadd
    rw [registerMut_refused hadd]
    rfl

variable (env) in
theorem register_ctx (sources : List (RawFd × H)) (w : PollWorld H C) :
    (w.session env (sources.map fun s => .registerMut s.1 s.2)).2.ctx = w.ctx := by
  induction sources generalizing w with
  | nil => rfl
  | cons source sources ih =>
      have hctx := registerMut_ctx env source.1 source.2 w
      rw [List.map_cons, session]
      simp only [exec]
      generalize w.registerMut env source.1 source.2 = registered at hctx
      obtain ⟨out, w'⟩ := registered
      cases out with
      | done => exact (ih w').trans hctx
      | panicked => exact hctx
      | blocked => exact hctx

/-- What registering one source keeps or adds, registering several does, unless the kernel refuses
one of them. -/
theorem register_induction {P : List (RawFd × H) → PollWorld H C → Prop}
    (hadd : ∀ old w fd handler, P old w → fd ∉ w.interest →
      P (old ++ [(fd, handler)]) (w.afterRegister fd handler (env.vacantKey w)))
    {old sources : List (RawFd × H)} {w w' : PollWorld H C} (h : P old w)
    (hsession : w.session env (sources.map fun s => .registerMut s.1 s.2) = (.done (), w')) :
    P (old ++ sources) w' := by
  induction sources generalizing w old with
  | nil =>
      obtain ⟨-, rfl⟩ := Prod.mk.inj hsession
      rwa [List.append_nil]
  | cons source sources ih =>
      obtain ⟨fd, handler⟩ := source
      rw [List.map_cons, session] at hsession
      by_cases hfree : env.ctlAdd (w.beforeAdd env fd handler) fd = none ∧ fd ∉ w.interest
      · have hexec : w.exec env (.registerMut fd handler) =
            (.done (), w.afterRegister fd handler (env.vacantKey w)) :=
          registerMut_added hfree.1 hfree.2
        rw [hexec] at hsession
        rw [List.append_cons]
        exact ih (hadd old w fd handler h hfree.2) hsession
      · have hexec : w.exec env (.registerMut fd handler) =
            (.panicked, w.beforeAdd env fd handler) := by
          refine registerMut_refused ?_
          rw [not_and_or, not_not] at hfree
          exact hfree
        rw [hexec] at hsession
        cases hsession

theorem Client.register {sources : List (RawFd × H)} (hmine : ∀ source ∈ sources, S source.2)
    {w w' : PollWorld H C} (h : w.Client S I) (hone : OneToOne w.sources w.interest)
    (hsession : w.session env (sources.map fun s => .registerMut s.1 s.2) = (.done (), w')) :
    w'.Client S I ∧ OneToOne w'.sources w'.interest := by
  let P : List (RawFd × H) → PollWorld H C → Prop := fun old w =>
    (∀ source ∈ old, S source.2) → w.Client S I ∧ OneToOne w.sources w.interest
  have hadd : ∀ old w fd handler, P old w → fd ∉ w.interest →
      P (old ++ [(fd, handler)]) (w.afterRegister fd handler (env.vacantKey w)) := by
    intro old w fd handler hP hfd hmine
    rw [List.forall_mem_append, List.forall_mem_singleton] at hmine
    obtain ⟨hclient, hone⟩ := hP hmine.1
    refine ⟨⟨fun key other hlookup => ?_, hclient.ctx⟩,
      hone.insert (env.vacant w) hfd handler⟩
    unfold afterRegister at hlookup
    by_cases heq : key = env.vacantKey w
    · subst heq
      obtain rfl : ⟨fd, handler⟩ = other := by simpa using hlookup
      exact hmine.2
    · rw [AList.lookup_insert_ne heq] at hlookup
      exact hclient.handlers key other hlookup
  have hall : P ([] ++ sources) w' :=
    register_induction hadd (fun _ => ⟨h, hone⟩) hsession
  exact hall hmine

structure Registered (w : PollWorld H C) (sources : List (RawFd × H)) : Prop where
  oneToOne : OneToOne w.sources w.interest
  lookup : ∀ fd handler,
    (fd, handler) ∈ sources ↔ ∃ key, w.sources.lookup key = some ⟨fd, handler⟩

theorem Registered.add {w : PollWorld H C} {old : List (RawFd × H)} {fd : RawFd} {handler : H}
    (h : w.Registered old) (hfd : fd ∉ w.interest) :
    (w.afterRegister fd handler (env.vacantKey w)).Registered
      (old ++ [(fd, handler)]) where
  oneToOne := h.oneToOne.insert (env.vacant w) hfd handler
  lookup fd' handler' := by
    have hvacant : w.sources.lookup (env.vacantKey w) = none :=
      AList.lookup_eq_none.2 (env.vacant w)
    rw [List.mem_append, List.mem_singleton, h.lookup, afterRegister]
    constructor
    · rintro (⟨key, hkey⟩ | heq)
      · refine ⟨key, ?_⟩
        rw [AList.lookup_insert_ne, hkey]
        rintro rfl
        rw [hvacant] at hkey
        cases hkey
      · obtain ⟨rfl, rfl⟩ := Prod.mk.inj heq
        exact ⟨_, AList.lookup_insert _⟩
    · rintro ⟨key, hkey⟩
      by_cases heq : key = env.vacantKey w
      · subst heq
        rw [AList.lookup_insert] at hkey
        obtain ⟨rfl, rfl⟩ := Source.mk.inj (Option.some.inj hkey)
        exact .inr rfl
      · rw [AList.lookup_insert_ne heq] at hkey
        exact .inl ⟨key, hkey⟩

theorem registered_new (ctx : C) {sources : List (RawFd × H)} {w : PollWorld H C}
    (hsession : (PollWorld.new ctx).session env
      (sources.map fun s => .registerMut s.1 s.2) = (.done (), w)) : w.Registered sources := by
  have hempty : (PollWorld.new ctx : PollWorld H C).Registered [] :=
    ⟨.empty, fun fd handler => by simp [PollWorld.new]⟩
  exact register_induction (P := fun old w => w.Registered old)
    (fun _ _ _ _ h hfd => h.add hfd) hempty hsession

end PollWorld

end Threadstat

import Threadstat.System
import Threadstat.State.Closing

/-!
# When the queue has been emptied

A thread is announced once it has sent its ADD and until it sends its REMOVE.  As long as no tid is
given out again before its thread is signed off, an announced thread has its tid to itself, and a
daemon that has handled everything in the queue holds groups for the announced threads and for no
others.  When none is left, no perf descriptor is open.
-/

namespace Threadstat

def Thread.Announced (t : Thread) : Prop := t.sent = [addMessage t.tid]

instance (t : Thread) : Decidable t.Announced := inferInstanceAs (Decidable (_ = _))

namespace System

/-- The announced threads are the holders of their tids, and no other running thread has one of
these. -/
structure Exclusive (threads : List Thread) (log : List Posted) : Prop where
  alone : ∀ {i j : Nat} {t u : Thread}, threads[i]? = some t → threads[j]? = some u →
    t.Announced → u.pc ≠ .ended → u.tid = t.tid → j = i
  held : ∀ {i : Nat} {t : Thread}, threads[i]? = some t → t.Announced →
    holder log t.tid = some i

section Update

variable {threads : List Thread} {log : List Posted} {i : Nat} {t t' : Thread}

theorem Exclusive.alone_update (h : Exclusive threads log) (ht : threads[i]? = some t)
    (htid : t'.tid = t.tid) (hrun : t'.pc ≠ .ended → t.pc ≠ .ended)
    (hmine : t'.Announced → ∀ j u, threads[j]? = some u → u.pc ≠ .ended → u.tid = t.tid → j = i)
    {j k : Nat} {u v : Thread} (hu : (threads.set i t')[j]? = some u)
    (hv : (threads.set i t')[k]? = some v) (hann : u.Announced) (hpc : v.pc ≠ .ended)
    (heq : v.tid = u.tid) : k = j := by
  rw [getElem?_update ht] at hu hv
  split at hu
  · next hij =>
    obtain rfl := Option.some.inj hu
    obtain rfl := hij
    split at hv
    · next hik => exact hik.symm
    · exact hmine hann k v hv hpc (heq.trans htid)
  · split at hv
    · next hik =>
      obtain rfl := Option.some.inj hv
      obtain rfl := hik
      exact h.alone hu ht hann (hrun hpc) (htid.symm.trans heq)
    · exact h.alone hu hv hann hpc heq

theorem Exclusive.quiet (h : Exclusive threads log) (ht : threads[i]? = some t)
    (htid : t'.tid = t.tid) (hsent : t'.sent = t.sent) (hrun : t'.pc ≠ .ended → t.pc ≠ .ended) :
    Exclusive (threads.set i t') log := by
  have hann : t'.Announced ↔ t.Announced := by rw [Thread.Announced, Thread.Announced, hsent, htid]
  refine ⟨h.alone_update ht htid hrun fun hmine j u hu => ?_, fun {j u} hu hmine => ?_⟩
  · exact h.alone ht hu (hann.1 hmine)
  · rw [getElem?_update ht] at hu
    split at hu
    · next hij =>
      obtain rfl := Option.some.inj hu
      rw [htid, ← hij]
      exact h.held ht (hann.1 hmine)
    · exact h.held hu hmine

theorem Exclusive.send (h : Exclusive threads log) (hordered : Ordered threads log)
    (ht : threads[i]? = some t) (hrun : t.pc ≠ .ended) (htid : t'.tid = t.tid) {m : Message}
    (hm : m.tid = t.tid)
    (hheld : t'.Announced → System.holder (log ++ [⟨i, m⟩]) t.tid = some i) :
    Exclusive (threads.set i t') (log ++ [⟨i, m⟩]) := by
  refine ⟨h.alone_update ht htid (fun _ => hrun) fun _ j u hu hpc heq => ?_, fun {j u} hu hann => ?_⟩
  · exact hordered.distinct hu ht hpc hrun heq
  · rw [getElem?_update ht] at hu
    split at hu
    · next hij =>
      obtain rfl := Option.some.inj hu
      rw [htid, ← hij]
      exact hheld hann
    · next hij =>
      -- The message is about another tid: this one belongs to its thread alone.
      have hne : m.tid ≠ u.tid := fun heq => hij (h.alone hu ht hann hrun (hm.symm.trans heq))
      rw [holder_snoc, holderStep_other hne]
      exact h.held hu hann

end Update

theorem Exclusive.spawn {threads : List Thread} {log : List Posted} (h : Exclusive threads log)
    (routine : Routine) {tid : Pid}
    (hreleased : ∀ t ∈ threads, t.tid = tid → t.sent ≠ [Thread.addMessage tid]) :
    Exclusive (threads ++ [.start routine tid]) log := by
  have hold : ∀ {j : Nat} {u : Thread}, (threads ++ [.start routine tid])[j]? = some u →
      u.Announced → threads[j]? = some u := by
    intro j u hu hann
    rcases getElem?_snoc hu with hu | ⟨-, rfl⟩
    · exact hu
    · simp [Thread.Announced, Thread.start] at hann
  refine ⟨fun {j k u v} hu hv hann hpc heq => ?_, fun hu hann => h.held (hold hu hann) hann⟩
  have hu' := hold hu hann
  rcases getElem?_snoc hv with hv | ⟨-, rfl⟩
  · exact h.alone hu' hv hann hpc heq
  · have htid : u.tid = tid := heq.symm
    exact absurd (htid ▸ hann) (hreleased u (List.mem_of_getElem? hu') htid)

/-! ## Whole runs -/

structure Sound (s : System) : Prop where
  good : s.Good
  exclusive : Exclusive s.threads s.log
  ok : s.world.Ok
  conserved : s.world.Conserved

variable {env : Env}

theorem init_sound (configs : List (NonEmpty (PerfConfig InternC))) : (init configs).Sound where
  good := init_good configs
  exclusive := ⟨fun h => by simp [init] at h, fun h => by simp [init] at h⟩
  ok := World.new_ok configs
  conserved := World.new_conserved configs

theorem Sound.thread {s s' : System} (h : s.Sound) {i : Nat} {action : Thread.Action}
    (hstep : s.step env (.thread i action) = some s') : Exclusive s'.threads s'.log := by
  simp only [System.step, Option.bind_eq_bind, Option.bind_eq_some_iff, Option.pure_def,
    Option.some.injEq] at hstep
  obtain ⟨t, ht, t', ht', rfl⟩ := hstep
  obtain ⟨htid, -, -⟩ := Thread.step_frame ht'
  have hordered := h.good.ordered
  simp only [log, ← List.append_assoc]
  by_cases hend : t.pc = .ended
  · obtain ⟨hend', hsent⟩ := Thread.step_ended hend ht'
    rw [hsent, List.drop_length, List.map_nil, List.append_nil]
    exact h.exclusive.quiet ht htid hsent (absurd hend')
  obtain ⟨lost, hinv⟩ := hordered.inv t (List.mem_of_getElem? ht) hend
  rcases hinv.step_sent ht' with hsent | ⟨hsent, hsent'⟩ | ⟨hsent, hsent'⟩
  · rw [hsent, List.drop_length, List.map_nil, List.append_nil]
    exact h.exclusive.quiet ht htid hsent fun _ => hend
  · rw [hsent, hsent']
    refine h.exclusive.send hordered ht hend htid rfl fun _ => ?_
    exact holder_add ((hordered.sole i t ht hend).1 hsent) (by simp)
  · rw [hsent, hsent']
    refine h.exclusive.send hordered ht hend htid rfl fun hann => ?_
    simp [Thread.Announced, hsent'] at hann

theorem Sound.step {s s' : System} {a : Step} (h : s.Sound) (hreleased : s.TidReleased a)
    (hstep : s.step env a = some s') : s'.Sound := by
  have hgood := h.good.step hreleased hstep
  cases a with
  | spawn routine tid =>
      simp only [System.step, Option.ite_none_left_eq_some, Option.some.injEq] at hstep
      obtain ⟨-, rfl⟩ := hstep
      exact ⟨hgood, h.exclusive.spawn routine hreleased, h.ok, h.conserved⟩
  | thread i action =>
      have hexclusive := h.thread hstep
      simp only [System.step, Option.bind_eq_bind, Option.bind_eq_some_iff, Option.pure_def,
        Option.some.injEq] at hstep
      obtain ⟨t, ht, t', ht', rfl⟩ := hstep
      exact ⟨hgood, hexclusive, h.ok, h.conserved⟩
  | kill i =>
      simp only [System.step, Option.bind_eq_bind, Option.bind_eq_some_iff, Option.pure_def,
        Option.some.injEq] at hstep
      obtain ⟨t, ht, rfl⟩ := hstep
      exact ⟨hgood, h.exclusive.quiet ht rfl rfl (by simp), h.ok, h.conserved⟩
  | receive =>
      simp only [System.step] at hstep
      split at hstep
      · cases hstep
      · next posted queue hqueue =>
        obtain rfl := Option.some.inj hstep
        have hexclusive := h.exclusive
        rw [log, hqueue, ← List.singleton_append, ← List.append_assoc] at hexclusive
        let input := Input.receive (.ok (posted.msg.toBytes env.endian))
        exact ⟨hgood, hexclusive, World.handle_ok env h.ok input,
          World.handle_conserved env h.ok h.conserved input⟩
  | other input =>
      simp only [System.step, Option.ite_none_right_eq_some, Option.some.injEq] at hstep
      obtain ⟨-, rfl⟩ := hstep
      exact ⟨hgood, h.exclusive, World.handle_ok env h.ok _,
        World.handle_conserved env h.ok h.conserved _⟩

theorem run_sound {configs : List (NonEmpty (PerfConfig InternC))} {steps : List Step} {s : System}
    (hrun : Transition.run (step env) (init configs) steps = some s)
    (hmeets : Transition.Meets (step env) TidReleased (init configs) steps) : s.Sound :=
  Transition.meets_induction (P := fun _ s => s.Sound) (init_sound configs)
    (fun _ _ _ _ hsound hreleased hstep => hsound.step hreleased hstep) hmeets hrun

/-- The daemon can always take what is in the queue, one message after the other. -/
theorem Sound.receive_all {s : System} (h : s.Sound) :
    ∃ s', Transition.run (System.step env) s (List.replicate s.queue.length .receive) = some s' ∧
      s'.Sound ∧ s'.queue = [] ∧ s'.threads = s.threads := by
  generalize hn : s.queue.length = n
  induction n generalizing s with
  | zero => exact ⟨s, rfl, h, List.length_eq_zero_iff.1 hn, rfl⟩
  | succ n ih =>
      obtain ⟨posted, queue, hqueue⟩ := List.exists_cons_of_length_eq_add_one hn
      obtain ⟨u, hu, hrest, hthreads⟩ : ∃ u, s.step env .receive = some u ∧ u.queue = queue ∧
          u.threads = s.threads := by
        simp only [System.step, hqueue]
        exact ⟨_, rfl, rfl, rfl⟩
      have hlength : u.queue.length = n := by
        rw [hrest]
        simpa [hqueue] using hn
      obtain ⟨s', hrun, hsound, hempty, hthreads'⟩ := ih (h.step (a := .receive) trivial hu) hlength
      refine ⟨s', ?_, hsound, hempty, hthreads'.trans hthreads⟩
      rw [List.replicate_succ, Transition.run_cons, hu]
      exact hrun

theorem Sound.settled {s : System} (h : s.Sound) (hqueue : s.queue = []) (i : Nat) (tid : Pid) :
    (∃ groups, s.world.state.groups.lookup tid = some groups ∧ s.origin tid = some (i, groups)) ↔
      ∃ t, s.threads[i]? = some t ∧ t.tid = tid ∧ t.Announced := by
  have hlog : s.log = s.handled := by rw [log, hqueue, List.append_nil]
  have htracked := h.good.tracked tid
  constructor
  · rintro ⟨groups, hlookup, horigin⟩
    cases hholder : holder s.handled tid with
    | none =>
        rw [hholder] at htracked
        rw [htracked] at hlookup
        cases hlookup
    | some j =>
        rw [hholder] at htracked
        obtain ⟨groups', -, horigin'⟩ := htracked
        obtain rfl : i = j := congrArg Prod.fst (Option.some.inj (horigin.symm.trans horigin'))
        obtain ⟨t, ht, rfl, hsent⟩ := h.good.ordered.holder tid i (hlog ▸ hholder)
        exact ⟨t, ht, rfl, hsent⟩
  · rintro ⟨t, ht, rfl, hann⟩
    have hheld := h.exclusive.held ht hann
    rw [hlog] at hheld
    rwa [hheld] at htracked

variable (env) in
/-- From whatever state the threads are in, once the daemon has taken what is queued it holds
exactly one set of groups for each announced thread, opened for that thread's ADD, and none
besides.  If no thread is announced, no perf descriptor is open. -/
theorem daemon_drains (configs : List (NonEmpty (PerfConfig InternC))) (steps : List Step)
    {s : System} (hrun : Transition.run (step env) (init configs) steps = some s)
    (hmeets : Transition.Meets (step env) TidReleased (init configs) steps) :
    ∃ s', Transition.run (step env) s (List.replicate s.queue.length .receive) = some s' ∧
      s'.queue = [] ∧ s'.threads = s.threads ∧
      (∀ tid, tid ∈ s'.world.state.groups ↔ ∃ t ∈ s.threads, t.tid = tid ∧ t.Announced) ∧
      (∀ i t, s.threads[i]? = some t → t.Announced →
        ∃ groups, s'.world.state.groups.lookup t.tid = some groups ∧
          s'.origin t.tid = some (i, groups)) ∧
      ((∀ t ∈ s.threads, ¬ t.Announced) → s'.world.kernel.table = []) := by
  obtain ⟨s', hdrain, hsound, hempty, hthreads⟩ := (run_sound hrun hmeets).receive_all
  have hmem : ∀ tid, tid ∈ s'.world.state.groups ↔
      ∃ t ∈ s.threads, t.tid = tid ∧ t.Announced := by
    intro tid
    have hiff := hsound.settled hempty
    rw [hthreads] at hiff
    constructor
    · intro hin
      rw [hsound.good.tracked.mem_iff, Option.isSome_iff_exists] at hin
      obtain ⟨i, hi⟩ := hin
      have htracked := hsound.good.tracked tid
      rw [hi] at htracked
      obtain ⟨t, ht, htid, hann⟩ := (hiff i tid).1 htracked
      exact ⟨t, List.mem_of_getElem? ht, htid, hann⟩
    · rintro ⟨t, ht, htid, hann⟩
      obtain ⟨i, hi⟩ := List.mem_iff_getElem?.1 ht
      obtain ⟨groups, hlookup, -⟩ := (hiff i tid).2 ⟨t, hi, htid, hann⟩
      exact AList.lookup_isSome.1 (by rw [hlookup]; rfl)
  refine ⟨s', hdrain, hempty, hthreads, hmem, fun i t ht hann => ?_, fun hnone => ?_⟩
  · exact (hsound.settled hempty i t.tid).2 ⟨t, hthreads ▸ ht, rfl, hann⟩
  · have hentries : s'.world.state.groups.entries = [] := by
      rw [List.eq_nil_iff_forall_not_mem]
      rintro ⟨tid, groups⟩ hentry
      have hin : tid ∈ s'.world.state.groups :=
        AList.lookup_isSome.1 (by rw [AList.mem_lookup_iff.2 hentry]; rfl)
      obtain ⟨t, ht, -, hann⟩ := (hmem tid).1 hin
      exact hnone t ht hann
    have hperm := hsound.conserved.perm
    rw [World.heldFds, hentries] at hperm
    simpa using hperm.eq_nil

/-- One thread has come and gone and another has announced itself, and the daemon has handled
nothing yet. -/
def backlog : List Step :=
  .spawn .wrapper 5 :: List.replicate 8 (.thread 0 .advance) ++
    [.spawn .constructor 7, .thread 1 .advance, .thread 1 .advance]

theorem daemon_drains_backlog :
    ∃ s s', Transition.run (step .steady) (init [cyclesGroup]) backlog = some s ∧
      s.queue.length = 3 ∧ Transition.run (step .steady) s (List.replicate 3 .receive) = some s' ∧
      s'.queue = [] ∧ 5 ∉ s'.world.state.groups ∧ 7 ∈ s'.world.state.groups := by
  obtain ⟨s', hdrain, hempty, -, hmem, -, -⟩ :=
    daemon_drains .steady [cyclesGroup] backlog rfl (by decide)
  refine ⟨_, s', rfl, rfl, hdrain, hempty, ?_, ?_⟩
  · rw [hmem]
    decide
  · rw [hmem]
    decide

end System

end Threadstat

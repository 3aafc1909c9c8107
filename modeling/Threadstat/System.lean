import Threadstat.Session
import Threadstat.State.Steady
import Threadstat.Wrapper

/-!
# Threads, queue and daemon

Any number of monitored threads, the message queue and the daemon, interleaved in any order.  The
kernel gives a new thread a tid that no running thread has, so a tid comes back once its thread
has ended.  Threads are told apart by their place in the list of all threads ever started.
-/

namespace Threadstat

structure Posted where
  sender : Nat
  msg : Message
  deriving DecidableEq

structure System where
  /-- All threads ever started. -/
  threads : List Thread
  queue : List Posted
  /-- The messages the daemon has taken off the queue. -/
  handled : List Posted
  world : World
  /-- The groups that were put in the map for a tid, with the sender of the message that was being
  handled then. -/
  origin : Pid → Option (Nat × TidGroups)

namespace System

inductive Step where
  /-- A new thread gets this tid. -/
  | spawn (routine : Routine) (tid : Pid)
  | thread (i : Nat) (action : Thread.Action)
  /-- The thread ends with its process, wherever it is. -/
  | kill (i : Nat)
  /-- The daemon takes the first message off the queue and handles it. -/
  | receive
  /-- Any other turn of the daemon. -/
  | other (input : Input)

def init (configs : List (NonEmpty (PerfConfig InternC))) : System where
  threads := []
  queue := []
  handled := []
  world := .new configs
  origin _ := none

def Running (s : System) (tid : Pid) : Prop := ∃ t ∈ s.threads, t.pc ≠ .ended ∧ t.tid = tid

instance (s : System) (tid : Pid) : Decidable (s.Running tid) :=
  inferInstanceAs (Decidable (∃ t ∈ s.threads, t.pc ≠ .ended ∧ t.tid = tid))

def originAfter (s : System) (sender : Nat) (world : World) (tid : Pid) :
    Option (Nat × TidGroups) :=
  match world.state.groups.lookup tid with
  | none => none
  | some groups => if tid ∈ s.world.state.groups then s.origin tid else some (sender, groups)

variable (env : Env)

def step (s : System) : Step → Option System
  | .spawn routine tid =>
    if s.Running tid then none else some { s with threads := s.threads ++ [.start routine tid] }
  | .thread i action => do
    let t ← s.threads[i]?
    let t' ← t.step action
    return { s with
      threads := s.threads.set i t'
      queue := s.queue ++ (t'.sent.drop t.sent.length).map (Posted.mk i) }
  | .kill i => do
    let t ← s.threads[i]?
    return { s with threads := s.threads.set i { t with pc := .ended } }
  | .receive =>
    match s.queue with
    | [] => none
    | posted :: queue =>
      let world := s.world.handle env (.receive (.ok (posted.msg.toBytes env.endian)))
      some { s with
        queue
        handled := s.handled ++ [posted]
        world
        origin := s.originAfter posted.sender world }
  | .other input =>
    if input.message? env.endian = none then some { s with world := s.world.handle env input }
    else none

/-- When a tid is given out, every earlier thread that had it and sent its ADD has sent its
REMOVE. -/
def TidReleased (s : System) : Step → Prop
  | .spawn _ tid => ∀ t ∈ s.threads, t.tid = tid → t.sent ≠ [Thread.addMessage tid]
  | _ => True

instance (s : System) : ∀ a, Decidable (s.TidReleased a)
  | .spawn _ tid =>
    inferInstanceAs (Decidable (∀ t ∈ s.threads, t.tid = tid → t.sent ≠ [Thread.addMessage tid]))
  | .thread _ _ | .kill _ | .receive | .other _ => .isTrue trivial

/-! ## Who holds a tid -/

/-- The thread whose ADD opened the groups of `tid`, after one more message. -/
def holderStep (tid : Pid) (holder : Option Nat) (posted : Posted) : Option Nat :=
  match ThreadstatMessage.tryFrom posted.msg with
  | .ok msg =>
    if msg.tid = tid then
      match msg.flag with
      | .AddProcess => holder.or (some posted.sender)
      | .RemoveProcess => none
    else holder
  | .error _ => holder

def holder (log : List Posted) (tid : Pid) : Option Nat := log.foldl (holderStep tid) none

theorem holder_append (log more : List Posted) (tid : Pid) :
    holder (log ++ more) tid = more.foldl (holderStep tid) (holder log tid) := by
  simp [holder]

theorem holder_snoc (log : List Posted) (posted : Posted) (tid : Pid) :
    holder (log ++ [posted]) tid = holderStep tid (holder log tid) posted := by
  rw [holder_append]
  rfl

theorem tryFrom_addMessage (tid : Pid) :
    ThreadstatMessage.tryFrom (Thread.addMessage tid) = .ok ⟨tid, .AddProcess⟩ := rfl

theorem tryFrom_removeMessage (tid : Pid) :
    ThreadstatMessage.tryFrom (Thread.removeMessage tid) = .ok ⟨tid, .RemoveProcess⟩ := rfl

theorem holderStep_other {tid : Pid} {posted : Posted} (h : posted.msg.tid ≠ tid)
    (current : Option Nat) : holderStep tid current posted = current := by
  unfold holderStep ThreadstatMessage.tryFrom
  split_ifs <;> simp [h]

theorem foldl_holderStep_other {tid : Pid} {log : List Posted}
    (h : ∀ posted ∈ log, posted.msg.tid ≠ tid) (current : Option Nat) :
    log.foldl (holderStep tid) current = current := by
  induction log with
  | nil => rfl
  | cons posted log ih =>
      rw [List.foldl_cons, holderStep_other (h posted List.mem_cons_self)]
      exact ih fun p hp => h p (List.mem_cons_of_mem _ hp)

theorem holder_add {log later : List Posted} {tid : Pid} {i : Nat} (hnone : holder log tid = none)
    (hlater : ∀ posted ∈ later, posted.msg.tid ≠ tid) :
    holder (log ++ ⟨i, Thread.addMessage tid⟩ :: later) tid = some i := by
  rw [holder_append, List.foldl_cons, foldl_holderStep_other hlater, hnone, holderStep,
    tryFrom_addMessage]
  simp

theorem holder_remove (log : List Posted) (tid : Pid) (i : Nat) :
    holder (log ++ [⟨i, Thread.removeMessage tid⟩]) tid = none := by
  rw [holder_snoc, holderStep, tryFrom_removeMessage]
  simp

/-! ## The daemon and the log -/

theorem message?_toBytes (e : WordBytes.Endian) (msg : Message) :
    (Input.receive (.ok (msg.toBytes e))).message? e = (ThreadstatMessage.tryFrom msg).toOption := by
  simp [Input.message?, MQueueReader.read]

/-- The daemon holds groups for a tid if and only if the handled messages say so, and they were
opened for the sender those messages name. -/
def Tracked (s : System) : Prop :=
  ∀ tid, match holder s.handled tid with
    | none => s.world.state.groups.lookup tid = none
    | some i => ∃ groups, s.world.state.groups.lookup tid = some groups ∧
        s.origin tid = some (i, groups)

variable {env}

theorem Tracked.mem_iff {s : System} (h : s.Tracked) (tid : Pid) :
    tid ∈ s.world.state.groups ↔ (holder s.handled tid).isSome = true := by
  have htid := h tid
  rw [← AList.lookup_isSome]
  cases hholder : holder s.handled tid with
  | none => rw [hholder] at htid; simp [htid]
  | some i =>
      rw [hholder] at htid
      obtain ⟨groups, hlookup, -⟩ := htid
      simp [hlookup]

theorem holderStep_sender {tid : Pid} {current : Option Nat} {posted : Posted} {i : Nat}
    (h : holderStep tid current posted = some i) :
    current = some i ∨ (current = none ∧ posted.sender = i) := by
  unfold holderStep at h
  split at h
  · split at h
    · split at h
      · cases current <;> simp_all
      · cases h
    · exact .inl h
  · exact .inl h

theorem Tracked.mem_after {s : System} (h : s.Tracked) (posted : Posted) (tid : Pid) :
    tid ∈ (s.world.handle env (.receive (.ok (posted.msg.toBytes env.endian)))).state.groups ↔
      (holderStep tid (holder s.handled tid) posted).isSome = true := by
  have hbytes := message?_toBytes env.endian posted.msg
  cases htry : ThreadstatMessage.tryFrom posted.msg with
  | error e =>
      rw [htry] at hbytes
      rw [World.handle_groups_of_none env _ hbytes, h.mem_iff, holderStep, htry]
  | ok msg =>
      obtain ⟨tid', flag⟩ := msg
      rw [htry] at hbytes
      rw [World.handle_mem_groups env _ hbytes, h.mem_iff, holderStep, htry]
      by_cases heq : tid' = tid
      · cases flag <;> cases holder s.handled tid <;> simp [heq]
      · simp [heq]

/-- Handling a message keeps the daemon in step with the log. -/
theorem Tracked.receive {s : System} (h : s.Tracked) (posted : Posted) (queue : List Posted) :
    let world := s.world.handle env (.receive (.ok (posted.msg.toBytes env.endian)))
    Tracked { s with
      queue
      handled := s.handled ++ [posted]
      world
      origin := s.originAfter posted.sender world } := by
  intro world tid
  have hafter : tid ∈ world.state.groups ↔ _ := h.mem_after posted tid
  dsimp only
  rw [holder_snoc]
  cases hnext : holderStep tid (holder s.handled tid) posted with
  | none =>
      rw [hnext] at hafter
      exact AList.lookup_eq_none.2 fun hmem => by simpa using hafter.1 hmem
  | some i =>
      have hmem : tid ∈ world.state.groups := hafter.2 (by rw [hnext]; rfl)
      rcases holderStep_sender hnext with hheld | ⟨hfree, hsender⟩
      · -- The tid was held, so its groups and their origin stay.
        have hbefore : tid ∈ s.world.state.groups := (h.mem_iff tid).2 (by rw [hheld]; rfl)
        have htid := h tid
        rw [hheld] at htid
        obtain ⟨groups, hlookup, horigin⟩ := htid
        have hsame : world.state.groups.lookup tid = some groups :=
          (World.handle_lookup env hbefore hmem).trans hlookup
        refine ⟨groups, hsame, ?_⟩
        rw [originAfter, hsame]
        exact (if_pos hbefore).trans horigin
      · have hbefore : tid ∉ s.world.state.groups := fun hin => by
          simpa [hfree] using (h.mem_iff tid).1 hin
        obtain ⟨groups, hlookup⟩ := Option.isSome_iff_exists.1 (AList.lookup_isSome.2 hmem)
        refine ⟨groups, hlookup, ?_⟩
        rw [originAfter, hlookup, ← hsender]
        exact if_neg hbefore

theorem init_tracked (configs : List (NonEmpty (PerfConfig InternC))) : (init configs).Tracked :=
  fun _ => rfl

theorem Tracked.other {s : System} (h : s.Tracked) {input : Input}
    (hnone : input.message? env.endian = none) :
    Tracked { s with world := s.world.handle env input } := by
  intro tid
  dsimp only
  rw [World.handle_groups_of_none env _ hnone]
  exact h tid

/-! ## Threads and the log -/

def log (s : System) : List Posted := s.handled ++ s.queue

/-- While a thread runs, its tid is free until it sends its ADD, and no message for its tid follows
that ADD until it sends its REMOVE. -/
def Sole (log : List Posted) (i : Nat) (t : Thread) : Prop :=
  (t.sent = [] → holder log t.tid = none) ∧
  (t.sent = [Thread.addMessage t.tid] →
    ∃ earlier later, log = earlier ++ ⟨i, Thread.addMessage t.tid⟩ :: later ∧
      ⟨i, Thread.addMessage t.tid⟩ ∉ earlier ∧ holder earlier t.tid = none ∧
      ∀ posted ∈ later, posted.msg.tid ≠ t.tid)

structure Ordered (threads : List Thread) (log : List Posted) : Prop where
  /-- Running threads have distinct tids. -/
  distinct : ∀ {i j : Nat} {t u : Thread}, threads[i]? = some t → threads[j]? = some u →
    t.pc ≠ .ended → u.pc ≠ .ended → t.tid = u.tid → i = j
  /-- A running thread follows the library's code. -/
  inv : ∀ t ∈ threads, t.pc ≠ .ended → ∃ lost, t.Inv lost
  posted : ∀ posted ∈ log, ∃ t, threads[posted.sender]? = some t ∧ posted.msg ∈ t.sent
  holder : ∀ tid i, holder log tid = some i →
    ∃ t, threads[i]? = some t ∧ t.tid = tid ∧ t.sent = [Thread.addMessage tid]
  sole : ∀ i t, threads[i]? = some t → t.pc ≠ .ended → Sole log i t

theorem Sole.other {log : List Posted} {i : Nat} {t : Thread} (h : Sole log i t) {posted : Posted}
    (hne : posted.msg.tid ≠ t.tid) : Sole (log ++ [posted]) i t := by
  refine ⟨fun hsent => ?_, fun hsent => ?_⟩
  · rw [holder_snoc, holderStep_other hne]
    exact h.1 hsent
  · obtain ⟨earlier, later, heq, hfirst, hnone, hlater⟩ := h.2 hsent
    refine ⟨earlier, later ++ [posted], by simp [heq], hfirst, hnone, fun p hp => ?_⟩
    rcases List.mem_append.1 hp with hp | hp
    · exact hlater p hp
    · rwa [List.mem_singleton.1 hp]

section Update

variable {threads : List Thread} {log : List Posted} {i : Nat} {t t' : Thread}

theorem getElem?_update (ht : threads[i]? = some t) (j : Nat) :
    (threads.set i t')[j]? = if i = j then some t' else threads[j]? := by
  have hlt : i < threads.length := (List.getElem?_eq_some_iff.1 ht).1
  rw [List.getElem?_set]
  simp [hlt]

theorem Ordered.distinct_update (h : Ordered threads log) (ht : threads[i]? = some t)
    (htid : t'.tid = t.tid) (hrun : t'.pc ≠ .ended → t.pc ≠ .ended) {j k : Nat} {u v : Thread}
    (hu : (threads.set i t')[j]? = some u) (hv : (threads.set i t')[k]? = some v)
    (hju : u.pc ≠ .ended) (hkv : v.pc ≠ .ended) (heq : u.tid = v.tid) : j = k := by
  -- Seen from outside, the new thread is the old one.
  have hold : ∀ {l : Nat} {x : Thread}, (threads.set i t')[l]? = some x → x.pc ≠ .ended →
      ∃ y, threads[l]? = some y ∧ y.pc ≠ .ended ∧ y.tid = x.tid := by
    intro l x hx hpc
    rw [getElem?_update ht] at hx
    split at hx
    · next hil =>
      obtain rfl := Option.some.inj hx
      exact ⟨t, hil ▸ ht, hrun hpc, htid.symm⟩
    · exact ⟨x, hx, hpc, rfl⟩
  obtain ⟨u', hu', hpu, htu⟩ := hold hu hju
  obtain ⟨v', hv', hpv, htv⟩ := hold hv hkv
  exact h.distinct hu' hv' hpu hpv (htu.trans (heq.trans htv.symm))

theorem Ordered.inv_update (h : Ordered threads log)
    (hinv : t'.pc ≠ .ended → ∃ lost, t'.Inv lost) :
    ∀ u ∈ threads.set i t', u.pc ≠ .ended → ∃ lost, u.Inv lost := by
  intro u hu hpc
  rcases List.mem_or_eq_of_mem_set hu with hu | rfl
  · exact h.inv u hu hpc
  · exact hinv hpc

theorem Ordered.quiet (h : Ordered threads log) (ht : threads[i]? = some t)
    (htid : t'.tid = t.tid) (hsent : t'.sent = t.sent) (hrun : t'.pc ≠ .ended → t.pc ≠ .ended)
    (hinv : t'.pc ≠ .ended → ∃ lost, t'.Inv lost) : Ordered (threads.set i t') log where
  distinct := h.distinct_update ht htid hrun
  inv := h.inv_update hinv
  posted posted hmem := by
    obtain ⟨u, hu, hmsg⟩ := h.posted posted hmem
    rw [getElem?_update ht]
    split
    · next heq =>
      obtain rfl : t = u := Option.some.inj (ht.symm.trans (heq ▸ hu))
      exact ⟨t', rfl, hsent ▸ hmsg⟩
    · exact ⟨u, hu, hmsg⟩
  holder tid j hholder := by
    obtain ⟨u, hu, htu, hsu⟩ := h.holder tid j hholder
    rw [getElem?_update ht]
    split
    · next heq =>
      obtain rfl : t = u := Option.some.inj (ht.symm.trans (heq ▸ hu))
      exact ⟨t', rfl, htid.trans htu, hsent.trans hsu⟩
    · exact ⟨u, hu, htu, hsu⟩
  sole j u hu hpc := by
    rw [getElem?_update ht] at hu
    split at hu
    · next heq =>
      obtain rfl := Option.some.inj hu
      obtain rfl := heq
      rw [Sole, htid, hsent]
      exact h.sole i t ht (hrun hpc)
    · exact h.sole j u hu hpc

/-- A running thread sends a message for its tid.  What `Ordered` says of the other threads is not
touched; the last two hypotheses say it of the sender. -/
theorem Ordered.send (h : Ordered threads log) (ht : threads[i]? = some t) (hrun : t.pc ≠ .ended)
    (htid : t'.tid = t.tid) {m : Message} (hm : m.tid = t.tid) (hsub : t.sent ⊆ t'.sent)
    (hmem : m ∈ t'.sent) (hinv : ∃ lost, t'.Inv lost)
    (hholder : ∀ j, System.holder (log ++ [⟨i, m⟩]) t.tid = some j →
      j = i ∧ t'.sent = [Thread.addMessage t.tid])
    (hsole : Sole (log ++ [⟨i, m⟩]) i t') :
    Ordered (threads.set i t') (log ++ [⟨i, m⟩]) where
  distinct := h.distinct_update ht htid fun _ => hrun
  inv := h.inv_update fun _ => hinv
  posted posted hposted := by
    rw [getElem?_update ht]
    rcases List.mem_append.1 hposted with hposted | hposted
    · obtain ⟨u, hu, hmsg⟩ := h.posted posted hposted
      split
      · next heq =>
        obtain rfl : t = u := Option.some.inj (ht.symm.trans (heq ▸ hu))
        exact ⟨t', rfl, hsub hmsg⟩
      · exact ⟨u, hu, hmsg⟩
    · obtain rfl := List.mem_singleton.1 hposted
      exact ⟨t', if_pos rfl, hmem⟩
  holder tid j hj := by
    rw [getElem?_update ht]
    by_cases heq : t.tid = tid
    · subst heq
      obtain ⟨rfl, hsent⟩ := hholder j hj
      exact ⟨t', if_pos rfl, htid, hsent⟩
    · have hne : m.tid ≠ tid := hm ▸ heq
      rw [holder_snoc, holderStep_other hne] at hj
      obtain ⟨u, hu, htu, hsu⟩ := h.holder tid j hj
      have hij : i ≠ j := by
        rintro rfl
        obtain rfl : t = u := Option.some.inj (ht.symm.trans hu)
        exact heq htu
      exact ⟨u, by rwa [if_neg hij], htu, hsu⟩
  sole j u hu hpc := by
    rw [getElem?_update ht] at hu
    split at hu
    · next heq =>
      obtain rfl := Option.some.inj hu
      obtain rfl := heq
      exact hsole
    · next hij =>
      refine (h.sole j u hu hpc).other fun heq => hij ?_
      exact h.distinct ht hu hrun hpc (hm.symm.trans heq)

theorem Ordered.send_add (h : Ordered threads log) (ht : threads[i]? = some t)
    (hrun : t.pc ≠ .ended) (htid : t'.tid = t.tid) (hsent : t.sent = [])
    (hsent' : t'.sent = [Thread.addMessage t.tid]) (hinv : ∃ lost, t'.Inv lost) :
    Ordered (threads.set i t') (log ++ [⟨i, Thread.addMessage t.tid⟩]) := by
  have hfree : System.holder log t.tid = none := (h.sole i t ht hrun).1 hsent
  refine h.send ht hrun htid rfl (by simp [hsent]) (by simp [hsent']) hinv ?_ ?_
  · intro j hj
    rw [holder_add hfree (by simp)] at hj
    exact ⟨(Option.some.inj hj).symm, hsent'⟩
  · refine ⟨fun hnil => ?_, fun _ => ⟨log, [], by rw [htid], fun hin => ?_, htid ▸ hfree, by simp⟩⟩
    · rw [hsent'] at hnil
      cases hnil
    · obtain ⟨u, hu, hmsg⟩ := h.posted _ hin
      obtain rfl : t = u := Option.some.inj (ht.symm.trans hu)
      rw [hsent] at hmsg
      cases hmsg

theorem Ordered.send_remove (h : Ordered threads log) (ht : threads[i]? = some t)
    (hrun : t.pc ≠ .ended) (htid : t'.tid = t.tid) (hsent : t.sent = [Thread.addMessage t.tid])
    (hsent' : t'.sent = [Thread.addMessage t.tid, Thread.removeMessage t.tid])
    (hinv : ∃ lost, t'.Inv lost) :
    Ordered (threads.set i t') (log ++ [⟨i, Thread.removeMessage t.tid⟩]) := by
  refine h.send ht hrun htid rfl (by simp [hsent, hsent']) (by simp [hsent']) hinv ?_ ?_
  · intro j hj
    rw [holder_remove] at hj
    cases hj
  · exact ⟨fun hnil => by simp [hsent'] at hnil, fun hadd => by simp [hsent'] at hadd⟩

end Update

theorem getElem?_snoc {threads : List Thread} {t u : Thread} {j : Nat}
    (h : (threads ++ [t])[j]? = some u) :
    threads[j]? = some u ∨ (j = threads.length ∧ u = t) := by
  rw [List.getElem?_append] at h
  split at h
  · exact .inl h
  · obtain ⟨hlt, hget⟩ := List.getElem?_eq_some_iff.1 h
    simp only [List.length_singleton] at hlt
    exact .inr ⟨by omega, by simpa using hget.symm⟩

theorem getElem?_snoc_of {threads : List Thread} {u : Thread} {j : Nat}
    (h : threads[j]? = some u) (t : Thread) : (threads ++ [t])[j]? = some u := by
  rw [List.getElem?_append_left (List.getElem?_eq_some_iff.1 h).1]
  exact h

/-- A new thread, whose tid every earlier thread has released. -/
theorem Ordered.spawn {threads : List Thread} {log : List Posted} (h : Ordered threads log)
    (routine : Routine) {tid : Pid} (hfresh : ∀ t ∈ threads, t.pc ≠ .ended → t.tid ≠ tid)
    (hreleased : ∀ t ∈ threads, t.tid = tid → t.sent ≠ [Thread.addMessage tid]) :
    Ordered (threads ++ [.start routine tid]) log where
  distinct {j k u v} hu hv hju hkv heq := by
    rcases getElem?_snoc hu with hu | ⟨rfl, rfl⟩ <;> rcases getElem?_snoc hv with hv | ⟨rfl, rfl⟩
    · exact h.distinct hu hv hju hkv heq
    · exact absurd heq (hfresh u (List.mem_of_getElem? hu) hju)
    · exact absurd heq.symm (hfresh v (List.mem_of_getElem? hv) hkv)
    · rfl
  inv u hu hpc := by
    rcases List.mem_append.1 hu with hu | hu
    · exact h.inv u hu hpc
    · rw [List.mem_singleton.1 hu]
      exact ⟨False, Thread.start_inv routine tid⟩
  posted posted hposted := by
    obtain ⟨u, hu, hmsg⟩ := h.posted posted hposted
    exact ⟨u, getElem?_snoc_of hu _, hmsg⟩
  holder tid' j hj := by
    obtain ⟨u, hu, hrest⟩ := h.holder tid' j hj
    exact ⟨u, getElem?_snoc_of hu _, hrest⟩
  sole j u hu hpc := by
    rcases getElem?_snoc hu with hu | ⟨rfl, rfl⟩
    · exact h.sole j u hu hpc
    · refine ⟨fun _ => ?_, fun hadd => by simp [Thread.start] at hadd⟩
      -- Whoever held the tid would have an ADD without a REMOVE.
      cases hheld : System.holder log tid with
      | none => exact hheld
      | some k =>
          obtain ⟨v, hv, htv, hsv⟩ := h.holder tid k hheld
          exact absurd hsv (hreleased v (List.mem_of_getElem? hv) htv)

/-! ## Whole runs -/

structure Good (s : System) : Prop where
  tracked : s.Tracked
  ordered : Ordered s.threads s.log

theorem init_good (configs : List (NonEmpty (PerfConfig InternC))) : (init configs).Good where
  tracked := init_tracked configs
  ordered :=
    { distinct := fun h => by simp [init] at h
      inv := fun _ h => by simp [init] at h
      posted := fun _ h => by simp [init, log] at h
      holder := fun _ _ h => by simp [init, log, System.holder] at h
      sole := fun _ _ h => by simp [init] at h }

theorem Good.thread {s s' : System} (h : s.Good) {i : Nat} {action : Thread.Action}
    (hstep : s.step env (.thread i action) = some s') : s'.Good := by
  simp only [System.step, Option.bind_eq_bind, Option.bind_eq_some_iff, Option.pure_def,
    Option.some.injEq] at hstep
  obtain ⟨t, ht, t', ht', rfl⟩ := hstep
  obtain ⟨htid, -, -⟩ := Thread.step_frame ht'
  refine ⟨h.tracked, ?_⟩
  simp only [log, ← List.append_assoc]
  by_cases hend : t.pc = .ended
  · obtain ⟨hend', hsent⟩ := Thread.step_ended hend ht'
    rw [hsent, List.drop_length, List.map_nil, List.append_nil]
    exact h.ordered.quiet ht htid hsent (absurd hend') (absurd hend')
  obtain ⟨lost, hinv⟩ := h.ordered.inv t (List.mem_of_getElem? ht) hend
  have hinv' : ∃ lost, t'.Inv lost := ⟨_, Thread.step_inv hinv ht'⟩
  rcases hinv.step_sent ht' with hsent | ⟨hsent, hsent'⟩ | ⟨hsent, hsent'⟩
  · rw [hsent, List.drop_length, List.map_nil, List.append_nil]
    exact h.ordered.quiet ht htid hsent (fun _ => hend) fun _ => hinv'
  · rw [hsent, hsent']
    exact h.ordered.send_add ht hend htid hsent hsent' hinv'
  · rw [hsent, hsent']
    exact h.ordered.send_remove ht hend htid hsent hsent' hinv'

theorem Good.step {s s' : System} {a : Step} (h : s.Good) (hreleased : s.TidReleased a)
    (hstep : s.step env a = some s') : s'.Good := by
  cases a with
  | spawn routine tid =>
      simp only [System.step, Option.ite_none_left_eq_some, Option.some.injEq] at hstep
      obtain ⟨hfree, rfl⟩ := hstep
      refine ⟨h.tracked, h.ordered.spawn routine (fun t ht hpc htid => hfree ⟨t, ht, hpc, htid⟩) ?_⟩
      exact hreleased
  | thread i action => exact h.thread hstep
  | kill i =>
      simp only [System.step, Option.bind_eq_bind, Option.bind_eq_some_iff, Option.pure_def,
        Option.some.injEq] at hstep
      obtain ⟨t, ht, rfl⟩ := hstep
      exact ⟨h.tracked, h.ordered.quiet ht rfl rfl (by simp) (by simp)⟩
  | receive =>
      simp only [System.step] at hstep
      split at hstep
      · cases hstep
      · next posted queue hqueue =>
        obtain rfl := Option.some.inj hstep
        refine ⟨h.tracked.receive posted queue, ?_⟩
        have hordered := h.ordered
        rw [log, hqueue, ← List.singleton_append, ← List.append_assoc] at hordered
        exact hordered
  | other input =>
      simp only [System.step, Option.ite_none_right_eq_some, Option.some.injEq] at hstep
      obtain ⟨hnone, rfl⟩ := hstep
      exact ⟨h.tracked.other hnone, h.ordered⟩

/-- An ADD that has been handled while its thread runs and has sent no REMOVE is the one the groups
of its tid were opened for. -/
theorem Good.own {s : System} (h : s.Good) {i : Nat} {t : Thread} (ht : s.threads[i]? = some t)
    (hrun : t.pc ≠ .ended) (hhandled : ⟨i, Thread.addMessage t.tid⟩ ∈ s.handled)
    (hopen : Thread.removeMessage t.tid ∉ t.sent) :
    holder s.handled t.tid = some i := by
  have hsent : t.sent = [Thread.addMessage t.tid] := by
    obtain ⟨u, hu, hmsg⟩ := h.ordered.posted _ (List.mem_append_left s.queue hhandled)
    obtain rfl : t = u := Option.some.inj (ht.symm.trans hu)
    obtain ⟨lost, hinv⟩ := h.ordered.inv t (List.mem_of_getElem? ht) hrun
    rcases hinv.sent_cases with hsent | hsent | hsent
    · rw [hsent] at hmsg
      cases hmsg
    · exact hsent
    · exact absurd (by simp [hsent]) hopen
  obtain ⟨earlier, later, hlog, hfirst, hnone, hlater⟩ := (h.ordered.sole i t ht hrun).2 hsent
  -- The ADD stands in the log only once, so what is handled reaches beyond it.
  rcases List.append_eq_append_iff.1 hlog with ⟨mid, rfl, -⟩ | ⟨mid, hmid, hrest⟩
  · exact absurd (List.mem_append_left mid hhandled) hfirst
  · cases mid with
    | nil =>
        rw [List.append_nil] at hmid
        exact absurd (hmid ▸ hhandled) hfirst
    | cons posted mid =>
        obtain ⟨rfl, hmid'⟩ := List.cons.inj hrest
        rw [hmid]
        exact holder_add hnone fun p hp => hlater p (hmid' ▸ List.mem_append_left _ hp)

theorem run_good {configs : List (NonEmpty (PerfConfig InternC))} {steps : List Step} {s : System}
    (hrun : Transition.run (step env) (init configs) steps = some s)
    (hmeets : Transition.Meets (step env) TidReleased (init configs) steps) : s.Good :=
  Transition.meets_induction (P := fun _ s => s.Good) (init_good configs)
    (fun _ _ _ _ hgood hreleased hstep => hgood.step hreleased hstep) hmeets hrun

variable (env)

/-- While a thread runs whose ADD has been handled and that has sent no REMOVE, the groups under its
tid are those opened for this ADD, provided no tid is given out again before the REMOVE of every
earlier thread that announced itself with it. -/
theorem counters_of_own_thread (configs : List (NonEmpty (PerfConfig InternC)))
    (steps : List Step) {s : System}
    (hrun : Transition.run (step env) (init configs) steps = some s)
    (hmeets : Transition.Meets (step env) TidReleased (init configs) steps)
    {i : Nat} {t : Thread} (ht : s.threads[i]? = some t) (hlive : t.pc ≠ .ended)
    (hhandled : ⟨i, Thread.addMessage t.tid⟩ ∈ s.handled)
    (hopen : Thread.removeMessage t.tid ∉ t.sent) :
    ∃ groups, s.world.state.groups.lookup t.tid = some groups ∧
      s.origin t.tid = some (i, groups) := by
  have hgood := run_good hrun hmeets
  have htracked := hgood.tracked t.tid
  rwa [hgood.own ht hlive hhandled hopen] at htracked

def releasedTid : List Step :=
  .spawn .wrapper 5 :: List.replicate 8 (.thread 0 .advance) ++
    [.receive, .receive, .spawn .wrapper 5, .thread 1 .advance, .thread 1 .advance, .receive]

theorem counters_of_own_thread_released :
    ∃ s groups, Transition.run (step .steady) (init [cyclesGroup]) releasedTid = some s ∧
      s.world.state.groups.lookup 5 = some groups ∧ s.origin 5 = some (1, groups) := by
  obtain ⟨groups, hlookup, horigin⟩ :=
    counters_of_own_thread .steady [cyclesGroup] releasedTid rfl (by decide)
      (i := 1) (t := { Thread.start .wrapper 5 with
        pc := .push, msg := Thread.addMessage 5, sent := [Thread.addMessage 5] })
      rfl (by decide) (by decide) (by decide)
  exact ⟨_, groups, rfl, hlookup, horigin⟩

/-- A main thread ends and a thread of another process gets its tid. -/
def unreleasedTid : List Step :=
  [.spawn .constructor 5, .thread 0 .advance, .thread 0 .advance, .receive, .thread 0 .advance,
    .spawn .wrapper 5, .thread 1 .advance, .thread 1 .advance, .receive]

theorem counters_left_over : ¬ ∀ (env : Env) (configs : List (NonEmpty (PerfConfig InternC)))
    (steps : List Step) (s : System),
    Transition.run (step env) (init configs) steps = some s →
    ∀ (i : Nat) (t : Thread), s.threads[i]? = some t → t.pc ≠ .ended →
      ⟨i, Thread.addMessage t.tid⟩ ∈ s.handled → Thread.removeMessage t.tid ∉ t.sent →
      ∃ groups, s.world.state.groups.lookup t.tid = some groups ∧
        s.origin t.tid = some (i, groups) := by
  intro h
  obtain ⟨groups, -, horigin⟩ := h .steady [cyclesGroup] unreleasedTid _ rfl 1
    { Thread.start .wrapper 5 with
      pc := .push, msg := Thread.addMessage 5, sent := [Thread.addMessage 5] }
    rfl (by decide) (by decide) (by decide)
  have hzero : (0 : Nat) = 1 := congrArg (fun o => (o.map Prod.fst).getD 0) horigin
  exact absurd hzero (by decide)

end System

end Threadstat

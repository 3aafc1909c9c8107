import Threadstat.System
import Threadstat.Lib.Blocks

/-!
# Making threads

The interposed `pthread_create` hands a new thread its function and argument through a block of
memory: the caller allocates and fills it, the thread copies and frees it, and the address may be
given out again.  Calls, threads and everything else in the system interleave in any order.

The memory is that of one process, and so are the calls; threads of other processes are in the
system beside it.  Where the code would touch memory that is not its own the process faults and the
model goes no further.  A block that `malloc` could not give is not checked for, so the first store
through it is such a case.
-/

namespace Threadstat

/-- An address in the process; a function pointer is one too. -/
abbrev Addr := Nat

/-- `struct thread_data`; a field that was never stored has no value. -/
structure ThreadData where
  args : Option Addr
  func : Option Addr
  deriving DecidableEq

/-- How far a call of `pthread_create`, and then the thread it has made, has got. -/
inductive Stage where
  /-- At `tmp->args = arg`. -/
  | storeArgs
  /-- At `tmp->func = start_routine`. -/
  | storeFunc
  /-- In `orig_pthread_create`. -/
  | create
  /-- The call has returned an error. -/
  | failed
  /-- The thread is at `tmp = *(struct thread_data*)arg`. -/
  | copy (thread : Nat)
  /-- The thread is at `free(arg)`. -/
  | free (thread : Nat) (tmp : ThreadData)
  /-- The thread is past that. -/
  | freed (thread : Nat) (tmp : ThreadData)
  deriving DecidableEq

structure Call where
  startRoutine : Addr
  arg : Addr
  /-- What `malloc` returned. -/
  block : Addr
  stage : Stage
  deriving DecidableEq

namespace Call

def data (call : Call) : ThreadData := ⟨some call.arg, some call.startRoutine⟩

def own (call : Call) : Option (Addr × ThreadData) :=
  match call.stage with
  | .storeArgs => some (call.block, ⟨none, none⟩)
  | .storeFunc => some (call.block, ⟨some call.arg, none⟩)
  | .create | .failed | .copy _ | .free _ _ => some (call.block, call.data)
  | .freed _ _ => none

def thread? (call : Call) : Option Nat :=
  match call.stage with
  | .storeArgs | .storeFunc | .create | .failed => none
  | .copy i | .free i _ | .freed i _ => some i

def tmp? (call : Call) : Option ThreadData :=
  match call.stage with
  | .free _ tmp | .freed _ tmp => some tmp
  | .storeArgs | .storeFunc | .create | .failed | .copy _ => none

end Call

inductive Fault where
  /-- A store through the null pointer `malloc` returned. -/
  | nullStore
  | strayStore
  | strayRead
  | strayFree
  /-- A call through a pointer that was never stored. -/
  | strayCall
  deriving DecidableEq

/-- A process in the system, with the memory of `pthread_create`. -/
structure Process where
  system : System
  /-- The live blocks. -/
  heap : Addr → Option ThreadData
  calls : List Call
  fault : Option Fault

namespace Process

inductive Step where
  /-- A thread enters `pthread_create`, and `malloc` returns. -/
  | call (startRoutine arg : Addr) (malloc : Option Addr)
  /-- The next store through `tmp`. -/
  | store (c : Nat)
  /-- `orig_pthread_create` returns, and with a tid there is a new thread. -/
  | create (c : Nat) (tid : Option Pid)
  | copy (c : Nat)
  | free (c : Nat)
  /-- Any other step of the system. -/
  | system (a : System.Step)

def init (configs : List (NonEmpty (PerfConfig InternC))) : Process where
  system := .init configs
  heap _ := none
  calls := []
  fault := none

def fail (p : Process) (f : Fault) : Option Process := some { p with fault := some f }

def setBlock (p : Process) (c : Nat) (call : Call) (stage : Stage) (data : Option ThreadData) :
    Process :=
  { p with
    heap := Function.update p.heap call.block data
    calls := p.calls.set c { call with stage } }

def setStage (p : Process) (c : Nat) (call : Call) (stage : Stage) : Process :=
  { p with calls := p.calls.set c { call with stage } }

def store (p : Process) (c : Nat) : Option Process := do
  let call ← p.calls[c]?
  match call.stage, p.heap call.block with
  | .storeArgs, some data => p.setBlock c call .storeFunc (some { data with args := some call.arg })
  | .storeFunc, some data =>
    p.setBlock c call .create (some { data with func := some call.startRoutine })
  | .storeArgs, none | .storeFunc, none => p.fail .strayStore
  | _, _ => none

/-- The thread has not come to the end of its first lines, and has not been killed. -/
def AtEntry (p : Process) (i : Nat) : Prop := (p.system.threads[i]?).map (·.pc) = some .entry

instance (p : Process) (i : Nat) : Decidable (p.AtEntry i) :=
  inferInstanceAs (Decidable (_ = _))

def copy (p : Process) (c : Nat) : Option Process := do
  let call ← p.calls[c]?
  match call.stage with
  | .copy i =>
    if p.AtEntry i then
      match p.heap call.block with
      | some tmp => p.setStage c call (.free i tmp)
      | none => p.fail .strayRead
    else none
  | _ => none

def free (p : Process) (c : Nat) : Option Process := do
  let call ← p.calls[c]?
  match call.stage with
  | .free i tmp =>
    if p.AtEntry i then
      match p.heap call.block with
      | some _ => p.setBlock c call (.freed i tmp) none
      | none => p.fail .strayFree
    else none
  | _ => none

def callOf (p : Process) (i : Nat) : Option Call := p.calls.find? fun call => call.thread? = some i

variable (env : Env)

/-- A step of the system under a process that does not fault in it. -/
def lift (p : Process) (a : System.Step) : Option Process :=
  (p.system.step env a).map fun system => { p with system }

def create (p : Process) (c : Nat) (tid : Option Pid) : Option Process := do
  let call ← p.calls[c]?
  if call.stage = .create then
    match tid with
    | none => p.setStage c call .failed
    | some tid =>
      (p.setStage c call (.copy p.system.threads.length)).lift env (.spawn .wrapper tid)
  else none

/-- A thread leaves its first lines once the block is freed, and then calls what `tmp` holds. -/
def advance (p : Process) (i : Nat) : Option Process := do
  let t ← p.system.threads[i]?
  match p.callOf i with
  | none => p.lift env (.thread i .advance)
  | some call =>
    match t.pc, call.stage with
    | .entry, .freed _ _ => p.lift env (.thread i .advance)
    | .entry, _ => none
    | .push, .freed _ ⟨some _, some _⟩ => p.lift env (.thread i .advance)
    | .push, _ => p.fail .strayCall
    | _, _ => p.lift env (.thread i .advance)

def other (p : Process) : System.Step → Option Process
  | .thread i .advance => p.advance env i
  | a => p.lift env a

def step (p : Process) (a : Step) : Option Process :=
  if p.fault.isSome then none
  else
    match a with
    | .call _ _ none => p.fail .nullStore
    | .call startRoutine arg (some block) =>
      if (p.heap block).isSome then none
      else
        some { p with
          heap := Function.update p.heap block (some ⟨none, none⟩)
          calls := p.calls ++ [⟨startRoutine, arg, block, .storeArgs⟩] }
    | .store c => p.store c
    | .create c tid => p.create env c tid
    | .copy c => p.copy c
    | .free c => p.free c
    | .system a => p.other env a

def Step.lower : Step → List System.Step
  | .create _ (some tid) => [.spawn .wrapper tid]
  | .system a => [a]
  | .call .. | .store _ | .create _ none | .copy _ | .free _ => []

end Process

/-! ## The invariant -/

def Thread.Starting (t : Thread) : Prop := t.sent = [] ∧ (t.pc = .entry ∨ t.pc = .ended)

/-- The only way out of the first lines is through them. -/
theorem Thread.Starting.step {t t' : Thread} {a : Thread.Action} (h : t.Starting)
    (hstep : t.step a = some t') : t'.Starting ∨ (a = .advance ∧ t.pc = .entry) := by
  obtain ⟨hsent, hpc | hpc⟩ := h
  · cases a with
    | advance => exact .inr ⟨rfl, hpc⟩
    | request =>
        obtain rfl := Option.some.inj hstep
        exact .inl ⟨hsent, .inl hpc⟩
    | _ => simp [Thread.step, atCancellationPoint, hpc] at hstep
  · cases a with
    | request =>
        obtain rfl := Option.some.inj hstep
        exact .inl ⟨hsent, .inr hpc⟩
    | _ => simp [Thread.step, Thread.advance, atCancellationPoint, hpc] at hstep

/-- A step of the system keeps every thread, and takes one out of its first lines only by the
thread's own doing. -/
theorem System.step_threads {env : Env} {s s' : System} {a : System.Step}
    (hstep : s.step env a = some s') {i : Nat} {t : Thread} (ht : s.threads[i]? = some t) :
    ∃ t', s'.threads[i]? = some t' ∧ t'.routine = t.routine ∧
      (t.Starting → t'.Starting ∨ (a = .thread i .advance ∧ t.pc = .entry)) := by
  cases a with
  | spawn routine tid =>
      simp only [System.step, Option.ite_none_left_eq_some, Option.some.injEq] at hstep
      obtain ⟨-, rfl⟩ := hstep
      refine ⟨t, ?_, rfl, .inl⟩
      rwa [List.getElem?_append_left (List.getElem?_eq_some_iff.1 ht).1]
  | thread j action =>
      simp only [System.step, Option.bind_eq_bind, Option.bind_eq_some_iff, Option.pure_def,
        Option.some.injEq] at hstep
      obtain ⟨u, hu, u', hu', rfl⟩ := hstep
      dsimp only
      rw [getElem?_update hu]
      split
      · next heq =>
        subst heq
        obtain rfl : t = u := Option.some.inj (ht.symm.trans hu)
        refine ⟨u', rfl, (Thread.step_frame hu').2.1, fun hstarting => ?_⟩
        rcases hstarting.step hu' with hstarting' | ⟨rfl, hpc⟩
        · exact .inl hstarting'
        · exact .inr ⟨rfl, hpc⟩
      · exact ⟨t, ht, rfl, .inl⟩
  | kill j =>
      simp only [System.step, Option.bind_eq_bind, Option.bind_eq_some_iff, Option.pure_def,
        Option.some.injEq] at hstep
      obtain ⟨u, hu, rfl⟩ := hstep
      dsimp only
      rw [getElem?_update hu]
      split
      · next heq =>
        subst heq
        obtain rfl : t = u := Option.some.inj (ht.symm.trans hu)
        exact ⟨_, rfl, rfl, fun hstarting => .inl ⟨hstarting.1, .inr rfl⟩⟩
      · exact ⟨t, ht, rfl, .inl⟩
  | receive =>
      simp only [System.step] at hstep
      split at hstep
      · cases hstep
      · obtain rfl := Option.some.inj hstep
        exact ⟨t, ht, rfl, .inl⟩
  | other input =>
      simp only [System.step, Option.ite_none_right_eq_some, Option.some.injEq] at hstep
      obtain ⟨-, rfl⟩ := hstep
      exact ⟨t, ht, rfl, .inl⟩

/-- Every thread made here runs `wrapper`, no other call made it, and it does not leave its first
lines before it has taken what its own call hands over. -/
structure Launched (threads : List Thread) (calls : List Call) : Prop where
  thread : ∀ {c : Nat} {call : Call} {i : Nat}, calls[c]? = some call → call.thread? = some i →
    ∃ t, threads[i]? = some t ∧ t.routine = .wrapper ∧
      (call.stage = .freed i call.data ∨ t.Starting)
  unique : ∀ {c c' : Nat} {call call' : Call} {i : Nat}, calls[c]? = some call →
    calls[c']? = some call' → call.thread? = some i → call'.thread? = some i → c = c'

namespace Launched

variable {threads threads' : List Thread} {calls : List Call} {c : Nat} {call call' : Call}

theorem getElem?_set (hc : calls[c]? = some call) (c' : Nat) :
    (calls.set c call')[c']? = if c = c' then some call' else calls[c']? := by
  rw [List.getElem?_set]
  simp [(List.getElem?_eq_some_iff.1 hc).1]

theorem snoc (h : Launched threads calls) (hnone : call.thread? = none) :
    Launched threads (calls ++ [call]) := by
  have hold : ∀ {c' : Nat} {call' : Call} {i : Nat}, (calls ++ [call])[c']? = some call' →
      call'.thread? = some i → calls[c']? = some call' := by
    intro c' call' i hc' hi
    rcases Nat.lt_or_ge c' calls.length with hlt | hge
    · rwa [List.getElem?_append_left hlt] at hc'
    · rw [List.getElem?_append_right hge, List.getElem?_singleton] at hc'
      split at hc'
      · obtain rfl := Option.some.inj hc'
        rw [hnone] at hi
        cases hi
      · cases hc'
  exact ⟨fun hc' hi => h.thread (hold hc' hi) hi,
    fun h₁ h₂ hi₁ hi₂ => h.unique (hold h₁ hi₁) (hold h₂ hi₂) hi₁ hi₂⟩

theorem set (h : Launched threads calls) (hc : calls[c]? = some call)
    (hthread : call'.thread? = call.thread?) (hstage : ∀ i tmp, call.stage ≠ .freed i tmp) :
    Launched threads (calls.set c call') := by
  constructor
  · intro c' call₁ i hc' hi
    rw [getElem?_set hc] at hc'
    split at hc'
    · obtain rfl := Option.some.inj hc'
      obtain ⟨t, ht, hroutine, hfreed | hstarting⟩ := h.thread hc (hthread ▸ hi)
      · exact absurd hfreed (hstage _ _)
      · exact ⟨t, ht, hroutine, .inr hstarting⟩
    · exact h.thread hc' hi
  · intro c₁ c₂ call₁ call₂ i h₁ h₂ hi₁ hi₂
    rw [getElem?_set hc] at h₁ h₂
    split at h₁ <;> split at h₂
    · next heq heq' => exact heq.symm.trans heq'
    · next heq heq' =>
      obtain rfl := Option.some.inj h₁
      exact heq ▸ h.unique hc h₂ (hthread ▸ hi₁) hi₂
    · next heq heq' =>
      obtain rfl := Option.some.inj h₂
      exact heq' ▸ h.unique h₁ hc hi₁ (hthread ▸ hi₂)
    · exact h.unique h₁ h₂ hi₁ hi₂

theorem spawn (h : Launched threads calls) (hc : calls[c]? = some call) (tid : Pid)
    (hthread : call'.thread? = some threads.length) :
    Launched (threads ++ [.start .wrapper tid]) (calls.set c call') := by
  have hlt : ∀ {c' : Nat} {call₁ : Call} {i : Nat}, calls[c']? = some call₁ →
      call₁.thread? = some i → i < threads.length := by
    intro c' call₁ i hc' hi
    obtain ⟨t, ht, -⟩ := h.thread hc' hi
    exact (List.getElem?_eq_some_iff.1 ht).1
  constructor
  · intro c' call₁ i hc' hi
    rw [getElem?_set hc] at hc'
    split at hc'
    · obtain rfl := Option.some.inj hc'
      obtain rfl := Option.some.inj (hthread.symm.trans hi)
      exact ⟨.start .wrapper tid, by simp, rfl, .inr ⟨rfl, .inl rfl⟩⟩
    · obtain ⟨t, ht, hrest⟩ := h.thread hc' hi
      exact ⟨t, by rwa [List.getElem?_append_left (hlt hc' hi)], hrest⟩
  · intro c₁ c₂ call₁ call₂ i h₁ h₂ hi₁ hi₂
    rw [getElem?_set hc] at h₁ h₂
    split at h₁ <;> split at h₂
    · next heq heq' => exact heq.symm.trans heq'
    · obtain rfl := Option.some.inj h₁
      obtain rfl := Option.some.inj (hthread.symm.trans hi₁)
      exact absurd (hlt h₂ hi₂) (Nat.lt_irrefl _)
    · obtain rfl := Option.some.inj h₂
      obtain rfl := Option.some.inj (hthread.symm.trans hi₂)
      exact absurd (hlt h₁ hi₁) (Nat.lt_irrefl _)
    · exact h.unique h₁ h₂ hi₁ hi₂

theorem system (h : Launched threads calls)
    (hthreads : ∀ {c : Nat} {call : Call} {i : Nat} {t : Thread}, calls[c]? = some call →
      call.thread? = some i → threads[i]? = some t → ∃ t', threads'[i]? = some t' ∧
        t'.routine = t.routine ∧ (t.Starting → t'.Starting ∨ call.stage = .freed i call.data)) :
    Launched threads' calls := by
  refine ⟨fun hc hi => ?_, h.unique⟩
  obtain ⟨t, ht, hroutine, hstage⟩ := h.thread hc hi
  obtain ⟨t', ht', hroutine', hstarting⟩ := hthreads hc hi ht
  refine ⟨t', ht', hroutine'.trans hroutine, ?_⟩
  rcases hstage with hfreed | hstage
  · exact .inl hfreed
  · exact (hstarting hstage).symm

end Launched

namespace Process

structure Inv (p : Process) : Prop where
  fault : p.fault = none ∨ p.fault = some .nullStore
  owned : Blocks.Owned Call.own p.heap p.calls
  launched : Launched p.system.threads p.calls
  copied : ∀ call ∈ p.calls, ∀ tmp ∈ call.tmp?, tmp = call.data

theorem init_inv (configs : List (NonEmpty (PerfConfig InternC))) : (init configs).Inv where
  fault := .inl rfl
  owned := .empty
  launched := by constructor <;> simp [init]
  copied := by simp [init]

namespace Inv

variable {env : Env} {p p' : Process} {c : Nat} {call : Call}

theorem copied_set (h : p.Inv) {call' : Call} (hcopied : ∀ tmp ∈ call'.tmp?, tmp = call'.data) :
    ∀ call ∈ p.calls.set c call', ∀ tmp ∈ call.tmp?, tmp = call.data := by
  intro call₁ hmem
  rcases List.mem_or_eq_of_mem_set hmem with hmem | rfl
  · exact h.copied call₁ hmem
  · exact hcopied

theorem setBlock (h : p.Inv) (hc : p.calls[c]? = some call) {stage : Stage} {d : ThreadData}
    (hown : call.own = some (call.block, d)) {data : Option ThreadData}
    (hown' : ({ call with stage } : Call).own = data.map (call.block, ·))
    (hthread : ({ call with stage } : Call).thread? = call.thread?)
    (hcopied : ∀ tmp ∈ ({ call with stage } : Call).tmp?, tmp = call.data) :
    (p.setBlock c call stage data).Inv := by
  have hstage : ∀ i tmp, call.stage ≠ .freed i tmp := by
    intro i tmp heq
    rw [Call.own, heq] at hown
    cases hown
  refine ⟨h.fault, ?_, h.launched.set hc hthread hstage, h.copied_set hcopied⟩
  have hcases : ({ call with stage } : Call).own = some (call.block, data.getD d) ∨
      ({ call with stage } : Call).own = none := by
    rw [hown']
    cases data <;> simp
  have howned := h.owned.update hc hown hcases
  rwa [hown', Option.map_map, show Prod.snd ∘ (call.block, ·) = @id ThreadData from rfl,
    Option.map_id_fun, id] at howned

theorem setStage (h : p.Inv) (hc : p.calls[c]? = some call) {stage : Stage} {d : ThreadData}
    (hown : call.own = some (call.block, d))
    (hown' : ({ call with stage } : Call).own = some (call.block, d))
    (hthread : ({ call with stage } : Call).thread? = call.thread?)
    (hcopied : ∀ tmp ∈ ({ call with stage } : Call).tmp?, tmp = call.data) :
    (p.setStage c call stage).Inv := by
  have hstage : ∀ i tmp, call.stage ≠ .freed i tmp := by
    intro i tmp heq
    rw [Call.own, heq] at hown
    cases hown
  exact ⟨h.fault, h.owned.pass hc hown hown', h.launched.set hc hthread hstage,
    h.copied_set hcopied⟩

theorem store (h : p.Inv) (hstep : p.store c = some p') :
    p'.Inv ∧ p'.system = p.system := by
  simp only [Process.store, Option.bind_eq_bind, Option.bind_eq_some_iff] at hstep
  obtain ⟨call, hc, hstep⟩ := hstep
  cases hstage : call.stage with
  | storeArgs =>
      have hown : call.own = some (call.block, ⟨none, none⟩) := by rw [Call.own, hstage]
      simp only [hstage, h.owned.holds hc hown] at hstep
      obtain rfl := Option.some.inj hstep
      exact ⟨h.setBlock hc hown rfl (by simp [Call.thread?, hstage]) (by simp [Call.tmp?]), rfl⟩
  | storeFunc =>
      have hown : call.own = some (call.block, ⟨some call.arg, none⟩) := by rw [Call.own, hstage]
      simp only [hstage, h.owned.holds hc hown] at hstep
      obtain rfl := Option.some.inj hstep
      exact ⟨h.setBlock hc hown rfl (by simp [Call.thread?, hstage]) (by simp [Call.tmp?]), rfl⟩
  | _ => simp [hstage] at hstep

theorem create {tid : Option Pid} (h : p.Inv) (hstep : p.create env c tid = some p') :
    p'.Inv ∧ match tid with
      | none => p'.system = p.system
      | some tid => p.system.step env (.spawn .wrapper tid) = some p'.system := by
  simp only [Process.create, Option.bind_eq_bind, Option.bind_eq_some_iff,
    Option.ite_none_right_eq_some] at hstep
  obtain ⟨call, hc, hstage, hstep⟩ := hstep
  have hown : call.own = some (call.block, call.data) := by rw [Call.own, hstage]
  cases tid with
  | none =>
      obtain rfl := Option.some.inj hstep
      exact ⟨h.setStage hc hown rfl (by simp [Call.thread?, hstage]) (by simp [Call.tmp?]), rfl⟩
  | some tid =>
      simp only [lift, Process.setStage, Option.map_eq_some_iff] at hstep
      obtain ⟨s, hs, rfl⟩ := hstep
      refine ⟨⟨h.fault, h.owned.pass hc hown rfl, ?_, h.copied_set (by simp [Call.tmp?])⟩, hs⟩
      simp only [System.step, Option.ite_none_left_eq_some, Option.some.injEq] at hs
      obtain ⟨-, rfl⟩ := hs
      exact h.launched.spawn hc tid rfl

theorem copy (h : p.Inv) (hstep : p.copy c = some p') :
    p'.Inv ∧ p'.system = p.system := by
  simp only [Process.copy, Option.bind_eq_bind, Option.bind_eq_some_iff] at hstep
  obtain ⟨call, hc, hstep⟩ := hstep
  cases hstage : call.stage with
  | copy i =>
      have hown : call.own = some (call.block, call.data) := by rw [Call.own, hstage]
      simp only [hstage, h.owned.holds hc hown, Option.ite_none_right_eq_some] at hstep
      obtain ⟨-, hstep⟩ := hstep
      obtain rfl := Option.some.inj hstep
      refine ⟨h.setStage hc hown rfl (by simp [Call.thread?, hstage]) fun tmp htmp => ?_, rfl⟩
      exact (Option.some.inj htmp).symm
  | _ => simp [hstage] at hstep

theorem free (h : p.Inv) (hstep : p.free c = some p') :
    p'.Inv ∧ p'.system = p.system := by
  simp only [Process.free, Option.bind_eq_bind, Option.bind_eq_some_iff] at hstep
  obtain ⟨call, hc, hstep⟩ := hstep
  cases hstage : call.stage with
  | free i tmp =>
      have hown : call.own = some (call.block, call.data) := by rw [Call.own, hstage]
      simp only [hstage, h.owned.holds hc hown, Option.ite_none_right_eq_some] at hstep
      obtain ⟨-, hstep⟩ := hstep
      obtain rfl := Option.some.inj hstep
      refine ⟨h.setBlock hc hown rfl (by simp [Call.thread?, hstage]) fun tmp' htmp => ?_, rfl⟩
      obtain rfl := Option.some.inj htmp
      exact h.copied call (List.mem_of_getElem? hc) tmp (by simp [Call.tmp?, hstage])
  | _ => simp [hstage] at hstep

theorem lift {a : System.Step} (h : p.Inv) (hstep : p.lift env a = some p')
    (hfreed : ∀ {c : Nat} {call : Call} {i : Nat} {t : Thread}, p.calls[c]? = some call →
      call.thread? = some i → p.system.threads[i]? = some t → a = .thread i .advance →
      t.pc = .entry → call.stage = .freed i call.data) :
    p'.Inv ∧ p.system.step env a = some p'.system := by
  simp only [Process.lift, Option.map_eq_some_iff] at hstep
  obtain ⟨s, hs, rfl⟩ := hstep
  refine ⟨⟨h.fault, h.owned, h.launched.system fun hc hi ht => ?_, h.copied⟩, hs⟩
  obtain ⟨t', ht', hroutine, hstarting⟩ := System.step_threads hs ht
  refine ⟨t', ht', hroutine, fun hstart => (hstarting hstart).imp_right ?_⟩
  rintro ⟨ha, hpc⟩
  exact hfreed hc hi ht ha hpc

theorem callOf_of (h : p.Inv) {i : Nat} (hc : p.calls[c]? = some call)
    (hi : call.thread? = some i) : p.callOf i = some call := by
  cases hfind : p.callOf i with
  | none =>
      have hnone := List.find?_eq_none.1 hfind call (List.mem_of_getElem? hc)
      simp [hi] at hnone
  | some call' =>
      obtain ⟨c', hc'⟩ := List.mem_iff_getElem?.1 (List.mem_of_find?_eq_some hfind)
      have hi' : call'.thread? = some i := by simpa using List.find?_some hfind
      obtain rfl := h.launched.unique hc hc' hi hi'
      exact congrArg some (Option.some.inj (hc'.symm.trans hc))

/-- A thread goes on only when it may, and does not fault. -/
theorem advance {i : Nat} (h : p.Inv) (hstep : p.advance env i = some p') :
    p'.Inv ∧ p.system.step env (.thread i .advance) = some p'.system := by
  simp only [Process.advance, Option.bind_eq_bind, Option.bind_eq_some_iff] at hstep
  obtain ⟨t, ht, hstep⟩ := hstep
  cases hfind : p.callOf i with
  | none =>
      rw [hfind] at hstep
      refine h.lift hstep fun {c call j _} hc hj _ ha _ => ?_
      obtain rfl : i = j := (System.Step.thread.inj ha).1
      rw [h.callOf_of hc hj] at hfind
      cases hfind
  | some call =>
      obtain ⟨c, hc⟩ := List.mem_iff_getElem?.1 (List.mem_of_find?_eq_some hfind)
      have hi : call.thread? = some i := by simpa using List.find?_some hfind
      obtain ⟨u, hu, -, hstage⟩ := h.launched.thread hc hi
      obtain rfl : t = u := Option.some.inj (ht.symm.trans hu)
      -- Past its first lines the thread holds what its call handed over.
      have hlift : (t.pc = .entry → call.stage = .freed i call.data) →
          p.lift env (.thread i .advance) = some p' →
          p'.Inv ∧ p.system.step env (.thread i .advance) = some p'.system := by
        intro hfreed hlifted
        refine h.lift hlifted fun {c' call' j u} hc' hj hu' ha hpc => ?_
        obtain rfl : i = j := (System.Step.thread.inj ha).1
        obtain rfl : t = u := Option.some.inj (ht.symm.trans hu')
        have hsame := hfind.symm.trans (h.callOf_of hc' hj)
        exact Option.some.inj hsame ▸ hfreed hpc
      rw [hfind] at hstep
      dsimp only at hstep
      split at hstep
      · next j tmp hpc hfreed =>
        refine hlift (fun _ => ?_) hstep
        have hcopied := h.copied call (List.mem_of_getElem? hc) tmp (by simp [Call.tmp?, hfreed])
        have hj : j = i := by simpa [Call.thread?, hfreed] using hi
        rw [hfreed, hj, hcopied]
      · cases hstep
      · next hpc _ => exact hlift (fun hentry => by rw [hpc] at hentry; cases hentry) hstep
      · next hpc hstray =>
        rcases hstage with hfreed | ⟨-, hentry | hended⟩
        · exact absurd hfreed (hstray i _ _)
        · rw [hpc] at hentry
          cases hentry
        · rw [hpc] at hended
          cases hended
      · next hentry _ _ _ => exact hlift (fun hpc => absurd hpc hentry) hstep

end Inv

/-- A step keeps the invariant, and is the steps of the system it stands for. -/
theorem Inv.step {env : Env} {p p' : Process} {a : Step} (h : p.Inv)
    (hstep : p.step env a = some p') :
    p'.Inv ∧ Transition.run (System.step env) p.system a.lower = some p'.system := by
  have hone : ∀ {b : System.Step}, p'.Inv ∧ p.system.step env b = some p'.system →
      p'.Inv ∧ Transition.run (System.step env) p.system [b] = some p'.system := by
    rintro b ⟨hinv, hsys⟩
    exact ⟨hinv, by rw [Transition.run_cons, hsys]; rfl⟩
  have hquiet : p'.Inv ∧ p'.system = p.system →
      p'.Inv ∧ Transition.run (System.step env) p.system [] = some p'.system := by
    rintro ⟨hinv, hsys⟩
    exact ⟨hinv, by rw [hsys]; rfl⟩
  unfold Process.step at hstep
  rw [Option.ite_none_left_eq_some] at hstep
  obtain ⟨-, hstep⟩ := hstep
  cases a with
  | call startRoutine arg malloc =>
      cases malloc with
      | none =>
          obtain rfl := Option.some.inj hstep
          exact hquiet ⟨⟨.inr rfl, h.owned, h.launched, h.copied⟩, rfl⟩
      | some block =>
          simp only [Option.ite_none_left_eq_some, Option.some.injEq] at hstep
          obtain ⟨hfree, rfl⟩ := hstep
          refine hquiet ⟨⟨h.fault, h.owned.alloc (by simpa using hfree) rfl,
            h.launched.snoc rfl, fun call hcall => ?_⟩, rfl⟩
          rcases List.mem_append.1 hcall with hcall | hcall
          · exact h.copied call hcall
          · rw [List.mem_singleton.1 hcall]
            simp [Call.tmp?]
  | store c => exact hquiet (h.store hstep)
  | create c tid =>
      have hcreated := h.create hstep
      cases tid with
      | none => exact hquiet hcreated
      | some tid => exact hone hcreated
  | copy c => exact hquiet (h.copy hstep)
  | free c => exact hquiet (h.free hstep)
  | system b =>
      change p.other env b = some p' at hstep
      unfold other at hstep
      split at hstep
      · exact hone (h.advance hstep)
      · next hadvance =>
        exact hone (h.lift hstep fun _ _ _ ha => absurd ha (hadvance _))

theorem run_inv {env : Env} {configs : List (NonEmpty (PerfConfig InternC))} {steps : List Step}
    {p : Process} (hrun : Transition.run (step env) (init configs) steps = some p) :
    p.Inv ∧ Transition.run (System.step env) (.init configs) (steps.flatMap Step.lower) =
      some p.system := by
  refine Transition.run_induction (P := fun steps p => p.Inv ∧
    Transition.run (System.step env) (.init configs) (steps.flatMap Step.lower) = some p.system)
    ⟨init_inv configs, rfl⟩ ?_ hrun
  rintro steps p a p' - ⟨hinv, hsys⟩ hstep
  obtain ⟨hinv', hlower⟩ := hinv.step hstep
  refine ⟨hinv', ?_⟩
  rw [List.flatMap_append, Transition.run_append, hsys, List.flatMap_singleton]
  exact hlower

end Process

end Threadstat

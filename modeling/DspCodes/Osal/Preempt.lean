/-
Threads of one core under pre-emptive scheduling, each taking the OSAL
locks one section at a time.

# The model

The stack is the running thread and below it the threads it pre-empted,
each at the point where it was stopped. The running thread takes one
step; while interrupts are enabled a thread of higher priority than the
running one may arrive at any point, with any sequence of sections to
run; the other cores take and release the same hardware semaphores. Each
`CsEnter` and `CsExit` is split where the source can be interrupted: the
turn of the spin loop, the masking, the unmasking, the release.

# What goes wrong

The semaphore is taken BEFORE the interrupts are masked and released
AFTER they are unmasked. A thread that is pre-empted in one of these two
windows holds the semaphore while a thread of higher priority runs; if
that one wants the same lock it spins for ever (`preempt_deadlock`).

# What is proved

`no_spin_deadlock`: if no thread that arrives uses a lock that a thread
of the core holds at that moment, the running thread never spins on a
semaphore of its own core. The condition is exact: after one arrival that
breaks it the deadlock is reachable.
-/
import DspCodes.Lib.Lts
import DspCodes.Osal.Model

namespace DspCodes.Osal

open Lts

-- ============================================================= the model

/-- The two locks. -/
inductive Lock
  | qmss | cppi
  deriving DecidableEq, Repr

/-- The hardware semaphore of a lock. -/
def Lock.hwSem : Lock → Nat
  | .qmss => QMSS_HW_SEM
  | .cppi => CPPI_HW_SEM

theorem Lock.hwSem_inj {l m : Lock} (h : l.hwSem = m.hwSem) : l = m := by
  cases l <;> cases m <;> first | rfl | cases h

/-- Where a thread stands. -/
inductive Pc
  | out  -- outside of all sections
  | spin (l : Lock)  -- in the loop of `CsEnter`
  | taken (l : Lock)  -- the semaphore is taken, interrupts not yet masked
  | masked (l : Lock)  -- inside the section
  | unmasked (l : Lock)  -- interrupts restored, semaphore not yet released
  deriving DecidableEq, Repr

/-- The lock whose semaphore the thread holds. -/
def Pc.holds : Pc → Option Lock
  | .out | .spin _ => none
  | .taken l | .masked l | .unmasked l => some l

/-- Who can hold a semaphore: a thread of this core, told by its
priority, or another core. -/
inductive Owner
  | thread (prio : Nat)
  | core (d : Nat)
  deriving DecidableEq, Repr

/-- A thread: its priority and the sections it has to run. -/
structure Thread where
  prio : Nat
  todo : List Lock
  pc : Pc
  deriving DecidableEq, Repr

/-- The core: the running thread and those it pre-empted, and the locks.
`true` is interrupts enabled. -/
structure System where
  stack : List Thread
  locks : Locks Bool Owner

/-- An idle core. -/
def idle : System where
  stack := []
  locks := ⟨true, fun _ => true, fun _ => none⟩

/-- One step of the running thread on core `c`; `none` when it ends. -/
def threadStep (c : Nat) (t : Thread) (o : Locks Bool Owner) :
    Option Thread × Locks Bool Owner :=
  match t.pc with
  | .out =>
      match t.todo with
      | [] => (none, o)
      | l :: _ => (some { t with pc := .spin l }, o)
  | .spin l =>
      match semAcquireDirect l.hwSem (.thread t.prio) o with
      | (true, o) => (some { t with pc := .taken l }, o)
      | (false, o) => (some t, o)
  | .taken l => (some { t with pc := .masked l }, maskInterrupts false c o)
  | .masked l => (some { t with pc := .unmasked l }, unmaskInterrupts c o)
  | .unmasked l =>
      (some { t with pc := .out, todo := t.todo.tail },
        semReleaseSemaphore l.hwSem o)

/-- What can happen. -/
inductive SchedEvent
  | run
  | arrive (prio : Nat) (prog : List Lock)
  | acquire (d : Nat) (l : Lock)
  | release (d : Nat) (l : Lock)
  deriving DecidableEq, Repr

/-- The transition function of core `c`. -/
def step (c : Nat) (e : SchedEvent) (s : System) : Option System :=
  match e with
  | .run =>
      match s.stack with
      | [] => none
      | t :: rest =>
          let (t', o) := threadStep c t s.locks
          some ⟨t'.toList ++ rest, o⟩
  | .arrive prio prog =>
      if s.locks.ie = true ∧ ∀ t ∈ s.stack.head?, t.prio < prio then
        some ⟨⟨prio, prog, .out⟩ :: s.stack, s.locks⟩
      else none
  | .acquire d l =>
      some ⟨s.stack, (semAcquireDirect l.hwSem (.core d) s.locks).2⟩
  | .release d l =>
      if s.locks.sem l.hwSem = some (.core d) then
        some ⟨s.stack, semReleaseSemaphore l.hwSem s.locks⟩
      else none

-- ============================================ the property, the condition

/-- The running thread spins on a semaphore that another thread of its
core holds. -/
def SpinDeadlock (s : System) : Prop :=
  ∃ t rest l p, s.stack = t :: rest ∧ t.pc = .spin l
    ∧ s.locks.sem l.hwSem = some (.thread p) ∧ p ≠ t.prio

/-- A thread that arrives uses no lock that a thread of the core holds. -/
def AvoidsWindows (s : System) : SchedEvent → Prop
  | .arrive _ prog => ∀ t ∈ s.stack, ∀ l ∈ t.pc.holds, l ∉ prog
  | _ => True

instance (s : System) : (e : SchedEvent) → Decidable (AvoidsWindows s e)
  | .arrive _ _ => inferInstanceAs (Decidable (∀ t ∈ _, ∀ l ∈ _, _))
  | .run => isTrue trivial
  | .acquire _ _ => isTrue trivial
  | .release _ _ => isTrue trivial

-- ========================================= a section, run without a break

/-- With the semaphore free, two steps of the running thread from the
spin loop are one `CsEnter`. -/
theorem run_csEnter {c : Nat} {t : Thread} (rest : List Thread) {l : Lock}
    {o o' : Locks Bool Owner}
    (h : csEnter l.hwSem false c (.thread t.prio) o = some o')
    (hpc : t.pc = .spin l) :
    exec (step c) ⟨t :: rest, o⟩ [.run, .run]
      = some ⟨{ t with pc := .masked l } :: rest, o'⟩ := by
  unfold csEnter at h
  split at h
  next o₁ hacq =>
    cases h
    simp [exec, step, threadStep, hpc, hacq]
  next => cases h

/-- Two steps of the running thread from inside a section are one
`CsExit`. -/
theorem run_csExit {c : Nat} {t : Thread} (rest : List Thread) {l : Lock}
    (o : Locks Bool Owner) (hpc : t.pc = .masked l) :
    exec (step c) ⟨t :: rest, o⟩ [.run, .run]
      = some ⟨{ t with pc := .out, todo := t.todo.tail } :: rest,
          csExit l.hwSem c o⟩ := by
  simp [exec, step, threadStep, hpc, csExit]

-- ==================================================== what a step can do

variable {c : Nat} {t : Thread} {o : Locks Bool Owner} {s s' : System}
  {e : SchedEvent}

/-- The outcomes of one step of the running thread. -/
inductive RunStep (c : Nat) (t : Thread) (o : Locks Bool Owner) :
    Option Thread → Locks Bool Owner → Prop
  | ended (hpc : t.pc = .out) (htodo : t.todo = []) : RunStep c t o none o
  | call {l : Lock} (hpc : t.pc = .out) (htodo : l ∈ t.todo) :
      RunStep c t o (some { t with pc := .spin l }) o
  | take {l : Lock} (hpc : t.pc = .spin l) (hfree : o.sem l.hwSem = none) :
      RunStep c t o (some { t with pc := .taken l })
        { o with
          sem := Function.update o.sem l.hwSem (some (.thread t.prio)) }
  | spinning {l : Lock} (hpc : t.pc = .spin l)
      (hheld : o.sem l.hwSem ≠ none) : RunStep c t o (some t) o
  | mask {l : Lock} (hpc : t.pc = .taken l) :
      RunStep c t o (some { t with pc := .masked l })
        (maskInterrupts false c o)
  | unmask {l : Lock} (hpc : t.pc = .masked l) :
      RunStep c t o (some { t with pc := .unmasked l })
        (unmaskInterrupts c o)
  | release {l : Lock} (hpc : t.pc = .unmasked l) :
      RunStep c t o (some { t with pc := .out, todo := t.todo.tail })
        (semReleaseSemaphore l.hwSem o)

/-- `threadStep` has no other outcome. -/
theorem threadStep_cases (c : Nat) (t : Thread) (o : Locks Bool Owner) :
    RunStep c t o (threadStep c t o).1 (threadStep c t o).2 := by
  unfold threadStep
  split
  next hpc =>
    split
    next htodo => exact .ended hpc htodo
    next l ls htodo =>
      exact .call hpc (by rw [htodo]; exact List.mem_cons_self)
  next l hpc =>
    by_cases hfree : o.sem l.hwSem = none
    · simp only [semAcquireDirect_free _ hfree]
      exact .take hpc hfree
    · simp only [semAcquireDirect_held _ hfree]
      exact .spinning hpc hfree
  next hpc => exact .mask hpc
  next hpc => exact .unmask hpc
  next hpc => exact .release hpc

/-- The outcomes of one step of the core. -/
inductive SysStep (c : Nat) (s : System) : SchedEvent → System → Prop
  | run {t : Thread} {rest : List Thread} {t' : Option Thread}
      {o : Locks Bool Owner} (hstack : s.stack = t :: rest)
      (h : RunStep c t s.locks t' o) :
      SysStep c s .run ⟨t'.toList ++ rest, o⟩
  | arrive {prio : Nat} {prog : List Lock} (hie : s.locks.ie = true)
      (hprio : ∀ t ∈ s.stack.head?, t.prio < prio) :
      SysStep c s (.arrive prio prog)
        ⟨⟨prio, prog, .out⟩ :: s.stack, s.locks⟩
  | acquire {d : Nat} {l : Lock} (hfree : s.locks.sem l.hwSem = none) :
      SysStep c s (.acquire d l)
        ⟨s.stack, { s.locks with
          sem := Function.update s.locks.sem l.hwSem (some (.core d)) }⟩
  | refused {d : Nat} {l : Lock} (hheld : s.locks.sem l.hwSem ≠ none) :
      SysStep c s (.acquire d l) s
  | release {d : Nat} {l : Lock}
      (hheld : s.locks.sem l.hwSem = some (.core d)) :
      SysStep c s (.release d l)
        ⟨s.stack, semReleaseSemaphore l.hwSem s.locks⟩

/-- `step` has no other outcome. -/
theorem step_cases (h : step c e s = some s') : SysStep c s e s' := by
  cases e with
  | run =>
      simp only [step] at h
      cases hstack : s.stack with
      | nil =>
          rw [hstack] at h
          cases h
      | cons t rest =>
          rw [hstack] at h
          cases h
          exact .run hstack (threadStep_cases c t s.locks)
  | arrive prio prog =>
      simp only [step] at h
      split at h
      case isTrue hg =>
        cases h
        exact .arrive hg.1 hg.2
      case isFalse => cases h
  | acquire d l =>
      simp only [step] at h
      cases h
      by_cases hfree : s.locks.sem l.hwSem = none
      · rw [semAcquireDirect_free _ hfree]
        exact .acquire hfree
      · rw [semAcquireDirect_held _ hfree]
        exact .refused hfree
  | release d l =>
      simp only [step] at h
      split at h
      case isTrue hheld =>
        cases h
        exact .release hheld
      case isFalse => cases h

-- ========================================================== the invariant

/-- The semaphores held by threads of this core are exactly those the
control points say, priorities fall down the stack, and a thread enters
only sections it has to run. -/
structure StackInv (s : System) : Prop where
  owner : ∀ n p, s.locks.sem n = some (.thread p) →
    ∃ t ∈ s.stack, t.prio = p ∧ ∃ l ∈ t.pc.holds, l.hwSem = n
  held : ∀ t ∈ s.stack, ∀ l ∈ t.pc.holds,
    s.locks.sem l.hwSem = some (.thread t.prio)
  prio : s.stack.Pairwise fun t u => u.prio < t.prio
  todo : ∀ t ∈ s.stack, ∀ l, t.pc = .spin l → l ∈ t.todo

theorem stackInv_idle : StackInv idle := by
  refine ⟨fun n p h => ?_, fun t h => ?_, List.Pairwise.nil, fun t h => ?_⟩
  · cases h
  · cases h
  · cases h

/-- The running thread moves without touching a semaphore. -/
theorem StackInv.move {t t' : Thread} {rest : List Thread}
    {o o' : Locks Bool Owner} (hs : StackInv ⟨t :: rest, o⟩)
    (hsem : o'.sem = o.sem) (hprio : t'.prio = t.prio)
    (hholds : t'.pc.holds = t.pc.holds)
    (htodo : ∀ l, t'.pc = .spin l → l ∈ t'.todo) :
    StackInv ⟨t' :: rest, o'⟩ := by
  refine ⟨fun n p h => ?_, fun u hu l hl => ?_, ?_, fun u hu => ?_⟩
  · rw [hsem] at h
    obtain ⟨u, hu, hp, l, hl, hn⟩ := hs.owner n p h
    rcases List.mem_cons.mp hu with rfl | hu
    · exact ⟨t', List.mem_cons_self, hprio.trans hp, l, hholds ▸ hl, hn⟩
    · exact ⟨u, List.mem_cons_of_mem _ hu, hp, l, hl, hn⟩
  · rw [hsem]
    rcases List.mem_cons.mp hu with rfl | hu
    · rw [hprio]
      exact hs.held t List.mem_cons_self l (hholds ▸ hl)
    · exact hs.held u (List.mem_cons_of_mem _ hu) l hl
  · obtain ⟨hhead, hrest⟩ := List.pairwise_cons.mp hs.prio
    refine List.pairwise_cons.mpr ⟨fun u hu => ?_, hrest⟩
    rw [hprio]
    exact hhead u hu
  · rcases List.mem_cons.mp hu with rfl | hu
    · exact htodo
    · exact hs.todo u (List.mem_cons_of_mem _ hu)

/-- No thread of the core is inside a section whose semaphore is free or
another core's. -/
theorem StackInv.unheld {n : Nat} (hs : StackInv s)
    (hother : ∀ p, s.locks.sem n ≠ some (.thread p)) :
    ∀ t ∈ s.stack, ∀ l ∈ t.pc.holds, l.hwSem ≠ n := by
  intro t ht l hl heq
  apply hother t.prio
  rw [← heq]
  exact hs.held t ht l hl

/-- A semaphore has an owner after an update because it was given to that
owner, or because it is another one and had the owner before. -/
theorem owner_update {sem : Nat → Option Owner} {n k : Nat}
    {o : Option Owner} {p : Owner}
    (h : Function.update sem k o n = some p) :
    (n = k ∧ o = some p) ∨ (n ≠ k ∧ sem n = some p) := by
  by_cases hnk : n = k
  · rw [hnk, Function.update_self] at h
    exact .inl ⟨hnk, h⟩
  · rw [Function.update_of_ne hnk] at h
    exact .inr ⟨hnk, h⟩

/-- Another core takes or frees a semaphore that is not this core's. -/
theorem StackInv.others {k : Nat} {o : Option Owner} (hs : StackInv s)
    (hbefore : ∀ p, s.locks.sem k ≠ some (.thread p))
    (hafter : ∀ p, o ≠ some (.thread p)) :
    StackInv ⟨s.stack, { s.locks with
      sem := Function.update s.locks.sem k o }⟩ := by
  have hunheld := hs.unheld hbefore
  refine ⟨fun n p hn => ?_, fun u hu l hl => ?_, hs.prio, hs.todo⟩
  · rcases owner_update hn with ⟨-, ho⟩ | ⟨-, hn⟩
    · exact absurd ho (hafter p)
    · exact hs.owner n p hn
  · show Function.update s.locks.sem k o l.hwSem = _
    rw [Function.update_of_ne (hunheld u hu l hl)]
    exact hs.held u hu l hl

section Rules

variable {rest : List Thread} {l : Lock}

/-- The owner of a semaphore, when it is not the running thread. -/
theorem StackInv.owner_below (hs : StackInv ⟨t :: rest, o⟩) {n p : Nat}
    (hn : o.sem n = some (.thread p))
    (hnot : ∀ l ∈ t.pc.holds, l.hwSem ≠ n) :
    ∃ u ∈ rest, u.prio = p ∧ ∃ l ∈ u.pc.holds, l.hwSem = n := by
  obtain ⟨u, hu, hp, l, hl, hln⟩ := hs.owner n p hn
  rcases List.mem_cons.mp hu with rfl | hu
  · exact absurd hln (hnot l hl)
  · exact ⟨u, hu, hp, l, hl, hln⟩

/-- The running thread ends outside its sections. -/
theorem StackInv.ended (hs : StackInv ⟨t :: rest, o⟩) (hpc : t.pc = .out) :
    StackInv ⟨rest, o⟩ := by
  have hrest : ∀ u ∈ rest, u ∈ t :: rest :=
    fun u hu => List.mem_cons_of_mem _ hu
  refine ⟨fun n p hn => ?_, fun u hu => hs.held u (hrest u hu),
    (List.pairwise_cons.mp hs.prio).2, fun u hu => hs.todo u (hrest u hu)⟩
  apply hs.owner_below hn
  intro l hl
  rw [hpc] at hl
  cases hl

/-- The running thread takes a free semaphore. -/
theorem StackInv.take (hs : StackInv ⟨t :: rest, o⟩) (hpc : t.pc = .spin l)
    (hfree : o.sem l.hwSem = none) :
    StackInv ⟨{ t with pc := .taken l } :: rest, { o with
      sem := Function.update o.sem l.hwSem (some (.thread t.prio)) }⟩ := by
  have hfresh := hs.unheld (fun p hp => nomatch hfree.symm.trans hp)
  have hrest : ∀ u ∈ rest, u ∈ t :: rest :=
    fun u hu => List.mem_cons_of_mem _ hu
  obtain ⟨hhead, htail⟩ := List.pairwise_cons.mp hs.prio
  refine ⟨fun n p hn => ?_, fun u hu m hm => ?_,
    List.pairwise_cons.mpr ⟨hhead, htail⟩, fun u hu m hm => ?_⟩
  · rcases owner_update hn with ⟨hnl, hp⟩ | ⟨-, hn⟩
    · cases hp
      exact ⟨_, List.mem_cons_self, rfl, l, rfl, hnl.symm⟩
    · obtain ⟨u, hu, hu'⟩ := hs.owner_below hn fun m hm => by
        rw [hpc] at hm
        cases hm
      exact ⟨u, List.mem_cons_of_mem _ hu, hu'⟩
  · rcases List.mem_cons.mp hu with rfl | hu
    · cases hm
      exact Function.update_self ..
    · have hne := hfresh u (hrest u hu) m hm
      show Function.update o.sem _ _ m.hwSem = _
      rw [Function.update_of_ne hne]
      exact hs.held u (hrest u hu) m hm
  · rcases List.mem_cons.mp hu with rfl | hu
    · cases hm
    · exact hs.todo u (hrest u hu) m hm

/-- The running thread gives its semaphore back and leaves the section. -/
theorem StackInv.release (hs : StackInv ⟨t :: rest, o⟩)
    (hpc : t.pc = .unmasked l) :
    StackInv ⟨{ t with pc := .out, todo := t.todo.tail } :: rest,
      semReleaseSemaphore l.hwSem o⟩ := by
  have hrest : ∀ u ∈ rest, u ∈ t :: rest :=
    fun u hu => List.mem_cons_of_mem _ hu
  obtain ⟨hhead, htail⟩ := List.pairwise_cons.mp hs.prio
  have hown : o.sem l.hwSem = some (.thread t.prio) :=
    hs.held t List.mem_cons_self l (by rw [hpc]; rfl)
  refine ⟨fun n p hn => ?_, fun u hu m hm => ?_,
    List.pairwise_cons.mpr ⟨hhead, htail⟩, fun u hu m hm => ?_⟩
  · rcases owner_update hn with ⟨-, hp⟩ | ⟨hnl, hn⟩
    · cases hp
    · obtain ⟨u, hu, hu'⟩ := hs.owner_below hn fun m hm heq => by
        rw [hpc] at hm
        cases hm
        exact hnl heq.symm
      exact ⟨u, List.mem_cons_of_mem _ hu, hu'⟩
  · rcases List.mem_cons.mp hu with rfl | hu
    · cases hm
    · have hheld := hs.held u (hrest u hu) m hm
      have hlt := hhead u hu
      show Function.update o.sem l.hwSem none m.hwSem = _
      rw [Function.update_of_ne ?_]
      · exact hheld
      · intro heq
        rw [heq, hown] at hheld
        have heq' : t.prio = u.prio := by simpa using hheld
        omega
  · rcases List.mem_cons.mp hu with rfl | hu
    · cases hm
    · exact hs.todo u (hrest u hu) m hm

/-- A thread above the running one arrives. -/
theorem StackInv.arrive {prio : Nat} {prog : List Lock} (hs : StackInv s)
    (hprio : ∀ t ∈ s.stack.head?, t.prio < prio) :
    StackInv ⟨⟨prio, prog, .out⟩ :: s.stack, s.locks⟩ := by
  refine ⟨fun n p hn => ?_, fun u hu m hm => ?_,
    List.pairwise_cons.mpr ⟨fun u hu => ?_, hs.prio⟩, fun u hu m hm => ?_⟩
  · obtain ⟨u, hu, hp, m, hm, hmn⟩ := hs.owner n p hn
    exact ⟨u, List.mem_cons_of_mem _ hu, hp, m, hm, hmn⟩
  · rcases List.mem_cons.mp hu with rfl | hu
    · cases hm
    · exact hs.held u hu m hm
  · -- below the running thread priorities only fall
    obtain ⟨stack, locks⟩ := s
    cases stack with
    | nil => cases hu
    | cons t rest =>
        have hlt := hprio t rfl
        rcases List.mem_cons.mp hu with rfl | hu
        · exact hlt
        · have := (List.pairwise_cons.mp hs.prio).1 u hu
          show u.prio < prio
          omega
  · rcases List.mem_cons.mp hu with rfl | hu
    · cases hm
    · exact hs.todo u hu m hm

end Rules

/-- Every step keeps the invariant, under any schedule. -/
theorem stackInv_step (hs : StackInv s) (h : step c e s = some s') :
    StackInv s' := by
  obtain ⟨stack, locks⟩ := s
  cases step_cases h with
  | @run t rest _ _ hstack hrun =>
      cases hstack
      cases hrun with
      | ended hpc => exact hs.ended hpc
      | call hpc htodo =>
          refine hs.move rfl rfl (by rw [hpc]; rfl) fun l hl => ?_
          cases hl
          exact htodo
      | take hpc hfree => exact hs.take hpc hfree
      | spinning => exact hs
      | mask hpc =>
          exact hs.move rfl rfl (by rw [hpc]; rfl) fun l hl => by cases hl
      | unmask hpc =>
          exact hs.move rfl rfl (by rw [hpc]; rfl) fun l hl => by cases hl
      | release hpc => exact hs.release hpc
  | arrive _ hprio => exact hs.arrive hprio
  | acquire hfree =>
      apply hs.others
      · intro p hp
        cases hfree.symm.trans hp
      · intro p hp
        cases hp
  | refused => exact hs
  | release hheld =>
      apply hs.others
      · intro p hp
        cases hheld.symm.trans hp
      · intro p hp
        cases hp

-- ================================================== runs without overlap

/-- No thread has a section to run on a lock that a thread it pre-empted
holds. -/
def NoOverlap (s : System) : Prop :=
  s.stack.Pairwise fun t u => ∀ l ∈ u.pc.holds, l ∉ t.todo

theorem noOverlap_idle : NoOverlap idle := List.Pairwise.nil

/-- Only an arrival can bring an overlap. -/
theorem noOverlap_step (hs : NoOverlap s) (hok : AvoidsWindows s e)
    (h : step c e s = some s') : NoOverlap s' := by
  cases step_cases h with
  | @run t rest t' o hstack hrun =>
      unfold NoOverlap at hs ⊢
      rw [hstack] at hs
      obtain ⟨hhead, hrest⟩ := List.pairwise_cons.mp hs
      -- a step of the running thread adds no section to those it has to run
      have hsub : ∀ v ∈ t', v.todo ⊆ t.todo := by
        cases hrun with
        | ended =>
            intro v hv
            cases hv
        | release =>
            intro v hv
            cases hv
            exact fun _ h => List.mem_of_mem_tail h
        | call | take | spinning | mask | unmask =>
            intro v hv
            cases hv
            exact fun _ h => h
      cases t' with
      | none => exact hrest
      | some v =>
          refine List.pairwise_cons.mpr ⟨fun u hu l hl hmem => ?_, hrest⟩
          exact hhead u hu l hl (hsub v rfl hmem)
  | arrive => exact List.pairwise_cons.mpr ⟨hok, hs⟩
  | acquire | refused | release => exact hs

/-- Without an overlap the running thread spins on no thread of its
core. -/
theorem not_spinDeadlock (hs : StackInv s) (hno : NoOverlap s) :
    ¬ SpinDeadlock s := by
  rintro ⟨t, rest, l, p, hstack, hpc, hsem, hne⟩
  obtain ⟨u, hu, hp, m, hm, hml⟩ := hs.owner _ _ hsem
  have hl := hs.todo t (by rw [hstack]; exact List.mem_cons_self) l hpc
  rw [hstack] at hu
  unfold NoOverlap at hno
  rw [hstack] at hno
  rcases List.mem_cons.mp hu with rfl | hu
  · exact hne hp.symm
  · rw [Lock.hwSem_inj hml] at hm
    exact (List.pairwise_cons.mp hno).1 u hu l hm hl

theorem stackInv_reachable {ok : System → SchedEvent → Prop}
    (h : Reach (step c) ok idle s) : StackInv s :=
  h.invariant stackInv_idle fun _ _ _ hs _ hstep => stackInv_step hs hstep

-- ============================================= what an overlap comes to

/-- The running thread, outside of all sections and with the first
semaphore free, runs its first section to the end. -/
theorem run_section {prio : Nat} {m : Lock} {ms : List Lock}
    {rest : List Thread} (hstack : s.stack = ⟨prio, m :: ms, .out⟩ :: rest)
    (hfree : s.locks.sem m.hwSem = none) :
    ∃ s', Reach (step c) anyStep s s'
      ∧ s'.stack = ⟨prio, ms, .out⟩ :: rest := by
  obtain ⟨stack, locks⟩ := s
  cases hstack
  have hcall : exec (step c) ⟨⟨prio, m :: ms, .out⟩ :: rest, locks⟩ [.run]
      = some ⟨⟨prio, m :: ms, .spin m⟩ :: rest, locks⟩ := rfl
  obtain ⟨o, henter⟩ : ∃ o,
      csEnter m.hwSem false c (.thread prio) locks = some o := by
    rw [csEnter, semAcquireDirect_free _ hfree]
    exact ⟨_, rfl⟩
  have hin := run_csEnter (t := ⟨prio, m :: ms, .spin m⟩) rest henter rfl
  have hout := run_csExit (c := c) (t := ⟨prio, m :: ms, .masked m⟩) rest
    o rfl
  exact ⟨_, (reach_of_exec hcall).trans
    ((reach_of_exec hin).trans (reach_of_exec hout)), rfl⟩

/-- A thread that has to run a section on a lock held below it comes to
spin on the lock of a thread of its core. -/
theorem overlap_deadlocks {prio : Nat} {rest : List Thread} {l : Lock}
    (hbelow : ∃ u ∈ rest, l ∈ u.pc.holds) :
    ∀ (prog : List Lock) (s : System), StackInv s →
      s.stack = ⟨prio, prog, .out⟩ :: rest → l ∈ prog →
      ∃ s', Reach (step c) anyStep s s' ∧ SpinDeadlock s' := by
  intro prog
  induction prog with
  | nil =>
      intro s _ _ hl
      cases hl
  | cons m ms ih =>
      -- with the first semaphore free: it is another one, go on after it
      have hfree : ∀ s, StackInv s →
          s.stack = ⟨prio, m :: ms, .out⟩ :: rest → l ∈ m :: ms →
          s.locks.sem m.hwSem = none →
          ∃ s', Reach (step c) anyStep s s' ∧ SpinDeadlock s' := by
        intro s hs hstack hl hnone
        have hne : l ≠ m := by
          rintro rfl
          obtain ⟨u, hu, hul⟩ := hbelow
          have hheld := hs.held u
            (by rw [hstack]; exact List.mem_cons_of_mem _ hu) l hul
          rw [hnone] at hheld
          cases hheld
        have hl' : l ∈ ms := (List.mem_cons.mp hl).resolve_left hne
        obtain ⟨s₁, hr, hstack₁⟩ := run_section (c := c) hstack hnone
        have hs₁ : StackInv s₁ := hr.invariant hs
          fun _ _ _ h _ hstep => stackInv_step h hstep
        obtain ⟨s', hr', hdead⟩ := ih s₁ hs₁ hstack₁ hl'
        exact ⟨s', hr.trans hr', hdead⟩
      intro s hs hstack hl
      cases hsem : s.locks.sem m.hwSem with
      | none => exact hfree s hs hstack hl hsem
      | some w =>
          cases w with
          | core d =>
              have hstep : step c (.release d m) s = some
                  ⟨s.stack, semReleaseSemaphore m.hwSem s.locks⟩ := by
                simp only [step, hsem, if_true]
              obtain ⟨s', hr, hdead⟩ := hfree _ (stackInv_step hs hstep)
                hstack hl (Function.update_self ..)
              exact ⟨s', (Reach.step _ .init trivial hstep).trans hr, hdead⟩
          | thread p =>
              -- the next call already spins on a thread of this core
              have hne : p ≠ prio := by
                rintro rfl
                obtain ⟨u, hu, hp, k, hk, -⟩ := hs.owner _ _ hsem
                have hprio := hs.prio
                rw [hstack] at hu hprio
                rcases List.mem_cons.mp hu with rfl | hu
                · cases hk
                · have := (List.pairwise_cons.mp hprio).1 u hu
                  exact absurd hp (Nat.ne_of_lt this)
              have hstep : step c .run s = some
                  ⟨⟨prio, m :: ms, .spin m⟩ :: rest, s.locks⟩ := by
                simp only [step, hstack, threadStep]
                rfl
              exact ⟨_, .step _ .init trivial hstep,
                _, _, m, p, rfl, rfl, hsem, hne⟩

-- ============================================================ the result

/-- In every run in which arriving threads avoid the locks held on the
core, the running thread never spins on a semaphore of another thread of
its core; and after any arrival that does not avoid them, it can come to
that. -/
theorem no_spin_deadlock (c : Nat) :
    (∀ s, Reach (step c) AvoidsWindows idle s → ¬ SpinDeadlock s)
      ∧ ∀ s, Reach (step c) anyStep idle s → ∀ e s',
          step c e s = some s' → ¬ AvoidsWindows s e →
          ∃ s'', Reach (step c) anyStep s' s'' ∧ SpinDeadlock s'' := by
  refine ⟨fun s h => ?_, fun s h e s' hstep hbad => ?_⟩
  · have hno : NoOverlap s := h.invariant noOverlap_idle
      fun _ _ _ hs hok hstep => noOverlap_step hs hok hstep
    exact not_spinDeadlock (stackInv_reachable h) hno
  · have hs' := stackInv_step (stackInv_reachable h) hstep
    cases step_cases hstep with
    | @arrive prio prog hie hprio =>
        simp only [AvoidsWindows, not_forall, not_not] at hbad
        obtain ⟨u, hu, l, hl, hmem⟩ := hbad
        exact overlap_deadlocks ⟨u, hu, hl⟩ prog _ hs' rfl hmem
    | run | acquire | refused | release => exact absurd trivial hbad

/-- A thread pre-empted while it holds the QMSS semaphore, by one that
uses the CPPI lock. -/
theorem no_spin_deadlock_two_locks :
    ∃ s, Reach (step 0) AvoidsWindows idle s
      ∧ s.stack.map Thread.pc = [.spin .cppi, .taken .qmss]
      ∧ ¬ SpinDeadlock s := by
  obtain ⟨s, hs, hpc⟩ : ∃ s, Reach (step 0) AvoidsWindows idle s
      ∧ s.stack.map Thread.pc = [.spin .cppi, .taken .qmss] :=
    exists_reach_of_runOk
      [.arrive 1 [.qmss], .run, .run, .arrive 2 [.cppi], .run] (by decide)
  exact ⟨s, hs, hpc, (no_spin_deadlock 0).1 s hs⟩

/-- A thread pre-empted between taking the QMSS semaphore and masking the
interrupts, by one that uses the same lock. -/
theorem preempt_deadlock :
    ¬ ∀ c s, Reach (step c) anyStep idle s → ¬ SpinDeadlock s := by
  obtain ⟨s, hs, hstack, hsem⟩ : ∃ s, Reach (step 0) anyStep idle s
      ∧ s.stack = [⟨2, [.qmss], .spin .qmss⟩, ⟨1, [.qmss], .taken .qmss⟩]
      ∧ s.locks.sem QMSS_HW_SEM = some (.thread 1) :=
    exists_reach_of_runOk
      [.arrive 1 [.qmss], .run, .run, .arrive 2 [.qmss], .run] (by decide)
  intro hall
  exact hall 0 s hs ⟨_, _, .qmss, 1, hstack, rfl, hsem, by decide⟩

end DspCodes.Osal

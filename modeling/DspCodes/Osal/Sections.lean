/-
Nesting of critical sections on one core.

# What goes wrong

One slot per core is enough for one section at a time. A section inside
another one saves the state it finds, which is the MASKED one, over the
state the outer section is to restore: after the outermost exit the
interrupts stay masked (`sections_masked`). The cache hooks are sections
too, and the drivers call them inside theirs.

# What is proved

`sections_restore`: a well-nested sequence of calls keeps the interrupts
masked inside every section and restores the state at its end, at every
point, if and only if the interrupts were masked to begin with or no
section or cache hook is used inside another one.
-/
import DspCodes.Lib.Lts
import DspCodes.Lib.Nest
import DspCodes.Osal.Model

namespace DspCodes.Osal

open Lts Nest

-- ============================================================= the calls

/-- The three pairs of calls. -/
inductive Section
  | cppi | qmss | fftcInterrupt
  deriving DecidableEq, Repr

/-- The hardware semaphore a section takes. -/
def Section.hwSem : Section → Option Nat
  | .cppi => some CPPI_HW_SEM
  | .qmss => some QMSS_HW_SEM
  | .fftcInterrupt => none

/-- The cache operations of the hooks. -/
inductive CacheOp
  | invL1d | invalidatePrefetchBuffer | wbL1d
  deriving DecidableEq, Repr

/-- The six cache hooks. -/
inductive Hook
  | fftcBeginMemAccess | fftcEndMemAccess
  | cppiBeginMemAccess | cppiEndMemAccess
  | qmssBeginMemAccess | qmssEndMemAccess
  deriving DecidableEq, Repr

/-- A `BeginMemAccess` hook: invalidate inside an interrupt section. -/
def beginMemAccess (rest : Prog Section CacheOp) : Prog Section CacheOp :=
  .sec .fftcInterrupt (.op .invL1d (.op .invalidatePrefetchBuffer .done)) rest

/-- An `EndMemAccess` hook: write back inside an interrupt section. -/
def endMemAccess (rest : Prog Section CacheOp) : Prog Section CacheOp :=
  .sec .fftcInterrupt (.op .wbL1d .done) rest

/-- The body of a hook, before `rest`. -/
def Hook.body : Hook → Prog Section CacheOp → Prog Section CacheOp
  | .fftcBeginMemAccess | .cppiBeginMemAccess | .qmssBeginMemAccess =>
      beginMemAccess
  | .fftcEndMemAccess | .cppiEndMemAccess | .qmssEndMemAccess => endMemAccess

/-- The calls a caller makes, with the hooks replaced by their bodies. -/
def expand : Prog Section Hook → Prog Section CacheOp
  | .done => .done
  | .op h rest => h.body (expand rest)
  | .sec k body rest => .sec k (expand body) (expand rest)

/-- No section is opened on a hardware semaphore that is already held. -/
def Fresh {α : Type _} : List Nat → Prog Section α → Prop
  | _, .done => True
  | held, .op _ rest => Fresh held rest
  | held, .sec k body rest =>
      (∀ n ∈ k.hwSem, n ∉ held) ∧ Fresh (k.hwSem.toList ++ held) body
        ∧ Fresh held rest

/-- A well-nested sequence of calls that re-opens no held semaphore. -/
structure CallSeq where
  prog : Prog Section Hook
  fresh : Fresh [] prog

/-- The calls with the hooks opened up. -/
def CallSeq.calls (t : CallSeq) : List (Event Section CacheOp) :=
  (expand t.prog).flat

/-- How deep sections and hooks are nested. -/
def CallSeq.depth (t : CallSeq) : Nat := (expand t.prog).depth

variable {K : Type _}

/-- Entering a section on core `c`. -/
def Section.enter (off : K) (c : Nat) :
    Section → Locks K Unit → Option (Locks K Unit)
  | .cppi => cppiCsEnter off c ()
  | .qmss => qmssCsEnter off c ()
  | .fftcInterrupt => fun o => some (fftcInterruptCsEnter off c o)

/-- Leaving a section on core `c`. -/
def Section.exit (c : Nat) : Section → Locks K Unit → Locks K Unit
  | .cppi => cppiCsExit c
  | .qmss => qmssCsExit c
  | .fftcInterrupt => fftcInterruptCsExit c

/-- One call on core `c`. A cache operation does not touch the locks. -/
def call (off : K) (c : Nat) :
    Event Section CacheOp → Locks K Unit → Option (Locks K Unit)
  | .enter k => k.enter off c
  | .exit k => fun o => some (k.exit c o)
  | .op _ => some

-- ========================================================= the property

/-- The core before the sequence: any interrupt state, any old keys, no
semaphore held. -/
def start (ie : K) (coreKey : Nat → K) : Locks K Unit :=
  ⟨ie, coreKey, fun _ => none⟩

/-- At every point of the sequence the calls so far have returned, inside
a section the interrupts are masked, and outside they are as they were
at the start. -/
def SectionsSafe (off : K) (c : Nat) (o : Locks K Unit)
    (calls : List (Event Section CacheOp)) : Prop :=
  ∀ p, p <+: calls → ∃ o', exec (call off c) o p = some o'
    ∧ o'.ie = if level 0 p = 0 then o.ie else off

-- ======================================================== one section

section Steps

variable {off : K} {c : Nat} {held : List Nat} {o o₁ o₂ : Locks K Unit}

/-- Only the semaphores in `held` are taken. -/
def FreeOutside (held : List Nat) (o : Locks K Unit) : Prop :=
  ∀ n, n ∉ held → o.sem n = none

/-- Taking the semaphore of a `CsEnter`. -/
theorem csEnter_eq {n : Nat} (hfree : FreeOutside held o) (hn : n ∉ held) :
    ∃ o', csEnter n off c () o = some o' ∧ o'.ie = off
      ∧ o'.coreKey c = o.ie ∧ FreeOutside (n :: held) o' := by
  refine ⟨maskInterrupts off c
      { o with sem := Function.update o.sem n (some ()) }, ?_, rfl, ?_, ?_⟩
  · rw [csEnter, semAcquireDirect_free () (hfree n hn)]
  · simp [maskInterrupts, hwiDisable]
  · intro m hm
    rw [List.mem_cons, not_or] at hm
    show Function.update o.sem n (some ()) m = none
    rw [Function.update_of_ne hm.1]
    exact hfree m hm.2

/-- Entering a section whose semaphore is free: masked, with the state
before in the slot. -/
theorem Section.enter_eq (k : Section) (hfree : FreeOutside held o)
    (hk : ∀ n ∈ k.hwSem, n ∉ held) :
    ∃ o', k.enter off c o = some o' ∧ o'.ie = off ∧ o'.coreKey c = o.ie
      ∧ FreeOutside (k.hwSem.toList ++ held) o' := by
  cases k with
  | cppi => exact csEnter_eq hfree (hk _ rfl)
  | qmss => exact csEnter_eq hfree (hk _ rfl)
  | fftcInterrupt =>
      refine ⟨_, rfl, rfl, ?_, hfree⟩
      simp [fftcInterruptCsEnter, maskInterrupts, hwiDisable]

/-- Leaving a section sets the interrupts to what the slot says. -/
theorem Section.exit_ie (k : Section) (o : Locks K Unit) :
    (k.exit c o).ie = o.coreKey c ∧ (k.exit c o).coreKey = o.coreKey := by
  cases k <;> exact ⟨rfl, rfl⟩

/-- Leaving a section gives its semaphore back. -/
theorem Section.exit_free (k : Section)
    (hfree : FreeOutside (k.hwSem.toList ++ held) o) :
    FreeOutside held (k.exit c o) := by
  intro n hn
  have hrelease : ∀ m, FreeOutside (m :: held) o →
      Function.update o.sem m none n = none := by
    intro m hm
    by_cases hnm : n = m
    · rw [hnm, Function.update_self]
    · rw [Function.update_of_ne hnm]
      exact hm n (by rw [List.mem_cons, not_or]; exact ⟨hnm, hn⟩)
  cases k with
  | cppi => exact hrelease _ hfree
  | qmss => exact hrelease _ hfree
  | fftcInterrupt => exact hfree n hn

/-- Running a whole section. -/
theorem exec_sec {k : Section} {body : Prog Section CacheOp}
    (henter : k.enter off c o = some o₁)
    (hbody : exec (call off c) o₁ body.flat = some o₂)
    (q : List (Event Section CacheOp)) :
    exec (call off c) o (.enter k :: (body.flat ++ .exit k :: q))
      = exec (call off c) (k.exit c o₂) q := by
  rw [exec_cons (show call off c (.enter k) o = some o₁ from henter),
    exec_append hbody]
  exact exec_cons rfl q

-- ============================================= under masked interrupts

/-- Calls made with the interrupts masked keep them masked at every point;
one section among them leaves the masked state in the slot. -/
theorem masked_run (t : Prog Section CacheOp) :
    ∀ {held : List Nat} {o : Locks K Unit}, Fresh held t →
      FreeOutside held o → o.ie = off →
      (∀ p, p <+: t.flat →
        ∃ o', exec (call off c) o p = some o' ∧ o'.ie = off)
      ∧ ∃ o', exec (call off c) o t.flat = some o'
          ∧ FreeOutside held o'
          ∧ o'.coreKey c = if t.depth = 0 then o.coreKey c else off := by
  induction t with
  | done =>
      intro held o _ hfree hoff
      refine ⟨fun p hp => ?_, o, rfl, hfree, rfl⟩
      rw [List.prefix_nil.mp hp]
      exact ⟨o, rfl, hoff⟩
  | op a rest ih =>
      intro held o hfresh hfree hoff
      have hop : call off c (.op a) o = some o := rfl
      obtain ⟨hpoints, o', hrun, hfree', hkey⟩ := ih hfresh hfree hoff
      refine ⟨forall_prefix_op.mpr ⟨⟨o, rfl, hoff⟩, fun q hq => ?_⟩,
        o', ?_, hfree', hkey⟩
      · rw [exec_cons hop]
        exact hpoints q hq
      · show exec (call off c) o (.op a :: rest.flat) = some o'
        rw [exec_cons hop]
        exact hrun
  | sec k body rest ihb ihr =>
      intro held o hfresh hfree hoff
      obtain ⟨hk, hfb, hfr⟩ := hfresh
      obtain ⟨o₁, henter, hoff₁, hkey₁, hfree₁⟩ := k.enter_eq hfree hk
      obtain ⟨hpb, o₂, hrun₂, hfree₂, hkey₂⟩ := ihb hfb hfree₁ hoff₁
      -- the slot holds the masked state on either path through the body
      have hslot : o₂.coreKey c = off := by
        rw [hkey₂, hkey₁, hoff, ite_self]
      obtain ⟨hie, hkeys⟩ := k.exit_ie (c := c) o₂
      obtain ⟨hpr, o', hrun, hfree', hkey'⟩ :=
        ihr hfr (k.exit_free (c := c) hfree₂) (hie.trans hslot)
      have hsec := exec_sec henter hrun₂
      refine ⟨forall_prefix_sec.mpr ⟨⟨o, rfl, hoff⟩, fun q hq => ?_,
        fun q hq => ?_⟩, o', ?_, hfree', ?_⟩
      · rw [exec_cons (show call off c (.enter k) o = some o₁ from henter)]
        exact hpb q hq
      · rw [hsec]
        exact hpr q hq
      · exact (hsec rest.flat).trans hrun
      · rw [hkey', hkeys, hslot, ite_self, if_neg]
        simp only [Prog.depth]
        omega

-- ==================================================== any initial state

/-- A section whose body stays masked is safe if what comes behind it is. -/
theorem sectionsSafe_sec {k : Section} {body rest : Prog Section CacheOp}
    (henter : k.enter off c o = some o₁)
    (hpoints : ∀ p, p <+: body.flat →
      ∃ o', exec (call off c) o₁ p = some o' ∧ o'.ie = off)
    (hbody : exec (call off c) o₁ body.flat = some o₂) :
    SectionsSafe off c o (Prog.sec k body rest).flat
      ↔ ∀ q, q <+: rest.flat → ∃ o',
          exec (call off c) (k.exit c o₂) q = some o'
            ∧ o'.ie = if level 0 q = 0 then o.ie else off := by
  have hinside : ∀ q, q <+: body.flat → ∃ o',
      exec (call off c) o (.enter k :: q) = some o' ∧ o'.ie
        = if level 0 (.enter k :: q) = 0 then o.ie else off := by
    intro q hq
    have hpos := le_level_of_prefix body 1 q hq
    have hopen : level 0 (.enter k :: q) ≠ 0 := by
      show level 1 q ≠ 0
      omega
    rw [exec_cons (show call off c (.enter k) o = some o₁ from henter),
      if_neg hopen]
    exact hpoints q hq
  rw [SectionsSafe, forall_prefix_sec]
  simp only [exec_sec henter hbody, level_sec]
  exact ⟨fun h => h.2.2, fun h => ⟨⟨o, rfl, rfl⟩, hinside, h⟩⟩

/-- A program is safe exactly if the interrupts are masked to begin with
or its sections are not nested. -/
theorem sectionsSafe_iff (t : Prog Section CacheOp) :
    ∀ {held : List Nat} {o : Locks K Unit}, Fresh held t →
      FreeOutside held o →
      (SectionsSafe off c o t.flat ↔ o.ie = off ∨ t.depth ≤ 1) := by
  induction t with
  | done =>
      intro held o _ _
      refine ⟨fun _ => .inr (Nat.zero_le 1), fun _ p hp => ?_⟩
      rw [List.prefix_nil.mp hp]
      exact ⟨o, rfl, rfl⟩
  | op a rest ih =>
      intro held o hfresh hfree
      have hop : call off c (.op a) o = some o := rfl
      rw [SectionsSafe, forall_prefix_op]
      simp only [exec_cons hop]
      refine Iff.trans ?_ (ih hfresh hfree)
      exact ⟨fun h => h.2, fun h => ⟨⟨o, rfl, rfl⟩, h⟩⟩
  | sec k body rest _ ihr =>
      intro held o hfresh hfree
      obtain ⟨hk, hfb, hfr⟩ := hfresh
      obtain ⟨o₁, henter, hoff₁, hkey₁, hfree₁⟩ := k.enter_eq hfree hk
      obtain ⟨hpb, o₂, hrun₂, hfree₂, hkey₂⟩ :=
        masked_run body hfb hfree₁ hoff₁
      have hie : (k.exit c o₂).ie = if body.depth = 0 then o.ie else off := by
        rw [(k.exit_ie o₂).1, hkey₂, hkey₁]
      rw [sectionsSafe_sec henter hpb hrun₂]
      by_cases hsame : (k.exit c o₂).ie = o.ie
      · have hrest := ihr hfr (k.exit_free (c := c) hfree₂)
        rw [SectionsSafe, hsame] at hrest
        rw [hrest]
        simp only [Prog.depth]
        by_cases hb : body.depth = 0
        · have hmax : max (0 + 1) rest.depth ≤ 1 ↔ rest.depth ≤ 1 := by omega
          rw [hb, hmax]
        · rw [if_neg hb, hsame] at hie
          simp [hie]
      · have hb : body.depth ≠ 0 := by
          intro hb
          rw [if_pos hb] at hie
          exact hsame hie
        rw [if_neg hb] at hie
        rw [hie] at hsame
        constructor
        · intro h
          obtain ⟨o', hrun, hie'⟩ := h [] List.nil_prefix
          cases hrun
          rw [hie] at hie'
          exact absurd hie' hsame
        · rintro (h | h)
          · exact absurd h.symm hsame
          · simp only [Prog.depth] at h
            omega

end Steps

/-- The hooks take no semaphore. -/
theorem fresh_expand (t : Prog Section Hook) :
    ∀ {held : List Nat}, Fresh held t → Fresh held (expand t) := by
  induction t with
  | done => exact fun h => h
  | op a rest ih =>
      intro held h
      have hbody : ∀ n ∈ Section.fftcInterrupt.hwSem, n ∉ held := by
        intro n hn
        cases hn
      cases a <;> exact ⟨hbody, trivial, ih h⟩
  | sec k body rest ihb ihr =>
      intro held h
      exact ⟨h.1, ihb h.2.1, ihr h.2.2⟩

-- ============================================================ the result

/-- A well-nested sequence of sections and cache hooks masks and restores
as it should, at every point, if and only if the interrupts were masked
to begin with or nothing is nested in a section. -/
theorem sections_restore (off : K) (c : Nat) (ie : K) (coreKey : Nat → K)
    (t : CallSeq) :
    SectionsSafe off c (start ie coreKey) t.calls
      ↔ ie = off ∨ t.depth ≤ 1 :=
  sectionsSafe_iff (expand t.prog) (fresh_expand t.prog t.fresh)
    (fun _ _ => rfl)

/-- `Osal_cppiBeginMemAccess` called inside a CPPI section. -/
def hookInside : CallSeq where
  prog := .sec .cppi (.op .cppiBeginMemAccess .done) .done
  fresh := ⟨fun _ _ => List.not_mem_nil, trivial, trivial⟩

/-- On core 0 with the interrupts enabled: after the exit of the CPPI
section they are still masked. -/
theorem sections_masked :
    ¬ ∀ (off : Bool) (c : Nat) (ie : Bool) (coreKey : Nat → Bool)
        (t : CallSeq), SectionsSafe off c (start ie coreKey) t.calls := by
  intro hall
  obtain ⟨o', hrun, hie⟩ := hall false 0 true (fun _ => false) hookInside
    hookInside.calls List.prefix_rfl
  have hend : (exec (call false 0) (start true fun _ => false)
      hookInside.calls).map Locks.ie = some false := by decide
  rw [hrun, Option.map_some, hie] at hend
  cases hend

end DspCodes.Osal

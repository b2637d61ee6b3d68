/-
The critical sections of the OSAL the transport program is built with
(multicore_osal.c; transport_osal.c has the same bodies).

A section on a hardware semaphore is two locks: the semaphore against
the other cores, and the interrupt mask against the other threads of the
core. Both kinds of section, and the cache hooks, keep the interrupt
state they will restore in one slot per core, `coreKey [core]`; the exit
functions ignore the handle they are given.

The drivers come from outside the repository and do what their callers
rely on: `Hwi_disable` masks and returns the state it found,
`Hwi_restore (key)` sets the state to `key`, `CSL_semAcquireDirect`
takes a free semaphore and returns 0 for one that is held by anyone.
-/
import Mathlib.Logic.Function.Basic

namespace DspCodes.Osal

-- ============================================================= the state

/-- A core's view: its interrupt-enable state, the shared slots, and who
holds each hardware semaphore. `K` are the interrupt states, `ω` the
parties that can hold a semaphore. -/
structure Locks (K ω : Type _) where
  ie : K
  coreKey : Nat → K
  sem : Nat → Option ω

/-- `CPPI_HW_SEM`. -/
abbrev CPPI_HW_SEM : Nat := 4

/-- `QMSS_HW_SEM`. -/
abbrev QMSS_HW_SEM : Nat := 3

variable {K ω : Type _}

-- =========================================================== the drivers

/-- `Hwi_disable ()`, with `off` for the masked state. -/
def hwiDisable (off : K) (o : Locks K ω) : K × Locks K ω :=
  (o.ie, { o with ie := off })

/-- `Hwi_restore (key)`. -/
def hwiRestore (key : K) (o : Locks K ω) : Locks K ω := { o with ie := key }

/-- `CSL_semAcquireDirect (n)`, called by `who`. -/
def semAcquireDirect (n : Nat) (who : ω) (o : Locks K ω) :
    Bool × Locks K ω :=
  match o.sem n with
  | none => (true, { o with sem := Function.update o.sem n (some who) })
  | some _ => (false, o)

/-- `CSL_semReleaseSemaphore (n)`. -/
def semReleaseSemaphore (n : Nat) (o : Locks K ω) : Locks K ω :=
  { o with sem := Function.update o.sem n none }

-- ========================================================== the sections

/-- `coreKey [c] = Hwi_disable ()`. -/
def maskInterrupts (off : K) (c : Nat) (o : Locks K ω) : Locks K ω :=
  let (key, o) := hwiDisable off o
  { o with coreKey := Function.update o.coreKey c key }

/-- `Hwi_restore (coreKey [c])`. -/
def unmaskInterrupts (c : Nat) (o : Locks K ω) : Locks K ω :=
  hwiRestore (o.coreKey c) o

/-- `Osal_fftcInterruptCsEnter` on core `c`. -/
def fftcInterruptCsEnter (off : K) : Nat → Locks K ω → Locks K ω :=
  maskInterrupts off

/-- `Osal_fftcInterruptCsExit` on core `c`. -/
def fftcInterruptCsExit : Nat → Locks K ω → Locks K ω := unmaskInterrupts

/-- A `CsEnter` on hardware semaphore `n`: spin until it is taken, save
and mask. `none` where the loop does not end, because `n` is held. -/
def csEnter (n : Nat) (off : K) (c : Nat) (who : ω) (o : Locks K ω) :
    Option (Locks K ω) :=
  match semAcquireDirect n who o with
  | (true, o) => some (maskInterrupts off c o)
  | (false, _) => none

/-- A `CsExit` on hardware semaphore `n`: restore, then release. -/
def csExit (n : Nat) (c : Nat) (o : Locks K ω) : Locks K ω :=
  semReleaseSemaphore n (unmaskInterrupts c o)

/-- `Osal_cppiCsEnter`. -/
def cppiCsEnter (off : K) : Nat → ω → Locks K ω → Option (Locks K ω) :=
  csEnter CPPI_HW_SEM off

/-- `Osal_cppiCsExit`. -/
def cppiCsExit : Nat → Locks K ω → Locks K ω := csExit CPPI_HW_SEM

/-- `Osal_qmssCsEnter`. -/
def qmssCsEnter (off : K) : Nat → ω → Locks K ω → Option (Locks K ω) :=
  csEnter QMSS_HW_SEM off

/-- `Osal_qmssCsExit`. -/
def qmssCsExit : Nat → Locks K ω → Locks K ω := csExit QMSS_HW_SEM

-- ============================================== what the locks see of them

@[simp] theorem maskInterrupts_sem (off : K) (c : Nat) (o : Locks K ω) :
    (maskInterrupts off c o).sem = o.sem := rfl

@[simp] theorem unmaskInterrupts_sem (c : Nat) (o : Locks K ω) :
    (unmaskInterrupts c o).sem = o.sem := rfl

/-- A free semaphore is taken. -/
theorem semAcquireDirect_free {n : Nat} (who : ω) {o : Locks K ω}
    (h : o.sem n = none) : semAcquireDirect n who o
      = (true, { o with sem := Function.update o.sem n (some who) }) := by
  unfold semAcquireDirect
  rw [h]

/-- A held semaphore is not, and nothing changes. -/
theorem semAcquireDirect_held {n : Nat} (who : ω) {o : Locks K ω}
    (h : o.sem n ≠ none) : semAcquireDirect n who o = (false, o) := by
  unfold semAcquireDirect
  split
  case h_1 hn => exact absurd hn h
  case h_2 => rfl

end DspCodes.Osal

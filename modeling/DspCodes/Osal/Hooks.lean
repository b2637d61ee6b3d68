/-
The OSAL as a coherence protocol: what the critical sections and the cache
hooks do for the data the cores share.

# The system

A driver library keeps its data in memory that all cores cache. Each core
enters a critical section, announces each block it is about to use
(`BeginMemAccess`), reads and writes it, announces that it is done with it
(`EndMemAccess`), and leaves. It uses a block only in between and begins
none twice. Everything else is arbitrary: which core is next at every
call, cache operation and access, which lines are evicted and which blocks
prefetched. An entry that has to spin is a call that is not enabled.

The five files differ in what the functions do (`Hooks`): which semaphore
`CsEnter` takes, if any, and which cache operations a hook performs, in
which order. The interrupt masks are left out; they order the threads of a
core, which share its cache. A block is a whole number of cache lines.
-/
import Mathlib.Data.Finset.Basic
import DspCodes.Lib.Cache
import DspCodes.Osal.Sections

namespace DspCodes.Osal

open Lts Cache

-- ============================================================== the files

/-- What an OSAL does around the shared data of a library: the semaphore
`CsEnter` takes and `CsExit` releases, and the cache operations of
`BeginMemAccess` and `EndMemAccess`. -/
structure Hooks where
  hwSem : Option Nat
  beginMemAccess : List CacheOp
  endMemAccess : List CacheOp
  begin_inv : .wbL1d ∉ beginMemAccess
  end_wb : ∀ op ∈ endMemAccess, op = .wbL1d

/-- The sections and hooks of multicore_osal.c, transport_osal.c and
test_osal.c, on the semaphore of the library. -/
def invWb (hwSem : Nat) : Hooks where
  hwSem := some hwSem
  beginMemAccess := [.invL1d, .invalidatePrefetchBuffer]
  endMemAccess := [.wbL1d]
  begin_inv := by decide
  end_wb := by decide

/-- `FFTC_HW_SEM`. -/
abbrev FFTC_HW_SEM : Nat := 2

/-- `Osal_fftcMultiCoreCsEnter`, `Osal_fftcBeginMemAccess` and the
functions that undo them, in multicore_osal.c. -/
def MulticoreOsal.fftc : Hooks := invWb FFTC_HW_SEM

/-- `Osal_cppiCsEnter`, `Osal_cppiBeginMemAccess` and so on. -/
def MulticoreOsal.cppi : Hooks := invWb CPPI_HW_SEM

/-- `Osal_qmssCsEnter`, `Osal_qmssBeginMemAccess` and so on. -/
def MulticoreOsal.qmss : Hooks := invWb QMSS_HW_SEM

/-- The same functions of transport_osal.c. -/
def TransportOsal.fftc : Hooks := invWb FFTC_HW_SEM

def TransportOsal.cppi : Hooks := invWb CPPI_HW_SEM

def TransportOsal.qmss : Hooks := invWb QMSS_HW_SEM

/-- The same functions of test_osal.c; the section for FFTC is
`Osal_biosMultiCoreCsEnter`. -/
def TestOsal.fftc : Hooks := invWb FFTC_HW_SEM

def TestOsal.cppi : Hooks := invWb CPPI_HW_SEM

def TestOsal.qmss : Hooks := invWb QMSS_HW_SEM

/-- `Osal_qmssCsEnter`, `Osal_qmssBeginMemAccess` and so on of
infrastructure_multicoreosal.c, without `L2_CACHE`. Here `QMSS_HW_SEM` is
2, and the prefetch buffer comes first. -/
def InfrastructureOsal.qmss : Hooks where
  hwSem := some 2
  beginMemAccess := [.invalidatePrefetchBuffer, .invL1d]
  endMemAccess := [.wbL1d]
  begin_inv := by decide
  end_wb := by decide

/-- `Osal_cppiCsEnter`, `Osal_cppiBeginMemAccess` and so on of
infrastructure_multicoreosal.c. Here `CPPI_HW_SEM` is 1; the hooks are
empty. -/
def InfrastructureOsal.cppi : Hooks where
  hwSem := some 1
  beginMemAccess := []
  endMemAccess := []
  begin_inv := by decide
  end_wb := by decide

/-- All of osal.c. -/
def PlainOsal.hooks : Hooks where
  hwSem := none
  beginMemAccess := []
  endMemAccess := []
  begin_inv := by decide
  end_wb := by decide

-- ============================================================= the system

/-- Where a core stands with the library's data. -/
inductive Access (β : Type _)
  | out  -- outside of the critical section
  | inside (held : Finset β)  -- inside, using these blocks
  | opening (held : Finset β) (b : β) (todo : List CacheOp)
  | closing (held : Finset β) (b : β) (todo : List CacheOp)
  deriving DecidableEq

/-- The library on `m` cores. No transition reads `cur`, what was written
last. -/
structure Driver (m : Nat) (β V : Type _) where
  cell : β → Cell (Fin m) V
  sem : Option (Fin m)
  core : Fin m → Access β
  cur : β → V

variable {m : Nat} {β V : Type _} [DecidableEq β]

/-- The library before the first call. -/
def Driver.start (m : Nat) (mem : β → V) : Driver m β V where
  cell := fun b => .uncached (mem b)
  sem := none
  core := fun _ => .out
  cur := mem

/-- What a core does next, or the hardware of its cache. -/
inductive Call (m : Nat) (β V : Type _)
  | csEnter (c : Fin m)
  | csExit (c : Fin m)
  | beginMemAccess (c : Fin m) (b : β)
  | endMemAccess (c : Fin m) (b : β)
  | cacheOp (c : Fin m)  -- the next operation of the hook the core is in
  | read (c : Fin m) (b : β)
  | write (c : Fin m) (b : β) (v : V)
  | evict (c : Fin m) (b : β)
  | prefetch (c : Fin m) (b : β)

/-- An operation of core `c` on block `b`. -/
def Driver.apply (s : Driver m β V) (c : Fin m) (b : β) (op : Op V) :
    Driver m β V :=
  { s with cell := Function.update s.cell b ((s.cell b).apply c op) }

/-- The core's next place. -/
def Driver.goto (s : Driver m β V) (c : Fin m) (a : Access β) :
    Driver m β V :=
  { s with core := Function.update s.core c a }

/-- A cache operation of a hook on block `b`. The prefetch buffer is
invalidated as a whole. -/
def Driver.perform (s : Driver m β V) (c : Fin m) (b : β) :
    CacheOp → Driver m β V
  | .invL1d => s.apply c b .drop
  | .wbL1d => s.apply c b .clean
  | .invalidatePrefetchBuffer =>
      { s with cell := fun b => (s.cell b).apply c .dropAhead }

/-- The transition function. -/
def osalStep (o : Hooks) (a : Call m β V) (s : Driver m β V) :
    Option (Driver m β V) :=
  match a with
  | .csEnter c =>
      match s.core c with
      | .out =>
          match o.hwSem, s.sem with
          | none, _ => some (s.goto c (.inside ∅))
          | some _, none =>
              some ({ s with sem := some c }.goto c (.inside ∅))
          | some _, some _ => none
      | _ => none
  | .csExit c =>
      match s.core c with
      | .inside held =>
          if held = ∅ then
            match o.hwSem with
            | none => some (s.goto c .out)
            | some _ => some ({ s with sem := none }.goto c .out)
          else none
      | _ => none
  | .beginMemAccess c b =>
      match s.core c with
      | .inside held =>
          if b ∈ held then none
          else some (s.goto c (.opening held b o.beginMemAccess))
      | _ => none
  | .endMemAccess c b =>
      match s.core c with
      | .inside held =>
          if b ∈ held then
            some (s.goto c (.closing (held.erase b) b o.endMemAccess))
          else none
      | _ => none
  | .cacheOp c =>
      match s.core c with
      | .opening held b (op :: todo) =>
          some ((s.perform c b op).goto c (.opening held b todo))
      | .opening held b [] => some (s.goto c (.inside (insert b held)))
      | .closing held b (op :: todo) =>
          some ((s.perform c b op).goto c (.closing held b todo))
      | .closing held _ [] => some (s.goto c (.inside held))
      | _ => none
  | .read c b =>
      match s.core c with
      | .inside held => if b ∈ held then some (s.apply c b .read) else none
      | _ => none
  | .write c b v =>
      match s.core c with
      | .inside held =>
          if b ∈ held then
            some { s.apply c b (.write v) with
              cur := Function.update s.cur b v }
          else none
      | _ => none
  | .evict c b => some (s.apply c b .evict)
  | .prefetch c b => some (s.apply c b .prefetch)

/-- A core that uses a block sees what was written to it last. -/
def Coherent (s : Driver m β V) : Prop :=
  ∀ c held b, s.core c = .inside held → b ∈ held →
    (s.cell b).view c = s.cur b

/-- The hooks leave nothing to chance: the section takes a semaphore, and
the copies are invalidated before a use and written back after it. -/
structure Hooks.Full (o : Hooks) : Prop where
  hwSem : o.hwSem ≠ none
  invL1d : .invL1d ∈ o.beginMemAccess
  prefetch : .invalidatePrefetchBuffer ∈ o.beginMemAccess
  wbL1d : .wbL1d ∈ o.endMemAccess

/-- The hooks do not invalidate what they do not write back. -/
def Hooks.Keeps (o : Hooks) : Prop :=
  .invL1d ∈ o.beginMemAccess → .wbL1d ∈ o.endMemAccess

-- ==================================================== what a step can do

variable {o : Hooks} {s s' : Driver m β V} {a : Call m β V} {c d : Fin m}
  {b b' : β} {held : Finset β} {todo : List CacheOp} {op : CacheOp} {v : V}

/-- The outcomes of one step. -/
inductive OsalStep (o : Hooks) (s : Driver m β V) : Driver m β V → Prop
  | enter {c : Fin m} (hpc : s.core c = .out) (hsem : o.hwSem = none) :
      OsalStep o s (s.goto c (.inside ∅))
  | acquire {c : Fin m} (hpc : s.core c = .out) (hsem : o.hwSem ≠ none)
      (hfree : s.sem = none) :
      OsalStep o s ({ s with sem := some c }.goto c (.inside ∅))
  | exit {c : Fin m} (hpc : s.core c = .inside ∅) (hsem : o.hwSem = none) :
      OsalStep o s (s.goto c .out)
  | release {c : Fin m} (hpc : s.core c = .inside ∅)
      (hsem : o.hwSem ≠ none) :
      OsalStep o s ({ s with sem := none }.goto c .out)
  | beginAccess {c : Fin m} {b : β} {held : Finset β}
      (hpc : s.core c = .inside held) (hb : b ∉ held) :
      OsalStep o s (s.goto c (.opening held b o.beginMemAccess))
  | opening {c : Fin m} {b : β} {held : Finset β} {op : CacheOp}
      {todo : List CacheOp} (hpc : s.core c = .opening held b (op :: todo)) :
      OsalStep o s ((s.perform c b op).goto c (.opening held b todo))
  | opened {c : Fin m} {b : β} {held : Finset β}
      (hpc : s.core c = .opening held b []) :
      OsalStep o s (s.goto c (.inside (insert b held)))
  | endAccess {c : Fin m} {b : β} {held : Finset β}
      (hpc : s.core c = .inside held) (hb : b ∈ held) :
      OsalStep o s (s.goto c (.closing (held.erase b) b o.endMemAccess))
  | closing {c : Fin m} {b : β} {held : Finset β} {op : CacheOp}
      {todo : List CacheOp} (hpc : s.core c = .closing held b (op :: todo)) :
      OsalStep o s ((s.perform c b op).goto c (.closing held b todo))
  | closed {c : Fin m} {b : β} {held : Finset β}
      (hpc : s.core c = .closing held b []) :
      OsalStep o s (s.goto c (.inside held))
  | read {c : Fin m} {b : β} {held : Finset β} (hpc : s.core c = .inside held)
      (hb : b ∈ held) : OsalStep o s (s.apply c b .read)
  | hardware {c : Fin m} {b : β} {op : Op V}
      (hop : op = .evict ∨ op = .prefetch) : OsalStep o s (s.apply c b op)
  | write {c : Fin m} {b : β} {held : Finset β} {v : V}
      (hpc : s.core c = .inside held) (hb : b ∈ held) :
      OsalStep o s { s.apply c b (.write v) with
        cur := Function.update s.cur b v }

/-- `osalStep` has no other outcome. -/
theorem osalStep_cases (h : osalStep o a s = some s') : OsalStep o s s' := by
  cases a with
  | csEnter c =>
      simp only [osalStep] at h
      split at h
      next hpc =>
        split at h
        next hsem =>
          cases h
          exact .enter hpc hsem
        next hsem hfree =>
          cases h
          exact .acquire hpc (by rw [hsem]; exact Option.some_ne_none _) hfree
        next => cases h
      next => cases h
  | csExit c =>
      simp only [osalStep] at h
      split at h
      next hpc =>
        split at h
        next hheld =>
          subst hheld
          split at h
          next hsem =>
            cases h
            exact .exit hpc hsem
          next hsem =>
            cases h
            exact .release hpc (by rw [hsem]; exact Option.some_ne_none _)
        next => cases h
      next => cases h
  | beginMemAccess c b =>
      simp only [osalStep] at h
      split at h
      next hpc =>
        split at h
        next => cases h
        next hb =>
          cases h
          exact .beginAccess hpc hb
      next => cases h
  | endMemAccess c b =>
      simp only [osalStep] at h
      split at h
      next hpc =>
        split at h
        next hb =>
          cases h
          exact .endAccess hpc hb
        next => cases h
      next => cases h
  | cacheOp c =>
      simp only [osalStep] at h
      split at h
      next hpc => cases h; exact .opening hpc
      next hpc => cases h; exact .opened hpc
      next hpc => cases h; exact .closing hpc
      next hpc => cases h; exact .closed hpc
      next => cases h
  | read c b =>
      simp only [osalStep] at h
      split at h
      next hpc =>
        split at h
        next hb => cases h; exact .read hpc hb
        next => cases h
      next => cases h
  | write c b v =>
      simp only [osalStep] at h
      split at h
      next hpc =>
        split at h
        next hb => cases h; exact .write hpc hb
        next => cases h
      next => cases h
  | evict c b => cases h; exact .hardware (Or.inl rfl)
  | prefetch c b => cases h; exact .hardware (Or.inr rfl)

end DspCodes.Osal

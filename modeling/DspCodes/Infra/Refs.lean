/-
What `sysExit` leaves open: the reference counts of the common queues.

# The system

The queue manager counts how often a queue is open. After `sysInit` each
of the six common queues is open once, on core 0. The other cores open
them once more in `getsysHandles`, and stop at their first error. `sysExit`
closes each queue as often as it takes. Any core may be next at every
call, and every call may fail.

A close returns the count that is left, or an error, which is negative.

# What is proved

`sysExit` tests the first close of a queue with an `if` and the others
with a `while`. An error of the first one ends the matter, and the queue
stays as open as it was; an error of another one is overridden by the next
turn of the loop. So `sysExit` closes nothing twice and makes no more
calls than there are opens and errors, and what is open when it is done
are the queues whose first close has failed, and what was opened too late
(`sysExit_closes`).
-/
import Mathlib.Data.Fintype.Basic
import DspCodes.Lib.Count
import DspCodes.Infra.Handles

namespace DspCodes.Infra

open Lts Counting

instance : Fintype QueueHnd where
  elems := QueueHnd.all.toFinset
  complete := by
    intro q
    cases q <;> decide

-- ============================================================== the code

/-- The queue a call of `sysExit` closes. -/
def ExitStep.closes : ExitStep → Option QueueHnd
  | .closeRxFree => some .rxFree
  | .closeTxCmpl => some .txCmpl
  | .closeTxFree => some .txFree
  | .closeSync => some .sync
  | .closeSyncFree => some .syncFree
  | .closeSyncCfg => some .syncCfg
  | .cppiClose | .cppiExit => none

/-- Where core 0 stands in `sysExit`. -/
inductive ExitPc
  | first (q : QueueHnd) (rest : List QueueHnd)  -- the call in the `if`
  | again (q : QueueHnd) (rest : List QueueHnd)  -- the call in the `while`
  | closed  -- at `Cppi_close`
  deriving DecidableEq

/-- On to the next queue. -/
def closeNext : List QueueHnd → ExitPc
  | [] => .closed
  | q :: rest => .first q rest

/-- The counts, core 0 in `sysExit`, and the queues that core `c + 1` has
still to open in `getsysHandles`. No transition reads the other fields:
the opens and the closes that have succeeded, the opens of a queue
that came when `sysExit` was done with it, the queues whose first close
failed, the calls of `sysExit`, and those that failed. -/
structure Refs (m : Nat) where
  refs : QueueHnd → Nat
  exit : ExitPc
  getsys : Fin m → List QueueHnd
  opens : QueueHnd → Nat
  closes : QueueHnd → Nat
  late : QueueHnd → Nat
  skipped : List QueueHnd
  calls : Nat
  errors : Nat

variable {m : Nat}

/-- The queues that `sysExit` is not done with. -/
def ExitPc.left : ExitPc → List QueueHnd
  | .first q rest | .again q rest => q :: rest
  | .closed => []

/-- The queues it has not come to. -/
def ExitPc.fresh : ExitPc → List QueueHnd
  | .first q rest => q :: rest
  | .again _ rest => rest
  | .closed => []

/-- Core `c + 1` has opened `q`. -/
def Refs.opened (s : Refs m) (c : Fin m) (q : QueueHnd)
    (rest : List QueueHnd) : Refs m :=
  { s with
    refs := Function.update s.refs q (s.refs q + 1)
    getsys := Function.update s.getsys c rest
    opens := Function.update s.opens q (s.opens q + 1)
    late := if q ∈ s.exit.left then s.late
      else Function.update s.late q (s.late q + 1) }

/-- Core 0 has closed `q` once. -/
def Refs.close (s : Refs m) (q : QueueHnd) (pc : ExitPc) : Refs m :=
  { s with
    refs := Function.update s.refs q (s.refs q - 1)
    exit := pc
    closes := Function.update s.closes q (s.closes q + 1)
    calls := s.calls + 1 }

/-- A close of core 0 has failed. -/
def Refs.fail (s : Refs m) (pc : ExitPc) (skipped : List QueueHnd) :
    Refs m :=
  { s with
    exit := pc
    skipped := skipped
    calls := s.calls + 1
    errors := s.errors + 1 }

/-- Whose call is next, and what comes of it. -/
inductive RefAction (m : Nat)
  | getsys (c : Fin m) (ok : Bool)
  | exit (error : Option Nat)

variable {s s' : Refs m} {a : RefAction m} {q : QueueHnd}

/-- The outcomes of a step. -/
inductive RefStep (s : Refs m) : Refs m → Prop
  | opened {c : Fin m} {q : QueueHnd} {rest : List QueueHnd}
      (hpc : s.getsys c = q :: rest) : RefStep s (s.opened c q rest)
  | openError {c : Fin m} {q : QueueHnd} {rest : List QueueHnd}
      (hpc : s.getsys c = q :: rest) :
      RefStep s { s with getsys := Function.update s.getsys c [] }
  | skip {q : QueueHnd} {rest : List QueueHnd}
      (hpc : s.exit = .first q rest) :
      RefStep s (s.fail (closeNext rest) (q :: s.skipped))
  | retry {q : QueueHnd} {rest : List QueueHnd}
      (hpc : s.exit = .again q rest) :
      RefStep s (s.fail (.again q rest) s.skipped)
  | close {q : QueueHnd} {rest : List QueueHnd}
      (hpc : s.exit = .first q rest ∨ s.exit = .again q rest) :
      RefStep s (s.close q
        (if s.refs q - 1 = 0 then closeNext rest else .again q rest))

@[simp] theorem closeNext_left (queues : List QueueHnd) :
    (closeNext queues).left = queues := by
  cases queues <;> rfl

@[simp] theorem closeNext_fresh (queues : List QueueHnd) :
    (closeNext queues).fresh = queues := by
  cases queues <;> rfl

/-- Every reference is an open that was not closed, no consumer opens a
queue twice, and where `sysExit` is done with a queue the references are
those it has skipped, or that came late. -/
structure RefsInv (s : Refs m) : Prop where
  balance : ∀ q, s.refs q + s.closes q = 1 + s.opens q
  calls : s.calls = ∑ q, s.closes q + s.errors
  opens : ∀ q, s.opens q + ∑ c, (s.getsys c).count q ≤ m
  nodup : s.exit.left.Nodup
  fresh : ∀ q ∈ s.exit.fresh, s.closes q = 0
  left : ∀ q ∈ s.exit.left, 0 < s.refs q ∧ q ∉ s.skipped ∧ s.late q = 0
  done : ∀ q, q ∉ s.exit.left →
    s.refs q = if q ∈ s.skipped then 1 + s.opens q else s.late q

variable {c : Fin m} {rest : List QueueHnd}

/-- The opens to come after a consumer has gone on to `rest`. -/
theorem sum_getsys (hpc : s.getsys c = q :: rest) (rest' : List QueueHnd)
    (p : QueueHnd) :
    ∑ d, (Function.update s.getsys c rest' d).count p
        + (rest.count p + if q = p then 1 else 0)
      = ∑ d, (s.getsys d).count p + rest'.count p := by
  have hsum := sum_update (fun _ l => List.count p l) s.getsys c rest'
  rw [hpc, List.count_cons] at hsum
  simpa using hsum

theorem RefsInv.opened (hI : RefsInv s) (hpc : s.getsys c = q :: rest) :
    RefsInv (s.opened c q rest) where
  balance := by
    intro p
    have := hI.balance p
    simp only [Refs.opened, Function.update_apply]
    split_ifs with hp
    · subst hp
      omega
    · exact this
  calls := hI.calls
  opens := by
    intro p
    have hle := hI.opens p
    have hsum := sum_getsys hpc rest p
    by_cases hpq : p = q
    · subst hpq
      rw [if_pos rfl] at hsum
      simp only [Refs.opened, Function.update_self]
      omega
    · rw [if_neg (Ne.symm hpq)] at hsum
      simp only [Refs.opened, Function.update_of_ne hpq]
      omega
  nodup := hI.nodup
  fresh := hI.fresh
  left := by
    intro p hp
    obtain ⟨hpos, hskip, hlate⟩ := hI.left p hp
    refine ⟨?_, hskip, ?_⟩
    · simp only [Refs.opened, Function.update_apply]
      split_ifs
      · exact Nat.succ_pos _
      · exact hpos
    · simp only [Refs.opened]
      split_ifs with hq
      · exact hlate
      · rw [Function.update_of_ne, hlate]
        rintro rfl
        exact hq hp
  done := by
    intro p hp
    change p ∉ s.exit.left at hp
    have hdone := hI.done p hp
    by_cases hpq : p = q
    · subst hpq
      simp only [Refs.opened, Function.update_self, if_neg hp, hdone]
      split_ifs <;> rfl
    · simp only [Refs.opened, Function.update_of_ne hpq, hdone]
      split_ifs
      · rfl
      · rfl
      · rw [Function.update_of_ne hpq]

theorem RefsInv.openError (hI : RefsInv s) (hpc : s.getsys c = q :: rest) :
    RefsInv { s with getsys := Function.update s.getsys c [] } where
  balance := hI.balance
  calls := hI.calls
  opens := by
    intro p
    have hle := hI.opens p
    have hsum := sum_getsys hpc [] p
    rw [List.count_nil] at hsum
    show s.opens p + ∑ d, (Function.update s.getsys c [] d).count p ≤ m
    omega
  nodup := hI.nodup
  fresh := hI.fresh
  left := hI.left
  done := hI.done

/-- The first close of a queue has failed. -/
theorem RefsInv.skip (hI : RefsInv s) (hpc : s.exit = .first q rest) :
    RefsInv (s.fail (closeNext rest) (q :: s.skipped)) := by
  have hleft : s.exit.left = q :: rest := by
    rw [hpc]
    rfl
  have hfresh : s.exit.fresh = q :: rest := by
    rw [hpc]
    rfl
  have hnodup := hI.nodup
  rw [hleft, List.nodup_cons] at hnodup
  constructor
  case balance => exact hI.balance
  case calls =>
    show s.calls + 1 = ∑ p, s.closes p + (s.errors + 1)
    rw [hI.calls, Nat.add_assoc]
  case opens => exact hI.opens
  case nodup =>
    simp only [Refs.fail, closeNext_left]
    exact hnodup.2
  case fresh =>
    intro p hp
    simp only [Refs.fail, closeNext_fresh] at hp
    refine hI.fresh p ?_
    rw [hfresh]
    exact List.mem_cons_of_mem _ hp
  case left =>
    intro p hp
    simp only [Refs.fail, closeNext_left] at hp
    obtain ⟨hpos, hskip, hlate⟩ := hI.left p (by
      rw [hleft]
      exact List.mem_cons_of_mem _ hp)
    refine ⟨hpos, fun hmem => ?_, hlate⟩
    rcases List.mem_cons.mp hmem with rfl | hmem
    · exact hnodup.1 hp
    · exact hskip hmem
  case done =>
    intro p hp
    simp only [Refs.fail, closeNext_left] at hp
    show s.refs p = if p ∈ q :: s.skipped then 1 + s.opens p else s.late p
    by_cases hpq : p = q
    · -- none of its references has been given back
      subst hpq
      have hbal := hI.balance p
      have hzero := hI.fresh p (by
        rw [hfresh]
        exact List.mem_cons_self)
      rw [if_pos List.mem_cons_self]
      omega
    · rw [hI.done p (by
        rw [hleft]
        exact fun hmem => (List.mem_cons.mp hmem).elim hpq hp)]
      simp only [List.mem_cons, hpq, false_or]

/-- Another close of a queue has failed. -/
theorem RefsInv.retry (hI : RefsInv s) (hpc : s.exit = .again q rest) :
    RefsInv (s.fail (.again q rest) s.skipped) := by
  rw [← hpc]
  refine { hI with calls := ?_ }
  show s.calls + 1 = ∑ p, s.closes p + (s.errors + 1)
  rw [hI.calls, Nat.add_assoc]

/-- A close has succeeded. -/
theorem RefsInv.close (hI : RefsInv s)
    (hpc : s.exit = .first q rest ∨ s.exit = .again q rest) :
    RefsInv (s.close q
      (if s.refs q - 1 = 0 then closeNext rest else .again q rest)) := by
  have hleft : s.exit.left = q :: rest := by
    rcases hpc with hpc | hpc
    all_goals
      rw [hpc]
      rfl
  have hfresh : ∀ p ∈ rest, p ∈ s.exit.fresh := by
    intro p hp
    rcases hpc with hpc | hpc
    all_goals rw [hpc]
    · exact List.mem_cons_of_mem _ hp
    · exact hp
  have hnodup := hI.nodup
  rw [hleft, List.nodup_cons] at hnodup
  obtain ⟨hpos, hskip, hlate⟩ := hI.left q (by
    rw [hleft]
    exact List.mem_cons_self)
  constructor
  case balance =>
    intro p
    have := hI.balance p
    by_cases hpq : p = q
    · subst hpq
      simp only [Refs.close, Function.update_self]
      omega
    · simp only [Refs.close, Function.update_of_ne hpq]
      exact this
  case calls =>
    have hsum := sum_update (fun _ n => n) s.closes q (s.closes q + 1)
    have := hI.calls
    simp only [Refs.close]
    omega
  case opens => exact hI.opens
  case nodup =>
    simp only [Refs.close]
    split_ifs
    · rw [closeNext_left]
      exact hnodup.2
    · exact List.nodup_cons.mpr hnodup
  case fresh =>
    intro p hp
    have hmem : p ∈ rest := by
      simp only [Refs.close] at hp
      split_ifs at hp
      · rwa [closeNext_fresh] at hp
      · exact hp
    have hpq : p ≠ q := fun h => hnodup.1 (h ▸ hmem)
    simp only [Refs.close, Function.update_of_ne hpq]
    exact hI.fresh p (hfresh p hmem)
  case left =>
    intro p hp
    simp only [Refs.close] at hp ⊢
    by_cases hpq : p = q
    · subst hpq
      refine ⟨?_, hskip, hlate⟩
      rw [Function.update_self]
      split_ifs at hp with hzero
      · rw [closeNext_left] at hp
        exact absurd hp hnodup.1
      · omega
    · rw [Function.update_of_ne hpq]
      refine hI.left p ?_
      rw [hleft]
      split_ifs at hp
      · rw [closeNext_left] at hp
        exact List.mem_cons_of_mem _ hp
      · exact hp
  case done =>
    intro p hp
    simp only [Refs.close] at hp
    show Function.update s.refs q (s.refs q - 1) p
      = if p ∈ s.skipped then 1 + s.opens p else s.late p
    by_cases hpq : p = q
    · subst hpq
      rw [Function.update_self, if_neg hskip, hlate]
      split_ifs at hp with hzero
      · exact hzero
      · exact absurd List.mem_cons_self hp
    · rw [Function.update_of_ne hpq]
      refine hI.done p ?_
      rw [hleft]
      intro hmem
      have hrest := (List.mem_cons.mp hmem).resolve_left hpq
      split_ifs at hp
      · rw [closeNext_left] at hp
        exact hp hrest
      · exact hp hmem

theorem RefsInv.step (hI : RefsInv s) (h : RefStep s s') : RefsInv s' := by
  cases h with
  | opened hpc => exact hI.opened hpc
  | openError hpc => exact hI.openError hpc
  | skip hpc => exact hI.skip hpc
  | retry hpc => exact hI.retry hpc
  | close hpc => exact hI.close hpc

/-- No queue is opened more often than by every core. -/
theorem RefsInv.calls_le (hI : RefsInv s) :
    s.calls ≤ 6 * (m + 1) + s.errors := by
  have hle : ∑ q, s.closes q ≤ ∑ _q : QueueHnd, (m + 1) := by
    refine Finset.sum_le_sum fun q _ => ?_
    have hbal := hI.balance q
    have hopens := hI.opens q
    omega
  have hsix : ∑ _q : QueueHnd, (m + 1) = 6 * (m + 1) := by
    rw [Finset.sum_const]
    rfl
  have := hI.calls
  omega

/-- Core 0 only, and its calls succeed. -/
def Closing (_ : Refs m) (a : RefAction m) : Prop := a = .exit none

end DspCodes.Infra

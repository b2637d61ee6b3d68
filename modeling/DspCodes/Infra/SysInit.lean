/-
The start of the multi-core example: `sysInit` on core 0, the waiting
loop of `getsysHandles` on the consumer cores, and the flag
`isQMSSInitialized` in shared memory between them.

# What is modelled

`sysInit` is the list of its statements that bear on the flag: the two
stores to it, the twelve driver calls and the write-back. A failed call
ends `sysInit` where the source returns -1; after four of the calls the
source only prints. The results are one number for each call, and success
is the source's own test of it.

Core 0 has the flag in its L1D until it writes the line back or the line
is evicted, which may happen at any time. A consumer invalidates its copy
before every read, so it reads memory. The value the flag has in memory
when the cores start is a parameter: nothing initialises `.qmss`.

# Ghost

No transition reads `succeeded`, the calls that have succeeded.
-/
import Mathlib.Data.Fintype.Basic
import Mathlib.Logic.Function.Basic
import DspCodes.Lib.Lts

namespace DspCodes.Infra

open Lts

-- ============================================================== the code

/-- The driver calls of `sysInit`. -/
inductive InitCall
  | qmssInit | qmssStart | cppiInit | cppiOpen
  | insertMonolithic | insertSync  -- `Qmss_insertMemoryRegion`
  | initTxFree | initRxFree  -- `Cppi_initDescriptor`
  | initSyncFree  -- `Qmss_initDescriptor`
  | openTxCmpl | openSync | openSyncCfg  -- `Qmss_queueOpen`
  deriving DecidableEq, Repr

/-- The calls in the source's order. -/
def InitCall.all : List InitCall :=
  [.qmssInit, .qmssStart, .cppiInit, .cppiOpen, .insertMonolithic,
    .insertSync, .initTxFree, .initRxFree, .initSyncFree, .openTxCmpl,
    .openSync, .openSyncCfg]

/-- The source's test of a result: `QMSS_SOK` and `CPPI_SOK` are 0, a NULL
handle is 0, and a negative region or queue number is an error. -/
def InitCall.succeeds : InitCall → Int → Bool
  | .qmssInit, result | .qmssStart, result | .cppiInit, result => result == 0
  | .cppiOpen, result => result != 0
  | _, result => 0 ≤ result

/-- `sysInit` returns -1 when the call fails. -/
def InitCall.returns : InitCall → Bool
  | .qmssStart | .cppiInit | .insertMonolithic | .insertSync => false
  | _ => true

/-- The statements of `sysInit`. -/
inductive InitStmt
  | store (value : BitVec 32)  -- `isQMSSInitialized = value`
  | call (c : InitCall)
  | writeBack  -- `CACHE_wbL1d (&isQMSSInitialized)`
  deriving DecidableEq, Repr

/-- `sysInit`. -/
def sysInit : List InitStmt :=
  .store 0 :: (InitCall.all.map .call ++ [.store 1, .writeBack])

/-- Where a consumer stands in `getsysHandles`. -/
inductive WaitPc
  | invalidate  -- `CACHE_invL1d (&isQMSSInitialized)`
  | test  -- `while (isQMSSInitialized == 0)`
  | past
  deriving DecidableEq, Repr

-- =============================================================== the runs

/-- Core 0, the flag, and `m` consumers. -/
structure InitState (m : Nat) where
  todo : List InitStmt
  l1d : Option (BitVec 32)  -- the flag as core 0 has it
  isQMSSInitialized : BitVec 32
  consumer : Fin m → WaitPc
  succeeded : List InitCall

/-- Whose turn it is. -/
inductive InitAction (m : Nat)
  | sysInit
  | evict
  | consumer (i : Fin m)

variable {m : Nat}

/-- The cores start, with `flag` in memory. -/
def startInit (m : Nat) (flag : BitVec 32) : InitState m where
  todo := sysInit
  l1d := none
  isQMSSInitialized := flag
  consumer := fun _ => .invalidate
  succeeded := []

/-- Core 0's line goes to memory. -/
def InitState.flush (s : InitState m) : BitVec 32 :=
  s.l1d.getD s.isQMSSInitialized

/-- One statement of `sysInit`. -/
def runSysInit (result : InitCall → Int) (s : InitState m) :
    Option (InitState m) :=
  match s.todo with
  | [] => none
  | .store value :: rest => some { s with todo := rest, l1d := some value }
  | .call c :: rest =>
      if c.succeeds (result c) then
        some { s with todo := rest, succeeded := c :: s.succeeded }
      else some { s with todo := if c.returns then [] else rest }
  | .writeBack :: rest =>
      some { s with todo := rest, isQMSSInitialized := s.flush }

/-- One step of the waiting loop of consumer `i`. -/
def runConsumer (i : Fin m) (s : InitState m) : Option (InitState m) :=
  let put (pc : WaitPc) := { s with consumer := Function.update s.consumer i pc }
  match s.consumer i with
  | .invalidate => some (put .test)
  | .test => some (put (if s.isQMSSInitialized = 0 then .invalidate else .past))
  | .past => none

/-- The transition function; `result` is what the driver calls return. -/
def initStep (result : InitCall → Int) (a : InitAction m)
    (s : InitState m) : Option (InitState m) :=
  match a with
  | .sysInit => runSysInit result s
  | .evict => some { s with l1d := none, isQMSSInitialized := s.flush }
  | .consumer i => runConsumer i s

/-- A consumer past its waiting loop finds every call of `sysInit`
successful. -/
def FlagOk (s : InitState m) : Prop :=
  ∀ i, s.consumer i = .past → ∀ c, c ∈ s.succeeded

-- ==================================================== what a step can do

variable {result : InitCall → Int} {s s' : InitState m} {a : InitAction m}
  {flag : BitVec 32}

/-- The outcomes of one step. -/
inductive InitStep (result : InitCall → Int) (s : InitState m) :
    InitAction m → InitState m → Prop
  | store {value : BitVec 32} {rest : List InitStmt}
      (htodo : s.todo = .store value :: rest) :
      InitStep result s .sysInit
        { s with todo := rest, l1d := some value }
  | succeed {c : InitCall} {rest : List InitStmt}
      (htodo : s.todo = .call c :: rest) (hok : c.succeeds (result c) = true) :
      InitStep result s .sysInit
        { s with todo := rest, succeeded := c :: s.succeeded }
  | giveUp {c : InitCall} {rest : List InitStmt}
      (htodo : s.todo = .call c :: rest) :
      InitStep result s .sysInit { s with todo := [] }
  | goOn {c : InitCall} {rest : List InitStmt}
      (htodo : s.todo = .call c :: rest)
      (hfail : c.succeeds (result c) = false) (hret : c.returns = false) :
      InitStep result s .sysInit { s with todo := rest }
  | writeBack {rest : List InitStmt} (htodo : s.todo = .writeBack :: rest) :
      InitStep result s .sysInit
        { s with todo := rest, isQMSSInitialized := s.flush }
  | evict : InitStep result s .evict
        { s with l1d := none, isQMSSInitialized := s.flush }
  | consumer {i : Fin m} {pc : WaitPc}
      (hpc : pc = .past → s.isQMSSInitialized ≠ 0) :
      InitStep result s (.consumer i)
        { s with consumer := Function.update s.consumer i pc }

/-- `initStep` has no other outcome. -/
theorem initStep_cases (h : initStep result a s = some s') :
    InitStep result s a s' := by
  cases a with
  | sysInit =>
      simp only [initStep, runSysInit] at h
      split at h
      next => cases h
      next htodo => cases h; exact .store htodo
      next c rest htodo =>
        split at h
        next hok => cases h; exact .succeed htodo hok
        next hfail =>
          cases h
          cases hret : c.returns with
          | true => exact .giveUp htodo
          | false => exact .goOn htodo (Bool.eq_false_iff.mpr hfail) hret
      next htodo => cases h; exact .writeBack htodo
  | evict =>
      cases h
      exact .evict
  | consumer i =>
      simp only [initStep, runConsumer] at h
      split at h
      next =>
        cases h
        exact .consumer (fun hpast => by cases hpast)
      next =>
        cases h
        refine .consumer fun hpast => ?_
        split at hpast
        · cases hpast
        · assumption
      next => cases h

-- =========================================================== the invariant

/-- A call is dealt with once it has succeeded, or has failed without
`sysInit` noticing. -/
def Settled (result : InitCall → Int) (s : InitState m) (c : InitCall) :
    Prop :=
  c ∈ s.succeeded ∨ c.succeeds (result c) = false ∧ c.returns = false

/-- The flag is non-zero in memory or on its way there. -/
def Raised (s : InitState m) : Prop :=
  s.isQMSSInitialized ≠ 0 ∨ ∃ value ∈ s.l1d, value ≠ 0

/-- With the flag zero at the start, it is raised only when every call is
dealt with. -/
structure FlagInv (result : InitCall → Int) (s : InitState m) : Prop where
  suffix : s.todo <:+ sysInit
  ahead : s.todo ≠ [] → ∀ c, .call c ∈ s.todo ∨ Settled result s c
  raised : Raised s → ∀ c, Settled result s c
  sound : ∀ c ∈ s.succeeded, c.succeeds (result c) = true
  past : ∀ i, s.consumer i = .past → ∀ c, Settled result s c

/-- Every call stands in `sysInit`. -/
theorem call_mem_sysInit (c : InitCall) : .call c ∈ sysInit := by
  cases c <;> decide

/-- The flag is set after all calls. -/
theorem no_call_after_set : ∀ t ∈ sysInit.tails,
    t.head? = some (.store 1) → ∀ st ∈ t, ∀ c, st ≠ .call c := by
  intro t ht hhead st hst c
  have hlast : ∀ t ∈ sysInit.tails, t.head? = some (.store 1) →
      t = [.store 1, .writeBack] := by decide
  rw [hlast t ht hhead] at hst
  rintro rfl
  simp at hst

/-- The stores of `sysInit` are of 0 and of 1. -/
theorem store_value {value : BitVec 32} (h : .store value ∈ sysInit) :
    value = 0 ∨ value = 1 := by
  simpa [sysInit, InitCall.all] using h

theorem flagInv_start : FlagInv result (startInit m 0) where
  suffix := List.suffix_rfl
  ahead := fun _ c => .inl (call_mem_sysInit c)
  raised := by
    rintro (h | ⟨value, hvalue, -⟩)
    · exact absurd rfl h
    · cases hvalue
  sound := by
    intro c hc
    cases hc
  past := by
    intro i hi
    cases hi

/-- What is flushed was raised before. -/
theorem raised_of_flush (h : s.flush ≠ 0) : Raised s := by
  unfold InitState.flush at h
  cases hline : s.l1d with
  | none =>
      rw [hline] at h
      exact .inl h
  | some value =>
      rw [hline] at h
      exact .inr ⟨value, hline, h⟩

/-- The statements behind the next one. -/
theorem FlagInv.next (hs : FlagInv result s) {st : InitStmt}
    {rest : List InitStmt} (htodo : s.todo = st :: rest) :
    rest <:+ sysInit ∧ ∀ c, st ≠ .call c →
      .call c ∈ rest ∨ Settled result s c := by
  refine ⟨(List.suffix_cons _ _).trans (htodo ▸ hs.suffix), fun c hc => ?_⟩
  have hne : s.todo ≠ [] := by
    rw [htodo]
    exact List.cons_ne_nil _ _
  rcases hs.ahead hne c with hmem | hset
  · rw [htodo] at hmem
    exact .inl (List.mem_of_ne_of_mem (Ne.symm hc) hmem)
  · exact .inr hset

/-- A store: of 0, or of 1 with all calls behind it. -/
theorem FlagInv.store (hs : FlagInv result s) {value : BitVec 32}
    {rest : List InitStmt} (htodo : s.todo = .store value :: rest) :
    FlagInv result { s with todo := rest, l1d := some value } := by
  obtain ⟨hsuffix, hnext⟩ := hs.next htodo
  have hahead : ∀ c, .call c ∈ rest ∨ Settled result s c :=
    fun c => hnext c (by simp)
  refine ⟨hsuffix, fun _ => hahead, ?_, hs.sound, hs.past⟩
  rintro (hflag | ⟨v, hv, hne⟩)
  · exact hs.raised (.inl hflag)
  · -- the store of 1 has no call behind it
    cases hv
    intro c
    have hall : .store value :: rest <:+ sysInit := htodo ▸ hs.suffix
    rcases store_value (hall.subset List.mem_cons_self) with rfl | rfl
    · exact absurd rfl hne
    · rcases hahead c with hc | hc
      · exact absurd rfl (no_call_after_set _
          ((List.mem_tails _ _).mpr hall) rfl _
          (List.mem_cons_of_mem _ hc) c)
      · exact hc

/-- A successful call. -/
theorem FlagInv.succeed (hs : FlagInv result s) {c : InitCall}
    {rest : List InitStmt} (htodo : s.todo = .call c :: rest)
    (hok : c.succeeds (result c) = true) :
    FlagInv result { s with todo := rest, succeeded := c :: s.succeeded } := by
  obtain ⟨hsuffix, hnext⟩ := hs.next htodo
  have hmono : ∀ d, Settled result s d → Settled result
      { s with todo := rest, succeeded := c :: s.succeeded } d :=
    fun d hd => hd.imp_left (List.mem_cons_of_mem _)
  refine ⟨hsuffix, fun _ d => ?_, fun hr d => hmono d (hs.raised hr d),
    fun d hd => ?_, fun i hi d => hmono d (hs.past i hi d)⟩
  · by_cases hdc : d = c
    · subst hdc
      exact .inr (.inl List.mem_cons_self)
    · exact (hnext d (by simpa using Ne.symm hdc)).imp_right (hmono d)
  · rcases List.mem_cons.mp hd with rfl | hd
    · exact hok
    · exact hs.sound d hd

/-- A failed call that `sysInit` only prints. -/
theorem FlagInv.goOn (hs : FlagInv result s) {c : InitCall}
    {rest : List InitStmt} (htodo : s.todo = .call c :: rest)
    (hfail : c.succeeds (result c) = false) (hret : c.returns = false) :
    FlagInv result { s with todo := rest } := by
  obtain ⟨hsuffix, hnext⟩ := hs.next htodo
  refine ⟨hsuffix, fun _ d => ?_, hs.raised, hs.sound, hs.past⟩
  by_cases hdc : d = c
  · subst hdc
    exact .inr (.inr ⟨hfail, hret⟩)
  · exact hnext d (by simpa using Ne.symm hdc)

/-- A consumer gets past its test only when the flag is raised. -/
theorem FlagInv.consumer (hs : FlagInv result s) {i : Fin m} {pc : WaitPc}
    (hpc : pc = .past → s.isQMSSInitialized ≠ 0) :
    FlagInv result
      { s with consumer := Function.update s.consumer i pc } := by
  refine ⟨hs.suffix, hs.ahead, hs.raised, hs.sound, fun j hj => ?_⟩
  by_cases hji : j = i
  · subst hji
    change Function.update s.consumer j pc j = _ at hj
    rw [Function.update_self] at hj
    exact hs.raised (.inl (hpc hj))
  · change Function.update s.consumer i pc j = _ at hj
    rw [Function.update_of_ne hji] at hj
    exact hs.past j hj

theorem flagInv_step (hs : FlagInv result s)
    (h : initStep result a s = some s') : FlagInv result s' := by
  cases initStep_cases h with
  | store htodo => exact hs.store htodo
  | succeed htodo hok => exact hs.succeed htodo hok
  | goOn htodo hfail hret => exact hs.goOn htodo hfail hret
  | consumer hpc => exact hs.consumer hpc
  | giveUp =>
      exact ⟨List.nil_suffix, fun hne => absurd rfl hne, hs.raised, hs.sound,
        hs.past⟩
  | writeBack htodo =>
      obtain ⟨hsuffix, hnext⟩ := hs.next htodo
      refine ⟨hsuffix, fun _ d => hnext d (by simp), ?_, hs.sound, hs.past⟩
      rintro (hflag | hline)
      · exact hs.raised (raised_of_flush hflag)
      · exact hs.raised (.inr hline)
  | evict =>
      refine ⟨hs.suffix, hs.ahead, ?_, hs.sound, hs.past⟩
      rintro (hflag | ⟨value, hvalue, -⟩)
      · exact hs.raised (raised_of_flush hflag)
      · cases hvalue

theorem flagInv_reachable
    (h : Reach (initStep result) anyStep (startInit m 0) s) :
    FlagInv result s :=
  h.invariant flagInv_start fun _ _ _ hs _ happ => flagInv_step hs happ

-- =========================================================== what goes wrong

/-- `sysInit` gets through a list of calls when those it tests succeed. -/
theorem runs_calls {rest : List InitStmt} : ∀ (calls : List InitCall)
    {s : InitState m}, s.todo = calls.map .call ++ rest →
    (∀ c ∈ calls, c.returns = true → c.succeeds (result c) = true) →
    ∃ made, Reach (initStep result) anyStep s
      { s with todo := rest, succeeded := made } := by
  intro calls
  induction calls with
  | nil =>
      intro s htodo _
      refine ⟨s.succeeded, ?_⟩
      rw [List.map_nil, List.nil_append] at htodo
      rw [← htodo]
      exact .init
  | cons c calls ih =>
      intro s htodo hret
      have hrest := fun d hd => hret d (List.mem_cons_of_mem c hd)
      rw [List.map_cons, List.cons_append] at htodo
      cases hok : c.succeeds (result c) with
      | true =>
          have hstep : initStep result .sysInit s = some { s with
              todo := calls.map .call ++ rest
              succeeded := c :: s.succeeded } := by
            simp only [initStep, runSysInit, htodo, hok, if_true]
          obtain ⟨made, hmade⟩ := ih (s := { s with
            todo := calls.map .call ++ rest
            succeeded := c :: s.succeeded }) rfl hrest
          exact ⟨made, (Reach.step _ .init trivial hstep).trans hmade⟩
      | false =>
          have hgo : c.returns = false := by
            cases hc : c.returns with
            | false => rfl
            | true =>
                have htrue := hret c List.mem_cons_self hc
                rw [hok] at htrue
                cases htrue
          have hstep : initStep result .sysInit s = some { s with
              todo := calls.map .call ++ rest } := by
            simp only [initStep, runSysInit, htodo, hok, hgo,
              Bool.false_eq_true, if_false]
          obtain ⟨made, hmade⟩ := ih (s := { s with
            todo := calls.map .call ++ rest }) rfl hrest
          exact ⟨made, (Reach.step _ .init trivial hstep).trans hmade⟩

/-- A consumer passes a flag that is not zero. -/
theorem passes_flag (result : InitCall → Int) {i : Fin m} (hwait : s.consumer i = .invalidate)
    (hflag : s.isQMSSInitialized ≠ 0) :
    ∃ s', Reach (initStep result) anyStep s s' ∧ s'.consumer i = .past
      ∧ s'.succeeded = s.succeeded := by
  have hread : initStep result (.consumer i) s = some { s with
      consumer := Function.update s.consumer i .test } := by
    simp only [initStep, runConsumer, hwait]
  have htest : initStep result (.consumer i) { s with
      consumer := Function.update s.consumer i .test } = some { s with
      consumer := Function.update s.consumer i .past } := by
    simp only [initStep, runConsumer, Function.update_self, if_neg hflag,
      Function.update_idem]
  refine ⟨_, .step _ (.step _ .init trivial hread) trivial htest, ?_, rfl⟩
  exact Function.update_self ..

/-- When the calls that `sysInit` tests succeed, the flag is set. -/
theorem sets_flag (m : Nat) (flag : BitVec 32)
    (hret : ∀ c : InitCall, c.returns = true → c.succeeds (result c) = true) :
    ∃ s, Reach (initStep result) anyStep (startInit m flag) s
      ∧ s.isQMSSInitialized ≠ 0 ∧ s.consumer = fun _ => .invalidate := by
  obtain ⟨made, hmade⟩ := runs_calls InitCall.all
    (s := { startInit m flag with
      todo := InitCall.all.map .call ++ [.store 1, .writeBack]
      l1d := some 0 }) rfl (fun c _ => hret c)
  have hreset : Reach (initStep result) anyStep (startInit m flag) _ :=
    .step .sysInit .init trivial rfl
  refine ⟨_, .step .sysInit (.step .sysInit (hreset.trans hmade) trivial rfl)
    trivial rfl, ?_, rfl⟩
  simp [InitState.flush]

-- =============================================================== the law

/-- The flag means what it says exactly when it is zero at the start and
`sysInit` either succeeds in full or fails in a call that makes it
return. -/
theorem flag_means_initialized_iff (m : Nat) (flag : BitVec 32)
    (result : InitCall → Int) :
    (∀ s, Reach (initStep result) anyStep (startInit m flag) s → FlagOk s)
      ↔ m = 0 ∨ flag = 0 ∧
        ((∀ c : InitCall, c.succeeds (result c) = true)
          ∨ ∃ c : InitCall, c.returns = true ∧ c.succeeds (result c) = false) := by
  constructor
  · intro hall
    by_contra hnot
    obtain ⟨hm, hnot⟩ := not_or.mp hnot
    have i : Fin m := ⟨0, Nat.pos_of_ne_zero hm⟩
    by_cases hflag : flag = 0
    · subst hflag
      obtain ⟨hsome, hret⟩ := not_or.mp fun h => hnot ⟨rfl, h⟩
      obtain ⟨c, hc⟩ := not_forall.mp hsome
      obtain ⟨s, hs, hset, hwait⟩ := sets_flag m 0 fun d hd => by
        by_contra hfail
        exact hret ⟨d, hd, Bool.eq_false_iff.mpr hfail⟩
      obtain ⟨s', hs', hpast, -⟩ := passes_flag result (i := i)
        (by rw [hwait]) hset
      have hr := hs.trans hs'
      exact hc ((flagInv_reachable hr).sound c (hall s' hr i hpast c))
    · obtain ⟨s, hs, hpast, hnone⟩ := passes_flag result (i := i)
        (s := startInit m flag) rfl hflag
      have hin := hall s hs i hpast .qmssInit
      rw [hnone] at hin
      cases hin
  · rintro (rfl | ⟨rfl, hres⟩) s hs i hpast
    · exact i.elim0
    · have hI := flagInv_reachable hs
      intro c
      rcases hres with hsucc | ⟨d, hd, hfail⟩
      · rcases hI.past i hpast c with hc | ⟨hc, -⟩
        · exact hc
        · rw [hsucc c] at hc
          cases hc
      · -- the failed call would have ended `sysInit`
        rcases hI.past i hpast d with hc | ⟨-, hc⟩
        · rw [hI.sound d hc] at hfail
          cases hfail
        · rw [hd] at hc
          cases hc

/-- Results with which every call succeeds. -/
def allGood : InitCall → Int
  | .cppiOpen => 1
  | _ => 0

/-- With the flag of an earlier run still set, a consumer passes before
core 0 has run a statement, though every call would succeed. -/
theorem flag_stale :
    (∀ c : InitCall, c.succeeds (allGood c) = true) ∧
      ¬ ∀ s : InitState 1,
        Reach (initStep allGood) anyStep (startInit 1 1) s → FlagOk s := by
  refine ⟨fun c => by cases c <;> rfl, fun hall => ?_⟩
  obtain ⟨s, hs, hpast, hnone⟩ := passes_flag allGood (i := 0)
    (s := startInit 1 1) rfl (by decide)
  have hin := hall s hs 0 hpast .qmssInit
  rw [hnone] at hin
  cases hin

end DspCodes.Infra

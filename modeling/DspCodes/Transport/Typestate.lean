/-
What `master_task` passes on: each handle, memory-region id and
descriptor pointer that goes into a driver call, a configuration or a
task was made by a successful call of the right kind on the same core,
`cppiHnd` by core 0.

# Where it fails

Several results are never tested (`Qmss_insertMemoryRegion`,
`Cppi_initDescriptor`, `Qmss_queueOpen`, `Qmss_queuePop`, the channel
opens), and the cores other than 0 read the numbers of `q_rx_op` and
`q_rx_free`, which only core 0 assigns.

# When it holds

The code is straight-line, so a variable matters from its assignment to
its last use: `usedLater` says whether what comes next still reads it.
The invariant is that every variable that is read again holds the real
thing; a statement reads such variables only, and what it assigns is the
real thing if the call succeeded. `Trusted` asks for no more than that of
the results nothing tests.
-/
import Mathlib.Data.List.TakeWhile
import DspCodes.Transport.StartUp

namespace DspCodes.Transport

open Lts

-- ================================================================== the law

/-- The calls that make what a variable is for. -/
def Var.makers : Var → List Op
  | .ret => [.qmssInsertMemoryRegion]
  | .memRegion => [.qmssInsertMemoryRegion]
  | .qTxOp => [.qmssQueueOpen, .cppiInitDescriptor]
  | .qRxOp => [.qmssQueueOpen, .cppiInitDescriptor]
  | .qTxFree => [.qmssQueueOpen, .cppiInitDescriptor]
  | .qRxFree => [.qmssQueueOpen, .cppiInitDescriptor]
  | .hnd => [.cppiOpen]
  | .cppiHnd => [.cppiOpen]
  | .c => [.qmssQueuePop]
  | .txChHnd => [.cppiTxChannelOpen]
  | .rxChHnd => [.cppiRxChannelOpen]
  | .queInfo => [.qmssQueueOpen, .cppiInitDescriptor]
  | .rxDestQnum => [.qmssQueueOpen, .cppiInitDescriptor]
  | .rxFdq0Qnum => [.qmssQueueOpen, .cppiInitDescriptor]
  | .rxFlowHnd => [.cppiConfigureRxFlow]

/-- The core that makes it for core `c`. -/
def Var.owner (c : Nat) : Var → Nat
  | .cppiHnd => 0
  | _ => c

/-- The value was made by an earlier successful call of the right kind on
the right core. -/
def Genuine (log : List Entry) (c : Nat) (x : Var) (v : Val) : Prop :=
  ∃ op ∈ x.makers, v = .made op (x.owner c) ∧ Succeeded log (x.owner c) op

/-- Every use is of genuine values; the log is newest first. -/
def TypestateOk : List Entry → Prop
  | [] => True
  | e :: older =>
      (∀ a ∈ e.args, Genuine older e.core a.1 a.2) ∧ TypestateOk older

-- ================================================================= liveness

/-- The variables a statement reads. -/
def Stmt.uses : Stmt → List Var
  | .call _ args _ _ => args
  | .getQueueNumber q => [q]
  | .store _ x => [x]
  | .setHnd => [.hnd]
  | .writeBack => []
  | .awaitHnd => []

/-- The variable a statement assigns. -/
def Stmt.defs : Stmt → Option Var
  | .call _ _ dst _ => dst
  | .getQueueNumber _ => some .queInfo
  | .store field _ => some field
  | .setHnd => some .cppiHnd
  | .writeBack => none
  | .awaitHnd => none

/-- The variable is read before it is assigned again. -/
def usedLater (x : Var) : List Stmt → Prop
  | [] => False
  | st :: rest => x ∈ st.uses ∨ st.defs ≠ some x ∧ usedLater x rest

instance (x : Var) : (l : List Stmt) → Decidable (usedLater x l)
  | [] => isFalse id
  | _ :: rest =>
      have := instDecidableUsedLater x rest
      inferInstanceAs (Decidable (_ ∨ _))

/-- The variable that gets the result of a call nothing tests. -/
def Stmt.untested : Stmt → Option Var
  | .call _ _ dst .goOn => dst
  | _ => none

def Stmt.isQueueNumber : Stmt → Bool
  | .getQueueNumber _ => true
  | _ => false

/-- The code up to the first queue number. -/
def beforeQueueNumber (l : List Stmt) : List Stmt :=
  l.takeWhile fun st => !st.isQueueNumber

/-- No untested result that core 0 still uses is a failure; no other core
reads a queue number, or passes on `cppiHnd` while it reads NULL. -/
structure Trusted (s : Boot) (a : BootAction) : Prop where
  results : ∀ ok st rest x, a = .run 0 ok → (s.cores 0).todo = st :: rest →
    st.untested = some x → usedLater x rest → ok = true
  queues : ∀ c ok q rest, a = .run c ok →
    (s.cores c).todo ≠ .getQueueNumber q :: rest
  published : ∀ c ok st rest, a = .run c ok → c ≠ 0 →
    (s.cores c).todo = st :: rest → .cppiHnd ∈ st.uses →
    s.value c .cppiHnd ≠ .bad

variable {p : Source} {s s' : Boot} {c : Nat} {ok : Bool} {st : Stmt}
  {rest : List Stmt} {k : BootCore} {v : Val} {log log' : List Entry}
  {x : Var}

theorem Genuine.mono (h : Genuine log c x v) (hsub : log <:+ log') :
    Genuine log' c x v := by
  obtain ⟨op, hop, hv, hs⟩ := h
  exact ⟨op, hop, hv, hs.mono hsub⟩

theorem not_genuine_bad : ¬ Genuine log c x .bad := by
  rintro ⟨op, -, hv, -⟩
  cases hv

theorem not_genuine_uninit : ¬ Genuine log c x .uninit := by
  rintro ⟨op, -, hv, -⟩
  cases hv

-- ======================================================= reading the code

/-- Core 0 reads no queue number and waits for nothing. -/
theorem core0_code (p : Source) :
    ∀ st ∈ masterTask0 p, st.isQueueNumber = false ∧ st ≠ .awaitHnd := by
  cases p <;> decide

theorem beforeQueueNumber_core0 (p : Source) {l : List Stmt}
    (h : l <:+ masterTask0 p) : beforeQueueNumber l = l := by
  refine List.takeWhile_eq_self_iff.mpr fun st hst => ?_
  rw [(core0_code p st (h.subset hst)).1]
  rfl

theorem beforeQueueNumber_cons {st : Stmt} (h : st.isQueueNumber = false)
    (rest : List Stmt) :
    beforeQueueNumber (st :: rest) = st :: beforeQueueNumber rest :=
  List.takeWhile_cons_of_pos (by rw [h]; rfl)

/-- Nothing is used on entry but what the cores other than 0 leave
unassigned, and `cppiHnd`. -/
theorem used_on_entry0 (p : Source) : ∀ x, ¬ usedLater x (masterTask0 p) := by
  intro x
  cases p <;> cases x <;> decide

theorem used_on_entry_other (p : Source) :
    ∀ x, usedLater x (beforeQueueNumber (masterTaskOther p)) →
      x = .cppiHnd := by
  intro x
  cases p <;> cases x <;> decide

/-- Each statement assigns what its variable is for. -/
def Stmt.fits : Stmt → Prop
  | .call op _ (some x) _ => op ∈ x.makers ∧ x ≠ .cppiHnd
  | .store field x =>
      field.makers = x.makers ∧ field ≠ .cppiHnd ∧ x ≠ .cppiHnd
  | _ => True

instance : (st : Stmt) → Decidable st.fits
  | .call _ _ (some _) _ => inferInstanceAs (Decidable (_ ∧ _))
  | .call _ _ none _ => isTrue trivial
  | .getQueueNumber _ => isTrue trivial
  | .store _ _ => inferInstanceAs (Decidable (_ ∧ _ ∧ _))
  | .setHnd => isTrue trivial
  | .writeBack => isTrue trivial
  | .awaitHnd => isTrue trivial

theorem code_fits (p : Source) (c : Nat) :
    ∀ st ∈ masterTask p c, st.fits := by
  unfold masterTask
  split
  · cases p <;> decide
  · cases p <;> decide

/-- On the other cores no untested result is used before the first queue
number, and `cppiHnd` is not written. -/
theorem other_code (p : Source) :
    ∀ t ∈ (masterTaskOther p).tails, ∀ st ∈ t.head?,
      st ≠ .writeBack ∧ ∀ x ∈ st.untested,
        ¬ usedLater x (beforeQueueNumber t.tail) := by
  cases p <;> decide

-- ======================================================= what a step does

theorem read_of_ne (hx : x ≠ .cppiHnd) (m : Val) : k.read m x = k.vars x := by
  cases x <;> first
    | rfl
    | exact absurd rfl hx

theorem assign_of_ne {vars : Var → Val} {dst : Option Var} {w : Val}
    (hdst : dst ≠ some x) : assign vars dst w x = vars x := by
  cases dst with
  | none => rfl
  | some y =>
      have hne : x ≠ y := fun h => hdst (congrArg some h.symm)
      exact Function.update_of_ne hne w vars

/-- A statement that does not assign a variable leaves what the core reads
in it. -/
theorem CoreStep.read_eq (h : CoreStep s c ok st rest k v log)
    (hdef : st.defs ≠ some x) (hwait : x = .cppiHnd → st ≠ .awaitHnd) :
    k.read v x = s.value c x := by
  by_cases hx : x = .cppiHnd
  · subst hx
    cases h with
    | call =>
        show Option.getD (if _ then _ else _) _ = _
        split <;> rfl
    | getQueueNumber => rfl
    | store => rfl
    | setHnd => exact absurd rfl hdef
    | writeBack =>
        show Option.getD _ (Option.getD _ _) = Option.getD _ _
        cases (s.cores c).l1d <;> rfl
    | wait => exact absurd rfl (hwait rfl)
    | leave => exact absurd rfl (hwait rfl)
  · rw [Boot.value, read_of_ne hx, read_of_ne hx]
    cases h with
    | call => exact assign_of_ne hdef
    | getQueueNumber =>
        have hne : x ≠ .queInfo := fun h => hdef (congrArg some h.symm)
        exact Function.update_of_ne hne _ _
    | store =>
        exact Function.update_of_ne (fun h => hdef (congrArg some h.symm)) _ _
    | setHnd => rfl
    | writeBack => rfl
    | wait => rfl
    | leave => rfl

/-- What a core reads in `cppiHnd` is in memory or in its L1D. -/
theorem value_cases (s : Boot) (c : Nat) :
    s.value c .cppiHnd = s.cppiHnd ∨
      (s.cores c).l1d = some (s.value c .cppiHnd) := by
  show Option.getD _ _ = _ ∨ _ = some (Option.getD _ _)
  cases (s.cores c).l1d with
  | none => exact Or.inl rfl
  | some w => exact Or.inr rfl

-- ============================================================ the invariant

/-- Every variable that a core still reads before its first queue number
holds the real thing; of the shared `cppiHnd` the cores other than 0 know
only that it does once it is set. -/
structure TypeInv (s : Boot) : Prop where
  live : ∀ c x, (c ≠ 0 → x ≠ .cppiHnd) →
    usedLater x (beforeQueueNumber (s.cores c).todo) →
    Genuine s.log c x (s.value c x)
  memory : s.cppiHnd ≠ .bad → Genuine s.log 0 .cppiHnd s.cppiHnd
  cached : ∀ c w, (s.cores c).l1d = some w → w ≠ .bad →
    Genuine s.log 0 .cppiHnd w

theorem typeInv_boot : TypeInv (boot p) where
  live := by
    intro c x hx hused
    change usedLater x (beforeQueueNumber (masterTask p c)) at hused
    unfold masterTask at hused
    split at hused
    next hc =>
      rw [beforeQueueNumber_core0 p List.suffix_rfl] at hused
      exact absurd hused (used_on_entry0 p x)
    next hc => exact absurd (used_on_entry_other p x hused) (hx hc)
  memory := fun h => absurd rfl h
  cached := by
    intro c w hw
    cases hw

/-- What a core reads in `cppiHnd` is the handle of core 0, once it is
set. -/
theorem TypeInv.read (hI : TypeInv s) (h : s.value c .cppiHnd ≠ .bad) :
    Genuine s.log 0 .cppiHnd (s.value c .cppiHnd) := by
  rcases value_cases s c with heq | heq
  · rw [heq] at h ⊢
    exact hI.memory h
  · exact hI.cached c _ heq h

theorem owner_of_ne (hx : x ≠ .cppiHnd) (c : Nat) : x.owner c = c := by
  cases x <;> first
    | rfl
    | exact absurd rfl hx

/-- Variables for the same thing. -/
theorem Genuine.of_makers {y : Var} (h : Genuine log c x v)
    (hm : y.makers = x.makers) (ho : y.owner c = x.owner c) :
    Genuine log c y v := by
  obtain ⟨op, hop, hv, hs⟩ := h
  exact ⟨op, hm ▸ hop, ho ▸ hv, ho ▸ hs⟩

/-- What the next statement reads is the real thing. -/
theorem TypeInv.uses (hI : TypeInv s)
    (htodo : (s.cores c).todo = st :: rest) (hq : st.isQueueNumber = false)
    (hx : c ≠ 0 → x ≠ .cppiHnd) (huse : x ∈ st.uses) :
    Genuine s.log c x (s.value c x) := by
  refine hI.live c x hx ?_
  rw [htodo, beforeQueueNumber_cons hq]
  exact Or.inl huse

/-- A trusted core does not read a queue number. -/
theorem Trusted.not_queueNumber (h : Trusted s (.run c ok))
    (htodo : (s.cores c).todo = st :: rest) : st.isQueueNumber = false := by
  cases st with
  | getQueueNumber q => exact absurd htodo (h.queues c ok q rest rfl)
  | _ => rfl

/-- A call that assigns a variable still to be read succeeds: if it fails
it is tested, and ends the core, or trusted. -/
theorem call_succeeds (hcode : StartInv p s)
    (htrust : Trusted s (.run c ok)) {op : Op} {args : List Var}
    {onFail : OnFail}
    (htodo : (s.cores c).todo = .call op args (some x) onFail :: rest)
    (hgo : (ok || onFail == .goOn) = true)
    (hused : usedLater x (beforeQueueNumber rest)) : ok = true := by
  cases onFail with
  | stop => simpa using hgo
  | goOn =>
      by_cases hc : c = 0
      · subst hc
        have hsuf : rest <:+ masterTask0 p :=
          (List.suffix_cons _ rest).trans (htodo ▸ hcode.code 0)
        rw [beforeQueueNumber_core0 p hsuf] at hused
        exact htrust.results ok _ rest x rfl htodo rfl hused
      · have hsuf := hcode.code c
        rw [htodo, masterTask, if_neg hc] at hsuf
        exact absurd hused ((other_code p _ ((List.mem_tails _ _).mpr hsuf) _
          rfl).2 x rfl)

/-- A variable that the next statement assigns holds the real thing
afterwards, if it is still read. -/
theorem TypeInv.defined (hI : TypeInv s) (hcode : StartInv p s)
    (htodo : (s.cores c).todo = st :: rest)
    (htrust : Trusted s (.run c ok)) (h : CoreStep s c ok st rest k v log)
    (hdef : st.defs = some x) (hx : c ≠ 0 → x ≠ .cppiHnd)
    (hused : usedLater x (beforeQueueNumber k.todo)) :
    Genuine log c x (k.read v x) := by
  have hfit := code_fits p c st (hcode.next htodo)
  have hq := htrust.not_queueNumber htodo
  cases h with
  | call op args dst onFail =>
      obtain rfl : dst = some x := hdef
      obtain ⟨hop, hne⟩ := hfit
      change usedLater x (beforeQueueNumber (if _ then _ else _)) at hused
      split at hused
      next hgo =>
        obtain rfl := call_succeeds hcode htrust htodo hgo hused
        rw [read_of_ne hne]
        refine ⟨op, hop, ?_, ?_⟩
        · rw [owner_of_ne hne]
          exact Function.update_self x _ _
        · rw [owner_of_ne hne]
          exact ⟨_, List.mem_cons_self, rfl, rfl, rfl⟩
      next => exact hused.elim
  | getQueueNumber => cases hq
  | store field y =>
      obtain rfl : field = x := Option.some.inj hdef
      obtain ⟨hmk, hne, hney⟩ := hfit
      have hy := hI.uses htodo hq (fun _ => hney) (List.mem_singleton_self y)
      rw [read_of_ne hne]
      show Genuine _ c field (Function.update (s.cores c).vars field _ field)
      rw [Function.update_self]
      refine Genuine.of_makers (hy.mono (List.suffix_cons _ _)) hmk ?_
      rw [owner_of_ne hne, owner_of_ne hney]
  | setHnd =>
      obtain rfl : .cppiHnd = x := Option.some.inj hdef
      obtain rfl := hcode.setHnd_core htodo
      exact (hI.uses htodo hq (fun h => absurd rfl h)
        (List.mem_singleton_self Var.hnd)).of_makers rfl rfl
  | writeBack => cases hdef
  | wait => cases hdef
  | leave => cases hdef

/-- A step of a core keeps what the core still reads. -/
theorem TypeInv.live_step (hI : TypeInv s) (hcode : StartInv p s)
    (htodo : (s.cores c).todo = st :: rest)
    (htrust : Trusted s (.run c ok)) (h : CoreStep s c ok st rest k v log)
    (hx : c ≠ 0 → x ≠ .cppiHnd)
    (hused : usedLater x (beforeQueueNumber k.todo)) :
    Genuine log c x (k.read v x) := by
  have hq := htrust.not_queueNumber htodo
  by_cases hdef : st.defs = some x
  · exact hI.defined hcode htodo htrust h hdef hx hused
  · have hwait : x = .cppiHnd → st ≠ .awaitHnd := by
      intro hhnd
      have hc : c = 0 := by
        by_contra hc
        exact hx hc hhnd
      subst hc
      exact (core0_code p st (hcode.next htodo)).2
    rw [h.read_eq hdef hwait]
    refine Genuine.mono (hI.live c x hx ?_) h.log_suffix
    rcases h.todo_cases with hrest | hnil | hsame
    · rw [hrest] at hused
      rw [htodo, beforeQueueNumber_cons hq]
      exact Or.inr ⟨hdef, hused⟩
    · rw [hnil] at hused
      exact hused.elim
    · rw [htodo]
      exact hsame ▸ hused

/-- What a step uses is the real thing. -/
theorem TypeInv.entry_ok (hI : TypeInv s) (htrust : Trusted s (.run c ok))
    (htodo : (s.cores c).todo = st :: rest) (hx : x ∈ st.uses) :
    Genuine s.log c x (s.value c x) := by
  by_cases hhnd : c ≠ 0 ∧ x = .cppiHnd
  · obtain ⟨hc, rfl⟩ := hhnd
    exact hI.read (htrust.published c ok st rest rfl hc htodo hx)
  · exact hI.uses htodo (htrust.not_queueNumber htodo)
      (fun hc h => hhnd ⟨hc, h⟩) hx

/-- What a step logs is what the statement reads, but for the assignment
of `cppiHnd`. -/
theorem CoreStep.log_uses (h : CoreStep s c ok st rest k v log) :
    log = s.log ∧ (st = .setHnd ∨ st.uses = []) ∨
      ∃ e, log = e :: s.log ∧ e.core = c ∧
        e.args = st.uses.map fun x => (x, s.value c x) := by
  cases h with
  | call => exact Or.inr ⟨_, rfl, rfl, rfl⟩
  | getQueueNumber => exact Or.inr ⟨_, rfl, rfl, rfl⟩
  | store => exact Or.inr ⟨_, rfl, rfl, rfl⟩
  | setHnd => exact Or.inl ⟨rfl, Or.inl rfl⟩
  | writeBack => exact Or.inl ⟨rfl, Or.inr rfl⟩
  | wait => exact Or.inl ⟨rfl, Or.inr rfl⟩
  | leave => exact Or.inl ⟨rfl, Or.inr rfl⟩

theorem typestateOk_run (hI : TypeInv s) (ho : TypestateOk s.log)
    (htrust : Trusted s (.run c ok)) (htodo : (s.cores c).todo = st :: rest)
    (h : CoreStep s c ok st rest k v log) : TypestateOk log := by
  rcases h.log_uses with ⟨heq, -⟩ | ⟨e, heq, hcore, hargs⟩
  · rw [heq]
    exact ho
  · rw [heq]
    refine ⟨fun a ha => ?_, ho⟩
    rw [hargs] at ha
    obtain ⟨y, hy, rfl⟩ := List.mem_map.mp ha
    rw [hcore]
    exact hI.entry_ok htrust htodo hy

/-- Only core 0 writes `cppiHnd` back. -/
theorem CoreStep.memory_other (h : CoreStep s c ok st rest k v log)
    (hcode : StartInv p s) (htodo : (s.cores c).todo = st :: rest)
    (hc : c ≠ 0) : v = s.cppiHnd := by
  cases h with
  | writeBack =>
      have hsuf := hcode.code c
      rw [htodo, masterTask, if_neg hc] at hsuf
      exact absurd rfl
        (other_code p _ ((List.mem_tails _ _).mpr hsuf) _ rfl).1
  | call => rfl
  | getQueueNumber => rfl
  | store => rfl
  | setHnd => rfl
  | wait => rfl
  | leave => rfl

theorem typeInv_run (hI : TypeInv s) (hcode : StartInv p s)
    (htrust : Trusted s (.run c ok)) (htodo : (s.cores c).todo = st :: rest)
    (h : CoreStep s c ok st rest k s'.cppiHnd s'.log)
    (hcores : s'.cores = Function.update s.cores c k) : TypeInv s' where
  live := by
    intro d x hx hused
    by_cases hd : d = c
    · subst hd
      rw [Boot.value, hcores, Function.update_self]
      rw [hcores, Function.update_self] at hused
      exact hI.live_step hcode htodo htrust h hx hused
    · rw [hcores, Function.update_of_ne hd] at hused
      have hsame : s'.value d x = s.value d x := by
        rw [Boot.value, Boot.value, hcores, Function.update_of_ne hd]
        by_cases hhnd : x = .cppiHnd
        · -- the handle is followed on core 0 only
          have hd0 : d = 0 := by
            by_contra hd0
            exact hx hd0 hhnd
          rw [h.memory_other hcode htodo fun hc => hd (hd0.trans hc.symm)]
        · rw [read_of_ne hhnd, read_of_ne hhnd]
      rw [hsame]
      exact (hI.live d x hx hused).mono h.log_suffix
  memory := by
    intro hset
    refine Genuine.mono ?_ h.log_suffix
    rcases h.hnd_cases.1 with heq | heq
    · rw [heq] at hset ⊢
      exact hI.memory hset
    · rw [heq] at hset ⊢
      exact hI.read hset
  cached := by
    intro d w hw hset
    refine Genuine.mono ?_ h.log_suffix
    by_cases hd : d = c
    · rw [hcores, hd, Function.update_self] at hw
      rcases h.hnd_cases.2 with heq | heq | heq | ⟨rfl, heq⟩
      · cases heq.symm.trans hw
      · exact hI.cached c w (heq.symm.trans hw) hset
      · obtain rfl := Option.some.inj (heq.symm.trans hw)
        exact hI.read hset
      · obtain rfl := hcode.setHnd_core htodo
        obtain rfl := Option.some.inj (heq.symm.trans hw)
        exact (hI.uses htodo rfl (fun h => absurd rfl h)
          (List.mem_singleton_self Var.hnd)).of_makers rfl rfl
    · rw [hcores, Function.update_of_ne hd] at hw
      exact hI.cached d w hw hset

theorem typeInv_evict (hI : TypeInv s) (c : Nat) : TypeInv (s.evict c) where
  live := by
    intro d x hx hused
    rw [(evict_core s c d).1] at hused
    have hsame : (s.evict c).value d x = s.value d x := by
      by_cases hhnd : x = .cppiHnd
      · have hd : d = 0 := by
          by_contra hd
          exact hx hd hhnd
        subst hd hhnd
        by_cases hc : c = 0
        · subst hc
          rw [Boot.value, evict_self]
          rfl
        · have hmem : (s.evict c).cppiHnd = s.cppiHnd := if_neg hc
          rw [Boot.value, evict_of_ne (Ne.symm hc), hmem]
          rfl
      · rw [Boot.value, Boot.value, read_of_ne hhnd, read_of_ne hhnd,
          (evict_core s c d).2]
    rw [hsame]
    exact hI.live d x hx hused
  memory := by
    intro hset
    by_cases hc : c = 0
    · have hmem : (s.evict c).cppiHnd = s.value c .cppiHnd := if_pos hc
      rw [hmem] at hset ⊢
      exact hI.read hset
    · have hmem : (s.evict c).cppiHnd = s.cppiHnd := if_neg hc
      rw [hmem] at hset ⊢
      exact hI.memory hset
  cached := by
    intro d w hw hset
    by_cases hd : d = c
    · rw [hd, evict_self] at hw
      cases hw
    · rw [evict_of_ne hd] at hw
      exact hI.cached d w hw hset

/-- In a trusted run every use is of genuine values. -/
theorem typestateOk_of_trusted (h : Reach bootStep Trusted (boot p) s) :
    TypeInv s ∧ TypestateOk s.log := by
  refine h.invariant' (I := fun s => TypeInv s ∧ TypestateOk s.log)
    ⟨typeInv_boot, trivial⟩ ?_
  rintro s a s' hr ⟨hI, ho⟩ htrust hs
  cases a with
  | run c ok =>
      obtain ⟨st, rest, k, htodo, hstep, hcores⟩ := run_cases hs
      exact ⟨typeInv_run hI (startInv_reachable hr.any) htrust htodo hstep
        hcores, typestateOk_run hI ho htrust htodo hstep⟩
  | evict c =>
      cases hs
      exact ⟨typeInv_evict hI c, ho⟩

-- ================================================= the condition is exact

/-- A statement that reads anything else breaks the typestate, unless it
only assigns `cppiHnd`. -/
theorem CoreStep.breaks (h : CoreStep s c ok st rest k v log)
    (hset : st ≠ .setHnd) (hx : x ∈ st.uses)
    (hbad : ¬ Genuine s.log c x (s.value c x)) : ¬ TypestateOk log := by
  rcases h.log_uses with ⟨-, hst | hnil⟩ | ⟨e, heq, hcore, hargs⟩
  · exact absurd hst hset
  · rw [hnil] at hx
    cases hx
  · rw [heq]
    intro ho
    have hmem : (x, s.value c x) ∈ e.args :=
      hargs ▸ List.mem_map.mpr ⟨x, hx, rfl⟩
    have hgen := ho.1 _ hmem
    rw [hcore] at hgen
    exact hbad hgen

/-- Core 0, left to itself, comes to use a bad value that it still
reads. -/
theorem bad_used (hx : x ≠ .cppiHnd) (hh : x ≠ .hnd) :
    ∀ (l : List Stmt) (s : Boot), (s.cores 0).todo = l →
      (∀ st ∈ l, st ≠ .awaitHnd) → (s.cores 0).vars x = .bad →
      usedLater x l →
      ∃ s', Reach bootStep anyStep s s' ∧ ¬ TypestateOk s'.log := by
  intro l
  induction l with
  | nil =>
      intro s _ _ _ hused
      exact hused.elim
  | cons st rest ih =>
      intro s htodo hwait hbad hused
      obtain ⟨s₁, hs⟩ := exists_run htodo true
      obtain ⟨st', rest', k, htodo', h, hcores⟩ := run_cases hs
      cases htodo.symm.trans htodo'
      have hread : s.value 0 x = .bad := by
        rw [Boot.value, read_of_ne hx, hbad]
      rcases hused with huse | ⟨hdef, hlater⟩
      · refine ⟨s₁, .step (.run 0 true) .init trivial hs, ?_⟩
        refine h.breaks ?_ huse (hread ▸ not_genuine_bad)
        rintro rfl
        exact hh (List.mem_singleton.mp huse)
      · have hst := hwait st List.mem_cons_self
        have htodo₁ : (s₁.cores 0).todo = rest := by
          rw [hcores, Function.update_self]
          exact h.todo_done hst
        have hbad₁ : (s₁.cores 0).vars x = .bad := by
          rw [hcores, Function.update_self, ← read_of_ne hx,
            h.read_eq hdef fun hhnd => absurd hhnd hx]
          exact hread
        obtain ⟨s₂, hr, ho⟩ := ih s₁ htodo₁
          (fun st' hmem => hwait st' (List.mem_cons_of_mem st hmem)) hbad₁
          hlater
        exact ⟨s₂, (Reach.step (.run 0 true) .init trivial hs).trans hr, ho⟩

/-- On core 0 no untested call makes a CPPI handle. -/
theorem untested0 (p : Source) : ∀ st ∈ masterTask0 p, ∀ x ∈ st.untested,
    x ≠ .cppiHnd ∧ x ≠ .hnd := by
  cases p <;> decide

/-- The other cores read the numbers of two queues that they never
assign. -/
theorem other_queues (p : Source) : ∀ st ∈ masterTaskOther p,
    st.defs ≠ some .qRxOp ∧ st.defs ≠ some .qRxFree ∧
      (st.isQueueNumber = true → ∀ x ∈ st.uses, x = .qRxOp ∨ x = .qRxFree) := by
  cases p <;> decide

/-- The queue handles of the other cores stay uninitialised. -/
theorem queues_uninit (h : Reach bootStep anyStep (boot p) s) (hc : c ≠ 0)
    (hx : x = .qRxOp ∨ x = .qRxFree) : (s.cores c).vars x = .uninit := by
  have hne : x ≠ .cppiHnd := by
    rcases hx with rfl | rfl <;> decide
  refine h.invariant' (I := fun s => (s.cores c).vars x = .uninit) rfl ?_
  intro s a s' hr hI _ hs
  cases a with
  | evict d =>
      cases hs
      rw [(evict_core s d c).2]
      exact hI
  | run d ok =>
      obtain ⟨st, rest, k, htodo, hstep, hcores⟩ := run_cases hs
      by_cases hd : c = d
      · subst hd
        have hin := (startInv_reachable hr).next htodo
        rw [masterTask, if_neg hc] at hin
        obtain ⟨hop, hfree, -⟩ := other_queues p st hin
        have hdef : st.defs ≠ some x := by
          rcases hx with rfl | rfl
          · exact hop
          · exact hfree
        rw [hcores, Function.update_self, ← read_of_ne hne,
          hstep.read_eq hdef fun h => absurd h hne, Boot.value,
          read_of_ne hne]
        exact hI
      · rw [hcores, Function.update_of_ne hd]
        exact hI

/-- A failed call that nothing tests leaves a bad value. -/
theorem CoreStep.untested_bad (h : CoreStep s c false st rest k v log)
    (hunt : st.untested = some x) : k.todo = rest ∧ k.vars x = .bad := by
  cases h with
  | call op args dst onFail =>
      cases onFail with
      | stop => cases hunt
      | goOn =>
          obtain rfl : dst = some x := hunt
          exact ⟨rfl, Function.update_self x _ _⟩
  | getQueueNumber => cases hunt
  | store => cases hunt
  | setHnd => cases hunt
  | writeBack => cases hunt
  | wait => cases hunt
  | leave => cases hunt

/-- A step that is not trusted breaks the typestate, or lets core 0 break
it. -/
theorem untrusted_breaks {a : BootAction}
    (hr : Reach bootStep anyStep (boot p) s) (ht : ¬ Trusted s a)
    (hs : bootStep a s = some s') :
    ∃ s'', Reach bootStep anyStep s' s'' ∧ ¬ TypestateOk s''.log := by
  by_contra hno
  have hok : ∀ s'', Reach bootStep anyStep s' s'' → TypestateOk s''.log :=
    fun s'' hr' => by_contra fun hbad => hno ⟨s'', hr', hbad⟩
  have hcode := startInv_reachable hr
  refine ht ⟨?_, ?_, ?_⟩
  · rintro ok st rest x rfl htodo hunt hused
    by_contra hfail
    obtain rfl : ok = false := by simpa using hfail
    have hin := hcode.next htodo
    obtain ⟨hne, hh⟩ := untested0 p st hin x hunt
    obtain ⟨st', rest', k, htodo', hstep, hcores⟩ := run_cases hs
    cases htodo.symm.trans htodo'
    obtain ⟨hrest, hbad⟩ := hstep.untested_bad hunt
    have hself : s'.cores 0 = k := by
      rw [hcores, Function.update_self]
    have hwait : ∀ st' ∈ rest, st' ≠ .awaitHnd := fun st' hmem =>
      (core0_code p st' ((hcode.code 0).subset
        (htodo ▸ List.mem_cons_of_mem st hmem))).2
    obtain ⟨s'', hr', ho⟩ := bad_used hne hh rest s' (hself ▸ hrest) hwait
      (hself ▸ hbad) hused
    exact ho (hok s'' hr')
  · rintro c ok q rest rfl htodo
    obtain ⟨st, rest', k, htodo', hstep, -⟩ := run_cases hs
    cases htodo.symm.trans htodo'
    have hin := hcode.next htodo
    have hc : c ≠ 0 := by
      rintro rfl
      cases (core0_code p _ hin).1
    rw [masterTask, if_neg hc] at hin
    have hq := (other_queues p _ hin).2.2 rfl q (List.mem_singleton_self q)
    have hun : s.value c q = .uninit := by
      have hne : q ≠ .cppiHnd := by
        rcases hq with rfl | rfl <;> decide
      rw [Boot.value, read_of_ne hne, queues_uninit hr hc hq]
    exact hstep.breaks (by simp) (List.mem_singleton_self q)
      (hun ▸ not_genuine_uninit) (hok s' .init)
  · rintro c ok st rest rfl hc htodo huse hbad
    obtain ⟨st', rest', k, htodo', hstep, -⟩ := run_cases hs
    cases htodo.symm.trans htodo'
    refine hstep.breaks ?_ huse (hbad ▸ not_genuine_bad) (hok s' .init)
    rintro rfl
    cases List.mem_singleton.mp huse

/-- Every use is of genuine values in the runs whose steps are trusted,
and any other step leads to one that is not. -/
theorem typestate_trusted (p : Source) :
    (∀ s, Reach bootStep Trusted (boot p) s → TypestateOk s.log) ∧
      ∀ s a s', Reach bootStep anyStep (boot p) s → ¬ Trusted s a →
        bootStep a s = some s' →
        ∃ s'', Reach bootStep anyStep s' s'' ∧ ¬ TypestateOk s''.log :=
  ⟨fun _ h => (typestateOk_of_trusted h).2,
    fun _ _ _ hr ht hs => untrusted_breaks hr ht hs⟩

/-- A step that can be seen to be trusted: it succeeds, and the next
statement reads no queue number and, outside core 0, no `cppiHnd` that is
still NULL. -/
def Plain (s : Boot) : BootAction → Prop
  | .run c ok => ok = true ∧ ∀ st ∈ (s.cores c).todo.head?,
      st.isQueueNumber = false ∧
        (c ≠ 0 → .cppiHnd ∈ st.uses → s.value c .cppiHnd ≠ .bad)
  | .evict _ => True

instance (s : Boot) : (a : BootAction) → Decidable (Plain s a)
  | .run _ _ => inferInstanceAs (Decidable (_ ∧ _))
  | .evict _ => isTrue trivial

theorem Plain.trusted {a : BootAction} (h : Plain s a) : Trusted s a where
  results := by
    intro ok st rest x ha _ _ _
    subst ha
    exact h.1
  queues := by
    intro c ok q rest ha htodo
    subst ha
    have hq := (h.2 (.getQueueNumber q) (by rw [htodo]; rfl)).1
    cases hq
  published := by
    intro c ok st rest ha hc htodo huse
    subst ha
    exact (h.2 st (by rw [htodo]; rfl)).2 hc huse

/-- In transport_main.c core 0 runs to its end, and core 1 waits for the
handle and opens the receive channel with its own. -/
theorem typestate_trusted_start :
    ∃ s, Reach bootStep Trusted (boot .transportMain) s ∧
      (s.cores 0).todo = [] ∧
      s.log.head? = some
        ⟨1, .cppiRxChannelOpen, [(.hnd, .made .cppiOpen 1)], true⟩ ∧
      TypestateOk s.log := by
  obtain ⟨s, hr, hend, hhead⟩ : ∃ s,
      Reach bootStep Plain (boot .transportMain) s ∧
        (s.cores 0).todo = [] ∧ s.log.head? = some
          ⟨1, .cppiRxChannelOpen, [(.hnd, .made .cppiOpen 1)], true⟩ :=
    exists_reach_of_runOk
      (List.replicate 18 (.run 0 true) ++ List.replicate 4 (.run 1 true))
      (by decide)
  have htrust : Reach bootStep Trusted (boot .transportMain) s :=
    hr.mono fun _ _ h => h.trusted
  exact ⟨s, htrust, hend, hhead,
    (typestate_trusted .transportMain).1 s htrust⟩

/-- A newest use of a value that no call made breaks the typestate. -/
theorem not_ok_of_head {e : Entry} (h : log.head? = some e)
    {a : Var × Val} (ha : a ∈ e.args) (hv : a.2 = .uninit ∨ a.2 = .bad) :
    ¬ TypestateOk log := by
  obtain ⟨older, rfl⟩ := List.head?_eq_some_iff.mp h
  intro ho
  have hgen := ho.1 a ha
  rcases hv with hv | hv
  · rw [hv] at hgen
    exact not_genuine_uninit hgen
  · rw [hv] at hgen
    exact not_genuine_bad hgen

/-- In transport_main.c, with every call successful, core 1 reads the
number of the queue `q_rx_op` that it never opened; in main_qmss.c it
also passes on a `cppiHnd` that is still NULL. -/
theorem typestate_uninit :
    (∃ s, Reach bootStep anyStep (boot .transportMain) s ∧
      s.log.head? = some
        ⟨1, .qmssGetQueueNumber, [(.qRxOp, .uninit)], true⟩ ∧
      (∀ e ∈ s.log, e.ok = true) ∧ ¬ TypestateOk s.log) ∧
    ∃ s, Reach bootStep anyStep (boot .mainQmss) s ∧
      s.log.head? = some ⟨1, .cppiRxChannelOpen, [(.cppiHnd, .bad)], true⟩ ∧
      ¬ TypestateOk s.log := by
  have htransport : ∃ s, Reach bootStep anyStep (boot .transportMain) s ∧
      s.log.head? = some
        ⟨1, .qmssGetQueueNumber, [(.qRxOp, .uninit)], true⟩ ∧
      ∀ e ∈ s.log, e.ok = true :=
    exists_reach_of_runOk
      (List.replicate 18 (.run 0 true) ++ List.replicate 5 (.run 1 true))
      (by decide)
  have hqmss : ∃ s, Reach bootStep anyStep (boot .mainQmss) s ∧
      s.log.head? = some ⟨1, .cppiRxChannelOpen, [(.cppiHnd, .bad)], true⟩ :=
    exists_reach_of_runOk [.run 1 true] (by decide)
  obtain ⟨s, hr, hhead, hall⟩ := htransport
  obtain ⟨s', hr', hhead'⟩ := hqmss
  exact ⟨⟨s, hr, hhead, hall,
      not_ok_of_head hhead List.mem_cons_self (Or.inl rfl)⟩,
    s', hr', hhead', not_ok_of_head hhead' List.mem_cons_self (Or.inr rfl)⟩

end DspCodes.Transport

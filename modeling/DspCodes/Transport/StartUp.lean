/-
The order in which the cores start QMSS and CPPI.

# The law

A core other than 0 starts QMSS only after `Qmss_init` has succeeded on
core 0, and opens or configures CPPI only after `Cppi_init` and
`Cppi_open` have succeeded there. Neither program ensures it:
main_qmss.c does not wait for `cppiHnd` at all, transport_main.c waits
for it only after `Qmss_start`.

# When it holds

The first driver call of each core decides. If that call comes late
enough (`FirstCallLate`), the rest of the order follows: core 0 returns
from its function when `Qmss_init`, `Cppi_init` or `Cppi_open` fails, so
whatever comes after them in its code vouches for them, and what another
core reads in `cppiHnd` vouches for `Cppi_open`.
-/
import Mathlib.Data.List.Infix
import DspCodes.Transport.Master

namespace DspCodes.Transport

open Lts

-- ================================================================== the law

/-- The call has succeeded on core `c`. -/
def Succeeded (log : List Entry) (c : Nat) (op : Op) : Prop :=
  ∃ e ∈ log, e.core = c ∧ e.op = op ∧ e.ok = true

/-- What must have succeeded on core 0 before another core's call. -/
def Op.required : Op → List Op
  | .qmssStart => [.qmssInit]
  | .cppiOpen => [.cppiInit, .cppiOpen]
  | .cppiRxChannelOpen => [.cppiInit, .cppiOpen]
  | .cppiConfigureRxFlow => [.cppiInit, .cppiOpen]
  | .cppiChannelEnable => [.cppiInit, .cppiOpen]
  | _ => []

/-- Every call of a core other than 0 comes after what it requires; the
log is newest first. -/
def Ordered : List Entry → Prop
  | [] => True
  | e :: older =>
      (e.core ≠ 0 → ∀ op ∈ e.op.required, Succeeded older 0 op) ∧
        Ordered older

/-- The first driver call of the cores other than 0. -/
def Source.firstCall : Source → Op
  | .mainQmss => .cppiRxChannelOpen
  | .transportMain => .qmssStart

/-- What that call has to come after. -/
def Source.gate : Source → Op
  | .mainQmss => .cppiOpen
  | .transportMain => .qmssInit

/-- The call of a statement. -/
def Stmt.op : Stmt → Option Op
  | .call op _ _ _ => some op
  | .getQueueNumber _ => some .qmssGetQueueNumber
  | .store _ _ => some .store
  | .setHnd => none
  | .writeBack => none
  | .awaitHnd => none

/-- A core other than 0 makes its first driver call only when core 0 is
far enough. -/
def FirstCallLate (p : Source) (s : Boot) : BootAction → Prop
  | .run c _ => c ≠ 0 →
      (s.cores c).todo.head?.bind Stmt.op = some p.firstCall →
      Succeeded s.log 0 p.gate
  | .evict _ => True

variable {p : Source} {s s' : Boot} {c : Nat} {ok : Bool} {st : Stmt}
  {rest : List Stmt} {k : BootCore} {v : Val} {log log' : List Entry}
  {op : Op}

theorem Succeeded.mono (h : Succeeded log c op) (hsub : log <:+ log') :
    Succeeded log' c op := by
  obtain ⟨e, he, hrest⟩ := h
  exact ⟨e, hsub.subset he, hrest⟩

theorem Ordered.older : ∀ {log log' : List Entry}, log <:+ log' →
    Ordered log' → Ordered log := by
  intro log log' hsub ho
  induction log' with
  | nil => rw [List.suffix_nil.mp hsub]; trivial
  | cons e older ih =>
      rcases List.suffix_cons_iff.mp hsub with heq | hold
      · rw [heq]
        exact ho
      · exact ih hold ho.2

-- ======================================================= reading the code

/-- The test of the call is in the code. -/
def tested (op : Op) (args : List Var) (dst : Option Var) : Stmt :=
  .call op args dst .stop

/-- Where core 0 opens CPPI, it has initialised QMSS and CPPI. -/
theorem init_before_open (p : Source) :
    ∀ t ∈ (masterTask0 p).tails,
      t.head?.bind Stmt.op = some .cppiOpen →
      tested .qmssInit [] none ∉ t ∧ tested .cppiInit [] none ∉ t := by
  cases p <;> decide

/-- Where core 0 assigns `cppiHnd`, it has opened CPPI. -/
theorem open_before_set (p : Source) :
    ∀ t ∈ (masterTask0 p).tails, t.head? = some .setHnd →
      tested .cppiOpen [] (some .hnd) ∉ t := by
  cases p <;> decide

/-- The other cores do not assign `cppiHnd`. -/
theorem set_not_mem_other (p : Source) : .setHnd ∉ masterTaskOther p := by
  cases p <;> decide

/-- On the other cores a call that requires something is the first one,
or comes after it or after the wait. -/
theorem other_order (p : Source) :
    ∀ t ∈ (masterTaskOther p).tails, ∀ op ∈ t.head?.bind Stmt.op,
      op.required ≠ [] →
      op = p.firstCall ∨
        (p.gate = .cppiOpen ∧ t ≠ masterTaskOther p) ∨
        (.awaitHnd ∈ masterTaskOther p ∧ .awaitHnd ∉ t) := by
  cases p <;> decide

/-- What has not begun is at its first call. -/
theorem head_other (p : Source) :
    (masterTaskOther p).head?.bind Stmt.op = some p.firstCall := by
  cases p <;> rfl

-- ======================================================= what a step does

/-- A tested call that was still to come is still to come, has ended the
core or has succeeded. -/
theorem CoreStep.tested {args : List Var} {dst : Option Var}
    (h : CoreStep s c ok st rest k v log)
    (hmem : Transport.tested op args dst ∈ st :: rest) :
    Transport.tested op args dst ∈ k.todo ∨ k.todo = [] ∨
      Succeeded log c op := by
  rcases List.mem_cons.mp hmem with heq | hrest
  · subst heq
    cases h with
    | call =>
        cases ok with
        | false => exact Or.inr (Or.inl rfl)
        | true =>
            exact Or.inr (Or.inr ⟨_, List.mem_cons_self, rfl, rfl, rfl⟩)
  · rcases h.todo_cases with heq | heq | heq
    · exact Or.inl (heq ▸ hrest)
    · exact Or.inr (Or.inl heq)
    · exact Or.inl (heq ▸ hmem)

/-- A step logs the call it makes, if it makes one. -/
theorem CoreStep.log_cases (h : CoreStep s c ok st rest k v log) :
    log = s.log ∧ st.op = none ∨
      ∃ e, log = e :: s.log ∧ e.core = c ∧ st.op = some e.op := by
  cases h with
  | call => exact Or.inr ⟨_, rfl, rfl, rfl⟩
  | getQueueNumber => exact Or.inr ⟨_, rfl, rfl, rfl⟩
  | store => exact Or.inr ⟨_, rfl, rfl, rfl⟩
  | setHnd => exact Or.inl ⟨rfl, rfl⟩
  | writeBack => exact Or.inl ⟨rfl, rfl⟩
  | wait => exact Or.inl ⟨rfl, rfl⟩
  | leave => exact Or.inl ⟨rfl, rfl⟩

/-- What a step leaves in memory and in the L1D was there, unless it
assigns `cppiHnd`. -/
theorem CoreStep.hnd_cases (h : CoreStep s c ok st rest k v log) :
    (v = s.cppiHnd ∨ v = s.value c .cppiHnd) ∧
      (k.l1d = none ∨ k.l1d = (s.cores c).l1d ∨
        k.l1d = some (s.value c .cppiHnd) ∨
        st = .setHnd ∧ k.l1d = some ((s.cores c).vars .hnd)) := by
  cases h with
  | call =>
      refine ⟨Or.inl rfl, Or.inr ?_⟩
      show (if _ then _ else _) = _ ∨ (if _ then _ else _) = _ ∨ _
      split
      · exact Or.inr (Or.inl rfl)
      · exact Or.inl rfl
  | getQueueNumber => exact ⟨Or.inl rfl, Or.inr (Or.inl rfl)⟩
  | store => exact ⟨Or.inl rfl, Or.inr (Or.inl rfl)⟩
  | setHnd => exact ⟨Or.inl rfl, Or.inr (Or.inr (Or.inr ⟨rfl, rfl⟩))⟩
  | writeBack => exact ⟨Or.inr rfl, Or.inr (Or.inl rfl)⟩
  | wait => exact ⟨Or.inl rfl, Or.inl rfl⟩
  | leave => exact ⟨Or.inl rfl, Or.inr (Or.inr (Or.inl rfl))⟩

/-- A wait still to come is still to come, has ended or has seen the
handle. -/
theorem CoreStep.awaited (h : CoreStep s c ok st rest k v log)
    (hmem : .awaitHnd ∈ st :: rest) :
    .awaitHnd ∈ k.todo ∨ k.todo = [] ∨ s.value c .cppiHnd ≠ .bad := by
  rcases List.mem_cons.mp hmem with heq | hrest
  · subst heq
    cases h with
    | wait => exact Or.inl List.mem_cons_self
    | leave _ hset => exact Or.inr (Or.inr hset)
  · rcases h.todo_cases with heq | heq | heq
    · exact Or.inl (heq ▸ hrest)
    · exact Or.inr (Or.inl heq)
    · exact Or.inl (heq ▸ hmem)

-- ============================================================ the invariant

/-- What core 0 has behind it has succeeded, and whatever shows that
`cppiHnd` is set shows that core 0 opened CPPI. -/
structure StartInv (p : Source) (s : Boot) : Prop where
  code : ∀ c, (s.cores c).todo <:+ masterTask p c
  tested : ∀ op args dst, Transport.tested op args dst ∈ masterTask0 p →
    Transport.tested op args dst ∈ (s.cores 0).todo ∨
      (s.cores 0).todo = [] ∨ Succeeded s.log 0 op
  opened : Succeeded s.log 0 .cppiOpen →
    Succeeded s.log 0 .qmssInit ∧ Succeeded s.log 0 .cppiInit
  memory : s.cppiHnd ≠ .bad → Succeeded s.log 0 .cppiOpen
  cached : ∀ c w, (s.cores c).l1d = some w → w ≠ .bad →
    Succeeded s.log 0 .cppiOpen
  awaited : ∀ c, c ≠ 0 → .awaitHnd ∈ masterTaskOther p →
    .awaitHnd ∈ (s.cores c).todo ∨ (s.cores c).todo = [] ∨
      Succeeded s.log 0 .cppiOpen

theorem startInv_boot : StartInv p (boot p) where
  code := fun c => List.suffix_rfl
  tested := fun op args dst h => Or.inl h
  opened := by
    rintro ⟨e, he, -⟩
    cases he
  memory := fun h => absurd rfl h
  cached := by
    intro c w hw
    cases hw
  awaited := by
    intro c hc h
    refine Or.inl ?_
    show _ ∈ masterTask p c
    rw [masterTask, if_neg hc]
    exact h

/-- What a core reads in `cppiHnd` vouches for core 0. -/
theorem StartInv.read (hI : StartInv p s) (h : s.value c .cppiHnd ≠ .bad) :
    Succeeded s.log 0 .cppiOpen := by
  cases hl : (s.cores c).l1d with
  | none =>
      have heq : s.value c .cppiHnd = s.cppiHnd := by
        simp only [Boot.value, BootCore.read, hl, Option.getD_none]
      exact hI.memory (heq ▸ h)
  | some w =>
      have heq : s.value c .cppiHnd = w := by
        simp only [Boot.value, BootCore.read, hl, Option.getD_some]
      exact hI.cached c w hl (heq ▸ h)

/-- A tested call that core 0 has behind it has succeeded. -/
theorem StartInv.behind (hI : StartInv p s) {args : List Var}
    {dst : Option Var} (hcode : Transport.tested op args dst ∈ masterTask0 p)
    (hpast : Transport.tested op args dst ∉ (s.cores 0).todo)
    (hgo : (s.cores 0).todo ≠ []) : Succeeded s.log 0 op := by
  rcases hI.tested op args dst hcode with hmem | hnil | hsucc
  · exact absurd hmem hpast
  · exact absurd hnil hgo
  · exact hsucc

/-- The next statement is in the code of the core. -/
theorem StartInv.next (hI : StartInv p s)
    (htodo : (s.cores c).todo = st :: rest) : st ∈ masterTask p c :=
  (hI.code c).subset (htodo ▸ List.mem_cons_self)

/-- What a step preserves of what is to come on a core: it is still to
come, the core has ended, or `P` holds. -/
theorem pending_step {P : Prop} {x : Stmt} {d : Nat}
    (htodo : (s.cores c).todo = st :: rest)
    (hcores : s'.cores = Function.update s.cores c k)
    (hstep : d = c → x ∈ st :: rest → x ∈ k.todo ∨ k.todo = [] ∨ P)
    (h : x ∈ (s.cores d).todo ∨ (s.cores d).todo = [] ∨ P) :
    x ∈ (s'.cores d).todo ∨ (s'.cores d).todo = [] ∨ P := by
  by_cases hd : d = c
  · rw [hcores, hd, Function.update_self]
    rw [hd, htodo] at h
    rcases h with hmem | hnil | hP
    · exact hstep hd hmem
    · cases hnil
    · exact Or.inr (Or.inr hP)
  · rw [hcores, Function.update_of_ne hd]
    exact h

/-- Opening CPPI on core 0 comes after both initialisations. -/
theorem StartInv.opened_step (hI : StartInv p s)
    (htodo : (s.cores c).todo = st :: rest)
    (h : CoreStep s c ok st rest k v log) (ho : Succeeded log 0 .cppiOpen) :
    Succeeded s.log 0 .qmssInit ∧ Succeeded s.log 0 .cppiInit := by
  rcases h.log_cases with ⟨heq, -⟩ | ⟨e, heq, hcore, hop⟩
  · exact hI.opened (heq ▸ ho)
  · rw [heq] at ho
    obtain ⟨f, hf, hfc, hfo, hfk⟩ := ho
    rcases List.mem_cons.mp hf with hnew | hold
    · subst hnew
      obtain rfl : c = 0 := hcore.symm.trans hfc
      rw [hfo] at hop
      have hsuf : (s.cores 0).todo ∈ (masterTask0 p).tails :=
        (List.mem_tails _ _).mpr (hI.code 0)
      obtain ⟨hq, hc⟩ := init_before_open p _ hsuf (htodo ▸ hop)
      have hgo : (s.cores 0).todo ≠ [] := htodo ▸ List.cons_ne_nil st rest
      exact ⟨hI.behind (by cases p <;> decide) hq hgo,
        hI.behind (by cases p <;> decide) hc hgo⟩
    · exact hI.opened ⟨f, hold, hfc, hfo, hfk⟩

/-- Only core 0 assigns `cppiHnd`. -/
theorem StartInv.setHnd_core (hI : StartInv p s)
    (htodo : (s.cores c).todo = .setHnd :: rest) : c = 0 := by
  by_contra hc
  have hin := hI.next htodo
  rw [masterTask, if_neg hc] at hin
  exact set_not_mem_other p hin

/-- When core 0 assigns `cppiHnd`, it has opened CPPI. -/
theorem StartInv.setHnd (hI : StartInv p s)
    (htodo : (s.cores c).todo = .setHnd :: rest) :
    Succeeded s.log 0 .cppiOpen := by
  obtain rfl := hI.setHnd_core htodo
  have hcode : Transport.tested .cppiOpen [] (some .hnd) ∈ masterTask0 p := by
    cases p <;> decide
  refine hI.behind hcode ?_ (htodo ▸ List.cons_ne_nil _ _)
  exact open_before_set p _ ((List.mem_tails _ _).mpr (hI.code 0))
    (by rw [htodo]; rfl)

theorem startInv_run (hI : StartInv p s)
    (htodo : (s.cores c).todo = st :: rest)
    (h : CoreStep s c ok st rest k s'.cppiHnd s'.log)
    (hcores : s'.cores = Function.update s.cores c k) : StartInv p s' where
  code := by
    intro d
    rw [hcores]
    by_cases hd : d = c
    · rw [hd, Function.update_self]
      exact h.todo_suffix.trans (htodo ▸ hI.code c)
    · rw [Function.update_of_ne hd]
      exact hI.code d
  tested := by
    intro op args dst hcode
    refine pending_step htodo hcores ?_
      ((hI.tested op args dst hcode).imp_right
        (Or.imp_right fun hs => hs.mono h.log_suffix))
    rintro rfl hmem
    exact h.tested hmem
  opened := by
    intro ho
    exact (hI.opened_step htodo h ho).imp (·.mono h.log_suffix)
      (·.mono h.log_suffix)
  memory := by
    intro hset
    refine Succeeded.mono ?_ h.log_suffix
    rcases h.hnd_cases.1 with heq | heq
    · exact hI.memory (heq ▸ hset)
    · exact hI.read (c := c) (heq ▸ hset)
  cached := by
    intro d w hw hset
    refine Succeeded.mono ?_ h.log_suffix
    by_cases hd : d = c
    · rw [hcores, hd, Function.update_self] at hw
      rcases h.hnd_cases.2 with heq | heq | heq | ⟨rfl, -⟩
      · cases heq.symm.trans hw
      · exact hI.cached c w (heq.symm.trans hw) hset
      · refine hI.read (c := c) ?_
        rw [Option.some.inj (heq.symm.trans hw)]
        exact hset
      · exact hI.setHnd htodo
    · rw [hcores, Function.update_of_ne hd] at hw
      exact hI.cached d w hw hset
  awaited := by
    intro d hd hcode
    refine pending_step htodo hcores ?_
      ((hI.awaited d hd hcode).imp_right
        (Or.imp_right fun hs => hs.mono h.log_suffix))
    rintro rfl hmem
    exact (h.awaited hmem).imp_right (Or.imp_right fun hset =>
      (hI.read hset).mono h.log_suffix)

theorem startInv_evict (hI : StartInv p s) (c : Nat) :
    StartInv p (s.evict c) := by
  have htodo := fun d => (evict_core s c d).1
  refine ⟨?_, ?_, hI.opened, ?_, ?_, ?_⟩
  · intro d
    rw [htodo]
    exact hI.code d
  · intro op args dst hcode
    rw [htodo]
    exact hI.tested op args dst hcode
  · intro hset
    by_cases hc : c = 0
    · simp only [Boot.evict, hc, if_true] at hset
      exact hI.read hset
    · simp only [Boot.evict, hc, if_false] at hset
      exact hI.memory hset
  · intro d w hw hset
    by_cases hd : d = c
    · rw [hd, evict_self] at hw
      cases hw
    · rw [evict_of_ne hd] at hw
      exact hI.cached d w hw hset
  · intro d hd hcode
    rw [htodo]
    exact hI.awaited d hd hcode

/-- The invariant holds of every reachable state. -/
theorem startInv_reachable (h : Reach bootStep anyStep (boot p) s) :
    StartInv p s := by
  refine h.invariant startInv_boot ?_
  intro s a s' hI _ hs
  cases a with
  | run c ok =>
      obtain ⟨st, rest, k, htodo, hstep, hcores⟩ := run_cases hs
      exact startInv_run hI htodo hstep hcores
  | evict c =>
      cases hs
      exact startInv_evict hI c

-- ============================================================ the first call

/-- The cores other than 0 that have begun did so after the gate. -/
def BegunLate (p : Source) (s : Boot) : Prop :=
  ∀ c, c ≠ 0 → (s.cores c).todo = masterTaskOther p ∨
    Succeeded s.log 0 p.gate

theorem begunLate_step {a : BootAction} (hb : BegunLate p s)
    (hlate : FirstCallLate p s a) (h : bootStep a s = some s') :
    BegunLate p s' := by
  intro d hd
  cases a with
  | run c ok =>
      obtain ⟨st, rest, k, -, hstep, hcores⟩ := run_cases h
      rcases hb d hd with hall | hgate
      · by_cases hdc : d = c
        · subst hdc
          refine Or.inr (Succeeded.mono (hlate hd ?_) hstep.log_suffix)
          rw [hall]
          exact head_other p
        · rw [hcores, Function.update_of_ne hdc]
          exact Or.inl hall
      · exact Or.inr (hgate.mono hstep.log_suffix)
  | evict c =>
      cases h
      rw [(evict_core s c d).1]
      exact hb d hd

/-- Opening CPPI on core 0 vouches for everything a call may require. -/
theorem StartInv.all_required (hI : StartInv p s)
    (ho : Succeeded s.log 0 .cppiOpen) (op : Op) :
    ∀ r ∈ op.required, Succeeded s.log 0 r := by
  obtain ⟨hq, hc⟩ := hI.opened ho
  intro r hr
  cases op <;> simp only [Op.required, List.mem_cons, List.not_mem_nil,
    or_false] at hr <;> first
    | (obtain rfl := hr; exact hq)
    | (rcases hr with rfl | rfl; exacts [hc, ho])

/-- So does the gate for the first call. -/
theorem StartInv.first_required (hI : StartInv p s)
    (hgate : Succeeded s.log 0 p.gate) :
    ∀ r ∈ p.firstCall.required, Succeeded s.log 0 r := by
  cases p with
  | mainQmss => exact hI.all_required hgate _
  | transportMain =>
      intro r hr
      rw [List.mem_singleton.mp hr]
      exact hgate

theorem ordered_run (hI : StartInv p s) (hb : BegunLate p s)
    (ho : Ordered s.log) (hlate : FirstCallLate p s (.run c ok))
    (htodo : (s.cores c).todo = st :: rest)
    (h : CoreStep s c ok st rest k v log) : Ordered log := by
  rcases h.log_cases with ⟨heq, -⟩ | ⟨e, heq, hcore, hop⟩
  · rw [heq]
    exact ho
  · rw [heq]
    refine ⟨fun hne r hr => ?_, ho⟩
    have hc : c ≠ 0 := fun h0 => hne (hcore.trans h0)
    have hsuf : (s.cores c).todo ∈ (masterTaskOther p).tails := by
      have hcode := hI.code c
      rw [masterTask, if_neg hc] at hcode
      exact (List.mem_tails _ _).mpr hcode
    have hhead : (s.cores c).todo.head?.bind Stmt.op = some e.op :=
      htodo ▸ hop
    rcases other_order p _ hsuf e.op hhead (List.ne_nil_of_mem hr) with
      hfirst | ⟨hgate, hall⟩ | ⟨hin, hout⟩
    · rw [hfirst] at hhead hr
      exact hI.first_required (hlate hc hhead) r hr
    · -- main_qmss.c past its first call
      rcases hb c hc with hall' | hsucc
      · exact absurd hall' hall
      · exact hI.all_required (hgate ▸ hsucc) e.op r hr
    · -- transport_main.c past its wait
      rcases hI.awaited c hc hin with hmem | hnil | hsucc
      · exact absurd hmem hout
      · cases htodo.symm.trans hnil
      · exact hI.all_required hsucc e.op r hr

/-- A first call that comes too early breaks the order. -/
theorem not_ordered_of_early {a : BootAction} (hearly : ¬ FirstCallLate p s a)
    (h : bootStep a s = some s') : ¬ Ordered s'.log := by
  cases a with
  | evict c => exact absurd trivial hearly
  | run c ok =>
      simp only [FirstCallLate, not_forall] at hearly
      obtain ⟨hc, hop, hgate⟩ := hearly
      obtain ⟨st, rest, k, htodo, hstep, -⟩ := run_cases h
      have hop' : st.op = some p.firstCall := by
        rw [htodo] at hop
        exact hop
      intro ho
      rcases hstep.log_cases with ⟨-, hnone⟩ | ⟨e, heq, hcore, he⟩
      · cases hnone.symm.trans hop'
      · rw [heq] at ho
        have he' : e.op = p.firstCall := Option.some.inj (he.symm.trans hop')
        refine hgate (ho.1 (by rw [hcore]; exact hc) p.gate ?_)
        rw [he']
        cases p <;> decide

/-- A run whose first calls are late enough is in order. -/
theorem ordered_of_late (h : Reach bootStep (FirstCallLate p) (boot p) s) :
    BegunLate p s ∧ Ordered s.log := by
  refine h.invariant' (I := fun s => BegunLate p s ∧ Ordered s.log) ?_ ?_
  · refine ⟨fun c hc => Or.inl ?_, trivial⟩
    show masterTask p c = _
    rw [masterTask, if_neg hc]
  · rintro s a s' hr ⟨hb, ho⟩ hlate hs
    refine ⟨begunLate_step hb hlate hs, ?_⟩
    cases a with
    | run c ok =>
        obtain ⟨st, rest, k, htodo, hstep, -⟩ := run_cases hs
        exact ordered_run (startInv_reachable hr.any) hb ho hlate htodo hstep
    | evict c =>
        cases hs
        exact ho

/-- The cores start in order exactly in the runs in which each core's
first driver call is late enough. -/
theorem startUp_ordered_iff (p : Source) (s : Boot) :
    Reach bootStep (FirstCallLate p) (boot p) s ↔
      Reach bootStep anyStep (boot p) s ∧ Ordered s.log := by
  constructor
  · intro h
    exact ⟨h.any, (ordered_of_late h).2⟩
  · rintro ⟨h, ho⟩
    induction h with
    | init => exact .init
    | @step s s' a hr _ hs ih =>
        have hlate : FirstCallLate p s a := by
          by_contra hearly
          exact not_ordered_of_early hearly hs ho
        exact .step a (ih (ho.older (log_suffix_step hs))) hlate hs

/-- In both programs core 1 can make its first call before core 0 has
done anything: in main_qmss.c it opens its receive channel, in
transport_main.c it starts QMSS. -/
theorem startUp_unordered :
    (∃ s, Reach bootStep anyStep (boot .mainQmss) s ∧
      s.log.map (fun e => (e.core, e.op)) = [(1, .cppiRxChannelOpen)] ∧
      ¬ Ordered s.log) ∧
    ∃ s, Reach bootStep anyStep (boot .transportMain) s ∧
      s.log.map (fun e => (e.core, e.op)) = [(1, .qmssStart)] ∧
      ¬ Ordered s.log := by
  have hnone : ∀ op, ¬ Succeeded [] 0 op := by
    rintro op ⟨e, he, -⟩
    cases he
  refine ⟨⟨_, .step (.run 1 true) .init trivial rfl, rfl, fun ho => ?_⟩,
    ⟨_, .step (.run 1 true) .init trivial rfl, rfl, fun ho => ?_⟩⟩
  · exact hnone _ (ho.1 (by decide) .cppiOpen (by decide))
  · exact hnone _ (ho.1 (by decide) .qmssInit (by decide))

end DspCodes.Transport

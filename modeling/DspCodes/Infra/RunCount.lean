/-
The shared word `runCount`: every core's handler ends with the
unprotected sequence invalidate, load, store of the value plus one,
write-back, and `main` of every core spins until the word reaches
`NUMBER_OF_CORES`.

# What goes wrong

The handler of round `r` hands out its sync descriptors BEFORE the
increment, so core 0 can send round `r + 1` to another core while the
first handler is still inside it. Two handlers that both load before
either writes back leave the word one short, for good
(`runCount_lost`): all cores then spin in the final loop.

# What is proved

`Exclusive` is the schedule condition: a handler loads `runCount` only
while no other handler is between its load and its write-back. Under it
(and with `Qmss_disableAccumulator` succeeding, its error path returns
before the increment) the word counts exactly the handlers that have
written back (`RunInv`), which is the two-sided bound of
`runCount_exact`.
-/
import DspCodes.Infra.Inv
import DspCodes.Lib.Count

namespace DspCodes.Infra

open Lts Counting

variable {cfg : Config} {ok : Bool} {x x' : CoreState}
  {sh sh' : Shared} {s s' : State cfg} {a : Action cfg.numCores}

-- ========================================================= the property

/-- Handlers that have completed. -/
def completed (s : State cfg) : Nat :=
  ∑ c, ((s.core c).served + (s.core c).aborted)

/-- Handlers that have started but not completed. -/
def running (s : State cfg) : Nat := ∑ c, (s.core c).isr.active

/-- No completed round is missing from `runCount`, and none is counted
that has not started; once every round's handler has completed the word
is the value the final loops wait for. -/
def NoLostRound (s : State cfg) : Prop :=
  completed s ≤ s.shared.runCount
    ∧ s.shared.runCount ≤ completed s + running s
    ∧ (completed s = cfg.numCores → s.shared.runCount = cfg.numCores)

-- ======================================================== the condition

/-- The handler is about to load `runCount`. -/
def IsrPc.loads : IsrPc → Bool
  | .runLoad _ => true
  | _ => false

/-- The handler has loaded `runCount` and not yet written it back. -/
def IsrPc.holds : IsrPc → Bool
  | .runStore _ _ | .runWb _ => true
  | _ => false

/-- The handler is about to disable its accumulator. -/
def IsrPc.disables : IsrPc → Bool
  | .disableAcc _ => true
  | _ => false

/-- A handler loads `runCount` only while no other handler is between
its own load and write-back, and no accumulator fails to be disabled. -/
def Exclusive (s : State cfg) : Action cfg.numCores → Prop
  | .isr c ok =>
      ((s.core c).isr.loads = true →
        ∀ d, d ≠ c → (s.core d).isr.holds = false)
      ∧ ((s.core c).isr.disables = true → ok = true)
  | _ => True

instance (s : State cfg) :
    (a : Action cfg.numCores) → Decidable (Exclusive s a)
  | .isr _ _ => inferInstanceAs (Decidable (_ ∧ _))
  | .main _ _ => isTrue trivial
  | .irq _ => isTrue trivial

-- ======================================================== the invariant

/-- One for a handler that has written back and not yet returned. -/
def IsrPc.wrote : IsrPc → Nat
  | .ret _ => 1
  | _ => 0

/-- The write-backs of a core's handlers. -/
def CoreState.written (x : CoreState) : Nat := x.served + x.isr.wrote

@[simp] theorem isrLoop_wrote (ch i : Nat) :
    (isrLoop cfg ch i).wrote = 0 := by
  unfold isrLoop
  split_ifs <;> rfl

@[simp] theorem isrLoop_holds (ch i : Nat) :
    (isrLoop cfg ch i).holds = false := by
  unfold isrLoop
  split_ifs <;> rfl

/-- What a handler inside the increment holds, relative to the word in
memory. -/
def HoldOk (v : Nat) (x : CoreState) : Prop :=
  match x.isr with
  | .runLoad _ => x.cache = none
  | .runStore _ w => w = v
  | .runWb _ => x.cache = some (v + 1)
  | _ => True

theorem isrLoop_holdOk (v ch i : Nat) (x : CoreState) :
    HoldOk v { x with isr := isrLoop cfg ch i } := by
  unfold isrLoop HoldOk
  split_ifs <;> trivial

/-- A handler outside the window between load and write-back holds
nothing that the word's value could contradict. -/
theorem HoldOk.of_not_holds {v w : Nat} {x : CoreState}
    (h : HoldOk v x) (hx : x.isr.holds = false) : HoldOk w x := by
  unfold HoldOk at h ⊢
  cases hpc : x.isr with
  | runLoad ch => simpa only [hpc] using h
  | runStore ch w => simp [hpc, IsrPc.holds] at hx
  | runWb ch => simp [hpc, IsrPc.holds] at hx
  | _ => trivial

/-- The word in memory counts the write-backs, and at most one handler
is between its load and its write-back. -/
structure RunInv (s : State cfg) : Prop where
  noAbort : ∀ c, (s.core c).aborted = 0
  hold : ∀ c, HoldOk s.shared.runCount (s.core c)
  single : ∀ c d, (s.core c).isr.holds = true →
    (s.core d).isr.holds = true → c = d
  count : s.shared.runCount = ∑ c, (s.core c).written

theorem runInv_init : RunInv (init cfg) := by
  refine ⟨fun _ => rfl, fun _ => trivial, fun c d h => ?_, ?_⟩
  · simp [init, initCore, IsrPc.holds] at h
  · simp [init, initCore, initShared, CoreState.written, IsrPc.wrote]

/-- `main` never writes `runCount`. -/
theorem MainStep.runCount_eq {c : Nat}
    (h : MainStep cfg c ok x sh x' sh') : sh'.runCount = sh.runCount := by
  cases h <;> rfl

/-- A core that does not enter the window leaves at most one in it. -/
theorem RunInv.single_put (hs : RunInv s) {c : Fin cfg.numCores}
    (hin : x.isr.holds = true → (s.core c).isr.holds = true) :
    ∀ d e, ((s.put c (x, sh)).core d).isr.holds = true →
      ((s.put c (x, sh)).core e).isr.holds = true → d = e := by
  have hholds := s.forall_put (c := c) (x, sh)
    (P := fun d y => y.isr.holds = true → (s.core d).isr.holds = true)
    hin fun _ h => h
  exact fun d e hd he => hs.single d e (hholds d hd) (hholds e he)

/-- The write-backs are counted as before when the core's are. -/
theorem RunInv.count_put (hs : RunInv s) {c : Fin cfg.numCores}
    (hcount : sh.runCount = s.shared.runCount)
    (hwritten : x.written = (s.core c).written) :
    (s.put c (x, sh)).shared.runCount
      = ∑ d, ((s.put c (x, sh)).core d).written := by
  rw [State.put_shared, hcount, hs.count]
  exact (sum_update_eq (fun _ => CoreState.written) s.core hwritten).symm

/-- A step outside the window: the word stays, and the core is outside
the window before and after. -/
theorem RunInv.quiet (hs : RunInv s) {c : Fin cfg.numCores}
    (habort : x.aborted = 0) (hcount : sh.runCount = s.shared.runCount)
    (hhold : HoldOk s.shared.runCount x) (hout : x.isr.holds = false)
    (hwritten : x.written = (s.core c).written) :
    RunInv (s.put c (x, sh)) := by
  refine ⟨s.forall_put (x, sh) (P := fun _ y => y.aborted = 0) habort
    hs.noAbort, ?_, hs.single_put ?_, hs.count_put hcount hwritten⟩
  · rw [State.put_shared, hcount]
    exact s.forall_put (x, sh)
      (P := fun _ => HoldOk s.shared.runCount) hhold hs.hold
  · intro h
    rw [hout] at h
    cases h

/-- A load in an empty window: the core enters it with the word's
value. -/
theorem RunInv.load (hs : RunInv s) {c : Fin cfg.numCores} {ch : Nat}
    (hpc : (s.core c).isr = .runLoad ch)
    (hfree : ∀ d, d ≠ c → (s.core d).isr.holds = false) :
    RunInv (s.put c ({ s.core c with
        isr := .runStore ch ((s.core c).cache.getD s.shared.runCount),
        cache := some ((s.core c).cache.getD s.shared.runCount) },
      s.shared)) := by
  have hcache : (s.core c).cache = none := by
    have := hs.hold c
    simpa only [HoldOk, hpc] using this
  have hout : ∀ d, d ≠ c → ∀ y,
      ((s.put c (y, s.shared)).core d).isr.holds = false := by
    intro d hd y
    rw [State.put_core, Function.update_of_ne hd]
    exact hfree d hd
  refine ⟨s.forall_put _ (P := fun _ y => y.aborted = 0) (hs.noAbort c)
    hs.noAbort, ?_, ?_, hs.count_put rfl ?_⟩
  · refine s.forall_put _ (P := fun _ => HoldOk s.shared.runCount) ?_ hs.hold
    simp only [HoldOk, hcache, Option.getD_none]
  · intro d e hd he
    by_cases hdc : d = c
    · by_cases hec : e = c
      · rw [hdc, hec]
      · rw [hout e hec] at he
        cases he
    · rw [hout d hdc] at hd
      cases hd
  · simp only [CoreState.written, hpc, IsrPc.wrote]

/-- A write-back: the word counts it, and no other core is in the window
to hold the old value. -/
theorem RunInv.writeBack (hs : RunInv s) {c : Fin cfg.numCores} {ch : Nat}
    (hpc : (s.core c).isr = .runWb ch) :
    RunInv (s.put c ({ s.core c with isr := .ret ch },
      { s.shared with
        runCount := (s.core c).cache.getD s.shared.runCount })) := by
  have hcache : (s.core c).cache = some (s.shared.runCount + 1) := by
    have := hs.hold c
    simpa only [HoldOk, hpc] using this
  have hin : (s.core c).isr.holds = true := by
    rw [hpc]
    rfl
  refine ⟨s.forall_put _ (P := fun _ y => y.aborted = 0) (hs.noAbort c)
    hs.noAbort, fun d => ?_, hs.single_put ?_, ?_⟩
  · by_cases hd : d = c
    · subst hd
      simp only [HoldOk, State.put_core, Function.update_self]
    · rw [State.put_core, Function.update_of_ne hd]
      refine (hs.hold d).of_not_holds ?_
      by_contra hne
      exact hd (hs.single d c (Bool.not_eq_false _ ▸ hne) hin)
  · intro h
    cases h
  · have hword : (s.core c).cache.getD s.shared.runCount
        = s.shared.runCount + 1 := by
      rw [hcache]
      rfl
    have hsum := sum_update (fun _ => CoreState.written) s.core c
      { s.core c with isr := .ret ch }
    have hold : (s.core c).written = (s.core c).served := by
      rw [CoreState.written, hpc]
      rfl
    have hnew : ({ s.core c with isr := .ret ch } : CoreState).written
        = (s.core c).served + 1 := rfl
    have hcount := hs.count
    show (s.core c).cache.getD s.shared.runCount
      = ∑ d, (Function.update s.core c
          { s.core c with isr := .ret ch } d).written
    rw [hword]
    omega

/-- The invariant survives every step that meets the condition. -/
theorem runInv_step (hs : RunInv s) (hok : Exclusive s a)
    (h : apply a s = some s') : RunInv s' := by
  obtain ⟨c, x, sh, rfl, hstep⟩ := apply_cases h
  cases hstep with
  | main hidle hm =>
      obtain ⟨hisr, hserved, haborted⟩ := hm.isr_eq
      refine hs.quiet (haborted.trans (hs.noAbort c)) hm.runCount_eq ?_ ?_ ?_
      · unfold HoldOk
        rw [hisr, hidle]
        trivial
      · rw [hisr, hidle]
        rfl
      · simp only [CoreState.written, hisr, hserved]
  | irq hidle hirq =>
      refine hs.quiet (hs.noAbort c) rfl trivial rfl ?_
      simp only [CoreState.written, hidle, IsrPc.wrote]
  | isr hi =>
      have hab := hs.noAbort c
      cases hi with
      | recycleRx hpc | pop hpc =>
          refine hs.quiet hab rfl trivial rfl ?_
          simp only [CoreState.written, hpc, IsrPc.wrote]
      | disable hpc | popNull hpc | push hpc =>
          refine hs.quiet hab rfl (isrLoop_holdOk _ _ _ _)
            (isrLoop_holds _ _) ?_
          show _ + (isrLoop cfg _ _).wrote = _
          rw [isrLoop_wrote, CoreState.written, hpc]
          rfl
      | disableFailed hpc hfail =>
          have hgood := hok.2 (by rw [hpc]; rfl)
          rw [hfail] at hgood
          cases hgood
      | runInv hpc =>
          refine hs.quiet hab rfl rfl rfl ?_
          simp only [CoreState.written, hpc, IsrPc.wrote]
      | runLoad hpc => exact hs.load hpc (hok.1 (by rw [hpc]; rfl))
      | runStore hpc =>
          have hval := hs.hold c
          simp only [HoldOk, hpc] at hval
          refine ⟨s.forall_put _ (P := fun _ y => y.aborted = 0) hab
            hs.noAbort, ?_, hs.single_put ?_, hs.count_put rfl ?_⟩
          · refine s.forall_put _ (P := fun _ => HoldOk s.shared.runCount)
              ?_ hs.hold
            simp only [HoldOk, hval]
          · intro _
            rw [hpc]
            rfl
          · simp only [CoreState.written, hpc, IsrPc.wrote]
      | runWb hpc => exact hs.writeBack hpc
      | ret hpc =>
          refine hs.quiet hab rfl trivial rfl ?_
          simp only [CoreState.written, hpc, IsrPc.wrote]

-- ====================================================== the two bounds

/-- With every handler either ended or on its way to `ret`, the
write-backs lie between the completed handlers and the started ones. -/
theorem RunInv.noLostRound (hs : RunInv s) (hirq : IrqInv s) :
    NoLostRound s := by
  have hlow : completed s ≤ s.shared.runCount := by
    rw [hs.count]
    refine Finset.sum_le_sum fun c _ => ?_
    rw [hs.noAbort c, CoreState.written]
    omega
  have hhigh : s.shared.runCount ≤ completed s + running s := by
    rw [hs.count, completed, running, ← Finset.sum_add_distrib]
    refine Finset.sum_le_sum fun c _ => ?_
    rw [hs.noAbort c, CoreState.written]
    cases (s.core c).isr <;> simp [IsrPc.wrote, IsrPc.active]
  refine ⟨hlow, hhigh, fun hall => ?_⟩
  -- all rounds handled: no core has a second handler to run
  have hidle : running s = 0 := by
    refine Finset.sum_eq_zero fun c _ => ?_
    have hle : ∀ d, (s.core d).served + (s.core d).aborted ≤ 1 := fun d => by
      have := hirq.handlers_le d
      rw [CoreState.handlers] at this
      omega
    have hone := eq_one_of_sum_eq_card _ hle
      (by rw [Fintype.card_fin]; exact hall.ge) c
    have := hirq.handlers_le c
    rw [CoreState.handlers] at this
    omega
  omega

/-- In every run whose handlers load `runCount` one at a time, no
completed round is lost from it. -/
theorem runCount_exact (hone : cfg.OnePass)
    (h : Reachable cfg Exclusive s) : NoLostRound s :=
  (h.invariant runInv_init fun _ _ _ hs hok happ =>
    runInv_step hs hok happ).noLostRound (irqInv_reachable hone h)

/-- One handler at a time: every core serves its round to the end before
core 0 goes on. -/
def servedInTurn : List (Action 4) :=
  boot ++ serve 0 ++ mainRun 0 6 ++ serve 1 ++ mainRun 0 6 ++ serve 2
    ++ mainRun 0 6 ++ serve 3

theorem runCount_exact_board :
    ∃ s : State board, Reachable board Exclusive s ∧ completed s = 4
      ∧ NoLostRound s := by
  obtain ⟨s, hs, hk⟩ :
      ∃ s, Reachable board Exclusive s ∧ completed s = 4 :=
    exists_reach_of_runOk servedInTurn (by decide +kernel)
  exact ⟨s, hs, hk, runCount_exact rfl hs⟩

/-- Core 0 spends two leftover descriptors of round 0 and sends rounds 1
and 2; the handlers of cores 1 and 2 both load before either writes
back. -/
def overlap : List (Action 4) :=
  boot ++ serve 0 ++ mainRun 0 12
    ++ irqRun 1 12 ++ irqRun 2 12 ++ isrRun 1 3 ++ isrRun 2 3

/-- On the board, with every driver call succeeding, two overlapping
increments lose a round: three handlers have completed and the word
says two. -/
theorem runCount_lost :
    ¬ ∀ s, Reachable board DriversOk s → NoLostRound s := by
  obtain ⟨s, hs, hk, hv⟩ : ∃ s, Reachable board DriversOk s
      ∧ completed s = 3 ∧ s.shared.runCount = 2 :=
    exists_reach_of_runOk overlap (by decide +kernel)
  intro hall
  have hle := (hall s hs).1
  omega

end DspCodes.Infra

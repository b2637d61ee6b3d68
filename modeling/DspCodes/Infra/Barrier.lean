/-
The round barrier: a core should leave the sync wait of round `i` with a
descriptor that the handler of round `i` pushed.

# What goes wrong

A round's handler pushes `NUMBER_OF_CORES` descriptors, one for each
core, but nothing on a descriptor says whose it is. A core that is back
at the sync wait before the others have taken theirs takes a leftover,
and is a round ahead of its packets (`barrier_overtaken`). The separate
count and pop have a second hole: two cores that both read a count of one
pop once each, and the second pop is NULL.

# What is proved

`InStep` is the missing half of a barrier: a core takes a descriptor, and
core 0 sends the next round, only when no core is behind it; and no more
cores go on to the pop than descriptors are queued. Then a round's
descriptors are exactly used up before the next round's appear
(`BarrierInv.head_round`), and every wait is left with the right one.
-/
import DspCodes.Infra.Signals

namespace DspCodes.Infra

open Lts Counting

variable {cfg : Config} {ok : Bool} {c : Nat} {x x' : CoreState}
  {sh sh' : Shared} {s s' : State cfg} {a : Action cfg.numCores}

-- ========================================================= the property

/-- Every sync wait was left with a descriptor of its own round, and core
0 diverts and cleans up a round only after the round's packets are
recycled. -/
def RoundBarrier (s : State cfg) : Prop :=
  (∀ c (i : Nat) p, (s.core c).took[i]? = some p → p = some i)
    ∧ ((s.core cfg.core0).main = .divert ∨ (s.core cfg.core0).main = .cleanup →
        (s.core cfg.core0).channel + (s.core cfg.core0).index
          ∈ s.shared.recycled)

-- ======================================================== the condition

/-- The cores about to pop the sync queue. -/
def popping (s : State cfg) : Nat := ∑ c, (s.core c).main.popping

/-- No core has left fewer sync waits than core `c`. -/
def NoneBehind (s : State cfg) (c : Fin cfg.numCores) : Prop :=
  ∀ d, (s.core c).passed ≤ (s.core d).passed

instance (s : State cfg) (c : Fin cfg.numCores) :
    Decidable (NoneBehind s c) := by
  unfold NoneBehind
  infer_instance

/-- Core 0 sends, and a core leaves its polling loop with a non-zero
count, only while no core is behind it, and the latter only while more
descriptors are queued than cores are about to pop. -/
def InStep (s : State cfg) : Action cfg.numCores → Prop
  | .main c _ =>
      ((s.core c).main = .send → NoneBehind s c)
      ∧ ((s.core c).main = .syncWait → s.shared.sync.length ≠ 0 →
          NoneBehind s c ∧ popping s < s.shared.sync.length)
  | _ => True

instance (s : State cfg) :
    (a : Action cfg.numCores) → Decidable (InStep s a)
  | .main _ _ => inferInstanceAs (Decidable (_ ∧ _))
  | .irq _ => isTrue trivial
  | .isr _ _ => isTrue trivial

-- ======================================================== the invariant

/-- The rounds are in step: each core took one descriptor of each round
it has left, no round is sent early, no core about to pop is ahead, and
every core about to pop has a descriptor to pop. -/
structure BarrierInv (s : State cfg) : Prop where
  took : ∀ c, (s.core c).took = (List.range (s.core c).passed).map some
  sent : ∀ c, (s.core cfg.core0).sent ≤ (s.core c).passed + 1
  ahead : ∀ c, (s.core c).main = .syncPop → NoneBehind s c
  room : popping s ≤ s.shared.sync.length
  tags : ∀ e ∈ s.shared.sync, e.channel < (s.core cfg.core0).sent

theorem barrierInv_init (hone : cfg.OnePass) : BarrierInv (init cfg) := by
  have hpos : 0 < cfg.numIteration := hone ▸ cfg.pos
  refine ⟨fun c => rfl, fun c => ?_, fun c h => ?_, ?_, fun e h => ?_⟩
  · simp [init, initCore, CoreState.sent, hpos]
  · simp [init, initCore, hpos] at h
  · simp [init, initCore, initShared, popping, MainPc.popping, hpos]
  · cases h

/-- The head of the queue a core is about to pop is of that core's
round: the earlier rounds are used up, the later ones not sent. -/
theorem BarrierInv.head_round (hs : BarrierInv s) (hirq : IrqInv s)
    (hle : SignalLe s) {c : Fin cfg.numCores} {e : SyncSignal}
    {rest : List SyncSignal} (hpc : (s.core c).main = .syncPop)
    (hsync : s.shared.sync = e :: rest) :
    e.channel = (s.core c).passed := by
  have htag := hs.tags e (by rw [hsync]; exact List.mem_cons_self)
  have hsent := hs.sent c
  by_contra hne
  have hlt : e.channel < (s.core c).passed := by omega
  have hN := (hirq.main c).passed_le
  -- a leftover: all cores have taken one of its round, and it is one more
  have hfull : cfg.numCores ≤ ∑ d, (s.core d).took.count (some e.channel) := by
    have hone : ∀ d, 1 ≤ (s.core d).took.count (some e.channel) := by
      intro d
      have := hs.ahead c hpc d
      rw [Nat.succ_le_iff, List.count_pos_iff, hs.took d]
      exact List.mem_map_of_mem (List.mem_range.mpr (by omega))
    calc cfg.numCores = ∑ _d : Fin cfg.numCores, 1 := by simp
      _ ≤ _ := Finset.sum_le_sum fun d _ => hone d
  have hcount := hle ⟨e.channel, by omega⟩
  have hturn := hirq.turns_le ⟨e.channel, by omega⟩
  have hqueued : 1 ≤ queued e.channel s.shared.sync := by
    rw [hsync, queued_cons]
    simp
  simp only [signals] at hcount
  omega

-- ============================================================== one step

theorem popping_put (s : State cfg) (c : Fin cfg.numCores) (x : CoreState)
    (sh : Shared) :
    popping (s.put c (x, sh)) + (s.core c).main.popping
      = popping s + x.main.popping :=
  sum_update (fun _ y => y.main.popping) s.core c x

theorem popping_keep (s : State cfg) {c : Fin cfg.numCores}
    (r : CoreState × Shared) (hmain : r.1.main = (s.core c).main) :
    popping (s.put c r) = popping s :=
  sum_update_eq (fun _ (y : CoreState) => y.main.popping) s.core
    (congrArg MainPc.popping hmain)

/-- A step that pops nothing. -/
theorem BarrierInv.keep (hs : BarrierInv s) {c : Fin cfg.numCores}
    (htook : x.took = (s.core c).took)
    (hsent : (s.core cfg.core0).sent
      ≤ ((s.put c (x, sh)).core cfg.core0).sent)
    (hnext : ∀ d, ((s.put c (x, sh)).core cfg.core0).sent
      ≤ (s.core d).passed + 1)
    (hahead : x.main = .syncPop → NoneBehind s c)
    (hroom : popping (s.put c (x, sh)) ≤ sh.sync.length)
    (htags : ∀ e ∈ sh.sync, e.channel < (s.core cfg.core0).sent) :
    BarrierInv (s.put c (x, sh)) := by
  have hpassed := s.put_read CoreState.passed (c := c) (x, sh)
    (by simp only [CoreState.passed, htook])
  refine ⟨fun d => ?_, fun d => ?_, fun d hpc e => ?_, hroom,
    fun e he => lt_of_lt_of_le (htags e he) hsent⟩
  · rw [s.put_read CoreState.took (c := c) (x, sh) htook, hpassed]
    exact hs.took d
  · rw [hpassed]
    exact hnext d
  · rw [hpassed, hpassed]
    refine s.forall_put (c := c) (x, sh)
      (P := fun d y => y.main = .syncPop → NoneBehind s d) hahead
      (fun d => hs.ahead d) d hpc e

/-- A step that pops the head of the queue. -/
theorem BarrierInv.pop (hs : BarrierInv s) {c : Fin cfg.numCores}
    {e : SyncSignal} (hpc : (s.core c).main = .syncPop)
    (hpc' : x.main ≠ .syncPop)
    (hsync : s.shared.sync = e :: sh.sync)
    (htook : x.took = (s.core c).took ++ [some (s.core c).passed])
    (hsent : ((s.put c (x, sh)).core cfg.core0).sent
      = (s.core cfg.core0).sent) :
    BarrierInv (s.put c (x, sh)) := by
  have hx : x.passed = (s.core c).passed + 1 := by
    simp only [CoreState.passed, htook, List.length_append,
      List.length_singleton]
  have hpassed : ∀ d, (s.core d).passed
      ≤ ((s.put c (x, sh)).core d).passed :=
    s.forall_put (x, sh) (P := fun d y => (s.core d).passed ≤ y.passed)
      (by rw [hx]; exact Nat.le_succ _) fun _ => Nat.le_refl _
  refine ⟨?_, fun d => ?_, ?_, ?_, fun e' he => ?_⟩
  · refine s.forall_put (x, sh)
      (P := fun _ y => y.took = (List.range y.passed).map some) ?_ hs.took
    rw [htook, hx, List.range_succ, List.map_append, ← hs.took c]
    rfl
  · have := hs.sent d
    have := hpassed d
    omega
  · intro d hd f
    by_cases hdc : d = c
    · subst hdc
      rw [State.put_core, Function.update_self] at hd
      exact absurd hd hpc'
    · have hback := hpassed f
      rw [State.put_core, Function.update_of_ne hdc] at hd ⊢
      exact (hs.ahead d hd f).trans hback
  · have hput := popping_put s c x sh
    have hroom := hs.room
    have hout : x.main.popping = 0 := MainPc.popping_of_ne hpc'
    rw [hpc, hout] at hput
    rw [hsync, List.length_cons] at hroom
    have hin : MainPc.popping .syncPop = 1 := rfl
    show _ ≤ sh.sync.length
    omega
  · rw [hsent]
    exact hs.tags e' (by rw [hsync]; exact List.mem_cons_of_mem _ he)

/-- The handler only adds to the sync queue, and only its own round's. -/
theorem IsrStep.sync_append {c : Nat} (hi : IsrStep cfg ok x sh x' sh')
    (hx : IsrOk cfg c x) :
    ∃ more, sh'.sync = sh.sync ++ more
      ∧ ∀ e ∈ more, e.channel = c := by
  rcases hi.turn_cases hx with
    ⟨hsync, -⟩ | ⟨d, hsync, -⟩ | ⟨-, -, hsync, -⟩
  · exact ⟨[], by rw [hsync, List.append_nil], fun e he => nomatch he⟩
  · refine ⟨[⟨d, c⟩], hsync, fun e he => ?_⟩
    rw [List.mem_singleton.mp he]
  · exact ⟨[], by rw [hsync, List.append_nil], fun e he => nomatch he⟩

/-- Every step that meets the condition keeps the rounds in step. -/
theorem barrierInv_step (hirq : IrqInv s)
    (hle : SignalLe s) (hs : BarrierInv s) (hok : InStep s a)
    (h : apply a s = some s') : BarrierInv s' := by
  have hsent := sent_cases hirq h
  have hnext : ∀ d, (s'.core cfg.core0).sent ≤ (s.core d).passed + 1 := by
    intro d
    rcases hsent with heq | ⟨⟨ok, rfl⟩, hpc, hsucc⟩
    · rw [heq]
      exact hs.sent d
    · have hnone := hok.1 hpc d
      have hzero : (s.core cfg.core0).sent = (s.core cfg.core0).passed := by
        simp only [CoreState.sent, hpc, CoreState.passed]
      omega
  have hmono : (s.core cfg.core0).sent ≤ (s'.core cfg.core0).sent := by
    rcases hsent with heq | ⟨-, -, hsucc⟩ <;> omega
  obtain ⟨c, x, sh, rfl, hstep⟩ := apply_cases h
  cases hstep with
  | main hidle hm =>
      have hput := popping_put s c x sh
      rcases hm.took_cases with
        ⟨hsync, htook⟩ | ⟨hpc, e, hsync, htook⟩ | ⟨hpc, hsync, -, -⟩
      · have hroom := hs.room
        refine hs.keep htook hmono hnext (fun hpc' => ?_) ?_
          (by rw [hsync]; exact hs.tags)
        · obtain ⟨hpc, hlen⟩ := hm.syncPop_cases hpc'
          exact (hok.2 hpc hlen).1
        · rw [hsync]
          by_cases hpc' : x.main = .syncPop
          · obtain ⟨hpc, hlen⟩ := hm.syncPop_cases hpc'
            have hlt := (hok.2 hpc hlen).2
            rw [hpc, hpc'] at hput
            simp only [MainPc.popping] at hput
            omega
          · have hout : x.main.popping = 0 := MainPc.popping_of_ne hpc'
            omega
      · have hround := hs.head_round hirq hle hpc hsync
        refine hs.pop hpc (fun hpc' => ?_) hsync (by rw [htook, hround]) ?_
        · have := (hm.syncPop_cases hpc').1
          rw [hpc] at this
          cases this
        · rcases hsent with heq | ⟨⟨ok, hact⟩, hsend, -⟩
          · exact heq
          · cases hact
            rw [hpc] at hsend
            cases hsend
      · -- a NULL pop: but a core about to pop has a descriptor to pop
        have hroom := hs.room
        have hpos : (s.core c).main.popping ≤ popping s :=
          Finset.single_le_sum (f := fun d => (s.core d).main.popping)
            (fun _ _ => Nat.zero_le _) (Finset.mem_univ c)
        rw [hpc] at hpos
        rw [hsync] at hroom
        exact absurd (hpos.trans hroom) (Nat.not_succ_le_zero 0)
  | irq hidle hch =>
      refine hs.keep rfl hmono hnext (hs.ahead c) ?_ hs.tags
      rw [popping_keep s _ rfl]
      exact hs.room
  | isr hi =>
      obtain ⟨hmain, -, -, htook⟩ := hi.main_eq.1
      obtain ⟨more, hsync, hmore⟩ := hi.sync_append (hirq.isr c)
      have hroom := hs.room
      refine hs.keep htook hmono hnext
        (by rw [hmain]; exact hs.ahead c) ?_ (fun e he => ?_)
      · rw [popping_keep s (x, sh) hmain, hsync, List.length_append]
        omega
      · rw [hsync] at he
        rcases List.mem_append.mp he with he | he
        · exact hs.tags e he
        · rw [hmore e he]
          exact hirq.sent_of_running hi.running

/-- In every run whose steps are in step, every core leaves the sync wait
of a round with a descriptor of that round, and core 0 cleans up only
what its receiver has recycled. -/
theorem barrier_safe (hone : cfg.OnePass) (h : Reachable cfg InStep s) :
    RoundBarrier s := by
  have hirq := irqInv_reachable hone h
  have hs : BarrierInv s :=
    h.invariant' (barrierInv_init hone) fun _ _ _ hr hs hok happ =>
      barrierInv_step (irqInv_reachable hone hr)
        (signalLe_reachable hone hr) hs hok happ
  refine ⟨fun c i p hp => ?_, fun hpc => ?_⟩
  · rw [hs.took c, List.getElem?_map] at hp
    obtain ⟨j, hj, rfl⟩ := Option.map_eq_some_iff.mp hp
    rw [List.getElem?_eq_some_iff] at hj
    obtain ⟨hlt, hget⟩ := hj
    rw [← hget, List.getElem_range]
  · have hmain := hirq.main cfg.core0
    have hround : (s.core cfg.core0).channel = 0
        ∧ (s.core cfg.core0).took.length
          = (s.core cfg.core0).index + 1 := by
      rcases hpc with hpc | hpc <;> simp only [MainOk, hpc] at hmain <;>
        exact ⟨hmain.2.1, hmain.2.2.2⟩
    rw [hround.1, Nat.zero_add]
    refine ((recycleInv_reachable h).core cfg.core0).took _ ?_
    rw [hs.took cfg.core0, CoreState.passed, hround.2]
    exact List.mem_map_of_mem (List.mem_range.mpr (Nat.lt_succ_self _))

/-- Four rounds in lockstep end with every core at its final loop. -/
theorem barrier_safe_board :
    ∃ s : State board, Reachable board InStep s
      ∧ (∀ c, (s.core c).passed = 4) ∧ RoundBarrier s := by
  obtain ⟨s, hs, hpassed⟩ : ∃ s, Reachable board InStep s
      ∧ ∀ c, (s.core c).passed = 4 :=
    exists_reach_of_runOk inStep (by decide +kernel)
  have hone : board.OnePass := rfl
  exact ⟨s, hs, hpassed, barrier_safe hone hs⟩

/-- On the board, with every driver call succeeding, core 1 takes two of
the four descriptors of round 0 and leaves round 1, which core 0 has not
sent. -/
theorem barrier_overtaken :
    ¬ ∀ s, Reachable board DriversOk s → RoundBarrier s := by
  let one : Fin board.numCores := (1 : Fin 4)
  obtain ⟨s, hs, htook⟩ : ∃ s, Reachable board DriversOk s
      ∧ (s.core one).took = [some 0, some 0] :=
    exists_reach_of_runOk (boot ++ serve 0 ++ mainRun 1 5)
      (by decide +kernel)
  intro hall
  have hround := (hall s hs).1 one 1 (some 0) (by rw [htook]; rfl)
  cases hround

end DspCodes.Infra

/-
Deadlock freedom of the rounds: while some core has rounds to go, some
step other than re-reading an unchanged count is possible.

# What goes wrong

Each round's handler hands out `NUMBER_OF_CORES` sync descriptors, and
core 0 needs one of them before it can send the next round. The other
cores are not held back: core 1 may leave four sync waits with the four
descriptors of round 0. Then core 0 polls an empty queue, nobody will
ever push on it again, and no interrupt is outstanding
(`rounds_deadlock`).

# What is proved

`LeavesOne` is the schedule condition: all together, the other cores take
at most `NUMBER_OF_CORES - 1` descriptors for each round core 0 has sent,
so one of every round is core 0's. Under it no reachable state is stuck.
The proof is a count: in a stuck state every sent round has been served
in full, the sync queue is empty, so all its descriptors were taken, and
the other cores cannot have taken them all.

Two facts about the configuration enter. `registerHiInterrupt` compares
with a remainder of 4, so a fifth core never gets through it; and the
sync-free queue has to start with enough descriptors that no pop of it
is NULL (32 are, for up to four cores).
-/
import DspCodes.Infra.CfgBarrier
import DspCodes.Infra.Signals

namespace DspCodes.Infra

open Lts Counting

variable {cfg : Config} {ok : Bool} {c : Nat} {x x' : CoreState}
  {sh sh' : Shared} {s s' : State cfg} {a : Action cfg.numCores}

-- ========================================================= the property

/-- The driver call of the action succeeds. -/
def Action.good {n : Nat} : Action n → Bool
  | .main _ ok | .isr _ ok => ok
  | .irq _ => true

/-- The action is not a re-read of an unchanged count, nor a turn of the
final loop of a core that has no rounds to go. -/
def Advances (s : State cfg) : Action cfg.numCores → Prop
  | .main c _ => (s.core c).main.leftRounds = false
      ∧ ((s.core c).main = .cfgWait →
          s.shared.syncCfg.length = cfg.numCores - 1)
      ∧ ((s.core c).main = .syncWait → s.shared.sync.length ≠ 0)
  | _ => True

/-- Some core can do more than poll. -/
def Progress (s : State cfg) : Prop :=
  ∃ a s', a.good = true ∧ Advances s a ∧ apply a s = some s'

/-- Some core has rounds to go. -/
def RoundsLeft (s : State cfg) : Prop :=
  ∃ c, (s.core c).main.leftRounds = false

-- ======================================================== the condition

/-- What a core other than 0 has taken of the sync queue or is about to
take. -/
def takes (c : Nat) (x : CoreState) : Nat :=
  if c = SYSINIT then 0 else x.passed + x.main.popping

/-- What the cores other than 0 have taken or are about to take. -/
def othersTake (s : State cfg) : Nat :=
  ∑ c : Fin cfg.numCores, takes c (s.core c)

/-- Every driver call succeeds; and a core other than 0 leaves its
polling loop with a non-zero count only while these cores, all together,
have taken less than their `NUMBER_OF_CORES - 1` descriptors per round
sent. -/
def LeavesOne (s : State cfg) (a : Action cfg.numCores) : Prop :=
  a.good = true ∧
    match a with
    | .main c _ => c ≠ cfg.core0 → (s.core c).main = .syncWait →
        s.shared.sync.length ≠ 0 →
        othersTake s < (cfg.numCores - 1) * (s.core cfg.core0).sent
    | _ => True

instance (s : State cfg) :
    (a : Action cfg.numCores) → Decidable (LeavesOne s a)
  | .main _ _ => inferInstanceAs (Decidable (_ ∧ (_ → _ → _ → _)))
  | .irq _ => inferInstanceAs (Decidable (_ ∧ True))
  | .isr _ _ => inferInstanceAs (Decidable (_ ∧ True))

/-- The descriptors are enough for every round and for the configuration
step. -/
def Config.EnoughDesc (cfg : Config) : Prop :=
  cfg.numCores * cfg.numCores + (cfg.numCores - 1) ≤ cfg.numSyncDesc

/-- The board has enough. -/
theorem board_enoughDesc : board.EnoughDesc := by
  show 4 * 4 + (4 - 1) ≤ 32
  omega

-- ================================== the sync-free queue never runs dry

/-- One while a handler carries a sync descriptor. -/
def IsrPc.carrying : IsrPc → Nat
  | .syncPush _ _ _ => 1
  | _ => 0

/-- One once `main` is past its configuration pop. -/
def MainPc.drew : MainPc → Nat
  | .hookup | .cfgWait | .cfgPop => 0
  | _ => 1

/-- What a core has drawn from the sync-free queue at most. -/
def drawn (n c : Nat) (x : CoreState) : Nat :=
  x.turns n + x.isr.carrying + if c = SYSINIT then 0 else x.main.drew

/-- What is gone from the sync-free queue was drawn by some core. -/
def FreeInv (s : State cfg) : Prop :=
  cfg.numSyncDesc ≤ s.shared.syncFree.length
    + ∑ c : Fin cfg.numCores, drawn cfg.numCores c (s.core c)

theorem isrLoop_carrying (ch i : Nat) :
    (isrLoop cfg ch i).carrying = 0 := by
  unfold isrLoop
  split_ifs <;> rfl

theorem drew_of_configured {pc : MainPc} (h : pc.configured = true) :
    pc.drew = 1 := by
  cases pc <;> simp [MainPc.configured, MainPc.drew] at h ⊢

theorem drew_le (pc : MainPc) : pc.drew ≤ 1 := by
  cases pc <;> simp [MainPc.drew]

/-- A step of `main` takes from the sync-free queue no more than it adds
to the core's draws. -/
theorem MainStep.drawn_ge (hone : cfg.OnePass)
    (h : MainStep cfg c ok x sh x' sh') (hx : MainOk cfg c x) :
    sh.syncFree.length + drawn cfg.numCores c x
      ≤ sh'.syncFree.length + drawn cfg.numCores c x' := by
  obtain ⟨hisr, hserved, -⟩ := h.isr_eq
  have hturn : x'.turns cfg.numCores = x.turns cfg.numCores := by
    simp only [CoreState.turns, hisr, hserved]
  unfold drawn
  rw [hturn, hisr]
  by_cases hc : c = SYSINIT
  · simp only [if_pos hc]
    have hfree : sh.syncFree.length ≤ sh'.syncFree.length := by
      cases h with
      | cfgPop hpc =>
          simp only [MainOk, hpc] at hx
          exact absurd hc hx.1
      | recycle => simp
      | _ => exact Nat.le_refl _
    omega
  · simp only [if_neg hc]
    by_cases hin : x.main.configured = true
    · rw [drew_of_configured hin,
        drew_of_configured (h.configured_mono hone hx hc hin)]
      have hfree : sh.syncFree.length ≤ sh'.syncFree.length := by
        cases h with
        | cfgPop hpc =>
            rw [hpc] at hin
            cases hin
        | recycle => simp
        | _ => exact Nat.le_refl _
      omega
    · have hdraw : sh.syncFree.length + x.main.drew
          ≤ sh'.syncFree.length + x'.main.drew := by
        cases h with
        | @cfgPop d rest hpc hfree =>
            rw [hfree, hpc]
            simp [MainPc.drew]
        | hooked hpc | hookFailed hpc | cfgPopNull hpc =>
            rw [hpc]
            simp [MainPc.drew]
        | cfgPass hpc =>
            simp only [MainOk, hpc] at hx
            exact absurd hx.1 hc
        | cfgPush hpc =>
            simp only [MainOk, hpc] at hx
            have hconf : (roundHead cfg c { x with index := 0 }).main.configured
                = true := roundHead_configured hone hx.2.1
            rw [drew_of_configured hconf, hpc]
            simp [MainPc.drew]
        | cfgPoll | poll => exact Nat.le_refl _
        | send hpc | sendFailed hpc | signal hpc | pop hpc | popNull hpc
        | recycle hpc | divert hpc | cleanup hpc | runInv hpc | runWait hpc
        | runDone hpc | exitCall hpc | exitDone hpc =>
            rw [hpc] at hin
            exact absurd rfl hin
      omega

/-- A step of the handler takes from the sync-free queue no more than it
adds to the core's draws. -/
theorem IsrStep.drawn_ge (h : IsrStep cfg ok x sh x' sh')
    (hx : IsrOk cfg c x) :
    sh.syncFree.length + drawn cfg.numCores c x
      ≤ sh'.syncFree.length + drawn cfg.numCores c x' := by
  have hmain := h.main_eq.1.1
  unfold drawn
  rw [hmain]
  have hdraw : sh.syncFree.length + (x.turns cfg.numCores + x.isr.carrying)
      ≤ sh'.syncFree.length
        + (x'.turns cfg.numCores + x'.isr.carrying) := by
    cases h with
    | @pop ch i d rest hpc hfree =>
        simp only [hfree, CoreState.turns, hpc, IsrPc.turns, IsrPc.carrying,
          List.length_cons]
        omega
    | @push ch i d hpc =>
        simp only [IsrOk, hpc] at hx
        show _ ≤ _ + (_ + (isrLoop cfg ch (i + 1)).turns _
          + (isrLoop cfg ch (i + 1)).carrying)
        rw [isrLoop_turns hx.2, isrLoop_carrying, CoreState.turns, hpc]
        simp only [IsrPc.turns, IsrPc.carrying]
        omega
    | @popNull ch i hpc =>
        simp only [IsrOk, hpc] at hx
        show _ ≤ _ + (_ + (isrLoop cfg ch (i + 1)).turns _
          + (isrLoop cfg ch (i + 1)).carrying)
        rw [isrLoop_turns hx.2, isrLoop_carrying, CoreState.turns, hpc]
        simp only [IsrPc.turns, IsrPc.carrying]
        omega
    | @disable ch hpc =>
        show _ ≤ _ + (_ + (isrLoop cfg ch 0).turns _
          + (isrLoop cfg ch 0).carrying)
        rw [isrLoop_turns (Nat.zero_le _), isrLoop_carrying,
          CoreState.turns, hpc]
        simp only [IsrPc.turns, IsrPc.carrying]
        omega
    | ret hpc =>
        simp only [CoreState.turns, hpc, IsrPc.turns, IsrPc.carrying,
          Nat.succ_mul]
        omega
    | recycleRx hpc | disableFailed hpc | runInv hpc | runLoad hpc
    | runStore hpc | runWb hpc =>
        simp only [CoreState.turns, hpc, IsrPc.turns, IsrPc.carrying]
        omega
  omega

theorem freeInv_put (hs : FreeInv s) {c : Fin cfg.numCores}
    (hle : s.shared.syncFree.length + drawn cfg.numCores c (s.core c)
      ≤ sh.syncFree.length + drawn cfg.numCores c x) :
    FreeInv (s.put c (x, sh)) := by
  have hsum := sum_update
    (fun d : Fin cfg.numCores => drawn cfg.numCores d) s.core c x
  unfold FreeInv at hs ⊢
  simp only [State.put_core, State.put_shared]
  omega

theorem freeInv_reachable (hone : cfg.OnePass)
    {ok : State cfg → Action cfg.numCores → Prop} (h : Reachable cfg ok s) :
    FreeInv s := by
  refine h.invariant' ?_ ?_
  · unfold FreeInv
    simp [init, initShared]
  · intro s a s' hr hs _ happ
    have hirq := irqInv_reachable hone hr
    obtain ⟨c, x, sh, rfl, hstep⟩ := apply_cases happ
    cases hstep with
    | main hidle hm => exact freeInv_put hs (hm.drawn_ge hone (hirq.main c))
    | irq hidle hch =>
        refine freeInv_put hs (Nat.le_of_eq ?_)
        simp only [drawn, CoreState.turns, hidle, IsrPc.turns,
          IsrPc.carrying]
    | isr hi => exact freeInv_put hs (hi.drawn_ge (hirq.isr c))

/-- A core's draws against its share: a descriptor for each turn of its
one handler, and one for the configuration step. -/
theorem IrqInv.drawn_le (hs : IrqInv s) (c : Fin cfg.numCores) :
    drawn cfg.numCores c (s.core c) + (if (s.core c).isr.pops then 1 else 0)
      ≤ cfg.numCores + if c.val = SYSINIT then 0 else (s.core c).main.drew := by
  have hle := hs.handlers_le c
  have hturn := hs.turns_le c
  have hisr := hs.isr c
  unfold CoreState.handlers at hle
  unfold CoreState.turns at hturn
  unfold IsrOk at hisr
  unfold drawn CoreState.turns
  cases hpc : (s.core c).isr with
  | syncPop ch i | syncPush ch i =>
      simp only [hpc, IsrPc.active] at hle hisr
      have hserved : (s.core c).served = 0 := by omega
      simp only [hserved, IsrPc.turns, IsrPc.carrying, IsrPc.pops,
        Bool.false_eq_true, if_true, if_false]
      omega
  | _ =>
      rw [hpc] at hturn
      simp only [IsrPc.turns, IsrPc.carrying, IsrPc.pops,
        Bool.false_eq_true, if_false] at hturn ⊢
      omega

/-- The shares of all cores. -/
theorem shares_sum (cfg : Config) :
    ∑ c : Fin cfg.numCores,
        (cfg.numCores + if c.val = SYSINIT then 0 else 1)
      = cfg.numCores * cfg.numCores + (cfg.numCores - 1) := by
  have hpos := cfg.pos
  have hzero : ∑ c : Fin cfg.numCores, (if c.val < 1 then 1 else 0) = 1 * 1 :=
    sum_fin_lt 1 hpos
  have hall : ∑ c : Fin cfg.numCores,
      ((if c.val = SYSINIT then 0 else 1) + if c.val < 1 then 1 else 0)
        = cfg.numCores := by
    rw [Finset.sum_congr rfl (g := fun _ => 1) (fun c _ => ?_)]
    · simp
    · by_cases hc : c.val = SYSINIT
      · rw [if_pos hc, if_pos (Nat.lt_one_iff.mpr hc)]
      · rw [if_neg hc, if_neg (fun h => hc (Nat.lt_one_iff.mp h))]
  rw [Finset.sum_add_distrib] at hall ⊢
  rw [Finset.sum_const, Finset.card_univ, Fintype.card_fin, smul_eq_mul]
  omega

/-- With enough descriptors, a core that is short of its share finds the
sync-free queue non-empty. -/
theorem FreeInv.nonempty (hs : FreeInv s) (hirq : IrqInv s)
    (hdesc : cfg.EnoughDesc) {c : Fin cfg.numCores}
    (hshort : drawn cfg.numCores c (s.core c)
      < cfg.numCores + if c.val = SYSINIT then 0 else 1) :
    s.shared.syncFree ≠ [] := by
  intro hnil
  have hlt := sum_lt_of_le
    (fun d : Fin cfg.numCores => drawn cfg.numCores d (s.core d))
    (fun d => cfg.numCores + if d.val = SYSINIT then 0 else 1)
    (fun d => ?_) hshort
  · unfold FreeInv at hs
    unfold Config.EnoughDesc at hdesc
    rw [hnil, List.length_nil] at hs
    rw [shares_sum] at hlt
    omega
  · have hd := hirq.drawn_le d
    have hdrew := drew_le (s.core d).main
    by_cases h0 : d.val = SYSINIT
    · simp only [if_pos h0] at hd ⊢
      omega
    · simp only [if_neg h0] at hd ⊢
      omega

/-- No handler pops NULL. -/
theorem feedsTurns_reachable (hone : cfg.OnePass) (hdesc : cfg.EnoughDesc)
    {ok : State cfg → Action cfg.numCores → Prop} (h : Reachable cfg ok s) :
    FeedsTurns s a := by
  have hirq := irqInv_reachable hone h
  cases a with
  | main | irq => trivial
  | isr c r =>
      intro hpops
      refine (freeInv_reachable hone h).nonempty hirq hdesc (c := c) ?_
      have hd := hirq.drawn_le c
      have hdrew := drew_le (s.core c).main
      rw [if_pos hpops] at hd
      by_cases h0 : c.val = SYSINIT
      · simp only [if_pos h0] at hd ⊢
        omega
      · simp only [if_neg h0] at hd ⊢
        omega

/-- No configuration pop returns NULL. -/
theorem cfgPop_fed (hone : cfg.OnePass) (hdesc : cfg.EnoughDesc)
    {ok : State cfg → Action cfg.numCores → Prop} (h : Reachable cfg ok s)
    {c : Fin cfg.numCores} (hpc : (s.core c).main = .cfgPop) :
    s.shared.syncFree ≠ [] := by
  have hirq := irqInv_reachable hone h
  refine (freeInv_reachable hone h).nonempty hirq hdesc (c := c) ?_
  have hd := hirq.drawn_le c
  have hmain := hirq.main c
  simp only [MainOk, hpc] at hmain
  rw [if_neg hmain.1, hpc] at hd
  rw [if_neg hmain.1]
  simp only [MainPc.drew] at hd
  omega

-- ================================================== no core gives up

/-- With its driver calls succeeding, `main` of one of the first four
cores never returns early. -/
theorem MainStep.live (h : MainStep cfg c true x sh x' sh')
    (hx : MainOk cfg c x) (hc : c < 4) (hin : x.main ≠ .returned) :
    x'.main ≠ .returned := by
  cases h with
  | hookFailed hpc hreg =>
      simp only [MainOk, hpc] at hx
      rw [hx.1, registerHiInterrupt_lt cfg.base hc] at hreg
      cases hreg
  | sendFailed hpc hok => cases hok
  | cfgPoll | poll => exact hin
  | hooked | runDone =>
      intro hret
      split_ifs at hret
  | cfgPass | cfgPopNull | cfgPush | cleanup =>
      intro hret
      simp only [roundHead] at hret
      split_ifs at hret
  | popNull | recycle =>
      intro hret
      simp only [afterSync, roundHead] at hret
      split_ifs at hret
  | cfgPop | send | signal | pop | divert | runInv | runWait | exitCall
  | exitDone =>
      intro hret
      cases hret

/-- With its driver calls succeeding, no handler gives up. -/
theorem IsrStep.aborted_eq (h : IsrStep cfg true x sh x' sh') :
    x'.aborted = x.aborted := by
  cases h with
  | disableFailed hpc hok => cases hok
  | _ => rfl

/-- Every core runs on. -/
def Live (s : State cfg) : Prop :=
  ∀ c, (s.core c).main ≠ .returned ∧ (s.core c).aborted = 0

theorem live_step (hfour : cfg.numCores ≤ 4) (hirq : IrqInv s)
    (hs : Live s) (hgood : a.good = true) (h : apply a s = some s') :
    Live s' := by
  obtain ⟨c, x, sh, rfl, hstep⟩ := apply_cases h
  obtain ⟨hret, habort⟩ := hs c
  refine s.forall_put (x, sh)
    (P := fun _ y => y.main ≠ .returned ∧ y.aborted = 0) ?_ hs
  cases hstep with
  | main hidle hm =>
      subst hgood
      exact ⟨hm.live (hirq.main c) (by omega) hret,
        hm.isr_eq.2.2.trans habort⟩
  | irq => exact ⟨hret, habort⟩
  | isr hi =>
      subst hgood
      exact ⟨by rw [hi.main_eq.1.1]; exact hret, hi.aborted_eq.trans habort⟩

-- ===================================== no configuration push is missing

/-- A step of `main` that pops no NULL adds to the core's share no more
than to the sync-cfg queue. -/
theorem MainStep.cfg_ge (h : MainStep cfg c ok x sh x' sh')
    (hx : MainOk cfg c x) (hfed : x.main = .cfgPop → sh.syncFree ≠ []) :
    sh.syncCfg.length + cfgShare c x'
      ≤ sh'.syncCfg.length + cfgShare c x := by
  have hle := cfgShare_le c x'
  cases h with
  | cfgPush hpc =>
      rw [List.length_append, List.length_singleton]
      omega
  | cfgPopNull hpc hfree => exact absurd hfree (hfed hpc)
  | cfgPass hpc =>
      simp only [MainOk, hpc] at hx
      rw [cfgShare, if_pos hx.1, cfgShare, if_pos hx.1]
  | hooked hpc =>
      by_cases hc : c = SYSINIT
      · simp only [cfgShare, if_pos hc]
        exact Nat.le_refl _
      · simp only [cfgShare, if_neg hc]
        exact Nat.le_add_right _ _
  | hookFailed hpc | cfgPop hpc | sendFailed hpc =>
      by_cases hc : c = SYSINIT
      · simp only [cfgShare, if_pos hc]
        exact Nat.le_refl _
      · simp only [cfgShare, if_neg hc]
        exact Nat.le_add_right _ _
  | cfgPoll | poll => exact Nat.le_refl _
  | send hpc | signal hpc | pop hpc | popNull hpc | recycle hpc
  | divert hpc | cleanup hpc | runInv hpc | runWait hpc | runDone hpc
  | exitCall hpc | exitDone hpc =>
      have hone := cfgShare_configured c (x := x) (by rw [hpc]; rfl)
      exact Nat.add_le_add_left (hle.trans hone.ge) _

/-- Every configured core is in the count core 0 waits for. -/
def CfgGe (s : State cfg) : Prop :=
  ∑ c : Fin cfg.numCores, cfgShare c (s.core c)
    ≤ s.shared.syncCfg.length + 1

theorem cfgGe_init (hone : cfg.OnePass) : CfgGe (init cfg) := by
  have hpos : 0 < cfg.numIteration := hone ▸ cfg.pos
  have hzero := sum_fin_lt (n := cfg.numCores) (k := 1) 1 cfg.pos
  unfold CfgGe
  rw [Finset.sum_congr rfl (g := fun c => if c.val < 1 then 1 else 0)
    (fun c _ => ?_), hzero]
  · exact Nat.le_add_left _ _
  · simp only [init, initCore, cfgShare, hpos, if_true,
      MainPc.configured]
    by_cases hc : c.val = SYSINIT
    · rw [if_pos hc, if_pos (Nat.lt_one_iff.mpr hc)]
    · rw [if_neg hc, if_neg (fun h => hc (Nat.lt_one_iff.mp h))]
      rfl

theorem cfgGe_step (hirq : IrqInv s) (hs : CfgGe s)
    (hfed : ∀ c, (s.core c).main = .cfgPop → s.shared.syncFree ≠ [])
    (h : apply a s = some s') : CfgGe s' := by
  obtain ⟨c, x, sh, rfl, hstep⟩ := apply_cases h
  have hsum := sum_update (fun d : Fin cfg.numCores => cfgShare d)
    s.core c x
  unfold CfgGe at hs ⊢
  simp only [State.put_core, State.put_shared]
  cases hstep with
  | main hidle hm =>
      have := hm.cfg_ge (hirq.main c) (hfed c)
      omega
  | irq => exact (Nat.add_right_cancel hsum).trans_le hs
  | isr hi =>
      have hshare : cfgShare c x = cfgShare c (s.core c) := by
        unfold cfgShare
        rw [hi.main_eq.1.1]
      rw [hi.syncCfg_eq]
      omega

theorem cfgGe_reachable (hone : cfg.OnePass) (hdesc : cfg.EnoughDesc)
    {ok : State cfg → Action cfg.numCores → Prop} (h : Reachable cfg ok s) :
    CfgGe s :=
  h.invariant' (cfgGe_init hone) fun _ _ _ hr hs _ happ =>
    cfgGe_step (irqInv_reachable hone hr) hs
      (fun _ => cfgPop_fed hone hdesc hr) happ

-- ============================================ one of every round is left

/-- The cores other than 0 have taken at most `NUMBER_OF_CORES - 1`
descriptors per round sent. -/
def OneLeft (s : State cfg) : Prop :=
  othersTake s ≤ (cfg.numCores - 1) * (s.core cfg.core0).sent

theorem oneLeft_step (hirq : IrqInv s) (hs : OneLeft s)
    (hok : LeavesOne s a) (h : apply a s = some s') : OneLeft s' := by
  have hmono : (s.core cfg.core0).sent ≤ (s'.core cfg.core0).sent := by
    rcases sent_cases hirq h with heq | ⟨-, -, hsucc⟩ <;> omega
  have hmul := Nat.mul_le_mul_left (cfg.numCores - 1) hmono
  obtain ⟨c, x, sh, rfl, hstep⟩ := apply_cases h
  have hsum := sum_update (fun d : Fin cfg.numCores => takes d) s.core c x
  have hput : othersTake (s.put c (x, sh)) + takes c (s.core c)
      = othersTake s + takes c x := hsum
  unfold OneLeft at hs ⊢
  -- it is enough that the core takes no more, or that the guard held
  suffices hle : takes c x ≤ takes c (s.core c)
      ∨ (takes c x ≤ takes c (s.core c) + 1 ∧ othersTake s
          < (cfg.numCores - 1) * (s.core cfg.core0).sent) by
    rcases hle with hle | ⟨hle, hlt⟩ <;> omega
  unfold takes
  by_cases hc : c.val = SYSINIT
  · simp only [if_pos hc]
    exact .inl (Nat.le_refl _)
  · simp only [if_neg hc]
    cases hstep with
    | main hidle hm =>
        by_cases hpc' : x.main = .syncPop
        · obtain ⟨hpc, hlen⟩ := hm.syncPop_cases hpc'
          refine .inr ⟨?_, hok.2 (fun h => hc (by rw [h]; rfl)) hpc hlen⟩
          rcases hm.took_cases with
            ⟨-, htook⟩ | ⟨hpop, -⟩ | ⟨hpop, -⟩
          · simp only [CoreState.passed, htook, hpc', hpc, MainPc.popping]
            omega
          · rw [hpc] at hpop
            cases hpop
          · rw [hpc] at hpop
            cases hpop
        · have hout : x.main.popping = 0 := MainPc.popping_of_ne hpc'
          refine .inl ?_
          rcases hm.took_cases with
            ⟨-, htook⟩ | ⟨hpop, e, -, htook⟩ | ⟨hpop, -, -, htook⟩
          · simp only [CoreState.passed, htook, hout]
            omega
          · rw [hout]
            simp [CoreState.passed, htook, hpop, MainPc.popping]
          · rw [hout]
            simp [CoreState.passed, htook, hpop, MainPc.popping]
    | irq => exact .inl (Nat.le_refl _)
    | isr hi =>
        obtain ⟨hmain, -, -, htook⟩ := hi.main_eq.1
        refine .inl (Nat.le_of_eq ?_)
        simp only [CoreState.passed, hmain, htook]

/-- What a run that meets the condition keeps. -/
structure ProgressInv (s : State cfg) : Prop where
  live : Live s
  cfg : CfgGe s
  oneLeft : OneLeft s

theorem progressInv_init (hone : cfg.OnePass) : ProgressInv (init cfg) := by
  have hpos : 0 < cfg.numIteration := hone ▸ cfg.pos
  refine ⟨fun c => ⟨?_, rfl⟩, cfgGe_init hone, ?_⟩
  · simp [init, initCore, hpos]
  · simp [OneLeft, othersTake, takes, init, initCore, CoreState.passed,
      MainPc.popping, hpos]

theorem progressInv_reachable (hone : cfg.OnePass)
    (hfour : cfg.numCores ≤ 4) (hdesc : cfg.EnoughDesc)
    (h : Reachable cfg LeavesOne s) : ProgressInv s := by
  refine h.invariant' (progressInv_init hone) ?_
  intro s a s' hr hs hok happ
  have hirq := irqInv_reachable hone hr
  exact ⟨live_step hfour hirq hs.live hok.1 happ,
    cfgGe_step hirq hs.cfg (fun _ => cfgPop_fed hone hdesc hr) happ,
    oneLeft_step hirq hs.oneLeft hok happ⟩

-- ======================================================= a stuck state

/-- In a state without progress every handler is idle, no interrupt is
outstanding, and every core with rounds to go polls in vain. -/
theorem stuck_cases (hlive : Live s) (hstuck : ¬ Progress s) :
    (∀ c, (s.core c).isr = .idle)
      ∧ (∀ c : Fin cfg.numCores, s.shared.irq c = [])
      ∧ ∀ c, (s.core c).main.leftRounds = false →
          ((s.core c).main = .cfgWait
              ∧ s.shared.syncCfg.length ≠ cfg.numCores - 1)
            ∨ ((s.core c).main = .syncWait ∧ s.shared.sync.length = 0) := by
  have hidle : ∀ c, (s.core c).isr = .idle := by
    intro c
    by_contra hrun
    obtain ⟨r, hr⟩ := isrStep_isSome cfg true (s.core c) s.shared hrun
    refine hstuck ⟨.isr c true, s.put c r, rfl, trivial, ?_⟩
    simp only [apply, hr, Option.map_some]
  refine ⟨hidle, fun c => ?_, fun c hin => ?_⟩
  · cases hirq : s.shared.irq c with
    | nil => rfl
    | cons ch rest =>
        have happ : apply (.irq c) s = some (s.put c
            ({ s.core c with isr := .recycleRx ch }, { s.shared with
              irq := Function.update s.shared.irq c rest })) := by
          simp only [apply, hidle c, if_true, takeIrq, hirq, Option.map_some]
        exact absurd ⟨.irq c, _, rfl, trivial, happ⟩ hstuck
  · obtain ⟨r, hr⟩ := mainStep_isSome cfg c true (s.core c) s.shared
      (by intro hfin; rw [hfin] at hin; cases hin) (hlive c).1
    have happ : apply (.main c true) s = some (s.put c r) := by
      simp only [apply, hidle c, if_true, hr, Option.map_some]
    by_contra hnot
    refine hstuck ⟨.main c true, s.put c r, rfl, ⟨hin, ?_, ?_⟩, happ⟩
    · intro hpc
      by_contra hne
      exact hnot (.inl ⟨hpc, hne⟩)
    · intro hpc hzero
      exact hnot (.inr ⟨hpc, hzero⟩)

/-- With no handler under way, the turns are those of the rounds sent. -/
theorem turns_sum (hirq : IrqInv s) (hlive : Live s)
    (hidle : ∀ c, (s.core c).isr = .idle)
    (hnone : ∀ c : Fin cfg.numCores, s.shared.irq c = [])
    (hsent : (s.core cfg.core0).sent ≤ cfg.numCores) :
    ∑ c, (s.core c).turns cfg.numCores
      = (s.core cfg.core0).sent * cfg.numCores := by
  rw [← sum_fin_lt cfg.numCores hsent]
  refine Finset.sum_congr rfl fun c _ => ?_
  have hcount := hirq.count c
  rw [hnone c, CoreState.handlers, hidle c, (hlive c).2] at hcount
  simp only [List.length_nil, IsrPc.active] at hcount
  rw [CoreState.turns, hidle c]
  by_cases hlt : c.val < (s.core cfg.core0).sent
  · rw [if_pos hlt] at hcount ⊢
    have hserved : (s.core c).served = 1 := by omega
    rw [hserved, Nat.one_mul]
    rfl
  · rw [if_neg hlt] at hcount ⊢
    have hserved : (s.core c).served = 0 := by omega
    rw [hserved, Nat.zero_mul]
    rfl

/-- With the sync queue empty, every descriptor of every round was
popped, and there are no more pops than waits left. -/
theorem turns_le_passed (hge : SignalGe s)
    (hempty : s.shared.sync.length = 0) :
    ∑ c, (s.core c).turns cfg.numCores ≤ ∑ c, (s.core c).passed := by
  have hnil : s.shared.sync = [] := List.eq_nil_of_length_eq_zero hempty
  calc ∑ c, (s.core c).turns cfg.numCores
      ≤ ∑ c : Fin cfg.numCores, signals s c :=
        Finset.sum_le_sum fun c _ => hge c
    _ = ∑ c : Fin cfg.numCores, ∑ d, (s.core d).took.count (some c.val) := by
        refine Finset.sum_congr rfl fun c _ => ?_
        simp [signals, queued, hnil]
    _ = ∑ d, ∑ c : Fin cfg.numCores, (s.core d).took.count (some c.val) :=
        Finset.sum_comm
    _ ≤ ∑ d, (s.core d).passed := by
        refine Finset.sum_le_sum fun d _ => ?_
        exact sum_count_le_length (fun c : Fin cfg.numCores => some c.val)
          (fun _ _ h => Fin.ext (Option.some.inj h)) _

/-- The waits left are core 0's and the other cores'. -/
theorem passed_sum_le (s : State cfg) :
    ∑ c, (s.core c).passed ≤ (s.core cfg.core0).passed + othersTake s := by
  have hsplit : ∀ c : Fin cfg.numCores, (s.core c).passed
      ≤ (if cfg.core0 = c then (s.core c).passed else 0)
        + takes c (s.core c) := by
    intro c
    unfold takes
    by_cases hc : cfg.core0 = c
    · rw [if_pos hc]
      exact Nat.le_add_right _ _
    · have hne : c.val ≠ SYSINIT := fun h => hc (Fin.ext h.symm)
      rw [if_neg hc, if_neg hne]
      omega
  refine (Finset.sum_le_sum fun c _ => hsplit c).trans ?_
  rw [Finset.sum_add_distrib, Finset.sum_ite_eq]
  simp [othersTake]

/-- Core 0 does not wait in the configuration step of a stuck state: the
count it waits for is there, or some core can still add to it. -/
theorem configured_of_stuck (hirq : IrqInv s) (hcfg : CfgInv s)
    (hs : ProgressInv s) (hstuck : ¬ Progress s) :
    (s.core cfg.core0).main ≠ .cfgWait := by
  obtain ⟨-, -, hpoll⟩ := stuck_cases hs.live hstuck
  intro hpc
  have hne : s.shared.syncCfg.length ≠ cfg.numCores - 1 := by
    rcases hpoll cfg.core0 (by rw [hpc]; rfl) with ⟨-, hne⟩ | ⟨hwait, -⟩
    · exact hne
    · rw [hpc] at hwait
      cases hwait
  obtain ⟨d, -, hd⟩ : ∃ d ∈ Finset.univ,
      cfgShare d.val (s.core d) < 1 := by
    refine Finset.exists_lt_of_sum_lt ?_
    have hle := hcfg.le
    have hge := hs.cfg
    have hcard : ∑ c : Fin cfg.numCores, cfgShare c (s.core c)
        ≤ ∑ _c : Fin cfg.numCores, 1 :=
      Finset.sum_le_sum fun c _ => cfgShare_le c _
    have hconst : ∑ _c : Fin cfg.numCores, 1 = cfg.numCores := by simp
    unfold CfgGe at hge
    omega
  have hd0 : d.val ≠ SYSINIT := by
    intro h0
    rw [cfgShare, if_pos h0] at hd
    omega
  have hout : (s.core d).main.configured = false := by
    cases hin : (s.core d).main.configured with
    | false => rfl
    | true =>
        rw [cfgShare_configured d hin] at hd
        omega
  have hleft : (s.core d).main.leftRounds = false := by
    cases hdpc : (s.core d).main <;>
      simp [hdpc, MainPc.configured, MainPc.leftRounds] at hout ⊢
  rcases hpoll d hleft with ⟨hwait, -⟩ | ⟨hwait, -⟩
  · have hmain := hirq.main d
    simp only [MainOk, hwait] at hmain
    exact hd0 hmain.1
  · rw [hwait] at hout
    cases hout

/-- No state of a run that meets the condition is stuck before every core
has completed its rounds. -/
theorem rounds_progress (hone : cfg.OnePass) (hfour : cfg.numCores ≤ 4)
    (hdesc : cfg.EnoughDesc) (h : Reachable cfg LeavesOne s)
    (hleft : RoundsLeft s) : Progress s := by
  by_contra hstuck
  have hirq := irqInv_reachable hone h
  have hs := progressInv_reachable hone hfour hdesc h
  obtain ⟨hidle, hnone, hpoll⟩ := stuck_cases hs.live hstuck
  have hcfg := configured_of_stuck hirq (cfgInv_reachable hone h) hs hstuck
  have hmain0 := hirq.main cfg.core0
  -- the unfinished core waits on the empty sync queue
  obtain ⟨c, hc⟩ := hleft
  obtain ⟨hwait, hempty⟩ : (s.core c).main = .syncWait
      ∧ s.shared.sync.length = 0 := by
    rcases hpoll c hc with ⟨hwait, -⟩ | hwait
    · have hmain := hirq.main c
      simp only [MainOk, hwait] at hmain
      have h0 : c = cfg.core0 := Fin.ext hmain.1
      exact absurd (h0 ▸ hwait) hcfg
    · exact hwait
  have hge := signalGe_reachable hone
    (fun _ _ hr _ => feedsTurns_reachable hone hdesc hr) h
  have hcount := turns_le_passed hge hempty
  have hsplit := passed_sum_le s
  have hone' := hs.oneLeft
  unfold OneLeft at hone'
  cases hin : (s.core cfg.core0).main.leftRounds with
  | false =>
      -- core 0 waits too: it has sent one round more than it has left
      rcases hpoll cfg.core0 hin with ⟨hwait0, -⟩ | ⟨hwait0, -⟩
      · exact hcfg hwait0
      · simp only [MainOk, hwait0] at hmain0
        have hsent : (s.core cfg.core0).sent
            = (s.core cfg.core0).passed + 1 := by
          simp only [CoreState.sent, hwait0, CoreState.passed]
        have hle : (s.core cfg.core0).sent ≤ cfg.numCores := by
          rw [hsent, CoreState.passed]
          omega
        rw [turns_sum hirq hs.live hidle hnone hle] at hcount
        have hmul : (s.core cfg.core0).sent * cfg.numCores
            = (cfg.numCores - 1) * (s.core cfg.core0).sent
              + (s.core cfg.core0).sent := by
          have hpos := cfg.pos
          rw [Nat.mul_comm, ← Nat.succ_mul]
          congr 1
          omega
        omega
  | true =>
      -- core 0 is through: all rounds are sent and served
      have hpassed : (s.core cfg.core0).took.length = cfg.numCores := by
        cases hpc : (s.core cfg.core0).main <;>
          simp_all [MainOk, MainPc.leftRounds]
      have hsent : (s.core cfg.core0).sent = cfg.numCores := by
        rw [← hpassed]
        cases hpc : (s.core cfg.core0).main <;>
          simp_all [CoreState.sent, MainPc.leftRounds]
      rw [turns_sum hirq hs.live hidle hnone hsent.le, hsent] at hcount
      have hmain := hirq.main c
      simp only [MainOk, hwait] at hmain
      have hlt := sum_lt_of_le (fun d => (s.core d).passed)
        (fun _ => cfg.numCores) (fun d => (hirq.main d).passed_le)
        (c := c) (by rw [CoreState.passed]; omega)
      rw [Finset.sum_const, Finset.card_univ, Fintype.card_fin,
        smul_eq_mul] at hlt
      omega

/-- After a first round in lockstep core 0 has the next one to send. -/
theorem rounds_progress_board :
    ∃ s : State board, Reachable board LeavesOne s
      ∧ (s.core board.core0).passed = 1 ∧ RoundsLeft s ∧ Progress s := by
  obtain ⟨s, hs, hpassed, hleft⟩ : ∃ s, Reachable board LeavesOne s
      ∧ (s.core board.core0).passed = 1
      ∧ (s.core board.core0).main.leftRounds = false :=
    exists_reach_of_runOk (boot ++ lockstep 0) (by decide +kernel)
  have hone : board.OnePass := rfl
  have hfour : board.numCores ≤ 4 := Nat.le_refl 4
  exact ⟨s, hs, hpassed, ⟨_, hleft⟩,
    rounds_progress hone hfour board_enoughDesc hs ⟨_, hleft⟩⟩

/-- On the board, with every driver call succeeding, core 1 takes all four
descriptors of round 0, and every other core polls the empty sync queue
for ever. -/
theorem rounds_deadlock :
    ¬ ∀ s, Reachable board DriversOk s → RoundsLeft s → Progress s := by
  obtain ⟨s, hs, hempty, hwait, hothers⟩ : ∃ s, Reachable board DriversOk s
      ∧ s.shared.sync.length = 0
      ∧ (s.core board.core0).main = .syncWait
      ∧ ∀ c : Fin board.numCores, (s.core c).isr = .idle
          ∧ s.shared.irq c = [] ∧ ((s.core c).main = .syncWait
            ∨ (s.core c).main.leftRounds = true) :=
    exists_reach_of_runOk (boot ++ serve 0 ++ mainRun 1 12)
      (by decide +kernel)
  intro hall
  have hleft : RoundsLeft s := ⟨board.core0, by rw [hwait]; rfl⟩
  obtain ⟨a, s', -, hadv, happ⟩ := hall s hs hleft
  obtain ⟨c, x, sh, -, hstep⟩ := apply_cases happ
  obtain ⟨hidle, hirq, hmain⟩ := hothers c
  cases hstep with
  | main =>
      rcases hmain with hmain | hmain
      · exact hadv.2.2 hmain hempty
      · rw [hadv.1] at hmain
        cases hmain
  | irq _ hpend =>
      rw [hirq] at hpend
      cases hpend
  | isr hi => exact hi.running hidle

end DspCodes.Infra

/-
The configuration step before the rounds: every core other than 0 pushes
one descriptor on the sync-cfg queue, core 0 polls the count of that
queue until it is `NUMBER_OF_CORES - 1`.

`CfgInv` is the barrier's law for one outer pass: the queue holds no more
descriptors than there are cores through the step, so core 0 goes
through last, and from then on no core is found before it.
-/
import DspCodes.Infra.Inv
import DspCodes.Lib.Count

namespace DspCodes.Infra

open Lts Counting

variable {cfg : Config} {ok : Bool} {c : Nat} {x x' : CoreState}
  {sh sh' : Shared}

-- ============================================ the configuration step

/-- `main` is through the configuration step of its pass. -/
def MainPc.configured : MainPc → Bool
  | .hookup | .cfgWait | .cfgPop | .cfgPush _ | .returned => false
  | _ => true

theorem MainPc.registered_of_configured {pc : MainPc}
    (h : pc.configured = true) : pc ≠ .hookup ∧ pc ≠ .returned := by
  constructor <;> rintro rfl <;> cases h

/-- A core's share of the configuration count: core 0 pushes nothing and
is counted from the start. -/
def cfgShare (c : Nat) (x : CoreState) : Nat :=
  if c = SYSINIT then 1 else if x.main.configured then 1 else 0

theorem cfgShare_le (c : Nat) (x : CoreState) : cfgShare c x ≤ 1 := by
  unfold cfgShare
  split_ifs <;> omega

theorem cfgShare_configured (c : Nat) {x : CoreState}
    (h : x.main.configured = true) : cfgShare c x = 1 := by
  unfold cfgShare
  rw [if_pos h, ite_self]

theorem roundHead_configured (hone : cfg.OnePass) (hch : x.channel = 0) :
    (roundHead cfg c x).main.configured = true := by
  unfold Config.OnePass at hone
  unfold roundHead
  split_ifs
  · rfl
  · rfl
  · omega
  · rfl

theorem afterSync_configured (hone : cfg.OnePass) (hch : x.channel = 0) :
    (afterSync cfg c x).main.configured = true := by
  unfold afterSync
  by_cases hc : c = SYSINIT
  · rw [if_pos hc]
    rfl
  · rw [if_neg hc]
    exact roundHead_configured hone hch

/-- Once through the configuration step, a core other than 0 stays
through. -/
theorem MainStep.configured_mono (hone : cfg.OnePass)
    (h : MainStep cfg c ok x sh x' sh') (hx : MainOk cfg c x)
    (hc : c ≠ SYSINIT) (hin : x.main.configured = true) :
    x'.main.configured = true := by
  cases h with
  | hooked hpc | hookFailed hpc | cfgPass hpc | cfgPop hpc | cfgPopNull hpc
  | cfgPush hpc => rw [hpc] at hin; cases hin
  | cfgPoll | poll => exact hin
  | send hpc | sendFailed hpc =>
      simp only [MainOk, hpc] at hx
      exact absurd hx.1 hc
  | popNull hpc | recycle hpc =>
      simp only [MainOk, hpc] at hx
      exact afterSync_configured hone hx.1
  | cleanup hpc =>
      simp only [MainOk, hpc] at hx
      exact roundHead_configured hone hx.2.1
  | runDone hpc =>
      rw [if_neg hc]
      rfl
  | signal | pop | divert | runInv | runWait | exitCall | exitDone => rfl

/-- A step of `main` adds to the sync-cfg queue no more than to the
core's share. -/
theorem MainStep.cfg_le (hone : cfg.OnePass)
    (h : MainStep cfg c ok x sh x' sh') (hx : MainOk cfg c x) :
    sh'.syncCfg.length + cfgShare c x ≤ sh.syncCfg.length + cfgShare c x' := by
  by_cases hc : c = SYSINIT
  · have hlen : sh'.syncCfg = sh.syncCfg := by
      cases h with
      | cfgPush hpc =>
          simp only [MainOk, hpc] at hx
          exact absurd hc hx.1
      | _ => rfl
    simp only [cfgShare, if_pos hc, hlen]
    omega
  · by_cases hin : x.main.configured = true
    · have hlen : sh'.syncCfg = sh.syncCfg := by
        cases h with
        | cfgPush hpc => rw [hpc] at hin; cases hin
        | _ => rfl
      simp only [cfgShare, if_neg hc, hlen, hin,
        h.configured_mono hone hx hc hin]
      omega
    · have hlen : sh'.syncCfg.length ≤ sh.syncCfg.length
          + (if x'.main.configured = true then 1 else 0) := by
        cases h with
        | cfgPush hpc =>
            simp only [MainOk, hpc] at hx
            rw [if_pos (roundHead_configured hone
              (x := { x with index := 0 }) hx.2.1)]
            simp
        | _ => exact Nat.le_add_right _ _
      simp only [cfgShare, if_neg hc, if_neg hin]
      omega

/-- The handler does not touch the sync-cfg queue. -/
theorem IsrStep.syncCfg_eq (h : IsrStep cfg ok x sh x' sh') :
    sh'.syncCfg = sh.syncCfg := by
  cases h <;> rfl

/-- The sync-cfg queue holds at most one descriptor per configured core
other than 0, and core 0 is configured last. -/
structure CfgInv (s : State cfg) : Prop where
  le : s.shared.syncCfg.length + 1 ≤ ∑ c : Fin cfg.numCores, cfgShare c (s.core c)
  last : (s.core cfg.core0).main.configured = true →
    ∀ c : Fin cfg.numCores, c ≠ cfg.core0 →
      (s.core c).main.configured = true

theorem cfgInv_init (hone : cfg.OnePass) : CfgInv (init cfg) := by
  have hpos : 0 < cfg.numIteration := hone ▸ cfg.pos
  refine ⟨?_, fun h => ?_⟩
  · have h0 : cfgShare cfg.core0 ((init cfg).core cfg.core0) = 1 := if_pos rfl
    have hle := Finset.single_le_sum (s := Finset.univ)
      (f := fun c : Fin cfg.numCores => cfgShare c ((init cfg).core c))
      (fun _ _ => Nat.zero_le _) (Finset.mem_univ cfg.core0)
    simp only [init, initShared, List.length_nil] at *
    omega
  · simp [init, initCore, hpos, MainPc.configured] at h

/-- Core 0 becomes configured only by reading the full count. -/
theorem MainStep.configured_core0 (h : MainStep cfg SYSINIT ok x sh x' sh')
    (hx : MainOk cfg SYSINIT x) (hout : x.main.configured ≠ true)
    (hin : x'.main.configured = true) :
    sh.syncCfg.length = cfg.numCores - 1 := by
  cases h with
  | cfgPass hpc hlen => exact hlen
  | hooked hpc =>
      rw [if_pos rfl] at hin
      cases hin
  | hookFailed hpc => cases hin
  | cfgPoll hpc => exact absurd hin hout
  | cfgPop hpc | cfgPopNull hpc | cfgPush hpc =>
      simp only [MainOk, hpc] at hx
      exact absurd rfl hx.1
  | send hpc | sendFailed hpc | poll hpc | signal hpc | pop hpc
  | popNull hpc | recycle hpc | divert hpc | cleanup hpc | runInv hpc
  | runWait hpc | runDone hpc | exitCall hpc | exitDone hpc =>
      rw [hpc] at hout
      exact absurd rfl hout

/-- A count of `NUMBER_OF_CORES - 1` says that every other core is
through. -/
theorem CfgInv.full {s : State cfg} (hs : CfgInv s)
    (hlen : s.shared.syncCfg.length = cfg.numCores - 1)
    {d : Fin cfg.numCores} (hd : d ≠ cfg.core0) :
    (s.core d).main.configured = true := by
  have hpos := cfg.pos
  have hle := hs.le
  have hall := eq_one_of_sum_eq_card
    (fun d : Fin cfg.numCores => cfgShare d (s.core d))
    (fun d => cfgShare_le d _) (by rw [Fintype.card_fin]; omega) d
  have hne : (d : Nat) ≠ SYSINIT := fun h => hd (Fin.ext h)
  simp only [cfgShare, if_neg hne] at hall
  by_contra hnot
  rw [if_neg hnot] at hall
  cases hall

/-- A step that moves neither `main` nor the sync-cfg queue. -/
theorem CfgInv.quiet {s : State cfg} (hs : CfgInv s)
    {c : Fin cfg.numCores} (hmain : x.main = (s.core c).main)
    (hlen : sh.syncCfg = s.shared.syncCfg) : CfgInv (s.put c (x, sh)) := by
  refine ⟨?_, ?_⟩
  · rw [State.put_shared, hlen, State.put_core,
      sum_update_eq (fun d : Fin cfg.numCores => cfgShare d) s.core
        (by simp only [cfgShare, hmain])]
    exact hs.le
  · rw [s.put_read CoreState.main (x, sh) hmain]
    intro hconf d hd
    rw [s.put_read CoreState.main (x, sh) hmain]
    exact hs.last hconf d hd

/-- The configuration invariant survives every step. -/
theorem cfgInv_step (hone : cfg.OnePass) {s s' : State cfg}
    {a : Action cfg.numCores} (hirq : IrqInv s) (hs : CfgInv s)
    (h : apply a s = some s') : CfgInv s' := by
  obtain ⟨c, x, sh, rfl, hstep⟩ := apply_cases h
  cases hstep with
  | main hidle hm =>
      have hx := hirq.main c
      have hle : sh.syncCfg.length + 1
          ≤ ∑ d : Fin cfg.numCores, cfgShare d ((s.put c (x, sh)).core d) := by
        have hsum := sum_update (fun d : Fin cfg.numCores => cfgShare d)
          s.core c x
        have := hm.cfg_le hone hx
        have := hs.le
        simp only [State.put_core]
        omega
      refine ⟨hle, fun hconf d hd => ?_⟩
      by_cases hc : c = cfg.core0
      · subst hc
        rw [State.put_core, Function.update_of_ne hd]
        rw [State.put_core, Function.update_self] at hconf
        by_cases hin : (s.core cfg.core0).main.configured = true
        · exact hs.last hin d hd
        · exact hs.full (hm.configured_core0 hx hin hconf) hd
      · rw [State.put_core, Function.update_of_ne (Ne.symm hc)] at hconf
        refine s.forall_put (x, sh)
          (P := fun d y => d ≠ cfg.core0 → y.main.configured = true)
          (fun _ => ?_) (fun d => hs.last hconf d) d hd
        exact hm.configured_mono hone hx (fun h => hc (Fin.ext h))
          (hs.last hconf c hc)
  | irq hidle hirq => exact hs.quiet rfl rfl
  | isr hi => exact hs.quiet hi.main_eq.1.1 hi.syncCfg_eq

/-- The configuration invariant holds in every reachable state. -/
theorem cfgInv_reachable (hone : cfg.OnePass)
    {ok : State cfg → Action cfg.numCores → Prop} {s : State cfg}
    (h : Reachable cfg ok s) : CfgInv s :=
  h.invariant' (cfgInv_init hone) fun _ _ _ hr hs _ happ =>
    cfgInv_step hone (irqInv_reachable hone hr) hs happ

end DspCodes.Infra

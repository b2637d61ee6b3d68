/-
Where the sync descriptors are: in the sync-free queue, in the sync
queue, in the sync-cfg queue, or in the hands of one `main` or one
handler between its pop and its push.

`Conserved` is the ledger, an equation of multisets: all places together
hold the `NUM_SYNC_DESC` descriptors `sysInit` made. It holds under any
schedule and any driver result, for any number of outer passes, because
every pop-then-push pair of the source moves one descriptor and a handler
that pre-empts its own core's `main` has a hand of its own.

That no pop of the sync-free queue returns NULL is the bound of
`FreeInv`: a core draws one descriptor for the configuration step and
`NUMBER_OF_CORES` for the round it serves, and `EnoughDesc` covers all of
these even if none ever came back.
-/
import Mathlib.Tactic.Abel
import Mathlib.Tactic.DeriveFintype
import DspCodes.Infra.Progress

namespace DspCodes.Infra

open Lts Counting

variable {cfg : Config} {ok : Bool} {c : Nat} {x x' : CoreState}
  {sh sh' : Shared} {s s' : State cfg}

-- ================================================================ places

/-- The places of a sync descriptor. -/
inductive Place (n : Nat)
  | syncFree | sync | syncCfg
  | main (c : Fin n)
  | isr (c : Fin n)
  deriving DecidableEq, Fintype

/-- The descriptor `main` has popped and not yet pushed. -/
def MainPc.hand : MainPc → List Nat
  | .cfgPush d | .syncRecycle d => [d]
  | _ => []

/-- The descriptor the handler has popped and not yet pushed. -/
def IsrPc.hand : IsrPc → List Nat
  | .syncPush _ _ d => [d]
  | _ => []

/-- What a place holds. -/
def contents (s : State cfg) : Place cfg.numCores → List Nat
  | .syncFree => s.shared.syncFree
  | .sync => s.shared.sync.map SyncSignal.desc
  | .syncCfg => s.shared.syncCfg
  | .main c => (s.core c).main.hand
  | .isr c => (s.core c).isr.hand

/-- Each of the `NUM_SYNC_DESC` descriptors is in exactly one place, and
there once. -/
structure OnePlace (s : State cfg) : Prop where
  place : ∀ d, d < cfg.numSyncDesc → ∃! p, d ∈ contents s p
  once : ∀ p, (contents s p).Nodup
  only : ∀ p, ∀ d ∈ contents s p, d < cfg.numSyncDesc

/-- A core is about to pop the sync-free queue: in the configuration step
of `main`, or in `hiPrioInterruptHandler`. -/
def CoreState.popsFree (x : CoreState) : Prop :=
  x.main = .cfgPop ∨ x.isr.pops = true

-- ================================================================ ledger

/-- The three queues, together. -/
def Shared.descs (sh : Shared) : Multiset Nat :=
  ↑sh.syncFree + ↑(sh.sync.map SyncSignal.desc) + ↑sh.syncCfg

/-- What a core has in hand. -/
def CoreState.hands (x : CoreState) : Multiset Nat :=
  ↑x.main.hand + ↑x.isr.hand

/-- All places together hold the descriptors `sysInit` made. -/
def Conserved (s : State cfg) : Prop :=
  s.shared.descs + ∑ c, (s.core c).hands = Multiset.range cfg.numSyncDesc

@[simp] theorem roundHead_hand (c : Nat) (x : CoreState) :
    (roundHead cfg c x).main.hand = [] := by
  unfold roundHead
  split_ifs <;> rfl

@[simp] theorem afterSync_hand (c : Nat) (x : CoreState) :
    (afterSync cfg c x).main.hand = [] := by
  unfold afterSync
  split_ifs
  · rfl
  · exact roundHead_hand ..

@[simp] theorem isrLoop_hand (ch i : Nat) : (isrLoop cfg ch i).hand = [] := by
  unfold isrLoop
  split_ifs <;> rfl

/-- A step of `main` moves descriptors between the queues and its hand. -/
theorem MainStep.descs_eq (h : MainStep cfg c ok x sh x' sh') :
    sh'.descs + x'.hands = sh.descs + x.hands := by
  unfold CoreState.hands
  rw [h.isr_eq.1]
  cases h with
  | cfgPop hpc hfree | pop hpc hfree =>
      simp only [Shared.descs, hpc, hfree, MainPc.hand, List.map_cons,
        ← Multiset.cons_coe, ← Multiset.singleton_add, Multiset.coe_nil]
      abel
  | cfgPush hpc =>
      rw [roundHead_hand, hpc]
      simp only [Shared.descs, MainPc.hand, ← Multiset.coe_add,
        Multiset.coe_nil]
      abel
  | recycle hpc =>
      rw [afterSync_hand, hpc]
      simp only [Shared.descs, MainPc.hand, ← Multiset.coe_add,
        Multiset.coe_nil]
      abel
  | cfgPass hpc | cfgPopNull hpc | cleanup hpc =>
      rw [roundHead_hand, hpc]
      rfl
  | popNull hpc =>
      rw [afterSync_hand, hpc]
      rfl
  | hooked hpc | runDone hpc =>
      rw [hpc]
      split_ifs <;> rfl
  | cfgPoll | poll => rfl
  | hookFailed hpc | send hpc | sendFailed hpc | signal hpc | divert hpc
  | runInv hpc | runWait hpc | exitCall hpc | exitDone hpc =>
      rw [hpc]
      rfl

/-- A step of the handler moves descriptors between the queues and its
hand. -/
theorem IsrStep.descs_eq (h : IsrStep cfg ok x sh x' sh') :
    sh'.descs + x'.hands = sh.descs + x.hands := by
  unfold CoreState.hands
  rw [h.main_eq.1.1]
  cases h with
  | pop hpc hfree =>
      simp only [Shared.descs, hpc, hfree, IsrPc.hand,
        ← Multiset.cons_coe, ← Multiset.singleton_add, Multiset.coe_nil]
      abel
  | push hpc =>
      rw [isrLoop_hand, hpc]
      simp only [Shared.descs, IsrPc.hand, List.map_append, List.map_cons,
        List.map_nil, ← Multiset.coe_add, Multiset.coe_nil]
      abel
  | disable hpc | popNull hpc =>
      rw [isrLoop_hand, hpc]
      rfl
  | recycleRx hpc | disableFailed hpc | runInv hpc | runLoad hpc
  | runStore hpc | runWb hpc | ret hpc =>
      rw [hpc]
      rfl

theorem conserved_init : Conserved (init cfg) := by
  have hhands : ∀ c, ((init cfg).core c).hands = 0 := by
    intro c
    simp only [init, initCore, CoreState.hands]
    split_ifs <;> rfl
  unfold Conserved
  rw [Finset.sum_eq_zero fun c _ => hhands c]
  simp only [Shared.descs, init, initShared, List.map_nil, Multiset.coe_nil,
    add_zero]
  rfl

/-- No step of the system creates or drops a descriptor. -/
theorem conserved_step {a : Action cfg.numCores} (hs : Conserved s)
    (h : apply a s = some s') : Conserved s' := by
  obtain ⟨c, x, sh, rfl, hstep⟩ := apply_cases h
  have heq : sh.descs + x.hands = s.shared.descs + (s.core c).hands := by
    cases hstep with
    | main _ hm => exact hm.descs_eq
    | irq hidle =>
        simp only [CoreState.hands, hidle]
        rfl
    | isr hi => exact hi.descs_eq
  have hsum := sum_update (fun _ => CoreState.hands) s.core c x
  unfold Conserved at hs ⊢
  rw [← hs, State.put_core, State.put_shared]
  refine add_right_cancel (b := (s.core c).hands) ?_
  rw [add_assoc, hsum, add_left_comm, heq]
  abel

theorem conserved_reachable
    {guard : State cfg → Action cfg.numCores → Prop}
    (h : Reachable cfg guard s) : Conserved s :=
  h.invariant conserved_init fun _ _ _ hs _ happ => conserved_step hs happ

-- =============================================================== the law

/-- A sum over the places. -/
theorem sum_place {n : Nat} {M : Type _} [AddCommMonoid M]
    (f : Place n → M) :
    ∑ p, f p = f .syncFree + f .sync + f .syncCfg
      + ∑ c, (f (.main c) + f (.isr c)) := by
  rw [← (Place.proxyTypeEquiv n).sum_comp]
  simp only [Fintype.sum_sum_type, Finset.univ_unique, Finset.sum_singleton,
    Finset.sum_add_distrib, ← add_assoc]
  rfl

/-- A descriptor occurs as often in all places as in the ledger. -/
theorem Conserved.count_eq (hs : Conserved s) (d : Nat) :
    ∑ p, (contents s p).count d
      = if d < cfg.numSyncDesc then 1 else 0 := by
  have hd : (Multiset.range cfg.numSyncDesc).count d
      = if d < cfg.numSyncDesc then 1 else 0 := by
    rw [Multiset.count_eq_of_nodup (Multiset.nodup_range _)]
    simp only [Multiset.mem_range]
  rw [← hd, ← hs, sum_place]
  simp only [Shared.descs, CoreState.hands, Multiset.count_add,
    Multiset.count_sum', Multiset.coe_count, contents]

theorem Conserved.onePlace (hs : Conserved s) : OnePlace s where
  place := by
    intro d hd
    have hsum := hs.count_eq d
    rw [if_pos hd] at hsum
    obtain ⟨p, hp, hunique⟩ := existsUnique_of_sum_eq_one hsum
    refine ⟨p, List.count_pos_iff.mp hp, fun q hq => ?_⟩
    exact hunique q (List.count_pos_iff.mpr hq)
  once := by
    intro p
    refine List.nodup_iff_count_le_one.mpr fun d => ?_
    have hsum := hs.count_eq d
    have hle := Finset.single_le_sum
      (f := fun p => (contents s p).count d)
      (fun _ _ => Nat.zero_le _) (Finset.mem_univ p)
    split_ifs at hsum <;> omega
  only := by
    intro p d hd
    have hsum := hs.count_eq d
    have hle := Finset.single_le_sum
      (f := fun p => (contents s p).count d)
      (fun _ _ => Nat.zero_le _) (Finset.mem_univ p)
    have hpos := List.count_pos_iff.mpr hd
    by_contra hnot
    rw [if_neg hnot] at hsum
    omega

/-- In every reachable state each sync descriptor is in exactly one place,
and no core pops an empty sync-free queue. -/
theorem sync_conserved (hone : cfg.OnePass) (hdesc : cfg.EnoughDesc)
    (h : Reachable cfg anyStep s) :
    OnePlace s ∧ ∀ c, (s.core c).popsFree → s.shared.syncFree ≠ [] := by
  refine ⟨(conserved_reachable h).onePlace, fun c hpops => ?_⟩
  rcases hpops with hcfg | hisr
  · exact cfgPop_fed hone hdesc h hcfg
  · exact feedsTurns_reachable hone hdesc (a := .isr c true) h hisr

/-- On the board, with the handler of core 0 between a pop and a push. -/
theorem sync_conserved_board :
    ∃ s : State board, Reachable board anyStep s
      ∧ (s.core board.core0).isr.hand = [4] ∧ OnePlace s
      ∧ ∀ c, (s.core c).popsFree → s.shared.syncFree ≠ [] := by
  obtain ⟨s, hs, hhand⟩ : ∃ s, Reachable board anyStep s
      ∧ (s.core board.core0).isr.hand = [4] :=
    exists_reach_of_runOk (boot ++ irqRun 0 5) (by decide +kernel)
  have hone : board.OnePass := rfl
  exact ⟨s, hs, hhand, sync_conserved hone board_enoughDesc hs⟩

end DspCodes.Infra

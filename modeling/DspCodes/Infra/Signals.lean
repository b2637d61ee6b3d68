/-
Where the sync descriptors of a round are. The handler of round `r`
pushes up to `NUMBER_OF_CORES` of them; each stays in the sync queue
until a core pops it, and then in that core's history.

`signals s r` counts both places. A step of `main` moves a descriptor
from one to the other and never changes the count; only the handler of
core `r` raises it, by one per turn of its loop, so the count is at most
the turns it has made (`SignalLe`, every schedule) and exactly these as
long as the sync-free queue does not run dry (`SignalGe`).

`RecycleInv` is the order inside the handler: it recycles the receive
descriptors of its round before it pushes the first sync descriptor, so a
popped sync descriptor vouches for the recycled packets of the round that
pushed it.
-/
import DspCodes.Infra.Inv
import DspCodes.Lib.Count

namespace DspCodes.Infra

open Lts Counting

variable {cfg : Config} {ok : Bool} {c : Nat} {x x' : CoreState}
  {sh sh' : Shared} {s s' : State cfg} {a : Action cfg.numCores}

-- ===================================================== what a step moves

/-- What a step of `main` does to the sync queue: nothing, or one pop. -/
theorem MainStep.took_cases (h : MainStep cfg c ok x sh x' sh') :
    (sh'.sync = sh.sync ∧ x'.took = x.took)
      ∨ (x.main = .syncPop ∧ ∃ e, sh.sync = e :: sh'.sync
          ∧ x'.took = x.took ++ [some e.channel])
      ∨ (x.main = .syncPop ∧ sh.sync = [] ∧ sh'.sync = []
          ∧ x'.took = x.took ++ [none]) := by
  cases h with
  | @pop e rest hpc hsync => exact .inr (.inl ⟨hpc, e, hsync, rfl⟩)
  | popNull hpc hsync =>
      exact .inr (.inr ⟨hpc, hsync, hsync, by rw [afterSync_took]⟩)
  | _ => exact .inl ⟨rfl, by simp⟩

/-- One while `main` has read a non-zero count and not yet popped. -/
def MainPc.popping : MainPc → Nat
  | .syncPop => 1
  | _ => 0

theorem MainPc.popping_of_ne {pc : MainPc} (h : pc ≠ .syncPop) :
    pc.popping = 0 := by
  cases pc with
  | syncPop => exact absurd rfl h
  | _ => rfl

/-- `main` comes to the pop only from its polling loop. -/
theorem MainStep.syncPop_cases (h : MainStep cfg c ok x sh x' sh')
    (hpc' : x'.main = .syncPop) :
    x.main = .syncWait ∧ sh.sync.length ≠ 0 := by
  cases h with
  | signal hpc hlen => exact ⟨hpc, hlen⟩
  | cfgPoll hpc | poll hpc =>
      rw [hpc] at hpc'
      cases hpc'
  | hooked | runDone => split_ifs at hpc'
  | cfgPass | cfgPopNull | cfgPush | cleanup =>
      simp only [roundHead] at hpc'
      split_ifs at hpc'
  | popNull | recycle =>
      simp only [afterSync, roundHead] at hpc'
      split_ifs at hpc'
  | hookFailed | cfgPop | send | sendFailed | pop | divert | runInv
  | runWait | exitCall | exitDone => cases hpc'

/-- The turns of the sync loop a handler has made. -/
def IsrPc.turns (n : Nat) : IsrPc → Nat
  | .syncPop _ i | .syncPush _ i _ => i
  | .runInv _ | .runLoad _ | .runStore _ _ | .runWb _ | .ret _ => n
  | _ => 0

/-- The turns of the sync loop all handlers of a core have made. -/
def CoreState.turns (n : Nat) (x : CoreState) : Nat :=
  x.served * n + x.isr.turns n

theorem isrLoop_turns {ch i : Nat} (hi : i ≤ cfg.numCores) :
    (isrLoop cfg ch i).turns cfg.numCores = i := by
  unfold isrLoop
  by_cases hlt : i < cfg.numCores
  · rw [if_pos hlt]
    rfl
  · rw [if_neg hlt]
    show cfg.numCores = i
    omega

/-- What a step of the handler does to the sync queue: nothing, or one
turn of its loop, which pushes one descriptor of its round unless the
sync-free queue was empty. -/
theorem IsrStep.turn_cases (h : IsrStep cfg ok x sh x' sh')
    (hx : IsrOk cfg c x) :
    (sh'.sync = sh.sync
        ∧ x'.turns cfg.numCores = x.turns cfg.numCores)
      ∨ (∃ d, sh'.sync = sh.sync ++ [⟨d, c⟩]
          ∧ x'.turns cfg.numCores = x.turns cfg.numCores + 1)
      ∨ (x.isr.pops = true ∧ sh.syncFree = [] ∧ sh'.sync = sh.sync
          ∧ x'.turns cfg.numCores = x.turns cfg.numCores + 1) := by
  cases h with
  | disable hpc =>
      refine .inl ⟨rfl, ?_⟩
      show _ + (isrLoop cfg _ 0).turns _ = _
      rw [isrLoop_turns (Nat.zero_le _), CoreState.turns, hpc]
      rfl
  | @push ch i d hpc =>
      simp only [IsrOk, hpc] at hx
      refine .inr (.inl ⟨d, by rw [hx.1], ?_⟩)
      show _ + (isrLoop cfg ch (i + 1)).turns _ = _
      rw [isrLoop_turns hx.2, CoreState.turns, hpc]
      rfl
  | @popNull ch i hpc hfree =>
      simp only [IsrOk, hpc] at hx
      refine .inr (.inr ⟨by rw [hpc]; rfl, hfree, rfl, ?_⟩)
      show _ + (isrLoop cfg ch (i + 1)).turns _ = _
      rw [isrLoop_turns hx.2, CoreState.turns, hpc]
      rfl
  | ret hpc =>
      refine .inl ⟨rfl, ?_⟩
      simp only [CoreState.turns, hpc, IsrPc.turns, Nat.succ_mul]
      rfl
  | recycleRx hpc | disableFailed hpc | pop hpc | runInv hpc | runLoad hpc
  | runStore hpc | runWb hpc =>
      exact .inl ⟨rfl, by simp only [CoreState.turns, hpc, IsrPc.turns]⟩

/-- A core's handlers make at most `NUMBER_OF_CORES` turns. -/
theorem IrqInv.turns_le (hs : IrqInv s) (c : Fin cfg.numCores) :
    (s.core c).turns cfg.numCores ≤ cfg.numCores := by
  have hle := hs.handlers_le c
  have hisr := hs.isr c
  have hmul : (s.core c).served = 0 ∨ (s.core c).served = 1 := by
    unfold CoreState.handlers at hle
    omega
  unfold CoreState.handlers at hle
  unfold CoreState.turns
  unfold IsrOk at hisr
  cases hpc : (s.core c).isr <;>
    simp only [hpc, IsrPc.active, IsrPc.turns] at hle hisr ⊢ <;>
    rcases hmul with hz | hz <;> simp only [hz] at hle ⊢ <;> omega

-- ================================================= descriptors of a round

/-- The sync descriptors of round `r` in a list of queue entries. -/
def queued (r : Nat) (sync : List SyncSignal) : Nat :=
  (sync.map SyncSignal.channel).count r

/-- The sync descriptors of round `r` seen so far: queued or popped. -/
def signals (s : State cfg) (r : Nat) : Nat :=
  queued r s.shared.sync + ∑ c, (s.core c).took.count (some r)

theorem queued_cons (r : Nat) (e : SyncSignal) (sync : List SyncSignal) :
    queued r (e :: sync)
      = queued r sync + [some e.channel].count (some r) := by
  unfold queued
  by_cases he : e.channel = r
  · simp [he]
  · simp [he]

theorem queued_push (r d ch : Nat) (sync : List SyncSignal) :
    queued r (sync ++ [⟨d, ch⟩])
      = queued r sync + if ch = r then 1 else 0 := by
  unfold queued
  by_cases he : ch = r
  · simp [he]
  · simp [List.count_append, he]

/-- A step of `main` moves descriptors, it makes and loses none. -/
theorem signals_main {c : Fin cfg.numCores}
    (h : MainStep cfg c ok (s.core c) s.shared x sh) (r : Nat) :
    signals (s.put c (x, sh)) r = signals s r := by
  have hsum := sum_update (fun _ y => y.took.count (some r)) s.core c x
  simp only [signals, State.put_core, State.put_shared]
  rcases h.took_cases with
    ⟨hsync, htook⟩ | ⟨-, e, hsync, htook⟩ | ⟨-, hsync, hsync', htook⟩
  · rw [htook] at hsum
    rw [hsync]
    omega
  · rw [htook, List.count_append] at hsum
    rw [hsync, queued_cons]
    omega
  · rw [htook, List.count_append] at hsum
    have hnone : [(none : Option Nat)].count (some r) = 0 := by simp
    rw [hsync, hsync']
    omega

/-- What does not pop leaves the popped descriptors alone. -/
theorem signals_put {c : Fin cfg.numCores} (x : CoreState)
    (sh : Shared) (htook : x.took = (s.core c).took) (r : Nat) :
    signals (s.put c (x, sh)) r + queued r s.shared.sync
      = signals s r + queued r sh.sync := by
  have hsum := sum_update_eq (fun _ y => y.took.count (some r)) s.core
    (c := c) (x := x) (by rw [htook])
  simp only [signals, State.put_core, State.put_shared, hsum]
  omega

-- ========================================================= the two laws

/-- A round has no more sync descriptors than its handler made turns. -/
def SignalLe (s : State cfg) : Prop :=
  ∀ c : Fin cfg.numCores, signals s c ≤ (s.core c).turns cfg.numCores

/-- Every turn of a handler made a sync descriptor. -/
def SignalGe (s : State cfg) : Prop :=
  ∀ c : Fin cfg.numCores, (s.core c).turns cfg.numCores ≤ signals s c

/-- No handler pops an empty sync-free queue. -/
def FeedsTurns (s : State cfg) : Action cfg.numCores → Prop
  | .isr c _ => (s.core c).isr.pops = true → s.shared.syncFree ≠ []
  | _ => True

/-- One step moves turns and descriptors of each round together; only a
NULL pop makes a turn without a descriptor. -/
theorem signals_step (hirq : IrqInv s) (h : apply a s = some s')
    (d : Fin cfg.numCores) :
    (signals s' d = signals s d
        ∧ (s'.core d).turns cfg.numCores = (s.core d).turns cfg.numCores)
      ∨ (signals s' d = signals s d + 1 ∧ (s'.core d).turns cfg.numCores
          = (s.core d).turns cfg.numCores + 1)
      ∨ (¬ FeedsTurns s a ∧ signals s' d = signals s d
          ∧ (s'.core d).turns cfg.numCores
            = (s.core d).turns cfg.numCores + 1) := by
  obtain ⟨c, x, sh, rfl, hstep⟩ := apply_cases h
  cases hstep with
  | main hidle hm =>
      obtain ⟨hisr, hserved, -⟩ := hm.isr_eq
      refine .inl ⟨signals_main hm d, ?_⟩
      exact s.put_read (CoreState.turns cfg.numCores) (x, sh)
        (by simp only [CoreState.turns, hisr, hserved]) d
  | @irq ch rest hidle hirq =>
      refine .inl ⟨?_, ?_⟩
      · exact Nat.add_right_cancel (signals_put
          { s.core c with isr := .recycleRx ch }
          { s.shared with
            irq := Function.update s.shared.irq c rest } rfl d)
      · refine s.put_read (CoreState.turns cfg.numCores) _ ?_ d
        simp only [CoreState.turns, hidle, IsrPc.turns]
  | @isr ok _ _ hi =>
      have hput := signals_put (s := s) _ sh hi.main_eq.1.2.2.2 d
      by_cases hd : d = c
      · subst hd
        rw [State.put_core, Function.update_self]
        rcases hi.turn_cases (hirq.isr d) with
          ⟨hsync, hturn⟩ | ⟨e, hsync, hturn⟩ | ⟨hpops, hfree, hsync, hturn⟩
        · rw [hsync] at hput
          exact .inl ⟨by omega, hturn⟩
        · rw [hsync, queued_push, if_pos rfl] at hput
          exact .inr (.inl ⟨by omega, hturn⟩)
        · rw [hsync] at hput
          exact .inr (.inr ⟨fun hfeed => hfeed hpops hfree, by omega, hturn⟩)
      · have hne : ¬ (c : Nat) = d := fun h => hd (Fin.ext h.symm)
        rw [State.put_core, Function.update_of_ne hd]
        refine .inl ⟨?_, rfl⟩
        rcases hi.turn_cases (hirq.isr c) with
          ⟨hsync, -⟩ | ⟨e, hsync, -⟩ | ⟨-, -, hsync, -⟩
        · rw [hsync] at hput
          omega
        · rw [hsync, queued_push, if_neg hne] at hput
          omega
        · rw [hsync] at hput
          omega

theorem signals_init (r : Nat) : signals (init cfg) r = 0 := by
  simp [signals, init, initShared, initCore, queued]

theorem turns_init (c : Fin cfg.numCores) :
    ((init cfg).core c).turns cfg.numCores = 0 := by
  simp [init, initCore, CoreState.turns, IsrPc.turns]

theorem signalLe_reachable (hone : cfg.OnePass)
    {ok : State cfg → Action cfg.numCores → Prop} (h : Reachable cfg ok s) :
    SignalLe s := by
  refine h.invariant' (fun c => by rw [signals_init]; exact Nat.zero_le _) ?_
  intro s a s' hr hs _ happ d
  have hd := hs d
  rcases signals_step (irqInv_reachable hone hr) happ d with
    ⟨h1, h2⟩ | ⟨h1, h2⟩ | ⟨-, h1, h2⟩ <;> omega

theorem signalGe_reachable (hone : cfg.OnePass)
    {ok : State cfg → Action cfg.numCores → Prop}
    (hfeed : ∀ s a, Reachable cfg ok s → ok s a → FeedsTurns s a)
    (h : Reachable cfg ok s) : SignalGe s := by
  refine h.invariant' (fun c => by rw [turns_init]; exact Nat.zero_le _) ?_
  intro s a s' hr hs hok happ d
  have hd := hs d
  rcases signals_step (irqInv_reachable hone hr) happ d with
    ⟨h1, h2⟩ | ⟨h1, h2⟩ | ⟨hnot, -⟩
  · omega
  · omega
  · exact absurd (hfeed s a hr hok) hnot

-- ===================================== recycled before signalled

/-- The handler has recycled the receive descriptors of its round. -/
def IsrPc.pastRecycle : IsrPc → Option Nat
  | .idle | .recycleRx _ => none
  | .disableAcc ch | .syncPop ch _ | .syncPush ch _ _ | .runInv ch
  | .runLoad ch | .runStore ch _ | .runWb ch | .ret ch => some ch

/-- What a core has seen of the rounds in `rec`: its handler is past the
recycling step of such a round only, and it has popped sync descriptors
of such rounds only. -/
structure Vouched (rec : List Nat) (x : CoreState) : Prop where
  isr : ∀ ch, x.isr.pastRecycle = some ch → ch ∈ rec
  took : ∀ ch, some ch ∈ x.took → ch ∈ rec

theorem Vouched.mono {rec rec' : List Nat} (h : Vouched rec x)
    (hsub : rec ⊆ rec') : Vouched rec' x :=
  ⟨fun ch hch => hsub (h.isr ch hch), fun ch hch => hsub (h.took ch hch)⟩

/-- A sync descriptor, queued or popped, vouches for the recycled packets
of its round. -/
structure RecycleInv (s : State cfg) : Prop where
  core : ∀ c, Vouched s.shared.recycled (s.core c)
  queue : ∀ e ∈ s.shared.sync, e.channel ∈ s.shared.recycled

theorem recycleInv_init : RecycleInv (init cfg) := by
  refine ⟨fun c => ⟨fun ch h => ?_, fun ch h => ?_⟩, fun e h => ?_⟩
  · cases h
  · cases h
  · cases h

theorem isrLoop_pastRecycle (ch i : Nat) :
    (isrLoop cfg ch i).pastRecycle = some ch := by
  unfold isrLoop
  split_ifs <;> rfl

/-- What a step of the handler does to the recycled rounds: the recycling
step adds its own, and a pushed descriptor is of a round the handler has
recycled. -/
theorem IsrStep.recycle_cases (h : IsrStep cfg ok x sh x' sh') :
    sh.recycled ⊆ sh'.recycled
      ∧ (∀ ch, x'.isr.pastRecycle = some ch →
          x.isr.pastRecycle = some ch ∨ ch ∈ sh'.recycled)
      ∧ (∀ e ∈ sh'.sync,
          e ∈ sh.sync ∨ x.isr.pastRecycle = some e.channel) := by
  cases h with
  | recycleRx hpc =>
      refine ⟨fun ch h => List.mem_append_left _ h, fun ch h => ?_,
        fun e h => .inl h⟩
      cases h
      exact .inr (List.mem_append_right _ (List.mem_singleton_self _))
  | disable hpc | popNull hpc =>
      refine ⟨fun _ h => h, fun ch h => .inl ?_, fun e h => .inl h⟩
      rw [isrLoop_pastRecycle] at h
      rw [hpc]
      exact h
  | @push ch i d hpc =>
      refine ⟨fun _ h => h, fun ch h => .inl ?_, fun e h => ?_⟩
      · rw [isrLoop_pastRecycle] at h
        rw [hpc]
        exact h
      · rcases List.mem_append.mp h with h | h
        · exact .inl h
        · rw [List.mem_singleton.mp h, hpc]
          exact .inr rfl
  | disableFailed | ret =>
      refine ⟨fun _ h => h, fun ch h => ?_, fun e h => .inl h⟩
      cases h
  | pop hpc | runInv hpc | runLoad hpc | runStore hpc | runWb hpc =>
      refine ⟨fun _ h => h, fun ch h => .inl ?_, fun e h => .inl h⟩
      rw [hpc]
      exact h

/-- `main` recycles no receive descriptor. -/
theorem MainStep.recycled_eq (h : MainStep cfg c ok x sh x' sh') :
    sh'.recycled = sh.recycled := by
  cases h <;> rfl

theorem recycleInv_step (hs : RecycleInv s) (h : apply a s = some s') :
    RecycleInv s' := by
  obtain ⟨c, x, sh, rfl, hstep⟩ := apply_cases h
  have hc := hs.core c
  cases hstep with
  | main hidle hm =>
      have hx : Vouched s.shared.recycled x := by
        refine ⟨fun ch h => hc.isr ch (by rwa [hm.isr_eq.1] at h),
          fun ch h => ?_⟩
        rcases hm.took_cases with
          ⟨-, htook⟩ | ⟨-, e, hsync, htook⟩ | ⟨-, -, -, htook⟩
        · exact hc.took ch (htook ▸ h)
        · rw [htook, List.mem_append, List.mem_singleton] at h
          rcases h with h | h
          · exact hc.took ch h
          · cases h
            exact hs.queue e (by rw [hsync]; exact List.mem_cons_self)
        · rw [htook, List.mem_append, List.mem_singleton] at h
          rcases h with h | h
          · exact hc.took ch h
          · cases h
      have hqueue : ∀ e ∈ sh.sync, e ∈ s.shared.sync := by
        intro e he
        rcases hm.took_cases with
          ⟨hsync, -⟩ | ⟨-, e', hsync, -⟩ | ⟨-, -, hsync, -⟩
        · rwa [← hsync]
        · rw [hsync]
          exact List.mem_cons_of_mem _ he
        · rw [hsync] at he
          cases he
      refine ⟨?_, fun e he => ?_⟩
      · rw [State.put_shared, hm.recycled_eq]
        exact s.forall_put (x, sh)
          (P := fun _ => Vouched s.shared.recycled) hx hs.core
      · rw [State.put_shared, hm.recycled_eq]
        exact hs.queue e (hqueue e he)
  | irq hidle hirq =>
      refine ⟨s.forall_put _ (P := fun _ => Vouched s.shared.recycled)
        ⟨fun ch h => ?_, hc.took⟩ hs.core, hs.queue⟩
      cases h
  | isr hi =>
      obtain ⟨hsub, hisr, hpush⟩ := hi.recycle_cases
      refine ⟨s.forall_put (x, sh) (P := fun _ => Vouched sh.recycled)
        ⟨fun ch h => ?_, fun ch h => ?_⟩ fun d => (hs.core d).mono hsub,
        fun e he => ?_⟩
      · rcases hisr ch h with h | h
        · exact hsub (hc.isr ch h)
        · exact h
      · rw [hi.main_eq.1.2.2.2] at h
        exact hsub (hc.took ch h)
      · rcases hpush e he with h | h
        · exact hsub (hs.queue e h)
        · exact hsub (hc.isr e.channel h)

theorem recycleInv_reachable {ok : State cfg → Action cfg.numCores → Prop}
    (h : Reachable cfg ok s) : RecycleInv s :=
  h.invariant recycleInv_init fun _ _ _ hs _ happ => recycleInv_step hs happ

end DspCodes.Infra

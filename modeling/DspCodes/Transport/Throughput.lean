/-
How fast the pipeline moves, and that a fair schedule keeps it moving.

# Sixteen calls a packet

A round of `taskA` is seven calls, a transfer of the DMA five and a round
of a looping `taskB` four. `calls` reads the number of calls made off the
state: the packets each party has finished, and where in its round it
stands. What separates it from sixteen a packet is what is under way,
which the two pools bound. So whatever the schedule, a run that makes
enough calls delivers, and the producer is never further ahead than the
descriptors there are.

# Fairness

A party with work keeps it: only `taskA` pops the TX free queue, only the
DMA the TX op and the RX free queue, and with one consumer only that one
the RX op queue. The others push. This is why weak fairness is enough for
one consumer, and why it would not be for two, who take packets from each
other.
-/
import DspCodes.Lib.Fair
import DspCodes.Transport.Fifo
import DspCodes.Transport.Wedge

namespace DspCodes.Transport

open Lts Counting Fifo

variable {P : Program} {δ α : Type _} {s s' : Pipe P δ α} {a : Action P α}
  {tx rx : List δ} {retQueue : δ → QueueId} {data : δ → α} {n : Nat}

-- ================================================================== phases

/-- The calls `taskA` has made since its last `Cppi_setData`. -/
def TaskA.phase : TaskA δ α → Nat
  | .setTag _ => 0
  | .setReturnQueue _ => 1
  | .push _ => 2
  | .sleep => 3
  | .poll => 4
  | .generate _ => 5
  | .setData _ _ => 6

/-- The calls `taskB` has made since its last `Cppi_getData`. -/
def TaskB.phase : TaskB δ α → Nat
  | .print _ _ => 0
  | .recycle _ => 1
  | .poll => 2
  | .getData _ => 3
  | .returned => 2

/-- The transfers of the DMA since its last delivery. -/
def Dma.phase : Dma δ → Nat
  | .delivered _ => 0
  | .idle => 1
  | .tx _ => 2
  | .both _ _ => 3
  | .copied _ _ => 4

/-- The packets the DMA has delivered. -/
def delivered (s : Pipe P δ α) : Nat :=
  s.got.length + ∑ i, (s.taskB i).carries.length + s.queues.rxOp.length

/-- A stored packet is delivered, with the DMA, in the TX op queue or
still with `taskA`. -/
def FlowInv (s : Pipe P δ α) : Prop :=
  s.stored.length = delivered s + s.dma.carries.length
    + s.queues.txOp.length + s.taskA.carries.length

/-- The calls made, up to where the parties start in their rounds. -/
def calls (s : Pipe P δ α) : Nat :=
  7 * s.stored.length + 5 * delivered s + 4 * s.got.length
    + s.taskA.phase + s.dma.phase + ∑ i, (s.taskB i).phase

-- ============================================================== the count

theorem flowInv_start : FlowInv (start P tx rx retQueue data) := by
  simp [FlowInv, delivered, start, TaskB.carries, Dma.carries,
    TaskA.carries]

theorem calls_start :
    calls (start P tx rx retQueue data) = 5 + 2 * P.consumers := by
  simp [calls, delivered, start, TaskB.carries, TaskB.phase, Dma.phase,
    TaskA.phase]
  omega

/-- A sum over the consumers after the step of one. -/
theorem sum_taskB (f : TaskB δ α → Nat) {i : Fin P.consumers}
    {b : TaskB δ α} (hpc : s.taskB i = b) (b' : TaskB δ α) :
    ∑ j, f (Function.update s.taskB i b' j) + f b
      = ∑ j, f (s.taskB j) + f b' := by
  rw [← hpc]
  exact sum_update (fun _ => f) s.taskB i b'

-- ============================================================== the bounds

/-- What `taskA` has under way. -/
theorem TaskA.phase_le (a : TaskA δ α) :
    7 * a.carries.length + a.phase ≤ 7 * a.holds.length + 4 := by
  cases a <;> simp [TaskA.carries, TaskA.phase, TaskA.holds]

theorem TaskA.le_phase (a : TaskA δ α) :
    3 ≤ 7 * a.carries.length + a.phase := by
  cases a <;> simp [TaskA.carries, TaskA.phase]

/-- What the DMA has under way. -/
theorem Dma.phase_le (d : Dma δ) :
    7 * d.carries.length + d.phase
      ≤ 7 * d.holdsTx.length + 12 * d.holdsRx.length + 2 := by
  cases d <;> simp [Dma.carries, Dma.phase, Dma.holdsTx, Dma.holdsRx]

/-- What a consumer has under way. -/
theorem TaskB.phase_le (b : TaskB δ α) :
    12 * b.carries.length + b.phase ≤ 12 * b.holds.length + 3 := by
  cases b <;> simp [TaskB.carries, TaskB.phase, TaskB.holds]

theorem sum_phase_le (taskB : Fin P.consumers → TaskB δ α) :
    12 * ∑ i, (taskB i).carries.length + ∑ i, (taskB i).phase
      ≤ 12 * ∑ i, (taskB i).holds.length + 3 * P.consumers := by
  have hle := Finset.sum_le_sum fun i (_ : i ∈ Finset.univ) =>
    (taskB i).phase_le
  simp only [Finset.sum_add_distrib, ← Finset.mul_sum, Finset.sum_const,
    Finset.card_univ, Fintype.card_fin, smul_eq_mul] at hle
  omega

theorem carries_le_holds (taskB : Fin P.consumers → TaskB δ α) :
    ∑ i, (taskB i).carries.length ≤ ∑ i, (taskB i).holds.length := by
  refine Finset.sum_le_sum fun i _ => ?_
  cases taskB i <;> simp [TaskB.carries, TaskB.holds]

/-- What has been called for is obtained or under way, and the pools bound
what is under way. -/
theorem calls_le (hp : PlacesInv tx rx s) (hf : FlowInv s) :
    calls s ≤ 16 * s.got.length + 7 * tx.length + 12 * rx.length + 6
      + 3 * P.consumers := by
  have htx := hp.tx_length
  have hrx := hp.rx_length
  have hA := s.taskA.phase_le
  have hD := s.dma.phase_le
  have hB := sum_phase_le s.taskB
  unfold FlowInv delivered at hf
  unfold calls delivered
  omega

/-- A packet obtained has been paid for. -/
theorem le_calls (hf : FlowInv s) : 16 * s.got.length + 3 ≤ calls s := by
  have hA := s.taskA.le_phase
  unfold FlowInv delivered at hf
  unfold calls delivered
  omega

/-- The producer is no further ahead than the descriptors there are. -/
theorem stored_le (hp : PlacesInv tx rx s) (hf : FlowInv s) :
    s.stored.length ≤ s.got.length + tx.length + rx.length := by
  have htx := hp.tx_length
  have hrx := hp.rx_length
  have hA := s.taskA.carries_le
  have hD := s.dma.carries_le
  have hB := carries_le_holds s.taskB
  unfold FlowInv delivered at hf
  omega

/-- A queue that has an entry keeps it while the others only push. -/
theorem ne_nil_of_prefix {l l' : List δ} (h : l <+: l') (hl : l ≠ []) :
    l' ≠ [] := by
  rintro rfl
  exact hl (List.prefix_nil.mp h)

-- =============================================================== the steps

variable [DecidableEq δ]

/-- No step loses a packet. -/
theorem flowInv_step (hret : ∀ d, OnTheWay s d → s.retQueue d = .txFree)
    (hI : FlowInv s) (h : PipeStep s a s') : FlowInv s' := by
  unfold FlowInv delivered at hI ⊢
  cases h with
  | setData hpc | pushTxOp hpc =>
      simp only [hpc, TaskA.carries, List.length_append,
        List.length_singleton, List.length_nil] at hI ⊢
      omega
  | @popRxOp i d rest hpc hq =>
      have hB := sum_taskB (·.carries.length) hpc (.getData d)
      change _ + 0 = _ + 1 at hB
      simp only [hq, List.length_cons, Pipe.setB] at hI ⊢
      omega
  | @getData i d hpc =>
      have hB := sum_taskB (·.carries.length) hpc (.print d (s.data d))
      change _ + 1 = _ + 0 at hB
      simp only [List.length_append, List.length_singleton, Pipe.setB]
      omega
  | @print i d v hpc =>
      have hB := sum_taskB (·.carries.length) hpc (.recycle d)
      change _ + 0 = _ + 0 at hB
      simp only [Pipe.setB]
      omega
  | @recycle i d hpc =>
      have hB := sum_taskB (·.carries.length) hpc
        (if P.loops then .poll else .returned)
      have hnext : (if P.loops then TaskB.poll
          else (TaskB.returned : TaskB δ α)).carries = [] := by
        split <;> rfl
      simp only [hnext] at hB
      change _ + 0 = _ + 0 at hB
      simp only [Pipe.setB]
      omega
  | popTxOp hpc hq =>
      simp only [hpc, hq, Dma.carries, List.length_cons, List.length_nil]
        at hI ⊢
      omega
  | deliver hpc =>
      simp only [hpc, Dma.carries, List.length_append, List.length_singleton,
        List.length_nil] at hI ⊢
      omega
  | giveBack hpc =>
      rw [giveBack_queue hret hpc]
      simpa only [hpc, Dma.carries] using hI
  | popRxFree hpc | copy hpc =>
      simpa only [hpc, Dma.carries, List.length_singleton] using hI
  | popTxFree hpc | generate hpc | setTag hpc | setReturnQueue hpc
  | wake hpc =>
      simpa only [hpc, TaskA.carries, List.length_singleton] using hI
  | emptyTxFree | emptyRxOp => exact hI

theorem flowInv_reachable
    (h : Reach step anyStep (start P tx rx retQueue data) s) : FlowInv s :=
  h.invariant' flowInv_start fun _ _ _ hr hI _ hs =>
    flowInv_step (places_reachable hr).ret hI (step_cases hs)

/-- Every step but an empty poll is one call. -/
theorem calls_step (hl : P.loops = true)
    (hret : ∀ d, OnTheWay s d → s.retQueue d = .txFree)
    (hpoll : ¬ EmptyPoll s a) (h : PipeStep s a s') :
    calls s' = calls s + 1 := by
  unfold calls delivered
  cases h with
  | setData hpc =>
      simp only [hpc, TaskA.phase, List.length_append, List.length_singleton]
      omega
  | popTxFree hpc | generate hpc | setTag hpc | setReturnQueue hpc
  | pushTxOp hpc | wake hpc =>
      simp only [hpc, TaskA.phase]
      omega
  | @popRxOp i d rest hpc hq =>
      have hB := sum_taskB (·.carries.length) hpc (.getData d)
      have hP := sum_taskB TaskB.phase hpc (.getData d)
      change _ + 0 = _ + 1 at hB
      change _ + 2 = _ + 3 at hP
      simp only [hq, List.length_cons, Pipe.setB]
      omega
  | @getData i d hpc =>
      have hB := sum_taskB (·.carries.length) hpc (.print d (s.data d))
      have hP := sum_taskB TaskB.phase hpc (.print d (s.data d))
      change _ + 1 = _ + 0 at hB
      change _ + 3 = _ + 0 at hP
      simp only [List.length_append, List.length_singleton, Pipe.setB]
      omega
  | @print i d v hpc =>
      have hB := sum_taskB (·.carries.length) hpc (.recycle d)
      have hP := sum_taskB TaskB.phase hpc (.recycle d)
      change _ + 0 = _ + 0 at hB
      change _ + 0 = _ + 1 at hP
      simp only [Pipe.setB]
      omega
  | @recycle i d hpc =>
      have hB := sum_taskB (·.carries.length) hpc .poll
      have hP := sum_taskB TaskB.phase hpc .poll
      change _ + 0 = _ + 0 at hB
      change _ + 1 = _ + 2 at hP
      simp only [hl, if_true, Pipe.setB]
      omega
  | deliver hpc =>
      simp only [hpc, Dma.phase, List.length_append, List.length_singleton]
      omega
  | popTxOp hpc | popRxFree hpc | copy hpc =>
      simp only [hpc, Dma.phase]
      omega
  | giveBack hpc =>
      simp only [giveBack_queue hret hpc, hpc, Dma.phase]
      omega
  | emptyTxFree hpc hq => exact absurd ⟨hpc, hq⟩ hpoll
  | emptyRxOp hpc hq => exact absurd ⟨hpc, hq⟩ hpoll

-- ============================================================== throughput

/-- A turn that is not spent on an empty queue. -/
def Call (s : Pipe P δ α) (a : Action P α) : Prop := ¬ EmptyPoll s a

instance [DecidableEq α] : DecidableRel (Call : Pipe P δ α → _ → Prop)
  | s, .taskA _ =>
      inferInstanceAs (Decidable ¬(s.taskA = .poll ∧ s.queues.txFree = []))
  | s, .taskB i =>
      inferInstanceAs (Decidable ¬(s.taskB i = .poll ∧ s.queues.rxOp = []))
  | _, .dma => isTrue id

/-- Whatever the order of the calls, a packet costs sixteen of them: a run
of `n` calls has obtained `n / 16` packets, up to what the two pools can
hold. The producer is never further ahead of the consumers than that. -/
theorem throughput (hl : P.loops = true)
    (h : ReachIn step Call (start P tx rx retQueue data) n s) :
    16 * s.got.length ≤ n + 2 * P.consumers + 2 ∧
      n ≤ 16 * s.got.length + 7 * tx.length + 12 * rx.length
        + P.consumers + 1 ∧
      s.stored.length ≤ s.got.length + tx.length + rx.length := by
  have hcount : calls s = calls (start P tx rx retQueue data) + n :=
    h.measure fun _ _ _ hr hcall hs =>
      calls_step hl (places_reachable hr.any).ret hcall (step_cases hs)
  have hp := places_reachable h.reach.any
  have hf := flowInv_reachable h.reach.any
  have hle := calls_le hp hf
  have hge := le_calls hf
  rw [calls_start] at hcount
  refine ⟨?_, ?_, stored_le hp hf⟩
  · omega
  · omega

/-- With two TX descriptors and one RX descriptor the pipeline takes 28
calls before the first packet has to be obtained, and no more. -/
theorem throughput_small :
    ∃ s : Pipe transportMain Nat Nat, ReachIn step Call
        (start transportMain [0, 1] [2] (fun _ => .rxFree) fun _ => 0) 28 s ∧
      s.got = [] ∧ 16 * s.got.length ≤ 28 + 2 * 1 + 2 ∧
      28 ≤ 16 * s.got.length + 7 * 2 + 12 * 1 + 1 + 1 ∧
      s.stored.length ≤ s.got.length + 2 + 1 := by
  obtain ⟨s, hs, hgot⟩ : ∃ s : Pipe transportMain Nat Nat, runOk step Call
      (start transportMain [0, 1] [2] (fun _ => .rxFree) fun _ => 0)
      (List.replicate 14 (.taskA 7) ++ List.replicate 6 .dma
        ++ List.replicate 7 (.taskA 7) ++ [.taskB consumer]) = some s
        ∧ s.got = [] := ⟨_, rfl, rfl⟩
  have hrun := reachIn_of_runOk .init hs
  exact ⟨s, hrun, hgot, throughput rfl hrun⟩

-- ================================================================ fairness

/-- The three parties of a pipeline with one consumer. -/
inductive Party
  | producer
  | consumer
  | mover
  deriving DecidableEq, Repr

/-- Whose turn an action is. -/
def Action.party : Action P α → Party
  | .taskA _ => .producer
  | .taskB _ => .consumer
  | .dma => .mover

/-- The party can make a call: it does not poll an empty queue and does
not wait for a descriptor. -/
def HasWork : Party → Pipe transportMain δ α → Prop
  | .producer, s => s.taskA = .poll → s.queues.txFree ≠ []
  | .consumer, s => s.taskB consumer ≠ .returned ∧
      (s.taskB consumer = .poll → s.queues.rxOp ≠ [])
  | .mover, s => (s.dma = .idle → s.queues.txOp ≠ []) ∧
      ∀ d, s.dma = .tx d → s.queues.rxFree ≠ []

section oneConsumer

variable {s s' : Pipe transportMain δ α} {a : Action transportMain α}

/-- Only `taskA` pops the TX free queue. -/
theorem producer_keeps (hret : ∀ d, OnTheWay s d → s.retQueue d = .txFree)
    (h : PipeStep s a s') (ha : a.party ≠ .producer) :
    s'.taskA = s.taskA ∧ s.queues.txFree <+: s'.queues.txFree := by
  cases h with
  | giveBack hpc =>
      rw [giveBack_queue hret hpc]
      exact ⟨rfl, List.prefix_append _ _⟩
  | popTxFree | emptyTxFree | generate | setData | setTag | setReturnQueue
  | pushTxOp | wake => exact absurd rfl ha
  | _ => exact ⟨rfl, List.prefix_rfl⟩

/-- Only the consumer pops the RX op queue. -/
theorem consumer_keeps (hret : ∀ d, OnTheWay s d → s.retQueue d = .txFree)
    (h : PipeStep s a s') (ha : a.party ≠ .consumer) :
    s'.taskB = s.taskB ∧ s.queues.rxOp <+: s'.queues.rxOp := by
  cases h with
  | giveBack hpc =>
      rw [giveBack_queue hret hpc]
      exact ⟨rfl, List.prefix_rfl⟩
  | deliver => exact ⟨rfl, List.prefix_append _ _⟩
  | popRxOp | emptyRxOp | getData | print | recycle => exact absurd rfl ha
  | _ => exact ⟨rfl, List.prefix_rfl⟩

/-- Only the DMA pops the TX op queue and the RX free queue. -/
theorem mover_keeps (h : PipeStep s a s') (ha : a.party ≠ .mover) :
    s'.dma = s.dma ∧ s.queues.txOp <+: s'.queues.txOp ∧
      s.queues.rxFree <+: s'.queues.rxFree := by
  cases h with
  | pushTxOp => exact ⟨rfl, List.prefix_append _ _, List.prefix_rfl⟩
  | recycle => exact ⟨rfl, List.prefix_rfl, List.prefix_append _ _⟩
  | popTxOp | popRxFree | copy | deliver | giveBack => exact absurd rfl ha
  | _ => exact ⟨rfl, List.prefix_rfl, List.prefix_rfl⟩

/-- A party keeps its work until its turn. -/
theorem hasWork_keep (hret : ∀ d, OnTheWay s d → s.retQueue d = .txFree)
    (h : PipeStep s a s') {p : Party} (ha : a.party ≠ p)
    (hwork : HasWork p s) : HasWork p s' := by
  cases p with
  | producer =>
      obtain ⟨hpc, hq⟩ := producer_keeps hret h ha
      intro hA
      exact ne_nil_of_prefix hq (hwork (hpc ▸ hA))
  | consumer =>
      obtain ⟨hpc, hq⟩ := consumer_keeps hret h ha
      refine ⟨by rw [hpc]; exact hwork.1, fun hB => ?_⟩
      rw [hpc] at hB
      exact ne_nil_of_prefix hq (hwork.2 hB)
  | mover =>
      obtain ⟨hpc, hop, hfree⟩ := mover_keeps h ha
      refine ⟨fun hD => ?_, fun d hD => ?_⟩
      · exact ne_nil_of_prefix hop (hwork.1 (hpc ▸ hD))
      · exact ne_nil_of_prefix hfree (hwork.2 d (hpc ▸ hD))

/-- A party with work has a step in its turn, and it is a call. -/
theorem hasWork_step (hwork : HasWork a.party s) :
    Call s a ∧ ∃ s', step a s = some s' := by
  cases a with
  | taskA v => exact ⟨fun he => hwork he.1 he.2, _, rfl⟩
  | taskB i =>
      obtain rfl := eq_consumer i
      refine ⟨fun he => hwork.2 he.1 he.2, Option.ne_none_iff_exists'.mp ?_⟩
      exact fun hno => hwork.1 (taskB_none hno)
  | dma =>
      refine ⟨id, Option.ne_none_iff_exists'.mp fun hno => ?_⟩
      rcases dma_none hno with ⟨hD, hq⟩ | ⟨d, hD, hq⟩
      · exact hwork.1 hD hq
      · exact hwork.2 d hD hq

/-- A step that is a call is taken by a party with work. -/
theorem hasWork_of_step (hcall : Call s a) (hs : step a s = some s') :
    HasWork a.party s := by
  cases a with
  | taskA v => exact fun hA hq => hcall ⟨hA, hq⟩
  | taskB i =>
      obtain rfl := eq_consumer i
      refine ⟨fun hB => ?_, fun hB hq => hcall ⟨hB, hq⟩⟩
      simp only [step, taskB, hB] at hs
      cases hs
  | dma =>
      refine ⟨fun hD hq => ?_, fun d hD hq => ?_⟩
      · simp only [step, dma, hD, hq] at hs
        cases hs
      · simp only [step, dma, hD, hq] at hs
        cases hs

/-- An empty poll changes nothing. -/
theorem poll_eq (hpoll : EmptyPoll s a) (hs : step a s = some s') :
    s' = s := by
  cases a with
  | taskA v =>
      cases hs
      simp [taskA, hpoll.1, Queues.get, hpoll.2]
  | taskB i =>
      simp only [step, taskB, hpoll.1, Queues.get, hpoll.2] at hs
      cases hs
      rfl
  | dma => exact hpoll.elim

/-- With a descriptor in each pool, a fair schedule makes call after
call. -/
theorem workRule (htx : tx ≠ []) (hrx : rx ≠ []) :
    WorkRule step (start transportMain tx rx retQueue data) Action.party
      HasWork calls where
  exists_work := by
    intro s hr
    obtain ⟨d, -⟩ := List.exists_mem_of_ne_nil tx htx
    have hloops : ∀ i, s.taskB i ≠ .returned := by
      refine hr.invariant (I := fun s => ∀ i, s.taskB i ≠ .returned) ?_ ?_
      · intro i hB
        cases hB
      · intro s a s' hI _ hs
        exact loops_step rfl hI (step_cases hs)
    obtain ⟨a, s', hcall, hs⟩ := progress_of_places htx hrx consumer (data d)
      (places_reachable hr) hloops
    exact ⟨a.party, hasWork_of_step hcall hs⟩
  keep := by
    intro s a s' p hr hs ha hwork
    exact Or.inl
      (hasWork_keep (places_reachable hr).ret (step_cases hs) ha hwork)
  use := by
    intro s a hr hwork
    obtain ⟨hcall, s', hs⟩ := hasWork_step hwork
    refine ⟨s', hs, Nat.lt_of_succ_le (Nat.le_of_eq ?_)⟩
    exact (calls_step rfl (places_reachable hr).ret hcall
      (step_cases hs)).symm
  mono := by
    intro s a s' hr hs
    by_cases hpoll : EmptyPoll s a
    · rw [poll_eq hpoll hs]
    · rw [calls_step rfl (places_reachable hr).ret hpoll (step_cases hs)]
      exact Nat.le_succ _

/-- What is stored stays stored. -/
theorem stored_prefix (h : PipeStep s a s') : s.stored <+: s'.stored := by
  cases h with
  | setData => exact List.prefix_append _ _
  | _ => exact List.prefix_rfl

theorem stored_mono {s₀ : Pipe transportMain δ α}
    {turn : Nat → Action transportMain α} {m : Nat} (hnm : n ≤ m) :
    (trace step s₀ turn n).stored <+: (trace step s₀ turn m).stored := by
  let R (s s' : Pipe transportMain δ α) : Prop := s.stored <+: s'.stored
  refine trace_mono (R := R) ?_ ?_ ?_ hnm
  · exact fun s => List.prefix_rfl
  · exact fun _ _ _ h h' => h.trans h'
  · exact fun _ _ _ _ hs => stored_prefix (step_cases hs)

/-- What is obtained is a prefix of what is stored, whatever the run. -/
theorem got_prefix_reachable (hnodup : (tx ++ rx).Nodup)
    (h : Reach step anyStep (start transportMain tx rx retQueue data) s) :
    s.got <+: s.stored := by
  have hloss : (channel s).Lossless := by
    refine lossless_of_moves channel rfl ?_ h
    intro s a s' hr hs
    have hI := places_reachable hr
    exact channel_move hI.ret (hI.nodup hnodup) (step_cases hs)
  exact hloss.got_prefix

end oneConsumer

/-- Whatever is stored is obtained later, in the order of storing, and
there is no last packet. -/
def Delivers (run : Nat → Pipe transportMain δ α) : Prop :=
  ∀ n, (∃ m, n ≤ m ∧ (run n).stored <+: (run m).got)
    ∧ ∀ k, ∃ m, n ≤ m ∧ k ≤ (run m).got.length

/-- A fair schedule of transport_main.c delivers: each payload `taskA`
ever stores is obtained by `taskB`, in order, and payloads never stop
coming. -/
theorem fair_delivery (htx : tx ≠ []) (hrx : rx ≠ [])
    (hnodup : (tx ++ rx).Nodup) {turn : Nat → Action transportMain α}
    (hfair : Fair Action.party turn) :
    Delivers (trace step (start transportMain tx rx retQueue data) turn) := by
  intro n
  -- the calls grow beyond every bound, and the packets with them
  have hgot : ∀ k, ∃ m, n ≤ m ∧ k ≤ (trace step
      (start transportMain tx rx retQueue data) turn m).got.length := by
    intro k
    have hrule : WorkRule step (start transportMain tx rx retQueue data)
        Action.party HasWork calls := workRule htx hrx
    obtain ⟨m, hm, hcalls⟩ := hrule.unbounded hfair n
      (16 * k + 7 * tx.length + 12 * rx.length + 9)
    have hr := @trace_reach _ _ step
      (start transportMain tx rx retQueue data) turn m
    have hle := calls_le (places_reachable hr) (flowInv_reachable hr)
    have hone : transportMain.consumers = 1 := rfl
    exact ⟨m, hm, by omega⟩
  refine ⟨?_, hgot⟩
  obtain ⟨m, hm, hlen⟩ := hgot (trace step
    (start transportMain tx rx retQueue data) turn n).stored.length
  refine ⟨m, hm, List.prefix_of_prefix_length_le ?_
    (got_prefix_reachable hnodup (trace_reach m)) hlen⟩
  exact stored_mono hm

/-- The three parties in turn, the `n`-th turn of `taskA` generating
`n`. -/
def roundRobin (n : Nat) : Action transportMain Nat :=
  if n % 3 = 0 then .taskA n else if n % 3 = 1 then .dma else .taskB consumer

/-- The parties in turn, over two TX descriptors and one RX descriptor. -/
theorem fair_delivery_roundRobin :
    Fair Action.party roundRobin ∧
      Delivers (trace step (start transportMain [0, 1] [2]
        (fun _ => .rxFree) fun _ => 0) roundRobin) := by
  have hfair : Fair Action.party roundRobin := by
    intro p n
    cases p with
    | producer =>
        refine ⟨3 * n, by omega, ?_⟩
        simp [roundRobin, Action.party]
    | mover =>
        refine ⟨3 * n + 1, by omega, ?_⟩
        simp [roundRobin, Action.party]
    | consumer =>
        refine ⟨3 * n + 2, by omega, ?_⟩
        simp [roundRobin, Action.party]
  exact ⟨hfair, fair_delivery (by decide) (by decide) (by decide) hfair⟩

end DspCodes.Transport

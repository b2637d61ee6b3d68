/-
The producer of main_qmss.c runs dry. `taskA` loops and `taskB` returns
after its first packet, so each consumer gives back one RX descriptor and
no more.

# The bound

A stored packet is with `taskA`, in a queue, with the DMA or has been
popped by a consumer, and each consumer pops one (`CountInv`). The pools
that `master_task` leaves hold 16 TX and 48 RX descriptors, so there is
room for 64 packets and one more for each consumer.

# The two directions

A stuck state is one in which all that room is used: the TX pool is with
the DMA and in the TX op queue, the RX pool in the RX op queue, and every
consumer has returned. Conversely every step other than an empty poll
uses up `budget`, so a run that may store that many packets ends in such
a state, whatever the schedule.
-/
import DspCodes.Transport.Places

namespace DspCodes.Transport

open Lts Counting

variable {P : Program} {δ α : Type _}

-- ============================================================== the set-up

/-- The loop of `master_task` that takes descriptors from the TX free
queue and puts them in the RX free queue; `none` when a pop returns
NULL. -/
def moveToRxFree : Nat → Queues δ → Option (Queues δ)
  | 0, q => some q
  | i + 1, q =>
      match q.txFree with
      | c :: rest =>
          moveToRxFree i (({ q with txFree := rest } : Queues δ).push
            .rxFree c)
      | [] => none

/-- The queues as `master_task` of main_qmss.c leaves them: the
descriptors of `mono_region` in the TX free queue, those of
`host_mono_region` in the RX free queue, and half of the first moved
over. -/
def setUpQueues (mono_region host_mono_region : Fin NUM_DESC → δ) :
    Option (Queues δ) :=
  moveToRxFree (NUM_DESC / 2)
    { txOp := [], txFree := List.ofFn mono_region, rxOp := []
      rxFree := List.ofFn host_mono_region }

/-- With enough descriptors the loop moves them over. -/
theorem moveToRxFree_eq :
    ∀ (n : Nat) (q : Queues δ), n ≤ q.txFree.length →
      moveToRxFree n q = some { q with
        txFree := q.txFree.drop n, rxFree := q.rxFree ++ q.txFree.take n } := by
  intro n
  induction n with
  | zero =>
      intro q _
      simp [moveToRxFree]
  | succ n ih =>
      intro q hn
      obtain ⟨txOp, txFree, rxOp, rxFree⟩ := q
      cases txFree with
      | nil => simp at hn
      | cons c rest =>
          show moveToRxFree n
            { txOp := txOp, txFree := rest, rxOp := rxOp
              rxFree := rxFree ++ [c] } = _
          rw [ih _ (Nat.le_of_succ_le_succ hn)]
          simp

/-- The set-up succeeds, with 16 TX and 48 RX descriptors. -/
theorem setUpQueues_eq (mono_region host_mono_region : Fin NUM_DESC → δ) :
    ∃ tx rx, setUpQueues mono_region host_mono_region
        = some { txOp := [], txFree := tx, rxOp := [], rxFree := rx } ∧
      tx.length = 16 ∧ rx.length = 48 := by
  refine ⟨_, _, moveToRxFree_eq _ _ ?_, ?_, ?_⟩
  · rw [List.length_ofFn]
    decide
  · rw [List.length_drop, List.length_ofFn]
    rfl
  · rw [List.length_append, List.length_take, List.length_ofFn,
      List.length_ofFn]
    rfl

-- =============================================================== counting

/-- Whether the consumer has popped its packet. -/
def TaskB.seen : TaskB δ α → Nat
  | .poll => 0
  | .getData _ => 1
  | .print _ _ => 1
  | .recycle _ => 1
  | .returned => 1

/-- Each stored packet is with `taskA`, in a queue or with the DMA, or has
been popped. -/
def CountInv (s : Pipe P δ α) : Prop :=
  s.stored.length = ∑ i, (s.taskB i).seen + s.queues.rxOp.length
    + s.dma.carries.length + s.queues.txOp.length + s.taskA.carries.length

variable {s s' : Pipe P δ α} {tx rx : List δ} {retQueue : δ → QueueId}
  {data : δ → α}

theorem countInv_start : CountInv (start P tx rx retQueue data) := by
  simp [CountInv, start, TaskB.seen, Dma.carries, TaskA.carries]

theorem seen_le (b : TaskB δ α) : b.seen ≤ 1 := by
  cases b <;> simp [TaskB.seen]

theorem sum_seen_le (taskB : Fin P.consumers → TaskB δ α) :
    ∑ i, (taskB i).seen ≤ P.consumers := by
  refine (Finset.sum_le_sum fun i _ => seen_le (taskB i)).trans ?_
  simp

/-- The descriptors of the TX pool, counted. -/
theorem PlacesInv.tx_length (h : PlacesInv tx rx s) :
    s.taskA.holds.length + s.queues.txFree.length + s.dma.holdsTx.length
      + s.queues.txOp.length = tx.length := by
  have hcard := congrArg Multiset.card h.tx
  simpa only [txPlaces, Multiset.card_add, Multiset.coe_card] using hcard

/-- The descriptors of the RX pool, counted. -/
theorem PlacesInv.rx_length (h : PlacesInv tx rx s) :
    ∑ i, (s.taskB i).holds.length + s.queues.rxFree.length
      + s.dma.holdsRx.length + s.queues.rxOp.length = rx.length := by
  have hcard := congrArg Multiset.card h.rx
  simpa only [rxPlaces, consumersHold, Multiset.card_add, Multiset.card_sum,
    Multiset.coe_card] using hcard

theorem TaskA.carries_le (a : TaskA δ α) :
    a.carries.length ≤ a.holds.length := by
  cases a <;> simp [TaskA.carries, TaskA.holds]

theorem Dma.carries_le (d : Dma δ) :
    d.carries.length ≤ d.holdsTx.length := by
  cases d <;> simp [Dma.carries, Dma.holdsTx]

/-- While `taskA` is about to store there is room for its packet. -/
theorem stored_lt (h : PlacesInv tx rx s) (hc : CountInv s) {d : δ} {v : α}
    (hpc : s.taskA = .setData d v) :
    s.stored.length < tx.length + rx.length + P.consumers := by
  unfold CountInv at hc
  have htx := h.tx_length
  have hrx := h.rx_length
  have hD := s.dma.carries_le
  have hB := sum_seen_le s.taskB
  simp only [hpc, TaskA.holds, TaskA.carries, List.length_singleton,
    List.length_nil] at hc htx
  omega

-- ============================================================= the wedge

/-- `taskA` polls an empty queue, the DMA has no RX free descriptor and
every `taskB` has returned. -/
structure Wedged (s : Pipe P δ α) : Prop where
  producer : s.taskA = .poll ∧ s.queues.txFree = []
  mover : ∃ d, s.dma = .tx d ∧ s.queues.rxFree = []
  consumers : ∀ i, s.taskB i = .returned

/-- With a descriptor in each pool, a stuck pipeline is wedged. -/
theorem Stuck.wedged (hs : Stuck s) (htx : tx ≠ []) (hrx : rx ≠ [])
    (hp : PlacesInv tx rx s) : Wedged s := by
  obtain ⟨hA, hfree⟩ := hs.producer
  have hnone : ∑ i, (s.taskB i).holds.length = 0 := by
    refine Finset.sum_eq_zero fun i _ => ?_
    rcases hs.consumer i with hret | ⟨hpoll, -⟩
    · rw [hret]
      rfl
    · rw [hpoll]
      rfl
  rcases hs.mover with ⟨hD, hop⟩ | ⟨d, hD, hfree'⟩
  · -- nothing moves: no TX descriptor is anywhere
    have hlen := hp.tx_length
    simp only [hA, hfree, hD, hop, TaskA.holds, Dma.holdsTx,
      List.length_nil] at hlen
    exact absurd (List.length_eq_zero_iff.mp hlen.symm) htx
  · refine ⟨hs.producer, ⟨d, hD, hfree'⟩, fun i => ?_⟩
    rcases hs.consumer i with hret | ⟨-, hq⟩
    · exact hret
    · -- a consumer polls: no RX descriptor is anywhere
      have hlen := hp.rx_length
      simp only [hD, hfree', hq, hnone, Dma.holdsRx, List.length_nil] at hlen
      exact absurd (List.length_eq_zero_iff.mp hlen.symm) hrx

/-- A wedged pipeline has used all its room. -/
theorem Wedged.stored_eq (hw : Wedged s) (hp : PlacesInv tx rx s)
    (hc : CountInv s) :
    s.stored.length = tx.length + rx.length + P.consumers := by
  obtain ⟨hA, hfree⟩ := hw.producer
  obtain ⟨d, hD, hfree'⟩ := hw.mover
  have htx := hp.tx_length
  have hrx := hp.rx_length
  unfold CountInv at hc
  simp only [hA, hD, hfree, TaskA.holds, TaskA.carries, Dma.holdsTx,
    Dma.carries, List.length_singleton, List.length_nil] at htx hc
  simp only [hD, hfree', hw.consumers, TaskB.holds, Dma.holdsRx,
    List.length_nil, Finset.sum_const_zero] at hrx
  have hsum : ∑ i, (s.taskB i).seen = P.consumers := by
    simp [hw.consumers, TaskB.seen]
  omega

variable [DecidableEq δ] {a : Action P α}

/-- A consumer that does not loop pops one packet and no more. -/
theorem countInv_step (hl : P.loops = false)
    (hret : ∀ d, OnTheWay s d → s.retQueue d = .txFree) (hI : CountInv s)
    (h : PipeStep s a s') : CountInv s' := by
  unfold CountInv at hI ⊢
  -- a consumer past its pop stays past it
  have hkeep : ∀ i b, b.seen = (s.taskB i).seen →
      ∑ j, (Function.update s.taskB i b j).seen = ∑ j, (s.taskB j).seen :=
    fun i b hb => sum_update_eq (fun _ b => b.seen) s.taskB hb
  cases h with
  | setData hpc =>
      simp only [hpc, TaskA.carries, List.length_append, List.length_singleton,
        List.length_nil] at hI ⊢
      omega
  | pushTxOp hpc =>
      simp only [hpc, TaskA.carries, List.length_append, List.length_singleton,
        List.length_nil] at hI ⊢
      omega
  | @popRxOp i d rest hpc hq =>
      have hB := sum_update (fun _ b => b.seen) s.taskB i (.getData d)
      rw [hpc] at hB
      change _ + 0 = _ + 1 at hB
      rw [hq, List.length_cons] at hI
      simp only [Pipe.setB]
      omega
  | @getData i d hpc =>
      have hB := hkeep i (.print d (s.data d)) (by rw [hpc]; rfl)
      simpa only [Pipe.setB, hB] using hI
  | @print i d v hpc =>
      have hB := hkeep i (.recycle d) (by rw [hpc]; rfl)
      simpa only [Pipe.setB, hB] using hI
  | @recycle i d hpc =>
      have hB := hkeep i .returned (by rw [hpc]; rfl)
      simpa only [Pipe.setB, hl, Bool.false_eq_true, if_false, hB] using hI
  | popTxOp hpc hq =>
      simp only [hpc, hq, Dma.carries, List.length_cons, List.length_nil]
        at hI ⊢
      omega
  | deliver hpc =>
      simp only [hpc, Dma.carries, List.length_append, List.length_singleton,
        List.length_nil] at hI ⊢
      omega
  | giveBack hpc =>
      rw [giveBack_queue hret hpc]
      simpa only [hpc, Dma.carries] using hI
  | popTxFree hpc => simpa only [hpc, TaskA.carries] using hI
  | generate hpc => simpa only [hpc, TaskA.carries] using hI
  | setTag hpc => simpa only [hpc, TaskA.carries] using hI
  | setReturnQueue hpc => simpa only [hpc, TaskA.carries] using hI
  | wake hpc => simpa only [hpc, TaskA.carries] using hI
  | popRxFree hpc => simpa only [hpc, Dma.carries] using hI
  | copy hpc =>
      simpa only [hpc, Dma.carries, List.length_singleton] using hI
  | emptyTxFree => exact hI
  | emptyRxOp => exact hI

theorem countInv_reachable (hl : P.loops = false)
    (h : Reach step anyStep (start P tx rx retQueue data) s) : CountInv s :=
  h.invariant' countInv_start fun _ _ _ hr hI _ hs =>
    countInv_step hl (places_reachable hr).ret hI (step_cases hs)

-- ============================================================= the budget

/-- How far `taskA` is from its next `Cppi_setData`. -/
def TaskA.rank : TaskA δ α → Nat
  | .setTag _ => 6
  | .setReturnQueue _ => 5
  | .push _ => 4
  | .sleep => 3
  | .poll => 2
  | .generate _ => 1
  | .setData _ _ => 0

/-- How far `taskB` is from its return. -/
def TaskB.rank : TaskB δ α → Nat
  | .poll => 4
  | .getData _ => 3
  | .print _ _ => 2
  | .recycle _ => 1
  | .returned => 0

/-- How far the DMA is from giving back its TX descriptor. -/
def Dma.rank : Dma δ → Nat
  | .tx _ => 4
  | .both _ _ => 3
  | .copied _ _ => 2
  | .delivered _ => 1
  | .idle => 0

/-- The steps left when `room` packets can be stored: a packet is worth a
round of `taskA`, a step of `taskA` more than what it hands to the DMA,
and a descriptor in TX op a round of the DMA. -/
def budget (room : Nat) (s : Pipe P δ α) : Nat :=
  20 * (7 * (room - s.stored.length) + s.taskA.rank)
    + 6 * s.queues.txOp.length + s.dma.rank + ∑ i, (s.taskB i).rank

omit [DecidableEq δ] in
/-- A step of `taskB` takes one off the sum. -/
theorem sum_rank_update (i : Fin P.consumers) (b : TaskB δ α)
    (h : (s.taskB i).rank = b.rank + 1) :
    ∑ j, (Function.update s.taskB i b j).rank + 1
      = ∑ j, (s.taskB j).rank := by
  have hsum := sum_update (fun _ b => b.rank) s.taskB i b
  omega

/-- Every step but an empty poll uses up some of the budget. -/
theorem budget_step {room : Nat} (hl : P.loops = false)
    (hret : ∀ d, OnTheWay s d → s.retQueue d = .txFree)
    (hroom : ∀ d v, s.taskA = .setData d v → s.stored.length < room)
    (hpoll : ¬ EmptyPoll s a) (h : PipeStep s a s') :
    budget room s' < budget room s := by
  unfold budget
  cases h with
  | popTxFree hpc =>
      simp only [hpc, TaskA.rank]
      omega
  | generate hpc =>
      simp only [hpc, TaskA.rank]
      omega
  | setData hpc =>
      have hlt := hroom _ _ hpc
      simp only [hpc, TaskA.rank, List.length_append, List.length_singleton]
      omega
  | setTag hpc =>
      simp only [hpc, TaskA.rank]
      omega
  | setReturnQueue hpc =>
      simp only [hpc, TaskA.rank]
      omega
  | pushTxOp hpc =>
      simp only [hpc, TaskA.rank, List.length_append, List.length_singleton]
      omega
  | wake hpc =>
      simp only [hpc, TaskA.rank]
      omega
  | @popRxOp i d rest hpc hq =>
      have hB := sum_rank_update i (.getData d) (by rw [hpc]; rfl)
      simp only [Pipe.setB]
      omega
  | @getData i d hpc =>
      have hB := sum_rank_update i (.print d (s.data d)) (by rw [hpc]; rfl)
      simp only [Pipe.setB]
      omega
  | @print i d v hpc =>
      have hB := sum_rank_update i (.recycle d) (by rw [hpc]; rfl)
      simp only [Pipe.setB]
      omega
  | @recycle i d hpc =>
      have hB := sum_rank_update i .returned (by rw [hpc]; rfl)
      simp only [Pipe.setB, hl, Bool.false_eq_true, if_false]
      omega
  | popTxOp hpc hq =>
      simp only [hpc, hq, Dma.rank, List.length_cons]
      omega
  | popRxFree hpc =>
      simp only [hpc, Dma.rank]
      omega
  | copy hpc =>
      simp only [hpc, Dma.rank]
      omega
  | deliver hpc =>
      simp only [hpc, Dma.rank]
      omega
  | giveBack hpc =>
      simp only [giveBack_queue hret hpc, hpc, Dma.rank]
      omega
  | emptyTxFree hpc hq => exact absurd ⟨hpc, hq⟩ hpoll
  | emptyRxOp hpc hq => exact absurd ⟨hpc, hq⟩ hpoll

-- ================================================================= the law

/-- `taskA` stores at most `k` packets. -/
def StoresAtMost (k : Nat) (s : Pipe P δ α) : Action P α → Prop
  | .taskA _ => ∀ d v, s.taskA = .setData d v → s.stored.length < k
  | .taskB _ => True
  | .dma => True

/-- A wedged pipeline makes no progress. -/
theorem Wedged.not_progress (h : Wedged s) : ¬ Progress s := by
  rintro ⟨a, s', he, hs⟩
  cases a with
  | taskA v => exact he h.producer
  | taskB i =>
      simp only [step, taskB, h.consumers i] at hs
      cases hs
  | dma =>
      obtain ⟨d, hD, hfree⟩ := h.mover
      simp only [step, dma, hD, hfree] at hs
      cases hs

theorem storesAtMost_le {k : Nat}
    (h : Reach step (StoresAtMost k) (start P tx rx retQueue data) s) :
    s.stored.length ≤ k := by
  refine h.invariant (I := fun s => s.stored.length ≤ k) (Nat.zero_le k) ?_
  intro s a s' hI hok hs
  cases step_cases hs with
  | @setData v w d hpc =>
      have hlt : s.stored.length < k := hok d w hpc
      rw [List.length_append, List.length_singleton]
      exact hlt
  | _ => exact hI

/-- A pipeline whose consumers do not loop gets stuck once it may store
as many packets as it has room for. -/
theorem stuck_reachable (hl : P.loops = false) {k : Nat}
    (hk : tx.length + rx.length + P.consumers ≤ k) :
    ∃ s, Reach step (StoresAtMost k) (start P tx rx retQueue data) s ∧
      ¬ Progress s := by
  have hroom : ∀ {s : Pipe P δ α},
      Reach step (StoresAtMost k) (start P tx rx retQueue data) s →
      ∀ d v, s.taskA = .setData d v →
        s.stored.length < tx.length + rx.length + P.consumers :=
    fun hr d v hpc => stored_lt (places_reachable hr.any)
      (countInv_reachable hl hr.any) hpc
  have hdec : ∀ s a s',
      Reach step (StoresAtMost k) (start P tx rx retQueue data) s →
      ¬ EmptyPoll s a ∧ StoresAtMost k s a → step a s = some s' →
      budget (tx.length + rx.length + P.consumers) s'
        < budget (tx.length + rx.length + P.consumers) s :=
    fun s a s' hr hp hs => budget_step hl (places_reachable hr.any).ret
      (hroom hr) hp.1 (step_cases hs)
  obtain ⟨s, hr, hstuck⟩ :=
    Reach.exists_stuck (fun _ _ hp => hp.2) hdec .init
  refine ⟨s, hr, ?_⟩
  rintro ⟨a, s', he, hs⟩
  -- there was room for the packet, so the guard lets every step through
  have hok : StoresAtMost k s a := by
    cases a with
    | taskA v => exact fun d w hpc => (hroom hr d w hpc).trans_le hk
    | taskB i => trivial
    | dma => trivial
  exact hstuck a s' ⟨he, hok⟩ hs

/-- The producer of main_qmss.c with `m` consumers never wedges in the
runs that store at most `k` packets if and only if `k` is less than
`64 + m`, the number of descriptors and consumers. -/
theorem qmss_progress_iff (m : Nat)
    (mono_region host_mono_region : Fin NUM_DESC → δ)
    (retQueue : δ → QueueId) (data : δ → α) (k : Nat) :
    ∃ tx rx, setUpQueues mono_region host_mono_region
        = some { txOp := [], txFree := tx, rxOp := [], rxFree := rx } ∧
      ((∀ s : Pipe (mainQmss m) δ α, Reach step (StoresAtMost k)
          (start (mainQmss m) tx rx retQueue data) s →
          Progress s ∧ ¬ Wedged s) ↔ k < 64 + m) := by
  obtain ⟨tx, rx, hq, htx, hrx⟩ := setUpQueues_eq mono_region host_mono_region
  have hroom : tx.length + rx.length + (mainQmss m).consumers = 64 + m := by
    rw [htx, hrx]
    rfl
  refine ⟨tx, rx, hq, ?_, ?_⟩
  · intro hall
    by_contra hk
    have hle : tx.length + rx.length + (mainQmss m).consumers ≤ k := by
      omega
    obtain ⟨s, hr, hno⟩ := stuck_reachable rfl hle
    exact hno (hall s hr).1
  · intro hk s hr
    have hle := storesAtMost_le hr
    have hw : ¬ Wedged s := by
      intro hw
      have heq := hw.stored_eq (places_reachable hr.any)
        (countInv_reachable rfl hr.any)
      omega
    refine ⟨?_, hw⟩
    by_contra hno
    have hs := Stuck.of_not_progress (data (mono_region ⟨0, by decide⟩)) hno
    refine hw (hs.wedged ?_ ?_ (places_reachable hr.any))
    · rintro rfl
      cases htx
    · rintro rfl
      cases hrx

/-- main_qmss.c with one consumer, its descriptors numbered. -/
def oneConsumer : Pipe (mainQmss 1) Nat Nat :=
  start (mainQmss 1) (List.range' 16 16) (List.range' 32 32 ++ List.range 16)
    (fun _ => .txFree) fun _ => 0

/-- With one consumer the producer wedges after 65 packets. -/
theorem qmss_wedged :
    setUpQueues (fun i => i.val) (fun i => NUM_DESC + i.val)
        = some oneConsumer.queues ∧
      ∃ s, Reach step anyStep oneConsumer s ∧ Wedged s ∧ ¬ Progress s ∧
        s.stored.length = 65 := by
  refine ⟨by decide, ?_⟩
  have hstuck : ∃ s, Reach step (StoresAtMost 65) oneConsumer s ∧
      ¬ Progress s := stuck_reachable rfl (by decide)
  obtain ⟨s, hr, hno⟩ := hstuck
  have hp := places_reachable hr.any
  have hw := (Stuck.of_not_progress 0 hno).wedged (by decide) (by decide) hp
  exact ⟨s, hr.any, hw, hw.not_progress,
    hw.stored_eq hp (countInv_reachable rfl hr.any)⟩

end DspCodes.Transport

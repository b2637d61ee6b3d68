/-
The pipeline of transport_main.c is a lossless FIFO: `stored` is what
`taskA` wrote into its descriptors, `got` what `taskB` obtained from
`Cppi_getData`.

# The refinement

`inFlight` lists, oldest first, the descriptors whose payload is stored
and not yet obtained: it is the contents of an abstract channel. Only
`Cppi_setData` and `Cppi_getData` move the channel; every other step
hands a descriptor on inside the list. The one step that changes the
list's descriptors, the copy of the DMA, keeps their payloads.

# Ownership carries it

`Cppi_setData` and the copy write to a descriptor that `PlacesInv` shows
to be nowhere else, so no payload in flight and none being printed
changes.
-/
import Mathlib.Data.List.Nodup
import DspCodes.Lib.Fifo
import DspCodes.Transport.Places

namespace DspCodes.Transport

open Lts Counting Fifo

variable {P : Program} {δ α : Type _} {s s' : Pipe P δ α}
  {tx rx : List δ} {retQueue : δ → QueueId} {data : δ → α}

-- ============================================================== ownership

/-- The pools have no descriptor in common and none twice. -/
theorem PlacesInv.nodup (h : PlacesInv tx rx s) (hnodup : (tx ++ rx).Nodup) :
    (txPlaces s + rxPlaces s).Nodup := by
  rw [h.tx, h.rx, Multiset.coe_add]
  exact hnodup

/-- What a consumer holds is in an RX place. -/
theorem taskB_mem_rxPlaces {i : Fin P.consumers} {d : δ}
    (hd : d ∈ (s.taskB i).holds) : d ∈ consumersHold s.taskB := by
  rw [consumersHold, Multiset.mem_sum]
  exact ⟨i, Finset.mem_univ i, hd⟩

/-- The descriptor `taskA` holds is nowhere else. -/
theorem taskA_owns (hnodup : (txPlaces s + rxPlaces s).Nodup) {d : δ}
    (hA : s.taskA.holds = [d]) :
    d ∉ s.dma.holdsTx ∧ d ∉ s.queues.txOp ∧ d ∉ rxPlaces s := by
  have hcons : txPlaces s + rxPlaces s
      = d ::ₘ (↑s.queues.txFree + ↑s.dma.holdsTx + ↑s.queues.txOp
        + rxPlaces s) := by
    simp only [txPlaces, hA, Multiset.coe_singleton,
      ← Multiset.singleton_add]
    abel
  rw [hcons, Multiset.nodup_cons] at hnodup
  simp only [Multiset.mem_add, Multiset.mem_coe, not_or] at hnodup
  exact ⟨hnodup.1.1.1.2, hnodup.1.1.2, hnodup.1.2⟩

/-- The RX descriptor the DMA holds is nowhere else. -/
theorem dma_owns (hnodup : (txPlaces s + rxPlaces s).Nodup) {e : δ}
    (hD : s.dma.holdsRx = [e]) :
    e ∉ txPlaces s ∧ e ∉ consumersHold s.taskB ∧ e ∉ s.queues.rxOp := by
  have hcons : txPlaces s + rxPlaces s
      = e ::ₘ (txPlaces s + consumersHold s.taskB + ↑s.queues.rxFree
        + ↑s.queues.rxOp) := by
    simp only [rxPlaces, hD, Multiset.coe_singleton,
      ← Multiset.singleton_add]
    abel
  rw [hcons, Multiset.nodup_cons] at hnodup
  simp only [Multiset.mem_add, Multiset.mem_coe, not_or] at hnodup
  exact ⟨hnodup.1.1.1.1, hnodup.1.1.1.2, hnodup.1.2⟩

-- ============================================================== in flight

/-- The consumer of transport_main.c. -/
def consumer : Fin transportMain.consumers := (0 : Fin 1)

/-- The descriptors with a payload stored and not yet obtained, oldest
first. -/
def inFlight (s : Pipe transportMain δ α) : List δ :=
  (s.taskB consumer).carries ++ s.queues.rxOp ++ s.dma.carries ++ s.queues.txOp
    ++ s.taskA.carries

/-- The channel the pipeline is seen as. -/
def channel (s : Pipe transportMain δ α) : Channel α where
  stored := s.stored
  queue := (inFlight s).map s.data
  got := s.got

theorem eq_consumer (i : Fin transportMain.consumers) : i = consumer :=
  Subsingleton.elim (α := Fin 1) i consumer

/-- Writing to a descriptor that is not in the list changes no payload of
the list. -/
theorem map_update_of_notMem [DecidableEq δ] {l : List δ} {d : δ}
    (hd : d ∉ l) (f : δ → α) (v : α) :
    l.map (Function.update f d v) = l.map f := by
  refine List.map_congr_left fun x hx => ?_
  have hne : x ≠ d := fun heq => hd (heq ▸ hx)
  exact Function.update_of_ne hne v f

-- ============================================================ the moves

variable {s s' : Pipe transportMain δ α} {a : Action transportMain α}

/-- A step that hands on what is in flight leaves the channel alone. -/
theorem stay_of_inFlight (hf : inFlight s' = inFlight s)
    (hd : s'.data = s.data) (hs : s'.stored = s.stored)
    (hg : s'.got = s.got) : Move (channel s) (channel s') := by
  have heq : channel s' = channel s := by
    simp only [channel, hf, hd, hs, hg]
  exact heq ▸ .stay

/-- `Cppi_setData` writes to a descriptor that is not in flight. -/
theorem setData_fresh (hnodup : (txPlaces s + rxPlaces s).Nodup) {d : δ}
    {w : α} (hpc : s.taskA = .setData d w) : d ∉ inFlight s := by
  obtain ⟨hdma, hop, hrx⟩ :=
    taskA_owns hnodup (show s.taskA.holds = [d] by rw [hpc]; rfl)
  simp only [rxPlaces, Multiset.mem_add, Multiset.mem_coe, not_or] at hrx
  intro hd
  simp only [inFlight, hpc, TaskA.carries, List.append_nil,
    List.mem_append] at hd
  rcases hd with ((hB | hq) | hD) | hq
  · exact hrx.1.1.1 (taskB_mem_rxPlaces (TaskB.carries_holds hB))
  · exact hrx.2 hq
  · cases hdma' : s.dma with
    | idle => rw [hdma'] at hD; cases hD
    | tx x => rw [hdma'] at hD hdma; exact hdma hD
    | both x y => rw [hdma'] at hD hdma; exact hdma hD
    | copied x y => rw [hdma'] at hD hrx; exact hrx.1.2 hD
    | delivered x => rw [hdma'] at hD; cases hD
  · exact hop hq

/-- What holds of every consumer and of the new state of one holds after
that one's step. -/
theorem setB_forall {s : Pipe P δ α} {Q : TaskB δ α → Prop}
    (hs : ∀ j, Q (s.taskB j)) {i : Fin P.consumers} {b : TaskB δ α}
    (hb : Q b) : ∀ j, Q ((s.setB i b).taskB j) := by
  intro j
  show Q (Function.update s.taskB i b j)
  by_cases hji : j = i
  · rw [hji, Function.update_self]
    exact hb
  · rw [Function.update_of_ne hji]
    exact hs j

variable [DecidableEq δ]

/-- Each step of the pipeline is a move of the channel: `Cppi_setData`
adds a payload, `Cppi_getData` takes one, the others leave it alone. -/
theorem channel_move (hret : ∀ d, OnTheWay s d → s.retQueue d = .txFree)
    (hnodup : (txPlaces s + rxPlaces s).Nodup) (h : PipeStep s a s') :
    Move (channel s) (channel s') := by
  cases h with
  | @setData v w d hpc =>
      have hd := setData_fresh hnodup hpc
      have hnew : channel { s with
          data := Function.update s.data d w
          stored := s.stored ++ [w]
          taskA := .setTag d }
          = ⟨s.stored ++ [w], (inFlight s).map s.data ++ [w], s.got⟩ := by
        rw [← map_update_of_notMem hd s.data w]
        simp [channel, inFlight, hpc, TaskA.carries]
      rw [hnew]
      exact .enq w
  | @getData i d hpc =>
      obtain rfl := eq_consumer i
      refine .deq ?_
      simp [channel, inFlight, hpc, TaskB.carries, Pipe.setB]
  | @copy d e hpc =>
      obtain ⟨htx, hB, hop⟩ :=
        dma_owns hnodup (show s.dma.holdsRx = [e] by rw [hpc]; rfl)
      simp only [txPlaces, Multiset.mem_add, Multiset.mem_coe, not_or] at htx
      have hB' : e ∉ (s.taskB consumer).carries := fun he =>
        hB (taskB_mem_rxPlaces (TaskB.carries_holds he))
      have hA' : e ∉ s.taskA.carries := fun he =>
        htx.1.1.1 (TaskA.carries_holds he)
      have hsame : channel { s with
          data := Function.update s.data e (s.data d)
          dma := .copied d e } = channel s := by
        simp only [channel, inFlight, hpc, Dma.carries, List.map_append,
          map_update_of_notMem hB', map_update_of_notMem hop,
          map_update_of_notMem htx.2, map_update_of_notMem hA',
          List.map_cons, List.map_nil, Function.update_self]
      rw [hsame]
      exact .stay
  | popTxFree hpc hq =>
      exact stay_of_inFlight (by simp [inFlight, hpc, TaskA.carries]) rfl rfl rfl
  | generate hpc =>
      exact stay_of_inFlight (by simp [inFlight, hpc, TaskA.carries]) rfl rfl rfl
  | setTag hpc =>
      exact stay_of_inFlight (by simp [inFlight, hpc, TaskA.carries]) rfl rfl rfl
  | setReturnQueue hpc =>
      exact stay_of_inFlight (by simp [inFlight, hpc, TaskA.carries]) rfl rfl rfl
  | pushTxOp hpc =>
      exact stay_of_inFlight (by simp [inFlight, hpc, TaskA.carries]) rfl rfl rfl
  | wake hpc =>
      exact stay_of_inFlight (by simp [inFlight, hpc, TaskA.carries]) rfl rfl rfl
  | @popRxOp i d rest hpc hq =>
      obtain rfl := eq_consumer i
      exact stay_of_inFlight
        (by simp [inFlight, hpc, hq, TaskB.carries, Pipe.setB]) rfl rfl rfl
  | @print i d v hpc =>
      obtain rfl := eq_consumer i
      exact stay_of_inFlight
        (by simp [inFlight, hpc, TaskB.carries, Pipe.setB]) rfl rfl rfl
  | @recycle i d hpc =>
      obtain rfl := eq_consumer i
      have hloops : transportMain.loops = true := rfl
      exact stay_of_inFlight (by simp [inFlight, hpc, TaskB.carries,
        Pipe.setB, hloops]) rfl rfl rfl
  | popTxOp hpc hq =>
      exact stay_of_inFlight (by simp [inFlight, hpc, hq, Dma.carries]) rfl rfl rfl
  | popRxFree hpc hq =>
      exact stay_of_inFlight (by simp [inFlight, hpc, Dma.carries]) rfl rfl rfl
  | deliver hpc =>
      exact stay_of_inFlight (by simp [inFlight, hpc, Dma.carries]) rfl rfl rfl
  | giveBack hpc =>
      rw [giveBack_queue hret hpc]
      exact stay_of_inFlight (by simp [inFlight, hpc, Dma.carries]) rfl rfl rfl
  | emptyTxFree => exact .stay
  | emptyRxOp => exact .stay

-- ================================================================= reads

/-- No payload is overwritten while a consumer prints it. -/
def ReadsIntact (s : Pipe P δ α) : Prop :=
  ∀ i d v, s.taskB i = .print d v → s.data d = v

/-- Writing only to descriptors that no consumer holds keeps the reads
intact, and `Cppi_getData` reads what it prints. -/
theorem reads_step {s s' : Pipe P δ α} {a : Action P α}
    (hnodup : (txPlaces s + rxPlaces s).Nodup) (hr : ReadsIntact s)
    (h : PipeStep s a s') : ReadsIntact s' := by
  -- what is being printed is with a consumer
  have hheld : ∀ i d v, s.taskB i = .print d v →
      d ∈ consumersHold s.taskB := by
    intro i d v hB
    refine taskB_mem_rxPlaces (i := i) ?_
    rw [hB]
    exact List.mem_singleton_self d
  have hset : ∀ (i : Fin P.consumers) (b : TaskB δ α),
      (∀ d v, b = .print d v → s.data d = v) →
      ∀ j d v, (s.setB i b).taskB j = .print d v → s.data d = v :=
    fun i b hb =>
      setB_forall (Q := fun b => ∀ d v, b = .print d v → s.data d = v) hr hb
  cases h with
  | @setData v w d hpc =>
      obtain ⟨-, -, hrx⟩ :=
        taskA_owns hnodup (show s.taskA.holds = [d] by rw [hpc]; rfl)
      simp only [rxPlaces, Multiset.mem_add, not_or] at hrx
      intro j x u hj
      have hne : x ≠ d := fun heq => hrx.1.1.1 (heq ▸ hheld j x u hj)
      exact (Function.update_of_ne hne w s.data).trans (hr j x u hj)
  | @copy d e hpc =>
      obtain ⟨-, hB, -⟩ :=
        dma_owns hnodup (show s.dma.holdsRx = [e] by rw [hpc]; rfl)
      intro j x u hj
      have hne : x ≠ e := fun heq => hB (heq ▸ hheld j x u hj)
      exact (Function.update_of_ne hne _ s.data).trans (hr j x u hj)
  | popRxOp hpc hq => exact hset _ _ (by intro d v hb; cases hb)
  | getData hpc =>
      refine hset _ _ ?_
      intro d v hb
      cases hb
      rfl
  | print hpc => exact hset _ _ (by intro d v hb; cases hb)
  | recycle hpc =>
      refine hset _ _ ?_
      intro d v hb
      split at hb <;> cases hb
  | popTxFree => exact hr
  | emptyTxFree => exact hr
  | generate => exact hr
  | setTag => exact hr
  | setReturnQueue => exact hr
  | pushTxOp => exact hr
  | wake => exact hr
  | emptyRxOp => exact hr
  | popTxOp => exact hr
  | popRxFree => exact hr
  | deliver => exact hr
  | giveBack => exact hr

-- ============================================================== progress

/-- A `taskB` that loops never returns. -/
theorem loops_step {s s' : Pipe P δ α} {a : Action P α} (hl : P.loops = true)
    (hI : ∀ i, s.taskB i ≠ .returned) (h : PipeStep s a s') :
    ∀ i, s'.taskB i ≠ .returned := by
  cases h with
  | popRxOp => exact setB_forall (Q := (· ≠ .returned)) hI (by simp)
  | getData => exact setB_forall (Q := (· ≠ .returned)) hI (by simp)
  | print => exact setB_forall (Q := (· ≠ .returned)) hI (by simp)
  | recycle => exact setB_forall (Q := (· ≠ .returned)) hI (by simp [hl])
  | popTxFree => exact hI
  | emptyTxFree => exact hI
  | generate => exact hI
  | setData => exact hI
  | setTag => exact hI
  | setReturnQueue => exact hI
  | pushTxOp => exact hI
  | wake => exact hI
  | emptyRxOp => exact hI
  | popTxOp => exact hI
  | popRxFree => exact hI
  | copy => exact hI
  | deliver => exact hI
  | giveBack => exact hI

/-- With a descriptor in each pool and a consumer, none of them returned,
no state is stuck. -/
theorem progress_of_places (htx : tx ≠ []) (hrx : rx ≠ [])
    {s : Pipe P δ α} (c : Fin P.consumers) (v : α) (hI : PlacesInv tx rx s)
    (hB : ∀ i, s.taskB i ≠ .returned) : Progress s := by
  by_contra hno
  have hs := Stuck.of_not_progress v hno
  obtain ⟨hA, hfree⟩ := hs.producer
  have hpoll : ∀ i, (s.taskB i).holds = [] := by
    intro i
    rcases hs.consumer i with hret | ⟨hp, -⟩
    · exact absurd hret (hB i)
    · rw [hp]
      rfl
  have hnone : consumersHold s.taskB = 0 :=
    Finset.sum_eq_zero fun i _ => by rw [hpoll i]; rfl
  rcases hs.mover with ⟨hD, hop⟩ | ⟨d, hD, hfree'⟩
  · -- nothing moves: no TX descriptor is anywhere
    have h0 := hI.tx
    simp only [txPlaces, hA, hfree, hD, hop, TaskA.holds, Dma.holdsTx,
      Multiset.coe_nil, add_zero] at h0
    exact htx (Multiset.coe_eq_zero tx |>.mp h0.symm)
  · -- the DMA waits for an RX descriptor: none is anywhere
    have hop : s.queues.rxOp = [] := by
      rcases hs.consumer c with hret | ⟨-, hq⟩
      · exact absurd hret (hB c)
      · exact hq
    have h0 := hI.rx
    simp only [rxPlaces, hnone, hfree', hD, hop, Dma.holdsRx,
      Multiset.coe_nil, add_zero] at h0
    exact hrx (Multiset.coe_eq_zero rx |>.mp h0.symm)

-- ================================================================= the law

/-- Each descriptor is in exactly one place, a TX descriptor in a TX place
and an RX descriptor in an RX place. -/
structure OnePlace (tx rx : List δ) (s : Pipe P δ α) : Prop where
  once : ∀ d ∈ tx ++ rx, (txPlaces s + rxPlaces s).count d = 1
  tx : ∀ d, d ∈ txPlaces s ↔ d ∈ tx
  rx : ∀ d, d ∈ rxPlaces s ↔ d ∈ rx
  apart : ∀ d ∈ txPlaces s, d ∉ rxPlaces s

theorem OnePlace.of_places {s : Pipe P δ α} (hI : PlacesInv tx rx s)
    (hnodup : (tx ++ rx).Nodup) : OnePlace tx rx s where
  once := by
    intro d hd
    refine Multiset.count_eq_one_of_mem (hI.nodup hnodup) ?_
    rw [hI.tx, hI.rx]
    simpa using hd
  tx := by
    intro d
    rw [hI.tx, Multiset.mem_coe]
  rx := by
    intro d
    rw [hI.rx, Multiset.mem_coe]
  apart := by
    intro d hd
    rw [hI.tx, Multiset.mem_coe] at hd
    rw [hI.rx, Multiset.mem_coe]
    exact List.disjoint_of_nodup_append hnodup hd

/-- The pipeline of transport_main.c is a lossless FIFO that never gets
stuck. In every reachable state each descriptor is in exactly one place;
what `taskB` obtained is a prefix of what `taskA` stored, the rest is in
flight in the order it was stored; no payload changes while it is
printed; and some step other than an empty poll is possible. -/
theorem transport_fifo (htx : tx ≠ []) (hrx : rx ≠ [])
    (hnodup : (tx ++ rx).Nodup)
    (h : Reach step anyStep (start transportMain tx rx retQueue data) s) :
    OnePlace tx rx s ∧ s.stored = s.got ++ (inFlight s).map s.data ∧
      s.got <+: s.stored ∧ ReadsIntact s ∧ Progress s := by
  have hplaces := places_reachable h
  have hloss : (channel s).Lossless := by
    refine lossless_of_moves channel rfl ?_ h
    intro s a s' hr hs
    have hI := places_reachable hr
    exact channel_move hI.ret (hI.nodup hnodup) (step_cases hs)
  have hreads : ReadsIntact s := by
    refine h.invariant' (I := ReadsIntact) ?_ ?_
    · intro i d v hB
      cases hB
    · intro s a s' hr hI _ hs
      exact reads_step ((places_reachable hr).nodup hnodup) hI (step_cases hs)
  have hloops : ∀ i, s.taskB i ≠ .returned := by
    refine h.invariant (I := fun s => ∀ i, s.taskB i ≠ .returned) ?_ ?_
    · intro i hB
      cases hB
    · intro s a s' hI _ hs
      exact loops_step rfl hI (step_cases hs)
  obtain ⟨d, -⟩ := List.exists_mem_of_ne_nil tx htx
  exact ⟨.of_places hplaces hnodup, hloss, hloss.got_prefix, hreads,
    progress_of_places htx hrx consumer (data d) hplaces hloops⟩

/-- One packet through two TX descriptors and one RX descriptor. -/
theorem transport_fifo_one_packet :
    ∃ s : Pipe transportMain Nat Nat, Reach step anyStep
        (start transportMain [0, 1] [2] (fun _ => .rxFree) fun _ => 0) s ∧
      s.got = [7] ∧ OnePlace [0, 1] [2] s ∧
      s.stored = s.got ++ (inFlight s).map s.data ∧
      s.got <+: s.stored ∧ ReadsIntact s ∧ Progress s := by
  have hrun : ∃ s : Pipe transportMain Nat Nat, Reach step anyStep
      (start transportMain [0, 1] [2] (fun _ => .rxFree) fun _ => 0) s ∧
      s.got = [7] :=
    exists_reach_of_runOk (List.replicate 6 (.taskA 7)
      ++ List.replicate 4 .dma ++ List.replicate 2 (.taskB consumer))
      (by decide)
  obtain ⟨s, hr, hgot⟩ := hrun
  exact ⟨s, hr, hgot,
    transport_fifo (by decide) (by decide) (by decide) hr⟩

end DspCodes.Transport

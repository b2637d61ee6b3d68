/-
Where the descriptors of the pipeline are. Every TX descriptor is with
`taskA`, in the TX free queue, with the DMA or in the TX op queue; every
RX descriptor is with a consumer, in the RX free queue, with the DMA or in
the RX op queue. `PlacesInv` says so as an equation of multisets, for any
number of consumers, looping or not.

What keeps the two kinds apart is the return queue: the DMA pushes a TX
descriptor wherever its field says, and `taskA` has written the TX free
queue into it before it pushes the descriptor.
-/
import Mathlib.Tactic.Abel
import DspCodes.Lib.Count
import DspCodes.Transport.Pipe

namespace DspCodes.Transport

open Lts Counting

variable {P : Program} {δ α : Type _} {s s' : Pipe P δ α} {a : Action P α}
  {tx rx : List δ} {retQueue : δ → QueueId} {data : δ → α}

-- ================================================== where descriptors are

/-- The descriptor `taskA` holds. -/
def TaskA.holds : TaskA δ α → List δ
  | .poll => []
  | .generate d => [d]
  | .setData d _ => [d]
  | .setTag d => [d]
  | .setReturnQueue d => [d]
  | .push d => [d]
  | .sleep => []

/-- The descriptor `taskB` holds. -/
def TaskB.holds : TaskB δ α → List δ
  | .poll => []
  | .getData d => [d]
  | .print d _ => [d]
  | .recycle d => [d]
  | .returned => []

/-- The TX descriptor the DMA holds. -/
def Dma.holdsTx : Dma δ → List δ
  | .idle => []
  | .tx d => [d]
  | .both d _ => [d]
  | .copied d _ => [d]
  | .delivered d => [d]

/-- The RX descriptor the DMA holds. -/
def Dma.holdsRx : Dma δ → List δ
  | .idle => []
  | .tx _ => []
  | .both _ e => [e]
  | .copied _ e => [e]
  | .delivered _ => []

/-- What the consumers hold. -/
def consumersHold {m : Nat} (taskB : Fin m → TaskB δ α) : Multiset δ :=
  ∑ i, (↑(taskB i).holds : Multiset δ)

/-- The places of the TX descriptors, together. -/
def txPlaces (s : Pipe P δ α) : Multiset δ :=
  ↑s.taskA.holds + ↑s.queues.txFree + ↑s.dma.holdsTx + ↑s.queues.txOp

/-- The places of the RX descriptors, together. -/
def rxPlaces (s : Pipe P δ α) : Multiset δ :=
  consumersHold s.taskB + ↑s.queues.rxFree + ↑s.dma.holdsRx
    + ↑s.queues.rxOp

/-- The descriptor is on its way from the push of `taskA` to the return
queue. -/
def OnTheWay (s : Pipe P δ α) (d : δ) : Prop :=
  d ∈ s.queues.txOp ∨ d ∈ s.dma.holdsTx ∨ s.taskA = .push d

/-- The TX descriptors are in the TX places, the RX descriptors in the RX
places, and whatever the DMA will give back goes to the TX free queue. -/
structure PlacesInv (tx rx : List δ) (s : Pipe P δ α) : Prop where
  tx : txPlaces s = ↑tx
  rx : rxPlaces s = ↑rx
  ret : ∀ d, OnTheWay s d → s.retQueue d = .txFree

-- ================================================= what carries a payload

/-- The descriptor with `taskA` that carries a stored payload. -/
def TaskA.carries : TaskA δ α → List δ
  | .poll => []
  | .generate _ => []
  | .setData _ _ => []
  | .setTag d => [d]
  | .setReturnQueue d => [d]
  | .push d => [d]
  | .sleep => []

/-- The descriptor with `taskB` whose payload is still to be obtained. -/
def TaskB.carries : TaskB δ α → List δ
  | .poll => []
  | .getData d => [d]
  | .print _ _ => []
  | .recycle _ => []
  | .returned => []

/-- The descriptor with the DMA that carries the payload. -/
def Dma.carries : Dma δ → List δ
  | .idle => []
  | .tx d => [d]
  | .both d _ => [d]
  | .copied _ e => [e]
  | .delivered _ => []

theorem TaskA.carries_holds {a : TaskA δ α} {x : δ} (hx : x ∈ a.carries) :
    x ∈ a.holds := by
  cases a <;> first | exact hx | cases hx

theorem TaskB.carries_holds {b : TaskB δ α} {x : δ} (hx : x ∈ b.carries) :
    x ∈ b.holds := by
  cases b <;> first | exact hx | cases hx

-- ===================================================== the places in sum

theorem consumersHold_update {m : Nat} (taskB : Fin m → TaskB δ α)
    (i : Fin m) (b : TaskB δ α) :
    consumersHold (Function.update taskB i b) + ↑(taskB i).holds
      = consumersHold taskB + ↑b.holds :=
  sum_update (fun _ b => (↑b.holds : Multiset δ)) taskB i b

/-- The pools start in the free queues. -/
theorem PlacesInv.start : PlacesInv tx rx (start P tx rx retQueue data) where
  tx := by simp [txPlaces, Transport.start, TaskA.holds, Dma.holdsTx]
  rx := by
    simp [rxPlaces, Transport.start, consumersHold, TaskB.holds, Dma.holdsRx]
  ret := by
    intro d hd
    rcases hd with hq | hd | hA
    · cases hq
    · cases hd
    · cases hA

/-- After a packet `taskB` is empty-handed, looping or not. -/
theorem holds_next :
    (if P.loops then TaskB.poll else (TaskB.returned : TaskB δ α)).holds
      = [] := by
  split <;> rfl

/-- The DMA gives a descriptor back to the TX free queue. -/
theorem giveBack_queue (hret : ∀ d, OnTheWay s d → s.retQueue d = .txFree)
    {d : δ} (hpc : s.dma = .delivered d) :
    s.queues.push (s.retQueue d) d
      = { s.queues with txFree := s.queues.txFree ++ [d] } := by
  have hd : s.retQueue d = .txFree :=
    hret d (Or.inr (Or.inl (by rw [hpc]; exact List.mem_singleton_self d)))
  rw [hd]
  rfl

-- ==================================================== what a step can do

variable [DecidableEq δ]

/-- The outcomes of one step of the pipeline. -/
inductive PipeStep (s : Pipe P δ α) : Action P α → Pipe P δ α → Prop
  | popTxFree {v : α} {d : δ} {rest : List δ} (hpc : s.taskA = .poll)
      (hq : s.queues.txFree = d :: rest) :
      PipeStep s (.taskA v) { s with
        queues := { s.queues with txFree := rest }, taskA := .generate d }
  | emptyTxFree {v : α} (hpc : s.taskA = .poll) (hq : s.queues.txFree = []) :
      PipeStep s (.taskA v) s
  | generate {v : α} {d : δ} (hpc : s.taskA = .generate d) :
      PipeStep s (.taskA v) { s with taskA := .setData d v }
  | setData {v w : α} {d : δ} (hpc : s.taskA = .setData d w) :
      PipeStep s (.taskA v) { s with
        data := Function.update s.data d w
        stored := s.stored ++ [w]
        taskA := .setTag d }
  | setTag {v : α} {d : δ} (hpc : s.taskA = .setTag d) :
      PipeStep s (.taskA v) { s with taskA := .setReturnQueue d }
  | setReturnQueue {v : α} {d : δ} (hpc : s.taskA = .setReturnQueue d) :
      PipeStep s (.taskA v) { s with
        retQueue := Function.update s.retQueue d .txFree
        taskA := .push d }
  | pushTxOp {v : α} {d : δ} (hpc : s.taskA = .push d) :
      PipeStep s (.taskA v) { s with
        queues := { s.queues with txOp := s.queues.txOp ++ [d] }
        taskA := .sleep }
  | wake {v : α} (hpc : s.taskA = .sleep) :
      PipeStep s (.taskA v) { s with taskA := .poll }
  | popRxOp {i : Fin P.consumers} {d : δ} {rest : List δ}
      (hpc : s.taskB i = .poll) (hq : s.queues.rxOp = d :: rest) :
      PipeStep s (.taskB i)
        ({ s with queues := { s.queues with rxOp := rest } }.setB i
          (.getData d))
  | emptyRxOp {i : Fin P.consumers} (hpc : s.taskB i = .poll)
      (hq : s.queues.rxOp = []) : PipeStep s (.taskB i) s
  | getData {i : Fin P.consumers} {d : δ} (hpc : s.taskB i = .getData d) :
      PipeStep s (.taskB i)
        ({ s with got := s.got ++ [s.data d] }.setB i (.print d (s.data d)))
  | print {i : Fin P.consumers} {d : δ} {v : α}
      (hpc : s.taskB i = .print d v) :
      PipeStep s (.taskB i) (s.setB i (.recycle d))
  | recycle {i : Fin P.consumers} {d : δ} (hpc : s.taskB i = .recycle d) :
      PipeStep s (.taskB i)
        ({ s with queues :=
            { s.queues with rxFree := s.queues.rxFree ++ [d] } }.setB i
          (if P.loops then .poll else .returned))
  | popTxOp {d : δ} {rest : List δ} (hpc : s.dma = .idle)
      (hq : s.queues.txOp = d :: rest) :
      PipeStep s .dma { s with
        queues := { s.queues with txOp := rest }, dma := .tx d }
  | popRxFree {d e : δ} {rest : List δ} (hpc : s.dma = .tx d)
      (hq : s.queues.rxFree = e :: rest) :
      PipeStep s .dma { s with
        queues := { s.queues with rxFree := rest }, dma := .both d e }
  | copy {d e : δ} (hpc : s.dma = .both d e) :
      PipeStep s .dma { s with
        data := Function.update s.data e (s.data d), dma := .copied d e }
  | deliver {d e : δ} (hpc : s.dma = .copied d e) :
      PipeStep s .dma { s with
        queues := { s.queues with rxOp := s.queues.rxOp ++ [e] }
        dma := .delivered d }
  | giveBack {d : δ} (hpc : s.dma = .delivered d) :
      PipeStep s .dma { s with
        queues := s.queues.push (s.retQueue d) d, dma := .idle }

/-- `step` has no other outcome. -/
theorem step_cases (h : step a s = some s') : PipeStep s a s' := by
  cases a with
  | taskA v =>
      cases h
      show PipeStep s (.taskA v) (taskA .txOp .txFree v s)
      unfold taskA
      split
      next hpc =>
        split
        next d rest hq => exact .popTxFree hpc hq
        next hq => exact .emptyTxFree hpc hq
      next hpc => exact .generate hpc
      next hpc => exact .setData hpc
      next hpc => exact .setTag hpc
      next hpc => exact .setReturnQueue hpc
      next hpc => exact .pushTxOp hpc
      next hpc => exact .wake hpc
  | taskB i =>
      simp only [step, taskB] at h
      split at h
      next hpc =>
        split at h
        next d rest hq => cases h; exact .popRxOp hpc hq
        next hq => cases h; exact .emptyRxOp hpc hq
      next hpc => cases h; exact .getData hpc
      next hpc => cases h; exact .print hpc
      next hpc => cases h; exact .recycle hpc
      next => cases h
  | dma =>
      simp only [step, dma] at h
      split at h
      next hpc =>
        split at h
        next d rest hq => cases h; exact .popTxOp hpc hq
        next => cases h
      next hpc =>
        split at h
        next e rest hq => cases h; exact .popRxFree hpc hq
        next => cases h
      next hpc => cases h; exact .copy hpc
      next hpc => cases h; exact .deliver hpc
      next hpc => cases h; exact .giveBack hpc

-- ============================================================ conservation

/-- No step creates, drops or misplaces a TX descriptor. -/
theorem txPlaces_step (hret : ∀ d, OnTheWay s d → s.retQueue d = .txFree)
    (h : PipeStep s a s') : txPlaces s' = txPlaces s := by
  cases h with
  | popTxFree hpc hq =>
      simp only [txPlaces, hpc, hq, TaskA.holds, ← Multiset.cons_coe,
        ← Multiset.singleton_add, Multiset.coe_nil]
      abel
  | pushTxOp hpc =>
      simp only [txPlaces, hpc, TaskA.holds, ← Multiset.coe_add]
      abel
  | popTxOp hpc hq =>
      simp only [txPlaces, hpc, hq, Dma.holdsTx, ← Multiset.cons_coe,
        ← Multiset.singleton_add, Multiset.coe_nil]
      abel
  | giveBack hpc =>
      simp only [txPlaces, giveBack_queue hret hpc, hpc, Dma.holdsTx,
        ← Multiset.coe_add, Multiset.coe_nil]
      abel
  | generate hpc => simp only [txPlaces, hpc, TaskA.holds]
  | setData hpc => simp only [txPlaces, hpc, TaskA.holds]
  | setTag hpc => simp only [txPlaces, hpc, TaskA.holds]
  | setReturnQueue hpc => simp only [txPlaces, hpc, TaskA.holds]
  | wake hpc => simp only [txPlaces, hpc, TaskA.holds]
  | popRxFree hpc => simp only [txPlaces, hpc, Dma.holdsTx]
  | copy hpc => simp only [txPlaces, hpc, Dma.holdsTx]
  | deliver hpc => simp only [txPlaces, hpc, Dma.holdsTx]
  | emptyTxFree => rfl
  | emptyRxOp => rfl
  | popRxOp => rfl
  | getData => rfl
  | print => rfl
  | recycle => rfl

/-- No step creates, drops or misplaces an RX descriptor. -/
theorem rxPlaces_step (hret : ∀ d, OnTheWay s d → s.retQueue d = .txFree)
    (h : PipeStep s a s') : rxPlaces s' = rxPlaces s := by
  cases h with
  | @popRxOp i d rest hpc hq =>
      have hB := consumersHold_update s.taskB i (.getData d)
      simp only [hpc, TaskB.holds, Multiset.coe_nil, add_zero,
        Multiset.coe_singleton] at hB
      simp only [rxPlaces, Pipe.setB, hB, hq, ← Multiset.cons_coe,
        ← Multiset.singleton_add]
      abel
  | @getData i d hpc =>
      have hB := consumersHold_update s.taskB i (.print d (s.data d))
      rw [hpc] at hB
      simp only [rxPlaces, Pipe.setB, add_right_cancel hB]
  | @print i d v hpc =>
      have hB := consumersHold_update s.taskB i (.recycle d)
      rw [hpc] at hB
      simp only [rxPlaces, Pipe.setB, add_right_cancel hB]
  | @recycle i d hpc =>
      have hB := consumersHold_update s.taskB i
        (if P.loops then .poll else .returned)
      rw [hpc, holds_next, Multiset.coe_nil, add_zero, TaskB.holds] at hB
      simp only [rxPlaces, Pipe.setB, ← hB, ← Multiset.coe_add]
      abel
  | popRxFree hpc hq =>
      simp only [rxPlaces, hpc, hq, Dma.holdsRx, ← Multiset.cons_coe,
        ← Multiset.singleton_add, Multiset.coe_nil]
      abel
  | deliver hpc =>
      simp only [rxPlaces, hpc, Dma.holdsRx, ← Multiset.coe_add,
        Multiset.coe_nil]
      abel
  | giveBack hpc =>
      simp only [rxPlaces, giveBack_queue hret hpc, hpc, Dma.holdsRx]
  | popTxOp hpc => simp only [rxPlaces, hpc, Dma.holdsRx]
  | copy hpc => simp only [rxPlaces, hpc, Dma.holdsRx]
  | popTxFree => rfl
  | emptyTxFree => rfl
  | generate => rfl
  | setData => rfl
  | setTag => rfl
  | setReturnQueue => rfl
  | pushTxOp => rfl
  | wake => rfl
  | emptyRxOp => rfl

/-- What the DMA will give back goes to the TX free queue. -/
theorem ret_step (hret : ∀ d, OnTheWay s d → s.retQueue d = .txFree)
    (h : PipeStep s a s') : ∀ d, OnTheWay s' d → s'.retQueue d = .txFree := by
  intro x hx
  cases h with
  | @setReturnQueue v d hpc =>
      show Function.update s.retQueue d .txFree x = .txFree
      by_cases hxd : x = d
      · rw [hxd, Function.update_self]
      · rw [Function.update_of_ne hxd]
        refine hret x ?_
        rcases hx with hq | hd | hA
        · exact Or.inl hq
        · exact Or.inr (Or.inl hd)
        · cases hA
          exact absurd rfl hxd
  | @pushTxOp v d hpc =>
      refine hret x ?_
      rcases hx with hq | hd | hA
      · rcases List.mem_append.mp hq with hold | hnew
        · exact Or.inl hold
        · exact Or.inr (Or.inr (List.mem_singleton.mp hnew ▸ hpc))
      · exact Or.inr (Or.inl hd)
      · cases hA
  | @popTxOp d rest hpc hq =>
      refine hret x ?_
      rcases hx with hx | hd | hA
      · exact Or.inl (hq ▸ List.mem_cons_of_mem d hx)
      · refine Or.inl ?_
        rw [hq, List.mem_singleton.mp hd]
        exact List.mem_cons_self
      · exact Or.inr (Or.inr hA)
  | @giveBack d hpc =>
      refine hret x ?_
      rw [giveBack_queue hret hpc] at hx
      rcases hx with hq | hd | hA
      · exact Or.inl hq
      · cases hd
      · exact Or.inr (Or.inr hA)
  | popRxFree hpc =>
      exact hret x (by simpa [OnTheWay, hpc, Dma.holdsTx] using hx)
  | copy hpc =>
      exact hret x (by simpa [OnTheWay, hpc, Dma.holdsTx] using hx)
  | deliver hpc =>
      exact hret x (by simpa [OnTheWay, hpc, Dma.holdsTx] using hx)
  | popTxFree hpc => exact hret x (by simpa [OnTheWay, hpc] using hx)
  | generate hpc => exact hret x (by simpa [OnTheWay, hpc] using hx)
  | setData hpc => exact hret x (by simpa [OnTheWay, hpc] using hx)
  | setTag hpc => exact hret x (by simpa [OnTheWay, hpc] using hx)
  | wake hpc => exact hret x (by simpa [OnTheWay, hpc] using hx)
  | emptyTxFree => exact hret x hx
  | emptyRxOp => exact hret x hx
  | popRxOp => exact hret x hx
  | getData => exact hret x hx
  | print => exact hret x hx
  | recycle => exact hret x hx

-- ============================================================ reachability

theorem PlacesInv.step (h : PlacesInv tx rx s) (hs : PipeStep s a s') :
    PlacesInv tx rx s' where
  tx := (txPlaces_step h.ret hs).trans h.tx
  rx := (rxPlaces_step h.ret hs).trans h.rx
  ret := ret_step h.ret hs

/-- Every reachable state keeps the pools apart and complete, whatever
the program. -/
theorem places_reachable
    (h : Reach step anyStep (Transport.start P tx rx retQueue data) s) :
    PlacesInv tx rx s :=
  h.invariant .start fun _ _ _ hI _ hs => hI.step (step_cases hs)

-- ====================================================== a stuck pipeline

/-- What a stuck pipeline looks like: every party polls an empty queue,
waits for a descriptor or has returned. -/
structure Stuck (s : Pipe P δ α) : Prop where
  producer : s.taskA = .poll ∧ s.queues.txFree = []
  consumer : ∀ i, s.taskB i = .returned ∨
    s.taskB i = .poll ∧ s.queues.rxOp = []
  mover : s.dma = .idle ∧ s.queues.txOp = [] ∨
    ∃ d, s.dma = .tx d ∧ s.queues.rxFree = []

theorem taskB_none {i : Fin P.consumers} (h : step (.taskB i) s = none) :
    s.taskB i = .returned := by
  simp only [step, taskB] at h
  split at h
  next => split at h <;> cases h
  next => cases h
  next => cases h
  next => cases h
  next hpc => exact hpc

theorem dma_none (h : step .dma s = none) :
    s.dma = .idle ∧ s.queues.txOp = [] ∨
      ∃ d, s.dma = .tx d ∧ s.queues.rxFree = [] := by
  simp only [step, dma] at h
  split at h
  next hpc =>
    split at h
    next => cases h
    next hq => exact Or.inl ⟨hpc, hq⟩
  next d hpc =>
    split at h
    next => cases h
    next hq => exact Or.inr ⟨d, hpc, hq⟩
  next => cases h
  next => cases h
  next => cases h

/-- A state without progress is stuck. -/
theorem Stuck.of_not_progress (v : α) (h : ¬ Progress s) : Stuck s := by
  have hno : ∀ a, step a s = none ∨ EmptyPoll s a := by
    intro a
    cases hs : step a s with
    | none => exact Or.inl rfl
    | some s' => exact Or.inr (by_contra fun he => h ⟨a, s', he, hs⟩)
  refine ⟨?_, fun i => ?_, ?_⟩
  · rcases hno (.taskA v) with hn | he
    · cases hn
    · exact he
  · exact (hno (.taskB i)).imp taskB_none id
  · rcases hno .dma with hn | he
    · exact dma_none hn
    · exact he.elim

end DspCodes.Transport

/-
The abstract FIFO channel: a queue with the history of what was stored in
it and what was got out of it.

A system refines it when each of its steps is a `Move` of the channel
that an abstraction function reads off its state: it adds one value at
the end, takes the first one, or leaves the channel alone
(`lossless_of_moves`). Then nothing is lost, duplicated or reordered:
what was stored is what was got, followed by what is still queued.
-/
import DspCodes.Lib.Lts

namespace DspCodes.Fifo

open Lts

/-- A queue and its history. -/
structure Channel (V : Type _) where
  stored : List V
  queue : List V
  got : List V

variable {V : Type _} {q q' : Channel V}

/-- Nothing stored yet. -/
def Channel.empty : Channel V := ⟨[], [], []⟩

/-- What one step may do to a channel. -/
inductive Move : Channel V → Channel V → Prop
  | stay {q : Channel V} : Move q q
  | enq {q : Channel V} (v : V) :
      Move q ⟨q.stored ++ [v], q.queue ++ [v], q.got⟩
  | deq {q : Channel V} {v : V} {rest : List V} (h : q.queue = v :: rest) :
      Move q ⟨q.stored, rest, q.got ++ [v]⟩

/-- What was stored is what was got and what is queued, in this order. -/
def Channel.Lossless (q : Channel V) : Prop := q.stored = q.got ++ q.queue

theorem Move.lossless (h : Move q q') (hq : q.Lossless) : q'.Lossless := by
  unfold Channel.Lossless at hq ⊢
  cases h with
  | stay => exact hq
  | enq v =>
      show q.stored ++ [v] = q.got ++ (q.queue ++ [v])
      rw [hq, List.append_assoc]
  | @deq v rest h =>
      show q.stored = q.got ++ [v] ++ rest
      rw [hq, h, List.append_assoc]
      rfl

/-- What was got is a prefix of what was stored. -/
theorem Channel.Lossless.got_prefix (hq : q.Lossless) : q.got <+: q.stored :=
  ⟨q.queue, hq.symm⟩

/-- A system whose steps are moves of a channel is lossless. -/
theorem lossless_of_moves {σ α : Type _} {step : α → σ → Option σ}
    {ok : σ → α → Prop} {s₀ s : σ} (abs : σ → Channel V)
    (h₀ : abs s₀ = Channel.empty)
    (hmove : ∀ s a s', Reach step ok s₀ s → step a s = some s' →
      Move (abs s) (abs s')) (h : Reach step ok s₀ s) : (abs s).Lossless := by
  refine h.invariant' (I := fun s => (abs s).Lossless) ?_ ?_
  · rw [h₀]
    rfl
  · intro s a s' hr hs _ happ
    exact (hmove s a s' hr happ).lossless hs

end DspCodes.Fifo

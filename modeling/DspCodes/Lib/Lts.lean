/-
Labelled transition systems with a partial, executable step: the run
layer every concurrent model of this development stands on.

# Guards

`Reach` carries a guard `ok : σ → α → Prop`, checked on the state
BEFORE each step. The unguarded system is `anyStep`; a guarded one is
the same program under a restricted schedule, so a law proved over
`Reach step ok s₀` says which schedules keep it, and `Reach.mono`
compares two guards.

# The two directions

Invariants go through `Reach.invariant` (initial, and kept by every
guarded step). Concrete runs go through `runOk`, which executes a
schedule and checks the guard as it goes: `reach_of_runOk` turns a
schedule the kernel has replayed into a reachable state.
-/
import Mathlib.Data.List.Basic

namespace DspCodes.Lts

variable {σ α : Type _}

/-- The guard that lets every step through. -/
def anyStep : σ → α → Prop := fun _ _ => True

instance : DecidableRel (anyStep : σ → α → Prop) := fun _ _ => isTrue trivial

/-- The states a run from `s₀` can reach when each step meets the guard
`ok` in the state it is taken from. -/
inductive Reach (step : α → σ → Option σ) (ok : σ → α → Prop) (s₀ : σ) :
    σ → Prop
  | init : Reach step ok s₀ s₀
  | step {s s' : σ} (a : α) :
      Reach step ok s₀ s → ok s a → step a s = some s' →
      Reach step ok s₀ s'

variable {step : α → σ → Option σ} {ok ok' : σ → α → Prop} {s₀ s s' : σ}

-- ======================================================= invariant rules

/-- What holds initially and is kept by every guarded step holds of
every reachable state. -/
theorem Reach.invariant {I : σ → Prop} (h₀ : I s₀)
    (hstep : ∀ s a s', I s → ok s a → step a s = some s' → I s') :
    ∀ {s : σ}, Reach step ok s₀ s → I s := by
  intro s h
  induction h with
  | init => exact h₀
  | step a _ hok hs ih => exact hstep _ a _ ih hok hs

/-- The invariant rule for an invariant whose step lemma may use that
the state before the step is reachable. -/
theorem Reach.invariant' {I : σ → Prop} (h₀ : I s₀)
    (hstep : ∀ s a s', Reach step ok s₀ s → I s → ok s a →
      step a s = some s' → I s') :
    ∀ {s : σ}, Reach step ok s₀ s → I s := by
  intro s h
  induction h with
  | init => exact h₀
  | step a hr hok hs ih => exact hstep _ a _ hr ih hok hs

/-- A weaker guard reaches at least as much. -/
theorem Reach.mono (hok : ∀ s a, ok s a → ok' s a)
    (h : Reach step ok s₀ s) : Reach step ok' s₀ s := by
  induction h with
  | init => exact .init
  | step a _ hg hs ih => exact .step a ih (hok _ _ hg) hs

/-- Every guarded run is a run. -/
theorem Reach.any (h : Reach step ok s₀ s) : Reach step anyStep s₀ s :=
  h.mono fun _ _ _ => trivial

/-- Runs compose. -/
theorem Reach.trans (h : Reach step ok s₀ s) (h' : Reach step ok s s') :
    Reach step ok s₀ s' := by
  induction h' with
  | init => exact h
  | step a _ hg hs ih => exact .step a ih hg hs

/-- A refinement mapping: when each step is a step of another system under
`f`, or leaves the image where it is, the image of a reachable state is
reachable there. -/
theorem Reach.refines {τ β : Type _} {step' : β → τ → Option τ} {t₀ : τ}
    (f : σ → τ) (h₀ : f s₀ = t₀)
    (hstep : ∀ s a s', Reach step ok s₀ s → step a s = some s' →
      f s' = f s ∨ ∃ b, step' b (f s) = some (f s'))
    (h : Reach step ok s₀ s) : Reach step' anyStep t₀ (f s) := by
  induction h with
  | init =>
      rw [h₀]
      exact .init
  | step a hr _ hs ih =>
      rcases hstep _ a _ hr hs with heq | ⟨b, hb⟩
      · rw [heq]
        exact ih
      · exact .step b ih trivial hb

/-- The converse: when this system comes to whatever the other can do from
the image of a reachable state, it comes to all the other reaches. -/
theorem Reach.covers {τ β : Type _} {step' : β → τ → Option τ}
    {ok' : τ → β → Prop} (f : σ → τ)
    (hfollow : ∀ s, Reach step ok s₀ s → ∀ b t, ok' (f s) b →
      step' b (f s) = some t → ∃ s', Reach step ok s s' ∧ f s' = t)
    (h : Reach step ok s₀ s) {t : τ} (hrun : Reach step' ok' (f s) t) :
    ∃ s', Reach step ok s s' ∧ f s' = t := by
  induction hrun with
  | init => exact ⟨s, .init, rfl⟩
  | step b _ hg hs ih =>
      obtain ⟨s₁, hfirst, rfl⟩ := ih
      obtain ⟨s₂, hrest, heq⟩ := hfollow s₁ (h.trans hfirst) b _ hg hs
      exact ⟨s₂, hfirst.trans hrest, heq⟩

-- =========================================================== termination

/-- If the productive steps use up a measure, a state without a
productive step is reachable from every reachable state. -/
theorem Reach.exists_stuck {μ : σ → Nat} {prod : σ → α → Prop}
    (hok : ∀ s a, prod s a → ok s a)
    (hdec : ∀ s a s', Reach step ok s₀ s → prod s a →
      step a s = some s' → μ s' < μ s) (h : Reach step ok s₀ s) :
    ∃ s', Reach step ok s₀ s' ∧ ∀ a s'', prod s' a → step a s' ≠ some s'' := by
  induction hn : μ s using Nat.strongRecOn generalizing s with
  | ind n ih =>
      by_cases hgo : ∃ a s', prod s a ∧ step a s = some s'
      · obtain ⟨a, s', hp, hs⟩ := hgo
        have hlt := hdec s a s' h hp hs
        exact ih (μ s') (hn ▸ hlt) (.step a h (hok s a hp) hs) rfl
      · exact ⟨s, h, fun a s' hp hs => hgo ⟨a, s', hp, hs⟩⟩

/-- The leads-to rule: when every reachable state with `P` has a step to
`Q`, or to `P` with a smaller measure, a run from `P` comes to `Q`. -/
theorem Reach.leadsTo {P Q : σ → Prop} (μ : σ → Nat)
    (hstep : ∀ s, Reach step ok s₀ s → P s → ∃ a s', ok s a
      ∧ step a s = some s' ∧ (Q s' ∨ P s' ∧ μ s' < μ s))
    (h : Reach step ok s₀ s) (hp : P s) : ∃ s', Reach step ok s s' ∧ Q s' := by
  induction hn : μ s using Nat.strongRecOn generalizing s with
  | ind n ih =>
      obtain ⟨a, s₁, hg, hs, hnext⟩ := hstep s h hp
      have hfirst : Reach step ok s s₁ := .step a .init hg hs
      rcases hnext with hq | ⟨hp₁, hlt⟩
      · exact ⟨s₁, hfirst, hq⟩
      · obtain ⟨s₂, hrest, hq⟩ :=
          ih (μ s₁) (hn ▸ hlt) (.step a h hg hs) hp₁ rfl
        exact ⟨s₂, hfirst.trans hrest, hq⟩

-- ====================================================== executable runs

/-- Execute a list of actions, failing on the first disabled one. -/
def exec (step : α → σ → Option σ) (s : σ) : List α → Option σ
  | [] => some s
  | a :: rest => (step a s).bind fun s' => exec step s' rest

theorem exec_cons {a : α} (h : step a s = some s') (rest : List α) :
    exec step s (a :: rest) = exec step s' rest := by
  rw [exec, h]
  rfl

theorem exec_append {acts : List α} :
    ∀ {s s' : σ}, exec step s acts = some s' → ∀ rest,
      exec step s (acts ++ rest) = exec step s' rest := by
  induction acts with
  | nil =>
      intro s s' h rest
      cases h
      rfl
  | cons a acts ih =>
      intro s s' h rest
      rw [exec] at h
      obtain ⟨s₁, hs, hrest⟩ := Option.bind_eq_some_iff.mp h
      rw [List.cons_append, exec_cons hs]
      exact ih hrest rest

/-- What executes is reachable. -/
theorem reach_of_exec {acts : List α} :
    ∀ {s s' : σ}, exec step s acts = some s' → Reach step anyStep s s' := by
  induction acts with
  | nil =>
      intro s s' h
      cases h
      exact .init
  | cons a acts ih =>
      intro s s' h
      rw [exec] at h
      obtain ⟨s₁, hs, hrest⟩ := Option.bind_eq_some_iff.mp h
      exact (Reach.step a .init trivial hs).trans (ih hrest)

/-- `n` steps of one partial function. -/
def iter {β : Type _} (f : β → Option β) : Nat → β → Option β
  | 0, r => some r
  | n + 1, r => (f r).bind (iter f n)

theorem iter_add {β : Type _} {f : β → Option β} {n m : Nat} :
    ∀ {r r' : β}, iter f n r = some r' → iter f (n + m) r = iter f m r' := by
  induction n with
  | zero =>
      intro r r' h
      cases h
      rw [Nat.zero_add]
  | succ n ih =>
      intro r r' h
      obtain ⟨r₁, hr₁, hrest⟩ := Option.bind_eq_some_iff.mp h
      rw [Nat.succ_add]
      show (f r).bind (iter f (n + m)) = _
      rw [hr₁]
      exact ih hrest

/-- Execute a schedule, failing on the first step that is disabled or
that its guard refuses. -/
def runOk (step : α → σ → Option σ) (ok : σ → α → Prop)
    [∀ s a, Decidable (ok s a)] (s : σ) : List α → Option σ
  | [] => some s
  | a :: rest =>
      if ok s a then
        match step a s with
        | some s' => runOk step ok s' rest
        | none => none
      else none

/-- A schedule that executes lands on a reachable state. -/
theorem reach_of_runOk [∀ s a, Decidable (ok s a)] :
    ∀ {acts : List α} {s s' : σ}, Reach step ok s₀ s →
      runOk step ok s acts = some s' → Reach step ok s₀ s' := by
  intro acts
  induction acts with
  | nil =>
      intro s s' hr hrun
      simp only [runOk, Option.some.injEq] at hrun
      exact hrun ▸ hr
  | cons a rest ih =>
      intro s s' hr hrun
      unfold runOk at hrun
      split at hrun
      case isFalse => cases hrun
      case isTrue hg =>
        split at hrun
        next s₁ hs => exact ih (.step a hr hg hs) hrun
        next => cases hrun

/-- A replayed schedule whose last state has a decidable property gives
a reachable state that has it. -/
theorem exists_reach_of_runOk [∀ s a, Decidable (ok s a)]
    {p : σ → Prop} [DecidablePred p] (acts : List α)
    (h : (runOk step ok s₀ acts).any (fun s => decide (p s)) = true) :
    ∃ s, Reach step ok s₀ s ∧ p s := by
  cases hrun : runOk step ok s₀ acts with
  | none => simp [hrun] at h
  | some s =>
      exact ⟨s, reach_of_runOk .init hrun, by simpa [hrun] using h⟩

end DspCodes.Lts

/-
Schedules of a partial, executable step: counted runs, infinite schedules
and the rule that turns weak fairness into progress.

# Counted runs

`ReachIn` is `Reach` with the number of steps. A measure that every
guarded step raises by one is that number, so a bound on the measure in
terms of the state bounds the length of every run to it.

# Fairness

An infinite schedule names whose turn it is at each moment; a party that
cannot use its turn leaves the state alone. It is fair when no party waits
for its turn forever. Nothing is asked of enabledness: `WorkRule` asks that
a party with work keeps it until its turn, or loses it to progress, which
is what weak fairness needs.
-/
import DspCodes.Lib.Lts

namespace DspCodes.Lts

variable {σ α ι : Type _}

-- ========================================================== counted runs

/-- The states a run from `s₀` reaches in so many guarded steps. -/
inductive ReachIn (step : α → σ → Option σ) (ok : σ → α → Prop) (s₀ : σ) :
    Nat → σ → Prop
  | init : ReachIn step ok s₀ 0 s₀
  | step {n : Nat} {s s' : σ} (a : α) :
      ReachIn step ok s₀ n s → ok s a → step a s = some s' →
      ReachIn step ok s₀ (n + 1) s'

variable {step : α → σ → Option σ} {ok : σ → α → Prop} {s₀ s : σ} {n : Nat}

theorem ReachIn.reach (h : ReachIn step ok s₀ n s) : Reach step ok s₀ s := by
  induction h with
  | init => exact .init
  | step a _ hok hs ih => exact .step a ih hok hs

/-- A measure that every guarded step raises by one counts the steps. -/
theorem ReachIn.measure {μ : σ → Nat}
    (hstep : ∀ s a s', Reach step ok s₀ s → ok s a → step a s = some s' →
      μ s' = μ s + 1) (h : ReachIn step ok s₀ n s) : μ s = μ s₀ + n := by
  induction h with
  | init => rfl
  | @step n s s' a hr hok hs ih =>
      calc μ s' = μ s + 1 := hstep s a s' hr.reach hok hs
        _ = μ s₀ + (n + 1) := by rw [ih, Nat.add_assoc]

/-- A schedule that executes is a run of its length. -/
theorem reachIn_of_runOk [∀ s a, Decidable (ok s a)] {acts : List α} :
    ∀ {n : Nat} {s s' : σ}, ReachIn step ok s₀ n s →
      runOk step ok s acts = some s' →
      ReachIn step ok s₀ (n + acts.length) s' := by
  induction acts with
  | nil =>
      intro n s s' hr hrun
      cases hrun
      exact hr
  | cons a rest ih =>
      intro n s s' hr hrun
      unfold runOk at hrun
      split at hrun
      case isFalse => cases hrun
      case isTrue hg =>
        split at hrun
        next s₁ hs =>
          have h := ih (.step a hr hg hs) hrun
          rwa [Nat.add_assoc, Nat.add_comm 1] at h
        next => cases hrun

-- ==================================================== infinite schedules

/-- The state after so many turns. -/
def trace (step : α → σ → Option σ) (s₀ : σ) (turn : Nat → α) : Nat → σ
  | 0 => s₀
  | n + 1 =>
      (step (turn n) (trace step s₀ turn n)).getD (trace step s₀ turn n)

/-- No party waits for its turn forever. -/
def Fair (party : α → ι) (turn : Nat → α) : Prop :=
  ∀ p n, ∃ m, n ≤ m ∧ party (turn m) = p

variable {turn : Nat → α}

/-- A turn is a step, or is not used. -/
theorem trace_succ (n : Nat) :
    step (turn n) (trace step s₀ turn n) = some (trace step s₀ turn (n + 1))
      ∨ trace step s₀ turn (n + 1) = trace step s₀ turn n := by
  cases hs : step (turn n) (trace step s₀ turn n) with
  | none => exact Or.inr (by rw [trace, hs]; rfl)
  | some s' => exact Or.inl (by rw [trace, hs]; rfl)

theorem trace_of_step {s' : σ}
    (hs : step (turn n) (trace step s₀ turn n) = some s') :
    trace step s₀ turn (n + 1) = s' := by
  rw [trace, hs]
  rfl

/-- A schedule is a run. -/
theorem trace_reach (n : Nat) :
    Reach step anyStep s₀ (trace step s₀ turn n) := by
  induction n with
  | zero => exact .init
  | succ n ih =>
      rcases @trace_succ _ _ step s₀ turn n with hs | heq
      · exact .step (turn n) ih trivial hs
      · rw [heq]
        exact ih

/-- What every step keeps in order stays in order along a schedule. -/
theorem trace_mono {R : σ → σ → Prop} (hrefl : ∀ s, R s s)
    (htrans : ∀ s s' s'', R s s' → R s' s'' → R s s'')
    (hstep : ∀ s a s', Reach step anyStep s₀ s → step a s = some s' → R s s')
    {m : Nat} (hnm : n ≤ m) :
    R (trace step s₀ turn n) (trace step s₀ turn m) := by
  obtain ⟨d, rfl⟩ := Nat.exists_eq_add_of_le hnm
  clear hnm
  induction d with
  | zero => exact hrefl _
  | succ d ih =>
      refine htrans _ _ _ ih ?_
      rcases @trace_succ _ _ step s₀ turn (n + d) with hs | heq
      · exact hstep _ _ _ (trace_reach _) hs
      · rw [← Nat.add_assoc, heq]
        exact hrefl _

-- ============================================================== fairness

/-- What a fair schedule needs to make progress: some party has work, a
party keeps its work until its turn unless the count goes up, a turn with
work raises it, and nothing lowers it. -/
structure WorkRule (step : α → σ → Option σ) (s₀ : σ) (party : α → ι)
    (work : ι → σ → Prop) (count : σ → Nat) : Prop where
  exists_work : ∀ s, Reach step anyStep s₀ s → ∃ p, work p s
  keep : ∀ s a s' p, Reach step anyStep s₀ s → step a s = some s' →
    party a ≠ p → work p s → work p s' ∨ count s < count s'
  use : ∀ s a, Reach step anyStep s₀ s → work (party a) s →
    ∃ s', step a s = some s' ∧ count s < count s'
  mono : ∀ s a s', Reach step anyStep s₀ s → step a s = some s' →
    count s ≤ count s'

variable {party : α → ι} {work : ι → σ → Prop} {count : σ → Nat}

theorem WorkRule.lt_succ (h : WorkRule step s₀ party work count)
    (hwork : work (party (turn n)) (trace step s₀ turn n)) :
    count (trace step s₀ turn n) < count (trace step s₀ turn (n + 1)) := by
  obtain ⟨s', hs, hlt⟩ := h.use _ _ (trace_reach n) hwork
  rw [trace_of_step hs]
  exact hlt

theorem WorkRule.count_le (h : WorkRule step s₀ party work count) {m : Nat}
    (hnm : n ≤ m) :
    count (trace step s₀ turn n) ≤ count (trace step s₀ turn m) := by
  refine trace_mono (R := fun s s' => count s ≤ count s') ?_ ?_ h.mono hnm
  · exact fun s => Nat.le_refl (count s)
  · exact fun _ _ _ hle hle' => Nat.le_trans hle hle'

/-- By the turn of a party with work the count has gone up. -/
theorem WorkRule.lt_of_turn (h : WorkRule step s₀ party work count) {p : ι}
    (d : Nat) : ∀ n : Nat, party (turn (n + d)) = p →
      work p (trace step s₀ turn n) →
      count (trace step s₀ turn n)
        < count (trace step s₀ turn (n + d + 1)) := by
  induction d with
  | zero =>
      rintro n rfl hwork
      exact h.lt_succ hwork
  | succ d ih =>
      intro n hturn hwork
      by_cases hnow : party (turn n) = p
      · subst hnow
        exact Nat.lt_of_lt_of_le (h.lt_succ hwork) (h.count_le (by omega))
      · -- another party's turn: the work stays, or the count goes up
        have hkept : work p (trace step s₀ turn (n + 1)) ∨
            count (trace step s₀ turn n)
              < count (trace step s₀ turn (n + 1)) := by
          rcases @trace_succ _ _ step s₀ turn n with hs | heq
          · exact h.keep _ _ _ p (trace_reach n) hs hnow hwork
          · rw [heq]
            exact Or.inl hwork
        rcases hkept with hkept | hlt
        · have hnext : n + 1 + d = n + (d + 1) := by omega
          have hlt := ih (n + 1) (by rw [hnext]; exact hturn) hkept
          rw [hnext] at hlt
          exact Nat.lt_of_le_of_lt (h.count_le (Nat.le_succ n)) hlt
        · exact Nat.lt_of_lt_of_le hlt (h.count_le (by omega))

/-- A fair schedule raises the count beyond every bound. -/
theorem WorkRule.unbounded (h : WorkRule step s₀ party work count)
    (hfair : Fair party turn) (n k : Nat) :
    ∃ m, n ≤ m ∧ k ≤ count (trace step s₀ turn m) := by
  induction k with
  | zero => exact ⟨n, Nat.le_refl n, Nat.zero_le _⟩
  | succ k ih =>
      obtain ⟨m, hm, hk⟩ := ih
      obtain ⟨p, hwork⟩ := h.exists_work _ (trace_reach m)
      obtain ⟨i, hi, hturn⟩ := hfair p m
      obtain ⟨d, rfl⟩ := Nat.exists_eq_add_of_le hi
      refine ⟨m + d + 1, by omega, ?_⟩
      exact Nat.lt_of_le_of_lt hk (h.lt_of_turn d m hturn hwork)

end DspCodes.Lts

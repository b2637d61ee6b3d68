/-
Loops over a state. First `while`: the turn count of a run that ends, and
the two rules for it.

`Ends n s t` says that the loop, entered in `s`, is left in `t` after
exactly `n` turns; a loop that is never left has no such `n`. The count
and the last state are functions of the first one (`Ends.unique`), so a
count that is proved is exact. `run` is the same loop with a bound on the
turns, for evaluation.

Then `for (i = 0; i < n; i++)`, which always ends: `forLoop` and its
rule.
-/
import Mathlib.Tactic.Common

namespace DspCodes.Loop

variable {σ : Type _} {guard : σ → Bool} {body : σ → σ} {s t t' : σ}
  {m n : Nat}

/-- `while (guard) body` takes `s` to `t` in `n` turns. -/
inductive Ends (guard : σ → Bool) (body : σ → σ) : Nat → σ → σ → Prop
  | exit {s : σ} (h : guard s = false) : Ends guard body 0 s s
  | turn {n : Nat} {s t : σ} (h : guard s = true)
      (hrest : Ends guard body n (body s) t) : Ends guard body (n + 1) s t

/-- The loop with at most `n` turns; `none` when they do not suffice. -/
def run (guard : σ → Bool) (body : σ → σ) : Nat → σ → Option σ
  | 0, s => if guard s then none else some s
  | n + 1, s => if guard s then run guard body n (body s) else some s

theorem Ends.unique (h : Ends guard body m s t) :
    ∀ {n : Nat}, Ends guard body n s t' → m = n ∧ t = t' := by
  induction h with
  | exit hexit =>
      intro n h'
      cases h' with
      | exit => exact ⟨rfl, rfl⟩
      | turn hgo => rw [hexit] at hgo; cases hgo
  | turn hgo _ ih =>
      intro n h'
      cases h' with
      | exit hexit => rw [hexit] at hgo; cases hgo
      | turn _ hrest' =>
          obtain ⟨hm, ht⟩ := ih hrest'
          exact ⟨congrArg (· + 1) hm, ht⟩

/-- With enough turns the bounded loop gives the state it ends in. -/
theorem Ends.run (h : Ends guard body n s t) :
    ∀ {m : Nat}, n ≤ m → Loop.run guard body m s = some t := by
  induction h with
  | exit hexit =>
      intro m _
      cases m <;> simp only [Loop.run, hexit, Bool.false_eq_true, if_false]
  | turn hgo _ ih =>
      intro m hle
      obtain ⟨m, rfl⟩ := Nat.exists_eq_add_one_of_ne_zero
        (Nat.ne_of_gt (Nat.lt_of_lt_of_le (Nat.succ_pos _) hle))
      simp only [Loop.run, hgo, if_true]
      exact ih (Nat.le_of_succ_le_succ hle)

theorem ends_of_run : ∀ {n : Nat} {s : σ}, run guard body n s = some t →
    ∃ m, m ≤ n ∧ Ends guard body m s t := by
  intro n
  induction n with
  | zero =>
      intro s h
      cases hs : guard s with
      | false =>
          simp only [run, hs, Bool.false_eq_true, if_false,
            Option.some.injEq] at h
          exact ⟨0, Nat.le_refl 0, h ▸ .exit hs⟩
      | true => simp [run, hs] at h
  | succ n ih =>
      intro s h
      cases hs : guard s with
      | false =>
          simp only [run, hs, Bool.false_eq_true, if_false,
            Option.some.injEq] at h
          exact ⟨0, Nat.zero_le _, h ▸ .exit hs⟩
      | true =>
          simp only [run, hs, if_true] at h
          obtain ⟨m, hm, hends⟩ := ih h
          exact ⟨m + 1, Nat.succ_le_succ hm, .turn hs hends⟩

/-- The rule for a counted loop: `I k` holds before turn `k`, the guard
holds there up to turn `n` and no longer. -/
theorem ends_of_invariant {I : Nat → σ → Prop}
    (hturn : ∀ k s, k < n → I k s → guard s = true ∧ I (k + 1) (body s))
    (hexit : ∀ s, I n s → guard s = false) (hs : I 0 s) :
    ∃ t, Ends guard body n s t ∧ I n t := by
  suffices hfrom : ∀ j k s, k + j = n → I k s →
      ∃ t, Ends guard body j s t ∧ I n t from
    hfrom n 0 s (Nat.zero_add n) hs
  intro j
  induction j with
  | zero =>
      intro k s hk hI
      rw [Nat.add_zero] at hk
      subst hk
      exact ⟨s, .exit (hexit s hI), hI⟩
  | succ j ih =>
      intro k s hk hI
      obtain ⟨hgo, hI'⟩ := hturn k s (by omega) hI
      obtain ⟨t, hends, ht⟩ := ih (k + 1) (body s) (by omega) hI'
      exact ⟨t, .turn hgo hends, ht⟩

/-- The rule for a loop that is never left: an invariant under which the
guard holds. -/
theorem not_ends_of_invariant {I : σ → Prop}
    (hguard : ∀ s, I s → guard s = true) (hbody : ∀ s, I s → I (body s))
    (hs : I s) : ¬ Ends guard body n s t := by
  intro h
  induction h with
  | exit hexit =>
      rw [hguard _ hs] at hexit
      cases hexit
  | turn _ _ ih => exact ih (hbody _ hs)

-- =========================================================== counted loops

/-- `for (i = 0; i < n; i++) body`. -/
def forLoop (n : Nat) (body : Nat → σ → σ) (s : σ) : σ :=
  (List.range n).foldl (fun s i => body i s) s

variable {turn : Nat → σ → σ}

theorem forLoop_zero (turn : Nat → σ → σ) (s : σ) : forLoop 0 turn s = s :=
  rfl

theorem forLoop_succ (n : Nat) (turn : Nat → σ → σ) (s : σ) :
    forLoop (n + 1) turn s = turn n (forLoop n turn s) := by
  unfold forLoop
  rw [List.range_succ, List.foldl_append, List.foldl_cons, List.foldl_nil]

/-- The rule: `I k` holds before turn `k`. -/
theorem forLoop_invariant {I : Nat → σ → Prop} (hs : I 0 s)
    (hturn : ∀ k s, k < n → I k s → I (k + 1) (turn k s)) :
    I n (forLoop n turn s) := by
  suffices hfrom : ∀ k, k ≤ n → I k (forLoop k turn s) from
    hfrom n (Nat.le_refl n)
  intro k
  induction k with
  | zero => exact fun _ => hs
  | succ k ih =>
      intro hk
      rw [forLoop_succ]
      exact hturn k _ hk (ih (Nat.le_of_succ_le hk))

end DspCodes.Loop

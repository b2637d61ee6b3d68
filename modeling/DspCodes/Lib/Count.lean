/-
Sums over a finite family of components of which one step changes one:
the counting rules behind every "how many descriptors are where"
invariant. All are stated with the old term on the left and the new
term on the right, so that they need no subtraction and `omega` can
take it from there.
-/
import Mathlib.Algebra.BigOperators.Group.Finset.Basic
import Mathlib.Algebra.BigOperators.Fin
import Mathlib.Algebra.Order.BigOperators.Group.Finset
import Mathlib.Algebra.BigOperators.Ring.Finset
import Mathlib.Algebra.BigOperators.Intervals

namespace DspCodes.Counting

variable {ι β M : Type _} [Fintype ι] [DecidableEq ι] [AddCommMonoid M]

/-- Replacing component `c` replaces its term of the sum. -/
theorem sum_update (f : ι → β → M) (g : ι → β) (c : ι) (x : β) :
    ∑ i, f i (Function.update g c x i) + f c (g c)
      = ∑ i, f i (g i) + f c x := by
  rw [← Finset.sum_erase_add _ _ (Finset.mem_univ c),
    ← Finset.sum_erase_add _ (fun i => f i (g i)) (Finset.mem_univ c)]
  have hrest : ∑ i ∈ Finset.univ.erase c, f i (Function.update g c x i)
      = ∑ i ∈ Finset.univ.erase c, f i (g i) := by
    refine Finset.sum_congr rfl fun i hi => ?_
    rw [Function.update_of_ne (Finset.ne_of_mem_erase hi)]
  rw [hrest, Function.update_self]
  exact add_right_comm _ _ _

/-- The same for a family over the naturals of which finitely many are
summed. -/
theorem sum_fin_update {m : Nat} (f : β → M) (g : Nat → β) (c : Fin m)
    (x : β) :
    ∑ i : Fin m, f (Function.update g c.val x i.val) + f (g c.val)
      = ∑ i : Fin m, f (g i.val) + f x := by
  have hcomp : ∀ i : Fin m, Function.update g c.val x i.val
      = Function.update (fun i : Fin m => g i.val) c x i := by
    intro i
    simp only [Function.update_apply, Fin.ext_iff]
  simp only [hcomp]
  exact sum_update (fun _ => f) (fun i : Fin m => g i.val) c x

/-- A component that gives `a` and takes `b` makes the sum do the same. -/
theorem sum_fin_move [IsRightCancelAdd M] {m : Nat} (f : β → M) (g : Nat → β)
    {c : Nat} (hc : c < m) {x : β} {a b : M} (h : f x + a = f (g c) + b) :
    ∑ i : Fin m, f (Function.update g c x i.val) + a
      = ∑ i : Fin m, f (g i.val) + b := by
  have hsum := sum_fin_update f g ⟨c, hc⟩ x
  refine add_right_cancel (b := f (g c)) ?_
  calc ∑ i : Fin m, f (Function.update g c x i.val) + a + f (g c)
      = ∑ i : Fin m, f (g i.val) + f x + a := by
        rw [add_right_comm, hsum]
    _ = ∑ i : Fin m, f (g i.val) + b + f (g c) := by
        rw [add_assoc, h, add_assoc, add_comm b]

/-- A component whose term does not change leaves the sum alone. -/
theorem sum_update_eq (f : ι → β → M) (g : ι → β) {c : ι} {x : β}
    (h : f c x = f c (g c)) :
    ∑ i, f i (Function.update g c x i) = ∑ i, f i (g i) := by
  refine Finset.sum_congr rfl fun i _ => ?_
  by_cases hi : i = c
  · subst hi
    rw [Function.update_self, h]
  · rw [Function.update_of_ne hi]

/-- One component strictly below the bound keeps the sum strictly below
the total. -/
theorem sum_lt_of_le {ι : Type _} [Fintype ι] (f g : ι → Nat)
    (hle : ∀ i, f i ≤ g i) {c : ι} (hlt : f c < g c) :
    ∑ i, f i < ∑ i, g i :=
  Finset.sum_lt_sum (fun i _ => hle i) ⟨c, Finset.mem_univ c, hlt⟩

/-- A sum of indicator terms that reaches the number of components has
every term at one. -/
theorem eq_one_of_sum_eq_card {ι : Type _} [Fintype ι] (f : ι → Nat)
    (hle : ∀ i, f i ≤ 1) (hsum : Fintype.card ι ≤ ∑ i, f i) (c : ι) :
    f c = 1 := by
  by_contra hne
  have hc : f c < 1 := Nat.lt_of_le_of_ne (hle c) hne
  have hlt := sum_lt_of_le f (fun _ => 1) hle hc
  rw [Finset.sum_const, smul_eq_mul, mul_one, Finset.card_univ] at hlt
  omega

/-- A sum of one has exactly one positive term. -/
theorem existsUnique_of_sum_eq_one {ι : Type _} [Fintype ι] {f : ι → Nat}
    (h : ∑ i, f i = 1) : ∃! i, 0 < f i := by
  obtain ⟨i, -, hi⟩ : ∃ i ∈ Finset.univ, f i ≠ 0 := by
    refine Finset.exists_ne_zero_of_sum_ne_zero ?_
    rw [h]
    exact Nat.one_ne_zero
  refine ⟨i, Nat.pos_of_ne_zero hi, fun j hj => ?_⟩
  by_contra hne
  have hpair := Finset.add_le_sum (f := f) (fun _ _ => Nat.zero_le _)
    (Finset.mem_univ i) (Finset.mem_univ j) (Ne.symm hne)
  omega

/-- A list has no more entries among finitely many distinct values than
it has entries. -/
theorem sum_count_le_length {ι β : Type _} [Fintype ι] [BEq β]
    [LawfulBEq β] (f : ι → β) (hf : Function.Injective f) (l : List β) :
    ∑ i, l.count (f i) ≤ l.length := by
  induction l with
  | nil => simp
  | cons b l ih =>
      have hone : ∑ i, (if (b == f i) = true then 1 else 0) ≤ 1 := by
        rw [Finset.sum_boole, Nat.cast_id, Finset.card_le_one]
        intro i hi j hj
        simp only [beq_iff_eq, Finset.mem_filter, Finset.mem_univ,
          true_and] at hi hj
        exact hf (hi.symm.trans hj)
      simp only [List.count_cons, Finset.sum_add_distrib, List.length_cons]
      omega

/-- The first `k` of `n` components contribute `m` each. -/
theorem sum_fin_lt {n k : Nat} (m : Nat) (hk : k ≤ n) :
    ∑ i : Fin n, (if i.val < k then m else 0) = k * m := by
  have hfirst : (Finset.range n).filter (· < k) = Finset.range k := by
    ext i
    simp only [Finset.mem_filter, Finset.mem_range]
    omega
  rw [Fin.sum_univ_eq_sum_range (fun i => if i < k then m else 0) n,
    ← Finset.sum_filter, hfirst, Finset.sum_const, Finset.card_range,
    smul_eq_mul]

/-- The numbers from 1 to `n` of which those up to `t` count. -/
theorem countP_range'_of_le {f : Nat → Bool} {t n : Nat} (ht : t ≤ n)
    (hf : ∀ i, 0 < i → (f i = true ↔ i ≤ t)) :
    (List.range' 1 n).countP f = t := by
  obtain ⟨r, rfl⟩ := Nat.exists_eq_add_of_le ht
  have hlow : (List.range' 1 t).countP f = t := by
    rw [List.countP_eq_length.mpr, List.length_range']
    intro i hi
    obtain ⟨hge, hlt⟩ := List.mem_range'_1.mp hi
    exact (hf i hge).mpr (by omega)
  have hhigh : (List.range' (1 + t) r).countP f = 0 := by
    refine List.countP_eq_zero.mpr fun i hi hfi => ?_
    obtain ⟨hge, -⟩ := List.mem_range'_1.mp hi
    have hle := (hf i (by omega)).mp hfi
    omega
  rw [← List.range'_append_1, List.countP_append, hlow, hhigh, Nat.add_zero]

end DspCodes.Counting

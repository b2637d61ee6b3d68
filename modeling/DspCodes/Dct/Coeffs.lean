/-
The DCT of main_dct_multicore.c: the coefficient matrix of `task0` to
`task3`, and the product with the input.

# What is modelled

The four tasks are the same text with another input matrix; `dct` is that
text, for any `SIZE` and any input. An entry of `dctcoeff` that has not
been assigned is `none`, and so is a result computed from one: the array
is on the stack, and what is there is no value of the program. The
floating-point operations are uninterpreted (`Ops`).

(`input` and `result` are declared 2 by 2 in the source; here they have
the size of the loops.)

# What goes wrong

The inner loop that fills in the coefficients runs `j` from 0 to `j < 0`.
Only row 0 is ever assigned (`coeffs_eq`), and the product reads all of
the rows: the matrix is defined for `SIZE = 1` and nothing else
(`tasks_defined_iff`).
-/
import DspCodes.Lib.Loop
import Mathlib.Logic.Function.Basic

namespace DspCodes.Dct

open Loop

variable {F : Type _}

/-- The operations on doubles, and the literal `3.14159`. -/
structure Ops (F : Type _) where
  ofInt : Int → F
  sqrt : F → F
  cos : F → F
  mul : F → F → F
  div : F → F → F
  pi : F

/-- A matrix on the stack. -/
abbrev Matrix (F : Type _) := Nat → Nat → Option F

/-- `m[i][j] = v`. -/
def assign (i j : Nat) (v : Option F) (m : Matrix F) : Matrix F :=
  Function.update m i (Function.update (m i) j v)

/-- The matrices a task has at its end. -/
structure Run (F : Type _) where
  dctcoeff : Matrix F
  result : Matrix F

/-- `alpha`. -/
def alpha (ops : Ops F) (SIZE : Nat) : F :=
  ops.sqrt (ops.div (ops.ofInt 2) (ops.ofInt SIZE))

/-- `denominator`. -/
def denominator (ops : Ops F) (SIZE : Nat) : F :=
  ops.mul (ops.ofInt 2) (ops.ofInt SIZE)

/-- An entry of row 0. -/
def firstCoeff (ops : Ops F) (SIZE : Nat) : F :=
  ops.sqrt (ops.div (ops.ofInt 1) (ops.ofInt SIZE))

/-- `alpha * cos(((2*j+1)*i*3.14159)/denominator)`. -/
def finalCoeff (ops : Ops F) (SIZE i j : Nat) : F :=
  ops.mul (alpha ops SIZE)
    (ops.cos (ops.div (ops.mul (ops.ofInt ((2 * j + 1) * i)) ops.pi)
      (denominator ops SIZE)))

/-- The two loops that write `dctcoeff`. The bound of the inner one is
written as `0` in the source. -/
def coeffs (ops : Ops F) (SIZE : Nat) : Matrix F :=
  let first := forLoop SIZE
    (fun i m => assign 0 i (some (firstCoeff ops SIZE)) m) fun _ _ => none
  forLoop SIZE (fun i m => forLoop 0
    (fun j m => assign i j (some (finalCoeff ops SIZE i j)) m) m) first

/-- `result[i][j] = input[i][j] * dctcoeff[i][j]`. -/
def multiply (ops : Ops F) (SIZE : Nat) (input : Nat → Nat → F)
    (dctcoeff : Matrix F) : Matrix F :=
  forLoop SIZE (fun i m => forLoop SIZE
    (fun j m => assign i j ((dctcoeff i j).map (ops.mul (input i j))) m) m)
    fun _ _ => none

/-- The text of the four tasks. -/
def dct (ops : Ops F) (SIZE : Nat) (input : Nat → Nat → F) : Run F where
  dctcoeff := coeffs ops SIZE
  result := multiply ops SIZE input (coeffs ops SIZE)

/-- The input is all ones. -/
def task0 (ops : Ops F) (SIZE : Nat) : Run F :=
  dct ops SIZE fun _ _ => ops.ofInt 1

/-- The input is all twos. -/
def task1 (ops : Ops F) (SIZE : Nat) : Run F :=
  dct ops SIZE fun _ _ => ops.ofInt 2

/-- The input is all threes. -/
def task2 (ops : Ops F) (SIZE : Nat) : Run F :=
  dct ops SIZE fun _ _ => ops.ofInt 3

/-- The input is all fours. -/
def task3 (ops : Ops F) (SIZE : Nat) : Run F :=
  dct ops SIZE fun _ _ => ops.ofInt 4

/-- What a coefficient matrix should be, and that no result comes from an
entry that was not assigned. -/
structure Defined (ops : Ops F) (SIZE : Nat) (r : Run F) : Prop where
  first : ∀ j, j < SIZE → r.dctcoeff 0 j = some (firstCoeff ops SIZE)
  final : ∀ i j, i < SIZE → j < SIZE → i ≠ 0 →
    r.dctcoeff i j = some (finalCoeff ops SIZE i j)
  result : ∀ i j, i < SIZE → j < SIZE → r.result i j ≠ none

-- ========================================================== the matrices

theorem assign_self (i j : Nat) (v : Option F) (m : Matrix F) :
    assign i j v m i j = v := by
  unfold assign
  rw [Function.update_self, Function.update_self]

theorem assign_of_ne {i j i' j' : Nat} (v : Option F) (m : Matrix F)
    (h : i' = i → j' ≠ j) : assign i j v m i' j' = m i' j' := by
  unfold assign
  by_cases hi : i' = i
  · subst hi
    rw [Function.update_self, Function.update_of_ne (h rfl)]
  · rw [Function.update_of_ne hi]

/-- A loop along row `i`. -/
theorem assignRow (i : Nat) (f : Nat → Option F) (m : Matrix F) (n : Nat)
    (i' j' : Nat) :
    forLoop n (fun j m => assign i j (f j) m) m i' j'
      = if i' = i ∧ j' < n then f j' else m i' j' := by
  induction n with
  | zero => rw [forLoop_zero, if_neg fun h => Nat.not_lt_zero _ h.2]
  | succ n ih =>
      rw [forLoop_succ]
      by_cases hcell : i' = i ∧ j' = n
      · obtain ⟨rfl, rfl⟩ := hcell
        rw [assign_self, if_pos ⟨rfl, Nat.lt_succ_self _⟩]
      · rw [assign_of_ne _ _ fun hi hj => hcell ⟨hi, hj⟩, ih]
        refine if_congr ?_ rfl rfl
        omega

/-- A loop over the rows up to `k`, with a loop along each of them. -/
theorem assignRows (f : Nat → Nat → Option F) (m : Matrix F) (n k : Nat)
    (i' j' : Nat) :
    forLoop k (fun i m => forLoop n (fun j m => assign i j (f i j) m) m)
        m i' j'
      = if i' < k ∧ j' < n then f i' j' else m i' j' := by
  induction k with
  | zero => rw [forLoop_zero, if_neg fun h => Nat.not_lt_zero _ h.1]
  | succ k ih =>
      rw [forLoop_succ, assignRow k (f k), ih]
      by_cases hrow : i' = k
      · subst hrow
        by_cases hj : j' < n
        · rw [if_pos ⟨rfl, hj⟩, if_pos ⟨Nat.lt_succ_self _, hj⟩]
        · rw [if_neg fun h => hj h.2, if_neg fun h => hj h.2,
            if_neg fun h => hj h.2]
      · rw [if_neg fun h => hrow h.1]
        refine if_congr ?_ rfl rfl
        omega

/-- Row 0 is assigned and no other. -/
theorem coeffs_eq (ops : Ops F) (SIZE i j : Nat) :
    coeffs ops SIZE i j
      = if i = 0 ∧ j < SIZE then some (firstCoeff ops SIZE) else none := by
  unfold coeffs
  rw [assignRows fun i j => some (finalCoeff ops SIZE i j),
    if_neg fun h => Nat.not_lt_zero _ h.2]
  exact assignRow 0 (fun _ => some (firstCoeff ops SIZE)) _ SIZE i j

theorem multiply_eq (ops : Ops F) {SIZE i j : Nat}
    (input : Nat → Nat → F) (dctcoeff : Matrix F) (hi : i < SIZE)
    (hj : j < SIZE) :
    multiply ops SIZE input dctcoeff i j
      = (dctcoeff i j).map (ops.mul (input i j)) := by
  unfold multiply
  rw [assignRows fun i j => (dctcoeff i j).map (ops.mul (input i j)),
    if_pos ⟨hi, hj⟩]

-- =============================================================== the law

/-- Whatever the input, the matrix is as it should be for `SIZE = 1`
only. -/
theorem dct_defined_iff (ops : Ops F) {SIZE : Nat} (hpos : 1 ≤ SIZE)
    (input : Nat → Nat → F) :
    Defined ops SIZE (dct ops SIZE input) ↔ SIZE = 1 := by
  constructor
  · intro hdef
    by_contra hne
    -- entry (1, 0) is read and has not been assigned
    have h10 := hdef.final 1 0 (by omega) hpos (by decide)
    have hnone : coeffs ops SIZE 1 0 = none := by
      rw [coeffs_eq, if_neg fun h => absurd h.1 (by decide)]
    rw [show (dct ops SIZE input).dctcoeff = coeffs ops SIZE from rfl,
      hnone] at h10
    cases h10
  · rintro rfl
    have hzero : ∀ {i : Nat}, i < 1 → i = 0 := Nat.lt_one_iff.mp
    have hrow : ∀ j, j < 1 →
        coeffs ops 1 0 j = some (firstCoeff ops 1) := by
      intro j hj
      rw [coeffs_eq, if_pos ⟨rfl, hj⟩]
    refine ⟨hrow, fun i j hi _ hne => absurd (hzero hi) hne,
      fun i j hi hj => ?_⟩
    show multiply ops 1 input (coeffs ops 1) i j ≠ none
    rw [multiply_eq ops input _ hi hj, hzero hi, hrow j hj]
    exact Option.some_ne_none _

/-- The four tasks, each with its own input and with any other one, have a
defined coefficient matrix for `SIZE = 1` only. -/
theorem tasks_defined_iff (ops : Ops F) {SIZE : Nat} (hpos : 1 ≤ SIZE) :
    (∀ task ∈ [@task0 F, task1, task2, task3],
        (Defined ops SIZE (task ops SIZE) ↔ SIZE = 1))
      ∧ ∀ input, (Defined ops SIZE (dct ops SIZE input) ↔ SIZE = 1) := by
  refine ⟨fun task htask => ?_, dct_defined_iff ops hpos⟩
  simp only [List.mem_cons, List.not_mem_nil, or_false] at htask
  rcases htask with rfl | rfl | rfl | rfl
  · exact dct_defined_iff ops hpos fun _ _ => ops.ofInt 1
  · exact dct_defined_iff ops hpos fun _ _ => ops.ofInt 2
  · exact dct_defined_iff ops hpos fun _ _ => ops.ofInt 3
  · exact dct_defined_iff ops hpos fun _ _ => ops.ofInt 4

/-- Operations on the integers, to have some. -/
def intOps : Ops Int where
  ofInt := id
  sqrt := id
  cos := id
  mul := (· * ·)
  div := (· / ·)
  pi := 3

theorem tasks_defined_one : Defined intOps 1 (task0 intOps 1) :=
  ((tasks_defined_iff intOps (Nat.le_refl 1)).1 task0
    List.mem_cons_self).mpr rfl

/-- With the source's `SIZE` of 2 `task0` reads an entry that has not been
assigned. -/
theorem task0_undefined :
    (task0 intOps 2).dctcoeff 1 0 = none ∧ (task0 intOps 2).result 1 0 = none
      ∧ ¬ Defined intOps 2 (task0 intOps 2) := by
  refine ⟨rfl, rfl, fun hdef => ?_⟩
  exact hdef.result 1 0 (by decide) (by decide) rfl

end DspCodes.Dct

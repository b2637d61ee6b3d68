/-
Well-nested programs: what a piece of code does that opens and closes
sections of several kinds, each closed before the one around it.

`Prog` carries the nesting in its shape, so an ill-nested program cannot
be written; `flat` is the sequence of events it performs. "At every
point" is "after every prefix of `flat`", and `level` says how many
sections are open there. `forall_prefix_sec` is the rule that turns a
statement about all points of a section into one about the points of its
body and of what follows.
-/
import Mathlib.Data.List.Basic
import Mathlib.Data.List.Infix

namespace DspCodes.Nest

variable {κ α : Type _}

/-- A sequence of operations `α` and of sections of kinds `κ`. -/
inductive Prog (κ α : Type _)
  | done
  | op (a : α) (rest : Prog κ α)
  | sec (k : κ) (body rest : Prog κ α)

/-- What happens at one point of a program. -/
inductive Event (κ α : Type _)
  | enter (k : κ)
  | exit (k : κ)
  | op (a : α)

/-- The events of a program, in order. -/
def Prog.flat : Prog κ α → List (Event κ α)
  | .done => []
  | .op a rest => .op a :: rest.flat
  | .sec k body rest => .enter k :: (body.flat ++ .exit k :: rest.flat)

/-- The deepest nesting of sections. -/
def Prog.depth : Prog κ α → Nat
  | .done => 0
  | .op _ rest => rest.depth
  | .sec _ body rest => max (body.depth + 1) rest.depth

/-- The sections open after a sequence of events, `n` of them before. -/
def level : Nat → List (Event κ α) → Nat
  | n, [] => n
  | n, .enter _ :: es => level (n + 1) es
  | n, .exit _ :: es => level (n - 1) es
  | n, .op _ :: es => level n es

-- ================================================== the points of a program

theorem level_append (es fs : List (Event κ α)) :
    ∀ n, level n (es ++ fs) = level (level n es) fs := by
  induction es with
  | nil => exact fun _ => rfl
  | cons e es ih =>
      intro n
      cases e with
      | enter k => exact ih (n + 1)
      | exit k => exact ih (n - 1)
      | op a => exact ih n

/-- A program closes what it opens. -/
theorem level_flat (t : Prog κ α) : ∀ n, level n t.flat = n := by
  induction t with
  | done => exact fun _ => rfl
  | op a rest ih => exact ih
  | sec k body rest ihb ihr =>
      intro n
      show level (n + 1) (body.flat ++ .exit k :: rest.flat) = n
      rw [level_append, ihb]
      exact ihr n

/-- Behind a closed section the level is as before it. -/
theorem level_sec (k : κ) (t : Prog κ α) (q : List (Event κ α)) (n : Nat) :
    level n (.enter k :: (t.flat ++ .exit k :: q)) = level n q := by
  show level (n + 1) (t.flat ++ .exit k :: q) = level n q
  rw [level_append, level_flat]
  rfl

/-- The points of a list that goes on after a marker: those before it and
those after it. -/
theorem prefix_append_cons {β : Type _} {p l r : List β} {x : β}
    (h : p <+: l ++ x :: r) :
    p <+: l ∨ ∃ q, q <+: r ∧ p = l ++ x :: q := by
  rcases List.prefix_or_prefix_of_prefix h (List.prefix_append l (x :: r))
    with hp | ⟨q, rfl⟩
  · exact .inl hp
  · rw [List.prefix_append_right_inj] at h
    cases q with
    | nil => exact .inl (by rw [List.append_nil])
    | cons y q =>
        rw [List.cons_prefix_cons] at h
        obtain ⟨rfl, hq⟩ := h
        exact .inr ⟨q, hq, rfl⟩

/-- All points of a program that starts with an operation. -/
theorem forall_prefix_op {P : List (Event κ α) → Prop} {a : α}
    {rest : Prog κ α} :
    (∀ p, p <+: (Prog.op a rest).flat → P p)
      ↔ P [] ∧ ∀ q, q <+: rest.flat → P (.op a :: q) := by
  constructor
  · intro h
    refine ⟨h _ (List.nil_prefix), fun q hq => h _ ?_⟩
    exact List.cons_prefix_cons.mpr ⟨rfl, hq⟩
  · rintro ⟨hnil, hrest⟩ p hp
    cases p with
    | nil => exact hnil
    | cons e q =>
        obtain ⟨rfl, hq⟩ := List.cons_prefix_cons.mp hp
        exact hrest q hq

/-- All points of a program that starts with a section: before it, inside
it, and after its exit. -/
theorem forall_prefix_sec {P : List (Event κ α) → Prop} {k : κ}
    {body rest : Prog κ α} :
    (∀ p, p <+: (Prog.sec k body rest).flat → P p)
      ↔ P [] ∧ (∀ q, q <+: body.flat → P (.enter k :: q))
        ∧ ∀ q, q <+: rest.flat →
            P (.enter k :: (body.flat ++ .exit k :: q)) := by
  constructor
  · intro h
    refine ⟨h _ (List.nil_prefix), fun q hq => h _ ?_, fun q hq => h _ ?_⟩
    · exact List.cons_prefix_cons.mpr
        ⟨rfl, hq.trans (List.prefix_append _ _)⟩
    · refine List.cons_prefix_cons.mpr ⟨rfl, ?_⟩
      rw [List.prefix_append_right_inj]
      exact List.cons_prefix_cons.mpr ⟨rfl, hq⟩
  · rintro ⟨hnil, hbody, hrest⟩ p hp
    cases p with
    | nil => exact hnil
    | cons e q =>
        obtain ⟨rfl, hq⟩ := List.cons_prefix_cons.mp hp
        rcases prefix_append_cons hq with hq | ⟨r, hr, rfl⟩
        · exact hbody q hq
        · exact hrest r hr

/-- Inside a program nothing around it is closed. -/
theorem le_level_of_prefix (t : Prog κ α) :
    ∀ n p, p <+: t.flat → n ≤ level n p := by
  induction t with
  | done =>
      intro n p hp
      rw [List.prefix_nil.mp hp]
      exact Nat.le_refl n
  | op a rest ih =>
      intro n
      exact forall_prefix_op.mpr ⟨Nat.le_refl n, ih n⟩
  | sec k body rest ihb ihr =>
      intro n
      refine forall_prefix_sec.mpr ⟨Nat.le_refl n, fun q hq => ?_,
        fun q hq => ?_⟩
      · exact (Nat.le_succ n).trans (ihb (n + 1) q hq)
      · show n ≤ level (n + 1) (body.flat ++ .exit k :: q)
        rw [level_append, level_flat]
        exact ihr n q hq

end DspCodes.Nest

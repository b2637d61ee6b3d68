/-
One block of a shared memory behind private write-back caches that no
hardware keeps coherent.

# The hardware

A core reads through its cache: a hit returns the line, a miss fills it
from the core's prefetch buffer, or from the memory when that has no copy.
A write changes the line and makes it dirty. At any time a line may be
evicted, a dirty one to the memory, and the prefetcher may copy the block.
What a core writes to the memory drops its own prefetched copy, and no
other core's copies.

# Two states of a block

Between two users a block is `Quiet`: the memory has its value and no line
is dirty; any number of stale clean copies may be left. Its user has it
`Owned`: what that core sees is the value, whatever is evicted or
prefetched next, and no other core can write an old value back. To come
from the one to the other, the core drops its copies; to go back, it
writes its line back.
-/
import Mathlib.Logic.Function.Basic

namespace DspCodes.Cache

variable {κ V : Type _}

-- ============================================================= the block

/-- A cache line. -/
structure Line (V : Type _) where
  value : V
  dirty : Bool
  deriving DecidableEq

/-- A block: its value in the memory, and what each core has of it in its
cache and in its prefetch buffer. -/
structure Cell (κ V : Type _) where
  mem : V
  line : κ → Option (Line V)
  ahead : κ → Option V

/-- A block of which no core has a copy. -/
def Cell.uncached (v : V) : Cell κ V := ⟨v, fun _ => none, fun _ => none⟩

/-- What a read of core `c` returns. -/
def Cell.view (x : Cell κ V) (c : κ) : V :=
  match x.line c with
  | some l => l.value
  | none => (x.ahead c).getD x.mem

theorem view_of_line {x : Cell κ V} {c : κ} {l : Line V}
    (h : x.line c = some l) : x.view c = l.value := by
  rw [Cell.view, h]

/-- Without a line a read goes to the prefetched copy, or to the memory. -/
theorem view_of_no_line {x : Cell κ V} {c : κ} (h : x.line c = none) :
    x.view c = (x.ahead c).getD x.mem := by
  rw [Cell.view, h]

/-- What a core, or the hardware for it, does to a block. -/
inductive Op (V : Type _)
  | read
  | write (v : V)
  | clean  -- write the line back
  | drop  -- invalidate the line
  | dropAhead  -- invalidate the prefetch buffer
  | evict
  | prefetch

/-- Core `c` has nothing to write back. -/
def Clean (x : Cell κ V) (c : κ) : Prop :=
  ∀ l, x.line c = some l → l.dirty = false

theorem Clean.of_none {x : Cell κ V} {c : κ} (h : x.line c = none) :
    Clean x c := by
  intro l hl
  rw [h] at hl
  cases hl

variable [DecidableEq κ]

/-- The block with another line of core `c`. -/
def Cell.setLine (x : Cell κ V) (c : κ) (l : Option (Line V)) : Cell κ V :=
  { x with line := Function.update x.line c l }

/-- The block with another prefetched copy of core `c`. -/
def Cell.setAhead (x : Cell κ V) (c : κ) (v : Option V) : Cell κ V :=
  { x with ahead := Function.update x.ahead c v }

/-- Core `c` writes its line back if it is dirty. -/
def Cell.clean (x : Cell κ V) (c : κ) : Cell κ V :=
  match x.line c with
  | some ⟨v, true⟩ =>
      ({ x with mem := v }.setLine c (some ⟨v, false⟩)).setAhead c none
  | _ => x

/-- An operation of core `c`. -/
def Cell.apply (x : Cell κ V) (c : κ) : Op V → Cell κ V
  | .read =>
      match x.line c with
      | some _ => x
      | none => x.setLine c (some ⟨x.view c, false⟩)
  | .write v => x.setLine c (some ⟨v, true⟩)
  | .clean => x.clean c
  | .drop => x.setLine c none
  | .dropAhead => x.setAhead c none
  | .evict => (x.clean c).setLine c none
  | .prefetch => x.setAhead c (some x.mem)

-- ================================================== what an operation does

variable {x : Cell κ V} {c d : κ} {v w : V} {op : Op V}

@[simp] theorem setLine_line (l : Option (Line V)) :
    (x.setLine c l).line c = l := Function.update_self ..

@[simp] theorem setLine_ahead (l : Option (Line V)) :
    (x.setLine c l).ahead = x.ahead := rfl

@[simp] theorem setLine_mem (l : Option (Line V)) :
    (x.setLine c l).mem = x.mem := rfl

@[simp] theorem setAhead_line (w : Option V) :
    (x.setAhead c w).line = x.line := rfl

@[simp] theorem setAhead_ahead (w : Option V) :
    (x.setAhead c w).ahead c = w := Function.update_self ..

@[simp] theorem setAhead_mem (w : Option V) :
    (x.setAhead c w).mem = x.mem := rfl

/-- A clean line is not written back. -/
theorem Clean.clean_eq (h : Clean x c) : x.clean c = x := by
  unfold Cell.clean
  split
  next v hl => exact absurd (h _ hl) Bool.noConfusion
  next => rfl

/-- Another core's line stays as it is. -/
theorem apply_line (hdc : d ≠ c) : (x.apply d op).line c = x.line c := by
  have hclean : (x.clean d).line c = x.line c := by
    unfold Cell.clean
    split
    · exact Function.update_of_ne hdc.symm _ _
    · rfl
  cases op with
  | read =>
      simp only [Cell.apply]
      split
      · rfl
      · exact Function.update_of_ne hdc.symm _ _
  | clean => exact hclean
  | evict =>
      refine Eq.trans ?_ hclean
      exact Function.update_of_ne hdc.symm _ _
  | write | drop => exact Function.update_of_ne hdc.symm _ _
  | dropAhead | prefetch => rfl

/-- Its prefetched copy too. -/
theorem apply_ahead (hdc : d ≠ c) : (x.apply d op).ahead c = x.ahead c := by
  have hclean : (x.clean d).ahead c = x.ahead c := by
    unfold Cell.clean
    split
    · exact Function.update_of_ne hdc.symm _ _
    · rfl
  cases op with
  | read =>
      simp only [Cell.apply]
      split <;> rfl
  | clean | evict => exact hclean
  | dropAhead | prefetch => exact Function.update_of_ne hdc.symm _ _
  | write | drop => rfl

/-- A core with a clean line does not change the memory. -/
theorem Clean.apply_mem (h : Clean x c) : (x.apply c op).mem = x.mem := by
  cases op with
  | read =>
      simp only [Cell.apply]
      split <;> rfl
  | clean => rw [Cell.apply, h.clean_eq]
  | evict => rw [Cell.apply, setLine_mem, h.clean_eq]
  | write | drop | dropAhead | prefetch => rfl

/-- Only a write makes a line dirty. -/
theorem Clean.apply (h : Clean x c) (hop : ∀ w, op ≠ .write w) :
    Clean (x.apply d op) c := by
  by_cases hdc : d = c
  · subst hdc
    cases op with
    | read =>
        simp only [Cell.apply]
        split
        · exact h
        · intro l hl
          rw [setLine_line] at hl
          cases hl
          rfl
    | write w => exact absurd rfl (hop w)
    | clean =>
        rw [Cell.apply, h.clean_eq]
        exact h
    | drop | evict => exact .of_none (setLine_line none)
    | dropAhead | prefetch => exact h
  · intro l hl
    rw [apply_line hdc] at hl
    exact h l hl

/-- A line that has been written back is clean. -/
theorem clean_clean : Clean (x.apply c .clean) c := by
  intro l hl
  simp only [Cell.apply, Cell.clean] at hl
  split at hl
  next v hline =>
    simp only [setAhead_line, setLine_line, Option.some.injEq] at hl
    rw [← hl]
  next hno =>
    cases hd : l.dirty with
    | false => rfl
    | true =>
        obtain ⟨v, dirty⟩ := l
        cases hd
        exact absurd hl (hno v)

-- ================================================================== quiet

/-- The memory has the value `v` and nobody has anything to write back. -/
structure Quiet (x : Cell κ V) (v : V) : Prop where
  mem : x.mem = v
  clean : ∀ c, Clean x c

omit [DecidableEq κ] in
theorem quiet_uncached : Quiet (Cell.uncached v : Cell κ V) v :=
  ⟨rfl, fun _ => .of_none rfl⟩

/-- A block stays quiet as long as nobody writes. -/
theorem Quiet.apply (h : Quiet x v) (hop : ∀ w, op ≠ .write w) :
    Quiet (x.apply d op) v where
  mem := (h.clean d).apply_mem.trans h.mem
  clean := fun c => (h.clean c).apply hop

-- ================================================================== owned

/-- Core `c` sees the value `v`, and sees it still when its line has been
evicted. -/
structure Fresh (x : Cell κ V) (c : κ) (v : V) : Prop where
  line : ∀ l, x.line c = some l → l.value = v
  below : Clean x c → x.mem = v ∧ ∀ w, x.ahead c = some w → w = v

/-- It sees the value, and the others have nothing to write back. -/
structure Owned (x : Cell κ V) (c : κ) (v : V) : Prop where
  fresh : Fresh x c v
  others : ∀ d, d ≠ c → Clean x d

omit [DecidableEq κ] in
theorem Fresh.view (h : Fresh x c v) : x.view c = v := by
  cases hl : x.line c with
  | some l => exact (view_of_line hl).trans (h.line l hl)
  | none =>
      obtain ⟨hmem, hahead⟩ := h.below (.of_none hl)
      rw [view_of_no_line hl]
      cases ha : x.ahead c with
      | none => exact hmem
      | some w => exact hahead w ha

omit [DecidableEq κ] in
/-- A core that has no copies sees the memory. -/
theorem Quiet.owned (h : Quiet x v) (hline : x.line c = none)
    (hahead : ∀ w, x.ahead c = some w → w = v) : Owned x c v where
  fresh :=
    { line := by
        intro l hl
        rw [hline] at hl
        cases hl
      below := fun _ => ⟨h.mem, hahead⟩ }
  others := fun d _ => h.clean d

/-- A block whose user has written back is quiet. -/
theorem Owned.quiet (h : Owned x c v) (hclean : Clean x c) : Quiet x v where
  mem := (h.fresh.below hclean).1
  clean := by
    intro d
    by_cases hdc : d = c
    · rw [hdc]
      exact hclean
    · exact h.others d hdc

/-- Writing back keeps what the core sees. -/
theorem Fresh.clean (h : Fresh x c v) : Fresh (x.clean c) c v := by
  unfold Cell.clean
  split
  next w hl =>
    have hw : w = v := h.line _ hl
    subst hw
    refine ⟨fun l hl' => ?_, fun _ => ⟨rfl, fun u hu => ?_⟩⟩
    · simp only [setAhead_line, setLine_line, Option.some.injEq] at hl'
      rw [← hl']
    · rw [setAhead_ahead] at hu
      cases hu
  next => exact h

/-- So does dropping a clean line. -/
theorem Fresh.drop (h : Fresh x c v) (hclean : Clean x c) :
    Fresh (x.setLine c none) c v where
  line := by
    intro l hl
    rw [setLine_line] at hl
    cases hl
  below := fun _ => h.below hclean

/-- What the core does to its block, short of writing or dropping a dirty
line, keeps what it sees. -/
theorem Fresh.apply (h : Fresh x c v) (hop : ∀ w, op ≠ .write w)
    (hdrop : op = .drop → Clean x c) : Fresh (x.apply c op) c v := by
  cases op with
  | read =>
      simp only [Cell.apply]
      split
      next => exact h
      next hl =>
        refine ⟨fun l hl' => ?_, fun _ => h.below (.of_none hl)⟩
        rw [setLine_line, h.view] at hl'
        cases hl'
        rfl
  | write w => exact absurd rfl (hop w)
  | clean => exact h.clean
  | drop => exact h.drop (hdrop rfl)
  | evict => exact h.clean.drop clean_clean
  | dropAhead =>
      refine ⟨h.line, fun hclean => ⟨(h.below hclean).1, fun w hw => ?_⟩⟩
      rw [Cell.apply, setAhead_ahead] at hw
      cases hw
  | prefetch =>
      refine ⟨h.line, fun hclean => ⟨(h.below hclean).1, fun w hw => ?_⟩⟩
      rw [Cell.apply, setAhead_ahead, Option.some.injEq] at hw
      exact hw.symm.trans (h.below hclean).1

/-- The owner keeps the block through whatever it does, short of writing
or dropping a dirty line. -/
theorem Owned.apply (h : Owned x c v) (hop : ∀ w, op ≠ .write w)
    (hdrop : op = .drop → Clean x c) : Owned (x.apply c op) c v where
  fresh := h.fresh.apply hop hdrop
  others := fun d hd => (h.others d hd).apply hop

/-- And through whatever the others do, short of writing. -/
theorem Owned.apply_other (h : Owned x c v) (hdc : d ≠ c)
    (hop : ∀ w, op ≠ .write w) : Owned (x.apply d op) c v where
  fresh :=
    { line := by
        intro l hl
        rw [apply_line hdc] at hl
        exact h.fresh.line l hl
      below := by
        intro hclean
        rw [(h.others d hdc).apply_mem, apply_ahead hdc]
        refine h.fresh.below fun l hl => hclean l ?_
        rw [apply_line hdc]
        exact hl }
  others := fun e he => (h.others e he).apply hop

/-- A write of the owner gives the block its value. -/
theorem Owned.write (h : Owned x c v) : Owned (x.apply c (.write w)) c w where
  fresh :=
    { line := by
        intro l hl
        rw [Cell.apply, setLine_line, Option.some.injEq] at hl
        rw [← hl]
      below := by
        intro hclean
        exact absurd (hclean _ (setLine_line _)) Bool.noConfusion }
  others := by
    intro d hd l hl
    rw [apply_line hd.symm] at hl
    exact h.others d hd l hl

end DspCodes.Cache

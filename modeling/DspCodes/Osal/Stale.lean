/-
That nothing less will do, and which of the OSAL files does.

# Stale reads

For each thing that hooks may leave out there is a run in which a core
sees an old value (`stale_of_no_lock` to `stale_of_no_wb`). The runs are
put together from whole uses of a block, whatever else the hooks do:
`hook_begin` and `hook_end` say what of it matters.

# The result

`coherent_iff`: every read returns what was written last, on every core
and in every run, if and only if there is one core and the hooks do not
throw its writes away, or the section takes a semaphore and the hooks
perform all three operations. `osals_coherent` reads off which of the
files are which.
-/
import DspCodes.Osal.Coherence

namespace DspCodes.Osal

open Lts Cache

variable {m : Nat} {β V : Type _} [DecidableEq β] {o : Hooks}
  {s s' : Driver m β V} {a : Call m β V} {c d : Fin m} {b b' : β}
  {held : Finset β} {todo : List CacheOp} {op : CacheOp} {v : V}
  {x : Cell (Fin m) V}

-- ============================================================== stale reads

/-- The operations of a hook, one after the other, on the block it is
about. -/
def hook (x : Cell (Fin m) V) (c : Fin m) (ops : List CacheOp) :
    Cell (Fin m) V :=
  ops.foldl (fun x op => x.apply c op.onBlock) x

/-- What each operation keeps the hook keeps. -/
theorem hook_induction {Q : Cell (Fin m) V → Prop} {ops : List CacheOp}
    (hstep : ∀ y, ∀ op ∈ ops, Q y → Q (y.apply c op.onBlock)) :
    ∀ {x : Cell (Fin m) V}, Q x → Q (hook x c ops) := by
  induction ops with
  | nil => exact fun hx => hx
  | cons op ops ih =>
      intro x hx
      exact ih (fun y op' hop => hstep y op' (List.mem_cons_of_mem _ hop))
        (hstep x op List.mem_cons_self hx)

/-- A hook of another core leaves a core's copies alone. -/
theorem hook_other (ops : List CacheOp) (hdc : d ≠ c) :
    (hook x d ops).line c = x.line c ∧
      (hook x d ops).ahead c = x.ahead c := by
  refine hook_induction (Q := fun y => y.line c = x.line c ∧
    y.ahead c = x.ahead c) (fun y op _ hy => ?_) ⟨rfl, rfl⟩
  rw [apply_line hdc, apply_ahead hdc]
  exact hy

/-- A core without a dirty line keeps its line through `EndMemAccess`, and
the memory what it is. -/
theorem hook_end (hclean : Clean x c) : hook x c o.endMemAccess = x := by
  refine hook_induction (Q := fun y => y = x) (fun y op hop hy => ?_) rfl
  obtain rfl := o.end_wb op hop
  rw [hy]
  exact hclean.clean_eq

/-- `BeginMemAccess` does not touch the memory, and fetches nothing. -/
theorem hook_begin :
    (hook x c o.beginMemAccess).mem = x.mem ∧
      (x.line c = none → (hook x c o.beginMemAccess).line c = none) ∧
      (x.ahead c = none → (hook x c o.beginMemAccess).ahead c = none) := by
  refine hook_induction (Q := fun y => y.mem = x.mem ∧
    (x.line c = none → y.line c = none) ∧
    (x.ahead c = none → y.ahead c = none)) (fun y op hop hy => ?_)
    ⟨rfl, id, id⟩
  obtain ⟨hmem, hline, hahead⟩ := hy
  cases op with
  | invL1d => exact ⟨hmem, fun _ => setLine_line none, hahead⟩
  | wbL1d => exact absurd hop o.begin_inv
  | invalidatePrefetchBuffer =>
      exact ⟨hmem, hline, fun _ => setAhead_ahead none⟩

/-- Without an invalidation of the cache it keeps the line. -/
theorem hook_begin_line (hinv : .invL1d ∉ o.beginMemAccess) :
    (hook x c o.beginMemAccess).line = x.line := by
  refine hook_induction (Q := fun y => y.line = x.line)
    (fun y op hop hy => ?_) rfl
  cases op with
  | invL1d => exact absurd hop hinv
  | wbL1d => exact absurd hop o.begin_inv
  | invalidatePrefetchBuffer => exact hy

/-- With one the line is gone. -/
theorem hook_begin_drop (hinv : .invL1d ∈ o.beginMemAccess) :
    (hook x c o.beginMemAccess).line c = none := by
  obtain ⟨before, after, hsplit⟩ := List.append_of_mem hinv
  rw [hsplit, hook, List.foldl_append, List.foldl_cons]
  refine hook_induction (Q := fun y => y.line c = none)
    (fun y op hop hy => ?_) (setLine_line none)
  cases op with
  | invL1d => exact setLine_line none
  | wbL1d =>
      rw [CacheOp.onBlock, Cell.apply, (Clean.of_none hy).clean_eq]
      exact hy
  | invalidatePrefetchBuffer => exact hy

/-- Without an invalidation of the prefetch buffer it keeps the copy. -/
theorem hook_begin_ahead
    (hpre : .invalidatePrefetchBuffer ∉ o.beginMemAccess) :
    (hook x c o.beginMemAccess).ahead = x.ahead := by
  refine hook_induction (Q := fun y => y.ahead = x.ahead)
    (fun y op hop hy => ?_) rfl
  cases op with
  | invL1d => exact hy
  | wbL1d => exact absurd hop o.begin_inv
  | invalidatePrefetchBuffer => exact absurd hop hpre

/-- The section can be entered. -/
def Free (o : Hooks) (s : Driver m β V) : Prop :=
  o.hwSem = none ∨ s.sem = none

/-- From `s` to `s'` core `c` has come to `a`, block `b` to `x` and nobody
has written. -/
structure Moved (s s' : Driver m β V) (c : Fin m) (a : Access β) (b : β)
    (x : Cell (Fin m) V) : Prop where
  core : s'.core = Function.update s.core c a
  cell : s'.cell b = x
  cur : s'.cur = s.cur

theorem reach_one (h : osalStep o a s = some s') :
    Reach (osalStep o) anyStep s s' := .step a .init trivial h

/-- A hook runs to its end, whichever it is. -/
theorem hook_run {f : List CacheOp → Access β} {e : Access β}
    (hop : ∀ (s : Driver m β V) op todo, s.core c = f (op :: todo) →
      osalStep o (.cacheOp c) s = some ((s.perform c b op).goto c (f todo)))
    (hend : ∀ s : Driver m β V, s.core c = f [] →
      osalStep o (.cacheOp c) s = some (s.goto c e)) (todo : List CacheOp) :
    ∀ s : Driver m β V, s.core c = f todo →
      ∃ s', Reach (osalStep o) anyStep s s' ∧
        Moved s s' c e b (hook (s.cell b) c todo) := by
  induction todo with
  | nil => exact fun s hpc => ⟨_, reach_one (hend s hpc), rfl, rfl, rfl⟩
  | cons op todo ih =>
      intro s hpc
      obtain ⟨-, hcore, hcur⟩ := perform_rest s c b op
      obtain ⟨s', hrun, hm⟩ := ih _ (goto_core (s.perform c b op) c _)
      refine ⟨s', (reach_one (hop s op todo hpc)).trans hrun, ?_, ?_,
        hm.cur.trans hcur⟩
      · rw [hm.core]
        show Function.update (Function.update (s.perform c b op).core c _) c _
          = _
        rw [Function.update_idem, hcore]
      · rw [hm.cell]
        show hook ((s.perform c b op).cell b) c todo = _
        rw [perform_cell]
        rfl

/-- A core enters the section. -/
theorem enter_run (hout : s.core c = .out) (hfree : Free o s) :
    ∃ s', Reach (osalStep o) anyStep s s' ∧
      Moved s s' c (.inside ∅) b (s.cell b) := by
  have hstep : ∃ s', osalStep o (.csEnter c) s = some s' ∧
      Moved s s' c (.inside ∅) b (s.cell b) := by
    cases hsem : o.hwSem with
    | none =>
        refine ⟨s.goto c (.inside ∅), ?_, rfl, rfl, rfl⟩
        simp only [osalStep, hout, hsem]
    | some n =>
        have hnone : s.sem = none :=
          hfree.resolve_left (by rw [hsem]; exact Option.some_ne_none n)
        refine ⟨{ s with sem := some c }.goto c (.inside ∅), ?_, rfl, rfl,
          rfl⟩
        simp only [osalStep, hout, hsem, hnone]
  obtain ⟨s', hs, hm⟩ := hstep
  exact ⟨s', reach_one hs, hm⟩

/-- It begins to use a block. -/
theorem begin_run (hout : s.core c = .out) (hfree : Free o s) :
    ∃ s', Reach (osalStep o) anyStep s s' ∧
      Moved s s' c (.inside {b}) b (hook (s.cell b) c o.beginMemAccess) := by
  obtain ⟨s₁, hrun₁, hm₁⟩ := enter_run (b := b) hout hfree
  have hin : s₁.core c = .inside ∅ := by
    rw [hm₁.core, Function.update_self]
  have hbegin : osalStep o (.beginMemAccess c b) s₁
      = some (s₁.goto c (.opening ∅ b o.beginMemAccess)) := by
    simp [osalStep, hin]
  obtain ⟨s₂, hrun₂, hm₂⟩ := hook_run (o := o) (f := .opening ∅ b) (b := b)
    (e := .inside {b}) (fun s op todo hpc => by simp only [osalStep, hpc])
    (fun s hpc => by simp only [osalStep, hpc]; rfl) o.beginMemAccess
    (s₁.goto c (.opening ∅ b o.beginMemAccess)) (goto_core ..)
  refine ⟨s₂, (hrun₁.trans (reach_one hbegin)).trans hrun₂, ?_, ?_,
    hm₂.cur.trans hm₁.cur⟩
  · rw [hm₂.core]
    show Function.update (Function.update s₁.core c _) c _ = _
    rw [Function.update_idem, hm₁.core, Function.update_idem]
  · rw [hm₂.cell, ← hm₁.cell]
    rfl

/-- It is done with the block and leaves. -/
theorem end_run (hin : s.core c = .inside {b}) :
    ∃ s', Reach (osalStep o) anyStep s s' ∧
      Moved s s' c .out b (hook (s.cell b) c o.endMemAccess) ∧ Free o s' := by
  have hclose : osalStep o (.endMemAccess c b) s
      = some (s.goto c (.closing ∅ b o.endMemAccess)) := by
    simp [osalStep, hin]
  obtain ⟨s₁, hrun₁, hm₁⟩ := hook_run (o := o) (f := .closing ∅ b) (b := b)
    (e := .inside ∅) (fun s op todo hpc => by simp only [osalStep, hpc])
    (fun s hpc => by simp only [osalStep, hpc]) o.endMemAccess
    (s.goto c (.closing ∅ b o.endMemAccess)) (goto_core ..)
  have hin₁ : s₁.core c = .inside ∅ := by
    rw [hm₁.core, Function.update_self]
  have hexit : ∃ s', osalStep o (.csExit c) s₁ = some s' ∧
      Moved s₁ s' c .out b (s₁.cell b) ∧ Free o s' := by
    cases hsem : o.hwSem with
    | none =>
        refine ⟨s₁.goto c .out, ?_, ⟨rfl, rfl, rfl⟩, Or.inl hsem⟩
        simp only [osalStep, hin₁, hsem, if_true]
    | some n =>
        refine ⟨{ s₁ with sem := none }.goto c .out, ?_, ⟨rfl, rfl, rfl⟩,
          Or.inr rfl⟩
        simp only [osalStep, hin₁, hsem, if_true]
  obtain ⟨s', hs, hm, hfree⟩ := hexit
  refine ⟨s', ((reach_one hclose).trans hrun₁).trans (reach_one hs),
    ⟨?_, hm.cell.trans hm₁.cell, hm.cur.trans hm₁.cur⟩, hfree⟩
  rw [hm.core, hm₁.core]
  show Function.update (Function.update (Function.update s.core c _) c _) c _
    = _
  rw [Function.update_idem, Function.update_idem]

/-- A core inside reads its block, or writes `w` to it. -/
theorem access_run (hin : s.core c = .inside {b}) (w : Option V) :
    ∃ s', Reach (osalStep o) anyStep s s' ∧ s'.core = s.core ∧
      s'.cell b = (s.cell b).apply c (w.elim .read .write) ∧
      s'.cur b = w.getD (s.cur b) := by
  cases w with
  | none =>
      refine ⟨s.apply c b .read, reach_one (a := .read c b) ?_, rfl,
        apply_cell .., rfl⟩
      simp only [osalStep, hin, Finset.mem_singleton, if_true]
  | some v =>
      refine ⟨{ s.apply c b (.write v) with
          cur := Function.update s.cur b v },
        reach_one (a := .write c b v) ?_, rfl, apply_cell ..,
        Function.update_self ..⟩
      simp only [osalStep, hin, Finset.mem_singleton, if_true]

/-- The block after core `c` has used it once, to read or to write `w`. -/
def used (o : Hooks) (c : Fin m) (w : Option V) (x : Cell (Fin m) V) :
    Cell (Fin m) V :=
  hook ((hook x c o.beginMemAccess).apply c (w.elim .read .write)) c
    o.endMemAccess

/-- A core uses the block once. -/
theorem use_run (hout : s.core c = .out) (hfree : Free o s) (w : Option V) :
    ∃ s', Reach (osalStep o) anyStep s s' ∧ s'.core = s.core ∧
      s'.cell b = used o c w (s.cell b) ∧ s'.cur b = w.getD (s.cur b) ∧
      Free o s' := by
  obtain ⟨s₁, hrun₁, hm₁⟩ := begin_run (b := b) hout hfree
  have hin₁ : s₁.core c = .inside {b} := by
    rw [hm₁.core, Function.update_self]
  obtain ⟨s₂, hrun₂, hcore₂, hcell₂, hcur₂⟩ := access_run (o := o) hin₁ w
  have hin₂ : s₂.core c = .inside {b} := by
    rw [hcore₂, hin₁]
  obtain ⟨s₃, hrun₃, hm₃, hfree₃⟩ := end_run (o := o) hin₂
  refine ⟨s₃, (hrun₁.trans hrun₂).trans hrun₃, ?_, ?_, ?_, hfree₃⟩
  · rw [hm₃.core, hcore₂, hm₁.core, Function.update_idem, ← hout,
      Function.update_eq_self]
  · rw [hm₃.cell, hcell₂, hm₁.cell]
    rfl
  · rw [hm₃.cur, hcur₂, hm₁.cur]

/-- A core that would see an old value may come to see it. -/
theorem stale_run (hout : s.core c = .out) (hfree : Free o s)
    (hview : (hook (s.cell b) c o.beginMemAccess).view c ≠ s.cur b) :
    ∃ s', Reach (osalStep o) anyStep s s' ∧ ¬ Coherent s' := by
  obtain ⟨s', hrun, hm⟩ := begin_run (b := b) hout hfree
  refine ⟨s', hrun, fun hcoh => hview ?_⟩
  rw [← hm.cell, ← hm.cur]
  refine hcoh c {b} b ?_ (Finset.mem_singleton_self b)
  rw [hm.core, Function.update_self]

/-- The use of another core leaves a core's copies alone. -/
theorem used_other {w : Option V} (hdc : d ≠ c) :
    (used o d w x).line c = x.line c ∧
      (used o d w x).ahead c = x.ahead c := by
  have hbegin := hook_other (x := x) o.beginMemAccess hdc
  have hend := hook_other o.endMemAccess hdc
    (x := (hook x d o.beginMemAccess).apply d (w.elim .read .write))
  rw [apply_line hdc, apply_ahead hdc] at hend
  exact ⟨hend.1.trans hbegin.1, hend.2.trans hbegin.2⟩

/-- A core that reads the block first has its value in its cache. -/
theorem begin_read :
    ((hook (Cell.uncached v) c o.beginMemAccess).apply c .read).line c
      = some ⟨v, false⟩ := by
  obtain ⟨hmem, hline, hahead⟩ := hook_begin (o := o) (c := c)
    (x := Cell.uncached v)
  simp only [Cell.apply, hline rfl, setLine_line, view_of_no_line,
    hahead rfl, hmem]
  rfl

/-- And keeps it when it leaves. -/
theorem used_read :
    (used o c none (Cell.uncached v)).line c = some ⟨v, false⟩ := by
  have hclean : Clean ((hook (Cell.uncached v) c o.beginMemAccess).apply c
      .read) c := by
    intro l hl
    rw [begin_read] at hl
    cases hl
    rfl
  exact (congrArg (fun y => y.line c) (hook_end hclean)).trans begin_read

/-- Without a write-back a written block has its old value in the
memory. -/
theorem used_write (hwb : .wbL1d ∉ o.endMemAccess) :
    (used o d (some v) x).mem = x.mem ∧
      (x.ahead d = none → (used o d (some v) x).ahead d = none) := by
  have hnil : o.endMemAccess = [] := by
    refine List.eq_nil_iff_forall_not_mem.mpr fun op hop => hwb ?_
    rw [← o.end_wb op hop]
    exact hop
  obtain ⟨hmem, -, hahead⟩ := hook_begin (o := o) (c := d) (x := x)
  rw [used, hnil]
  exact ⟨hmem, hahead⟩

section stale

variable {mem : β → V}

/-- Without a semaphore a core may write what another one is using. -/
theorem stale_of_no_lock (hsem : o.hwSem = none) (hdc : d ≠ c)
    (hv : v ≠ mem b) :
    ∃ s, Reach (osalStep o) anyStep (Driver.start m mem) s ∧
      ¬ Coherent s := by
  -- `c` reads the block and is still using it when `d` writes to it
  obtain ⟨s₁, hrun₁, hm₁⟩ := begin_run (s := Driver.start m mem) (c := c)
    (b := b) (o := o) rfl (Or.inl hsem)
  have hin₁ : s₁.core c = .inside {b} := by
    rw [hm₁.core, Function.update_self]
  obtain ⟨s₂, hrun₂, hcore₂, hcell₂, -⟩ := access_run (o := o) hin₁ none
  have hout₂ : s₂.core d = .out := by
    rw [hcore₂, hm₁.core, Function.update_of_ne hdc]
    rfl
  obtain ⟨s₃, hrun₃, hm₃⟩ := begin_run (b := b) (o := o) hout₂ (Or.inl hsem)
  have hin₃ : s₃.core d = .inside {b} := by
    rw [hm₃.core, Function.update_self]
  obtain ⟨s₄, hrun₄, hcore₄, hcell₄, hcur₄⟩ :=
    access_run (o := o) hin₃ (some v)
  have hline : (s₄.cell b).line c = some ⟨mem b, false⟩ := by
    rw [hcell₄, apply_line hdc, hm₃.cell, (hook_other _ hdc).1, hcell₂,
      hm₁.cell]
    exact begin_read
  have hin₄ : s₄.core c = .inside {b} := by
    rw [hcore₄, hm₃.core, Function.update_of_ne hdc.symm, hcore₂, hin₁]
  refine ⟨s₄, ((hrun₁.trans hrun₂).trans hrun₃).trans hrun₄, fun hcoh => ?_⟩
  have hview := hcoh c {b} b hin₄ (Finset.mem_singleton_self b)
  rw [view_of_line hline, hcur₄] at hview
  exact hv hview.symm

/-- Without an invalidation of the cache a core keeps its old line. -/
theorem stale_of_no_inv (hinv : .invL1d ∉ o.beginMemAccess) (hdc : d ≠ c)
    (hv : v ≠ mem b) :
    ∃ s, Reach (osalStep o) anyStep (Driver.start m mem) s ∧
      ¬ Coherent s := by
  obtain ⟨s₁, hrun₁, hcore₁, hcell₁, -, hfree₁⟩ :=
    use_run (s := Driver.start m mem) (c := c) (b := b) (o := o) rfl
      (Or.inr rfl) none
  obtain ⟨s₂, hrun₂, hcore₂, hcell₂, hcur₂, hfree₂⟩ :=
    use_run (c := d) (b := b) (by rw [hcore₁]; rfl) hfree₁ (some v)
  have hline : (hook (s₂.cell b) c o.beginMemAccess).line c
      = some ⟨mem b, false⟩ := by
    rw [hook_begin_line hinv, hcell₂, (used_other hdc).1, hcell₁]
    exact used_read
  obtain ⟨s₃, hrun₃, hno⟩ := stale_run (c := c) (b := b)
    (by rw [hcore₂, hcore₁]; rfl) hfree₂
    (by rw [view_of_line hline, hcur₂]; exact hv.symm)
  exact ⟨s₃, (hrun₁.trans hrun₂).trans hrun₃, hno⟩

/-- Without an invalidation of the prefetch buffer it gets an old copy. -/
theorem stale_of_no_prefetch
    (hpre : .invalidatePrefetchBuffer ∉ o.beginMemAccess) (hdc : d ≠ c)
    (hv : v ≠ mem b) :
    ∃ s, Reach (osalStep o) anyStep (Driver.start m mem) s ∧
      ¬ Coherent s := by
  have hfirst : osalStep o (.prefetch c b) (Driver.start m mem)
      = some ((Driver.start m mem).apply c b .prefetch) := rfl
  obtain ⟨s₂, hrun₂, hcore₂, hcell₂, hcur₂, hfree₂⟩ :=
    use_run (s := (Driver.start m mem).apply c b .prefetch) (c := d) (b := b)
      (o := o) rfl (Or.inr rfl) (some v)
  obtain ⟨hline, hahead⟩ := used_other (x := (Cell.uncached (mem b)).apply c
    .prefetch) (o := o) (w := some v) hdc
  rw [apply_cell] at hcell₂
  have hview : (hook (s₂.cell b) c o.beginMemAccess).view c = mem b := by
    rw [view_of_no_line, hook_begin_ahead hpre, hcell₂]
    · change ((used o d (some v) ((Cell.uncached (mem b)).apply c
        .prefetch)).ahead c).getD _ = mem b
      rw [hahead, Cell.apply, setAhead_ahead]
      rfl
    · refine hook_begin.2.1 ?_
      rw [hcell₂]
      exact hline
  obtain ⟨s₃, hrun₃, hno⟩ := stale_run (c := c) (b := b)
    (by rw [hcore₂]; rfl) hfree₂
    (by rw [hview, hcur₂]; exact hv.symm)
  exact ⟨s₃, ((reach_one hfirst).trans hrun₂).trans hrun₃, hno⟩

/-- Without a write-back another core gets the old value, and so does the
writer when it invalidates its own line. -/
theorem stale_of_no_wb (hwb : .wbL1d ∉ o.endMemAccess)
    (hdc : d ≠ c ∨ .invL1d ∈ o.beginMemAccess) (hv : v ≠ mem b) :
    ∃ s, Reach (osalStep o) anyStep (Driver.start m mem) s ∧
      ¬ Coherent s := by
  obtain ⟨s₁, hrun₁, hcore₁, hcell₁, hcur₁, hfree₁⟩ :=
    use_run (s := Driver.start m mem) (c := d) (b := b) (o := o) rfl
      (Or.inr rfl) (some v)
  obtain ⟨hmem, hahead⟩ := used_write (x := Cell.uncached (mem b)) (d := d)
    (v := v) hwb
  have hnone : (s₁.cell b).ahead c = none := by
    rw [hcell₁]
    by_cases heq : d = c
    · exact heq ▸ hahead rfl
    · exact (used_other heq).2
  have hgone : (hook (s₁.cell b) c o.beginMemAccess).line c = none := by
    by_cases heq : d = c
    · exact hook_begin_drop (hdc.resolve_left (not_not_intro heq))
    · refine hook_begin.2.1 ?_
      rw [hcell₁]
      exact (used_other heq).1
  have hview : (hook (s₁.cell b) c o.beginMemAccess).view c = mem b := by
    rw [view_of_no_line hgone, hook_begin.2.2 hnone, hook_begin.1, hcell₁]
    exact hmem
  obtain ⟨s₂, hrun₂, hno⟩ := stale_run (c := c) (b := b)
    (by rw [hcore₁]; rfl) hfree₁
    (by rw [hview, hcur₁]; exact hv.symm)
  exact ⟨s₂, hrun₁.trans hrun₂, hno⟩

end stale

-- ================================================================= the law

/-- The hooks keep `m` cores coherent. -/
def Suffices (o : Hooks) (m : Nat) : Prop :=
  m = 0 ∨ m = 1 ∧ o.Keeps ∨ o.Full

/-- Every read in every run returns what was written last if and only if
there is one core and the hooks do not throw away what it wrote, or they
are complete. -/
theorem coherent_iff [Nonempty β] [Nontrivial V] (o : Hooks) (m : Nat)
    (mem : β → V) :
    (∀ s, Reach (osalStep o) anyStep (Driver.start m mem) s → Coherent s)
      ↔ Suffices o m := by
  constructor
  · intro hall
    by_contra hno
    simp only [Suffices, not_or, not_and] at hno
    obtain ⟨hzero, hone, hfull⟩ := hno
    obtain ⟨b⟩ := ‹Nonempty β›
    obtain ⟨v, hv⟩ := exists_ne (mem b)
    have hstale : ¬ ∃ s, Reach (osalStep o) anyStep (Driver.start m mem) s ∧
        ¬ Coherent s := fun ⟨s, hr, hbad⟩ => hbad (hall s hr)
    have hpos : 0 < m := Nat.pos_of_ne_zero hzero
    have hkeeps : o.Keeps := by
      intro hinv
      by_contra hwb
      have hdc : (⟨0, hpos⟩ : Fin m) ≠ ⟨0, hpos⟩ ∨ _ := Or.inr hinv
      exact hstale (stale_of_no_wb hwb hdc hv)
    have htwo : 1 < m := by
      rcases Nat.lt_or_ge 1 m with hlt | hge
      · exact hlt
      · exact absurd hkeeps (hone (Nat.le_antisymm hge hpos))
    have hdc : (⟨1, htwo⟩ : Fin m) ≠ ⟨0, hpos⟩ := by
      simp
    refine hfull ⟨fun hsem => ?_, ?_, ?_, ?_⟩
    · exact hstale (stale_of_no_lock hsem hdc hv)
    · by_contra hinv
      exact hstale (stale_of_no_inv hinv hdc hv)
    · by_contra hpre
      exact hstale (stale_of_no_prefetch hpre hdc hv)
    · by_contra hwb
      exact hstale (stale_of_no_wb hwb (Or.inl hdc) hv)
  · rintro (rfl | ⟨hone, hkeeps⟩ | hfull) s hr
    · exact fun c => c.elim0
    · have hI : Alone o s := by
        refine hr.invariant (I := Alone o) (.start mem) ?_
        exact fun _ _ _ hI _ hs => hI.step hone hkeeps (osalStep_cases hs)
      exact hI.coherent
    · have hI : Guarded s := by
        refine hr.invariant (I := Guarded) (.start mem) ?_
        exact fun _ _ _ hI _ hs => hI.step hfull (osalStep_cases hs)
      exact hI.coherent

theorem full_invWb (hwSem : Nat) : (invWb hwSem).Full where
  hwSem := nofun
  invL1d := List.mem_cons_self
  prefetch := List.mem_cons_of_mem _ List.mem_cons_self
  wbL1d := List.mem_cons_self

theorem full_infrastructure_qmss : InfrastructureOsal.qmss.Full where
  hwSem := nofun
  invL1d := List.mem_cons_of_mem _ List.mem_cons_self
  prefetch := List.mem_cons_self
  wbL1d := List.mem_cons_self

/-- Hooks that do nothing keep one core coherent and no more. -/
theorem suffices_of_empty {m : Nat} (ho : o.beginMemAccess = []) :
    Suffices o m ↔ m ≤ 1 := by
  have hinv : ¬ .invL1d ∈ o.beginMemAccess := by
    rw [ho]
    exact List.not_mem_nil
  constructor
  · rintro (rfl | ⟨rfl, -⟩ | hfull)
    · exact Nat.zero_le 1
    · exact Nat.le_refl 1
    · exact absurd hfull.invL1d hinv
  · intro hm
    rcases Nat.le_one_iff_eq_zero_or_eq_one.mp hm with rfl | rfl
    · exact Or.inl rfl
    · exact Or.inr (Or.inl ⟨rfl, fun h => absurd h hinv⟩)

/-- The hooks of multicore_osal.c, transport_osal.c and test_osal.c, and
those for QMSS of infrastructure_multicoreosal.c, make the libraries'
shared data coherent on any number of cores, in every run: a core that
uses a block sees what any core wrote to it last. The hooks for CPPI of
infrastructure_multicoreosal.c and all of osal.c do so on one core and no
more. -/
theorem osals_coherent [Nonempty β] [Nontrivial V] (m : Nat) (mem : β → V) :
    (∀ o ∈ [MulticoreOsal.fftc, MulticoreOsal.cppi, MulticoreOsal.qmss,
        TransportOsal.fftc, TransportOsal.cppi, TransportOsal.qmss,
        TestOsal.fftc, TestOsal.cppi, TestOsal.qmss,
        InfrastructureOsal.qmss],
      ∀ s, Reach (osalStep o) anyStep (Driver.start m mem) s → Coherent s)
    ∧ ∀ o ∈ [InfrastructureOsal.cppi, PlainOsal.hooks],
      ((∀ s, Reach (osalStep o) anyStep (Driver.start m mem) s → Coherent s)
        ↔ m ≤ 1) := by
  refine ⟨fun o ho => (coherent_iff o m mem).mpr (Or.inr (Or.inr ?_)),
    fun o ho => (coherent_iff o m mem).trans (suffices_of_empty ?_)⟩
  · simp only [List.mem_cons, List.not_mem_nil, or_false] at ho
    rcases ho with
      rfl | rfl | rfl | rfl | rfl | rfl | rfl | rfl | rfl | rfl
    · exact full_invWb FFTC_HW_SEM
    · exact full_invWb CPPI_HW_SEM
    · exact full_invWb QMSS_HW_SEM
    · exact full_invWb FFTC_HW_SEM
    · exact full_invWb CPPI_HW_SEM
    · exact full_invWb QMSS_HW_SEM
    · exact full_invWb FFTC_HW_SEM
    · exact full_invWb CPPI_HW_SEM
    · exact full_invWb QMSS_HW_SEM
    · exact full_infrastructure_qmss
  · simp only [List.mem_cons, List.not_mem_nil, or_false] at ho
    rcases ho with rfl | rfl <;> rfl

/-- Two cores that share two numbers: through the hooks for QMSS every
read is current, through those of osal.c some read is not. -/
theorem osals_coherent_two :
    (∀ s, Reach (osalStep MulticoreOsal.qmss) anyStep
      (Driver.start 2 fun _ : Bool => 0) s → Coherent s) ∧
    ∃ s, Reach (osalStep PlainOsal.hooks) anyStep
      (Driver.start 2 fun _ : Bool => 0) s ∧ ¬ Coherent s := by
  obtain ⟨hguarded, hempty⟩ := osals_coherent 2 fun _ : Bool => 0
  refine ⟨hguarded _ (by simp), ?_⟩
  by_contra hno
  have hall := (hempty PlainOsal.hooks (by simp)).mp fun s hr =>
    by_contra fun hbad => hno ⟨s, hr, hbad⟩
  exact absurd hall (by decide)

end DspCodes.Osal

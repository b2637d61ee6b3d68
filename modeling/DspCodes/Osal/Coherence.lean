/-
When the OSAL keeps the shared data of a library coherent.

# With a semaphore and all three operations

The holder of the semaphore is the only core inside (`Guarded`). Each
block it does not use is quiet; the block it uses is its own; in between
`Opening` and `Closing` say how far a hook has come. No hook of another
core runs meanwhile, but its evictions and prefetches do.

# On one core

The core owns every block (`Alone`). What could go wrong is that a hook
invalidates a line that was not written back.
-/
import DspCodes.Osal.Hooks

namespace DspCodes.Osal

open Lts Cache

variable {m : Nat} {β V : Type _} [DecidableEq β] {o : Hooks}
  {s s' : Driver m β V} {a : Call m β V} {c d : Fin m} {b b' : β}
  {held : Finset β} {todo : List CacheOp} {op : CacheOp} {v : V}

-- ========================================================= one user's block

/-- The blocks a core has in use. -/
def Access.has : Access β → Finset β
  | .out => ∅
  | .inside held => held
  | .opening held _ _ => held
  | .closing held b _ => insert b held

/-- How far a `BeginMemAccess` has come: what it has still to drop, it may
find; what it has dropped is gone, or back as it is in the memory. -/
structure Opening (x : Cell (Fin m) V) (c : Fin m) (todo : List CacheOp)
    (v : V) : Prop where
  quiet : Quiet x v
  line : .invL1d ∈ todo ∨ x.line c = none
  ahead : .invalidatePrefetchBuffer ∈ todo ∨ ∀ w, x.ahead c = some w → w = v

/-- How far an `EndMemAccess` has come. -/
structure Closing (x : Cell (Fin m) V) (c : Fin m) (todo : List CacheOp)
    (v : V) : Prop where
  owned : Owned x c v
  only : ∀ op ∈ todo, op = .wbL1d
  written : .wbL1d ∈ todo ∨ Clean x c

/-- Block `b`, of value `v`, while core `c`, the only one inside, stands at
`a`. -/
structure Use (a : Access β) (c : Fin m) (b : β) (x : Cell (Fin m) V)
    (v : V) : Prop where
  owned : b ∈ a.has → Owned x c v
  quiet : b ∉ a.has → Quiet x v
  opening : ∀ held todo, a = .opening held b todo →
    b ∉ held ∧ Opening x c todo v
  closing : ∀ held todo, a = .closing held b todo → Closing x c todo v

/-- What a hook's operation does to the block it is about. -/
def CacheOp.onBlock : CacheOp → Op V
  | .invL1d => .drop
  | .wbL1d => .clean
  | .invalidatePrefetchBuffer => .dropAhead

theorem CacheOp.onBlock_ne_write (op : CacheOp) (w : V) :
    op.onBlock ≠ .write w := by
  cases op <;> exact nofun

variable {x : Cell (Fin m) V}

/-- The hardware keeps a `BeginMemAccess` where it is. -/
theorem Opening.hardware (h : Opening x c todo v) {op : Op V}
    (hop : op = .evict ∨ op = .prefetch) :
    Opening (x.apply d op) c todo v where
  quiet := by
    refine h.quiet.apply fun w => ?_
    rcases hop with rfl | rfl <;> exact nofun
  line := by
    refine h.line.imp_right fun hl => ?_
    by_cases hdc : d = c
    · subst hdc
      rcases hop with rfl | rfl
      · exact setLine_line none
      · exact hl
    · rw [apply_line hdc]
      exact hl
  ahead := by
    refine h.ahead.imp_right fun ha w hw => ?_
    by_cases hdc : d = c
    · subst hdc
      rcases hop with rfl | rfl
      · rw [Cell.apply, setLine_ahead, (h.quiet.clean d).clean_eq] at hw
        exact ha w hw
      · rw [Cell.apply, setAhead_ahead, Option.some.injEq, h.quiet.mem] at hw
        exact hw.symm
    · rw [apply_ahead hdc] at hw
      exact ha w hw

/-- The next operation of a `BeginMemAccess`. -/
theorem Opening.perform (h : Opening x c (op :: todo) v) :
    Opening (x.apply c op.onBlock) c todo v where
  quiet := h.quiet.apply op.onBlock_ne_write
  line := by
    cases op with
    | invL1d => exact Or.inr (setLine_line none)
    | wbL1d =>
        rw [CacheOp.onBlock, Cell.apply, (h.quiet.clean c).clean_eq]
        exact h.line.imp_left (List.mem_of_ne_of_mem (by decide))
    | invalidatePrefetchBuffer =>
        exact h.line.imp_left (List.mem_of_ne_of_mem (by decide))
  ahead := by
    cases op with
    | invL1d => exact h.ahead.imp_left (List.mem_of_ne_of_mem (by decide))
    | wbL1d =>
        rw [CacheOp.onBlock, Cell.apply, (h.quiet.clean c).clean_eq]
        exact h.ahead.imp_left (List.mem_of_ne_of_mem (by decide))
    | invalidatePrefetchBuffer =>
        refine Or.inr fun w hw => ?_
        rw [CacheOp.onBlock, Cell.apply, setAhead_ahead] at hw
        cases hw

/-- At its end the block is the core's. -/
theorem Opening.owned (h : Opening x c [] v) : Owned x c v :=
  h.quiet.owned (h.line.resolve_left List.not_mem_nil)
    (h.ahead.resolve_left List.not_mem_nil)

/-- The next operation of an `EndMemAccess`. -/
theorem Closing.perform (h : Closing x c (op :: todo) v) :
    Closing (x.apply c op.onBlock) c todo v := by
  obtain rfl := h.only op List.mem_cons_self
  refine ⟨h.owned.apply (CacheOp.onBlock_ne_write _) nofun,
    fun op hop => h.only op (List.mem_cons_of_mem _ hop),
    Or.inr clean_clean⟩

/-- At its end the block is quiet. -/
theorem Closing.quiet (h : Closing x c [] v) : Quiet x v :=
  h.owned.quiet (h.written.resolve_left List.not_mem_nil)

/-- An owner keeps its block through the moves of the hardware. -/
theorem owned_hardware (h : Owned x c v) {op : Op V}
    (hop : op = .evict ∨ op = .prefetch) : Owned (x.apply d op) c v := by
  have hwrite : ∀ w, op ≠ .write w := by
    rcases hop with rfl | rfl <;> exact nofun
  by_cases hdc : d = c
  · subst hdc
    refine h.apply hwrite fun hdrop => ?_
    rcases hop with rfl | rfl <;> cases hdrop
  · exact h.apply_other hdc hwrite

/-- The hardware leaves each block what it is. -/
theorem Use.hardware {a : Access β} (h : Use a c b x v) {op : Op V}
    (hop : op = .evict ∨ op = .prefetch) : Use a c b (x.apply d op) v := by
  have hwrite : ∀ w, op ≠ .write w := by
    rcases hop with rfl | rfl <;> exact nofun
  refine ⟨fun hb => owned_hardware (h.owned hb) hop,
    fun hb => (h.quiet hb).apply hwrite, ?_, ?_⟩
  · intro held todo ha
    exact ⟨(h.opening held todo ha).1,
      (h.opening held todo ha).2.hardware hop⟩
  · intro held todo ha
    have hclosing := h.closing held todo ha
    exact ⟨owned_hardware hclosing.owned hop, hclosing.only,
      hclosing.written.imp_right fun hclean => hclean.apply hwrite⟩

/-- A hook on another block leaves this one what it is, whether or not it
drops the prefetched copies. -/
theorem Use.elsewhere {a a' : Access β} {x' : Cell (Fin m) V}
    (h : Use a c b x v) (hhas : b ∈ a'.has ↔ b ∈ a.has)
    (hopening : ∀ held todo, a' ≠ .opening held b todo)
    (hclosing : ∀ held todo, a' ≠ .closing held b todo)
    (hx : x' = x ∨ x' = x.apply c .dropAhead) : Use a' c b x' v where
  owned := by
    intro hb
    have howned := h.owned (hhas.mp hb)
    rcases hx with rfl | rfl
    · exact howned
    · exact howned.apply nofun nofun
  quiet := by
    intro hb
    have hquiet := h.quiet fun hb' => hb (hhas.mpr hb')
    rcases hx with rfl | rfl
    · exact hquiet
    · exact hquiet.apply nofun
  opening := fun held todo ha => absurd ha (hopening held todo)
  closing := fun held todo ha => absurd ha (hclosing held todo)

/-- `BeginMemAccess` is called for `b`. -/
theorem Use.beginAccess (ho : o.Full) (h : Use (.inside held) c b' x v)
    (hb : b ∉ held) : Use (.opening held b o.beginMemAccess) c b' x v where
  owned := h.owned
  quiet := h.quiet
  opening := by
    rintro held' todo ⟨⟩
    exact ⟨hb, h.quiet hb, Or.inl ho.invL1d, Or.inl ho.prefetch⟩
  closing := nofun

/-- It returns. -/
theorem Use.opened (h : Use (.opening held b []) c b' x v) :
    Use (.inside (insert b held)) c b' x v where
  owned := by
    intro hb
    rcases Finset.mem_insert.mp hb with rfl | hheld
    · exact (h.opening held [] rfl).2.owned
    · exact h.owned hheld
  quiet := fun hb => h.quiet fun hheld => hb (Finset.mem_insert_of_mem hheld)
  opening := nofun
  closing := nofun

/-- `EndMemAccess` is called for `b`. -/
theorem Use.endAccess (ho : o.Full) (h : Use (.inside held) c b' x v)
    (hb : b ∈ held) :
    Use (.closing (held.erase b) b o.endMemAccess) c b' x v where
  owned := by
    intro hb'
    refine h.owned ?_
    rwa [Access.has, Finset.insert_erase hb] at hb'
  quiet := by
    intro hb'
    refine h.quiet ?_
    rwa [Access.has, Finset.insert_erase hb] at hb'
  opening := nofun
  closing := by
    rintro held' todo ⟨⟩
    exact ⟨h.owned hb, o.end_wb, Or.inl ho.wbL1d⟩

/-- It returns. -/
theorem Use.closed (h : Use (.closing held b []) c b' x v) :
    Use (.inside held) c b' x v where
  owned := fun hb => h.owned (Finset.mem_insert_of_mem hb)
  quiet := by
    intro hb
    by_cases heq : b' = b
    · subst heq
      exact (h.closing held [] rfl).quiet
    · refine h.quiet fun hmem => hb ?_
      exact (Finset.mem_insert.mp hmem).resolve_left heq
  opening := nofun
  closing := nofun

/-- The next operation of `BeginMemAccess`. -/
theorem Use.openingOp (h : Use (.opening held b (op :: todo)) c b' x v)
    {x' : Cell (Fin m) V} (hself : b' = b → x' = x.apply c op.onBlock)
    (hother : b' ≠ b → x' = x ∨ x' = x.apply c .dropAhead) :
    Use (.opening held b todo) c b' x' v := by
  by_cases heq : b' = b
  · subst heq
    obtain rfl := hself rfl
    obtain ⟨hb, hopening⟩ := h.opening held (op :: todo) rfl
    refine ⟨fun hmem => absurd hmem hb, fun _ => hopening.perform.quiet, ?_,
      nofun⟩
    rintro held' todo' ⟨⟩
    exact ⟨hb, hopening.perform⟩
  · refine h.elsewhere Iff.rfl ?_ nofun (hother heq)
    rintro held' todo' ⟨⟩
    exact heq rfl

/-- The next operation of `EndMemAccess`. -/
theorem Use.closingOp (h : Use (.closing held b (op :: todo)) c b' x v)
    {x' : Cell (Fin m) V} (hself : b' = b → x' = x.apply c op.onBlock)
    (hother : b' ≠ b → x' = x ∨ x' = x.apply c .dropAhead) :
    Use (.closing held b todo) c b' x' v := by
  by_cases heq : b' = b
  · subst heq
    obtain rfl := hself rfl
    have hclosing := h.closing held (op :: todo) rfl
    refine ⟨fun _ => hclosing.perform.owned,
      fun hb => absurd (Finset.mem_insert_self ..) hb, nofun, ?_⟩
    rintro held' todo' ⟨⟩
    exact hclosing.perform
  · refine h.elsewhere Iff.rfl nofun ?_ (hother heq)
    rintro held' todo' ⟨⟩
    exact heq rfl

/-- What a core inside does to one of its blocks. -/
theorem Use.access (h : Use (.inside held) c b' x v) {x' : Cell (Fin m) V}
    {v' : V} (hb : b ∈ held) (hself : b' = b → Owned x' c v')
    (hother : b' ≠ b → x' = x ∧ v' = v) : Use (.inside held) c b' x' v' := by
  by_cases heq : b' = b
  · subst heq
    exact ⟨fun _ => hself rfl, fun hnot => absurd hb hnot, nofun, nofun⟩
  · obtain ⟨rfl, rfl⟩ := hother heq
    exact h

-- ============================================================= the updates

omit [DecidableEq β] in
theorem goto_core (s : Driver m β V) (c : Fin m) (a : Access β) :
    (s.goto c a).core c = a := Function.update_self ..

omit [DecidableEq β] in
theorem goto_core_of_ne (s : Driver m β V) {c d : Fin m} (a : Access β)
    (h : d ≠ c) : (s.goto c a).core d = s.core d :=
  Function.update_of_ne h ..

theorem apply_cell (s : Driver m β V) (c : Fin m) (b : β) (op : Op V) :
    (s.apply c b op).cell b = (s.cell b).apply c op :=
  Function.update_self ..

theorem apply_cell_of_ne (s : Driver m β V) (c : Fin m) {b b' : β}
    (op : Op V) (h : b' ≠ b) : (s.apply c b op).cell b' = s.cell b' :=
  Function.update_of_ne h ..

theorem perform_cell (s : Driver m β V) (c : Fin m) (b : β) (op : CacheOp) :
    (s.perform c b op).cell b = (s.cell b).apply c op.onBlock := by
  cases op with
  | invL1d | wbL1d => exact apply_cell ..
  | invalidatePrefetchBuffer => rfl

theorem perform_cell_of_ne (s : Driver m β V) (c : Fin m) {b b' : β}
    (op : CacheOp) (h : b' ≠ b) :
    (s.perform c b op).cell b' = s.cell b' ∨
      (s.perform c b op).cell b' = (s.cell b').apply c .dropAhead := by
  cases op with
  | invL1d | wbL1d => exact Or.inl (apply_cell_of_ne _ _ _ h)
  | invalidatePrefetchBuffer => exact Or.inr rfl

theorem perform_rest (s : Driver m β V) (c : Fin m) (b : β) (op : CacheOp) :
    (s.perform c b op).sem = s.sem ∧ (s.perform c b op).core = s.core ∧
      (s.perform c b op).cur = s.cur := by
  cases op <;> exact ⟨rfl, rfl, rfl⟩

-- ============================================================ the invariant

/-- With a semaphore and all three cache operations: the holder of the
semaphore is the only core inside, and each block is what the holder's
place says it is. -/
structure Guarded (s : Driver m β V) : Prop where
  sem : ∀ c, s.core c ≠ .out → s.sem = some c
  idle : s.sem = none → ∀ b, Quiet (s.cell b) (s.cur b)
  use : ∀ c, s.sem = some c → ∀ b, Use (s.core c) c b (s.cell b) (s.cur b)

theorem Guarded.start (mem : β → V) : Guarded (Driver.start m mem) where
  sem := fun _ hout => absurd rfl hout
  idle := fun _ _ => quiet_uncached
  use := nofun

/-- A step of the core inside. -/
theorem Guarded.move (h : Guarded s) (hin : s.core c ≠ .out)
    (hsem : s'.sem = s.sem) (hcore : ∀ d, d ≠ c → s'.core d = s.core d)
    (huse : ∀ b, Use (s.core c) c b (s.cell b) (s.cur b) →
      Use (s'.core c) c b (s'.cell b) (s'.cur b)) : Guarded s' := by
  have hc := h.sem c hin
  refine ⟨fun d hd => ?_, fun hnone => ?_, fun d hd b => ?_⟩
  · by_cases hdc : d = c
    · rw [hsem, hc, hdc]
    · rw [hcore d hdc] at hd
      rw [hsem]
      exact h.sem d hd
  · rw [hsem, hc] at hnone
    cases hnone
  · rw [hsem, hc] at hd
    cases hd
    exact huse b (h.use c hc b)

/-- A step to another place. -/
theorem Guarded.goto {s₁ : Driver m β V} {a a' : Access β} (h : Guarded s)
    (hpc : s.core c = a) (hin : a ≠ .out)
    (hrest : s₁.sem = s.sem ∧ s₁.core = s.core ∧ s₁.cur = s.cur)
    (huse : ∀ b, Use a c b (s.cell b) (s.cur b) →
      Use a' c b (s₁.cell b) (s.cur b)) : Guarded (s₁.goto c a') := by
  obtain ⟨hsem, hcore, hcur⟩ := hrest
  refine h.move (hpc ▸ hin) hsem (fun d hd => ?_) fun b hb => ?_
  · rw [goto_core_of_ne _ _ hd, hcore]
  · rw [goto_core]
    show Use a' c b (s₁.cell b) (s₁.cur b)
    rw [hcur]
    exact huse b (hpc ▸ hb)

/-- While core `c` is the only one inside, the others are out. -/
theorem Guarded.others_out (h : Guarded s) (hd : s.sem ≠ some d) :
    s.core d = .out :=
  Decidable.by_contra fun hne => hd (h.sem d hne)

/-- The step lemma. -/
theorem Guarded.step (ho : o.Full) (h : Guarded s) (hs : OsalStep o s s') :
    Guarded s' := by
  cases hs with
  | enter hpc hsem => exact absurd hsem ho.hwSem
  | exit hpc hsem => exact absurd hsem ho.hwSem
  | @acquire c hpc hsem hfree =>
      refine ⟨fun d hd => ?_, nofun, fun d hd b => ?_⟩
      · by_cases hdc : d = c
        · rw [hdc]
          rfl
        · rw [goto_core_of_ne _ _ hdc] at hd
          refine absurd (h.others_out ?_) hd
          rw [hfree]
          exact nofun
      · obtain rfl : c = d := Option.some.inj hd
        rw [goto_core]
        exact ⟨nofun, fun _ => h.idle hfree b, nofun, nofun⟩
  | @release c hpc hsem =>
      have hin : s.core c ≠ .out := by
        rw [hpc]
        exact nofun
      have hc := h.sem c hin
      refine ⟨fun d hd => ?_, fun _ b => ?_, nofun⟩
      · by_cases hdc : d = c
        · rw [hdc, goto_core] at hd
          exact absurd rfl hd
        · rw [goto_core_of_ne _ _ hdc] at hd
          refine absurd (h.others_out ?_) hd
          rw [hc]
          exact fun heq => hdc (Option.some.inj heq).symm
      · refine (h.use c hc b).quiet ?_
        rw [hpc]
        exact Finset.notMem_empty b
  | @beginAccess c b held hpc hb =>
      exact h.goto hpc nofun ⟨rfl, rfl, rfl⟩
        fun b' huse => huse.beginAccess ho hb
  | @opening c b held op todo hpc =>
      refine h.goto hpc nofun (perform_rest s c b op) fun b' huse => ?_
      refine huse.openingOp ?_ (perform_cell_of_ne s c op)
      rintro rfl
      exact perform_cell s c b' op
  | @opened c b held hpc =>
      exact h.goto hpc nofun ⟨rfl, rfl, rfl⟩ fun b' huse => huse.opened
  | @endAccess c b held hpc hb =>
      exact h.goto hpc nofun ⟨rfl, rfl, rfl⟩
        fun b' huse => huse.endAccess ho hb
  | @closing c b held op todo hpc =>
      refine h.goto hpc nofun (perform_rest s c b op) fun b' huse => ?_
      refine huse.closingOp ?_ (perform_cell_of_ne s c op)
      rintro rfl
      exact perform_cell s c b' op
  | @closed c b held hpc =>
      exact h.goto hpc nofun ⟨rfl, rfl, rfl⟩ fun b' huse => huse.closed
  | @read c b held hpc hb =>
      refine h.move (by rw [hpc]; exact nofun) rfl (fun _ _ => rfl)
        fun b' huse => ?_
      show Use (s.core c) c b' ((s.apply c b .read).cell b') (s.cur b')
      rw [hpc] at huse ⊢
      refine huse.access hb ?_ fun hne => ⟨apply_cell_of_ne _ _ _ hne, rfl⟩
      rintro rfl
      rw [apply_cell]
      exact (huse.owned hb).apply nofun nofun
  | @write c b held v hpc hb =>
      refine h.move (by rw [hpc]; exact nofun) rfl (fun _ _ => rfl)
        fun b' huse => ?_
      show Use (s.core c) c b' ((s.apply c b (.write v)).cell b')
        (Function.update s.cur b v b')
      rw [hpc] at huse ⊢
      refine huse.access hb ?_ fun hne =>
        ⟨apply_cell_of_ne _ _ _ hne, Function.update_of_ne hne ..⟩
      rintro rfl
      rw [apply_cell, Function.update_self]
      exact (huse.owned hb).write
  | @hardware d b op hop =>
      have hwrite : ∀ w, op ≠ .write w := by
        rcases hop with rfl | rfl <;> exact nofun
      refine ⟨h.sem, fun hnone b' => ?_, fun c hc b' => ?_⟩
      · by_cases heq : b' = b
        · rw [heq, apply_cell]
          exact (h.idle hnone b).apply hwrite
        · rw [apply_cell_of_ne _ _ _ heq]
          exact h.idle hnone b'
      · by_cases heq : b' = b
        · rw [heq, apply_cell]
          exact (h.use c hc b).hardware hop
        · rw [apply_cell_of_ne _ _ _ heq]
          exact h.use c hc b'

/-- A core inside sees what was written last. -/
theorem Guarded.coherent (h : Guarded s) : Coherent s := by
  intro c held b hpc hb
  have hc := h.sem c (by rw [hpc]; exact nofun)
  refine ((h.use c hc b).owned ?_).fresh.view
  rw [hpc]
  exact hb

-- ============================================================ one core only

/-- Block `b` on the only core there is: it sees the value at all times,
and has written it back when a hook may invalidate it. -/
structure Solo (o : Hooks) (a : Access β) (c : Fin m) (b : β)
    (x : Cell (Fin m) V) (v : V) : Prop where
  owned : Owned x c v
  clean : .invL1d ∈ o.beginMemAccess → b ∉ a.has → Clean x c
  opening : ∀ held todo, a = .opening held b todo →
    b ∉ held ∧ ∀ op ∈ todo, op ∈ o.beginMemAccess
  closing : ∀ held todo, a = .closing held b todo →
    (∀ op ∈ todo, op = .wbL1d) ∧
      (.invL1d ∈ o.beginMemAccess → .wbL1d ∈ todo ∨ Clean x c)

/-- One core, and its blocks. -/
def Alone (o : Hooks) (s : Driver m β V) : Prop :=
  ∀ c b, Solo o (s.core c) c b (s.cell b) (s.cur b)

theorem Alone.start (mem : β → V) : Alone o (Driver.start m mem) := by
  intro c b
  have hquiet : Quiet (Cell.uncached (mem b)) (mem b) :=
    quiet_uncached (κ := Fin m)
  refine ⟨hquiet.owned rfl nofun, fun _ _ => hquiet.clean c, nofun, nofun⟩

/-- The next operation of a hook leaves the other blocks what they are. -/
theorem Solo.elsewhere {a a' : Access β} {x' : Cell (Fin m) V}
    (h : Solo o a c b x v) (hhas : a'.has = a.has)
    (hopening : ∀ held todo, a' ≠ .opening held b todo)
    (hclosing : ∀ held todo, a' ≠ .closing held b todo)
    (hx : x' = x ∨ x' = x.apply c .dropAhead) : Solo o a' c b x' v where
  owned := by
    rcases hx with rfl | rfl
    · exact h.owned
    · exact h.owned.apply nofun nofun
  clean := by
    intro hinv hb
    have hclean := h.clean hinv (hhas ▸ hb)
    rcases hx with rfl | rfl
    · exact hclean
    · exact hclean.apply nofun
  opening := fun held todo ha => absurd ha (hopening held todo)
  closing := fun held todo ha => absurd ha (hclosing held todo)

/-- The next operation of `BeginMemAccess` drops nothing that is not
written back. -/
theorem Solo.openingOp (h : Solo o (.opening held b (op :: todo)) c b' x v)
    {x' : Cell (Fin m) V} (hself : b' = b → x' = x.apply c op.onBlock)
    (hother : b' ≠ b → x' = x ∨ x' = x.apply c .dropAhead) :
    Solo o (.opening held b todo) c b' x' v := by
  by_cases heq : b' = b
  · subst heq
    obtain rfl := hself rfl
    obtain ⟨hb, htodo⟩ := h.opening held (op :: todo) rfl
    have hdrop : op.onBlock = (.drop : Op V) → Clean x c := by
      intro hop
      refine h.clean ?_ hb
      cases op with
      | invL1d => exact htodo _ List.mem_cons_self
      | wbL1d | invalidatePrefetchBuffer => cases hop
    refine ⟨h.owned.apply op.onBlock_ne_write hdrop,
      fun hinv hnot => (h.clean hinv hnot).apply op.onBlock_ne_write, ?_,
      nofun⟩
    rintro held' todo' ⟨⟩
    exact ⟨hb, fun op' hop => htodo op' (List.mem_cons_of_mem _ hop)⟩
  · refine h.elsewhere rfl ?_ nofun (hother heq)
    rintro held' todo' ⟨⟩
    exact heq rfl

/-- The next operation of `EndMemAccess` writes back. -/
theorem Solo.closingOp (h : Solo o (.closing held b (op :: todo)) c b' x v)
    {x' : Cell (Fin m) V} (hself : b' = b → x' = x.apply c op.onBlock)
    (hother : b' ≠ b → x' = x ∨ x' = x.apply c .dropAhead) :
    Solo o (.closing held b todo) c b' x' v := by
  by_cases heq : b' = b
  · subst heq
    obtain rfl := hself rfl
    obtain ⟨honly, -⟩ := h.closing held (op :: todo) rfl
    obtain rfl := honly op List.mem_cons_self
    refine ⟨h.owned.apply (CacheOp.onBlock_ne_write _) nofun,
      fun _ _ => clean_clean, nofun, ?_⟩
    rintro held' todo' ⟨⟩
    exact ⟨fun op hop => honly op (List.mem_cons_of_mem _ hop),
      fun _ => Or.inr clean_clean⟩
  · refine h.elsewhere rfl nofun ?_ (hother heq)
    rintro held' todo' ⟨⟩
    exact heq rfl

/-- `EndMemAccess` is called for `b`. -/
theorem Solo.endAccess (ho : o.Keeps) (h : Solo o (.inside held) c b' x v)
    (hb : b ∈ held) :
    Solo o (.closing (held.erase b) b o.endMemAccess) c b' x v where
  owned := h.owned
  clean := by
    intro hinv hb'
    refine h.clean hinv ?_
    rwa [Access.has, Finset.insert_erase hb] at hb'
  opening := nofun
  closing := by
    rintro held' todo ⟨⟩
    exact ⟨o.end_wb, fun hinv => Or.inl (ho hinv)⟩

/-- It returns. -/
theorem Solo.closed (h : Solo o (.closing held b []) c b' x v) :
    Solo o (.inside held) c b' x v where
  owned := h.owned
  clean := by
    intro hinv hb
    by_cases heq : b' = b
    · subst heq
      exact ((h.closing held [] rfl).2 hinv).resolve_left List.not_mem_nil
    · refine h.clean hinv fun hmem => hb ?_
      exact (Finset.mem_insert.mp hmem).resolve_left heq
  opening := nofun
  closing := nofun

/-- Reads, evictions and prefetches keep the block what it is. -/
theorem Solo.plain {a : Access β} (h : Solo o a c b x v) {op : Op V}
    (hwrite : ∀ w, op ≠ .write w) (hdrop : op ≠ .drop) :
    Solo o a c b (x.apply c op) v where
  owned := h.owned.apply hwrite fun heq => absurd heq hdrop
  clean := fun hinv hb => (h.clean hinv hb).apply hwrite
  opening := h.opening
  closing := by
    intro held todo ha
    obtain ⟨honly, hclean⟩ := h.closing held todo ha
    exact ⟨honly, fun hinv =>
      (hclean hinv).imp_right fun hcl => hcl.apply hwrite⟩

/-- They keep all blocks what they are. -/
theorem Alone.plain (h : Alone o s) (hone : ∀ d : Fin m, d = c) {op : Op V}
    (hwrite : ∀ w, op ≠ .write w) (hdrop : op ≠ .drop) :
    Alone o (s.apply c b op) := by
  intro d b'
  obtain rfl := hone d
  show Solo o (s.core d) d b' ((s.apply d b op).cell b') (s.cur b')
  by_cases heq : b' = b
  · rw [heq, apply_cell]
    exact (h d b).plain hwrite hdrop
  · rw [apply_cell_of_ne _ _ _ heq]
    exact h d b'

/-- A step of the only core to another place. -/
theorem Alone.goto {s₁ : Driver m β V} {a a' : Access β} (h : Alone o s)
    (hone : ∀ d : Fin m, d = c) (hpc : s.core c = a) (hcur : s₁.cur = s.cur)
    (hsolo : ∀ b, Solo o a c b (s.cell b) (s.cur b) →
      Solo o a' c b (s₁.cell b) (s.cur b)) : Alone o (s₁.goto c a') := by
  intro d b
  rw [hone d, goto_core]
  show Solo o a' c b (s₁.cell b) (s₁.cur b)
  rw [hcur]
  exact hsolo b (hpc ▸ h c b)

/-- The step lemma. -/
theorem Alone.step (hone : m = 1) (ho : o.Keeps) (h : Alone o s)
    (hs : OsalStep o s s') : Alone o s' := by
  subst hone
  have hsub : ∀ c d : Fin 1, d = c := fun c d => Subsingleton.elim d c
  cases hs with
  | @enter c hpc | @acquire c hpc | @exit c hpc | @release c hpc =>
      exact h.goto (hsub c) hpc rfl
        fun b hb => ⟨hb.owned, hb.clean, nofun, nofun⟩
  | @beginAccess c b held hpc hb =>
      refine h.goto (hsub c) hpc rfl fun b' hb' => ?_
      refine ⟨hb'.owned, hb'.clean, ?_, nofun⟩
      rintro held' todo ⟨⟩
      exact ⟨hb, fun _ hop => hop⟩
  | @opening c b held op todo hpc =>
      refine h.goto (hsub c) hpc (perform_rest s c b op).2.2
        fun b' hb' => ?_
      refine hb'.openingOp ?_ (perform_cell_of_ne s c op)
      rintro rfl
      exact perform_cell s c b' op
  | @opened c b held hpc =>
      refine h.goto (hsub c) hpc rfl fun b' hb' => ?_
      exact ⟨hb'.owned, fun hinv hnot => hb'.clean hinv fun hmem =>
        hnot (Finset.mem_insert_of_mem hmem), nofun, nofun⟩
  | @endAccess c b held hpc hb =>
      exact h.goto (hsub c) hpc rfl fun b' hb' => hb'.endAccess ho hb
  | @closing c b held op todo hpc =>
      refine h.goto (hsub c) hpc (perform_rest s c b op).2.2
        fun b' hb' => ?_
      refine hb'.closingOp ?_ (perform_cell_of_ne s c op)
      rintro rfl
      exact perform_cell s c b' op
  | @closed c b held hpc =>
      exact h.goto (hsub c) hpc rfl fun b' hb' => hb'.closed
  | @read c b held hpc hb => exact h.plain (hsub c) nofun nofun
  | @write c b held v hpc hb =>
      intro d b'
      obtain rfl := hsub c d
      show Solo o (s.core d) d b' ((s.apply d b (.write v)).cell b')
        (Function.update s.cur b v b')
      by_cases heq : b' = b
      · rw [heq, apply_cell, Function.update_self, hpc]
        exact ⟨(h d b).owned.write, fun _ hnot => absurd hb hnot, nofun,
          nofun⟩
      · rw [apply_cell_of_ne _ _ _ heq, Function.update_of_ne heq]
        exact h d b'
  | @hardware d b op hop =>
      rcases hop with rfl | rfl <;> exact h.plain (hsub d) nofun nofun

/-- The only core sees what it wrote last. -/
theorem Alone.coherent (h : Alone o s) : Coherent s :=
  fun c _ b _ _ => (h c b).owned.fresh.view

end DspCodes.Osal

/-
The end of the example: core 0 leaves its final loop when it reads
`runCount = NUMBER_OF_CORES` and runs `sysExit`, which closes the common
queues under the other cores.

# What the count says, and what it does not

`runCount` never overtakes the write-backs of the handlers (`WordInv`,
true of every schedule, lost updates included). So when core 0 reads the
full count, every round's handler has written back, and no handler will
touch a queue again. It says nothing about the MAIN loops of the other
cores: core 0 can live on leftover sync descriptors, and a slow core is
then still polling the sync queue while core 0 closes it
(`tearDown_early`).

# What is proved

`tearDown_safe`: from the moment core 0 enters `sysExit`, no other core
will ever perform another queue operation if and only if the main loop of
every other core has left its rounds. The handlers' half of the property
needs no condition.
-/
import DspCodes.Infra.RunCount
import DspCodes.Infra.CfgBarrier

namespace DspCodes.Infra

open Lts Counting

variable {cfg : Config} {ok : Bool} {c : Nat} {x x' : CoreState}
  {sh sh' : Shared} {s s' : State cfg} {a : Action cfg.numCores}

-- ============================================== the word and the caches

/-- The write-backs of all handlers. -/
def writeBacks (s : State cfg) : Nat := ∑ c, (s.core c).written

/-- One while the cached line holds an increment not yet written back. -/
def IsrPc.dirty : IsrPc → Nat
  | .runWb _ => 1
  | _ => 0

@[simp] theorem isrLoop_dirty (ch i : Nat) :
    (isrLoop cfg ch i).dirty = 0 := by
  unfold isrLoop
  split_ifs <;> rfl

/-- The values of `runCount` a core holds, against the number of
write-backs. -/
structure WordOk (n : Nat) (x : CoreState) : Prop where
  cache : ∀ w, x.cache = some w → w ≤ n + x.isr.dirty
  value : ∀ ch v, x.isr = .runStore ch v → v ≤ n

theorem WordOk.mono {n m : Nat} (h : WordOk n x) (hle : n ≤ m) :
    WordOk m x :=
  ⟨fun w hw => by have := h.cache w hw; omega,
    fun ch v hv => by have := h.value ch v hv; omega⟩

/-- A step of the handler that keeps the cached copy. -/
theorem WordOk.keep {n : Nat} (h : WordOk n x) (hcache : x'.cache = x.cache)
    (hdirty : x'.isr.dirty = x.isr.dirty)
    (hvalue : ∀ ch v, x'.isr ≠ .runStore ch v) : WordOk n x' := by
  refine ⟨fun w hw => ?_, fun ch v hv => absurd hv (hvalue ch v)⟩
  rw [hdirty]
  exact h.cache w (hcache ▸ hw)

/-- What a core reads of `runCount` outside the increment is at most the
number of write-backs. -/
theorem WordOk.read_le {n w : Nat} (h : WordOk n x)
    (hclean : x.isr.dirty = 0) (hw : w ≤ n) : x.cache.getD w ≤ n := by
  cases hc : x.cache with
  | none => exact hw
  | some v =>
      have := h.cache v hc
      rw [hclean] at this
      exact this

/-- `runCount` and all its copies lag behind the write-backs. -/
structure WordInv (s : State cfg) : Prop where
  word : s.shared.runCount ≤ writeBacks s
  core : ∀ c, WordOk (writeBacks s) (s.core c)

theorem writeBacks_put (s : State cfg) (c : Fin cfg.numCores)
    (x : CoreState) (sh : Shared) :
    writeBacks (s.put c (x, sh)) + (s.core c).written
      = writeBacks s + x.written :=
  sum_update (fun _ => CoreState.written) s.core c x

/-- A step that keeps the core's write-backs, its new copies and the
word within the count. -/
theorem WordInv.quiet (hs : WordInv s) {c : Fin cfg.numCores}
    (hwritten : x.written = (s.core c).written)
    (hx : WordOk (writeBacks s) x)
    (hword : sh.runCount = s.shared.runCount) :
    WordInv (s.put c (x, sh)) := by
  have hput : writeBacks (s.put c (x, sh)) = writeBacks s := by
    have := writeBacks_put s c x sh
    omega
  refine ⟨?_, ?_⟩
  · rw [hput, State.put_shared, hword]
    exact hs.word
  · rw [hput]
    exact s.forall_put (x, sh) (P := fun _ => WordOk (writeBacks s)) hx hs.core

theorem wordInv_init : WordInv (init cfg) := by
  refine ⟨Nat.zero_le _, fun c => ⟨fun w hw => ?_, fun ch v hv => ?_⟩⟩
  · simp only [init, initCore] at hw
    split_ifs at hw
    · cases hw
      exact Nat.zero_le _
  · cases hv

/-- `main` caches what it reads, nothing else. -/
theorem MainStep.wordOk {n : Nat} (h : MainStep cfg c ok x sh x' sh')
    (hidle : x.isr = .idle) (hx : WordOk n x) (hw : sh.runCount ≤ n) :
    WordOk n x' := by
  have hread : x.cache.getD sh.runCount ≤ n :=
    hx.read_le (by rw [hidle]; rfl) hw
  have hvalue : ∀ ch v, x'.isr = .runStore ch v → v ≤ n := by
    intro ch v hv
    rw [h.isr_eq.1, hidle] at hv
    cases hv
  refine ⟨fun w hw' => ?_, hvalue⟩
  cases h with
  | runInv => cases hw'
  | runWait | runDone =>
      cases hw'
      exact Nat.le_add_right_of_le hread
  | _ => simpa using hx.cache w (by simpa using hw')

/-- The write-back is the only step that counts: the word becomes the
cached value. -/
theorem WordInv.writeBack (hs : WordInv s) {c : Fin cfg.numCores} {ch : Nat}
    (hpc : (s.core c).isr = .runWb ch) :
    WordInv (s.put c ({ s.core c with isr := .ret ch }, { s.shared with
      runCount := (s.core c).cache.getD s.shared.runCount })) := by
  have hput : writeBacks (s.put c ({ s.core c with isr := .ret ch },
      { s.shared with
        runCount := (s.core c).cache.getD s.shared.runCount }))
      = writeBacks s + 1 := by
    have hsum := writeBacks_put s c { s.core c with isr := .ret ch }
      { s.shared with
        runCount := (s.core c).cache.getD s.shared.runCount }
    have hold : (s.core c).written = (s.core c).served := by
      rw [CoreState.written, hpc]
      rfl
    have hnew : ({ s.core c with isr := .ret ch } : CoreState).written
        = (s.core c).served + 1 := rfl
    omega
  have hcache : ∀ w, (s.core c).cache = some w → w ≤ writeBacks s + 1 := by
    intro w hw
    have := (hs.core c).cache w hw
    rw [hpc] at this
    exact this
  constructor
  · rw [hput]
    show (s.core c).cache.getD s.shared.runCount ≤ _
    cases hw : (s.core c).cache with
    | none => exact Nat.le_succ_of_le hs.word
    | some w => exact hcache w hw
  · rw [hput]
    exact s.forall_put _ (P := fun _ => WordOk (writeBacks s + 1))
      ⟨hcache, fun ch v hv => by cases hv⟩
      (fun d => (hs.core d).mono (Nat.le_succ _))

/-- The copies lag behind the write-backs at every step, under any
schedule. -/
theorem wordInv_step (hs : WordInv s) (h : apply a s = some s') :
    WordInv s' := by
  obtain ⟨c, x, sh, rfl, hstep⟩ := apply_cases h
  cases hstep with
  | main hidle hm =>
      obtain ⟨hisr, hserved, -⟩ := hm.isr_eq
      exact hs.quiet (by simp only [CoreState.written, hisr, hserved])
        (hm.wordOk hidle (hs.core c) hs.word) hm.runCount_eq
  | irq hidle hirq =>
      refine hs.quiet (by simp only [CoreState.written, hidle, IsrPc.wrote])
        ((hs.core c).keep rfl ?_ fun ch v hv => by cases hv) rfl
      rw [hidle]
      rfl
  | isr hi =>
      have hc := hs.core c
      cases hi with
      | recycleRx hpc | pop hpc | ret hpc | disableFailed hpc =>
          refine hs.quiet ?_ (hc.keep rfl ?_ fun ch v hv => by cases hv) rfl
          · simp only [CoreState.written, hpc, IsrPc.wrote]
          · rw [hpc]
            rfl
      | disable hpc | popNull hpc | push hpc =>
          refine hs.quiet ?_ (hc.keep rfl ?_ fun ch v hv => ?_) rfl
          · show _ + (isrLoop cfg _ _).wrote = _
            rw [isrLoop_wrote, CoreState.written, hpc]
            rfl
          · show (isrLoop cfg _ _).dirty = _
            rw [isrLoop_dirty, hpc]
            rfl
          · simp only [isrLoop] at hv
            split_ifs at hv
      | runInv hpc =>
          refine hs.quiet ?_ ⟨fun w hw => ?_, fun ch v hv => ?_⟩ rfl
          · simp only [CoreState.written, hpc, IsrPc.wrote]
          · cases hw
          · cases hv
      | runLoad hpc =>
          have hread := hc.read_le (by rw [hpc]; rfl) hs.word
          refine hs.quiet ?_ ⟨fun w hw => ?_, fun ch v hv => ?_⟩ rfl
          · simp only [CoreState.written, hpc, IsrPc.wrote]
          · cases hw
            exact Nat.le_add_right_of_le hread
          · cases hv
            exact hread
      | runStore hpc =>
          have hval := hc.value _ _ hpc
          refine hs.quiet ?_ ⟨fun w hw => ?_, fun ch v hv => ?_⟩ rfl
          · simp only [CoreState.written, hpc, IsrPc.wrote]
          · cases hw
            exact Nat.succ_le_succ hval
          · cases hv
      | runWb hpc => exact hs.writeBack hpc

theorem wordInv_reachable {ok : State cfg → Action cfg.numCores → Prop}
    (h : Reachable cfg ok s) : WordInv s :=
  h.invariant wordInv_init fun _ _ _ hs _ happ => wordInv_step hs happ

-- ========================================================= the property

/-- The core an action belongs to. -/
def Action.core {n : Nat} : Action n → Fin n
  | .main c _ | .irq c | .isr c _ => c

/-- The next call of `main` works on a queue. -/
def MainPc.touches : MainPc → Bool
  | .hookup | .runInv | .runLoad | .finished | .returned => false
  | _ => true

/-- The next call of the handler works on a queue. -/
def IsrPc.touches : IsrPc → Bool
  | .recycleRx _ | .syncPop _ _ | .syncPush _ _ _ => true
  | _ => false

/-- The action is a queue operation: it reads a count, pops, pushes or
closes. -/
def QueueOp (s : State cfg) : Action cfg.numCores → Bool
  | .main c _ => (s.core c).main.touches
  | .irq _ => false
  | .isr c _ => (s.core c).isr.touches

/-- Core 0 has started `sysExit`. -/
def MainPc.exiting : MainPc → Bool
  | .sysExit _ | .finished => true
  | _ => false

/-- Once core 0 has started to close the queues, no other core performs
a queue operation. -/
def TearDownSafe (s : State cfg) : Prop :=
  (s.core cfg.core0).main.exiting = true →
    ∀ a s', a.core ≠ cfg.core0 → QueueOp s a = true → apply a s ≠ some s'

-- ======================================================== the condition

/-- The main loop of every other core has left its rounds. -/
def MainsJoined (s : State cfg) : Prop :=
  ∀ d, d ≠ cfg.core0 → (s.core d).main.leftRounds = true

instance (s : State cfg) : Decidable (MainsJoined s) := by
  unfold MainsJoined
  infer_instance

/-- Core 0 leaves its final loop only when the main loop of every other
core has left its rounds. -/
def JoinsMains (s : State cfg) : Action cfg.numCores → Prop
  | .main c _ => c = cfg.core0 → (s.core c).main = .runLoad →
      (s.core c).cache.getD s.shared.runCount = cfg.numCores →
      MainsJoined s
  | _ => True

instance (s : State cfg) :
    (a : Action cfg.numCores) → Decidable (JoinsMains s a)
  | .main _ _ => inferInstanceAs (Decidable (_ → _ → _ → _))
  | .irq _ => isTrue trivial
  | .isr _ _ => isTrue trivial

-- ============================================== the handlers are through

/-- Every round's handler has written back. -/
def HandlersDone (s : State cfg) : Prop := ∀ c, (s.core c).written = 1

theorem written_le_handlers (x : CoreState) : x.written ≤ x.handlers := by
  unfold CoreState.written CoreState.handlers
  cases x.isr <;> simp [IsrPc.wrote, IsrPc.active] <;> omega

/-- The write-backs of a core never go down. -/
theorem IsrStep.written_mono (h : IsrStep cfg ok x sh x' sh') :
    x.written ≤ x'.written := by
  cases h with
  | disable hpc | popNull hpc | push hpc =>
      show _ ≤ _ + (isrLoop cfg _ _).wrote
      rw [isrLoop_wrote, CoreState.written, hpc]
      exact Nat.le_refl _
  | recycleRx hpc | disableFailed hpc | pop hpc | runInv hpc | runLoad hpc
  | runStore hpc | runWb hpc | ret hpc =>
      simp [CoreState.written, hpc, IsrPc.wrote]

/-- Reading the full count means that every handler has written back. -/
theorem handlersDone_of_full (hirq : IrqInv s)
    (hfull : cfg.numCores ≤ writeBacks s) : HandlersDone s := by
  intro c
  refine eq_one_of_sum_eq_card (fun d => (s.core d).written)
    (fun d => ?_) ?_ c
  · exact (written_le_handlers _).trans (hirq.handlers_le d)
  · rw [Fintype.card_fin]
    exact hfull

/-- A handler that has written back is idle or returning. -/
theorem HandlersDone.isr (hs : HandlersDone s) (hirq : IrqInv s)
    (c : Fin cfg.numCores) :
    (s.core c).isr = .idle ∨ ∃ ch, (s.core c).isr = .ret ch := by
  have hone := hs c
  have hle := hirq.handlers_le c
  unfold CoreState.written at hone
  unfold CoreState.handlers at hle
  cases hpc : (s.core c).isr with
  | idle => exact .inl rfl
  | ret ch => exact .inr ⟨ch, rfl⟩
  | _ =>
      simp only [hpc, IsrPc.wrote, IsrPc.active] at hone hle
      omega

theorem HandlersDone.step (hs : HandlersDone s) (hirq' : IrqInv s')
    (h : apply a s = some s') : HandlersDone s' := by
  have hmono : ∀ d, (s.core d).written ≤ (s'.core d).written := by
    obtain ⟨c, x, sh, rfl, hstep⟩ := apply_cases h
    refine s.forall_put (x, sh)
      (P := fun d y => (s.core d).written ≤ y.written) ?_ (fun _ => le_refl _)
    cases hstep with
    | main hidle hm =>
        obtain ⟨hisr, hserved, -⟩ := hm.isr_eq
        simp only [CoreState.written, hisr, hserved, le_refl]
    | irq hidle hirq =>
        simp only [CoreState.written, hidle, IsrPc.wrote, le_refl]
    | isr hi => exact hi.written_mono
  intro c
  have h1 := hs c
  have h2 := hmono c
  have h3 := (written_le_handlers (s'.core c)).trans (hirq'.handlers_le c)
  omega

-- ================================================== the mains are through

theorem MainStep.leftRounds_mono (h : MainStep cfg c ok x sh x' sh')
    (hin : x.main.leftRounds = true) : x'.main.leftRounds = true := by
  cases h with
  | runInv | runWait | exitCall | exitDone => rfl
  | runDone =>
      by_cases hc : c = SYSINIT
      · rw [if_pos hc]
        rfl
      · rw [if_neg hc]
        rfl
  | cfgPoll | poll => exact hin
  | hooked hpc | hookFailed hpc | cfgPass hpc | cfgPop hpc | cfgPopNull hpc
  | cfgPush hpc | send hpc | sendFailed hpc | signal hpc | pop hpc
  | popNull hpc | recycle hpc | divert hpc | cleanup hpc =>
      rw [hpc] at hin
      cases hin

theorem MainsJoined.step (hs : MainsJoined s) (h : apply a s = some s') :
    MainsJoined s' := by
  obtain ⟨c, x, sh, rfl, hstep⟩ := apply_cases h
  refine s.forall_put (x, sh)
    (P := fun d y => d ≠ cfg.core0 → y.main.leftRounds = true)
    (fun hc => ?_) hs
  cases hstep with
  | main hidle hm => exact hm.leftRounds_mono (hs c hc)
  | irq => exact hs c hc
  | isr hi =>
      rw [hi.main_eq.1.1]
      exact hs c hc

/-- Core 0 enters `sysExit` only by reading the full count. -/
theorem MainStep.exiting_cases (h : MainStep cfg c ok x sh x' sh')
    (hout : x.main.exiting ≠ true) (hin : x'.main.exiting = true)
    (hc : c = SYSINIT) :
    x.main = .runLoad ∧ x.cache.getD sh.runCount = cfg.numCores := by
  cases h with
  | runDone hpc heq => exact ⟨hpc, heq⟩
  | exitCall hpc | exitDone hpc =>
      rw [hpc] at hout
      exact absurd rfl hout
  | cfgPoll hpc | poll hpc => exact absurd hin hout
  | hooked => rw [if_pos hc] at hin; cases hin
  | cfgPass | cfgPopNull | cfgPush | cleanup =>
      simp only [roundHead] at hin
      split_ifs at hin <;> cases hin
  | popNull | recycle =>
      simp only [afterSync, if_pos hc] at hin
      cases hin
  | hookFailed | cfgPop | send | sendFailed | signal | pop | divert | runInv
  | runWait => cases hin

-- ======================================================= over a run

/-- A step that starts `sysExit` is core 0's read of the full count. -/
theorem exiting_start (h : apply a s = some s')
    (hout : (s.core cfg.core0).main.exiting ≠ true)
    (hin : (s'.core cfg.core0).main.exiting = true) :
    ∃ ok, a = .main cfg.core0 ok ∧ (s.core cfg.core0).isr = .idle
      ∧ (s.core cfg.core0).main = .runLoad
      ∧ (s.core cfg.core0).cache.getD s.shared.runCount = cfg.numCores := by
  obtain ⟨c, x, sh, rfl, hstep⟩ := apply_cases h
  by_cases hc : c = cfg.core0
  · subst hc
    rw [State.put_core, Function.update_self] at hin
    cases hstep with
    | @main ok _ _ hidle hm =>
        exact ⟨ok, rfl, hidle, hm.exiting_cases hout hin rfl⟩
    | irq => exact absurd hin hout
    | isr hi =>
        rw [hi.main_eq.1.1] at hin
        exact absurd hin hout
  · rw [State.put_core, Function.update_of_ne (Ne.symm hc)] at hin
    exact absurd hin hout

theorem not_exiting_init (hone : cfg.OnePass) :
    ((init cfg).core cfg.core0).main.exiting ≠ true := by
  have hpos : 0 < cfg.numIteration := hone ▸ cfg.pos
  simp [init, initCore, hpos, MainPc.exiting]

/-- In every run, core 0 starts `sysExit` after the last write-back. -/
theorem handlersDone_reachable (hone : cfg.OnePass)
    {ok : State cfg → Action cfg.numCores → Prop} (h : Reachable cfg ok s) :
    (s.core cfg.core0).main.exiting = true → HandlersDone s := by
  refine h.invariant' (I := fun s =>
    (s.core cfg.core0).main.exiting = true → HandlersDone s)
    (fun hin => absurd hin (not_exiting_init hone)) ?_
  intro s a s' hr ih _ happ hin
  have hirq := irqInv_reachable hone hr
  have hirq' := irqInv_step hone hirq happ
  by_cases hbefore : (s.core cfg.core0).main.exiting = true
  · exact (ih hbefore).step hirq' happ
  · obtain ⟨_, rfl, hidle, -, hread⟩ := exiting_start happ hbefore hin
    have hword := wordInv_reachable hr
    have hle := (hword.core cfg.core0).read_le (by rw [hidle]; rfl) hword.word
    rw [hread] at hle
    exact (handlersDone_of_full hirq hle).step hirq' happ

/-- In every run that meets the condition, core 0 starts `sysExit` after
the last round of every main loop. -/
theorem mainsJoined_reachable (hone : cfg.OnePass)
    (h : Reachable cfg JoinsMains s) :
    (s.core cfg.core0).main.exiting = true → MainsJoined s := by
  refine h.invariant (I := fun s =>
    (s.core cfg.core0).main.exiting = true → MainsJoined s)
    (fun hin => absurd hin (not_exiting_init hone)) ?_
  intro s a s' ih hok happ hin
  by_cases hbefore : (s.core cfg.core0).main.exiting = true
  · exact (ih hbefore).step happ
  · obtain ⟨_, rfl, -, hpc, hread⟩ := exiting_start happ hbefore hin
    exact MainsJoined.step (hok rfl hpc hread) happ

-- ================================================= the two directions

/-- With the handlers through, joined main loops are safe. -/
theorem MainsJoined.tearDownSafe (hjoin : MainsJoined s)
    (hdone : HandlersDone s) (hirq : IrqInv s) : TearDownSafe s := by
  intro _ a s' hcore hop
  cases a with
  | main c ok =>
      have hleft := hjoin c hcore
      have hmain := hirq.main c
      simp only [QueueOp] at hop
      cases hpc : (s.core c).main with
      | sysExit todo =>
          simp only [MainOk, hpc] at hmain
          exact absurd (Fin.ext hmain.1) hcore
      | runInv | runLoad | finished => simp [hpc, MainPc.touches] at hop
      | _ => simp [hpc, MainPc.leftRounds] at hleft
  | irq => cases hop
  | isr c ok =>
      rcases hdone.isr hirq c with hpc | ⟨ch, hpc⟩ <;>
        simp [QueueOp, hpc, IsrPc.touches] at hop

/-- A main loop still in its rounds when core 0 exits goes on to touch a
queue. -/
theorem tearDown_unsafe (hone : cfg.OnePass)
    (h : Reachable cfg anyStep s)
    (hexit : (s.core cfg.core0).main.exiting = true)
    (hjoin : ¬ MainsJoined s) :
    ∃ s', Reach apply anyStep s s' ∧ ¬ TearDownSafe s' := by
  have hirq := irqInv_reachable hone h
  have hdone := handlersDone_reachable hone h hexit
  obtain ⟨d, hd, hin⟩ : ∃ d, d ≠ cfg.core0
      ∧ (s.core d).main.leftRounds ≠ true := by
    simpa only [MainsJoined, not_forall, exists_prop] using hjoin
  have hconf : (s.core d).main.configured = true := by
    refine (cfgInv_reachable hone h).last ?_ d hd
    cases hpc : (s.core cfg.core0).main <;>
      simp [hpc, MainPc.exiting, MainPc.configured] at hexit ⊢
  have htouch : (s.core d).main.touches = true := by
    cases hpc : (s.core d).main <;>
      simp [hpc, MainPc.leftRounds, MainPc.configured, MainPc.touches]
        at hin hconf ⊢
  -- from any state with `main` of core `d` there and no handler on it
  have hgo : ∀ t : State cfg, (t.core d).main = (s.core d).main →
      (t.core d).isr = .idle →
      (t.core cfg.core0).main = (s.core cfg.core0).main →
      ¬ TearDownSafe t := by
    intro t hmain hidle h0 hsafe
    obtain ⟨r, hr⟩ := mainStep_isSome cfg d true (t.core d) t.shared
      (by rw [hmain]; intro hfin; simp [hfin, MainPc.touches] at htouch)
      (by rw [hmain]; intro hret; simp [hret, MainPc.touches] at htouch)
    refine hsafe (by rw [h0]; exact hexit) (.main d true) (t.put d r) hd
      (by simpa only [QueueOp, hmain] using htouch) ?_
    simp only [apply, hidle, if_true, hr, Option.map_some]
  rcases hdone.isr hirq d with hidle | ⟨ch, hret⟩
  · exact ⟨s, .init, hgo s rfl hidle rfl⟩
  · -- the handler is at its return: let it return first
    have hstep : apply (.isr d true) s = some (s.put d
        ({ s.core d with isr := .idle, served := (s.core d).served + 1 },
          s.shared)) := by
      simp only [apply, isrStep, hret, Option.map_some]
    refine ⟨_, .step _ .init trivial hstep, hgo _ ?_ ?_ ?_⟩
    · rw [State.put_core, Function.update_self]
    · rw [State.put_core, Function.update_self]
    · rw [State.put_core, Function.update_of_ne (Ne.symm hd)]

/-- Tear-down is safe in every run in which core 0 leaves its final loop
only when the other main loops have left their rounds; and in a run in
which core 0 has started `sysExit`, what follows is safe if and only if
they have. -/
theorem tearDown_safe (hone : cfg.OnePass) :
    (∀ s, Reachable cfg JoinsMains s → TearDownSafe s)
      ∧ ∀ s, Reachable cfg anyStep s →
        (s.core cfg.core0).main.exiting = true →
        ((∀ s', Reach apply anyStep s s' → TearDownSafe s')
          ↔ MainsJoined s) := by
  refine ⟨fun s h => ?_, fun s h hexit => ⟨fun hsafe => ?_, fun hjoin => ?_⟩⟩
  · intro hexit
    exact (mainsJoined_reachable hone h hexit).tearDownSafe
      (handlersDone_reachable hone h hexit) (irqInv_reachable hone h) hexit
  · by_contra hnot
    obtain ⟨s', hr, hbad⟩ := tearDown_unsafe hone h hexit hnot
    exact hbad (hsafe s' hr)
  · intro s' hr hexit'
    have hjoin' : MainsJoined s' :=
      hr.invariant hjoin fun _ _ _ hj _ happ => hj.step happ
    exact hjoin'.tearDownSafe (handlersDone_reachable hone (h.trans hr) hexit')
      (irqInv_reachable hone (h.trans hr)) hexit'

theorem tearDown_safe_board :
    ∃ s : State board, Reachable board JoinsMains s
      ∧ (s.core board.core0).main = .sysExit sysExit ∧ TearDownSafe s
      ∧ ∀ s', Reach apply anyStep s s' → TearDownSafe s' := by
  obtain ⟨s, hs, hexit⟩ : ∃ s, Reachable board JoinsMains s
      ∧ (s.core board.core0).main = .sysExit sysExit :=
    exists_reach_of_runOk (inStep ++ mainRun 0 2) (by decide +kernel)
  have hin : (s.core board.core0).main.exiting = true := by rw [hexit]; rfl
  have hone : board.OnePass := rfl
  refine ⟨s, hs, hexit, (tearDown_safe hone).1 s hs, ?_⟩
  exact ((tearDown_safe hone).2 s hs.any hin).mpr
    (mainsJoined_reachable hone hs hin)

/-- Core 0 takes its four sync descriptors from the first round's four
while the other main loops stand still; all four handlers run. -/
def early : List (Action 4) :=
  boot ++ serve 0 ++ mainRun 0 18 ++ mainRun 0 5 ++ serve 1 ++ serve 2
    ++ serve 3 ++ mainRun 0 2

/-- On the board, with every driver call succeeding, core 0 closes the
queues while core 1 still polls the sync queue of round 0. -/
theorem tearDown_early :
    ¬ ∀ s, Reachable board DriversOk s → TearDownSafe s := by
  let one : Fin board.numCores := (1 : Fin 4)
  obtain ⟨s, hs, hexit, hpc, hidle⟩ : ∃ s, Reachable board DriversOk s
      ∧ (s.core board.core0).main = .sysExit sysExit
      ∧ (s.core one).main = .syncWait ∧ (s.core one).isr = .idle :=
    exists_reach_of_runOk early (by decide +kernel)
  intro hall
  obtain ⟨r, hr⟩ := mainStep_isSome board one true (s.core one) s.shared
    (by simp [hpc]) (by simp [hpc])
  refine hall s hs (by rw [hexit]; rfl) (.main one true) (s.put one r)
    (by decide) (by simp [QueueOp, hpc, MainPc.touches]) ?_
  simp only [apply, hidle, if_true]
  exact congrArg (Option.map (s.put one)) hr

end DspCodes.Infra

/-
What a step can do, said once: `MainStep` and `IsrStep` list the
outcomes of `mainStep` and `isrStep` with their guards, and every
invariant of the protocol is derived from these lists instead of the
transition functions.

The second half reads off, per observable, the few outcomes that move
it: the sync queue and the ghost `took` move only at the pop, the
interrupt lists only at core 0's send, the sync-cfg queue only at the
configuration push, the cached `runCount` only at the final wait.
-/
import DspCodes.Infra.Model

namespace DspCodes.Infra

variable {cfg : Config}

-- ================================================= outcomes of `main`

/-- The outcomes of one step of `main` on core `c`. -/
inductive MainStep (cfg : Config) (c : Nat) (ok : Bool) (x : CoreState)
    (sh : Shared) : CoreState → Shared → Prop
  | hooked (hpc : x.main = .hookup) {event : BitVec 16}
      (hreg : registerHiInterrupt cfg.base ok ok (BitVec.ofNat 32 c)
        (cfg.base + BitVec.ofNat 32 x.channel + BitVec.ofNat 32 c)
          = some event) :
      MainStep cfg c ok x sh
        { x with main := if c = SYSINIT then .cfgWait else .cfgPop } sh
  | hookFailed (hpc : x.main = .hookup)
      (hreg : registerHiInterrupt cfg.base ok ok (BitVec.ofNat 32 c)
        (cfg.base + BitVec.ofNat 32 x.channel + BitVec.ofNat 32 c)
          = none) :
      MainStep cfg c ok x sh { x with main := .returned } sh
  | cfgPoll (hpc : x.main = .cfgWait)
      (hlen : sh.syncCfg.length ≠ cfg.numCores - 1) :
      MainStep cfg c ok x sh x sh
  | cfgPass (hpc : x.main = .cfgWait)
      (hlen : sh.syncCfg.length = cfg.numCores - 1) :
      MainStep cfg c ok x sh (roundHead cfg c { x with index := 0 }) sh
  | cfgPop {d : Nat} {rest : List Nat} (hpc : x.main = .cfgPop)
      (hfree : sh.syncFree = d :: rest) :
      MainStep cfg c ok x sh { x with main := .cfgPush d }
        { sh with syncFree := rest }
  | cfgPopNull (hpc : x.main = .cfgPop) (hfree : sh.syncFree = []) :
      MainStep cfg c ok x sh (roundHead cfg c { x with index := 0 }) sh
  | cfgPush {d : Nat} (hpc : x.main = .cfgPush d) :
      MainStep cfg c ok x sh (roundHead cfg c { x with index := 0 })
        { sh with syncCfg := sh.syncCfg ++ [d] }
  | send (hpc : x.main = .send) (hok : ok = true) :
      MainStep cfg c ok x sh { x with main := .syncWait }
        (sh.raise x.index (x.channel + x.index))
  | sendFailed (hpc : x.main = .send) (hok : ok = false) :
      MainStep cfg c ok x sh { x with main := .returned } sh
  | poll (hpc : x.main = .syncWait) (hlen : sh.sync.length = 0) :
      MainStep cfg c ok x sh x sh
  | signal (hpc : x.main = .syncWait) (hlen : sh.sync.length ≠ 0) :
      MainStep cfg c ok x sh { x with main := .syncPop } sh
  | pop {e : SyncSignal} {rest : List SyncSignal}
      (hpc : x.main = .syncPop) (hsync : sh.sync = e :: rest) :
      MainStep cfg c ok x sh
        { x with main := .syncRecycle e.desc,
                 took := x.took ++ [some e.channel] }
        { sh with sync := rest }
  | popNull (hpc : x.main = .syncPop) (hsync : sh.sync = []) :
      MainStep cfg c ok x sh
        (afterSync cfg c { x with took := x.took ++ [none] }) sh
  | recycle {d : Nat} (hpc : x.main = .syncRecycle d) :
      MainStep cfg c ok x sh (afterSync cfg c x)
        { sh with syncFree := sh.syncFree ++ [d] }
  | divert (hpc : x.main = .divert) :
      MainStep cfg c ok x sh { x with main := .cleanup } sh
  | cleanup (hpc : x.main = .cleanup) :
      MainStep cfg c ok x sh (endRound cfg c x) sh
  | runInv (hpc : x.main = .runInv) :
      MainStep cfg c ok x sh { x with main := .runLoad, cache := none } sh
  | runWait (hpc : x.main = .runLoad)
      (hne : x.cache.getD sh.runCount ≠ cfg.numCores) :
      MainStep cfg c ok x sh
        { x with main := .runInv,
                 cache := some (x.cache.getD sh.runCount) } sh
  | runDone (hpc : x.main = .runLoad)
      (heq : x.cache.getD sh.runCount = cfg.numCores) :
      MainStep cfg c ok x sh
        { x with main := if c = SYSINIT then .sysExit sysExit else .finished,
                 cache := some (x.cache.getD sh.runCount) } sh
  | exitCall {e : ExitStep} {todo : List ExitStep}
      (hpc : x.main = .sysExit (e :: todo)) :
      MainStep cfg c ok x sh { x with main := .sysExit todo } sh
  | exitDone (hpc : x.main = .sysExit []) :
      MainStep cfg c ok x sh { x with main := .finished } sh

/-- `mainStep` has no other outcome. -/
theorem mainStep_cases {c : Nat} {ok : Bool} {x : CoreState} {sh : Shared}
    {r : CoreState × Shared} (h : mainStep cfg c ok x sh = some r) :
    MainStep cfg c ok x sh r.1 r.2 := by
  unfold mainStep at h
  split at h
  next hpc =>
    split at h
    next hreg => cases h; exact .hooked hpc hreg
    next hreg => cases h; exact .hookFailed hpc hreg
  next hpc =>
    split at h
    next hlen => cases h; exact .cfgPass hpc hlen
    next hlen => cases h; exact .cfgPoll hpc hlen
  next hpc =>
    split at h
    next hfree => cases h; exact .cfgPop hpc hfree
    next hfree => cases h; exact .cfgPopNull hpc hfree
  next hpc => cases h; exact .cfgPush hpc
  next hpc =>
    split at h
    next hok => cases h; exact .send hpc hok
    next hok => cases h; exact .sendFailed hpc (Bool.eq_false_iff.mpr hok)
  next hpc =>
    split at h
    next hlen => cases h; exact .poll hpc hlen
    next hlen => cases h; exact .signal hpc hlen
  next hpc =>
    split at h
    next hsync => cases h; exact .pop hpc hsync
    next hsync => cases h; exact .popNull hpc hsync
  next hpc => cases h; exact .recycle hpc
  next hpc => cases h; exact .divert hpc
  next hpc => cases h; exact .cleanup hpc
  next hpc => cases h; exact .runInv hpc
  next hpc =>
    by_cases hv : x.cache.getD sh.runCount = cfg.numCores
    · simp only [hv, if_true] at h
      cases h
      have hdone : MainStep cfg c ok x sh _ sh := .runDone hpc hv
      rwa [hv] at hdone
    · simp only [if_neg hv] at h
      cases h
      exact .runWait hpc hv
  next hpc => cases h; exact .exitCall hpc
  next hpc => cases h; exact .exitDone hpc
  next => cases h
  next => cases h

/-- Each of them is one. -/
theorem MainStep.run {c : Nat} {ok : Bool} {x x' : CoreState}
    {sh sh' : Shared} (h : MainStep cfg c ok x sh x' sh') :
    mainStep cfg c ok x sh = some (x', sh') := by
  unfold mainStep
  cases h <;> simp_all

/-- `main` has a next step until it ends. -/
theorem mainStep_isSome (cfg : Config) (c : Nat) (ok : Bool)
    (x : CoreState) (sh : Shared)
    (hfin : x.main ≠ .finished) (hret : x.main ≠ .returned) :
    ∃ r, mainStep cfg c ok x sh = some r := by
  rw [← Option.isSome_iff_exists]
  unfold mainStep
  cases hpc : x.main with
  | finished => exact absurd hpc hfin
  | returned => exact absurd hpc hret
  | sysExit todo => cases todo <;> rfl
  | _ =>
      dsimp only
      first
        | rfl
        | split <;> rfl

-- ============================ outcomes of `hiPrioInterruptHandler`

/-- The outcomes of one step of the handler. -/
inductive IsrStep (cfg : Config) (ok : Bool) (x : CoreState)
    (sh : Shared) : CoreState → Shared → Prop
  | recycleRx {ch : Nat} (hpc : x.isr = .recycleRx ch) :
      IsrStep cfg ok x sh { x with isr := .disableAcc ch }
        { sh with recycled := sh.recycled ++ [ch] }
  | disable {ch : Nat} (hpc : x.isr = .disableAcc ch) (hok : ok = true) :
      IsrStep cfg ok x sh { x with isr := isrLoop cfg ch 0 } sh
  | disableFailed {ch : Nat} (hpc : x.isr = .disableAcc ch)
      (hok : ok = false) :
      IsrStep cfg ok x sh { x with isr := .idle, aborted := x.aborted + 1 } sh
  | pop {ch i d : Nat} {rest : List Nat} (hpc : x.isr = .syncPop ch i)
      (hfree : sh.syncFree = d :: rest) :
      IsrStep cfg ok x sh { x with isr := .syncPush ch i d }
        { sh with syncFree := rest }
  | popNull {ch i : Nat} (hpc : x.isr = .syncPop ch i)
      (hfree : sh.syncFree = []) :
      IsrStep cfg ok x sh { x with isr := isrLoop cfg ch (i + 1) } sh
  | push {ch i d : Nat} (hpc : x.isr = .syncPush ch i d) :
      IsrStep cfg ok x sh { x with isr := isrLoop cfg ch (i + 1) }
        { sh with sync := sh.sync ++ [⟨d, ch⟩] }
  | runInv {ch : Nat} (hpc : x.isr = .runInv ch) :
      IsrStep cfg ok x sh { x with isr := .runLoad ch, cache := none } sh
  | runLoad {ch : Nat} (hpc : x.isr = .runLoad ch) :
      IsrStep cfg ok x sh
        { x with isr := .runStore ch (x.cache.getD sh.runCount),
                 cache := some (x.cache.getD sh.runCount) } sh
  | runStore {ch v : Nat} (hpc : x.isr = .runStore ch v) :
      IsrStep cfg ok x sh { x with isr := .runWb ch, cache := some (v + 1) } sh
  | runWb {ch : Nat} (hpc : x.isr = .runWb ch) :
      IsrStep cfg ok x sh { x with isr := .ret ch }
        { sh with runCount := x.cache.getD sh.runCount }
  | ret {ch : Nat} (hpc : x.isr = .ret ch) :
      IsrStep cfg ok x sh { x with isr := .idle, served := x.served + 1 } sh

/-- `isrStep` has no other outcome. -/
theorem isrStep_cases {ok : Bool} {x : CoreState} {sh : Shared}
    {r : CoreState × Shared} (h : isrStep cfg ok x sh = some r) :
    IsrStep cfg ok x sh r.1 r.2 := by
  unfold isrStep at h
  split at h
  next => cases h
  next hpc => cases h; exact .recycleRx hpc
  next hpc =>
    split at h
    next hok => cases h; exact .disable hpc hok
    next hok => cases h; exact .disableFailed hpc (Bool.eq_false_iff.mpr hok)
  next hpc =>
    split at h
    next hfree => cases h; exact .pop hpc hfree
    next hfree => cases h; exact .popNull hpc hfree
  next hpc => cases h; exact .push hpc
  next hpc => cases h; exact .runInv hpc
  next hpc => cases h; exact .runLoad hpc
  next hpc => cases h; exact .runStore hpc
  next hpc => cases h; exact .runWb hpc
  next hpc => cases h; exact .ret hpc

/-- Each of them is one. -/
theorem IsrStep.run {ok : Bool} {x x' : CoreState} {sh sh' : Shared}
    (h : IsrStep cfg ok x sh x' sh') :
    isrStep cfg ok x sh = some (x', sh') := by
  unfold isrStep
  cases h <;> simp_all

/-- A running handler has a next step. -/
theorem isrStep_isSome (cfg : Config) (ok : Bool) (x : CoreState)
    (sh : Shared) (hrun : x.isr ≠ .idle) : ∃ r, isrStep cfg ok x sh = some r := by
  rw [← Option.isSome_iff_exists]
  unfold isrStep
  cases hpc : x.isr with
  | idle => exact absurd hpc hrun
  | _ =>
      dsimp only
      first
        | rfl
        | split <;> rfl

/-- Taking an interrupt starts the handler with the oldest channel. -/
theorem takeIrq_cases {c : Nat} {x : CoreState} {sh : Shared}
    {r : CoreState × Shared} (h : takeIrq c x sh = some r) :
    ∃ ch rest, sh.irq c = ch :: rest
      ∧ r = ({ x with isr := .recycleRx ch },
          { sh with irq := Function.update sh.irq c rest }) := by
  unfold takeIrq at h
  split at h
  next ch rest hirq => cases h; exact ⟨ch, rest, hirq, rfl⟩
  next => cases h

/-- The outcomes of one step of the system on core `c`: its main loop
while no handler runs there, a taken interrupt, or its handler. -/
inductive CoreStep (s : State cfg) (c : Fin cfg.numCores) :
    Action cfg.numCores → CoreState → Shared → Prop
  | main {ok : Bool} {x : CoreState} {sh : Shared}
      (hidle : (s.core c).isr = .idle)
      (h : MainStep cfg c ok (s.core c) s.shared x sh) :
      CoreStep s c (.main c ok) x sh
  | irq {ch : Nat} {rest : List Nat} (hidle : (s.core c).isr = .idle)
      (hirq : s.shared.irq c = ch :: rest) :
      CoreStep s c (.irq c) { s.core c with isr := .recycleRx ch }
        { s.shared with irq := Function.update s.shared.irq c rest }
  | isr {ok : Bool} {x : CoreState} {sh : Shared}
      (h : IsrStep cfg ok (s.core c) s.shared x sh) :
      CoreStep s c (.isr c ok) x sh

/-- A step of one core is a step of the system. -/
theorem CoreStep.run {s : State cfg} {c : Fin cfg.numCores}
    {a : Action cfg.numCores} {x : CoreState} {sh : Shared}
    (h : CoreStep s c a x sh) : apply a s = some (s.put c (x, sh)) := by
  cases h with
  | main hidle hm => simp only [apply, hidle, if_true, hm.run, Option.map_some]
  | irq hidle hirq =>
      simp only [apply, hidle, if_true, takeIrq, hirq, Option.map_some]
  | isr hi => simp only [apply, hi.run, Option.map_some]

/-- Every step of the system is a step of one core. -/
theorem apply_cases {a : Action cfg.numCores} {s s' : State cfg}
    (h : apply a s = some s') :
    ∃ c x sh, s' = s.put c (x, sh) ∧ CoreStep s c a x sh := by
  cases a with
  | main c ok =>
      simp only [apply] at h
      split at h
      case isFalse => cases h
      case isTrue hidle =>
        obtain ⟨r, hr, rfl⟩ := Option.map_eq_some_iff.mp h
        exact ⟨c, r.1, r.2, rfl, .main hidle (mainStep_cases hr)⟩
  | irq c =>
      simp only [apply] at h
      split at h
      case isFalse => cases h
      case isTrue hidle =>
        obtain ⟨r, hr, rfl⟩ := Option.map_eq_some_iff.mp h
        obtain ⟨ch, rest, hirq, rfl⟩ := takeIrq_cases hr
        exact ⟨c, _, _, rfl, .irq hidle hirq⟩
  | isr c ok =>
      obtain ⟨r, hr, rfl⟩ := Option.map_eq_some_iff.mp h
      exact ⟨c, r.1, r.2, rfl, .isr (isrStep_cases hr)⟩

end DspCodes.Infra

/-
The configuration barrier over any number of outer passes,
`NUM_ITERATION = k * NUMBER_OF_CORES`. The source writes `k = 1`.

# What goes wrong

Nobody takes the descriptors out of the sync-cfg queue again. In the
second pass the count core 0 waits for is there from the first one, so
core 0 passes the wait at once, whoever has registered (`barrier_stale`).

# What is proved

The barrier holds of one pass, and on every build that never gets to
configure a second one: `registerHiInterrupt` compares the core number
with the channel modulo 4, so with one, two or three cores every core is
refused in the second pass, and with five or more the fifth core is
refused in the first. Four cores and a second pass are exactly what
breaks it (`cfgBarrier_iff`).

A build of one, two or three cores with more passes refines the same
build with one pass: `firstPass` forgets that a core has tried to
register again.
-/
import DspCodes.Infra.Progress
import DspCodes.Infra.TearDown

namespace DspCodes.Infra

open Lts Counting

variable {cfg : Config} {ok : Bool} {c : Nat} {x x' : CoreState}
  {sh sh' : Shared} {s s' : State cfg} {a : Action cfg.numCores} {k : Nat}

-- =============================================================== the law

/-- `k` outer passes. -/
def Config.Passes (cfg : Config) (k : Nat) : Prop :=
  cfg.numIteration = k * cfg.numCores

/-- The core has got through `registerHiInterrupt` of the pass that starts
at `channel`. -/
def CoreState.registered (x : CoreState) (channel : Nat) : Prop :=
  channel < x.channel
    ∨ x.channel = channel ∧ x.main ≠ .hookup ∧ x.main ≠ .returned

/-- The core, other than 0, has pushed its descriptor of the pass that
starts at `channel`. -/
def CoreState.pushed (x : CoreState) (channel : Nat) : Prop :=
  channel < x.channel ∨ x.channel = channel ∧ x.main.configured = true

/-- Core 0 is at its wait and reads the count it waits for. -/
def PassesWait (s : State cfg) : Prop :=
  (s.core cfg.core0).main = .cfgWait
    ∧ s.shared.syncCfg.length = cfg.numCores - 1

/-- The barrier of the pass core 0 is in: core 0 gets through only when
every other core has registered, and can get through once every other
core has pushed. -/
structure CfgBarrier (s : State cfg) : Prop where
  safe : PassesWait s → ∀ d, d ≠ cfg.core0 →
    (s.core d).registered (s.core cfg.core0).channel
  met : (s.core cfg.core0).main = .cfgWait →
    (∀ d, d ≠ cfg.core0 → (s.core d).pushed (s.core cfg.core0).channel) →
    s.shared.syncCfg.length = cfg.numCores - 1

theorem CoreState.registered_of_pushed {channel : Nat}
    (h : x.pushed channel) : x.registered channel :=
  h.imp_right fun h => ⟨h.1, MainPc.registered_of_configured h.2⟩

-- ============================================================== one pass

/-- In one pass the channel moves only to the end. -/
def ChannelOk (x : CoreState) : Prop :=
  x.channel ≠ 0 → x.main.leftRounds = true

theorem roundHead_channelOk (hone : cfg.OnePass) (hch : x.channel = 0) :
    ChannelOk (roundHead cfg c x) := by
  unfold Config.OnePass at hone
  unfold roundHead
  split_ifs
  · exact fun h => absurd hch h
  · exact fun h => absurd hch h
  · omega
  · exact fun _ => rfl

theorem MainStep.channelOk (hone : cfg.OnePass)
    (h : MainStep cfg c ok x sh x' sh') (hch : ChannelOk x) :
    ChannelOk x' := by
  by_cases hleft : x.main.leftRounds = true
  · exact fun _ => h.leftRounds_mono hleft
  · have hzero : x.channel = 0 := by
      by_contra hne
      exact hleft (hch hne)
    cases h with
    | cfgPass | cfgPopNull | cfgPush | cleanup =>
        exact roundHead_channelOk hone hzero
    | popNull | recycle =>
        unfold afterSync
        split_ifs
        · exact fun h => absurd hzero h
        · exact roundHead_channelOk hone hzero
    | _ => exact fun h => absurd hzero h

theorem channelOk_reachable (hone : cfg.OnePass)
    {guard : State cfg → Action cfg.numCores → Prop}
    (h : Reachable cfg guard s) : ∀ c, ChannelOk (s.core c) := by
  refine h.invariant (I := fun s => ∀ c, ChannelOk (s.core c))
    (fun c h => absurd rfl h) ?_
  intro s a s' hs _ happ
  obtain ⟨c, x, sh, rfl, hstep⟩ := apply_cases happ
  refine s.forall_put (x, sh) (P := fun _ y => ChannelOk y) ?_ hs
  cases hstep with
  | main _ hm =>
      exact hm.channelOk hone (hs c)
  | irq => exact hs c
  | isr hi =>
      unfold ChannelOk
      rw [hi.main_eq.1.1, hi.main_eq.1.2.1]
      exact hs c

/-- With one pass the barrier holds. -/
theorem cfgBarrier_onePass (hone : cfg.OnePass) (hdesc : cfg.EnoughDesc)
    {guard : State cfg → Action cfg.numCores → Prop}
    (h : Reachable cfg guard s) : CfgBarrier s := by
  have hirq := irqInv_reachable hone h
  have hcfg := cfgInv_reachable hone h
  have hge := cfgGe_reachable hone hdesc h
  have hch := channelOk_reachable hone h
  have hzero : (s.core cfg.core0).main = .cfgWait →
      (s.core cfg.core0).channel = 0 := by
    intro hpc
    have hmain := hirq.main cfg.core0
    simp only [MainOk, hpc] at hmain
    exact hmain.2.1
  refine ⟨fun hpass d hd => ?_, fun hpc hall => ?_⟩
  · obtain ⟨hpc, hlen⟩ := hpass
    have hconf := hcfg.full hlen hd
    rw [hzero hpc]
    refine CoreState.registered_of_pushed ?_
    by_cases hd0 : (s.core d).channel = 0
    · exact .inr ⟨hd0, hconf⟩
    · exact .inl (Nat.pos_of_ne_zero hd0)
  · rw [hzero hpc] at hall
    have hone : ∀ d, cfgShare d.val (s.core d) = 1 := by
      intro d
      by_cases hd : d = cfg.core0
      · exact if_pos (congrArg Fin.val hd)
      · refine cfgShare_configured d ?_
        rcases hall d hd with hpos | ⟨-, hconf⟩
        · have hleft := hch d (Nat.ne_of_gt hpos)
          cases hdpc : (s.core d).main <;>
            simp [hdpc, MainPc.leftRounds, MainPc.configured] at hleft ⊢
        · exact hconf
    have hsum : ∑ d : Fin cfg.numCores, cfgShare d (s.core d)
        = cfg.numCores := by
      rw [Finset.sum_congr rfl fun d _ => hone d]
      simp
    have hle := hcfg.le
    unfold CfgGe at hge
    omega

-- ============================================ at most three cores, again

/-- The same build with one outer pass. -/
def Config.onePass (cfg : Config) : Config :=
  { cfg with numIteration := cfg.numCores }

/-- A core as a build with one pass has it: at its final loop once it has
left the rounds. -/
def CoreState.firstPass (x : CoreState) : CoreState :=
  if x.channel = 0 then x else { x with main := .runInv }

/-- The state of the build with one pass. -/
def State.firstPass (s : State cfg) : State cfg.onePass where
  core := fun c => (s.core c).firstPass
  shared := s.shared

/-- A core that has left the rounds is refused when it registers again. -/
def Refused (n : Nat) (x : CoreState) : Prop :=
  x.channel ≠ 0 → x.channel = n ∧ x.main = .hookup ∨ x.main = .returned

/-- With one, two or three cores nobody registers for the second pass. -/
theorem registerHiInterrupt_refused (base : BitVec 32) {n c : Nat}
    (hn : n < 4) (hc : c < n) :
    registerHiInterrupt base ok ok (BitVec.ofNat 32 c)
      (base + BitVec.ofNat 32 n + BitVec.ofNat 32 c) = none := by
  rw [Option.eq_none_iff_forall_ne_some]
  intro event hevent
  obtain ⟨-, hrem, -⟩ :=
    (registerHiInterrupt_main_iff base (by omega)).mp hevent
  omega

theorem CoreState.firstPass_of_zero (h : x.channel = 0) :
    x.firstPass = x := if_pos h

theorem CoreState.firstPass_of_ne (h : x.channel ≠ 0) :
    x.firstPass = { x with main := .runInv } := if_neg h

/-- The head of a loop, seen from the build with one pass. -/
theorem roundHead_firstPass (hmany : cfg.numCores < cfg.numIteration)
    (h : x.channel = 0) :
    (roundHead cfg c x).firstPass = roundHead cfg.onePass c x := by
  have hpos := cfg.pos
  unfold roundHead CoreState.firstPass Config.onePass
  rw [h, Nat.zero_add, if_neg (Nat.lt_irrefl cfg.numCores), if_pos hmany]
  split_ifs <;> simp_all

theorem afterSync_firstPass (hmany : cfg.numCores < cfg.numIteration)
    (h : x.channel = 0) :
    (afterSync cfg c x).firstPass = afterSync cfg.onePass c x := by
  unfold afterSync
  split_ifs
  · exact CoreState.firstPass_of_zero h
  · exact roundHead_firstPass hmany h

/-- In its first pass `main` does the same in both builds. -/
theorem MainStep.firstPass (hmany : cfg.numCores < cfg.numIteration)
    (h : MainStep cfg c ok x sh x' sh') (hch : x.channel = 0) :
    MainStep cfg.onePass c ok x sh x'.firstPass sh' := by
  -- the core stays at its channel
  have hstay : ∀ {y : CoreState}, y.channel = 0 →
      MainStep cfg.onePass c ok x sh y sh' →
      MainStep cfg.onePass c ok x sh y.firstPass sh' := by
    intro y hy hstep
    rw [CoreState.firstPass_of_zero hy]
    exact hstep
  -- it comes to the head of a loop
  have hhead : ∀ {y : CoreState}, y.channel = 0 →
      MainStep cfg.onePass c ok x sh (roundHead cfg.onePass c y) sh' →
      MainStep cfg.onePass c ok x sh (roundHead cfg c y).firstPass sh' := by
    intro y hy hstep
    rw [roundHead_firstPass hmany hy]
    exact hstep
  have hafter : ∀ {y : CoreState}, y.channel = 0 →
      MainStep cfg.onePass c ok x sh (afterSync cfg.onePass c y) sh' →
      MainStep cfg.onePass c ok x sh (afterSync cfg c y).firstPass sh' := by
    intro y hy hstep
    rw [afterSync_firstPass hmany hy]
    exact hstep
  cases h with
  | cfgPass hpc hlen => exact hhead hch (.cfgPass hpc hlen)
  | cfgPopNull hpc hfree => exact hhead hch (.cfgPopNull hpc hfree)
  | cfgPush hpc => exact hhead hch (.cfgPush hpc)
  | cleanup hpc => exact hhead hch (.cleanup hpc)
  | popNull hpc hsync => exact hafter hch (.popNull hpc hsync)
  | recycle hpc => exact hafter hch (.recycle hpc)
  | hooked hpc hreg => exact hstay hch (.hooked hpc hreg)
  | hookFailed hpc hreg => exact hstay hch (.hookFailed hpc hreg)
  | cfgPoll hpc hlen => exact hstay hch (.cfgPoll hpc hlen)
  | cfgPop hpc hfree => exact hstay hch (.cfgPop hpc hfree)
  | send hpc hok => exact hstay hch (.send hpc hok)
  | sendFailed hpc hok => exact hstay hch (.sendFailed hpc hok)
  | poll hpc hlen => exact hstay hch (.poll hpc hlen)
  | signal hpc hlen => exact hstay hch (.signal hpc hlen)
  | pop hpc hsync => exact hstay hch (.pop hpc hsync)
  | divert hpc => exact hstay hch (.divert hpc)
  | runInv hpc => exact hstay hch (.runInv hpc)
  | runWait hpc hne => exact hstay hch (.runWait hpc hne)
  | runDone hpc heq => exact hstay hch (.runDone hpc heq)
  | exitCall hpc => exact hstay hch (.exitCall hpc)
  | exitDone hpc => exact hstay hch (.exitDone hpc)

/-- The handler does the same in both builds. -/
theorem IsrStep.firstPass (h : IsrStep cfg ok x sh x' sh') :
    IsrStep cfg.onePass ok x.firstPass sh x'.firstPass sh' := by
  by_cases hch : x.channel = 0
  · rw [CoreState.firstPass_of_zero hch,
      CoreState.firstPass_of_zero (h.main_eq.1.2.1.trans hch)]
    cases h <;> constructor <;> assumption
  · rw [CoreState.firstPass_of_ne hch,
      CoreState.firstPass_of_ne (by rwa [h.main_eq.1.2.1])]
    cases h <;> constructor <;> assumption

theorem State.put_self (s : State cfg) (c : Fin cfg.numCores) :
    s.put c (s.core c, s.shared) = s := by
  unfold State.put
  rw [Function.update_eq_self]

theorem State.firstPass_put (s : State cfg) (c : Fin cfg.numCores)
    (r : CoreState × Shared) :
    (s.put c r).firstPass = s.firstPass.put c (r.1.firstPass, r.2) := by
  unfold State.firstPass State.put
  congr 1
  funext d
  exact Function.apply_update (fun _ => CoreState.firstPass) s.core c r.1 d

/-- A refused core does nothing any more. -/
theorem MainStep.refused (h : MainStep cfg c ok x sh x' sh')
    (hn : cfg.numCores < 4) (hc : c < cfg.numCores)
    (hx : Refused cfg.numCores x) (hch : x.channel ≠ 0) :
    x'.main = .returned ∧ x'.channel = x.channel ∧ sh' = sh
      ∧ x'.firstPass = x.firstPass := by
  rcases hx hch with ⟨hlast, hpc⟩ | hpc
  · cases h with
    | hooked _ hreg =>
        rw [hlast, registerHiInterrupt_refused cfg.base hn hc] at hreg
        cases hreg
    | hookFailed =>
        refine ⟨rfl, rfl, rfl, ?_⟩
        rw [CoreState.firstPass_of_ne hch]
        exact CoreState.firstPass_of_ne hch
    | _ => simp_all
  · cases h <;> simp_all

/-- In the first pass a core stays in it, or goes on to register again. -/
theorem MainStep.refused_of_zero (h : MainStep cfg c ok x sh x' sh')
    (hmany : cfg.numCores < cfg.numIteration) (hch : x.channel = 0) :
    Refused cfg.numCores x' := by
  have hround : ∀ y : CoreState, y.channel = 0 →
      Refused cfg.numCores (roundHead cfg c y) := by
    intro y hy hne
    unfold roundHead at hne ⊢
    rw [hy, Nat.zero_add, if_pos hmany] at hne ⊢
    split_ifs at hne ⊢ <;> simp_all
  cases h with
  | cfgPass | cfgPopNull | cfgPush | cleanup => exact hround _ hch
  | popNull | recycle =>
      unfold afterSync
      split_ifs
      · exact fun hne => absurd hch hne
      · exact hround _ hch
  | _ => exact fun hne => absurd hch hne

theorem refused_reachable (hn : cfg.numCores < 4)
    (hmany : cfg.numCores < cfg.numIteration)
    {guard : State cfg → Action cfg.numCores → Prop}
    (h : Reachable cfg guard s) :
    ∀ c, Refused cfg.numCores (s.core c) := by
  refine h.invariant (I := fun s => ∀ c, Refused cfg.numCores (s.core c))
    (fun c h => absurd rfl h) ?_
  intro s a s' hs _ happ
  obtain ⟨c, x, sh, rfl, hstep⟩ := apply_cases happ
  refine s.forall_put (x, sh) (P := fun _ y => Refused cfg.numCores y) ?_ hs
  cases hstep with
  | main _ hm =>
      by_cases hch : (s.core c).channel = 0
      · exact hm.refused_of_zero hmany hch
      · exact fun _ => .inr (hm.refused hn c.isLt (hs c) hch).1
  | irq => exact hs c
  | isr hi =>
      unfold Refused
      rw [hi.main_eq.1.1, hi.main_eq.1.2.1]
      exact hs c

/-- A build of at most three cores with more than one pass refines the
same build with one pass. -/
theorem firstPass_reachable (hn : cfg.numCores < 4)
    (hmany : cfg.numCores < cfg.numIteration)
    {guard : State cfg → Action cfg.numCores → Prop}
    (h : Reachable cfg guard s) :
    Reachable cfg.onePass anyStep s.firstPass := by
  have hpos := cfg.pos
  refine h.refines State.firstPass ?_ ?_
  · unfold State.firstPass init
    congr 1
    funext c
    show (initCore cfg c).firstPass = initCore cfg.onePass c
    rw [CoreState.firstPass_of_zero]
    · simp only [initCore, Config.onePass, hpos, if_true,
        if_pos (Nat.lt_trans hpos hmany)]
    · rfl
  · intro s a s' hr happ
    have hrefused := refused_reachable hn hmany hr
    obtain ⟨c, x, sh, rfl, hstep⟩ := apply_cases happ
    have hidle' : ∀ y : CoreState, y.firstPass.isr = y.isr := by
      intro y
      unfold CoreState.firstPass
      split_ifs <;> rfl
    rw [State.firstPass_put]
    cases hstep with
    | @main ok _ _ hidle hm =>
        by_cases hch : (s.core c).channel = 0
        · refine .inr ⟨.main c ok, CoreStep.run (s := s.firstPass) ?_⟩
          refine .main ((hidle' _).trans hidle) ?_
          show MainStep cfg.onePass c ok (s.core c).firstPass _ _ _
          rw [CoreState.firstPass_of_zero hch]
          exact hm.firstPass hmany hch
        · obtain ⟨-, -, rfl, hx⟩ := hm.refused hn c.isLt (hrefused c) hch
          refine .inl ?_
          rw [hx]
          exact State.put_self s.firstPass c
    | @irq ch rest hidle hirq =>
        refine .inr ⟨.irq c, ?_⟩
        have hx : { s.core c with isr := .recycleRx ch }.firstPass
            = { (s.core c).firstPass with isr := .recycleRx ch } := by
          unfold CoreState.firstPass
          split_ifs <;> rfl
        rw [hx]
        exact CoreStep.run (s := s.firstPass)
          (.irq ((hidle' _).trans hidle) hirq)
    | @isr ok _ _ hi =>
        exact .inr ⟨.isr c ok, CoreStep.run (s := s.firstPass)
          (.isr hi.firstPass)⟩

/-- With at most three cores and more than one pass the barrier holds. -/
theorem cfgBarrier_fewCores (hn : cfg.numCores < 4)
    (hmany : cfg.numCores < cfg.numIteration) (hdesc : cfg.EnoughDesc)
    {guard : State cfg → Action cfg.numCores → Prop}
    (h : Reachable cfg guard s) : CfgBarrier s := by
  have hB : CfgBarrier s.firstPass :=
    cfgBarrier_onePass rfl hdesc (firstPass_reachable hn hmany h)
  have hrefused := refused_reachable hn hmany h
  -- core 0 waits only in the first pass
  have hzero : (s.core cfg.core0).main = .cfgWait →
      (s.core cfg.core0).channel = 0 := by
    intro hpc
    by_contra hne
    rcases hrefused cfg.core0 hne with ⟨-, hm⟩ | hm
    · rw [hpc] at hm
      cases hm
    · rw [hpc] at hm
      cases hm
  have hcore0 : (s.core cfg.core0).main = .cfgWait →
      s.firstPass.core cfg.onePass.core0 = s.core cfg.core0 :=
    fun hpc => CoreState.firstPass_of_zero (hzero hpc)
  refine ⟨fun hpass d hd => ?_, fun hpc hall => ?_⟩
  · obtain ⟨hpc, hlen⟩ := hpass
    have hreg := hB.safe ⟨by rw [hcore0 hpc]; exact hpc, hlen⟩ d hd
    rw [hcore0 hpc, hzero hpc] at hreg
    rw [hzero hpc]
    by_cases hch : (s.core d).channel = 0
    · have hd : s.firstPass.core d = s.core d :=
        CoreState.firstPass_of_zero hch
      rwa [hd] at hreg
    · exact .inl (Nat.pos_of_ne_zero hch)
  · refine hB.met (by rw [hcore0 hpc]; exact hpc) fun d hd => ?_
    have hpushed := hall d hd
    rw [hzero hpc] at hpushed
    rw [hcore0 hpc, hzero hpc]
    by_cases hch : (s.core d).channel = 0
    · have hd : s.firstPass.core d = s.core d :=
        CoreState.firstPass_of_zero hch
      rwa [hd]
    · have hd : s.firstPass.core d = { s.core d with main := .runInv } :=
        CoreState.firstPass_of_ne hch
      rw [hd]
      exact .inl (Nat.pos_of_ne_zero hch)

-- ==================================================== five cores and more

/-- A core of a build in which core 4 never registers. -/
def StallOk (c : Nat) (x : CoreState) : Prop :=
  x.isr = .idle ∧ x.channel = 0 ∧
    match x.main with
    | .hookup | .returned => True
    | .cfgWait => c = SYSINIT
    | .cfgPop | .cfgPush _ | .syncWait => c ≠ SYSINIT ∧ c ≠ 4
    | _ => False

/-- Core 0 never passes its wait: nothing is sent, and no core leaves the
first pass. -/
structure Stalled (s : State cfg) : Prop where
  core : ∀ c : Fin cfg.numCores, StallOk c (s.core c)
  sync : s.shared.sync = []
  irq : ∀ c : Fin cfg.numCores, s.shared.irq c = []
  le : s.shared.syncCfg.length + 1
    ≤ ∑ c : Fin cfg.numCores, cfgShare c (s.core c)

/-- The count core 0 waits for is out of reach. -/
theorem Stalled.short (hs : Stalled s) (hn : 4 < cfg.numCores) :
    s.shared.syncCfg.length ≠ cfg.numCores - 1 := by
  have hfour : cfgShare 4 (s.core ⟨4, hn⟩) = 0 := by
    obtain ⟨-, -, hmain⟩ := hs.core ⟨4, hn⟩
    unfold cfgShare
    rw [if_neg (by decide)]
    cases hpc : (s.core ⟨4, hn⟩).main <;>
      simp_all [MainPc.configured]
  have hlt := sum_lt_of_le
    (fun c : Fin cfg.numCores => cfgShare c (s.core c)) (fun _ => 1)
    (fun c => cfgShare_le c _) (c := ⟨4, hn⟩)
    (by show cfgShare 4 _ < 1; omega)
  have hle := hs.le
  simp only [Finset.sum_const, Finset.card_univ, Fintype.card_fin,
    smul_eq_mul, mul_one] at hlt
  omega

/-- A step of `main` in a stalled build. -/
theorem MainStep.stallOk (h : MainStep cfg c ok x sh x' sh')
    (hx : StallOk c x) (hsync : sh.sync = [])
    (hshort : sh.syncCfg.length ≠ cfg.numCores - 1) :
    StallOk c x' ∧ sh'.sync = [] ∧ sh'.irq = sh.irq
      ∧ sh'.syncCfg.length + cfgShare c x
        ≤ sh.syncCfg.length + cfgShare c x' := by
  obtain ⟨hisr, hch, hmain⟩ := hx
  -- a core that is not configured has nothing in the count to lose
  have hgrow : x.main.configured = false →
      ∀ n, n + cfgShare c x ≤ n + cfgShare c x' := by
    intro hout n
    by_cases hc : c = SYSINIT
    · simp only [cfgShare, if_pos hc, Nat.le_refl]
    · rw [cfgShare, if_neg hc, hout]
      exact Nat.le_add_right _ _
  have hhead : ∀ y : CoreState, c ≠ SYSINIT →
      roundHead cfg c { y with index := 0 }
        = { y with index := 0, main := .syncWait } := by
    intro y hc
    unfold roundHead
    rw [if_pos cfg.pos]
    simp only [if_neg hc]
  cases h with
  | hooked hpc hreg =>
      refine ⟨⟨hisr, hch, ?_⟩, hsync, rfl, hgrow (by rw [hpc]; rfl) _⟩
      by_cases hc : c = SYSINIT
      · simpa only [if_pos hc] using hc
      · simp only [if_neg hc]
        refine ⟨hc, fun h4 => ?_⟩
        subst h4
        -- the fifth core is refused
        rw [registerHiInterrupt_ge _ _ _ _ (by decide)] at hreg
        cases hreg
  | hookFailed hpc =>
      exact ⟨⟨hisr, hch, trivial⟩, hsync, rfl, hgrow (by rw [hpc]; rfl) _⟩
  | cfgPoll hpc => exact ⟨⟨hisr, hch, hmain⟩, hsync, rfl, Nat.le_refl _⟩
  | cfgPass hpc hlen => exact absurd hlen hshort
  | cfgPop hpc =>
      simp only [hpc] at hmain
      exact ⟨⟨hisr, hch, hmain⟩, hsync, rfl, hgrow (by rw [hpc]; rfl) _⟩
  | cfgPopNull hpc =>
      simp only [hpc] at hmain
      refine ⟨?_, hsync, rfl, hgrow (by rw [hpc]; rfl) _⟩
      rw [hhead x hmain.1]
      exact ⟨hisr, hch, hmain⟩
  | @cfgPush d hpc =>
      simp only [hpc] at hmain
      rw [hhead x hmain.1]
      refine ⟨⟨hisr, hch, hmain⟩, hsync, rfl, ?_⟩
      simp only [cfgShare, if_neg hmain.1, hpc, MainPc.configured,
        List.length_append, List.length_singleton]
      exact Nat.le_refl _
  | poll hpc => exact ⟨⟨hisr, hch, hmain⟩, hsync, rfl, Nat.le_refl _⟩
  | signal hpc hlen => exact absurd (by rw [hsync]; rfl) hlen
  | send hpc | sendFailed hpc | pop hpc | popNull hpc | recycle hpc
  | divert hpc | cleanup hpc | runInv hpc | runWait hpc | runDone hpc
  | exitCall hpc | exitDone hpc =>
      rw [hpc] at hmain
      exact absurd hmain not_false

theorem stalled_init (hiter : 0 < cfg.numIteration) : Stalled (init cfg) where
  core := by
    intro c
    simp only [init, initCore, if_pos hiter]
    exact ⟨rfl, rfl, trivial⟩
  sync := rfl
  irq := fun _ => rfl
  le := by
    have h0 : cfgShare cfg.core0 ((init cfg).core cfg.core0) = 1 := if_pos rfl
    have hle := Finset.single_le_sum (s := Finset.univ)
      (f := fun c : Fin cfg.numCores => cfgShare c ((init cfg).core c))
      (fun _ _ => Nat.zero_le _) (Finset.mem_univ cfg.core0)
    simp only [h0] at hle
    exact hle

theorem stalled_reachable (hn : 4 < cfg.numCores)
    (hiter : 0 < cfg.numIteration)
    {guard : State cfg → Action cfg.numCores → Prop}
    (h : Reachable cfg guard s) : Stalled s := by
  refine h.invariant (stalled_init hiter) ?_
  intro s a s' hs _ happ
  obtain ⟨c, x, sh, rfl, hstep⟩ := apply_cases happ
  cases hstep with
  | main _ hm =>
      obtain ⟨hx, hsync, hirq, hle⟩ :=
        hm.stallOk (hs.core c) hs.sync (hs.short hn)
      refine ⟨s.forall_put (x, sh) hx hs.core, hsync, fun d => ?_, ?_⟩
      · show sh.irq d = []
        rw [hirq]
        exact hs.irq d
      · have hsum := sum_update (fun d : Fin cfg.numCores => cfgShare d)
          s.core c x
        have := hs.le
        simp only [State.put_core, State.put_shared]
        omega
  | irq _ hirq =>
      rw [hs.irq c] at hirq
      cases hirq
  | isr hi => exact absurd (hs.core c).1 hi.running

/-- With five cores or more core 0 waits for ever, and the barrier
holds. -/
theorem cfgBarrier_manyCores (hn : 4 < cfg.numCores)
    (hiter : 0 < cfg.numIteration)
    {guard : State cfg → Action cfg.numCores → Prop}
    (h : Reachable cfg guard s) : CfgBarrier s := by
  have hs := stalled_reachable hn hiter h
  refine ⟨fun hpass => absurd hpass.2 (hs.short hn), fun _ hall => ?_⟩
  have h4 : (⟨4, hn⟩ : Fin cfg.numCores) ≠ cfg.core0 :=
    fun h => absurd (congrArg Fin.val h) (Nat.succ_ne_zero 3)
  obtain ⟨-, hch, hmain⟩ := hs.core ⟨4, hn⟩
  rcases hall _ h4 with hlt | ⟨-, hconf⟩
  · rw [hch] at hlt
    exact absurd hlt (Nat.not_lt_zero _)
  · cases hpc : (s.core ⟨4, hn⟩).main <;>
      simp_all [MainPc.configured]

-- ======================================== four cores and a second pass

/-- `n` successful steps of `main` on core `c`, with nobody else moving. -/
def soloMain (cfg : Config) (c : Nat) :
    Nat → CoreState × Shared → Option (CoreState × Shared) :=
  iter fun r => mainStep cfg c true r.1 r.2

/-- `n` successful steps of a handler, with nobody else moving. -/
def soloIsr (cfg : Config) :
    Nat → CoreState × Shared → Option (CoreState × Shared) :=
  iter fun r => isrStep cfg true r.1 r.2

theorem State.put_core_self (s : State cfg) (c : Fin cfg.numCores)
    (r : CoreState × Shared) : (s.put c r).core c = r.1 :=
  Function.update_self ..

theorem State.put_core_of_ne (s : State cfg) {c d : Fin cfg.numCores}
    (h : d ≠ c) (r : CoreState × Shared) : (s.put c r).core d = s.core d :=
  Function.update_of_ne h ..

theorem State.put_put (s : State cfg) (c : Fin cfg.numCores)
    (r r' : CoreState × Shared) : (s.put c r).put c r' = s.put c r' := by
  unfold State.put
  simp only [Function.update_idem]

/-- What one core can do alone, the system can do; `P` is what its steps
need of the core and keep. -/
theorem reach_of_iter {d : Fin cfg.numCores} {P : CoreState → Prop}
    {f : CoreState × Shared → Option (CoreState × Shared)}
    (hstep : ∀ (s : State cfg) r, P (s.core d) →
      f (s.core d, s.shared) = some r → P r.1 ∧
        ∃ a, apply a s = some (s.put d r)) {n : Nat} :
    ∀ {s : State cfg} {r : CoreState × Shared}, P (s.core d) →
    iter f n (s.core d, s.shared) = some r →
    Reach apply anyStep s (s.put d r) := by
  induction n with
  | zero =>
      intro s r _ h
      cases h
      rw [State.put_self]
      exact .init
  | succ n ih =>
      intro s r hP h
      obtain ⟨r₁, hr₁, hrest⟩ := Option.bind_eq_some_iff.mp h
      obtain ⟨hP₁, a, ha⟩ := hstep s r₁ hP hr₁
      have hcore := s.put_core_self d r₁
      have hgo := ih (s := s.put d r₁) (r := r) (by rw [hcore]; exact hP₁)
        (by rw [hcore]; exact hrest)
      rw [State.put_put] at hgo
      exact (Reach.step a .init trivial ha).trans hgo

theorem reach_of_soloMain {d : Fin cfg.numCores} {n : Nat}
    {r : CoreState × Shared} (hidle : (s.core d).isr = .idle)
    (h : soloMain cfg d n (s.core d, s.shared) = some r) :
    Reach apply anyStep s (s.put d r) := by
  refine reach_of_iter (P := fun x => x.isr = .idle) ?_ hidle h
  intro s r hidle hr
  have hm := mainStep_cases hr
  exact ⟨hm.isr_eq.1.trans hidle, _, CoreStep.run (.main hidle hm)⟩

theorem reach_of_soloIsr {d : Fin cfg.numCores} {n : Nat}
    {r : CoreState × Shared}
    (h : soloIsr cfg n (s.core d, s.shared) = some r) :
    Reach apply anyStep s (s.put d r) := by
  refine reach_of_iter (P := fun _ => True) ?_ trivial h
  intro s r _ hr
  exact ⟨trivial, _, CoreStep.run (.isr (isrStep_cases hr))⟩

/-- Core 0 goes through a round with a descriptor that is queued. -/
theorem soloMain_round (cfg : Config) {e : SyncSignal}
    {rest : List SyncSignal}
    (hpc : x.main = .syncWait) (hsync : sh.sync = e :: rest) :
    soloMain cfg SYSINIT 5 (x, sh) = some
      (endRound cfg SYSINIT { x with
        main := .cleanup, took := x.took ++ [some e.channel] },
       { sh with sync := rest, syncFree := sh.syncFree ++ [e.desc] }) := by
  simp [soloMain, iter, mainStep, hpc, hsync, afterSync]

/-- With enough descriptors queued core 0 goes through the rounds it has
left, and on to the next pass. -/
theorem soloMain_rounds (hmany : cfg.numCores < cfg.numIteration) {m : Nat} :
    ∀ (x : CoreState) (sh : Shared), x.main = .syncWait → x.channel = 0 →
    x.index + m + 1 = cfg.numCores → m < sh.sync.length →
    ∃ n r, soloMain cfg SYSINIT n (x, sh) = some r ∧ r.1.main = .hookup
      ∧ r.1.channel = cfg.numCores ∧ r.1.isr = x.isr
      ∧ r.2.syncCfg = sh.syncCfg := by
  induction m with
  | zero =>
      intro x sh hpc hch hindex hlen
      obtain ⟨e, rest, hsync⟩ := List.exists_cons_of_length_pos hlen
      refine ⟨5, _, soloMain_round cfg hpc hsync, ?_, ?_, roundHead_isr ..,
        rfl⟩ <;>
        simp only [roundHead] <;>
        rw [if_neg (by omega), hch, Nat.zero_add, if_pos hmany]
  | succ m ih =>
      intro x sh hpc hch hindex hlen
      obtain ⟨e, rest, hsync⟩ :=
        List.exists_cons_of_length_pos (Nat.zero_lt_of_lt hlen)
      rw [hsync, List.length_cons] at hlen
      have hround := soloMain_round cfg hpc hsync
      -- the head of the loop, then the send of the next round
      have hsend : soloMain cfg SYSINIT (5 + 1) (x, sh) = some
          ({ x with main := .syncWait, index := x.index + 1
                    took := x.took ++ [some e.channel] },
           { sh with sync := rest, syncFree := sh.syncFree ++ [e.desc] }.raise
             (x.index + 1) (x.channel + (x.index + 1))) := by
        rw [soloMain, iter_add hround]
        have hlt : x.index + 1 < cfg.numCores := by omega
        simp [iter, mainStep, roundHead, hlt]
      obtain ⟨n, r, hrun, hr⟩ := ih
        { x with main := .syncWait, index := x.index + 1
                 took := x.took ++ [some e.channel] }
        ({ sh with sync := rest, syncFree := sh.syncFree ++ [e.desc] }.raise
          (x.index + 1) (x.channel + (x.index + 1)))
        rfl hch (by show x.index + 1 + m + 1 = _; omega)
        (by show m < rest.length; omega)
      refine ⟨5 + 1 + n, r, ?_, hr⟩
      rw [soloMain, iter_add hsend]
      exact hrun

/-- The handler's sync loop, and the rest of the handler. -/
theorem soloIsr_loop (cfg : Config) {ch m : Nat} :
    ∀ (x : CoreState) (sh : Shared) (i : Nat),
    x.isr = isrLoop cfg ch i → i + m = cfg.numCores →
    m ≤ sh.syncFree.length →
    ∃ n r, soloIsr cfg n (x, sh) = some r ∧ r.1.isr = .idle
      ∧ r.1.main = x.main ∧ r.1.channel = x.channel ∧ r.1.index = x.index
      ∧ r.2.sync.length = sh.sync.length + m
      ∧ r.2.syncCfg = sh.syncCfg := by
  induction m with
  | zero =>
      intro x sh i hpc hi _
      have hend : isrLoop cfg ch i = .runInv ch := if_neg (by omega)
      rw [hend] at hpc
      refine ⟨5, ({ x with
        isr := .idle
        cache := some (sh.runCount + 1)
        served := x.served + 1 }, { sh with runCount := sh.runCount + 1 }),
        ?_, rfl, rfl, rfl, rfl, rfl, rfl⟩
      simp [soloIsr, iter, isrStep, hpc]
  | succ m ih =>
      intro x sh i hpc hi hlen
      have hgo : isrLoop cfg ch i = .syncPop ch i := if_pos (by omega)
      obtain ⟨d, rest, hfree⟩ :=
        List.exists_cons_of_length_pos (Nat.zero_lt_of_lt hlen)
      rw [hfree, List.length_cons] at hlen
      have hturn : soloIsr cfg 2 (x, sh) = some
          ({ x with isr := isrLoop cfg ch (i + 1) },
           { sh with syncFree := rest, sync := sh.sync ++ [⟨d, ch⟩] }) := by
        rw [hgo] at hpc
        simp [soloIsr, iter, isrStep, hpc, hfree]
      obtain ⟨n, r, hrun, hidle, hmain, hch, hindex, hsync, hcfg⟩ := ih
        { x with isr := isrLoop cfg ch (i + 1) }
        { sh with syncFree := rest, sync := sh.sync ++ [⟨d, ch⟩] }
        (i + 1) rfl (by omega) (by show m ≤ rest.length; omega)
      refine ⟨2 + n, r, ?_, hidle, hmain, hch, hindex, ?_, hcfg⟩
      · rw [soloIsr, iter_add hturn]
        exact hrun
      · rw [hsync, List.length_append, List.length_singleton]
        omega

/-- Core `c` registers in its first pass. -/
theorem mainStep_hookup (hc : c < 4) (hpc : x.main = .hookup)
    (hch : x.channel = 0) :
    mainStep cfg c true x sh = some ({ x with
      main := if c = SYSINIT then .cfgWait else .cfgPop }, sh) := by
  have hreg : registerHiInterrupt cfg.base true true (BitVec.ofNat 32 c)
      (cfg.base + BitVec.ofNat 32 x.channel + BitVec.ofNat 32 c)
        = some 48#16 := by
    rw [hch]
    exact registerHiInterrupt_lt cfg.base hc
  exact MainStep.run (.hooked hpc hreg)

/-- A core other than 0 registers and pushes its descriptor. -/
theorem soloMain_configure (cfg : Config) {d : Nat} {rest : List Nat}
    (hc : c < 4)
    (hc0 : c ≠ SYSINIT) (hpc : x.main = .hookup) (hch : x.channel = 0)
    (hfree : sh.syncFree = d :: rest) :
    soloMain cfg c 3 (x, sh) = some ({ x with main := .syncWait, index := 0 },
      { sh with syncFree := rest, syncCfg := sh.syncCfg ++ [d] }) := by
  have hfirst : soloMain cfg c 1 (x, sh)
      = some ({ x with main := .cfgPop }, sh) := by
    simp only [soloMain, iter, mainStep_hookup hc hpc hch, if_neg hc0,
      Option.bind_some]
  rw [soloMain, show (3 : Nat) = 1 + 2 from rfl, iter_add hfirst]
  simp [iter, mainStep, hc0, hfree, roundHead, cfg.pos]

/-- Core 0 registers, passes its wait and sends the first round. -/
theorem soloMain_send (cfg : Config) (hpc : x.main = .hookup)
    (hch : x.channel = 0)
    (hlen : sh.syncCfg.length = cfg.numCores - 1) :
    soloMain cfg SYSINIT 3 (x, sh) = some
      ({ x with main := .syncWait, index := 0 }, sh.raise 0 0) := by
  have hfirst : soloMain cfg SYSINIT 1 (x, sh)
      = some ({ x with main := .cfgWait }, sh) := by
    have hc : SYSINIT < 4 := by decide
    simp only [soloMain, iter, mainStep_hookup hc hpc hch, if_true,
      Option.bind_some]
  rw [soloMain, show (3 : Nat) = 1 + 2 from rfl, iter_add hfirst]
  simp [iter, mainStep, hlen, roundHead, cfg.pos, hch]

/-- The cores up to `m` have pushed and nobody else has moved. -/
structure PushedUpTo (m : Nat) (s : State cfg) : Prop where
  core0 : s.core cfg.core0 = initCore cfg SYSINIT
  later : ∀ d : Fin cfg.numCores, m < d.val → s.core d = initCore cfg d
  channel : ∀ d, (s.core d).channel = 0
  isr : ∀ d, (s.core d).isr = .idle
  sync : s.shared.sync = []
  irq : s.shared.irq SYSINIT = []
  pushed : s.shared.syncCfg.length = m
  free : s.shared.syncFree.length + m = cfg.numSyncDesc

theorem PushedUpTo.init : PushedUpTo 0 (init cfg) where
  core0 := rfl
  later := fun _ _ => rfl
  channel := fun _ => rfl
  isr := fun _ => rfl
  sync := rfl
  irq := rfl
  pushed := rfl
  free := List.length_range

/-- The next core pushes. -/
theorem PushedUpTo.succ {m f : Nat} {rest : List Nat}
    (hs : PushedUpTo m s) (hd : m + 1 < cfg.numCores)
    (hfree : s.shared.syncFree = f :: rest) :
    PushedUpTo (m + 1) (s.put ⟨m + 1, hd⟩
      ({ s.core ⟨m + 1, hd⟩ with main := .syncWait, index := 0 },
       { s.shared with
          syncFree := rest, syncCfg := s.shared.syncCfg ++ [f] })) where
  core0 := by
    have h0 : cfg.core0 ≠ ⟨m + 1, hd⟩ :=
      fun h => absurd (congrArg Fin.val h) (Nat.succ_ne_zero m).symm
    rw [State.put_core, Function.update_of_ne h0]
    exact hs.core0
  later := by
    intro d hlt
    have hne : d ≠ ⟨m + 1, hd⟩ :=
      fun h => absurd (congrArg Fin.val h) (Nat.ne_of_gt hlt)
    rw [State.put_core, Function.update_of_ne hne]
    exact hs.later d (Nat.lt_of_succ_lt hlt)
  channel := s.forall_put _ (P := fun _ y => y.channel = 0)
    (hs.channel ⟨m + 1, hd⟩) hs.channel
  isr := s.forall_put _ (P := fun _ y => y.isr = .idle)
    (hs.isr ⟨m + 1, hd⟩) hs.isr
  sync := hs.sync
  irq := hs.irq
  pushed := by
    show (s.shared.syncCfg ++ [f]).length = m + 1
    rw [List.length_append, List.length_singleton, hs.pushed]
  free := by
    show rest.length + (m + 1) = cfg.numSyncDesc
    have := hs.free
    rw [hfree, List.length_cons] at this
    omega

theorem pushedUpTo_reachable (hn : cfg.numCores = 4)
    (hiter : 0 < cfg.numIteration) (hdesc : 3 ≤ cfg.numSyncDesc) {m : Nat} :
    m ≤ 3 → ∃ s : State cfg, Reachable cfg anyStep s ∧ PushedUpTo m s := by
  induction m with
  | zero => exact fun _ => ⟨_, .init, .init⟩
  | succ m ih =>
      intro hm
      obtain ⟨s, hr, hs⟩ := ih (by omega)
      have hd : m + 1 < cfg.numCores := by omega
      obtain ⟨f, rest, hfree⟩ := List.exists_cons_of_length_pos
        (l := s.shared.syncFree) (by have := hs.free; omega)
      have hpc : (s.core ⟨m + 1, hd⟩).main = .hookup := by
        rw [hs.later ⟨m + 1, hd⟩ (Nat.lt_succ_self m)]
        exact if_pos hiter
      have hrun := soloMain_configure cfg (show m + 1 < 4 by omega)
        (Nat.succ_ne_zero m) hpc (hs.channel _) hfree
      have hgo := reach_of_soloMain (d := ⟨m + 1, hd⟩) (hs.isr _) hrun
      exact ⟨_, hr.trans hgo, hs.succ hd hfree⟩

/-- The handler of round 0 on core 0 leaves one descriptor for each core in
the sync queue. -/
theorem soloIsr_serve (hpc : x.isr = .recycleRx 0)
    (hfree : cfg.numCores ≤ sh.syncFree.length) :
    ∃ n r, soloIsr cfg n (x, sh) = some r ∧ r.1.isr = .idle
      ∧ r.1.main = x.main ∧ r.1.channel = x.channel ∧ r.1.index = x.index
      ∧ r.2.sync.length = sh.sync.length + cfg.numCores
      ∧ r.2.syncCfg = sh.syncCfg := by
  have hstart : soloIsr cfg 2 (x, sh) = some ({ x with isr := isrLoop cfg 0 0 },
      { sh with recycled := sh.recycled ++ [0] }) := by
    simp [soloIsr, iter, isrStep, hpc]
  obtain ⟨n, r, hrun, hr⟩ := soloIsr_loop cfg
    { x with isr := isrLoop cfg 0 0 }
    { sh with recycled := sh.recycled ++ [0] } 0 rfl (Nat.zero_add _) hfree
  refine ⟨2 + n, r, ?_, hr⟩
  rw [soloIsr, iter_add hstart]
  exact hrun

/-- Core 0 is interrupted in its first sync wait, with all the others
pushed. -/
structure FirstWait (s : State cfg) : Prop where
  main : (s.core cfg.core0).main = .syncWait
  index : (s.core cfg.core0).index = 0
  isr : (s.core cfg.core0).isr = .recycleRx 0
  channel : ∀ d, (s.core d).channel = 0
  free : cfg.numCores ≤ s.shared.syncFree.length
  pushed : s.shared.syncCfg.length = cfg.numCores - 1

/-- The other cores register and push, core 0 sends round 0 and is
interrupted. -/
theorem firstWait_reachable (hn : cfg.numCores = 4)
    (hiter : 0 < cfg.numIteration) (hdesc : cfg.EnoughDesc) :
    ∃ s : State cfg, Reachable cfg anyStep s ∧ FirstWait s := by
  unfold Config.EnoughDesc at hdesc
  rw [hn] at hdesc
  obtain ⟨s, hr, hs⟩ := pushedUpTo_reachable hn hiter (by omega)
    (Nat.le_refl 3)
  have hlen : s.shared.syncCfg.length = cfg.numCores - 1 := by
    rw [hs.pushed, hn]
  have hpc : (s.core cfg.core0).main = .hookup := by
    rw [hs.core0]
    exact if_pos hiter
  have hsend := reach_of_soloMain (d := cfg.core0) (hs.isr _)
    (soloMain_send cfg hpc (hs.channel _) hlen)
  let s₁ := s.put cfg.core0 ({ s.core cfg.core0 with
    main := .syncWait, index := 0 }, s.shared.raise 0 0)
  have hcore : s₁.core cfg.core0 = { s.core cfg.core0 with
      main := .syncWait, index := 0 } := s.put_core_self ..
  have hirq : s₁.shared.irq cfg.core0 = [0] := by
    show Function.update s.shared.irq 0 _ 0 = [0]
    rw [Function.update_self]
    exact congrArg (· ++ [0]) hs.irq
  have htake := CoreStep.run (.irq (by rw [hcore]; exact hs.isr _) hirq)
  refine ⟨_, (hr.trans hsend).step _ trivial htake, ?_⟩
  have hcore' := s₁.put_core_self cfg.core0
  constructor
  · rw [hcore', hcore]
  · rw [hcore', hcore]
  · rw [hcore']
  · refine s₁.forall_put _ (P := fun _ y => y.channel = 0) ?_ ?_
    · rw [hcore]
      exact hs.channel cfg.core0
    · exact s.forall_put _ (P := fun _ y => y.channel = 0)
        (hs.channel cfg.core0) hs.channel
  · show cfg.numCores ≤ s.shared.syncFree.length
    have := hs.free
    omega
  · exact hlen

/-- From there core 0 alone serves the round and goes through all its
waits of the first pass. -/
theorem FirstWait.alone (hs : FirstWait s)
    (hmany : cfg.numCores < cfg.numIteration) :
    ∃ r : CoreState × Shared, Reach apply anyStep s (s.put cfg.core0 r)
      ∧ r.1.main = .hookup ∧ r.1.channel = cfg.numCores ∧ r.1.isr = .idle
      ∧ r.2.syncCfg = s.shared.syncCfg := by
  have hpos := cfg.pos
  obtain ⟨n₁, r₁, hrun₁, hidle, hmain₁, hch₁, hindex₁, hlen, hcfg₁⟩ :=
    soloIsr_serve hs.isr hs.free
  have hindex := hindex₁.trans hs.index
  obtain ⟨n₂, r₂, hrun₂, hmain₂, hch₂, hisr₂, hcfg₂⟩ :=
    soloMain_rounds (m := cfg.numCores - 1) hmany r₁.1 r₁.2 (hmain₁.trans hs.main)
      (hch₁.trans (hs.channel _)) (by omega)
      (show _ < r₁.2.sync.length by omega)
  have hgo₁ := reach_of_soloIsr hrun₁
  have hcore := s.put_core_self cfg.core0 r₁
  have hgo₂ := reach_of_soloMain (d := cfg.core0) (s := s.put cfg.core0 r₁)
    (r := r₂) (by rw [hcore]; exact hidle) (by rw [hcore]; exact hrun₂)
  rw [State.put_put] at hgo₂
  exact ⟨r₂, hgo₁.trans hgo₂, hmain₂, hch₂, hisr₂.trans hidle,
    hcfg₂.trans hcfg₁⟩

/-- Four cores let core 0 register again. -/
theorem registerHiInterrupt_again (base : BitVec 32) :
    registerHiInterrupt base true true (BitVec.ofNat 32 SYSINIT)
      (base + BitVec.ofNat 32 4 + BitVec.ofNat 32 SYSINIT)
        = some 49#16 :=
  (registerHiInterrupt_main_iff base (by decide)).mpr
    ⟨⟨rfl, rfl⟩, by decide, rfl⟩

/-- Four cores and a second pass: core 0 reads the count of the first pass
and passes the wait of the second, for which no other core has
registered. -/
theorem barrier_stale (hn : cfg.numCores = 4)
    (hmany : cfg.numCores < cfg.numIteration) (hdesc : cfg.EnoughDesc) :
    ∃ s : State cfg, Reachable cfg anyStep s ∧ ¬ CfgBarrier s := by
  obtain ⟨s, hr, hs⟩ := firstWait_reachable hn (Nat.zero_lt_of_lt hmany) hdesc
  obtain ⟨r, hgo, hmain, hch, hisr, hcfg⟩ := hs.alone hmany
  have hcore := s.put_core_self cfg.core0 r
  -- core 0 registers for the second pass
  have hreg : registerHiInterrupt cfg.base true true
      (BitVec.ofNat 32 cfg.core0)
      (cfg.base + BitVec.ofNat 32 r.1.channel
        + BitVec.ofNat 32 cfg.core0) = some 49#16 := by
    rw [hch.trans hn]
    exact registerHiInterrupt_again cfg.base
  have hhook : CoreStep (s.put cfg.core0 r) cfg.core0 (.main cfg.core0 true)
      { r.1 with main := .cfgWait } r.2 := by
    refine .main (by rw [hcore]; exact hisr) ?_
    rw [hcore]
    exact .hooked hmain hreg
  have hr' := (hr.trans hgo).step _ trivial hhook.run
  rw [State.put_put] at hr'
  refine ⟨_, hr', fun hB => ?_⟩
  have hcore0 := s.put_core_self cfg.core0 ({ r.1 with main := .cfgWait }, r.2)
  have h1 : (⟨1, by omega⟩ : Fin cfg.numCores) ≠ cfg.core0 :=
    fun h => absurd (congrArg Fin.val h) Nat.one_ne_zero
  have hpass := hB.safe ⟨by rw [hcore0], hcfg ▸ hs.pushed⟩ _ h1
  -- core 1 is still in the first pass
  rw [hcore0, s.put_core_of_ne h1] at hpass
  unfold CoreState.registered at hpass
  rw [hs.channel, hch.trans hn] at hpass
  omega

-- ============================================================= the barrier

/-- The barrier holds on every run exactly when there is one pass, or the
number of cores is not four. -/
theorem cfgBarrier_iff (hk : 0 < k) (hpasses : cfg.Passes k)
    (hdesc : cfg.EnoughDesc) :
    (∀ s : State cfg, Reachable cfg anyStep s → CfgBarrier s)
      ↔ k = 1 ∨ cfg.numCores ≠ 4 := by
  have hpos := cfg.pos
  unfold Config.Passes at hpasses
  rcases Nat.lt_or_ge 1 k with hk1 | hk1
  · have hmany : cfg.numCores < cfg.numIteration := by
      rw [hpasses]
      exact (Nat.lt_mul_iff_one_lt_left hpos).mpr hk1
    constructor
    · intro hall
      refine .inr fun hn => ?_
      obtain ⟨s, hr, hnot⟩ := barrier_stale hn hmany hdesc
      exact hnot (hall s hr)
    · intro hcond s hr
      rcases Nat.lt_trichotomy cfg.numCores 4 with hn | hn | hn
      · exact cfgBarrier_fewCores hn hmany hdesc hr
      · omega
      · exact cfgBarrier_manyCores hn (Nat.zero_lt_of_lt hmany) hr
  · have hk1 : k = 1 := by omega
    have hone : cfg.OnePass := by
      unfold Config.OnePass
      rw [hpasses, hk1, Nat.one_mul]
    exact ⟨fun _ => .inl hk1, fun _ s hr => cfgBarrier_onePass hone hdesc hr⟩

/-- The board as it is written. -/
theorem cfgBarrier_board :
    (∀ s : State board, Reachable board anyStep s → CfgBarrier s)
      ↔ 1 = 1 ∨ board.numCores ≠ 4 :=
  cfgBarrier_iff Nat.one_pos rfl board_enoughDesc

/-- The board with a second pass. -/
def twoPasses : Config := { board with numIteration := 2 * 4 }

theorem twoPasses_broken :
    twoPasses.Passes 2 ∧ twoPasses.EnoughDesc ∧
      ¬ ∀ s : State twoPasses, Reachable twoPasses anyStep s →
        CfgBarrier s := by
  have hdesc : twoPasses.EnoughDesc := board_enoughDesc
  have hmany : twoPasses.numCores < twoPasses.numIteration := by
    show 4 < 2 * 4
    omega
  refine ⟨rfl, hdesc, fun hall => ?_⟩
  obtain ⟨s, hr, hnot⟩ := barrier_stale rfl hmany hdesc
  exact hnot (hall s hr)

end DspCodes.Infra

/-
Whether the spin loops of `Osal_qmssCsEnter` and `Osal_cppiCsEnter` let a
core in.

# The system

Each core runs one section after the other, without end. Its plan says
for each of them the lock it takes and how many turns it stays inside. A
turn of a core is one round of the spin loop, one turn inside, or the
exit. Any core may be next, but none waits for its turn forever.

# What is proved

`csEnter_live`: the sections go on, whatever the plans and the schedule
are: while anyone is inside it comes out, and when nobody is the next turn
of a spinning core gets it in. That is all. The hardware semaphore keeps
no queue, so a core whose rounds all fall into another core's sections
never gets in. Only a core that is alone is sure to.
-/
import DspCodes.Lib.Count
import DspCodes.Lib.Fair
import DspCodes.Osal.Preempt

namespace DspCodes.Osal

open Lts Counting

variable {K : Type _} {m : Nat}

-- ============================================================== the system

/-- A section: its lock, and its turns inside. -/
structure Job where
  lock : Lock
  turns : Nat

/-- Where a core stands. -/
inductive Place
  | spinning
  | inside (l : Lock) (left : Nat)
  deriving DecidableEq, Repr

/-- The cores and their locks. No transition reads `used`, the turns that
were not a vain round of a spin loop. -/
structure Cores (m : Nat) (K : Type _) where
  ie : Fin m → K
  coreKey : Nat → K
  sem : Nat → Option (Fin m)
  place : Fin m → Place
  entered : Fin m → Nat
  used : Nat

/-- The cores before their first sections. -/
def Cores.start (ie : Fin m → K) (coreKey : Nat → K) : Cores m K where
  ie := ie
  coreKey := coreKey
  sem := fun _ => none
  place := fun _ => .spinning
  entered := fun _ => 0
  used := 0

/-- What core `c` sees of the locks. -/
def Cores.view (s : Cores m K) (c : Fin m) : Locks K (Fin m) :=
  ⟨s.ie c, s.coreKey, s.sem⟩

/-- Core `c` has used its turn: it leaves the locks as `o` and comes to
`p`. -/
def Cores.put (s : Cores m K) (c : Fin m) (o : Locks K (Fin m))
    (p : Place) : Cores m K :=
  { s with
    ie := Function.update s.ie c o.ie
    coreKey := o.coreKey
    sem := o.sem
    place := Function.update s.place c p
    used := s.used + 1 }

/-- A turn of core `c`. -/
def coreTurn (off : K) (plan : Fin m → Nat → Job) (c : Fin m)
    (s : Cores m K) : Option (Cores m K) :=
  match s.place c with
  | .spinning =>
      let job := plan c (s.entered c)
      match csEnter job.lock.hwSem off c c (s.view c) with
      | some o =>
          some { s.put c o (.inside job.lock job.turns) with
            entered := Function.update s.entered c (s.entered c + 1) }
      | none => some s
  | .inside l (n + 1) => some (s.put c (s.view c) (.inside l n))
  | .inside l 0 => some (s.put c (csExit l.hwSem c (s.view c)) .spinning)

variable {off : K} {plan : Fin m → Nat → Job} {c d : Fin m}
  {s s' : Cores m K} {ie : Fin m → K} {coreKey : Nat → K}

/-- The outcomes of a turn. -/
inductive CoreStep (off : K) (plan : Fin m → Nat → Job) (s : Cores m K)
    (c : Fin m) : Cores m K → Prop
  | spin (hpc : s.place c = .spinning)
      (hheld : s.sem (plan c (s.entered c)).lock.hwSem ≠ none) :
      CoreStep off plan s c s
  | enter {o : Locks K (Fin m)} (hpc : s.place c = .spinning)
      (hfree : s.sem (plan c (s.entered c)).lock.hwSem = none)
      (hsem : o.sem = Function.update s.sem
        (plan c (s.entered c)).lock.hwSem (some c)) :
      CoreStep off plan s c { s.put c o (.inside
          (plan c (s.entered c)).lock (plan c (s.entered c)).turns) with
        entered := Function.update s.entered c (s.entered c + 1) }
  | work {l : Lock} {n : Nat} (hpc : s.place c = .inside l (n + 1)) :
      CoreStep off plan s c (s.put c (s.view c) (.inside l n))
  | exit {l : Lock} {o : Locks K (Fin m)} (hpc : s.place c = .inside l 0)
      (hsem : o.sem = Function.update s.sem l.hwSem none) :
      CoreStep off plan s c (s.put c o .spinning)

/-- A turn has no other outcome. -/
theorem coreStep_cases (h : coreTurn off plan c s = some s') :
    CoreStep off plan s c s' := by
  unfold coreTurn at h
  split at h
  next hpc =>
    by_cases hfree : s.sem (plan c (s.entered c)).lock.hwSem = none
    · simp only [csEnter,
        semAcquireDirect_free c (o := s.view c) hfree] at h
      cases h
      exact .enter hpc hfree rfl
    · simp only [csEnter,
        semAcquireDirect_held c (o := s.view c) hfree] at h
      cases h
      exact .spin hpc hfree
  next hpc => cases h; exact .work hpc
  next hpc => cases h; exact .exit hpc rfl

/-- Every core can take its turn. -/
theorem exists_coreTurn (off : K) (plan : Fin m → Nat → Job) (c : Fin m)
    (s : Cores m K) : ∃ s', coreTurn off plan c s = some s' := by
  unfold coreTurn
  split
  · dsimp only
    split
    · exact ⟨_, rfl⟩
    · exact ⟨_, rfl⟩
  · exact ⟨_, rfl⟩
  · exact ⟨_, rfl⟩

-- ============================================================ who holds what

/-- A semaphore is held by a core that is inside on it. -/
def HeldInside (s : Cores m K) : Prop :=
  ∀ n c, s.sem n = some c → ∃ l k, s.place c = .inside l k ∧ l.hwSem = n

theorem heldInside_start : HeldInside (Cores.start ie coreKey) := nofun

theorem HeldInside.step (hI : HeldInside s) (h : CoreStep off plan s c s') :
    HeldInside s' := by
  -- what another core holds it still holds
  have hother : ∀ {p : Place} {n : Nat} {d : Fin m}, d ≠ c →
      s.sem n = some d → ∃ l k,
        Function.update s.place c p d = .inside l k ∧ l.hwSem = n := by
    intro p n d hdc hd
    rw [Function.update_of_ne hdc]
    exact hI n d hd
  cases h with
  | spin => exact hI
  | @enter o hpc hfree hsem =>
      intro n d hd
      change o.sem n = some d at hd
      rw [hsem] at hd
      by_cases hn : n = (plan c (s.entered c)).lock.hwSem
      · rw [hn, Function.update_self] at hd
        obtain rfl : c = d := Option.some.inj hd
        exact ⟨_, _, Function.update_self .., hn.symm⟩
      · rw [Function.update_of_ne hn] at hd
        refine hother ?_ hd
        rintro rfl
        obtain ⟨l, k, hin, -⟩ := hI n d hd
        rw [hpc] at hin
        cases hin
  | @work l n hpc =>
      intro n' d hd
      change s.sem n' = some d at hd
      by_cases hdc : d = c
      · subst hdc
        obtain ⟨l', k, hin, hl⟩ := hI n' d hd
        rw [hpc] at hin
        cases hin
        exact ⟨l, n, Function.update_self .., hl⟩
      · exact hother hdc hd
  | @exit l o hpc hsem =>
      intro n d hd
      change o.sem n = some d at hd
      rw [hsem] at hd
      by_cases hn : n = l.hwSem
      · rw [hn, Function.update_self] at hd
        cases hd
      · rw [Function.update_of_ne hn] at hd
        refine hother ?_ hd
        rintro rfl
        obtain ⟨l', k, hin, hl⟩ := hI n d hd
        rw [hpc] at hin
        cases hin
        exact hn hl.symm

-- ============================================================ the turns used

/-- The turns a core has still to spend in its section, the exit
included. -/
def Place.left : Place → Nat
  | .spinning => 0
  | .inside _ n => n + 1

/-- The turns of the sections a core has entered. -/
def paid (plan : Nat → Job) (n : Nat) : Nat :=
  ∑ k ∈ Finset.range n, ((plan k).turns + 2)

/-- Each turn used belongs to a section that was entered. -/
def Accounted (plan : Fin m → Nat → Job) (s : Cores m K) : Prop :=
  s.used + ∑ c, (s.place c).left = ∑ c, paid (plan c) (s.entered c)

theorem accounted_start : Accounted plan (Cores.start ie coreKey) := by
  simp [Accounted, Cores.start, Place.left, paid]

/-- The turns left after the step of one core. -/
theorem sum_left {q : Place} (hpc : s.place c = q) (p : Place) :
    ∑ d, (Function.update s.place c p d).left + q.left
      = ∑ d, (s.place d).left + p.left := by
  rw [← hpc]
  exact sum_update (fun _ p => p.left) s.place c p

/-- The turns paid for after core `c` has entered a section. -/
theorem sum_paid (plan : Fin m → Nat → Job) (s : Cores m K) (c : Fin m) :
    ∑ d, paid (plan d) (Function.update s.entered c (s.entered c + 1) d)
      = ∑ d, paid (plan d) (s.entered d)
        + ((plan c (s.entered c)).turns + 2) := by
  have hsum := sum_update (fun d n => paid (plan d) n) s.entered c
    (s.entered c + 1)
  have hsucc : paid (plan c) (s.entered c + 1)
      = paid (plan c) (s.entered c) + ((plan c (s.entered c)).turns + 2) :=
    Finset.sum_range_succ ..
  omega

theorem Accounted.step (hI : Accounted plan s)
    (h : CoreStep off plan s c s') : Accounted plan s' := by
  unfold Accounted at hI ⊢
  cases h with
  | spin => exact hI
  | @enter o hpc hfree hsem =>
      have hL := sum_left hpc (.inside (plan c (s.entered c)).lock
        (plan c (s.entered c)).turns)
      have hE := sum_paid plan s c
      change _ + 0 = _ + (_ + 1) at hL
      simp only [Cores.put]
      omega
  | @work l n hpc =>
      have hL := sum_left hpc (.inside l n)
      change _ + (_ + 1 + 1) = _ + (_ + 1) at hL
      simp only [Cores.put]
      omega
  | @exit l o hpc hsem =>
      have hL := sum_left hpc .spinning
      change _ + (0 + 1) = _ + 0 at hL
      simp only [Cores.put]
      omega

/-- Few sections, few turns. -/
theorem Accounted.used_le (hI : Accounted plan s) {k : Nat}
    (hk : ∀ c, s.entered c ≤ k) : s.used ≤ ∑ c, paid (plan c) k := by
  have hle : ∑ c, paid (plan c) (s.entered c) ≤ ∑ c, paid (plan c) k := by
    refine Finset.sum_le_sum fun c _ => Finset.sum_le_sum_of_subset ?_
    exact Finset.range_mono (hk c)
  unfold Accounted at hI
  omega

-- ================================================================ the rule

/-- The core can use its turn. -/
def CanGo (plan : Fin m → Nat → Job) (c : Fin m) (s : Cores m K) : Prop :=
  s.place c = .spinning → s.sem (plan c (s.entered c)).lock.hwSem = none

/-- A turn is used, and counted, or it is a vain round. -/
theorem used_step (h : CoreStep off plan s c s') :
    s'.used = s.used + 1 ∨ s' = s ∧ ¬ CanGo plan c s := by
  cases h with
  | spin hpc hheld => exact Or.inr ⟨rfl, fun hgo => hheld (hgo hpc)⟩
  | enter | work | exit => exact Or.inl rfl

/-- Under a fair schedule turn after turn is used. -/
theorem coreRule (hm : 0 < m) :
    WorkRule (coreTurn off plan) (Cores.start ie coreKey) id (CanGo plan)
      Cores.used where
  exists_work := by
    intro s hr
    have hI : HeldInside s := by
      refine hr.invariant (I := HeldInside) heldInside_start ?_
      exact fun _ _ _ hI _ hs => hI.step (coreStep_cases hs)
    by_cases hin : ∃ c, s.place c ≠ .spinning
    · obtain ⟨c, hc⟩ := hin
      exact ⟨c, fun hpc => absurd hpc hc⟩
    · -- nobody is inside, so every semaphore is free
      refine ⟨⟨0, hm⟩, fun _ => ?_⟩
      by_contra hheld
      obtain ⟨c, hc⟩ := Option.ne_none_iff_exists'.mp hheld
      obtain ⟨l, k, hpc, -⟩ := hI _ c hc
      exact hin ⟨c, by rw [hpc]; exact nofun⟩
  keep := by
    intro s a s' p _ hs _ hwork
    rcases used_step (coreStep_cases hs) with hused | ⟨rfl, -⟩
    · exact Or.inr (by omega)
    · exact Or.inl hwork
  use := by
    intro s a _ hwork
    obtain ⟨s', hs⟩ := exists_coreTurn off plan a s
    refine ⟨s', hs, ?_⟩
    rcases used_step (coreStep_cases hs) with hused | ⟨-, hno⟩
    · omega
    · exact absurd hwork hno
  mono := by
    intro s a s' _ hs
    rcases used_step (coreStep_cases hs) with hused | ⟨rfl, -⟩
    · omega
    · exact Nat.le_refl _

/-- The sections go on. -/
theorem sections_unbounded (hm : 0 < m) {turn : Nat → Fin m}
    (hfair : Fair id turn) (k : Nat) :
    ∃ i, k ≤ ∑ c, (trace (coreTurn off plan) (Cores.start ie coreKey)
      turn i).entered c := by
  by_contra hno
  have hrule : WorkRule (coreTurn off plan) (Cores.start ie coreKey) id
      (CanGo plan) Cores.used := coreRule hm
  obtain ⟨i, -, hused⟩ :=
    hrule.unbounded hfair 0 (∑ c, paid (plan c) k + 1)
  have hI : Accounted plan (trace (coreTurn off plan)
      (Cores.start ie coreKey) turn i) := by
    refine (trace_reach i).invariant (I := Accounted plan) accounted_start ?_
    exact fun _ _ _ hI _ hs => hI.step (coreStep_cases hs)
  have hle := hI.used_le (k := k) fun c => by
    refine (Finset.single_le_sum (f := fun c => (trace (coreTurn off plan)
      (Cores.start ie coreKey) turn i).entered c) (fun _ _ => Nat.zero_le _)
      (Finset.mem_univ c)).trans ?_
    exact Nat.le_of_not_le fun hk => hno ⟨i, hk⟩
  omega

-- ============================================================ in the shadow

/-- Core 0 enters, the others spin, core 0 leaves, and again. -/
def shadowing (m i : Nat) : Fin (m + 1) :=
  ⟨i % (m + 2) % (m + 1), Nat.mod_lt _ (Nat.succ_pos m)⟩

/-- Sections of the QMSS lock that end in their first turn. -/
def shortPlan (_ : Fin m) (_ : Nat) : Job := ⟨.qmss, 0⟩

theorem shadowing_val {m q r : Nat} (hr : r < m + 2) :
    (shadowing m ((m + 2) * q + r)).val = if r < m + 1 then r else 0 := by
  show ((m + 2) * q + r) % (m + 2) % (m + 1) = _
  rw [Nat.mul_add_mod, Nat.mod_eq_of_lt hr]
  split
  next hlt => exact Nat.mod_eq_of_lt hlt
  next hge =>
    obtain rfl : r = m + 1 := by omega
    exact Nat.mod_self _

theorem fair_shadowing (m : Nat) : Fair id (shadowing m) := by
  intro p n
  have hp := p.isLt
  refine ⟨(m + 2) * n + p.val, ?_, ?_⟩
  · calc n ≤ (m + 2) * n := Nat.le_mul_of_pos_left n (by omega)
      _ ≤ (m + 2) * n + p.val := Nat.le_add_right ..
  · refine Fin.ext ?_
    show (shadowing m _).val = p.val
    rw [shadowing_val (by omega), if_pos hp]

/-- `r` turns into the period: core 0 is inside after its first turn and
the others have never been. -/
structure Shadow (s : Cores (m + 1) K) (r : Nat) : Prop where
  others : ∀ c, c ≠ 0 → s.place c = .spinning ∧ s.entered c = 0
  free : r = 0 → s.place 0 = .spinning ∧ s.sem QMSS_HW_SEM = none
  held : 0 < r → s.place 0 = .inside .qmss 0 ∧ s.sem QMSS_HW_SEM ≠ none

section shadow

variable {s s' : Cores (m + 1) K} {c : Fin (m + 1)} {r : Nat}

/-- Core 0 enters. -/
theorem Shadow.enter (hI : Shadow s 0) (h : CoreStep off shortPlan s 0 s') :
    Shadow s' 1 := by
  obtain ⟨hpc, hfree⟩ := hI.free rfl
  cases h with
  | spin _ hheld => exact absurd hfree hheld
  | @enter o _ _ hsem =>
      refine ⟨fun d hd => ?_, nofun, fun _ => ⟨?_, ?_⟩⟩
      · obtain ⟨hout, hzero⟩ := hI.others d hd
        exact ⟨(Function.update_of_ne hd ..).trans hout,
          (Function.update_of_ne hd ..).trans hzero⟩
      · show Function.update s.place 0 _ 0 = _
        rw [Function.update_self]
        rfl
      · show o.sem QMSS_HW_SEM ≠ none
        rw [hsem]
        show Function.update s.sem QMSS_HW_SEM (some 0) QMSS_HW_SEM ≠ none
        rw [Function.update_self]
        exact nofun
  | work hpc' | exit hpc' =>
      rw [hpc] at hpc'
      cases hpc'

/-- Another core spins. -/
theorem Shadow.spin (hI : Shadow s r) (hr : 0 < r) (hc : c ≠ 0)
    (h : CoreStep off shortPlan s c s') : Shadow s' (r + 1) := by
  obtain ⟨hin, hheld⟩ := hI.held hr
  have hpc := (hI.others c hc).1
  cases h with
  | spin => exact ⟨hI.others, nofun, fun _ => ⟨hin, hheld⟩⟩
  | enter _ hfree => exact absurd hfree hheld
  | work hpc' | exit hpc' =>
      rw [hpc] at hpc'
      cases hpc'

/-- Core 0 leaves. -/
theorem Shadow.exit (hI : Shadow s r) (hr : 0 < r)
    (h : CoreStep off shortPlan s 0 s') : Shadow s' 0 := by
  obtain ⟨hin, -⟩ := hI.held hr
  cases h with
  | spin hpc | enter hpc | work hpc =>
      rw [hin] at hpc
      cases hpc
  | @exit l o hpc hsem =>
      rw [hin] at hpc
      cases hpc
      refine ⟨fun d hd => ?_, fun _ => ⟨?_, ?_⟩, nofun⟩
      · obtain ⟨hout, hzero⟩ := hI.others d hd
        exact ⟨(Function.update_of_ne hd ..).trans hout, hzero⟩
      · show Function.update s.place 0 _ 0 = _
        exact Function.update_self ..
      · show o.sem QMSS_HW_SEM = none
        rw [hsem]
        exact Function.update_self ..

/-- A turn of the schedule. -/
theorem Shadow.step (hI : Shadow s r) (hr : r < m + 2)
    (hc : c.val = if r < m + 1 then r else 0)
    (h : CoreStep off shortPlan s c s') :
    Shadow s' (if r < m + 1 then r + 1 else 0) := by
  by_cases hzero : r = 0
  · subst hzero
    rw [if_pos (Nat.succ_pos m)] at hc ⊢
    obtain rfl : c = 0 := Fin.ext hc
    exact hI.enter h
  · have hpos : 0 < r := Nat.pos_of_ne_zero hzero
    by_cases hlt : r < m + 1
    · rw [if_pos hlt] at hc ⊢
      refine hI.spin hpos (fun hc0 => hzero ?_) h
      rw [← hc, hc0]
      rfl
    · rw [if_neg hlt] at hc ⊢
      obtain rfl : c = 0 := Fin.ext hc
      exact hI.exit hpos h

end shadow

/-- At every moment of the schedule. -/
theorem shadow_trace (off : K) (ie : Fin (m + 1) → K) (coreKey : Nat → K)
    (i : Nat) :
    ∃ q r, i = (m + 2) * q + r ∧ r < m + 2 ∧
      Shadow (trace (coreTurn off shortPlan) (Cores.start ie coreKey)
        (shadowing m) i) r := by
  induction i with
  | zero =>
      exact ⟨0, 0, rfl, Nat.succ_pos _, fun _ _ => ⟨rfl, rfl⟩,
        fun _ => ⟨rfl, rfl⟩, nofun⟩
  | succ i ih =>
      obtain ⟨q, r, hi, hr, hI⟩ := ih
      obtain ⟨s', hs⟩ := exists_coreTurn off shortPlan (shadowing m i)
        (trace (coreTurn off shortPlan) (Cores.start ie coreKey)
          (shadowing m) i)
      have hc : (shadowing m i).val = if r < m + 1 then r else 0 := by
        rw [hi]
        exact shadowing_val hr
      have hnext := hI.step hr hc (coreStep_cases hs)
      rw [trace_of_step hs]
      by_cases hlt : r < m + 1
      · rw [if_pos hlt] at hnext
        exact ⟨q, r + 1, by omega, by omega, hnext⟩
      · rw [if_neg hlt] at hnext
        refine ⟨q + 1, 0, ?_, Nat.succ_pos _, hnext⟩
        obtain rfl : r = m + 1 := by omega
        rw [hi, Nat.mul_succ]
        rfl

-- ================================================================= the law

/-- The core gets into its sections, again and again. -/
def GetsIn (run : Nat → Cores m K) (c : Fin m) : Prop :=
  ∀ k, ∃ i, k ≤ (run i).entered c

/-- Of `m + 1` cores that take the OSAL locks, some core always gets in,
whatever the sections and the fair schedule are; that each of them does is
certain for one core only. -/
theorem csEnter_live (m : Nat) (off : K) (ie : Fin (m + 1) → K)
    (coreKey : Nat → K) :
    (∀ plan turn, Fair id turn → ∀ k, ∃ i, k ≤ ∑ c, (trace
        (coreTurn off plan) (Cores.start ie coreKey) turn i).entered c) ∧
      ((∀ plan turn, Fair id turn → ∀ c, GetsIn (trace (coreTurn off plan)
        (Cores.start ie coreKey) turn) c) ↔ m = 0) := by
  refine ⟨fun plan turn hfair => sections_unbounded (Nat.succ_pos m) hfair,
    ?_, ?_⟩
  · intro hall
    by_contra hm
    have hone : (⟨1, by omega⟩ : Fin (m + 1)) ≠ 0 := by
      simp [Fin.ext_iff]
    obtain ⟨i, hi⟩ := hall shortPlan (shadowing m) (fair_shadowing m) _ 1
    obtain ⟨q, r, -, -, hI⟩ := shadow_trace off ie coreKey i
    rw [(hI.others _ hone).2] at hi
    cases hi
  · rintro rfl plan turn hfair c k
    obtain ⟨i, hi⟩ : ∃ i, k ≤ ∑ c, (trace (coreTurn off plan)
        (Cores.start ie coreKey) turn i).entered c :=
      sections_unbounded Nat.one_pos hfair k
    refine ⟨i, ?_⟩
    obtain rfl : c = 0 := Subsingleton.elim (α := Fin 1) c 0
    rwa [Fin.sum_univ_one] at hi

end DspCodes.Osal

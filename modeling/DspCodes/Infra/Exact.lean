/-
The wire carries out every step of the protocol, so that nothing the
protocol can do in step is an artefact of its coarser calls.

# The two directions

A wire refines the protocol (`wire_refines`). Here is the converse, for
runs in step whose driver calls succeed: whatever step the protocol can
take from the state of a reachable wire, the wire comes to, call by call.
`send_data`, `cleanup` and the recycling loop end after so many calls; an
outstanding interrupt is raised after so many moves of the hardware.

# What it rests on

Descriptors and channels for every round (`Enough`): with fewer
`send_data` fails of itself, or the receive side waits for ever.
-/
import DspCodes.Infra.Arrival
import DspCodes.Infra.Progress

namespace DspCodes.Infra

open Lts

variable {cfg : Config} {tr : Traffic} {n c : Nat} {ok res : Bool}
  {x : CoreState} {p p' : Packets} {w w' : Wire cfg} {s s' : State cfg}
  {guard : State cfg → Action cfg.numCores → Prop}

-- ====================================================== the conditions

/-- Descriptors and channels for every round. -/
structure Enough (cfg : Config) (tr : Traffic) : Prop where
  tx : EnoughTx cfg tr
  rx : EnoughRx tr
  channels : cfg.numCores ≤ tr.numChannels

/-- The board has enough. -/
theorem board_enough : Enough board boardTraffic where
  tx := by unfold EnoughTx; decide
  rx := by unfold EnoughRx; decide
  channels := by decide

/-- Guarded steps are in step, and their driver calls succeed. -/
def Orderly (guard : State cfg → Action cfg.numCores → Prop) : Prop :=
  ∀ s a, guard s a → a.good = true ∧ InStep s a

theorem Orderly.inStep (hguard : Orderly guard)
    (h : WireReachable cfg tr (Lifted guard) w) :
    WireReachable cfg tr (Lifted InStep) w :=
  h.mono fun _ _ hok b hb => (hguard _ b (hok b hb)).2

-- ========================================================= a failed call

/-- `send_data` fails only where a call of its fails. -/
theorem SendStep.result {channel core : Nat}
    (h : SendStep tr n c channel core true p p' (some res))
    (hch : channel < tr.numChannels)
    (hfree : ∀ i, p.send = .pop i → p.txFree ≠ []) : res = true := by
  cases h with
  | failed _ hbad => exact absurd ⟨rfl, hch⟩ hbad
  | popNull hpc hnil => exact absurd hnil (hfree _ hpc)
  | last => rfl

/-- What `send_data` needs is there. -/
theorem send_supplied (hone : cfg.OnePass) (henough : Enough cfg tr)
    {ok : Wire cfg → WireAction cfg.numCores tr.numChannels → Prop}
    (h : WireReachable cfg tr ok w) (hpc : w.base.core0.main = .send) :
    w.base.core0.channel + w.base.core0.index < tr.numChannels
      ∧ ∀ i, w.pk.send = .pop i → w.pk.txFree ≠ [] := by
  have hx := (irqInv_reachable hone (wire_base h)).main cfg.core0
  refine ⟨?_, fun i hpop => ?_⟩
  · obtain ⟨-, hlt, -⟩ := hx.round_of_send hpc
    exact Nat.lt_of_lt_of_le hlt henough.channels
  · exact (drawInv_reachable hone h).txFree_ne hx henough.tx hpc hpop

/-- The protocol sees the result of the call. -/
theorem MainCall.result (h : MainCall tr n c true x p p' (some res))
    (hsend : x.main = .send → x.channel + x.index < tr.numChannels
      ∧ ∀ i, p.send = .pop i → p.txFree ≠ []) : res = true := by
  cases h with
  | send hpc h => exact h.result (hsend hpc).1 (hsend hpc).2
  | divert | closed | plain => rfl

theorem IsrCall.result (h : IsrCall tr c ok x p p' (some res)) :
    res = ok := by
  cases h <;> rfl

/-- The protocol side of a reachable wire is reachable, also under a guard
on the driver results. -/
theorem orderly_refines (hone : cfg.OnePass) (henough : Enough cfg tr)
    (hguard : Orderly guard) (h : WireReachable cfg tr (Lifted guard) w) :
    Reachable cfg guard w.base := by
  refine h.invariant' (I := fun w => Reachable cfg guard w.base) .init ?_
  intro w a w' hr hw hok hstep
  cases wireStep_cases hstep with
  | @main c ok r s p hidle hcall hs =>
      cases r with
      | none =>
          show Reachable cfg guard s
          rw [show s = w.base from hs]
          exact hw
      | some res =>
          have hg := hok _ rfl
          have hgood : ok = true := (hguard _ _ hg).1
          subst hgood
          have hres : res = true := by
            refine hcall.result fun hpc => ?_
            have hc : c = cfg.core0 := Fin.ext
              (roleOk_reachable (wire_base hr) c (by rw [hpc]; rfl))
            subst hc
            exact send_supplied hone henough hr hpc
          rw [hres] at hs
          exact .step _ hw hg hs
  | irq hraised hcore hs => exact .step _ hw (hok _ rfl) hs
  | @isr c ok r s p hcall hs =>
      cases r with
      | none =>
          show Reachable cfg guard s
          rw [show s = w.base from hs]
          exact hw
      | some res =>
          rw [hcall.result] at hs
          exact .step _ hw (hok _ rfl) hs
  | hardware => exact hw

-- ================================================== calls up to a commit

theorem Wire.commit_none {f : Bool → Action cfg.numCores}
    {q : Packets × Option Bool} (hq : q.2 = none) :
    w.commit f q = some ⟨w.base, q.1⟩ := by
  simp only [Wire.commit, hq]

theorem Wire.commit_some {f : Bool → Action cfg.numCores}
    {q : Packets × Option Bool} (hq : q.2 = some ok)
    (happ : apply (f ok) w.base = some s) :
    w.commit f q = some ⟨s, q.1⟩ := by
  simp only [Wire.commit, hq, happ, Option.map_some]

/-- A core that makes the calls of a step comes to the end of it, when
there is a measure of the calls it has left. -/
theorem calls_commit {a : WireAction cfg.numCores tr.numChannels}
    {f : Bool → Action cfg.numCores}
    {call : Packets → Packets × Option Bool} (μ : Packets → Nat)
    (h : WireReachable cfg tr (Lifted guard) w)
    (hok : guard w.base (f ok)) (happ : apply (f ok) w.base = some s')
    (hlift : a.lift = some (f ok))
    (hstep : ∀ v : Wire cfg, v.base = w.base →
      wireStep tr a v = v.commit f (call v.pk))
    (hcall : ∀ v : Wire cfg, WireReachable cfg tr (Lifted guard) v →
      v.base = w.base → (call v.pk).2 = some ok
        ∨ (call v.pk).2 = none ∧ μ (call v.pk).1 < μ v.pk) :
    ∃ w', Reach (wireStep tr) (Lifted guard) w w' ∧ w'.base = s' := by
  refine Reach.leadsTo (P := fun v : Wire cfg => v.base = w.base)
    (fun v => μ v.pk) ?_ h rfl
  intro v hv hbase
  have hguard : Lifted guard v a := by
    intro b hb
    rw [hlift] at hb
    cases hb
    rw [hbase]
    exact hok
  rcases hcall v hv hbase with hres | ⟨hres, hlt⟩
  · refine ⟨a, ⟨s', (call v.pk).1⟩, hguard, ?_, .inl rfl⟩
    rw [hstep v hbase]
    exact Wire.commit_some hres (hbase ▸ happ)
  · refine ⟨a, ⟨v.base, (call v.pk).1⟩, hguard, ?_, .inr ⟨hbase, hlt⟩⟩
    rw [hstep v hbase]
    exact Wire.commit_none hres

-- ====================================================== the three loops

/-- The calls `send_data` has left, at most. -/
def SendPc.left (tr : Traffic) : SendPc → Nat
  | .setup todo => todo.length + 3 * tr.numPackets + 2
  | .pop i => 3 * (tr.numPackets - i) + 1
  | .fill i _ => 3 * (tr.numPackets - i)
  | .push i _ => 3 * (tr.numPackets - i) - 1

theorem SendStep.left {channel core : Nat} {r : Option Bool}
    (h : SendStep tr n c channel core true p p' r)
    (hch : channel < tr.numChannels)
    (hfree : ∀ i, p.send = .pop i → p.txFree ≠ [])
    (hbounds : p.send.inBounds tr) :
    r = some true ∨ r = none ∧ p'.send.left tr < p.send.left tr := by
  cases h with
  | failed _ hbad => exact absurd ⟨rfl, hch⟩ hbad
  | popNull hpc hnil => exact absurd hnil (hfree _ hpc)
  | last => exact .inl rfl
  | call hpc | data hpc | pop hpc | fill hpc | push hpc =>
      refine .inr ⟨rfl, ?_⟩
      rw [hpc] at hbounds ⊢
      simp only [SendPc.left, SendPc.inBounds, List.length_cons,
        List.length_nil] at hbounds ⊢
      omega

/-- The calls the recycling loop of a core has left, at most. -/
def recycleLeft (tr : Traffic) (c : Nat) (p : Packets) : Nat :=
  match p.recycle c with
  | none => tr.numPackets + 2
  | some (count, index) => count - index + 1

/-- The handler of the round at hand counts `NUM_PACKETS` entries. -/
theorem RxInv.counts (hs : RxInv tr w) (hcalm : Calm tr w)
    (hfour : cfg.numCores ≤ 4) {c : Fin cfg.numCores} {ch : Nat}
    (hpc : (w.base.core c).isr = .recycleRx ch) :
    w.pk.page (tr.isrBuf c) 0 = tr.numPackets := by
  obtain ⟨-, hc, hnot, htaken⟩ := hcalm.serving hpc
  have hlt : c.val < 16 := by have := c.isLt; omega
  rw [isrBuf_eq tr hlt]
  rw [hc] at hnot htaken
  exact hs.count htaken hnot

theorem IsrCall.left {r : Option Bool} (h : IsrCall tr c ok x p p' r)
    (hcount : ∀ ch, x.isr = .recycleRx ch →
      p.page (tr.isrBuf c) 0 = tr.numPackets) :
    r = some ok ∨ r = none ∧ recycleLeft tr c p' < recycleLeft tr c p := by
  cases h with
  | count hpc hnone =>
      refine .inr ⟨rfl, ?_⟩
      simp only [recycleLeft, hnone, Function.update_self, hcount _ hpc]
      omega
  | recycle _ hloop hlt =>
      refine .inr ⟨rfl, ?_⟩
      simp only [recycleLeft, hloop, Function.update_self]
      omega
  | recycled | disable | plain => exact .inl rfl

-- ============================================================ following

/-- A step of `main`. -/
theorem follow_main (hone : cfg.OnePass) (henough : Enough cfg tr)
    (hguard : Orderly guard) (h : WireReachable cfg tr (Lifted guard) w)
    {c : Fin cfg.numCores} (hok : guard w.base (.main c ok))
    (happ : apply (.main c ok) w.base = some s') :
    ∃ w', Reach (wireStep tr) (Lifted guard) w w' ∧ w'.base = s' := by
  have hidle : (w.base.core c).isr = .idle := by
    by_contra hbusy
    rw [apply, if_neg hbusy] at happ
    cases happ
  have hstep : ∀ v : Wire cfg, v.base = w.base →
      wireStep tr (.main c ok) v = v.commit (.main c)
        (mainMicro tr cfg.numCores c ok (w.base.core c) v.pk) := by
    intro v hbase
    rw [wireStep, hbase, if_pos hidle]
  have hgood : ok = true := (hguard _ _ hok).1
  cases hpc : (w.base.core c).main with
  | send =>
      have hc : c = cfg.core0 := Fin.ext
        (roleOk_reachable (wire_base h) c (by rw [hpc]; rfl))
      subst hc hgood
      refine calls_commit (fun p => p.send.left tr) h hok happ rfl hstep ?_
      intro v hv hbase
      obtain ⟨hch, hfree⟩ := send_supplied hone henough hv (hbase ▸ hpc)
      simp only [mainMicro, hpc]
      rw [hbase] at hch
      exact (sendMicro_cases ..).left hch hfree (drawInv_reachable hone hv).bounds
  | cleanup =>
      refine calls_commit (fun p => p.cleanup.length) h hok happ rfl hstep ?_
      intro v _ _
      simp only [mainMicro, hpc, cleanupMicro]
      cases htodo : v.pk.cleanup with
      | nil => exact .inl rfl
      | cons call todo => exact .inr ⟨rfl, Nat.lt_succ_self _⟩
  | _ =>
      refine calls_commit (fun _ => 0) h hok happ rfl hstep fun v _ _ => ?_
      left
      simp only [mainMicro, hpc]

/-- A step of the handler. -/
theorem follow_isr (hone : cfg.OnePass) (hfour : cfg.numCores ≤ 4)
    (hguard : Orderly guard) (h : WireReachable cfg tr (Lifted guard) w)
    {c : Fin cfg.numCores} (hok : guard w.base (.isr c ok))
    (happ : apply (.isr c ok) w.base = some s') :
    ∃ w', Reach (wireStep tr) (Lifted guard) w w' ∧ w'.base = s' := by
  have hstep : ∀ v : Wire cfg, v.base = w.base →
      wireStep tr (.isr c ok) v
        = v.commit (.isr c) (isrMicro tr c ok (w.base.core c) v.pk) := by
    intro v hbase
    rw [wireStep, hbase]
  refine calls_commit (recycleLeft tr c) h hok happ rfl hstep ?_
  intro v hv hbase
  have hrun := hguard.inStep hv
  refine (isrMicro_cases ..).left fun ch hpc => ?_
  exact (rxInv_reachable hone hfour hrun).counts
    (calm_reachable hone hfour hrun) hfour (hbase ▸ hpc)

/-- An interrupt: the hardware raises it first. -/
theorem follow_irq (hone : cfg.OnePass) (hfour : cfg.numCores ≤ 4)
    (henough : Enough cfg tr) (hguard : Orderly guard)
    (h : WireReachable cfg tr (Lifted guard) w) {c : Fin cfg.numCores}
    (hok : guard w.base (.irq c))
    (happ : apply (.irq c) w.base = some s') :
    ∃ w', Reach (wireStep tr) (Lifted guard) w w' ∧ w'.base = s' := by
  have hrun := hguard.inStep h
  have hcalm := calm_reachable hone hfour hrun
  obtain ⟨hsent, hhand⟩ : c.val < w.base.core0.sent
      ∧ (w.base.core c).handlers = 0 := by
    obtain ⟨d, x, sh, -, hstep⟩ := apply_cases happ
    cases hstep with
    | irq _ hirq =>
        have hcount := hcalm.irq.count c
        rw [hirq, List.length_cons] at hcount
        split_ifs at hcount with hlt
        · exact ⟨hlt, by omega⟩
        · omega
  -- its round is the one at hand
  have hch : c.val = w.base.core0.passed := by
    by_contra hne
    rcases hcalm.other hne with hrec | hzero
    · exact (hcalm.once.past c hrec).1 hhand
    · rw [hcalm.load.full c hsent] at hzero
      exact absurd hzero (Nat.ne_of_gt tr.packets_pos)
  have hlt : c.val < tr.numChannels :=
    Nat.lt_of_lt_of_le c.isLt henough.channels
  have hat : (⟨c, hlt⟩ : Fin tr.numChannels).val = w.base.core0.passed := hch
  obtain ⟨v, hdrain, hbase, harrived⟩ :=
    arrives hone hfour henough.rx hrun hat hsent
  have hfirst : Reach (wireStep tr) (Lifted guard) w v :=
    hdrain.mono fun _ _ hlift b hb => by rw [hlift] at hb; cases hb
  have hraised : (v.pk.chan c).raised = true := by
    refine ((accInv_reachable hone hfour (h.trans hfirst)).full c
      harrived.taken).resolve_right fun hone' => ?_
    rw [hbase, hhand] at hone'
    cases hone'
  let ch : Fin tr.numChannels :=
    ⟨c, Nat.lt_of_lt_of_le c.isLt henough.channels⟩
  refine ⟨⟨s', v.pk.setChan ch { v.pk.chan ch with raised := false }⟩,
    hfirst.trans (.step (.irq c ch) .init ?_ ?_), rfl⟩
  · intro b hb
    cases hb
    rw [hbase]
    exact hok
  · have hcore : c.val % 4 = c.val :=
      Nat.mod_eq_of_lt (Nat.lt_of_lt_of_le c.isLt hfour)
    rw [wireStep, if_pos ⟨hraised, hcore⟩, hbase, happ]
    rfl

/-- Whatever the protocol can do, the wire comes to. -/
theorem follow (hone : cfg.OnePass) (hfour : cfg.numCores ≤ 4)
    (henough : Enough cfg tr) (hguard : Orderly guard)
    (h : WireReachable cfg tr (Lifted guard) w) {a : Action cfg.numCores}
    (hok : guard w.base a) (happ : apply a w.base = some s') :
    ∃ w', Reach (wireStep tr) (Lifted guard) w w' ∧ w'.base = s' := by
  cases a with
  | main c ok => exact follow_main hone henough hguard h hok happ
  | irq c => exact follow_irq hone hfour henough hguard h hok happ
  | isr c ok => exact follow_isr hone hfour hguard h hok happ

/-- Under every guard that keeps the runs in step and their driver calls
good, the wires show exactly the states the protocol reaches. -/
theorem wire_exact (hone : cfg.OnePass) (hfour : cfg.numCores ≤ 4)
    (henough : Enough cfg tr) (hguard : Orderly guard) (s : State cfg) :
    (∃ w, WireReachable cfg tr (Lifted guard) w ∧ w.base = s)
      ↔ Reachable cfg guard s := by
  constructor
  · rintro ⟨w, hw, rfl⟩
    exact orderly_refines hone henough hguard hw
  · intro hs
    have hinit : WireReachable cfg tr (Lifted guard) (initWire cfg tr) :=
      .init
    refine hinit.covers Wire.base ?_ hs
    intro w hw a s hok happ
    exact follow hone hfour henough hguard hw hok happ

/-- Every driver call succeeds, and the step is in step. -/
def GoodInStep (s : State cfg) (a : Action cfg.numCores) : Prop :=
  a.good = true ∧ InStep s a

instance (s : State cfg) (a : Action cfg.numCores) :
    Decidable (GoodInStep s a) :=
  inferInstanceAs (Decidable (_ ∧ _))

/-- On the board, the four rounds that the protocol has run in lockstep
are a run of the wire. -/
theorem wire_exact_board :
    ∃ w, WireReachable board boardTraffic (Lifted GoodInStep) w
      ∧ ∀ c, (w.base.core c).passed = 4 := by
  obtain ⟨s, hs, hpassed⟩ : ∃ s, Reachable board GoodInStep s
      ∧ ∀ c, (s.core c).passed = 4 :=
    exists_reach_of_runOk inStep (by decide +kernel)
  have hone : board.OnePass := rfl
  have hfour : board.numCores ≤ 4 := by decide
  have horder : @Orderly board GoodInStep := fun _ _ h => h
  obtain ⟨w, hw, rfl⟩ := (wire_exact hone hfour board_enough horder s).mpr hs
  exact ⟨w, hw, hpassed⟩

end DspCodes.Infra

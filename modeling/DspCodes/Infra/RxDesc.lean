/-
The receive descriptors, and what a handler finds on its page.

All rounds use the one list of core 0: `send_data` clears it, the
accumulator of the round fills it, and the handler of the round reads it
through an address it masks its own core number out of. Nothing keeps a
round from clearing the page of the one before.

In runs that are in step (`InStep`) core 0 sends a round only when the
one before is recycled, so one page at a time is in use: the page of the
round core 0 has last sent. Then `RxInv` holds: a handler counts
`NUM_PACKETS` entries, all of them of its own round, and the receive
descriptors are conserved. They are all back in the free queue when core
0 leaves its rounds, and before that the DMA never waits for one.
-/
import Mathlib.Tactic.IntervalCases
import DspCodes.Infra.Barrier
import DspCodes.Infra.Interrupts

namespace DspCodes.Infra

open Lts Counting

variable {cfg : Config} {tr : Traffic} {n c channel core : Nat} {ok : Bool}
  {x x' : CoreState} {sh sh' : Shared} {p p' : Packets} {r : Option Bool}
  {w w' : Wire cfg}

-- ========================================================== the address

/-- Bits above and below a position do not meet. -/
theorem land_two_pow_mul_add {k a b y z : Nat} (hy : y < 2 ^ k)
    (hz : z < 2 ^ k) :
    (2 ^ k * a + y) &&& (2 ^ k * b + z) = 2 ^ k * (a &&& b) + (y &&& z) := by
  have hyz : y &&& z < 2 ^ k := Nat.and_lt_two_pow y hz
  refine Nat.eq_of_testBit_eq fun i => ?_
  rw [Nat.testBit_and, Nat.testBit_two_pow_mul_add a hy,
    Nat.testBit_two_pow_mul_add b hz, Nat.testBit_two_pow_mul_add _ hyz]
  split_ifs <;> rw [Nat.testBit_and]

/-- Every handler reads the list of core 0, which is where `send_data`
makes the accumulator write: the mask takes the core number out of the
global address. -/
theorem isrBuf_eq (tr : Traffic) (hc : c < 16) :
    tr.isrBuf c = tr.listAddress SYSINIT := by
  have hlocal := tr.list_local
  have haddr : ∀ c < 16, (tr.listAddress c).toNat
      = 2 ^ 24 * (16 + c) + tr.hiPrioList.toNat := by
    intro c hc
    simp only [Traffic.listAddress, l2_global_address]
    bv_omega
  have hmask : (0xf0ffffff#32).toNat = 2 ^ 24 * 0xf0 + 0xffffff := rfl
  have hhigh : (16 + c) &&& 0xf0 = 16 := by
    interval_cases c <;> rfl
  have hlow : tr.hiPrioList.toNat &&& 0xffffff = tr.hiPrioList.toNat :=
    Nat.and_two_pow_sub_one_of_lt_two_pow hlocal
  refine BitVec.eq_of_toNat_eq ?_
  rw [Traffic.isrBuf, BitVec.toNat_and, haddr c hc, hmask,
    land_two_pow_mul_add hlocal (by decide), hhigh, hlow,
    haddr SYSINIT (by decide)]
  rfl

-- ====================================================== one page at a time

theorem resultFree_inStep : @ResultFree cfg InStep :=
  fun _ _ _ _ => ⟨id, id⟩

/-- In step, the rounds core 0 has left are recycled. -/
theorem recycled_before (hone : cfg.OnePass) {s : State cfg}
    (h : Reachable cfg InStep s) :
    ∀ j < s.core0.passed, j ∈ s.shared.recycled := by
  intro j hj
  have hs : BarrierInv s :=
    h.invariant' (barrierInv_init hone) fun _ _ _ hr hs hok happ =>
      barrierInv_step (irqInv_reachable hone hr)
        (signalLe_reachable hone hr) hs hok happ
  refine ((recycleInv_reachable h).core cfg.core0).took j ?_
  rw [hs.took cfg.core0]
  exact List.mem_map_of_mem (List.mem_range.mpr hj)

/-- A recycled round is that of a core, and its handler is past the
recycling loop for good. -/
structure RecycledOnce (s : State cfg) : Prop where
  core : ∀ ch ∈ s.shared.recycled, ch < cfg.numCores
  past : ∀ c : Fin cfg.numCores, c.val ∈ s.shared.recycled →
    (s.core c).handlers ≠ 0 ∧ ∀ ch, (s.core c).isr ≠ .recycleRx ch

/-- What the handler adds to the recycled rounds, and where it goes. -/
theorem IsrStep.recycled_cases (h : IsrStep cfg ok x sh x' sh') :
    (∀ ch, x'.isr ≠ .recycleRx ch)
      ∧ (sh'.recycled = sh.recycled ∧ (∀ ch, x.isr ≠ .recycleRx ch)
        ∨ ∃ ch, x.isr = .recycleRx ch ∧ sh'.recycled = sh.recycled ++ [ch]) := by
  cases h with
  | @recycleRx ch hpc =>
      exact ⟨fun _ h => (nomatch h), .inr ⟨ch, hpc, rfl⟩⟩
  | disable hpc | popNull hpc | push hpc =>
      refine ⟨fun ch => ?_, .inl ⟨rfl, fun ch h => ?_⟩⟩
      · unfold isrLoop
        split_ifs <;> exact fun h => nomatch h
      · rw [hpc] at h
        cases h
  | disableFailed hpc | pop hpc | runInv hpc | runLoad hpc | runStore hpc
  | runWb hpc | ret hpc =>
      refine ⟨fun _ h => (nomatch h), .inl ⟨rfl, fun ch h => ?_⟩⟩
      rw [hpc] at h
      cases h

/-- A running handler counts. -/
theorem handlers_of_running (h : x.isr ≠ .idle) : x.handlers ≠ 0 := by
  have hactive : x.isr.active = 1 := by
    cases hpc : x.isr with
    | idle => exact absurd hpc h
    | _ => rfl
  unfold CoreState.handlers
  omega

theorem recycledOnce_reachable (hone : cfg.OnePass)
    {guard : State cfg → Action cfg.numCores → Prop} {s : State cfg}
    (h : Reachable cfg guard s) : RecycledOnce s := by
  refine h.invariant' (I := RecycledOnce)
    ⟨fun _ h => absurd h List.not_mem_nil,
      fun _ h => absurd h List.not_mem_nil⟩ ?_
  intro s a s' hr hs _ happ
  have hirq := irqInv_reachable hone hr
  obtain ⟨c, x, sh, rfl, hstep⟩ := apply_cases happ
  have hput : ∀ rec : List Nat,
      (∀ d : Fin cfg.numCores, d ≠ c → d.val ∈ rec →
        d.val ∈ s.shared.recycled) →
      (c.val ∈ rec → x.handlers ≠ 0 ∧ ∀ ch, x.isr ≠ .recycleRx ch) →
      ∀ d : Fin cfg.numCores, d.val ∈ rec →
        ((s.put c (x, sh)).core d).handlers ≠ 0
          ∧ ∀ ch, ((s.put c (x, sh)).core d).isr ≠ .recycleRx ch := by
    intro rec hold hnew d hd
    by_cases hdc : d = c
    · rw [hdc, State.put_core, Function.update_self]
      exact hnew (hdc ▸ hd)
    · rw [State.put_core, Function.update_of_ne hdc]
      exact hs.past d (hold d hdc hd)
  cases hstep with
  | main hidle hm =>
      obtain ⟨hisr, hserved, haborted⟩ := hm.isr_eq
      refine ⟨?_, ?_⟩ <;> rw [State.put_shared, hm.recycled_eq]
      · exact hs.core
      · refine hput _ (fun _ _ h => h) fun hc => ?_
        simp only [CoreState.handlers, hisr, hserved, haborted]
        exact hs.past c hc
  | irq hidle hcons =>
      refine ⟨hs.core, hput _ (fun _ _ h => h) fun hc => ?_⟩
      have hcount := hirq.count c
      have hpos := (hs.past c hc).1
      rw [hcons, List.length_cons] at hcount
      split_ifs at hcount <;> omega
  | isr hi =>
      have hrun : x.handlers ≠ 0 := by
        rw [hi.handlers_eq]
        exact handlers_of_running hi.running
      obtain ⟨hpast, ⟨hrec, -⟩ | ⟨ch, hpc, hrec⟩⟩ := hi.recycled_cases
      · refine ⟨?_, ?_⟩ <;> rw [State.put_shared, hrec]
        · exact hs.core
        · exact hput _ (fun _ _ h => h) fun _ => ⟨hrun, hpast⟩
      · have hch : ch = c := by
          have hok := hirq.isr c
          simpa only [IsrOk, hpc] using hok
        subst hch
        refine ⟨fun ch hch => ?_, ?_⟩
        · rw [State.put_shared, hrec, List.mem_append,
            List.mem_singleton] at hch
          rcases hch with hch | rfl
          · exact hs.core ch hch
          · exact c.isLt
        · rw [State.put_shared, hrec]
          refine hput _ (fun d hdc hd => ?_) fun _ => ⟨hrun, hpast⟩
          rw [List.mem_append, List.mem_singleton] at hd
          exact hd.resolve_right fun h => hdc (Fin.ext h)

/-- What is known of a wire whose run is in step. -/
structure Calm (tr : Traffic) (w : Wire cfg) : Prop where
  before : ∀ j < w.base.core0.passed, j ∈ w.base.shared.recycled
  irq : IrqInv w.base
  once : RecycledOnce w.base
  send : SendInv tr cfg.numCores w.base.core0 w.pk
  load : LoadInv tr w.base.core0 w.pk
  acc : AccInv tr w
  route : Routed tr w.base.core0 w.pk

theorem calm_reachable (hone : cfg.OnePass) (hfour : cfg.numCores ≤ 4)
    (h : WireReachable cfg tr (Lifted InStep) w) : Calm tr w where
  before := recycled_before hone (wire_refines resultFree_inStep h)
  irq := irqInv_reachable hone (wire_base h)
  once := recycledOnce_reachable hone (wire_base h)
  send := sendInv_reachable h
  load := loadInv_reachable hone h
  acc := accInv_reachable hone hfour h
  route := routed_reachable hone h

/-- Core 0 has sent the rounds it has left, and the one it waits in. -/
theorem CoreState.sent_cases (x : CoreState) :
    x.sent = x.passed
      ∨ (x.main = .syncWait ∨ x.main = .syncPop) ∧ x.sent = x.passed + 1 := by
  unfold CoreState.sent CoreState.passed
  cases hpc : x.main <;> simp

/-- Every other channel is recycled or empty: the packets under way are
those of the round that core 0 is sending or waits in. -/
theorem Calm.other (hs : Calm tr w) {ch : Nat}
    (hch : ch ≠ w.base.core0.passed) :
    ch ∈ w.base.shared.recycled ∨ (w.pk.chan ch).load = 0 := by
  rcases Nat.lt_or_gt_of_ne hch with hlt | hgt
  · exact .inl (hs.before ch hlt)
  · refine .inr ?_
    rcases w.base.core0.sent_cases with hsent | ⟨hpc, hsent⟩
    · exact hs.load.later ch (hsent ▸ hgt)
    · rcases Nat.eq_or_lt_of_le (Nat.succ_le_of_lt hgt) with heq | hlt
      · have hnext := hs.load.next (by rcases hpc with h | h <;> simp [h])
        rw [hs.send.idle (by rcases hpc with h | h <;> simp [h]), hsent,
          show w.base.core0.passed + 1 = ch from heq] at hnext
        exact hnext
      · exact hs.load.later ch (hsent ▸ hlt)

/-- A handler runs when the packets of its round are on the page. -/
theorem Calm.arrived (hs : Calm tr w) {c : Fin cfg.numCores}
    (hc : (w.base.core c).handlers ≠ 0) : Arrived tr (w.pk.chan c) := by
  refine arrived_of_full hs.load ?_
  by_contra hne
  have hle : (w.pk.chan c).acc.taken ≤ tr.numPackets :=
    Nat.le_trans (Nat.le_add_left ..) (hs.load.load_le c)
  exact hc (hs.acc.early c (.inr (Nat.lt_of_le_of_ne hle hne)))

theorem Calm.recycled_arrived (hs : Calm tr w) {ch : Nat}
    (hch : ch ∈ w.base.shared.recycled) : Arrived tr (w.pk.chan ch) :=
  hs.arrived (c := ⟨ch, hs.once.core ch hch⟩) (hs.once.past _ hch).1

/-- The handler in its recycling loop serves the round at hand. -/
theorem Calm.serving (hs : Calm tr w) {c : Fin cfg.numCores} {ch : Nat}
    (hpc : (w.base.core c).isr = .recycleRx ch) :
    ch = c ∧ c.val = w.base.core0.passed ∧ c.val ∉ w.base.shared.recycled
      ∧ (w.pk.chan c).acc.taken = tr.numPackets := by
  have hch : ch = c := by
    have hok := hs.irq.isr c
    simpa only [IsrOk, hpc] using hok
  have hnot : c.val ∉ w.base.shared.recycled :=
    fun h => (hs.once.past c h).2 ch hpc
  have htaken := (hs.arrived (handlers_of_running (by rw [hpc]; simp))).taken
  refine ⟨hch, ?_, hnot, htaken⟩
  by_contra hne
  have hzero := (hs.other hne).resolve_left hnot
  have hpos := tr.packets_pos
  simp only [Chan.load] at hzero
  omega

-- ============================================================ the ledger

/-- The receive descriptors of a channel, short of the page. -/
def Chan.rxDescs (k : Chan) : Multiset Nat :=
  ↑k.rxQue + ↑(k.rxDma.toList.map Prod.fst)

/-- The entries of the page that the handler of core `c` has recycled. -/
def Packets.index (p : Packets) (c : Nat) : Nat :=
  (p.recycle c).elim 0 Prod.snd

/-- The entries of the page that channel `ch` has filled and its handler
has not recycled. -/
def pageEntries (tr : Traffic) (p : Packets) (ch : Nat) : List Nat :=
  (List.range' (p.index ch + 1) ((p.chan ch).acc.taken - p.index ch)).map
    (p.page (tr.listAddress SYSINIT))

/-- The descriptors on the page: those of the round at hand, until its
handler has acknowledged them. -/
def onPage (tr : Traffic) (w : Wire cfg) : List Nat :=
  if w.base.core0.passed ∈ w.base.shared.recycled then []
  else pageEntries tr w.pk w.base.core0.passed

/-- The receive side, in step. -/
structure RxInv (tr : Traffic) (w : Wire cfg) : Prop where
  ledger : ↑w.pk.rxFree + ∑ ch : Fin tr.numChannels, (w.pk.chan ch).rxDescs
    + ↑(onPage tr w) = (↑tr.rxDesc : Multiset Nat)
  count : (w.pk.chan w.base.core0.passed).acc.taken = tr.numPackets →
    w.base.core0.passed ∉ w.base.shared.recycled →
    w.pk.page (tr.listAddress SYSINIT) 0 = tr.numPackets
  loop : ∀ i count index, w.pk.recycle i = some (count, index) →
    count = tr.numPackets ∧ index ≤ count
      ∧ ∃ c : Fin cfg.numCores, c.val = i
        ∧ (w.base.core c).isr = .recycleRx i

theorem pageEntries_empty {ch : Nat} (h : (p.chan ch).acc.taken = 0) :
    pageEntries tr p ch = [] := by
  simp only [pageEntries, h, Nat.zero_sub, List.range'_zero, List.map_nil]

theorem rxInv_init (cfg : Config) (tr : Traffic) :
    RxInv tr (initWire cfg tr) := by
  have hempty : ∀ ch : Fin tr.numChannels,
      ((initWire cfg tr).pk.chan ch).rxDescs = 0 := fun _ => rfl
  have hpage : onPage tr (initWire cfg tr) = [] := by
    unfold onPage
    split_ifs
    · rfl
    · exact pageEntries_empty rfl
  refine ⟨?_, fun h => ?_, fun _ _ _ h => nomatch h⟩
  · rw [hpage, Finset.sum_eq_zero fun ch _ => hempty ch, Multiset.coe_nil,
      add_zero, add_zero]
    rfl
  · exact absurd h (Nat.ne_of_lt tr.packets_pos)

/-- Steps that leave the receive descriptors where they are. -/
theorem RxInv.keep (hs : RxInv tr w)
    (hfree : w'.pk.rxFree = w.pk.rxFree)
    (hchan : ∀ ch, (w'.pk.chan ch).rxDescs = (w.pk.chan ch).rxDescs)
    (hpage : onPage tr w' = onPage tr w)
    (hcount : (w'.pk.chan w'.base.core0.passed).acc.taken = tr.numPackets →
      w'.base.core0.passed ∉ w'.base.shared.recycled →
      w'.pk.page (tr.listAddress SYSINIT) 0 = tr.numPackets)
    (hloop : ∀ i count index, w'.pk.recycle i = some (count, index) →
      w.pk.recycle i = some (count, index) ∧ ∀ c,
        (w.base.core c).isr = .recycleRx i →
        (w'.base.core c).isr = .recycleRx i) : RxInv tr w' := by
  refine ⟨?_, hcount, fun i count index h => ?_⟩
  · have hsum : ∑ ch : Fin tr.numChannels, (w'.pk.chan ch).rxDescs
        = ∑ ch : Fin tr.numChannels, (w.pk.chan ch).rxDescs :=
      Finset.sum_congr rfl fun ch _ => hchan ch
    rw [hfree, hsum, hpage]
    exact hs.ledger
  · obtain ⟨hold, hisr⟩ := hloop i count index h
    obtain ⟨hn, hle, c, hc, hpc⟩ := hs.loop i count index hold
    exact ⟨hn, hle, c, hc, hisr c hpc⟩

-- ================================================================= `main`

/-- `main` moves no receive descriptor, and writes a page only to clear
it. -/
theorem MainCall.rx_eq (h : MainCall tr n c ok x p p' r) :
    p'.rxFree = p.rxFree ∧ p'.recycle = p.recycle
      ∧ (∀ i, (p'.chan i).rxDescs = (p.chan i).rxDescs)
      ∧ (p'.page = p.page
        ∨ x.main = .send ∧ ∃ todo, p.send = .setup todo) := by
  cases h with
  | send hpc h =>
      cases h with
      | @call call todo hpc' =>
          refine ⟨(sendCall_free ..).2.2, ?_, ?_, .inr ⟨hpc, _, hpc'⟩⟩
          · cases call <;> rfl
          · exact sendCall_chan Chan.rxDescs (fun _ _ => rfl)
              (fun _ _ => ⟨rfl, rfl⟩) call p
      | push | last =>
          exact ⟨rfl, rfl, p.setChan_read Chan.rxDescs rfl, .inl rfl⟩
      | _ => exact ⟨rfl, rfl, fun _ => rfl, .inl rfl⟩
  | @close call todo =>
      cases ok with
      | true =>
          refine ⟨(cleanupCall_free ..).2.2, ?_, ?_, .inl ?_⟩
          · cases call <;> rfl
          · exact cleanupCall_chan Chan.rxDescs (fun _ _ => ⟨rfl, rfl⟩) call p
          · cases call <;> rfl
      | false => exact ⟨rfl, rfl, fun _ => rfl, .inl rfl⟩
  | _ => exact ⟨rfl, rfl, fun _ => rfl, .inl rfl⟩

/-- What a step of some `main` leaves alone, and when core 0 leaves a
sync wait. -/
theorem Commits.main {s s' : State cfg} {c : Fin cfg.numCores}
    (h : Commits s (.main c) r s') :
    s'.shared.recycled = s.shared.recycled
      ∧ (∀ d, (s'.core d).isr = (s.core d).isr)
      ∧ (s'.core0.passed = s.core0.passed
        ∨ c = cfg.core0 ∧ s.core0.main = .syncPop
          ∧ s'.core0.passed = s.core0.passed + 1) := by
  cases r with
  | none =>
      rw [show s' = s from h]
      exact ⟨rfl, fun _ => rfl, .inl rfl⟩
  | some ok =>
      have happ : apply (.main c ok) s = some s' := h
      refine ⟨?_, ?_, ?_⟩
      · obtain ⟨c, x, sh, rfl, hstep⟩ := apply_cases happ
        cases hstep with
        | main _ hm => exact hm.recycled_eq
      · obtain ⟨c, x, sh, rfl, hstep⟩ := apply_cases happ
        cases hstep with
        | main _ hm => exact s.put_read CoreState.isr _ hm.isr_eq.1
      · rcases apply_core0 happ with ⟨ok', hok', hm⟩ | ⟨-, hsame⟩
        · cases hok'
          unfold CoreState.passed
          rcases hm.took_cases with
            ⟨-, htook⟩ | ⟨hpc, _, -, htook⟩ | ⟨hpc, -, -, htook⟩
          · exact .inl (by rw [htook])
          · refine .inr ⟨rfl, hpc, ?_⟩
            rw [htook, List.length_append, List.length_singleton]
          · refine .inr ⟨rfl, hpc, ?_⟩
            rw [htook, List.length_append, List.length_singleton]
        · exact .inl (congrArg List.length hsame.2.2.2)

/-- A step of `main`. When core 0 leaves a sync wait the page of its
round is used up, and no packet of the next round is there yet. -/
theorem RxInv.main {c : Fin cfg.numCores} {s : State cfg}
    (hs : RxInv tr w) (hcalm : Calm tr w) (hcalm' : Calm tr ⟨s, p⟩)
    (hrole : RoleOk c (w.base.core c))
    (hcall : MainCall tr n c ok (w.base.core c) w.pk p r)
    (hcommit : Commits w.base (.main c) r s) : RxInv tr ⟨s, p⟩ := by
  obtain ⟨hrec, hisr, hpassed⟩ := hcommit.main
  obtain ⟨hfree, hrecycle, hchan, hpage⟩ := hcall.rx_eq
  have hloop : ∀ i count index, p.recycle i = some (count, index) →
      w.pk.recycle i = some (count, index) ∧ ∀ c,
        (w.base.core c).isr = .recycleRx i →
        (s.core c).isr = .recycleRx i := by
    intro i count index h
    exact ⟨hrecycle ▸ h, fun d hd => by rw [hisr d, hd]⟩
  have hempty : (w.base.core c).main = .send →
      (∃ todo, w.pk.send = .setup todo) →
      (w.pk.chan (w.base.core c).round).acc.taken = 0 := by
    intro hpc hsetup
    have hc : c = cfg.core0 := Fin.ext (hrole (by rw [hpc]; rfl))
    subst hc
    exact hcalm.load.setup_empty (hcalm.irq.main cfg.core0) hpc hsetup
  have htaken : ∀ i, (p.chan i).acc.taken = (w.pk.chan i).acc.taken :=
    hcall.taken_eq hempty
  rcases hpassed with hpassed | ⟨rfl, hpop, hpassed⟩
  · -- the round at hand stays
    have hentries : pageEntries tr p w.base.core0.passed
          = pageEntries tr w.pk w.base.core0.passed
        ∧ ((p.chan w.base.core0.passed).acc.taken = tr.numPackets →
          p.page (tr.listAddress SYSINIT) 0
            = w.pk.page (tr.listAddress SYSINIT) 0) := by
      rcases hpage with hsame | ⟨hpc, hsetup⟩
      · refine ⟨?_, fun _ => by rw [hsame]⟩
        simp only [pageEntries, Packets.index, htaken, hrecycle, hsame]
      · have hzero : (w.pk.chan w.base.core0.passed).acc.taken = 0 := by
          have hc : c = cfg.core0 := Fin.ext (hrole (by rw [hpc]; rfl))
          subst hc
          have hround := MainOk.round_of_send (hcalm.irq.main cfg.core0) hpc
          rw [show w.base.core0.passed = (w.base.core cfg.core0).round by
            rw [← hround.2.2, CoreState.sent, hpc]
            rfl]
          exact hempty hpc hsetup
        have hzero' := (htaken w.base.core0.passed).trans hzero
        refine ⟨?_, fun hfull => ?_⟩
        · rw [pageEntries_empty hzero, pageEntries_empty hzero']
        · have hpos := tr.packets_pos
          omega
    refine hs.keep hfree hchan ?_ (fun hfull hnot => ?_) hloop
    · simp only [onPage, hpassed, hrec, hentries.1]
    · simp only [hpassed, hrec] at hfull hnot ⊢
      rw [hentries.2 hfull]
      exact hs.count ((htaken _).symm.trans hfull) hnot
  · -- core 0 goes on to the next round
    have hsame : p = w.pk := by
      cases hcall with
      | plain => rfl
      | send hpc | divert hpc | close hpc | closed hpc =>
          rw [show (w.base.core cfg.core0).main = .syncPop from hpop] at hpc
          cases hpc
    subst hsame
    have hdone : w.base.core0.passed ∈ w.base.shared.recycled := by
      rw [← hrec]
      exact hcalm'.before _ (by rw [hpassed]; exact Nat.lt_succ_self _)
    have hnext : s.core0.passed ∈ s.shared.recycled
        ∨ (w.pk.chan s.core0.passed).acc.taken = 0 := by
      rw [hrec]
      refine (hcalm.other (by rw [hpassed]; exact Nat.succ_ne_self _)).imp_right
        fun hzero => ?_
      simp only [Chan.load] at hzero
      omega
    refine hs.keep rfl (fun _ => rfl) ?_ (fun hfull hnot => ?_) hloop
    · rw [onPage, onPage, if_pos hdone]
      split_ifs with hmem
      · rfl
      · exact pageEntries_empty (hnext.resolve_left hmem)
    · have hzero := hnext.resolve_left hnot
      have hpos := tr.packets_pos
      simp only [hzero] at hfull
      omega

-- =========================================================== the handler

/-- A taken interrupt starts a handler at its recycling loop. -/
theorem RxInv.irq {c : Fin cfg.numCores} {ch : Nat} {s : State cfg}
    (hs : RxInv tr w) (h : apply (.irq c) w.base = some s) :
    RxInv tr ⟨s, w.pk.setChan ch { w.pk.chan ch with raised := false }⟩ := by
  have hpassed : s.core0.passed = w.base.core0.passed := by
    rcases apply_core0 h with ⟨_, hne, -⟩ | ⟨-, hsame⟩
    · cases hne
    · exact congrArg List.length hsame.2.2.2
  obtain ⟨hidle, ch', rest, -, rfl⟩ := apply_irq h
  have htaken : ∀ i, ((w.pk.setChan ch
      { w.pk.chan ch with raised := false }).chan i).acc.taken
        = (w.pk.chan i).acc.taken :=
    w.pk.setChan_read (fun k => k.acc.taken) rfl
  refine hs.keep rfl (w.pk.setChan_read Chan.rxDescs rfl) ?_ ?_ ?_
  · simp only [onPage, hpassed, pageEntries, htaken]
    rfl
  · simp only [hpassed, htaken]
    exact hs.count
  · refine fun i count index hi => ⟨hi, fun d hd => ?_⟩
    have hne : d ≠ c := by
      rintro rfl
      rw [hidle] at hd
      cases hd
    rw [State.put_core, Function.update_of_ne hne]
    exact hd

/-- What a step of a handler leaves alone, and what it recycles. -/
theorem Commits.isr {s s' : State cfg} {c : Fin cfg.numCores}
    (h : Commits s (.isr c) (some ok) s') :
    s'.core0.passed = s.core0.passed
      ∧ (∀ d, d ≠ c → (s'.core d).isr = (s.core d).isr)
      ∧ (s'.shared.recycled = s.shared.recycled
          ∧ (∀ ch, (s.core c).isr ≠ .recycleRx ch)
        ∨ ∃ ch, (s.core c).isr = .recycleRx ch
          ∧ s'.shared.recycled = s.shared.recycled ++ [ch]) := by
  have happ : apply (.isr c ok) s = some s' := h
  refine ⟨?_, ?_⟩
  · rcases apply_core0 happ with ⟨_, hne, -⟩ | ⟨-, hsame⟩
    · cases hne
    · exact congrArg List.length hsame.2.2.2
  · obtain ⟨c, x, sh, rfl, hstep⟩ := apply_cases happ
    cases hstep with
    | isr hi =>
        refine ⟨fun d hd => ?_, hi.recycled_cases.2⟩
        rw [State.put_core, Function.update_of_ne hd]

/-- The next entry of the page. -/
theorem pageEntries_cons {ch : Nat}
    (h : p.index ch < (p.chan ch).acc.taken) :
    pageEntries tr p ch = p.page (tr.listAddress SYSINIT) (p.index ch + 1)
      :: (List.range' (p.index ch + 2)
        ((p.chan ch).acc.taken - (p.index ch + 1))).map
          (p.page (tr.listAddress SYSINIT)) := by
  have hlen : (p.chan ch).acc.taken - p.index ch
      = (p.chan ch).acc.taken - (p.index ch + 1) + 1 := by omega
  rw [pageEntries, hlen, List.range'_succ, List.map_cons]

/-- A handler past its recycling loop touches no receive descriptor. -/
theorem RxInv.pastLoop {c : Fin cfg.numCores} {s : State cfg}
    (hs : RxInv tr w) (hcommit : Commits w.base (.isr c) (some ok) s)
    (hpc : ∀ ch, (w.base.core c).isr ≠ .recycleRx ch)
    (hp : p.rxFree = w.pk.rxFree ∧ p.recycle = w.pk.recycle
      ∧ p.page = w.pk.page)
    (hchan : ∀ i, (p.chan i).rxDescs = (w.pk.chan i).rxDescs)
    (htaken : ∀ i, (p.chan i).acc.taken = (w.pk.chan i).acc.taken) :
    RxInv tr ⟨s, p⟩ := by
  obtain ⟨hpassed, hother, ⟨hrec, -⟩ | ⟨ch, h, -⟩⟩ := hcommit.isr
  · obtain ⟨hfree, hrecycle, hpage⟩ := hp
    refine hs.keep hfree hchan ?_ ?_ ?_
    · simp only [onPage, hpassed, hrec, pageEntries, Packets.index, htaken,
        hrecycle, hpage]
    · simp only [hpassed, hrec, htaken, hpage]
      exact hs.count
    · intro i count index hi
      refine ⟨hrecycle ▸ hi, fun d hd => ?_⟩
      have hne : d ≠ c := by
        rintro rfl
        exact hpc i hd
      rw [hother d hne, hd]
  · exact absurd h (hpc ch)

/-- A call of a handler: it counts the entries, takes one after the
other, and acknowledges when it has taken all. -/
theorem RxInv.isr {c : Fin cfg.numCores} {s : State cfg}
    (hs : RxInv tr w) (hcalm : Calm tr w) (hfour : cfg.numCores ≤ 4)
    (hcall : IsrCall tr c ok (w.base.core c) w.pk p r)
    (hcommit : Commits w.base (.isr c) r s) : RxInv tr ⟨s, p⟩ := by
  have haddr : tr.isrBuf c = tr.listAddress SYSINIT :=
    isrBuf_eq tr (Nat.lt_of_lt_of_le c.isLt (by omega))
  cases hcall with
  | count hpc hnone =>
      obtain ⟨rfl, hc, hnot, htaken⟩ := hcalm.serving hpc
      have hcount := hs.count (hc ▸ htaken) (hc ▸ hnot)
      have hbase : s = w.base := hcommit
      subst hbase
      rw [haddr, hcount]
      refine ⟨?_, hs.count, fun i count index h => ?_⟩
      · have hpage : onPage tr ⟨w.base, { w.pk with
            recycle := Function.update w.pk.recycle c
              (some (tr.numPackets, 0)) }⟩ = onPage tr w := by
          simp only [onPage, ← hc, pageEntries, Packets.index, hnone,
            Function.update_self]
          rfl
        rw [hpage]
        exact hs.ledger
      · simp only [Function.update_apply] at h
        split_ifs at h with hi
        · cases h
          exact ⟨rfl, Nat.zero_le _, c, hi.symm, hi ▸ hpc⟩
        · exact hs.loop i count index h
  | @recycle ch count index hpc hloop hlt =>
      obtain ⟨rfl, hc, hnot, htaken⟩ := hcalm.serving hpc
      obtain ⟨rfl, hle, -⟩ := hs.loop _ _ _ hloop
      have hbase : s = w.base := hcommit
      subst hbase
      rw [haddr]
      have hindex : w.pk.index c = index := by
        rw [Packets.index, hloop]
        rfl
      refine ⟨?_, hs.count, fun i count' index' h => ?_⟩
      · have hledger := hs.ledger
        rw [onPage, ← hc, if_neg hnot,
          pageEntries_cons (by rw [hindex, htaken]; exact hlt),
          ← Multiset.cons_coe, ← Multiset.singleton_add, hindex] at hledger
        rw [onPage]
        simp only [← hc]
        rw [if_neg hnot, ← hledger, ← Multiset.coe_add,
          Multiset.coe_singleton]
        simp only [pageEntries, Packets.index, Function.update_self,
          Option.elim]
        abel
      · simp only [Function.update_apply] at h
        split_ifs at h with hi
        · cases h
          exact ⟨rfl, hlt, c, hi.symm, hi ▸ hpc⟩
        · exact hs.loop i count' index' h
  | @recycled ch count index hpc hloop hge =>
      obtain ⟨rfl, hc, hnot, htaken⟩ := hcalm.serving hpc
      obtain ⟨rfl, hle, -⟩ := hs.loop _ _ _ hloop
      obtain ⟨hpassed, hother, ⟨-, h⟩ | ⟨ch, h, hrec⟩⟩ := hcommit.isr
      · exact absurd hpc (h _)
      · rw [hpc] at h
        cases h
        have hindex : w.pk.index c = index := by
          rw [Packets.index, hloop]
          rfl
        have hdone : s.core0.passed ∈ s.shared.recycled := by
          rw [hpassed, hrec, ← hc]
          exact List.mem_append_right _ (List.mem_singleton_self _)
        have hall : onPage tr w = [] := by
          rw [onPage, ← hc, if_neg hnot, pageEntries, hindex, htaken,
            Nat.sub_eq_zero_of_le hge]
          rfl
        refine ⟨?_, fun _ hnot' => absurd hdone hnot',
          fun i count' index' h => ?_⟩
        · have hledger := hs.ledger
          rw [hall] at hledger
          rw [onPage, if_pos hdone]
          exact hledger
        · simp only [Function.update_apply] at h
          split_ifs at h with hi
          obtain ⟨hn, hle', d, hd, hdpc⟩ := hs.loop i count' index' h
          refine ⟨hn, hle', d, hd, ?_⟩
          rw [hother d fun heq => hi (by rw [← hd, heq]), hdpc]
  | @disable ch hpc hok =>
      refine hs.pastLoop hcommit (fun ch' h => ?_) ⟨rfl, rfl, rfl⟩
        (w.pk.setChan_read Chan.rxDescs rfl)
        (w.pk.setChan_read (fun k => k.acc.taken) rfl)
      rw [hpc] at h
      cases h
  | plain hpc =>
      exact hs.pastLoop hcommit hpc ⟨rfl, rfl, rfl⟩ (fun _ => rfl)
        fun _ => rfl

-- ========================================================== the hardware

/-- A channel with packets in front of its page is the one at hand, and
its handler does not run. -/
theorem Calm.filling (hs : Calm tr w) {ch : Nat}
    (hque : (w.pk.chan ch).rxQue ≠ []) :
    ch = w.base.core0.passed ∧ ch ∉ w.base.shared.recycled
      ∧ ∀ c : Fin cfg.numCores, c.val = ch →
        (w.base.core c).isr ≠ .recycleRx ch := by
  have hnot : ch ∉ w.base.shared.recycled :=
    fun h => hque (hs.recycled_arrived h).rxQue
  refine ⟨?_, hnot, fun c hc hpc => ?_⟩
  · by_contra hne
    have hzero := (hs.other hne).resolve_left hnot
    have hpos := List.length_pos_iff.mpr hque
    simp only [Chan.load] at hzero
    omega
  · have harrived := hs.arrived (handlers_of_running (by rw [hpc]; simp))
    exact hque (hc ▸ harrived.rxQue)

/-- One more entry on the page of the round at hand. -/
theorem pageEntries_concat {ch e : Nat} (hindex : p.index ch = 0)
    (hindex' : p'.index ch = 0)
    (htaken : (p'.chan ch).acc.taken = (p.chan ch).acc.taken + 1)
    (hpage : ∀ i, 0 < i → p'.page (tr.listAddress SYSINIT) i
      = if i = (p.chan ch).acc.taken + 1 then e
        else p.page (tr.listAddress SYSINIT) i) :
    pageEntries tr p' ch = pageEntries tr p ch ++ [e] := by
  simp only [pageEntries, hindex, hindex', htaken, Nat.sub_zero,
    Nat.zero_add]
  rw [List.range'_concat, List.map_append, List.map_singleton, Nat.one_mul]
  congr 1
  · refine List.map_congr_left fun i hi => ?_
    obtain ⟨hge, hlt⟩ := List.mem_range'_1.mp hi
    rw [hpage i (by omega), if_neg (by omega)]
  · rw [hpage _ (by omega), if_pos (by omega)]

/-- The handler of a core that is not in its recycling loop has no
count. -/
theorem RxInv.recycle_none (hs : RxInv tr w) {ch : Nat}
    (hrun : ∀ c : Fin cfg.numCores, c.val = ch →
      (w.base.core c).isr ≠ .recycleRx ch) : w.pk.recycle ch = none := by
  cases hloop : w.pk.recycle ch with
  | none => rfl
  | some ci =>
      obtain ⟨-, -, c, hc, hpc⟩ := hs.loop ch ci.1 ci.2 hloop
      exact absurd hpc (hrun c hc)

/-- The accumulator moves a descriptor from the receive queue to the
page. -/
theorem RxInv.take {ch : Fin tr.numChannels} {e : Nat} {rest : List Nat}
    {k : Chan} (hs : RxInv tr w) (hcalm : Calm tr w)
    (hque : (w.pk.chan ch).rxQue = e :: rest)
    (hp : p.rxFree = w.pk.rxFree ∧ p.recycle = w.pk.recycle)
    (hchan : p.chan = Function.update w.pk.chan ch k)
    (hk : k.rxQue = rest ∧ k.rxDma = (w.pk.chan ch).rxDma
      ∧ k.acc.taken = (w.pk.chan ch).acc.taken + 1)
    (hpage : ∀ i, 0 < i → p.page (tr.listAddress SYSINIT) i
      = if i = (w.pk.chan ch).acc.taken + 1 then e
        else w.pk.page (tr.listAddress SYSINIT) i)
    (hcount : k.acc.taken = tr.numPackets →
      p.page (tr.listAddress SYSINIT) 0 = tr.numPackets) :
    RxInv tr ⟨w.base, p⟩ := by
  have hfront : (w.pk.chan ch).rxQue ≠ [] := by
    rw [hque]
    exact List.cons_ne_nil e rest
  obtain ⟨hch, hnot, hrun⟩ := hcalm.filling hfront
  have hself : p.chan ch = k := by rw [hchan, Function.update_self]
  have hnone := hs.recycle_none hrun
  have hindex : w.pk.index ch = 0 := by
    rw [Packets.index, hnone]
    rfl
  have hentries : pageEntries tr p ch = pageEntries tr w.pk ch ++ [e] := by
    refine pageEntries_concat hindex ?_ (by rw [hself, hk.2.2]) hpage
    rw [Packets.index, hp.2, hnone]
    rfl
  refine ⟨?_, fun hfull _ => ?_, ?_⟩
  · have hmove : ∑ i : Fin tr.numChannels, (p.chan i).rxDescs + {e}
        = ∑ i : Fin tr.numChannels, (w.pk.chan i).rxDescs + 0 := by
      rw [hchan]
      refine sum_fin_move Chan.rxDescs w.pk.chan ch.isLt ?_
      simp only [Chan.rxDescs, hque, hk.1, hk.2.1, ← Multiset.cons_coe,
        ← Multiset.singleton_add]
      abel
    have hledger := hs.ledger
    rw [add_zero] at hmove
    rw [onPage, ← hch, if_neg hnot] at hledger
    rw [onPage]
    simp only [← hch]
    rw [if_neg hnot, hp.1, hentries, ← hledger, ← hmove, ← Multiset.coe_add,
      Multiset.coe_singleton]
    abel
  · simp only [← hch, hself] at hfull
    exact hcount hfull
  · simp only [hp.2]
    exact hs.loop

/-- A move of the hardware. -/
theorem RxInv.hardware {ch : Fin tr.numChannels} (hs : RxInv tr w)
    (hcalm : Calm tr w) (h : Hardware ch w.pk p) :
    RxInv tr ⟨w.base, p⟩ := by
  have hkeep : p.rxFree = w.pk.rxFree → p.recycle = w.pk.recycle →
      p.page = w.pk.page →
      (∀ i, (p.chan i).rxDescs = (w.pk.chan i).rxDescs) →
      (∀ i, (p.chan i).acc.taken = (w.pk.chan i).acc.taken) →
      RxInv tr ⟨w.base, p⟩ := by
    intro hfree hrecycle hpage hdescs htaken
    refine hs.keep hfree hdescs ?_ ?_ fun i count index hi => ?_
    · simp only [onPage, pageEntries, Packets.index, htaken, hrecycle, hpage]
    · simp only [htaken, hpage]
      exact hs.count
    · exact ⟨hrecycle ▸ hi, fun _ hd => hd⟩
  cases h with
  | sent | returned =>
      exact hkeep rfl rfl rfl (w.pk.setChan_read Chan.rxDescs rfl)
        (w.pk.setChan_read (fun k => k.acc.taken) rfl)
  | @received tag dest e rest free hdma hstream hflow hfree hon =>
      have htaken : ∀ i, ((w.pk.setChan ch { w.pk.chan ch with
          stream := rest, rxDma := some (e, dest) }).chan i).acc.taken
            = (w.pk.chan i).acc.taken :=
        w.pk.setChan_read (fun k => k.acc.taken) rfl
      refine ⟨?_, ?_, hs.loop⟩
      · have hmove : ∑ i : Fin tr.numChannels, ((w.pk.setChan ch
              { w.pk.chan ch with
                stream := rest, rxDma := some (e, dest) }).chan i).rxDescs
              + 0
            = ∑ i : Fin tr.numChannels, (w.pk.chan i).rxDescs + {e} := by
          refine sum_fin_move Chan.rxDescs w.pk.chan ch.isLt ?_
          simp only [Chan.rxDescs, hdma, Option.toList_some,
            Option.toList_none, List.map_cons, List.map_nil,
            Multiset.coe_nil, Multiset.coe_singleton]
          abel
        have hledger := hs.ledger
        rw [hfree, ← Multiset.cons_coe, ← Multiset.singleton_add] at hledger
        rw [add_zero] at hmove
        have hpage : onPage tr ⟨w.base, { (w.pk.setChan ch
            { w.pk.chan ch with stream := rest, rxDma := some (e, dest) })
              with rxFree := free }⟩ = onPage tr w := by
          simp only [onPage, pageEntries, htaken]
          rfl
        rw [hpage]
        simp only
        rw [hmove, ← hledger]
        abel
      · simp only [htaken]
        exact hs.count
  | @delivered e dest hdma =>
      rw [hcalm.route.delivered hdma] at hkeep ⊢
      refine hkeep rfl rfl rfl (w.pk.setChan_read Chan.rxDescs ?_)
        (w.pk.setChan_read (fun k => k.acc.taken) rfl)
      simp only [Chan.rxDescs, hdma, Option.toList_some, Option.toList_none,
        List.map_cons, List.map_nil, Multiset.coe_nil,
        Multiset.coe_singleton, ← Multiset.coe_add]
      abel
  | @accumulated e rest hque hon hroom =>
      obtain ⟨hmax, haddr⟩ := hcalm.acc.page ch hon
      refine hs.take hcalm hque ⟨rfl, rfl⟩ rfl ⟨rfl, rfl, rfl⟩ ?_ ?_
      · exact fun i _ => Packets.accumulated_page haddr i
      · intro hfull
        simp only at hfull
        omega
  | @filled e rest hque hon hfull =>
      obtain ⟨hmax, haddr⟩ := hcalm.acc.page ch hon
      refine hs.take hcalm hque ⟨rfl, rfl⟩ rfl ⟨rfl, rfl, rfl⟩ ?_ ?_
      · intro i hi
        rw [haddr, Packets.write_page_pos hi]
        exact Packets.accumulated_page haddr i
      · intro _
        simp only [Packets.write, haddr, Function.update_self]
        omega

theorem rxInv_reachable (hone : cfg.OnePass) (hfour : cfg.numCores ≤ 4)
    (h : WireReachable cfg tr (Lifted InStep) w) : RxInv tr w := by
  refine h.invariant' (I := RxInv tr) (rxInv_init cfg tr) ?_
  intro w a w' hr hs hok hstep
  have hcalm := calm_reachable hone hfour hr
  have hcalm' := calm_reachable hone hfour (.step a hr hok hstep)
  have hrole := roleOk_reachable (wire_base hr)
  cases wireStep_cases hstep with
  | @main c _ _ _ _ _ hcall hcommit =>
      exact hs.main hcalm hcalm' (hrole c) hcall hcommit
  | irq _ _ happ => exact hs.irq happ
  | isr hcall hcommit => exact hs.isr hcalm hfour hcall hcommit
  | hardware _ hhw => exact hs.hardware hcalm hhw

-- ============================================================ the result

/-- A round's packets are few enough for the receive descriptors. -/
def EnoughRx (tr : Traffic) : Prop := tr.numPackets ≤ tr.half

/-- What the packets owe the handlers, and the descriptors the queues. -/
structure RxDelivered (tr : Traffic) (w : Wire cfg) : Prop where
  conserved : ↑w.pk.rxFree
    + ∑ ch : Fin tr.numChannels, (w.pk.chan ch).rxDescs + ↑(onPage tr w)
      = (↑tr.rxDesc : Multiset Nat)
  counted : ∀ c count index, w.pk.recycle c = some (count, index) →
    count = tr.numPackets ∧ index ≤ count
  own : ∀ (c : Fin cfg.numCores) ch, (w.base.core c).isr = .recycleRx ch →
    onPage tr w = pageEntries tr w.pk c ∧ Arrived tr (w.pk.chan c)
  fed : ∀ ch : Fin tr.numChannels, (w.pk.chan ch).stream ≠ [] →
    w.pk.rxFree ≠ []
  home : w.base.core0.main.leftRounds = true →
    (↑w.pk.rxFree : Multiset Nat) = ↑tr.rxDesc

/-- An empty channel holds no descriptor. -/
theorem Chan.rxDescs_empty {k : Chan} (h : k.load = 0) : k.rxDescs = 0 := by
  simp only [Chan.load] at h
  have hque : k.rxQue = [] := List.length_eq_zero_iff.mp (by omega)
  have hdma : k.rxDma.toList = [] := List.length_eq_zero_iff.mp (by omega)
  rw [Chan.rxDescs, hque, hdma]
  rfl

/-- Only the channel at hand holds receive descriptors. -/
theorem Calm.rxDescs_other (hs : Calm tr w) {ch : Nat}
    (hch : ch ≠ w.base.core0.passed) : (w.pk.chan ch).rxDescs = 0 := by
  rcases hs.other hch with hrec | hzero
  · have harrived := hs.recycled_arrived hrec
    rw [Chan.rxDescs, harrived.rxQue, harrived.rxDma]
    rfl
  · exact Chan.rxDescs_empty hzero

/-- The descriptors in the channels are those of the channel at hand. -/
theorem Calm.sum_rxDescs_le (hs : Calm tr w) :
    Multiset.card (∑ ch : Fin tr.numChannels, (w.pk.chan ch).rxDescs)
      ≤ Multiset.card (w.pk.chan w.base.core0.passed).rxDescs := by
  by_cases hlt : w.base.core0.passed < tr.numChannels
  · rw [Finset.sum_eq_single (⟨w.base.core0.passed, hlt⟩ :
      Fin tr.numChannels)]
    · intro ch _ hne
      exact hs.rxDescs_other fun h => hne (Fin.ext h)
    · exact fun h => absurd (Finset.mem_univ _) h
  · rw [Finset.sum_eq_zero fun ch _ => hs.rxDescs_other fun h =>
      hlt (h ▸ ch.isLt)]
    exact Nat.zero_le _

/-- A channel with packets on their way is the one at hand. -/
theorem Calm.streaming (hs : Calm tr w) {ch : Nat}
    (hstream : (w.pk.chan ch).stream ≠ []) : ch = w.base.core0.passed := by
  by_contra hne
  rcases hs.other hne with hrec | hzero
  · exact hstream (hs.recycled_arrived hrec).stream
  · have hpos := List.length_pos_iff.mpr hstream
    simp only [Chan.load] at hzero
    omega

theorem onPage_length_le (tr : Traffic) (w : Wire cfg) :
    (onPage tr w).length
      ≤ (w.pk.chan w.base.core0.passed).acc.taken := by
  unfold onPage
  split_ifs
  · exact Nat.zero_le _
  · rw [pageEntries, List.length_map, List.length_range']
    exact Nat.sub_le ..

/-- When core 0 has left its rounds the channel at hand is empty. -/
theorem Calm.load_left (hs : Calm tr w)
    (hleft : w.base.core0.main.leftRounds = true) :
    (w.pk.chan w.base.core0.passed).load = 0 := by
  have hmain : w.base.core0.main ≠ .returned ∧ w.base.core0.main ≠ .send
      ∧ w.base.core0.sent = w.base.core0.passed := by
    unfold CoreState.sent CoreState.passed
    revert hleft
    cases w.base.core0.main <;> simp [MainPc.leftRounds]
  have hnext := hs.load.next hmain.1
  rw [hs.send.idle hmain.2.1, hmain.2.2] at hnext
  exact hnext

/-- The DMA never waits for a receive descriptor. -/
theorem RxInv.fed (hs : RxInv tr w) (hcalm : Calm tr w) (hrx : EnoughRx tr)
    {ch : Nat} (hstream : (w.pk.chan ch).stream ≠ []) : w.pk.rxFree ≠ [] := by
  intro hnil
  have hch := hcalm.streaming hstream
  have hcard := congrArg Multiset.card hs.ledger
  have hsum := hcalm.sum_rxDescs_le
  have hpage := onPage_length_le tr w
  have hload := hcalm.load.load_le ch
  have hpos := List.length_pos_iff.mpr hstream
  have henough : tr.numPackets ≤ tr.half := hrx
  rw [hnil] at hcard
  simp only [Chan.rxDescs, Chan.load, Multiset.card_add, Multiset.coe_card,
    List.length_map, List.length_nil, Traffic.rxDesc, List.length_range',
    ← hch] at hcard hsum hpage hload
  omega

/-- When core 0 has left its rounds the receive descriptors are home. -/
theorem RxInv.home (hs : RxInv tr w) (hcalm : Calm tr w)
    (hleft : w.base.core0.main.leftRounds = true) :
    (↑w.pk.rxFree : Multiset Nat) = ↑tr.rxDesc := by
  have hzero := hcalm.load_left hleft
  have hempty : ∀ ch : Fin tr.numChannels,
      (w.pk.chan ch).rxDescs = 0 := by
    intro ch
    by_cases hch : ch.val = w.base.core0.passed
    · rw [hch]
      exact Chan.rxDescs_empty hzero
    · exact hcalm.rxDescs_other hch
  have hpage : onPage tr w = [] := by
    have hlen := onPage_length_le tr w
    simp only [Chan.load] at hzero
    exact List.length_eq_zero_iff.mp (by omega)
  have hledger := hs.ledger
  rw [Finset.sum_eq_zero fun ch _ => hempty ch, hpage, Multiset.coe_nil,
    add_zero, add_zero] at hledger
  exact hledger

/-- In every run that is in step, whatever the drivers return: a handler
counts `NUM_PACKETS` entries on its page, those of its own round; no
receive descriptor is lost, and all are back in the free queue when core
0 leaves its rounds; and the DMA never waits for one. -/
theorem rx_delivered (hone : cfg.OnePass) (hfour : cfg.numCores ≤ 4)
    (hrx : EnoughRx tr) (h : WireReachable cfg tr (Lifted InStep) w) :
    RxDelivered tr w := by
  have hs := rxInv_reachable hone hfour h
  have hcalm := calm_reachable hone hfour h
  refine ⟨hs.ledger, fun c count index hi => ?_, fun c ch hpc => ?_,
    fun ch hstream => hs.fed hcalm hrx hstream, hs.home hcalm⟩
  · obtain ⟨hcount, hle, -⟩ := hs.loop c count index hi
    exact ⟨hcount, hle⟩
  · obtain ⟨-, hc, hnot, -⟩ := hcalm.serving hpc
    refine ⟨?_, hcalm.arrived (handlers_of_running (by rw [hpc]; simp))⟩
    rw [onPage, ← hc, if_neg hnot]

/-- On the board, with the handler of round 0 between two entries. -/
theorem rx_delivered_board :
    ∃ w : Wire board, WireReachable board boardTraffic (Lifted InStep) w
      ∧ w.pk.recycle 0 = some (8, 3) ∧ RxDelivered boardTraffic w := by
  obtain ⟨w, hw, hloop⟩ : ∃ w,
      WireReachable board boardTraffic (Lifted InStep) w
        ∧ w.pk.recycle 0 = some (8, 3) :=
    exists_reach_of_runOk (wireBoot ++ wireSend ++ wireRound 0 ++ wireIrq 0 4)
      (by decide +kernel)
  have hone : board.OnePass := rfl
  have hfour : board.numCores ≤ 4 := by decide
  have hrx : EnoughRx boardTraffic := by
    unfold EnoughRx
    decide
  exact ⟨w, hw, hloop, rx_delivered hone hfour hrx hw⟩

/-- Out of step, with every call succeeding: core 0 leaves round 1 with a
descriptor of round 0 and clears the page of round 1 for round 2. The
handler of round 1 then counts no packet, and its eight receive descriptors
are on no queue any more. -/
theorem rx_clobbered :
    ∃ w : Wire board, WireReachable board boardTraffic anyStep w
      ∧ w.pk.recycle 1 = some (0, 0)
      ∧ (w.pk.chan 1).acc.taken = 8 ∧ w.pk.rxFree.length = 24 :=
  exists_reach_of_runOk
    (wireBoot ++ wireSend ++ wireRound 0 ++ wireServe 0 ++ wireLeave
      ++ wireSend ++ wireRound 1 ++ wireLeave ++ wireMain 0 5 ++ wireIrq 1 1)
    (by decide +kernel)

end DspCodes.Infra

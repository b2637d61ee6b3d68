/-
The accumulator channel of a core: `registerHiInterrupt` encodes it in
the event it binds the handler to, `hiPrioInterruptHandler` decodes it
from the event and the core number.

# What goes wrong

The code goes through an `Int16`. A queue that lies 2^16 or more above
the base, with bit 15 of the distance clear and the right remainder, is
registered under the low 16 bits, and the handler serves another channel
(`channelAgrees_iff`). A queue below the base is refused for its sign
bit only; what is refused depends on where the base is.

For the queues `main` registers the two agree (`channelAgrees_main`).
-/
import DspCodes.Infra.Intc

namespace DspCodes.Infra

variable {base coreNum qNum : BitVec 32}

/-- `channel = (eventId - 48) * 4 + coreNum` of `hiPrioInterruptHandler`,
in `UInt32`. -/
def hiPrioChannel (eventId coreNum : BitVec 32) : BitVec 32 :=
  (eventId - 48#32) * 4#32 + coreNum

/-- What the registration and the handler owe each other, whatever the
drivers return: the handler serves the channel that was registered, and a
queue below the base is rejected. The event id is an `Int16` that the
handler gets as a `UInt32`. -/
structure ChannelAgrees (base coreNum qNum : BitVec 32) : Prop where
  served : ∀ intcOk openOk event,
    registerHiInterrupt base intcOk openOk coreNum qNum = some event →
    hiPrioChannel (event.signExtend 32) coreNum = qNum - base
  rejected : qNum.toNat < base.toNat → ∀ intcOk openOk,
    registerHiInterrupt base intcOk openOk coreNum qNum = none

/-- The 16 bits that `registerHiInterrupt` keeps of the channel. -/
def channel16 (base qNum : BitVec 32) : BitVec 16 :=
  (qNum - base).setWidth 16

/-- The queue passes the checks of the core. -/
def PassesChecks (base coreNum qNum : BitVec 32) : Prop :=
  (channel16 base qNum).toNat < 2 ^ 15
    ∧ coreNum.toNat = (channel16 base qNum).toNat % 4

theorem toNat_channel16 (base qNum : BitVec 32) :
    (channel16 base qNum).toNat = (qNum - base).toNat % 2 ^ 16 :=
  BitVec.toNat_setWidth ..

/-- The event of a channel, as the handler gets it. -/
theorem toNat_event {channel : Nat} (h : channel < 2 ^ 15) :
    ((BitVec.ofNat 16 (channel / 4 + 48)).signExtend 32).toNat
      = channel / 4 + 48 := by
  have hnat : (BitVec.ofNat 16 (channel / 4 + 48)).toNat
      = channel / 4 + 48 := by
    rw [BitVec.toNat_ofNat]
    omega
  have hmsb : (BitVec.ofNat 16 (channel / 4 + 48)).msb = false := by
    rw [BitVec.msb_eq_false_iff_two_mul_lt, hnat]
    omega
  rw [BitVec.signExtend_eq_setWidth_of_msb_false hmsb,
    BitVec.toNat_setWidth, hnat]
  omega

/-- The handler gets back the 16 bits. -/
theorem hiPrioChannel_event {channel : Nat} (h : channel < 2 ^ 15)
    (hcore : coreNum.toNat = channel % 4) :
    (hiPrioChannel ((BitVec.ofNat 16 (channel / 4 + 48)).signExtend 32)
      coreNum).toNat = channel := by
  have hevent := toNat_event h
  unfold hiPrioChannel
  generalize (BitVec.ofNat 16 (channel / 4 + 48)).signExtend 32 = event
    at hevent
  bv_omega

/-- When a queue passes the checks, the two agree exactly if it lies less
than 2^16 above the base. -/
theorem PassesChecks.agrees_iff (h : PassesChecks base coreNum qNum) :
    ChannelAgrees base coreNum qNum
      ↔ base.toNat ≤ qNum.toNat ∧ (qNum - base).toNat < 2 ^ 16 := by
  obtain ⟨hsmall, hcore⟩ := h
  have hchannel := toNat_channel16 base qNum
  have hreg : registerHiInterrupt base true true coreNum qNum
      = some (BitVec.ofNat 16 ((channel16 base qNum).toNat / 4 + 48)) :=
    registerHiInterrupt_eq_some_iff.mpr ⟨⟨rfl, rfl⟩, hsmall, hcore, rfl⟩
  have hserved := hiPrioChannel_event hsmall hcore
  constructor
  · intro hagree
    refine ⟨Nat.le_of_not_lt fun hlt => ?_, ?_⟩
    · rw [hagree.rejected hlt] at hreg
      cases hreg
    · rw [← hagree.served _ _ _ hreg, hserved]
      exact BitVec.isLt _
  · rintro ⟨hle, hlt⟩
    refine ⟨fun intcOk openOk event hsome => ?_, fun hbelow => ?_⟩
    · obtain ⟨-, -, -, rfl⟩ := registerHiInterrupt_eq_some_iff.mp hsome
      refine BitVec.eq_of_toNat_eq (hserved.trans ?_)
      rw [hchannel, Nat.mod_eq_of_lt hlt]
    · exact absurd hbelow (Nat.not_lt_of_le hle)

/-- Registration and handler agree exactly when the queue fails the checks,
or lies above the base by less than 2^16. -/
theorem channelAgrees_iff (base coreNum qNum : BitVec 32) :
    ChannelAgrees base coreNum qNum
      ↔ ¬ PassesChecks base coreNum qNum
        ∨ base.toNat ≤ qNum.toNat ∧ (qNum - base).toNat < 2 ^ 16 := by
  by_cases hpass : PassesChecks base coreNum qNum
  · rw [hpass.agrees_iff]
    exact ⟨.inr, fun h => h.resolve_left (not_not_intro hpass)⟩
  · refine ⟨fun _ => .inl hpass, fun _ => ?_⟩
    have hnone : ∀ intcOk openOk event,
        registerHiInterrupt base intcOk openOk coreNum qNum ≠ some event := by
      intro intcOk openOk event hsome
      obtain ⟨-, hsmall, hcore, -⟩ := registerHiInterrupt_eq_some_iff.mp hsome
      exact hpass ⟨hsmall, hcore⟩
    exact ⟨fun i o e h => absurd h (hnone i o e),
      fun _ i o => Option.eq_none_iff_forall_ne_some.mpr (hnone i o)⟩

/-- Core 0 registers the queue 65536 above the base 704, and its handler
serves channel 0. -/
theorem channel_truncated :
    registerHiInterrupt 704#32 true true 0#32 (704#32 + 65536#32)
        = some 48#16
      ∧ hiPrioChannel ((48#16).signExtend 32) 0#32 = 0#32
      ∧ ¬ ChannelAgrees 704#32 0#32 (704#32 + 65536#32) := by
  have hreg : registerHiInterrupt 704#32 true true 0#32 (704#32 + 65536#32)
      = some 48#16 := by decide
  refine ⟨hreg, by decide, fun hagree => ?_⟩
  exact absurd (hagree.served _ _ _ hreg) (by decide)

/-- The queues `main` registers, `channel + coreNum` above the base, are
served by their own handler as long as that stays below 2^15. -/
theorem channelAgrees_main (base : BitVec 32) {channel c : Nat}
    (h : channel + c < 2 ^ 15) {intcOk openOk : Bool} {event : BitVec 16}
    (hreg : registerHiInterrupt base intcOk openOk (BitVec.ofNat 32 c)
      (base + BitVec.ofNat 32 channel + BitVec.ofNat 32 c) = some event) :
    hiPrioChannel (event.signExtend 32) (BitVec.ofNat 32 c)
      = BitVec.ofNat 32 (channel + c) := by
  obtain ⟨-, hrem, rfl⟩ := (registerHiInterrupt_main_iff base h).mp hreg
  have hcore : (BitVec.ofNat 32 c).toNat = (channel + c) % 4 := by
    rw [BitVec.toNat_ofNat]
    omega
  refine BitVec.eq_of_toNat_eq ((hiPrioChannel_event h hcore).trans ?_)
  rw [BitVec.toNat_ofNat]
  omega

end DspCodes.Infra

/-
`registerHiInterrupt` of infrastructure_multicoremode.c: the checks a
core's accumulator channel has to pass before the core binds its
handler to an event.

The arithmetic is the source's: `channel` and `eventId` are `Int16`, the
queue number is unsigned 32-bit, and `coreNum != (channel % 4)` compares
the signed remainder with the unsigned core number. The `4` is written
out in the source and is NOT `NUMBER_OF_CORES`: on a build with more than
four cores the fifth core can never register (`registerHiInterrupt_lt`
asks for a core below four).

`QMSS_HIGH_PRIORITY_QUEUE_BASE` comes from the QMSS driver, outside the
repository; it is the parameter `base`.
-/
import Mathlib.Data.BitVec

namespace DspCodes.Infra

/-- `registerHiInterrupt (coreNum, qNum)`: `none` for the `-1` returns,
else the event id `hiPrioInterruptHandler` is bound to. `intcOk` and
`openOk` are the results of `intcInit` and `CSL_intcOpen`. -/
def registerHiInterrupt (base : BitVec 32) (intcOk openOk : Bool)
    (coreNum qNum : BitVec 32) : Option (BitVec 16) :=
  if !intcOk then none
  else
    let channel : BitVec 16 := (qNum - base).setWidth 16
    if channel.toInt < 0 then none
    else if coreNum ≠ BitVec.ofInt 32 (channel.toInt.tmod 4) then none
    else if !openOk then none
    else some (BitVec.ofInt 16 (channel.toInt.tdiv 4 + 48))

section Channel

variable {channel : BitVec 16}

theorem channel_neg_iff : channel.toInt < 0 ↔ ¬ channel.toNat < 2 ^ 15 := by
  have hlt := channel.isLt
  rw [BitVec.toInt_eq_toNat_cond]
  split_ifs <;> omega

/-- On a channel that is not negative the signed remainder and quotient are
the unsigned ones. -/
theorem channel_rem (h : channel.toNat < 2 ^ 15) :
    BitVec.ofInt 32 (channel.toInt.tmod 4)
      = BitVec.ofNat 32 (channel.toNat % 4) := by
  rw [BitVec.toInt_eq_toNat_of_lt (by omega),
    Int.tmod_eq_emod_of_nonneg (Int.natCast_nonneg _)]
  exact BitVec.ofInt_natCast 32 (channel.toNat % 4)

theorem channel_event (h : channel.toNat < 2 ^ 15) :
    BitVec.ofInt 16 (channel.toInt.tdiv 4 + 48)
      = BitVec.ofNat 16 (channel.toNat / 4 + 48) := by
  rw [BitVec.toInt_eq_toNat_of_lt (by omega),
    Int.tdiv_eq_ediv_of_nonneg (Int.natCast_nonneg _)]
  exact BitVec.ofInt_natCast 16 (channel.toNat / 4 + 48)

theorem eq_ofNat_rem_iff {coreNum : BitVec 32} {n : Nat} :
    coreNum = BitVec.ofNat 32 (n % 4) ↔ coreNum.toNat = n % 4 := by
  have hrem : n % 4 % 2 ^ 32 = n % 4 := by omega
  rw [← BitVec.toNat_inj, BitVec.toNat_ofNat, hrem]

end Channel

/-- What it takes to be registered, on the 16 bits of the channel. -/
theorem registerHiInterrupt_eq_some_iff {base coreNum qNum : BitVec 32}
    {intcOk openOk : Bool} {event : BitVec 16} :
    registerHiInterrupt base intcOk openOk coreNum qNum = some event
      ↔ (intcOk = true ∧ openOk = true)
        ∧ ((qNum - base).setWidth 16).toNat < 2 ^ 15
        ∧ coreNum.toNat = ((qNum - base).setWidth 16).toNat % 4
        ∧ event = BitVec.ofNat 16
            (((qNum - base).setWidth 16).toNat / 4 + 48) := by
  unfold registerHiInterrupt
  generalize (qNum - base).setWidth 16 = channel
  by_cases hsmall : channel.toNat < 2 ^ 15
  · have hneg : ¬ channel.toInt < 0 := fun h => channel_neg_iff.mp h hsmall
    simp only [hneg, if_false, channel_rem hsmall, channel_event hsmall,
      ne_eq, eq_ofNat_rem_iff, hsmall, true_and]
    by_cases hcore : coreNum.toNat = channel.toNat % 4
    · cases intcOk <;> cases openOk <;> simp [hcore, eq_comm]
    · cases intcOk <;> simp [hcore]
  · have hneg : channel.toInt < 0 := channel_neg_iff.mpr hsmall
    simp only [hneg, if_true, hsmall, false_and, and_false, iff_false]
    cases intcOk <;> simp

/-- `registerHiInterrupt` refuses every core from 4 on. -/
theorem registerHiInterrupt_ge (base : BitVec 32) {coreNum : BitVec 32}
    (intcOk openOk : Bool) (qNum : BitVec 32) (h : 4 ≤ coreNum.toNat) :
    registerHiInterrupt base intcOk openOk coreNum qNum = none := by
  rw [Option.eq_none_iff_forall_ne_some]
  intro event hevent
  obtain ⟨-, -, hcore, -⟩ := registerHiInterrupt_eq_some_iff.mp hevent
  omega

/-- The queue number `main` registers lies `channel + coreNum` above the
base, whatever the base is. -/
theorem qNum_sub_base (base : BitVec 32) (channel c : Nat) :
    base + BitVec.ofNat 32 channel + BitVec.ofNat 32 c - base
      = BitVec.ofNat 32 (channel + c) := by
  rw [BitVec.add_assoc, BitVec.add_comm base, BitVec.add_sub_cancel,
    BitVec.ofNat_add]

section Main

variable {channel c : Nat}

theorem toNat_qNum_channel (base : BitVec 32) (h : channel + c < 2 ^ 15) :
    ((base + BitVec.ofNat 32 channel + BitVec.ofNat 32 c
      - base).setWidth 16).toNat = channel + c := by
  rw [qNum_sub_base, BitVec.toNat_setWidth, BitVec.toNat_ofNat]
  omega

/-- When a core registers from `main`: it has the number that its channel
leaves modulo 4. -/
theorem registerHiInterrupt_main_iff (base : BitVec 32)
    (h : channel + c < 2 ^ 15) {intcOk openOk : Bool} {event : BitVec 16} :
    registerHiInterrupt base intcOk openOk (BitVec.ofNat 32 c)
        (base + BitVec.ofNat 32 channel + BitVec.ofNat 32 c) = some event
      ↔ (intcOk = true ∧ openOk = true) ∧ c = (channel + c) % 4
        ∧ event = BitVec.ofNat 16 ((channel + c) / 4 + 48) := by
  have hcore : (BitVec.ofNat 32 c).toNat = c := by
    rw [BitVec.toNat_ofNat]
    omega
  rw [registerHiInterrupt_eq_some_iff, toNat_qNum_channel base h, hcore]
  exact and_congr_right fun _ => and_iff_right h

/-- A core below four registers in the first pass when its drivers
succeed, at event 48. -/
theorem registerHiInterrupt_lt (base : BitVec 32) (hc : c < 4) :
    registerHiInterrupt base true true (BitVec.ofNat 32 c)
      (base + BitVec.ofNat 32 0 + BitVec.ofNat 32 c) = some 48#16 := by
  refine (registerHiInterrupt_main_iff base (by omega)).mpr
    ⟨⟨rfl, rfl⟩, by omega, ?_⟩
  rw [Nat.zero_add, Nat.div_eq_of_lt hc]

end Main

end DspCodes.Infra

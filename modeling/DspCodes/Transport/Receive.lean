/-
The receive side of taskB (main_qmss.c and transport_main.c) once a
descriptor has been popped: `Cppi_getData`, the loop over the payload and
the push that recycles the descriptor.

# The two programs

They differ in the counter. transport_main.c has an `int`, main_qmss.c an
8-bit `UInt8`; both compare it with the 32-bit `destLen`, where it is
converted to unsigned. `w` is the width of the counter. (`int i` stays
non-negative for every length below 2^31, so that its conversion is the
identity there.)

# What goes wrong

The counter steps by 4, so it never gets past `2^w - 4`: a longer payload
keeps the guard true for ever (`receive_never_ends`), and the descriptor
is not recycled. In main_qmss.c that is every payload of more than 252
bytes (`receive_iff`).
-/
import DspCodes.Lib.Loop
import Mathlib.Data.BitVec

namespace DspCodes.Payload

open Loop

variable {w : Nat} {D : Type _}

/-- What `Cppi_getData` reports: the buffer and its length. -/
structure Buffer where
  descBuffer : Nat → BitVec 8
  destLen : BitVec 32

/-- The loop of taskB: its counter, the offsets it has read and the
samples it has printed. -/
structure Receive (w : Nat) where
  i : BitVec w
  offsets : List Nat
  samples : List (BitVec 32)

/-- `i = 0`. -/
def Receive.start (w : Nat) : Receive w := ⟨0, [], []⟩

/-- `i < destLen`. -/
def Receive.guard (p : Buffer) (r : Receive w) : Bool :=
  (r.i.setWidth 32).ult p.destLen

/-- `sample = descBuffer[i]; printf (.., sample)`, then `i = i + 4`. The
lines that would put the other three bytes in are comments. -/
def Receive.body (p : Buffer) (r : Receive w) : Receive w where
  i := r.i + BitVec.ofNat w 4
  offsets := r.offsets ++ [r.i.toNat]
  samples := r.samples ++ [(p.descBuffer r.i.toNat).setWidth 32]

/-- `taskB` from a popped descriptor on: the finished loop and the free
queue, `none` while the loop is still running after `turns` turns. -/
def taskB (w : Nat) (Cppi_getData : D → Buffer) (turns : Nat) (desc : D)
    (freeq : List D) : Option (Receive w × List D) :=
  (Loop.run (Receive.guard (Cppi_getData desc))
    (Receive.body (Cppi_getData desc)) turns (Receive.start w)).map
      fun r => (r, freeq ++ [desc])

-- ============================================== a payload within reach

/-- The number of turns, `destLen / 4` rounded up. -/
def Buffer.turns (p : Buffer) : Nat := (p.destLen.toNat + 3) / 4

/-- The loop before turn `k`. -/
structure Receive.At (p : Buffer) (k : Nat) (r : Receive w) : Prop where
  i : r.i.toNat = 4 * k
  offsets : r.offsets = (List.range k).map (4 * ·)
  samples : r.samples
    = (List.range k).map fun j => (p.descBuffer (4 * j)).setWidth 32

theorem Receive.guard_iff (hw : w ≤ 32) (p : Buffer) (r : Receive w) :
    r.guard p = true ↔ r.i.toNat < p.destLen.toNat := by
  have hlt : r.i.toNat < 2 ^ 32 :=
    Nat.lt_of_lt_of_le r.i.isLt (Nat.pow_le_pow_right (by decide) hw)
  unfold Receive.guard
  rw [BitVec.ult_iff_lt, BitVec.lt_def, BitVec.toNat_setWidth,
    Nat.mod_eq_of_lt hlt]

/-- A counter of two bits or more can hold the step. -/
theorem four_dvd (hw : 2 ≤ w) : 4 ∣ 2 ^ w := pow_dvd_pow 2 hw

/-- One turn, as long as the counter does not wrap. -/
theorem Receive.At.body {p : Buffer} {k : Nat} {r : Receive w}
    (hr : Receive.At p k r) (hfits : 4 * (k + 1) < 2 ^ w) :
    Receive.At p (k + 1) (r.body p) where
  i := by
    show (r.i + BitVec.ofNat w 4).toNat = 4 * (k + 1)
    rw [BitVec.toNat_add, BitVec.toNat_ofNat, hr.i, Nat.add_mod_mod]
    exact Nat.mod_eq_of_lt hfits
  offsets := by
    show r.offsets ++ [r.i.toNat] = _
    rw [hr.i, hr.offsets, List.range_succ, List.map_append]
    rfl
  samples := by
    show r.samples ++ [(p.descBuffer r.i.toNat).setWidth 32] = _
    rw [hr.i, hr.samples, List.range_succ, List.map_append]
    rfl

/-- A payload the counter can get past is read in `turns` turns. -/
theorem receive_ends (hw : 2 ≤ w) (hw' : w ≤ 32) {p : Buffer}
    (hfits : p.destLen.toNat ≤ 2 ^ w - 4) :
    ∃ r, Ends (Receive.guard p) (Receive.body p) p.turns (Receive.start w) r
      ∧ Receive.At p p.turns r := by
  obtain ⟨q, hq⟩ := four_dvd hw
  have hpos : 0 < 2 ^ w := Nat.two_pow_pos w
  refine ends_of_invariant ?_ ?_ ?_
  · intro k r hk hr
    unfold Buffer.turns at hk
    refine ⟨?_, hr.body (by omega)⟩
    rw [Receive.guard_iff hw', hr.i]
    omega
  · intro r hr
    rw [Bool.eq_false_iff, Ne, Receive.guard_iff hw', hr.i]
    unfold Buffer.turns
    omega
  · exact ⟨BitVec.toNat_zero .., rfl, rfl⟩

-- ============================================ a payload out of reach

/-- The counter stays a multiple of 4, so a longer payload is never read
to its end. -/
theorem receive_never_ends (hw : 2 ≤ w) (hw' : w ≤ 32) {p : Buffer}
    (hlong : 2 ^ w - 4 < p.destLen.toNat) (n : Nat) (r : Receive w) :
    ¬ Ends (Receive.guard p) (Receive.body p) n (Receive.start w) r := by
  have hfour := four_dvd hw
  refine not_ends_of_invariant (I := fun r => 4 ∣ r.i.toNat) ?_ ?_ ?_
  · intro r hr
    have hlt := r.i.isLt
    rw [Receive.guard_iff hw']
    obtain ⟨q, hq⟩ := hfour
    obtain ⟨j, hj⟩ := hr
    omega
  · intro r hr
    show 4 ∣ (r.i + BitVec.ofNat w 4).toNat
    rw [BitVec.toNat_add, BitVec.toNat_ofNat, Nat.add_mod_mod,
      Nat.dvd_mod_iff hfour]
    exact Nat.dvd_add hr (Nat.dvd_refl 4)
  · show 4 ∣ (0#w).toNat
    rw [BitVec.toNat_zero]
    exact Nat.dvd_zero 4

-- ============================================================== the task

/-- `taskB` gets to its end exactly when the loop does. -/
theorem taskB_eq_some_iff {Cppi_getData : D → Buffer} {desc : D}
    {freeq : List D} {r : Receive w} {freeq' : List D} :
    (∃ turns, taskB w Cppi_getData turns desc freeq = some (r, freeq'))
      ↔ (∃ n, Ends (Receive.guard (Cppi_getData desc))
          (Receive.body (Cppi_getData desc)) n (Receive.start w) r)
        ∧ freeq' = freeq ++ [desc] := by
  constructor
  · rintro ⟨turns, h⟩
    obtain ⟨r', hrun, hr'⟩ := Option.map_eq_some_iff.mp h
    cases hr'
    obtain ⟨n, -, hends⟩ := ends_of_run hrun
    exact ⟨⟨n, hends⟩, rfl⟩
  · rintro ⟨⟨n, hends⟩, rfl⟩
    refine ⟨n, ?_⟩
    unfold taskB
    rw [hends.run (Nat.le_refl n)]
    rfl

/-- `taskB` reads the payload at the offsets 0, 4, 8, ... below its length,
each once, in as many turns, and recycles the descriptor. -/
def Receives (w : Nat) (Cppi_getData : D → Buffer) (desc : D)
    (freeq : List D) : Prop :=
  ∃ r : Receive w,
    Ends (Receive.guard (Cppi_getData desc))
      (Receive.body (Cppi_getData desc)) (Cppi_getData desc).turns
      (Receive.start w) r
    ∧ r.offsets = (List.range (Cppi_getData desc).turns).map (4 * ·)
    ∧ ∃ turns, taskB w Cppi_getData turns desc freeq
        = some (r, freeq ++ [desc])

/-- It does so exactly when the counter can get past the payload. -/
theorem receives_iff (hw : 2 ≤ w) (hw' : w ≤ 32)
    {Cppi_getData : D → Buffer} {desc : D} {freeq : List D} :
    Receives w Cppi_getData desc freeq
      ↔ (Cppi_getData desc).destLen.toNat ≤ 2 ^ w - 4 := by
  constructor
  · rintro ⟨r, hends, -, -⟩
    by_contra hlong
    exact receive_never_ends hw hw' (Nat.lt_of_not_le hlong) _ r hends
  · intro hfits
    obtain ⟨r, hends, hr⟩ := receive_ends hw hw' hfits
    exact ⟨r, hends, hr.offsets, taskB_eq_some_iff.mpr ⟨⟨_, hends⟩, rfl⟩⟩

/-- main_qmss.c, with its 8-bit counter: up to 252 bytes. -/
theorem receive_iff (Cppi_getData : D → Buffer) (desc : D)
    (freeq : List D) :
    Receives 8 Cppi_getData desc freeq
      ↔ (Cppi_getData desc).destLen.toNat ≤ 252 :=
  receives_iff (by decide) (by decide)

/-- A payload of 256 bytes is never read to its end. -/
theorem receive_stuck : ¬ ∀ (Cppi_getData : Unit → Buffer)
    (freeq : List Unit), Receives 8 Cppi_getData () freeq := by
  intro hall
  obtain ⟨r, hends, -⟩ := hall (fun _ => ⟨fun _ => 0, 256#32⟩) []
  exact receive_never_ends (by decide) (by decide) (by decide) _ r hends

/-- transport_main.c, with its `int`: every payload of at most
`2^32 - 4` bytes. -/
theorem receive_int_iff (Cppi_getData : D → Buffer) (desc : D)
    (freeq : List D) :
    Receives 32 Cppi_getData desc freeq
      ↔ (Cppi_getData desc).destLen.toNat ≤ 2 ^ 32 - 4 :=
  receives_iff (by decide) (by decide)

end DspCodes.Payload

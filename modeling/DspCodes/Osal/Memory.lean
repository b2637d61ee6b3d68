/-
The allocation functions of the OSAL: `Osal_fftcMalloc` and
`Osal_fftcFree` of multicore_osal.c, `Osal_biosMalloc` and
`Osal_biosFree` of test_osal.c.

The CPPI and QMSS libraries need global addresses, the heap of a core
knows core-local ones. The two files convert a local address in different
ways, one adds and the other masks and ors; both clear the same bits on
the way back.

# What is modelled

A run of calls on up to 16 cores, each core with its own heap
(`heapStep`). `Memory_alloc` is the environment: its result is part of
the call, and `AllocOk` says what it may be. A block that is freed is
live, and the call is made with its pointer, on its core and with its
flag; its `num_bytes` is the caller's. The counters of the calls are left
out, since no function reads them.

# What is proved

Below 0x01000000 the two conversions are one function and `& ~` undoes
it, because an address and the bits of the core have no bit in common. So
every `Memory_free` receives the address `Memory_alloc` returned, and no
two live global blocks have the same one (`osal_roundTrip`).
-/
import DspCodes.Lib.Lts
import Mathlib.Data.BitVec
import Mathlib.Data.Fintype.Basic

namespace DspCodes.Osal

open Lts

-- ======================================================= the conversions

/-- `Osal_fftcLocal2Global` of multicore_osal.c. -/
def MulticoreOsal.fftcLocal2Global (corenum addr : BitVec 32) : BitVec 32 :=
  addr + (0x10000000#32 + corenum * 0x01000000#32)

/-- `Osal_fftcLocal2Global` of test_osal.c. -/
def TestOsal.fftcLocal2Global (corenum addr : BitVec 32) : BitVec 32 :=
  (1#32 <<< 28) ||| (corenum <<< 24) ||| (addr &&& 0x00ffffff#32)

/-- `Osal_fftcGlobal2Local`, the same in both files. -/
def fftcGlobal2Local (corenum gaddr : BitVec 32) : BitVec 32 :=
  gaddr &&& ~~~((1#32 <<< 28) ||| (corenum <<< 24))

-- ===================================================== malloc and free

/-- The text of the two malloc functions; `destPtr` is what `Memory_alloc`
returns. -/
def malloc (local2Global : BitVec 32 → BitVec 32 → BitVec 32)
    (corenum destPtr : BitVec 32) (bGlobalAddress : Bool) : BitVec 32 :=
  if destPtr ≠ 0 then
    if bGlobalAddress then local2Global corenum destPtr else destPtr
  else destPtr

/-- The text of the two free functions: what `Memory_free` receives, if it
is called. -/
def free (corenum dataPtr num_bytes : BitVec 32) (bGlobalAddress : Bool) :
    Option (BitVec 32 × BitVec 32) :=
  if dataPtr ≠ 0 then
    if bGlobalAddress then some (fftcGlobal2Local corenum dataPtr, num_bytes)
    else some (dataPtr, num_bytes)
  else none

/-- `Osal_fftcMalloc`. -/
def fftcMalloc := malloc MulticoreOsal.fftcLocal2Global

/-- `Osal_biosMalloc`. -/
def biosMalloc := malloc TestOsal.fftcLocal2Global

/-- `Osal_fftcFree`. -/
def fftcFree := free

/-- `Osal_biosFree`. -/
def biosFree := free

/-- The two files. -/
inductive OsalFile
  | multicoreOsal | testOsal
  deriving DecidableEq, Repr

def OsalFile.malloc : OsalFile → BitVec 32 → BitVec 32 → Bool → BitVec 32
  | .multicoreOsal => fftcMalloc
  | .testOsal => biosMalloc

def OsalFile.free : OsalFile → BitVec 32 → BitVec 32 → BitVec 32 → Bool →
    Option (BitVec 32 × BitVec 32)
  | .multicoreOsal => fftcFree
  | .testOsal => biosFree

-- ============================================================== the runs

/-- An allocated block: the core, the arguments of the malloc call, what
`Memory_alloc` returned and what the caller got. -/
structure Block where
  core : Fin 16
  num_bytes : BitVec 32
  bGlobalAddress : Bool
  alloc : BitVec 32
  ptr : BitVec 32
  deriving DecidableEq, Repr

/-- The number of the core, as the chip reports it. -/
def Block.corenum (b : Block) : BitVec 32 := BitVec.ofNat 32 b.core

/-- The end of the block in its heap. An empty block takes one byte. -/
def Block.stop (b : Block) : Nat := b.alloc.toNat + max b.num_bytes.toNat 1

/-- The blocks have no byte in common. -/
def Block.Apart (b b' : Block) : Prop :=
  b.stop ≤ b'.alloc.toNat ∨ b'.stop ≤ b.alloc.toNat

instance (b b' : Block) : Decidable (b.Apart b') := by
  unfold Block.Apart
  infer_instance

/-- A free call: the block, the size the caller passed, and what
`Memory_free` received. -/
structure Freed where
  block : Block
  num_bytes : BitVec 32
  received : Option (BitVec 32 × BitVec 32)
  deriving DecidableEq, Repr

/-- The live blocks of all cores, and the free calls so far. -/
structure Heaps where
  live : List Block
  freed : List Freed
  deriving DecidableEq, Repr

/-- A call on one of the cores; `destPtr` is what `Memory_alloc` returns. -/
inductive HeapCall
  | malloc (core : Fin 16) (num_bytes : BitVec 32) (bGlobalAddress : Bool)
      (destPtr : BitVec 32)
  | free (block : Block) (num_bytes : BitVec 32)
  deriving DecidableEq, Repr

/-- The block that a malloc call allocates. -/
def newBlock (file : OsalFile) (core : Fin 16) (num_bytes : BitVec 32)
    (bGlobalAddress : Bool) (destPtr : BitVec 32) : Block where
  core := core
  num_bytes := num_bytes
  bGlobalAddress := bGlobalAddress
  alloc := destPtr
  ptr := file.malloc (BitVec.ofNat 32 core) destPtr bGlobalAddress

/-- The transition function. -/
def heapStep (file : OsalFile) (a : HeapCall) (h : Heaps) : Option Heaps :=
  match a with
  | .malloc core num_bytes bGlobalAddress destPtr =>
      if destPtr ≠ 0 then
        let b := newBlock file core num_bytes bGlobalAddress destPtr
        some { h with live := b :: h.live }
      else some h
  | .free b num_bytes =>
      if b ∈ h.live then
        some {
          live := h.live.erase b
          freed := h.freed ++ [⟨b, num_bytes,
            file.free b.corenum b.ptr num_bytes b.bGlobalAddress⟩] }
      else none

/-- Nothing allocated yet. -/
def Heaps.empty : Heaps := ⟨[], []⟩

/-- What the caller relies on: `Memory_alloc` fails, or returns an address
below 0x01000000 of a block apart from the live ones of the core. -/
def AllocOk (h : Heaps) : HeapCall → Prop
  | .malloc core num_bytes bGlobalAddress destPtr => destPtr ≠ 0 →
      destPtr.toNat < 0x01000000 ∧ ∀ b ∈ h.live, b.core = core →
        b.Apart ⟨core, num_bytes, bGlobalAddress, destPtr, destPtr⟩
  | .free _ _ => True

instance (h : Heaps) : ∀ a, Decidable (AllocOk h a)
  | .malloc _ _ _ _ => by unfold AllocOk; infer_instance
  | .free _ _ => .isTrue trivial

-- ============================================== the bits of an address

variable {addr : BitVec 32}

/-- The bits that make an address global. -/
def coreBits (corenum : BitVec 32) : BitVec 32 :=
  (1#32 <<< 28) ||| (corenum <<< 24)

theorem coreBits_low (corenum : BitVec 32) {i : Nat} (hi : i < 24) :
    (coreBits corenum).getLsbD i = false := by
  unfold coreBits
  rw [BitVec.getLsbD_or, BitVec.getLsbD_shiftLeft, BitVec.getLsbD_shiftLeft,
    decide_eq_true hi, decide_eq_true (Nat.lt_trans hi (by decide : 24 < 28))]
  simp

theorem local_high (h : addr.toNat < 0x01000000) {i : Nat} (hi : 24 ≤ i) :
    addr.getLsbD i = false :=
  Nat.testBit_lt_two_pow
    (Nat.lt_of_lt_of_le h (Nat.pow_le_pow_right (by decide : 0 < 2) hi))

/-- A local address has none of these bits. -/
theorem local_and_coreBits (h : addr.toNat < 0x01000000)
    (corenum : BitVec 32) : addr &&& coreBits corenum = 0#32 := by
  refine BitVec.eq_of_getLsbD_eq fun i _ => ?_
  rw [BitVec.getLsbD_and, BitVec.getLsbD_zero]
  rcases Nat.lt_or_ge i 24 with hi | hi
  · rw [coreBits_low corenum hi, Bool.and_false]
  · rw [local_high h hi, Bool.false_and]

theorem coreBits_add : ∀ c : Fin 16,
    0x10000000#32 + BitVec.ofNat 32 c * 0x01000000#32
      = coreBits (BitVec.ofNat 32 c) := by
  decide

/-- Adding the bits is setting them. -/
theorem MulticoreOsal.fftcLocal2Global_eq (c : Fin 16)
    (h : addr.toNat < 0x01000000) :
    MulticoreOsal.fftcLocal2Global (BitVec.ofNat 32 c) addr
      = addr ||| coreBits (BitVec.ofNat 32 c) := by
  unfold MulticoreOsal.fftcLocal2Global
  rw [coreBits_add, BitVec.add_eq_or_of_and_eq_zero _ _
    (local_and_coreBits h _)]

/-- The mask keeps all of a local address. -/
theorem TestOsal.fftcLocal2Global_eq (corenum : BitVec 32)
    (h : addr.toNat < 0x01000000) :
    TestOsal.fftcLocal2Global corenum addr = addr ||| coreBits corenum := by
  have hmask : addr &&& 0x00ffffff#32 = addr := by
    refine BitVec.eq_of_toNat_eq ?_
    rw [BitVec.toNat_and]
    show addr.toNat &&& 2 ^ 24 - 1 = addr.toNat
    rw [Nat.and_two_pow_sub_one_eq_mod]
    exact Nat.mod_eq_of_lt h
  unfold TestOsal.fftcLocal2Global
  rw [hmask, BitVec.or_comm]
  rfl

/-- Clearing the bits gives the local address back. -/
theorem fftcGlobal2Local_or (corenum : BitVec 32)
    (h : addr.toNat < 0x01000000) :
    fftcGlobal2Local corenum (addr ||| coreBits corenum) = addr := by
  refine BitVec.eq_of_getLsbD_eq fun i hi => ?_
  show ((addr ||| coreBits corenum) &&& ~~~coreBits corenum).getLsbD i
    = addr.getLsbD i
  rw [BitVec.getLsbD_and, BitVec.getLsbD_or, BitVec.getLsbD_not,
    decide_eq_true hi, Bool.true_and]
  rcases Nat.lt_or_ge i 24 with hlow | hhigh
  · rw [coreBits_low corenum hlow, Bool.or_false, Bool.not_false,
      Bool.and_true]
  · rw [local_high h hhigh, Bool.false_or, Bool.and_not_self]

/-- The global address as a number. -/
theorem toNat_or_coreBits (c : Fin 16) (h : addr.toNat < 0x01000000) :
    (addr ||| coreBits (BitVec.ofNat 32 c)).toNat
      = addr.toNat + (16 + c) * 0x01000000 := by
  have hc := c.isLt
  rw [← MulticoreOsal.fftcLocal2Global_eq c h]
  unfold MulticoreOsal.fftcLocal2Global
  have hcore : (BitVec.ofNat 32 c.val).toNat = c.val := by
    rw [BitVec.toNat_ofNat]
    omega
  generalize BitVec.ofNat 32 c.val = corenum at hcore
  bv_omega

theorem OsalFile.malloc_of_global (file : OsalFile) (c : Fin 16)
    (h : addr.toNat < 0x01000000) (hne : addr ≠ 0) :
    file.malloc (BitVec.ofNat 32 c) addr true
      = addr ||| coreBits (BitVec.ofNat 32 c) := by
  cases file with
  | multicoreOsal =>
      show Osal.malloc MulticoreOsal.fftcLocal2Global _ addr true = _
      unfold Osal.malloc
      rw [if_pos hne, if_pos rfl]
      exact MulticoreOsal.fftcLocal2Global_eq c h
  | testOsal =>
      show Osal.malloc TestOsal.fftcLocal2Global _ addr true = _
      unfold Osal.malloc
      rw [if_pos hne, if_pos rfl]
      exact TestOsal.fftcLocal2Global_eq _ h

/-- Freeing with the pointer and the flag that malloc gave back. -/
theorem OsalFile.free_malloc (file : OsalFile) (c : Fin 16)
    (h : addr.toNat < 0x01000000) (hne : addr ≠ 0) (num_bytes : BitVec 32)
    (bGlobalAddress : Bool) :
    file.free (BitVec.ofNat 32 c)
        (file.malloc (BitVec.ofNat 32 c) addr bGlobalAddress) num_bytes
        bGlobalAddress
      = some (addr, num_bytes) := by
  have hfree : file.free = Osal.free := by cases file <;> rfl
  rw [hfree]
  cases bGlobalAddress with
  | false =>
      have hmalloc : file.malloc (BitVec.ofNat 32 c) addr false = addr := by
        cases file <;> exact if_pos hne
      rw [hmalloc]
      exact if_pos hne
  | true =>
      rw [file.malloc_of_global c h hne]
      have hnull : addr ||| coreBits (BitVec.ofNat 32 c) ≠ 0 := by
        intro hzero
        have hnat := toNat_or_coreBits c h
        rw [hzero] at hnat
        have hzero' : (0 : BitVec 32).toNat = 0 := rfl
        omega
      unfold Osal.free
      rw [if_pos hnull, if_pos rfl, fftcGlobal2Local_or _ h]

-- ========================================================= the invariant

variable {file : OsalFile} {h h' : Heaps} {b b' : Block}

/-- What malloc leaves in a block. -/
structure Block.Ok (file : OsalFile) (b : Block) : Prop where
  nonnull : b.alloc ≠ 0
  lt : b.alloc.toNat < 0x01000000
  ptr_eq : b.ptr = file.malloc b.corenum b.alloc b.bGlobalAddress

/-- The live blocks are sound and apart in each heap, and every block was
freed where it was allocated. -/
structure HeapInv (file : OsalFile) (h : Heaps) : Prop where
  ok : ∀ b ∈ h.live, b.Ok file
  apart : h.live.Pairwise fun b b' => b.core = b'.core → b.Apart b'
  freed : ∀ e ∈ h.freed, e.received = some (e.block.alloc, e.num_bytes)

theorem heapInv_empty (file : OsalFile) : HeapInv file Heaps.empty where
  ok := fun _ hb => absurd hb List.not_mem_nil
  apart := .nil
  freed := fun _ he => absurd he List.not_mem_nil

/-- A block that `Memory_alloc` has just returned. -/
theorem HeapInv.malloc (hs : HeapInv file h) {core : Fin 16}
    {num_bytes destPtr : BitVec 32} {bGlobalAddress : Bool}
    (hne : destPtr ≠ 0)
    (hok : AllocOk h (.malloc core num_bytes bGlobalAddress destPtr)) :
    HeapInv file ⟨newBlock file core num_bytes bGlobalAddress destPtr
      :: h.live, h.freed⟩ := by
  obtain ⟨hlt, hapart⟩ := hok hne
  refine ⟨fun b hb => ?_, .cons (fun b hb hcore => ?_) hs.apart, hs.freed⟩
  · rcases List.mem_cons.mp hb with rfl | hb
    · exact ⟨hne, hlt, rfl⟩
    · exact hs.ok b hb
  · exact (hapart b hb hcore.symm).symm

/-- A live block is freed. -/
theorem HeapInv.free (hs : HeapInv file h) (hb : b ∈ h.live)
    (num_bytes : BitVec 32) :
    HeapInv file
      { live := h.live.erase b
        freed := h.freed ++ [⟨b, num_bytes,
          file.free b.corenum b.ptr num_bytes b.bGlobalAddress⟩] } := by
  obtain ⟨hne, hlt, hptr⟩ := hs.ok b hb
  refine ⟨fun b' hb' => hs.ok b' (List.mem_of_mem_erase hb'),
    hs.apart.sublist List.erase_sublist, fun e he => ?_⟩
  rcases List.mem_append.mp he with he | he
  · exact hs.freed e he
  · rw [List.mem_singleton.mp he]
    show file.free b.corenum b.ptr num_bytes b.bGlobalAddress = _
    rw [hptr]
    exact file.free_malloc b.core hlt hne num_bytes b.bGlobalAddress

theorem heapInv_step {a : HeapCall} (hs : HeapInv file h)
    (hok : AllocOk h a) (happ : heapStep file a h = some h') :
    HeapInv file h' := by
  cases a with
  | malloc core num_bytes bGlobalAddress destPtr =>
      simp only [heapStep] at happ
      split at happ
      case isTrue hne =>
        cases happ
        exact hs.malloc hne hok
      case isFalse =>
        cases happ
        exact hs
  | free b num_bytes =>
      simp only [heapStep] at happ
      split at happ
      case isTrue hb =>
        cases happ
        exact hs.free hb num_bytes
      case isFalse => cases happ

theorem heapInv_reachable
    (hr : Reach (heapStep file) AllocOk Heaps.empty h) : HeapInv file h :=
  hr.invariant (heapInv_empty file) fun _ _ _ hs hok happ =>
    heapInv_step hs hok happ

/-- Two global blocks that are sound, and apart if they are on one core,
have different addresses. -/
theorem Block.Ok.ptr_ne (hb : b.Ok file) (hb' : b'.Ok file)
    (hapart : b.core = b'.core → b.Apart b')
    (hglobal : b.bGlobalAddress = true) (hglobal' : b'.bGlobalAddress = true) :
    b.ptr ≠ b'.ptr := by
  have hptr : ∀ {b : Block}, b.Ok file → b.bGlobalAddress = true →
      b.ptr.toNat = b.alloc.toNat + (16 + b.core) * 0x01000000 := by
    intro b hb hglobal
    rw [hb.ptr_eq, hglobal]
    unfold Block.corenum
    rw [file.malloc_of_global b.core hb.lt hb.nonnull,
      toNat_or_coreBits b.core hb.lt]
  intro heq
  have hnat := congrArg BitVec.toNat heq
  rw [hptr hb hglobal, hptr hb' hglobal'] at hnat
  have hlt := hb.lt
  have hlt' := hb'.lt
  have hcore : b.core = b'.core := Fin.ext (by omega)
  have halloc : b.alloc.toNat = b'.alloc.toNat := by
    rw [hcore] at hnat
    omega
  -- the blocks would start at one address
  rcases hapart hcore with hstop | hstop
  · unfold Block.stop at hstop
    omega
  · unfold Block.stop at hstop
    omega

-- =============================================================== the law

/-- What malloc and free owe their callers. -/
structure HeapLaw (h : Heaps) : Prop where
  freed : ∀ e ∈ h.freed, e.received = some (e.block.alloc, e.num_bytes)
  distinct : h.live.Pairwise fun b b' => b.bGlobalAddress = true →
    b'.bGlobalAddress = true → b.ptr ≠ b'.ptr
  agree : ∀ (c : Fin 16) (addr : BitVec 32), addr.toNat < 0x01000000 →
    MulticoreOsal.fftcLocal2Global (BitVec.ofNat 32 c) addr
      = TestOsal.fftcLocal2Global (BitVec.ofNat 32 c) addr

/-- In every run of either file `Memory_free` receives the addresses that
`Memory_alloc` returned, no two live global blocks have one address, and
the two conversions agree below 0x01000000. -/
theorem osal_roundTrip (file : OsalFile) (h : Heaps)
    (hr : Reach (heapStep file) AllocOk Heaps.empty h) : HeapLaw h := by
  have hs := heapInv_reachable hr
  refine ⟨hs.freed, ?_, fun c addr haddr => ?_⟩
  · exact hs.apart.imp_of_mem fun hb hb' hapart hglobal hglobal' =>
      (hs.ok _ hb).ptr_ne (hs.ok _ hb') hapart hglobal hglobal'
  · rw [MulticoreOsal.fftcLocal2Global_eq c haddr,
      TestOsal.fftcLocal2Global_eq _ haddr]

/-- Two cores allocate at one local address, and the second frees its
block. -/
theorem osal_roundTrip_run : ∃ h : Heaps,
    Reach (heapStep .testOsal) AllocOk Heaps.empty h
      ∧ h.freed.map Freed.received = [some (0x00800000#32, 64#32)]
      ∧ h.live.map Block.ptr = [0x10800000#32] ∧ HeapLaw h := by
  let b := newBlock .testOsal 1 64#32 true 0x00800000#32
  obtain ⟨h, hr, hfreed, hlive⟩ : ∃ h,
      Reach (heapStep .testOsal) AllocOk Heaps.empty h
        ∧ h.freed.map Freed.received = [some (0x00800000#32, 64#32)]
        ∧ h.live.map Block.ptr = [0x10800000#32] :=
    exists_reach_of_runOk [.malloc 0 64#32 true 0x00800000#32,
      .malloc 1 64#32 true 0x00800000#32, .free b 64#32] (by decide +kernel)
  exact ⟨h, hr, hfreed, hlive, osal_roundTrip .testOsal h hr⟩

end DspCodes.Osal

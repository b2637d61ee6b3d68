/-
The payload from taskA to taskB (main_qmss.c and transport_main.c):
`generateData` fills `symbol_buffer`, `Cppi_setData` copies `SIZE_DESC/2`
of its bytes into the descriptor, and the loop of taskB takes one sample
out of every four bytes.

# What goes wrong

taskB keeps the first byte of four; the lines that put the word together
are comments. On a little-endian core that is the low byte
(`samples_eq`), so exactly the words below 256 survive. In main_qmss.c
the 8-bit counter stands in the way as well (`roundTrip_iff`). The words
of `generateData` are small: transport_main.c carries them up to a
`SIZE_DESC` of 2048, the size it has (`generateData_roundTrip_iff`).

`Cppi_setData` and `Cppi_getData` are outside the repository.
-/
import DspCodes.Transport.Receive

namespace DspCodes.Payload

open Loop

variable {D : Type _} {size : Nat}

/-- The two programs with this pair of tasks. -/
inductive Program
  | transportMain | mainQmss
  deriving DecidableEq, Repr

/-- The width of the counter of taskB: `int i` and `UInt8 i`. -/
def Program.counterWidth : Program → Nat
  | .transportMain => 32
  | .mainQmss => 8

/-- `symbol_buffer`, an array of `SIZE_DESC/8` words. -/
structure SymbolBuffer (SIZE_DESC : Nat) where
  words : List (BitVec 32)
  length_eq : words.length = SIZE_DESC / 8

/-- `generateData`: `vect[i] = i` for `i` from 0 to `lenght - 1`. -/
def generateData (vect : List (BitVec 32)) (lenght : Nat) :
    List (BitVec 32) :=
  forLoop lenght (fun i v => v.set i (BitVec.ofNat 32 i)) vect

/-- The two calls of the CPPI library, on descriptors of type `D`. -/
structure Cppi (D : Type _) where
  setData : D → List (BitVec 8) → D
  getData : D → Buffer

/-- The bytes of a word in memory; the core is little-endian. -/
def wordBytes (word : BitVec 32) : List (BitVec 8) :=
  [word.setWidth 8, (word >>> 8).setWidth 8, (word >>> 16).setWidth 8,
    (word >>> 24).setWidth 8]

/-- The `SIZE_DESC/2` bytes at `(UInt8 *) symbol_buffer`. -/
def SymbolBuffer.bytes (buf : SymbolBuffer size) : List (BitVec 8) :=
  (buf.words.flatMap wordBytes).take (size / 2)

/-- `taskA` stores the buffer in the descriptor. -/
def taskA (cppi : Cppi D) (symbol_buffer : SymbolBuffer size) (desc : D) :
    D :=
  cppi.setData desc symbol_buffer.bytes

/-- What was stored in the descriptor is read back from it. -/
def Cppi.ReadsBack (cppi : Cppi D) (desc : D) (bytes : List (BitVec 8)) :
    Prop :=
  (cppi.getData (cppi.setData desc bytes)).destLen.toNat = bytes.length
    ∧ ∀ i (h : i < bytes.length),
      (cppi.getData (cppi.setData desc bytes)).descBuffer i = bytes[i]

/-- taskB prints the words that taskA stored. -/
def RoundTrip (p : Program) (cppi : Cppi D) (symbol_buffer : SymbolBuffer size)
    (desc : D) (freeq : List D) : Prop :=
  ∃ turns r, taskB p.counterWidth cppi.getData turns
      (taskA cppi symbol_buffer desc) freeq = some r
    ∧ r.1.samples = symbol_buffer.words

-- ============================================================= the bytes

theorem length_wordBytes (word : BitVec 32) : (wordBytes word).length = 4 :=
  rfl

theorem length_flatMap_wordBytes (words : List (BitVec 32)) :
    (words.flatMap wordBytes).length = 4 * words.length := by
  induction words with
  | nil => rfl
  | cons word words ih =>
      rw [List.flatMap_cons, List.length_append, length_wordBytes, ih,
        List.length_cons]
      omega

/-- Every fourth byte is the low byte of a word. -/
theorem getElem?_flatMap_wordBytes (words : List (BitVec 32)) (k : Nat) :
    (words.flatMap wordBytes)[4 * k]? = words[k]?.map (·.setWidth 8) := by
  induction words generalizing k with
  | nil => rfl
  | cons word words ih =>
      cases k with
      | zero => rfl
      | succ k =>
          rw [List.flatMap_cons, List.getElem?_append_right, length_wordBytes,
            Nat.mul_succ, Nat.add_sub_cancel, ih, List.getElem?_cons_succ]
          rw [length_wordBytes]
          omega

/-- The buffer is stored in full. -/
theorem SymbolBuffer.bytes_eq (h8 : 8 ∣ size) (buf : SymbolBuffer size) :
    buf.bytes = buf.words.flatMap wordBytes := by
  have hlen := buf.length_eq
  refine List.take_of_length_le ?_
  rw [length_flatMap_wordBytes]
  omega

theorem SymbolBuffer.length_bytes (h8 : 8 ∣ size) (buf : SymbolBuffer size) :
    buf.bytes.length = 4 * buf.words.length := by
  rw [buf.bytes_eq h8, length_flatMap_wordBytes]

-- =========================================================== the samples

/-- The low byte of a word, as taskB prints it. -/
def lowByte (word : BitVec 32) : BitVec 32 := (word.setWidth 8).setWidth 32

theorem lowByte_eq_iff (word : BitVec 32) :
    lowByte word = word ↔ word.toNat < 256 := by
  have hlt := word.isLt
  rw [← BitVec.toNat_inj]
  unfold lowByte
  rw [BitVec.toNat_setWidth, BitVec.toNat_setWidth]
  omega

/-- A list of words survives when each of them does. -/
theorem map_lowByte_eq_iff (words : List (BitVec 32)) :
    words.map lowByte = words ↔ ∀ word ∈ words, word.toNat < 256 := by
  induction words with
  | nil => simp
  | cons word words ih =>
      rw [List.map_cons, List.cons.injEq, lowByte_eq_iff, ih,
        List.forall_mem_cons]

section Read

variable {cppi : Cppi D} {buf : SymbolBuffer size} {desc : D}

theorem destLen_eq (h8 : 8 ∣ size) (hread : cppi.ReadsBack desc buf.bytes) :
    (cppi.getData (taskA cppi buf desc)).destLen.toNat
      = 4 * buf.words.length :=
  hread.1.trans (buf.length_bytes h8)

/-- There is one turn for each word. -/
theorem turns_eq (h8 : 8 ∣ size) (hread : cppi.ReadsBack desc buf.bytes) :
    (cppi.getData (taskA cppi buf desc)).turns = buf.words.length := by
  unfold Buffer.turns
  rw [destLen_eq h8 hread]
  omega

/-- What taskB has printed after the last turn. -/
theorem samples_eq (h8 : 8 ∣ size) (hread : cppi.ReadsBack desc buf.bytes)
    {w : Nat} {r : Receive w}
    (hr : Receive.At (cppi.getData (taskA cppi buf desc))
      (cppi.getData (taskA cppi buf desc)).turns r) :
    r.samples = buf.words.map lowByte := by
  rw [hr.samples, turns_eq h8 hread]
  refine List.ext_getElem (by simp) fun k hk hk' => ?_
  rw [List.length_map] at hk'
  have hbound : 4 * k < buf.bytes.length := by
    rw [buf.length_bytes h8]
    omega
  have hbyte : buf.bytes[4 * k] = buf.words[k].setWidth 8 := by
    have hget := getElem?_flatMap_wordBytes buf.words k
    rw [← buf.bytes_eq h8, List.getElem?_eq_getElem hbound,
      List.getElem?_eq_getElem hk'] at hget
    exact Option.some.inj hget
  have hsame : (cppi.getData (taskA cppi buf desc)).descBuffer (4 * k)
      = buf.bytes[4 * k] := hread.2 (4 * k) hbound
  rw [List.getElem_map, List.getElem_map, List.getElem_range, hsame, hbyte]
  rfl

theorem Program.two_le_counterWidth (p : Program) : 2 ≤ p.counterWidth := by
  cases p <;> decide

theorem Program.counterWidth_le (p : Program) : p.counterWidth ≤ 32 := by
  cases p <;> decide

/-- taskB prints the low byte of every word and nothing else, if its
counter gets past the payload. -/
theorem roundTrip_iff_fits (h8 : 8 ∣ size)
    (hread : cppi.ReadsBack desc buf.bytes) (p : Program) (freeq : List D) :
    RoundTrip p cppi buf desc freeq
      ↔ (∀ word ∈ buf.words, word.toNat < 256)
        ∧ 4 * buf.words.length ≤ 2 ^ p.counterWidth - 4 := by
  have hw := p.two_le_counterWidth
  have hw' := p.counterWidth_le
  have hlen := destLen_eq h8 hread
  rw [← map_lowByte_eq_iff, ← hlen]
  constructor
  · rintro ⟨turns, ⟨r, freeq'⟩, hrun, hsame⟩
    obtain ⟨⟨n, hends⟩, -⟩ := taskB_eq_some_iff.mp ⟨turns, hrun⟩
    have hfits : (cppi.getData (taskA cppi buf desc)).destLen.toNat
        ≤ 2 ^ p.counterWidth - 4 := by
      by_contra hlong
      exact receive_never_ends hw hw' (Nat.lt_of_not_le hlong) n r hends
    obtain ⟨r', hends', hr'⟩ := receive_ends hw hw' hfits
    obtain ⟨-, rfl⟩ := hends.unique hends'
    refine ⟨?_, hfits⟩
    rw [← samples_eq h8 hread hr']
    exact hsame
  · rintro ⟨hsame, hfits⟩
    obtain ⟨r, hends, hr⟩ := receive_ends hw hw' hfits
    obtain ⟨turns, hrun⟩ := taskB_eq_some_iff.mpr ⟨⟨_, hends⟩, rfl⟩
    exact ⟨turns, _, hrun, (samples_eq h8 hread hr).trans hsame⟩

/-- The words come out as they went in exactly when all of them are below
256 and, in main_qmss.c, there are at most 63. -/
theorem roundTrip_iff (p : Program) (cppi : Cppi D) (h8 : 8 ∣ size)
    (buf : SymbolBuffer size) (desc : D) (freeq : List D)
    (hread : cppi.ReadsBack desc buf.bytes) :
    RoundTrip p cppi buf desc freeq
      ↔ (∀ word ∈ buf.words, word.toNat < 256)
        ∧ (p = .mainQmss → size ≤ 504) := by
  have hlen := buf.length_eq
  have hbound := (cppi.getData (taskA cppi buf desc)).destLen.isLt
  rw [destLen_eq h8 hread] at hbound
  rw [roundTrip_iff_fits h8 hread]
  refine and_congr_right fun _ => ?_
  cases p with
  | transportMain =>
      -- a 32-bit length that is a multiple of 4
      have hfits : 4 * buf.words.length ≤ 2 ^ 32 - 4 := by omega
      exact ⟨fun _ h => absurd h (by decide), fun _ => hfits⟩
  | mainQmss =>
      show _ ≤ 2 ^ 8 - 4 ↔ (Program.mainQmss = .mainQmss → _)
      rw [forall_prop_of_true rfl]
      omega

end Read

-- ====================================================== `generateData`

/-- The first `m` of `n` words have been written. -/
structure Written (n m : Nat) (v : List (BitVec 32)) : Prop where
  length : v.length = n
  word : ∀ k, k < m → v[k]? = some (BitVec.ofNat 32 k)

/-- The turn for word `m`. -/
theorem Written.set {n m : Nat} {v : List (BitVec 32)} (hv : Written n m v)
    (hm : m < n) : Written n (m + 1) (v.set m (BitVec.ofNat 32 m)) where
  length := List.length_set.trans hv.length
  word := by
    intro k hk
    by_cases heq : k = m
    · subst heq
      exact List.getElem?_set_self (hv.length.symm ▸ hm)
    · rw [List.getElem?_set_ne (Ne.symm heq)]
      exact hv.word k (by omega)

theorem written_generateData {vect : List (BitVec 32)} {lenght : Nat}
    (hlen : vect.length = lenght) :
    Written lenght lenght (generateData vect lenght) :=
  forLoop_invariant (I := Written lenght)
    ⟨hlen, fun _ hk => absurd hk (Nat.not_lt_zero _)⟩
    fun _ _ hm hv => hv.set hm

theorem generateData_eq {vect : List (BitVec 32)} {lenght : Nat}
    (hlen : vect.length = lenght) :
    generateData vect lenght = (List.range lenght).map (BitVec.ofNat 32) := by
  have hwritten := written_generateData hlen
  refine List.ext_getElem ?_ fun k hk hk' => ?_
  · rw [hwritten.length, List.length_map, List.length_range]
  · rw [List.length_map, List.length_range] at hk'
    have hget := hwritten.word k hk'
    rw [List.getElem?_eq_getElem hk] at hget
    rw [List.getElem_map, List.getElem_range]
    exact Option.some.inj hget

/-- The buffer as `generateData` leaves it. -/
def SymbolBuffer.generate (buf : SymbolBuffer size) : SymbolBuffer size where
  words := generateData buf.words (size / 8)
  length_eq := (written_generateData buf.length_eq).length

/-- The words of `generateData` survive up to a descriptor of 2048 bytes
in transport_main.c and 504 in main_qmss.c. -/
theorem generateData_roundTrip_iff (p : Program) (cppi : Cppi D)
    (h8 : 8 ∣ size) (buf : SymbolBuffer size) (desc : D) (freeq : List D)
    (hread : cppi.ReadsBack desc buf.generate.bytes) :
    RoundTrip p cppi buf.generate desc freeq
      ↔ size ≤ match p with
        | .transportMain => 2048
        | .mainQmss => 504 := by
  have hwords : buf.generate.words
      = (List.range (size / 8)).map (BitVec.ofNat 32) :=
    generateData_eq buf.length_eq
  have hsmall : (∀ word ∈ buf.generate.words, word.toNat < 256)
      ↔ size ≤ 2048 := by
    rw [hwords, List.forall_mem_map]
    constructor
    · intro hall
      by_contra hlong
      have h256 := hall 256 (List.mem_range.mpr (by omega))
      exact absurd h256 (by decide)
    · intro hsize k hk
      rw [List.mem_range] at hk
      rw [BitVec.toNat_ofNat]
      omega
  have hlen := buf.generate.length_eq
  rw [roundTrip_iff_fits h8 hread, hsmall]
  cases p with
  | transportMain =>
      show _ ∧ _ ≤ 2 ^ 32 - 4 ↔ size ≤ 2048
      omega
  | mainQmss =>
      show _ ∧ _ ≤ 2 ^ 8 - 4 ↔ size ≤ 504
      omega

-- ======================================================= a CPPI library

/-- Descriptors that are just their payload. -/
def plainCppi : Cppi (List (BitVec 8)) where
  setData := fun _ bytes => bytes
  getData := fun desc =>
    ⟨fun i => desc.getD i 0, BitVec.ofNat 32 desc.length⟩

theorem plainCppi_readsBack (desc : List (BitVec 8))
    {bytes : List (BitVec 8)} (h : bytes.length < 2 ^ 32) :
    plainCppi.ReadsBack desc bytes := by
  refine ⟨?_, fun i hi => ?_⟩
  · show (BitVec.ofNat 32 bytes.length).toNat = bytes.length
    rw [BitVec.toNat_ofNat, Nat.mod_eq_of_lt h]
  · show bytes.getD i 0 = bytes[i]
    rw [List.getD_eq_getElem?_getD, List.getElem?_eq_getElem hi,
      Option.getD_some]

/-- Four words below 256, for a descriptor of 32 bytes. -/
def fourWords : SymbolBuffer 32 := ⟨[7#32, 0#32, 255#32, 130#32], rfl⟩

/-- taskB takes them from the bytes 0, 4, 8 and 12. -/
theorem roundTrip_fourWords :
    RoundTrip .mainQmss plainCppi fourWords [] [] ∧
      RoundTrip .transportMain plainCppi fourWords [] [] := by
  have h8 : 8 ∣ 32 := by decide
  have hread : plainCppi.ReadsBack [] fourWords.bytes := by
    refine plainCppi_readsBack [] ?_
    rw [SymbolBuffer.length_bytes h8, SymbolBuffer.length_eq]
    decide
  have hsmall : ∀ word ∈ fourWords.words, word.toNat < 256 := by
    simp [fourWords]
  have hfits : 32 ≤ 504 := by decide
  exact ⟨(roundTrip_iff .mainQmss plainCppi h8 fourWords [] [] hread).mpr
      ⟨hsmall, fun _ => hfits⟩,
    (roundTrip_iff .transportMain plainCppi h8 fourWords [] [] hread).mpr
      ⟨hsmall, fun _ => hfits⟩⟩

/-- 257 words, for a descriptor of 2056 bytes. -/
def longBuffer : SymbolBuffer 2056 :=
  ⟨List.replicate 257 0, List.length_replicate⟩

/-- With `SIZE_DESC` 2056 transport_main.c sends the word 256 and prints
0 for it. -/
theorem longBuffer_truncated :
    8 ∣ 2056 ∧ plainCppi.ReadsBack [] longBuffer.generate.bytes
      ∧ ¬ RoundTrip .transportMain plainCppi longBuffer.generate [] [] := by
  have h8 : 8 ∣ 2056 := by decide
  have hread : plainCppi.ReadsBack [] longBuffer.generate.bytes := by
    refine plainCppi_readsBack [] ?_
    rw [SymbolBuffer.length_bytes h8, SymbolBuffer.length_eq]
    decide
  refine ⟨h8, hread, fun hround => ?_⟩
  rw [generateData_roundTrip_iff .transportMain plainCppi h8 longBuffer [] []
    hread] at hround
  exact absurd hround (by decide)

end DspCodes.Payload

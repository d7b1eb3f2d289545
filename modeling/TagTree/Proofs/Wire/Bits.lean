import TagTree.Wire.Bits

/-!
# What a writer holds

A writer appends bits: however they fall into bytes, the bits of its buffer are
those written, in order, and zeros after them.

`bitAt` reads a buffer as a sequence of bits, of which those behind its end are
zero, and `Packed` says that a buffer has as many bytes as its bits need and
zeros in the rest of the last one. Writing a bit either changes the last byte or
adds one; in both cases the bit at the end of the sequence becomes the new one
and all others stay.

Everything else that is written is a list of bits that are written one after the
other. So the specification of a writer is one induction on such a list: the
bits of the buffer are the bits written, and it stays packed. The facts about
shifts and masks of a byte that this needs stand at the beginning and are
decided for the eight places of a bit.
-/
namespace TagTree

def bitAt (data : Array UInt8) (i : Nat) : Bool := (data.getD (i / 8) 0).toNat.testBit (i % 8)

theorem toNat_ofNat_offset {k : Nat} (hk : k < 8) : (UInt8.ofNat k).toNat = k := by
  rw [UInt8.toNat_ofNat']
  omega

theorem testBit_or_shiftLeft (b : UInt8) {k : Nat} (hk : k < 8) (j : Nat) :
    (b ||| 1 <<< UInt8.ofNat k).toNat.testBit j = (b.toNat.testBit j || decide (j = k)) := by
  have hone : (1 : UInt8).toNat = 1 := rfl
  rw [UInt8.toNat_or, UInt8.toNat_shiftLeft, toNat_ofNat_offset hk, Nat.mod_eq_of_lt hk, hone,
    Nat.testBit_or, Nat.testBit_mod_two_pow, Nat.testBit_shiftLeft]
  by_cases h : j = k
  · simp [h, hk]
  · by_cases hle : k ≤ j
    · have hbit : Nat.testBit 1 (j - k) = false := by
        rw [Bool.eq_false_iff, ne_eq, Nat.testBit_one_eq_true_iff_self_eq_zero]
        omega
      simp [h, hbit]
    · simp [h, hle]

theorem shiftRight_and_one (b : UInt8) {k : Nat} (hk : k < 8) :
    (b >>> UInt8.ofNat k &&& 1 == 1) = b.toNat.testBit k := by
  have hone : (1 : UInt8).toNat = 1 := rfl
  rw [Bool.eq_iff_iff, beq_iff_eq, ← UInt8.toNat_inj, UInt8.toNat_and, UInt8.toNat_shiftRight,
    toNat_ofNat_offset hk, Nat.mod_eq_of_lt hk, hone, Nat.testBit, Nat.and_comm,
    Nat.one_and_eq_mod_two]
  simp

namespace BitWriter

/-- Append bits one after the other. -/
def writeAll (w : BitWriter) (bits : List Bool) : BitWriter := bits.foldl writeBit w

theorem writeAll_append (w : BitWriter) (p q : List Bool) :
    w.writeAll (p ++ q) = (w.writeAll p).writeAll q := List.foldl_append ..

theorem writeBit_eq (w : BitWriter) (b : Bool) : w.writeBit b = w.writeAll [b] := rfl

theorem numBits_writeAll (w : BitWriter) (bits : List Bool) :
    (w.writeAll bits).numBits = w.numBits + bits.length := by
  induction bits generalizing w with
  | nil => rfl
  | cons b bits ih =>
      have hstep : (w.writeBit b).numBits = w.numBits + 1 := rfl
      have hrest := ih (w.writeBit b)
      rw [writeAll, List.foldl_cons, ← writeAll, hrest, hstep, List.length_cons]
      omega

theorem numBits_written (bits : List Bool) : (empty.writeAll bits).numBits = bits.length := by
  rw [numBits_writeAll]
  exact Nat.zero_add _

structure Packed (w : BitWriter) : Prop where
  size : w.bytes.size = (w.numBits + 7) / 8
  padding : ∀ i, w.numBits ≤ i → bitAt w.bytes i = false

theorem empty_packed : Packed empty := by
  constructor
  case size => rfl
  case padding =>
      intro i _
      simp [bitAt, empty]

theorem bitAt_push (bytes : Array UInt8) (i : Nat) : bitAt (bytes.push 0) i = bitAt bytes i := by
  unfold bitAt
  rw [Array.getD_eq_getD_getElem?, Array.getD_eq_getD_getElem?, Array.getElem?_push]
  split
  · rename_i hi
    rw [Array.getElem?_eq_none (Nat.le_of_eq hi.symm)]
    rfl
  · rfl

theorem bitAt_modify {bytes : Array UInt8} {n k : Nat} (hn : n < bytes.size) (hk : k < 8) (i : Nat) :
    bitAt (bytes.modify n fun last => last ||| 1 <<< UInt8.ofNat k) i =
      (bitAt bytes i || decide (i = 8 * n + k)) := by
  unfold bitAt
  rw [Array.getD_eq_getD_getElem?, Array.getD_eq_getD_getElem?, Array.getElem?_modify]
  by_cases hin : n = i / 8
  · rw [if_pos hin, ← hin, Array.getElem?_eq_getElem hn, Option.map_some, Option.getD_some,
      Option.getD_some, testBit_or_shiftLeft _ hk]
    have hiff : i % 8 = k ↔ i = 8 * n + k := by omega
    rw [decide_eq_decide.mpr hiff]
  · have hne : ¬ i = 8 * n + k := by omega
    rw [if_neg hin]
    simp [hne]

theorem Packed.room {w : BitWriter} (h : w.Packed) {bytes : Array UInt8}
    (hbytes : bytes = if w.numBits % 8 = 0 then w.bytes.push 0 else w.bytes) :
    bytes.size = w.numBits / 8 + 1 ∧ ∀ i, bitAt bytes i = bitAt w.bytes i := by
  have hsize := h.size
  rw [hbytes]
  split
  · refine ⟨?_, bitAt_push w.bytes⟩
    rw [Array.size_push]
    omega
  · exact ⟨by omega, fun _ => rfl⟩

/-- A bit goes where the bits so far end, and changes none of them. -/
theorem bitAt_writeBit {w : BitWriter} (h : w.Packed) (b : Bool) (i : Nat) :
    bitAt (w.writeBit b).bytes i = if i = w.numBits then b else bitAt w.bytes i := by
  obtain ⟨bytes, hbytes⟩ : ∃ bytes, bytes = if w.numBits % 8 = 0 then w.bytes.push 0 else w.bytes :=
    ⟨_, rfl⟩
  obtain ⟨hsize, hold⟩ := h.room hbytes
  -- A zero is there already, whether as padding or in the byte that was added; only a one is set.
  rw [writeBit, ← hbytes]
  dsimp only
  cases b with
  | false =>
      rw [if_neg (by decide), hold]
      split
      · rename_i hi
        exact h.padding i (Nat.le_of_eq hi.symm)
      · rfl
  | true =>
      have hoffset : w.numBits % 8 < 8 := Nat.mod_lt _ (by decide)
      have hlast : bytes.size - 1 < bytes.size := by omega
      have hpos : 8 * (bytes.size - 1) + w.numBits % 8 = w.numBits := by omega
      rw [if_pos rfl, bitAt_modify hlast hoffset, hold, hpos]
      split
      · rename_i hi
        simp [hi]
      · rename_i hi
        simp [hi]

theorem Packed.writeBit {w : BitWriter} (h : w.Packed) (b : Bool) : (w.writeBit b).Packed := by
  have hnum : (w.writeBit b).numBits = w.numBits + 1 := rfl
  constructor
  case size =>
      obtain ⟨hsize, _⟩ := h.room rfl
      have hsame : (w.writeBit b).bytes.size =
          (if w.numBits % 8 = 0 then w.bytes.push 0 else w.bytes).size := by
        rw [BitWriter.writeBit]
        dsimp only
        split
        · exact Array.size_modify ..
        · rfl
      rw [hsame, hnum, hsize]
      omega
  case padding =>
      intro i hi
      rw [hnum] at hi
      rw [bitAt_writeBit h, if_neg (by omega)]
      exact h.padding i (by omega)

theorem writeAll_spec {w : BitWriter} (h : w.Packed) (bits : List Bool) : (w.writeAll bits).Packed ∧
    ∀ i, bitAt (w.writeAll bits).bytes i =
      if i < w.numBits then bitAt w.bytes i else bits.getD (i - w.numBits) false := by
  induction bits generalizing w with
  | nil =>
      refine ⟨h, fun i => ?_⟩
      split
      · rfl
      · exact h.padding i (by omega)
  | cons b bits ih =>
      obtain ⟨hall, hbits⟩ := ih (h.writeBit b)
      refine ⟨hall, fun i => ?_⟩
      have hnum : (w.writeBit b).numBits = w.numBits + 1 := rfl
      rw [writeAll, List.foldl_cons, ← writeAll, hbits, hnum, bitAt_writeBit h]
      rcases Nat.lt_trichotomy i w.numBits with hi | hi | hi
      · rw [if_pos (by omega), if_neg (by omega), if_pos hi]
      · rw [if_pos (by omega), if_pos hi, if_neg (by omega), hi, Nat.sub_self]
        rfl
      · have hsucc : i - w.numBits = i - (w.numBits + 1) + 1 := by omega
        rw [if_neg (by omega), if_neg (by omega), hsucc, List.getD_cons_succ]

end BitWriter
end TagTree

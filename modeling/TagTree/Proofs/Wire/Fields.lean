import TagTree.Proofs.Wire.Bits
import TagTree.Wire.Packing

/-!
# Fields, written and read

Each thing that is written is described by the bits that carry it, and a reader
that finds these bits ahead of it, before its limit, reads the thing and stops
behind them. Where in a byte the bits begin, what was written before and what
follows does not matter.

A number is carried by the list of its low bits, the least significant first,
and a string of bytes by the bits of its bytes. Writing is described by
equations: a writer with a field appended is the writer with the bits of the
field appended. `Ahead` is the situation of a reader in front of these bits, and
`Reads` says what a reader makes of them.

Both compose. If bits lie ahead, so does their first part, and behind it the
second, so a sequence of readers reads a sequence of fields. What a reader puts
together from single bits is the number whose bits they are, by induction on the
width with one more bit of the number at each step.
-/
namespace TagTree

def fieldBits (width value : Nat) : List Bool := (List.range width).map value.testBit

def bytesBits (bytes : List UInt8) : List Bool := bytes.flatMap fun b => fieldBits 8 b.toNat

@[simp] theorem length_fieldBits (width value : Nat) : (fieldBits width value).length = width := by
  simp [fieldBits]

theorem bytesBits_cons (b : UInt8) (bytes : List UInt8) :
    bytesBits (b :: bytes) = fieldBits 8 b.toNat ++ bytesBits bytes := List.flatMap_cons

theorem length_bytesBits (bytes : List UInt8) : (bytesBits bytes).length = 8 * bytes.length := by
  induction bytes with
  | nil => rfl
  | cons b bytes ih =>
      rw [bytesBits_cons, List.length_append, ih, length_fieldBits, List.length_cons]
      omega

theorem testBit_mod_range (v width j : Nat) :
    (v % Packing.range width).testBit j = (decide (j < width) && v.testBit j) := by
  rw [Packing.range, Nat.one_shiftLeft, Nat.testBit_mod_two_pow]

theorem testBit_range (width j : Nat) : (Packing.range width).testBit j = decide (j = width) := by
  rw [Packing.range, Nat.one_shiftLeft, Nat.testBit_two_pow, decide_eq_decide]
  exact eq_comm

namespace BitWriter

theorem writeFrom_eq (w : BitWriter) (value first count : Nat) : w.writeFrom value first count =
    w.writeAll ((List.range' first count).map value.testBit) := by
  induction count generalizing w first with
  | zero => rfl
  | succ count ih =>
      have hbit : (value >>> first &&& 1 == 1) = value.testBit first := by
        rw [Nat.testBit, Nat.and_comm, Nat.one_and_eq_mod_two, Bool.eq_iff_iff]
        simp
      rw [writeFrom, ih, hbit, List.range'_succ, List.map_cons]
      rfl

theorem writeBits_eq (w : BitWriter) (value width : Nat) :
    w.writeBits value width = w.writeAll (fieldBits (min width maxField) value) := by
  rw [writeBits, writeFrom_eq, fieldBits, List.range_eq_range']

theorem writeBytes_eq (w : BitWriter) (bytes : List UInt8) :
    w.writeBytes bytes = w.writeAll (bytesBits bytes) := by
  induction bytes generalizing w with
  | nil => rfl
  | cons b bytes ih =>
      have hstep : w.writeBits b.toNat 8 = w.writeAll (fieldBits 8 b.toNat) := writeBits_eq ..
      rw [writeBytes, List.foldl_cons, hstep, ← writeBytes, ih, bytesBits_cons, writeAll_append]

end BitWriter

namespace BitCursor

def skip (c : BitCursor) (n : Nat) : BitCursor := { c with position := c.position + n }

/-- The next bits are `bits`, and the limit is not before their end. -/
structure Ahead (c : BitCursor) (bits : List Bool) : Prop where
  fits : c.position + bits.length ≤ c.limit
  eq : ∀ i < bits.length, bitAt c.data (c.position + i) = bits.getD i false

theorem skip_skip (c : BitCursor) (m n : Nat) : (c.skip m).skip n = c.skip (m + n) := by
  rw [skip, skip, skip, Nat.add_assoc]

theorem bit_eq (c : BitCursor) : c.bit = bitAt c.data c.position :=
  shiftRight_and_one _ (Nat.mod_lt _ (by decide))

theorem Ahead.left {c : BitCursor} {p q : List Bool} (h : c.Ahead (p ++ q)) : c.Ahead p := by
  have hfits := h.fits
  rw [List.length_append] at hfits
  refine ⟨by omega, fun i hi => ?_⟩
  rw [h.eq i (by rw [List.length_append]; omega), List.getD_eq_getElem?_getD,
    List.getElem?_append_left hi, ← List.getD_eq_getElem?_getD]

theorem Ahead.right {c : BitCursor} {p q : List Bool} (h : c.Ahead (p ++ q)) :
    (c.skip p.length).Ahead q := by
  have hfits := h.fits
  rw [List.length_append] at hfits
  refine ⟨by simp only [skip]; omega, fun i hi => ?_⟩
  have heq := h.eq (p.length + i) (by rw [List.length_append]; omega)
  rw [List.getD_eq_getElem?_getD, List.getElem?_append_right (Nat.le_add_right ..),
    Nat.add_sub_cancel_left, ← List.getD_eq_getElem?_getD, ← Nat.add_assoc] at heq
  exact heq

theorem Ahead.bit {c : BitCursor} {b : Bool} {bits : List Bool} (h : c.Ahead (b :: bits)) :
    c.bit = b := by
  rw [bit_eq]
  exact h.eq 0 (Nat.zero_lt_succ _)

theorem Ahead.next {c : BitCursor} {b : Bool} {bits : List Bool} (h : c.Ahead (b :: bits)) :
    c.next.Ahead bits := Ahead.right (p := [b]) h

theorem Ahead.remaining {c : BitCursor} {bits : List Bool} (h : c.Ahead bits) :
    bits.length ≤ c.remaining := by
  have hfits := h.fits
  rw [BitCursor.remaining]
  omega

theorem ahead_of_written (before bits after : List Bool) {limit : Nat}
    (h : before.length + bits.length ≤ limit) :
    Ahead ⟨((BitWriter.empty.writeAll (before ++ bits)).writeAll after).bytes, before.length, limit⟩
      bits := by
  refine ⟨h, fun i hi => ?_⟩
  obtain ⟨_, hbit⟩ := BitWriter.writeAll_spec BitWriter.empty_packed (before ++ bits ++ after)
  have hempty : BitWriter.empty.numBits = 0 := rfl
  have hlt : before.length + i < (before ++ bits).length := by
    rw [List.length_append]
    omega
  rw [← BitWriter.writeAll_append, hbit, hempty, if_neg (Nat.not_lt_zero _), Nat.sub_zero,
    List.getD_eq_getElem?_getD, List.getElem?_append_left hlt,
    List.getElem?_append_right (Nat.le_add_right ..), Nat.add_sub_cancel_left,
    ← List.getD_eq_getElem?_getD]

theorem add_bit (v first : Nat) :
    (if v.testBit first then v % Packing.range first ||| 1 <<< first else v % Packing.range first) =
      v % Packing.range (first + 1) := by
  refine Nat.eq_of_testBit_eq fun j => ?_
  have hone : (1 <<< first).testBit j = decide (j = first) := testBit_range first j
  rw [testBit_mod_range]
  rcases Nat.lt_trichotomy j first with hj | hj | hj
  · have hlt : j < first + 1 := by omega
    have hne : ¬ j = first := by omega
    split <;> simp [testBit_mod_range, hone, hj, hlt, hne]
  · subst hj
    split
    · rename_i hbit
      simp [hone, hbit]
    · rename_i hbit
      simp [testBit_mod_range, hbit]
  · have hlt : ¬ j < first := by omega
    have hlt' : ¬ j < first + 1 := by omega
    have hne : ¬ j = first := by omega
    split <;> simp [testBit_mod_range, hone, hlt, hlt', hne]

theorem gather_eq {c : BitCursor} {v first count : Nat}
    (h : c.Ahead ((List.range' first count).map v.testBit)) :
    c.gather count first (v % Packing.range first) =
      (v % Packing.range (first + count), c.skip count) := by
  induction count generalizing c first with
  | zero => rfl
  | succ count ih =>
      rw [List.range'_succ, List.map_cons] at h
      rw [gather, h.bit, add_bit, ih h.next]
      have hsum : first + 1 + count = first + (count + 1) := by omega
      have hskip : c.next.skip count = c.skip (count + 1) := by
        rw [next, skip, skip, Nat.add_assoc, Nat.add_comm 1]
      rw [hsum, hskip]

end BitCursor

namespace BitReader
variable {α β : Type}

/-- Where `bits` are ahead, the reader gives `a` and stops behind them. -/
def Reads (read : BitReader α) (bits : List Bool) (a : α) : Prop :=
  ∀ c : BitCursor, c.Ahead bits → read c = (.ok a, c.skip bits.length)

theorem Reads.pure (a : α) : Reads (BitReader.pure a) [] a := fun _ _ => rfl

theorem Reads.bind {read : BitReader α} {f : α → BitReader β} {p q : List Bool} {a : α} {b : β}
    (h : read.Reads p a) (k : (f a).Reads q b) : (BitReader.bind read f).Reads (p ++ q) b := by
  intro c hc
  rw [BitReader.bind, h c hc.left]
  dsimp only
  rw [k _ hc.right, BitCursor.skip_skip, List.length_append]

theorem Reads.last {read : BitReader α} {f : α → BitReader β} {bits : List Bool} {a : α} {b : β}
    (h : read.Reads bits a) (k : (f a).Reads [] b) : (BitReader.bind read f).Reads bits b := by
  have hbind := h.bind k
  rwa [List.append_nil] at hbind

theorem Reads.map {read : BitReader α} {bits : List Bool} {a : α} (h : read.Reads bits a)
    (f : α → β) : (BitReader.map f read).Reads bits (f a) := h.last (.pure (f a))

theorem Reads.ensure {read : BitReader α} {bits : List Bool} {a : α} (h : read.Reads bits a)
    {count : Nat} (hle : count ≤ bits.length) : (BitReader.ensure count read).Reads bits a := by
  intro c hc
  have hremaining := hc.remaining
  rw [BitReader.ensure, if_neg (by omega)]
  exact h c hc

theorem readBit_reads (b : Bool) : readBit.Reads [b] b := by
  have hbit : BitReader.Reads (fun c => (.ok c.bit, c.next)) [b] b := by
    intro c hc
    dsimp only
    rw [hc.bit]
    rfl
  exact hbit.ensure (Nat.le_refl _)

theorem readBits_reads (width value : Nat) : (readBits width).Reads
    (fieldBits (min width maxField) value) (value % Packing.range (min width maxField)) := by
  refine Reads.ensure ?_ (by simp)
  intro c hc
  rw [fieldBits, List.range_eq_range'] at hc
  have hgather := BitCursor.gather_eq hc
  have hzero : value % Packing.range 0 = 0 := Nat.mod_one value
  rw [hzero, Nat.zero_add] at hgather
  dsimp only
  rw [hgather, length_fieldBits]

theorem readEachByte_reads (bytes : List UInt8) :
    (readEachByte bytes.length).Reads (bytesBits bytes) bytes := by
  induction bytes with
  | nil => exact Reads.pure []
  | cons b bytes ih =>
      have hbyte := readBits_reads 8 b.toNat
      have hvalue : b.toNat % Packing.range (min 8 maxField) = b.toNat :=
        Nat.mod_eq_of_lt b.toNat_lt
      rw [hvalue] at hbyte
      have hrest := ih.map (UInt8.ofNat b.toNat :: ·)
      rw [UInt8.ofNat_toNat] at hrest
      exact hbyte.bind (by rw [UInt8.ofNat_toNat]; exact hrest)

theorem readBytes_reads (bytes : List UInt8) :
    (readBytes bytes.length).Reads (bytesBits bytes) bytes := by
  refine (readEachByte_reads bytes).ensure ?_
  rw [length_bytesBits]
  exact Nat.min_le_left ..

end BitReader
end TagTree

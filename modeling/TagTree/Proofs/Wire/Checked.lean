import TagTree.Error
import TagTree.Proofs.Wire.Packing
import TagTree.Proofs.Wire.Running

/-!
# Bits in machine words

A machine counts in words. A shift by as many places as a word has, a difference
below zero, a value that is too wide for its word and a byte behind the end of a
buffer are faults, at which a program stops. Bits are written and read here in
such steps, and from any cursor inside its buffer it comes to what numbers
without bounds give, with no fault. Positions in a buffer are not checked: a
buffer that has them fits the memory.

A word of so many bits comes with four operations that may fail and one that
keeps a value in it. Each has a lemma for the case that it does not fail, with
the bound that rules the fault out. Writers in words are compared with the ones
that run by equations, since what they need is bounded by constants: an offset
in a byte is less than eight, and a width is cut to 32.

For readers the bound is a property of the cursor. `Faultless` says that from
every cursor inside its buffer the reader in words ends without a fault and as
the other reader does. It is kept by sequences, because a run stays inside the
buffer, and the primitive reads have it because they look at the limit before
they take anything.
-/
namespace TagTree

/-- A computation in machine words. -/
abbrev Checked (α : Type) := Except ArithmeticFault α

namespace Word

def fit (bits value : Nat) : Checked Nat :=
  if value < Packing.range bits then .ok value else .error (.wide bits value)

/-- Shift left; what leaves the word is lost. -/
def shiftLeft (bits value places : Nat) : Checked Nat :=
  if places < bits then .ok ((value <<< places) % Packing.range bits)
  else .error (.shift bits places)

def shiftRight (bits value places : Nat) : Checked Nat :=
  if places < bits then .ok (value >>> places) else .error (.shift bits places)

def sub (m n : Nat) : Checked Nat := if n ≤ m then .ok (m - n) else .error (.below m n)

def byte (data : Array UInt8) (position : Nat) : Checked UInt8 :=
  match data[position]? with
  | some b => .ok b
  | none => .error (.index data.size position)

variable {bits m n : Nat}

theorem fit_ok (h : n < Packing.range bits) : fit bits n = .ok n := if_pos h

theorem shiftRight_ok (h : n < bits) (value : Nat) : shiftRight bits value n = .ok (value >>> n) :=
  if_pos h

theorem sub_ok (h : n ≤ m) : sub m n = .ok (m - n) := if_pos h

theorem shiftLeft_ok (h : n < bits) (value : Nat) :
    shiftLeft bits value n = .ok ((value <<< n) % Packing.range bits) := if_pos h

theorem shiftLeft_one (h : n < bits) : shiftLeft bits 1 n = .ok (Packing.range n) := by
  have hlt : Packing.range n < Packing.range bits := by
    rw [Packing.range, Packing.range, Nat.one_shiftLeft, Nat.one_shiftLeft]
    exact Nat.pow_lt_pow_right (by decide) h
  rw [shiftLeft_ok h, ← Packing.range, Nat.mod_eq_of_lt hlt]

end Word

namespace Checked
open Word

def writeBit (w : BitWriter) (bit : Bool) : Checked BitWriter := do
  let offset := w.numBits % 8
  let bytes := if offset = 0 then w.bytes.push 0 else w.bytes
  if bit then do
    let mask ← shiftLeft 8 1 offset
    .ok ⟨bytes.modify (bytes.size - 1) fun last => last ||| UInt8.ofNat mask, w.numBits + 1⟩
  else .ok ⟨bytes, w.numBits + 1⟩

def writeFrom (w : BitWriter) (value : Nat) : Nat → Nat → Checked BitWriter
  | _, 0 => .ok w
  | first, count + 1 => do
    let shifted ← shiftRight 32 value first
    let w ← writeBit w (shifted &&& 1 == 1)
    writeFrom w value (first + 1) count

def writeBits (w : BitWriter) (value width : Nat) : Checked BitWriter :=
  writeFrom w value 0 (min width maxField)

def writeBytes (w : BitWriter) : List UInt8 → Checked BitWriter
  | [] => .ok w
  | b :: rest => do
    let w ← writeBits w b.toNat 8
    writeBytes w rest

theorem writeBit_eq (w : BitWriter) (bit : Bool) : writeBit w bit = .ok (w.writeBit bit) := by
  have hoffset : w.numBits % 8 < 8 := Nat.mod_lt _ (by decide)
  have hmask : UInt8.ofNat (Packing.range (w.numBits % 8)) = 1 <<< UInt8.ofNat (w.numBits % 8) := by
    generalize w.numBits % 8 = k at hoffset
    revert k
    decide
  unfold writeBit BitWriter.writeBit
  cases bit with
  | false => rfl
  | true =>
      dsimp only
      rw [if_pos rfl, if_pos rfl, shiftLeft_one hoffset, ok_bind, hmask]

theorem writeFrom_eq (w : BitWriter) (value : Nat) {first count : Nat}
    (h : first + count ≤ 32) : writeFrom w value first count = .ok (w.writeFrom value first count) := by
  induction count generalizing w first with
  | zero => rfl
  | succ count ih =>
      rw [writeFrom, shiftRight_ok (by omega), ok_bind, writeBit_eq, ok_bind, ih _ (by omega)]
      rfl

theorem writeBits_eq (w : BitWriter) (value width : Nat) :
    writeBits w value width = .ok (w.writeBits value width) := by
  have hmax : maxField = 32 := rfl
  exact writeFrom_eq w value (by omega)

theorem writeBytes_eq (w : BitWriter) (bytes : List UInt8) :
    writeBytes w bytes = .ok (w.writeBytes bytes) := by
  induction bytes generalizing w with
  | nil => rfl
  | cons b bytes ih =>
      rw [writeBytes, writeBits_eq, ok_bind, ih]
      rfl

/-- The greatest index of a first segment. -/
def mask (first : Nat) : Checked Nat := do
  let top ← shiftLeft 32 1 first
  sub top 1

/-- Write an index in two segments. -/
def writeIndex (w : BitWriter) (first total index : Nat) : Checked BitWriter :=
  if Packing.isWhole first total then writeBits w index total
  else do
    let low ← mask first
    if low < index then do
      let w ← writeBits w (index &&& low) first
      let w ← writeBit w true
      let high ← shiftRight 32 index first
      let rest ← sub total first
      writeBits w high rest
    else do
      let w ← writeBits w index first
      writeBit w false

theorem mask_ok {first : Nat} (h : first < 32) : mask first = .ok (Packing.mask first) := by
  rw [mask, shiftLeft_one h, ok_bind, sub_ok (Packing.range_pos first)]
  rfl

theorem writeIndex_eq {first total : Nat} (h : total ≤ 32) (w : BitWriter) (index : Nat) :
    writeIndex w first total index = .ok (Packing.write w first total index) := by
  unfold writeIndex Packing.write
  split
  · exact writeBits_eq ..
  · rename_i hsplit
    have hfirst := (Packing.not_isWhole_iff.mp hsplit).2
    have hplaces : first < 32 := by omega
    rw [mask_ok hplaces, ok_bind]
    split
    · rw [writeBits_eq, ok_bind, writeBit_eq, ok_bind, shiftRight_ok hplaces, ok_bind,
        sub_ok (Nat.le_of_lt hfirst), ok_bind, writeBits_eq]
    · rw [writeBits_eq, ok_bind, writeBit_eq]

abbrev Reader (α : Type) := BitCursor → Checked (Except WireError α × BitCursor)

namespace Reader
variable {α β : Type}

def pure (a : α) : Reader α := fun c => .ok (.ok a, c)

def fail (e : WireError) : Reader α := fun c => .ok (.error e, c)

def bind (x : Reader α) (f : α → Reader β) : Reader β := fun c => do
  match ← x c with
  | (.ok a, c) => f a c
  | (.error e, c) => .ok (.error e, c)

def lift (x : Checked α) (f : α → Reader β) : Reader β := fun c => do f (← x) c

def ensure (count : Nat) (read : Reader α) : Reader α := fun c => do
  let left ← sub c.limit c.position
  if left < count then .ok (.error (.overflow (min count BitReader.maxRequested) left), c)
  else read c

def takeBit : Reader Bool := fun c => do
  let b ← byte c.data (c.position / 8)
  let shifted ← shiftRight 8 b.toNat (c.position % 8)
  .ok (.ok (shifted &&& 1 == 1), c.next)

def takeBits : Nat → Nat → Nat → Reader Nat
  | 0, _, value => pure value
  | count + 1, first, value => bind takeBit fun bit =>
    if bit then lift (shiftLeft 32 1 first) fun flag => takeBits count (first + 1) (value ||| flag)
    else takeBits count (first + 1) value

def readBit : Reader Bool := ensure 1 takeBit

def readBits (width : Nat) : Reader Nat :=
  ensure (min width maxField) (takeBits (min width maxField) 0 0)

def readEachByte : Nat → Reader (List UInt8)
  | 0 => pure []
  | length + 1 => bind (readBits 8) fun b => lift (fit 8 b) fun b =>
    bind (readEachByte length) fun rest => pure (UInt8.ofNat b :: rest)

def readBytes (length : Nat) : Reader (List UInt8) :=
  ensure (min (8 * length) BitReader.maxBitCount) (readEachByte length)

/-- Read an index written with the same widths. -/
def readIndex (first total : Nat) : Reader Nat :=
  if Packing.isWhole first total then readBits total
  else
    lift (mask first) fun low =>
    lift (fit 32 (first + 1)) fun width =>
    bind (readBits width) fun head =>
    lift (shiftLeft 32 1 first) fun flag =>
      if head &&& flag ≠ 0 then
        lift (sub total first) fun rest =>
        bind (readBits rest) fun second =>
        lift (shiftLeft 32 second first) fun high => pure (high ||| head &&& low)
      else pure head

/-- From a cursor inside its buffer there is no fault, and the readers do the same. -/
def Faultless (checked : Reader α) (read : BitReader α) : Prop :=
  ∀ c : BitCursor, c.Within → checked c = .ok (read c)

theorem Faultless.pure (a : α) : Faultless (Reader.pure a) (BitReader.pure a) := fun _ _ => rfl

theorem Faultless.bind {x : Reader α} {x' : BitReader α} {f : α → Reader β}
    {f' : α → BitReader β} (hx : Faultless x x') (hin : BitReader.StaysInside x')
    (hf : ∀ a c c', x' c = (.ok a, c') → Faultless (f a) (f' a)) :
    Faultless (Reader.bind x f) (BitReader.bind x' f') := by
  intro c hc
  have hrun := hin c hc
  rw [Reader.bind, hx c hc, ok_bind]
  rcases hread : x' c with ⟨e | a, c'⟩
  · rw [BitReader.bind_of_error hread]
  · rw [hread] at hrun
    rw [BitReader.bind_of_ok hread]
    exact hf a c c' hread c' (hrun.within hc)

theorem Faultless.lift {x : Checked α} {a : α} {f : α → Reader β} {read : BitReader β}
    (hx : x = .ok a) (hf : Faultless (f a) read) : Faultless (Reader.lift x f) read := by
  intro c hc
  rw [Reader.lift, hx, ok_bind]
  exact hf c hc

theorem ensure_faultless {count : Nat} {read : Reader α} {read' : BitReader α}
    (h : ∀ c : BitCursor, c.Within → count ≤ c.remaining → read c = .ok (read' c)) :
    Faultless (ensure count read) (BitReader.ensure count read') := by
  intro c hc
  rw [ensure, sub_ok hc.position_le, ok_bind]
  by_cases hlt : c.remaining < count
  · rw [BitReader.ensure_of_lt hlt]
    exact if_pos hlt
  · rw [BitReader.ensure_of_le (Nat.le_of_not_lt hlt)]
    exact (if_neg hlt).trans (h c hc (Nat.le_of_not_lt hlt))

theorem takeBit_eq {c : BitCursor} (hc : c.Within) (hleft : 1 ≤ c.remaining) :
    takeBit c = .ok (BitReader.takeBit c) := by
  have hlt : c.position < c.limit := by
    rw [BitCursor.remaining] at hleft
    omega
  obtain ⟨b, hb⟩ := hc.byte hlt
  have hplaces : c.position % 8 < 8 := Nat.mod_lt _ (by decide)
  have hbyte : byte c.data (c.position / 8) = .ok b := by rw [byte, hb]
  have hbit : (b.toNat >>> (c.position % 8) &&& 1 == 1) = b.toNat.testBit (c.position % 8) := by
    rw [Nat.testBit, Nat.and_comm, Nat.one_and_eq_mod_two, Bool.eq_iff_iff]
    simp
  rw [takeBit, hbyte, ok_bind, shiftRight_ok hplaces, ok_bind, hbit, BitReader.takeBit,
    BitCursor.bit_of_byte hb, shiftRight_and_one b hplaces]

theorem takeBits_eq {count first : Nat} (h : first + count ≤ 32) (value : Nat) {c : BitCursor}
    (hc : c.Within) (hleft : count ≤ c.remaining) :
    takeBits count first value c = .ok (BitReader.takeBits count first value c) := by
  induction count generalizing first value c with
  | zero => rfl
  | succ count ih =>
      have hrun := BitReader.takeBit_runs hc (by omega)
      have hrest : count ≤ c.next.remaining := by
        have hskip := c.remaining_skip 1
        have hnext : c.next = c.skip 1 := rfl
        rw [hnext, hskip]
        omega
      have hnext : ∀ value, takeBits count (first + 1) value c.next =
          .ok (BitReader.takeBits count (first + 1) value c.next) :=
        fun value => ih (by omega) value (hrun.within hc) hrest
      have hflag : shiftLeft 32 1 first = .ok (1 <<< first) := shiftLeft_one (by omega)
      have hread : BitReader.takeBits (count + 1) first value c = BitReader.takeBits count (first + 1)
          (if c.bit then value ||| 1 <<< first else value) c.next := rfl
      rw [takeBits, bind, takeBit_eq hc (by omega), ok_bind, BitReader.takeBit, hread]
      cases c.bit with
      | true =>
          dsimp only
          rw [if_pos rfl, lift, hflag, ok_bind, hnext, if_pos rfl]
      | false => exact hnext value

theorem readBit_faultless : Faultless readBit BitReader.readBit :=
  ensure_faultless fun _ => takeBit_eq

theorem readBits_faultless (width : Nat) : Faultless (readBits width) (BitReader.readBits width) := by
  have hmax : maxField = 32 := rfl
  rw [BitReader.readBits_eq]
  exact ensure_faultless fun c hc hleft => takeBits_eq (by omega) 0 hc hleft

theorem readEachByte_faultless (length : Nat) :
    Faultless (readEachByte length) (BitReader.readEachByte length) := by
  induction length with
  | zero => exact .pure []
  | succ length ih =>
      refine (readBits_faultless 8).bind (BitReader.readBits_staysInside 8) fun b c c' hb => ?_
      exact .lift (fit_ok (BitReader.readBits_lt hb)) (ih.bind (BitReader.readEachByte_staysInside _)
        fun rest _ _ _ => .pure _)

theorem readBytes_faultless (length : Nat) :
    Faultless (readBytes length) (BitReader.readBytes length) :=
  ensure_faultless fun c hc _ => readEachByte_faultless length c hc

/-- The second segment may lose its high bits before or after the first one is added. -/
theorem join_segments {first : Nat} (h : first < 32) (second head : Nat) :
    (second <<< first) % Packing.range 32 ||| head &&& Packing.mask first =
      (second <<< first ||| head &&& Packing.mask first) % Packing.indexRange := by
  refine Nat.eq_of_testBit_eq fun j => ?_
  rw [Packing.indexRange, testBit_mod_range, Nat.testBit_or, Nat.testBit_or, testBit_mod_range,
    Nat.testBit_and, Packing.testBit_mask]
  by_cases hj : j < 32
  · simp [hj]
  · have hhigh : ¬ j < first := by omega
    simp [hj, hhigh]

theorem readIndex_faultless {first total : Nat} (h : total ≤ 32) :
    Faultless (readIndex first total) (Packing.read first total) := by
  unfold readIndex Packing.read
  split
  · exact readBits_faultless total
  · rename_i hsplit
    have hfirst := (Packing.not_isWhole_iff.mp hsplit).2
    have hplaces : first < 32 := by omega
    have hwidth : first + 1 < Packing.range 32 := by
      have h32 : Packing.range 32 = 4294967296 := rfl
      omega
    refine .lift (mask_ok hplaces) (.lift (fit_ok hwidth) ?_)
    refine (readBits_faultless _).bind (BitReader.readBits_staysInside _) fun head _ _ _ => ?_
    refine .lift (shiftLeft_one hplaces) ?_
    split
    · refine .lift (sub_ok (Nat.le_of_lt hfirst)) ?_
      refine (readBits_faultless _).bind (BitReader.readBits_staysInside _) fun second _ _ _ => ?_
      refine .lift (shiftLeft_ok hplaces second) ?_
      rw [join_segments hplaces]
      exact .pure _
    · exact .pure head

end Reader
end Checked
end TagTree

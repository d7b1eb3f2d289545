import TagTree.Proofs.Wire.Composed

/-!
# Messages of many pieces

A message is written piece by piece: single bits, numbers in fields of any width
and strings of bytes. A reader that asks for pieces of the same shapes in the
same order gets them back, except that a number comes without the bits that its
field cut off. The bits of a message are those of its pieces, one after the
other, and what is written later goes behind them.

A `Piece` is what one call of a writer puts there, and a `Shape` is what one
call of a reader asks for. Every piece has a shape, and what is received of it
is the piece itself, except for the bits of a number that its field cut off.
With the bits of a piece as a list, putting pieces is writing the concatenation
of their bits.

Reading back is an induction on the list of pieces: the bits of the first are
ahead, its reader stops behind them, and there the bits of the others are ahead.
At the end of the bits a reader that was told where they end has nothing left to
read and answers with an overflow; one that was not told may still read the
zeros that fill the last byte.
-/
namespace TagTree

/-- What is written by one call of a writer. -/
inductive Piece where
  | bit (b : Bool)
  | number (value width : Nat)
  | bytes (data : List UInt8)
deriving DecidableEq, Repr

inductive Shape where
  | bit
  | number (width : Nat)
  | bytes (length : Nat)
deriving DecidableEq, Repr

namespace Piece

def shape : Piece → Shape
  | .bit _ => .bit
  | .number _ width => .number width
  | .bytes data => .bytes data.length

def received : Piece → Piece
  | .number value width => .number (value % Packing.range (min width maxField)) width
  | piece => piece

def bits : Piece → List Bool
  | .bit b => [b]
  | .number value width => fieldBits (min width maxField) value
  | .bytes data => bytesBits data

end Piece

namespace Shape

def size : Shape → Nat
  | .bit => 1
  | .number width => min width maxField
  | .bytes length => 8 * length

def read : Shape → BitReader Piece
  | .bit => .map .bit .readBit
  | .number width => .map (.number · width) (.readBits width)
  | .bytes length => .map .bytes (.readBytes length)

def readAll : List Shape → BitReader (List Piece)
  | [] => .pure []
  | shape :: rest => .bind shape.read fun piece => .map (piece :: ·) (readAll rest)

end Shape

namespace BitWriter

def put (w : BitWriter) : Piece → BitWriter
  | .bit b => w.writeBit b
  | .number value width => w.writeBits value width
  | .bytes data => w.writeBytes data

def putAll (w : BitWriter) (pieces : List Piece) : BitWriter := pieces.foldl put w

theorem put_eq (w : BitWriter) (piece : Piece) : w.put piece = w.writeAll piece.bits := by
  cases piece with
  | bit b => exact writeBit_eq w b
  | number value width => exact writeBits_eq w value width
  | bytes data => exact writeBytes_eq w data

theorem putAll_eq (w : BitWriter) (pieces : List Piece) :
    w.putAll pieces = w.writeAll (pieces.flatMap Piece.bits) := by
  induction pieces generalizing w with
  | nil => rfl
  | cons piece pieces ih =>
      rw [putAll, List.foldl_cons, ← putAll, ih, put_eq, List.flatMap_cons, writeAll_append]

theorem numBits_putAll (pieces : List Piece) :
    (empty.putAll pieces).numBits = (pieces.flatMap Piece.bits).length := by
  rw [putAll_eq, numBits_written]

theorem putAll_packed (pieces : List Piece) : (empty.putAll pieces).Packed := by
  rw [putAll_eq]
  exact (writeAll_spec empty_packed _).1

/-- What is written later goes behind the bits that are there. -/
theorem Packed.bitAt_putAll {w : BitWriter} (h : w.Packed) (later : List Piece) {i : Nat}
    (hi : i < w.numBits) : bitAt (w.putAll later).bytes i = bitAt w.bytes i := by
  rw [putAll_eq, (writeAll_spec h _).2, if_pos hi]

end BitWriter

theorem Piece.read_reads (piece : Piece) : piece.shape.read.Reads piece.bits piece.received := by
  cases piece with
  | bit b => exact (BitReader.readBit_reads b).map _
  | number value width => exact (BitReader.readBits_reads width value).map _
  | bytes data => exact (BitReader.readBytes_reads data).map _

theorem Shape.readAll_reads (pieces : List Piece) :
    (readAll (pieces.map Piece.shape)).Reads (pieces.flatMap Piece.bits)
      (pieces.map Piece.received) := by
  induction pieces with
  | nil => exact .pure []
  | cons piece pieces ih => exact piece.read_reads.bind (ih.map _)

/-- Where no bit is left, a call that asks for one fails and leaves the cursor. -/
theorem Shape.read_of_end {shape : Shape} (hsize : 0 < shape.size) {c : BitCursor}
    (hend : c.remaining = 0) : shape.read c =
      (.error (.overflow (min shape.size BitReader.maxRequested) 0), c) := by
  cases shape with
  | bit =>
      have hread : BitReader.readBit c = (.error (.overflow 1 0), c) := by
        rw [BitReader.readBit, BitReader.ensure_of_lt (by omega), hend]
        rfl
      exact BitReader.bind_of_error hread
  | number width =>
      refine BitReader.bind_of_error ?_
      rw [BitReader.readBits, BitReader.ensure_of_lt (hend ▸ hsize), hend]
      rfl
  | bytes length =>
      have hcount : 0 < min (8 * length) BitReader.maxBitCount :=
        Nat.lt_min.mpr ⟨hsize, by decide⟩
      have hnamed : min (min (8 * length) BitReader.maxBitCount) BitReader.maxRequested =
          min (8 * length) BitReader.maxRequested := by
        rw [Nat.min_assoc]
        rfl
      refine BitReader.bind_of_error ?_
      rw [BitReader.readBytes, BitReader.ensure_of_lt (hend ▸ hcount), hend, hnamed]
      rfl

theorem BitCursor.le_limit_start {w : BitWriter} (h : w.Packed) {limit : Option Nat}
    (hlimit : ∀ n ∈ limit, w.numBits ≤ n) : w.numBits ≤ (start w.bytes limit).limit := by
  have hsize := h.size
  cases limit with
  | none =>
      have heq : (start w.bytes none).limit = w.bytes.size * 8 := rfl
      omega
  | some n =>
      have heq : (start w.bytes (some n)).limit = min n (w.bytes.size * 8) := rfl
      have hn := hlimit n rfl
      omega

/-- The pieces come back, whether or not the reader is told where the last one ends. -/
theorem readAll_putAll (pieces : List Piece) {limit : Option Nat}
    (hlimit : ∀ n ∈ limit, (BitWriter.empty.putAll pieces).numBits ≤ n) :
    let start := BitCursor.start (BitWriter.empty.putAll pieces).bytes limit
    Shape.readAll (pieces.map Piece.shape) start = (.ok (pieces.map Piece.received),
      { start with position := (BitWriter.empty.putAll pieces).numBits }) := by
  intro start
  have hfits : (BitWriter.empty.putAll pieces).numBits ≤ start.limit :=
    BitCursor.le_limit_start (BitWriter.putAll_packed pieces) hlimit
  rw [BitWriter.numBits_putAll] at hfits ⊢
  have hahead : start.Ahead (pieces.flatMap Piece.bits) := by
    have hzero : 0 + (pieces.flatMap Piece.bits).length ≤ start.limit := by rwa [Nat.zero_add]
    have hwritten := BitCursor.ahead_of_written [] (pieces.flatMap Piece.bits) [] hzero
    rw [List.nil_append, ← BitWriter.putAll_eq] at hwritten
    exact hwritten
  have hskip : start.skip (pieces.flatMap Piece.bits).length =
      { start with position := (pieces.flatMap Piece.bits).length } :=
    congrArg (fun n => { start with position := n }) (Nat.zero_add _)
  rw [Shape.readAll_reads pieces start hahead, hskip]

/-- What holds of the writer `w` that some pieces were written with. -/
structure Faithful (pieces : List Piece) (w : BitWriter) : Prop where
  read : ∀ limit : Option Nat, (∀ n ∈ limit, w.numBits ≤ n) →
    let start := BitCursor.start w.bytes limit
    Shape.readAll (pieces.map Piece.shape) start =
      (.ok (pieces.map Piece.received), { start with position := w.numBits })
  /-- A reader that is told where the last piece ends has nothing more to read. -/
  ended : ∀ shape : Shape, 0 < shape.size →
    let done := (Shape.readAll (pieces.map Piece.shape) (.start w.bytes (some w.numBits))).2
    shape.read done = (.error (.overflow (min shape.size BitReader.maxRequested) 0), done)
  size : w.bytes.size = (w.numBits + 7) / 8
  padding : ∀ i, w.numBits ≤ i → bitAt w.bytes i = false
  kept : ∀ later, w.numBits ≤ (w.putAll later).numBits ∧
    ∀ i < w.numBits, bitAt (w.putAll later).bytes i = bitAt w.bytes i

/-- Any pieces that are written into a new buffer are read back in order, each number without the bits
that its field has no room for, and the reader then stands behind the last bit that was written. The
buffer has no byte more than it needs and ends with zeros, and its bits stay as they are when it is
written to again. -/
theorem putAll_faithful (pieces : List Piece) :
    Faithful pieces (BitWriter.empty.putAll pieces) := by
  have hpacked := BitWriter.putAll_packed pieces
  constructor
  case read => exact fun limit hlimit => readAll_putAll pieces hlimit
  case ended =>
      intro shape hsize
      dsimp only
      rw [readAll_putAll pieces (by simp)]
      refine Shape.read_of_end hsize ?_
      rw [BitCursor.remaining, Nat.sub_eq_zero_iff_le]
      exact Nat.min_le_left ..
  case size => exact hpacked.size
  case padding => exact hpacked.padding
  case kept =>
      intro later
      refine ⟨?_, fun i => hpacked.bitAt_putAll later⟩
      rw [BitWriter.putAll_eq (BitWriter.empty.putAll pieces), BitWriter.numBits_writeAll]
      exact Nat.le_add_right ..

/-- Fields across the borders of bytes; the second number has a bit beyond its width. -/
example :
    let pieces : List Piece := [.number 5 3, .bit true, .number 0x1FF 8, .bytes [0x61, 0xFF]]
    let w := BitWriter.empty.putAll pieces
    w.bytes = #[0xFD, 0x1F, 0xF6, 0x0F] ∧
      (Shape.readAll (pieces.map Piece.shape) (.start w.bytes none)).1.toOption =
        some [.number 5 3, .bit true, .number 0xFF 8, .bytes [0x61, 0xFF]] := by
  decide +kernel

end TagTree

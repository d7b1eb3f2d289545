import TagTree.Wire.Bits

/-!
# Two-segment indices

An index of `total` bits is split after the first `first` bits. A small index
sends its first segment and a zero; a larger one sends its first segment, a one
and the remaining bits. When the first segment is empty or would hold
everything, the index is sent as one field without the extra bit. Indices are 32
bits wide, and bits beyond that are lost.

Both sides have to know the two widths. The reader takes the first segment with
the bit behind it as one field, and if that bit is set it reads the remaining
bits and puts them above the first segment. An index that fits its first segment
takes one bit more than the segment, any other one bit more than the whole
width; this is the price that the report of the statistics reckons with.

The greatest index of a first segment is `mask`, and the comparison with it
decides between the two forms. An index that is wider than its width loses the
bits above, as fields do.
-/
namespace TagTree.Packing

/-- Whether an index is sent in one field. -/
def isWhole (first total : Nat) : Bool := first == 0 || total ≤ first

/-- Number of values of a field of `width` bits. -/
def range (width : Nat) : Nat := 1 <<< width

def indexRange : Nat := range 32

/-- The greatest index that is sent in its first segment alone. -/
def mask (first : Nat) : Nat := range first - 1

def write (w : BitWriter) (first total index : Nat) : BitWriter :=
  if isWhole first total then w.writeBits index total
  else if mask first < index then
    let w := (w.writeBits (index &&& mask first) first).writeBit true
    w.writeBits (index >>> first) (total - first)
  else (w.writeBits index first).writeBit false

def read (first total : Nat) : BitReader Nat :=
  if isWhole first total then .readBits total
  else
    .bind (.readBits (first + 1)) fun head =>
      if head &&& range first ≠ 0 then
        .map (fun high => (high <<< first ||| head &&& mask first) % indexRange)
          (.readBits (total - first))
      else .pure head

end TagTree.Packing

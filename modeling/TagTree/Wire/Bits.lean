import TagTree.Error

/-!
# Bits

A message is a stream of bits, packed into bytes with the least significant bit
first. A number is sent as a field of at most 32 bits, its least significant bit
first. A writer appends to its last byte and begins a new one where that is
full. A reader has a cursor into a byte buffer and a limit; a read that asks for
more bits than are left before the limit fails and leaves the cursor alone.

Writing never fails. `writeBits` cuts the width to the maximum and takes the low
bits of the value, and bytes are fields of eight bits. Behind the last bit of a
message the bits of its last byte are zero.

A reader is a function of the cursor that answers a value or an error with a new
cursor. `bind` runs two of them, and `ensure` is the one place where the limit
is looked at: a primitive read takes all its bits or leaves the cursor where it
is. The sizes that an error names are cut to what a word holds. Limits and
buffers are independent, so a cursor may have a limit before the end of its
buffer, but not behind it when it is made by `start`.
-/
namespace TagTree

def maxField : Nat := 32

structure BitWriter where
  bytes : Array UInt8
  numBits : Nat
deriving DecidableEq, Repr

namespace BitWriter

def empty : BitWriter := ⟨#[], 0⟩

instance : Inhabited BitWriter := ⟨empty⟩

def writeBit (w : BitWriter) (bit : Bool) : BitWriter :=
  let offset := w.numBits % 8
  let bytes := if offset = 0 then w.bytes.push 0 else w.bytes
  { bytes :=
      if bit then bytes.modify (bytes.size - 1) fun last => last ||| 1 <<< UInt8.ofNat offset
      else bytes
    numBits := w.numBits + 1 }

/-- Append `count` bits of `value` from the bit `first` on. -/
def writeFrom (w : BitWriter) (value : Nat) : Nat → Nat → BitWriter
  | _, 0 => w
  | first, count + 1 => (w.writeBit (value >>> first &&& 1 == 1)).writeFrom value (first + 1) count

/-- Append a field: the low bits of `value`, in a width that is cut to the maximum. -/
def writeBits (w : BitWriter) (value width : Nat) : BitWriter :=
  w.writeFrom value 0 (min width maxField)

def writeBytes (w : BitWriter) (bytes : List UInt8) : BitWriter :=
  bytes.foldl (fun w b => w.writeBits b.toNat 8) w

end BitWriter

structure BitCursor where
  data : Array UInt8
  position : Nat
  limit : Nat
deriving DecidableEq, Repr, Inhabited

namespace BitCursor

/-- The start of a buffer of which the first `numBits` bits count, or all of them. -/
def start (data : Array UInt8) (numBits : Option Nat) : BitCursor :=
  let size := data.size * 8
  { data, position := 0, limit := (numBits.map (min · size)).getD size }

def remaining (c : BitCursor) : Nat := c.limit - c.position

def isAtEnd (c : BitCursor) : Bool := c.limit ≤ c.position

def bit (c : BitCursor) : Bool :=
  c.data.getD (c.position / 8) 0 >>> UInt8.ofNat (c.position % 8) &&& 1 == 1

def next (c : BitCursor) : BitCursor := { c with position := c.position + 1 }

/-- Add `count` bits to `value` from the bit `first` on. -/
def gather : Nat → Nat → Nat → BitCursor → Nat × BitCursor
  | 0, _, value, c => (value, c)
  | count + 1, first, value, c =>
    gather count (first + 1) (if c.bit then value ||| 1 <<< first else value) c.next

end BitCursor

/-- A reader changes a cursor and gives a value or an error. -/
abbrev BitReader (α : Type) := BitCursor → Except WireError α × BitCursor

namespace BitReader

def bind {α β : Type} (x : BitReader α) (f : α → BitReader β) : BitReader β := fun c =>
  match x c with
  | (.ok a, c) => f a c
  | (.error e, c) => (.error e, c)

def pure {α : Type} (a : α) : BitReader α := fun c => (.ok a, c)

def map {α β : Type} (f : α → β) (x : BitReader α) : BitReader β := bind x fun a => pure (f a)

def fail {α : Type} (e : WireError) : BitReader α := fun c => (.error e, c)

def maxRequested : Nat := 0xFFFFFFFF

/-- Read only if `count` bits are left. -/
def ensure {α : Type} (count : Nat) (read : BitReader α) : BitReader α := fun c =>
  if c.remaining < count then (.error (.overflow (min count maxRequested) c.remaining), c)
  else read c

def readBit : BitReader Bool := ensure 1 fun c => (.ok c.bit, c.next)

/-- Read a field of a width that is cut to the maximum. -/
def readBits (width : Nat) : BitReader Nat :=
  let count := min width maxField
  ensure count fun c =>
    let (value, c) := c.gather count 0 0
    (.ok value, c)

def maxBitCount : Nat := 0xFFFFFFFFFFFFFFFF

def readEachByte : Nat → BitReader (List UInt8)
  | 0 => pure []
  | length + 1 => bind (readBits 8) fun b => map (UInt8.ofNat b :: ·) (readEachByte length)

/-- Read bytes, all or none. -/
def readBytes (length : Nat) : BitReader (List UInt8) :=
  ensure (min (8 * length) maxBitCount) (readEachByte length)

end BitReader
end TagTree

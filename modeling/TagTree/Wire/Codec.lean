import TagTree.Wire.Packing
import TagTree.Wire.Stats

/-!
# Sending tags and containers

A tag travels as its index or as its name: sixteen bits of length and the bytes.
A container is one bit that says whether it is empty, and if not a count and
that many tags. Reading is done in two steps. The first takes fields off the
cursor and knows no registry; the second resolves the fields that were read. So
a message that breaks off still has the effects of the tags before the break.

`Sent` is what sending makes of a writer. It tells which tags were counted,
because a tag is counted before it is known whether it can be sent, and it tells
the error that ended the sending. A name that is too long is such an error; what
was written before it stays written.

The limit on the number of tags in a container is computed in a word of 64 bits,
from a width that nothing cuts. From 64 on the shift is a fault, at which the
program stops: `sendContainer` then answers the fault and writes nothing behind
the bit that says the container has tags. Every other width is cut before it is
used, so no other operation has a fault to answer.
-/
namespace TagTree

structure Layout where
  /-- Width of the first index segment, at most `total`. -/
  first : Nat
  /-- Width of an index. -/
  total : Nat
  /-- Width of the count of a container. -/
  sizeBits : Nat
  fast : Bool
deriving DecidableEq, Repr, Inhabited

def Registry.layout (r : Registry) : Layout where
  first := min r.settings.firstBits r.table.width
  total := r.table.width
  sizeBits := r.settings.sizeBits
  fast := r.settings.fast

def nameLengthBits : Nat := 16

/-- The most tags that the count of a container can hold, computed as the
greatest number of its width. -/
def Layout.countLimit (l : Layout) : Nat := Packing.range l.sizeBits - 1

/-- Width of the word in which that limit is computed. -/
def wordBits : Nat := 64

/-- What sending made of a writer, which tags it counted and why it broke off: with an error, or at a
fault of the arithmetic, behind which nothing is done any more. -/
structure Sent where
  writer : BitWriter
  counted : List Tag := []
  error : Option WireError := none
  fault : Option ArithmeticFault := none
deriving DecidableEq, Repr, Inhabited

namespace Registry

def writeName (w : BitWriter) (name : String) : Except WireError BitWriter :=
  let bytes := name.toUTF8.data.toList
  if Packing.range nameLengthBits ≤ bytes.length then .error (.nameTooLong bytes.length)
  else .ok ((w.writeBits bytes.length nameLengthBits).writeBytes bytes)

def writeTag (r : Registry) (w : BitWriter) (t : Tag) : Except WireError BitWriter :=
  if r.layout.fast then .ok (Packing.write w r.layout.first r.layout.total (r.indexOf t))
  else writeName w t.name

/-- Send tags one after the other up to the first that cannot be sent, which is counted too. -/
def sendTags (r : Registry) (w : BitWriter) : List Tag → Sent
  | [] => { writer := w }
  | t :: rest =>
    match r.writeTag w t with
    | .error e => { writer := w, counted := [t], error := some e }
    | .ok w =>
      let sent := r.sendTags w rest
      { sent with counted := t :: sent.counted }

def sendTag (r : Registry) (w : BitWriter) (t : Tag) : Sent := r.sendTags w [t]

/-- Send a container. Tags beyond what the count can hold are left out and reported. The width of the
count is not checked before the limit is computed, which a width of a whole word or more stops. -/
def sendContainer (r : Registry) (w : BitWriter) (c : Container) : Logged Sent :=
  let w := w.writeBit c.isEmpty
  if c.isEmpty then pure { writer := w }
  else if wordBits ≤ r.layout.sizeBits then
    pure { writer := w, fault := some (.shift wordBits r.layout.sizeBits) }
  else do
    let limit := r.layout.countLimit
    Logged.emitIf (limit < c.size) (.containerCut c.size limit r.layout.sizeBits)
    let count := min c.size limit
    pure (r.sendTags (w.writeBits count r.layout.sizeBits) (c.tags.take count))

end Registry

/-- Count the tags of a message that carried them on their own. -/
def SendStats.recordSent (s : SendStats) (sent : Sent) : SendStats :=
  sent.counted.foldl recordAlone s

/-- Count the tags of a message that carried them in a container. -/
def SendStats.recordSentInside (s : SendStats) (sent : Sent) : SendStats :=
  sent.counted.foldl recordInside s

inductive WireTag where
  | index (n : Nat)
  | name (s : String)
deriving DecidableEq, Repr

def textOfBytes? (bytes : List UInt8) : Option String :=
  String.fromUTF8? (ByteArray.mk bytes.toArray)

namespace Layout

def readName : BitReader WireTag :=
  .bind (.readBits nameLengthBits) fun length =>
    .bind (.readBytes length) fun bytes =>
      match textOfBytes? bytes with
      | some s => .pure (.name s)
      | none => .fail .invalidUtf8

def readTag (l : Layout) : BitReader WireTag :=
  if l.fast then .map .index (Packing.read l.first l.total) else readName

/-- Read up to `n` tags; stops at the first that cannot be read. -/
def readTags (l : Layout) : Nat → BitCursor → List WireTag × Except WireError Unit × BitCursor
  | 0, c => ([], .ok (), c)
  | n + 1, c =>
    match l.readTag c with
    | (.error e, c) => ([], .error e, c)
    | (.ok t, c) =>
      let (later, outcome, c) := readTags l n c
      (t :: later, outcome, c)

/-- Read the emptiness bit and the count of a container; an empty one has no tags to read. -/
def readCount (l : Layout) : BitReader Nat :=
  .bind .readBit fun isEmpty =>
    if isEmpty then .pure 0 else .readBits l.sizeBits

end Layout

namespace Registry

/-- The largest index there is. -/
def maxIndex : Nat := 0xFFFF

/-- The tag that a field stands for. -/
def receive (r : Registry) : WireTag → Logged (Registry × Tag)
  | .index n =>
    if maxIndex < n then do
      Logged.emit (.indexTooWide n)
      pure (r, .invalid)
    else do pure (r, ← r.tagOfIndex n)
  | .name s => if s = "" then pure (r, .invalid) else r.requestIf r.settings.warnOnInvalid s

def receiveAll (r : Registry) : List WireTag → Logged (Registry × List Tag)
  | [] => pure (r, [])
  | field :: rest => do
    let (r, tag) ← r.receive field
    let (r, tags) ← r.receiveAll rest
    pure (r, tag :: tags)

def readTag (r : Registry) (c : BitCursor) :
    Logged (Registry × Except WireError Tag × BitCursor) :=
  match r.layout.readTag c with
  | (.error e, c) => pure (r, .error e, c)
  | (.ok field, c) => do
    let (r, tag) ← r.receive field
    pure (r, .ok tag, c)

/-- Read a container; invalid tags and repetitions are dropped. -/
def readContainer (r : Registry) (c : BitCursor) :
    Logged (Registry × Except WireError Container × BitCursor) :=
  match r.layout.readCount c with
  | (.error e, c) => pure (r, .error e, c)
  | (.ok count, c) => do
    let (fields, outcome, c) := r.layout.readTags count c
    let (r, tags) ← r.receiveAll fields
    pure (r, outcome.map fun _ => Container.ofList tags, c)

end Registry
end TagTree

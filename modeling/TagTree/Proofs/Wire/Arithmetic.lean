import TagTree.Proofs.Wire.Checked
import TagTree.Proofs.Wire.Safety
import TagTree.Proofs.Wire.Table

/-!
# Codecs in machine words

The index table is built and tags and containers are sent and received in
machine words, the counts and capacities in words of 64 bits, the fields in
words of 32, the indices in words of 16. Whatever the settings are, there is one
shift that can go wrong: the width of the count of a container is used as it is
set, so that sending tags in a container shifts by it. Every other width is cut
before it is used.

Each definition here goes through the same steps as the one that runs, with a
check at every shift, difference, narrowing and access. That a definition in
words comes to the one that runs is an equation for each, proved from the
equations of its parts; the side conditions are bounds on the widths, which come
from the table, whose width is at most sixteen.

The definition of sending a container that runs has the fault as an answer of
its own, in front of the count, and it is the same fault as in words. Words have
one fault more, where the number of tags is kept in 32 bits: there a program
drops the higher bits and goes on, and so does the definition that runs. It
takes a count of more than 32 bits and as many tags as 32 bits can count.
Settings that were checked allow sixteen bits, so with them neither happens.
-/
namespace TagTree

namespace Checked
open Word

/-- The zeros in front of the binary digits of a value, in a word of `bits` bits. -/
def leadingZeros (value : Nat) : Nat → Nat
  | 0 => 0
  | bits + 1 => if value.testBit bits then 0 else leadingZeros value bits + 1

theorem leadingZeros_le (value bits : Nat) : leadingZeros value bits ≤ bits := by
  induction bits with
  | zero => exact Nat.le_refl _
  | succ bits ih =>
      rw [leadingZeros]
      split
      · exact Nat.zero_le _
      · exact Nat.succ_le_succ ih

theorem sub_leadingZeros {value bits : Nat} (h : value < Packing.range bits) :
    bits - leadingZeros value bits = bitsFor value := by
  induction bits with
  | zero =>
      have hzero : value = 0 := Nat.lt_one_iff.mp h
      rw [hzero]
      rfl
  | succ bits ih =>
      rw [leadingZeros]
      by_cases htop : value.testBit bits = true
      · have hle : Packing.range bits ≤ value := by
          by_contra hlt
          rw [testBit_of_lt_range (Nat.lt_of_not_le hlt) (Nat.le_refl _)] at htop
          cases htop
        have hpos := Packing.range_pos bits
        have hne : value ≠ 0 := by omega
        have hlog : value.log2 = bits := by
          rw [Packing.range, Nat.one_shiftLeft] at h hle
          exact (Nat.log2_eq_iff hne).mpr ⟨hle, h⟩
        rw [if_pos htop, bitsFor, if_neg hne, hlog]
        rfl
      · have hlt : value < Packing.range bits := by
          refine lt_range_of_testBit fun j hj => ?_
          rcases Nat.eq_or_lt_of_le hj with rfl | hlt
          · exact Bool.eq_false_iff.mpr htop
          · exact testBit_of_lt_range h hlt
        have hzeros := leadingZeros_le value bits
        rw [if_neg htop, ← ih hlt]
        omega

def digits (value : Nat) : Checked Nat := sub 32 (leadingZeros value 32)

theorem digits_eq {value : Nat} (h : value < Packing.range 32) :
    digits value = .ok (bitsFor value) := by
  rw [digits, sub_ok (leadingZeros_le value 32), sub_leadingZeros h]

/-- A table with the sentinel and the width that are kept with it. -/
structure BuiltTable where
  table : IndexTable
  sentinel : Nat
  width : Nat

def buildTable (tags common : List Tag) (maxBits : Nat) : Checked (Logged BuiltTable) := do
  let all := IndexTable.ordered tags common
  let bits := IndexTable.clampWidth maxBits
  let top ← shiftLeft 64 1 bits
  let room ← sub top 2
  let kept := all.take room
  let sentinel ← fit 16 (kept.length + 1)
  let width ← digits sentinel
  let cut := if room < all.length then [.indexOverflow all.length room bits] else []
  .ok ⟨⟨⟨kept⟩, sentinel, width⟩, cut⟩

theorem sentinel_build_le (tags common : List Tag) (maxBits : Nat) :
    (IndexTable.build tags common maxBits).value.sentinel ≤ Registry.maxIndex :=
  IndexTable.sentinel_le (List.length_take_le ..)

theorem buildTable_eq (tags common : List Tag) (maxBits : Nat) :
    let t := IndexTable.build tags common maxBits
    buildTable tags common maxBits =
      .ok ⟨⟨t.value, t.value.sentinel, t.value.width⟩, t.events⟩ := by
  intro t
  have hclamp := IndexTable.clampWidth_le maxBits
  have hrange : Packing.range 1 ≤ Packing.range (IndexTable.clampWidth maxBits) :=
    range_le_range (Nat.le_max_left ..)
  have hroom : sub (Packing.range (IndexTable.clampWidth maxBits)) 2 =
      .ok (IndexTable.capacity maxBits) := sub_ok hrange
  have hlt : t.value.sentinel < Packing.range 16 := Nat.lt_succ_of_le (sentinel_build_le ..)
  have hsentinel : fit 16 (((IndexTable.ordered tags common).take
      (IndexTable.capacity maxBits)).length + 1) = .ok t.value.sentinel := fit_ok hlt
  have hevents : t.events = (if IndexTable.capacity maxBits < (IndexTable.ordered tags common).length
      then [.indexOverflow (IndexTable.ordered tags common).length (IndexTable.capacity maxBits)
        (IndexTable.clampWidth maxBits)] else []) := by
    simp [t, IndexTable.build, Logged.emitIf]
  rw [buildTable]
  dsimp only
  rw [shiftLeft_one (by omega), ok_bind, hroom, ok_bind, hsentinel, ok_bind,
    digits_eq (Nat.lt_of_lt_of_le hlt (range_le_range (by decide))), ok_bind, hevents]
  rfl

/-- Give the nodes of `tags` the indices from `first` on. -/
def assign (t : Tree) : Nat → List Tag → Checked Tree
  | _, [] => .ok t
  | first, tag :: rest =>
    match t.position? tag.name with
    | some i => do
      let index ← fit 16 first
      assign (t.setIndex i (some index)) (first + 1) rest
    | none => assign t (first + 1) rest

theorem assign_eq (t : Tree) {first : Nat} {tags : List Tag}
    (h : first + tags.length ≤ Packing.range 16) : assign t first tags = .ok (t.assign first tags) := by
  induction tags generalizing t first with
  | nil => rfl
  | cons tag tags ih =>
      rw [List.length_cons] at h
      rw [assign, Tree.assign]
      cases t.position? tag.name with
      | none => exact ih _ (by omega)
      | some i =>
          dsimp only
          rw [fit_ok (by omega), ok_bind, ih _ (by omega)]

/-- Make the index table of a registry from what is registered now. -/
def reindex (r : Registry) : Checked (Logged Registry) := do
  let common := r.findCommon r.settings.common
  let built ← buildTable r.tree.tags common.value r.settings.maxBits
  let tree ← assign r.tree.withoutIndices 0 built.value.table.tags
  .ok ⟨{ r with common := common.value, table := built.value.table, tree },
    common.events ++ built.events⟩

theorem reindex_eq (r : Registry) : reindex r = .ok r.reindex := by
  have hsentinel :=
    sentinel_build_le r.tree.tags (r.findCommon r.settings.common).value r.settings.maxBits
  have hevents : r.reindex.events = (r.findCommon r.settings.common).events ++
      (IndexTable.build r.tree.tags (r.findCommon r.settings.common).value
        r.settings.maxBits).events := by
    simp [Registry.reindex]
  have hvalue : r.reindex = ⟨r.reindex.value, r.reindex.events⟩ := rfl
  rw [reindex, hvalue, hevents, buildTable_eq, ok_bind, assign_eq, ok_bind]
  · rfl
  · have hmax : Packing.range 16 = Registry.maxIndex + 1 := rfl
    rw [IndexTable.sentinel, IndexTable.size] at hsentinel
    dsimp only
    omega

def writeName (w : BitWriter) (name : String) : Checked (Except WireError BitWriter) := do
  let bytes := Registry.nameBytes name
  let limit ← shiftLeft 64 1 nameLengthBits
  if limit ≤ bytes.length then .ok (.error (.nameTooLong bytes.length))
  else do
    let length ← fit 32 bytes.length
    let w ← writeBits w length nameLengthBits
    let w ← writeBytes w bytes
    .ok (.ok w)

def writeTag (r : Registry) (w : BitWriter) (t : Tag) : Checked (Except WireError BitWriter) :=
  if r.layout.fast then do
    let w ← writeIndex w r.layout.first r.layout.total (r.indexOf t)
    .ok (.ok w)
  else writeName w t.name

def sendTags (r : Registry) (w : BitWriter) : List Tag → Checked Sent
  | [] => .ok { writer := w }
  | t :: rest => do
    match ← writeTag r w t with
    | .error e => .ok { writer := w, counted := [t], error := some e }
    | .ok w => do
      let sent ← sendTags r w rest
      .ok { sent with counted := t :: sent.counted }

def sendTag (r : Registry) (w : BitWriter) (t : Tag) : Checked Sent := sendTags r w [t]

/-- Send a container. Tags beyond what the count can hold are left out and reported. -/
def sendContainer (r : Registry) (w : BitWriter) (c : Container) : Checked (Logged Sent) := do
  let w ← writeBit w c.isEmpty
  if c.isEmpty then .ok ⟨{ writer := w }, []⟩
  else do
    let top ← shiftLeft 64 1 r.layout.sizeBits
    let limit ← sub top 1
    let count := min c.size limit
    let field ← fit 32 count
    let w ← writeBits w field r.layout.sizeBits
    let sent ← sendTags r w (c.tags.take count)
    .ok ⟨sent, if limit < c.size then [.containerCut c.size limit r.layout.sizeBits] else []⟩

theorem writeName_eq (w : BitWriter) (name : String) :
    writeName w name = .ok (Registry.writeName w name) := by
  have hlimit : shiftLeft 64 1 nameLengthBits = .ok (Packing.range nameLengthBits) :=
    shiftLeft_one (by decide)
  rw [writeName, Registry.writeName, hlimit, ok_bind, ← Registry.nameBytes]
  split
  · rfl
  · rename_i hlong
    have hfit : (Registry.nameBytes name).length < Packing.range 32 :=
      Nat.lt_of_lt_of_le (Nat.lt_of_not_le hlong) (range_le_range (by decide))
    rw [fit_ok hfit, ok_bind, writeBits_eq, ok_bind, writeBytes_eq, ok_bind]

section
variable {r : Registry} (h : r.layout.total ≤ 32)
include h

theorem writeTag_eq (w : BitWriter) (t : Tag) : writeTag r w t = .ok (r.writeTag w t) := by
  unfold writeTag Registry.writeTag
  split
  · rw [writeIndex_eq h, ok_bind]
  · exact writeName_eq w t.name

theorem sendTags_eq (w : BitWriter) (ts : List Tag) :
    sendTags r w ts = .ok (r.sendTags w ts) := by
  induction ts generalizing w with
  | nil => rfl
  | cons t ts ih =>
      rw [sendTags, writeTag_eq h, ok_bind, Registry.sendTags]
      cases r.writeTag w t with
      | error e => rfl
      | ok w =>
          dsimp only
          rw [ih, ok_bind]

/-- The count is the one place where the settings decide. -/
theorem sendContainer_eq (w : BitWriter) (c : Container) : sendContainer r w c =
    if c.isEmpty then .ok (r.sendContainer w c)
    else if 64 ≤ r.settings.sizeBits then .error (.shift 64 r.settings.sizeBits)
    else if Packing.range 32 ≤ min c.size (Packing.range r.settings.sizeBits - 1) then
      .error (.wide 32 (min c.size (Packing.range r.settings.sizeBits - 1)))
    else .ok (r.sendContainer w c) := by
  have hbits : r.layout.sizeBits = r.settings.sizeBits := rfl
  rw [sendContainer, writeBit_eq, ok_bind, Registry.sendContainer, hbits]
  by_cases hempty : c.isEmpty = true
  · rw [if_pos hempty, if_pos hempty, if_pos hempty]
    rfl
  rw [if_neg hempty, if_neg hempty, if_neg hempty]
  by_cases hshift : 64 ≤ r.settings.sizeBits
  · rw [if_pos hshift, shiftLeft, if_neg (Nat.not_lt_of_le hshift), error_bind]
  have hplaces := Nat.lt_of_not_le hshift
  have hword : ¬ wordBits ≤ r.settings.sizeBits := hshift
  have hlimit : r.layout.countLimit = Packing.range r.settings.sizeBits - 1 := rfl
  have htop : sub (Packing.range r.settings.sizeBits) 1 =
      .ok (Packing.range r.settings.sizeBits - 1) := sub_ok (Packing.range_pos _)
  rw [if_neg hshift, if_neg hword, shiftLeft_one hplaces, ok_bind, htop, ok_bind, hlimit]
  dsimp only
  by_cases hwide : Packing.range 32 ≤ min c.size (Packing.range r.settings.sizeBits - 1)
  · have hfit : fit 32 (min c.size (Packing.range r.settings.sizeBits - 1)) =
        .error (.wide 32 (min c.size (Packing.range r.settings.sizeBits - 1))) :=
      if_neg (Nat.not_lt_of_le hwide)
    rw [if_pos hwide, hfit, error_bind]
  · rw [if_neg hwide, fit_ok (Nat.lt_of_not_le hwide), ok_bind, writeBits_eq, ok_bind,
      sendTags_eq h, ok_bind]
    by_cases hcut : Packing.range r.settings.sizeBits - 1 < c.size
    · rw [if_pos hcut, decide_eq_true hcut]
      rfl
    · rw [if_neg hcut, decide_eq_false hcut]
      rfl

end

namespace Reader
open BitReader (StaysInside)

def readName : Reader WireTag :=
  bind (readBits nameLengthBits) fun length =>
  bind (readBytes length) fun bytes =>
    match textOfBytes? bytes with
    | some s => pure (.name s)
    | none => fail .invalidUtf8

def readTag (l : Layout) : Reader WireTag :=
  if l.fast then bind (readIndex l.first l.total) fun n => pure (.index n) else readName

def readCount (l : Layout) : Reader Nat :=
  bind readBit fun isEmpty => if isEmpty then pure 0 else readBits l.sizeBits

theorem readName_faultless : Faultless readName Layout.readName := by
  refine (readBits_faultless _).bind (BitReader.readBits_staysInside _) fun length _ _ _ => ?_
  refine (readBytes_faultless _).bind (BitReader.readBytes_staysInside _) fun bytes _ _ _ => ?_
  cases textOfBytes? bytes with
  | some s => exact .pure _
  | none => exact fun _ _ => rfl

theorem readTag_faultless {l : Layout} (h : l.total ≤ 32) : Faultless (readTag l) l.readTag := by
  unfold readTag Layout.readTag
  split
  · exact (readIndex_faultless h).bind (Packing.read_composed ..).staysInside fun _ _ _ _ => .pure _
  · exact readName_faultless

theorem readCount_faultless (l : Layout) : Faultless (readCount l) l.readCount := by
  refine readBit_faultless.bind BitReader.readBit_staysInside fun isEmpty _ _ _ => ?_
  cases isEmpty with
  | true => exact .pure 0
  | false => exact readBits_faultless _

end Reader

def readTags (l : Layout) :
    Nat → BitCursor → Checked (List WireTag × Except WireError Unit × BitCursor)
  | 0, c => .ok ([], .ok (), c)
  | n + 1, c => do
    match ← Reader.readTag l c with
    | (.error e, c) => .ok ([], .error e, c)
    | (.ok t, c) => do
      let (later, outcome, c) ← readTags l n c
      .ok (t :: later, outcome, c)

def readTag (r : Registry) (c : BitCursor) :
    Checked (Logged (Registry × Except WireError Tag × BitCursor)) := do
  match ← Reader.readTag r.layout c with
  | (.error e, c) => .ok (pure (r, .error e, c))
  | (.ok field, c) => .ok ((fun (r, tag) => (r, .ok tag, c)) <$> r.receive field)

def readContainer (r : Registry) (c : BitCursor) :
    Checked (Logged (Registry × Except WireError Container × BitCursor)) := do
  match ← Reader.readCount r.layout c with
  | (.error e, c) => .ok (pure (r, .error e, c))
  | (.ok count, c) => do
    let (fields, outcome, c) ← readTags r.layout count c
    .ok ((fun (r, tags) => (r, outcome.map fun _ => Container.ofList tags, c)) <$>
      r.receiveAll fields)

theorem readTags_eq {l : Layout} (h : l.total ≤ 32) (n : Nat) {c : BitCursor} (hc : c.Within) :
    readTags l n c = .ok (l.readTags n c) := by
  induction n generalizing c with
  | zero => rfl
  | succ n ih =>
      have hrun := l.readTag_composed.staysInside c hc
      rw [readTags, Reader.readTag_faultless h c hc, ok_bind, Layout.readTags]
      rcases hread : l.readTag c with ⟨e | t, c'⟩
      · rfl
      · rw [hread] at hrun
        dsimp only
        rw [ih (hrun.within hc), ok_bind]

theorem readTag_eq {r : Registry} (h : r.layout.total ≤ 32) {c : BitCursor} (hc : c.Within) :
    readTag r c = .ok (r.readTag c) := by
  rw [readTag, Reader.readTag_faultless h c hc, ok_bind, Registry.readTag]
  rcases r.layout.readTag c with ⟨e | field, c'⟩
  · rfl
  · rfl

theorem readContainer_eq {r : Registry} (h : r.layout.total ≤ 32) {c : BitCursor} (hc : c.Within) :
    readContainer r c = .ok (r.readContainer c) := by
  have hrun := r.layout.readCount_composed.staysInside c hc
  rw [readContainer, Reader.readCount_faultless r.layout c hc, ok_bind, Registry.readContainer]
  rcases hread : r.layout.readCount c with ⟨e | count, c'⟩
  · rfl
  · rw [hread] at hrun
    dsimp only
    rw [readTags_eq h count (hrun.within hc), ok_bind]
    rfl

end Checked

namespace Registry

theorem sendTags_fault (r : Registry) (w : BitWriter) (ts : List Tag) :
    (r.sendTags w ts).fault = none := by
  induction ts generalizing w with
  | nil => rfl
  | cons t ts ih =>
      rw [sendTags]
      cases r.writeTag w t with
      | error e => rfl
      | ok w => exact ih w

/-- Sending a container stops in front of its count, and nowhere else. The tags
behind the count are sent without any fault. -/
theorem sendContainer_fault (r : Registry) (w : BitWriter) (c : Container) :
    (r.sendContainer w c).value.fault =
      if c.isEmpty = false ∧ 64 ≤ r.settings.sizeBits then some (.shift 64 r.settings.sizeBits)
      else none := by
  unfold sendContainer
  by_cases hempty : c.isEmpty = true
  · have hnone : ¬ (c.isEmpty = false ∧ 64 ≤ r.settings.sizeBits) := fun h => by
      rw [h.1] at hempty
      cases hempty
    rw [if_pos hempty, if_neg hnone]
    rfl
  rw [if_neg hempty]
  by_cases hshift : wordBits ≤ r.layout.sizeBits
  · rw [if_pos hshift, if_pos ⟨Bool.eq_false_iff.mpr hempty, hshift⟩]
    rfl
  · rw [if_neg hshift, if_neg fun h => hshift h.2]
    exact sendTags_fault ..

/-- What the codec of a registry comes to in machine words. -/
structure ArithmeticLaws (r : Registry) : Prop where
  buildTable : ∀ tags common maxBits,
    let t := IndexTable.build tags common maxBits
    Checked.buildTable tags common maxBits =
      .ok ⟨⟨t.value, t.value.sentinel, t.value.width⟩, t.events⟩
  reindex : Checked.reindex r = .ok r.reindex
  sendTag : ∀ w t, Checked.sendTag r w t = .ok (r.sendTag w t)
  /-- A count of 64 bits or more is a fault for every container with tags, and so is a number of tags
  that a count of 32 bits cannot hold. -/
  sendContainer : ∀ w c, Checked.sendContainer r w c =
    if c.isEmpty then .ok (r.sendContainer w c)
    else if 64 ≤ r.settings.sizeBits then .error (.shift 64 r.settings.sizeBits)
    else if Packing.range 32 ≤ min c.size (Packing.range r.settings.sizeBits - 1) then
      .error (.wide 32 (min c.size (Packing.range r.settings.sizeBits - 1)))
    else .ok (r.sendContainer w c)
  /-- Sending a container stops at that shift, and at no other. -/
  fault : ∀ w c, (r.sendContainer w c).value.fault =
    if c.isEmpty = false ∧ 64 ≤ r.settings.sizeBits then some (.shift 64 r.settings.sizeBits)
    else none
  /-- Settings that were checked have no fault. -/
  sound : r.settings.check = .ok () → ∀ w c,
    Checked.sendContainer r w c = .ok (r.sendContainer w c)
  readTag : ∀ c, Visited c → Checked.readTag r c = .ok (r.readTag c)
  readContainer : ∀ c, Visited c → Checked.readContainer r c = .ok (r.readContainer c)

theorem Reachable.arithmeticLaws {r : Registry} (h : Reachable r) : ArithmeticLaws r := by
  have htotal : r.layout.total ≤ 32 :=
    Nat.le_trans (IndexTable.width_le h.consistent.fits) (by decide)
  constructor
  case buildTable => exact Checked.buildTable_eq
  case reindex => exact Checked.reindex_eq r
  case sendTag => exact fun w t => Checked.sendTags_eq htotal w [t]
  case sendContainer => exact Checked.sendContainer_eq htotal
  case fault => exact r.sendContainer_fault
  case sound =>
      intro hsettings w c
      have hwidth := (sizeBits_of_check hsettings).2
      have hrange : Packing.range r.settings.sizeBits ≤ Packing.range 16 := range_le_range hwidth
      have h16 : Packing.range 16 = 65536 := rfl
      have h32 : Packing.range 32 = 4294967296 := rfl
      have hshift : ¬ 64 ≤ r.settings.sizeBits := by omega
      have hwide : ¬ Packing.range 32 ≤ min c.size (Packing.range r.settings.sizeBits - 1) := by omega
      rw [Checked.sendContainer_eq htotal, if_neg hshift, if_neg hwide, ite_self]
  case readTag => exact fun c hc => Checked.readTag_eq htotal hc.within
  case readContainer => exact fun c hc => Checked.readContainer_eq htotal hc.within

theorem arithmeticLaws_unchecked :
    let r := (empty { sizeBits := 4294967295, firstBits := 4294967295, maxBits := 0 }).run
      [.addNative ⟨"A", ""⟩, .finalize]
    r.layout = ⟨1, 1, 4294967295, true⟩ ∧ ArithmeticLaws r :=
  ⟨by decide +kernel, Reachable.arithmeticLaws (.run (.origin (.empty _)) _)⟩

/-- The count is as wide as the word: nothing is sent behind the emptiness bit. -/
theorem sendContainer_shift :
    let r := (empty { sizeBits := 64 }).run [.addNative ⟨"A", ""⟩, .finalize]
    let c := Container.ofList [⟨"A"⟩]
    Reachable r ∧ Checked.sendContainer r .empty c = .error (.shift 64 64) ∧
      (r.sendContainer .empty c).value =
        { writer := BitWriter.empty.writeBit false, fault := some (.shift 64 64) } := by
  intro r c
  have hreachable : Reachable r := .run (.origin (.empty _)) _
  have htotal : r.layout.total ≤ 32 := by decide +kernel
  have hsize : r.settings.sizeBits = 64 := by decide +kernel
  refine ⟨hreachable, ?_, by decide +kernel⟩
  rw [Checked.sendContainer_eq htotal, if_neg (by decide +kernel), hsize]
  rfl

end Registry
end TagTree

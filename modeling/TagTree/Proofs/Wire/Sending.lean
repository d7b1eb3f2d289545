import TagTree.Proofs.Registry.Consistent
import TagTree.Proofs.Wire.Packing
import TagTree.Wire.Codec

/-!
# What is sent

A tag that can be sent adds bits that depend on the tag and the registry only,
and these bits read as the tag's index or its name. A container that is sent
adds the emptiness bit, the count and the bits of the tags that the count can
hold.

`wireTag` is the field that a tag travels as, its index or its name, and
`tagBits` the bits that carry it. An index comes from the node of the tag and is
a position of the table, or it is the sentinel; either way it fits the width of
the table, so it is read back as it was. A name is read back because its bytes
are those of a text.

A tag with an index is registered and valid. The sentinel stands for everything
else, so tags without an index are not told apart on the wire. Only a name can
be refused, and only for its length.
-/
namespace TagTree

namespace IndexTable
variable (t : IndexTable)

theorem width_le_iff {bits : Nat} : t.width ≤ bits ↔ t.sentinel < Packing.range bits := by
  have hne : t.sentinel ≠ 0 := Nat.succ_ne_zero _
  rw [width, bitsFor, if_neg hne, Packing.range, Nat.one_shiftLeft, ← Nat.log2_lt hne]
  exact Nat.succ_le_iff

theorem sentinel_lt : t.sentinel < Packing.range t.width := t.width_le_iff.mp (Nat.le_refl _)

variable {t} {maxBits : Nat} (h : t.size ≤ capacity maxBits)
include h

theorem sentinel_le : t.sentinel ≤ Registry.maxIndex := by
  have hclamp : clampWidth maxBits ≤ 16 := by
    unfold clampWidth
    omega
  have hrange := range_le_range hclamp
  have hcapacity : capacity maxBits = Packing.range (clampWidth maxBits) - 2 := rfl
  have h16 : Packing.range 16 = Registry.maxIndex + 1 := rfl
  have hsentinel : t.sentinel = t.size + 1 := rfl
  rw [hcapacity] at h
  rw [h16] at hrange
  have hmax : Registry.maxIndex = 65535 := rfl
  omega

theorem width_le : t.width ≤ 16 := t.width_le_iff.mpr (Nat.lt_succ_of_le (sentinel_le h))

end IndexTable

namespace Registry

def wireTag (r : Registry) (t : Tag) : WireTag :=
  if r.layout.fast then .index (r.indexOf t) else .name t.name

def nameBytes (name : String) : List UInt8 := name.toUTF8.data.toList

def nameBits (name : String) : List Bool :=
  fieldBits nameLengthBits (nameBytes name).length ++ bytesBits (nameBytes name)

def tagBits (r : Registry) (t : Tag) : List Bool :=
  if r.layout.fast then Packing.bits r.layout.first r.layout.total (r.indexOf t)
  else nameBits t.name

theorem textOfBytes?_nameBytes (name : String) : textOfBytes? (nameBytes name) = some name := by
  have hbytes : ByteArray.mk (nameBytes name).toArray = name.toUTF8 := rfl
  have hvalid : name.toUTF8.IsValidUTF8 := name.isValidUTF8
  rw [textOfBytes?, hbytes, String.fromUTF8?, dif_pos hvalid]
  rfl

/-- The position that a node carries is one of the table, and the tag stands there. -/
theorem tagAt?_of_index {r : Registry} (h : r.Consistent) {t : Tag} {k : Nat}
    (hk : (r.tree.node? t.name).bind (·.index) = some k) : r.table.tagAt? k = some t := by
  obtain ⟨n, hn, hindex⟩ := Option.bind_eq_some_iff.mp hk
  obtain ⟨i, hi, rfl⟩ := Option.map_eq_some_iff.mp hn
  have hat := h.indices i k hindex
  have htag : (r.tree.node i).tag = t := congrArg Tag.mk ((h.tree.names t.name i).mp hi).2.2
  rw [IndexTable.tagAt?, hat, htag]

theorem isValid_of_index {r : Registry} (h : r.Consistent) {t : Tag} {k : Nat}
    (hk : (r.tree.node? t.name).bind (·.index) = some k) : t.isValid = true := by
  obtain ⟨n, hn, _⟩ := Option.bind_eq_some_iff.mp hk
  obtain ⟨i, hi, _⟩ := Option.map_eq_some_iff.mp hn
  obtain ⟨hpos, hlt, hname⟩ := (h.tree.names t.name i).mp hi
  have hne := h.tree.name_ne_empty hpos hlt
  rw [hname] at hne
  exact bne_iff_ne.mpr hne

theorem indexOf_cases {r : Registry} (h : r.Consistent) (t : Tag) :
    r.indexOf t = r.table.sentinel ∨
      r.indexOf t < r.table.size ∧ r.table.tagAt? (r.indexOf t) = some t ∧ t.isValid = true := by
  unfold indexOf
  cases hk : (r.tree.node? t.name).bind (·.index) with
  | none => exact .inl rfl
  | some k =>
      have hat := tagAt?_of_index h hk
      exact .inr ⟨(List.getElem?_eq_some_iff.mp hat).choose, hat, isValid_of_index h hk⟩

theorem indexOf_le_sentinel {r : Registry} (h : r.Consistent) (t : Tag) :
    r.indexOf t ≤ r.table.sentinel := by
  have hsentinel : r.table.sentinel = r.table.size + 1 := rfl
  rcases indexOf_cases h t with he | ⟨hlt, _, _⟩
  · omega
  · omega

theorem writeName_ok {w w' : BitWriter} {name : String} (hw : writeName w name = .ok w') :
    w' = w.writeAll (nameBits name) ∧ Layout.readName.Reads (nameBits name) (.name name) := by
  have hmin : min nameLengthBits maxField = nameLengthBits := by decide
  unfold writeName at hw
  dsimp only at hw
  rw [← nameBytes] at hw
  split at hw
  · cases hw
  · rename_i hlength
    cases hw
    constructor
    · rw [BitWriter.writeBits_eq, BitWriter.writeBytes_eq, hmin, nameBits, BitWriter.writeAll_append]
    · have hfield := BitReader.readBits_reads nameLengthBits (nameBytes name).length
      rw [hmin, Nat.mod_eq_of_lt (Nat.lt_of_not_le hlength)] at hfield
      have hbytes := BitReader.readBytes_reads (nameBytes name)
      refine hfield.bind (hbytes.last ?_)
      rw [textOfBytes?_nameBytes]
      exact .pure _

/-- A tag that can be sent adds its bits, and they are read as its field. -/
theorem writeTag_ok {r : Registry} (h : r.Consistent) {w w' : BitWriter} {t : Tag}
    (hw : r.writeTag w t = .ok w') : w' = w.writeAll (r.tagBits t) ∧
      r.layout.readTag.Reads (r.tagBits t) (r.wireTag t) := by
  have htotal : r.layout.total ≤ maxField := Nat.le_trans (IndexTable.width_le h.fits) (by decide)
  unfold writeTag at hw
  unfold tagBits wireTag Layout.readTag
  split at hw
  · rename_i hfast
    cases hw
    rw [if_pos hfast, if_pos hfast, if_pos hfast]
    have hread : (Packing.read r.layout.first r.layout.total).Reads _ _ :=
      Packing.read_reads htotal (r.indexOf t)
    have hlt : r.indexOf t < Packing.range r.layout.total :=
      Nat.lt_of_le_of_lt (indexOf_le_sentinel h t) r.table.sentinel_lt
    rw [Nat.mod_eq_of_lt hlt] at hread
    exact ⟨Packing.write_eq htotal .., hread.map WireTag.index⟩
  · rename_i hname
    rw [if_neg hname, if_neg hname, if_neg hname]
    exact writeName_ok hw

end Registry
end TagTree

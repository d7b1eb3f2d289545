import TagTree.Error
import TagTree.Proofs.Container.Rebuilt
import TagTree.Proofs.Registry.Run
import TagTree.Proofs.Wire.Receiving

/-!
# Containers, sent and received

A container that was sent is read at the other end from the bits that carry it,
wherever they begin and whatever follows. What arrives depends on the sender's
index or name of each tag and on the receiver's table or lookup, and on nothing
that happened on the way.

The bits of a container are its header and the bits of its tags. If no tag was
refused the writer has appended exactly these, and each tag's bits read as the
field that the tag travels as. On the other side a reader that has these bits
ahead reads the header, then as many fields as it says, and stops behind the
last one.

With settings that were checked, the width of the count is between one and
sixteen bits, so it is never cut and never stops the sender, and a count that
fits comes back as it was. `arrivals` says what a peer has in the end: the tags
that the count could hold, each as what becomes of it, without those that become
nothing and without repetitions, in their order.
-/
namespace TagTree

/-- Tags whose bits are ahead are all read, and the cursor stops behind the last. -/
theorem Layout.readTags_reads {l : Layout} {bits : Tag → List Bool} {field : Tag → WireTag}
    {ts : List Tag} (h : ∀ t ∈ ts, l.readTag.Reads (bits t) (field t)) {c : BitCursor}
    (hc : c.Ahead (ts.flatMap bits)) :
    l.readTags ts.length c = (ts.map field, .ok (), c.skip (ts.flatMap bits).length) := by
  induction ts generalizing c with
  | nil => rfl
  | cons t ts ih =>
      rw [List.flatMap_cons] at hc
      have hrest := ih (fun u hu => h u (List.mem_cons_of_mem _ hu)) hc.right
      rw [List.length_cons, readTags, h t List.mem_cons_self c hc.left]
      dsimp only
      rw [hrest, BitCursor.skip_skip, List.flatMap_cons, List.length_append, List.map_cons]

namespace Registry

theorem sendTags_ok {r : Registry} (h : r.Consistent) {w : BitWriter} {ts : List Tag}
    (hs : (r.sendTags w ts).error = none) :
    (r.sendTags w ts).writer = w.writeAll (ts.flatMap r.tagBits) ∧
      ∀ t ∈ ts, r.layout.readTag.Reads (r.tagBits t) (r.wireTag t) := by
  induction ts generalizing w with
  | nil => exact ⟨rfl, fun t ht => nomatch ht⟩
  | cons t ts ih =>
      rw [sendTags] at hs ⊢
      cases hw : r.writeTag w t with
      | error e =>
          rw [hw] at hs
          cases hs
      | ok w' =>
          rw [hw] at hs
          obtain ⟨hbits, hread⟩ := writeTag_ok h hw
          obtain ⟨hrest, hreads⟩ := ih hs
          constructor
          · rw [List.flatMap_cons, BitWriter.writeAll_append, ← hbits]
            exact hrest
          · intro u hu
            rcases List.mem_cons.mp hu with rfl | hmem
            · exact hread
            · exact hreads u hmem

def sentTags (r : Registry) (c : Container) : List Tag :=
  c.tags.take (min c.size r.layout.countLimit)

/-- The emptiness bit and the count. -/
def countBits (r : Registry) (c : Container) : List Bool :=
  if c.isEmpty then [true] else false :: fieldBits r.layout.sizeBits (r.sentTags c).length

def containerBits (r : Registry) (c : Container) : List Bool :=
  r.countBits c ++ (r.sentTags c).flatMap r.tagBits

theorem sizeBits_of_check {s : Settings} (h : s.check = .ok ()) :
    1 ≤ s.sizeBits ∧ s.sizeBits ≤ 16 := by
  obtain ⟨_, hwidth, _⟩ := bind_eq_ok.mp h
  by_contra hout
  rw [checkWidth, if_neg hout] at hwidth
  cases hwidth

theorem length_sentTags_lt (r : Registry) (c : Container) :
    (r.sentTags c).length < Packing.range r.layout.sizeBits := by
  have hlimit : r.layout.countLimit = Packing.range r.layout.sizeBits - 1 := rfl
  have hpos := Packing.range_pos r.layout.sizeBits
  rw [sentTags, List.length_take]
  omega

section
variable {r : Registry} (hsettings : r.settings.check = .ok ())
include hsettings

theorem min_sizeBits : min r.layout.sizeBits maxField = r.layout.sizeBits := by
  have hwidth : r.layout.sizeBits ≤ 16 := (sizeBits_of_check hsettings).2
  have hmax : maxField = 32 := rfl
  omega

theorem readCount_reads (c : Container) :
    r.layout.readCount.Reads (r.countBits c) (r.sentTags c).length := by
  unfold countBits Layout.readCount
  split
  · rename_i hempty
    have hnil : c.tags = [] := List.isEmpty_iff.mp hempty
    have hnone : (r.sentTags c).length = 0 := by
      rw [sentTags, hnil, List.take_nil, List.length_nil]
    rw [hnone]
    exact (BitReader.readBit_reads true).last (.pure 0)
  · have hcount := BitReader.readBits_reads r.layout.sizeBits (r.sentTags c).length
    rw [min_sizeBits hsettings, Nat.mod_eq_of_lt (r.length_sentTags_lt c)] at hcount
    exact (BitReader.readBit_reads false).bind hcount

/-- A container is its count and then its tags one after the other. -/
theorem sendContainer_eq (w : BitWriter) (c : Container) : (r.sendContainer w c).value =
    r.sendTags (w.writeAll (r.countBits c)) (r.sentTags c) := by
  unfold sendContainer countBits
  split
  · rename_i hempty
    have hnil : c.tags = [] := List.isEmpty_iff.mp hempty
    rw [sentTags, hnil, List.take_nil, hempty]
    rfl
  · rename_i hsome
    have hwidth : r.layout.sizeBits ≤ 16 := (sizeBits_of_check hsettings).2
    have hword : wordBits = 64 := rfl
    have hfits : ¬ wordBits ≤ r.layout.sizeBits := by omega
    have hbit : c.isEmpty = false := Bool.eq_false_iff.mpr hsome
    have hlength : (r.sentTags c).length = min c.size r.layout.countLimit := by
      rw [sentTags, List.length_take, Container.size]
      omega
    rw [if_neg hfits, hlength, hbit, Logged.value_bind, Logged.value_pure, BitWriter.writeBits_eq,
      BitWriter.writeBit_eq, min_sizeBits hsettings, ← BitWriter.writeAll_append]
    rfl

theorem sendContainer_ok (hr : r.Consistent) {w : BitWriter} {c : Container}
    (hs : (r.sendContainer w c).value.error = none) :
    (r.sendContainer w c).value.writer = w.writeAll (r.containerBits c) ∧
      ∀ t ∈ r.sentTags c, r.layout.readTag.Reads (r.tagBits t) (r.wireTag t) := by
  rw [sendContainer_eq hsettings] at hs ⊢
  rw [containerBits, BitWriter.writeAll_append]
  exact sendTags_ok hr hs

end

/-- What arrives of the tags that the count can hold, each once. -/
def arrivals (r r' : Registry) (c : Container) : List Tag :=
  let count := min c.size (Packing.range r.settings.sizeBits - 1)
  ((c.tags.take count).filterMap (arrival r r')).eraseDups

theorem ofList_received {r r' : Registry} (hr : r.Consistent) (hpeer : SameWire r r')
    (c : Container) :
    Container.ofList ((r.sentTags c).map fun t => (r'.receive (r.wireTag t)).value.2) =
      .rebuilt (arrivals r r' c) := by
  have hguard : Option.guard Tag.isValid ∘ (fun t => (r'.receive (r.wireTag t)).value.2) =
      arrival r r' := funext (receive_wireTag hr hpeer)
  rw [Container.ofList_eq, ← List.filterMap_eq_filter, List.filterMap_map, hguard]
  rfl

theorem readContainer_ahead {r r' : Registry} (hr : r.Consistent)
    (hsettings : r.settings.check = .ok ()) (hpeer : SameWire r r') {c : Container}
    (hreads : ∀ t ∈ r.sentTags c, r.layout.readTag.Reads (r.tagBits t) (r.wireTag t))
    {cursor : BitCursor} (h : cursor.Ahead (r.containerBits c)) :
    (r'.readContainer cursor).value.2 =
      (.ok (.rebuilt (arrivals r r' c)), cursor.skip (r.containerBits c).length) := by
  have hcount := readCount_reads hsettings c cursor h.left
  have htags := Layout.readTags_reads hreads h.right
  unfold readContainer
  rw [hpeer.layout, hcount]
  dsimp only
  rw [htags]
  have hreceived := receiveAll_value r' ((r.sentTags c).map r.wireTag)
  rw [List.map_map] at hreceived
  rw [containerBits, List.length_append, ← BitCursor.skip_skip,
    ← ofList_received hr hpeer c]
  exact congrArg (fun tags => (Except.ok (Container.ofList tags), _)) hreceived

/-- A container that was sent is received by any peer, which stops where the sender did. -/
theorem readContainer_sendContainer {r r' : Registry} (hr : Reachable r)
    (hsettings : r.settings.check = .ok ()) (hpeer : SameWire r r') (c : Container)
    (before after : List Bool) {sent : Sent}
    (hsent : (r.sendContainer (BitWriter.empty.writeAll before) c).value = sent)
    (hok : sent.error = none) {limit : Nat} (hlimit : sent.writer.numBits ≤ limit) :
    (r'.readContainer ⟨(sent.writer.writeAll after).bytes,
        (BitWriter.empty.writeAll before).numBits, limit⟩).value.2 =
      (.ok (.rebuilt (arrivals r r' c)),
        ⟨(sent.writer.writeAll after).bytes, sent.writer.numBits, limit⟩) := by
  subst hsent
  obtain ⟨hwriter, hreads⟩ := sendContainer_ok hsettings hr.consistent hok
  rw [← BitWriter.writeAll_append] at hwriter
  have hend := congrArg BitWriter.numBits hwriter
  rw [BitWriter.numBits_written, List.length_append] at hend
  rw [hend] at hlimit ⊢
  rw [hwriter, BitWriter.numBits_written]
  have hahead := BitCursor.ahead_of_written before (r.containerBits c) after hlimit
  exact readContainer_ahead hr.consistent hsettings hpeer hreads hahead

/-- The count holds three of the four tags, and one of these has no index. -/
theorem readContainer_sendContainer_unaligned :
    let r := (empty { firstBits := 1, sizeBits := 2 }).run
      [.addNatives [⟨"Effect.Fire", ""⟩, ⟨"Effect.Ice", ""⟩], .finalize]
    let c := Container.ofList [⟨"Effect.Fire"⟩, ⟨"Unknown"⟩, ⟨"Effect.Ice"⟩, ⟨"Effect"⟩]
    let sent := (r.sendContainer (BitWriter.empty.writeAll [true, false, true]) c).value
    let data := (sent.writer.writeAll [true, true]).bytes
    sent.error = none ∧ arrivals r r c = [⟨"Effect.Fire"⟩, ⟨"Effect.Ice"⟩] ∧
      (r.readContainer ⟨data, 3, 24⟩).value.2 =
        (.ok (.rebuilt (arrivals r r c)), ⟨data, sent.writer.numBits, 24⟩) := by
  intro r c sent data
  have hreachable : Reachable r := Reachable.run (.origin (.empty _)) _
  have hok : sent.error = none := by decide +kernel
  have hlimit : sent.writer.numBits ≤ 24 := by decide +kernel
  have harrivals : arrivals r r c = [⟨"Effect.Fire"⟩, ⟨"Effect.Ice"⟩] := by decide +kernel
  exact ⟨hok, harrivals, readContainer_sendContainer hreachable (by decide +kernel) (.refl r) c
    [true, false, true] [true, true] rfl hok hlimit⟩

end Registry
end TagTree

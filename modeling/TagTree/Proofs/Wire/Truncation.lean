import TagTree.Proofs.Wire.Composed
import TagTree.Proofs.Wire.RoundTrip

/-!
# Messages that break off

A reader that is stopped before the place where it would have ended runs into
the limit. Until then it makes the decisions it would have made on the whole
message, since a decision depends only on bits that it has already taken. So no
message that was cut short is read as another message.

`NoticesEnd` is stated for one reader and all limits: if it succeeds under some
limit, then under any limit that is not before its end it does the same, and
under any other it reports an overflow. Readers of a fixed number of bits have
the property by definition, and sequences have it because the first part ends
before the second.

A container that was sent is read by a composed reader up to its end, so any
shorter limit is an overflow. What the tags before the break mean to the
registry makes no difference to this, since resolving comes after reading. With
names the reader may be stopped inside the bytes of a name, and the check of
their number is made before any of them is taken.
-/
namespace TagTree

namespace BitReader
variable {α β : Type}

/-- A successful read goes the same way under any limit it does not pass, and stops at any other. -/
structure NoticesEnd (read : BitReader α) : Prop where
  advances : ∀ {c c' : BitCursor} {a : α}, read c = (.ok a, c') → c.position ≤ c'.position
  keeps : ∀ {c c' : BitCursor} {a : α} {k : Nat}, read c = (.ok a, c') → c'.position ≤ k →
    read (c.upTo k) = (.ok a, c'.upTo k)
  overflows : ∀ {c c' : BitCursor} {a : α} {k : Nat}, read c = (.ok a, c') → c.position ≤ k →
    k < c'.position → read.Overflows (c.upTo k)

theorem Takes.noticesEnd {read : BitReader α} {n : Nat} (h : Takes n read) : NoticesEnd read := by
  constructor
  case advances =>
      intro c c' a hread
      rw [(h.eq_of_ok hread).1]
      exact Nat.le_add_right ..
  case keeps =>
      intro c c' a k hread hk
      obtain ⟨rfl, hkeeps⟩ := h.eq_of_ok hread
      have hend : c.position + n ≤ k := hk
      have hroom : (c.upTo k).remaining = k - c.position := rfl
      exact hkeeps k (by omega)
  case overflows =>
      intro c c' a k hread hle hlt
      obtain ⟨rfl, _⟩ := h.eq_of_ok hread
      have hend : k < c.position + n := hlt
      have hshort : (c.upTo k).remaining = k - c.position := rfl
      exact h.short (c.upTo k) (by omega)

theorem NoticesEnd.bind {x : BitReader α} {f : α → BitReader β} (hx : NoticesEnd x)
    (hf : ∀ a, NoticesEnd (f a)) : NoticesEnd (BitReader.bind x f) := by
  constructor
  case advances =>
      intro c c'' b h
      obtain ⟨a, c', hfirst, hsecond⟩ := bind_eq_ok.mp h
      exact Nat.le_trans (hx.advances hfirst) ((hf a).advances hsecond)
  case keeps =>
      intro c c'' b k h hk
      obtain ⟨a, c', hfirst, hsecond⟩ := bind_eq_ok.mp h
      have hmid := Nat.le_trans ((hf a).advances hsecond) hk
      exact bind_eq_ok.mpr ⟨a, c'.upTo k, hx.keeps hfirst hmid, (hf a).keeps hsecond hk⟩
  case overflows =>
      intro c c'' b k h hle hlt
      obtain ⟨a, c', hfirst, hsecond⟩ := bind_eq_ok.mp h
      -- The limit is either inside what is read first, or that is read as before.
      by_cases hmid : k < c'.position
      · exact (hx.overflows hfirst hle hmid).first f
      · have hreached := Nat.le_of_not_lt hmid
        exact .second (hx.keeps hfirst hreached) ((hf a).overflows hsecond hreached hlt)

theorem Composed.noticesEnd {read : BitReader α} (h : Composed read) : NoticesEnd read := by
  induction h with
  | pure a => exact (Takes.pure a).noticesEnd
  | refuse =>
      constructor
      · intro c c' a h
        cases h
      · intro c c' a k h
        cases h
      · intro c c' a k h
        cases h
  | readBit => exact readBit_takes.noticesEnd
  | readBits width => exact (readBits_takes width).noticesEnd
  | readBytes length => exact (readBytes_takes length).noticesEnd
  | bind _ _ hx hf => exact hx.bind hf

theorem NoticesEnd.truncated {read : BitReader α} (h : NoticesEnd read) {bits : List Bool} {a : α}
    (hreads : read.Reads bits a) {k : Nat} (hk : k < bits.length) :
    read.Overflows (.start (BitWriter.empty.writeAll bits).bytes (some k)) := by
  have hwhole := hreads _ (BitCursor.ahead_of_written [] bits [] (Nat.le_of_eq (Nat.zero_add _)))
  have hsize := (BitWriter.writeAll_spec BitWriter.empty_packed bits).1.size
  rw [BitWriter.numBits_written] at hsize
  have hlimit : min k ((BitWriter.empty.writeAll bits).bytes.size * 8) = k := by omega
  have hover := h.overflows hwhole (Nat.zero_le k) (Nat.lt_of_lt_of_eq hk (Nat.zero_add _).symm)
  rw [BitCursor.start, Option.map_some, Option.getD_some, hlimit]
  exact hover

end BitReader

namespace Registry
open BitReader

theorem readMessage_reads {r : Registry} (hsettings : r.settings.check = .ok ()) {c : Container}
    (hreads : ∀ t ∈ r.sentTags c, r.layout.readTag.Reads (r.tagBits t) (r.wireTag t)) :
    r.layout.readMessage.Reads (r.containerBits c) ((r.sentTags c).map r.wireTag) := by
  apply (readCount_reads hsettings c).bind
  intro cursor h
  rw [Layout.readFields_eq, Layout.readTags_reads hreads h]
  rfl

theorem readContainer_overflows {r : Registry} {c : BitCursor}
    (h : r.layout.readMessage.Overflows c) : ∃ requested remaining,
      (r.readContainer c).value.2.1 = .error (.overflow requested remaining) := by
  obtain ⟨requested, remaining, c', hread⟩ := h
  refine ⟨requested, remaining, ?_⟩
  rw [readContainer_eq, hread]
  rfl

theorem readTag_overflows {r : Registry} {c : BitCursor} (h : r.layout.readTag.Overflows c) :
    ∃ requested remaining,
      (r.readTag c).value.2.1 = .error (.overflow requested remaining) := by
  obtain ⟨requested, remaining, c', hread⟩ := h
  refine ⟨requested, remaining, ?_⟩
  rw [readTag_eq, hread]
  rfl

theorem truncated_overflows {r r' : Registry} (hr : Reachable r)
    (hsettings : r.settings.check = .ok ()) (hpeer : SameWire r r') :
    (∀ (c : Container) (sent : Sent), (r.sendContainer .empty c).value = sent → sent.error = none →
      ∀ k < sent.writer.numBits, ∃ requested remaining,
        (r'.readContainer (.start sent.writer.bytes (some k))).value.2.1 =
          .error (.overflow requested remaining)) ∧
    ∀ (t : Tag) (sent : Sent), r.sendTag .empty t = sent → sent.error = none →
      ∀ k < sent.writer.numBits, ∃ requested remaining,
        (r'.readTag (.start sent.writer.bytes (some k))).value.2.1 =
          .error (.overflow requested remaining) := by
  constructor
  · intro c sent hsent hok k hk
    subst hsent
    obtain ⟨hwriter, hreads⟩ := sendContainer_ok hsettings hr.consistent hok
    rw [hwriter, BitWriter.numBits_written] at hk
    rw [hwriter]
    apply readContainer_overflows
    rw [hpeer.layout]
    exact r.layout.readMessage_composed.noticesEnd.truncated (readMessage_reads hsettings hreads) hk
  · intro t sent hsent hok k hk
    subst hsent
    obtain ⟨hwriter, hreads⟩ := sendTags_ok hr.consistent hok
    have htag : [t].flatMap r.tagBits = r.tagBits t := List.append_nil _
    rw [sendTag, hwriter, htag, BitWriter.numBits_written] at hk
    rw [sendTag, hwriter, htag]
    apply readTag_overflows
    rw [hpeer.layout]
    exact r.layout.readTag_composed.noticesEnd.truncated (hreads t List.mem_cons_self) hk

/-- The cut is inside the second of two names. -/
theorem truncated_overflows_name :
    let r := (empty { fast := false }).run
      [.addNatives [⟨"Effect.Fire", ""⟩, ⟨"Effect.Ice", ""⟩], .finalize]
    let c := Container.ofList [⟨"Effect.Fire"⟩, ⟨"Effect.Ice"⟩]
    let sent := (r.sendContainer .empty c).value
    sent.error = none ∧ sent.writer.numBits = 207 ∧ ∃ requested remaining,
      (r.readContainer (.start sent.writer.bytes (some 206))).value.2.1 =
        .error (.overflow requested remaining) := by
  intro r c sent
  have hreachable : Reachable r := Reachable.run (.origin (.empty _)) _
  have hok : sent.error = none := by decide +kernel
  have hbits : sent.writer.numBits = 207 := by decide +kernel
  obtain ⟨hcontainer, _⟩ := truncated_overflows hreachable (by decide +kernel) (.refl r)
  exact ⟨hok, hbits, hcontainer c sent rfl hok 206 (by omega)⟩

end Registry
end TagTree

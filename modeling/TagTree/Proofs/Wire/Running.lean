import TagTree.Proofs.Wire.Composed

/-!
# Runs of readers

A reader is a function, and a function gives something for any cursor. What it
does to the buffer on the way is said by its runs: a run takes bits one by one,
each before the limit and out of a byte that is there, and has no step for any
other bit. From a cursor that is inside its buffer every reader that is made of
the primitive reads has a run, to a cursor that is inside again.

`Runs` has a step for a bit that is before the limit and in the buffer, and none
for another, so a reader that has a run cannot have looked anywhere else. A run
ends where the function ends, and its cursor has gone on in the same buffer
under the same limit. That every reader has a run follows for sequences from the
runs of their parts, and for the primitives from the check in front of them.

A run may fail for two reasons only, want of bits or bytes that are no text. For
the primitives more is true: one that fails has left the cursor where it was.
For strings of bytes this needs that the number of bits that are asked for, or
those of the buffer, can be counted in a word, because the check is made with
such a count.
-/
namespace TagTree

namespace BitCursor

structure Within (c : BitCursor) : Prop where
  position_le : c.position ≤ c.limit
  limit_le : c.limit ≤ 8 * c.data.size

structure Advances (c c' : BitCursor) : Prop where
  data : c'.data = c.data
  limit : c'.limit = c.limit
  position_le : c.position ≤ c'.position

theorem Advances.refl (c : BitCursor) : c.Advances c := ⟨rfl, rfl, Nat.le_refl _⟩

theorem Advances.trans {c c' c'' : BitCursor} (h : c.Advances c') (k : c'.Advances c'') :
    c.Advances c'' :=
  ⟨k.data.trans h.data, k.limit.trans h.limit, Nat.le_trans h.position_le k.position_le⟩

theorem start_within (data : Array UInt8) (numBits : Option Nat) : (start data numBits).Within := by
  refine ⟨Nat.zero_le _, ?_⟩
  cases numBits with
  | none => exact Nat.le_of_eq (Nat.mul_comm ..)
  | some n => exact Nat.le_trans (Nat.min_le_right ..) (Nat.le_of_eq (Nat.mul_comm ..))

theorem Within.byte {c : BitCursor} (h : c.Within) (hlt : c.position < c.limit) :
    ∃ byte, c.data[c.position / 8]? = some byte := by
  have hle := h.limit_le
  have hindex : c.position / 8 < c.data.size := by omega
  exact ⟨_, Array.getElem?_eq_getElem hindex⟩

theorem bit_of_byte {c : BitCursor} {byte : UInt8} (h : c.data[c.position / 8]? = some byte) :
    c.bit = (byte >>> UInt8.ofNat (c.position % 8) &&& 1 == 1) := by
  rw [bit, Array.getD_eq_getD_getElem?, h, Option.getD_some]

end BitCursor

namespace BitReader
variable {α β : Type}

def takeBit : BitReader Bool := fun c => (.ok c.bit, c.next)

def takeBits : Nat → Nat → Nat → BitReader Nat
  | 0, _, value => .pure value
  | count + 1, first, value => .bind takeBit fun bit =>
      takeBits count (first + 1) (if bit then value ||| 1 <<< first else value)

theorem takeBits_eq (count first value : Nat) (c : BitCursor) : takeBits count first value c =
    (.ok (c.gather count first value).1, (c.gather count first value).2) := by
  induction count generalizing first value c with
  | zero => rfl
  | succ count ih => exact ih _ _ c.next

theorem readBits_eq (width : Nat) :
    readBits width = ensure (min width maxField) (takeBits (min width maxField) 0 0) :=
  congrArg (ensure _) (funext fun c => (takeBits_eq _ 0 0 c).symm)

/-- The reader takes its bits out of the buffer, gives `answer` and leaves the cursor at `c'`. -/
inductive Runs : {α : Type} → BitReader α → BitCursor → Except WireError α → BitCursor → Prop
  | pure {α : Type} (a : α) (c : BitCursor) : Runs (BitReader.pure a) c (.ok a) c
  | refuse {α : Type} (c : BitCursor) :
      Runs (BitReader.fail .invalidUtf8 : BitReader α) c (.error .invalidUtf8) c
  | take {c : BitCursor} {byte : UInt8} : c.position < c.limit →
      c.data[c.position / 8]? = some byte →
      Runs takeBit c (.ok (byte >>> UInt8.ofNat (c.position % 8) &&& 1 == 1)) c.next
  | short {α : Type} {count : Nat} {c : BitCursor} (read : BitReader α) : c.remaining < count →
      Runs (ensure count read) c (.error (.overflow (min count maxRequested) c.remaining)) c
  | enough {α : Type} {read : BitReader α} {count : Nat} {c c' : BitCursor}
      {answer : Except WireError α} : count ≤ c.remaining → Runs read c answer c' →
      Runs (ensure count read) c answer c'
  | stop {α β : Type} {x : BitReader α} {c c' : BitCursor} {e : WireError}
      (f : α → BitReader β) : Runs x c (.error e) c' → Runs (BitReader.bind x f) c (.error e) c'
  | bind {α β : Type} {x : BitReader α} {f : α → BitReader β} {c c' c'' : BitCursor} {a : α}
      {answer : Except WireError β} : Runs x c (.ok a) c' → Runs (f a) c' answer c'' →
      Runs (BitReader.bind x f) c answer c''

namespace Runs
variable {read : BitReader α} {c c' : BitCursor} {answer : Except WireError α}

theorem eq (h : Runs read c answer c') : read c = (answer, c') := by
  induction h with
  | pure a c => rfl
  | refuse c => rfl
  | take _ hbyte => rw [takeBit, BitCursor.bit_of_byte hbyte]
  | short read hlt => exact ensure_of_lt hlt
  | enough hle _ ih => exact (ensure_of_le hle).trans ih
  | stop f _ ih => exact bind_of_error ih
  | bind _ _ ihx ihf => exact (bind_of_ok ihx).trans ihf

theorem advances (h : Runs read c answer c') : c.Advances c' := by
  induction h with
  | pure a c => exact .refl c
  | refuse c => exact .refl c
  | take _ _ => exact ⟨rfl, rfl, Nat.le_succ _⟩
  | short read hlt => exact .refl _
  | enough hle _ ih => exact ih
  | stop f _ ih => exact ih
  | bind _ _ ihx ihf => exact ihx.trans ihf

theorem within (h : Runs read c answer c') (hc : c.Within) : c'.Within := by
  induction h with
  | pure a c => exact hc
  | refuse c => exact hc
  | take hlt _ => exact ⟨hlt, hc.limit_le⟩
  | short read hlt => exact hc
  | enough hle _ ih => exact ih hc
  | stop f _ ih => exact ih hc
  | bind _ _ ihx ihf => exact ihf (ihx hc)

/-- A run fails for want of bits or for a text that is none. -/
theorem error_cases (h : Runs read c answer c') {e : WireError} (he : answer = .error e) :
    (∃ requested remaining, e = .overflow requested remaining) ∨ e = .invalidUtf8 := by
  induction h with
  | pure a c => cases he
  | refuse c =>
      cases he
      exact .inr rfl
  | take _ _ => cases he
  | short read hlt =>
      cases he
      exact .inl ⟨_, _, rfl⟩
  | enough _ _ ih => exact ih he
  | stop f _ ih =>
      cases he
      exact ih rfl
  | bind _ _ _ ihf => exact ihf he

end Runs

def StaysInside (read : BitReader α) : Prop :=
  ∀ c : BitCursor, c.Within → Runs read c (read c).1 (read c).2

theorem StaysInside.pure (a : α) : StaysInside (BitReader.pure a) := fun c _ => .pure a c

theorem StaysInside.bind {x : BitReader α} {f : α → BitReader β} (hx : StaysInside x)
    (hf : ∀ a, StaysInside (f a)) : StaysInside (BitReader.bind x f) := by
  intro c hc
  have hfirst := hx c hc
  rcases hxc : x c with ⟨e | a, c'⟩
  · rw [hxc] at hfirst
    rw [bind_of_error hxc]
    exact .stop f hfirst
  · rw [hxc] at hfirst
    rw [bind_of_ok hxc]
    exact .bind hfirst (hf a c' (hfirst.within hc))

theorem ensure_staysInside {read : BitReader α} {count : Nat}
    (h : ∀ c : BitCursor, c.Within → count ≤ c.remaining → Runs read c (read c).1 (read c).2) :
    StaysInside (ensure count read) := by
  intro c hc
  by_cases hlt : c.remaining < count
  · rw [ensure_of_lt hlt]
    exact .short read hlt
  · have hle := Nat.le_of_not_lt hlt
    rw [ensure_of_le hle]
    exact .enough hle (h c hc hle)

theorem takeBit_runs {c : BitCursor} (hc : c.Within) (hleft : 1 ≤ c.remaining) :
    Runs takeBit c (takeBit c).1 (takeBit c).2 := by
  have hlt : c.position < c.limit := by
    rw [BitCursor.remaining] at hleft
    omega
  obtain ⟨byte, hbyte⟩ := hc.byte hlt
  rw [takeBit, BitCursor.bit_of_byte hbyte]
  exact .take hlt hbyte

theorem takeBits_runs {count : Nat} (first value : Nat) {c : BitCursor} (hc : c.Within)
    (hleft : count ≤ c.remaining) :
    Runs (takeBits count first value) c (takeBits count first value c).1
      (takeBits count first value c).2 := by
  induction count generalizing first value c with
  | zero => exact .pure value c
  | succ count ih =>
      have hbit := takeBit_runs hc (by omega)
      have hrest : count ≤ c.next.remaining := by
        have hskip := c.remaining_skip 1
        have hnext : c.next = c.skip 1 := rfl
        rw [hnext, hskip]
        omega
      exact .bind hbit (ih _ _ (hbit.within hc) hrest)

theorem readBit_staysInside : StaysInside readBit := ensure_staysInside fun _ => takeBit_runs

theorem readBits_staysInside (width : Nat) : StaysInside (readBits width) := by
  rw [readBits_eq]
  exact ensure_staysInside fun _ => takeBits_runs 0 0

theorem readEachByte_staysInside (length : Nat) : StaysInside (readEachByte length) := by
  induction length with
  | zero => exact .pure []
  | succ length ih =>
      apply (readBits_staysInside 8).bind
      intro b
      exact ih.bind fun rest => .pure (UInt8.ofNat b :: rest)

theorem readBytes_staysInside (length : Nat) : StaysInside (readBytes length) :=
  ensure_staysInside fun c hc _ => readEachByte_staysInside length c hc

theorem Composed.staysInside {read : BitReader α} (h : Composed read) : StaysInside read := by
  induction h with
  | pure a => exact .pure a
  | refuse => exact fun c _ => .refuse c
  | readBit => exact readBit_staysInside
  | readBits width => exact readBits_staysInside width
  | readBytes length => exact readBytes_staysInside length
  | bind _ _ hx hf => exact hx.bind hf

/-- The reader runs, and if it fails then the cursor is where it was. -/
structure AllOrNothing (read : BitReader α) (c : BitCursor) : Prop where
  runs : Runs read c (read c).1 (read c).2
  stays : ∀ e, (read c).1 = .error e → (read c).2 = c

/-- A reader that succeeds after the check fails at the check only. -/
theorem ensure_stays {read : BitReader α} {count : Nat} {c : BitCursor}
    (h : count ≤ c.remaining → ∃ a c', read c = (.ok a, c')) (e : WireError)
    (he : (ensure count read c).1 = .error e) : (ensure count read c).2 = c := by
  by_cases hlt : c.remaining < count
  · rw [ensure_of_lt hlt]
  · have hle := Nat.le_of_not_lt hlt
    obtain ⟨a, c', hread⟩ := h hle
    rw [ensure_of_le hle, hread] at he
    cases he

variable {c : BitCursor} (hc : c.Within)
include hc

theorem readBit_allOrNothing : AllOrNothing readBit c :=
  ⟨readBit_staysInside c hc, ensure_stays fun _ => ⟨_, _, rfl⟩⟩

theorem readBits_allOrNothing (width : Nat) : AllOrNothing (readBits width) c :=
  ⟨readBits_staysInside width c hc, ensure_stays fun _ => ⟨_, _, rfl⟩⟩

/-- The bits of the buffer or the bits that are asked for can be counted in a machine word. -/
theorem readBytes_allOrNothing {length : Nat}
    (hword : 8 * c.data.size ≤ maxBitCount ∨ 8 * length ≤ maxBitCount) :
    AllOrNothing (readBytes length) c := by
  refine ⟨readBytes_staysInside length c hc, ensure_stays fun hle => ?_⟩
  -- A count that was cut to a machine word is no multiple of eight, so the buffer has fewer bits.
  have hleft : c.remaining ≤ c.limit := Nat.sub_le ..
  have hlimit := hc.limit_le
  have hmax : maxBitCount = 18446744073709551615 := rfl
  have hbits : 8 * length ≤ c.remaining := by omega
  obtain ⟨bytes, hbytes⟩ := (readEachByte_takes length).enough c
  exact ⟨bytes, _, hbytes c.limit hbits⟩

end BitReader
end TagTree

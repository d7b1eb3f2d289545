import TagTree.Proofs.Wire.Packing
import TagTree.Wire.Codec

/-!
# Readers made of primitive reads

All that is read from a message is read by three primitives: a bit, a field and
some bytes. They check the limit before they take anything, and what is built on
them never touches the cursor itself. So a property of readers holds of all of
them if it holds of the primitives and is kept when one reader follows another.

`Composed` has a constructor for each primitive and one for sequences, so a
property is proved for messages of all kinds by an induction with four cases.
`Takes` is the property of a reader whose number of bits is known beforehand: it
moves the cursor by so many bits and reports an overflow where there are fewer.
A check for bits that are taken anyway can be put in front of it or left out.

Tags and containers are read by such readers up to the resolving of what was
read. So reading a tag or a container is split into a composed reader and a
function of the registry and the fields, and only the second part knows names,
tables and reports.
-/
namespace TagTree

namespace BitCursor

def upTo (c : BitCursor) (k : Nat) : BitCursor := { c with limit := k }

theorem gather_snd (c : BitCursor) (count first value : Nat) :
    (c.gather count first value).2 = c.skip count := by
  induction count generalizing c first value with
  | zero => rfl
  | succ count ih =>
      rw [gather, ih, next, skip, skip, Nat.add_assoc, Nat.add_comm 1]

theorem gather_upTo (c : BitCursor) (k count first value : Nat) :
    ((c.upTo k).gather count first value).1 = (c.gather count first value).1 := by
  induction count generalizing c first value with
  | zero => rfl
  | succ count ih => exact ih c.next _ _

theorem remaining_skip (c : BitCursor) (n : Nat) : (c.skip n).remaining = c.remaining - n := by
  simp only [remaining, skip]
  omega

theorem remaining_skip_upTo {c : BitCursor} {m n k : Nat} (h : m + n ≤ (c.upTo k).remaining) :
    n ≤ ((c.skip m).upTo k).remaining := by
  have hleft : (c.upTo k).remaining = k - c.position := rfl
  have hrest : ((c.skip m).upTo k).remaining = k - (c.position + m) := rfl
  omega

end BitCursor

namespace BitReader
variable {α β : Type} {m n : Nat}

theorem bind_of_ok {x : BitReader α} {f : α → BitReader β} {c c' : BitCursor} {a : α}
    (h : x c = (.ok a, c')) : BitReader.bind x f c = f a c' := by
  rw [BitReader.bind, h]

theorem bind_of_error {x : BitReader α} {f : α → BitReader β} {c c' : BitCursor} {e : WireError}
    (h : x c = (.error e, c')) : BitReader.bind x f c = (.error e, c') := by
  rw [BitReader.bind, h]

theorem bind_eq_ok {x : BitReader α} {f : α → BitReader β} {c c'' : BitCursor} {b : β} :
    BitReader.bind x f c = (.ok b, c'') ↔ ∃ a c', x c = (.ok a, c') ∧ f a c' = (.ok b, c'') := by
  constructor
  · intro h
    rcases hx : x c with ⟨_ | a, c'⟩
    · rw [bind_of_error hx] at h
      cases h
    · rw [bind_of_ok hx] at h
      exact ⟨a, c', rfl, h⟩
  · rintro ⟨a, c', hx, hf⟩
    rw [bind_of_ok hx, hf]

theorem map_eq_ok {x : BitReader α} {f : α → β} {c c' : BitCursor} {b : β} :
    BitReader.map f x c = (.ok b, c') ↔ ∃ a, x c = (.ok a, c') ∧ f a = b := by
  rw [BitReader.map, bind_eq_ok]
  constructor
  · rintro ⟨a, c'', hx, hf⟩
    cases hf
    exact ⟨a, hx, rfl⟩
  · rintro ⟨a, hx, rfl⟩
    exact ⟨a, c', hx, rfl⟩

theorem ensure_of_lt {read : BitReader α} {count : Nat} {c : BitCursor} (h : c.remaining < count) :
    ensure count read c = (.error (.overflow (min count maxRequested) c.remaining), c) := if_pos h

theorem ensure_of_le {read : BitReader α} {count : Nat} {c : BitCursor} (h : count ≤ c.remaining) :
    ensure count read c = read c := if_neg (Nat.not_lt_of_le h)

theorem readBit_of_le {c : BitCursor} (h : 1 ≤ c.remaining) : readBit c = (.ok c.bit, c.next) :=
  ensure_of_le h

theorem readBits_of_le {width : Nat} {c : BitCursor} (h : min width maxField ≤ c.remaining) :
    readBits width c =
      (.ok (c.gather (min width maxField) 0 0).1, c.skip (min width maxField)) := by
  rw [readBits, ensure_of_le h, ← c.gather_snd (min width maxField) 0 0]

def Overflows (read : BitReader α) (c : BitCursor) : Prop :=
  ∃ requested remaining c', read c = (.error (.overflow requested remaining), c')

theorem Overflows.first {x : BitReader α} {c : BitCursor} (h : x.Overflows c)
    (f : α → BitReader β) : (BitReader.bind x f).Overflows c := by
  obtain ⟨requested, remaining, c', hx⟩ := h
  exact ⟨requested, remaining, c', bind_of_error hx⟩

theorem Overflows.second {x : BitReader α} {f : α → BitReader β} {c c' : BitCursor} {a : α}
    (hx : x c = (.ok a, c')) (h : (f a).Overflows c') : (BitReader.bind x f).Overflows c := by
  obtain ⟨requested, remaining, c'', hf⟩ := h
  exact ⟨requested, remaining, c'', (bind_of_ok hx).trans hf⟩

theorem ensure_overflows {read : BitReader α} {count : Nat} {c : BitCursor}
    (h : c.remaining < count) : (BitReader.ensure count read).Overflows c :=
  ⟨_, _, _, ensure_of_lt h⟩

/-- The reader takes `n` bits and looks at nothing else; where there are fewer, it stops. -/
structure Takes (n : Nat) (read : BitReader α) : Prop where
  enough : ∀ c : BitCursor, ∃ a, ∀ k, n ≤ (c.upTo k).remaining →
    read (c.upTo k) = (.ok a, (c.skip n).upTo k)
  short : ∀ c : BitCursor, c.remaining < n → read.Overflows c

theorem Takes.pure (a : α) : Takes 0 (BitReader.pure a) where
  enough _ := ⟨a, fun _ _ => rfl⟩
  short _ h := absurd h (Nat.not_lt_zero _)

theorem Takes.bind {x : BitReader α} {f : α → BitReader β} (hx : Takes m x)
    (hf : ∀ a, Takes n (f a)) : Takes (m + n) (BitReader.bind x f) := by
  constructor
  case enough =>
      intro c
      obtain ⟨a, ha⟩ := hx.enough c
      obtain ⟨b, hb⟩ := (hf a).enough (c.skip m)
      refine ⟨b, fun k hk => ?_⟩
      rw [bind_of_ok (ha k (by omega)), hb k (BitCursor.remaining_skip_upTo hk),
        BitCursor.skip_skip]
  case short =>
      intro c hc
      by_cases hm : c.remaining < m
      · exact (hx.short c hm).first f
      · obtain ⟨a, ha⟩ := hx.enough c
        have hfirst : x c = (.ok a, c.skip m) := ha c.limit (Nat.le_of_not_lt hm)
        apply Overflows.second hfirst
        apply (hf a).short
        rw [BitCursor.remaining_skip]
        omega

theorem Takes.ensure {read : BitReader α} (h : Takes n read) {count : Nat} (hle : count ≤ n) :
    Takes n (BitReader.ensure count read) := by
  constructor
  case enough =>
      intro c
      obtain ⟨a, ha⟩ := h.enough c
      refine ⟨a, fun k hk => ?_⟩
      rw [ensure_of_le (by omega), ha k hk]
  case short =>
      intro c hc
      by_cases hcount : c.remaining < count
      · exact ensure_overflows hcount
      · obtain ⟨requested, remaining, c', hread⟩ := h.short c hc
        exact ⟨requested, remaining, c', (ensure_of_le (Nat.le_of_not_lt hcount)).trans hread⟩

theorem readBit_takes : Takes 1 readBit := by
  constructor
  case enough =>
      intro c
      exact ⟨c.bit, fun _ hk => readBit_of_le hk⟩
  case short => exact fun _ hc => ensure_overflows hc

theorem readBits_takes (width : Nat) : Takes (min width maxField) (readBits width) := by
  constructor
  case enough =>
      intro c
      refine ⟨(c.gather (min width maxField) 0 0).1, fun k hk => ?_⟩
      rw [readBits_of_le hk, BitCursor.gather_upTo]
      rfl
  case short => exact fun _ hc => ensure_overflows hc

theorem readEachByte_takes (length : Nat) : Takes (8 * length) (readEachByte length) := by
  induction length with
  | zero => exact .pure []
  | succ length ih =>
      have hsum : 8 * (length + 1) = 8 + (8 * length + 0) := by omega
      rw [hsum]
      exact (readBits_takes 8).bind fun b => ih.bind fun rest => .pure (UInt8.ofNat b :: rest)

theorem readBytes_takes (length : Nat) : Takes (8 * length) (readBytes length) :=
  (readEachByte_takes length).ensure (Nat.min_le_left ..)

/-- What a reader of `n` bits has done when it succeeds. -/
theorem Takes.eq_of_ok {read : BitReader α} (h : Takes n read) {c c' : BitCursor} {a : α}
    (hread : read c = (.ok a, c')) : c' = c.skip n ∧
      ∀ k, n ≤ (c.upTo k).remaining → read (c.upTo k) = (.ok a, (c.skip n).upTo k) := by
  have hroom : n ≤ c.remaining := by
    apply Nat.le_of_not_lt
    intro hlt
    obtain ⟨requested, remaining, c'', hover⟩ := h.short c hlt
    rw [hread] at hover
    cases hover
  obtain ⟨b, hb⟩ := h.enough c
  have hsame : read c = (.ok b, c.skip n) := hb c.limit hroom
  rw [hread] at hsame
  cases hsame
  exact ⟨rfl, hb⟩

/-- Readers made of the primitive reads, one after the other. -/
inductive Composed : {α : Type} → BitReader α → Prop
  | pure {α : Type} (a : α) : Composed (BitReader.pure a)
  | refuse {α : Type} : Composed (BitReader.fail .invalidUtf8 : BitReader α)
  | readBit : Composed readBit
  | readBits (width : Nat) : Composed (readBits width)
  | readBytes (length : Nat) : Composed (readBytes length)
  | bind {α β : Type} {x : BitReader α} {f : α → BitReader β} : Composed x →
      (∀ a, Composed (f a)) → Composed (BitReader.bind x f)

theorem Composed.map {x : BitReader α} (h : Composed x) (f : α → β) : Composed (BitReader.map f x) :=
  h.bind fun a => .pure (f a)

end BitReader

theorem BitCursor.gather_lt (c : BitCursor) (count : Nat) {first value : Nat}
    (h : value < Packing.range first) :
    (c.gather count first value).1 < Packing.range (first + count) := by
  induction count generalizing c first value with
  | zero => exact h
  | succ count ih =>
      have hpow : ∀ n, Packing.range n = 2 ^ n := Nat.one_shiftLeft
      have hmore := Nat.lt_of_lt_of_le h (range_le_range (Nat.le_succ first))
      have htop : 1 <<< first < 2 ^ (first + 1) := by
        rw [Nat.one_shiftLeft]
        exact Nat.pow_lt_pow_succ (by decide)
      have hstep : (if c.bit then value ||| 1 <<< first else value) < Packing.range (first + 1) := by
        rw [hpow] at hmore ⊢
        split
        · exact Nat.or_lt_two_pow hmore htop
        · exact hmore
      have hsum : first + 1 + count = first + (count + 1) := by omega
      have hrest := ih c.next hstep
      rwa [hsum] at hrest

theorem BitReader.readBits_lt {width n : Nat} {c c' : BitCursor}
    (h : readBits width c = (.ok n, c')) : n < Packing.range width := by
  have hvalue := c.gather_lt (min width maxField) (Packing.range_pos 0)
  rw [Nat.zero_add] at hvalue
  by_cases hleft : min width maxField ≤ c.remaining
  · rw [readBits_of_le hleft] at h
    cases h
    exact Nat.lt_of_lt_of_le hvalue (range_le_range (Nat.min_le_left ..))
  · rw [readBits, ensure_of_lt (Nat.lt_of_not_le hleft)] at h
    cases h

theorem Packing.read_lt {first total n : Nat} {c c' : BitCursor}
    (h : Packing.read first total c = (.ok n, c')) : n < Packing.range total := by
  unfold Packing.read at h
  split at h
  · exact BitReader.readBits_lt h
  · rename_i hsplit
    have hfirst := (not_isWhole_iff.mp hsplit).2
    obtain ⟨head, c₁, hhead, hrest⟩ := BitReader.bind_eq_ok.mp h
    have hlow : head < Packing.range total :=
      Nat.lt_of_lt_of_le (BitReader.readBits_lt hhead) (range_le_range hfirst)
    split at hrest
    · obtain ⟨high, hhigh, rfl⟩ := BitReader.map_eq_ok.mp hrest
      have hsegment := BitReader.readBits_lt hhigh
      apply Nat.lt_of_le_of_lt (Nat.mod_le ..)
      -- The segments are disjoint parts of an index of `total` bits.
      have hsum : total - first + first = total := Nat.sub_add_cancel (Nat.le_of_lt hfirst)
      rw [Packing.range, Nat.one_shiftLeft] at hlow hsegment ⊢
      apply Nat.or_lt_two_pow
      · rw [Nat.shiftLeft_eq, ← hsum, Nat.pow_add]
        exact Nat.mul_lt_mul_of_pos_right hsegment (Nat.two_pow_pos first)
      · exact Nat.lt_of_le_of_lt Nat.and_le_left hlow
    · cases hrest
      exact hlow

open BitReader (Composed)

theorem Packing.read_composed (first total : Nat) : Composed (Packing.read first total) := by
  unfold Packing.read
  split
  · exact .readBits total
  · apply Composed.bind (.readBits _)
    intro head
    split
    · exact (Composed.readBits _).map _
    · exact .pure head

namespace Layout

theorem readName_composed : Composed readName := by
  apply Composed.bind (.readBits _)
  intro length
  apply Composed.bind (.readBytes length)
  intro bytes
  cases textOfBytes? bytes with
  | none => exact .refuse
  | some name => exact .pure _

theorem readTag_composed (l : Layout) : Composed l.readTag := by
  unfold Layout.readTag
  split
  · exact (Packing.read_composed l.first l.total).map WireTag.index
  · exact readName_composed

theorem readCount_composed (l : Layout) : Composed l.readCount := by
  apply Composed.bind .readBit
  intro isEmpty
  cases isEmpty with
  | true => exact .pure 0
  | false => exact .readBits l.sizeBits

/-- Read `n` tags as they travel. -/
def readFields (l : Layout) : Nat → BitReader (List WireTag)
  | 0 => .pure []
  | n + 1 => .bind l.readTag fun field => .map (field :: ·) (readFields l n)

theorem readFields_composed (l : Layout) (n : Nat) : Composed (l.readFields n) := by
  induction n with
  | zero => exact .pure []
  | succ n ih => exact l.readTag_composed.bind fun field => ih.map (field :: ·)

/-- Read what travels in place of the tags of a container. -/
def readMessage (l : Layout) : BitReader (List WireTag) := .bind l.readCount l.readFields

theorem readMessage_composed (l : Layout) : Composed l.readMessage :=
  l.readCount_composed.bind l.readFields_composed

theorem readFields_eq (l : Layout) (n : Nat) (c : BitCursor) :
    l.readFields n c = ((l.readTags n c).2.1.map fun _ => (l.readTags n c).1, (l.readTags n c).2.2) := by
  induction n generalizing c with
  | zero => rfl
  | succ n ih =>
      rw [readFields, readTags]
      rcases hfirst : l.readTag c with ⟨_ | field, c'⟩
      · exact BitReader.bind_of_error hfirst
      · rw [BitReader.bind_of_ok hfirst]
        dsimp only
        rcases hrest : l.readTags n c' with ⟨later, e | u, c''⟩
        · have hfields : l.readFields n c' = (.error e, c'') := by rw [ih, hrest]; rfl
          exact BitReader.bind_of_error hfields
        · have hfields : l.readFields n c' = (.ok later, c'') := by rw [ih, hrest]; rfl
          exact BitReader.bind_of_ok hfields

end Layout

namespace Registry

theorem readTag_eq (r : Registry) (c : BitCursor) : (r.readTag c).value.2 =
    ((r.layout.readTag c).1.map fun field => (r.receive field).value.2, (r.layout.readTag c).2) := by
  unfold readTag
  rcases r.layout.readTag c with ⟨_ | field, c'⟩
  · rfl
  · rfl

theorem readContainer_eq (r : Registry) (c : BitCursor) : (r.readContainer c).value.2 =
    ((r.layout.readMessage c).1.map fun fields => .ofList (r.receiveAll fields).value.2,
      (r.layout.readMessage c).2) := by
  unfold readContainer Layout.readMessage
  rcases hcount : r.layout.readCount c with ⟨_ | count, c'⟩
  · rw [BitReader.bind_of_error hcount]
    rfl
  · rw [BitReader.bind_of_ok hcount, Layout.readFields_eq]
    dsimp only
    rcases r.layout.readTags count c' with ⟨fields, _ | _, c''⟩
    · rfl
    · rfl

end Registry
end TagTree

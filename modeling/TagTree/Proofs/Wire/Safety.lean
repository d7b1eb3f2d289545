import TagTree.Proofs.Registry.Handles
import TagTree.Proofs.Registry.IndexLaws
import TagTree.Proofs.Wire.RoundTrip
import TagTree.Proofs.Wire.Running

/-!
# Reading what nobody has sent

A reader may be given any bits, and be at any place that earlier reads have left
it at. What it then takes for a count or an index is bounded by the widths of
the registry, whatever the bits are, and what a field stands for is a registered
tag or the invalid one, which no container keeps.

The cursor is one that a program can have: at the start of some bits with a
limit of its choice, or left behind by a read that succeeded or failed. All such
cursors are inside their buffers, so every read has a run. The count is bounded
by its width and the number of fields by the count; a field is a name or an
index of at most the width of the table, so it never is too wide for the type of
an index.

What comes back is an error or a container. The container is sound, since it is
made by adding, and its tags are registered, since a field stands for a node or
for the invalid tag, which adding drops. The events of a read are those of the
fields it came to, also where it broke off.
-/
namespace TagTree

namespace Layout
variable {l : Layout}

theorem readCount_lt {n : Nat} {c c' : BitCursor} (h : l.readCount c = (.ok n, c')) :
    n < Packing.range l.sizeBits := by
  obtain ⟨isEmpty, c₁, _, hcount⟩ := BitReader.bind_eq_ok.mp h
  cases isEmpty with
  | true =>
      cases hcount
      exact Packing.range_pos _
  | false => exact BitReader.readBits_lt hcount

theorem length_readFields {n : Nat} {c c' : BitCursor} {fields : List WireTag}
    (h : l.readFields n c = (.ok fields, c')) : fields.length = n := by
  induction n generalizing c fields with
  | zero =>
      cases h
      rfl
  | succ n ih =>
      obtain ⟨field, c₁, _, hrest⟩ := BitReader.bind_eq_ok.mp h
      obtain ⟨later, hlater, rfl⟩ := BitReader.map_eq_ok.mp hrest
      rw [List.length_cons, ih hlater]

theorem length_readMessage {c c' : BitCursor} {fields : List WireTag}
    (h : l.readMessage c = (.ok fields, c')) : fields.length < Packing.range l.sizeBits := by
  obtain ⟨count, c₁, hcount, hfields⟩ := BitReader.bind_eq_ok.mp h
  rw [length_readFields hfields]
  exact readCount_lt hcount

theorem mem_readTags {n : Nat} {c : BitCursor} {field : WireTag} (h : field ∈ (l.readTags n c).1) :
    ∃ c₁ c₂, l.readTag c₁ = (.ok field, c₂) := by
  induction n generalizing c with
  | zero => cases h
  | succ n ih =>
      rw [readTags] at h
      rcases hfirst : l.readTag c with ⟨e | t, c'⟩
      · rw [hfirst] at h
        cases h
      · rw [hfirst] at h
        rcases List.mem_cons.mp h with rfl | hlater
        · exact ⟨c, c', hfirst⟩
        · exact ih hlater

end Layout

namespace Registry
open BitReader

def IsNarrow (field : WireTag) : Prop := ∃ n, field = .index n ∧ n ≤ maxIndex

theorem receive_narrow {r : Registry} {field : WireTag} (h : IsNarrow field) :
    (r.receive field).value.1 = r ∧ ∀ n, .indexTooWide n ∉ (r.receive field).events := by
  obtain ⟨index, rfl, hle⟩ := h
  unfold receive tagOfIndex
  dsimp only
  rw [if_neg (Nat.not_lt_of_le hle)]
  refine ⟨rfl, fun n => ?_⟩
  rw [Logged.events_bind, Logged.events_pure, List.append_nil]
  split
  · exact List.not_mem_nil
  · split
    · exact List.not_mem_nil
    · simp

theorem receiveAll_narrow {r : Registry} {fields : List WireTag}
    (h : ∀ field ∈ fields, IsNarrow field) (n : Nat) :
    .indexTooWide n ∉ (r.receiveAll fields).events := by
  induction fields with
  | nil => exact List.not_mem_nil
  | cons field fields ih =>
      obtain ⟨hsame, hfirst⟩ := receive_narrow (r := r) (h field List.mem_cons_self)
      have hrest := ih fun field hfield => h field (List.mem_cons_of_mem _ hfield)
      have hstep : (r.receiveAll (field :: fields)).events = (r.receive field).events ++
          (((r.receive field).value.1.receiveAll fields).events ++ []) := rfl
      rw [hstep, hsame, List.append_nil, List.mem_append]
      exact not_or.mpr ⟨hfirst n, hrest⟩

theorem Consistent.isNarrow_of_readTag {r : Registry} (h : r.Consistent)
    (hfast : r.settings.fast = true) {c c' : BitCursor} {field : WireTag}
    (hread : r.layout.readTag c = (.ok field, c')) : IsNarrow field := by
  have hmode : r.layout.fast = true := hfast
  unfold Layout.readTag at hread
  rw [if_pos hmode] at hread
  obtain ⟨n, hn, rfl⟩ := map_eq_ok.mp hread
  have hlt : n < Packing.range 16 :=
    Nat.lt_of_lt_of_le (Packing.read_lt hn) (range_le_range (IndexTable.width_le h.fits))
  exact ⟨n, rfl, Nat.le_of_lt_succ hlt⟩

theorem Reachable.contains_tagOfIndex {r : Registry} (h : Reachable r) {n : Nat}
    (hvalid : (r.tagOfIndex n).value.isValid) : r.contains (r.tagOfIndex n).value.name := by
  unfold tagOfIndex at hvalid ⊢
  split at hvalid
  · cases hvalid
  · rename_i hsentinel
    rw [if_neg hsentinel]
    cases htag : r.table.tagAt? n with
    | none =>
        rw [htag] at hvalid
        cases hvalid
    | some tag => exact h.indexed.contains_of_mem h.consistent (List.mem_of_getElem? htag)

theorem Reachable.mem_tags_of_receive {r : Registry} (h : Reachable r) {field : WireTag}
    (hvalid : (r.receive field).value.2.isValid) : (r.receive field).value.2 ∈ r.tree.tags := by
  rw [h.consistent.mem_tags]
  unfold receive at hvalid ⊢
  cases field with
  | index n =>
      dsimp only at hvalid ⊢
      split at hvalid
      · cases hvalid
      · rename_i hle
        rw [if_neg hle]
        exact h.contains_tagOfIndex hvalid
  | name s =>
      dsimp only at hvalid ⊢
      split at hvalid
      · cases hvalid
      · rename_i hname
        rw [if_neg hname]
        rw [requestIf_eq_lookup] at hvalid ⊢
        exact h.consistent.contains_lookup hvalid

/-- What fields stand for makes a sound container of nodes. -/
theorem Reachable.ofList_receiveAll {r : Registry} (h : Reachable r) (fields : List WireTag) :
    let d := Container.ofList (r.receiveAll fields).value.2
    d.Sound ∧ (∀ t ∈ d.tags, t ∈ r.tree.tags) ∧ d.size ≤ fields.length := by
  intro d
  have hsound : d.Sound := Container.empty_sound.addAll _
  have hmem : ∀ t ∈ d.tags, t ∈ fields.map (fun field => (r.receive field).value.2) := by
    intro t ht
    rcases Container.mem_addAll.mp ht with hnone | ⟨hreceived, _⟩
    · cases hnone
    · rwa [receiveAll_value] at hreceived
  refine ⟨hsound, fun t ht => ?_, ?_⟩
  · obtain ⟨field, _, rfl⟩ := List.mem_map.mp (hmem t ht)
    exact h.mem_tags_of_receive (hsound.valid _ ht)
  · have hle := hsound.nodup.length_le_of_subset hmem
    rwa [List.length_map] at hle

inductive Visited : BitCursor → Prop
  | start (data : Array UInt8) (numBits : Option Nat) : Visited (.start data numBits)
  | readBit {c : BitCursor} : Visited c → Visited (readBit c).2
  | readBits {c : BitCursor} (width : Nat) : Visited c → Visited (readBits width c).2
  | readBytes {c : BitCursor} (length : Nat) : Visited c → Visited (readBytes length c).2
  | readIndex {c : BitCursor} (first total : Nat) : Visited c → Visited (Packing.read first total c).2
  | readTag {c : BitCursor} (r : Registry) : Visited c → Visited (r.readTag c).value.2.2
  | readContainer {c : BitCursor} (r : Registry) : Visited c → Visited (r.readContainer c).value.2.2

theorem Visited.within {c : BitCursor} (h : Visited c) : c.Within := by
  have hafter : ∀ {α : Type} {read : BitReader α}, Composed read → ∀ {c : BitCursor}, c.Within →
      (read c).2.Within := fun hread _ hc => (hread.staysInside _ hc).within hc
  induction h with
  | start data numBits => exact BitCursor.start_within data numBits
  | readBit _ ih => exact hafter .readBit ih
  | readBits width _ ih => exact hafter (.readBits width) ih
  | readBytes length _ ih => exact hafter (.readBytes length) ih
  | readIndex first total _ ih => exact hafter (Packing.read_composed first total) ih
  | readTag r _ ih =>
      rw [readTag_eq]
      exact hafter r.layout.readTag_composed ih
  | readContainer r _ ih =>
      rw [readContainer_eq]
      exact hafter r.layout.readMessage_composed ih

structure ReadsSafely (r : Registry) (c : BitCursor) : Prop where
  outcome :
    (∃ requested remaining, (r.readContainer c).value.2.1 = .error (.overflow requested remaining)) ∨
    (r.readContainer c).value.2.1 = .error .invalidUtf8 ∨
    ∃ d, (r.readContainer c).value.2.1 = .ok d ∧ d.Sound ∧ (∀ t ∈ d.tags, t ∈ r.tree.tags) ∧
      d.size ≤ Packing.range r.settings.sizeBits - 1
  /-- No bit is taken but before the limit and out of the buffer. -/
  runs : ∃ fields, Runs r.layout.readMessage c fields (r.readContainer c).value.2.2 ∧
    (r.readContainer c).value.2.1 = fields.map fun fields => .ofList (r.receiveAll fields).value.2
  advances : c.Advances (r.readContainer c).value.2.2
  within : (r.readContainer c).value.2.2.Within
  /-- No index that is read is too wide for its type. -/
  narrow : r.settings.fast = true → ∀ n, .indexTooWide n ∉ (r.readContainer c).events ∧
    .indexTooWide n ∉ (r.readTag c).events

structure PrimitivesSafe (c : BitCursor) : Prop where
  readBit : AllOrNothing readBit c
  readBits : ∀ width, AllOrNothing (readBits width) c
  /-- A machine counts the bits of any buffer in one word; only where these and the bits that are
  asked for are both more could some bytes be read before the end is noticed. -/
  readBytes : ∀ length, 8 * c.data.size ≤ maxBitCount ∨ 8 * length ≤ maxBitCount →
    AllOrNothing (readBytes length) c

theorem readContainer_events (r : Registry) (c : BitCursor) : (r.readContainer c).events = [] ∨
    ∃ count c', (r.readContainer c).events =
      (r.receiveAll (r.layout.readTags count c').1).events := by
  unfold readContainer
  rcases r.layout.readCount c with ⟨e | count, c'⟩
  · exact .inl rfl
  · exact .inr ⟨count, c', List.append_nil _⟩

theorem Consistent.readContainer_narrow {r : Registry} (h : r.Consistent)
    (hfast : r.settings.fast = true) (c : BitCursor) (n : Nat) :
    .indexTooWide n ∉ (r.readContainer c).events := by
  rcases readContainer_events r c with hnone | ⟨count, c', hevents⟩
  · rw [hnone]
    exact List.not_mem_nil
  · rw [hevents]
    apply receiveAll_narrow
    intro field hfield
    obtain ⟨c₁, c₂, hread⟩ := Layout.mem_readTags hfield
    exact h.isNarrow_of_readTag hfast hread

theorem Consistent.readTag_narrow {r : Registry} (h : r.Consistent)
    (hfast : r.settings.fast = true) (c : BitCursor) (n : Nat) :
    .indexTooWide n ∉ (r.readTag c).events := by
  unfold readTag
  rcases hread : r.layout.readTag c with ⟨e | field, c'⟩
  · exact List.not_mem_nil
  · intro hmem
    have hreceived := List.mem_append.mp hmem
    exact (receive_narrow (h.isNarrow_of_readTag hfast hread)).2 n (hreceived.resolve_right nofun)

/-- Any bits may be read as a container, from anywhere. -/
theorem readContainer_safe {r : Registry} (hr : Reachable r) {c : BitCursor} (hc : Visited c) :
    ReadsSafely r c ∧ PrimitivesSafe c := by
  have hinside := hc.within
  have hruns := r.layout.readMessage_composed.staysInside c hinside
  have heq := readContainer_eq r c
  have hcursor := congrArg Prod.snd heq
  have houtcome := congrArg Prod.fst heq
  dsimp only at hcursor houtcome
  constructor
  · constructor
    case outcome =>
        rw [houtcome]
        rcases hread : r.layout.readMessage c with ⟨e | fields, c'⟩
        · rw [hread] at hruns
          rcases hruns.error_cases rfl with ⟨requested, remaining, rfl⟩ | rfl
          · exact .inl ⟨requested, remaining, rfl⟩
          · exact .inr (.inl rfl)
        · obtain ⟨hsound, hnodes, hsize⟩ := hr.ofList_receiveAll fields
          have hcount : fields.length < Packing.range r.settings.sizeBits :=
            Layout.length_readMessage hread
          exact .inr (.inr ⟨_, rfl, hsound, hnodes, Nat.le_trans hsize (Nat.le_sub_one_of_lt hcount)⟩)
    case runs =>
        rw [hcursor]
        exact ⟨_, hruns, houtcome⟩
    case advances =>
        rw [hcursor]
        exact hruns.advances
    case within =>
        rw [hcursor]
        exact hruns.within hinside
    case narrow =>
        intro hfast n
        exact ⟨hr.consistent.readContainer_narrow hfast c n, hr.consistent.readTag_narrow hfast c n⟩
  · constructor
    case readBit => exact readBit_allOrNothing hinside
    case readBits => exact readBits_allOrNothing hinside
    case readBytes => exact fun _ => readBytes_allOrNothing hinside

/-- Two reads have failed before. Of the three indices that are read then one is that of a tag; one is
out of range and one the sentinel. -/
theorem readContainer_safe_hostile :
    let r := (empty { firstBits := 1, sizeBits := 2 }).run
      [.addNatives [⟨"Effect.Fire", ""⟩, ⟨"Effect.Ice", ""⟩], .finalize]
    let c := (readBits 24 (readBytes 9 (readBit (.start #[0xFC, 0x29] (some 15))).2).2).2
    c.position = 1 ∧
      (r.readContainer c).value.2.1.toOption = some (.rebuilt [⟨"Effect.Fire"⟩]) ∧
      (r.readContainer c).events = [.indexUnknown 7 3] ∧ ReadsSafely r c ∧ PrimitivesSafe c := by
  intro r c
  have hreachable : Reachable r := Reachable.run (.origin (.empty _)) _
  have hvisited : Visited c := .readBits 24 (.readBytes 9 (.readBit (.start _ _)))
  have hposition : c.position = 1 := by decide +kernel
  have hread : (r.readContainer c).value.2.1.toOption = some (.rebuilt [⟨"Effect.Fire"⟩]) := by
    decide +kernel
  have hevents : (r.readContainer c).events = [.indexUnknown 7 3] := by decide +kernel
  exact ⟨hposition, hread, hevents, readContainer_safe hreachable hvisited⟩

end Registry
end TagTree

import TagTree.Proofs.Registry.Lookup
import TagTree.Proofs.Wire.Sending

/-!
# What is received

Peers with one index table and one layout read each other's fields. A field
stands for one tag, whatever was received before it, since a receiver changes at
most the names that it has reported.

`SameWire` asks of two registries what matters on the wire, their tables and
three settings, and nothing about their names. What a field stands for is read
off the receiver alone: an index off its table, a name by a lookup. Receiving
many fields leaves the registry as it was up to the names that were reported,
and lookups do not look at these, so the fields can be received in any company.

`arrival` puts both ends together and is the only notion that later statements
need.
-/
namespace TagTree.Registry

structure SameWire (r r' : Registry) : Prop where
  table : r'.table = r.table
  fast : r'.settings.fast = r.settings.fast
  firstBits : r'.settings.firstBits = r.settings.firstBits
  sizeBits : r'.settings.sizeBits = r.settings.sizeBits

theorem SameWire.refl (r : Registry) : SameWire r r := ⟨rfl, rfl, rfl, rfl⟩

theorem SameWire.layout {r r' : Registry} (h : SameWire r r') : r'.layout = r.layout := by
  rw [Registry.layout, Registry.layout, h.table, h.fast, h.firstBits, h.sizeBits]

theorem receive_same (r : Registry) (field : WireTag) :
    SameButReported r (r.receive field).value.1 := by
  unfold receive
  cases field with
  | index n =>
      dsimp only
      split
      · exact .refl r
      · exact .refl r
  | name s =>
      dsimp only
      split
      · exact .refl r
      · exact requestIf_same r _ s

theorem SameButReported.tagOfIndex {r r' : Registry} (h : SameButReported r r') (index : Nat) :
    r'.tagOfIndex index = r.tagOfIndex index := by
  rw [Registry.tagOfIndex, Registry.tagOfIndex, h.table]

theorem SameButReported.receive {r r' : Registry} (h : SameButReported r r') (field : WireTag) :
    (r'.receive field).value.2 = (r.receive field).value.2 := by
  unfold Registry.receive
  cases field with
  | index n =>
      dsimp only
      split
      · rfl
      · rw [h.tagOfIndex]
        rfl
  | name s =>
      dsimp only
      split
      · rfl
      · rw [requestIf_eq_request, requestIf_eq_request, h.request]

theorem receiveAll_value (r : Registry) (fields : List WireTag) :
    (r.receiveAll fields).value.2 = fields.map fun field => (r.receive field).value.2 := by
  -- Names may have been reported on the way, so the induction is over all registries that differ in that.
  have hall : ∀ r', SameButReported r r' →
      (r'.receiveAll fields).value.2 = fields.map fun field => (r.receive field).value.2 := by
    induction fields with
    | nil => exact fun _ _ => rfl
    | cons field fields ih =>
        intro r' h
        have hrest := ih _ (h.trans (receive_same r' field))
        have hstep : (r'.receiveAll (field :: fields)).value.2 = (r'.receive field).value.2 ::
            ((r'.receive field).value.1.receiveAll fields).value.2 := rfl
        rw [hstep, hrest, h.receive, List.map_cons]
  exact hall r (.refl r)

/-- What a tag becomes at the other end. With indices that is the tag itself if it has one, with names
what the receiver finds under its name; an invalid tag is nothing. -/
def arrival (r r' : Registry) (t : Tag) : Option Tag :=
  if r.settings.fast then if r.indexOf t = r.table.sentinel then none else some t
  else
    let found := (r'.request t.name).value.2
    if found.isValid then some found else none

theorem receive_wireTag {r r' : Registry} (h : r.Consistent) (hpeer : SameWire r r') (t : Tag) :
    ((some (r'.receive (r.wireTag t)).value.2).filter Tag.isValid) = arrival r r' t := by
  have hfast : r.layout.fast = r.settings.fast := rfl
  unfold wireTag arrival
  rw [hfast]
  split
  · have hle : ¬ maxIndex < r.indexOf t :=
      Nat.not_lt_of_le (Nat.le_trans (indexOf_le_sentinel h t) (IndexTable.sentinel_le h.fits))
    unfold receive
    dsimp only
    rw [if_neg hle, Logged.value_bind, tagOfIndex, hpeer.table]
    rcases indexOf_cases h t with hnone | ⟨hlt, htag, hvalid⟩
    · rw [if_pos hnone, if_pos hnone]
      rfl
    · have hne : ¬ r.indexOf t = r.table.sentinel := Nat.ne_of_lt (Nat.lt_succ_of_lt hlt)
      rw [if_neg hne, if_neg hne, htag]
      exact Option.filter_some_pos hvalid
  · unfold receive
    dsimp only
    split
    · rename_i hempty
      rw [hempty, request_eq_lookup]
      rfl
    · rw [requestIf_eq_request]
      rfl

end TagTree.Registry

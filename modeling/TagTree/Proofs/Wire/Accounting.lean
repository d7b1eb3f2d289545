import TagTree.Proofs.Name.Ancestors
import TagTree.Proofs.Wire.Ranking
import TagTree.Proofs.Wire.RoundTrip

/-!
# What was sent and what was counted

Counts go with a writer: a call puts bits on the writer and counts tags. A tag
is counted before it is written, and a container is begun before its tags are
looked at, so a call that fails at a tag leaves what was written until then,
with that tag counted. Apart from such tags, which only a name can be, the
counts of a tag are the numbers of times that it was put on the wire.

A message is a tag on its own or a container, and a call sends it with the
counts that go with the writer. `post_eq` says what a call does in one equation:
the header, the bits of the tags that get onto the wire, the error if a tag is
refused, and the recorded sends, which are those tags and the refused one. It is
proved from the equation for a row of tags, by induction on the row.

Calls in a row are then a fold, and the counts are the sends of all messages
together with the refusals. A refused tag is one whose name is too long, so for
every tag that can be sent the refusals drop out of its counts. By index every
tag can be sent and nothing is refused. The last part makes a name of accepted
characters that is one byte too long, and shows what two calls with it leave
behind.
-/
namespace TagTree

def SendCount.plus (n : SendCount) (alone inside : Nat) : SendCount :=
  { alone := n.alone + alone, inside := n.inside + inside }

namespace SendStats

theorem count_modify (change : SendCount → SendCount) (t u : Tag) (s : SendStats) :
    count ⟨modify change t s.counts⟩ u = if u = t then change (s.count t) else s.count u := by
  obtain ⟨counts⟩ := s
  unfold count
  induction counts with
  | nil =>
      rw [modify, List.lookup_cons]
      by_cases hut : u = t
      · rw [if_pos hut, beq_iff_eq.mpr hut]
        rfl
      · rw [if_neg hut, beq_eq_false_iff_ne.mpr hut]
  | cons e counts ih =>
      rw [modify]
      by_cases hte : t = e.1
      · rw [if_pos hte, List.lookup_cons, List.lookup_cons, List.lookup_cons, ← hte, beq_self_eq_true]
        by_cases hut : u = t
        · rw [if_pos hut, beq_iff_eq.mpr hut]
          rfl
        · rw [if_neg hut, beq_eq_false_iff_ne.mpr hut]
      · rw [if_neg hte, List.lookup_cons, List.lookup_cons, List.lookup_cons,
          beq_eq_false_iff_ne.mpr hte]
        by_cases hue : u = e.1
        · rw [beq_iff_eq.mpr hue, if_neg fun hut => hte (hut.symm.trans hue)]
        · rw [beq_eq_false_iff_ne.mpr hue]
          exact ih

theorem count_record (s : SendStats) (send : Send) (u : Tag) : (s.record send).count u =
    (s.count u).plus ([send].count (.alone u)) ([send].count (.inside u)) := by
  rw [List.count_singleton, List.count_singleton]
  cases send with
  | alone t =>
      rw [record, recordAlone, count_modify]
      by_cases hut : u = t
      · simp [hut, SendCount.plus]
      · simp [hut, Ne.symm hut, SendCount.plus]
  | inside t =>
      rw [record, recordInside, count_modify]
      by_cases hut : u = t
      · simp [hut, SendCount.plus]
      · simp [hut, Ne.symm hut, SendCount.plus]

/-- Recording some sends adds their numbers. -/
theorem count_foldl_record (s : SendStats) (sends : List Send) (u : Tag) :
    (sends.foldl record s).count u =
      (s.count u).plus (sends.count (.alone u)) (sends.count (.inside u)) := by
  induction sends generalizing s with
  | nil => rfl
  | cons send sends ih =>
      rw [List.foldl_cons, ih, count_record, ← List.singleton_append (l := sends),
        List.count_append, List.count_append, SendCount.plus, SendCount.plus, SendCount.plus,
        Nat.add_assoc, Nat.add_assoc]

end SendStats

inductive Message where
  | alone (t : Tag)
  | inside (c : Container)
deriving DecidableEq, Repr

def Message.send : Message → Tag → Send
  | .alone _ => .alone
  | .inside _ => .inside

def Send.tag : Send → Tag
  | .alone t => t
  | .inside t => t

/-- A writer and the counts that go with it. -/
structure Channel where
  writer : BitWriter
  stats : SendStats
deriving DecidableEq, Repr

namespace Registry

def post (r : Registry) (ch : Channel) : Message → Channel × Option WireError
  | .alone t =>
    let sent := r.sendTag ch.writer t
    (⟨sent.writer, ch.stats.recordSent sent⟩, sent.error)
  | .inside c =>
    let sent := (r.sendContainer ch.writer c).value
    (⟨sent.writer, ch.stats.recordSentInside sent⟩, sent.error)

/-- Send messages one after the other, whether or not they fail. -/
def postAll (r : Registry) (ch : Channel) (ms : List Message) : Channel :=
  ms.foldl (fun ch m => (r.post ch m).1) ch

def sendable (r : Registry) (t : Tag) : Bool :=
  r.layout.fast || decide ((nameBytes t.name).length < Packing.range nameLengthBits)

def tooLong (t : Tag) : WireError := .nameTooLong (nameBytes t.name).length

/-- The tags that a message is to carry; a container leaves out those that its count cannot hold. -/
def payload (r : Registry) : Message → List Tag
  | .alone t => [t]
  | .inside c => r.sentTags c

def headerBits (r : Registry) : Message → List Bool
  | .alone _ => []
  | .inside c => r.countBits c

def onWire (r : Registry) (m : Message) : List Tag := (r.payload m).takeWhile r.sendable

def refused? (r : Registry) (m : Message) : Option Tag := (r.payload m).find? (! r.sendable ·)

theorem writeTag_eq {r : Registry} (h : r.Consistent) (w : BitWriter) (t : Tag) :
    r.writeTag w t =
      if r.sendable t then .ok (w.writeAll (r.tagBits t)) else .error (tooLong t) := by
  have hdecided : ∃ w', r.writeTag w t = if r.sendable t then .ok w' else .error (tooLong t) := by
    unfold writeTag sendable
    cases r.layout.fast with
    | true => exact ⟨_, rfl⟩
    | false =>
        rw [if_neg Bool.false_ne_true, Bool.false_or, writeName, ← nameBytes]
        by_cases hshort : (nameBytes t.name).length < Packing.range nameLengthBits
        · rw [if_neg (Nat.not_le.mpr hshort), decide_eq_true hshort]
          exact ⟨_, rfl⟩
        · rw [if_pos (Nat.le_of_not_lt hshort), decide_eq_false hshort]
          exact ⟨w, rfl⟩
  obtain ⟨w', hw⟩ := hdecided
  rw [hw]
  split
  · rename_i hsend
    rw [if_pos hsend] at hw
    rw [(writeTag_ok h hw).1]
  · rfl

/-- Sending tags gets as far as the first that cannot be sent, which is counted. -/
theorem sendTags_eq {r : Registry} (h : r.Consistent) (w : BitWriter) (ts : List Tag) :
    r.sendTags w ts =
      { writer := w.writeAll ((ts.takeWhile r.sendable).flatMap r.tagBits)
        counted := ts.takeWhile r.sendable ++ (ts.find? (! r.sendable ·)).toList
        error := (ts.find? (! r.sendable ·)).map tooLong } := by
  induction ts generalizing w with
  | nil => rfl
  | cons t ts ih =>
      rw [sendTags, writeTag_eq h, List.takeWhile_cons, List.find?_cons]
      cases hsend : r.sendable t with
      | true =>
          rw [if_pos rfl]
          dsimp only
          rw [ih, if_pos rfl, List.flatMap_cons, BitWriter.writeAll_append]
          rfl
      | false => rfl

def sends (r : Registry) (m : Message) : List Send := (r.onWire m).map m.send

def refusals (r : Registry) (m : Message) : List Send := (r.refused? m).toList.map m.send

section
variable {r : Registry} (hr : r.Consistent) (hsettings : r.settings.check = .ok ())
include hr hsettings

theorem post_eq (ch : Channel) (m : Message) : r.post ch m =
    (⟨ch.writer.writeAll (r.headerBits m ++ (r.onWire m).flatMap r.tagBits),
      (r.sends m ++ r.refusals m).foldl SendStats.record ch.stats⟩, (r.refused? m).map tooLong) := by
  cases m with
  | alone t =>
      rw [post, sendTag, sendTags_eq hr, SendStats.recordSent, sends, refusals, ← List.map_append,
        List.foldl_map]
      rfl
  | inside c =>
      rw [post, sendContainer_eq hsettings, sendTags_eq hr, SendStats.recordSentInside, sends,
        refusals, ← List.map_append, List.foldl_map, ← BitWriter.writeAll_append]
      rfl

/-- Calls write and count one after the other, also past a failure. -/
theorem postAll_eq (ch : Channel) (ms : List Message) : r.postAll ch ms =
    ⟨ch.writer.writeAll (ms.flatMap fun m => r.headerBits m ++ (r.onWire m).flatMap r.tagBits),
      (ms.flatMap fun m => r.sends m ++ r.refusals m).foldl SendStats.record ch.stats⟩ := by
  induction ms generalizing ch with
  | nil => rfl
  | cons m ms ih =>
      rw [postAll, List.foldl_cons, ← postAll, ih, post_eq hr hsettings, List.flatMap_cons,
        List.flatMap_cons, ← BitWriter.writeAll_append, List.foldl_append (l := r.sends m ++ _)]

theorem count_postAll (ch : Channel) (ms : List Message) (u : Tag) :
    (r.postAll ch ms).stats.count u = ((ch.stats.count u).plus
      ((ms.flatMap r.sends).count (.alone u)) ((ms.flatMap r.sends).count (.inside u))).plus
      ((ms.flatMap r.refusals).count (.alone u)) ((ms.flatMap r.refusals).count (.inside u)) := by
  have hsplit := List.flatMap_append_perm ms r.sends r.refusals
  rw [postAll_eq hr hsettings, SendStats.count_foldl_record, ← hsplit.count_eq,
    ← hsplit.count_eq, List.count_append, List.count_append, SendCount.plus, SendCount.plus,
    SendCount.plus, Nat.add_assoc, Nat.add_assoc]

end

theorem not_sendable_of_mem_refusals {r : Registry} {m : Message} {send : Send}
    (h : send ∈ r.refusals m) : r.sendable send.tag = false := by
  obtain ⟨t, ht, rfl⟩ := List.mem_map.mp h
  have hrefused := List.find?_some (Option.mem_toList.mp ht)
  have htag : (m.send t).tag = t := by
    cases m <;> rfl
  rw [htag]
  exact Bool.not_eq_true' _ ▸ hrefused

/-- What calls leave behind, whether they fail or not. -/
structure SendLaws (r : Registry) : Prop where
  /-- A call fails at a tag whose name is too long, and at nothing else. -/
  error : ∀ ch m, (r.post ch m).2 = (r.refused? m).map tooLong
  /-- A call writes its header and the tags before the one it fails at. -/
  writer : ∀ ch ms, (r.postAll ch ms).writer =
    ch.writer.writeAll (ms.flatMap fun m => r.headerBits m ++ (r.onWire m).flatMap r.tagBits)
  /-- It counts these tags and the one it fails at. -/
  counts : ∀ ch ms u, (r.postAll ch ms).stats.count u = ((ch.stats.count u).plus
    ((ms.flatMap r.sends).count (.alone u)) ((ms.flatMap r.sends).count (.inside u))).plus
    ((ms.flatMap r.refusals).count (.alone u)) ((ms.flatMap r.refusals).count (.inside u))
  /-- The counts of a tag that can be sent say how often it was put on the wire. -/
  exact : ∀ ch ms u, r.sendable u = true → (r.postAll ch ms).stats.count u =
    (ch.stats.count u).plus ((ms.flatMap r.sends).count (.alone u))
      ((ms.flatMap r.sends).count (.inside u))
  /-- A tag that is refused on its own leaves the writer alone but is counted. -/
  refused : ∀ ch t, (r.post ch (.alone t)).2 ≠ none →
    (r.post ch (.alone t)).1 = ⟨ch.writer, ch.stats.recordAlone t⟩
  by_index : r.settings.fast = true → ∀ ch m, (r.post ch m).2 = none

theorem Reachable.sendLaws {r : Registry} (h : Reachable r)
    (hsettings : r.settings.check = .ok ()) : SendLaws r := by
  have hr := h.consistent
  constructor
  case error => exact fun ch m => congrArg Prod.snd (post_eq hr hsettings ch m)
  case writer => exact fun ch ms => congrArg Channel.writer (postAll_eq hr hsettings ch ms)
  case counts => exact count_postAll hr hsettings
  case exact =>
      intro ch ms u hu
      have hnone : ∀ send : Send, send.tag = u → (ms.flatMap r.refusals).count send = 0 := by
        intro send htag
        refine List.count_eq_zero.mpr fun hmem => ?_
        obtain ⟨m, _, hm⟩ := List.mem_flatMap.mp hmem
        have hnot := not_sendable_of_mem_refusals hm
        rw [htag, hu] at hnot
        cases hnot
      rw [count_postAll hr hsettings, hnone (.alone u) rfl, hnone (.inside u) rfl]
      rfl
  case refused =>
      intro ch t herror
      rw [post_eq hr hsettings] at herror ⊢
      have hnot : r.sendable t = false := by
        by_contra hsend
        rw [refused?, payload, List.find?_singleton] at herror
        simp [hsend] at herror
      rw [onWire, sends, onWire, refusals, refused?, payload, List.takeWhile_cons,
        List.find?_singleton, hnot]
      rfl
  case by_index =>
      intro hfast ch m
      have hall : ∀ t, r.sendable t = true := fun t => Bool.or_eq_true_iff.mpr (.inl hfast)
      have hnone : r.refused? m = none := List.find?_eq_none.mpr fun t _ => by simp [hall]
      rw [post_eq hr hsettings, hnone]
      rfl

theorem sendLaws_by_name :
    let r := (empty { fast := false, sizeBits := 1 }).run [.addNative ⟨"A", ""⟩, .finalize]
    r.settings.check = .ok () ∧ r.layout.fast = false ∧ SendLaws r := by
  have hcheck : ((empty { fast := false, sizeBits := 1 }).run
    [.addNative ⟨"A", ""⟩, .finalize]).settings.check = .ok () := by decide +kernel
  exact ⟨hcheck, by decide +kernel, Reachable.sendLaws (.run (.origin (.empty _)) _) hcheck⟩

theorem sendable_short (r : Registry) : r.sendable ⟨"A"⟩ = true :=
  Bool.or_eq_true_iff.mpr (.inr (by decide))

section
variable {name : String} (hlong : (nameBytes name).length = 65536)
include hlong

theorem long_ne {short : String} (h : (nameBytes short).length < 65536) : name ≠ short := by
  rintro rfl
  exact absurd hlong (Nat.ne_of_lt h)

variable {r : Registry} (hr : r.Consistent) (hs : r.settings = { fast := false })
include hs

theorem not_sendable_long : r.sendable ⟨name⟩ = false := by
  have hfast : r.layout.fast = false := congrArg Settings.fast hs
  rw [sendable, hfast, hlong]
  decide

theorem sentTags_long : r.sentTags (.ofList [⟨"A"⟩, ⟨name⟩]) = [⟨"A"⟩, ⟨name⟩] := by
  have hne : ¬ "A" = name := (long_ne hlong (by decide)).symm
  have hvalid : ∀ t ∈ [Tag.mk "A", ⟨name⟩], t.isValid = true := by
    intro t ht
    rcases List.mem_pair.mp ht with rfl | rfl
    · rfl
    · exact bne_iff_ne.mpr (long_ne hlong (by decide))
  have hnodup : [Tag.mk "A", ⟨name⟩].Nodup := by simp [hne]
  have hlimit : r.layout.countLimit = 63 := by
    have hsize : r.layout.sizeBits = 6 := congrArg Settings.sizeBits hs
    rw [Layout.countLimit, hsize]
    rfl
  rw [sentTags, hlimit, Container.ofList_of_nodup hvalid hnodup]
  rfl

/-- The emptiness bit, the count and the tag before the long one. -/
theorem length_begun :
    (r.countBits (.ofList [⟨"A"⟩, ⟨name⟩]) ++ r.tagBits ⟨"A"⟩).length = 31 := by
  have hsize : r.layout.sizeBits = 6 := congrArg Settings.sizeBits hs
  have hfast : ¬ r.layout.fast = true := by simp [layout, hs]
  have hsome : ¬ (Container.ofList [⟨"A"⟩, ⟨name⟩]).isEmpty = true := by
    intro hempty
    have htags := sentTags_long hlong hs
    rw [sentTags, List.isEmpty_iff.mp hempty, List.take_nil] at htags
    cases htags
  have hname : (nameBits "A").length = 24 := by decide
  rw [countBits, if_neg hsome, tagBits, if_neg hfast, List.length_append, List.length_cons,
    length_fieldBits, hsize, hname]

include hr

theorem post_alone_long (ch : Channel) : r.post ch (.alone ⟨name⟩) =
    (⟨ch.writer, ch.stats.recordAlone ⟨name⟩⟩, some (.nameTooLong 65536)) := by
  have hcheck : r.settings.check = .ok () := by
    rw [hs]
    decide
  have hnot := not_sendable_long hlong hs
  have hwire : r.onWire (.alone ⟨name⟩) = [] := by simp [onWire, payload, hnot]
  have hrefused : r.refused? (.alone ⟨name⟩) = some ⟨name⟩ := by simp [refused?, payload, hnot]
  rw [post_eq hr hcheck, sends, refusals, hwire, hrefused, ← hlong]
  rfl

theorem post_inside_long (ch : Channel) : r.post ch (.inside (.ofList [⟨"A"⟩, ⟨name⟩])) =
    (⟨ch.writer.writeAll (r.countBits (.ofList [⟨"A"⟩, ⟨name⟩]) ++ r.tagBits ⟨"A"⟩),
      (ch.stats.recordInside ⟨"A"⟩).recordInside ⟨name⟩⟩, some (.nameTooLong 65536)) := by
  have hcheck : r.settings.check = .ok () := by
    rw [hs]
    decide
  have hnot := not_sendable_long hlong hs
  have hpayload : r.payload (.inside (.ofList [⟨"A"⟩, ⟨name⟩])) = [⟨"A"⟩, ⟨name⟩] :=
    sentTags_long hlong hs
  have hwire : r.onWire (.inside (.ofList [⟨"A"⟩, ⟨name⟩])) = [⟨"A"⟩] := by
    simp [onWire, hpayload, hnot, sendable_short]
  have hrefused : r.refused? (.inside (.ofList [⟨"A"⟩, ⟨name⟩])) = some ⟨name⟩ := by
    simp [refused?, hpayload, hnot, sendable_short]
  rw [post_eq hr hcheck, sends, refusals, hwire, hrefused, List.flatMap_singleton, ← hlong]
  rfl

end

theorem post_long {name : String} (hvalid : Name.Valid name)
    (hlong : (nameBytes name).length = 65536) :
    let r := (empty { fast := false }).run [.addNatives [⟨"A", ""⟩, ⟨name, ""⟩], .finalize]
    let alone := r.post ⟨.empty, .empty⟩ (.alone ⟨name⟩)
    let inside := r.post ⟨.empty, .empty⟩ (.inside (.ofList [⟨"A"⟩, ⟨name⟩]))
    Reachable r ∧ r.settings.check = .ok () ∧ r.contains name = true ∧
      alone.2 = some (.nameTooLong 65536) ∧ alone.1.stats.counts = [(⟨name⟩, { alone := 1 })] ∧
      inside.2 = some (.nameTooLong 65536) ∧ inside.1.stats.count ⟨name⟩ = { inside := 1 } ∧
      inside.1.writer.numBits = 31 := by
  intro r alone inside
  have hreachable : Reachable r := .run (.origin (.empty _)) _
  have hs : r.settings = { fast := false } := (run_grows (empty_consistent _) _).settings
  have hregistered : r.contains name = true := by
    have hshort : Name.Valid "A" := by decide
    have haccepted : name ∈ nativeNames false [⟨"A", ""⟩, ⟨name, ""⟩] := by
      simp [nativeNames, hshort, hvalid]
    refine (History.contains_iff ⟨.empty { fast := false },
      [.addNatives [⟨"A", ""⟩, ⟨name, ""⟩], .finalize]⟩ name).mpr ⟨name, ?_, ?_⟩
    · exact List.mem_append_right _ (List.mem_append_left _ haccepted)
    · exact Name.dottedPrefix_iff_ancestor.mpr ⟨long_ne hlong (by decide), .inl rfl⟩
  have halone : alone = _ := post_alone_long hlong hreachable.consistent hs ⟨.empty, .empty⟩
  have hinside : inside = _ := post_inside_long hlong hreachable.consistent hs ⟨.empty, .empty⟩
  refine ⟨hreachable, by rw [hs]; decide, hregistered, ?_⟩
  rw [halone, hinside]
  refine ⟨rfl, rfl, rfl, ?_, ?_⟩
  · have hne : ¬ name = "A" := long_ne hlong (by decide)
    rw [SendStats.recordInside, SendStats.count_modify, if_pos rfl, SendStats.recordInside,
      SendStats.count_modify, if_neg (by simp [hne])]
    rfl
  · rw [BitWriter.numBits_writeAll, length_begun hlong hs]
    rfl

/-- A name of accepted characters that has one byte too many. -/
def longName : String := String.ofList (List.replicate (Packing.range nameLengthBits) 'a')

theorem length_longName : (nameBytes longName).length = 65536 := by
  have hall : ∀ n, (nameBytes (String.ofList (List.replicate n 'a'))).length = n := by
    intro n
    induction n with
    | zero => rfl
    | succ n ih =>
        have hsize : ∀ s, (nameBytes s).length = s.utf8ByteSize := fun _ => rfl
        have hone : (String.singleton 'a').utf8ByteSize = 1 := rfl
        rw [hsize] at ih ⊢
        rw [List.replicate_succ, String.ofList_cons, String.utf8ByteSize_append, hone, ih,
          Nat.add_comm]
  exact (hall _).trans rfl

theorem valid_longName : Name.Valid longName := by
  have hchars : ∀ c ∈ longName.toList, c = 'a' := by
    intro c hc
    rw [longName, String.toList_ofList] at hc
    exact List.eq_of_mem_replicate hc
  have hdot : '.' ∉ longName.toList := fun hmem => absurd (hchars _ hmem) (by decide)
  have hplain : Name.Plain longName := ⟨long_ne length_longName (by decide), hdot⟩
  refine Name.valid_iff_legible.mpr ⟨.of_plain hplain fun c hc => ?_,
    long_ne length_longName (by decide)⟩
  rw [hchars c hc]
  decide

theorem post_longName :
    let r := (empty { fast := false }).run [.addNatives [⟨"A", ""⟩, ⟨longName, ""⟩], .finalize]
    let alone := r.post ⟨.empty, .empty⟩ (.alone ⟨longName⟩)
    let inside := r.post ⟨.empty, .empty⟩ (.inside (.ofList [⟨"A"⟩, ⟨longName⟩]))
    Reachable r ∧ r.settings.check = .ok () ∧ r.contains longName = true ∧
      alone.2 = some (.nameTooLong 65536) ∧
      alone.1.stats.counts = [(⟨longName⟩, { alone := 1 })] ∧
      inside.2 = some (.nameTooLong 65536) ∧
      inside.1.stats.count ⟨longName⟩ = { inside := 1 } ∧ inside.1.writer.numBits = 31 :=
  post_long valid_longName length_longName

end Registry
end TagTree

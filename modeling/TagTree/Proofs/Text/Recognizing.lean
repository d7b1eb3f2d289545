import TagTree.Proofs.Registry.Requesting
import TagTree.Proofs.Text.Scanning

/-!
# What the readers accept

The readers of items, lists and whole texts accept what the grammar derives and
nothing else, and give the names that it gives. An item takes a token, so a list
ends before the bound on its items is reached and the bound never decides an
answer. The registry has no part in this: what a text is worth to it is what its
lookup makes of the names.

Both directions are proved for every reader: what it accepts is derived by the
grammar with the names that it gives, and what the grammar derives is accepted
with these names. For a list the induction of the first direction is on the
bound, and that of the second on the derivation. `Turns` is the same reading
without a bound; a reading that ends in the bound's way ends in the other way as
well, so an answer is never an artefact of the bound.

Resolving comes afterwards. A container that is read is made of the tags that
the lookups of its names give, with the names of no tag left out, so the syntax
of a text can be judged without a registry.
-/
namespace TagTree

namespace TextForm

theorem tokens_of_item {s s' : Scan} {n : String} (h : item s = .ok (n, s')) :
    ∃ ts, ItemForm n ts ∧ Tokens ts s.rest s'.rest := by
  unfold item at h
  split at h
  · rename_i s₁ hopen
    obtain ⟨s₂, hkey, h⟩ := bind_eq_ok.mp h
    obtain ⟨s₃, hequals, h⟩ := bind_eq_ok.mp h
    obtain ⟨⟨n', s₄⟩, hname, h⟩ := bind_eq_ok.mp h
    obtain ⟨s₅, hclose, h⟩ := bind_eq_ok.mp h
    cases h
    obtain ⟨t, hform, htoken⟩ := tokens_of_name hname
    have hstart := tokens_of_eat? (by decide) hopen
    have hlabel := tokens_of_key (by decide) (by decide) hkey hequals
    have hend := tokens_of_expect (by decide) hclose
    exact ⟨_, .tag hform, hstart.append (hlabel.append (htoken.append hend))⟩
  · obtain ⟨t, hform, htoken⟩ := tokens_of_name h
    exact ⟨[t], .name hform, htoken⟩

theorem item_of_tokens {s : Scan} {n : String} {ts us : List Token} {rest : List Char}
    (hform : ItemForm n ts) (h : Tokens (ts ++ us) s.rest rest) :
    ∃ s', item s = .ok (n, s') ∧ Tokens us s'.rest rest := by
  cases hform with
  | name hname =>
      rw [item, eat?_of_token (by decide) h (hname.ne_mark '(')]
      exact name_of_token hname h
  | tag hname =>
      obtain ⟨s₁, hopen, h⟩ := eat?_of_mark h
      obtain ⟨s₂, hkey, h⟩ := expectKey_of_bare h
      obtain ⟨s₃, hequals, h⟩ := expect_of_mark h
      obtain ⟨s₄, hvalue, h⟩ := name_of_token hname h
      obtain ⟨s₅, hclose, h⟩ := expect_of_mark h
      refine ⟨s₅, ?_, h⟩
      rw [item, hopen]
      dsimp only
      rw [hkey, ok_bind, hequals, ok_bind, hvalue, ok_bind, hclose, ok_bind]

theorem eat?_of_item {s : Scan} {n : String} {ts us : List Token} {rest : List Char}
    (hform : ItemForm n ts) (h : Tokens (ts ++ us) s.rest rest) : eat? ')' s = none := by
  cases hform with
  | name hname => exact eat?_of_token (by decide) h (hname.ne_mark ')')
  | tag hname => exact eat?_of_token (by decide) h (by decide)

theorem length_lt_of_item {s s₁ s₂ : Scan} {n : String} (hitem : item s = .ok (n, s₁))
    (hcomma : eat? ',' s₁ = some s₂) : s₂.rest.length < s.rest.length := by
  obtain ⟨ts, _, htokens⟩ := tokens_of_item hitem
  have hle := (htokens.append (tokens_of_eat? (by decide) hcomma)).length_le
  rw [List.length_append, List.length_singleton] at hle
  omega

theorem tokens_of_items {bound : Nat} {s s' : Scan} {names : List String}
    (h : items bound s = .ok (names, s')) :
    ∃ ts, ListForm names ts ∧ Tokens (ts ++ [.mark ')']) s.rest s'.rest := by
  induction bound generalizing s names with
  | zero => cases h
  | succ bound ih =>
      rw [items] at h
      split at h
      · rename_i s₁ hclose
        cases h
        exact ⟨[], .nil, tokens_of_eat? (by decide) hclose⟩
      · obtain ⟨⟨n, s₁⟩, hitem, h⟩ := bind_eq_ok.mp h
        obtain ⟨ts, hform, htokens⟩ := tokens_of_item hitem
        dsimp only at h
        split at h
        · rename_i s₂ hcomma
          obtain ⟨⟨later, s₃⟩, hrest, h⟩ := bind_eq_ok.mp h
          cases h
          obtain ⟨us, hlist, hlater⟩ := ih hrest
          have hboth := htokens.append ((tokens_of_eat? (by decide) hcomma).append hlater)
          exact ⟨ts ++ .mark ',' :: us, .cons hform hlist, by simpa using hboth⟩
        · obtain ⟨s₂, hclose, h⟩ := bind_eq_ok.mp h
          cases h
          exact ⟨ts, .last hform, htokens.append (tokens_of_expect (by decide) hclose)⟩

theorem items_of_tokens {bound : Nat} {s : Scan} {names : List String} {ts us : List Token}
    {rest : List Char} (hform : ListForm names ts) (hbound : s.rest.length < bound)
    (h : Tokens (ts ++ .mark ')' :: us) s.rest rest) :
    ∃ s', items bound s = .ok (names, s') ∧ Tokens us s'.rest rest := by
  induction hform generalizing bound s with
  | nil =>
      obtain ⟨b, rfl⟩ := Nat.exists_eq_add_of_lt hbound
      obtain ⟨s', hclose, h⟩ := eat?_of_mark h
      exact ⟨s', by rw [items, hclose], h⟩
  | last hitem =>
      obtain ⟨b, rfl⟩ := Nat.exists_eq_add_of_lt hbound
      have hmore := eat?_of_item hitem h
      obtain ⟨s₁, hread, h⟩ := item_of_tokens hitem h
      have hcomma := eat?_of_token (c := ',') (by decide) h (by decide)
      obtain ⟨s₂, hclose, h⟩ := expect_of_mark h
      refine ⟨s₂, ?_, h⟩
      rw [items, hmore]
      dsimp only
      rw [hread, ok_bind]
      dsimp only
      rw [hcomma]
      dsimp only
      rw [hclose, ok_bind]
  | cons hitem _ ih =>
      obtain ⟨b, rfl⟩ := Nat.exists_eq_add_of_lt hbound
      rw [List.append_assoc] at h
      have hmore := eat?_of_item hitem h
      obtain ⟨s₁, hread, h⟩ := item_of_tokens hitem h
      obtain ⟨s₂, hcomma, h⟩ := eat?_of_mark h
      have hshorter := length_lt_of_item hread hcomma
      have hless : s₂.rest.length < s.rest.length + b := by omega
      obtain ⟨s₃, hrest, h⟩ := ih hless h
      refine ⟨s₃, ?_, h⟩
      rw [items, hmore]
      dsimp only
      rw [hread, ok_bind]
      dsimp only
      rw [hcomma]
      dsimp only
      rw [hrest, ok_bind]

/-- The turns of reading a list, without a bound on their number. -/
inductive Turns : Scan → Except TextError (List String × Scan) → Prop
  | closed {s s' : Scan} : eat? ')' s = some s' → Turns s (.ok ([], s'))
  | noItem {s : Scan} {e : TextError} : eat? ')' s = none → item s = .error e → Turns s (.error e)
  | again {s s₁ s₂ : Scan} {n : String} {outcome : Except TextError (List String × Scan)} :
      eat? ')' s = none → item s = .ok (n, s₁) → eat? ',' s₁ = some s₂ → Turns s₂ outcome →
      Turns s (outcome.map fun r => (n :: r.1, r.2))
  | last {s s₁ : Scan} {n : String} : eat? ')' s = none → item s = .ok (n, s₁) →
      eat? ',' s₁ = none → Turns s ((expect ')' s₁).map fun s₂ => ([n], s₂))

/-- The turns come to an end before the bound does. -/
theorem items_turns {bound : Nat} {s : Scan} (hbound : s.rest.length < bound) :
    Turns s (items bound s) := by
  induction bound generalizing s with
  | zero => exact absurd hbound (Nat.not_lt_zero _)
  | succ bound ih =>
      rw [items]
      cases hclose : eat? ')' s with
      | some s' => exact .closed hclose
      | none =>
        cases hitem : item s with
        | error e => exact .noItem hclose hitem
        | ok r =>
          obtain ⟨n, s₁⟩ := r
          dsimp only
          rw [ok_bind]
          dsimp only
          cases hcomma : eat? ',' s₁ with
          | some s₂ =>
              have hshorter := length_lt_of_item hitem hcomma
              exact .again hclose hitem hcomma (ih (by omega))
          | none => exact .last hclose hitem hcomma

theorem containerNames_eq_ok {text : String} {names : List String} :
    containerNames text = .ok names ↔ ContainerText names text.toList := by
  constructor
  · intro h
    obtain ⟨s₁, hopen, h⟩ := bind_eq_ok.mp h
    obtain ⟨s₂, hkey, h⟩ := bind_eq_ok.mp h
    obtain ⟨s₃, hequals, h⟩ := bind_eq_ok.mp h
    obtain ⟨s₄, hlist, h⟩ := bind_eq_ok.mp h
    obtain ⟨⟨names', s₅⟩, hitems, h⟩ := bind_eq_ok.mp h
    obtain ⟨s₆, hclose, h⟩ := bind_eq_ok.mp h
    obtain ⟨_, hend, h⟩ := bind_eq_ok.mp h
    cases h
    obtain ⟨ts, hform, htokens⟩ := tokens_of_items hitems
    have hhead := (tokens_of_expect (by decide) hopen).append
      ((tokens_of_key (by decide) (by decide) hkey hequals).append
        (tokens_of_expect (by decide) hlist))
    have htail := htokens.append (tokens_of_expect (by decide) hclose)
    rw [List.append_assoc] at htail
    exact ⟨ts, s₆.rest, hform, hhead.append htail, expectEnd_eq_ok.mp hend⟩
  · intro h
    obtain ⟨ts, rest, hform, htokens, hblank⟩ := h
    obtain ⟨s₁, hopen, h₁⟩ := expect_of_mark (s := start text) htokens
    obtain ⟨s₂, hkey, h₂⟩ := expectKey_of_bare h₁
    obtain ⟨s₃, hequals, h₃⟩ := expect_of_mark h₂
    obtain ⟨s₄, hlist, h₄⟩ := expect_of_mark h₃
    obtain ⟨s₅, hitems, h₅⟩ := items_of_tokens hform (Nat.lt_succ_self _) h₄
    obtain ⟨s₆, hclose, h₆⟩ := expect_of_mark h₅
    rw [containerNames, hopen, ok_bind, hkey, ok_bind, hequals, ok_bind, hlist, ok_bind, hitems,
      ok_bind]
    dsimp only
    rw [hclose, ok_bind, expectEnd_eq_ok.mpr (h₆.eq_of_nil ▸ hblank), ok_bind]

theorem tagName_of_itemText {text name : String} (h : ItemText name text.toList) :
    tagName text = .ok (some name) := by
  obtain ⟨ts, rest, hform, htokens, hblank⟩ := h
  obtain ⟨t, us, hts⟩ := List.exists_cons_of_ne_nil hform.ne_nil
  rw [hts] at htokens
  obtain ⟨whole, between, hbefore, hw, _⟩ := before_of_tokens (s := start text) htokens
  obtain ⟨c, cs, hwhole, _⟩ := hw.head
  have hsome : ¬ (start text).trim.rest.isEmpty = true := by
    rw [Scan.Before] at hbefore
    simp [hbefore, hwhole]
  rw [← hts, ← List.append_nil ts] at htokens
  obtain ⟨s, hitem, hend⟩ := item_of_tokens (s := start text) hform htokens
  rw [tagName, if_neg hsome, hitem, ok_bind]
  dsimp only
  rw [expectEnd_eq_ok.mpr (hend.eq_of_nil ▸ hblank), ok_bind]

end TextForm

namespace Registry
open TextForm

theorem lookup_of_empty (r : Registry) : (r.lookup "").value = .invalid := by
  rw [lookup, if_pos (.inl rfl)]
  rfl

theorem containerOfNames_go (r : Registry) (c : Container) (names : List String) :
    (containerOfNames.go r c names).value = c.addAll (names.map fun n => (r.lookup n).value) := by
  induction names generalizing c with
  | nil => rfl
  | cons name names ih =>
      have hstep : c.addAll ((name :: names).map fun n => (r.lookup n).value) =
          (c.add (r.lookup name).value).addAll (names.map fun n => (r.lookup n).value) := rfl
      rw [hstep, containerOfNames.go]
      split
      · rename_i hskip
        have hinvalid : (r.lookup name).value = .invalid := by
          rcases hskip with rfl | rfl
          · exact r.lookup_of_empty
          · exact r.lookup_none
        have hadd : c.add .invalid = c := rfl
        rw [ih, hinvalid, hadd]
      · exact ih _

theorem containerOfText_of_names (r : Registry) {text : String} {names : List String}
    (h : containerNames text = .ok names) :
    r.containerOfText text = (do pure (.ok (← r.containerOfNames names))) := by
  rw [containerOfText, h]

theorem containerOfText_value (r : Registry) {text : String} {names : List String}
    (h : containerNames text = .ok names) : (r.containerOfText text).value =
      .ok (.ofList (names.map fun n => (r.lookup n).value)) := by
  rw [r.containerOfText_of_names h, Logged.value_bind, containerOfNames, containerOfNames_go]
  rfl

/-- A container is read from exactly the texts of the grammar. The text alone says which names are looked
up and in which order, and a text that is refused is refused by every registry for the same reason. The
list is read in finitely many turns. -/
theorem containerOfText_recognizes (text : String) :
    (∀ r : Registry, (∃ c, (r.containerOfText text).value = .ok c) ↔
      ∃ names, ContainerText names text.toList) ∧
    (∀ names, ContainerText names text.toList →
      (∀ names', ContainerText names' text.toList → names' = names) ∧
      ∀ r : Registry, r.containerOfText text = (do pure (.ok (← r.containerOfNames names))) ∧
        (r.containerOfText text).value = .ok (.ofList (names.map fun n => (r.lookup n).value))) ∧
    ((¬ ∃ names, ContainerText names text.toList) →
      ∃ e, ∀ r : Registry, r.containerOfText text = pure (.error e)) ∧
    ∀ s : Scan, Turns s (items (s.rest.length + 1) s) := by
  simp only [← containerNames_eq_ok]
  refine ⟨?_, ?_, ?_, fun s => items_turns (Nat.lt_succ_self _)⟩
  · intro r
    cases h : containerNames text with
    | error e => simp [containerOfText, h]
    | ok names => simp [containerOfText_value r h]
  · intro names h
    refine ⟨fun names' h' => ?_, fun r => ⟨r.containerOfText_of_names h, r.containerOfText_value h⟩⟩
    rw [h] at h'
    exact (Except.ok.inj h').symm
  · intro hnone
    cases h : containerNames text with
    | error e => exact ⟨e, fun r => by rw [containerOfText, h]⟩
    | ok names => exact absurd ⟨names, h⟩ hnone

/-- Every form of an item, an escaped quote, a name that is not registered and a comma at the end. A blank
does not separate items. -/
theorem containerOfText_recognizes_lenient :
    let text := " ( Tags = ( A.B , \"q\\\"\" ,(TagName = \"C\"),(TagName=None), ) ) "
    let r := (empty {}).run [.addNatives [⟨"A.B", ""⟩, ⟨"C", ""⟩]]
    ContainerText ["A.B", "q\"", "C", "None"] text.toList ∧
      (r.containerOfText text).value = .ok ⟨[⟨"A.B"⟩, ⟨"C"⟩], [⟨"A"⟩]⟩ ∧
      ¬ ∃ names, ContainerText names "(Tags=(A.B C))".toList := by
  intro text r
  have htext : ContainerText ["A.B", "q\"", "C", "None"] text.toList :=
    containerNames_eq_ok.mp (by decide +kernel)
  obtain ⟨_, hnames, _⟩ := containerOfText_recognizes text
  obtain ⟨haccepts, _⟩ := containerOfText_recognizes "(Tags=(A.B C))"
  refine ⟨htext, ?_, ?_⟩
  · exact ((hnames _ htext).2 r).2.trans (by decide +kernel)
  · intro h
    obtain ⟨c, hc⟩ := (haccepts r).mpr h
    have hrefused : (r.containerOfText "(Tags=(A.B C))").value =
        .error (.expected "')'" 11) := by decide +kernel
    rw [hrefused] at hc
    cases hc

end Registry
end TagTree

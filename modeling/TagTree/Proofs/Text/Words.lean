import Mathlib.Data.List.Chain
import TagTree.Proofs.Name.Ancestors
import TagTree.Proofs.Text.Recognizing

/-!
# Accepted names in every form

What ends a bare name and what has to be escaped in quotes is said by the text
form, and what a name may consist of is said by the names. Here the two are held
against each other. A text is put together from words with any blanks around
them, and a name is a word of it as it is or between quotes, without a look at
its characters. If the name is accepted, then what is read is this name and no
other.

The rows of words are concrete where the grammar is abstract: a form says for
each name whether it is bare or in quotes and whether it is an item in
parentheses, and the words of a container are put together from such forms. They
are read as the tokens that they were made of as long as no two bare words stand
side by side, which is the condition `Apart` and holds because a mark stands
between any two names.

An accepted name has no blank, no quote, no backslash, no comma, no parenthesis
and no equals sign in it. So a bare name ends behind its last character and a
quoted one has nothing to escape.
-/
namespace TagTree

namespace TextForm

instance (cs : List Char) : Decidable (Blank cs) := List.decidableBAll _ cs

inductive Spaced : List String → List Char → Prop
  | nil {blanks : List Char} : Blank blanks → Spaced [] blanks
  | cons {blanks text : List Char} {word : String} {words : List String} : Blank blanks →
      Spaced words text → Spaced (word :: words) (blanks ++ (word.toList ++ text))

/-- The ways to write a name. -/
inductive Form where
  | bare
  | quoted
  | tagBare
  | tagQuoted
deriving DecidableEq, Repr

/-- A name in quotes, without escapes. -/
def inQuotes (name : String) : String := "\"" ++ name ++ "\""

def Form.words (name : String) : Form → List String
  | bare => [name]
  | quoted => [inQuotes name]
  | tagBare => ["(", tagNameKey, "=", name, ")"]
  | tagQuoted => ["(", tagNameKey, "=", inQuotes name, ")"]

def listWords : List (Form × String) → List String
  | [] => []
  | [(form, name)] => form.words name
  | (form, name) :: rest => form.words name ++ "," :: listWords rest

def containerWords (items : List (Form × String)) : List String :=
  "(" :: tagsKey :: "=" :: "(" :: (listWords items ++ [")", ")"])

def Token.word : Token → String
  | .mark c => c.toString
  | .quoted value => inQuotes value
  | .bare value => value

/-- The word of the token is a way to write it. -/
inductive Token.Plain : Token → Prop
  | mark {c : Char} : c ∈ marks → Plain (.mark c)
  | quoted {value : String} : Quotable value → Plain (.quoted value)
  | bare {value : String} : value ≠ "" → (∀ c ∈ value.toList, endsBare c = false) →
      Plain (.bare value)

theorem Token.Plain.of_any {value : String} (hne : value ≠ "")
    (hends : value.toList.any endsBare = false) : (Token.bare value).Plain :=
  .bare hne (by simpa using hends)

def Token.isBare : Token → Bool
  | .bare _ => true
  | _ => false

def Token.Apart (s t : Token) : Prop := s.isBare = true → t.isBare = false

theorem Token.Apart.of_right {t : Token} (h : t.isBare = false) (s : Token) : s.Apart t := fun _ => h

theorem Token.Apart.of_left {s : Token} (h : s.isBare = false) (t : Token) : s.Apart t := by
  intro hs
  rw [h] at hs
  cases hs

/-- A word other than a bare one begins with a character that no bare word has. -/
theorem Token.Plain.head {t : Token} (h : t.Plain) (hbare : t.isBare = false) :
    ∃ c cs, t.word.toList = c :: cs ∧ endsBare c = true := by
  cases h with
  | @mark c hc => exact ⟨c, [], by simp [word], (of_mem_marks hc).2.1⟩
  | @quoted value _ => exact ⟨'"', value.toList ++ ['"'], by simp [word, inQuotes], by decide⟩
  | bare _ _ => cases hbare

theorem endsBare_of_blank {blanks rest : List Char} (h : Blank blanks) (hrest : EndsBare rest) :
    EndsBare (blanks ++ rest) := by
  cases blanks with
  | nil => exact hrest
  | cons b blanks =>
      intro c hc
      cases hc
      exact endsBare_of_isBlank (h b List.mem_cons_self)

theorem endsBare_of_spaced {ts : List Token} {text : List Char} (hplain : ∀ t ∈ ts, t.Plain)
    (hhead : ∀ t ∈ ts.head?, t.isBare = false) (h : Spaced (ts.map Token.word) text) :
    EndsBare text := by
  cases ts with
  | nil =>
      cases h with
      | nil hblanks =>
          rw [← List.append_nil text]
          exact endsBare_of_blank hblanks nofun
  | cons t ts =>
      cases h with
      | cons hblanks _ =>
          obtain ⟨c, cs, hword, hc⟩ := (hplain t List.mem_cons_self).head (hhead t rfl)
          refine endsBare_of_blank hblanks ?_
          intro d hd
          rw [hword] at hd
          cases hd
          exact hc

theorem Token.Plain.written {t : Token} (h : t.Plain) {text : List Char}
    (hends : t.isBare = true → EndsBare text) : t.Written (t.word.toList ++ text) text := by
  cases h with
  | @mark c hc =>
      have hword : (Token.mark c).word.toList ++ text = c :: text := by simp [word]
      rw [hword]
      exact .mark hc
  | @quoted value hq =>
      have hword : (Token.quoted value).word.toList ++ text =
          '"' :: (value.toList ++ '"' :: text) := by simp [word, inQuotes]
      rw [hword]
      exact hq.written text
  | bare hne hall => exact .bare hne hall (hends rfl)

/-- The words of tokens that keep apart are read as these tokens, whatever blanks are around them. -/
theorem tokens_of_spaced {ts : List Token} {text : List Char} (hplain : ∀ t ∈ ts, t.Plain)
    (hapart : ts.IsChain Token.Apart) (h : Spaced (ts.map Token.word) text) :
    ∃ rest, Tokens ts text rest ∧ Blank rest := by
  induction ts generalizing text with
  | nil =>
      cases h with
      | nil hblanks => exact ⟨text, .nil text, hblanks⟩
  | cons t ts ih =>
      cases h with
      | cons hblanks hwords =>
          obtain ⟨ht, hts⟩ := List.forall_mem_cons.mp hplain
          obtain ⟨hnext, hchain⟩ := List.isChain_cons.mp hapart
          obtain ⟨rest, htokens, hrest⟩ := ih hts hchain hwords
          have hends : t.isBare = true → EndsBare _ := fun hbare =>
            endsBare_of_spaced hts (fun s hs => hnext s hs hbare) hwords
          exact ⟨rest, .cons hblanks (ht.written hends) htokens, hrest⟩

/-- Nothing in an accepted name ends it or has to be escaped. -/
theorem not_special_of_valid {name : String} (h : Name.Valid name) {c : Char}
    (hc : c ∈ name.toList) : endsBare c = false ∧ c ≠ '"' ∧ c ≠ '\\' := by
  obtain ⟨hblank, hdelimiter⟩ := (Name.valid_iff.mp h).2.2 c hc
  simp only [Name.isDelimiter, Bool.or_eq_false_iff, decide_eq_false_iff_not] at hdelimiter
  obtain ⟨⟨⟨⟨⟨⟨hquote, _⟩, hcomma⟩, hopen⟩, hclose⟩, hequals⟩, hslash⟩ := hdelimiter
  exact ⟨by simp [endsBare, hblank, hquote, hcomma, hopen, hclose, hequals], hquote, hslash⟩

def Form.tokens (name : String) : Form → List Token
  | bare => [.bare name]
  | quoted => [.quoted name]
  | tagBare => [.mark '(', .bare tagNameKey, .mark '=', .bare name, .mark ')']
  | tagQuoted => [.mark '(', .bare tagNameKey, .mark '=', .quoted name, .mark ')']

def listTokens : List (Form × String) → List Token
  | [] => []
  | [(form, name)] => form.tokens name
  | (form, name) :: rest => form.tokens name ++ .mark ',' :: listTokens rest

def containerTokens (items : List (Form × String)) : List Token :=
  .mark '(' :: .bare tagsKey :: .mark '=' :: .mark '(' :: (listTokens items ++ [.mark ')', .mark ')'])

theorem apart_mark {ts us : List Token} (hts : ts.IsChain Token.Apart) (hus : us.IsChain Token.Apart)
    (c : Char) : (ts ++ .mark c :: us).IsChain Token.Apart := by
  refine List.isChain_append.mpr ⟨hts, List.isChain_cons.mpr ⟨?_, hus⟩, ?_⟩
  · exact fun t _ => .of_left rfl t
  · intro s _ t ht
    cases ht
    exact .of_right rfl s

section
variable (form : Form) (name : String)

theorem words_eq : form.words name = (form.tokens name).map Token.word := by
  cases form <;> rfl

theorem itemForm_tokens : ItemForm name (form.tokens name) := by
  cases form with
  | bare => exact .name (.bare name)
  | quoted => exact .name (.quoted name)
  | tagBare => exact .tag (.bare name)
  | tagQuoted => exact .tag (.quoted name)

theorem tokens_apart : (form.tokens name).IsChain Token.Apart := by
  cases form <;> simp [Form.tokens, Token.Apart, Token.isBare]

variable {name} (h : Name.Valid name)
include h

theorem tokens_plain : ∀ t ∈ form.tokens name, t.Plain := by
  have hname : (Token.bare name).Plain :=
    .bare h.ne_empty fun c hc => (not_special_of_valid h hc).1
  have hquoted : (Token.quoted name).Plain := .quoted fun c hc => (not_special_of_valid h hc).2
  have hkey : (Token.bare tagNameKey).Plain := .of_any (by decide) (by decide)
  have hmark : ∀ c ∈ marks, (Token.mark c).Plain := fun c => .mark
  simp only [marks, List.forall_mem_cons] at hmark
  cases form <;> simp_all [Form.tokens]

theorem itemText_of_spaced {text : List Char} (hs : Spaced (form.words name) text) :
    ItemText name text := by
  rw [words_eq] at hs
  obtain ⟨rest, htokens, hrest⟩ := tokens_of_spaced (tokens_plain form h) (tokens_apart form name) hs
  exact ⟨_, rest, itemForm_tokens form name, htokens, hrest⟩

end

section
variable (items : List (Form × String))

theorem listWords_eq : listWords items = (listTokens items).map Token.word := by
  fun_induction listWords items with
  | case1 => rfl
  | case2 form name => exact words_eq form name
  | case3 form name rest _ ih => simp [listTokens, words_eq, ih, Token.word]

theorem containerWords_eq : containerWords items = (containerTokens items).map Token.word := by
  simp [containerWords, containerTokens, listWords_eq, Token.word]

theorem listForm_tokens : ListForm (items.map Prod.snd) (listTokens items) := by
  fun_induction listTokens items with
  | case1 => exact .nil
  | case2 form name => exact .last (itemForm_tokens form name)
  | case3 form name rest _ ih => exact .cons (itemForm_tokens form name) ih

theorem listTokens_apart : (listTokens items).IsChain Token.Apart := by
  fun_induction listTokens items with
  | case1 => exact .nil
  | case2 form name => exact tokens_apart form name
  | case3 form name rest _ ih => exact apart_mark (tokens_apart form name) ih ','

theorem containerTokens_apart : (containerTokens items).IsChain Token.Apart := by
  have hclose : [Token.mark ')'].IsChain Token.Apart := .singleton _
  have hlist := apart_mark (listTokens_apart items) hclose ')'
  have hopen : [Token.bare tagsKey].IsChain Token.Apart := .singleton _
  exact apart_mark .nil (apart_mark hopen (apart_mark .nil hlist '(') '=') '('

variable {items} (h : ∀ i ∈ items, Name.Valid i.2)
include h

theorem listTokens_plain : ∀ t ∈ listTokens items, t.Plain := by
  fun_induction listTokens items with
  | case1 => exact nofun
  | case2 form name => exact tokens_plain form (h _ List.mem_cons_self)
  | case3 form name rest _ ih =>
      obtain ⟨hname, hrest⟩ := List.forall_mem_cons.mp h
      refine List.forall_mem_append.mpr ⟨tokens_plain form hname, ?_⟩
      exact List.forall_mem_cons.mpr ⟨.mark (by decide), ih hrest⟩

theorem containerTokens_plain : ∀ t ∈ containerTokens items, t.Plain := by
  have hkey : (Token.bare tagsKey).Plain := .of_any (by decide) (by decide)
  have hmark : ∀ c ∈ marks, (Token.mark c).Plain := fun c => .mark
  simp only [marks, List.forall_mem_cons] at hmark
  have hlist := listTokens_plain h
  simp only [containerTokens, List.forall_mem_cons, List.forall_mem_append]
  simp_all

theorem containerText_of_spaced {text : List Char} (hs : Spaced (containerWords items) text) :
    ContainerText (items.map Prod.snd) text := by
  rw [containerWords_eq] at hs
  obtain ⟨rest, htokens, hrest⟩ :=
    tokens_of_spaced (containerTokens_plain h) (containerTokens_apart items) hs
  exact ⟨_, rest, listForm_tokens items, htokens, hrest⟩

end

end TextForm

namespace Registry
open TextForm

theorem tagOfText_of_name (r : Registry) {text name : String} (h : Name.Valid name)
    (hread : tagName text = .ok (some name)) : r.tagOfText text = (do
      let (_, tag) ← r.requestIf false name
      pure (if tag.isValid then .ok tag else .error (.unknownTag name))) := by
  have hne : ¬ (name = "" ∨ name = Name.none) := not_or.mpr ⟨h.ne_empty, (Name.valid_iff.mp h).2.1⟩
  rw [tagOfText, hread]
  dsimp only
  have hrequest : r.requestIf false name = ⟨(r, (r.lookup name).value), (r.lookup name).events⟩ :=
    congrArg (Logged.mk _) (List.append_nil _)
  rw [if_neg hne, hrequest]
  rfl

/-- A name that is accepted is read as this name and no other, in each of its forms and with any blanks
between the words: a tag is answered by the lookup of the name, or by an error that names it. In the
text of a container any such names in any forms are read as the list of these names. -/
theorem accepted_read_exactly (r : Registry) :
    (∀ (form : Form) (name text : String), Name.Valid name → Spaced (form.words name) text.toList →
      tagName text = .ok (some name) ∧ r.tagOfText text = (do
        let (_, tag) ← r.requestIf false name
        pure (if tag.isValid then .ok tag else .error (.unknownTag name)))) ∧
    ∀ (items : List (Form × String)) (text : String), (∀ i ∈ items, Name.Valid i.2) →
      Spaced (containerWords items) text.toList →
      containerNames text = .ok (items.map Prod.snd) ∧
        r.containerOfText text = (do pure (.ok (← r.containerOfNames (items.map Prod.snd)))) := by
  constructor
  · intro form name text h hs
    have hread := tagName_of_itemText (itemText_of_spaced form h hs)
    exact ⟨hread, r.tagOfText_of_name h hread⟩
  · intro items text h hs
    have hread := containerNames_eq_ok.mpr (containerText_of_spaced h hs)
    exact ⟨hread, r.containerOfText_of_names hread⟩

/-- Blanks of several sorts, around words and between them, and names that begin like a key. -/
theorem accepted_read_exactly_spaced :
    let r := (empty {}).run [.addNatives [⟨"TagName.é#1", ""⟩]]
    let text := "\u3000( TagName\t=TagName.é#1 )"
    let list := " (Tags= ( Tags ,\n\"TagName.é#1\"\u00A0)) "
    let items : List (Form × String) := [(.bare, "Tags"), (.quoted, "TagName.é#1")]
    (r.tagOfText text).value = .ok ⟨"TagName.é#1"⟩ ∧
      containerNames list = .ok (items.map Prod.snd) ∧
      (r.containerOfText list).value = .ok ⟨[⟨"TagName.é#1"⟩], [⟨"TagName"⟩]⟩ := by
  intro r text list items
  have htext : text.toList = ['\u3000'] ++ ("(".toList ++ ([' '] ++ ("TagName".toList ++ (['\t'] ++
      ("=".toList ++ ([] ++ ("TagName.é#1".toList ++ ([' '] ++ (")".toList ++ []))))))))) := by
    decide +kernel
  have htag : Spaced (Form.words "TagName.é#1" .tagBare) text.toList := by
    rw [htext]
    exact .cons (by decide) (.cons (by decide) (.cons (by decide) (.cons (by decide)
      (.cons (by decide) (.nil (by decide))))))
  have hlist : list.toList = [' '] ++ ("(".toList ++ ([] ++ ("Tags".toList ++ ([] ++ ("=".toList ++
      ([' '] ++ ("(".toList ++ ([' '] ++ ("Tags".toList ++ ([' '] ++ (",".toList ++ (['\n'] ++
      ("\"TagName.é#1\"".toList ++ (['\u00A0'] ++ (")".toList ++ ([] ++ (")".toList ++
      [' '])))))))))))))))))  := by
    decide +kernel
  have hitems : Spaced (containerWords items) list.toList := by
    rw [hlist]
    exact .cons (by decide) (.cons (by decide) (.cons (by decide) (.cons (by decide)
      (.cons (by decide) (.cons (by decide) (.cons (by decide) (.cons (by decide)
      (.cons (by decide) (.nil (by decide))))))))))
  have hread := ((accepted_read_exactly r).1 .tagBare "TagName.é#1" text (by decide) htag).2
  obtain ⟨hnames, hcontainer⟩ := (accepted_read_exactly r).2 items list (by decide) hitems
  refine ⟨?_, hnames, ?_⟩
  · rw [hread]
    decide +kernel
  · rw [hcontainer]
    decide +kernel

end Registry
end TagTree

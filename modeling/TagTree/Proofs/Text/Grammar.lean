import TagTree.Text.Form

/-!
# The grammar of the text form

A text is a row of tokens with blanks in front of each and behind the last. The
tokens are brackets, commas and equals signs, strings in quotes, and bare words,
which reach as far as they can. What stands in quotes comes as it is spelt,
except that a backslash is dropped and the character behind it is kept, whatever
it is. Which rows of tokens are a name, an item, a list of items and a container
is said here without a reader; the readers are held against it elsewhere.

A token is written in front of some rest of the text, since a bare word ends
where the rest begins.

The rows are given by inductive types that name the forms. `NameForm` is a
string in quotes or a bare word, `ItemForm` a name or a name in parentheses
behind its key, `ListForm` a list with a comma between two items and perhaps one
at the end. A whole text is such a row with the brackets and keys around it and
nothing behind it but blanks.

A spelling and its value are related by an inductive type too, so one value has
many spellings. A text that has neither a quote nor a backslash in it is its own
spelling, which is all that writing needs.
-/
namespace TagTree.TextForm

/-- The spelling of a value inside quotes. -/
inductive Spelling : List Char → List Char → Prop
  | nil : Spelling [] []
  | plain {c : Char} {value text : List Char} : c ≠ '"' → c ≠ '\\' → Spelling value text →
      Spelling (c :: value) (c :: text)
  | escaped {c : Char} {value text : List Char} : Spelling value text →
      Spelling (c :: value) ('\\' :: c :: text)

inductive Token where
  | mark (c : Char)
  | quoted (value : String)
  | bare (value : String)
deriving DecidableEq, Repr

/-- The characters that are tokens on their own. -/
def marks : List Char := ['(', ')', ',', '=']

def Blank (cs : List Char) : Prop := ∀ c ∈ cs, isBlank c

/-- What follows a bare word: the end, or a character that no bare word has. -/
def EndsBare (rest : List Char) : Prop := ∀ c ∈ rest.head?, endsBare c

/-- How a token is written in front of `rest`. -/
inductive Token.Written : Token → List Char → List Char → Prop
  | mark {c : Char} {rest : List Char} : c ∈ marks →
      Written (.mark c) (c :: rest) rest
  | quoted {value : String} {text rest : List Char} : Spelling value.toList text →
      Written (.quoted value) ('"' :: (text ++ '"' :: rest)) rest
  | bare {value : String} {rest : List Char} : value ≠ "" →
      (∀ c ∈ value.toList, endsBare c = false) → EndsBare rest →
      Written (.bare value) (value.toList ++ rest) rest

inductive Tokens : List Token → List Char → List Char → Prop
  | nil (rest : List Char) : Tokens [] rest rest
  | cons {t : Token} {ts : List Token} {blanks text between rest : List Char} : Blank blanks →
      t.Written text between → Tokens ts between rest → Tokens (t :: ts) (blanks ++ text) rest

/-- A name in quotes or bare. -/
inductive NameForm : String → Token → Prop
  | quoted (name : String) : NameForm name (.quoted name)
  | bare (name : String) : NameForm name (.bare name)

/-- A name as it is or in the form of a single tag, `( TagName = name )`. -/
inductive ItemForm : String → List Token → Prop
  | name {n : String} {t : Token} : NameForm n t → ItemForm n [t]
  | tag {n : String} {t : Token} : NameForm n t →
      ItemForm n [.mark '(', .bare tagNameKey, .mark '=', t, .mark ')']

/-- Items with commas between them; a comma may follow the last. -/
inductive ListForm : List String → List Token → Prop
  | nil : ListForm [] []
  | last {n : String} {ts : List Token} : ItemForm n ts → ListForm [n] ts
  | cons {n : String} {names : List String} {ts us : List Token} : ItemForm n ts →
      ListForm names us → ListForm (n :: names) (ts ++ .mark ',' :: us)

/-- The text of an item and nothing else. -/
def ItemText (name : String) (text : List Char) : Prop :=
  ∃ ts rest, ItemForm name ts ∧ Tokens ts text rest ∧ Blank rest

/-- The text `( Tags = ( list ) )` and nothing else. -/
def ContainerText (names : List String) (text : List Char) : Prop :=
  ∃ ts rest, ListForm names ts ∧
    Tokens (.mark '(' :: .bare tagsKey :: .mark '=' :: .mark '(' :: (ts ++ [.mark ')', .mark ')']))
      text rest ∧ Blank rest

/-- A text is quotable as it is if nothing in it has to be escaped. -/
def Quotable (text : String) : Prop := ∀ c ∈ text.toList, c ≠ '"' ∧ c ≠ '\\'

instance (text : String) : Decidable (Quotable text) := List.decidableBAll _ text.toList

theorem spelling_self {cs : List Char} (h : ∀ c ∈ cs, c ≠ '"' ∧ c ≠ '\\') : Spelling cs cs := by
  induction cs with
  | nil => exact .nil
  | cons c cs ih =>
      obtain ⟨hc, hcs⟩ := List.forall_mem_cons.mp h
      exact .plain hc.1 hc.2 (ih hcs)

theorem endsBare_of_isBlank {c : Char} (h : isBlank c) : endsBare c = true := by
  simp [endsBare, h]

theorem of_mem_marks {c : Char} (h : c ∈ marks) :
    isBlank c = false ∧ endsBare c = true ∧ c ≠ '"' := by
  simp only [marks, List.mem_cons, List.not_mem_nil, or_false] at h
  rcases h with rfl | rfl | rfl | rfl <;> decide

theorem Quotable.written {text : String} (h : Quotable text) (rest : List Char) :
    (Token.quoted text).Written ('"' :: (text.toList ++ '"' :: rest)) rest :=
  .quoted (spelling_self h)

theorem Token.Written.head {t : Token} {text rest : List Char} (h : t.Written text rest) :
    ∃ c cs, text = c :: cs ∧ isBlank c = false ∧ ∀ d ∈ marks, t ≠ .mark d → c ≠ d := by
  cases h with
  | @mark c rest hc =>
      exact ⟨c, rest, rfl, (of_mem_marks hc).1, fun d _ hne heq => hne (congrArg Token.mark heq)⟩
  | quoted _ => exact ⟨'"', _, rfl, by decide, fun d hd _ => (of_mem_marks hd).2.2.symm⟩
  | @bare value rest hne hword _ =>
      obtain ⟨c, cs, hcs⟩ := List.exists_cons_of_ne_nil (mt String.toList_eq_nil_iff.mp hne)
      have hc := hword c (hcs ▸ List.mem_cons_self)
      refine ⟨c, cs ++ rest, by rw [hcs, List.cons_append], ?_, ?_⟩
      · refine Bool.eq_false_iff.mpr fun hblank => ?_
        rw [endsBare_of_isBlank hblank] at hc
        cases hc
      · intro d hd _ heq
        rw [heq, (of_mem_marks hd).2.1] at hc
        cases hc

theorem Token.Written.length_lt {t : Token} {text rest : List Char} (h : t.Written text rest) :
    rest.length < text.length := by
  cases h with
  | mark _ => simp
  | quoted _ => simp only [List.length_cons, List.length_append]; omega
  | @bare value _ hne _ _ =>
      have hpos := List.length_pos_iff.mpr (mt String.toList_eq_nil_iff.mp hne)
      rw [List.length_append]
      omega

theorem Tokens.append {ts us : List Token} {text between rest : List Char}
    (h : Tokens ts text between) (k : Tokens us between rest) : Tokens (ts ++ us) text rest := by
  induction h with
  | nil _ => exact k
  | cons hblanks hwritten _ ih => exact .cons hblanks hwritten (ih k)

/-- Every token takes at least one character. -/
theorem Tokens.length_le {ts : List Token} {text rest : List Char} (h : Tokens ts text rest) :
    rest.length + ts.length ≤ text.length := by
  induction h with
  | nil _ => simp
  | cons _ hwritten _ ih =>
      have hone := hwritten.length_lt
      simp only [List.length_cons, List.length_append]
      omega

theorem Tokens.eq_of_nil {text rest : List Char} (h : Tokens [] text rest) : text = rest := by
  cases h
  rfl

theorem Token.Written.tokens {t : Token} {text between rest : List Char} {ts : List Token}
    (hw : t.Written text between) (h : Tokens ts between rest) : Tokens (t :: ts) text rest := by
  have hnone : Blank [] := nofun
  exact .cons hnone hw h

theorem tokens_mark {c : Char} (hc : c ∈ marks) {ts : List Token} {between rest : List Char}
    (h : Tokens ts between rest) : Tokens (.mark c :: ts) (c :: between) rest :=
  (Token.Written.mark hc).tokens h

theorem tokens_key {key : String} (hne : key ≠ "") (hword : key.toList.any endsBare = false)
    {ts : List Token} {between rest : List Char} (h : Tokens ts between rest) :
    Tokens (.bare key :: .mark '=' :: ts) (key.toList ++ '=' :: between) rest := by
  have hends : EndsBare ('=' :: between) := by
    intro c hc
    cases hc
    decide
  exact (Token.Written.bare hne (by simpa using hword) hends).tokens (tokens_mark (by decide) h)

theorem NameForm.ne_mark {n : String} {t : Token} (h : NameForm n t) (c : Char) : t ≠ .mark c := by
  cases h <;> simp

theorem ItemForm.ne_nil {n : String} {ts : List Token} (h : ItemForm n ts) : ts ≠ [] := by
  cases h <;> simp

end TagTree.TextForm

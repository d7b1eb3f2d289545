import Mathlib.Data.List.TakeWhile
import TagTree.Error
import TagTree.Proofs.Text.Grammar

/-!
# Reading tokens

What the scanners of the text form make of a text, told in the tokens of the
grammar. Offsets matter for errors only, so a scan is described by what it
leaves. A scanner that succeeds has taken the tokens it looks for, and where
these stand it succeeds and leaves what follows them. Blanks in front of a token
make no difference.

`Before` is the notion that makes blanks disappear: a scan stands before some
characters if these are what is left once blanks are skipped. Every scanner gets
two lemmas, one for what a success tells about the text and one for the success
where the text is known, both in terms of tokens in front of a rest.

A bare word needs more care than the other tokens, because it ends where the
rest begins. What follows it must not be able to go on with it, and this is part
of the statement that a token is written in front of a rest, so the scanners
need no look ahead of their own.
-/
namespace TagTree.TextForm

def Scan.Before (s : Scan) (cs : List Char) : Prop := s.trim.rest = cs

theorem skipBlanks_rest (offset : Nat) (cs : List Char) :
    (skipBlanks offset cs).rest = cs.dropWhile isBlank := by
  induction cs generalizing offset with
  | nil => rfl
  | cons c cs ih =>
      by_cases hc : isBlank c = true
      · rw [skipBlanks, if_pos hc, ih, List.dropWhile_cons_of_pos hc]
      · rw [skipBlanks, if_neg hc, List.dropWhile_cons_of_neg hc]

theorem before_iff {s : Scan} {cs : List Char} : s.Before cs ↔ s.rest.dropWhile isBlank = cs := by
  rw [Scan.Before, Scan.trim, skipBlanks_rest]

theorem Scan.Before.blanks {s : Scan} {cs : List Char} (h : s.Before cs) :
    ∃ blanks, Blank blanks ∧ s.rest = blanks ++ cs := by
  refine ⟨s.rest.takeWhile isBlank, fun c hc => List.mem_takeWhile_imp hc, ?_⟩
  rw [← before_iff.mp h, List.takeWhile_append_dropWhile]

theorem before_of_blanks {s : Scan} {blanks : List Char} (h : Blank blanks) {c : Char}
    {cs : List Char} (hc : isBlank c = false) (hs : s.rest = blanks ++ c :: cs) :
    s.Before (c :: cs) := by
  rw [before_iff, hs, List.dropWhile_append_of_pos h, List.dropWhile_cons_of_neg (by simp [hc])]

theorem before_end_iff {s : Scan} : s.Before [] ↔ Blank s.rest := by
  rw [before_iff, List.dropWhile_eq_nil_iff, Blank]

theorem tokens_of_before {s : Scan} {t : Token} {text rest : List Char} (h : s.Before text)
    (hw : t.Written text rest) : Tokens [t] s.rest rest := by
  obtain ⟨blanks, hblanks, hs⟩ := h.blanks
  rw [hs]
  exact .cons hblanks hw (.nil rest)

theorem before_of_tokens {s : Scan} {t : Token} {ts : List Token} {rest : List Char}
    (h : Tokens (t :: ts) s.rest rest) :
    ∃ text between, s.Before text ∧ t.Written text between ∧ Tokens ts between rest := by
  generalize hs : s.rest = whole at h
  cases h with
  | @cons _ _ blanks text between _ hblanks hw hrest =>
      obtain ⟨c, cs, htext, hc, _⟩ := hw.head
      rw [htext] at hs
      exact ⟨text, between, htext ▸ before_of_blanks hblanks hc hs, hw, hrest⟩

theorem before_of_eat? {s s' : Scan} {c : Char} (h : eat? c s = some s') :
    s.Before (c :: s'.rest) := by
  unfold eat? at h
  rw [Scan.Before]
  split at h
  · rename_i offset d rest htrim
    split at h
    · rename_i heq
      cases h
      rw [htrim, heq]
    · cases h
  · cases h

theorem eat?_of_before {s : Scan} {c : Char} {cs : List Char} (h : s.Before (c :: cs)) :
    ∃ s', eat? c s = some s' ∧ s'.rest = cs := by
  rw [Scan.Before] at h
  unfold eat?
  cases ht : s.trim with
  | mk offset rest =>
  rw [ht] at h
  dsimp only at h
  rw [h]
  exact ⟨_, if_pos rfl, rfl⟩

theorem eat?_of_other {s : Scan} {c d : Char} {cs : List Char} (h : s.Before (d :: cs))
    (hne : d ≠ c) : eat? c s = none := by
  rw [Scan.Before] at h
  unfold eat?
  cases ht : s.trim with
  | mk offset rest =>
  rw [ht] at h
  dsimp only at h
  rw [h]
  exact if_neg hne

theorem before_of_expect {s s' : Scan} {c : Char} (h : expect c s = .ok s') :
    s.Before (c :: s'.rest) := by
  unfold expect at h
  split at h
  · rename_i s₁ heat
    cases h
    exact before_of_eat? heat
  · cases h

section
variable {c : Char} (hc : c ∈ marks)
include hc

theorem tokens_of_eat? {s s' : Scan} (h : eat? c s = some s') :
    Tokens [.mark c] s.rest s'.rest :=
  tokens_of_before (before_of_eat? h) (.mark hc)

theorem tokens_of_expect {s s' : Scan} (h : expect c s = .ok s') :
    Tokens [.mark c] s.rest s'.rest :=
  tokens_of_before (before_of_expect h) (.mark hc)

theorem eat?_of_token {s : Scan} {t : Token} {ts : List Token} {rest : List Char}
    (h : Tokens (t :: ts) s.rest rest) (hne : t ≠ .mark c) : eat? c s = none := by
  obtain ⟨text, between, hbefore, hw, _⟩ := before_of_tokens h
  obtain ⟨d, cs, htext, _, hother⟩ := hw.head
  rw [htext] at hbefore
  exact eat?_of_other hbefore (hother c hc hne)

end

theorem eat?_of_mark {s : Scan} {c : Char} {ts : List Token} {rest : List Char}
    (h : Tokens (.mark c :: ts) s.rest rest) : ∃ s', eat? c s = some s' ∧ Tokens ts s'.rest rest := by
  obtain ⟨text, between, hbefore, hw, hts⟩ := before_of_tokens h
  cases hw with
  | mark _ =>
      obtain ⟨s', heat, hrest⟩ := eat?_of_before hbefore
      exact ⟨s', heat, hrest ▸ hts⟩

theorem expect_of_mark {s : Scan} {c : Char} {ts : List Token} {rest : List Char}
    (h : Tokens (.mark c :: ts) s.rest rest) :
    ∃ s', expect c s = .ok s' ∧ Tokens ts s'.rest rest := by
  obtain ⟨s', heat, hts⟩ := eat?_of_mark h
  exact ⟨s', by rw [expect, heat], hts⟩

theorem dropWord?_append (key cs : List Char) : dropWord? key (key ++ cs) = some cs := by
  induction key with
  | nil => rfl
  | cons k key ih => rw [List.cons_append, dropWord?, if_pos rfl, ih]

theorem eq_append_of_dropWord? {key cs rest : List Char} (h : dropWord? key cs = some rest) :
    cs = key ++ rest := by
  induction key generalizing cs with
  | nil => exact Option.some.inj h
  | cons k key ih =>
      cases cs with
      | nil => cases h
      | cons c cs =>
          rw [dropWord?] at h
          split at h
          · rename_i heq
            rw [heq, ih h, List.cons_append]
          · cases h

theorem before_of_expectKey {s s' : Scan} {key : String} (h : expectKey key s = .ok s') :
    s.Before (key.toList ++ s'.rest) := by
  unfold expectKey at h
  split at h
  · rename_i rest hword
    cases h
    exact eq_append_of_dropWord? hword
  · cases h

/-- Behind a key stands an equals sign, so the key is not part of a longer word. -/
theorem tokens_of_key {s s₁ s₂ : Scan} {key : String} (hne : key ≠ "")
    (hword : key.toList.any endsBare = false) (hkey : expectKey key s = .ok s₁)
    (hequals : expect '=' s₁ = .ok s₂) : Tokens [.bare key, .mark '='] s.rest s₂.rest := by
  have hends : EndsBare s₁.rest := by
    obtain ⟨blanks, hblanks, hrest⟩ := (before_of_expect hequals).blanks
    intro c hc
    rw [hrest] at hc
    cases blanks with
    | nil =>
        cases hc
        decide
    | cons b blanks =>
        cases hc
        exact endsBare_of_isBlank (hblanks c List.mem_cons_self)
  have hbare : ∀ c ∈ key.toList, endsBare c = false := by simpa using hword
  exact (tokens_of_before (before_of_expectKey hkey) (.bare hne hbare hends)).append
    (tokens_of_expect (by decide) hequals)

theorem expectKey_of_bare {s : Scan} {key : String} {ts : List Token} {rest : List Char}
    (h : Tokens (.bare key :: ts) s.rest rest) :
    ∃ s', expectKey key s = .ok s' ∧ Tokens ts s'.rest rest := by
  obtain ⟨text, between, hbefore, hw, hts⟩ := before_of_tokens h
  cases hw with
  | bare _ _ _ =>
      rw [Scan.Before] at hbefore
      rw [expectKey, hbefore, dropWord?_append]
      exact ⟨_, rfl, hts⟩

theorem expectEnd_eq_ok {s : Scan} : expectEnd s = .ok () ↔ Blank s.rest := by
  rw [← before_end_iff, Scan.Before, expectEnd, ← List.isEmpty_iff]
  split <;> simp_all

theorem spelling_of_quotedBody {offset : Nat} {cs value : List Char} {s : Scan}
    (h : quotedBody offset cs = some (value, s)) :
    ∃ text, Spelling value text ∧ cs = text ++ '"' :: s.rest := by
  fun_induction quotedBody offset cs generalizing value s with
  | case1 => cases h
  | case2 offset cs =>
      cases h
      exact ⟨[], .nil, rfl⟩
  | case3 offset => cases h
  | case4 offset d cs _ ih =>
      obtain ⟨⟨value', s'⟩, hbody, heq⟩ := Option.map_eq_some_iff.mp h
      cases heq
      obtain ⟨text, hspelling, hcs⟩ := ih hbody
      exact ⟨'\\' :: d :: text, .escaped hspelling, by rw [hcs]; rfl⟩
  | case5 offset c cs hquote hslash ih =>
      obtain ⟨⟨value', s'⟩, hbody, heq⟩ := Option.map_eq_some_iff.mp h
      cases heq
      obtain ⟨text, hspelling, hcs⟩ := ih hbody
      exact ⟨c :: text, .plain hquote hslash hspelling, by rw [hcs]; rfl⟩

theorem quotedBody_of_spelling {value text : List Char} (h : Spelling value text) (offset : Nat)
    (rest : List Char) :
    ∃ s, quotedBody offset (text ++ '"' :: rest) = some (value, s) ∧ s.rest = rest := by
  induction h generalizing offset with
  | nil =>
      refine ⟨⟨offset + '"'.utf8Size, rest⟩, ?_, rfl⟩
      rw [List.nil_append, quotedBody.eq_def]
      exact if_pos rfl
  | @plain c value text hquote hslash _ ih =>
      obtain ⟨s, hbody, hrest⟩ := ih (offset + c.utf8Size)
      refine ⟨s, ?_, hrest⟩
      rw [List.cons_append, quotedBody.eq_def]
      dsimp only
      rw [if_neg hquote, if_neg hslash, hbody]
      rfl
  | @escaped c value text _ ih =>
      obtain ⟨s, hbody, hrest⟩ := ih (offset + '\\'.utf8Size + c.utf8Size)
      refine ⟨s, ?_, hrest⟩
      rw [List.cons_append, List.cons_append, quotedBody.eq_def]
      dsimp only
      rw [if_neg (by decide), if_pos rfl, hbody]
      rfl

theorem bareBody_spec (offset : Nat) (cs : List Char) :
    cs = (bareBody offset cs).1 ++ (bareBody offset cs).2.rest ∧
      (∀ c ∈ (bareBody offset cs).1, endsBare c = false) ∧
      EndsBare (bareBody offset cs).2.rest := by
  induction cs generalizing offset with
  | nil => simp [bareBody, EndsBare]
  | cons c cs ih =>
      rw [bareBody]
      by_cases hc : endsBare c = true
      · rw [if_pos hc]
        simp [EndsBare, hc]
      · obtain ⟨happend, hword, hends⟩ := ih (offset + c.utf8Size)
        rw [if_neg hc]
        refine ⟨congrArg (c :: ·) happend, ?_, hends⟩
        exact List.forall_mem_cons.mpr ⟨Bool.eq_false_iff.mpr hc, hword⟩

theorem bareBody_append {value rest : List Char} (hword : ∀ c ∈ value, endsBare c = false)
    (hends : EndsBare rest) (offset : Nat) :
    ∃ s, bareBody offset (value ++ rest) = (value, s) ∧ s.rest = rest := by
  induction value generalizing offset with
  | nil =>
      cases rest with
      | nil => exact ⟨_, rfl, rfl⟩
      | cons c rest =>
          have hc := hends c rfl
          exact ⟨⟨offset, c :: rest⟩, by rw [List.nil_append, bareBody, if_pos hc], rfl⟩
  | cons c value ih =>
      obtain ⟨hc, hword⟩ := List.forall_mem_cons.mp hword
      obtain ⟨s, hbody, hrest⟩ := ih hword (offset + c.utf8Size)
      exact ⟨s, by rw [List.cons_append, bareBody, if_neg (by simp [hc]), hbody], hrest⟩

theorem tokens_of_name {s s' : Scan} {n : String} (h : name s = .ok (n, s')) :
    ∃ t, NameForm n t ∧ Tokens [t] s.rest s'.rest := by
  unfold name at h
  split at h
  · rename_i offset rest htrim
    have hbefore : s.Before ('"' :: rest) := by rw [Scan.Before, htrim]
    split at h
    · rename_i value s₁ hbody
      cases h
      obtain ⟨text, hspelling, hrest⟩ := spelling_of_quotedBody hbody
      have hw : (Token.quoted (String.ofList value)).Written ('"' :: rest) s'.rest := by
        rw [hrest]
        exact .quoted (by rwa [String.toList_ofList])
      exact ⟨_, .quoted _, tokens_of_before hbefore hw⟩
    · cases h
  · rename_i offset rest _ htrim
    have hbefore : s.Before rest := by rw [Scan.Before, htrim]
    obtain ⟨happend, hword, hends⟩ := bareBody_spec offset rest
    split at h
    · cases h
    · rename_i value s₁ hne hbody
      cases h
      rw [hbody] at happend hword hends
      have hvalue : String.ofList value ≠ "" := by
        intro heq
        have hnil := congrArg String.toList heq
        rw [String.toList_ofList] at hnil
        exact hne hnil
      have hw : (Token.bare (String.ofList value)).Written rest s'.rest := by
        have hbare : (Token.bare (String.ofList value)).Written
            ((String.ofList value).toList ++ s'.rest) s'.rest :=
          .bare hvalue (by rwa [String.toList_ofList]) hends
        rwa [String.toList_ofList, ← happend] at hbare
      exact ⟨_, .bare _, tokens_of_before hbefore hw⟩

theorem name_of_token {s : Scan} {n : String} {t : Token} {ts : List Token} {rest : List Char}
    (hform : NameForm n t) (h : Tokens (t :: ts) s.rest rest) :
    ∃ s', name s = .ok (n, s') ∧ Tokens ts s'.rest rest := by
  obtain ⟨text, between, hbefore, hw, hts⟩ := before_of_tokens h
  rw [Scan.Before] at hbefore
  unfold name
  cases htrim : s.trim with
  | mk offset whole =>
  rw [htrim] at hbefore
  dsimp only at hbefore
  subst hbefore
  cases hform with
  | quoted =>
      cases hw with
      | quoted hspelling =>
          obtain ⟨s', hbody, hrest⟩ := quotedBody_of_spelling hspelling (offset + 1) between
          simp only [hbody, String.ofList_toList]
          exact ⟨s', rfl, hrest ▸ hts⟩
  | bare =>
      cases hw with
      | bare hne hword hends =>
          obtain ⟨s', hbody, hrest⟩ := bareBody_append hword hends offset
          obtain ⟨c, cs, hcs⟩ := List.exists_cons_of_ne_nil (mt String.toList_eq_nil_iff.mp hne)
          split
          · -- A bare word does not begin with a quote.
            rename_i heq
            rw [hcs, List.cons_append, Scan.mk.injEq, List.cons.injEq] at heq
            have hquote := hword c (hcs ▸ List.mem_cons_self)
            rw [heq.2.1] at hquote
            cases hquote
          · rename_i heq
            cases heq
            rw [hbody, hcs]
            refine ⟨s', ?_, hrest ▸ hts⟩
            dsimp only
            rw [← hcs, String.ofList_toList]

end TagTree.TextForm

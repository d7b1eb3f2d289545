import TagTree.Proofs.Container.Union
import TagTree.Proofs.Query.Reading

/-!
# Compilation keeps the meaning

The bytes of an expression are read back as the expression, at any position and
whatever follows them, with any dictionary that begins with the one the compiler
made. The compiler refuses exactly the expressions that nest too deep, have too
wide a node or mention too many tags, so a query that is made holds of a
container exactly when its expression does.

`Yields` describes what bytes are read as, without saying where they stand, so
that the bytes of a node are put together from the bytes of its elements.
`Compiles` describes what a step of the compiler does, as an equivalence: it
succeeds exactly when its input fits, and then the dictionary and the bytes are
known. Two such steps make one, and a node is such a step when its elements are.

The dictionary grows on the way, and what was compiled with a smaller one is
read with the final one. That works since a dictionary only grows at its end.
Whether an expression fits is asked of the whole: its depth, its widest node and
the number of names it mentions, which is the length of the dictionary that it
leaves.
-/
namespace TagTree

namespace QueryStream
variable {α : Type}

/-- A reader that makes `a` out of `bytes`, at any position and whatever follows. -/
def Yields (read : Cursor → Outcome (α × Cursor)) (bytes : List UInt8) (a : α) : Prop :=
  ∀ p rest, read ⟨p, bytes ++ rest⟩ = .ok (a, ⟨p + bytes.length, rest⟩)

theorem readEach_nil (one : Cursor → Outcome (α × Cursor)) : Yields (readEach one 0) [] [] :=
  fun _ _ => rfl

theorem Yields.cons {one : Cursor → Outcome (α × Cursor)} {bytes later : List UInt8} {a : α}
    {as : List α} (ha : Yields one bytes a) (has : Yields (readEach one as.length) later as) :
    Yields (readEach one (a :: as).length) (bytes ++ later) (a :: as) := by
  intro p rest
  rw [List.length_cons, readEach, List.append_assoc, ha p (later ++ rest), ok_bind]
  simp only [has (p + bytes.length) rest, ok_bind, List.length_append, Nat.add_assoc]

theorem next_cons (p : Nat) (b : UInt8) (rest : List UInt8) :
    next ⟨p, b :: rest⟩ = .ok (b, ⟨p + 1, rest⟩) := rfl

theorem readTag_yields {dict : List Tag} {b : UInt8} {t : Tag} (h : dict[b.toNat]? = some t) :
    Yields (readTag dict) [b] t := by
  intro p rest
  simp only [readTag, List.singleton_append, next_cons, ok_bind, h, List.length_singleton]

theorem toNat_ofNat_count {n : Nat} (h : n ≤ maxCount) : (UInt8.ofNat n).toNat = n := by
  rw [UInt8.toNat_ofNat']
  exact Nat.mod_eq_of_lt (Nat.lt_of_le_of_lt h (by decide))

/-- A step of the compiler: it succeeds exactly when its input fits, and then it leaves the dictionary
`dict` and bytes that are `good`. -/
structure Compiles (x : Except QueryError (List UInt8 × List Tag)) (fits : Prop) (dict : List Tag)
    (good : List UInt8 → Prop) : Prop where
  ok : fits → ∃ bytes, x = .ok (bytes, dict) ∧ good bytes
  error : ¬fits → ∃ cause, x = .error cause

theorem Compiles.append {x : Except QueryError (List UInt8 × List Tag)}
    {y : List Tag → Except QueryError (List UInt8 × List Tag)} {fits fits₁ fits₂ : Prop}
    {dict₁ dict₂ : List Tag} {good good₁ good₂ : List UInt8 → Prop}
    (hx : Compiles x fits₁ dict₁ good₁) (hy : fits₁ → Compiles (y dict₁) fits₂ dict₂ good₂)
    (hfits : fits ↔ fits₁ ∧ fits₂)
    (hgood : ∀ bytes later, good₁ bytes → good₂ later → good (bytes ++ later)) :
    Compiles (x >>= fun r => y r.2 >>= fun l => .ok (r.1 ++ l.1, l.2)) fits dict₂ good where
  ok h := by
    obtain ⟨bytes, hb, hg⟩ := hx.ok (hfits.mp h).1
    obtain ⟨later, hl, hgl⟩ := (hy (hfits.mp h).1).ok (hfits.mp h).2
    exact ⟨bytes ++ later, by simp only [hb, hl, ok_bind], hgood bytes later hg hgl⟩
  error h := by
    by_cases h₁ : fits₁
    · obtain ⟨bytes, hb, _⟩ := hx.ok h₁
      obtain ⟨cause, hc⟩ := (hy h₁).error fun h₂ => h (hfits.mpr ⟨h₁, h₂⟩)
      exact ⟨cause, by simp only [hb, hc, ok_bind, error_bind]⟩
    · obtain ⟨cause, hc⟩ := hx.error h₁
      exact ⟨cause, by simp only [hc, error_bind]⟩

theorem place_compiles {dict : List Tag} (hd : dict.length ≤ maxCount) (t : Tag) :
    Compiles ((place dict t).map fun r => ([r.1], r.2)) ((addUnique dict t).length ≤ maxCount)
      (addUnique dict t) fun bytes => ∃ b, bytes = [b] ∧ (addUnique dict t)[b.toNat]? = some t := by
  cases hi : dict.idxOf? t with
  | some i =>
      obtain ⟨hlt, hget, _⟩ := List.idxOf?_eq_some_iff.mp hi
      have hm : t ∈ dict := hget ▸ List.getElem_mem hlt
      rw [addUnique_of_mem hm]
      refine ⟨fun _ => ⟨[UInt8.ofNat i], by simp only [place, hi, Except.map], _, rfl, ?_⟩,
        fun h => absurd hd h⟩
      rw [toNat_ofNat_count (by omega), List.getElem?_eq_getElem hlt, hget]
  | none =>
      have hm : t ∉ dict := List.idxOf?_eq_none_iff.mp hi
      rw [addUnique_of_not_mem hm, List.length_append, List.length_singleton]
      constructor
      · intro hlt
        refine ⟨[UInt8.ofNat dict.length], ?_, _, rfl, ?_⟩
        · simp only [place, hi, if_neg (Nat.not_le_of_lt hlt), Except.map]
        · rw [toNat_ofNat_count hd, List.getElem?_append_right (Nat.le_refl _), Nat.sub_self]
          rfl
      · intro hge
        exact ⟨.tooManyTags (dict.length + 1), by
          simp only [place, hi, if_pos (Nat.not_lt.mp hge), Except.map]⟩

theorem placeEach_cons (dict : List Tag) (t : Tag) (ts : List Tag) :
    placeEach dict (t :: ts) = ((place dict t).map fun r => ([r.1], r.2)) >>= fun r =>
      placeEach r.2 ts >>= fun l => .ok (r.1 ++ l.1, l.2) := by
  rw [placeEach]
  cases place dict t <;> rfl

theorem le_of_union_le {dict ts : List Tag} {n : Nat} (h : (ts.foldl addUnique dict).length ≤ n) :
    dict.length ≤ n :=
  Nat.le_trans (prefix_foldl_addUnique ts dict).length_le h

theorem placeEach_compiles {dict : List Tag} (hd : dict.length ≤ maxCount) (ts : List Tag) :
    Compiles (placeEach dict ts) ((ts.foldl addUnique dict).length ≤ maxCount)
      (ts.foldl addUnique dict) fun bytes =>
        ∀ full, ts.foldl addUnique dict <+: full → Yields (readEach (readTag full) ts.length) bytes ts := by
  induction ts generalizing dict with
  | nil => exact ⟨fun _ => ⟨[], rfl, fun full _ => readEach_nil _⟩, fun h => absurd hd h⟩
  | cons t ts ih =>
      rw [placeEach_cons, List.foldl_cons]
      refine Compiles.append (y := fun d => placeEach d ts) (place_compiles hd t) (fun h => ih h)
        ⟨fun h => ⟨le_of_union_le h, h⟩, And.right⟩ ?_
      rintro _ later ⟨b, rfl, hget⟩ hlater full hfull
      obtain ⟨tail, rfl⟩ := (prefix_foldl_addUnique ts (addUnique dict t)).trans hfull
      have hread : (addUnique dict t ++ tail)[b.toNat]? = some t := by
        rw [List.getElem?_append_left (List.getElem?_eq_some_iff.mp hget).choose, hget]
      exact (readTag_yields hread).cons (hlater _ hfull)

/-- A node is compiled when its depth and its number of elements are allowed and its elements are. -/
theorem Compiles.node {x : Except QueryError (List UInt8 × List Tag)} {fits fits₁ : Prop}
    {dict : List Tag} {good good₁ : List UInt8 → Prop} {depth count : Nat} (type : NodeType)
    (hx : depth ≤ maxDepth → Compiles x fits₁ dict good₁)
    (hfits : fits ↔ depth ≤ maxDepth ∧ count ≤ maxCount ∧ fits₁)
    (hgood : depth ≤ maxDepth → count ≤ maxCount → ∀ bytes, good₁ bytes →
      good ([type.code, UInt8.ofNat count] ++ bytes)) :
    Compiles (if maxDepth < depth then .error (.tooDeep depth)
      else nodeHead type count >>= fun head => x >>= fun r => .ok (head ++ r.1, r.2))
      fits dict good where
  ok h := by
    obtain ⟨hd, hc, hf⟩ := hfits.mp h
    obtain ⟨bytes, hb, hg⟩ := (hx hd).ok hf
    refine ⟨[type.code, UInt8.ofNat count] ++ bytes, ?_, hgood hd hc bytes hg⟩
    rw [if_neg (Nat.not_lt.mpr hd), nodeHead, if_neg (Nat.not_lt.mpr hc)]
    simp only [hb, ok_bind]
  error h := by
    by_cases hd : depth ≤ maxDepth
    · rw [if_neg (Nat.not_lt.mpr hd), nodeHead]
      by_cases hc : count ≤ maxCount
      · obtain ⟨cause, he⟩ := (hx hd).error fun hf => h (hfits.mpr ⟨hd, hc, hf⟩)
        exact ⟨cause, by simp only [if_neg (Nat.not_lt.mpr hc), he, ok_bind, error_bind]⟩
      · exact ⟨.tooManyElements count, by simp only [if_pos (Nat.not_le.mp hc), error_bind]⟩
    · exact ⟨.tooDeep depth, if_pos (Nat.not_le.mp hd)⟩

theorem readType_tags (q : Quantifier) (p : Nat) (rest : List UInt8) :
    readType ⟨p, (NodeType.tags q).code :: rest⟩ = .ok ((false, q), ⟨p + 1, rest⟩) := by
  cases q <;> rfl

theorem readType_exprs (q : Quantifier) (p : Nat) (rest : List UInt8) :
    readType ⟨p, (NodeType.exprs q).code :: rest⟩ = .ok ((true, q), ⟨p + 1, rest⟩) := by
  cases q <;> rfl

/-- A node of tags is read back from its head and the bytes of its tags. -/
theorem decodeExpr_tags {full ts : List Tag} {bytes : List UInt8} (q : Quantifier) (levels : Nat)
    (hw : ts.length ≤ maxCount) (h : Yields (readEach (readTag full) ts.length) bytes ts) :
    Yields (decodeExpr full (levels + 1))
      ([(NodeType.tags q).code, UInt8.ofNat ts.length] ++ bytes) (.tags q ts) := by
  intro p rest
  simp only [List.cons_append, List.nil_append, decodeExpr, readType_tags, ok_bind, next_cons,
    toNat_ofNat_count hw, Bool.false_eq_true, if_false, h (p + 1 + 1) rest, List.length_cons]
  congr 3
  omega

theorem decodeExpr_exprs {full : List Tag} {subs : List QueryExpr} {bytes : List UInt8}
    (q : Quantifier) (levels : Nat) (hw : subs.length ≤ maxCount)
    (h : Yields (readEach (decodeExpr full levels) subs.length) bytes subs) :
    Yields (decodeExpr full (levels + 1))
      ([(NodeType.exprs q).code, UInt8.ofNat subs.length] ++ bytes) (.exprs q subs) := by
  intro p rest
  simp only [List.cons_append, List.nil_append, decodeExpr, readType_exprs, ok_bind, next_cons,
    toNat_ofNat_count hw, if_true, h (p + 1 + 1) rest, List.length_cons]
  congr 3
  omega

/-- An expression at `depth` that can be compiled on top of a dictionary. -/
def Fits (depth : Nat) (dict : List Tag) (e : QueryExpr) : Prop :=
  depth + e.depth ≤ maxDepth + 1 ∧ e.width ≤ maxCount ∧
    (e.mentioned.foldl addUnique dict).length ≤ maxCount

/-- The compiler makes bytes that every larger dictionary reads back, whenever the expression fits. -/
def CompilesAt (depth : Nat) (dict : List Tag) (e : QueryExpr) : Prop :=
  Compiles (compileExpr depth dict e) (Fits depth dict e) (e.mentioned.foldl addUnique dict)
    fun bytes => ∀ full levels, e.mentioned.foldl addUnique dict <+: full →
      levels + depth = maxDepth + 1 → Yields (decodeExpr full levels) bytes e

theorem compileExpr_tags {depth : Nat} {dict : List Tag} (hd : dict.length ≤ maxCount)
    (q : Quantifier) (ts : List Tag) : CompilesAt depth dict (.tags q ts) := by
  unfold CompilesAt
  rw [compileExpr]
  refine Compiles.node (.tags q) (fun _ => placeEach_compiles hd ts) ?_ ?_
  · simp only [Fits, QueryExpr.depth, QueryExpr.width, QueryExpr.mentioned, Nat.add_le_add_iff_right]
  · intro hdepth hw bytes hg full levels hfull hlevels
    obtain ⟨levels, rfl⟩ : ∃ l, levels = l + 1 := ⟨levels - 1, by omega⟩
    exact decodeExpr_tags q levels hw (hg full hfull)

/-- Children at `depth` one after the other, each on the dictionary that the earlier ones leave. -/
theorem compileEach_compiles {depth : Nat} (hdepth : depth ≤ maxDepth + 1) {dict : List Tag}
    (hd : dict.length ≤ maxCount) {subs : List QueryExpr}
    (h : ∀ e ∈ subs, ∀ dict : List Tag, dict.length ≤ maxCount → CompilesAt depth dict e) :
    Compiles (compileEach depth dict subs)
      (depth + QueryExpr.depthEach subs ≤ maxDepth + 1 ∧ QueryExpr.widthEach subs ≤ maxCount ∧
        ((QueryExpr.mentionedEach subs).foldl addUnique dict).length ≤ maxCount)
      ((QueryExpr.mentionedEach subs).foldl addUnique dict)
      fun bytes => ∀ full levels, (QueryExpr.mentionedEach subs).foldl addUnique dict <+: full →
        levels + depth = maxDepth + 1 →
        Yields (readEach (decodeExpr full levels) subs.length) bytes subs := by
  induction subs generalizing dict with
  | nil =>
      refine ⟨fun _ => ⟨[], rfl, fun full levels _ _ => readEach_nil _⟩, fun hf => absurd ?_ hf⟩
      exact ⟨hdepth, Nat.zero_le _, hd⟩
  | cons e subs ih =>
      rw [compileEach, QueryExpr.mentionedEach, List.foldl_append]
      have he := h e List.mem_cons_self dict hd
      refine Compiles.append (y := fun d => compileEach depth d subs) he
        (fun hf => ih hf.2.2 fun x hx => h x (List.mem_cons_of_mem e hx)) ?_ ?_
      · simp only [Fits, QueryExpr.depthEach, QueryExpr.widthEach, max_le_iff]
        constructor
        · rintro ⟨h₁, ⟨h₂, h₃⟩, h₄⟩
          exact ⟨⟨by omega, h₂, le_of_union_le h₄⟩, by omega, h₃, h₄⟩
        · rintro ⟨⟨h₁, h₂, _⟩, h₁', h₃, h₄⟩
          exact ⟨by omega, ⟨h₂, h₃⟩, h₄⟩
      · intro bytes later hbytes hlater full levels hfull hlevels
        have hpre := (prefix_foldl_addUnique _ _).trans hfull
        exact (hbytes full levels hpre hlevels).cons (hlater full levels hfull hlevels)

theorem compileExpr_compiles (e : QueryExpr) :
    ∀ (depth : Nat) (dict : List Tag), dict.length ≤ maxCount → CompilesAt depth dict e := by
  induction e using QueryExpr.induct with
  | tags q ts => exact fun depth dict hd => compileExpr_tags hd q ts
  | exprs q subs ih =>
      intro depth dict hd
      unfold CompilesAt
      rw [compileExpr]
      refine Compiles.node (.exprs q) (fun hdepth => compileEach_compiles (by omega) hd
        fun e he => ih e he (depth + 1)) ?_ ?_
      · simp only [Fits, QueryExpr.depth, QueryExpr.width, QueryExpr.mentioned, max_le_iff]
        constructor
        · rintro ⟨h₁, ⟨h₂, h₃⟩, h₄⟩
          exact ⟨by omega, h₂, by omega, h₃, h₄⟩
        · rintro ⟨_, h₂, h₁, h₃, h₄⟩
          exact ⟨by omega, ⟨h₂, h₃⟩, h₄⟩
      · intro hdepth hw bytes hg full levels hfull hlevels
        obtain ⟨levels, rfl⟩ : ∃ l, levels = l + 1 := ⟨levels - 1, by omega⟩
        exact decodeExpr_exprs q levels hw (hg full levels hfull (by omega))

theorem fits_iff (e : QueryExpr) :
    Fits 1 [] e ↔ e.depth ≤ 64 ∧ e.width ≤ 255 ∧ e.nameCount ≤ 255 := by
  have hinj : Function.Injective Tag.name := fun ⟨_⟩ ⟨_⟩ h => congrArg Tag.mk h
  have hn : e.nameCount = (e.mentioned.foldl addUnique []).length := by
    rw [QueryExpr.nameCount, Finset.card_image_of_injective _ hinj, length_foldl_addUnique_nil]
  rw [Fits, hn, Nat.add_comm]
  exact and_congr_left fun _ => Nat.add_le_add_iff_right

theorem compile_compiles (e : QueryExpr) :
    Compiles (compile e) (Fits 1 [] e) (e.mentioned.foldl addUnique []) fun stream =>
      decode (e.mentioned.foldl addUnique []) stream = .ok (some e) := by
  have h := compileExpr_compiles e 1 [] (Nat.zero_le _)
  constructor
  · intro hf
    obtain ⟨bytes, hb, hg⟩ := h.ok hf
    refine ⟨version :: 1 :: bytes, by simp only [compile, hb, ok_bind], ?_⟩
    have hd := hg _ maxDepth (List.prefix_refl _) rfl 2 []
    rw [List.append_nil] at hd
    have hh : readHeader (start (version :: 1 :: bytes)) = .ok (true, ⟨2, bytes⟩) := rfl
    simp only [decode, hh, ok_bind, if_true, hd, finish, List.isEmpty_nil]
  · intro hf
    obtain ⟨cause, hc⟩ := h.error hf
    exact ⟨cause, by simp only [compile, hc, error_bind]⟩

end QueryStream

namespace Query
open QueryStream

theorem build_eq (e : QueryExpr) (description : String) :
    build e description = compile e >>= fun r => .ok ⟨r.2, r.1, description, e.display⟩ := by
  rw [build]

theorem build_ok_iff (e : QueryExpr) (description : String) :
    (∃ q, build e description = .ok q) ↔ Fits 1 [] e := by
  constructor
  · rintro ⟨q, hq⟩
    by_contra hf
    obtain ⟨cause, hc⟩ := (compile_compiles e).error hf
    rw [build_eq, hc, error_bind] at hq
    cases hq
  · intro hf
    obtain ⟨stream, hs, _⟩ := (compile_compiles e).ok hf
    exact ⟨_, by rw [build_eq, hs, ok_bind]⟩

theorem expr?_of_build {e : QueryExpr} {description : String} {q : Query}
    (h : build e description = .ok q) : q.expr? = pure (some e) := by
  obtain ⟨stream, hs, hd⟩ := (compile_compiles e).ok ((build_ok_iff e description).mp ⟨q, h⟩)
  rw [build_eq, hs, ok_bind] at h
  cases h
  have hne : stream ≠ [] := by
    rintro rfl
    cases hd
  rw [expr?, if_neg (by simpa [isEmpty] using hne), hd, reading_ok]

/-- An expression is compiled exactly when it nests at most 64 nodes, no node has more than 255
elements and it mentions at most 255 names. A query that was compiled holds of exactly the containers
that the expression holds of, and reports nothing. In it a node that is skipped ends where it ends when
it is asked, so deciding a node early changes neither its answer nor that of a later one. -/
theorem build_holds (e : QueryExpr) (description : String) :
    ((∃ q, build e description = .ok q) ↔
      e.depth ≤ 64 ∧ e.width ≤ 255 ∧ e.nameCount ≤ 255) ∧
    ∀ q, build e description = .ok q → ∀ c : Container,
      (q.holds c).value = e.holds c ∧ (q.holds c).events = [] ∧
      ∀ levels s, (evalExpr q.dictionary c levels true s).map Prod.snd =
        (evalExpr q.dictionary c levels false s).map Prod.snd := by
  refine ⟨(build_ok_iff e description).trans (fits_iff e), fun q hq c => ⟨?_, ?_, ?_⟩⟩
  · rw [(holds_eq q c).1, expr?_of_build hq]
    rfl
  · rw [(holds_eq q c).2, expr?_of_build hq]
    rfl
  · intro levels s
    have hf := evalExpr_follows q.dictionary c levels
    cases hd : decodeExpr q.dictionary levels s with
    | error f => rw [(hf true s).1 f hd, (hf false s).1 f hd]
    | ok r =>
        obtain ⟨b, hb, _⟩ := (hf true s).2 r.1 r.2 hd
        obtain ⟨b', hb', _⟩ := (hf false s).2 r.1 r.2 hd
        rw [hb, hb']
        rfl

end Query
end TagTree

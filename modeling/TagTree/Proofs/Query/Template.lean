import TagTree.Proofs.Query.Reading

/-!
# Templates

The bytes of a compiled expression name tags by their positions in a dictionary.
A template is an expression in which these positions are left where they stand:
it is what the bytes say on their own, up to the number of tags there are.
Decoding bytes with a dictionary is reading their template and filling it, so an
exchange of the dictionary changes the tags of the expression and nothing else.

`readTemplate` is the decoder with positions kept as they are. It needs of the
dictionary no more than its length, to tell whether a position is one of it, so
templates of two dictionaries of one length are the same. `Images` relates the
two readers as `Follows` relates the evaluator to the decoder: same cursor, same
fault, and the value of the one is the image of the value of the other.

All positions in a template that was read are positions of the dictionary, and
filling is a function of the template and the dictionary. Everything that is
said about exchanging tags comes from these two facts.
-/
namespace TagTree

/-- An expression with positions of a dictionary in place of tags. -/
inductive Template where
  | tags (q : Quantifier) (indices : List UInt8)
  | exprs (q : Quantifier) (subs : List Template)
deriving Repr, Inhabited

namespace Template

def tagAt (dict : List Tag) (b : UInt8) : Tag := dict.getD b.toNat .invalid

mutual

/-- The expression with the tags of a dictionary at their positions. -/
def fill (dict : List Tag) : Template → QueryExpr
  | tags q bs => .tags q (bs.map (tagAt dict))
  | exprs q subs => .exprs q (fillEach dict subs)

def fillEach (dict : List Tag) : List Template → List QueryExpr
  | [] => []
  | e :: rest => fill dict e :: fillEach dict rest

end

mutual

def indices : Template → List UInt8
  | tags _ bs => bs
  | exprs _ subs => indicesEach subs

def indicesEach : List Template → List UInt8
  | [] => []
  | e :: rest => indices e ++ indicesEach rest

end

theorem fillEach_eq_map (dict : List Tag) (es : List Template) :
    fillEach dict es = es.map (fill dict) := by
  induction es with
  | nil => rfl
  | cons e es ih => rw [fillEach, ih, List.map_cons]

theorem indicesEach_eq_flatMap (es : List Template) : indicesEach es = es.flatMap indices := by
  induction es with
  | nil => rfl
  | cons e es ih => rw [indicesEach, ih, List.flatMap_cons]

end Template

namespace QueryStream
variable {α β : Type}

def readIndex (size : Nat) (s : Cursor) : Outcome (UInt8 × Cursor) := do
  let (b, s) ← next s
  if b.toNat < size then .ok (b, s) else fail .tagOutOfRange s

/-- Read the template of the node at the cursor, for a dictionary of `size` tags. -/
def readTemplate (size : Nat) : Nat → Cursor → Outcome (Template × Cursor)
  | 0, s => fail .tooDeep s
  | levels + 1, s => do
    let ((onExprs, q), s) ← readType s
    let (count, s) ← next s
    if onExprs then do
      let (subs, s) ← readEach (readTemplate size levels) count.toNat s
      .ok (.exprs q subs, s)
    else do
      let (bs, s) ← readEach (readIndex size) count.toNat s
      .ok (.tags q bs, s)

def template (size : Nat) (stream : List UInt8) : Outcome (Option Template) := do
  let (root, s) ← readHeader (start stream)
  if root then do
    let (e, s) ← readTemplate size maxDepth s
    finish (some e) s
  else .ok none

/-- The second reader reads as the first does and gives the image of its value. -/
def Images (f : α → β) (x : Cursor → Outcome (α × Cursor)) (y : Cursor → Outcome (β × Cursor)) :
    Prop :=
  ∀ s, y s = (x s).map fun r => (f r.1, r.2)

theorem Images.error {f : α → β} {x : Cursor → Outcome (α × Cursor)}
    {y : Cursor → Outcome (β × Cursor)} (h : Images f x y) {s : Cursor} {fault : Fault}
    (hx : x s = .error fault) : y s = .error fault := by
  rw [h, hx]
  rfl

theorem Images.ok {f : α → β} {x : Cursor → Outcome (α × Cursor)}
    {y : Cursor → Outcome (β × Cursor)} (h : Images f x y) {s s' : Cursor} {a : α}
    (hx : x s = .ok (a, s')) : y s = .ok (f a, s') := by
  rw [h, hx]
  rfl

theorem readTag_images (dict : List Tag) :
    Images (Template.tagAt dict) (readIndex dict.length) (readTag dict) := by
  intro s
  unfold readTag readIndex
  cases next s with
  | error fault => rfl
  | ok r =>
      obtain ⟨b, s'⟩ := r
      simp only [ok_bind]
      by_cases hlt : b.toNat < dict.length
      · have htag : Template.tagAt dict b = dict[b.toNat] := by
          rw [Template.tagAt, List.getD_eq_getElem?_getD, List.getElem?_eq_getElem hlt,
            Option.getD_some]
        rw [if_pos hlt, List.getElem?_eq_getElem hlt, ← htag]
        rfl
      · rw [if_neg hlt, List.getElem?_eq_none (Nat.le_of_not_lt hlt)]
        rfl

theorem Images.readEach {f : α → β} {x : Cursor → Outcome (α × Cursor)}
    {y : Cursor → Outcome (β × Cursor)} (h : Images f x y) (n : Nat) :
    Images (List.map f) (readEach x n) (readEach y n) := by
  induction n with
  | zero => exact fun _ => rfl
  | succ n ih =>
      intro s
      rw [QueryStream.readEach, QueryStream.readEach]
      cases hx : x s with
      | error fault => rw [h.error hx]; rfl
      | ok r =>
          obtain ⟨a, s₁⟩ := r
          rw [h.ok hx, ok_bind, ok_bind]
          cases hlater : QueryStream.readEach x n s₁ with
          | error fault => simp only [hlater, ih.error hlater, error_bind]; rfl
          | ok r => simp only [hlater, ih.ok hlater, ok_bind]; rfl

theorem decodeExpr_images (dict : List Tag) (levels : Nat) :
    Images (Template.fill dict) (readTemplate dict.length levels) (decodeExpr dict levels) := by
  induction levels with
  | zero => exact fun _ => rfl
  | succ levels ih =>
      intro s
      rw [decodeExpr, readTemplate]
      cases readType s with
      | error fault => rfl
      | ok r =>
          obtain ⟨⟨onExprs, q⟩, s₁⟩ := r
          simp only [ok_bind]
          cases next s₁ with
          | error fault => rfl
          | ok r =>
              obtain ⟨count, s₂⟩ := r
              simp only [ok_bind]
              cases onExprs with
              | false =>
                  have helements := (readTag_images dict).readEach count.toNat s₂
                  simp only [Bool.false_eq_true, if_false, helements]
                  cases readEach (readIndex dict.length) count.toNat s₂ <;> rfl
              | true =>
                  have helements := ih.readEach count.toNat s₂
                  simp only [if_true, helements]
                  cases readEach (readTemplate dict.length levels) count.toNat s₂ with
                  | error fault => rfl
                  | ok r =>
                      have hsubs := (Template.fillEach_eq_map dict r.1).symm
                      exact congrArg (fun subs => Except.ok (QueryExpr.exprs q subs, r.2)) hsubs

/-- Decoding is reading the template and filling it. -/
theorem decode_eq_fill (dict : List Tag) (stream : List UInt8) :
    decode dict stream = (template dict.length stream).map (Option.map (Template.fill dict)) := by
  unfold decode template
  cases readHeader (start stream) with
  | error fault => rfl
  | ok r =>
      obtain ⟨root, s⟩ := r
      cases root with
      | false => rfl
      | true =>
          simp only [ok_bind, if_true]
          cases hread : readTemplate dict.length maxDepth s with
          | error fault => rw [(decodeExpr_images dict maxDepth).error hread]; rfl
          | ok r =>
              rw [(decodeExpr_images dict maxDepth).ok hread]
              simp only [ok_bind, finish]
              split <;> rfl

theorem lt_of_readIndex {size : Nat} {s s' : Cursor} {b : UInt8}
    (h : readIndex size s = .ok (b, s')) : b.toNat < size := by
  obtain ⟨⟨b', s₁⟩, _, h⟩ := bind_eq_ok.mp h
  dsimp only at h
  split at h
  · cases h
    assumption
  · cases h

theorem indices_lt_of_readTemplate {size levels : Nat} {s s' : Cursor} {e : Template}
    (h : readTemplate size levels s = .ok (e, s')) : ∀ b ∈ e.indices, b.toNat < size := by
  induction levels generalizing s s' e with
  | zero => cases h
  | succ levels ih =>
      obtain ⟨⟨⟨onExprs, q⟩, s₁⟩, _, h⟩ := bind_eq_ok.mp h
      obtain ⟨⟨count, s₂⟩, _, h⟩ := bind_eq_ok.mp h
      cases onExprs with
      | false =>
          obtain ⟨⟨bs, s₃⟩, hr, h⟩ := bind_eq_ok.mp h
          cases h
          exact forall_of_readEach lt_of_readIndex hr
      | true =>
          obtain ⟨⟨subs, s₃⟩, hr, h⟩ := bind_eq_ok.mp h
          cases h
          intro b hb
          rw [Template.indices, Template.indicesEach_eq_flatMap] at hb
          obtain ⟨e, he, hb⟩ := List.mem_flatMap.mp hb
          exact forall_of_readEach ih hr e he b hb

theorem indices_lt_of_template {size : Nat} {stream : List UInt8} {e : Template}
    (h : template size stream = .ok (some e)) : ∀ b ∈ e.indices, b.toNat < size := by
  obtain ⟨⟨root, s⟩, _, h⟩ := bind_eq_ok.mp h
  cases root with
  | false => cases h
  | true =>
      obtain ⟨⟨e', s'⟩, hread, h⟩ := bind_eq_ok.mp h
      dsimp only [finish] at h
      split at h
      · cases h
        exact indices_lt_of_readTemplate hread
      · cases h

end QueryStream
end TagTree

import TagTree.Error
import TagTree.Proofs.Query.Shape
import TagTree.Query.Basic

/-!
# The evaluator follows the decoder

Two readers walk the bytes of a compiled expression. The evaluator answers for
one container and may decide a node before its end; the decoder makes the
expression back. Here the evaluator is shown to stop where the decoder stops,
with the same fault if there is one, and to answer with the meaning of the
expression that the decoder makes. Nothing is assumed of the bytes or of the
dictionary.

The two readers are compared by `Follows`, a relation between an evaluator and a
reader that says: they stop at the same cursor or at the same fault, and where
the reader has made a value the answer is what this value means, unless it was
not asked for. Elements in a row, nodes and whole expressions are each shown to
be related, along the recursion on levels that both readers share.

Deciding early is in the elements of a node. Once an answer settles it, the rest
is read with the mark that nothing is asked, and since such a reading stops
where the other stops, the end of a node does not depend on when it was decided.
A fault is described by what is at its position, so a report is never about
something that the stream does not have.
-/
namespace TagTree

namespace Quantifier
variable {α : Type}

theorem test_nil (q : Quantifier) (p : α → Bool) : q.test p [] = QueryStream.unsettled q := by
  cases q <;> rfl

theorem test_cons (q : Quantifier) (p : α → Bool) (a : α) (as : List α) :
    q.test p (a :: as) = (QueryStream.settled? q (p a)).getD (q.test p as) := by
  cases q <;> cases h : p a <;> simp [test, QueryStream.settled?, h]

theorem test_id_map (q : Quantifier) (p : α → Bool) (as : List α) :
    q.test id (as.map p) = q.test p as := by
  cases q <;> simp [test]

end Quantifier

theorem QueryExpr.holdEach_eq_map (c : Container) (es : List QueryExpr) :
    holdEach c es = es.map (holds c) := by
  induction es with
  | nil => rfl
  | cons e es ih => rw [holdEach, ih, List.map_cons]

theorem QueryExpr.holds_exprs (c : Container) (q : Quantifier) (subs : List QueryExpr) :
    holds c (.exprs q subs) = q.test (holds c) subs := by
  rw [holds, holdEach_eq_map, Quantifier.test_id_map]

namespace QueryStream
variable {α β : Type}

/-- A cursor that stands in a stream: what is left is the stream from its position on. -/
structure Cursor.In (stream : List UInt8) (s : Cursor) : Prop where
  rest_eq : s.rest = stream.drop s.position
  position_le : s.position ≤ stream.length

/-- A fault that names a defect of the stream or the dictionary, seen at the fault's position. A byte
is asked for beyond the end only when the cursor is at the end, and is then not read; a tag is asked
for beyond the dictionary only when a byte of the stream says so. -/
inductive Fault.At (dict : List Tag) (stream : List UInt8) : Fault → Prop
  | unexpectedEnd : Fault.At dict stream ⟨.unexpectedEnd, stream.length⟩
  | unknownVersion {b : UInt8} : stream[0]? = some b → b ≠ version →
      Fault.At dict stream ⟨.unknownVersion, 1⟩
  | undefinedType {p : Nat} {b : UInt8} : stream[p]? = some b →
      (∀ q, NodeType.ofCode? b ≠ some (.tags q) ∧ NodeType.ofCode? b ≠ some (.exprs q)) →
      Fault.At dict stream ⟨.undefinedType, p + 1⟩
  | tagOutOfRange {p : Nat} {b : UInt8} : stream[p]? = some b → dict.length ≤ b.toNat →
      Fault.At dict stream ⟨.tagOutOfRange, p + 1⟩
  | tooDeep {p : Nat} : p ≤ stream.length → Fault.At dict stream ⟨.tooDeep, p⟩
  | trailingBytes {p : Nat} : p < stream.length → Fault.At dict stream ⟨.trailingBytes, p⟩

theorem Fault.At.position_le {dict : List Tag} {stream : List UInt8} {f : Fault}
    (h : f.At dict stream) : f.position ≤ stream.length := by
  cases h with
  | unexpectedEnd => exact Nat.le_refl _
  | unknownVersion hb _ => exact (List.getElem?_eq_some_iff.mp hb).choose
  | undefinedType hb _ => exact (List.getElem?_eq_some_iff.mp hb).choose
  | tagOutOfRange hb _ => exact (List.getElem?_eq_some_iff.mp hb).choose
  | tooDeep hp => exact hp
  | trailingBytes hp => exact Nat.le_of_lt hp

/-- A reader that leaves a cursor in the stream, or reports a defect that is there. -/
def StaysIn (dict : List Tag) (stream : List UInt8) (read : Cursor → Outcome (α × Cursor)) : Prop :=
  ∀ s, s.In stream →
    (∀ a s', read s = .ok (a, s') → s'.In stream ∧ s.position ≤ s'.position) ∧
    ∀ f, read s = .error f → f.At dict stream

theorem start_in (stream : List UInt8) : (start stream).In stream :=
  ⟨rfl, Nat.zero_le _⟩

/-- A read answers with the byte at the cursor's position, if the stream has one there. -/
theorem next_eq {stream : List UInt8} {s : Cursor} (h : s.In stream) :
    next s = match stream[s.position]? with
      | some b => .ok (b, ⟨s.position + 1, stream.drop (s.position + 1)⟩)
      | none => .error ⟨.unexpectedEnd, stream.length⟩ := by
  have hr := h.rest_eq
  rcases Nat.lt_or_ge s.position stream.length with hlt | hge
  · rw [List.getElem?_eq_getElem hlt]
    rw [List.drop_eq_getElem_cons hlt] at hr
    simp only [next, hr]
  · have hp : s.position = stream.length := Nat.le_antisymm h.position_le hge
    rw [hp, List.drop_length] at hr
    rw [hp, List.getElem?_eq_none (Nat.le_refl _)]
    simp only [next, hr, fail, hp]

theorem next_ok {stream : List UInt8} {s s' : Cursor} {b : UInt8} (h : s.In stream)
    (hs : next s = .ok (b, s')) :
    stream[s.position]? = some b ∧ s'.position = s.position + 1 ∧ s'.In stream := by
  rw [next_eq h] at hs
  cases hb : stream[s.position]? with
  | none => simp [hb] at hs
  | some x =>
      simp only [hb, Except.ok.injEq, Prod.mk.injEq] at hs
      obtain ⟨rfl, rfl⟩ := hs
      exact ⟨rfl, rfl, rfl, (List.getElem?_eq_some_iff.mp hb).choose⟩

theorem next_error {dict : List Tag} {stream : List UInt8} {s : Cursor} {f : Fault}
    (h : s.In stream) (hs : next s = .error f) : f.At dict stream := by
  rw [next_eq h] at hs
  cases hb : stream[s.position]? with
  | none =>
      simp only [hb, Except.error.injEq] at hs
      exact hs ▸ .unexpectedEnd
  | some x => simp [hb] at hs

theorem StaysIn.done {dict : List Tag} {stream : List UInt8} (a : α) :
    StaysIn dict stream fun s => .ok (a, s) := by
  intro s hs
  refine ⟨?_, nofun⟩
  rintro _ _ ⟨⟩
  exact ⟨hs, Nat.le_refl _⟩

theorem StaysIn.bind {dict : List Tag} {stream : List UInt8} {x : Cursor → Outcome (α × Cursor)}
    {f : α → Cursor → Outcome (β × Cursor)} (hx : StaysIn dict stream x)
    (hf : ∀ a, StaysIn dict stream (f a)) :
    StaysIn dict stream fun s => x s >>= fun r => f r.1 r.2 := by
  intro s hs
  constructor
  · intro b s' h
    obtain ⟨⟨a, s₁⟩, h₁, h₂⟩ := bind_eq_ok.mp h
    obtain ⟨hin₁, hle₁⟩ := (hx s hs).1 a s₁ h₁
    obtain ⟨hin₂, hle₂⟩ := (hf a s₁ hin₁).1 b s' h₂
    exact ⟨hin₂, Nat.le_trans hle₁ hle₂⟩
  · intro g h
    rcases bind_eq_error.mp h with h₁ | ⟨⟨a, s₁⟩, h₁, h₂⟩
    · exact (hx s hs).2 g h₁
    · exact (hf a s₁ ((hx s hs).1 a s₁ h₁).1).2 g h₂

theorem next_staysIn (dict : List Tag) (stream : List UInt8) : StaysIn dict stream next := by
  intro s hs
  refine ⟨fun b s' h => ?_, fun f h => next_error hs h⟩
  obtain ⟨_, hp, hin⟩ := next_ok hs h
  exact ⟨hin, by omega⟩

theorem readTag_staysIn (dict : List Tag) (stream : List UInt8) :
    StaysIn dict stream (readTag dict) := by
  intro s hs
  constructor
  · intro t s' h
    obtain ⟨⟨b, s₁⟩, hn, h⟩ := bind_eq_ok.mp h
    obtain ⟨_, hp, hin⟩ := next_ok hs hn
    cases hd : dict[b.toNat]? with
    | none => simp [hd, fail] at h
    | some u =>
        simp only [hd, Except.ok.injEq, Prod.mk.injEq] at h
        obtain ⟨rfl, rfl⟩ := h
        exact ⟨hin, by omega⟩
  · intro f h
    rcases bind_eq_error.mp h with hn | ⟨⟨b, s₁⟩, hn, h⟩
    · exact next_error hs hn
    · obtain ⟨hb, hp, _⟩ := next_ok hs hn
      cases hd : dict[b.toNat]? with
      | none =>
          simp only [hd, fail, Except.error.injEq] at h
          rw [← h, hp]
          exact .tagOutOfRange hb (List.getElem?_eq_none_iff.mp hd)
      | some u => simp [hd] at h

theorem readType_staysIn (dict : List Tag) (stream : List UInt8) :
    StaysIn dict stream readType := by
  intro s hs
  constructor
  · intro t s' h
    obtain ⟨⟨b, s₁⟩, hn, h⟩ := bind_eq_ok.mp h
    obtain ⟨_, hp, hin⟩ := next_ok hs hn
    have he : s' = s₁ := by
      simp only at h
      split at h <;> simp_all [fail]
    subst he
    exact ⟨hin, by omega⟩
  · intro f h
    rcases bind_eq_error.mp h with hn | ⟨⟨b, s₁⟩, hn, h⟩
    · exact next_error hs hn
    · obtain ⟨hb, hp, _⟩ := next_ok hs hn
      simp only at h
      split at h
      · simp at h
      · simp at h
      · rename_i htags hexprs
        simp only [fail, Except.error.injEq] at h
        rw [← h, hp]
        exact .undefinedType hb fun q => ⟨htags q, hexprs q⟩

theorem readEach_staysIn {dict : List Tag} {stream : List UInt8}
    {one : Cursor → Outcome (α × Cursor)} (h : StaysIn dict stream one) (n : Nat) :
    StaysIn dict stream (readEach one n) := by
  induction n with
  | zero => exact .done []
  | succ n ih => exact h.bind fun a => ih.bind fun later => .done (a :: later)

theorem decodeExpr_staysIn (dict : List Tag) (stream : List UInt8) (levels : Nat) :
    StaysIn dict stream (decodeExpr dict levels) := by
  induction levels with
  | zero =>
      intro s hs
      refine ⟨nofun, ?_⟩
      rintro f ⟨⟩
      exact .tooDeep hs.position_le
  | succ levels ih =>
      have elements : ∀ (q : Quantifier) (count : UInt8) (onExprs : Bool),
          StaysIn dict stream fun s =>
            if onExprs then readEach (decodeExpr dict levels) count.toNat s >>= fun r =>
              Except.ok (QueryExpr.exprs q r.1, r.2)
            else readEach (readTag dict) count.toNat s >>= fun r =>
              Except.ok (QueryExpr.tags q r.1, r.2) := by
        intro q count onExprs
        cases onExprs with
        | false =>
            exact (readEach_staysIn (readTag_staysIn dict stream) _).bind
              fun ts => .done (QueryExpr.tags q ts)
        | true => exact (readEach_staysIn ih _).bind fun subs => .done (QueryExpr.exprs q subs)
      exact (readType_staysIn dict stream).bind
        fun t => (next_staysIn dict stream).bind fun count => elements t.2 count t.1

/-- An evaluator that stops where a reader stops. Where the reader makes a value, the answer is what
the value means, unless the evaluator was told to skip. -/
def Follows (eval : Bool → Cursor → Outcome (Bool × Cursor)) (read : Cursor → Outcome (α × Cursor))
    (meaning : α → Bool) : Prop :=
  ∀ skip s,
    (∀ f, read s = .error f → eval skip s = .error f) ∧
    ∀ a s', read s = .ok (a, s') →
      ∃ b, eval skip s = .ok (b, s') ∧ (skip = false → b = meaning a)

theorem evalTag_follows (dict : List Tag) (c : Container) :
    Follows (evalTag dict c) (readTag dict) c.has := by
  intro skip s
  constructor
  · intro f h
    rw [evalTag, h, error_bind]
  · intro t s' h
    refine ⟨!skip && c.has t, ?_, ?_⟩
    · rw [evalTag, h, ok_bind]
    · rintro rfl
      simp

theorem evalElements_succ (element : Bool → Cursor → Outcome (Bool × Cursor)) (q : Quantifier)
    (n : Nat) (skip answer : Bool) (s : Cursor) :
    evalElements element q (n + 1) skip answer s = element skip s >>= fun r =>
      if skip then evalElements element q n true answer r.2
      else (settled? q r.1).elim (evalElements element q n false answer r.2)
        (evalElements element q n true · r.2) := by
  rw [evalElements]
  congr 1
  funext ⟨found, s⟩
  cases h : settled? q found <;> simp only [h, Option.elim]

/-- Once the answer is settled the elements that are left are read and not asked; before that the
answer is the one that no element settles. Either way the reader ends where the elements end. -/
theorem evalElements_follows {element : Bool → Cursor → Outcome (Bool × Cursor)}
    {one : Cursor → Outcome (α × Cursor)} {meaning : α → Bool} (h : Follows element one meaning)
    (q : Quantifier) (n : Nat) (skip answer : Bool) (ha : skip = false → answer = unsettled q)
    (s : Cursor) :
    (∀ f, readEach one n s = .error f → evalElements element q n skip answer s = .error f) ∧
    ∀ as s', readEach one n s = .ok (as, s') →
      evalElements element q n skip answer s =
        .ok (if skip then answer else q.test meaning as, s') := by
  induction n generalizing skip answer s with
  | zero =>
      refine ⟨nofun, ?_⟩
      rintro as s' ⟨⟩
      cases skip with
      | true => rfl
      | false => rw [Quantifier.test_nil, evalElements, ha rfl]; rfl
  | succ n ih =>
      -- What follows the first element, once it is read.
      have rest : ∀ a s₁ found, (skip = false → found = meaning a) →
          let later := if skip then evalElements element q n true answer s₁
            else (settled? q found).elim (evalElements element q n false answer s₁)
              (evalElements element q n true · s₁)
          (∀ f, readEach one n s₁ = .error f → later = .error f) ∧
          ∀ as s', readEach one n s₁ = .ok (as, s') →
            later = .ok (if skip then answer else q.test meaning (a :: as), s') := by
        intro a s₁ found hf
        cases skip with
        | true => simpa using ih true answer (by simp) s₁
        | false =>
            rw [hf rfl]
            simp only [Bool.false_eq_true, if_false, Quantifier.test_cons]
            cases hq : settled? q (meaning a) with
            | some b => simpa using ih true b (by simp) s₁
            | none => simpa using ih false answer ha s₁
      rw [evalElements_succ]
      constructor
      · intro f hr
        rcases bind_eq_error.mp hr with h₁ | ⟨⟨a, s₁⟩, h₁, hr⟩
        · rw [(h skip s).1 f h₁, error_bind]
        · obtain ⟨found, he, hfound⟩ := (h skip s).2 a s₁ h₁
          rcases bind_eq_error.mp hr with h₂ | ⟨_, _, hr⟩
          · rw [he, ok_bind]
            exact (rest a s₁ found hfound).1 f h₂
          · simp at hr
      · intro as s' hr
        obtain ⟨⟨a, s₁⟩, h₁, hr⟩ := bind_eq_ok.mp hr
        obtain ⟨⟨later, s₂⟩, h₂, hr⟩ := bind_eq_ok.mp hr
        obtain ⟨found, he, hfound⟩ := (h skip s).2 a s₁ h₁
        simp only [Except.ok.injEq, Prod.mk.injEq] at hr
        obtain ⟨rfl, rfl⟩ := hr
        rw [he, ok_bind]
        exact (rest a s₁ found hfound).2 later s₂ h₂

/-- The elements of a node, read for an answer and read to make the node. -/
theorem Follows.node {element : Bool → Cursor → Outcome (Bool × Cursor)}
    {one : Cursor → Outcome (α × Cursor)} {answer : α → Bool} {meaning : β → Bool}
    (h : Follows element one answer) (q : Quantifier) (n : Nat) (make : List α → β)
    (hm : ∀ as, meaning (make as) = q.test answer as) :
    Follows (fun skip s => evalElements element q n skip (unsettled q) s)
      (fun s => readEach one n s >>= fun r => .ok (make r.1, r.2)) meaning := by
  intro skip s
  have he := evalElements_follows h q n skip (unsettled q) (fun _ => rfl) s
  constructor
  · intro f hr
    rcases bind_eq_error.mp hr with hr | ⟨_, _, hr⟩
    · exact he.1 f hr
    · simp at hr
  · intro b s' hr
    obtain ⟨⟨as, s₁⟩, h₁, hr⟩ := bind_eq_ok.mp hr
    simp only [Except.ok.injEq, Prod.mk.injEq] at hr
    obtain ⟨rfl, rfl⟩ := hr
    refine ⟨_, he.2 as s₁ h₁, ?_⟩
    rintro rfl
    rw [hm]
    rfl

theorem Follows.after {γ : Type} {eval : γ → Bool → Cursor → Outcome (Bool × Cursor)}
    {read : γ → Cursor → Outcome (α × Cursor)} {meaning : α → Bool}
    (x : Cursor → Outcome (γ × Cursor)) (h : ∀ g, Follows (eval g) (read g) meaning) :
    Follows (fun skip s => x s >>= fun r => eval r.1 skip r.2)
      (fun s => x s >>= fun r => read r.1 r.2) meaning := by
  intro skip s
  cases hx : x s with
  | error g =>
      simp only [hx, error_bind]
      refine ⟨?_, nofun⟩
      rintro f ⟨⟩
      rfl
  | ok r =>
      simp only [hx, ok_bind]
      exact h r.1 skip r.2

theorem evalExpr_follows (dict : List Tag) (c : Container) (levels : Nat) :
    Follows (evalExpr dict c levels) (decodeExpr dict levels) (QueryExpr.holds c) := by
  induction levels with
  | zero =>
      intro skip s
      refine ⟨?_, nofun⟩
      rintro f ⟨⟩
      rfl
  | succ levels ih =>
      have elements : ∀ (q : Quantifier) (count : UInt8) (onExprs : Bool),
          Follows
            (fun skip s =>
              if onExprs then
                evalElements (evalExpr dict c levels) q count.toNat skip (unsettled q) s
              else evalElements (evalTag dict c) q count.toNat skip (unsettled q) s)
            (fun s =>
              if onExprs then readEach (decodeExpr dict levels) count.toNat s >>= fun r =>
                Except.ok (QueryExpr.exprs q r.1, r.2)
              else readEach (readTag dict) count.toNat s >>= fun r =>
                Except.ok (QueryExpr.tags q r.1, r.2))
            (QueryExpr.holds c) := by
        intro q count onExprs
        cases onExprs with
        | false =>
            exact (evalTag_follows dict c).node q _ (QueryExpr.tags q)
              fun ts => by rw [QueryExpr.holds]
        | true =>
            exact ih.node q _ (QueryExpr.exprs q) fun subs => QueryExpr.holds_exprs c q subs
      exact .after readType fun t => .after next fun count => elements t.2 count t.1

theorem Follows.staysIn {dict : List Tag} {stream : List UInt8}
    {eval : Bool → Cursor → Outcome (Bool × Cursor)} {read : Cursor → Outcome (α × Cursor)}
    {meaning : α → Bool} (h : Follows eval read meaning) (hr : StaysIn dict stream read)
    (skip : Bool) : StaysIn dict stream (eval skip) := by
  intro s hs
  cases hread : read s with
  | error g =>
      have he := (h skip s).1 g hread
      refine ⟨by simp [he], fun f hf => ?_⟩
      rw [he] at hf
      cases hf
      exact (hr s hs).2 g hread
  | ok r =>
      obtain ⟨b, he, _⟩ := (h skip s).2 r.1 r.2 hread
      refine ⟨fun b' s' hb => ?_, by simp [he]⟩
      rw [he] at hb
      cases hb
      exact (hr s hs).1 r.1 r.2 hread

theorem forall_of_readEach {one : Cursor → Outcome (α × Cursor)} {P : α → Prop}
    (hone : ∀ {s s' : Cursor} {a : α}, one s = .ok (a, s') → P a) {n : Nat} {s s' : Cursor}
    {as : List α} (h : readEach one n s = .ok (as, s')) : ∀ a ∈ as, P a := by
  induction n generalizing s as with
  | zero =>
      cases h
      exact List.forall_mem_nil P
  | succ n ih =>
      obtain ⟨⟨a, s₁⟩, h₁, h⟩ := bind_eq_ok.mp h
      obtain ⟨⟨later, s₂⟩, h₂, h⟩ := bind_eq_ok.mp h
      cases h
      exact List.forall_mem_cons.mpr ⟨hone h₁, ih h₂⟩

theorem mem_of_readTag {dict : List Tag} {s s' : Cursor} {t : Tag}
    (h : readTag dict s = .ok (t, s')) : t ∈ dict := by
  obtain ⟨⟨b, s₁⟩, _, h⟩ := bind_eq_ok.mp h
  dsimp only at h
  cases hd : dict[b.toNat]? with
  | none =>
      rw [hd] at h
      cases h
  | some u =>
      rw [hd] at h
      cases h
      exact List.mem_of_getElem? hd

theorem mentioned_of_decodeExpr {dict : List Tag} {levels : Nat} {s s' : Cursor} {e : QueryExpr}
    (h : decodeExpr dict levels s = .ok (e, s')) : ∀ t ∈ e.mentioned, t ∈ dict := by
  induction levels generalizing s s' e with
  | zero => cases h
  | succ levels ih =>
      obtain ⟨⟨⟨onExprs, q⟩, s₁⟩, _, h⟩ := bind_eq_ok.mp h
      obtain ⟨⟨count, s₂⟩, _, h⟩ := bind_eq_ok.mp h
      cases onExprs with
      | false =>
          obtain ⟨⟨ts, s₃⟩, hr, h⟩ := bind_eq_ok.mp h
          cases h
          exact forall_of_readEach mem_of_readTag hr
      | true =>
          obtain ⟨⟨subs, s₃⟩, hr, h⟩ := bind_eq_ok.mp h
          cases h
          intro t ht
          rw [QueryExpr.mentioned, QueryExpr.mentionedEach_eq_flatMap] at ht
          obtain ⟨e, he, ht⟩ := List.mem_flatMap.mp ht
          exact forall_of_readEach ih hr e he t ht

/-- The evaluation of a stream is its decoding, with the expression taken for its meaning. -/
theorem evaluate_eq_map_decode (dict : List Tag) (stream : List UInt8) (c : Container) :
    evaluate dict stream c = (decode dict stream).map fun e => e.elim false (QueryExpr.holds c) := by
  unfold evaluate decode
  cases readHeader (start stream) with
  | error f => rfl
  | ok r =>
      obtain ⟨root, s⟩ := r
      cases root with
      | false => rfl
      | true =>
          simp only [ok_bind, if_true]
          cases hd : decodeExpr dict maxDepth s with
          | error f =>
              rw [(evalExpr_follows dict c maxDepth false s).1 f hd]
              rfl
          | ok d =>
              obtain ⟨b, he, hb⟩ := (evalExpr_follows dict c maxDepth false s).2 d.1 d.2 hd
              rw [he, hb rfl]
              simp only [ok_bind, finish]
              split <;> rfl

theorem readHeader_start (dict : List Tag) (stream : List UInt8) :
    (∀ root s, readHeader (start stream) = .ok (root, s) → s.In stream) ∧
    ∀ f, readHeader (start stream) = .error f → f.At dict stream := by
  constructor
  · intro root s h
    obtain ⟨⟨v, s₁⟩, hv, h⟩ := bind_eq_ok.mp h
    obtain ⟨_, _, hin⟩ := next_ok (start_in stream) hv
    simp only at h
    split at h
    · simp [fail] at h
    · obtain ⟨⟨b, s₂⟩, hb, h⟩ := bind_eq_ok.mp h
      cases h
      exact (next_ok hin hb).2.2
  · intro f h
    rcases bind_eq_error.mp h with hv | ⟨⟨v, s₁⟩, hv, h⟩
    · exact next_error (start_in stream) hv
    · obtain ⟨hb, hp, hin⟩ := next_ok (start_in stream) hv
      simp only at h
      split at h
      · rename_i hne
        simp only [fail, Except.error.injEq] at h
        rw [← h, hp]
        exact .unknownVersion hb (by simpa using hne)
      · rcases bind_eq_error.mp h with hn | ⟨_, _, h⟩
        · exact next_error hin hn
        · cases h

theorem finish_error {dict : List Tag} {stream : List UInt8} {s : Cursor} {a : α} {f : Fault}
    (hs : s.In stream) (h : finish a s = .error f) : f.At dict stream := by
  unfold finish at h
  split at h
  · cases h
  · rename_i hne
    simp only [fail, Except.error.injEq] at h
    subst h
    apply Fault.At.trailingBytes
    rw [hs.rest_eq] at hne
    by_contra hge
    exact hne (by simp [List.drop_eq_nil_of_le (Nat.le_of_not_lt hge)])

theorem decode_error {dict : List Tag} {stream : List UInt8} {f : Fault}
    (h : decode dict stream = .error f) : f.At dict stream := by
  rcases bind_eq_error.mp h with h | ⟨⟨root, s⟩, hh, h⟩
  · exact (readHeader_start dict stream).2 f h
  · have hs := (readHeader_start dict stream).1 root s hh
    cases root with
    | false => cases h
    | true =>
        rcases bind_eq_error.mp h with h | ⟨⟨e, s₁⟩, hd, h⟩
        · exact (decodeExpr_staysIn dict stream maxDepth s hs).2 f h
        · exact finish_error ((decodeExpr_staysIn dict stream maxDepth s hs).1 e s₁ hd).1 h

theorem decode_some {dict : List Tag} {stream : List UInt8} {e : QueryExpr}
    (h : decode dict stream = .ok (some e)) : ∀ t ∈ e.mentioned, t ∈ dict := by
  obtain ⟨⟨root, s⟩, _, h⟩ := bind_eq_ok.mp h
  cases root with
  | false => cases h
  | true =>
      obtain ⟨⟨e', s₁⟩, hd, h⟩ := bind_eq_ok.mp h
      simp only [finish] at h
      split at h
      · cases h
        exact mentioned_of_decodeExpr hd
      · cases h

end QueryStream

namespace Query
open QueryStream
variable {α : Type}

@[simp] theorem reading_ok (q : Query) (a b : α) : q.reading a (.ok b) = pure b := rfl

@[simp] theorem value_reading_error (q : Query) (a : α) (f : Fault) :
    (q.reading a (.error f)).value = a := rfl

/-- What a query answers and reports, read off its expression. -/
theorem holds_eq (q : Query) (c : Container) :
    (q.holds c).value = q.expr?.value.elim false (QueryExpr.holds c) ∧
      (q.holds c).events = q.expr?.events := by
  unfold holds expr?
  split
  · exact ⟨rfl, rfl⟩
  · rw [evaluate_eq_map_decode]
    cases decode q.dictionary q.stream with
    | error f => exact ⟨rfl, rfl⟩
    | ok e => exact ⟨rfl, rfl⟩

/-- Evaluating a stream and decoding it agree, whatever its bytes are and whatever the dictionary. A
query without an expression holds of nothing; one with an expression holds of what the expression
holds of. Both report nothing, or both report one and the same defect, which the stream has. Neither
reads beyond the stream or the dictionary: from a cursor in the stream both come to a cursor in it, and
the tags of the expression are tags of the dictionary. -/
theorem holds_ofStream (dict : List Tag) (stream : List UInt8) (c : Container) :
    let q := (ofStream dict stream).value
    (q.expr?.value = none → (q.holds c).value = false) ∧
    (∀ e, q.expr?.value = some e → (q.holds c).value = e.holds c) ∧
    (q.holds c).events = q.expr?.events ∧
    (q.expr?.events = [] ∨ ∃ f : Fault, f.At dict stream ∧ f.position ≤ stream.length ∧
      q.expr?.value = none ∧
      q.expr?.events = [.queryMalformed f.cause.message f.position stream.length]) ∧
    (∀ e, q.expr?.value = some e → ∀ t ∈ e.mentioned, t ∈ dict) ∧
    ∀ levels, StaysIn dict stream (decodeExpr dict levels) ∧
      ∀ skip, StaysIn dict stream (evalExpr dict c levels skip) := by
  intro q
  obtain ⟨hv, he⟩ := holds_eq q c
  refine ⟨fun h => ?_, fun e h => ?_, he, ?_, fun e h => ?_, fun levels => ⟨?_, fun skip => ?_⟩⟩
  · rw [hv, h]
    rfl
  · rw [hv, h]
    rfl
  · unfold expr?
    split
    · exact .inl rfl
    · cases hd : decode q.dictionary q.stream with
      | ok e => exact .inl rfl
      | error f =>
          have hf : f.At dict stream := decode_error hd
          exact .inr ⟨f, hf, hf.position_le, rfl, rfl⟩
  · unfold expr? at h
    split at h
    · cases h
    · cases hd : decode q.dictionary q.stream with
      | error f => simp [hd] at h
      | ok o =>
          simp only [hd, reading_ok, Logged.value_pure] at h
          exact decode_some (hd.trans (congrArg _ h))
  · exact decodeExpr_staysIn dict stream levels
  · exact (evalExpr_follows dict c levels).staysIn (decodeExpr_staysIn dict stream levels) skip

end Query
end TagTree

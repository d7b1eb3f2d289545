import TagTree.Proofs.Container.Rebuilt
import TagTree.Proofs.Query.Compiling
import TagTree.Proofs.Query.Template

/-!
# Decoding undoes compilation

What the compiler writes is known in closed form: the template of the expression
over the final dictionary, node by node. Positions are given out while the
dictionary still grows, but it grows at its end, so each stays the position of
its tag. The decoder reads the expression back from these bytes and stops behind
the last, and a query is made again from its dictionary and its stream.

The closed form is proved for one node after the other, with the dictionary
before and after it. Positions are looked up in the final dictionary, where
every tag that was placed has kept its position; so the template can be taken
over the final dictionary from the start. Children are compiled one after the
other, each on the dictionary that the earlier ones leave.

That decoding restores the expression is then filling its template with the tags
that it was made from. The dictionary has no tag twice and no tag that the
expression does not mention, in the order of first mention.
-/
namespace TagTree

namespace Template

mutual

/-- A node is its type, the number of its elements and the elements. -/
def bytes : Template → List UInt8
  | tags q bs => (NodeType.tags q).code :: UInt8.ofNat bs.length :: bs
  | exprs q subs => (NodeType.exprs q).code :: UInt8.ofNat subs.length :: bytesEach subs

def bytesEach : List Template → List UInt8
  | [] => []
  | e :: rest => bytes e ++ bytesEach rest

end

end Template

namespace QueryExpr

def indexIn (dict : List Tag) (t : Tag) : UInt8 := UInt8.ofNat (dict.idxOf t)

mutual

/-- The expression with the positions of its tags in a dictionary. -/
def template (dict : List Tag) : QueryExpr → Template
  | tags q ts => .tags q (ts.map (indexIn dict))
  | exprs q subs => .exprs q (templateEach dict subs)

def templateEach (dict : List Tag) : List QueryExpr → List Template
  | [] => []
  | e :: rest => template dict e :: templateEach dict rest

end

theorem templateEach_eq_map (dict : List Tag) (es : List QueryExpr) :
    templateEach dict es = es.map (template dict) := by
  induction es with
  | nil => rfl
  | cons e es ih => rw [templateEach, ih, List.map_cons]

section
variable {dict : List Tag} (hdict : dict.length ≤ QueryStream.maxCount)
include hdict

theorem toNat_indexIn {t : Tag} (ht : t ∈ dict) : (indexIn dict t).toNat = dict.idxOf t := by
  have hlt := List.idxOf_lt_length_of_mem ht
  exact QueryStream.toNat_ofNat_count (by omega)

theorem tagAt_indexIn {t : Tag} (ht : t ∈ dict) : Template.tagAt dict (indexIn dict t) = t := by
  have hlt := List.idxOf_lt_length_of_mem ht
  rw [Template.tagAt, toNat_indexIn hdict ht, List.getD_eq_getElem?_getD,
    List.getElem?_eq_getElem hlt, Option.getD_some, List.getElem_idxOf hlt]

/-- A dictionary that has the tags of an expression gives them back. -/
theorem fill_template (e : QueryExpr) (h : ∀ t ∈ e.mentioned, t ∈ dict) :
    (e.template dict).fill dict = e := by
  induction e using QueryExpr.induct with
  | tags q ts =>
      have hfill : ts.map (Template.tagAt dict ∘ indexIn dict) = ts :=
        (List.map_congr_left fun t ht => tagAt_indexIn hdict (h t ht)).trans (List.map_id ts)
      rw [template, Template.fill, List.map_map, hfill]
  | exprs q subs ih =>
      rw [mentioned, mentionedEach_eq_flatMap] at h
      have hsubs : subs.map (Template.fill dict ∘ template dict) = subs := by
        refine (List.map_congr_left fun e he => ?_).trans (List.map_id subs)
        exact ih e he fun t ht => h t (List.mem_flatMap.mpr ⟨e, he, ht⟩)
      rw [template, Template.fill, templateEach_eq_map, Template.fillEach_eq_map, List.map_map, hsubs]

end

theorem indices_template (dict : List Tag) (e : QueryExpr) :
    (e.template dict).indices = e.mentioned.map (indexIn dict) := by
  induction e using QueryExpr.induct with
  | tags q ts => rfl
  | exprs q subs ih =>
      rw [template, Template.indices, mentioned, templateEach_eq_map, Template.indicesEach_eq_flatMap,
        mentionedEach_eq_flatMap, List.flatMap_map, List.map_flatMap]
      exact List.flatMap_congr ih

end QueryExpr

namespace QueryStream
open QueryExpr (indexIn)

theorem place_eq {dict dict' : List Tag} {t : Tag} {b : UInt8} (h : place dict t = .ok (b, dict')) :
    dict' = addUnique dict t ∧ ∀ full, dict' <+: full → b = indexIn full t := by
  unfold place at h
  cases hi : dict.idxOf? t with
  | some i =>
      rw [hi] at h
      cases h
      obtain ⟨hlt, hget, _⟩ := List.idxOf?_eq_some_iff.mp hi
      have hmem : t ∈ dict := hget ▸ List.getElem_mem hlt
      refine ⟨(addUnique_of_mem hmem).symm, ?_⟩
      rintro _ ⟨later, rfl⟩
      have hidx : dict.idxOf t = i := by
        rw [List.idxOf_eq_getD_idxOf?, hi, Option.getD_some]
      rw [indexIn, List.idxOf_append_of_mem hmem, hidx]
  | none =>
      rw [hi] at h
      have hnew : t ∉ dict := List.idxOf?_eq_none_iff.mp hi
      dsimp only at h
      split at h
      · cases h
      · cases h
        refine ⟨(addUnique_of_not_mem hnew).symm, ?_⟩
        rintro _ ⟨later, rfl⟩
        have hmem : t ∈ dict ++ [t] := List.mem_append_right _ (List.mem_singleton_self t)
        rw [indexIn, List.idxOf_append_of_mem hmem, List.idxOf_append_of_notMem hnew,
          List.idxOf_cons_self, Nat.add_zero]

theorem placeEach_eq {dict dict' ts : List Tag} {bytes : List UInt8}
    (h : placeEach dict ts = .ok (bytes, dict')) :
    dict' = ts.foldl addUnique dict ∧ ∀ full, dict' <+: full → bytes = ts.map (indexIn full) := by
  induction ts generalizing dict bytes with
  | nil =>
      cases h
      exact ⟨rfl, fun _ _ => rfl⟩
  | cons t ts ih =>
      obtain ⟨⟨b, dict₁⟩, hfirst, h⟩ := bind_eq_ok.mp h
      obtain ⟨⟨later, dict₂⟩, hlater, h⟩ := bind_eq_ok.mp h
      cases h
      obtain ⟨rfl, hb⟩ := place_eq hfirst
      obtain ⟨hdict, hbytes⟩ := ih hlater
      refine ⟨hdict, fun full hfull => ?_⟩
      have hgrown : addUnique dict t <+: dict' := hdict ▸ prefix_foldl_addUnique ts _
      rw [hb full (hgrown.trans hfull), hbytes full hfull, List.map_cons]

theorem nodeHead_eq {type : NodeType} {count : Nat} {head : List UInt8}
    (h : nodeHead type count = .ok head) : head = [type.code, UInt8.ofNat count] := by
  unfold nodeHead at h
  split at h
  · cases h
  · cases h
    rfl

/-- The compiler writes the bytes of the template over the dictionary after it, or over any one that
goes on from there. -/
def WritesTemplate (e : QueryExpr) : Prop :=
  ∀ (depth : Nat) (dict dict' : List Tag) (bytes : List UInt8),
    compileExpr depth dict e = .ok (bytes, dict') →
    dict' = e.mentioned.foldl addUnique dict ∧
      ∀ full, dict' <+: full → bytes = (e.template full).bytes

theorem compileEach_eq {subs : List QueryExpr} (hsubs : ∀ e ∈ subs, WritesTemplate e) {depth : Nat}
    {dict dict' : List Tag} {bytes : List UInt8}
    (h : compileEach depth dict subs = .ok (bytes, dict')) :
    dict' = (QueryExpr.mentionedEach subs).foldl addUnique dict ∧ ∀ full, dict' <+: full →
      bytes = Template.bytesEach (QueryExpr.templateEach full subs) := by
  induction subs generalizing dict bytes with
  | nil =>
      cases h
      exact ⟨rfl, fun _ _ => rfl⟩
  | cons e subs ih =>
      rw [compileEach] at h
      obtain ⟨⟨first, dict₁⟩, hfirst, h⟩ := bind_eq_ok.mp h
      obtain ⟨⟨later, dict₂⟩, hlater, h⟩ := bind_eq_ok.mp h
      cases h
      obtain ⟨rfl, hbytes⟩ := hsubs e List.mem_cons_self _ _ _ _ hfirst
      obtain ⟨hdict, hrest⟩ := ih (fun x hx => hsubs x (List.mem_cons_of_mem e hx)) hlater
      refine ⟨by rw [hdict, QueryExpr.mentionedEach, List.foldl_append], fun full hfull => ?_⟩
      have hgrown := (hdict ▸ prefix_foldl_addUnique _ _ : _ <+: dict').trans hfull
      rw [hbytes full hgrown, hrest full hfull, QueryExpr.templateEach, Template.bytesEach]

theorem compileExpr_eq (e : QueryExpr) : WritesTemplate e := by
  induction e using QueryExpr.induct with
  | tags q ts =>
      intro depth dict dict' bytes h
      rw [compileExpr] at h
      split at h
      · cases h
      · obtain ⟨head, hhead, h⟩ := bind_eq_ok.mp h
        obtain ⟨⟨body, dict₁⟩, hbody, h⟩ := bind_eq_ok.mp h
        cases h
        obtain ⟨hdict, hbytes⟩ := placeEach_eq hbody
        refine ⟨hdict, fun full hfull => ?_⟩
        rw [nodeHead_eq hhead, hbytes full hfull, QueryExpr.template, Template.bytes,
          List.length_map]
        rfl
  | exprs q subs ih =>
      intro depth dict dict' bytes h
      rw [compileExpr] at h
      split at h
      · cases h
      · obtain ⟨head, hhead, h⟩ := bind_eq_ok.mp h
        obtain ⟨⟨body, dict₁⟩, hbody, h⟩ := bind_eq_ok.mp h
        cases h
        obtain ⟨hdict, hbytes⟩ := compileEach_eq ih hbody
        refine ⟨hdict, fun full hfull => ?_⟩
        rw [nodeHead_eq hhead, hbytes full hfull, QueryExpr.template, Template.bytes,
          QueryExpr.templateEach_eq_map, List.length_map]
        rfl

theorem compile_eq {e : QueryExpr} (hf : Fits 1 [] e) :
    let dict := e.mentioned.eraseDups
    let body := (e.template dict).bytes
    compile e = .ok (version :: 1 :: body, dict) ∧ Yields (decodeExpr dict maxDepth) body e := by
  intro dict body
  obtain ⟨bytes, hbytes, hyields⟩ := (compileExpr_compiles e 1 [] (Nat.zero_le _)).ok hf
  rw [Container.foldl_addUnique_eq_eraseDups] at hbytes hyields
  have hbody : bytes = body := (compileExpr_eq e 1 [] dict bytes hbytes).2 dict (List.prefix_refl _)
  rw [hbody] at hbytes hyields
  constructor
  · rw [compile, hbytes]
    rfl
  · exact hyields dict maxDepth (List.prefix_refl _) rfl

end QueryStream

namespace Query
open QueryStream

theorem build_eq_ok {e : QueryExpr} {description : String} {q : Query}
    (h : build e description = .ok q) :
    q = ⟨e.mentioned.eraseDups, version :: 1 :: (e.template e.mentioned.eraseDups).bytes, description,
      e.display⟩ := by
  have hfits : Fits 1 [] e := (build_ok_iff e description).mp ⟨q, h⟩
  rw [build_eq, (compile_eq hfits).1, ok_bind] at h
  cases h
  rfl

/-- A query that was built is read back as the expression it was built from. Its dictionary has the
tags of the expression, each once and in the order of first use. Its stream is a version, a root flag
and the template of the expression over this dictionary, node by node; every position in it is one of
the dictionary, and the decoder ends at its last byte. The dictionary and the stream alone make the
same query again, but for what the user said of it. -/
theorem build_restores {e : QueryExpr} {description : String} {q : Query}
    (h : build e description = .ok q) :
    q.expr? = pure (some e) ∧
    q.dictionary = e.mentioned.eraseDups ∧ q.dictionary.Nodup ∧
    (let node := e.template q.dictionary
     q.stream = version :: 1 :: node.bytes ∧ node.fill q.dictionary = e ∧
      (∀ b ∈ node.indices, b.toNat < q.dictionary.length) ∧
      decodeExpr q.dictionary maxDepth ⟨2, node.bytes⟩ = .ok (e, ⟨q.stream.length, []⟩)) ∧
    ofStream q.dictionary q.stream = pure { q with userDescription := "" } := by
  have hexpr := expr?_of_build h
  have hfits : Fits 1 [] e := (build_ok_iff e description).mp ⟨q, h⟩
  have hdict : e.mentioned.eraseDups.length ≤ maxCount := by
    rw [← Container.foldl_addUnique_eq_eraseDups]
    exact hfits.2.2
  have hmem : ∀ t ∈ e.mentioned, t ∈ e.mentioned.eraseDups := fun t => List.mem_eraseDups.mpr
  have hyields := (compile_eq hfits).2 2 []
  rw [List.append_nil] at hyields
  have hq := build_eq_ok h
  subst hq
  refine ⟨hexpr, rfl, ?_, ⟨rfl, QueryExpr.fill_template hdict e hmem, ?_, ?_⟩, ?_⟩
  · dsimp only
    rw [← Container.foldl_addUnique_eq_eraseDups]
    exact nodup_foldl_addUnique List.nodup_nil _
  · intro b hb
    rw [QueryExpr.indices_template] at hb
    obtain ⟨t, ht, rfl⟩ := List.mem_map.mp hb
    rw [QueryExpr.toNat_indexIn hdict (hmem t ht)]
    exact List.idxOf_lt_length_of_mem (hmem t ht)
  · rw [hyields]
    simp only [List.length_cons, Nat.add_comm 2]
  · rw [ofStream, describe]
    exact congrArg (fun x => x >>= _) hexpr

/-- Tags come back in later nodes, and a node has no elements. -/
theorem build_restores_shared :
    let e : QueryExpr := .exprs .all [.tags .any [⟨"B"⟩, ⟨"A"⟩], .exprs .none [],
      .exprs .none [.tags .all [⟨"A"⟩, ⟨"C"⟩, ⟨"A"⟩]]]
    let q : Query := ⟨[⟨"B"⟩, ⟨"A"⟩, ⟨"C"⟩],
      [0, 1, 5, 3, 1, 2, 0, 1, 6, 0, 6, 1, 2, 3, 1, 2, 1], "logic", e.display⟩
    build e "logic" = .ok q ∧ q.expr? = pure (some e) ∧
      ofStream q.dictionary q.stream = pure { q with userDescription := "" } := by
  intro e q
  have hbuild : build e "logic" = .ok q := by rfl
  have h := build_restores hbuild
  exact ⟨hbuild, h.1, h.2.2.2.2⟩

end Query
end TagTree

import TagTree.Proofs.Query.Compiling
import TagTree.Proofs.Query.Template
import TagTree.Proofs.Registry.Requesting

/-!
# Exchanging the dictionary

A query keeps its logic in the stream and its tags in the dictionary, and its
generated description is kept in step with both. An exchange of the dictionary,
by hand or by way of names and a registry, changes which tag stands at a
position: the query then has the expression that the same template has over the
new tags, which may be invalid or equal. This holds of every query that programs
can make, also where the stream is malformed; then there is no expression before
and none afterwards.

`Made` lists what programs do to queries: build them, take a stream and a
dictionary from elsewhere, exchange tags, save and restore. `Described` is the
invariant that the generated description belongs to the stream and the
dictionary, and every step has a lemma that it leaves it so.

The template of a query is a function of its stream and of the number of tags in
its dictionary. Since an exchange changes neither, the expressions before and
after are one template filled twice. Saving and restoring is an exchange whose
new tags are the ones that a registry finds for the old names; for a registry
that has them all it gives back the query itself.
-/
namespace TagTree.Query

inductive Made : Query → Prop
  | empty : Made empty
  | build {e : QueryExpr} {description : String} {q : Query} : build e description = .ok q → Made q
  | ofStream (dict : List Tag) (stream : List UInt8) : Made (ofStream dict stream).value
  | restore (s : SavedQuery) (r : Registry) : Made (s.restore r).value.2
  | replaceTags {q : Query} (c : Container) : Made q → Made (q.replaceTags c).value.1
  | replaceTag {q : Query} (t : Tag) : Made q → Made (q.replaceTag t).value.1
  | describeAs {q : Query} (description : String) : Made q →
      Made { q with userDescription := description }
  | clear {q : Query} : Made q → Made Query.empty

/-- The expression with positions in place of tags, unless the query is empty or malformed. -/
def template? (q : Query) : Option Template :=
  if q.isEmpty then none else (QueryStream.template q.dictionary.length q.stream).toOption.join

/-- The second query has the stream of the first and what the user said of it, and other tags at the
positions of the dictionary. -/
structure Exchanged (q q' : Query) (dict : List Tag) : Prop where
  dictionary : q'.dictionary = dict
  stream : q'.stream = q.stream
  userDescription : q'.userDescription = q.userDescription
  expr : q'.expr?.value = q.template?.map (Template.fill dict)
  holds : ∀ c, (q'.holds c).value =
    (q.template?.map (Template.fill dict)).elim false (QueryExpr.holds c)

/-- The generated description says what the expression is; it is empty where there is none. -/
def Described (q : Query) : Prop :=
  q.autoDescription = (q.expr?.value.map QueryExpr.display).getD ""

theorem expr?_eq_fill (q : Query) : q.expr?.value = q.template?.map (Template.fill q.dictionary) := by
  unfold expr? template?
  split
  · rfl
  · rw [QueryStream.decode_eq_fill]
    cases QueryStream.template q.dictionary.length q.stream with
    | error fault => rfl
    | ok e => rfl

theorem template?_congr {q q' : Query} (hstream : q'.stream = q.stream)
    (hlength : q'.dictionary.length = q.dictionary.length) : q'.template? = q.template? := by
  rw [template?, template?, isEmpty, isEmpty, hstream, hlength]

theorem expr?_congr {q q' : Query} (hstream : q'.stream = q.stream)
    (hdict : q'.dictionary = q.dictionary) : q'.expr?.value = q.expr?.value := by
  rw [expr?_eq_fill, expr?_eq_fill, hdict, template?_congr hstream (by rw [hdict])]

theorem indices_lt {q : Query} {e : Template} (h : q.template? = some e) :
    ∀ b ∈ e.indices, b.toNat < q.dictionary.length := by
  unfold template? at h
  split at h
  · cases h
  · cases hread : QueryStream.template q.dictionary.length q.stream with
    | error fault =>
        rw [hread] at h
        cases h
    | ok found =>
        rw [hread] at h
        exact QueryStream.indices_lt_of_template (hread.trans (congrArg Except.ok h))

theorem describe_described (q : Query) : Described q.describe.value :=
  congrArg (fun e : Option QueryExpr => (e.map QueryExpr.display).getD "")
    (expr?_congr (q := q) rfl rfl).symm

theorem Described.describeAs {q : Query} (h : Described q) (description : String) :
    Described { q with userDescription := description } := by
  have hexpr : ({ q with userDescription := description } : Query).expr?.value = q.expr?.value :=
    expr?_congr rfl rfl
  rw [Described, hexpr]
  exact h

theorem build_described {e : QueryExpr} {description : String} {q : Query}
    (h : build e description = .ok q) : Described q := by
  rw [Described, expr?_of_build h]
  rw [build_eq] at h
  obtain ⟨_, _, h⟩ := bind_eq_ok.mp h
  cases h
  rfl

/-- Each step leaves a generated description that belongs to dictionary and stream. -/
theorem Made.described {q : Query} (h : Made q) : Described q := by
  induction h with
  | empty => rfl
  | build hbuild => exact build_described hbuild
  | ofStream dict stream => exact describe_described _
  | restore s r => exact (describe_described _).describeAs _
  | replaceTags c _ ih =>
      unfold Query.replaceTags
      split
      · exact describe_described _
      · exact ih
  | replaceTag t _ ih =>
      unfold Query.replaceTag
      split
      · exact describe_described _
      · exact ih
  | describeAs description _ ih => exact ih.describeAs description
  | clear _ _ => rfl

theorem exchanged {q q' : Query} {dict : List Tag} (hdict : q'.dictionary = dict)
    (hlength : dict.length = q.dictionary.length) (hstream : q'.stream = q.stream)
    (huser : q'.userDescription = q.userDescription) : Exchanged q q' dict := by
  have hexpr : q'.expr?.value = q.template?.map (Template.fill dict) := by
    rw [expr?_eq_fill, hdict, template?_congr hstream (by rw [hdict, hlength])]
  refine ⟨hdict, hstream, huser, hexpr, fun c => ?_⟩
  rw [(holds_eq q' c).1, hexpr]

theorem replaceTags_exchanges (q : Query) (c : Container) :
    let r := (q.replaceTags c).value
    (r.2 = true ↔ c.size = q.dictionary.length) ∧ (r.2 = true → Exchanged q r.1 c.tags) ∧
      (r.2 = false → r.1 = q) := by
  unfold replaceTags
  split
  · rename_i hsize
    exact ⟨⟨fun _ => hsize, fun _ => rfl⟩, fun _ => exchanged rfl hsize rfl rfl, nofun⟩
  · rename_i hsize
    exact ⟨⟨nofun, fun h => absurd h hsize⟩, nofun, fun _ => rfl⟩

theorem replaceTag_exchanges (q : Query) (t : Tag) :
    let r := (q.replaceTag t).value
    (r.2 = true ↔ q.dictionary.length = 1) ∧ (r.2 = true → Exchanged q r.1 [t]) ∧
      (r.2 = false → r.1 = q) := by
  unfold replaceTag
  split
  · rename_i hsize
    exact ⟨⟨fun _ => hsize, fun _ => rfl⟩, fun _ => exchanged rfl hsize.symm rfl rfl, nofun⟩
  · rename_i hsize
    exact ⟨⟨nofun, fun h => absurd h hsize⟩, nofun, fun _ => rfl⟩

def resolved (q : Query) (r : Registry) : List Tag :=
  q.dictionary.map fun t => (r.request t.name).value.2

theorem restore_save_exchanges (q : Query) (r : Registry) :
    Exchanged q (q.save.restore r).value.2 (q.resolved r) := by
  have hdict : (r.requestAllIf r.settings.warnOnInvalid q.save.dictionary).value.2 = q.resolved r := by
    rw [Registry.requestAllIf_value, save, List.map_map]
    rfl
  exact exchanged hdict (List.length_map _) rfl rfl

theorem resolved_eq_self {q : Query} {r : Registry}
    (h : ∀ t ∈ q.dictionary, t.isValid → (r.request t.name).value.2 = t) :
    q.resolved r = q.dictionary := by
  have hown : ∀ t ∈ q.dictionary, (r.request t.name).value.2 = t := by
    intro t ht
    by_cases hname : t.name = ""
    · have hinvalid : t = .invalid := congrArg Tag.mk hname
      rw [hname, Registry.request_eq_lookup, Registry.lookup, if_pos (.inl rfl), hinvalid]
      rfl
    · exact h t ht (bne_iff_ne.mpr hname)
  rw [resolved, List.map_congr_left hown, List.map_id']

theorem Exchanged.eq_self {q q' : Query} (h : Exchanged q q' q.dictionary) (hq : Described q)
    (hq' : Described q') : q' = q := by
  have hexpr := expr?_congr h.stream h.dictionary
  have hauto : q'.autoDescription = q.autoDescription := by rw [hq', hq, hexpr]
  cases q
  cases q'
  obtain ⟨hdict, hstream, huser, _, _⟩ := h
  simp_all

/-- In every query that can be made the generated description belongs to dictionary and stream. The
expression is a template, with positions that the dictionary has, filled with its tags. Exchanging all
tags succeeds exactly if there are as many new ones, and exchanging a single one exactly if there is a
single one; otherwise the query is left as it is. Whether a dictionary is exchanged in this way or by
what a registry has for its names, what stays are the stream and what the user said, and the expression
is the same template filled with the new tags. A registry that has every valid tag of the dictionary
under its name gives back the query that was saved. -/
theorem exchange_keeps_logic {q : Query} (h : Made q) :
    Described q ∧
    (q.expr?.value = q.template?.map (Template.fill q.dictionary) ∧
      ∀ e ∈ q.template?, ∀ b ∈ e.indices, b.toNat < q.dictionary.length) ∧
    (∀ c : Container, let r := (q.replaceTags c).value
      (r.2 = true ↔ c.size = q.dictionary.length) ∧ (r.2 = true → Exchanged q r.1 c.tags) ∧
        (r.2 = false → r.1 = q)) ∧
    (∀ t : Tag, let r := (q.replaceTag t).value
      (r.2 = true ↔ q.dictionary.length = 1) ∧ (r.2 = true → Exchanged q r.1 [t]) ∧
        (r.2 = false → r.1 = q)) ∧
    ∀ r : Registry, Exchanged q (q.save.restore r).value.2 (q.resolved r) ∧
      ((∀ t ∈ q.dictionary, t.isValid → (r.request t.name).value.2 = t) →
        (q.save.restore r).value.2 = q) := by
  have hsaved := restore_save_exchanges q
  refine ⟨h.described, ⟨expr?_eq_fill q, fun e => indices_lt⟩, replaceTags_exchanges q,
    replaceTag_exchanges q, fun r => ⟨hsaved r, fun hown => ?_⟩⟩
  have hback := hsaved r
  rw [resolved_eq_self hown] at hback
  exact hback.eq_self h.described (Made.restore q.save r).described

/-- A registry in which one tag of the dictionary was renamed to the other: both positions then have
the same tag. One that has both gives back the query. A single tag is not taken for the two. -/
theorem exchange_keeps_logic_renamed :
    let q : Query := ⟨[⟨"Old"⟩, ⟨"B"⟩], [0, 1, 5, 2, 1, 2, 0, 1, 3, 1, 0], "mine",
      "ALL(ANY(Old, B), NONE(Old))"⟩
    let own := (Registry.empty {}).run [.addNatives [⟨"Old", ""⟩, ⟨"B", ""⟩]]
    let r := (Registry.empty {}).run [.addNative ⟨"B", ""⟩, .addRedirect ⟨"Old", "B"⟩]
    Made q ∧
    (q.save.restore r).value.2.expr?.value =
      some (.exprs .all [.tags .any [⟨"B"⟩, ⟨"B"⟩], .tags .none [⟨"B"⟩]]) ∧
    (q.save.restore r).value.2.userDescription = "mine" ∧ (q.save.restore own).value.2 = q ∧
    (q.replaceTag ⟨"B"⟩).value.1 = q ∧
    Exchanged q (q.replaceTags (.ofList [⟨"B"⟩, ⟨"Old"⟩])).value.1 [⟨"B"⟩, ⟨"Old"⟩] := by
  intro q own r
  have hbuild : build (.exprs .all [.tags .any [⟨"Old"⟩, ⟨"B"⟩], .tags .none [⟨"Old"⟩]]) "mine" =
      .ok q := by rfl
  have hmade : Made q := .build hbuild
  obtain ⟨_, _, hall, hone, hsaved⟩ := exchange_keeps_logic hmade
  have hresolved : q.resolved r = [⟨"B"⟩, ⟨"B"⟩] := by decide +kernel
  have hown : ∀ t ∈ q.dictionary, t.isValid → (own.request t.name).value.2 = t := by decide +kernel
  have hswapped := (hall (.ofList [⟨"B"⟩, ⟨"Old"⟩])).2.1 ((hall _).1.mpr (by decide +kernel))
  refine ⟨hmade, ?_, (hsaved r).1.userDescription, (hsaved own).2 hown, (hone ⟨"B"⟩).2.2 rfl,
    hswapped⟩
  rw [(hsaved r).1.expr, hresolved]
  rfl

end TagTree.Query

import TagTree.Proofs.Registry.Lookup
import TagTree.Proofs.Registry.Rebuilding
import TagTree.Proofs.Tree.Traversal

/-!
# Who names a tag

Accepted rows and accepted registrations from code are claims on names. A run
that does not rebuild never forgets a claim, and what it knows of a name in the
end depends on the claims on that very name and on their order: code is the
source if it ever made one, else the first claim decides, and the first comment
that is not empty stays. Rows of other names, refused rows, redirects, lookups
and the index have no part in it.

The claims of a history are listed from its operations, without a look at the
registry except for the flag, since code makes no claims once it is set.
`Claimed` is the agreement of a tree with such a list, name by name. A row
appends one claim and changes one entry, and what a row makes of an entry is
what one more claim makes of it; operations on many rows and whole runs append
their claims one after the other.

A rebuild is left out, because it loads rows by the kinds that their sources
have by then and forgets comments that are not logged. What a registry tells
about tags is then read off the claims: which tags some source named, what the
source and the comment of a tag are, and which tags belong to a source.
-/
namespace TagTree.Registry

/-- An accepted row: of some source, or registered by code. -/
inductive Claim where
  | loaded (source : String) (row : Row)
  | coded (row : Row)

namespace Claim

def row : Claim → Row
  | .loaded _ row => row
  | .coded row => row

def source : Claim → String
  | .loaded source _ => source
  | .coded _ => Source.native

def isCoded : Claim → Bool
  | .loaded _ _ => false
  | .coded _ => true

end Claim

def claimsOn (claims : List Claim) (name : String) : List Claim :=
  claims.filter (·.row.tag == name)

/-- The source of a name with these claims: code if it made one, else that of the first. -/
def claimedSource (claims : List Claim) : Option String :=
  if claims.any (·.isCoded) then some Source.native else claims.head?.map (·.source)

/-- What is known of a name with these claims. -/
def claimedEntry (claims : List Claim) : Entry where
  source := claimedSource claims
  comment := firstComment (claims.map (·.row.comment))

theorem claimsOn_snoc (claims : List Claim) (c : Claim) (name : String) :
    claimsOn (claims ++ [c]) name = claimsOn claims name ++ if c.row.tag = name then [c] else [] := by
  unfold claimsOn
  by_cases h : c.row.tag = name <;> simp [h]

theorem claimedSource_isSome {claims : List Claim} :
    (claimedSource claims).isSome ↔ claims ≠ [] := by
  unfold claimedSource
  cases claims with
  | nil => simp
  | cons first rest => split <;> simp

theorem claimedSource_snoc (claims : List Claim) (c : Claim) : claimedSource (claims ++ [c]) =
    if c.isCoded || (claimedSource claims).isNone then some c.source else claimedSource claims := by
  cases c with
  | coded row => simp [claimedSource, Claim.isCoded, Claim.source]
  | loaded source row =>
      cases claims with
      | nil => rfl
      | cons first rest =>
          have hsome := claimedSource_isSome.mpr (List.cons_ne_nil first rest)
          have hcoded : (first :: rest ++ [Claim.loaded source row]).any (·.isCoded) =
              (first :: rest).any (·.isCoded) := by
            rw [List.any_append]
            exact Bool.or_false _
          rw [if_neg (by simp [Claim.isCoded, Option.isNone_eq_false_iff.mpr hsome])]
          unfold claimedSource
          rw [hcoded]
          rfl

/-- One more claim on a name makes of its entry what a row makes of it. -/
theorem claimedEntry_snoc (claims : List Claim) (c : Claim) : claimedEntry (claims ++ [c]) =
    claim c.source c.isCoded c.row.comment (claimedEntry claims) := by
  unfold claimedEntry
  rw [claimedSource_snoc, List.map_append, List.map_singleton, firstComment_snoc]
  rfl

structure Claimed (claims : List Claim) (t : Tree) : Prop where
  wellFormed : t.WellFormed
  entries : ∀ name, t.entryAt name = claimedEntry (claimsOn claims name)

theorem empty_claimed : Claimed [] Tree.empty := ⟨Tree.empty_wellFormed, Tree.entryAt_empty⟩

/-- The rows of a list that are not refused. -/
def validRows (rows : List Row) : List Row := rows.filter fun row => decide (Name.Valid row.tag)

/-- The rows of a table of code that are accepted: all up to the first that is refused. -/
def nativeRows (finalized : Bool) (rows : List Row) : List Row :=
  if finalized then [] else rows.takeWhile fun row => decide (Name.Valid row.tag)

theorem nativeRows_nil (finalized : Bool) : nativeRows finalized [] = [] := by
  cases finalized <;> rfl

theorem nativeRows_cons (finalized : Bool) (row : Row) (rows : List Row) :
    nativeRows finalized (row :: rows) =
      if finalized = false ∧ Name.Valid row.tag then row :: nativeRows finalized rows else [] := by
  cases finalized with
  | true => simp [nativeRows]
  | false => by_cases hv : Name.Valid row.tag <;> simp [nativeRows, hv]

namespace Claimed
variable {claims : List Claim}

theorem insert {t : Tree} (h : Claimed claims t) {c : Claim} (hc : Name.Valid c.row.tag) :
    Claimed (claims ++ [c]) (t.insert (claim c.source c.isCoded c.row.comment) c.row.tag) := by
  refine ⟨Tree.insert_wellFormed h.wellFormed hc.proper _, ?_⟩
  intro name
  rw [Tree.entryAt_insert h.wellFormed hc.proper, claimsOn_snoc, h.entries]
  by_cases hname : name = c.row.tag
  · rw [if_pos hname, if_pos hname.symm, claimedEntry_snoc]
  · rw [if_neg hname, if_neg (Ne.symm hname), List.append_nil]

theorem reindex {t : Tree} (h : Claimed claims t) (tags : List Tag) :
    Claimed claims (t.reindex tags) := by
  refine ⟨(Tree.reindex_sameShape t tags).wellFormed h.wellFormed, ?_⟩
  intro name
  rw [Tree.entryAt_reindex]
  exact h.entries name

variable {r : Registry} (h : Claimed claims r.tree)
include h

theorem indexed : Claimed claims r.reindex.value.tree := by
  obtain ⟨common, table, heq, _⟩ := reindex_eq r
  rw [heq]
  exact h.reindex table.tags

theorem loadRows (source : String) (rows : List Row) :
    Claimed (claims ++ (validRows rows).map (.loaded source))
      (r.loadRows source rows).value.1.tree := by
  induction rows generalizing r claims with
  | nil =>
      rw [validRows, List.filter_nil, List.map_nil, List.append_nil]
      exact h
  | cons row rows ih =>
      by_cases hv : Name.Valid row.tag
      · have hstep : Claimed (claims ++ [.loaded source row]) (r.accept source false row).tree :=
          h.insert (c := .loaded source row) hv
        have hrest := ih hstep
        rw [loadRows_of_valid r source hv]
        simpa [validRows, hv] using hrest
      · have hrest := ih h
        rw [loadRows_of_not_valid r source hv]
        simpa [validRows, hv] using hrest

theorem withSource (source : String) (kind : SourceKind) :
    Claimed claims (r.withSource source kind).tree := by
  rw [withSource_tree]
  exact h

theorem load (source : String) (kind : SourceKind) (rows : List Row) :
    Claimed (claims ++ (validRows rows).map (.loaded source))
      (r.load source kind rows).value.1.tree := by
  have hrows := (h.withSource source kind).loadRows source rows
  rw [Registry.load, Logged.value_bind]
  cases hout : ((r.withSource source kind).loadRows source rows).value with
  | mk r₁ n =>
  rw [hout] at hrows
  dsimp only
  split
  · exact hrows.indexed
  · exact hrows

theorem loadLists (lists : List TagList) :
    Claimed (claims ++ lists.flatMap fun list => (validRows list.rows).map (.loaded list.name))
      (r.loadLists lists).value.tree := by
  induction lists generalizing r claims with
  | nil =>
      rw [List.flatMap_nil, List.append_nil]
      exact h
  | cons list lists ih =>
      have hstep := h.load list.name .tagList list.rows
      have hrest := ih hstep
      rw [List.flatMap_cons, ← List.append_assoc]
      exact hrest

theorem addNative_valid (hf : r.finalized = false) {row : Row} (hv : Name.Valid row.tag) :
    Claimed (claims ++ [.coded row]) (r.addNative row).value.1.tree := by
  have hstep := (h.withSource Source.native .native).insert (c := .coded row) hv
  rw [addNative_of_valid hf hv]
  dsimp only
  split <;> exact hstep

theorem addNative_refused {row : Row} (hbad : ¬ (r.finalized = false ∧ Name.Valid row.tag)) :
    Claimed claims (r.addNative row).value.1.tree := by
  obtain ⟨cause, hvalue⟩ := addNative_of_refused hbad
  rw [hvalue]
  dsimp only
  split
  · exact h
  · exact h.withSource ..

theorem addNative (row : Row) : Claimed (claims ++ (nativeRows r.finalized [row]).map .coded)
    (r.addNative row).value.1.tree := by
  rw [nativeRows_cons, nativeRows_nil]
  split
  · rename_i hgood
    exact h.addNative_valid hgood.1 hgood.2
  · rename_i hbad
    rw [List.map_nil, List.append_nil]
    exact h.addNative_refused hbad

theorem addNatives (rows : List Row) :
    Claimed (claims ++ (nativeRows r.finalized rows).map .coded)
      (r.addNatives rows).value.1.tree := by
  induction rows generalizing r claims with
  | nil =>
      rw [nativeRows_nil, List.map_nil, List.append_nil]
      exact h
  | cons row rows ih =>
      rw [nativeRows_cons]
      by_cases hgood : r.finalized = false ∧ Name.Valid row.tag
      · have hrest := ih (h.addNative_valid hgood.1 hgood.2)
        rw [(addNative_answers hgood.1 hgood.2).2, ← hgood.1] at hrest
        rw [addNatives_of_accepted hgood.1 hgood.2, if_pos hgood, List.map_cons, List.append_cons]
        exact hrest
      · rw [addNatives_of_refused hgood, if_neg hgood, List.map_nil, List.append_nil]
        exact h.addNative_refused hgood

theorem addRedirect (d : Redirect) : Claimed claims (r.addRedirect d).value.1.tree := by
  unfold Registry.addRedirect
  split
  · exact h
  · split <;> exact h

theorem addRedirects (ds : List Redirect) : Claimed claims (r.addRedirects ds).value.tree := by
  induction ds generalizing r with
  | nil => exact h
  | cons d ds ih => exact ih (h.addRedirect d)

theorem finalize : Claimed claims r.finalize.value.tree := by
  unfold Registry.finalize
  split
  · exact h
  · exact Claimed.indexed (r := { r with finalized := true }) h

theorem request (name : String) : Claimed claims (r.request name).value.1.tree := by
  rw [(request_same r name).tree]
  exact h

end Claimed

def configuredClaims (c : Configuration) : List Claim :=
  if c.settings.importTags then
    (validRows c.settings.rows).map (.loaded Source.settings) ++
      c.lists.flatMap fun list => (validRows list.rows).map (.loaded list.name)
  else []

def Origin.claims : Origin → List Claim
  | .empty _ => []
  | .ofSettings settings => configuredClaims ⟨settings, []⟩
  | .ofConfiguration configuration => configuredClaims configuration

/-- The claims of an operation other than a rebuild. -/
def Operation.claims (finalized : Bool) : Operation → List Claim
  | .load source _ rows => (validRows rows).map (.loaded source)
  | .addRow source row => (validRows [row]).map (.loaded source)
  | .addNative row => (nativeRows finalized [row]).map .coded
  | .addNatives rows => (nativeRows finalized rows).map .coded
  | _ => []

def claimsBy (r : Registry) : List Operation → List Claim
  | [] => []
  | op :: ops => op.claims r.finalized ++ claimsBy (op.apply r).value ops

theorem ofConfiguration_claimed (c : Configuration) :
    Claimed (configuredClaims c) (ofConfiguration c).value.tree := by
  have hempty : Claimed [] (empty c.settings).tree := empty_claimed
  unfold ofConfiguration configuredClaims
  dsimp only
  split
  · have hrows := hempty.load Source.settings .defaultList c.settings.rows
    have hlists := hrows.loadLists c.lists
    exact hlists.addRedirects c.settings.redirects
  · exact hempty.addRedirects c.settings.redirects

theorem Origin.registry_claimed (o : Origin) : Claimed o.claims o.registry.value.tree := by
  cases o with
  | empty settings => exact empty_claimed
  | ofSettings settings => exact ofConfiguration_claimed ⟨settings, []⟩
  | ofConfiguration configuration => exact ofConfiguration_claimed configuration

theorem Operation.apply_claimed {r : Registry} {claims : List Claim} (h : Claimed claims r.tree)
    {op : Operation} (hop : op ≠ .rebuild) :
    Claimed (claims ++ op.claims r.finalized) (op.apply r).value.tree := by
  have hnone : claims ++ [] = claims := List.append_nil claims
  cases op with
  | load source kind rows => exact h.load source kind rows
  | addRow source row => exact h.load source .dataTable [row]
  | addNative row => exact h.addNative row
  | addNatives rows => exact h.addNatives rows
  | addRedirect redirect => exact hnone.symm ▸ h.addRedirect redirect
  | addRedirects redirects => exact hnone.symm ▸ h.addRedirects redirects
  | finalize => exact hnone.symm ▸ h.finalize
  | rebuild => exact absurd rfl hop
  | request name => exact hnone.symm ▸ h.request name

theorem run_claimed {r : Registry} {claims : List Claim} (h : Claimed claims r.tree)
    {ops : List Operation} (hops : .rebuild ∉ ops) :
    Claimed (claims ++ claimsBy r ops) (r.run ops).tree := by
  induction ops generalizing r claims with
  | nil => exact (List.append_nil claims).symm ▸ h
  | cons op ops ih =>
      obtain ⟨hop, hrest⟩ := not_or.mp (mt List.mem_cons.mpr hops)
      have hstep := op.apply_claimed h (Ne.symm hop)
      have hrun := ih hstep hrest
      rw [List.append_assoc] at hrun
      exact hrun

def History.claims (h : History) : List Claim :=
  h.origin.claims ++ claimsBy h.origin.registry.value h.operations

theorem History.claimed (h : History) (hkept : .rebuild ∉ h.operations) :
    Claimed h.claims h.registry.tree := run_claimed h.origin.registry_claimed hkept

theorem map_tag_validRows (source : String) (rows : List Row) :
    ((validRows rows).map (Claim.loaded source)).map (·.row.tag) = validNames rows := by
  rw [validRows, validNames, List.filter_map, List.map_map]
  rfl

theorem map_tag_nativeRows (finalized : Bool) (rows : List Row) :
    ((nativeRows finalized rows).map Claim.coded).map (·.row.tag) = nativeNames finalized rows := by
  unfold nativeRows nativeNames
  split
  · rfl
  · rw [List.takeWhile_map, List.map_map]
    rfl

theorem map_tag_configuredClaims (c : Configuration) :
    (configuredClaims c).map (·.row.tag) = configuredNames c := by
  unfold configuredClaims configuredNames
  split
  · rw [List.map_append, map_tag_validRows, List.map_flatMap]
    simp only [map_tag_validRows]
  · rfl

theorem Origin.map_tag_claims (o : Origin) : o.claims.map (·.row.tag) = o.accepted := by
  cases o with
  | empty settings => rfl
  | ofSettings settings => exact map_tag_configuredClaims ⟨settings, []⟩
  | ofConfiguration configuration => exact map_tag_configuredClaims configuration

theorem Operation.map_tag_claims (finalized : Bool) (op : Operation) :
    (op.claims finalized).map (·.row.tag) = op.accepted finalized := by
  cases op with
  | load source kind rows => exact map_tag_validRows source rows
  | addRow source row => exact map_tag_validRows source [row]
  | addNative row => exact map_tag_nativeRows finalized [row]
  | addNatives rows => exact map_tag_nativeRows finalized rows
  | addRedirect redirect => rfl
  | addRedirects redirects => rfl
  | finalize => rfl
  | rebuild => rfl
  | request name => rfl

theorem map_tag_claimsBy (r : Registry) (ops : List Operation) :
    (claimsBy r ops).map (·.row.tag) = acceptedBy r ops := by
  induction ops generalizing r with
  | nil => rfl
  | cons op ops ih => rw [claimsBy, acceptedBy, List.map_append, op.map_tag_claims, ih]

theorem History.map_tag_claims (h : History) : h.claims.map (·.row.tag) = h.accepted := by
  rw [claims, accepted, List.map_append, h.origin.map_tag_claims, map_tag_claimsBy]

theorem bind_source (r : Registry) (t : Tag) :
    (r.entry? t).bind (·.source) = (r.tree.entryAt t.name).source := by
  unfold entry? Tree.entryAt Tree.node?
  cases r.tree.position? t.name <;> rfl

theorem isNamed_iff {r : Registry} {t : Tag} :
    r.isNamed t ↔ ∃ source, (r.entry? t).bind (·.source) = some source := by
  unfold isNamed
  cases r.entry? t with
  | none => simp
  | some e => exact Option.isSome_iff_exists

/-- The tags of a source are those whose entry has it, each once. -/
theorem tagsFromSource_spec {r : Registry} (h : r.tree.WellFormed) (source : String) :
    (r.tagsFromSource source).tags.Nodup ∧ ∀ t, t ∈ (r.tagsFromSource source).tags ↔
      (r.entry? t).bind (·.source) = some source := by
  rw [tagsFromSource, nodes, h.ofList_below]
  refine ⟨h.nodup_tags_below 0 _, ?_⟩
  intro t
  rw [h.mem_tags_below, entry?]
  cases r.tree.node? t.name with
  | none => simp
  | some n => simp

structure Attributes (r : Registry) (claims : List Claim) : Prop where
  registered : ∀ m, r.contains m ↔ ∃ c ∈ claims, Name.DottedPrefix m c.row.tag
  /-- Code is the source if it claimed the very name, else the first claim decides, and the first
  comment that is not empty stays. -/
  entry : ∀ t, r.contains t.name → r.entry? t = some (claimedEntry (claimsOn claims t.name))
  named : ∀ t, r.isNamed t ↔ ∃ source, (r.entry? t).bind (·.source) = some source
  claimed : ∀ t, r.isNamed t ↔ ∃ c ∈ claims, c.row.tag = t.name
  fromSource : ∀ source, (r.tagsFromSource source).tags.Nodup ∧
    ∀ t, t ∈ (r.tagsFromSource source).tags ↔ (r.entry? t).bind (·.source) = some source

/-- After a history without rebuilds the claims made in it decide, whatever came in between. -/
theorem attributes_of_claims (h : History) (hkept : .rebuild ∉ h.operations) :
    Attributes h.registry h.claims := by
  have hclaimed := h.claimed hkept
  constructor
  case registered =>
      intro m
      rw [h.contains_iff, History.Registers, ← h.map_tag_claims]
      simp
  case entry =>
      intro t ht
      rw [entry?_eq, if_pos ht, hclaimed.entries]
  case named =>
      intro t
      exact isNamed_iff
  case claimed =>
      intro t
      rw [isNamed_iff, bind_source, hclaimed.entries, ← Option.isSome_iff_exists, claimedEntry,
        claimedSource_isSome, claimsOn]
      simp
  case fromSource => exact tagsFromSource_spec hclaimed.wellFormed

/-- A tag is first an implicit parent, then loaded, then commented and last claimed by code. A refused
name and a registration that comes too late claim nothing. -/
theorem attributes_of_claims_interleaved :
    let h : History := ⟨.empty {}, [.load "List" .tagList [⟨"A.B.C", ""⟩, ⟨"A..B", "refused"⟩],
      .addRow "Table" ⟨"A.B", ""⟩, .load "Other" .tagList [⟨"A.B", "first"⟩],
      .addNative ⟨"A.B", "second"⟩, .finalize, .addNative ⟨"A", "late"⟩, .addRow "Table" ⟨"D", ""⟩]⟩
    Attributes h.registry h.claims ∧
      h.registry.entry? ⟨"A.B"⟩ = some ⟨some "Native", "first"⟩ ∧
      h.registry.entry? ⟨"A"⟩ = some ⟨none, ""⟩ ∧
      (h.registry.tagsFromSource "Table").tags = [⟨"D"⟩] := by
  intro h
  have hkept : .rebuild ∉ h.operations := by simp [h]
  exact ⟨attributes_of_claims h hkept, by decide +kernel, by decide +kernel, by decide +kernel⟩

end TagTree.Registry

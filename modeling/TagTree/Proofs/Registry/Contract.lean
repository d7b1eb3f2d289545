import TagTree.Proofs.Registry.Peers

/-!
# Rebuilding keeps the contract

A rebuild makes the tree anew and may find other sources for the tags. What
lookups and messages rest on stays as it is: the registered names and their
order, the redirects, the flag and the index. No logged row is lost on the way,
and further rebuilds change nothing of this either.

`SameContract` is what callers can rely on across a rebuild, and since it is
passed on from one registry to the next, it holds for any number of rebuilds
once it holds for one. The rebuilt registry has the names, the flag and the
settings of the old one, and the index that is due is determined by these. It
never has to be asked how the tree came about or where its nodes stand.

The second part is about the log. A row is taken again if loading it by the kind
of its source accepts it. Every row of the log of a registry that a run leads to
has a valid name and a source that is known, and the rebuild loads the rows
before it finalizes, so each of them is taken when its turn comes, in the
rebuild that was made and in the one that would be made next.
-/
namespace TagTree.Registry

/-- A row is accepted when it is loaded the way the kind of its source is loaded. -/
def Takes (r : Registry) (source : String) (row : Row) : Prop :=
  ∃ s, r.source? source = some s ∧
    if s.kind = .native then (r.addNative row).value.2 = .ok ⟨row.tag⟩
    else (r.load source s.kind [row]).value.2 = 1

def TakesAll (r : Registry) : List (String × Row) → Prop
  | [] => True
  | (source, row) :: rest => r.Takes source row ∧ TakesAll (r.replayRow source row).value rest

theorem takes_of_valid {r : Registry} (h : r.Consistent) (hf : r.finalized = false)
    {source : String} (hsource : source ∈ r.sources.map (·.name)) {row : Row}
    (hv : Name.Valid row.tag) : r.Takes source row := by
  obtain ⟨s, hs⟩ := Option.isSome_iff_exists.mp (mem_sources_iff.mp hsource)
  refine ⟨s, hs, ?_⟩
  split
  · exact (addNative_accepts h hf hv).2.1
  · have hcount := (load_grows h source s.kind [row]).2.1
    simpa [validNames, hv] using hcount

theorem takesAll_of_valid {r : Registry} (h : r.Consistent) (hf : r.finalized = false)
    {log : List (String × Row)}
    (hlog : ∀ e ∈ log, e.1 ∈ r.sources.map (·.name) ∧ Name.Valid e.2.tag) : r.TakesAll log := by
  induction log generalizing r with
  | nil => trivial
  | cons e log ih =>
      obtain ⟨hsource, hv⟩ := hlog e List.mem_cons_self
      obtain ⟨hstep, hflag⟩ := replayRow_grows h hf hsource hv
      refine ⟨takes_of_valid h hf hsource hv, ih hstep.consistent hflag ?_⟩
      intro x hx
      obtain ⟨hsource', hv'⟩ := hlog x (List.mem_cons_of_mem _ hx)
      exact ⟨hstep.sources _ hsource', hv'⟩

/-- Registries that answer lookups and messages alike. -/
structure SameContract (r r' : Registry) : Prop where
  contains : ∀ m, r'.contains m = r.contains m
  tags : r'.tags = r.tags
  redirects : r'.redirects = r.redirects
  finalized : r'.finalized = r.finalized
  common : r'.common = r.common
  table : r'.table = r.table
  indexOf : ∀ t, r'.indexOf t = r.indexOf t

theorem SameContract.refl (r : Registry) : SameContract r r :=
  ⟨fun _ => rfl, rfl, rfl, rfl, rfl, rfl, fun _ => rfl⟩

theorem SameContract.trans {r r' r'' : Registry} (h : SameContract r r') (k : SameContract r' r'') :
    SameContract r r'' :=
  ⟨fun m => (k.contains m).trans (h.contains m), k.tags.trans h.tags,
    k.redirects.trans h.redirects, k.finalized.trans h.finalized, k.common.trans h.common,
    k.table.trans h.table, fun t => (k.indexOf t).trans (h.indexOf t)⟩

theorem Reachable.alike_rebuild {r : Registry} (h : Reachable r) : Alike r r.rebuild.value := by
  have hgrows := rebuild_grows h.consistent
  exact ⟨h.consistent, hgrows.consistent, hgrows.contains_eq h.consistent, (rebuild_flags r).2,
    congrArg Settings.common hgrows.settings, congrArg Settings.maxBits hgrows.settings⟩

theorem Reachable.rebuild_sameContract {r : Registry} (h : Reachable r) :
    SameContract r r.rebuild.value := by
  have halike := h.alike_rebuild
  have hindexed : r.rebuild.value.Indexed := (h.step .rebuild).indexed
  constructor
  case contains => exact halike.contains
  case tags => exact halike.tags
  case redirects => exact (rebuild_flags r).1
  case finalized => exact halike.finalized
  case common => rw [hindexed.common, halike.dueCommon, h.indexed.common]
  case table => exact halike.table h.indexed hindexed
  case indexOf => exact halike.indexOf h.indexed hindexed

theorem Reachable.rebuilds_sameContract {r : Registry} (h : Reachable r) (n : Nat) :
    SameContract r (r.run (List.replicate n .rebuild)) := by
  induction n generalizing r with
  | zero => exact .refl r
  | succ n ih => exact h.rebuild_sameContract.trans (ih (h.step .rebuild))

/-- After any number of rebuilds the contract is the old one, and the next rebuild will lose no row. -/
theorem rebuilds_keep_contract (h : History) (n : Nat) :
    let r := h.registry.run (List.replicate n .rebuild)
    SameContract h.registry r ∧ r.cleared.TakesAll r.log := by
  intro r
  have hr : r.Consistent := (h.reachable.run _).consistent
  refine ⟨h.reachable.rebuilds_sameContract n, ?_⟩
  refine takesAll_of_valid (cleared_consistent r) rfl ?_
  intro e he
  rw [cleared_sources]
  exact ⟨hr.sourced e he, hr.valid _ (List.mem_map_of_mem he)⟩

/-- Rows of a source of the kind of code come back as those of code, under the same indices. -/
example :
    let r := (empty {}).run [.load "Extra" .native [⟨"B", ""⟩, ⟨"B", ""⟩], .addNative ⟨"A.C", ""⟩,
      .finalize]
    r.log.map (·.1) = ["Extra", "Extra", "Native"] ∧
      r.rebuild.value.log.map (·.1) = ["Native", "Native"] ∧
      r.rebuild.value.table.tags = [⟨"A"⟩, ⟨"A.C"⟩, ⟨"B"⟩] := by
  decide +kernel

end TagTree.Registry

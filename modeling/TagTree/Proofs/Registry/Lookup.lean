import TagTree.Registry.Redirects

/-!
# Lookups and the names they report

A lookup does not depend on which missing names were reported before, so a
request changes the answer of no later one.

Two registries that differ only in the names they have reported answer every
lookup alike, since neither the map of names nor the redirects are concerned;
the proof goes along the hops of a chain. A request differs from a lookup in
what it reports and notes, and not in its answer.

So a row of requests can be answered without the registries in between. Each
name is looked up in the registry at the start, whatever was requested before
it, and the registry at the end differs from that one in the reported names
only. Restoring a query and receiving the tags of a container are such rows, and
it is in this form that later modules use them.
-/
namespace TagTree.Registry

structure SameButReported (r r' : Registry) : Prop where
  settings : r'.settings = r.settings
  tree : r'.tree = r.tree
  redirects : r'.redirects = r.redirects
  table : r'.table = r.table

theorem SameButReported.refl (r : Registry) : SameButReported r r := ⟨rfl, rfl, rfl, rfl⟩

theorem SameButReported.trans {r r' r'' : Registry} (h : SameButReported r r')
    (k : SameButReported r' r'') : SameButReported r r'' :=
  ⟨k.settings.trans h.settings, k.tree.trans h.tree, k.redirects.trans h.redirects,
    k.table.trans h.table⟩

theorem request_same (r : Registry) (name : String) : SameButReported r (r.request name).value.1 := by
  unfold request
  rw [Logged.value_bind]
  split
  · exact ⟨rfl, rfl, rfl, rfl⟩
  · exact .refl r

theorem requestIf_same (r : Registry) (report : Bool) (name : String) :
    SameButReported r (r.requestIf report name).value.1 := by
  unfold requestIf
  split
  · exact request_same r name
  · exact .refl r

theorem request_eq_lookup (r : Registry) (name : String) :
    (r.request name).value.2 = (r.lookup name).value := by
  unfold request
  rw [Logged.value_bind]
  split <;> rfl

theorem requestIf_eq_request (r : Registry) (report : Bool) (name : String) :
    (r.requestIf report name).value.2 = (r.request name).value.2 := by
  unfold requestIf
  split
  · rfl
  · rw [request_eq_lookup]
    rfl

namespace SameButReported
variable {r r' : Registry} (h : SameButReported r r')
include h

theorem target? (name : String) : r'.target? name = r.target? name := by
  rw [Registry.target?, Registry.target?, h.redirects]

theorem find? (name : String) : r'.find? name = r.find? name := by
  rw [Registry.find?, Registry.find?, h.tree]

theorem follow (start : String) (hops : Nat) (current : String) :
    (r'.follow start hops current).value = (r.follow start hops current).value := by
  induction hops generalizing current with
  | zero => rfl
  | succ hops ih =>
      rw [Registry.follow, Registry.follow, h.target?]
      cases r.target? current with
      | none => rfl
      | some next =>
          dsimp only
          rw [h.find?]
          cases r.find? next with
          | some tag => rfl
          | none => exact ih next

theorem lookup (name : String) : (r'.lookup name).value = (r.lookup name).value := by
  unfold Registry.lookup
  split
  · rfl
  · rw [h.find?]
    cases r.find? name with
    | some tag => rfl
    | none =>
        dsimp only
        rw [Logged.value_bind, Logged.value_bind, resolve, resolve, h.settings, h.follow]

theorem request (name : String) : (r'.request name).value.2 = (r.request name).value.2 := by
  rw [request_eq_lookup, request_eq_lookup, h.lookup]

end SameButReported

/-- Each of several names is requested as if it were the only one. -/
theorem requestAllIf_value (r : Registry) (report : Bool) (names : List String) :
    (r.requestAllIf report names).value.2 = names.map fun name => (r.request name).value.2 := by
  have hall : ∀ r', SameButReported r r' → (r'.requestAllIf report names).value.2 =
      names.map fun name => (r.request name).value.2 := by
    induction names with
    | nil => exact fun _ _ => rfl
    | cons name names ih =>
        intro r' h
        have hrest := ih _ (h.trans (requestIf_same r' report name))
        have hstep : (r'.requestAllIf report (name :: names)).value.2 =
            (r'.requestIf report name).value.2 ::
              ((r'.requestIf report name).value.1.requestAllIf report names).value.2 := rfl
        rw [hstep, hrest, requestIf_eq_request, h.request, List.map_cons]
  exact hall r (.refl r)

end TagTree.Registry

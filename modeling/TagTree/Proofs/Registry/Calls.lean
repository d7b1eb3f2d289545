import TagTree.Proofs.Registry.Reporting
import TagTree.Proofs.Registry.Run
import TagTree.Query.Basic
import TagTree.Text.Form
import TagTree.Wire.Codec

/-!
# Calls

A run is a sequence of calls in any order: operations on a registry, and what
codecs, readers of texts and queries do with it. A call with several names looks
them up one after the other, and such a lookup may have to report what it does
not find. These lookups are the moments of a run, each with the registry that it
meets; whatever is done without them is a moment, too. What a run reports is
what its moments report.

Calls with several names are rewritten as lookups in turn, where the registry
that one leaves is the one that the next meets. Reading a container is among
them: its fields are read first, and then each is received. What a call does
apart from lookups cannot report a missing name, which is why it may be put into
one moment as a whole; the last part proves this for codecs, texts and queries.

A moment has the registry it meets, the events it emits and, if it is a lookup
that is to report, the name that it seeks. The events of a run are the events of
its moments in their order, by induction over the calls, so a claim about
reports can be proved moment by moment.
-/
namespace TagTree

namespace Registry

/-- The calls that change a registry or may report something. Any other only looks at its values. -/
inductive Call where
  | operate (op : Operation)
  | request (report : Bool) (name : String)
  | resolve (name : String)
  | redirectContainer (c : Container)
  | tagOfIndex (index : Nat)
  | sendContainer (w : BitWriter) (c : Container)
  | readTag (c : BitCursor)
  | readContainer (c : BitCursor)
  | tagOfText (text : String)
  | containerOfText (text : String)
  | containerOfNames (names : List String)
  | restore (s : SavedQuery)
  | ofStream (dictionary : List Tag) (stream : List UInt8)
  | holds (q : Query) (c : Container)
  | expr (q : Query)
  | replaceTags (q : Query) (c : Container)
  | replaceTag (q : Query) (t : Tag)
  | addTag (e : QueryExpr) (t : Tag)
  | addTags (e : QueryExpr) (c : Container)
  | addExpr (e sub : QueryExpr)

def aside {α : Type} (r : Registry) (x : Logged α) : Logged Registry := do
  let _ ← x
  pure r

def Call.apply (r : Registry) : Call → Logged Registry
  | .operate op => op.apply r
  | .request report name => do pure (← r.requestIf report name).1
  | .resolve name => r.aside (r.resolve name)
  | .redirectContainer c => r.aside (r.redirectContainer c)
  | .tagOfIndex index => r.aside (r.tagOfIndex index)
  | .sendContainer w c => r.aside (r.sendContainer w c)
  | .readTag c => do pure (← r.readTag c).1
  | .readContainer c => do pure (← r.readContainer c).1
  | .tagOfText text => r.aside (r.tagOfText text)
  | .containerOfText text => r.aside (r.containerOfText text)
  | .containerOfNames names => r.aside (r.containerOfNames names)
  | .restore s => do pure (← s.restore r).1
  | .ofStream dictionary stream => r.aside (Query.ofStream dictionary stream)
  | .holds q c => r.aside (q.holds c)
  | .expr q => r.aside q.expr?
  | .replaceTags q c => r.aside (q.replaceTags c)
  | .replaceTag q t => r.aside (q.replaceTag t)
  | .addTag e t => r.aside (e.addTag t)
  | .addTags e c => r.aside (e.addTags c)
  | .addExpr e sub => r.aside (e.addExpr sub)

def perform (r : Registry) : List Call → Logged Registry
  | [] => pure r
  | call :: calls => do (← call.apply r).perform calls

/-- A new registry, made from an origin or from a bundle. -/
inductive Maker where
  | origin (o : Origin)
  | bundle (b : Bundle)

def Maker.registry : Maker → Logged Registry
  | .origin o => o.registry
  | .bundle b => b.registry

section
variable {α β : Type} (act : Registry → α → Logged (Registry × β))

/-- Do something for each of a list; what one makes of the registry is what the next one meets. -/
def inTurn (r : Registry) : List α → Logged (Registry × List β)
  | [] => pure (r, [])
  | a :: rest => do
    let (r, b) ← act r a
    let (r, bs) ← inTurn r rest
    pure (r, b :: bs)

end

theorem requestAllIf_eq (r : Registry) (report : Bool) (names : List String) :
    r.requestAllIf report names = inTurn (requestIf · report) r names := by
  induction names generalizing r with
  | nil => rfl
  | cons name names ih => simp only [requestAllIf, inTurn, ih]

theorem receiveAll_eq (r : Registry) (fields : List WireTag) :
    r.receiveAll fields = inTurn receive r fields := by
  induction fields generalizing r with
  | nil => rfl
  | cons field fields ih => simp only [receiveAll, inTurn, ih]

/-- A lookup, or something else that is done without one. -/
structure Moment where
  registry : Registry
  sought : Option String
  events : List Event

/-- The name that a lookup seeks if it is to report. -/
def soughtIf (report : Bool) (name : String) : Option String := if report then some name else none

/-- The name that is sought for a field; an empty name is not looked up. -/
def soughtBy (r : Registry) : WireTag → Option String
  | .index _ => none
  | .name s => if s = "" then none else soughtIf r.settings.warnOnInvalid s

section
variable {α β : Type} (sought : Registry → α → Option String)
  (act : Registry → α → Logged (Registry × β))

def momentsInTurn (r : Registry) : List α → List Moment
  | [] => []
  | a :: rest => ⟨r, sought r a, (act r a).events⟩ :: momentsInTurn (act r a).value.1 rest

theorem inTurn_events (r : Registry) (as : List α) :
    (inTurn act r as).events = (momentsInTurn sought act r as).flatMap (·.events) := by
  induction as generalizing r with
  | nil => rfl
  | cons a as ih =>
      rw [inTurn, momentsInTurn, List.flatMap_cons, ← ih]
      simp

end

/-- The field that is read for a tag, if it can be read. -/
def fieldsOfTag (r : Registry) (c : BitCursor) : List WireTag :=
  match r.layout.readTag c with
  | (.error _, _) => []
  | (.ok field, _) => [field]

/-- The fields that are read for a container, up to the first that cannot be read. -/
def fieldsOfContainer (r : Registry) (c : BitCursor) : List WireTag :=
  match r.layout.readCount c with
  | (.error _, _) => []
  | (.ok count, c) => (r.layout.readTags count c).1

/-- The lookups of a restored query come before its stream is read. -/
def restoreMoments (r : Registry) (s : SavedQuery) : List Moment :=
  let report := r.settings.warnOnInvalid
  let looked := (r.requestAllIf report s.dictionary).value
  momentsInTurn (fun _ => soughtIf report) (requestIf · report) r s.dictionary ++
    [⟨looked.1, none, (Query.ofStream looked.2 s.stream).events⟩]

def Call.moments (r : Registry) : Call → List Moment
  | .operate (.request name) => [⟨r, some name, (r.request name).events⟩]
  | .request report name => [⟨r, soughtIf report name, (r.requestIf report name).events⟩]
  | .readTag c => momentsInTurn soughtBy receive r (r.fieldsOfTag c)
  | .readContainer c => momentsInTurn soughtBy receive r (r.fieldsOfContainer c)
  | .restore s => r.restoreMoments s
  | call => [⟨r, none, (call.apply r).events⟩]

def momentsOf (r : Registry) : List Call → List Moment
  | [] => []
  | call :: calls => call.moments r ++ momentsOf (call.apply r).value calls

theorem readTag_apply (r : Registry) (c : BitCursor) :
    (Call.readTag c).apply r = (do pure (← inTurn receive r (r.fieldsOfTag c)).1) := by
  rw [Call.apply, readTag, fieldsOfTag]
  rcases r.layout.readTag c with ⟨_ | field, c⟩
  · rfl
  · apply Logged.ext
    · rfl
    · simp [inTurn]

theorem readContainer_apply (r : Registry) (c : BitCursor) :
    (Call.readContainer c).apply r =
      (do pure (← inTurn receive r (r.fieldsOfContainer c)).1) := by
  rw [Call.apply, readContainer, fieldsOfContainer, ← receiveAll_eq]
  rcases r.layout.readCount c with ⟨_ | count, c⟩
  · rfl
  · apply Logged.ext
    · rfl
    · simp

theorem restore_events (r : Registry) (s : SavedQuery) :
    ((Call.restore s).apply r).events = (r.restoreMoments s).flatMap (·.events) := by
  rw [restoreMoments, List.flatMap_append, ← inTurn_events, ← requestAllIf_eq]
  simp [Call.apply, SavedQuery.restore]

theorem Call.apply_events (r : Registry) (call : Call) :
    (call.apply r).events = (call.moments r).flatMap (·.events) := by
  cases call with
  | readTag c =>
      rw [readTag_apply, moments, ← inTurn_events]
      exact List.append_nil _
  | readContainer c =>
      rw [readContainer_apply, moments, ← inTurn_events]
      exact List.append_nil _
  | restore s => exact r.restore_events s
  | operate op => cases op <;> simp [moments, apply, Operation.apply]
  | _ => simp [moments, apply]

theorem perform_events (r : Registry) (calls : List Call) :
    (r.perform calls).events = (r.momentsOf calls).flatMap (·.events) := by
  induction calls generalizing r with
  | nil => rfl
  | cons call calls ih =>
      rw [perform, momentsOf, Logged.events_bind, List.flatMap_append, call.apply_events, ih]

section
open Logged

theorem sendContainer_reports (r : Registry) (w : BitWriter) (c : Container) :
    (r.sendContainer w c).Reports (·.isCommon) := by
  unfold sendContainer
  dsimp only
  split
  · exact reports_pure _
  split
  · exact reports_pure _
  · exact (reports_emitIf _ (by rfl)).bind (reports_pure _)

theorem containerOfNames_reports (r : Registry) (names : List String) :
    (r.containerOfNames names).Reports (·.isCommon) := by
  have hgo : ∀ c, (containerOfNames.go r c names).Reports (·.isCommon) := by
    induction names with
    | nil => exact fun _ => reports_pure _
    | cons name names ih =>
        intro c
        rw [containerOfNames.go]
        split
        · exact ih c
        · exact (r.lookup_reports name).bind ((reports_emitIf _ (by rfl)).bind (ih _))
  exact hgo ∅

theorem containerOfText_reports (r : Registry) (text : String) :
    (r.containerOfText text).Reports (·.isCommon) := by
  unfold containerOfText
  split
  · exact reports_pure _
  · exact (r.containerOfNames_reports _).bind (reports_pure _)

theorem tagOfText_reports (r : Registry) (text : String) :
    (r.tagOfText text).Reports (·.isCommon) := by
  unfold tagOfText
  split
  · exact reports_pure _
  · exact reports_pure _
  · split
    · exact reports_pure _
    · exact (r.lookup_reports _).bind (reports_pure _)

end

end Registry

namespace Query
open Logged
variable (q : Query)

theorem reading_reports {α : Type} (otherwise : α) (outcome : QueryStream.Outcome α) :
    (q.reading otherwise outcome).Reports (·.isCommon) := by
  cases outcome with
  | ok a => exact reports_pure _
  | error fault => exact (reports_emit (by rfl)).bind (reports_pure _)

theorem holds_reports (c : Container) : (q.holds c).Reports (·.isCommon) := by
  unfold holds
  split
  · exact reports_pure _
  · exact q.reading_reports _ _

theorem expr_reports : q.expr?.Reports (·.isCommon) := by
  unfold expr?
  split
  · exact reports_pure _
  · exact q.reading_reports _ _

theorem describe_reports : q.describe.Reports (·.isCommon) := q.expr_reports.bind (reports_pure _)

theorem ofStream_reports (dictionary : List Tag) (stream : List UInt8) :
    (ofStream dictionary stream).Reports (·.isCommon) := describe_reports _

theorem replaceTags_reports (c : Container) : (q.replaceTags c).Reports (·.isCommon) := by
  unfold replaceTags
  split
  · exact (describe_reports _).bind (reports_pure _)
  · exact reports_pure _

theorem replaceTag_reports (t : Tag) : (q.replaceTag t).Reports (·.isCommon) := by
  unfold replaceTag
  split
  · exact (describe_reports _).bind (reports_pure _)
  · exact reports_pure _

end Query

namespace QueryExpr
open Logged
variable (e : QueryExpr)

theorem addTag_reports (t : Tag) : (e.addTag t).Reports (·.isCommon) := by
  cases e with
  | tags q ts => exact reports_pure _
  | exprs q subs => exact (reports_emit (by rfl)).bind (reports_pure _)

theorem addTags_reports (c : Container) : (e.addTags c).Reports (·.isCommon) := by
  cases e with
  | tags q ts => exact reports_pure _
  | exprs q subs => exact (reports_emit (by rfl)).bind (reports_pure _)

theorem addExpr_reports (sub : QueryExpr) : (e.addExpr sub).Reports (·.isCommon) := by
  cases e with
  | tags q ts => exact (reports_emit (by rfl)).bind (reports_pure _)
  | exprs q subs => exact reports_pure _

end QueryExpr
end TagTree

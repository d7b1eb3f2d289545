import Mathlib.Data.Finset.Card
import TagTree.Query.Expr

/-!
# The shape of a query expression

How deep an expression nests, how many elements its widest node has and which
tags it mentions, each by recursion on the tree. These are the quantities that
bound what can be compiled.

Expressions hold lists of expressions, so each quantity is defined together with
its companion for lists, and the companions are the maximum, or the sequence, of
the values of the elements. The induction principle goes with it: a property
holds of every expression if it holds of tag nodes and is passed on from all
children of a node to the node.

Depth counts the node itself, so a tag node has depth one. Width counts the
elements of one node, whatever they are, and the mentioned tags are listed with
their repetitions, as a walk from the left meets them; how many different names
there are is asked of this list.
-/
namespace TagTree.QueryExpr

/-- Induction over the tree, with the hypothesis for every child of a node. -/
@[elab_as_elim]
theorem induct {motive : QueryExpr → Prop} (tags : ∀ q ts, motive (.tags q ts))
    (exprs : ∀ q subs, (∀ e ∈ subs, motive e) → motive (.exprs q subs)) (e : QueryExpr) :
    motive e := by
  refine @QueryExpr.rec motive (fun es => ∀ e ∈ es, motive e) tags exprs (by simp) ?_ e
  intro e es he hes x hx
  rcases List.mem_cons.mp hx with rfl | hx
  · exact he
  · exact hes x hx

mutual

/-- How many nodes stand inside each other, the node itself counted. -/
def depth : QueryExpr → Nat
  | tags _ _ => 1
  | exprs _ subs => depthEach subs + 1

def depthEach : List QueryExpr → Nat
  | [] => 0
  | e :: rest => max (depth e) (depthEach rest)

end

mutual

/-- The number of elements of the node that has most. -/
def width : QueryExpr → Nat
  | tags _ ts => ts.length
  | exprs _ subs => max subs.length (widthEach subs)

def widthEach : List QueryExpr → Nat
  | [] => 0
  | e :: rest => max (width e) (widthEach rest)

end

mutual

/-- The tags of an expression in the order of a walk from the left, with repetitions. -/
def mentioned : QueryExpr → List Tag
  | tags _ ts => ts
  | exprs _ subs => mentionedEach subs

def mentionedEach : List QueryExpr → List Tag
  | [] => []
  | e :: rest => mentioned e ++ mentionedEach rest

end

theorem mentionedEach_eq_flatMap (es : List QueryExpr) : mentionedEach es = es.flatMap mentioned := by
  induction es with
  | nil => rfl
  | cons e es ih => rw [mentionedEach, ih, List.flatMap_cons]

def nameCount (e : QueryExpr) : Nat := (e.mentioned.toFinset.image Tag.name).card

end TagTree.QueryExpr

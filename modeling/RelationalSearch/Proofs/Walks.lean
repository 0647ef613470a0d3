import RelationalSearch.Proofs.CallTree
import RelationalSearch.Proofs.Circularity

/-!
Walks come to an end. Whatever terms are unified, and whatever free variables are bound besides to
terms that do not walk to them, no circle of links comes about, although a variable can come to
stand inside its own binding. So a walk makes no more hops than there are bindings, and ends where
nothing is bound. This holds of every substitution that a unification passes as well, so it never
tries to bind a variable that has a binding, also where it clashes in the end or has no end.
-/
namespace RelationalSearch.Subst

variable {s s' : Subst} {t u v : Term}

/-- Substitutions made from the empty one: by fresh variables, by unifications that return and by
    bindings of free variables to terms that do not walk to them. -/
inductive Made : Subst → Prop where
  | empty : Made empty
  | fresh {s : Subst} (before : Made s) (name : String) : Made (s.fresh name).2
  | unify {s s' : Subst} {u v : Term} (before : Made s) (solved : s.unify u v = .solved s') :
      Made s'
  | extend {s s' : Subst} {x : Var} {t : Term} (before : Made s)
      (extended : s.extend x t = .ok s')
      (apart : ∀ y, s.walk t = some (.var y) → y.id ≠ x.id) : Made s'

/-- No links run in a circle, and every walk has an end. -/
structure Walkable (s : Subst) : Prop where
  noLoops : s.NoLoops
  /-- A walk makes no more hops than there are bindings, and ends where nothing is bound. -/
  walks : ∀ t, ∃ n u, n ≤ s.size ∧ s.Hops n t u ∧ s.walk t = some u ∧
    ∀ x, u = .var x → s.get? x = none

theorem walkable_of_noLoops (noLoops : s.NoLoops) : s.Walkable where
  noLoops := noLoops
  walks t := by
    obtain ⟨u, walked⟩ := walk_isSome noLoops t
    obtain ⟨n, few, hops, last⟩ := walkWithin_eq_some_iff.mp walked
    refine ⟨n, u, few, hops, walked, ?_⟩
    rintro x rfl
    exact last

theorem noLoops_of_made (made : s.Made) : s.NoLoops := by
  induction made with
  | empty => exact noLoops_empty
  | fresh before name ih => exact ih
  | unify before solved ih => exact noLoops_of_unify ih solved
  | extend before extended apart ih => exact noLoops_extend_apart extended apart ih

theorem noLoops_of_enters {d e : Equation} (noLoops : d.under.NoLoops) (enters : Enters d e) :
    e.under.NoLoops := by
  cases enters with
  | @item s m u v a b us vs before after depth left right same place solved =>
    have grows : Grows (fun _ => True) s m :=
      grows_unifyAllBy (grows_unifyWithin (fun _ _ _ _ => trivial) depth)
        (fun _ _ => ⟨trivial, trivial⟩) (fun _ _ _ _ => trivial) solved
    exact noLoops_of_grows grows noLoops

theorem noLoops_of_decision {a b : Term} {x : Var} (noLoops : s.NoLoops)
    (stuckLeft : s.follow? a = none) (stuckRight : s.follow? b = none)
    (decided : decision a b = .bind x t) : ∃ m, s.extend x t = .ok m ∧ m.NoLoops := by
  obtain ⟨m, extended⟩ := extend_of_decision decided stuckLeft stuckRight
  refine ⟨m, extended, ?_⟩
  have rule := decides a b
  rw [decided] at rule
  cases rule with
  | bind_left other => exact noLoops_extend extended stuckRight other noLoops
  | bind_right bare =>
    exact noLoops_extend extended stuckLeft (fun y same => absurd same (bare y)) noLoops

/-- Every substitution that is made is walkable, and so is every one that a unification passes on
    the way. There the two terms of each equation are walked, what they call for is done, and no
    binding is refused. -/
theorem walks_come_to_an_end (s : Subst) (made : s.Made) :
    s.Walkable ∧
      ∀ u v e, Relation.ReflTransGen Enters ⟨s, u, v⟩ e → e.under.Walkable ∧
        ∃ a b, e.under.walk e.left = some a ∧ e.under.walk e.right = some b ∧
          (∀ depth, unifyWithin (depth + 1) e.left e.right e.under =
            (decision a b).outcome (unifyWithin depth) e.under) ∧
          ∀ x t, decision a b = .bind x t → ∃ m, e.under.extend x t = .ok m ∧ m.Walkable := by
  have noLoops := noLoops_of_made made
  refine ⟨walkable_of_noLoops noLoops, fun u v e path => ?_⟩
  have inside : e.under.NoLoops := by
    induction path with
    | refl => exact noLoops
    | tail _ enters ih => exact noLoops_of_enters ih enters
  obtain ⟨a, left⟩ := walk_isSome inside e.left
  obtain ⟨b, right⟩ := walk_isSome inside e.right
  refine ⟨walkable_of_noLoops inside, a, b, left, right,
    fun depth => unifyWithin_walked depth left right, fun x t decided => ?_⟩
  obtain ⟨m, extended, after⟩ :=
    noLoops_of_decision inside (walk_stuck left) (walk_stuck right) decided
  exact ⟨m, extended, walkable_of_noLoops after⟩

/-- The ring, a second variable bound to its sequence, and one that leads to the second. -/
def knot : Subst :=
  let linked := ring.entries.insert 7 ⟨"w", .var ⟨1, "y"⟩⟩
  { ring with entries := linked.insert 1 ⟨"y", .seq [.var ⟨0, "x"⟩]⟩ }

theorem made_knot : knot.Made := by
  have fresh : (empty.fresh "x").2.Made := .fresh .empty "x"
  have circle : ring.Made := .unify (u := .var ⟨0, "x"⟩) (v := .seq [.var ⟨0, "x"⟩]) fresh rfl
  have linked : Made { ring with entries := ring.entries.insert 7 ⟨"w", .var ⟨1, "y"⟩⟩ } := by
    refine .extend (x := ⟨7, "w"⟩) (t := .var ⟨1, "y"⟩) circle rfl ?_
    intro y walked
    cases walked
    decide
  exact .unify (u := .var ⟨1, "y"⟩) (v := .var ⟨0, "x"⟩) linked rfl

theorem knot_walks_come_to_an_end :
    knot.Made ∧ knot.Circular ∧ knot.Walkable ∧
      knot.walk (.var ⟨7, "w"⟩) = some (.seq [.var ⟨0, "x"⟩]) := by
  have inside : knot.get? ⟨0, "x"⟩ = some (.seq [.var ⟨0, "x"⟩]) := rfl
  have circle : knot.Depends 0 0 := depends_of_get? inside (.seq List.mem_cons_self (.var rfl))
  obtain ⟨walkable, -⟩ := walks_come_to_an_end knot made_knot
  exact ⟨made_knot, ⟨0, .single circle⟩, walkable, rfl⟩

end RelationalSearch.Subst

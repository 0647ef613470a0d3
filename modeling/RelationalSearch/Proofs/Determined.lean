import RelationalSearch.Proofs.Resolution
import RelationalSearch.Proofs.Scoping

/-!
Terms whose value is determined. Values without variables are terms and expressions themselves.
A term that every solution of a substitution gives the same value is resolved to that value, as
long as there is a solution at all: what is left in a result is free and could stand for anything.
So it also walks to something of the form of its value, and clashes with what has another form.
-/
namespace RelationalSearch

namespace Ground

mutual

def term : Ground → Term
  | .atom a => .atom a
  | .seq gs => .seq (terms gs)

def terms : List Ground → List Term
  | [] => []
  | g :: gs => term g :: terms gs

end

mutual

def expr : Ground → Expr
  | .atom a => .atom a
  | .seq gs => .seq (exprs gs)

def exprs : List Ground → List Expr
  | [] => []
  | g :: gs => expr g :: exprs gs

end

mutual

@[simp]
theorem value_term (θ : Valuation) : ∀ g : Ground, g.term.value θ = g
  | .atom _ => rfl
  | .seq gs => by rw [term, Term.value, values_terms θ gs]

theorem values_terms (θ : Valuation) : ∀ gs : List Ground, Term.values θ (terms gs) = gs
  | [] => rfl
  | g :: gs => by rw [terms, Term.values, value_term θ g, values_terms θ gs]

end

mutual

theorem eval_expr (scope : Scope) : ∀ g : Ground, g.expr.eval scope = some g.term
  | .atom _ => rfl
  | .seq gs => by rw [expr, Expr.eval, evalAll_exprs scope gs, term, Option.map_some]

theorem evalAll_exprs (scope : Scope) :
    ∀ gs : List Ground, Expr.evalAll scope (exprs gs) = some (terms gs)
  | [] => rfl
  | g :: gs => by rw [exprs, Expr.evalAll, eval_expr scope g, evalAll_exprs scope gs, terms]

end

theorem below_term (bound : Nat) (g : Ground) : g.term.Below bound :=
  Expr.eval_below (Scope.below_nil bound) g.expr g.term (eval_expr [] g)

end Ground

theorem Term.eq_terms_of_values {ts : List Term} {gs : List Ground}
    (each : ∀ t ∈ ts, ∀ g, (∀ θ, t.value θ = g) → t = g.term)
    (determined : ∀ θ, values θ ts = gs) : ts = Ground.terms gs := by
  induction ts generalizing gs with
  | nil =>
    cases determined fun _ => .atom .unit
    rfl
  | cons t ts ih =>
    cases gs with
    | nil => cases determined fun _ => .atom .unit
    | cons g gs =>
      have first := each t List.mem_cons_self g fun θ => (List.cons.inj (determined θ)).1
      have others := ih (fun t member => each t (List.mem_cons_of_mem _ member))
        fun θ => (List.cons.inj (determined θ)).2
      rw [first, others, Ground.terms]

theorem Term.eq_term_of_value {t : Term} {g : Ground} (determined : ∀ θ, t.value θ = g) :
    t = g.term := by
  induction t using items_induction generalizing g with
  | var x =>
    have unit := determined fun _ => .atom .unit
    have nothing := determined fun _ => .seq []
    cases unit.trans nothing.symm
  | atom a =>
    cases determined fun _ => .atom .unit
    rfl
  | seq ts ih =>
    cases g with
    | atom a => cases determined fun _ => .atom .unit
    | seq gs =>
      have items : ts = Ground.terms gs :=
        eq_terms_of_values (fun t member g => ih t member) fun θ => Ground.seq.inj (determined θ)
      rw [items, Ground.term]

namespace Subst

variable {s : Subst} {t u v a b : Term} {g : Ground}

def Determines (s : Subst) (t : Term) (g : Ground) : Prop :=
  ∀ θ, Solves θ s → t.value θ = g

theorem resolve_of_determines (acyclic : ¬ s.Circular) (determines : s.Determines t g) :
    s.resolve t = some g.term := by
  obtain ⟨r, resolved⟩ := resolve_isSome acyclic t
  have only (θ : Valuation) : r.value θ = g := by
    obtain ⟨θ', solves, chosen⟩ := exists_solution_of_results acyclic θ
    exact (chosen t r resolved).trans (determines θ' solves)
  rw [resolved, Term.eq_term_of_value only]

theorem walk_of_determines_atom {c : Atom} (acyclic : ¬ s.Circular)
    (determines : s.Determines t (.atom c)) : s.walk t = some (.atom c) := by
  have resolved := resolve_of_determines acyclic determines
  obtain ⟨u, walked⟩ := walk_isSome (noLoops_of_not_circular acyclic) t
  cases u with
  | var x => cases (resolve_other walked nofun).symm.trans resolved
  | atom d =>
    cases (resolve_other walked nofun).symm.trans resolved
    exact walked
  | seq ts =>
    obtain ⟨rs, same⟩ := resolve_seq walked resolved
    cases same

theorem walk_of_determines_seq {gs : List Ground} (acyclic : ¬ s.Circular)
    (determines : s.Determines t (.seq gs)) : ∃ ts, s.walk t = some (.seq ts) := by
  have resolved := resolve_of_determines acyclic determines
  obtain ⟨u, walked⟩ := walk_isSome (noLoops_of_not_circular acyclic) t
  cases u with
  | var x => cases (resolve_other walked nofun).symm.trans resolved
  | atom d => cases (resolve_other walked nofun).symm.trans resolved
  | seq ts => exact ⟨ts, walked⟩

theorem unify_of_walked (left : s.walk u = some a) (right : s.walk v = some b)
    (clash : decision a b = .clash) : s.unify u v = .clash := by
  have first : unifyWithin shallow u v s = .clash := by
    rw [shallow, unifyWithin_walked 4095 left right, clash, Decision.outcome]
  rw [unify, first]

theorem unify_seq_atom {us : List Term} {c : Atom} (acyclic : ¬ s.Circular)
    (determines : s.Determines t (.atom c)) : s.unify (.seq us) t = .clash :=
  unify_of_walked (walkWithin_of_follow_none rfl s.size)
    (walk_of_determines_atom acyclic determines) rfl

theorem unify_determined_atom {gs : List Ground} {c : Atom} (acyclic : ¬ s.Circular)
    (determines : s.Determines t (.seq gs)) : s.unify t (.atom c) = .clash := by
  obtain ⟨ts, walked⟩ := walk_of_determines_seq acyclic determines
  exact unify_of_walked walked (walkWithin_of_follow_none rfl s.size) rfl

end Subst

end RelationalSearch

import RelationalSearch.Proofs.Reading
import RelationalSearch.Proofs.Scoping
import RelationalSearch.Proofs.Unifications

/-!
Completeness. If a valuation solves a substitution and makes a goal hold, a search for the goal
delivers an answer that the valuation solves too, once the variables that were handed out on
the way have the values that the goal asks for. Equations that hold are solved by unification,
new variables have numbers that nothing mentions yet, and fairness does the rest.

The search must not be lost on its way, in whatever branch. So no unification may bind a variable
to a term that holds it, and of the substitution it is asked that no variable is bound to itself
through other variables; any other circle has no solution. Two variables bound to each other have
one, but a walk from them does not return, and nothing is ever delivered for an equation on them.
-/
namespace RelationalSearch

open Subst Program

namespace Valuation

def assign (θ : Valuation) : Nat → List Ground → Valuation
  | _, [] => θ
  | next, g :: gs => assign (Function.update θ next g) (next + 1) gs

theorem assign_below (θ : Valuation) (next : Nat) (gs : List Ground) :
    ∀ id < next, θ.assign next gs id = θ id := by
  induction gs generalizing θ next with
  | nil => exact fun _ _ => rfl
  | cons g gs ih =>
    intro id small
    rw [assign, ih _ (next + 1) id (by omega), Function.update_of_ne (by omega)]

theorem assign_freshAll (θ : Valuation) (s : Subst) {names : List String} {gs : List Ground}
    (count : gs.length = names.length) :
    (s.freshAll names).1.map (fun x => θ.assign s.nextId gs x.id) = gs := by
  induction names generalizing θ s gs with
  | nil => exact (List.length_eq_zero_iff.mp count).symm
  | cons name names ih =>
    cases gs with
    | nil => cases count
    | cons g gs =>
      have first : θ.assign s.nextId (g :: gs) s.nextId = g := by
        rw [assign, assign_below _ _ _ _ (Nat.lt_succ_self _), Function.update_self]
      have rest := ih (Function.update θ s.nextId g) (s.fresh name).2 (Nat.succ.inj count)
      exact congrArg₂ List.cons first rest

end Valuation

theorem read_scope_congr {θ θ' : Valuation} {bound : Nat} {scope : Scope}
    (below : scope.Below bound) (same : ∀ id < bound, θ id = θ' id) :
    scope.read θ = scope.read θ' := by
  apply List.map_congr_left
  intro entry member
  rw [Term.read_congr fun id mentions => same id (below entry member id mentions)]

variable {p : Program} {g : Goal} {env : Env} {scope : Scope} {s : Subst} {θ : Valuation}

/-- The goal has an answer from the substitution that the valuation, changed only in numbers
    that were not handed out before, still solves. -/
def HasSolution (p : Program) (g : Goal) (scope : Scope) (s : Subst) (θ : Valuation) : Prop :=
  ∃ s' θ', Solution p g scope s s' ∧ (∀ id < s.nextId, θ' id = θ id) ∧ Solves θ' s'

theorem HasSolution.imp {h : Goal} {inner : Scope}
    (lift : ∀ s', Solution p g inner s s' → Solution p h scope s s')
    (has : HasSolution p g inner s θ) : HasSolution p h scope s θ := by
  obtain ⟨s', θ', solution, agree, solves⟩ := has
  exact ⟨s', θ', lift s' solution, agree, solves⟩

theorem hasSolution_conj {h : Goal} {s' : Subst} {θ' : Valuation}
    (first : Solution p g scope s s') (more : s.nextId ≤ s'.nextId)
    (agree : ∀ id < s.nextId, θ' id = θ id) (second : HasSolution p h scope s' θ') :
    HasSolution p (.conj g h) scope s θ := by
  obtain ⟨last, final, solution, later, solves⟩ := second
  refine ⟨last, final, .conj first solution, ?_, solves⟩
  intro id small
  rw [later id (Nat.lt_of_lt_of_le small more), agree id small]

theorem hasSolution_fresh {names : List String} {body : Goal} {θ' : Valuation}
    (agree : ∀ id < s.nextId, θ' id = θ id)
    (inside : HasSolution p body (scope.defineAll names ((s.freshAll names).1.map .var))
      (s.freshAll names).2 θ') : HasSolution p (.fresh names body) scope s θ := by
  obtain ⟨s', final, solution, later, solves⟩ := inside
  refine ⟨s', final, .fresh solution, ?_, solves⟩
  intro id small
  rw [later id (by rw [nextId_freshAll]; omega), agree id small]

theorem hasSolution_eq {u v : Expr} {a b : Term} (left : u.eval scope = some a)
    (right : v.eval scope = some b) (noLoops : s.NoLoops) (solves : Solves θ s)
    (equal : a.value θ = b.value θ) : HasSolution p (.eq u v) scope s θ := by
  obtain ⟨s', solved, after⟩ := unify_solved noLoops solves equal
  exact ⟨s', θ, .eq left right solved, fun _ _ => rfl, after⟩

theorem hasSolution_of_holds (holds : Holds p g env) (read : env = scope.read θ)
    (below : scope.Below s.nextId) (inScope : s.Scoped) (noLoops : s.NoLoops)
    (solves : Solves θ s) : HasSolution p g scope s θ := by
  -- The induction is on why the goal holds; the valuation grows with the numbers handed out.
  induction holds generalizing scope s θ with
  | succeed => exact ⟨s, θ, .succeed scope s, fun _ _ => rfl, solves⟩
  | always => exact ⟨s, θ, .always scope s, fun _ _ => rfl, solves⟩
  | @eq env u v a b left right equal =>
    subst read
    rw [Expr.evalRead_read, Option.map_eq_some_iff] at left right
    obtain ⟨first, left, rfl⟩ := left
    obtain ⟨second, right, rfl⟩ := right
    rw [Term.value_read, Term.value_read] at equal
    exact hasSolution_eq left right noLoops solves equal
  | conj first second ihFirst ihSecond =>
    obtain ⟨m, between, solution, agree, solvesBetween⟩ := ihFirst read below inScope noLoops solves
    obtain ⟨after, more⟩ := scoped_of_solution solution below inScope
    have readBetween := read.trans (read_scope_congr below fun id small => (agree id small).symm)
    have rest := ihSecond readBetween (Scope.below_mono more below) after
      (noLoops_of_solution solution noLoops) solvesBetween
    exact hasSolution_conj solution more agree rest
  | disj_left h holds ih =>
    exact (ih read below inScope noLoops solves).imp fun _ => .disj_left h
  | disj_right g holds ih =>
    exact (ih read below inScope noLoops solves).imp fun _ => .disj_right g
  | @fresh env names body values count holds ih =>
    have agree := Valuation.assign_below θ s.nextId values
    have readInside : Env.defineAll env names (values.map .var) =
        (scope.defineAll names ((s.freshAll names).1.map .var)).read
          (θ.assign s.nextId values) := by
      rw [Scope.read_defineVars, Valuation.assign_freshAll θ s count, read,
        read_scope_congr below fun id small => (agree id small).symm]
    have solvesInside := solves_congr inScope (fun id small => (agree id small).symm) solves
    exact hasSolution_fresh agree (ih readInside (scope_freshAll below names)
      (scoped_freshAll inScope names) (noLoops_freshAll noLoops names)
      ((solves_freshAll_iff names).mpr solvesInside))
  | defer holds ih => exact (ih read below inScope noLoops solves).imp fun _ => .defer
  | @call env name args rs r arguments known holds ih =>
    subst read
    rw [Expr.evalReadAll_read, Option.map_eq_some_iff] at arguments
    obtain ⟨ts, arguments, rfl⟩ := arguments
    have inside : Scope.Below s.nextId (Scope.defineAll [] r.params ts) :=
      Scope.below_defineAll (Scope.below_nil _) _ (Expr.evalAll_below below args ts arguments)
    exact (ih (Scope.read_defineAll θ [] r.params ts).symm inside inScope noLoops solves).imp
      fun _ => .call arguments known
  | if_zero h value holds ih =>
    subst read
    rw [Expr.evalRead_read, Option.map_eq_some_iff] at value
    obtain ⟨t, value, zero⟩ := value
    cases (Term.read_eq_atom_iff _ t _).mp zero
    exact (ih rfl below inScope noLoops solves).imp fun _ => .if_zero h value
  | if_other g value other holds ih =>
    subst read
    rw [Expr.evalRead_read, Option.map_eq_some_iff] at value
    obtain ⟨t, value, rfl⟩ := value
    have different : t ≠ .atom (.int 0) := fun zero =>
      other ((Term.read_eq_atom_iff _ t _).mpr zero)
    exact (ih rfl below inScope noLoops solves).imp fun _ => .if_other g value different
  | copies some => exact ⟨s, θ, .copies scope s some, fun _ _ => rfl, solves⟩

/-- For a goal that holds, the search delivers an answer that the valuation solves, but for
    variables that were not handed out before. -/
theorem holding_goals_are_delivered (p : Program) (guarded : p.Guarded) (g : Goal)
    (scope : Scope) (s : Subst) (below : scope.Below s.nextId) (inScope : s.Scoped)
    (noLoops : s.NoLoops) (noCircle : p.BindsNoCircle g scope s) (θ : Valuation)
    (solves : Solves θ s) (holds : Holds p g (scope.read θ)) :
    ∃ k s' θ', (Search.ofAnswers (p.solve g scope s) .unbounded).Delivers p.force k s' ∧
      (∀ id < s.nextId, θ' id = θ id) ∧ Solves θ' s' := by
  obtain ⟨s', θ', solution, agree, solved⟩ :=
    hasSolution_of_holds holds rfl below inScope noLoops solves
  have acyclic := not_circular_of_solves noLoops solves
  have decides := Program.decides_of_bindsNoCircle acyclic noCircle
  obtain ⟨k, delivers⟩ := p.delivers_of_solution guarded decides solution
  exact ⟨k, s', θ', delivers, agree, solved⟩

theorem peano_one_is_delivered :
    let start := (Subst.empty.fresh "n").2
    let scope := [("n", .var ⟨0, "n"⟩)]
    let one : Valuation := fun _ => .seq [.atom (.str "s"), .atom (.str "z")]
    ∃ k s' θ', (Search.ofAnswers (Program.peano.solve (.call "peano" [.ref "n"]) scope start)
        .unbounded).Delivers Program.peano.force k s' ∧
      (∀ id < start.nextId, θ' id = one id) ∧ Solves θ' s' := by
  intro start scope one
  have free (x : Var) : start.get? x = none := get?_empty x
  have below : Scope.Below start.nextId scope :=
    Scope.below_define (Scope.below_nil _) "n" (Term.below_var Nat.one_pos)
  have inScope : start.Scoped := by
    intro x t bound
    rw [free] at bound
    cases bound
  have solves : Solves one start := by
    intro x t bound
    rw [free] at bound
    cases bound
  have holds : Holds Program.peano (.call "peano" [.ref "n"]) (Scope.read one scope) :=
    .call rfl rfl (.disj_right _ (.fresh [.atom (.str "z")] rfl (.conj (.eq rfl rfl rfl)
      (.defer (.call rfl rfl (.disj_left _ (.eq rfl rfl rfl)))))))
  exact holding_goals_are_delivered Program.peano Program.peano_guarded _ scope start below
    inScope (noLoops_freshAll noLoops_empty ["n"]) Program.peano_binds_no_circle one solves holds

namespace Subst

theorem get?_tangle {x : Var} {t : Term} (bound : tangle.get? x = some t) :
    x.id < 2 ∧ ∃ y : Var, t = .var y ∧ y.id < 2 := by
  obtain ⟨m, first, second⟩ := extend_extend_tangle
  rw [get?_extend second, get?_extend first, get?_fresh, get?_fresh, get?_empty] at bound
  split at bound
  · next same =>
    cases bound
    exact ⟨same ▸ Nat.one_lt_two, _, rfl, Nat.two_pos⟩
  · split at bound
    · next same =>
      cases bound
      exact ⟨same ▸ Nat.two_pos, _, rfl, Nat.one_lt_two⟩
    · cases bound

end Subst

def asksOne : Goal := .eq (.ref "x") (.atom (.int 1))

/-- No answer is ever delivered for an equation on one of the two variables, although the goal holds
    for a valuation that solves the substitution, and no unification binds anything. -/
theorem tangled_answer_is_not_delivered :
    let one : Valuation := fun _ => .atom (.int 1)
    bare.Guarded ∧ justX.Below tangle.nextId ∧ tangle.Scoped ∧
      bare.BindsNoCircle asksOne justX tangle ∧ Solves one tangle ∧
      Holds bare asksOne (justX.read one) ∧
      ∀ k s', ¬ (Search.ofAnswers (bare.solve asksOne justX tangle) .unbounded).Delivers
        bare.force k s' := by
  intro one
  refine ⟨bare_guarded, ?_, ?_, ?_, ?_, ?_, ?_⟩
  · exact Scope.below_define (Scope.below_nil _) "x" (Term.below_var Nat.two_pos)
  · intro x t bound
    obtain ⟨small, y, rfl, inside⟩ := get?_tangle bound
    exact ⟨small, Term.below_var inside⟩
  · intro m a b unifies
    cases unifies with
    | eq left right =>
      cases left
      exact not_checks_tangle b _
  · intro x t bound
    obtain ⟨-, y, rfl, -⟩ := get?_tangle bound
    rfl
  · exact .eq rfl rfl rfl
  · intro k s' delivers
    cases Program.occurrence_iff_solution.mp (Search.occurrence_of_delivers delivers) with
    | eq left right solved =>
      cases left
      cases (unify_tangle _).symm.trans solved

end RelationalSearch

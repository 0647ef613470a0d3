import RelationalSearch.Program
import RelationalSearch.Proofs.Fairness

/-!
The answers of a goal without any stream. One relation says which substitutions a goal leads to
from a given one; it has a rule for each way in which a goal can have an answer, and suspensions
play no part in it. The occurrences of answers in the stream of a goal are exactly its
derivations, wherever calls are put off.
-/
namespace RelationalSearch

open Answers

theorem Term.beq_atom_iff (t : Term) (a : Atom) : (t == .atom a) = true ↔ t = .atom a := by
  cases t with
  | var x => constructor <;> intro same <;> cases same
  | atom b =>
    rw [Term.atom.injEq]
    exact beq_iff_eq (a := b) (b := a)
  | seq ts => constructor <;> intro same <;> cases same

/-- The goal, in the scope, leads from the first substitution to the second. -/
inductive Solution (p : Program) : Goal → Scope → Subst → Subst → Prop where
  | succeed (scope : Scope) (s : Subst) : Solution p .succeed scope s s
  | always (scope : Scope) (s : Subst) : Solution p .always scope s s
  | eq {scope : Scope} {u v : Expr} {a b : Term} {s s' : Subst} (left : u.eval scope = some a)
      (right : v.eval scope = some b) (solved : s.unify a b = .solved s') :
      Solution p (.eq u v) scope s s'
  | conj {scope : Scope} {g h : Goal} {s m s' : Subst} (first : Solution p g scope s m)
      (second : Solution p h scope m s') : Solution p (.conj g h) scope s s'
  | disj_left {scope : Scope} {g : Goal} (h : Goal) {s s' : Subst}
      (inside : Solution p g scope s s') : Solution p (.disj g h) scope s s'
  | disj_right {scope : Scope} (g : Goal) {h : Goal} {s s' : Subst}
      (inside : Solution p h scope s s') : Solution p (.disj g h) scope s s'
  | fresh {scope : Scope} {names : List String} {body : Goal} {s s' : Subst}
      (inside : Solution p body (scope.defineAll names ((s.freshAll names).1.map .var))
        (s.freshAll names).2 s') : Solution p (.fresh names body) scope s s'
  | defer {scope : Scope} {body : Goal} {s s' : Subst} (inside : Solution p body scope s s') :
      Solution p (.defer body) scope s s'
  | call {scope : Scope} {name : String} {args : List Expr} {ts : List Term} {r : Relation}
      {s s' : Subst} (arguments : Expr.evalAll scope args = some ts)
      (known : p.relations.lookup name = some r)
      (inside : Solution p r.body (Scope.defineAll [] r.params ts) s s') :
      Solution p (.call name args) scope s s'
  | if_zero {scope : Scope} {e : Expr} {g : Goal} (h : Goal) {s s' : Subst}
      (value : e.eval scope = some (.atom (.int 0))) (inside : Solution p g scope s s') :
      Solution p (.ifZero e g h) scope s s'
  | if_other {scope : Scope} {e : Expr} (g : Goal) {h : Goal} {t : Term} {s s' : Subst}
      (value : e.eval scope = some t) (other : t ≠ .atom (.int 0))
      (inside : Solution p h scope s s') : Solution p (.ifZero e g h) scope s s'
  | copies {n : Nat} (scope : Scope) (s : Subst) (some : 0 < n) :
      Solution p (.copies n) scope s s

namespace Program

variable {p : Program} {g : Goal} {scope : Scope} {s s' : Subst}

theorem invoke_known {name : String} {r : Relation} (known : p.relations.lookup name = some r)
    (depth : Nat) (ts : List Term) (s : Subst) :
    p.invoke (depth + 1) name ts s =
      r.body.start (p.invoke depth) (Scope.defineAll [] r.params ts) s := by
  simp only [invoke, known]

theorem invoke_unknown {name : String} (unknown : p.relations.lookup name = none)
    (depth : Nat) (ts : List Term) (s : Subst) :
    p.invoke (depth + 1) name ts s = .empty := by
  simp only [invoke, unknown]

theorem occurrence_of_solution (solution : Solution p g scope s s') (depth : Nat) :
    Nonempty (Occurrence p.force (g.start (p.invoke depth) scope s) s') := by
  induction solution generalizing depth with
  | succeed scope s => exact ⟨.head s .empty⟩
  | always scope s => exact ⟨.forced _ (.head s _)⟩
  | eq left right solved =>
    rw [Goal.start, left, right]
    simp only [Goal.startEq, solved]
    exact ⟨.head _ .empty⟩
  | conj first second ihFirst ihSecond =>
    obtain ⟨source⟩ := ihFirst depth
    obtain ⟨result⟩ := ihSecond p.callDepth
    exact occurrence_feed source result
  | disj_left h inside ih =>
    obtain ⟨left⟩ := ih depth
    exact occurrence_merge_left _ left
  | disj_right g inside ih =>
    obtain ⟨right⟩ := ih depth
    exact occurrence_merge_right _ right
  | fresh inside ih => exact ih depth
  | defer inside ih =>
    obtain ⟨body⟩ := ih p.callDepth
    exact ⟨.forced _ body⟩
  | call arguments known inside ih =>
    rw [Goal.start, arguments]
    cases depth with
    | zero =>
      obtain ⟨body⟩ := ih p.callDepth
      rw [← invoke_known known] at body
      exact ⟨.forced _ body⟩
    | succ depth =>
      obtain ⟨body⟩ := ih depth
      rw [← invoke_known known] at body
      exact ⟨body⟩
  | if_zero h value inside ih =>
    rw [Goal.start, value]
    exact ih depth
  | @if_other scope e g h t s s' value other inside ih =>
    rw [Goal.start, value]
    have choice : ¬ (t == .atom (.int 0)) = true := fun same =>
      other ((Term.beq_atom_iff t _).mp same)
    simp only [choice]
    exact ih depth
  | copies scope s some =>
    exact occurrence_ofList (List.mem_replicate.mpr ⟨Nat.ne_of_gt some, rfl⟩)

/-- Goals that have been put off are reached by shorter paths. -/
def SolvedBelow (p : Program) (bound : Nat) : Prop :=
  ∀ less < bound, ∀ g scope s s', Within p.force less (p.solve g scope s) s' →
    Solution p g scope s s'

def CallsSolved (p : Program) (depth bound : Nat) : Prop :=
  ∀ name ts s s', Within p.force bound (p.invoke depth name ts s) s' →
    ∃ r, p.relations.lookup name = some r ∧
      Solution p r.body (Scope.defineAll [] r.params ts) s s'

theorem solution_of_suspended {bound : Nat} (below : SolvedBelow p bound)
    (within : Within p.force bound (.suspended (.goal scope g s)) s') :
    Solution p g scope s s' := by
  obtain ⟨less, smaller, later⟩ := within_suspended within
  exact below less smaller g scope s s' later

theorem not_within_endless (bound : Nat) (s s' : Subst) :
    ¬ Within p.force bound (Goal.endless s) s' := by
  -- A path to an answer would go on with a shorter one for ever.
  induction bound using Nat.strongRecOn generalizing s with
  | ind bound ih =>
    intro within
    obtain ⟨m, -, less, smaller, again⟩ := within_feeding within
    exact ih less smaller m again

theorem solved_of_startEq {a b : Term} {bound : Nat}
    (within : Within p.force bound (Goal.startEq a b s) s') : s.unify a b = .solved s' := by
  unfold Goal.startEq at within
  cases result : s.unify a b with
  | solved m =>
    rw [result] at within
    rw [eq_of_within_single within]
  | clash =>
    rw [result] at within
    exact absurd within (not_within_empty bound s')
  | endless =>
    rw [result] at within
    exact absurd within (not_within_endless bound s s')

theorem solution_of_start {depth bound : Nat} (below : SolvedBelow p bound)
    (calls : CallsSolved p depth bound)
    (within : Within p.force bound (g.start (p.invoke depth) scope s) s') :
    Solution p g scope s s' := by
  induction g generalizing scope s s' with
  | succeed =>
    cases eq_of_within_single within
    exact .succeed scope _
  | fail => exact absurd within (not_within_empty bound s')
  | always =>
    cases solution_of_suspended below within with
    | disj_left _ inside =>
      cases inside
      exact .always scope s
    | disj_right _ inside => exact inside
  | never => cases solution_of_suspended below within
  | eq u v =>
    rw [Goal.start] at within
    cases left : u.eval scope with
    | none =>
      rw [left] at within
      exact absurd within (not_within_empty bound s')
    | some a =>
      cases right : v.eval scope with
      | none =>
        rw [left, right] at within
        exact absurd within (not_within_empty bound s')
      | some b =>
        rw [left, right] at within
        exact .eq left right (solved_of_startEq within)
  | conj g h ihg ihh =>
    obtain ⟨m, source, less, smaller, result⟩ := within_feed within
    exact .conj (ihg source) (below less smaller h scope m s' result)
  | disj g h ihg ihh =>
    rcases within_merge within with left | right
    · exact .disj_left h (ihg left)
    · exact .disj_right g (ihh right)
  | fresh names body ih => exact .fresh (ih within)
  | defer body ih => exact .defer (solution_of_suspended below within)
  | call name args =>
    rw [Goal.start] at within
    cases arguments : Expr.evalAll scope args with
    | none =>
      rw [arguments] at within
      exact absurd within (not_within_empty bound s')
    | some ts =>
      rw [arguments] at within
      obtain ⟨r, known, inside⟩ := calls name ts s s' within
      exact .call arguments known inside
  | ifZero e g h ihg ihh =>
    rw [Goal.start] at within
    cases value : e.eval scope with
    | none =>
      rw [value] at within
      exact absurd within (not_within_empty bound s')
    | some t =>
      rw [value] at within
      by_cases zero : (t == .atom (.int 0)) = true
      · simp only [zero, if_true] at within
        rw [Term.beq_atom_iff] at zero
        exact .if_zero h (zero ▸ value) (ihg within)
      · simp only [zero, Bool.false_eq_true, if_false] at within
        rw [Term.beq_atom_iff] at zero
        exact .if_other g value zero (ihh within)
  | copies n =>
    obtain ⟨some, rfl⟩ := List.mem_replicate.mp (mem_of_within_ofList within)
    exact .copies scope s' (Nat.pos_of_ne_zero some)

theorem callsSolved {bound : Nat} (below : SolvedBelow p bound) (depth : Nat) :
    CallsSolved p depth bound := by
  induction depth with
  | zero =>
    intro name ts s s' within
    obtain ⟨less, smaller, later⟩ := within_suspended within
    change Within p.force less (p.invoke (p.callDepth + 1) name ts s) s' at later
    cases known : p.relations.lookup name with
    | none =>
      rw [invoke_unknown known] at later
      exact absurd later (not_within_empty less s')
    | some r =>
      rw [invoke_known known] at later
      exact ⟨r, rfl, below less smaller _ _ _ _ later⟩
  | succ depth ih =>
    intro name ts s s' within
    cases known : p.relations.lookup name with
    | none =>
      rw [invoke_unknown known] at within
      exact absurd within (not_within_empty bound s')
    | some r =>
      rw [invoke_known known] at within
      exact ⟨r, rfl, solution_of_start below ih within⟩

theorem solvedBelow (p : Program) (bound : Nat) : SolvedBelow p bound := by
  induction bound with
  | zero => exact fun less smaller => absurd smaller (Nat.not_lt_zero less)
  | succ bound ih =>
    intro less smaller g scope s s' within
    obtain ⟨o, le⟩ := within
    exact solution_of_start ih (callsSolved ih p.callDepth) ⟨o, Nat.le_trans le (by omega)⟩

theorem solution_of_occurrence {depth : Nat}
    (occurs : Nonempty (Occurrence p.force (g.start (p.invoke depth) scope s) s')) :
    Solution p g scope s s' := by
  obtain ⟨o⟩ := occurs
  have below := solvedBelow p o.rank
  exact solution_of_start below (callsSolved below depth) ⟨o, Nat.le_refl _⟩

/-- The occurrences in the stream of a goal are its derivations. -/
theorem occurrence_iff_solution :
    Nonempty (Occurrence p.force (p.solve g scope s) s') ↔ Solution p g scope s s' :=
  ⟨solution_of_occurrence, fun solution => occurrence_of_solution solution p.callDepth⟩

end Program

end RelationalSearch

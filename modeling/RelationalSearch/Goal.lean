import RelationalSearch.Expr
import RelationalSearch.Unification
import RelationalSearch.Answers

/-!
Goals. A goal turns a substitution into the stream of its extensions that satisfy it.
Goals are written down as data: equations, conjunction and disjunction, fresh variables,
and calls of named relations. What lies under a deferral is started only when a search
forces it; a suspended computation is therefore a goal, the scope it stands in, and the
substitution it was given.
-/
namespace RelationalSearch

inductive Goal where
  | succeed
  | fail
  /-- Succeeds again and again and binds nothing. -/
  | always
  /-- Has no answer and no end. -/
  | never
  | eq (u v : Expr)
  | conj (g h : Goal)
  | disj (g h : Goal)
  /-- New variables, which the body knows by their names. -/
  | fresh (names : List String) (body : Goal)
  | defer (body : Goal)
  | call (name : String) (args : List Expr)
  /-- A choice by the value of an expression, without any substitution. -/
  | ifZero (e : Expr) (g h : Goal)
  /-- The substitution itself, so many times. -/
  | copies (n : Nat)

inductive Pending where
  | goal (scope : Scope) (g : Goal) (s : Subst)
  | call (name : String) (args : List Term) (s : Subst)
  /-- A computation that does not return. -/
  | endless (s : Subst)

abbrev Solutions := Answers Pending Subst

abbrev Invoke := String → List Term → Subst → Solutions

namespace Goal

def conjAll : List Goal → Goal
  | [] => .succeed
  | [g] => g
  | g :: more => .conj g (conjAll more)

def disjAll : List Goal → Goal
  | [] => .fail
  | [g] => g
  | g :: more => .disj g (disjAll more)

/-- What is looked at in place of a computation that does not return. It never shows anything: the
    answer goes through a function that gives the same again, and nothing is there to be forced, so
    a search that comes to it turns for ever under any step limit. -/
def endless (s : Subst) : Solutions :=
  .feeding (.single s) fun s => .inr (.endless s)

/-- There is no way on from an equation whose unification does not return. -/
def startEq (u v : Term) (s : Subst) : Solutions :=
  match s.unify u v with
  | .solved s => .single s
  | .clash => .empty
  | .endless => endless s

/-- Expressions without a value satisfy nothing. -/
def start (invoke : Invoke) : Goal → Scope → Subst → Solutions
  | .succeed, _, s => .single s
  | .fail, _, _ => .empty
  | .always, scope, s => .suspended (.goal scope (.disj .succeed .always) s)
  | .never, scope, s => .suspended (.goal scope .never s)
  | .eq u v, scope, s =>
    match u.eval scope, v.eval scope with
    | some u, some v => startEq u v s
    | _, _ => .empty
  | .conj g h, scope, s => (start invoke g scope s).feed fun s => .inr (.goal scope h s)
  | .disj g h, scope, s => (start invoke g scope s).merge (start invoke h scope s)
  | .fresh names body, scope, s =>
    let (xs, s) := s.freshAll names
    start invoke body (scope.defineAll names (xs.map .var)) s
  | .defer body, scope, s => .suspended (.goal scope body s)
  | .call name args, scope, s =>
    match Expr.evalAll scope args with
    | some ts => invoke name ts s
    | none => .empty
  | .ifZero e g h, scope, s =>
    match e.eval scope with
    | some t => if t == .atom (.int 0) then start invoke g scope s else start invoke h scope s
    | none => .empty
  | .copies n, _, s => .ofList (List.replicate n s)

def render (_ : Goal) : String := "Goal(..)"

theorem conjAll_cons_cons (g h : Goal) (more : List Goal) :
    conjAll (g :: h :: more) = .conj g (conjAll (h :: more)) := rfl

theorem disjAll_cons_cons (g h : Goal) (more : List Goal) :
    disjAll (g :: h :: more) = .disj g (disjAll (h :: more)) := rfl

end Goal

end RelationalSearch

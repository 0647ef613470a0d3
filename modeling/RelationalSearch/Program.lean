import RelationalSearch.Goal
import RelationalSearch.Search.Collect

/-!
Programs: named relations, which goals call. A call is started at once, in a scope that
holds nothing but the parameters. A relation that calls itself without deferring the call
would never be done starting, so calls that are nested deeper than the program allows are
put off until a search forces them.
-/
namespace RelationalSearch

structure Relation where
  params : List String
  body : Goal

structure Program where
  relations : List (String × Relation)
  /-- How deep calls may be nested before they are put off. -/
  callDepth : Nat := 4294967296

namespace Program

/-- Calls of a relation that the program does not have satisfy nothing. -/
def invoke (p : Program) : Nat → Invoke
  | 0 => fun name args s => .suspended (.call name args s)
  | depth + 1 => fun name args s =>
    match p.relations.lookup name with
    | some r => r.body.start (p.invoke depth) (Scope.defineAll [] r.params args) s
    | none => .empty

def solve (p : Program) (g : Goal) (scope : Scope) (s : Subst) : Solutions :=
  g.start (p.invoke p.callDepth) scope s

def force (p : Program) : Pending → Solutions
  | .goal scope g s => p.solve g scope s
  | .call name args s => p.invoke (p.callDepth + 1) name args s
  | .endless s => Goal.endless s

def search (p : Program) (g : Goal) (scope : Scope) (config : SearchConfig) :
    Search Pending Subst :=
  .ofAnswers (p.solve g scope .empty) config

def run (p : Program) (turns count : Nat) (g : Goal) (scope : Scope) : List Subst :=
  (Search.take p.force turns count (p.search g scope .unbounded)).1

def runAll (p : Program) (turns : Nat) (g : Goal) (scope : Scope) : List Subst :=
  (Search.collect p.force turns (p.search g scope .unbounded)).1

def querySearch (p : Program) (name : String) (g : Goal) : Var × Search Pending Subst :=
  let (x, s) := Subst.empty.fresh name
  (x, .ofAnswers (p.solve g (Scope.define [] name (.var x)) s) .unbounded)

/-- What the variable stands for in each of the first solutions. There is nothing to show
    for a solution that binds in a circle. -/
def query (p : Program) (turns count : Nat) (name : String) (g : Goal) : List (Option Term) :=
  let (x, d) := p.querySearch name g
  (d.take p.force turns count).1.map fun s => s.resolveVar x

def queryAll (p : Program) (turns : Nat) (name : String) (g : Goal) : List (Option Term) :=
  p.query turns turns name g

end Program

end RelationalSearch

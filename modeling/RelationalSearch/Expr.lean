import RelationalSearch.Term

/-!
Expressions for terms. A scope gives names to terms, the most recent name first, so a
later name hides an earlier one that is equal. An expression without a value, which
mentions a name that the scope does not hold or adds to something that is no integer,
evaluates to nothing.
-/
namespace RelationalSearch

abbrev Scope := List (String × Term)

namespace Scope

def define (scope : Scope) (name : String) (t : Term) : Scope :=
  (name, t) :: scope

def defineAll (scope : Scope) : List String → List Term → Scope
  | name :: names, t :: ts => (scope.define name t).defineAll names ts
  | _, _ => scope

end Scope

inductive Expr where
  | ref (name : String)
  | atom (a : Atom)
  | seq (items : List Expr)
  /-- An integer plus a constant, in words of 64 bits. -/
  | add (e : Expr) (k : Int64)

namespace Expr

mutual

def eval (scope : Scope) : Expr → Option Term
  | .ref name => scope.lookup name
  | .atom a => some (.atom a)
  | .seq es => (evalAll scope es).map .seq
  | .add e k =>
    match eval scope e with
    | some (.atom (.int i)) => some (.atom (.int (i + k)))
    | _ => none

def evalAll (scope : Scope) : List Expr → Option (List Term)
  | [] => some []
  | e :: es =>
    match eval scope e, evalAll scope es with
    | some t, some ts => some (t :: ts)
    | _, _ => none

end

def int (i : Int64) : Expr := .atom (.int i)

def cells (items : List Expr) (tail : Expr) : Expr :=
  items.foldr (fun head rest => .seq [head, rest]) tail

def list (items : List Expr) : Expr :=
  cells items (.atom .unit)

def peano : Nat → Expr
  | 0 => .atom (.str "z")
  | n + 1 => .seq [.atom (.str "s"), peano n]

def nest : Nat → Expr → Expr
  | 0, e => e
  | n + 1, e => nest n (.seq [e])

def range (first stop : Int64) : Expr :=
  .seq ((List.range (stop.toInt - first.toInt).toNat).map fun i => .int (first + .ofNat i))

def repeated (s : String) (n : Nat) : Expr :=
  .atom (.str (String.join (List.replicate n s)))

end Expr

end RelationalSearch

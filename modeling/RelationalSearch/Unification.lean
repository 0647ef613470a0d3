import RelationalSearch.Subst.Resolve

/-!
Unification. Both terms are walked; then equal variables agree, a free variable on the
left is bound, else a free variable on the right, sequences of one length are unified
from left to right, and equal atoms agree. A variable may be bound to a term that holds
it, so a later unification can run in a circle; that is an outcome of its own and not a
clash.
-/
namespace RelationalSearch

inductive Unification where
  | solved (s : Subst)
  | clash
  | endless

namespace Unification

def ofExtend : Except BindError Subst → Unification
  | .ok s => .solved s
  | .error _ => .clash

end Unification

namespace Subst

/-- Pairs solved one after the other, each under the bindings of those before it. -/
def unifyAllBy (solve : Term → Term → Subst → Unification) :
    List (Term × Term) → Subst → Unification
  | [], s => .solved s
  | (u, v) :: pairs, s =>
    match solve u v s with
    | .solved s => unifyAllBy solve pairs s
    | other => other

def unifyWithin : Nat → Term → Term → Subst → Unification
  | 0, _, _, _ => .endless
  | depth + 1, u, v, s =>
    match s.walk u, s.walk v with
    | some (.var x), some (.var y) =>
      if x == y then .solved s else .ofExtend (s.extend x (.var y))
    | some (.var x), some v => .ofExtend (s.extend x v)
    | some u, some (.var y) => .ofExtend (s.extend y u)
    | some (.seq us), some (.seq vs) =>
      if us.length = vs.length then unifyAllBy (unifyWithin depth) (us.zip vs) s else .clash
    | some (.atom a), some (.atom b) => if a = b then .solved s else .clash
    | some _, some _ => .clash
    | _, _ => .endless

/-- Nesting past which a unification repeats itself: on a path that is deeper, some pair
    of nodes comes up twice between two new bindings, and there are no more new bindings
    than nodes. -/
def unifyDepth (s : Subst) (u v : Term) : Nat :=
  let nodes := s.weight + u.size + v.size
  nodes * nodes * (nodes + 1) + 1

def unify (s : Subst) (u v : Term) : Unification :=
  match unifyWithin shallow u v s with
  | .endless => unifyWithin (s.unifyDepth u v) u v s
  | settled => settled

def unifyAll (s : Subst) (pairs : List (Term × Term)) : Unification :=
  unifyAllBy (fun u v s => s.unify u v) pairs s

end Subst

end RelationalSearch

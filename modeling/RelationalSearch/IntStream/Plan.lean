import RelationalSearch.Search.Collect

/-!
Plans for streams of integers: computed parts, suspensions, merges and binds, calls of
named plans, and choices by comparison. Sums and products of numbers wrap around in words
of 64 bits, and a remainder is never negative. Starting a plan may force parts of it, where a
plan asks for the first answers of another, so a plan is started over a host that says
what calls and suspensions stand for; hosts are stacked, each standing on the one below.
-/
namespace RelationalSearch.IntStream

abbrev Values := List (String × Int64)

inductive Number where
  | literal (i : Int64)
  | ref (name : String)
  | add (a b : Number)
  | mul (a b : Number)
  | mod (a b : Number)

namespace Number

def eval (values : Values) : Number → Option Int64
  | .literal i => some i
  | .ref name => values.lookup name
  | .add a b =>
    match eval values a, eval values b with
    | some a, some b => some (a + b)
    | _, _ => none
  | .mul a b =>
    match eval values a, eval values b with
    | some a, some b => some (a * b)
    | _, _ => none
  | .mod a b =>
    match eval values a, eval values b with
    | some a, some b => some (Int64.ofInt (a.toInt % b.toInt))
    | _, _ => none

end Number

inductive Plan where
  | empty
  | single (n : Number)
  | ready (n : Number) (rest : Plan)
  | numbers (ns : List Number)
  /-- The integers from the first up to but without the second. -/
  | range (first stop : Number)
  | suspend (body : Plan)
  | merge (left right : Plan)
  /-- The function is given by its argument's name and its body. -/
  | bind (source : Plan) (arg : String) (body : Plan)
  /-- The nodes themselves, whatever they hold. -/
  | merging (left right : Plan)
  | feeding (source : Plan) (arg : String) (body : Plan)
  | take (source : Plan) (count : Nat)
  | call (name : String) (args : List Number)
  | ifLess (a b : Number) (yes no : Plan)
  | ifEqual (a b : Number) (yes no : Plan)

inductive Suspension where
  | plan (values : Values) (p : Plan)
  | call (name : String) (args : List Int64)

abbrev Integers := Answers Suspension Int64

structure Host where
  invoke : String → List Int64 → Integers
  force : Suspension → Integers

namespace Plan

/-- Numbers without a value stand for a stream without answers. -/
def start (host : Host) (turns : Nat) : Plan → Values → Integers
  | .empty, _ => .empty
  | .single n, values =>
    match n.eval values with
    | some i => .single i
    | none => .empty
  | .ready n rest, values =>
    match n.eval values with
    | some i => .ready i (start host turns rest values)
    | none => .empty
  | .numbers ns, values =>
    match ns.mapM fun n => n.eval values with
    | some is => .ofList is
    | none => .empty
  | .range first stop, values =>
    match first.eval values, stop.eval values with
    | some first, some stop =>
      .ofList ((List.range (stop.toInt - first.toInt).toNat).map fun i => first + .ofNat i)
    | _, _ => .empty
  | .suspend body, values => .suspended (.plan values body)
  | .merge left right, values =>
    (start host turns left values).merge (start host turns right values)
  | .bind source arg body, values =>
    (start host turns source values).feed fun i => .inr (.plan ((arg, i) :: values) body)
  | .merging left right, values =>
    .merging (start host turns left values) (start host turns right values)
  | .feeding source arg body, values =>
    .feeding (start host turns source values) fun i => .inr (.plan ((arg, i) :: values) body)
  | .take source count, values => (start host turns source values).take host.force turns count
  | .call name args, values =>
    match args.mapM fun n => n.eval values with
    | some is => host.invoke name is
    | none => .empty
  | .ifLess a b yes no, values =>
    match a.eval values, b.eval values with
    | some a, some b => if a < b then start host turns yes values else start host turns no values
    | _, _ => .empty
  | .ifEqual a b yes no, values =>
    match a.eval values, b.eval values with
    | some a, some b => if a = b then start host turns yes values else start host turns no values
    | _, _ => .empty

end Plan

structure Definition where
  params : List String
  body : Plan

structure Library where
  definitions : List (String × Definition)
  /-- How deep calls may be nested before they are put off. -/
  callDepth : Nat := 2 ^ 32
  /-- The turns that a plan may spend on each answer of another that it takes. -/
  turns : Nat := 2 ^ 40

namespace Library

/-- Later parameters hide earlier ones of the same name. -/
def values : List String → List Int64 → Values → Values
  | name :: names, i :: is, known => values names is ((name, i) :: known)
  | _, _, known => known

/-- Nothing of the host below is built before it is asked. -/
def host (l : Library) : Nat → Host
  | 0 => ⟨fun name args => .suspended (.call name args), .suspended⟩
  | depth + 1 =>
    let invoke (name : String) (args : List Int64) : Integers :=
      match l.definitions.lookup name with
      | some d => d.body.start (l.host depth) l.turns (values d.params args [])
      | none => .empty
    let force : Suspension → Integers
      | .plan known p => p.start (l.host depth) l.turns known
      | .call name args => invoke name args
    ⟨invoke, force⟩

def start (l : Library) (p : Plan) (known : Values) : Integers :=
  p.start (l.host l.callDepth) l.turns known

def force (l : Library) (suspension : Suspension) : Integers :=
  (l.host (l.callDepth + 1)).force suspension

end Library

end RelationalSearch.IntStream

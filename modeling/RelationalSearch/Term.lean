import RelationalSearch.Text

/-!
Terms: variables, atoms and sequences of terms. Sequences nest, which is enough for pairs and
lists. A variable is its number and its name is only shown, so comparison is structural and takes
variables by number. Integers are signed words of 64 bits.
-/
namespace RelationalSearch

structure Var where
  id : Nat
  name : String

namespace Var

instance : BEq Var := ⟨fun x y => x.id == y.id⟩

instance : Ord Var := ⟨fun x y => compare x.id y.id⟩

/-- Variables in increasing order of number; equal ones keep their places. -/
def sort (xs : List Var) : List Var :=
  xs.mergeSort fun x y => (compare x y).isLE

def distinct (xs : List Var) : List Var :=
  xs.eraseDups

def write (x : Var) (rest : List Char) : List Char :=
  Text.word x.name ('#' :: Text.natural x.id rest)

def render (x : Var) : String :=
  String.ofList (x.write [])

theorem beq_iff (x y : Var) : (x == y) = true ↔ x.id = y.id := by
  simp [BEq.beq]

end Var

inductive Atom where
  | unit
  | bool (b : Bool)
  | int (i : Int64)
  | char (c : Char)
  | str (s : String)
  deriving DecidableEq

namespace Atom

def write : Atom → List Char → List Char
  | .unit, rest => '(' :: ')' :: rest
  | .bool b, rest => Text.word (if b then "true" else "false") rest
  | .int i, rest => Text.integer i.toInt rest
  | .char c, rest => Text.quoted .single [c] rest
  | .str s, rest => Text.quoted .double s.toList rest

def render (a : Atom) : String :=
  String.ofList (a.write [])

end Atom

inductive Term where
  | var (x : Var)
  | atom (a : Atom)
  | seq (items : List Term)

namespace Term

mutual

def beq : Term → Term → Bool
  | .var x, .var y => x == y
  | .atom a, .atom b => a == b
  | .seq ts, .seq us => beqItems ts us
  | _, _ => false

def beqItems : List Term → List Term → Bool
  | [], [] => true
  | t :: ts, u :: us => beq t u && beqItems ts us
  | _, _ => false

end

instance : BEq Term := ⟨beq⟩

mutual

def size : Term → Nat
  | .var _ => 1
  | .atom _ => 1
  | .seq ts => sizeItems ts + 1

def sizeItems : List Term → Nat
  | [] => 0
  | t :: ts => size t + sizeItems ts

end

def var? : Term → Option Var
  | .var x => some x
  | _ => none

def atom? : Term → Option Atom
  | .atom a => some a
  | _ => none

def seq? : Term → Option (List Term)
  | .seq ts => some ts
  | _ => none

def isVar (t : Term) : Bool :=
  t.var?.isSome

def unit : Term := .atom .unit

/-- Two-element cells, one inside the other, that end in the given tail. -/
def cells (items : List Term) (tail : Term) : Term :=
  items.foldr (fun head rest => .seq [head, rest]) tail

mutual

def write : Term → List Char → List Char
  | .var x, rest => x.write rest
  | .atom a, rest => a.write rest
  | .seq ts, rest => '[' :: writeItems ts (']' :: rest)

def writeItems : List Term → List Char → List Char
  | [], rest => rest
  | t :: ts, rest => write t (writeMore ts rest)

def writeMore : List Term → List Char → List Char
  | [], rest => rest
  | t :: ts, rest => ',' :: ' ' :: write t (writeMore ts rest)

end

def render (t : Term) : String :=
  String.ofList (t.write [])

theorem size_pos (t : Term) : 0 < t.size := by
  cases t <;> simp [size]

end Term

end RelationalSearch

import Std.Data.ExtTreeMap
import RelationalSearch.Term

/-!
Substitutions. A substitution is a value: extending it leaves every earlier version
as it was, so each branch of a search grows bindings of its own. It also holds the
number of the next fresh variable. Two substitutions are equal exactly if they bind
the same numbers in the same way and hand out the same number next.
-/
namespace RelationalSearch

/-- The value of a bound variable, with the name the variable had when it was bound. -/
structure Binding where
  name : String
  value : Term

structure Subst where
  entries : Std.ExtTreeMap Nat Binding
  nextId : Nat

inductive BindError where
  | alreadyBound (x : Var)

namespace Subst

def empty : Subst := ⟨∅, 0⟩

def size (s : Subst) : Nat := s.entries.size

def isEmpty (s : Subst) : Bool := s.entries.isEmpty

def fresh (s : Subst) (name : String) : Var × Subst :=
  (⟨s.nextId, name⟩, { s with nextId := s.nextId + 1 })

def freshAll (s : Subst) : List String → List Var × Subst
  | [] => ([], s)
  | name :: names =>
    let (x, s) := s.fresh name
    let (xs, s) := s.freshAll names
    (x :: xs, s)

def get? (s : Subst) (x : Var) : Option Term :=
  s.entries[x.id]?.map Binding.value

def extend (s : Subst) (x : Var) (t : Term) : Except BindError Subst :=
  match s.get? x with
  | some _ => .error (.alreadyBound x)
  | none => .ok { s with entries := s.entries.insert x.id ⟨x.name, t⟩ }

def bindings (s : Subst) : List (Var × Term) :=
  s.entries.toList.map fun (id, b) => (⟨id, b.name⟩, b.value)

/-- Same bindings and same counter; names do not count. -/
instance : BEq Subst := ⟨fun s t => s.nextId == t.nextId && s.bindings == t.bindings⟩

def weight (s : Subst) : Nat :=
  s.bindings.foldr (fun b total => b.2.size + total) 0

def write (s : Subst) (rest : List Char) : List Char :=
  let entry (b : Var × Term) (after : List Char) : List Char :=
    b.1.write (':' :: ' ' :: b.2.write after)
  '\x7b' :: Text.joined ", " (s.bindings.map entry) ('\x7d' :: rest)

def render (s : Subst) : String :=
  String.ofList (s.write [])

theorem get?_empty (x : Var) : empty.get? x = none := by
  simp [get?, empty]

theorem get?_fresh (s : Subst) (name : String) (x : Var) :
    (s.fresh name).2.get? x = s.get? x := rfl

theorem extend_eq_ok {s t : Subst} {x : Var} {u : Term} (h : s.extend x u = .ok t) :
    s.get? x = none ∧ t = { s with entries := s.entries.insert x.id ⟨x.name, u⟩ } := by
  unfold extend at h
  split at h
  · cases h
  · next free =>
    cases h
    exact ⟨free, rfl⟩

theorem get?_extend {s t : Subst} {x : Var} {u : Term} (h : s.extend x u = .ok t) (y : Var) :
    t.get? y = if x.id = y.id then some u else s.get? y := by
  obtain ⟨-, rfl⟩ := extend_eq_ok h
  simp only [get?, Std.ExtTreeMap.getElem?_insert, Std.LawfulEqCmp.compare_eq_iff_eq]
  split <;> simp

theorem extend_error_iff (s : Subst) (x : Var) (u : Term) :
    (∃ e, s.extend x u = .error e) ↔ (s.get? x).isSome := by
  unfold extend
  split <;> simp_all

end Subst

namespace BindError

def message : BindError → String
  | .alreadyBound x =>
    String.ofList (Text.word "variable " (x.write (Text.word " is already bound" [])))

def render : BindError → String
  | .alreadyBound x =>
    String.ofList (Text.word "AlreadyBound \x7b name: " (Text.quoted .double x.name.toList
      (Text.word ", id: " (Text.natural x.id (Text.word " \x7d" [])))))

end BindError

end RelationalSearch

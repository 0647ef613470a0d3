import RelationalSearch.Text

/-!
Streams of answers, possibly without an end. A stream has a computed part, and where it
is not computed yet it holds the code of a suspended computation; what a code stands for
is given from outside, as a function that forces it. Merges and binds that cannot be
decided without forcing anything are kept as nodes, to be looked at by a search. The
function of a bind may give codes as well, so that its streams can hold the function itself.
-/
namespace RelationalSearch

inductive Answers (κ α : Type) where
  | empty
  | ready (a : α) (rest : Answers κ α)
  | suspended (code : κ)
  /-- A fair merge that has not been looked at yet. -/
  | merging (left right : Answers κ α)
  /-- Every answer of the source goes through the function, and the results are merged. -/
  | feeding (source : Answers κ α) (g : α → Answers κ α ⊕ κ)

namespace Answers

variable {κ α : Type}

def single (a : α) : Answers κ α := .ready a .empty

def ofList (items : List α) : Answers κ α :=
  items.foldr .ready .empty

/-- Fair merge: whenever the left stream gives an answer, the two change places. -/
def merge : Answers κ α → Answers κ α → Answers κ α
  | .empty, other => other
  | .ready a rest, other => .ready a (.merging other rest)
  | left, other => .merging left other

/-- Feeds every answer to a function that gives streams or codes of streams. -/
def feed : Answers κ α → (α → Answers κ α ⊕ κ) → Answers κ α
  | .empty, _ => .empty
  | source, g => .feeding source g

def bind (source : Answers κ α) (g : α → Answers κ α) : Answers κ α :=
  source.feed fun a => .inl (g a)

/-- The stream that is there already or that the code stands for. -/
def given (force : κ → Answers κ α) : Answers κ α ⊕ κ → Answers κ α
  | .inl s => s
  | .inr code => force code

/-- Known to have no answer without forcing anything. -/
def isEmpty : Answers κ α → Bool
  | .empty => true
  | _ => false

/-- The answers computed so far, last one first, put onto the given ones, and whether
    they are all there are. -/
def computedOnto : List α → Answers κ α → List α × Bool
  | seen, .empty => (seen, true)
  | seen, .ready a rest => rest.computedOnto (a :: seen)
  | seen, _ => (seen, false)

def computed (s : Answers κ α) : List α × Bool :=
  let (seen, whole) := s.computedOnto []
  (seen.reverse, whole)

def length? (s : Answers κ α) : Option Nat :=
  let (seen, whole) := s.computedOnto []
  if whole then some seen.length else none

/-- Fully computed streams with equal answers; nothing else is equal to anything. -/
def beq [BEq α] : Answers κ α → Answers κ α → Bool
  | .empty, .empty => true
  | .ready a rest, .ready b more => a == b && beq rest more
  | _, _ => false

instance [BEq α] : BEq (Answers κ α) := ⟨beq⟩

def write (item : α → List Char → List Char) (s : Answers κ α) (rest : List Char) : List Char :=
  let (items, whole) := s.computed
  let texts := items.map item ++ if whole then [] else [Text.word "..."]
  '(' :: Text.joined " " texts (')' :: rest)

def render (item : α → List Char → List Char) (s : Answers κ α) : String :=
  String.ofList (s.write item [])

theorem isEmpty_iff (s : Answers κ α) : s.isEmpty = true ↔ s = .empty := by
  cases s <;> simp [isEmpty]

theorem merge_cases (s t : Answers κ α) :
    (s = .empty ∧ s.merge t = t) ∨
      (∃ a r, s = .ready a r ∧ s.merge t = .ready a (.merging t r)) ∨
      s.merge t = .merging s t := by
  cases s with
  | empty => exact .inl ⟨rfl, rfl⟩
  | ready a r => exact .inr (.inl ⟨a, r, rfl, rfl⟩)
  | suspended | merging | feeding => exact .inr (.inr rfl)

theorem feed_cases (s : Answers κ α) (g : α → Answers κ α ⊕ κ) :
    (s = .empty ∧ s.feed g = .empty) ∨ s.feed g = .feeding s g := by
  cases s with
  | empty => exact .inl ⟨rfl, rfl⟩
  | ready | suspended | merging | feeding => exact .inr rfl

end Answers

end RelationalSearch

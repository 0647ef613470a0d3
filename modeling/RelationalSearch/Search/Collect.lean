import RelationalSearch.Search

/-!
Several answers of a search. Each pull is given the same number of turns. Iteration stops
at the first pull that brings no answer, for whatever reason; pulling with an error keeps
the reason and gives up the answers pulled before it.
-/
namespace RelationalSearch

variable {κ α : Type}

namespace Search

def next (force : κ → Answers κ α) (turns : Nat) (d : Search κ α) : Option α × Search κ α :=
  match d.pull force turns with
  | (.found answer, d) => (answer, d)
  | (.failed _, d) => (none, d)
  | (.unsettled, d) => (none, d)

/-- Up to the given number of answers, put onto those already taken, last one first. -/
def takeOnto (force : κ → Answers κ α) (turns : Nat) :
    Nat → List α → Search κ α → List α × Search κ α
  | 0, taken, d => (taken, d)
  | count + 1, taken, d =>
    match d.next force turns with
    | (some a, d) => takeOnto force turns count (a :: taken) d
    | (none, d) => (taken, d)

def take (force : κ → Answers κ α) (turns count : Nat) (d : Search κ α) :
    List α × Search κ α :=
  let (taken, d) := d.takeOnto force turns count []
  (taken.reverse, d)

/-- The answers up to the first pull that brings none, as far as there are no more of them
    than turns. -/
def collect (force : κ → Answers κ α) (turns : Nat) (d : Search κ α) : List α × Search κ α :=
  d.take force turns turns

def nth (force : κ → Answers κ α) (turns : Nat) : Nat → Search κ α → Option α × Search κ α
  | 0, d => d.next force turns
  | skip + 1, d =>
    match d.next force turns with
    | (some _, d) => nth force turns skip d
    | (none, d) => (none, d)

def tryTakeOnto (force : κ → Answers κ α) (turns : Nat) :
    Nat → List α → Search κ α → Outcome (List α) × Search κ α
  | 0, taken, d => (.found taken, d)
  | count + 1, taken, d =>
    match d.pull force turns with
    | (.found (some a), d) => tryTakeOnto force turns count (a :: taken) d
    | (.found none, d) => (.found taken, d)
    | (.failed e, d) => (.failed e, d)
    | (.unsettled, d) => (.unsettled, d)

def tryTake (force : κ → Answers κ α) (turns count : Nat) (d : Search κ α) :
    Outcome (List α) × Search κ α :=
  match d.tryTakeOnto force turns count [] with
  | (.found taken, d) => (.found taken.reverse, d)
  | other => other

end Search

namespace Answers

def toList (force : κ → Answers κ α) (turns : Nat) (s : Answers κ α) : List α :=
  (Search.collect force turns (.ofAnswers s .unbounded)).1

def take (force : κ → Answers κ α) (turns count : Nat) (s : Answers κ α) : Answers κ α :=
  .ofList (Search.take force turns count (.ofAnswers s .unbounded)).1

def takeAll (force : κ → Answers κ α) (turns : Nat) (s : Answers κ α) : Answers κ α :=
  .ofList (s.toList force turns)

end Answers

end RelationalSearch

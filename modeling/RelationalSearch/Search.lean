import RelationalSearch.Answers

/-!
Searches. A search looks at one part of a stream, its focus, and keeps what surrounds it
as frames: the other side of a merge, or the function that a bind feeds. It takes one
turn at a time, so neither long streams nor deep ones need recursion. Forcing a suspension
makes the outermost merge around it change sides; the binds outside that merge are not
touched. A step limit is checked before each forcing, and the suspension stays in place
when it is reached.
-/
namespace RelationalSearch

variable {κ α : Type}

structure SearchConfig where
  /-- The number of suspensions that may be forced over the whole search. -/
  stepLimit : Option Nat := none
  deriving DecidableEq

namespace SearchConfig

def unbounded : SearchConfig := {}

def withStepLimit (limit : Nat) : SearchConfig := ⟨some limit⟩

def render (c : SearchConfig) : String :=
  let limit (rest : List Char) : List Char :=
    match c.stepLimit with
    | none => Text.word "None" rest
    | some n => Text.word "Some(" (Text.natural n (')' :: rest))
  String.ofList (Text.word "DriverConfig \x7b step_limit: " (limit (Text.word " \x7d" [])))

end SearchConfig

inductive SearchError where
  | stepLimitExceeded (limit : Nat)
  deriving DecidableEq

namespace SearchError

def message : SearchError → String
  | .stepLimitExceeded limit =>
    String.ofList (Text.word "step limit of "
      (Text.natural limit (Text.word " exceeded before the next answer was found" [])))

def render : SearchError → String
  | .stepLimitExceeded limit =>
    String.ofList (Text.word "StepLimitExceeded \x7b limit: "
      (Text.natural limit (Text.word " \x7d" [])))

end SearchError

inductive Frame (κ α : Type) where
  /-- The focus is the left side of a merge with this stream. -/
  | merge (other : Answers κ α)
  /-- The focus feeds its answers through this function. -/
  | bind (g : α → Answers κ α ⊕ κ)

namespace Frame

/-- The stream that the frame makes of a focus that has been forced. -/
def resume : Frame κ α → Answers κ α → Answers κ α
  | .merge other, forced => .merging other forced
  | .bind g, forced => .feeding forced g

end Frame

structure Search (κ α : Type) where
  focus : Answers κ α
  /-- What surrounds the focus, innermost last. -/
  frames : Array (Frame κ α)
  /-- The places of the merges in the frames, outermost first. -/
  merges : Array Nat
  /-- The number of suspensions forced so far. -/
  steps : Nat
  config : SearchConfig

inductive Turn (κ α : Type) where
  | running (next : Search κ α)
  | answer (a : α) (next : Search κ α)
  | exhausted (next : Search κ α)
  | limited (e : SearchError) (next : Search κ α)

/-- What is known after a given number of turns. -/
inductive Outcome (β : Type) where
  | found (b : β)
  | failed (e : SearchError)
  | unsettled

namespace Search

def ofAnswers (s : Answers κ α) (config : SearchConfig) : Search κ α :=
  ⟨s, #[], #[], 0, config⟩

def push (d : Search κ α) : Frame κ α → Search κ α
  | .merge other =>
    let place := d.frames.size
    { d with frames := d.frames.push (.merge other), merges := d.merges.push place }
  | .bind g => { d with frames := d.frames.push (.bind g) }

def pop (d : Search κ α) : Option (Frame κ α) × Search κ α :=
  match d.frames.back? with
  | none => (none, d)
  | some (.merge other) =>
    (some (.merge other), { d with frames := d.frames.pop, merges := d.merges.pop })
  | some (.bind g) => (some (.bind g), { d with frames := d.frames.pop })

/-- Takes off the given number of frames and rebuilds the stream that they stand for. -/
def unwind : Nat → Answers κ α → Search κ α → Answers κ α × Search κ α
  | 0, inner, d => (inner, d)
  | count + 1, inner, d =>
    match d.pop with
    | (some frame, d) => unwind count (frame.resume inner) d
    | (none, d) => (inner, d)

/-- Goes on with a forced stream in place of the suspension in focus. The outermost merge
    changes sides: what it held becomes the focus, and the rebuilt rest waits. -/
def resume (d : Search κ α) (forced : Answers κ α) : Search κ α :=
  match d.merges[0]? with
  | none => { d with focus := forced }
  | some outermost =>
    let count := d.frames.size - (outermost + 1)
    let (rebuilt, d) := d.unwind count forced
    match d.pop with
    | (some (.merge other), d) => { d with focus := other }.push (.merge rebuilt)
    | (some (.bind _), d) => { d with focus := .empty }.push (.merge rebuilt)
    | (none, d) => { d with focus := .empty }.push (.merge rebuilt)

def turn (force : κ → Answers κ α) (d : Search κ α) : Turn κ α :=
  match d.focus with
  | .merging left right =>
    let d := { d with focus := left }
    .running (if right.isEmpty then d else d.push (.merge right))
  | .feeding source g => .running ({ d with focus := source }.push (.bind g))
  | .empty =>
    match d.pop with
    | (none, d) => .exhausted d
    | (some (.merge other), d) => .running { d with focus := other }
    | (some (.bind _), d) => .running d
  | .ready a rest =>
    match d.pop with
    | (none, d) => .answer a { d with focus := rest }
    | (some (.merge other), d) => .running { d with focus := .ready a (.merging other rest) }
    | (some (.bind g), d) =>
      let head := Answers.given force (g a)
      .running { d with focus := if rest.isEmpty then head else .merging head (.feeding rest g) }
  | .suspended code =>
    match d.config.stepLimit with
    | none => .running ({ d with steps := d.steps + 1 }.resume (force code))
    | some limit =>
      if limit ≤ d.steps then .limited (.stepLimitExceeded limit) d
      else .running ({ d with steps := d.steps + 1 }.resume (force code))

/-- The next answer, none at the end of the stream, or the error of a step limit that is
    reached first. A search that is not settled after the given turns can be pulled on. -/
def pull (force : κ → Answers κ α) : Nat → Search κ α → Outcome (Option α) × Search κ α
  | 0, d => (.unsettled, d)
  | turns + 1, d =>
    match d.turn force with
    | .running d => pull force turns d
    | .answer a d => (.found (some a), d)
    | .exhausted d => (.found none, d)
    | .limited e d => (.failed e, d)

theorem pull_succ (force : κ → Answers κ α) (turns : Nat) (d : Search κ α) :
    d.pull force (turns + 1) =
      match d.turn force with
      | .running d => d.pull force turns
      | .answer a d => (.found (some a), d)
      | .exhausted d => (.found none, d)
      | .limited e d => (.failed e, d) := rfl

theorem pull_mono {force : κ → Answers κ α} {turns : Nat} {d : Search κ α}
    (settled : (d.pull force turns).1 ≠ .unsettled) (more : Nat) :
    d.pull force (turns + more) = d.pull force turns := by
  induction turns generalizing d with
  | zero => exact absurd rfl settled
  | succ turns ih =>
    rw [Nat.add_right_comm, pull_succ, pull_succ]
    rw [pull_succ] at settled
    cases h : d.turn force with
    | running next =>
      rw [h] at settled
      exact ih settled
    | answer a next => rfl
    | exhausted next => rfl
    | limited e next => rfl

end Search

end RelationalSearch

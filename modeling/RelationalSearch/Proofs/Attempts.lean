import RelationalSearch.Proofs.StepLimit

/-!
Pulling under any configuration, against the stream algebra. What the pulls return is told by the
heads that the stream shows: the answers in order, then the end again and again, or the error of
the step limit again and again in front of the forcing that would go past it.
-/
namespace RelationalSearch

variable {κ α : Type}

open Answers RelationalSearch.Frame

abbrev Attempt (α : Type) := Except SearchError (Option α) × Nat

namespace Answers

/-- What the first pulls from a stream return, when the given number of suspensions has been forced
    before. -/
inductive Sees (force : κ → Answers κ α) (config : SearchConfig) :
    Answers κ α → Nat → List (Attempt α) → Prop where
  | nothing (s : Answers κ α) (steps : Nat) : Sees force config s steps []
  | ended {s : Answers κ α} {steps : Nat} {outs : List (Attempt α)}
      (shows : Shows force s .empty) (same : ∀ out ∈ outs, out = (.ok none, steps)) :
      Sees force config s steps outs
  | found {s r : Answers κ α} {a : α} {steps : Nat} {outs : List (Attempt α)}
      (shows : Shows force s (.ready a r)) (later : Sees force config r steps outs) :
      Sees force config s steps ((.ok (some a), steps) :: outs)
  | forced {s r : Answers κ α} {steps : Nat} {outs : List (Attempt α)}
      (shows : Shows force s (.suspended r)) (allowed : config.Allows steps)
      (later : Sees force config r (steps + 1) outs) : Sees force config s steps outs
  | limited {s r : Answers κ α} {steps limit : Nat} {outs : List (Attempt α)}
      (shows : Shows force s (.suspended r)) (known : config.stepLimit = some limit)
      (reached : limit ≤ steps)
      (same : ∀ out ∈ outs, out = (.error (.stepLimitExceeded limit), steps)) :
      Sees force config s steps outs

end Answers

namespace Search

variable {force : κ → Answers κ α} {s t : Answers κ α} {frames : List (Frame κ α)}
  {d e : Search κ α} {steps n limit : Nat} {config : SearchConfig} {outs : List (Attempt α)}
  {result : Except SearchError (Option α)}

/-- What the first pulls return. A search can be pulled on after its end and after an error. -/
def Tries (force : κ → Answers κ α) : Search κ α → List (Attempt α) → Prop
  | _, [] => True
  | d, (result, steps) :: more =>
    ∃ next, Yields force d result next ∧ next.steps = steps ∧ next.Tries force more

theorem yields_iff_of_runs {next : Search κ α} (runs : Runs force n d e) :
    Yields force d result next ↔ Yields force e result next := by
  constructor
  · rintro ⟨turns, pulled⟩
    have settled : (d.pull force turns).1 ≠ .unsettled := by
      rw [pulled]
      exact ofResult_ne_unsettled result
    obtain ⟨fewer, -, same⟩ := pull_after_runs runs settled
    exact ⟨fewer, same.symm.trans pulled⟩
  · rintro ⟨turns, pulled⟩
    exact ⟨n + turns, (pull_runs runs turns).trans pulled⟩

theorem tries_iff_of_runs (runs : Runs force n d e) : d.Tries force outs ↔ e.Tries force outs := by
  cases outs with
  | nil => exact Iff.rfl
  | cons out outs =>
    exact exists_congr fun next => and_congr_left' (yields_iff_of_runs runs)

theorem tries_iff_of_stands (stands : Stands force d result) :
    d.Tries force outs ↔ ∀ out ∈ outs, out = (result, d.steps) := by
  induction outs with
  | nil => exact ⟨fun _ _ member => (nomatch member), fun _ => trivial⟩
  | cons out outs ih =>
    rw [List.forall_mem_cons, ← ih]
    constructor
    · rintro ⟨next, yields, counted, more⟩
      obtain ⟨same, rfl⟩ := yields_unique yields stands.yields
      exact ⟨Prod.ext same counted.symm, more⟩
    · rintro ⟨rfl, more⟩
      exact ⟨d, stands.yields, rfl, more⟩

theorem tries_of_sees (sees : Sees force config s steps outs)
    (trims : Trims s (surround frames t)) :
    (ofFrames t frames steps config).Tries force outs := by
  induction sees generalizing t frames with
  | nothing => trivial
  | @ended s steps outs shows same =>
    obtain ⟨n, focus, others, runs, arrives⟩ := runs_to_head steps config shows trims
    cases arrives
    rw [tries_iff_of_runs runs, tries_iff_of_stands (stands_of_ended ⟨rfl, rfl⟩)]
    exact same
  | @found s r a steps outs shows later ih =>
    obtain ⟨n, focus, others, runs, arrives⟩ := runs_to_head steps config shows trims
    cases arrives with
    | @ready _ rest a restTrims =>
      have more : (ofFrames rest [] steps config).Tries force outs := ih restTrims
      exact (tries_iff_of_runs runs).mpr ⟨_, ⟨1, rfl⟩, rfl, more⟩
  | @forced s r steps outs shows allowed later ih =>
    obtain ⟨n, focus, others, runs, arrives⟩ := runs_to_head steps config shows trims
    cases arrives with
    | suspended code inner forced =>
      obtain ⟨focus, others, forces, whole⟩ := turn_forces force inner code
      have turn := runs_one (forces steps config allowed)
      rw [← whole] at forced
      exact (tries_iff_of_runs (runs_trans runs turn)).mpr (ih forced)
  | @limited s r steps limit outs shows known reached same =>
    obtain ⟨n, focus, others, runs, arrives⟩ := runs_to_head steps config shows trims
    cases arrives with
    | suspended code inner forced =>
      rw [tries_iff_of_runs runs, tries_iff_of_stands (stands_of_reached code _ known reached)]
      exact same

theorem sees_of_tries (tries : (ofFrames t frames steps config).Tries force outs)
    (trims : Trims s (surround frames t)) : Sees force config s steps outs := by
  -- The induction is on the results, and for each of them on the turns that its pull takes.
  induction outs generalizing s t frames steps with
  | nil => exact .nothing s steps
  | cons out outs ih =>
    have ⟨next, ⟨turns, pulled⟩, _⟩ := tries
    induction turns using Nat.strongRecOn generalizing s t frames steps with
    | ind turns fewerTurns =>
      have settled : ((ofFrames t frames steps config).pull force turns).1 ≠ .unsettled := by
        rw [pulled]
        exact ofResult_ne_unsettled out.1
      obtain ⟨k, showsTrimmed⟩ := hasHead_of_pull settled
      obtain ⟨h, shows, -⟩ := shows_of_trims showsTrimmed trims
      obtain ⟨n, focus, others, runs, arrives⟩ := runs_to_head steps config shows trims
      have there := (tries_iff_of_runs runs).mp tries
      cases arrives with
      | empty => exact .ended shows ((tries_iff_of_stands (stands_of_ended ⟨rfl, rfl⟩)).mp there)
      | @ready _ rest a restTrims =>
        have answer : Yields force (ofFrames (.ready a rest) [] steps config) (.ok (some a))
            (ofFrames rest [] steps config) := ⟨1, rfl⟩
        obtain ⟨next', yields, counted', more'⟩ := there
        obtain ⟨same, rfl⟩ := yields_unique yields answer
        obtain rfl : out = (.ok (some a), steps) := Prod.ext same counted'.symm
        exact .found shows (ih more' restTrims)
      | suspended code inner forced =>
        rcases config.allows_or_reached steps with allowed | ⟨limit, known, reached⟩
        · obtain ⟨focus, others, forces, whole⟩ := turn_forces force inner code
          have turn := runs_trans runs (runs_one (forces steps config allowed))
          obtain ⟨fewer, rfl, rest⟩ := pull_after_runs turn settled
          rw [← whole] at forced
          have later := (tries_iff_of_runs turn).mp tries
          exact .forced shows allowed
            (fewerTurns fewer (by omega) later forced (rest.symm.trans pulled))
        · exact .limited shows known reached
            ((tries_iff_of_stands (stands_of_reached code _ known reached)).mp there)

/-- The results of the first pulls, however many and under any configuration, and the forcings
    counted after each are those that the heads of the stream tell. -/
theorem tries_iff_sees (force : κ → Answers κ α) (s : Answers κ α) (config : SearchConfig)
    (outs : List (Attempt α)) :
    (ofAnswers s config).Tries force outs ↔ Sees force config s 0 outs := by
  constructor
  · intro tries
    have framed : (ofFrames s [] 0 config).Tries force outs := tries
    exact sees_of_tries framed (trims_refl s)
  · intro sees
    have framed : (ofFrames s [] 0 config).Tries force outs := tries_of_sees sees (trims_refl s)
    exact framed

end Search

end RelationalSearch

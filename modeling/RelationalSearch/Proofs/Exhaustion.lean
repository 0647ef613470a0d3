import RelationalSearch.Proofs.DepthFirst
import RelationalSearch.Proofs.Refinement

/-!
The search beside depth-first evaluation. Each turn conserves the answers and the forcings of the
stream that a search stands for, together with those that it has given and done already. So
wherever depth-first evaluation has an end a search without a step limit comes to one, and with
the same answers in some order.
-/
namespace RelationalSearch

variable {κ α : Type}

open Answers RelationalSearch.Frame

namespace Answers

variable {force : κ → Answers κ α} {s t : Answers κ α} {n k : Nat}

def prepend (taken : List α) (s : Answers κ α) : Answers κ α :=
  taken.foldr .ready s

theorem prepend_append (first second : List α) (s : Answers κ α) :
    prepend (first ++ second) s = prepend first (prepend second s) :=
  List.foldr_append

theorem depthFirst_prepend_iff {taken xs : List α} :
    DepthFirst force (prepend taken s) xs n ↔ ∃ ys, xs = taken ++ ys ∧ DepthFirst force s ys n := by
  induction taken generalizing xs with
  | nil =>
    constructor
    · exact fun evaluates => ⟨xs, rfl, evaluates⟩
    · rintro ⟨ys, rfl, evaluates⟩
      exact evaluates
  | cons a taken ih =>
    constructor
    · intro evaluates
      cases evaluates with
      | ready _ rest =>
        obtain ⟨ys, rfl, evaluates⟩ := ih.mp rest
        exact ⟨ys, rfl, evaluates⟩
    · rintro ⟨ys, rfl, evaluates⟩
      exact .ready a (ih.mpr ⟨ys, rfl, evaluates⟩)

theorem covers_prepend (covers : Covers force s n t k) (taken : List α) :
    Covers force (prepend taken s) n (prepend taken t) k := by
  intro xs m evaluates
  obtain ⟨ys, rfl, rest⟩ := depthFirst_prepend_iff.mp evaluates
  obtain ⟨zs, l, rest', perm, total⟩ := covers ys m rest
  exact ⟨taken ++ zs, l, depthFirst_prepend_iff.mpr ⟨zs, rfl, rest'⟩, perm.append_left taken, total⟩

namespace Conserves

theorem prepend (conserves : Conserves force s n t k) (taken : List α) :
    Conserves force (prepend taken s) n (prepend taken t) k :=
  ⟨covers_prepend conserves.onward taken, covers_prepend conserves.back taken⟩

theorem surround (inside : Conserves force s n t k) (frames : List (Frame κ α)) :
    Conserves force (surround frames s) n (surround frames t) k := by
  induction frames with
  | nil => exact inside
  | cons frame frames ih =>
    cases frame with
    | merge other => exact ih.merging other
    | bind g => exact ih.feeding g

end Conserves

end Answers

namespace Turn

def next : Turn κ α → Search κ α
  | .running d => d
  | .answer _ d => d
  | .exhausted d => d
  | .limited _ d => d

def answers : Turn κ α → List α
  | .answer a _ => [a]
  | _ => []

end Turn

def Outcome.answers : Outcome (Option α) → List α
  | .found answer => answer.toList
  | _ => []

namespace Search

variable {force : κ → Answers κ α} {s t : Answers κ α} {frames others : List (Frame κ α)}
  {start d next last : Search κ α} {taken answers : List α} {steps : Nat} {config : SearchConfig}

/-- The stream that the frames make of the focus. -/
def pending (d : Search κ α) : Answers κ α :=
  surround d.frames.toList d.focus

/-- A state that turns lead to, with the answers given on the way. -/
inductive History (force : κ → Answers κ α) (start : Search κ α) : List α → Search κ α → Prop where
  | start : History force start [] start
  | turn {taken : List α} {d : Search κ α} (before : History force start taken d) :
      History force start (taken ++ (d.turn force).answers) (d.turn force).next

/-- Pulls give the answers one after the other, and then the end. -/
inductive Exhausts (force : κ → Answers κ α) : Search κ α → List α → Search κ α → Prop where
  | ended {d last : Search κ α} {turns : Nat} (pulled : d.pull force turns = (.found none, last)) :
      Exhausts force d [] last
  | answered {d next last : Search κ α} {turns : Nat} {a : α} {answers : List α}
      (pulled : d.pull force turns = (.found (some a), next))
      (later : Exhausts force next answers last) : Exhausts force d (a :: answers) last

theorem history_of_running (before : History force start taken d)
    (turned : d.turn force = .running next) : History force start taken next := by
  have after := before.turn
  have same : taken ++ (Turn.running next).answers = taken := List.append_nil taken
  rw [turned, same] at after
  exact after

theorem history_trans {more : List α} (before : History force start taken d)
    (after : History force d more next) : History force start (taken ++ more) next := by
  induction after with
  | start =>
    rw [List.append_nil]
    exact before
  | turn _ ih =>
    rw [← List.append_assoc]
    exact ih.turn

theorem conserves_of_shifts (shifts : Shifts force s frames t others) (n : Nat) :
    Conserves force (surround frames s) n (surround others t) n := by
  cases shifts with
  | merging_empty => exact (Conserves.before_empty t n).surround frames
  | merging more =>
    rw [surround_append]
    exact .refl _ n
  | feeding g =>
    rw [surround_append]
    exact .refl _ n
  | empty_merge =>
    rw [surround_append]
    exact (Conserves.after_empty t n).surround others
  | empty_bind g =>
    rw [surround_append]
    exact (Conserves.feed_nothing g n).surround others
  | @ready_merge s t _ a =>
    rw [surround_append]
    exact (Conserves.answer_first a s t n).surround others
  | ready_bind_last a g =>
    rw [surround_append]
    exact (Conserves.feed_last a g n).surround others
  | @ready_bind s _ a g more =>
    rw [surround_append]
    exact (Conserves.feed_first a s g n).surround others

/-- Whatever a turn does, it conserves the stream that the search stands for. -/
theorem turn_conserves (force : κ → Answers κ α) (s : Answers κ α) (frames : List (Frame κ α))
    (steps : Nat) (config : SearchConfig) :
    ∃ t others k, ((ofFrames s frames steps config).turn force).next = ofFrames t others k config ∧
      Conserves force (surround frames s) steps
        (prepend ((ofFrames s frames steps config).turn force).answers (surround others t)) k := by
  rcases shifts_or_stays force s frames with ⟨t, others, shifts⟩ | ⟨code, rfl⟩ | ⟨rfl, found⟩
  · rw [turn_of_shifts shifts]
    exact ⟨t, others, steps, rfl, conserves_of_shifts shifts steps⟩
  · rcases config.allows_or_reached steps with allowed | ⟨limit, known, reached⟩
    · obtain ⟨t, others, forces, whole⟩ := turn_forces force frames code
      rw [forces steps config allowed]
      refine ⟨t, others, steps + 1, rfl, ?_⟩
      show Conserves force _ steps (surround others t) (steps + 1)
      rw [whole]
      exact .of_shows (shows_suspended frames code) steps
    · rw [turn_limited code known reached]
      exact ⟨.suspended code, frames, steps, rfl, .refl _ steps⟩
  · rcases found with rfl | ⟨a, rest, rfl⟩
    · exact ⟨.empty, [], steps, rfl, .refl _ steps⟩
    · exact ⟨rest, [], steps, rfl, .refl _ steps⟩

theorem history_framed (history : History force (ofFrames s frames steps config) taken d) :
    ∃ t others k, d = ofFrames t others k config ∧
      Conserves force (surround frames s) steps (prepend taken (surround others t)) k := by
  induction history with
  | start => exact ⟨s, frames, steps, rfl, .refl _ steps⟩
  | @turn taken d before ih =>
    obtain ⟨t, others, k, rfl, conserves⟩ := ih
    obtain ⟨u, inner, l, same, step⟩ := turn_conserves force t others k config
    refine ⟨u, inner, l, same, conserves.trans ?_⟩
    rw [prepend_append]
    exact step.prepend taken

/-- The answers given and the stream that is left have what the stream had at the start, and the
    forcings done and those that are left are as many as they were. -/
theorem history_conserves (history : History force (ofFrames s frames steps config) taken d) :
    Conserves force (surround frames s) steps (prepend taken d.pending) d.steps := by
  obtain ⟨t, others, k, rfl, conserves⟩ := history_framed history
  exact conserves

theorem history_pull (force : κ → Answers κ α) (turns : Nat) (d : Search κ α) :
    History force d (d.pull force turns).1.answers (d.pull force turns).2 := by
  induction turns generalizing d with
  | zero => exact .start
  | succ turns ih =>
    have first : History force d ([] ++ (d.turn force).answers) (d.turn force).next := .turn .start
    rw [pull_succ]
    cases turned : d.turn force with
    | running next => exact history_trans (history_of_running .start turned) (ih next)
    | answer a next =>
      rw [turned] at first
      exact first
    | exhausted next =>
      rw [turned] at first
      exact first
    | limited error next =>
      rw [turned] at first
      exact first

theorem history_of_pull {turns : Nat} {found : Option α} (before : History force start taken d)
    (pulled : d.pull force turns = (.found found, next)) :
    History force start (taken ++ found.toList) next := by
  have after := history_pull force turns d
  rw [pulled] at after
  exact history_trans before after

theorem history_of_exhausts (before : History force start taken d)
    (exhausts : Exhausts force d answers last) : History force start (taken ++ answers) last := by
  induction exhausts generalizing taken with
  | ended pulled => exact history_of_pull before pulled
  | answered pulled later ih =>
    have after := ih (history_of_pull before pulled)
    rwa [List.append_assoc] at after

def Ended (d : Search κ α) : Prop :=
  d.focus = .empty ∧ d.frames = #[]

theorem frames_of_pop (popped : d.pop = (none, next)) : d.frames = #[] ∧ next = d := by
  unfold pop at popped
  split at popped
  · next none =>
    cases popped
    exact ⟨Array.back?_eq_none_iff.mp none, rfl⟩
  · cases popped
  · cases popped

theorem ended_of_turn (turned : d.turn force = .exhausted next) : d.Ended ∧ next = d := by
  unfold turn at turned
  split at turned
  · cases turned
  · cases turned
  · next empty =>
    split at turned
    · next popped =>
      cases turned
      obtain ⟨bare, same⟩ := frames_of_pop popped
      exact ⟨⟨empty, bare⟩, same⟩
    · cases turned
    · cases turned
  · split at turned <;> cases turned
  · split at turned
    · cases turned
    · split at turned <;> cases turned

theorem ended_of_pull {turns : Nat} (pulled : d.pull force turns = (.found none, last)) :
    last.Ended := by
  induction turns generalizing d with
  | zero => cases pulled
  | succ turns ih =>
    rw [pull_succ] at pulled
    split at pulled
    · exact ih pulled
    · cases pulled
    · next turned =>
      cases pulled
      obtain ⟨ended, same⟩ := ended_of_turn turned
      rwa [same]
    · cases pulled

theorem ended_of_exhausts (exhausts : Exhausts force d answers last) : last.Ended := by
  induction exhausts with
  | ended pulled => exact ended_of_pull pulled
  | answered pulled later ih => exact ih

theorem pending_of_ended (ended : d.Ended) : d.pending = .empty := by
  rw [pending, ended.1, ended.2]
  rfl

theorem exists_exhausts {xs : List α} {n : Nat}
    (evaluates : DepthFirst force (surround frames s) xs n) :
    ∃ answers last, Exhausts force (ofFrames s frames steps .unbounded) answers last := by
  -- By induction on the number of answers that the search has not given.
  induction count : xs.length using Nat.strongRecOn generalizing s frames steps xs n with
  | ind bound ih =>
    obtain ⟨found, k, u, pulls⟩ := pulls_of_depthFirst evaluates
    obtain ⟨turns, t, others, pulled, -⟩ :
        ∃ turns t others, (ofFrames s frames steps .unbounded).pull force turns =
          (.found found, ofFrames t others (steps + k) .unbounded) ∧ Trims u (surround others t) :=
      pull_of_pulls pulls (trims_refl _)
    cases found with
    | none => exact ⟨[], _, .ended pulled⟩
    | some a =>
      have conserves := history_conserves (history_of_pull .start pulled)
      obtain ⟨ys, m, rest, perm, -⟩ := conserves.onward xs n evaluates
      obtain ⟨zs, rfl, later⟩ := depthFirst_prepend_iff.mp rest
      have fewer : zs.length < bound := by
        have same : xs.length = zs.length + 1 := perm.length_eq
        omega
      obtain ⟨answers, last, exhausts⟩ := ih zs.length fewer later rfl
      exact ⟨a :: answers, last, .answered pulled exhausts⟩

/-- Pulling without a limit comes to the end exactly where depth-first evaluation does. Then the
    answers are the same in some order, and so are the forcings; and in every state on the way
    this holds of the answers given with those of the pending stream, and of the forcings done
    with those that are left. -/
theorem exhausts_as_depthFirst (force : κ → Answers κ α) (s : Answers κ α) :
    ((∃ answers last, Exhausts force (ofAnswers s .unbounded) answers last) ↔
      ∃ xs n, DepthFirst force s xs n) ∧
    ∀ xs n, DepthFirst force s xs n →
      (∀ answers last, Exhausts force (ofAnswers s .unbounded) answers last →
        answers.Perm xs ∧ last.steps = n) ∧
      ∀ taken d, History force (ofAnswers s .unbounded) taken d →
        ∃ ys m, DepthFirst force d.pending ys m ∧ (taken ++ ys).Perm xs ∧ d.steps + m = n := by
  have atEnd {answers : List α} {last : Search κ α}
      (exhausts : Exhausts force (ofAnswers s .unbounded) answers last) :
      Conserves force s 0 (prepend answers .empty) last.steps := by
    have conserves := history_conserves (history_of_exhausts .start exhausts)
    rwa [pending_of_ended (ended_of_exhausts exhausts)] at conserves
  refine ⟨⟨?_, fun ⟨xs, n, evaluates⟩ => exists_exhausts evaluates⟩, ?_⟩
  · rintro ⟨answers, last, exhausts⟩
    obtain ⟨xs, n, evaluates, -⟩ := (atEnd exhausts).back answers 0
      (depthFirst_prepend_iff.mpr ⟨[], (List.append_nil _).symm, .empty⟩)
    exact ⟨xs, n, evaluates⟩
  · intro xs n evaluates
    constructor
    · intro answers last exhausts
      obtain ⟨ys, m, rest, perm, total⟩ := (atEnd exhausts).onward xs n evaluates
      obtain ⟨zs, rfl, nothing⟩ := depthFirst_prepend_iff.mp rest
      cases nothing
      rw [List.append_nil] at perm
      exact ⟨perm.symm, by omega⟩
    · intro taken d history
      obtain ⟨ys, m, rest, perm, total⟩ := (history_conserves history).onward xs n evaluates
      obtain ⟨zs, rfl, later⟩ := depthFirst_prepend_iff.mp rest
      exact ⟨zs, m, later, perm.symm, by omega⟩

end Search

end RelationalSearch

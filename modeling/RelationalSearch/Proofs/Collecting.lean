import RelationalSearch.Proofs.Exhaustion
import RelationalSearch.Search.Collect

/-!
Collecting every answer. All answers of a search are collected when more turns make no difference
and nothing is left of the search. That is the same as pulling one answer after the other up to
the end, so the list is there exactly if depth-first evaluation has an end, and it holds the answers
that depth-first evaluation finds.
-/
namespace RelationalSearch

variable {κ α : Type}

open Answers RelationalSearch.Frame

namespace Search

variable {force : κ → Answers κ α} {s : Answers κ α} {frames : List (Frame κ α)}
  {d e last : Search κ α} {taken all answers xs : List α} {turns count steps n : Nat}
  {config : SearchConfig}

/-- With enough turns these are all the answers, and the second search is what remains. -/
def Collects (force : κ → Answers κ α) (d : Search κ α) (answers : List α) (last : Search κ α) :
    Prop :=
  last.Ended ∧ ∃ turns, ∀ more, d.collect force (turns + more) = (answers, last)

theorem turn_of_ended (ended : d.Ended) : d.turn force = .exhausted d := by
  obtain ⟨empty, bare⟩ := ended
  simp [turn, pop, empty, bare]

theorem suspended_of_turn {error : SearchError} (turned : d.turn force = .limited error e) :
    ∃ code, e.focus = .suspended code := by
  unfold turn at turned
  split at turned
  · cases turned
  · cases turned
  · split at turned <;> cases turned
  · split at turned <;> cases turned
  · next code suspended =>
    split at turned
    · cases turned
    · split at turned
      · cases turned
        exact ⟨code, suspended⟩
      · cases turned

theorem not_ended_of_failed {error : SearchError} (pulled : d.pull force turns = (.failed error, e)) :
    ¬ e.Ended := by
  induction turns generalizing d with
  | zero => cases pulled
  | succ turns ih =>
    rw [pull_succ] at pulled
    split at pulled
    · exact ih pulled
    · cases pulled
    · cases pulled
    · next turned =>
      cases pulled
      rintro ⟨empty, -⟩
      obtain ⟨code, suspended⟩ := suspended_of_turn turned
      cases empty.symm.trans suspended

theorem pull_onward (running : d.pull force turns = (.unsettled, e)) (more : Nat) :
    d.pull force (turns + more) = e.pull force more := by
  induction turns generalizing d with
  | zero =>
    cases running
    rw [Nat.zero_add]
  | succ turns ih =>
    rw [pull_succ] at running
    rw [Nat.add_right_comm, pull_succ]
    split at running
    · exact ih running
    · cases running
    · cases running
    · cases running

theorem exhausts_of_next (nothing : d.next force turns = (none, last)) (ended : last.Ended) :
    Exhausts force d [] last := by
  cases pulled : d.pull force turns with
  | mk outcome e =>
    rw [next, pulled] at nothing
    cases outcome with
    | found answer =>
      cases nothing
      exact .ended pulled
    | failed error =>
      cases nothing
      exact absurd ended (not_ended_of_failed pulled)
    | unsettled =>
      cases nothing
      have oneMore : d.pull force (turns + 1) = (.found none, last) := by
        rw [pull_onward pulled, pull_succ, turn_of_ended ended]
      exact .ended oneMore

theorem pull_of_next {a : α} (answered : d.next force turns = (some a, e)) :
    d.pull force turns = (.found (some a), e) := by
  unfold next at answered
  split at answered
  · next pulled =>
    cases answered
    exact pulled
  · cases answered
  · cases answered

theorem next_of_found {found : Option α} (pulled : d.pull force turns = (.found found, e))
    {more : Nat} (enough : turns ≤ more) : d.next force more = (found, e) := by
  obtain ⟨others, rfl⟩ := Nat.exists_eq_add_of_le enough
  have settled : (d.pull force turns).1 ≠ .unsettled := by
    rw [pulled]
    exact fun same => nomatch same
  rw [next, pull_mono settled, pulled]

theorem exhausts_of_takeOnto (took : d.takeOnto force turns count taken = (all, last))
    (ended : last.Ended) :
    ∃ answers, all = answers.reverse ++ taken ∧ Exhausts force d answers last := by
  induction count generalizing d taken with
  | zero =>
    cases took
    have atOnce : last.pull force 1 = (.found none, last) := by
      rw [pull_succ, turn_of_ended ended]
    exact ⟨[], rfl, .ended atOnce⟩
  | succ count ih =>
    rw [takeOnto] at took
    split at took
    · next a e answered =>
      obtain ⟨answers, rfl, later⟩ := ih took
      refine ⟨a :: answers, ?_, .answered (pull_of_next answered) later⟩
      rw [List.reverse_cons, List.append_assoc]
      rfl
    · next e nothing =>
      cases took
      exact ⟨[], rfl, exhausts_of_next nothing ended⟩

theorem takeOnto_of_exhausts (exhausts : Exhausts force d answers last) :
    ∃ enough, ∀ turns count taken, enough ≤ turns → answers.length < count →
      d.takeOnto force turns count taken = (answers.reverse ++ taken, last) := by
  induction exhausts with
  | @ended d last enough pulled =>
    refine ⟨enough, fun turns count taken within longer => ?_⟩
    cases count with
    | zero => cases longer
    | succ count =>
      rw [takeOnto, next_of_found pulled within]
      rfl
  | @answered d e last enough a answers pulled later ih =>
    obtain ⟨others, taking⟩ := ih
    refine ⟨enough + others, fun turns count taken within longer => ?_⟩
    cases count with
    | zero => cases longer
    | succ count =>
      rw [takeOnto, next_of_found pulled (by omega)]
      show e.takeOnto force turns count (a :: taken) = _
      rw [taking turns count _ (by omega) (Nat.lt_of_succ_lt_succ longer), List.reverse_cons,
        List.append_assoc]
      rfl

theorem collects_iff_exhausts : Collects force d answers last ↔ Exhausts force d answers last := by
  constructor
  · rintro ⟨ended, turns, collected⟩
    have once : d.collect force turns = (answers, last) := collected 0
    rw [collect, take] at once
    cases took : d.takeOnto force turns turns [] with
    | mk all rest =>
      rw [took] at once
      cases once
      obtain ⟨answers, rfl, exhausts⟩ := exhausts_of_takeOnto took ended
      rwa [List.append_nil, List.reverse_reverse]
  · intro exhausts
    obtain ⟨enough, taking⟩ := takeOnto_of_exhausts exhausts
    refine ⟨ended_of_exhausts exhausts, enough + (answers.length + 1), fun more => ?_⟩
    rw [collect, take, taking _ _ [] (by omega) (by omega), List.append_nil]
    exact congrArg (·, last) (List.reverse_reverse answers)

theorem depthFirst_of_exhausts
    (exhausts : Exhausts force (ofFrames s frames steps config) answers last) :
    ∃ xs n, DepthFirst force (surround frames s) xs n ∧ answers.Perm xs ∧
      last.steps = steps + n := by
  have conserves := history_conserves (history_of_exhausts .start exhausts)
  rw [pending_of_ended (ended_of_exhausts exhausts)] at conserves
  obtain ⟨xs, n, evaluates, perm, total⟩ := conserves.back answers 0
    (depthFirst_prepend_iff.mpr ⟨[], (List.append_nil _).symm, .empty⟩)
  exact ⟨xs, n, evaluates, perm, total⟩

theorem collects_of_depthFirst (evaluates : DepthFirst force s xs n) :
    ∃ answers last, Collects force (ofAnswers s .unbounded) answers last := by
  obtain ⟨answers, last, exhausts⟩ :
      ∃ answers last, Exhausts force (ofFrames s [] 0 .unbounded) answers last :=
    exists_exhausts evaluates
  exact ⟨answers, last, collects_iff_exhausts.mpr exhausts⟩

/-- The answers collected are those of depth-first evaluation in some order. -/
theorem depthFirst_of_collects (collects : Collects force (ofAnswers s config) answers last) :
    ∃ xs, DepthFirst force s xs last.steps ∧ answers.Perm xs := by
  have exhausts : Exhausts force (ofFrames s [] 0 config) answers last :=
    collects_iff_exhausts.mp collects
  obtain ⟨xs, n, evaluates, perm, total⟩ := depthFirst_of_exhausts exhausts
  obtain rfl : n = last.steps := by omega
  exact ⟨xs, evaluates, perm⟩

end Search

end RelationalSearch

import RelationalSearch.Proofs.Occurrence
import RelationalSearch.Proofs.Productivity
import RelationalSearch.Proofs.Refinement

/-!
Completeness of the search. The pulls of a search and the occurrences of answers in its stream
correspond one to one, whatever the other parts of the stream do, as long as looking for a head
always has an end. With each forcing and each answer that comes first, the path of an answer
that still waits gets a smaller rank.
-/
namespace RelationalSearch

variable {κ α : Type}

namespace Answers

variable {force : κ → Answers κ α} {s t r : Answers κ α}

def GivesAt (force : κ → Answers κ α) : Nat → Answers κ α → α → Prop
  | 0, s, x => ∃ n t, Pulls force s (some x) n t
  | k + 1, s, x => ∃ found n t, Pulls force s found n t ∧ GivesAt force k t x

theorem productive_of_pulls {found : Option α} {n : Nat} (pulls : Pulls force s found n t)
    (productive : Productive force s) : Productive force t := by
  induction pulls with
  | ended shows =>
    intro u remains
    cases remains with
    | refl => exact ⟨_, .empty⟩
    | answered shows' => cases shows'
    | forced shows' => cases shows'
  | found shows => exact fun u remains => productive u (.answered shows remains)
  | forced shows later ih => exact ih fun u remains => productive u (.forced shows remains)

theorem rest_of_pulls_none {n : Nat} (pulls : Pulls force s none n t) : t = .empty := by
  generalize ended : (none : Option α) = found at pulls
  induction pulls with
  | ended shows => rfl
  | found shows => cases ended
  | forced shows later ih => exact ih ended

theorem not_givesAt_empty (k : Nat) (x : α) : ¬ GivesAt force k .empty x := by
  induction k with
  | zero =>
    rintro ⟨n, t, pulls⟩
    cases pulls with
    | found shows => cases shows
    | forced shows => cases shows
  | succ k ih =>
    rintro ⟨found, n, t, pulls, later⟩
    cases pulls with
    | ended => exact ih later
    | found shows => cases shows
    | forced shows => cases shows

theorem gives_last_iff (before k : Nat) (x : α) :
    (∃ outs after, outs.length = k ∧ Gives force s before (outs ++ [(some x, after)])) ↔
      GivesAt force k s x := by
  induction k generalizing s before with
  | zero =>
    constructor
    · rintro ⟨outs, after, none, gives⟩
      cases List.length_eq_zero_iff.mp none
      obtain ⟨t, n, pulls, _⟩ := gives
      exact ⟨n, t, pulls⟩
    · rintro ⟨n, t, pulls⟩
      exact ⟨[], before + n, rfl, t, n, pulls, rfl, trivial⟩
  | succ k ih =>
    constructor
    · rintro ⟨outs, after, count, gives⟩
      obtain ⟨⟨found, first⟩, outs, rfl⟩ := List.exists_cons_of_length_eq_add_one count
      obtain ⟨t, n, pulls, _, more⟩ := gives
      exact ⟨found, n, t, pulls, (ih first).mp ⟨outs, after, Nat.succ.inj count, more⟩⟩
    · rintro ⟨found, n, t, pulls, later⟩
      obtain ⟨outs, after, count, more⟩ := (ih (before + n)).mpr later
      exact ⟨(found, before + n) :: outs, after, congrArg (· + 1) count, t, n, pulls, rfl, more⟩

def pulledHead : Option α → Answers κ α → Head κ α
  | none, _ => .empty
  | some a, rest => .ready a rest

def Moves.afterForcing {h : Head κ α} (first : Moves force s (.suspended r))
    (later : Moves force r h) : Moves force s h where
  equiv x := (first.equiv x).trans (later.equiv x)
  rank_le x o := by
    let moved : Occurrence force r x := first.equiv x o
    have earlier : moved.rank + 1 ≤ o.rank := first.rank_le x o
    have after : Head.rank (later.equiv x moved) ≤ moved.rank := later.rank_le x moved
    change Head.rank (later.equiv x moved) ≤ o.rank
    omega

theorem nonempty_moves_of_pulls {found : Option α} {n : Nat} (pulls : Pulls force s found n t) :
    Nonempty (Moves force s (pulledHead found t)) := by
  induction pulls with
  | ended shows => exact nonempty_moves shows
  | found shows => exact nonempty_moves shows
  | forced shows later ih =>
    obtain ⟨first⟩ := nonempty_moves shows
    obtain ⟨after⟩ := ih
    exact ⟨first.afterForcing after⟩

theorem pulls_of_occurrence {x : α} (productive : Productive force s)
    (o : Occurrence force s x) : ∃ a n t, Pulls force s (some a) n t := by
  -- By induction on the rank of the occurrence.
  induction rank : o.rank using Nat.strongRecOn generalizing s with
  | ind bound ih =>
    obtain ⟨h, shows⟩ := productive s (.refl s)
    obtain ⟨moves⟩ := nonempty_moves shows
    cases h with
    | empty => cases moves.equiv x o
    | ready a r => exact ⟨a, 0, r, .found shows⟩
    | suspended r =>
      let moved : Occurrence force r x := moves.equiv x o
      have smaller : moved.rank + 1 ≤ o.rank := moves.rank_le x o
      obtain ⟨a, n, t, pulls⟩ := ih moved.rank (by omega)
        (fun u remains => productive u (.forced shows remains)) moved rfl
      exact ⟨a, n + 1, t, .forced shows pulls⟩

/-- The next answer of a stream, with what becomes of the other occurrences. -/
structure Next (force : κ → Answers κ α) (s : Answers κ α) where
  answer : α
  forcings : Nat
  rest : Answers κ α
  pulls : Pulls force s (some answer) forcings rest
  moves : Moves force s (.ready answer rest)

theorem nonempty_next {a : α} {n : Nat} (pulls : Pulls force s (some a) n t) :
    Nonempty (Next force s) := by
  obtain ⟨moves⟩ := nonempty_moves_of_pulls pulls
  exact ⟨⟨a, n, t, pulls, moves⟩⟩

namespace Next

def follow (next : Next force s) {x : α} (o : Occurrence force s x) :
    PLift (next.answer = x) ⊕ Occurrence force next.rest x :=
  next.moves.equiv x o

theorem follow_injective (next : Next force s) {x : α} {o p : Occurrence force s x}
    (same : next.follow o = next.follow p) : o = p :=
  (next.moves.equiv x).injective same

theorem follow_surjective (next : Next force s) {x : α}
    (place : PLift (next.answer = x) ⊕ Occurrence force next.rest x) :
    ∃ o, next.follow o = place :=
  (next.moves.equiv x).surjective place

theorem rank_lt (next : Next force s) {x : α} {o : Occurrence force s x}
    {later : Occurrence force next.rest x} (moved : next.follow o = .inr later) :
    later.rank < o.rank := by
  have bound : Head.rank (h := .ready next.answer next.rest) (next.follow o) ≤ o.rank :=
    next.moves.rank_le x o
  rw [moved] at bound
  exact bound

end Next

open Classical in
/-- The number of the pull that delivers the occurrence. -/
noncomputable def Occurrence.call : {s : Answers κ α} → {x : α} → Occurrence force s x → Nat
  | s, _, o =>
    if more : Nonempty (Next force s) then
      match moved : more.some.follow o with
      | .inl _ => 0
      | .inr later => later.call + 1
    else 0
termination_by _ _ o => o.rank
decreasing_by exact more.some.rank_lt moved

theorem call_follow {x : α} (more : Nonempty (Next force s)) (o : Occurrence force s x) :
    o.call = match more.some.follow o with
      | .inl _ => 0
      | .inr later => later.call + 1 := by
  rw [Occurrence.call, dif_pos more]
  split <;> next moved => rw [moved]

theorem more_of_occurrence {x : α} (productive : Productive force s)
    (o : Occurrence force s x) : Nonempty (Next force s) := by
  obtain ⟨_, _, _, pulls⟩ := pulls_of_occurrence productive o
  exact nonempty_next pulls

theorem givesAt_call {x : α} (productive : Productive force s) (o : Occurrence force s x) :
    GivesAt force o.call s x := by
  induction rank : o.rank using Nat.strongRecOn generalizing s with
  | ind bound ih =>
    have more := more_of_occurrence productive o
    rw [call_follow more o]
    cases moved : more.some.follow o with
    | inl same =>
      obtain ⟨rfl⟩ := same
      exact ⟨_, _, more.some.pulls⟩
    | inr later =>
      have earlier := more.some.rank_lt moved
      have rest := productive_of_pulls more.some.pulls productive
      exact ⟨_, _, _, more.some.pulls, ih later.rank (rank ▸ earlier) rest later rfl⟩

theorem call_injective {x y : α} (productive : Productive force s) (o : Occurrence force s x)
    (p : Occurrence force s y) (same : o.call = p.call) :
    (⟨x, o⟩ : Σ x, Occurrence force s x) = ⟨y, p⟩ := by
  induction rank : o.rank using Nat.strongRecOn generalizing s with
  | ind bound ih =>
    have more := more_of_occurrence productive o
    rw [call_follow more o, call_follow more p] at same
    cases moved : more.some.follow o with
    | inl first =>
      cases moved' : more.some.follow p with
      | inl second =>
        obtain ⟨rfl⟩ := first
        obtain ⟨rfl⟩ := second
        cases more.some.follow_injective (moved.trans moved'.symm)
        rfl
      | inr after =>
        rw [moved, moved'] at same
        cases same
    | inr later =>
      cases moved' : more.some.follow p with
      | inl second =>
        rw [moved, moved'] at same
        cases same
      | inr after =>
        rw [moved, moved'] at same
        have earlier := more.some.rank_lt moved
        have rest := productive_of_pulls more.some.pulls productive
        cases ih later.rank (rank ▸ earlier) rest later after (Nat.succ.inj same) rfl
        cases more.some.follow_injective (moved.trans moved'.symm)
        rfl

theorem call_surjective {k : Nat} {x : α} (gives : GivesAt force k s x) :
    ∃ o : Occurrence force s x, o.call = k := by
  induction k generalizing s with
  | zero =>
    obtain ⟨n, t, pulls⟩ := gives
    have more := nonempty_next pulls
    obtain ⟨same, -, -⟩ := pulls_unique more.some.pulls pulls
    obtain ⟨o, moved⟩ := more.some.follow_surjective (.inl ⟨Option.some.inj same⟩)
    exact ⟨o, by rw [call_follow more o, moved]⟩
  | succ k ih =>
    obtain ⟨found, n, t, pulls, later⟩ := gives
    cases found with
    | none =>
      cases rest_of_pulls_none pulls
      exact absurd later (not_givesAt_empty k x)
    | some a =>
      have more := nonempty_next pulls
      obtain ⟨-, -, rfl⟩ := pulls_unique more.some.pulls pulls
      obtain ⟨o, number⟩ := ih later
      obtain ⟨p, moved⟩ := more.some.follow_surjective (.inr o)
      exact ⟨p, by rw [call_follow more p, moved]; exact congrArg (· + 1) number⟩

end Answers

namespace Search

open Answers

variable {force : κ → Answers κ α} {s : Answers κ α}

/-- The call of this number, counted from zero, returns the answer. -/
def Delivers (force : κ → Answers κ α) (d : Search κ α) (k : Nat) (x : α) : Prop :=
  ∃ outs steps, outs.length = k ∧ d.Returns force (outs ++ [(some x, steps)])

theorem delivers_iff (k : Nat) (x : α) :
    (ofAnswers s .unbounded).Delivers force k x ↔ GivesAt force k s x := by
  rw [← gives_last_iff 0]
  constructor
  · rintro ⟨outs, steps, count, returns⟩
    exact ⟨outs, steps, count, (returns_iff_of_trims (trims_refl s)).mp returns⟩
  · rintro ⟨outs, steps, count, gives⟩
    exact ⟨outs, steps, count, (returns_iff_of_trims (trims_refl s)).mpr gives⟩

theorem occurrence_of_delivers {k : Nat} {x : α}
    (delivers : (ofAnswers s .unbounded).Delivers force k x) :
    Nonempty (Occurrence force s x) := by
  obtain ⟨o, _⟩ := call_surjective ((delivers_iff k x).mp delivers)
  exact ⟨o⟩

theorem delivers_of_occurrence {x : α} (productive : Productive force s)
    (o : Occurrence force s x) : ∃ k, (ofAnswers s .unbounded).Delivers force k x :=
  ⟨o.call, (delivers_iff o.call x).mpr (givesAt_call productive o)⟩

/-- The calls that return an answer and the occurrences of answers correspond one to one. -/
theorem calls_match_occurrences (force : κ → Answers κ α) (s : Answers κ α)
    (productive : Productive force s) :
    ∃ call : (Σ x, Occurrence force s x) → Nat, Function.Injective call ∧
      (∀ o, (ofAnswers s .unbounded).Delivers force (call o) o.1) ∧
      ∀ k x, (ofAnswers s .unbounded).Delivers force k x →
        ∃ o : Occurrence force s x, call ⟨x, o⟩ = k := by
  refine ⟨fun o => o.2.call, ?_, ?_, ?_⟩
  · intro o p same
    exact call_injective productive o.2 p.2 same
  · intro o
    exact (delivers_iff o.2.call o.1).mpr (givesAt_call productive o.2)
  · intro k x delivers
    exact call_surjective ((delivers_iff k x).mp delivers)

/-- Two codes: nothing without an end, and zero again and again. -/
def silenceOrZeros : Bool → Answers Bool Nat
  | false => .suspended false
  | true => .ready 0 (.suspended true)

/-- Answers without an end that wait on the right of a stream that never has one. -/
def zerosPastSilence : Answers Bool Nat :=
  .merging (.suspended false) (.feeding (.suspended true) fun n => .inl (.ofList [n, n + 1]))

theorem closed_silenceOrZeros : Closed silenceOrZeros fun _ => True := by
  intro code _
  cases code with
  | false => exact .suspended trivial
  | true => exact .ready 0 (.suspended trivial)

theorem zerosPastSilence_productive : Productive silenceOrZeros zerosPastSilence := by
  have pairs : Tame silenceOrZeros (fun _ => True)
      (.feeding (.suspended true) fun n => .inl (.ofList [n, n + 1])) :=
    .feeding (.suspended trivial) (fun _ _ _ _ => trivial) fun n _ => tame_ofList [n, n + 1]
  exact productive_of_tame closed_silenceOrZeros (.merging (.suspended trivial) pairs)

theorem zerosPastSilence_calls :
    ∃ call : (Σ x, Occurrence silenceOrZeros zerosPastSilence x) → Nat,
      Function.Injective call ∧
      (∀ o, (ofAnswers zerosPastSilence .unbounded).Delivers silenceOrZeros (call o) o.1) ∧
      ∀ k x, (ofAnswers zerosPastSilence .unbounded).Delivers silenceOrZeros k x →
        ∃ o : Occurrence silenceOrZeros zerosPastSilence x, call ⟨x, o⟩ = k :=
  calls_match_occurrences silenceOrZeros zerosPastSilence zerosPastSilence_productive

end Search

end RelationalSearch

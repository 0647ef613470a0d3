import RelationalSearch.Proofs.Refinement
import RelationalSearch.Search.Collect

/-!
Calls on a search. A call asks for the next answer, with the error of a step limit or without it,
or for up to so many answers at once. It has at most one reply, however many turns it is given. A
search that every pull leaves as it is has a standing reply for each call.
-/
namespace RelationalSearch

variable {κ α : Type}

inductive Call where
  | tryNext
  | next
  | tryTake (count : Nat)

inductive Reply (α : Type) where
  | tried (result : Except SearchError (Option α))
  | next (answer : Option α)
  | taken (result : Except SearchError (List α))

/-- The reply to a call when every pull comes to the same result, which is no answer. -/
def Call.standing (result : Except SearchError (Option α)) : Call → Reply α
  | .tryNext => .tried result
  | .next => .next result.toOption.join
  | .tryTake 0 => .taken (.ok [])
  | .tryTake (_ + 1) => .taken (result.map Option.toList)

def Outcome.ofResult {β : Type} : Except SearchError β → Outcome β
  | .ok b => .found b
  | .error e => .failed e

namespace Search

variable {force : κ → Answers κ α} {d e f : Search κ α} {turns more count : Nat}
  {result other : Except SearchError (Option α)}

/-- The call returns the reply and leaves the second search. -/
inductive Responds (force : κ → Answers κ α) (d : Search κ α) :
    Call → Reply α → Search κ α → Prop where
  | tryNext {turns : Nat} {result : Except SearchError (Option α)} {e : Search κ α}
      (pulled : d.pull force turns = (.ofResult result, e)) :
      Responds force d .tryNext (.tried result) e
  | next {turns : Nat} {answer : Option α} {e : Search κ α}
      (settled : (d.pull force turns).1 ≠ .unsettled) (pulled : d.next force turns = (answer, e)) :
      Responds force d .next (.next answer) e
  | tryTake {turns count : Nat} {result : Except SearchError (List α)} {e : Search κ α}
      (taken : d.tryTake force turns count = (.ofResult result, e)) :
      Responds force d (.tryTake count) (.taken result) e

/-- The calls return the replies, each with the number of suspensions forced until then, and leave
    the second search. -/
inductive Serves (force : κ → Answers κ α) :
    Search κ α → List Call → List (Reply α × Nat) → Search κ α → Prop where
  | done (d : Search κ α) : Serves force d [] [] d
  | call {d e f : Search κ α} {call : Call} {reply : Reply α} {calls : List Call}
      {replies : List (Reply α × Nat)} (responds : Responds force d call reply e)
      (later : Serves force e calls replies f) :
      Serves force d (call :: calls) ((reply, e.steps) :: replies) f

def Yields (force : κ → Answers κ α) (d : Search κ α) (result : Except SearchError (Option α))
    (e : Search κ α) : Prop :=
  ∃ turns, d.pull force turns = (.ofResult result, e)

inductive Takes (force : κ → Answers κ α) :
    Search κ α → Nat → Except SearchError (List α) → Search κ α → Prop where
  | enough (d : Search κ α) : Takes force d 0 (.ok []) d
  | ended {d e : Search κ α} {count : Nat} (yields : Yields force d (.ok none) e) :
      Takes force d (count + 1) (.ok []) e
  | failed {d e : Search κ α} {count : Nat} {error : SearchError}
      (yields : Yields force d (.error error) e) : Takes force d (count + 1) (.error error) e
  | answered {d e f : Search κ α} {count : Nat} {a : α} {result : Except SearchError (List α)}
      (yields : Yields force d (.ok (some a)) e) (later : Takes force e count result f) :
      Takes force d (count + 1) (result.map (a :: ·)) f

theorem yields_of_settled (settled : (d.pull force turns).1 ≠ .unsettled) :
    ∃ result, d.pull force turns = (.ofResult result, (d.pull force turns).2) := by
  cases pulled : d.pull force turns with
  | mk outcome e =>
    cases outcome with
    | found answer => exact ⟨.ok answer, rfl⟩
    | failed error => exact ⟨.error error, rfl⟩
    | unsettled =>
      rw [pulled] at settled
      exact absurd rfl settled

theorem ofResult_ne_unsettled {β : Type} (result : Except SearchError β) :
    Outcome.ofResult result ≠ .unsettled := by
  cases result <;> exact fun same => nomatch same

theorem ofResult_injective {β : Type} {result other : Except SearchError β}
    (same : Outcome.ofResult result = .ofResult other) : result = other := by
  cases result <;> cases other <;> cases same <;> rfl

theorem pull_of_yields (yields : Yields force d result e) :
    ∃ turns, ∀ more, d.pull force (turns + more) = (.ofResult result, e) := by
  obtain ⟨turns, pulled⟩ := yields
  refine ⟨turns, fun more => ?_⟩
  rw [pull_mono _ more, pulled]
  rw [pulled]
  exact ofResult_ne_unsettled result

theorem yields_unique (first : Yields force d result e) (second : Yields force d other f) :
    result = other ∧ e = f := by
  obtain ⟨n, pulled⟩ := first
  obtain ⟨m, pulled'⟩ := second
  obtain ⟨same, same'⟩ := pull_unique pulled pulled' (ofResult_ne_unsettled result)
    (ofResult_ne_unsettled other)
  exact ⟨ofResult_injective same, same'⟩

theorem takes_unique {results others : Except SearchError (List α)}
    (first : Takes force d count results e) (second : Takes force d count others f) :
    results = others ∧ e = f := by
  induction first generalizing others f with
  | enough d =>
    cases second
    exact ⟨rfl, rfl⟩
  | ended yields =>
    cases second with
    | ended yields' => exact ⟨rfl, (yields_unique yields yields').2⟩
    | failed yields' => cases (yields_unique yields yields').1
    | answered yields' later' => cases (yields_unique yields yields').1
  | failed yields =>
    cases second with
    | ended yields' => cases (yields_unique yields yields').1
    | failed yields' =>
      obtain ⟨same, rfl⟩ := yields_unique yields yields'
      cases same
      exact ⟨rfl, rfl⟩
    | answered yields' later' => cases (yields_unique yields yields').1
  | answered yields later ih =>
    cases second with
    | ended yields' => cases (yields_unique yields yields').1
    | failed yields' => cases (yields_unique yields yields').1
    | answered yields' later' =>
      obtain ⟨same, rfl⟩ := yields_unique yields yields'
      cases same
      obtain ⟨rfl, rfl⟩ := ih later'
      exact ⟨rfl, rfl⟩

theorem takes_of_tryTakeOnto {taken : List α}
    (settled : (d.tryTakeOnto force turns count taken).1 ≠ .unsettled) :
    ∃ result e, Takes force d count result e ∧ d.tryTakeOnto force turns count taken =
      (.ofResult (result.map (List.reverse · ++ taken)), e) := by
  induction count generalizing d taken with
  | zero => exact ⟨.ok [], d, .enough d, rfl⟩
  | succ count ih =>
    rw [tryTakeOnto] at settled ⊢
    cases pulled : d.pull force turns with
    | mk outcome e =>
      rw [pulled] at settled
      cases outcome with
      | found answer =>
        cases answer with
        | none => exact ⟨.ok [], e, .ended ⟨turns, pulled⟩, rfl⟩
        | some a =>
          obtain ⟨result, f, takes, same⟩ := ih settled
          refine ⟨_, f, .answered ⟨turns, pulled⟩ takes, same.trans ?_⟩
          cases result <;> simp [Except.map]
      | failed error => exact ⟨.error error, e, .failed ⟨turns, pulled⟩, rfl⟩
      | unsettled => exact absurd rfl settled

theorem tryTakeOnto_of_takes {result : Except SearchError (List α)}
    (takes : Takes force d count result e) :
    ∃ turns, ∀ more taken, d.tryTakeOnto force (turns + more) count taken =
      (.ofResult (result.map (List.reverse · ++ taken)), e) := by
  induction takes with
  | enough d => exact ⟨0, fun _ _ => rfl⟩
  | ended yields =>
    obtain ⟨turns, pulled⟩ := pull_of_yields yields
    refine ⟨turns, fun more taken => ?_⟩
    rw [tryTakeOnto, pulled]
    rfl
  | failed yields =>
    obtain ⟨turns, pulled⟩ := pull_of_yields yields
    refine ⟨turns, fun more taken => ?_⟩
    rw [tryTakeOnto, pulled]
    rfl
  | @answered d e f count a result yields later ih =>
    obtain ⟨turns, pulled⟩ := pull_of_yields yields
    obtain ⟨others, taking⟩ := ih
    refine ⟨turns + others, fun more taken => ?_⟩
    rw [tryTakeOnto, Nat.add_assoc, pulled]
    show e.tryTakeOnto force (turns + (others + more)) count (a :: taken) = _
    rw [Nat.add_left_comm, taking]
    cases result <;> simp [Except.map]

theorem tryTake_iff_takes {result : Except SearchError (List α)} :
    (∃ turns, d.tryTake force turns count = (.ofResult result, e)) ↔
      Takes force d count result e := by
  -- The answers are collected last one first and turned around at the end.
  have turned {found : Except SearchError (List α)} {turns : Nat} {f : Search κ α}
      (taking : d.tryTakeOnto force turns count [] =
        (.ofResult (found.map (List.reverse · ++ [])), f)) :
      d.tryTake force turns count = (.ofResult found, f) := by
    rw [tryTake, taking]
    cases found <;> simp [Except.map, Outcome.ofResult]
  constructor
  · rintro ⟨turns, taken⟩
    have settled : (d.tryTakeOnto force turns count []).1 ≠ .unsettled := by
      intro unsettled
      have same : (d.tryTake force turns count).1 = .unsettled := by
        rw [tryTake]
        split
        · next taking =>
          rw [taking] at unsettled
          cases unsettled
        · exact unsettled
      rw [taken] at same
      exact ofResult_ne_unsettled result same
    obtain ⟨found, f, takes, taking⟩ := takes_of_tryTakeOnto settled
    rw [turned taking] at taken
    injection taken with same same'
    rwa [← ofResult_injective same, ← same']
  · intro takes
    obtain ⟨turns, taking⟩ := tryTakeOnto_of_takes takes
    exact ⟨turns, turned (taking 0 [])⟩

theorem next_of_pull (pulled : d.pull force turns = (.ofResult result, e)) :
    d.next force turns = (result.toOption.join, e) := by
  rw [next, pulled]
  cases result <;> rfl

theorem responds_tryNext_iff {reply : Reply α} :
    Responds force d .tryNext reply e ↔
      ∃ result, reply = .tried result ∧ Yields force d result e := by
  constructor
  · intro responds
    cases responds with
    | tryNext pulled => exact ⟨_, rfl, _, pulled⟩
  · rintro ⟨result, rfl, turns, pulled⟩
    exact .tryNext pulled

theorem responds_next_iff {reply : Reply α} :
    Responds force d .next reply e ↔
      ∃ result, reply = .next result.toOption.join ∧ Yields force d result e := by
  constructor
  · intro responds
    cases responds with
    | next settled pulled =>
      obtain ⟨result, yields⟩ := yields_of_settled settled
      rw [next_of_pull yields] at pulled
      cases pulled
      exact ⟨result, rfl, _, yields⟩
  · rintro ⟨result, rfl, turns, pulled⟩
    refine .next ?_ (next_of_pull pulled)
    rw [pulled]
    exact ofResult_ne_unsettled result

theorem responds_tryTake_iff {reply : Reply α} :
    Responds force d (.tryTake count) reply e ↔
      ∃ result, reply = .taken result ∧ Takes force d count result e := by
  constructor
  · intro responds
    cases responds with
    | tryTake taken => exact ⟨_, rfl, tryTake_iff_takes.mp ⟨_, taken⟩⟩
  · rintro ⟨result, rfl, takes⟩
    obtain ⟨turns, taken⟩ := tryTake_iff_takes.mpr takes
    exact .tryTake taken

theorem responds_unique {call : Call} {reply other : Reply α}
    (first : Responds force d call reply e) (second : Responds force d call other f) :
    reply = other ∧ e = f := by
  cases call with
  | tryNext =>
    obtain ⟨result, rfl, yields⟩ := responds_tryNext_iff.mp first
    obtain ⟨result', rfl, yields'⟩ := responds_tryNext_iff.mp second
    obtain ⟨rfl, rfl⟩ := yields_unique yields yields'
    exact ⟨rfl, rfl⟩
  | next =>
    obtain ⟨result, rfl, yields⟩ := responds_next_iff.mp first
    obtain ⟨result', rfl, yields'⟩ := responds_next_iff.mp second
    obtain ⟨rfl, rfl⟩ := yields_unique yields yields'
    exact ⟨rfl, rfl⟩
  | tryTake count =>
    obtain ⟨result, rfl, takes⟩ := responds_tryTake_iff.mp first
    obtain ⟨result', rfl, takes'⟩ := responds_tryTake_iff.mp second
    obtain ⟨rfl, rfl⟩ := takes_unique takes takes'
    exact ⟨rfl, rfl⟩

theorem serves_unique {calls : List Call} {replies others : List (Reply α × Nat)}
    (first : Serves force d calls replies e) (second : Serves force d calls others f) :
    replies = others ∧ e = f := by
  induction first generalizing others f with
  | done d =>
    cases second
    exact ⟨rfl, rfl⟩
  | call responds later ih =>
    cases second with
    | call responds' later' =>
      obtain ⟨rfl, rfl⟩ := responds_unique responds responds'
      obtain ⟨rfl, rfl⟩ := ih later'
      exact ⟨rfl, rfl⟩

/-- Every pull comes to the result, which is no answer, and leaves the search as it is. -/
structure Stands (force : κ → Answers κ α) (d : Search κ α)
    (result : Except SearchError (Option α)) : Prop where
  yields : Yields force d result d
  none : ∀ a, result ≠ .ok (some a)

theorem responds_of_stands (stands : Stands force d result) (call : Call) :
    Responds force d call (call.standing result) d := by
  cases call with
  | tryNext => exact responds_tryNext_iff.mpr ⟨result, rfl, stands.yields⟩
  | next => exact responds_next_iff.mpr ⟨result, rfl, stands.yields⟩
  | tryTake count =>
    cases count with
    | zero => exact responds_tryTake_iff.mpr ⟨_, rfl, .enough d⟩
    | succ count =>
      refine responds_tryTake_iff.mpr ⟨_, rfl, ?_⟩
      cases result with
      | error error => exact .failed stands.yields
      | ok answer =>
        cases answer with
        | none => exact .ended stands.yields
        | some a => exact absurd rfl (stands.none a)

theorem serves_of_stands (stands : Stands force d result) (calls : List Call) :
    Serves force d calls (calls.map fun call => (call.standing result, d.steps)) d := by
  induction calls with
  | nil => exact .done d
  | cons call calls ih => exact .call (responds_of_stands stands call) ih

theorem serves_iff_of_stands (stands : Stands force d result) {calls : List Call}
    {replies : List (Reply α × Nat)} :
    Serves force d calls replies e ↔
      replies = calls.map (fun call => (call.standing result, d.steps)) ∧ e = d := by
  constructor
  · exact fun serves => serves_unique serves (serves_of_stands stands calls)
  · rintro ⟨rfl, rfl⟩
    exact serves_of_stands stands calls

end Search

end RelationalSearch

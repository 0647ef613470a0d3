import Mathlib.Data.Seq.Basic
import RelationalSearch.Proofs.Equivalence
import RelationalSearch.Proofs.Guarded
import RelationalSearch.Proofs.Pauses

/-!
Turns of the two sides of a merge. A search is seen to force suspensions and to give answers, one
after the other. Over a merge these events are those of searches over the two sides alone, taken
strictly in turn, and when one side has no more of them the other goes on alone. Beside a goal that
only forces, the answers of another goal therefore come in their order, each after as many forcings
more as there were events.
-/
namespace RelationalSearch

open Stream'

def takeTurn {ε : Type} (both : Seq ε × Seq ε) : Option (ε × Seq ε × Seq ε) :=
  match both.1.destruct, both.2.destruct with
  | some (x, s), _ => some (x, both.2, s)
  | none, some (y, t) => some (y, .nil, t)
  | none, none => none

/-- Takes from both sequences in turn, and from the other one when one of them is over. -/
def alternate {ε : Type} (s t : Seq ε) : Seq ε :=
  Seq.corec takeTurn (s, t)

/-- The places at which the events of two sequences stand when they alternate. An event of the
    first is there as long as the second has had one after each event before; when one of them is
    over the rest of the other follows as it is. -/
structure Alternates {ε : Type} (s t merged : Seq ε) : Prop where
  first : ∀ n x, s.get? n = some x → (∀ i < n, t.get? i ≠ none) → merged.get? (2 * n) = some x
  second : ∀ n y, t.get? n = some y → s.get? n ≠ none → merged.get? (2 * n + 1) = some y
  first_ended : ∀ n, s.get? n = none → (∀ i < n, s.get? i ≠ none ∧ t.get? i ≠ none) →
    merged.drop (2 * n) = t.drop n
  second_ended : ∀ n, t.get? n = none → s.get? n ≠ none → (∀ i < n, t.get? i ≠ none) →
    merged.drop (2 * n + 1) = s.drop (n + 1)

section Sequences

variable {ε : Type} {s t : Seq ε}

theorem alternate_cons (x : ε) (s t : Seq ε) : alternate (.cons x s) t = .cons x (alternate t s) :=
  Seq.corec_cons (by simp [takeTurn])

theorem alternate_nil (t : Seq ε) : alternate .nil t = t := by
  refine Seq.eq_of_bisim_strong (fun u v => u = alternate .nil v) rfl ?_
  rintro _ t rfl
  cases t with
  | nil => exact .inl (Seq.corec_nil _ _ (by simp [takeTurn]))
  | cons y t => exact .inr ⟨y, alternate .nil t, t, Seq.corec_cons (by simp [takeTurn]), rfl, rfl⟩

theorem alternate_get? (n : Nat) {x : ε} (s t : Seq ε) (here : s.get? n = some x)
    (before : ∀ i < n, t.get? i ≠ none) : (alternate s t).get? (2 * n) = some x := by
  -- By induction on the place, two events at a time.
  induction n generalizing s t with
  | zero =>
    cases s with
    | nil => cases here
    | cons y s => rwa [alternate_cons]
  | succ n ih =>
    cases s with
    | nil => cases here
    | cons y s =>
      cases t with
      | nil => exact absurd rfl (before 0 (Nat.succ_pos n))
      | cons z t =>
        rw [alternate_cons, alternate_cons]
        exact ih s t here fun i less => before (i + 1) (Nat.succ_lt_succ less)

theorem alternate_drop (n : Nat) (s t : Seq ε) (ended : s.get? n = none)
    (before : ∀ i < n, s.get? i ≠ none ∧ t.get? i ≠ none) :
    (alternate s t).drop (2 * n) = t.drop n := by
  induction n generalizing s t with
  | zero =>
    cases s with
    | nil => exact alternate_nil t
    | cons y s => cases ended
  | succ n ih =>
    cases s with
    | nil => exact absurd rfl (before 0 (Nat.succ_pos n)).1
    | cons y s =>
      cases t with
      | nil => exact absurd rfl (before 0 (Nat.succ_pos n)).2
      | cons z t =>
        rw [alternate_cons, alternate_cons, Nat.mul_succ, Seq.drop_succ_cons, Seq.drop_succ_cons,
          Seq.drop_succ_cons]
        exact ih s t ended fun i less => before (i + 1) (Nat.succ_lt_succ less)

theorem alternates_alternate (s t : Seq ε) : Alternates s t (alternate s t) where
  first n x here before := alternate_get? n s t here before
  second n y here there := by
    cases s with
    | nil => exact absurd rfl there
    | cons x s =>
      rw [alternate_cons]
      exact alternate_get? n t s here fun i less ended =>
        there (Seq.le_stable (.cons x s) less ended)
  first_ended n ended before := alternate_drop n s t ended before
  second_ended n ended there before := by
    cases s with
    | nil => exact absurd rfl there
    | cons x s =>
      rw [alternate_cons, Seq.drop_succ_cons, Seq.drop_succ_cons]
      exact alternate_drop n t s ended fun i less =>
        ⟨before i less, fun ended => there (Seq.le_stable (.cons x s) less ended)⟩

end Sequences

inductive Event (α : Type) where
  | forcing
  | answer (a : α)

variable {κ α : Type}

open Answers RelationalSearch.Frame

def Turn.events (turned : Turn κ α) (steps : Nat) : List (Event α) :=
  List.replicate (turned.next.steps - steps) .forcing ++ turned.answers.map .answer

namespace Search

variable {force : κ → Answers κ α} {s t u r : Answers κ α} {frames : List (Frame κ α)}
  {d e f : Search κ α} {h : Head κ α} {x y : Event α} {steps n place : Nat}

def events (force : κ → Answers κ α) : Nat → Search κ α → List (Event α)
  | 0, _ => []
  | turns + 1, d => (d.turn force).events d.steps ++ events force turns (d.turn force).next

def Happens (force : κ → Answers κ α) (d : Search κ α) (place : Nat) (x : Event α) : Prop :=
  ∃ turns, (d.events force turns)[place]? = some x

theorem events_prefix (force : κ → Answers κ α) (d : Search κ α) (turns more : Nat) :
    d.events force turns <+: d.events force (turns + more) := by
  induction turns generalizing d with
  | zero => exact List.nil_prefix
  | succ turns ih =>
    rw [Nat.add_right_comm, events, events, List.prefix_append_right_inj]
    exact ih _

theorem event_later {turns : Nat} (here : (d.events force turns)[place]? = some x) (more : Nat) :
    (d.events force (turns + more))[place]? = some x := by
  obtain ⟨later, whole⟩ := events_prefix force d turns more
  obtain ⟨inside, -⟩ := List.getElem?_eq_some_iff.mp here
  rwa [← whole, List.getElem?_append_left inside]

theorem happens_unique (first : d.Happens force place x) (second : d.Happens force place y) :
    x = y := by
  obtain ⟨n, here⟩ := first
  obtain ⟨m, here'⟩ := second
  have later' := event_later here' n
  rw [Nat.add_comm, event_later here m] at later'
  exact Option.some.inj later'

theorem happens_before (later : d.Happens force (place + 1) x) : ∃ y, d.Happens force place y := by
  obtain ⟨turns, here⟩ := later
  obtain ⟨inside, -⟩ := List.getElem?_eq_some_iff.mp here
  exact ⟨_, turns, List.getElem?_eq_getElem (Nat.lt_of_succ_lt inside)⟩

open Classical in
noncomputable def eventAt (force : κ → Answers κ α) (d : Search κ α) (place : Nat) :
    Option (Event α) :=
  if happens : ∃ x, d.Happens force place x then some happens.choose else none

theorem eventAt_eq_some_iff : d.eventAt force place = some x ↔ d.Happens force place x := by
  rw [eventAt]
  split
  · next happens =>
    rw [Option.some.injEq]
    constructor
    · rintro rfl
      exact happens.choose_spec
    · exact happens_unique happens.choose_spec
  · next never => exact ⟨fun same => (nomatch same), fun here => absurd ⟨x, here⟩ never⟩

/-- All that a search is ever seen to do, which may have no end. -/
noncomputable def trace (force : κ → Answers κ α) (d : Search κ α) : Seq (Event α) :=
  ⟨d.eventAt force, fun {place} ended => by
    rw [Option.eq_none_iff_forall_ne_some] at ended ⊢
    intro x later
    obtain ⟨y, here⟩ := happens_before (eventAt_eq_some_iff.mp later)
    exact ended y (eventAt_eq_some_iff.mpr here)⟩

theorem get?_trace : (d.trace force).get? place = some x ↔ d.Happens force place x :=
  eventAt_eq_some_iff

theorem happens_iff : d.Happens force place x ↔ ∃ turns,
    ((d.turn force).events d.steps ++ (d.turn force).next.events force turns)[place]? = some x := by
  constructor
  · rintro ⟨turns, here⟩
    cases turns with
    | zero => cases here
    | succ turns => exact ⟨turns, here⟩
  · exact fun ⟨turns, here⟩ => ⟨turns + 1, here⟩

theorem trace_silent (silent : (d.turn force).events d.steps = []) :
    d.trace force = (d.turn force).next.trace force := by
  ext place x
  rw [get?_trace, get?_trace, happens_iff, silent]
  exact Iff.rfl

theorem trace_event (seen : (d.turn force).events d.steps = [x]) :
    d.trace force = .cons x ((d.turn force).next.trace force) := by
  ext place y
  rw [get?_trace, happens_iff, seen]
  cases place with
  | zero =>
    rw [Seq.get?_cons_zero]
    exact ⟨fun ⟨_, here⟩ => here, fun here => ⟨0, here⟩⟩
  | succ place =>
    rw [Seq.get?_cons_succ, get?_trace]
    exact Iff.rfl

theorem trace_unforced (turned : d.turn force = .running e) (same : e.steps = d.steps) :
    d.trace force = e.trace force := by
  have silent : (d.turn force).events d.steps = [] := by
    simp [turned, Turn.events, Turn.next, Turn.answers, same]
  rw [trace_silent silent, turned]
  rfl

theorem trace_forced (turned : d.turn force = .running e) (once : e.steps = d.steps + 1) :
    d.trace force = .cons .forcing (e.trace force) := by
  have seen : (d.turn force).events d.steps = [.forcing] := by
    simp [turned, Turn.events, Turn.next, Turn.answers, once]
  rw [trace_event seen, turned]
  rfl

theorem trace_answered {a : α} (turned : d.turn force = .answer a e) (same : e.steps = d.steps) :
    d.trace force = .cons (.answer a) (e.trace force) := by
  have seen : (d.turn force).events d.steps = [.answer a] := by
    simp [turned, Turn.events, Turn.next, Turn.answers, same]
  rw [trace_event seen, turned]
  rfl

theorem trace_ended (ended : d.turn force = .exhausted d) : d.trace force = .nil := by
  have nothing (turns : Nat) : d.events force turns = [] := by
    induction turns with
    | zero => rfl
    | succ turns ih =>
      rw [events, ended]
      simpa [Turn.events, Turn.next, Turn.answers] using ih
  ext place x
  rw [get?_trace, Seq.get?_nil]
  constructor
  · rintro ⟨turns, here⟩
    rw [nothing] at here
    cases here
  · exact fun same => nomatch same

/-- The frames of the search make the stream of its focus, but for empty parts. -/
def StandsFor (d : Search κ α) (s : Answers κ α) : Prop :=
  ∃ t frames steps, d = ofFrames t frames steps .unbounded ∧ Trims s (surround frames t)

theorem standsFor_ofAnswers (s : Answers κ α) : (ofAnswers s .unbounded).StandsFor s :=
  ⟨s, [], 0, rfl, trims_refl s⟩

theorem trace_of_runs {config : SearchConfig}
    (runs : Runs force n (ofFrames t frames steps config) e)
    (same : e.steps = steps) : (ofFrames t frames steps config).trace force = e.trace force := by
  induction n generalizing t frames steps with
  | zero =>
    cases runs
    rfl
  | succ n ih =>
    cases runs with
    | step turned more =>
      have goes := turn_goes force config t frames steps
      rw [turned] at goes
      cases goes with
      | shifted => exact (trace_unforced turned rfl).trans (ih more same)
      | forced =>
        have passed := steps_le_of_runs more
        omega

inductive Emits : Head κ α → Event α → Answers κ α → Prop where
  | ready (a : α) (r : Answers κ α) : Emits (.ready a r) (.answer a) r
  | suspended (r : Answers κ α) : Emits (.suspended r) .forcing r

theorem empty_or_emits (h : Head κ α) : h = .empty ∨ ∃ x r, Emits h x r := by
  cases h with
  | empty => exact .inl rfl
  | ready a r => exact .inr ⟨_, r, .ready a r⟩
  | suspended r => exact .inr ⟨_, r, .suspended r⟩

theorem trace_of_empty (stands : d.StandsFor s) (shows : Shows force s .empty) :
    d.trace force = .nil := by
  obtain ⟨t, frames, steps, rfl, trims⟩ := stands
  obtain ⟨turns, _, _, runs, arrives⟩ := runs_to_head steps .unbounded shows trims
  cases arrives
  rw [trace_of_runs runs rfl]
  exact trace_ended turn_empty_end

theorem trace_of_emits (stands : d.StandsFor s) (shows : Shows force s h) (emits : Emits h x r) :
    ∃ e : Search κ α, e.StandsFor r ∧ d.trace force = .cons x (e.trace force) := by
  obtain ⟨t, frames, steps, rfl, trims⟩ := stands
  obtain ⟨turns, _, _, runs, arrives⟩ := runs_to_head steps .unbounded shows trims
  rw [trace_of_runs runs rfl]
  cases emits with
  | ready a =>
    cases arrives with
    | @ready _ rest _ restTrims =>
      exact ⟨ofFrames rest [] steps .unbounded, ⟨rest, [], steps, rfl, restTrims⟩,
        trace_answered (turn_ready_end a) rfl⟩
  | suspended =>
    cases arrives with
    | suspended code inner forced =>
      obtain ⟨focus, others, forces, whole⟩ := turn_forces force inner code
      rw [← whole] at forced
      exact ⟨ofFrames focus others (steps + 1) .unbounded, ⟨focus, others, steps + 1, rfl, forced⟩,
        trace_forced (forces steps .unbounded (SearchConfig.unbounded_allows steps)) rfl⟩

theorem productive_of_emits (productive : Productive force s) (shows : Shows force s h)
    (emits : Emits h x r) : Productive force r := by
  cases emits with
  | ready a => exact fun t remains => productive t (.answered shows remains)
  | suspended => exact fun t remains => productive t (.forced shows remains)

theorem trace_congr (productive : Productive force t) (first : d.StandsFor s)
    (second : e.StandsFor t) (displays : Displays force t s) : d.trace force = e.trace force := by
  refine Seq.eq_of_bisim_strong (fun u v => ∃ s t d e, Productive force t ∧ d.StandsFor s ∧
    e.StandsFor t ∧ Displays force t s ∧ u = d.trace force ∧ v = e.trace force)
    ⟨s, t, d, e, productive, first, second, displays, rfl, rfl⟩ ?_
  rintro _ _ ⟨s, t, d, e, productive, first, second, displays, rfl, rfl⟩
  obtain ⟨h, shows⟩ := productive t (.refl t)
  rcases empty_or_emits h with rfl | ⟨x, r, emits⟩
  · left
    rw [trace_of_empty first (displays _ shows), trace_of_empty second shows]
  · obtain ⟨d', first', seen⟩ := trace_of_emits first (displays _ shows) emits
    obtain ⟨e', second', seen'⟩ := trace_of_emits second shows emits
    exact .inr ⟨x, _, _, seen, seen', r, r, d', e', productive_of_emits productive shows emits,
      first', second', fun _ => id, rfl, rfl⟩

theorem shows_merging (left : Shows force s h) (emits : Emits h x r) (t : Answers κ α) :
    ∃ k, Shows force (.merging s t) k ∧ Emits k x (.merging t r) := by
  cases emits with
  | ready a => exact ⟨_, .mplus_ready left, .ready a _⟩
  | suspended => exact ⟨_, .mplus_suspended left, .suspended _⟩

theorem trace_merging (productive : Productive force s) (productive' : Productive force t)
    (both : d.StandsFor u) (merged : Displays force (.merging s t) u) (first : e.StandsFor s)
    (second : f.StandsFor t) : d.trace force = alternate (e.trace force) (f.trace force) := by
  refine Seq.eq_of_bisim_strong (fun v w => ∃ s t u d e f, Productive force s ∧ Productive force t ∧
    d.StandsFor u ∧ Displays force (.merging s t) u ∧ e.StandsFor s ∧ f.StandsFor t ∧
    v = d.trace force ∧ w = alternate (e.trace force) (f.trace force))
    ⟨s, t, u, d, e, f, productive, productive', both, merged, first, second, rfl, rfl⟩ ?_
  rintro _ _ ⟨s, t, u, d, e, f, productive, productive', both, merged, first, second, rfl, rfl⟩
  obtain ⟨h, shows⟩ := productive s (.refl s)
  -- After an event the sides have changed places; after the end of one both traces are the other's.
  rcases empty_or_emits h with rfl | ⟨x, r, emits⟩
  · left
    rw [trace_of_empty first shows, alternate_nil]
    exact trace_congr productive' both second fun k right => merged k (.mplus_empty shows right)
  · obtain ⟨k, turns, swapped⟩ := shows_merging shows emits t
    obtain ⟨d', both', seen⟩ := trace_of_emits both (merged k turns) swapped
    obtain ⟨e', first', seen'⟩ := trace_of_emits first shows emits
    refine .inr ⟨x, d'.trace force, alternate (f.trace force) (e'.trace force), seen, ?_, t, r, _,
      d', f, e', productive', productive_of_emits productive shows emits, both', fun _ => id, second,
      first', rfl, rfl⟩
    rw [seen', alternate_cons]

end Search

namespace Answers

variable {force : κ → Answers κ α} {s t u : Answers κ α} {silent : κ} {found : Option α} {n : Nat}

/-- What is returned beside something that only forces, if alone the answers come after so many
    forcings each: one forcing of the other side comes before each forcing and before each answer.
    The given number of answers has come before. -/
def besideSilence (given : Nat) (answers : List (α × Nat)) : List (Option α × Nat) :=
  answers.mapIdx fun i found => (some found.1, 2 * found.2 + (given + i + 1))

theorem besideSilence_cons (given : Nat) (a : α) (n : Nat) (answers : List (α × Nat)) :
    besideSilence given ((a, n) :: answers) =
      (some a, 2 * n + (given + 1)) :: besideSilence (given + 1) answers := by
  simp [besideSilence, List.mapIdx_cons, Nat.add_assoc, Nat.add_comm 1]

section Silence

variable (silence : force silent = .suspended silent)

include silence

theorem not_pulls_silence : ¬ Pulls force (.suspended silent) found n t := by
  intro pulls
  induction n with
  | zero =>
    cases pulls with
    | ended shows => cases shows
    | found shows => cases shows
  | succ n ih =>
    cases pulls with
    | forced shows later =>
      cases shows
      rw [silence] at later
      exact ih later

/-- Silence takes its turn, and then it is the turn of the stream. -/
theorem pulls_beside_silence_iff :
    Pulls force (.merging (.suspended silent) s) found n t ↔
      ∃ m, n = m + 1 ∧ Pulls force (.merging s (.suspended silent)) found m t := by
  have forced : Shows force (.merging (.suspended silent) s)
      (.suspended (.merging s (.suspended silent))) := by
    have left : Shows force (.suspended silent) (.suspended (.suspended silent)) := by
      have shows : Shows force _ _ := .suspended silent
      rwa [silence] at shows
    exact .mplus_suspended left
  constructor
  · intro pulls
    cases pulls with
    | ended shows => cases shows_unique shows forced
    | found shows => cases shows_unique shows forced
    | @forced _ _ _ _ m shows later =>
      cases shows_unique shows forced
      exact ⟨m, rfl, later⟩
  · rintro ⟨m, rfl, later⟩
    exact .forced forced later

theorem pulls_beside_silence {a : α} (pulls : Pulls force s (some a) n t) :
    Pulls force (.merging (.suspended silent) s) (some a) (2 * n + 1)
      (.merging (.suspended silent) t) := by
  induction n generalizing s with
  | zero =>
    cases pulls with
    | found shows =>
      exact (pulls_beside_silence_iff silence).mpr ⟨0, rfl, .found (.mplus_ready shows)⟩
  | succ n ih =>
    cases pulls with
    | forced shows later =>
      exact (pulls_beside_silence_iff silence).mpr
        ⟨2 * (n + 1), rfl, .forced (.mplus_suspended shows) (ih later)⟩

theorem pulls_without_silence (pulls : Pulls force (.merging (.suspended silent) s) found n t) :
    ∃ a m u, found = some a ∧ n = 2 * m + 1 ∧ t = .merging (.suspended silent) u ∧
      Pulls force s (some a) m u := by
  -- A forcing of the stream takes two of the merge, so the number goes down by two at once.
  induction n using Nat.strongRecOn generalizing s with
  | ind n ih =>
    obtain ⟨m, rfl, later⟩ := (pulls_beside_silence_iff silence).mp pulls
    cases later with
    | ended shows =>
      cases shows with
      | mplus_empty left right => cases right
    | found shows =>
      cases shows with
      | mplus_empty left right => cases right
      | mplus_ready left => exact ⟨_, 0, _, rfl, rfl, rfl, .found left⟩
    | forced shows rest =>
      cases shows with
      | mplus_empty left right =>
        cases right
        rw [silence] at rest
        exact absurd rest (not_pulls_silence silence)
      | mplus_suspended left =>
        obtain ⟨a, k, u, rfl, rfl, rfl, inside⟩ := ih _ (by omega) rest
        exact ⟨a, k + 1, u, rfl, by omega, rfl, .forced left inside⟩

theorem gives_beside_silence_iff {outs : List (Option α × Nat)} {before given : Nat} :
    Gives force (.merging (.suspended silent) s) (2 * before + given) outs ↔
      ∃ answers, outs = besideSilence given answers ∧
        Gives force s before (answers.map fun found => (some found.1, found.2)) := by
  induction outs generalizing s before given with
  | nil =>
    constructor
    · exact fun _ => ⟨[], rfl, trivial⟩
    · exact fun _ => trivial
  | cons out outs ih =>
    have counted (m : Nat) : 2 * before + given + (2 * m + 1) = 2 * (before + m) + (given + 1) := by
      omega
    constructor
    · obtain ⟨found, after⟩ := out
      rintro ⟨t, n, pulls, rfl, more⟩
      obtain ⟨a, m, u, rfl, rfl, rfl, inside⟩ := pulls_without_silence silence pulls
      rw [counted] at more ⊢
      obtain ⟨answers, rfl, rest⟩ := ih.mp more
      exact ⟨(a, before + m) :: answers, (besideSilence_cons ..).symm, u, m, inside, rfl, rest⟩
    · rintro ⟨answers, same, gives⟩
      cases answers with
      | nil => cases same
      | cons answer answers =>
        obtain ⟨a, found⟩ := answer
        obtain ⟨u, m, inside, rfl, rest⟩ := gives
        rw [besideSilence_cons, ← counted] at same
        cases same
        refine ⟨_, _, pulls_beside_silence silence inside, rfl, ?_⟩
        rw [counted]
        exact ih.mpr ⟨answers, rfl, rest⟩

end Silence

end Answers

/-- A search over a merge is seen to do what searches over its two sides do alone, in strict
    alternation. So a goal beside one that has no answer and no end returns what it returns alone, in
    the same order; what comes as the answer of number k after n forcings alone comes after k more
    than twice as many. -/
theorem merges_alternate (force : κ → Answers κ α) (p : Program) :
    (∀ s t, Productive force s → Productive force t →
      let seen := (Search.ofAnswers (s.merge t) .unbounded).trace force
      let first := (Search.ofAnswers s .unbounded).trace force
      let second := (Search.ofAnswers t .unbounded).trace force
      seen = alternate first second ∧ Alternates first second seen) ∧
    ∀ g scope s outs,
      (Search.ofAnswers (p.solve (.disj .never g) scope s) .unbounded).Returns p.force outs ↔
        ∃ answers, outs = besideSilence 0 answers ∧
          (Search.ofAnswers (p.solve g scope s) .unbounded).Returns p.force
            (answers.map fun found => (some found.1, found.2)) := by
  constructor
  · intro s t productive productive' seen first second
    have whole : seen = alternate first second :=
      Search.trace_merging productive productive' (Search.standsFor_ofAnswers _)
        (sameHeads_merge force s t).onward (Search.standsFor_ofAnswers s)
        (Search.standsFor_ofAnswers t)
    rw [whole]
    exact ⟨rfl, alternates_alternate first second⟩
  · intro g scope s outs
    have returns (g : Goal) (outs : List (Option Subst × Nat)) :
        (Search.ofAnswers (p.solve g scope s) .unbounded).Returns p.force outs ↔
          Gives p.force (p.solve g scope s) 0 outs :=
      Search.returns_iff_of_trims (trims_refl (p.solve g scope s))
    have silence : p.force (.goal scope .never s) = .suspended (.goal scope .never s) := rfl
    have beside : Gives p.force (p.solve (.disj .never g) scope s) (2 * 0 + 0) outs ↔
        ∃ answers, outs = besideSilence 0 answers ∧
          Gives p.force (p.solve g scope s) 0 (answers.map fun found => (some found.1, found.2)) :=
      gives_beside_silence_iff silence
    simp only [returns]
    exact beside

def zerosAndOnes : Answers Bool Nat :=
  .feeding (.suspended true) fun n => .inl (.ofList [n, n + 1])

/-- Beside silence the first answer, the second event of its side, is the fourth event. -/
theorem zeros_alternate_with_silence :
    Productive Search.silenceOrZeros (.suspended false) ∧
      Productive Search.silenceOrZeros zerosAndOnes ∧
      ((Search.ofAnswers (merge (.suspended false) zerosAndOnes) .unbounded).trace
        Search.silenceOrZeros).get? 3 = some (.answer 0) := by
  have closed := Search.closed_silenceOrZeros
  have silence : Productive Search.silenceOrZeros (.suspended false) :=
    productive_of_tame closed (.suspended trivial)
  have zeros : Productive Search.silenceOrZeros zerosAndOnes :=
    productive_of_tame closed (.feeding (.suspended trivial) (fun _ _ _ _ => trivial)
      fun n _ => tame_ofList [n, n + 1])
  obtain ⟨merges, -⟩ := merges_alternate Search.silenceOrZeros Program.peano
  obtain ⟨-, alternates⟩ := merges (.suspended false) zerosAndOnes silence zeros
  have second : ((Search.ofAnswers zerosAndOnes .unbounded).trace Search.silenceOrZeros).get? 1 =
      some (.answer 0) := Search.get?_trace.mpr ⟨7, rfl⟩
  have first : ((Search.ofAnswers (.suspended false) .unbounded).trace
      Search.silenceOrZeros).get? 1 = some .forcing := Search.get?_trace.mpr ⟨2, rfl⟩
  refine ⟨silence, zeros, alternates.second 1 (.answer 0) second ?_⟩
  rw [first]
  exact fun same => nomatch same

end RelationalSearch

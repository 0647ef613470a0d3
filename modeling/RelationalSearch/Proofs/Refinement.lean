import RelationalSearch.Proofs.Frames
import RelationalSearch.Proofs.Trimming

/-!
A search without a step limit gives the results of the stream algebra, in the same order and
after the same number of forcings. The stream that a search stands for is, but for empty
parts, the one that the algebra has come to; turns that force nothing look for its head.
-/
namespace RelationalSearch

variable {κ α : Type}

open Answers RelationalSearch.Frame

namespace Search

variable {force : κ → Answers κ α} {s t : Answers κ α}
  {outer inner frames : List (Frame κ α)} {steps : Nat} {config : SearchConfig}

/-- The results of the first pulls, each with the number of suspensions forced until then. -/
def Returns (force : κ → Answers κ α) : Search κ α → List (Option α × Nat) → Prop
  | _, [] => True
  | d, (found, steps) :: more =>
    ∃ turns next, d.pull force turns = (.found found, next) ∧ next.steps = steps ∧
      next.Returns force more

inductive Runs (force : κ → Answers κ α) : Nat → Search κ α → Search κ α → Prop where
  | refl (d : Search κ α) : Runs force 0 d d
  | step {d next last : Search κ α} {turns : Nat} (turn : d.turn force = .running next)
      (more : Runs force turns next last) : Runs force (turns + 1) d last

/-- Where a search stands, inside the outer frames, when its focus has shown a head. -/
inductive Arrives (force : κ → Answers κ α) (outer : List (Frame κ α)) :
    Head κ α → Answers κ α → List (Frame κ α) → Prop where
  | empty : Arrives force outer .empty .empty outer
  | ready {s s' : Answers κ α} (a : α) (rest : Trims s s') :
      Arrives force outer (.ready a s) (.ready a s') outer
  | suspended {s : Answers κ α} (code : κ) (inner : List (Frame κ α))
      (forced : Trims s (rebuild inner (force code))) :
      Arrives force outer (.suspended s) (.suspended code) (outer ++ inner)

def Reaches (force : κ → Answers κ α) (outer : List (Frame κ α)) (h : Head κ α)
    (d : Search κ α) : Prop :=
  ∃ turns focus others, Runs force turns d (ofFrames focus others d.steps d.config) ∧
    Arrives force outer h focus others

theorem runs_one {d next : Search κ α} (turn : d.turn force = .running next) :
    Runs force 1 d next :=
  .step turn (.refl next)

theorem runs_trans {d e f : Search κ α} {n m : Nat} (first : Runs force n d e)
    (second : Runs force m e f) : Runs force (n + m) d f := by
  induction first with
  | refl => rwa [Nat.zero_add]
  | step turn more ih =>
    rw [Nat.add_right_comm]
    exact .step turn (ih second)

theorem pull_runs {d e : Search κ α} {n : Nat} (runs : Runs force n d e) (turns : Nat) :
    d.pull force (n + turns) = e.pull force turns := by
  induction runs with
  | refl => rw [Nat.zero_add]
  | step turn more ih =>
    rw [Nat.add_right_comm, pull_succ, turn]
    exact ih

theorem reaches_of_runs {h : Head κ α} {turns : Nat} {focus : Answers κ α}
    {others : List (Frame κ α)}
    (runs : Runs force turns (ofFrames t frames steps config) (ofFrames focus others steps config))
    (later : Reaches force outer h (ofFrames focus others steps config)) :
    Reaches force outer h (ofFrames t frames steps config) := by
  obtain ⟨more, last, lastFrames, rest, arrives⟩ := later
  exact ⟨turns + more, last, lastFrames, runs_trans runs rest, arrives⟩

theorem reaches_ready {d : Search κ α} {a : α} (more : ∀ s', Trims s s' → Trims t s')
    (reaches : Reaches force outer (.ready a s) d) : Reaches force outer (.ready a t) d := by
  obtain ⟨turns, _, _, runs, arrives⟩ := reaches
  cases arrives with
  | ready _ rest => exact ⟨turns, _, _, runs, .ready a (more _ rest)⟩

theorem reaches_suspended {d : Search κ α} (more : ∀ s', Trims s s' → Trims t s')
    (reaches : Reaches force outer (.suspended s) d) : Reaches force outer (.suspended t) d := by
  obtain ⟨turns, _, _, runs, arrives⟩ := reaches
  cases arrives with
  | suspended code inner forced =>
    exact ⟨turns, _, _, runs, .suspended code inner (more _ forced)⟩

theorem leave_merge_empty {h : Head κ α} {r : Answers κ α}
    (left : Reaches force (outer ++ [.merge r]) .empty (ofFrames t frames steps config))
    (right : Reaches force outer h (ofFrames r outer steps config)) :
    Reaches force outer h (ofFrames t frames steps config) := by
  obtain ⟨_, _, _, runs, arrives⟩ := left
  cases arrives
  exact reaches_of_runs (runs_trans runs (runs_one turn_empty_merge)) right

theorem leave_merge_ready {r u : Answers κ α} {a : α}
    (left : Reaches force (outer ++ [.merge r]) (.ready a s) (ofFrames t frames steps config))
    (right : Trims u r) :
    Reaches force outer (.ready a (.merging u s)) (ofFrames t frames steps config) := by
  obtain ⟨_, _, _, runs, arrives⟩ := left
  cases arrives with
  | ready _ rest =>
    exact ⟨_, _, _, runs_trans runs (runs_one (turn_ready_merge a)), .ready a (.merging right rest)⟩

theorem leave_merge_suspended {r u : Answers κ α}
    (left : Reaches force (outer ++ [.merge r]) (.suspended s) (ofFrames t frames steps config))
    (right : Trims u r) :
    Reaches force outer (.suspended (.merging u s)) (ofFrames t frames steps config) := by
  obtain ⟨_, _, _, runs, arrives⟩ := left
  cases arrives with
  | suspended code inner forced =>
    rw [List.append_assoc] at runs
    exact ⟨_, _, _, runs, .suspended code (.merge r :: inner) (.merging right forced)⟩

theorem leave_bind_empty {g : α → Answers κ α ⊕ κ}
    (source : Reaches force (outer ++ [.bind g]) .empty (ofFrames t frames steps config)) :
    Reaches force outer .empty (ofFrames t frames steps config) := by
  obtain ⟨_, _, _, runs, arrives⟩ := source
  cases arrives
  exact ⟨_, _, _, runs_trans runs (runs_one (turn_empty_bind g)), .empty⟩

theorem leave_bind_ready {h : Head κ α} {g : α → Answers κ α ⊕ κ} {a : α}
    (source : Reaches force (outer ++ [.bind g]) (.ready a s) (ofFrames t frames steps config))
    (results : ∀ u, Trims (.merging (given force (g a)) (.feeding s g)) u →
      Reaches force outer h (ofFrames u outer steps config)) :
    Reaches force outer h (ofFrames t frames steps config) := by
  obtain ⟨_, _, _, runs, arrives⟩ := source
  cases arrives with
  | @ready _ s' _ rest =>
    cases last : s'.isEmpty with
    | true =>
      cases (isEmpty_iff s').mp last
      exact reaches_of_runs (runs_trans runs (runs_one (turn_ready_bind_last a g)))
        (results _ (.keep_left (trims_refl _) (.feed_nothing g rest)))
    | false =>
      exact reaches_of_runs (runs_trans runs (runs_one (turn_ready_bind a g last)))
        (results _ (.merging (trims_refl _) (.feeding g rest)))

theorem leave_bind_suspended {g : α → Answers κ α ⊕ κ}
    (source : Reaches force (outer ++ [.bind g]) (.suspended s) (ofFrames t frames steps config)) :
    Reaches force outer (.suspended (.feeding s g)) (ofFrames t frames steps config) := by
  obtain ⟨_, _, _, runs, arrives⟩ := source
  cases arrives with
  | suspended code inner forced =>
    rw [List.append_assoc] at runs
    exact ⟨_, _, _, runs, .suspended code (.bind g :: inner) (.feeding g forced)⟩

theorem surround_eq_bare (bare : ∀ frame other, wrap frame other ≠ t)
    (same : surround frames s = t) : frames = [] ∧ s = t := by
  cases frames with
  | nil => exact ⟨rfl, same⟩
  | cons frame frames => exact absurd same (bare frame _)

section Entering

/- What is known of a part of the stream: wherever its trimmed form is in focus, opened as far
   as it may be, its head is found. -/
variable {h : Head κ α} (evaluates : ∀ (t : Answers κ α) (frames outer : List (Frame κ α)),
  Trims s (surround frames t) → Reaches force outer h (ofFrames t (outer ++ frames) steps config))

include evaluates

theorem reaches_in_focus (trims : Trims s t) :
    Reaches force outer h (ofFrames t outer steps config) := by
  have reaches := evaluates t [] outer trims
  rwa [List.append_nil] at reaches

theorem enter_merging (outer : List (Frame κ α)) {u : Answers κ α}
    (trims : Trims (.merging s u) (surround frames t)) :
    (∃ r, Trims u r ∧
      Reaches force (outer ++ [.merge r]) h (ofFrames t (outer ++ frames) steps config)) ∨
    (Trims u .empty ∧ Reaches force outer h (ofFrames t (outer ++ frames) steps config)) ∨
    (Trims s .empty ∧ Trims u (surround frames t)) := by
  generalize whole : surround frames t = v at trims
  cases trims with
  | @merging _ l _ r left right =>
    cases frames with
    | nil =>
      cases whole
      cases nothing : r.isEmpty with
      | true =>
        cases (isEmpty_iff r).mp nothing
        refine .inr (.inl ⟨right, reaches_of_runs (runs_one turn_merging_empty) ?_⟩)
        rw [List.append_nil]
        exact reaches_in_focus evaluates left
      | false =>
        refine .inl ⟨r, right, reaches_of_runs (runs_one (turn_merging nothing)) ?_⟩
        rw [List.append_nil]
        exact reaches_in_focus evaluates left
    | cons frame frames =>
      cases frame with
      | bind g => cases whole
      | merge other =>
        cases whole
        refine .inl ⟨r, right, ?_⟩
        have inside := evaluates t frames (outer ++ [.merge r]) left
        rwa [List.append_assoc] at inside
  | keep_left left right =>
    rw [← whole] at left
    exact .inr (.inl ⟨right, evaluates t frames outer left⟩)
  | keep_right left right => exact .inr (.inr ⟨left, right⟩)

theorem enter_feeding (outer : List (Frame κ α)) {g : α → Answers κ α ⊕ κ}
    (trims : Trims (.feeding s g) (surround frames t)) :
    Reaches force (outer ++ [.bind g]) h (ofFrames t (outer ++ frames) steps config) ∨
    (Trims s .empty ∧ Reaches force outer .empty (ofFrames t (outer ++ frames) steps config)) := by
  generalize whole : surround frames t = v at trims
  cases trims with
  | @feeding _ source _ trimsSource =>
    left
    cases frames with
    | nil =>
      cases whole
      refine reaches_of_runs (runs_one (turn_feeding g)) ?_
      rw [List.append_nil]
      exact reaches_in_focus evaluates trimsSource
    | cons frame frames =>
      cases frame with
      | merge other => cases whole
      | bind f =>
        cases whole
        have inside := evaluates t frames (outer ++ [.bind g]) trimsSource
        rwa [List.append_assoc] at inside
  | feed_nothing _ trimsSource =>
    obtain ⟨rfl, rfl⟩ := surround_eq_bare (by rintro (_ | _) _ <;> simp [wrap]) whole
    rw [List.append_nil]
    exact .inr ⟨trimsSource, 0, _, _, .refl _, .empty⟩

end Entering

theorem reaches_of_shows {h : Head κ α} (shows : Shows force s h) :
    ∀ (t : Answers κ α) (frames outer : List (Frame κ α)), Trims s (surround frames t) →
      Reaches force outer h (ofFrames t (outer ++ frames) steps config) := by
  -- The induction is on the head that the algebra finds; the frames inside the outer ones are what
  -- the search has already opened of that stream.
  induction shows with
  | empty =>
    intro t frames outer trims
    generalize whole : surround frames t = u at trims
    cases trims
    obtain ⟨rfl, rfl⟩ := surround_eq_bare (by rintro (_ | _) _ <;> simp [wrap]) whole
    rw [List.append_nil]
    exact ⟨0, _, _, .refl _, .empty⟩
  | ready a rest =>
    intro t frames outer trims
    generalize whole : surround frames t = u at trims
    cases trims with
    | ready _ restTrims =>
      obtain ⟨rfl, rfl⟩ := surround_eq_bare (by rintro (_ | _) _ <;> simp [wrap]) whole
      rw [List.append_nil]
      exact ⟨0, _, _, .refl _, .ready a restTrims⟩
  | suspended code =>
    intro t frames outer trims
    generalize whole : surround frames t = u at trims
    cases trims
    obtain ⟨rfl, rfl⟩ := surround_eq_bare (by rintro (_ | _) _ <;> simp [wrap]) whole
    exact ⟨0, _, _, .refl _, .suspended code [] (trims_refl _)⟩
  | mplus_empty left right ihl ihr =>
    intro t frames outer trims
    rcases enter_merging ihl outer trims with
      ⟨r, trimsRight, reaches⟩ | ⟨trimsRight, reaches⟩ | ⟨_, trimsRight⟩
    · exact leave_merge_empty reaches (reaches_in_focus ihr trimsRight)
    · cases shows_unique right (shows_empty_of_trims trimsRight rfl)
      exact reaches
    · exact ihr t frames outer trimsRight
  | mplus_ready left ih =>
    intro t frames outer trims
    rcases enter_merging ih outer trims with
      ⟨r, trimsRight, reaches⟩ | ⟨trimsRight, reaches⟩ | ⟨trimsLeft, _⟩
    · exact leave_merge_ready reaches trimsRight
    · exact reaches_ready (fun _ => .keep_right trimsRight) reaches
    · cases shows_unique left (shows_empty_of_trims trimsLeft rfl)
  | mplus_suspended left ih =>
    intro t frames outer trims
    rcases enter_merging ih outer trims with
      ⟨r, trimsRight, reaches⟩ | ⟨trimsRight, reaches⟩ | ⟨trimsLeft, _⟩
    · exact leave_merge_suspended reaches trimsRight
    · exact reaches_suspended (fun _ => .keep_right trimsRight) reaches
    · cases shows_unique left (shows_empty_of_trims trimsLeft rfl)
  | bind_empty source ih =>
    intro t frames outer trims
    rcases enter_feeding ih outer trims with reaches | ⟨_, reaches⟩
    · exact leave_bind_empty reaches
    · exact reaches
  | bind_ready source results ihs ihr =>
    intro t frames outer trims
    rcases enter_feeding ihs outer trims with reaches | ⟨trimsSource, _⟩
    · exact leave_bind_ready reaches fun _ => reaches_in_focus ihr
    · cases shows_unique source (shows_empty_of_trims trimsSource rfl)
  | bind_suspended source ih =>
    intro t frames outer trims
    rcases enter_feeding ih outer trims with reaches | ⟨trimsSource, _⟩
    · exact leave_bind_suspended reaches
    · cases shows_unique source (shows_empty_of_trims trimsSource rfl)

theorem trims_surround (trims : Trims s t) : Trims (surround frames s) (surround frames t) := by
  induction frames with
  | nil => exact trims
  | cons frame frames ih =>
    cases frame with
    | merge other => exact .merging ih (trims_refl other)
    | bind g => exact .feeding g ih

theorem shows_surround (inside : ∀ h, Shows force s h → Shows force t h) {h : Head κ α}
    (shows : Shows force (surround frames s) h) : Shows force (surround frames t) h := by
  induction frames generalizing h with
  | nil => exact inside h shows
  | cons frame frames ih =>
    cases frame with
    | merge other =>
      cases shows with
      | mplus_empty left right => exact .mplus_empty (ih left) right
      | mplus_ready left => exact .mplus_ready (ih left)
      | mplus_suspended left => exact .mplus_suspended (ih left)
    | bind g =>
      cases shows with
      | bind_empty source => exact .bind_empty (ih source)
      | bind_ready source results => exact .bind_ready (ih source) results
      | bind_suspended source => exact .bind_suspended (ih source)

theorem shows_suspended (frames : List (Frame κ α)) (code : κ) :
    Shows force (surround frames (.suspended code)) (.suspended (rebuild frames (force code))) := by
  induction frames with
  | nil => exact .suspended code
  | cons frame frames ih =>
    cases frame with
    | merge other => exact .mplus_suspended ih
    | bind g => exact .bind_suspended ih

def HasHead (force : κ → Answers κ α) (frames : List (Frame κ α)) (s : Answers κ α) : Prop :=
  ∃ h, Shows force (surround frames s) h

theorem hasHead_of_shows (inside : ∀ h, Shows force s h → Shows force t h)
    (head : HasHead force frames s) : HasHead force frames t := by
  obtain ⟨h, shows⟩ := head
  exact ⟨h, shows_surround inside shows⟩

theorem hasHead_of_trims (trims : Trims s t) (head : HasHead force frames t) :
    HasHead force frames s := by
  obtain ⟨k, shows⟩ := head
  obtain ⟨h, shows', _⟩ := shows_of_trims shows (trims_surround trims)
  exact ⟨h, shows'⟩

/-- A turn that goes on without forcing, and that the algebra can undo. -/
def Undoes (force : κ → Answers κ α) (steps : Nat) (config : SearchConfig)
    (frames : List (Frame κ α)) (s : Answers κ α) : Prop :=
  ∃ t others, (ofFrames s frames steps config).turn force =
      .running (ofFrames t others steps config) ∧
    (HasHead force others t → HasHead force frames s)

theorem undoes_of_shifts {others : List (Frame κ α)} (shifts : Shifts force s frames t others)
    (steps : Nat) (config : SearchConfig) : Undoes force steps config frames s := by
  refine ⟨t, others, turn_of_shifts shifts steps config, ?_⟩
  cases shifts with
  | merging_empty => exact hasHead_of_trims (.keep_left (trims_refl t) .empty)
  | merging more =>
    rw [HasHead, surround_append]
    exact id
  | feeding g =>
    rw [HasHead, surround_append]
    exact id
  | empty_merge =>
    rw [HasHead, HasHead, surround_append]
    exact hasHead_of_shows fun _ => .mplus_empty .empty
  | empty_bind g =>
    rw [HasHead, HasHead, surround_append]
    refine hasHead_of_shows fun _ bare => ?_
    cases bare
    exact .bind_empty .empty
  | ready_merge a =>
    rw [HasHead, HasHead, surround_append]
    refine hasHead_of_shows fun _ bare => ?_
    cases bare
    exact .mplus_ready (.ready a _)
  | ready_bind_last a g =>
    rw [HasHead, HasHead, surround_append]
    intro head
    refine hasHead_of_shows (fun _ => .bind_ready (.ready a .empty)) ?_
    exact hasHead_of_trims (.keep_left (trims_refl _) (.feed_nothing g .empty)) head
  | ready_bind a g more =>
    rw [HasHead, HasHead, surround_append]
    exact hasHead_of_shows fun _ => .bind_ready (.ready a _)

theorem hasHead_or_undoes (steps : Nat) (config : SearchConfig) (frames : List (Frame κ α))
    (s : Answers κ α) : HasHead force frames s ∨ Undoes force steps config frames s := by
  rcases shifts_or_stays force s frames with ⟨t, others, shifts⟩ | ⟨code, rfl⟩ | ⟨rfl, found⟩
  · exact .inr (undoes_of_shifts shifts steps config)
  · exact .inl ⟨_, shows_suspended frames code⟩
  · rcases found with rfl | ⟨a, rest, rfl⟩
    · exact .inl ⟨_, .empty⟩
    · exact .inl ⟨_, .ready a rest⟩

/-- If a pull comes to a result or to the limit, the algebra finds a head for the stream. -/
theorem hasHead_of_pull {turns : Nat}
    (settled : ((ofFrames s frames steps config).pull force turns).1 ≠ .unsettled) :
    HasHead force frames s := by
  induction turns generalizing s frames with
  | zero => exact absurd rfl settled
  | succ turns ih =>
    rcases hasHead_or_undoes steps config frames s with head | ⟨t, others, turn, undo⟩
    · exact head
    · rw [pull_succ, turn] at settled
      exact undo (ih settled)

theorem pull_unique {d e f : Search κ α} {n m : Nat} {outcome other : Outcome (Option α)}
    (first : d.pull force n = (outcome, e)) (second : d.pull force m = (other, f))
    (settled : outcome ≠ .unsettled) (settled' : other ≠ .unsettled) : outcome = other ∧ e = f := by
  have long := pull_mono (by rwa [first]) m
  have long' := pull_mono (by rwa [second]) n
  rw [Nat.add_comm, long', first, second] at long
  cases long
  exact ⟨rfl, rfl⟩

theorem pull_after_runs {d e : Search κ α} {n turns : Nat} (runs : Runs force n d e)
    (settled : (d.pull force turns).1 ≠ .unsettled) :
    ∃ fewer, turns = n + fewer ∧ d.pull force turns = e.pull force fewer := by
  induction runs generalizing turns with
  | refl => exact ⟨turns, (Nat.zero_add turns).symm, rfl⟩
  | step turn more ih =>
    cases turns with
    | zero => exact absurd rfl settled
    | succ turns =>
      rw [pull_succ, turn] at settled ⊢
      obtain ⟨fewer, rfl, rest⟩ := ih settled
      exact ⟨fewer, by omega, rest⟩

theorem runs_to_head {h : Head κ α} (steps : Nat) (config : SearchConfig)
    (shows : Shows force s h) (trims : Trims s (surround frames t)) :
    ∃ turns focus others, Runs force turns (ofFrames t frames steps config)
      (ofFrames focus others steps config) ∧ Arrives force [] h focus others :=
  reaches_of_shows shows t frames [] trims

theorem turn_forces (force : κ → Answers κ α) (frames : List (Frame κ α)) (code : κ) :
    ∃ focus others, (∀ steps (config : SearchConfig), config.Allows steps →
        (ofFrames (.suspended code) frames steps config).turn force =
          .running (ofFrames focus others (steps + 1) config)) ∧
      surround others focus = rebuild frames (force code) := by
  obtain ⟨focus, others, resumed, whole⟩ := resume_ofFrames frames (force code)
  refine ⟨focus, others, fun steps config allowed => ?_, whole⟩
  rw [turn_suspended code allowed, resumed]

theorem pull_of_pulls {found : Option α} {n : Nat} {u : Answers κ α}
    (pulls : Pulls force s found n u) (trims : Trims s (surround frames t)) :
    ∃ turns focus others, (ofFrames t frames steps .unbounded).pull force turns =
        (.found found, ofFrames focus others (steps + n) .unbounded) ∧
      Trims u (surround others focus) := by
  induction pulls generalizing t frames steps with
  | ended shows =>
    obtain ⟨turns, _, _, runs, arrives⟩ := runs_to_head steps .unbounded shows trims
    cases arrives
    refine ⟨turns + 1, .empty, [], ?_, .empty⟩
    rw [pull_runs runs, pull_succ, turn_empty_end]
    rfl
  | found shows =>
    obtain ⟨turns, _, _, runs, arrives⟩ := runs_to_head steps .unbounded shows trims
    cases arrives with
    | @ready _ rest a restTrims =>
      refine ⟨turns + 1, rest, [], ?_, restTrims⟩
      rw [pull_runs runs, pull_succ, turn_ready_end]
      rfl
  | @forced s r u found n shows later ih =>
    obtain ⟨turns, _, _, runs, arrives⟩ := runs_to_head steps .unbounded shows trims
    cases arrives with
    | suspended code inner forced =>
      obtain ⟨focus, others, forces, whole⟩ := turn_forces force inner code
      have turn := forces steps .unbounded (SearchConfig.unbounded_allows steps)
      rw [← whole] at forced
      obtain ⟨more, last, lastFrames, pulled, rest⟩ := @ih focus others (steps + 1) forced
      rw [Nat.add_assoc, Nat.add_comm 1] at pulled
      refine ⟨turns + (more + 1), last, lastFrames, ?_, rest⟩
      rw [pull_runs runs, List.nil_append, pull_succ, turn]
      exact pulled

theorem pulls_of_pull {turns : Nat} {found : Option α} {last : Search κ α}
    (pulled : (ofFrames t frames steps .unbounded).pull force turns = (.found found, last))
    (trims : Trims s (surround frames t)) : ∃ result n u, Pulls force s result n u := by
  induction turns using Nat.strongRecOn generalizing s t frames steps with
  | ind turns ih =>
    have settled : ((ofFrames t frames steps .unbounded).pull force turns).1 ≠ .unsettled := by
      rw [pulled]
      exact fun same => nomatch same
    obtain ⟨k, showsTrimmed⟩ := hasHead_of_pull settled
    obtain ⟨h, shows, _⟩ := shows_of_trims showsTrimmed trims
    cases h with
    | empty => exact ⟨none, 0, .empty, .ended shows⟩
    | ready a rest => exact ⟨some a, 0, rest, .found shows⟩
    | suspended forced =>
      obtain ⟨n, _, _, runs, arrives⟩ := runs_to_head steps .unbounded shows trims
      cases arrives with
      | suspended code inner forcedTrims =>
        obtain ⟨focus, others, forces, whole⟩ := turn_forces force inner code
        have turn := forces steps .unbounded (SearchConfig.unbounded_allows steps)
        rw [← whole] at forcedTrims
        obtain ⟨fewer, rfl, rest⟩ := pull_after_runs (runs_trans runs (runs_one turn)) settled
        obtain ⟨result, m, u, pulls⟩ := ih fewer (by omega) (rest.symm.trans pulled) forcedTrims
        exact ⟨result, m + 1, u, .forced shows pulls⟩

theorem returns_iff_of_trims {outs : List (Option α × Nat)} (trims : Trims s (surround frames t)) :
    (ofFrames t frames steps .unbounded).Returns force outs ↔ Gives force s steps outs := by
  induction outs generalizing s t frames steps with
  | nil => exact Iff.rfl
  | cons out outs ih =>
    obtain ⟨found, after⟩ := out
    constructor
    · rintro ⟨turns, next, pulled, rfl, more⟩
      obtain ⟨result, n, u, pulls⟩ := pulls_of_pull pulled trims
      obtain ⟨_, focus, others, pulled', rest⟩ := pull_of_pulls pulls trims
      obtain ⟨same, rfl⟩ := pull_unique pulled pulled' (nomatch ·) (nomatch ·)
      cases same
      exact ⟨u, n, pulls, rfl, (ih rest).mp more⟩
    · rintro ⟨u, n, pulls, rfl, more⟩
      obtain ⟨turns, focus, others, pulled, rest⟩ := pull_of_pulls pulls trims
      exact ⟨turns, _, pulled, rfl, (ih rest).mpr more⟩

/-- The first results, however many, and the forcings counted after each are those of the
    algebra. In particular a pull comes to a result exactly if the algebra does. -/
theorem returns_iff_gives (force : κ → Answers κ α) (s : Answers κ α)
    (outs : List (Option α × Nat)) :
    (ofAnswers s .unbounded).Returns force outs ↔ Gives force s 0 outs :=
  returns_iff_of_trims (trims_refl s)

end Search

end RelationalSearch

import RelationalSearch.Proofs.StepLimit

/-!
Turns between forcings. What a turn does is told once, with the stream that the search stands for
before and after it, so that a property of that stream is kept by all turns if it is kept by a few
rewritings. One such property is that the bind functions in the stream come to an end. It leaves
only finitely many turns up to the next forcing. So a pull with a step limit always comes to
something, and a pull without one does, unless it forces one suspension after the other.
-/
namespace RelationalSearch

variable {κ α : Type}

open Answers RelationalSearch.Frame

namespace Search

variable {force : κ → Answers κ α} {s t u v : Answers κ α} {frames outer others : List (Frame κ α)}
  {d e f start : Search κ α} {taken : List α} {steps n k : Nat} {config : SearchConfig}
  {P : Answers κ α → Prop} {h : Head κ α}

/-- What a turn without a forcing does to the stream, at one place. -/
inductive Rewrites (force : κ → Answers κ α) : Answers κ α → Answers κ α → Prop where
  | opened (s : Answers κ α) : Rewrites force s s
  | before_empty (s : Answers κ α) : Rewrites force (.merging s .empty) s
  | after_empty (t : Answers κ α) : Rewrites force (.merging .empty t) t
  | answer_first (a : α) (s t : Answers κ α) :
      Rewrites force (.merging (.ready a s) t) (.ready a (.merging t s))
  | feed_nothing (g : α → Answers κ α ⊕ κ) : Rewrites force (.feeding .empty g) .empty
  | feed_last (a : α) (g : α → Answers κ α ⊕ κ) :
      Rewrites force (.feeding (.ready a .empty) g) (given force (g a))
  | feed_first (a : α) (s : Answers κ α) (g : α → Answers κ α ⊕ κ) :
      Rewrites force (.feeding (.ready a s) g) (.merging (given force (g a)) (.feeding s g))

theorem rewrites_of_shifts (shifts : Shifts force s frames t others) :
    ∃ outer u v, surround frames s = surround outer u ∧ surround others t = surround outer v ∧
      Rewrites force u v := by
  cases shifts with
  | merging_empty => exact ⟨_, _, _, rfl, rfl, .before_empty t⟩
  | merging more => exact ⟨frames, _, _, rfl, surround_append .., .opened _⟩
  | feeding g => exact ⟨frames, _, _, rfl, surround_append .., .opened _⟩
  | empty_merge => exact ⟨others, _, _, surround_append .., rfl, .after_empty t⟩
  | empty_bind g => exact ⟨others, _, _, surround_append .., rfl, .feed_nothing g⟩
  | ready_merge a => exact ⟨others, _, _, surround_append .., rfl, .answer_first a _ _⟩
  | ready_bind_last a g => exact ⟨others, _, _, surround_append .., rfl, .feed_last a g⟩
  | ready_bind a g more => exact ⟨others, _, _, surround_append .., rfl, .feed_first a _ g⟩

inductive Goes (force : κ → Answers κ α) (config : SearchConfig) :
    Answers κ α → List (Frame κ α) → Nat → Turn κ α → Prop where
  | shifted {s t : Answers κ α} {frames others : List (Frame κ α)} {steps : Nat}
      (shifts : Shifts force s frames t others) :
      Goes force config s frames steps (.running (ofFrames t others steps config))
  | forced {t : Answers κ α} {frames others : List (Frame κ α)} {steps : Nat} {code : κ}
      (allowed : config.Allows steps) (whole : surround others t = rebuild frames (force code)) :
      Goes force config (.suspended code) frames steps
        (.running (ofFrames t others (steps + 1) config))
  | limited {frames : List (Frame κ α)} {steps limit : Nat} {code : κ}
      (known : config.stepLimit = some limit) (reached : limit ≤ steps) :
      Goes force config (.suspended code) frames steps
        (.limited (.stepLimitExceeded limit) (ofFrames (.suspended code) frames steps config))
  | exhausted {steps : Nat} :
      Goes force config .empty [] steps (.exhausted (ofFrames .empty [] steps config))
  | answered {r : Answers κ α} {steps : Nat} (a : α) :
      Goes force config (.ready a r) [] steps (.answer a (ofFrames r [] steps config))

theorem turn_goes (force : κ → Answers κ α) (config : SearchConfig) (s : Answers κ α)
    (frames : List (Frame κ α)) (steps : Nat) :
    Goes force config s frames steps ((ofFrames s frames steps config).turn force) := by
  rcases shifts_or_stays force s frames with ⟨t, others, shifts⟩ | ⟨code, rfl⟩ | ⟨rfl, found⟩
  · rw [turn_of_shifts shifts]
    exact .shifted shifts
  · rcases config.allows_or_reached steps with allowed | ⟨limit, known, reached⟩
    · obtain ⟨t, others, forces, whole⟩ := turn_forces force frames code
      rw [forces steps config allowed]
      exact .forced allowed whole
    · rw [turn_limited code known reached]
      exact .limited known reached
  · rcases found with rfl | ⟨a, rest, rfl⟩
    · exact .exhausted
    · exact .answered a

structure Kept (force : κ → Answers κ α) (P : Answers κ α → Prop) : Prop where
  rewritten : ∀ (outer : List (Frame κ α)) (u v : Answers κ α), Rewrites force u v →
    P (surround outer u) → P (surround outer v)
  forced : ∀ (frames : List (Frame κ α)) (code : κ), P (surround frames (.suspended code)) →
    P (rebuild frames (force code))
  answered : ∀ (a : α) (r : Answers κ α), P (.ready a r) → P r

def Holds (P : Answers κ α → Prop) (config : SearchConfig) (d : Search κ α) : Prop :=
  ∃ s frames steps, d = ofFrames s frames steps config ∧ P (surround frames s)

theorem holds_of_turn (kept : Kept force P) (holds : Holds P config d) :
    Holds P config (d.turn force).next := by
  obtain ⟨s, frames, steps, rfl, here⟩ := holds
  have goes := turn_goes force config s frames steps
  generalize (ofFrames s frames steps config).turn force = turned at goes
  cases goes with
  | shifted shifts =>
    obtain ⟨outer, u, v, before, after, rewrites⟩ := rewrites_of_shifts shifts
    rw [before] at here
    refine ⟨_, _, _, rfl, ?_⟩
    rw [after]
    exact kept.rewritten outer u v rewrites here
  | @forced t _ others _ code allowed whole =>
    refine ⟨t, others, _, rfl, ?_⟩
    rw [whole]
    exact kept.forced frames code here
  | limited known reached => exact ⟨_, _, _, rfl, here⟩
  | exhausted => exact ⟨_, _, _, rfl, here⟩
  | @answered r _ a => exact ⟨r, [], _, rfl, kept.answered a r here⟩

theorem holds_of_history (kept : Kept force P) (holds : Holds P config start)
    (history : History force start taken d) : Holds P config d := by
  induction history with
  | start => exact holds
  | turn before ih => exact holds_of_turn kept ih

section Tame

variable {ok : κ → Prop} {a : α} {g : α → Answers κ α ⊕ κ} {code : κ}

/-- The second stream is tame if the first one is, and has no answers that the first does not
    have. -/
structure Narrows (force : κ → Answers κ α) (ok : κ → Prop) (s t : Answers κ α) : Prop where
  tame : Tame force ok s → Tame force ok t
  answers : ∀ a, Nonempty (Occurrence force t a) → Nonempty (Occurrence force s a)

theorem narrows_feeding (narrows : Narrows force ok s t) (g : α → Answers κ α ⊕ κ) :
    Narrows force ok (.feeding s g) (.feeding t g) where
  tame tame := by
    cases tame with
    | feeding source codes results =>
      exact .feeding (narrows.tame source)
        (fun a code occurs => codes a code (narrows.answers a occurs))
        fun a occurs => results a (narrows.answers a occurs)
  answers a := by
    rintro ⟨o⟩
    cases o with
    | fed _ source result =>
      obtain ⟨source⟩ := narrows.answers _ ⟨source⟩
      exact ⟨.fed g source result⟩

theorem narrows_merging (narrows : Narrows force ok s t) (u : Answers κ α) :
    Narrows force ok (.merging s u) (.merging t u) where
  tame tame := by
    cases tame with
    | merging left right => exact .merging (narrows.tame left) right
  answers a := by
    rintro ⟨o⟩
    cases o with
    | left _ inside =>
      obtain ⟨inside⟩ := narrows.answers a ⟨inside⟩
      exact ⟨.left u inside⟩
    | right _ inside => exact ⟨.right s inside⟩

theorem narrows_surround (narrows : Narrows force ok s t) (frames : List (Frame κ α)) :
    Narrows force ok (surround frames s) (surround frames t) := by
  induction frames with
  | nil => exact narrows
  | cons frame frames ih =>
    cases frame with
    | merge other => exact narrows_merging ih other
    | bind g => exact narrows_feeding ih g

theorem narrows_of_rewrites (rewrites : Rewrites force u v) : Narrows force ok u v := by
  cases rewrites with
  | opened => exact ⟨id, fun _ => id⟩
  | before_empty =>
    constructor
    · intro tame
      cases tame with
      | merging left right => exact left
    · rintro a ⟨inside⟩
      exact ⟨.left _ inside⟩
  | after_empty =>
    constructor
    · intro tame
      cases tame with
      | merging left right => exact right
    · rintro a ⟨inside⟩
      exact ⟨.right _ inside⟩
  | answer_first a s t =>
    constructor
    · intro tame
      cases tame with
      | merging left right =>
        cases left with
        | ready _ rest => exact .ready a (.merging right rest)
    · rintro x ⟨o⟩
      cases o with
      | head => exact ⟨.left t (.head a s)⟩
      | rest _ later =>
        cases later with
        | left _ inside => exact ⟨.right _ inside⟩
        | right _ inside => exact ⟨.left t (.rest a inside)⟩
  | feed_nothing g =>
    constructor
    · exact fun _ => .empty
    · rintro a ⟨nothing⟩
      cases nothing
  | feed_last a g =>
    constructor
    · intro tame
      cases tame with
      | feeding source codes results => exact results a ⟨.head a .empty⟩
    · rintro x ⟨result⟩
      exact ⟨.fed g (.head a .empty) result⟩
  | feed_first a s g =>
    constructor
    · intro tame
      cases tame with
      | feeding source codes results =>
        cases source with
        | ready _ rest =>
          have later {b : α} : Nonempty (Occurrence force s b) →
              Nonempty (Occurrence force (.ready a s) b) := fun ⟨inside⟩ => ⟨.rest a inside⟩
          have others : Tame force ok (.feeding s g) := .feeding rest
            (fun b code occurs => codes b code (later occurs))
            fun b occurs => results b (later occurs)
          exact .merging (results a ⟨.head a s⟩) others
    · rintro x ⟨o⟩
      cases o with
      | left _ result => exact ⟨.fed g (.head a s) result⟩
      | right _ inside =>
        cases inside with
        | fed _ source result => exact ⟨.fed g (.rest a source) result⟩

theorem kept_tame (closed : Closed force ok) : Kept force (Tame force ok) where
  rewritten outer _ _ rewrites := (narrows_surround (narrows_of_rewrites rewrites) outer).tame
  forced frames code := tame_of_shows closed (shows_suspended frames code)
  answered _ _ tame := by
    cases tame with
    | ready _ rest => exact rest

theorem tame_inside (frames : List (Frame κ α)) (tame : Tame force ok (surround frames s)) :
    Tame force ok s := by
  induction frames with
  | nil => exact tame
  | cons frame frames ih =>
    cases frame with
    | merge other =>
      cases tame with
      | merging left right => exact ih left
    | bind g =>
      cases tame with
      | feeding source codes results => exact ih source

/-- The next turn makes the stream of the code, unless a limit keeps it from that. -/
inductive Evaluates (d : Search κ α) : κ → Prop where
  | forced {code : κ} (focus : d.focus = .suspended code) : Evaluates d code
  | fed {a : α} {rest : Answers κ α} {g : α → Answers κ α ⊕ κ} {code : κ}
      (focus : d.focus = .ready a rest) (innermost : d.frames.back? = some (.bind g))
      (given : g a = .inr code) : Evaluates d code

/-- No other code has a part in the turn. -/
theorem turn_congr {force' : κ → Answers κ α}
    (same : ∀ code, d.Evaluates code → force code = force' code) :
    d.turn force = d.turn force' := by
  unfold turn
  split
  · rfl
  · rfl
  · rfl
  · next a rest focus =>
    cases innermost : d.frames.back? with
    | none => simp only [pop, innermost]
    | some frame =>
      cases frame with
      | merge other => simp only [pop, innermost]
      | bind g =>
        have head : given force (g a) = given force' (g a) := by
          cases outcome : g a with
          | inl t => rfl
          | inr code => exact same code (.fed focus innermost outcome)
        simp only [pop, innermost, head]
  · next code focus => rw [same code (.forced focus)]

theorem ok_of_evaluates (tame : Holds (Tame force ok) config d) (evaluates : d.Evaluates code) :
    ok code := by
  obtain ⟨s, frames, steps, rfl, tame⟩ := tame
  cases evaluates with
  | forced focus =>
    obtain rfl : s = .suspended code := focus
    cases tame_inside frames tame with
    | suspended here => exact here
  | @fed a rest g _ focus innermost outcome =>
    obtain rfl : s = .ready a rest := focus
    have last : frames.getLast? = some (.bind g) := by
      rw [← List.back?_toArray]
      exact innermost
    obtain ⟨outer, rfl⟩ := List.getLast?_eq_some_iff.mp last
    rw [surround_append] at tame
    cases tame_inside outer tame with
    | feeding source codes results => exact codes a code ⟨.head a rest⟩ outcome

end Tame

/-- The search never goes on for long without forcing anything, so it settles or forces again. -/
structure Paced (force : κ → Answers κ α) (d : Search κ α) : Prop where
  /-- Before anything else is forced there are so many turns at most. -/
  finite : ∃ n, ∀ turns e, Runs force turns d e → e.steps = d.steps → turns ≤ n
  /-- With a limit a pull gives an answer, or finds the end, or fails for the limit. -/
  limited : ∀ limit, d.config.stepLimit = some limit → ∃ result e, Yields force d result e ∧
    ∀ error, result = .error error → error = .stepLimitExceeded limit
  /-- Without a limit it gives an answer or finds the end, or it forces suspensions without end. -/
  unlimited : d.config.stepLimit = none → (∃ found e, Yields force d (.ok found) e) ∨
    ∀ n, ∃ turns e, Runs force turns d e ∧ e.steps = d.steps + n

theorem runs_after (first : Runs force n d f) (second : Runs force (n + k) d e) :
    Runs force k f e := by
  induction first with
  | refl => rwa [Nat.zero_add] at second
  | step turned more ih =>
    rw [Nat.add_right_comm] at second
    cases second with
    | step turned' more' =>
      cases turned.symm.trans turned'
      exact ih more'

theorem steps_le_of_runs (runs : Runs force n (ofFrames s frames steps config) e) :
    steps ≤ e.steps := by
  induction n generalizing s frames steps with
  | zero =>
    cases runs
    exact Nat.le_refl steps
  | succ n ih =>
    cases runs with
    | step turned more =>
      have goes := turn_goes force config s frames steps
      rw [turned] at goes
      cases goes with
      | shifted => exact ih more
      | forced =>
        have later := ih more
        omega

theorem forced_of_arrives (arrives : Arrives force [] h s frames)
    (turned : (ofFrames s frames steps config).turn force = .running e) :
    ∃ t others, e = ofFrames t others (steps + 1) config := by
  have goes := turn_goes force config s frames steps
  rw [turned] at goes
  cases arrives with
  | empty => cases turned
  | ready a rest => cases turned
  | suspended code inner forced =>
    cases goes with
    | shifted shifts => cases shifts
    | forced => exact ⟨_, _, rfl⟩

theorem finite_of_shows (shows : Shows force (surround frames s) h) (steps : Nat)
    (config : SearchConfig) :
    ∃ n, ∀ turns e, Runs force turns (ofFrames s frames steps config) e → e.steps = steps →
      turns ≤ n := by
  obtain ⟨n, t, others, runs, arrives⟩ := runs_to_head steps config shows (trims_refl _)
  -- More turns than up to the head go through it, and a search goes on from a head only by forcing.
  refine ⟨n, fun turns e longer same => ?_⟩
  by_contra more
  obtain ⟨k, rfl⟩ := Nat.exists_eq_add_of_lt (Nat.lt_of_not_le more)
  rw [Nat.add_assoc] at longer
  cases runs_after runs longer with
  | step turned later =>
    obtain ⟨_, _, rfl⟩ := forced_of_arrives arrives turned
    have passed := steps_le_of_runs later
    omega

theorem error_of_pull {error : SearchError}
    (pulled : (ofFrames s frames steps config).pull force n = (.failed error, e)) :
    ∃ limit, config.stepLimit = some limit ∧ error = .stepLimitExceeded limit := by
  induction n generalizing s frames steps with
  | zero => cases pulled
  | succ n ih =>
    have goes := turn_goes force config s frames steps
    rw [pull_succ] at pulled
    generalize (ofFrames s frames steps config).turn force = turned at goes pulled
    cases goes with
    | shifted => exact ih pulled
    | forced => exact ih pulled
    | @limited _ _ limit _ known =>
      cases pulled
      exact ⟨limit, known, rfl⟩
    | exhausted => cases pulled
    | answered => cases pulled

theorem limited_of_productive (productive : Productive force (surround frames s)) (steps : Nat)
    {limit : Nat} (known : config.stepLimit = some limit) :
    ∃ result e, Yields force (ofFrames s frames steps config) result e ∧
      ∀ error, result = .error error → error = .stepLimitExceeded limit := by
  obtain rfl : config = .withStepLimit limit := congrArg SearchConfig.mk known
  obtain ⟨turns, settled⟩ := settles_limited productive (trims_refl _) steps limit
  obtain ⟨result, pulled⟩ := yields_of_settled settled
  refine ⟨result, _, ⟨turns, pulled⟩, fun error same => ?_⟩
  subst same
  obtain ⟨other, known', rfl⟩ := error_of_pull pulled
  cases known'
  rfl

theorem unlimited_of_productive (productive : Productive force s)
    (trims : Trims s (surround frames t)) (steps : Nat) :
    (∃ found e, Yields force (ofFrames t frames steps .unbounded) (.ok found) e) ∨
      ∀ n, ∃ turns e, Runs force turns (ofFrames t frames steps .unbounded) e ∧
        e.steps = steps + n := by
  by_cases settles : ∃ found n u, Pulls force s found n u
  · left
    obtain ⟨found, n, u, pulls⟩ := settles
    obtain ⟨turns, _, _, pulled, -⟩ := pull_of_pulls pulls trims
    exact ⟨found, _, turns, pulled⟩
  · right
    intro n
    induction n generalizing s t frames steps with
    | zero => exact ⟨0, _, .refl _, rfl⟩
    | succ n ih =>
      obtain ⟨h, shows⟩ := productive s (.refl s)
      obtain ⟨turns, _, _, runs, arrives⟩ := runs_to_head steps .unbounded shows trims
      cases arrives with
      | empty => exact absurd ⟨none, 0, .empty, .ended shows⟩ settles
      | ready a rest => exact absurd ⟨some a, 0, _, .found shows⟩ settles
      | suspended code inner forced =>
        obtain ⟨focus, others, forces, whole⟩ := turn_forces force inner code
        have turned := forces steps .unbounded (SearchConfig.unbounded_allows steps)
        rw [← whole] at forced
        -- What is left after the forcing does not settle either, or the stream would have.
        obtain ⟨more, e, later, counted⟩ := ih
          (fun v remains => productive v (.forced shows remains)) forced (steps + 1)
          fun ⟨found, k, u, pulls⟩ => settles ⟨found, k + 1, u, .forced shows pulls⟩
        exact ⟨_, e, runs_trans runs (runs_trans (runs_one turned) later), by omega⟩

/-- Every state that a search over a tame stream comes to is paced, and only comes to streams of the
    given codes. -/
theorem paced_of_tame {ok : κ → Prop} (closed : Closed force ok) (tame : Tame force ok s)
    (history : History force (ofAnswers s config) taken d) :
    Paced force d ∧ ∀ code, d.Evaluates code → ok code := by
  have start : Holds (Tame force ok) config (ofAnswers s config) := ⟨s, [], 0, rfl, tame⟩
  have holds := holds_of_history (kept_tame closed) start history
  refine ⟨?_, fun code => ok_of_evaluates holds⟩
  obtain ⟨t, frames, steps, rfl, tame⟩ := holds
  have productive := productive_of_tame closed tame
  constructor
  · obtain ⟨h, shows⟩ := productive _ (.refl _)
    exact finite_of_shows shows steps config
  · exact fun limit known => limited_of_productive productive steps known
  · intro unknown
    obtain rfl : config = .unbounded := congrArg SearchConfig.mk unknown
    exact unlimited_of_productive productive (trims_refl _) steps

end Search

end RelationalSearch

import RelationalSearch.Proofs.Calls
import RelationalSearch.Proofs.Exhaustion
import RelationalSearch.Proofs.Fairness

/-!
Searches with a step limit beside the same searches without one. They take the same turns until a
forcing would go past the limit. There the limited search stops, in the state that the other one
is in just before that forcing, and every later call meets the same error.
-/
namespace RelationalSearch

variable {κ α : Type}

open Answers RelationalSearch.Frame

namespace Search

variable {force : κ → Answers κ α} {s t : Answers κ α} {frames : List (Frame κ α)}
  {d e f stop : Search κ α} {taken later : List α} {steps limit count turns : Nat}

def limitTo (limit : Nat) (d : Search κ α) : Search κ α :=
  { d with config := .withStepLimit limit }

/-- A search without a limit whose stream is evaluated in finite time between two forcings. -/
def Live (force : κ → Answers κ α) (d : Search κ α) : Prop :=
  ∃ s t frames steps, d = ofFrames t frames steps .unbounded ∧ Productive force s ∧
    Trims s (surround frames t)

/-- The second search is the first one just before it would go past the limit, and from there
    every pull with the limit fails. -/
structure Stops (force : κ → Answers κ α) (limit : Nat) (d stop : Search κ α) : Prop where
  history : ∃ taken, History force d taken stop
  focus : ∃ code, stop.focus = .suspended code
  steps : stop.steps = limit
  stands : Stands force (stop.limitTo limit) (.error (.stepLimitExceeded limit))

theorem allows_limit (below : steps < limit) : (SearchConfig.withStepLimit limit).Allows steps := by
  intro other known
  cases known
  exact below

theorem live_ofAnswers (productive : Productive force s) : Live force (ofAnswers s .unbounded) :=
  ⟨s, s, [], 0, rfl, productive, trims_refl s⟩

/-- One turn under all limits at once: it forces nothing, or it forces the suspension in focus if
    the limit allows it, or a pull is done with it. -/
theorem turn_beside (force : κ → Answers κ α) (t : Answers κ α) (frames : List (Frame κ α))
    (steps : Nat) :
    (∃ u others, ∀ config, (ofFrames t frames steps config).turn force =
      .running (ofFrames u others steps config)) ∨
    (∃ code u others, t = .suspended code ∧ ∀ config : SearchConfig, config.Allows steps →
      (ofFrames t frames steps config).turn force =
        .running (ofFrames u others (steps + 1) config)) ∨
    ∃ found u, ∀ turns config, (ofFrames t frames steps config).pull force (turns + 1) =
      (.found found, ofFrames u [] steps config) := by
  rcases shifts_or_stays force t frames with ⟨u, others, shifts⟩ | ⟨code, rfl⟩ | ⟨rfl, found⟩
  · exact .inl ⟨u, others, turn_of_shifts shifts steps⟩
  · obtain ⟨u, others, forces, -⟩ := turn_forces force frames code
    exact .inr (.inl ⟨code, u, others, rfl, forces steps⟩)
  · rcases found with rfl | ⟨a, rest, rfl⟩
    · exact .inr (.inr ⟨none, .empty, fun _ _ => rfl⟩)
    · exact .inr (.inr ⟨some a, rest, fun _ _ => rfl⟩)

theorem pull_unlimited {config : SearchConfig} {found : Option α}
    (pulled : (ofFrames t frames steps config).pull force turns = (.found found, e)) :
    ∃ u others k, e = ofFrames u others k config ∧
      (ofFrames t frames steps .unbounded).pull force turns =
        (.found found, ofFrames u others k .unbounded) := by
  induction turns generalizing t frames steps with
  | zero => cases pulled
  | succ turns ih =>
    rcases turn_beside force t frames steps with
      ⟨u, others, turn⟩ | ⟨code, u, others, rfl, turn⟩ | ⟨answer, u, done⟩
    · rw [pull_succ, turn] at pulled
      rw [pull_succ, turn]
      exact ih pulled
    · rcases config.allows_or_reached steps with allowed | ⟨limit, known, reached⟩
      · rw [pull_succ, turn _ allowed] at pulled
        rw [pull_succ, turn _ (SearchConfig.unbounded_allows steps)]
        exact ih pulled
      · rw [pull_succ, turn_limited code known reached] at pulled
        cases pulled
    · rw [done] at pulled
      cases pulled
      exact ⟨u, [], steps, rfl, done turns _⟩

theorem returns_unlimited {config : SearchConfig} {outs : List (Option α × Nat)}
    (returns : (ofFrames t frames steps config).Returns force outs) :
    (ofFrames t frames steps .unbounded).Returns force outs := by
  induction outs generalizing t frames steps with
  | nil => trivial
  | cons out outs ih =>
    obtain ⟨turns, next, pulled, counted, more⟩ := returns
    obtain ⟨u, others, k, rfl, same⟩ := pull_unlimited pulled
    exact ⟨turns, _, same, counted, ih more⟩

theorem delivers_unlimited {config : SearchConfig} {k : Nat} {x : α}
    (delivers : (ofAnswers s config).Delivers force k x) :
    (ofAnswers s .unbounded).Delivers force k x := by
  obtain ⟨outs, after, count, returns⟩ := delivers
  have framed : (ofFrames s [] 0 config).Returns force (outs ++ [(some x, after)]) := returns
  exact ⟨outs, after, count, returns_unlimited framed⟩

theorem pull_limitTo {result : Except SearchError (Option α)}
    (pulled : (ofFrames t frames steps .unbounded).pull force turns = (.ofResult result, e)) :
    (∃ found, result = .ok found) ∧ steps ≤ e.steps ∧ ∀ limit, e.steps ≤ limit →
      (ofFrames t frames steps (.withStepLimit limit)).pull force turns =
        (.ofResult result, e.limitTo limit) := by
  induction turns generalizing t frames steps with
  | zero =>
    cases result <;> cases pulled
  | succ turns ih =>
    rcases turn_beside force t frames steps with
      ⟨u, others, turn⟩ | ⟨code, u, others, rfl, turn⟩ | ⟨found, u, done⟩
    · rw [pull_succ, turn] at pulled
      obtain ⟨found, more, same⟩ := ih pulled
      refine ⟨found, more, fun limit within => ?_⟩
      rw [pull_succ, turn]
      exact same limit within
    · rw [pull_succ, turn _ (SearchConfig.unbounded_allows steps)] at pulled
      obtain ⟨found, more, same⟩ := ih pulled
      refine ⟨found, by omega, fun limit within => ?_⟩
      rw [pull_succ, turn _ (allows_limit (by omega))]
      exact same limit within
    · rw [done] at pulled
      cases result with
      | error error => cases pulled
      | ok found' =>
        cases pulled
        exact ⟨⟨found, rfl⟩, Nat.le_refl _, fun limit _ => done turns _⟩

theorem pull_reached (code : κ) (frames : List (Frame κ α)) (reached : limit ≤ steps)
    (turns : Nat) :
    (ofFrames (.suspended code) frames steps (.withStepLimit limit)).pull force (turns + 1) =
      (.failed (.stepLimitExceeded limit),
        ofFrames (.suspended code) frames steps (.withStepLimit limit)) := by
  have stopped : (ofFrames (.suspended code) frames steps (.withStepLimit limit)).turn force =
      .limited (.stepLimitExceeded limit)
        (ofFrames (.suspended code) frames steps (.withStepLimit limit)) :=
    turn_limited code rfl reached
  rw [pull_succ, stopped]

theorem stands_of_reached {config : SearchConfig} (code : κ) (frames : List (Frame κ α))
    (known : config.stepLimit = some limit) (reached : limit ≤ steps) :
    Stands force (ofFrames (.suspended code) frames steps config)
      (.error (.stepLimitExceeded limit)) where
  yields := by
    obtain rfl : config = .withStepLimit limit := congrArg SearchConfig.mk known
    exact ⟨1, pull_reached code frames reached 0⟩
  none _ same := nomatch same

/-- What a pull with a limit comes to: an answer or the end, as without it, or the error in front
    of the forcing that would go past the limit. -/
theorem pull_limited {outcome : Outcome (Option α)} (within : steps ≤ limit)
    (history : History force d taken (ofFrames t frames steps .unbounded))
    (pulled : (ofFrames t frames steps (.withStepLimit limit)).pull force turns = (outcome, f)) :
    (∀ found, outcome = .found found → ∃ e, f = e.limitTo limit ∧ e.steps ≤ limit ∧
      (ofFrames t frames steps .unbounded).pull force turns = (.found found, e)) ∧
    (∀ error, outcome = .failed error → error = .stepLimitExceeded limit ∧
      ∃ stop, f = stop.limitTo limit ∧ Stops force limit d stop) := by
  induction turns generalizing t frames steps with
  | zero =>
    cases pulled
    exact ⟨fun _ same => (nomatch same), fun _ same => nomatch same⟩
  | succ turns ih =>
    rcases turn_beside force t frames steps with
      ⟨u, others, turn⟩ | ⟨code, u, others, rfl, turn⟩ | ⟨found, u, done⟩
    · rw [pull_succ, turn] at pulled
      rw [pull_succ, turn]
      exact ih within (history_of_running history (turn _)) pulled
    · have free := turn _ (SearchConfig.unbounded_allows steps)
      rcases Nat.lt_or_eq_of_le within with below | rfl
      · rw [pull_succ, turn _ (allows_limit below)] at pulled
        rw [pull_succ, free]
        exact ih below (history_of_running history free) pulled
      · rw [pull_reached code frames (Nat.le_refl steps)] at pulled
        cases pulled
        refine ⟨fun _ same => (nomatch same), fun _ same => ?_⟩
        cases same
        have stops : Stops force steps d (ofFrames (.suspended code) frames steps .unbounded) :=
          ⟨⟨taken, history⟩, ⟨code, rfl⟩, rfl, stands_of_reached code frames rfl (Nat.le_refl _)⟩
        exact ⟨rfl, _, rfl, stops⟩
    · rw [done] at pulled
      cases pulled
      refine ⟨fun _ same => ?_, fun _ same => nomatch same⟩
      cases same
      exact ⟨_, rfl, within, done turns _⟩

theorem settles_limited (productive : Productive force s) (trims : Trims s (surround frames t))
    (steps limit : Nat) :
    ∃ turns,
      ((ofFrames t frames steps (.withStepLimit limit)).pull force turns).1 ≠ .unsettled := by
  -- By induction on the forcings that the limit leaves.
  induction left : limit - steps using Nat.strongRecOn generalizing s t frames steps with
  | ind bound ih =>
    obtain ⟨h, shows⟩ := productive s (.refl s)
    obtain ⟨n, focus, others, runs, arrives⟩ :=
      runs_to_head steps (.withStepLimit limit) shows trims
    cases arrives with
    | empty =>
      refine ⟨n + 1, ?_⟩
      rw [pull_runs runs]
      exact fun same => nomatch same
    | ready a rest =>
      refine ⟨n + 1, ?_⟩
      rw [pull_runs runs]
      exact fun same => nomatch same
    | suspended code inner forced =>
      obtain ⟨u, others, forces, whole⟩ := turn_forces force inner code
      rcases Nat.lt_or_ge steps limit with below | reached
      · rw [← whole] at forced
        obtain ⟨turns, settled⟩ := ih (limit - (steps + 1)) (by omega)
          (fun v remains => productive v (.forced shows remains)) forced (steps + 1) rfl
        refine ⟨n + (turns + 1), ?_⟩
        rw [pull_runs runs, List.nil_append, pull_succ, forces steps _ (allows_limit below)]
        exact settled
      · refine ⟨n + 1, ?_⟩
        rw [pull_runs runs, List.nil_append, pull_reached code inner reached]
        exact fun same => nomatch same

theorem live_of_pull {found : Option α} (productive : Productive force s)
    (trims : Trims s (surround frames t))
    (pulled : (ofFrames t frames steps .unbounded).pull force turns = (.found found, e)) :
    Live force e := by
  obtain ⟨result, n, r, pulls⟩ := pulls_of_pull pulled trims
  obtain ⟨others, focus, inner, pulled', rest⟩ :
      ∃ others focus inner, (ofFrames t frames steps .unbounded).pull force others =
        (.found result, ofFrames focus inner (steps + n) .unbounded) ∧
        Trims r (surround inner focus) := pull_of_pulls pulls trims
  obtain ⟨-, rfl⟩ := pull_unique pulled pulled' (nomatch ·) (nomatch ·)
  exact ⟨r, focus, inner, steps + n, rfl, productive_of_pulls pulls productive, rest⟩

theorem yields_limitTo {result : Except SearchError (Option α)} (live : Live force d)
    (yields : Yields force d result e) :
    (∃ found, result = .ok found) ∧ Live force e ∧ d.steps ≤ e.steps ∧
      ∀ limit, e.steps ≤ limit → Yields force (d.limitTo limit) result (e.limitTo limit) := by
  obtain ⟨s, t, frames, steps, rfl, productive, trims⟩ := live
  obtain ⟨turns, pulled⟩ := yields
  obtain ⟨⟨found, rfl⟩, more, same⟩ := pull_limitTo pulled
  exact ⟨⟨found, rfl⟩, live_of_pull productive trims pulled, more,
    fun limit within => ⟨turns, same limit within⟩⟩

theorem yields_past (live : Live force d) (within : d.steps ≤ limit)
    (past : ∀ result e, Yields force d result e → limit < e.steps) :
    ∃ stop, Stops force limit d stop ∧
      Yields force (d.limitTo limit) (.error (.stepLimitExceeded limit)) (stop.limitTo limit) := by
  obtain ⟨s, t, frames, steps, rfl, productive, trims⟩ := live
  obtain ⟨turns, settled⟩ := settles_limited productive trims steps limit
  obtain ⟨result, pulled⟩ := yields_of_settled settled
  obtain ⟨found, failed⟩ := pull_limited within .start pulled
  cases result with
  | ok answer =>
    obtain ⟨e, -, short, pulled'⟩ := found answer rfl
    exact absurd (past (.ok answer) e ⟨turns, pulled'⟩) (Nat.not_lt.mpr short)
  | error error =>
    obtain ⟨rfl, stop, same, stops⟩ := failed error rfl
    rw [same] at pulled
    exact ⟨stop, stops, turns, pulled⟩

theorem takes_limitTo {result : Except SearchError (List α)} (live : Live force d)
    (takes : Takes force d count result e) :
    Live force e ∧ d.steps ≤ e.steps ∧
      ∀ limit, e.steps ≤ limit → Takes force (d.limitTo limit) count result (e.limitTo limit) := by
  induction takes with
  | enough d => exact ⟨live, Nat.le_refl _, fun limit _ => .enough _⟩
  | ended yields =>
    obtain ⟨-, liveEnd, more, same⟩ := yields_limitTo live yields
    exact ⟨liveEnd, more, fun limit within => .ended (same limit within)⟩
  | failed yields =>
    obtain ⟨⟨_, found⟩, -⟩ := yields_limitTo live yields
    cases found
  | answered yields later ih =>
    obtain ⟨-, liveNext, more, same⟩ := yields_limitTo live yields
    obtain ⟨liveEnd, more', same'⟩ := ih liveNext
    refine ⟨liveEnd, Nat.le_trans more more', fun limit within => ?_⟩
    exact .answered (same limit (Nat.le_trans more' within)) (same' limit within)

theorem stops_of_later (before : History force d taken e) (stops : Stops force limit e stop) :
    Stops force limit d stop := by
  obtain ⟨later, after⟩ := stops.history
  exact { stops with history := ⟨taken ++ later, history_trans before after⟩ }

theorem takes_past (live : Live force d) (within : d.steps ≤ limit)
    (past : ∀ result e, Takes force d count result e → limit < e.steps) :
    0 < count ∧ ∃ stop, Stops force limit d stop ∧
      Takes force (d.limitTo limit) count (.error (.stepLimitExceeded limit))
        (stop.limitTo limit) := by
  -- By induction on the number of answers wanted.
  induction count generalizing d with
  | zero => exact absurd (past _ d (.enough d)) (Nat.not_lt.mpr within)
  | succ count ih =>
    refine ⟨Nat.succ_pos count, ?_⟩
    by_cases first : ∃ result e, Yields force d result e ∧ e.steps ≤ limit
    · obtain ⟨result, e, yields, short⟩ := first
      obtain ⟨⟨found, rfl⟩, liveNext, -, same⟩ := yields_limitTo live yields
      cases found with
      | none => exact absurd (past _ e (.ended yields)) (Nat.not_lt.mpr short)
      | some a =>
        obtain ⟨-, stop, stops, takes⟩ :=
          ih liveNext short fun result f later => past _ f (.answered yields later)
        obtain ⟨turns, pulled⟩ := yields
        have before : History force d [a] e := history_of_pull .start pulled
        exact ⟨stop, stops_of_later before stops, .answered (same limit short) takes⟩
    · obtain ⟨stop, stops, yields⟩ := yields_past live within fun result e yields =>
        Nat.lt_of_not_le fun short => first ⟨result, e, yields, short⟩
      exact ⟨stop, stops, .failed yields⟩

theorem responds_limitTo {call : Call} {reply : Reply α} (live : Live force d)
    (responds : Responds force d call reply e) :
    Live force e ∧ d.steps ≤ e.steps ∧
      ∀ limit, e.steps ≤ limit → Responds force (d.limitTo limit) call reply (e.limitTo limit) := by
  cases call with
  | tryNext =>
    obtain ⟨result, rfl, yields⟩ := responds_tryNext_iff.mp responds
    obtain ⟨-, liveNext, more, same⟩ := yields_limitTo live yields
    exact ⟨liveNext, more, fun limit within =>
      responds_tryNext_iff.mpr ⟨result, rfl, same limit within⟩⟩
  | next =>
    obtain ⟨result, rfl, yields⟩ := responds_next_iff.mp responds
    obtain ⟨-, liveNext, more, same⟩ := yields_limitTo live yields
    exact ⟨liveNext, more, fun limit within =>
      responds_next_iff.mpr ⟨result, rfl, same limit within⟩⟩
  | tryTake count =>
    obtain ⟨result, rfl, takes⟩ := responds_tryTake_iff.mp responds
    obtain ⟨liveNext, more, same⟩ := takes_limitTo live takes
    exact ⟨liveNext, more, fun limit within =>
      responds_tryTake_iff.mpr ⟨result, rfl, same limit within⟩⟩

/-- A call that goes past the limit meets its error. -/
theorem responds_past {call : Call} (live : Live force d) (within : d.steps ≤ limit)
    (past : ∀ reply e, Responds force d call reply e → limit < e.steps) :
    ∃ stop, Stops force limit d stop ∧ Responds force (d.limitTo limit) call
      (call.standing (.error (.stepLimitExceeded limit))) (stop.limitTo limit) := by
  cases call with
  | tryNext =>
    obtain ⟨stop, stops, yields⟩ := yields_past live within fun result e yields =>
      past _ e (responds_tryNext_iff.mpr ⟨result, rfl, yields⟩)
    exact ⟨stop, stops, responds_tryNext_iff.mpr ⟨_, rfl, yields⟩⟩
  | next =>
    obtain ⟨stop, stops, yields⟩ := yields_past live within fun result e yields =>
      past _ e (responds_next_iff.mpr ⟨result, rfl, yields⟩)
    exact ⟨stop, stops, responds_next_iff.mpr ⟨_, rfl, yields⟩⟩
  | tryTake count =>
    obtain ⟨wanted, stop, stops, takes⟩ := takes_past live within fun result e takes =>
      past _ e (responds_tryTake_iff.mpr ⟨result, rfl, takes⟩)
    cases count with
    | zero => exact absurd wanted (Nat.lt_irrefl 0)
    | succ count => exact ⟨stop, stops, responds_tryTake_iff.mpr ⟨_, rfl, takes⟩⟩

theorem serves_limitTo {calls : List Call} {replies : List (Reply α × Nat)} (live : Live force d)
    (serves : Serves force d calls replies e) :
    Live force e ∧ d.steps ≤ e.steps ∧ ∀ limit, e.steps ≤ limit →
      Serves force (d.limitTo limit) calls replies (e.limitTo limit) := by
  induction serves with
  | done d => exact ⟨live, Nat.le_refl _, fun limit _ => .done _⟩
  | call responds later ih =>
    obtain ⟨liveNext, more, same⟩ := responds_limitTo live responds
    obtain ⟨liveEnd, more', same'⟩ := ih liveNext
    refine ⟨liveEnd, Nat.le_trans more more', fun limit within => ?_⟩
    have whole := Serves.call (same limit (Nat.le_trans more' within)) (same' limit within)
    exact whole

theorem stands_of_ended (ended : d.Ended) : Stands force d (.ok none) where
  yields := by
    obtain ⟨focus, frames, merges, steps, config⟩ := d
    obtain ⟨rfl, rfl⟩ := ended
    exact ⟨1, rfl⟩
  none _ same := nomatch same

/-- A step limit only cuts off. As long as the search without it keeps to the limit, the calls
    have the same replies after the same forcings. A call that goes past the limit, or that never
    returns, meets the error of the limit in the state just before that forcing, and so does every
    later call but one for no answers at all. Past the end of the stream a search stays as well. -/
theorem limit_truncates (force : κ → Answers κ α) (s : Answers κ α)
    (productive : Productive force s) (limit : Nat) (calls : List Call)
    (replies : List (Reply α × Nat)) (d : Search κ α)
    (serves : Serves force (ofAnswers s .unbounded) calls replies d) (within : d.steps ≤ limit) :
    (∀ replies' e, Serves force (ofAnswers s (.withStepLimit limit)) calls replies' e ↔
      replies' = replies ∧ e = d.limitTo limit) ∧
    (∀ call, (∀ reply e, Responds force d call reply e → limit < e.steps) →
      ∃ taken stop code, History force d taken stop ∧ stop.focus = .suspended code ∧
        stop.steps = limit ∧
        (∀ reply e, Responds force (d.limitTo limit) call reply e ↔
          reply = call.standing (.error (.stepLimitExceeded limit)) ∧ e = stop.limitTo limit) ∧
        ∀ later replies' e, Serves force (stop.limitTo limit) later replies' e ↔
          replies' = later.map (fun call =>
            (call.standing (.error (.stepLimitExceeded limit)), limit)) ∧
          e = stop.limitTo limit) ∧
    ∀ d' e : Search κ α, Responds force d' .tryNext (.tried (.ok none)) e →
      ∀ later replies' f, Serves force e later replies' f ↔
        replies' = later.map (fun call => (call.standing (.ok none), e.steps)) ∧ f = e := by
  obtain ⟨live, -, same⟩ := serves_limitTo (live_ofAnswers productive) serves
  refine ⟨?_, ?_, ?_⟩
  · intro replies' e
    constructor
    · exact fun other => serves_unique other (same limit within)
    · rintro ⟨rfl, rfl⟩
      exact same limit within
  · intro call past
    obtain ⟨stop, stops, responds⟩ := responds_past live within past
    obtain ⟨taken, history⟩ := stops.history
    obtain ⟨code, focus⟩ := stops.focus
    refine ⟨taken, stop, code, history, focus, stops.steps, ?_, ?_⟩
    · intro reply e
      constructor
      · exact fun other => responds_unique other responds
      · rintro ⟨rfl, rfl⟩
        exact responds
    · intro later replies' e
      have forced : (stop.limitTo limit).steps = limit := stops.steps
      rw [serves_iff_of_stands stops.stands, forced]
  · intro d' e responds later replies' f
    obtain ⟨result, same, turns, pulled⟩ := responds_tryNext_iff.mp responds
    cases same
    exact serves_iff_of_stands (stands_of_ended (ended_of_pull pulled))

/-- Where a limit has stopped a search, taking no answers at all is not refused. -/
theorem taking_nothing_is_not_refused :
    ∃ stop : Search Unit Nat,
      Responds (fun _ => .empty) (ofAnswers (.suspended ()) (.withStepLimit 0)) .tryNext
        (.tried (.error (.stepLimitExceeded 0))) stop ∧
      ¬ ∀ count reply e, Responds (fun _ => .empty) stop (.tryTake count) reply e →
        reply = .taken (.error (.stepLimitExceeded 0)) := by
  refine ⟨_, responds_tryNext_iff.mpr ⟨_, rfl, 1, rfl⟩, fun refused => ?_⟩
  have nothing := refused 0 _ _ (responds_tryTake_iff.mpr ⟨_, rfl, .enough _⟩)
  cases nothing

/-- Zero is pulled after three forcings, and the two answers after it need seven in all. -/
theorem zerosPastSilence_truncated :
    ∃ d stop : Search Bool Nat, Productive silenceOrZeros zerosPastSilence ∧
      Serves silenceOrZeros (ofAnswers zerosPastSilence .unbounded) [.tryNext]
        [(.tried (.ok (some 0)), 3)] d ∧ d.steps ≤ 5 ∧
      Serves silenceOrZeros (ofAnswers zerosPastSilence (.withStepLimit 5)) [.tryNext]
        [(.tried (.ok (some 0)), 3)] (d.limitTo 5) ∧
      Responds silenceOrZeros (d.limitTo 5) (.tryTake 2) (.taken (.error (.stepLimitExceeded 5)))
        (stop.limitTo 5) ∧
      stop.steps = 5 := by
  obtain ⟨d, first, forced, past⟩ : ∃ d, Responds silenceOrZeros
      (ofAnswers zerosPastSilence .unbounded) .tryNext (.tried (.ok (some 0))) d ∧ d.steps = 3 ∧
      ∀ reply e, Responds silenceOrZeros d (.tryTake 2) reply e → 5 < e.steps := by
    refine ⟨_, responds_tryNext_iff.mpr ⟨_, rfl, 50, rfl⟩, rfl, fun reply e responds => ?_⟩
    obtain ⟨-, rfl⟩ := responds_unique responds
      (responds_tryTake_iff.mpr ⟨.ok [1, 0], rfl, tryTake_iff_takes.mp ⟨50, rfl⟩⟩)
    decide
  have serves := Serves.call first (.done d)
  rw [forced] at serves
  have within : d.steps ≤ 5 := by omega
  obtain ⟨same, cut, -⟩ := limit_truncates silenceOrZeros zerosPastSilence
    zerosPastSilence_productive 5 _ _ d serves within
  obtain ⟨taken, stop, code, -, -, reached, refused, -⟩ := cut (.tryTake 2) past
  exact ⟨d, stop, zerosPastSilence_productive, serves, within, (same _ _).mpr ⟨rfl, rfl⟩,
    (refused _ _).mpr ⟨rfl, rfl⟩, reached⟩

end Search

end RelationalSearch

import Mathlib.Data.List.Basic
import RelationalSearch.Proofs.Calls
import RelationalSearch.Proofs.Exhaustion
import RelationalSearch.Proofs.Fairness

/-!
The places of the merges among the frames. A search lists them beside the frames and goes by that
list when it has forced a suspension: it takes frames off down to the outermost merge. Whatever is
asked of a search, the list is right in every state that it passes, so nothing else is taken off
and nothing is dropped. A forcing then turns around every merge on the way to the suspension.
-/
namespace RelationalSearch

variable {κ α : Type}

open RelationalSearch.Frame

namespace Frame

def isMerge : Frame κ α → Bool
  | .merge _ => true
  | .bind _ => false

theorem isMerge_iff (frame : Frame κ α) :
    frame.isMerge = true ↔ ∃ other, frame = .merge other := by
  cases frame <;> simp [isMerge]

theorem mergePlaces_eq_findIdxs (place : Nat) (frames : List (Frame κ α)) :
    mergePlaces place frames = frames.findIdxs isMerge place := by
  induction frames generalizing place with
  | nil => rfl
  | cons frame frames ih => cases frame <;> simp [mergePlaces, isMerge, ih]

theorem mergePlaces_pairwise (place : Nat) (frames : List (Frame κ α)) :
    (mergePlaces place frames).Pairwise (· < ·) := by
  rw [mergePlaces_eq_findIdxs]
  exact List.pairwise_findIdxs

theorem mem_mergePlaces_iff (place : Nat) (frames : List (Frame κ α)) :
    place ∈ mergePlaces 0 frames ↔ ∃ other, frames[place]? = some (.merge other) := by
  rw [mergePlaces_eq_findIdxs, List.mem_findIdxs_iff_exists_getElem_pos]
  simp only [isMerge_iff, List.getElem?_eq_some_iff]
  constructor
  · rintro ⟨inside, other, same⟩
    exact ⟨other, inside, same⟩
  · rintro ⟨other, inside, same⟩
    exact ⟨inside, other, same⟩

end Frame

namespace Answers

/-- The stream with another one in place of its leftmost suspension, and with every merge on the
    way there turned around. -/
def swapped : Answers κ α → Answers κ α → Answers κ α
  | .suspended _, forced => forced
  | .merging left right, forced => .merging right (left.swapped forced)
  | .feeding source g, forced => .feeding (source.swapped forced) g
  | s, _ => s

theorem swapped_surround (frames : List (Frame κ α)) (code : κ) (forced : Answers κ α) :
    (surround frames (.suspended code)).swapped forced = rebuild frames forced := by
  induction frames with
  | nil => rfl
  | cons frame frames ih =>
    cases frame with
    | merge other => exact congrArg (Answers.merging other) ih
    | bind g => exact congrArg (Answers.feeding · g) ih

end Answers

namespace Search

open Answers

variable {force : κ → Answers κ α} {s : Answers κ α} {d e : Search κ α} {steps count : Nat}
  {config : SearchConfig}

def inside (d : Search κ α) (place : Nat) : Nat :=
  d.frames.size - (place + 1)

/-- What becomes of the frames where the outermost merge is at the place. -/
structure Unwinds (d : Search κ α) (outermost : Nat) (forced : Answers κ α) : Prop where
  /-- They are taken off one after the other, the innermost first. -/
  rounds : ∀ rounds ≤ d.inside outermost,
    (d.unwind rounds forced).2.frames = d.frames.take (d.frames.size - rounds)
  /-- The merge is left, and what is around it. -/
  stops : (d.unwind (d.inside outermost) forced).2.frames.size = outermost + 1
  binds : ∀ frame ∈ d.frames.take outermost, frame.IsBind
  /-- All frames that were inside have a part in what is rebuilt. -/
  rebuilt : (d.unwind (d.inside outermost) forced).1 =
    rebuild (d.frames.toList.drop (outermost + 1)) forced
  /-- Then the merge is taken off, and it is put back the other way around. -/
  swaps : ∃ other, (d.unwind (d.inside outermost) forced).2.pop.1 = some (.merge other) ∧
    d.resume forced = { d with
      focus := other
      frames := (d.frames.take outermost).push (.merge (d.unwind (d.inside outermost) forced).1)
      merges := #[outermost] }

/-- How a search goes on with a forced stream. -/
structure Resumes (d : Search κ α) (forced : Answers κ α) : Prop where
  /-- Without a merge all frames are binds, and they stay. -/
  unmerged : d.merges[0]? = none →
    (∀ frame ∈ d.frames, frame.IsBind) ∧ d.resume forced = { d with focus := forced }
  merged : ∀ outermost, d.merges[0]? = some outermost → Unwinds d outermost forced
  /-- The stream that the search stands for has had every merge around the suspension turned. -/
  whole : (d.resume forced).pending = d.pending.swapped forced

theorem unwind_rounds (t : Answers κ α) (steps : Nat) (config : SearchConfig) (forced : Answers κ α)
    {frames : List (Frame κ α)} {rounds : Nat} (few : rounds ≤ frames.length) :
    (ofFrames t frames steps config).unwind rounds forced =
      (rebuild (frames.drop (frames.length - rounds)) forced,
        ofFrames t (frames.take (frames.length - rounds)) steps config) := by
  have count : (frames.drop (frames.length - rounds)).length = rounds := by
    rw [List.length_drop]
    omega
  have unwound : (ofFrames t (frames.take (frames.length - rounds) ++
        frames.drop (frames.length - rounds)) steps config).unwind
      (frames.drop (frames.length - rounds)).length forced = _ := unwind_ofFrames _ forced
  rwa [List.take_append_drop, count] at unwound

theorem unwinds_merge {t : Answers κ α} {outer inner : List (Frame κ α)} {other : Answers κ α}
    (binds : ∀ frame ∈ outer, frame.IsBind) (forced : Answers κ α) :
    Unwinds (ofFrames t (outer ++ .merge other :: inner) steps config) outer.length forced := by
  have unwound : (ofFrames t (outer ++ .merge other :: inner) steps config).unwind
      ((ofFrames t (outer ++ .merge other :: inner) steps config).inside outer.length) forced =
        (rebuild inner forced, ofFrames t (outer ++ [.merge other]) steps config) :=
    unwind_merge forced
  refine ⟨fun rounds few => ?_, ?_, ?_, ?_, other, ?_, ?_⟩
  · have most : rounds ≤ (outer ++ .merge other :: inner).length :=
      Nat.le_trans few (Nat.sub_le _ _)
    rw [unwind_rounds _ _ _ _ most]
    simp [ofFrames]
  · rw [unwound]
    simp [ofFrames]
  · simpa [ofFrames] using binds
  · rw [unwound]
    simp [ofFrames]
  · rw [unwound, pop_ofFrames]
  · rw [unwound, resume_merge binds]
    simp [ofFrames, mergePlaces_append, mergePlaces_binds binds, mergePlaces]

theorem resumes_binds {frames : List (Frame κ α)} (binds : ∀ frame ∈ frames, frame.IsBind)
    (code : κ) (forced : Answers κ α) :
    Resumes (ofFrames (.suspended code) frames steps config) forced where
  unmerged _ := by
    refine ⟨?_, resume_binds binds forced⟩
    simpa [ofFrames] using binds
  merged outermost first := by
    simp [ofFrames, mergePlaces_binds binds] at first
  whole := by
    rw [resume_binds binds]
    show surround frames forced = (surround frames (.suspended code)).swapped forced
    rw [swapped_surround, rebuild_binds binds]

theorem resumes_merge {outer inner : List (Frame κ α)} {other : Answers κ α}
    (binds : ∀ frame ∈ outer, frame.IsBind) (code : κ) (forced : Answers κ α) :
    Resumes (ofFrames (.suspended code) (outer ++ .merge other :: inner) steps config) forced where
  unmerged none := by
    rw [merges_head binds] at none
    cases none
  merged outermost first := by
    rw [merges_head binds] at first
    cases first
    exact unwinds_merge binds forced
  whole := by
    rw [resume_merge binds]
    show surround (outer ++ [.merge (rebuild inner forced)]) other =
      (surround (outer ++ .merge other :: inner) (.suspended code)).swapped forced
    rw [swapped_surround, rebuild_append, rebuild_binds binds, surround_append]
    rfl

/-- Whatever frames stand around a suspension, a search goes on with all of them. -/
theorem resumes_ofFrames (code : κ) (frames : List (Frame κ α)) (steps : Nat)
    (config : SearchConfig) (forced : Answers κ α) :
    Resumes (ofFrames (.suspended code) frames steps config) forced := by
  rcases binds_or_outermost_merge frames with binds | ⟨outer, other, inner, rfl, binds⟩
  · exact resumes_binds binds code forced
  · exact resumes_merge binds code forced

section Reached

variable {taken : List α} {call : Call} {reply : Reply α} {calls : List Call}
  {replies : List (Reply α × Nat)}

theorem history_of_yields {result : Except SearchError (Option α)}
    (yields : Yields force d result e) : ∃ taken, History force d taken e := by
  obtain ⟨turns, pulled⟩ := yields
  have history := history_pull force turns d
  rw [pulled] at history
  exact ⟨_, history⟩

theorem history_of_takes {result : Except SearchError (List α)}
    (takes : Takes force d count result e) : ∃ taken, History force d taken e := by
  induction takes with
  | enough d => exact ⟨[], .start⟩
  | ended yields => exact history_of_yields yields
  | failed yields => exact history_of_yields yields
  | answered yields later ih =>
    obtain ⟨first, before⟩ := history_of_yields yields
    obtain ⟨others, after⟩ := ih
    exact ⟨first ++ others, history_trans before after⟩

theorem history_of_responds (responds : Responds force d call reply e) :
    ∃ taken, History force d taken e := by
  cases call with
  | tryNext =>
    obtain ⟨result, -, yields⟩ := responds_tryNext_iff.mp responds
    exact history_of_yields yields
  | next =>
    obtain ⟨result, -, yields⟩ := responds_next_iff.mp responds
    exact history_of_yields yields
  | tryTake count =>
    obtain ⟨result, -, takes⟩ := responds_tryTake_iff.mp responds
    exact history_of_takes takes

theorem history_of_serves (serves : Serves force d calls replies e) :
    ∃ taken, History force d taken e := by
  induction serves with
  | done d => exact ⟨[], .start⟩
  | call responds later ih =>
    obtain ⟨first, before⟩ := history_of_responds responds
    obtain ⟨others, after⟩ := ih
    exact ⟨first ++ others, history_trans before after⟩

end Reached

/-- In every state between calls, and in every one that a further call passes, the list of places
    holds those of the merges and no others, in increasing order. So where a suspension is forced
    the search goes on with all of the frames. -/
theorem merges_are_listed (force : κ → Answers κ α) (s : Answers κ α) (config : SearchConfig)
    (calls : List Call) (replies : List (Reply α × Nat)) (between d : Search κ α) (taken : List α)
    (serves : Serves force (ofAnswers s config) calls replies between)
    (history : History force between taken d) :
    d.merges.toList.Pairwise (· < ·) ∧
      (∀ place, place ∈ d.merges ↔ ∃ other, d.frames[place]? = some (.merge other)) ∧
      ∀ code, d.focus = .suspended code → d.config.Allows d.steps →
        d.turn force = .running ({ d with steps := d.steps + 1 }.resume (force code)) ∧
        Resumes { d with steps := d.steps + 1 } (force code) := by
  obtain ⟨first, before⟩ := history_of_serves serves
  have whole : History force (ofFrames s [] 0 config) (first ++ taken) d :=
    history_trans before history
  obtain ⟨t, frames, steps, rfl, -⟩ := history_framed whole
  refine ⟨mergePlaces_pairwise 0 frames, fun place => ?_, fun code focus allowed => ?_⟩
  · have listed := mem_mergePlaces_iff place frames
    simpa [ofFrames] using listed
  · obtain rfl : t = .suspended code := focus
    exact ⟨turn_suspended code allowed, resumes_ofFrames code frames (steps + 1) config _⟩

def countedUp (s : Answers Bool Nat) : Answers Bool Nat :=
  .feeding s fun n => .inl (.single (n + 1))

def nestedMerges : Answers Bool Nat :=
  countedUp (.merging (countedUp (.merging (.suspended false) (.suspended true))) (.ofList [7, 8]))

theorem nestedMerges_are_listed :
    ∃ between d : Search Bool Nat,
      Serves silenceOrZeros (ofAnswers nestedMerges .unbounded) [.tryNext]
        [(.tried (.ok (some 8)), 1)] between ∧
      History silenceOrZeros between [] d ∧ d.merges = #[1, 3] ∧
      d.turn silenceOrZeros =
        .running ({ d with steps := d.steps + 1 }.resume (.ready 0 (.suspended true))) ∧
      Resumes { d with steps := d.steps + 1 } (.ready 0 (.suspended true)) := by
  let inner : Answers Bool Nat := countedUp (.merging (.suspended true) (.suspended false))
  let between : Search Bool Nat :=
    ofFrames (.merging (countedUp (.merging inner (.ofList [8]))) .empty) [] 1 .unbounded
  have first : Responds silenceOrZeros (ofAnswers nestedMerges .unbounded) .tryNext
      (.tried (.ok (some 8))) between := responds_tryNext_iff.mpr ⟨_, rfl, 50, rfl⟩
  have serves := Serves.call first (.done between)
  have opened : History silenceOrZeros between []
      (ofFrames inner [.bind _, .merge (.ofList [8])] 1 .unbounded) :=
    history_of_running (history_of_running (history_of_running .start turn_merging_empty)
      (turn_feeding _)) (turn_merging rfl)
  have history : History silenceOrZeros between [] _ :=
    history_of_running (history_of_running opened (turn_feeding _)) (turn_merging rfl)
  obtain ⟨-, -, resumes⟩ :=
    merges_are_listed silenceOrZeros nestedMerges .unbounded _ _ between _ _ serves history
  exact ⟨between, _, serves, history, rfl, resumes true rfl (SearchConfig.unbounded_allows 1)⟩

end Search

end RelationalSearch

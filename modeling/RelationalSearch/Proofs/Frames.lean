import Mathlib.Data.List.Induction
import RelationalSearch.Search

/-!
Searches with their frames as a list, outermost first. The places of the merges are then
computed from the frames, and each turn is one equation. A search stands for the stream that
its frames make of its focus, and forcing replaces that stream by the one in which every
merge around the suspension has changed sides.
-/
namespace RelationalSearch

variable {κ α : Type}

namespace Frame

/-- The stream that the frame makes of a focus that has not been forced. -/
def wrap : Frame κ α → Answers κ α → Answers κ α
  | .merge other, s => .merging s other
  | .bind g, s => .feeding s g

def IsBind : Frame κ α → Prop
  | .merge _ => False
  | .bind _ => True

def mergePlaces : Nat → List (Frame κ α) → List Nat
  | _, [] => []
  | place, .merge _ :: frames => place :: mergePlaces (place + 1) frames
  | place, .bind _ :: frames => mergePlaces (place + 1) frames

def surround (frames : List (Frame κ α)) (s : Answers κ α) : Answers κ α :=
  frames.foldr wrap s

/-- The stream after a forcing inside the frames. -/
def rebuild (frames : List (Frame κ α)) (forced : Answers κ α) : Answers κ α :=
  frames.foldr resume forced

theorem mergePlaces_append (place : Nat) (outer inner : List (Frame κ α)) :
    mergePlaces place (outer ++ inner) =
      mergePlaces place outer ++ mergePlaces (place + outer.length) inner := by
  induction outer generalizing place with
  | nil => simp [mergePlaces]
  | cons frame outer ih =>
    cases frame with
    | merge other => simp [mergePlaces, ih, Nat.add_assoc, Nat.add_comm 1]
    | bind g => simp [mergePlaces, ih, Nat.add_assoc, Nat.add_comm 1]

theorem mergePlaces_binds {place : Nat} {frames : List (Frame κ α)}
    (binds : ∀ frame ∈ frames, frame.IsBind) : mergePlaces place frames = [] := by
  induction frames generalizing place with
  | nil => rfl
  | cons frame frames ih =>
    cases frame with
    | merge other => exact absurd (binds _ List.mem_cons_self) id
    | bind g => exact ih fun frame member => binds frame (List.mem_cons_of_mem _ member)

theorem surround_append (outer inner : List (Frame κ α)) (s : Answers κ α) :
    surround (outer ++ inner) s = surround outer (surround inner s) :=
  List.foldr_append

theorem rebuild_append (outer inner : List (Frame κ α)) (forced : Answers κ α) :
    rebuild (outer ++ inner) forced = rebuild outer (rebuild inner forced) :=
  List.foldr_append

theorem rebuild_binds {frames : List (Frame κ α)} (binds : ∀ frame ∈ frames, frame.IsBind)
    (forced : Answers κ α) : rebuild frames forced = surround frames forced := by
  induction frames with
  | nil => rfl
  | cons frame frames ih =>
    have inner := ih fun frame member => binds frame (List.mem_cons_of_mem _ member)
    cases frame with
    | merge other => exact absurd (binds _ List.mem_cons_self) id
    | bind g => exact congrArg (Answers.feeding · g) inner

theorem binds_or_outermost_merge (frames : List (Frame κ α)) :
    (∀ frame ∈ frames, frame.IsBind) ∨
      ∃ outer other inner, frames = outer ++ .merge other :: inner ∧
        ∀ frame ∈ outer, frame.IsBind := by
  induction frames with
  | nil => exact .inl fun _ member => absurd member List.not_mem_nil
  | cons frame frames ih =>
    cases frame with
    | merge other =>
      right
      exact ⟨[], other, frames, rfl, fun _ member => absurd member List.not_mem_nil⟩
    | bind g =>
      rcases ih with binds | ⟨outer, other, inner, rfl, binds⟩
      · left
        intro frame member
        rcases List.mem_cons.mp member with rfl | later
        · trivial
        · exact binds frame later
      · right
        refine ⟨.bind g :: outer, other, inner, rfl, ?_⟩
        intro frame member
        rcases List.mem_cons.mp member with rfl | later
        · trivial
        · exact binds frame later

end Frame

open RelationalSearch.Frame

def SearchConfig.Allows (config : SearchConfig) (steps : Nat) : Prop :=
  ∀ limit, config.stepLimit = some limit → steps < limit

theorem SearchConfig.unbounded_allows (steps : Nat) : SearchConfig.unbounded.Allows steps :=
  fun _ h => nomatch h

theorem SearchConfig.allows_or_reached (config : SearchConfig) (steps : Nat) :
    config.Allows steps ∨ ∃ limit, config.stepLimit = some limit ∧ limit ≤ steps := by
  cases known : config.stepLimit with
  | none => exact .inl fun _ h => nomatch known.symm.trans h
  | some limit =>
    rcases Nat.lt_or_ge steps limit with below | reached
    · refine .inl fun other h => ?_
      cases known.symm.trans h
      exact below
    · exact .inr ⟨limit, rfl, reached⟩

namespace Search

def ofFrames (focus : Answers κ α) (frames : List (Frame κ α)) (steps : Nat)
    (config : SearchConfig) : Search κ α :=
  ⟨focus, frames.toArray, (mergePlaces 0 frames).toArray, steps, config⟩

variable {force : κ → Answers κ α} {s t : Answers κ α} {frames : List (Frame κ α)}
  {steps : Nat} {config : SearchConfig}

theorem push_ofFrames (frame : Frame κ α) :
    (ofFrames s frames steps config).push frame =
      ofFrames s (frames ++ [frame]) steps config := by
  cases frame <;> simp [push, ofFrames, mergePlaces_append, mergePlaces]

theorem pop_ofFrames (frame : Frame κ α) :
    (ofFrames s (frames ++ [frame]) steps config).pop =
      (some frame, ofFrames s frames steps config) := by
  cases frame <;> simp [pop, ofFrames, mergePlaces_append, mergePlaces]

theorem unwind_ofFrames (inner : List (Frame κ α)) (forced : Answers κ α) :
    (ofFrames s (frames ++ inner) steps config).unwind inner.length forced =
      (rebuild inner forced, ofFrames s frames steps config) := by
  induction inner using List.reverseRecOn generalizing forced with
  | nil => simp [unwind, rebuild]
  | append_singleton inner frame ih =>
    rw [List.length_append, List.length_singleton, ← List.append_assoc, unwind, pop_ofFrames,
      rebuild_append]
    exact ih (frame.resume forced)

theorem resume_binds (binds : ∀ frame ∈ frames, frame.IsBind) (forced : Answers κ α) :
    (ofFrames s frames steps config).resume forced = ofFrames forced frames steps config := by
  simp [resume, ofFrames, mergePlaces_binds binds]

section OutermostMerge

variable {outer inner : List (Frame κ α)} {other : Answers κ α}

theorem merges_head (binds : ∀ frame ∈ outer, frame.IsBind) :
    (ofFrames s (outer ++ .merge other :: inner) steps config).merges[0]? = some outer.length := by
  simp [ofFrames, mergePlaces_append, mergePlaces_binds binds, mergePlaces]

/-- Taking off as many frames as there are inside a merge leaves that merge innermost. -/
theorem unwind_merge (forced : Answers κ α) :
    (ofFrames s (outer ++ .merge other :: inner) steps config).unwind
        ((outer ++ .merge other :: inner).length - (outer.length + 1)) forced =
      (rebuild inner forced, ofFrames s (outer ++ [.merge other]) steps config) := by
  have count : (outer ++ .merge other :: inner).length - (outer.length + 1) = inner.length := by
    rw [List.length_append, List.length_cons]
    omega
  have split : outer ++ .merge other :: inner = (outer ++ [.merge other]) ++ inner := by simp
  rw [count, split, unwind_ofFrames]

theorem resume_merge (binds : ∀ frame ∈ outer, frame.IsBind) (forced : Answers κ α) :
    (ofFrames s (outer ++ .merge other :: inner) steps config).resume forced =
      ofFrames other (outer ++ [.merge (rebuild inner forced)]) steps config := by
  have size : (ofFrames s (outer ++ .merge other :: inner) steps config).frames.size =
      (outer ++ .merge other :: inner).length := List.size_toArray
  rw [resume, merges_head binds]
  simp only [size, unwind_merge, pop_ofFrames]
  exact push_ofFrames (.merge (rebuild inner forced))

end OutermostMerge

theorem resume_ofFrames (frames : List (Frame κ α)) (forced : Answers κ α) :
    ∃ focus others, (∀ s steps config, (ofFrames s frames steps config).resume forced =
      ofFrames focus others steps config) ∧ surround others focus = rebuild frames forced := by
  rcases binds_or_outermost_merge frames with binds | ⟨outer, other, inner, rfl, binds⟩
  · exact ⟨forced, frames, fun _ _ _ => resume_binds binds forced,
      (rebuild_binds binds forced).symm⟩
  · refine ⟨other, outer ++ [.merge (rebuild inner forced)],
      fun _ _ _ => resume_merge binds forced, ?_⟩
    rw [surround_append, rebuild_append, rebuild_binds binds]
    rfl

theorem turn_merging_empty :
    (ofFrames (.merging s .empty) frames steps config).turn force =
      .running (ofFrames s frames steps config) := rfl

theorem turn_merging (more : t.isEmpty = false) :
    (ofFrames (.merging s t) frames steps config).turn force =
      .running (ofFrames s (frames ++ [.merge t]) steps config) := by
  rw [← push_ofFrames]
  simp [turn, ofFrames, more]

theorem turn_feeding (g : α → Answers κ α ⊕ κ) :
    (ofFrames (.feeding s g) frames steps config).turn force =
      .running (ofFrames s (frames ++ [.bind g]) steps config) := by
  rw [← push_ofFrames]
  rfl

theorem turn_empty_end : (ofFrames .empty [] steps config).turn force =
    .exhausted (ofFrames .empty [] steps config) := rfl

theorem turn_empty_merge : (ofFrames .empty (frames ++ [.merge t]) steps config).turn force =
    .running (ofFrames t frames steps config) := by
  rw [turn, pop_ofFrames]
  rfl

theorem turn_empty_bind (g : α → Answers κ α ⊕ κ) :
    (ofFrames .empty (frames ++ [.bind g]) steps config).turn force =
      .running (ofFrames .empty frames steps config) := by
  rw [turn, pop_ofFrames]
  rfl

theorem turn_ready_end (a : α) : (ofFrames (.ready a s) [] steps config).turn force =
    .answer a (ofFrames s [] steps config) := rfl

theorem turn_ready_merge (a : α) :
    (ofFrames (.ready a s) (frames ++ [.merge t]) steps config).turn force =
      .running (ofFrames (.ready a (.merging t s)) frames steps config) := by
  rw [turn, pop_ofFrames]
  rfl

theorem turn_ready_bind_last (a : α) (g : α → Answers κ α ⊕ κ) :
    (ofFrames (.ready a .empty) (frames ++ [.bind g]) steps config).turn force =
      .running (ofFrames (.given force (g a)) frames steps config) := by
  rw [turn, pop_ofFrames]
  rfl

theorem turn_ready_bind (a : α) (g : α → Answers κ α ⊕ κ) (more : s.isEmpty = false) :
    (ofFrames (.ready a s) (frames ++ [.bind g]) steps config).turn force =
      .running (ofFrames (.merging (.given force (g a)) (.feeding s g)) frames steps config) := by
  rw [turn, pop_ofFrames]
  simp [ofFrames, more]

theorem turn_suspended (code : κ) (allowed : config.Allows steps) :
    (ofFrames (.suspended code) frames steps config).turn force =
      .running ((ofFrames (.suspended code) frames (steps + 1) config).resume (force code)) := by
  cases limit : config.stepLimit with
  | none => simp [turn, ofFrames, limit]
  | some n =>
    have below : ¬ n ≤ steps := Nat.not_le.mpr (allowed n limit)
    simp [turn, ofFrames, limit, below]

theorem turn_limited {limit : Nat} (code : κ) (known : config.stepLimit = some limit)
    (reached : limit ≤ steps) :
    (ofFrames (.suspended code) frames steps config).turn force =
      .limited (.stepLimitExceeded limit) (ofFrames (.suspended code) frames steps config) := by
  simp [turn, ofFrames, known, reached]

/-- What one turn does to the focus and the frames, unless the focus is a suspension or an answer
    or the end is found. -/
inductive Shifts (force : κ → Answers κ α) :
    Answers κ α → List (Frame κ α) → Answers κ α → List (Frame κ α) → Prop where
  | merging_empty {s : Answers κ α} {frames : List (Frame κ α)} :
      Shifts force (.merging s .empty) frames s frames
  | merging {s t : Answers κ α} {frames : List (Frame κ α)} (more : t.isEmpty = false) :
      Shifts force (.merging s t) frames s (frames ++ [.merge t])
  | feeding {s : Answers κ α} {frames : List (Frame κ α)} (g : α → Answers κ α ⊕ κ) :
      Shifts force (.feeding s g) frames s (frames ++ [.bind g])
  | empty_merge {t : Answers κ α} {frames : List (Frame κ α)} :
      Shifts force .empty (frames ++ [.merge t]) t frames
  | empty_bind {frames : List (Frame κ α)} (g : α → Answers κ α ⊕ κ) :
      Shifts force .empty (frames ++ [.bind g]) .empty frames
  | ready_merge {s t : Answers κ α} {frames : List (Frame κ α)} (a : α) :
      Shifts force (.ready a s) (frames ++ [.merge t]) (.ready a (.merging t s)) frames
  | ready_bind_last {frames : List (Frame κ α)} (a : α) (g : α → Answers κ α ⊕ κ) :
      Shifts force (.ready a .empty) (frames ++ [.bind g]) (.given force (g a)) frames
  | ready_bind {s : Answers κ α} {frames : List (Frame κ α)} (a : α) (g : α → Answers κ α ⊕ κ)
      (more : s.isEmpty = false) :
      Shifts force (.ready a s) (frames ++ [.bind g])
        (.merging (.given force (g a)) (.feeding s g)) frames

theorem turn_of_shifts {others : List (Frame κ α)} (shifts : Shifts force s frames t others)
    (steps : Nat) (config : SearchConfig) :
    (ofFrames s frames steps config).turn force = .running (ofFrames t others steps config) := by
  cases shifts with
  | merging_empty => exact turn_merging_empty
  | merging more => exact turn_merging more
  | feeding g => exact turn_feeding g
  | empty_merge => exact turn_empty_merge
  | empty_bind g => exact turn_empty_bind g
  | ready_merge a => exact turn_ready_merge a
  | ready_bind_last a g => exact turn_ready_bind_last a g
  | ready_bind a g more => exact turn_ready_bind a g more

theorem shifts_or_stays (force : κ → Answers κ α) (s : Answers κ α) (frames : List (Frame κ α)) :
    (∃ t others, Shifts force s frames t others) ∨ (∃ code, s = .suspended code) ∨
      frames = [] ∧ (s = .empty ∨ ∃ a rest, s = .ready a rest) := by
  cases s with
  | suspended code => exact .inr (.inl ⟨code, rfl⟩)
  | merging left right =>
    cases nothing : right.isEmpty with
    | true =>
      cases (Answers.isEmpty_iff right).mp nothing
      exact .inl ⟨_, _, .merging_empty⟩
    | false => exact .inl ⟨_, _, .merging nothing⟩
  | feeding source g => exact .inl ⟨_, _, .feeding g⟩
  | empty =>
    rcases frames.eq_nil_or_concat with rfl | ⟨frames, frame, rfl⟩
    · exact .inr (.inr ⟨rfl, .inl rfl⟩)
    · rw [List.concat_eq_append]
      cases frame with
      | merge other => exact .inl ⟨_, _, .empty_merge⟩
      | bind g => exact .inl ⟨_, _, .empty_bind g⟩
  | ready a rest =>
    rcases frames.eq_nil_or_concat with rfl | ⟨frames, frame, rfl⟩
    · exact .inr (.inr ⟨rfl, .inr ⟨a, rest, rfl⟩⟩)
    · rw [List.concat_eq_append]
      cases frame with
      | merge other => exact .inl ⟨_, _, .ready_merge a⟩
      | bind g =>
        cases last : rest.isEmpty with
        | true =>
          cases (Answers.isEmpty_iff rest).mp last
          exact .inl ⟨_, _, .ready_bind_last a g⟩
        | false => exact .inl ⟨_, _, .ready_bind a g last⟩

end Search

end RelationalSearch

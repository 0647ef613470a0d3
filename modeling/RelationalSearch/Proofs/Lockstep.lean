import Mathlib.Data.List.Forall2
import RelationalSearch.Proofs.Attempts

/-!
Searches in lockstep. Streams that are built in the same way, from related answers and from codes
that are related and force such streams again, are searched by the same turns: at every turn the
focus and the frames of the one search are related to those of the other. So each pull comes to
results of the same kind after the same number of forcings, and the answers are related.
-/
namespace RelationalSearch

variable {κ κ' α β : Type}

/-- Streams built in the same way from related answers and codes. -/
inductive Answers.Alike (answers : α → β → Prop) (codes : κ → κ' → Prop) :
    Answers κ α → Answers κ' β → Prop where
  | empty : Alike answers codes .empty .empty
  | ready {a : α} {b : β} {s : Answers κ α} {t : Answers κ' β} (answer : answers a b)
      (rest : Alike answers codes s t) : Alike answers codes (.ready a s) (.ready b t)
  | suspended {c : κ} {d : κ'} (code : codes c d) :
      Alike answers codes (.suspended c) (.suspended d)
  | merging {s t : Answers κ α} {s' t' : Answers κ' β} (left : Alike answers codes s s')
      (right : Alike answers codes t t') : Alike answers codes (.merging s t) (.merging s' t')
  | feeding {s : Answers κ α} {t : Answers κ' β} {f : α → Answers κ α ⊕ κ}
      {g : β → Answers κ' β ⊕ κ'} (source : Alike answers codes s t)
      (results : ∀ a b, answers a b → Sum.LiftRel (Alike answers codes) codes (f a) (g b)) :
      Alike answers codes (.feeding s f) (.feeding t g)

inductive Frame.Alike (answers : α → β → Prop) (codes : κ → κ' → Prop) :
    Frame κ α → Frame κ' β → Prop where
  | merge {s : Answers κ α} {t : Answers κ' β} (other : s.Alike answers codes t) :
      Alike answers codes (.merge s) (.merge t)
  | bind {f : α → Answers κ α ⊕ κ} {g : β → Answers κ' β ⊕ κ'}
      (results : ∀ a b, answers a b →
        Sum.LiftRel (Answers.Alike answers codes) codes (f a) (g b)) :
      Alike answers codes (.bind f) (.bind g)

/-- Searches that differ only in how their streams are related. -/
inductive Search.Lockstep (answers : α → β → Prop) (codes : κ → κ' → Prop) :
    Search κ α → Search κ' β → Prop where
  | intro {t : Answers κ α} {t' : Answers κ' β} {frames : List (Frame κ α)}
      {frames' : List (Frame κ' β)} (steps : Nat) (config : SearchConfig)
      (focus : t.Alike answers codes t')
      (around : List.Forall₂ (Frame.Alike answers codes) frames frames') :
      Lockstep answers codes (.ofFrames t frames steps config) (.ofFrames t' frames' steps config)

inductive Turn.Alike (answers : α → β → Prop) (codes : κ → κ' → Prop) :
    Turn κ α → Turn κ' β → Prop where
  | running {d : Search κ α} {d' : Search κ' β} (next : d.Lockstep answers codes d') :
      Alike answers codes (.running d) (.running d')
  | answer {a : α} {b : β} {d : Search κ α} {d' : Search κ' β} (related : answers a b)
      (next : d.Lockstep answers codes d') : Alike answers codes (.answer a d) (.answer b d')
  | exhausted {d : Search κ α} {d' : Search κ' β} (next : d.Lockstep answers codes d') :
      Alike answers codes (.exhausted d) (.exhausted d')
  | limited (e : SearchError) {d : Search κ α} {d' : Search κ' β}
      (next : d.Lockstep answers codes d') : Alike answers codes (.limited e d) (.limited e d')

inductive ResultAlike (answers : α → β → Prop) :
    Except SearchError (Option α) → Except SearchError (Option β) → Prop where
  | ended : ResultAlike answers (.ok none) (.ok none)
  | answer {a : α} {b : β} (related : answers a b) :
      ResultAlike answers (.ok (some a)) (.ok (some b))
  | error (e : SearchError) : ResultAlike answers (.error e) (.error e)

def AttemptAlike (answers : α → β → Prop) (first : Attempt α) (second : Attempt β) : Prop :=
  ResultAlike answers first.1 second.1 ∧ first.2 = second.2

variable {answers : α → β → Prop} {codes : κ → κ' → Prop} {force : κ → Answers κ α}
  {force' : κ' → Answers κ' β} {s : Answers κ α} {t : Answers κ' β}

namespace Answers

theorem isEmpty_of_alike (alike : s.Alike answers codes t) : s.isEmpty = t.isEmpty := by
  cases alike <;> rfl

theorem alike_merge {s' : Answers κ α} {t' : Answers κ' β} (left : s.Alike answers codes t)
    (right : s'.Alike answers codes t') : (s.merge s').Alike answers codes (t.merge t') := by
  cases left with
  | empty => exact right
  | ready answer rest => exact .ready answer (.merging right rest)
  | suspended code => exact .merging (.suspended code) right
  | merging first second => exact .merging (.merging first second) right
  | feeding source results => exact .merging (.feeding source results) right

theorem alike_feed {f : α → Answers κ α ⊕ κ} {g : β → Answers κ' β ⊕ κ'}
    (source : s.Alike answers codes t)
    (results : ∀ a b, answers a b → Sum.LiftRel (Alike answers codes) codes (f a) (g b)) :
    (s.feed f).Alike answers codes (t.feed g) := by
  cases source with
  | empty => exact .empty
  | ready answer rest => exact .feeding (.ready answer rest) results
  | suspended code => exact .feeding (.suspended code) results
  | merging first second => exact .feeding (.merging first second) results
  | feeding source inner => exact .feeding (.feeding source inner) results

theorem alike_ofList {xs : List α} {ys : List β} (items : List.Forall₂ answers xs ys) :
    (ofList xs : Answers κ α).Alike answers codes (ofList ys : Answers κ' β) := by
  induction items with
  | nil => exact .empty
  | cons first rest ih => exact .ready first ih

end Answers

open Answers RelationalSearch.Frame

section Frames

variable {frames : List (Frame κ α)} {frames' : List (Frame κ' β)}

theorem alike_rebuild (around : List.Forall₂ (Frame.Alike answers codes) frames frames')
    (forced : s.Alike answers codes t) :
    (rebuild frames s).Alike answers codes (rebuild frames' t) := by
  induction around with
  | nil => exact forced
  | cons first rest ih =>
    cases first with
    | merge other => exact .merging other ih
    | bind results => exact .feeding ih results

theorem binds_of_alike (around : List.Forall₂ (Frame.Alike answers codes) frames frames')
    (binds : ∀ frame ∈ frames, frame.IsBind) : ∀ frame ∈ frames', frame.IsBind := by
  induction around with
  | nil => exact fun _ member => nomatch member
  | cons first rest ih =>
    rw [List.forall_mem_cons] at binds ⊢
    refine ⟨?_, ih binds.2⟩
    cases first with
    | merge other => exact absurd binds.1 id
    | bind results => trivial

theorem split_of_alike {outer inner : List (Frame κ α)}
    (around : List.Forall₂ (Frame.Alike answers codes) (outer ++ inner) frames') :
    ∃ outer' inner', frames' = outer' ++ inner' ∧
      List.Forall₂ (Frame.Alike answers codes) outer outer' ∧
      List.Forall₂ (Frame.Alike answers codes) inner inner' := by
  have before := List.forall₂_take outer.length around
  have after := List.forall₂_drop outer.length around
  rw [List.take_left] at before
  rw [List.drop_left] at after
  exact ⟨_, _, (List.take_append_drop outer.length frames').symm, before, after⟩

theorem innermost_of_alike (around : List.Forall₂ (Frame.Alike answers codes) frames frames') :
    (frames = [] ∧ frames' = []) ∨ ∃ outer outer' frame frame', frames = outer ++ [frame] ∧
      frames' = outer' ++ [frame'] ∧ List.Forall₂ (Frame.Alike answers codes) outer outer' ∧
      frame.Alike answers codes frame' := by
  rcases frames.eq_nil_or_concat with rfl | ⟨outer, frame, rfl⟩
  · exact .inl ⟨rfl, List.forall₂_nil_left_iff.mp around⟩
  · rw [List.concat_eq_append] at around ⊢
    obtain ⟨outer', inner', rfl, before, after⟩ := split_of_alike around
    cases after with
    | cons innermost nothing =>
      cases nothing
      exact .inr ⟨outer, outer', frame, _, rfl, rfl, before, innermost⟩

end Frames

namespace Search

variable {d : Search κ α} {d' : Search κ' β} {e : Search κ α} {e' : Search κ' β}

theorem steps_of_lockstep (lockstep : d.Lockstep answers codes d') : d.steps = d'.steps := by
  cases lockstep
  rfl

theorem lockstep_ofAnswers (alike : s.Alike answers codes t) (config : SearchConfig) :
    (ofAnswers s config).Lockstep answers codes (ofAnswers t config) :=
  .intro 0 config alike .nil

theorem lockstep_resume {t : Answers κ α} {t' : Answers κ' β} {frames : List (Frame κ α)}
    {frames' : List (Frame κ' β)} {forced : Answers κ α} {forced' : Answers κ' β} (steps : Nat)
    (config : SearchConfig) (around : List.Forall₂ (Frame.Alike answers codes) frames frames')
    (alike : forced.Alike answers codes forced') :
    ((ofFrames t frames steps config).resume forced).Lockstep answers codes
      ((ofFrames t' frames' steps config).resume forced') := by
  rcases binds_or_outermost_merge frames with binds | ⟨outer, other, inner, rfl, binds⟩
  · rw [resume_binds binds, resume_binds (binds_of_alike around binds)]
    exact .intro steps config alike around
  · obtain ⟨outer', inner', rfl, before, after⟩ := split_of_alike around
    cases after with
    | cons outermost inside =>
      cases outermost with
      | merge others =>
        rw [resume_merge binds, resume_merge (binds_of_alike before binds)]
        have waiting := Frame.Alike.merge (alike_rebuild inside alike)
        exact .intro steps config others (List.rel_append before (.cons waiting .nil))

/-- What the one search returns pull by pull, the other one returns too, with results of the same
    kind, as many forcings and related answers. Taken with the same turns, the answers are related
    one by one. -/
structure Corresponds (answers : α → β → Prop) (force : κ → Answers κ α)
    (force' : κ' → Answers κ' β) (d : Search κ α) (d' : Search κ' β) : Prop where
  forth : ∀ outs, d.Tries force outs →
    ∃ outs', List.Forall₂ (AttemptAlike answers) outs outs' ∧ d'.Tries force' outs'
  back : ∀ outs', d'.Tries force' outs' →
    ∃ outs, List.Forall₂ (AttemptAlike answers) outs outs' ∧ d.Tries force outs
  taken : ∀ turns count,
    List.Forall₂ answers (d.take force turns count).1 (d'.take force' turns count).1

theorem next_of_unsettled {turns : Nat} (running : (d.pull force turns).1 = .unsettled) :
    d.next force turns = (none, (d.pull force turns).2) := by
  rw [next]
  generalize d.pull force turns = pulled at running
  obtain ⟨outcome, e⟩ := pulled
  cases running
  rfl

section Turns

variable (forced : ∀ c d, codes c d → (force c).Alike answers codes (force' d))

include forced

theorem alike_given {source : Answers κ α ⊕ κ} {source' : Answers κ' β ⊕ κ'}
    (related : Sum.LiftRel (Answers.Alike answers codes) codes source source') :
    (given force source).Alike answers codes (given force' source') := by
  cases related with
  | inl alike => exact alike
  | inr code => exact forced _ _ code

/-- One turn leads from searches in lockstep to searches in lockstep. -/
theorem turn_alike (lockstep : d.Lockstep answers codes d') :
    (d.turn force).Alike answers codes (d'.turn force') := by
  obtain ⟨steps, config, focus, around⟩ := lockstep
  cases focus with
  | empty =>
    rcases innermost_of_alike around with
      ⟨rfl, rfl⟩ | ⟨outer, outer', frame, frame', rfl, rfl, before, innermost⟩
    · exact .exhausted (.intro steps config .empty .nil)
    · cases innermost with
      | merge other =>
        rw [turn_empty_merge, turn_empty_merge]
        exact .running (.intro steps config other before)
      | bind results =>
        rw [turn_empty_bind, turn_empty_bind]
        exact .running (.intro steps config .empty before)
  | @ready a b s t answer rest =>
    rcases innermost_of_alike around with
      ⟨rfl, rfl⟩ | ⟨outer, outer', frame, frame', rfl, rfl, before, innermost⟩
    · exact .answer answer (.intro steps config rest .nil)
    · cases innermost with
      | merge other =>
        rw [turn_ready_merge, turn_ready_merge]
        exact .running (.intro steps config (.ready answer (.merging other rest)) before)
      | bind results =>
        have head := alike_given forced (results a b answer)
        cases last : s.isEmpty with
        | true =>
          obtain rfl := (isEmpty_iff s).mp last
          cases rest
          rw [turn_ready_bind_last, turn_ready_bind_last]
          exact .running (.intro steps config head before)
        | false =>
          have last' : t.isEmpty = false := (isEmpty_of_alike rest).symm.trans last
          rw [turn_ready_bind a _ last, turn_ready_bind b _ last']
          exact .running (.intro steps config (.merging head (.feeding rest results)) before)
  | @suspended c c' code =>
    rcases config.allows_or_reached steps with allowed | ⟨limit, known, reached⟩
    · rw [turn_suspended c allowed, turn_suspended c' allowed]
      exact .running (lockstep_resume (steps + 1) config around (forced c c' code))
    · rw [turn_limited c known reached, turn_limited c' known reached]
      exact .limited _ (.intro steps config (.suspended code) around)
  | @merging s r s' r' left right =>
    cases nothing : r.isEmpty with
    | true =>
      obtain rfl := (isEmpty_iff r).mp nothing
      cases right
      exact .running (.intro steps config left around)
    | false =>
      rw [turn_merging nothing, turn_merging ((isEmpty_of_alike right).symm.trans nothing)]
      exact .running (.intro steps config left (List.rel_append around (.cons (.merge right) .nil)))
  | feeding source results =>
    rw [turn_feeding, turn_feeding]
    exact .running
      (.intro steps config source (List.rel_append around (.cons (.bind results) .nil)))

theorem pull_alike (turns : Nat) (lockstep : d.Lockstep answers codes d') :
    (∃ result result' e e', d.pull force turns = (.ofResult result, e) ∧
      d'.pull force' turns = (.ofResult result', e') ∧ ResultAlike answers result result' ∧
      e.Lockstep answers codes e') ∨
    ((d.pull force turns).1 = .unsettled ∧ (d'.pull force' turns).1 = .unsettled) := by
  induction turns generalizing d d' with
  | zero => exact .inr ⟨rfl, rfl⟩
  | succ turns ih =>
    have turned := turn_alike forced lockstep
    rw [pull_succ, pull_succ]
    generalize d.turn force = first at turned
    generalize d'.turn force' = second at turned
    cases turned with
    | running next => exact ih next
    | @answer a b e e' related next =>
      exact .inl ⟨.ok (some a), .ok (some b), e, e', rfl, rfl, .answer related, next⟩
    | @exhausted e e' next => exact .inl ⟨.ok none, .ok none, e, e', rfl, rfl, .ended, next⟩
    | @limited error e e' next =>
      exact .inl ⟨.error error, .error error, e, e', rfl, rfl, .error error, next⟩

theorem tries_alike {outs : List (Attempt α)} (lockstep : d.Lockstep answers codes d')
    (tries : d.Tries force outs) :
    ∃ outs', List.Forall₂ (AttemptAlike answers) outs outs' ∧ d'.Tries force' outs' := by
  induction outs generalizing d d' with
  | nil => exact ⟨[], .nil, trivial⟩
  | cons out outs ih =>
    obtain ⟨next, ⟨turns, pulled⟩, counted, more⟩ := tries
    rcases pull_alike forced turns lockstep with
      ⟨result, result', e, e', first, second, results, after⟩ | ⟨running, -⟩
    · obtain ⟨same, rfl⟩ := Prod.mk.inj (pulled.symm.trans first)
      obtain rfl := ofResult_injective same
      obtain ⟨outs', related, tries'⟩ := ih after more
      have counts : out.2 = e'.steps := counted.symm.trans (steps_of_lockstep after)
      exact ⟨(result', e'.steps) :: outs', .cons ⟨results, counts⟩ related, e', ⟨turns, second⟩,
        rfl, tries'⟩
    · rw [pulled] at running
      exact absurd running (ofResult_ne_unsettled out.1)

theorem tries_alike_back {outs' : List (Attempt β)} (lockstep : d.Lockstep answers codes d')
    (tries : d'.Tries force' outs') :
    ∃ outs, List.Forall₂ (AttemptAlike answers) outs outs' ∧ d.Tries force outs := by
  induction outs' generalizing d d' with
  | nil => exact ⟨[], .nil, trivial⟩
  | cons out' outs' ih =>
    obtain ⟨next, ⟨turns, pulled⟩, counted, more⟩ := tries
    rcases pull_alike forced turns lockstep with
      ⟨result, result', e, e', first, second, results, after⟩ | ⟨-, running⟩
    · obtain ⟨same, rfl⟩ := Prod.mk.inj (pulled.symm.trans second)
      obtain rfl := ofResult_injective same
      obtain ⟨outs, related, tries'⟩ := ih after more
      have counts : e.steps = out'.2 := (steps_of_lockstep after).trans counted
      exact ⟨(result, e.steps) :: outs, .cons ⟨results, counts⟩ related, e, ⟨turns, first⟩, rfl,
        tries'⟩
    · rw [pulled] at running
      exact absurd running (ofResult_ne_unsettled out'.1)

theorem takeOnto_alike (turns count : Nat) {taken : List α} {taken' : List β}
    (before : List.Forall₂ answers taken taken') (lockstep : d.Lockstep answers codes d') :
    List.Forall₂ answers (d.takeOnto force turns count taken).1
      (d'.takeOnto force' turns count taken').1 := by
  induction count generalizing taken taken' d d' with
  | zero => exact before
  | succ count ih =>
    rw [takeOnto, takeOnto]
    rcases pull_alike forced turns lockstep with
      ⟨result, result', e, e', first, second, results, after⟩ | ⟨running, running'⟩
    · rw [next_of_pull first, next_of_pull second]
      cases results with
      | ended => exact before
      | answer related => exact ih (.cons related before) after
      | error e => exact before
    · rw [next_of_unsettled running, next_of_unsettled running']
      exact before

theorem corresponds_of_lockstep (lockstep : d.Lockstep answers codes d') :
    Corresponds answers force force' d d' where
  forth _ := tries_alike forced lockstep
  back _ := tries_alike_back forced lockstep
  taken turns count := List.rel_reverse (takeOnto_alike forced turns count .nil lockstep)

end Turns

end Search

end RelationalSearch

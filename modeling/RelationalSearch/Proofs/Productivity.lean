import RelationalSearch.Proofs.Occurrence

/-!
Streams whose evaluation between two forcings is finite. It is enough that the bind functions
in a stream, followed through the codes that they give, come to an end for the answers that are
fed to them, and that the same holds of whatever is forced: then every part of the stream has
finitely many answers before its end or its next suspension. Which codes can come up is told along
the way, since only of these it has to hold.
-/
namespace RelationalSearch

variable {κ α : Type}

def Head.Rests (rest : Answers κ α → Prop) : Head κ α → Prop
  | .empty => True
  | .ready _ r => rest r
  | .suspended r => rest r

namespace Answers

variable {force : κ → Answers κ α} {s t r : Answers κ α}

/-- What can be left of a stream after some answers and forcings. -/
inductive Remains (force : κ → Answers κ α) : Answers κ α → Answers κ α → Prop where
  | refl (s : Answers κ α) : Remains force s s
  | answered {s r t : Answers κ α} {a : α} (shows : Shows force s (.ready a r))
      (later : Remains force r t) : Remains force s t
  | forced {s r t : Answers κ α} (shows : Shows force s (.suspended r))
      (later : Remains force r t) : Remains force s t

/-- Whatever is left of the stream has a head. -/
def Productive (force : κ → Answers κ α) (s : Answers κ α) : Prop :=
  ∀ t, Remains force s t → ∃ h, Shows force t h

/-- So many answers come before the end or the first suspension. -/
inductive Settles (force : κ → Answers κ α) : Nat → Answers κ α → Prop where
  | ended {s : Answers κ α} (shows : Shows force s .empty) : Settles force 0 s
  | paused {s r : Answers κ α} (shows : Shows force s (.suspended r)) : Settles force 0 s
  | answered {s r : Answers κ α} {a : α} {n : Nat} (shows : Shows force s (.ready a r))
      (later : Settles force n r) : Settles force (n + 1) s

/-- The bind functions in the stream come to an end for the answers of their sources. Whatever they
    give, and whatever can be forced, is the code of one of the given computations. -/
inductive Tame (force : κ → Answers κ α) (ok : κ → Prop) : Answers κ α → Prop where
  | empty : Tame force ok .empty
  | suspended {code : κ} (here : ok code) : Tame force ok (.suspended code)
  | ready {r : Answers κ α} (a : α) (rest : Tame force ok r) : Tame force ok (.ready a r)
  | merging {s t : Answers κ α} (left : Tame force ok s) (right : Tame force ok t) :
      Tame force ok (.merging s t)
  | feeding {s : Answers κ α} {g : α → Answers κ α ⊕ κ} (source : Tame force ok s)
      (codes : ∀ a code, Nonempty (Occurrence force s a) → g a = .inr code → ok code)
      (results : ∀ a, Nonempty (Occurrence force s a) → Tame force ok (given force (g a))) :
      Tame force ok (.feeding s g)

def Closed (force : κ → Answers κ α) (ok : κ → Prop) : Prop :=
  ∀ code, ok code → Tame force ok (force code)

theorem shows_of_settles {n : Nat} (settles : Settles force n s) : ∃ h, Shows force s h := by
  cases settles with
  | ended shows => exact ⟨_, shows⟩
  | paused shows => exact ⟨_, shows⟩
  | answered shows later => exact ⟨_, shows⟩

theorem settles_after_empty {n : Nat} (left : Shows force s .empty) (right : Settles force n t) :
    Settles force n (.merging s t) := by
  cases right with
  | ended shows => exact .ended (.mplus_empty left shows)
  | paused shows => exact .paused (.mplus_empty left shows)
  | answered shows later => exact .answered (.mplus_empty left shows) later

theorem settles_merging {n m : Nat} (left : Settles force n s) (right : Settles force m t) :
    ∃ k, Settles force k (.merging s t) := by
  -- The sides change places at each answer, so the induction is on the number of both.
  induction total : n + m generalizing n m s t with
  | zero =>
    obtain rfl : n = 0 := by omega
    cases left with
    | ended shows => exact ⟨m, settles_after_empty shows right⟩
    | paused shows => exact ⟨0, .paused (.mplus_suspended shows)⟩
  | succ total ih =>
    cases left with
    | ended shows => exact ⟨m, settles_after_empty shows right⟩
    | paused shows => exact ⟨0, .paused (.mplus_suspended shows)⟩
    | answered shows later =>
      obtain ⟨k, settles⟩ := ih right later (by omega)
      exact ⟨k + 1, .answered (.mplus_ready shows) settles⟩

theorem settles_of_next {n : Nat} (same : ∀ h, Shows force s h → Shows force t h)
    (settles : Settles force n s) : Settles force n t := by
  cases settles with
  | ended shows => exact .ended (same _ shows)
  | paused shows => exact .paused (same _ shows)
  | answered shows later => exact .answered (same _ shows) later

theorem settles_feeding {g : α → Answers κ α ⊕ κ} {n : Nat} {P : Answers κ α → Prop}
    (results : ∀ s a r, P s → Shows force s (.ready a r) →
      P r ∧ ∃ m, Settles force m (given force (g a)))
    (holds : P s) (source : Settles force n s) : ∃ k, Settles force k (.feeding s g) := by
  -- What holds of the source is used to know the answers whose results have to settle.
  induction source with
  | ended shows => exact ⟨0, .ended (.bind_empty shows)⟩
  | paused shows => exact ⟨0, .paused (.bind_suspended shows)⟩
  | @answered s r a n shows later ih =>
    obtain ⟨rest, m, first⟩ := results s a r holds shows
    obtain ⟨k, others⟩ := ih rest
    obtain ⟨total, settles⟩ := settles_merging first others
    exact ⟨total, settles_of_next (fun _ => .bind_ready shows) settles⟩

theorem settles_of_tame {ok : κ → Prop} (tame : Tame force ok s) : ∃ n, Settles force n s := by
  induction tame with
  | empty => exact ⟨0, .ended .empty⟩
  | @suspended code here => exact ⟨0, .paused (.suspended code)⟩
  | ready a rest ih =>
    obtain ⟨n, settles⟩ := ih
    exact ⟨n + 1, .answered (.ready a _) settles⟩
  | merging left right ihl ihr =>
    obtain ⟨n, settlesLeft⟩ := ihl
    obtain ⟨m, settlesRight⟩ := ihr
    exact settles_merging settlesLeft settlesRight
  | @feeding s g source codes results ihs ihr =>
    obtain ⟨n, settles⟩ := ihs
    -- What is left of the source has no answers that the source does not have.
    refine settles_feeding (P := fun r => ∀ a, Nonempty (Occurrence force r a) →
      Nonempty (Occurrence force s a)) (fun r a rest among shows => ⟨?_, ?_⟩) (fun _ => id) settles
    · exact fun x later => among x (occurs_of_rest shows later)
    · exact ihr a (among a (occurs_of_ready shows))

section Closed

variable {ok : κ → Prop} (closed : Closed force ok)

include closed

theorem tame_of_shows {h : Head κ α} (shows : Shows force s h) (tame : Tame force ok s) :
    h.Rests (Tame force ok) := by
  induction shows with
  | empty => trivial
  | ready a rest =>
    cases tame with
    | ready _ rest => exact rest
  | suspended code =>
    cases tame with
    | suspended here => exact closed code here
  | mplus_empty left right ihl ihr =>
    cases tame with
    | merging _ tameRight => exact ihr tameRight
  | mplus_ready left ih =>
    cases tame with
    | merging tameLeft tameRight => exact .merging tameRight (ih tameLeft)
  | mplus_suspended left ih =>
    cases tame with
    | merging tameLeft tameRight => exact .merging tameRight (ih tameLeft)
  | bind_empty source ih => trivial
  | @bind_ready s r g a h source results ihs ihr =>
    cases tame with
    | feeding tameSource codes tameResults =>
      have rest : Tame force ok (.feeding r g) := .feeding (ihs tameSource)
        (fun x code later => codes x code (occurs_of_rest source later))
        fun x later => tameResults x (occurs_of_rest source later)
      exact ihr (.merging (tameResults a (occurs_of_ready source)) rest)
  | bind_suspended source ih =>
    cases tame with
    | feeding tameSource codes tameResults =>
      exact .feeding (ih tameSource)
        (fun x code later => codes x code (occurs_of_forced source later))
        fun x later => tameResults x (occurs_of_forced source later)

theorem productive_of_tame (tame : Tame force ok s) : Productive force s := by
  intro t remains
  induction remains with
  | refl s =>
    obtain ⟨n, settles⟩ := settles_of_tame tame
    exact shows_of_settles settles
  | answered shows later ih => exact ih (tame_of_shows closed shows tame)
  | forced shows later ih => exact ih (tame_of_shows closed shows tame)

end Closed

theorem tame_merge {ok : κ → Prop} (left : Tame force ok s) (right : Tame force ok t) :
    Tame force ok (s.merge t) := by
  rcases merge_cases s t with ⟨-, same⟩ | ⟨a, rest, rfl, same⟩ | same
  · rw [same]
    exact right
  · rw [same]
    cases left with
    | ready _ rest => exact .ready a (.merging right rest)
  · rw [same]
    exact .merging left right

theorem tame_feed {ok : κ → Prop} {g : α → Answers κ α ⊕ κ} (tame : Tame force ok (.feeding s g)) :
    Tame force ok (s.feed g) := by
  rcases feed_cases s g with ⟨-, same⟩ | same
  · rw [same]
    exact .empty
  · rw [same]
    exact tame

theorem tame_ofList {ok : κ → Prop} (items : List α) : Tame force ok (.ofList items) := by
  induction items with
  | nil => exact .empty
  | cons item items ih => exact .ready item ih

end Answers

end RelationalSearch

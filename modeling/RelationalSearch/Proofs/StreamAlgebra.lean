import RelationalSearch.Answers

/-!
The stream algebra that a search is measured against. A stream is looked at until it shows
that it is empty, or an answer and the rest, or a suspension and what is forced out of it.
Merges and binds that are kept as nodes mean the functions of the algebra, which have one
rule for each equation. Pulling forces the outermost suspension until something else shows.
-/
namespace RelationalSearch

variable {κ α : Type}

/-- What a stream shows before anything is forced. -/
inductive Head (κ α : Type) where
  | empty
  | ready (a : α) (rest : Answers κ α)
  | suspended (forced : Answers κ α)

namespace Answers

variable {force : κ → Answers κ α}

inductive Shows (force : κ → Answers κ α) : Answers κ α → Head κ α → Prop where
  | empty : Shows force .empty .empty
  | ready (a : α) (rest : Answers κ α) : Shows force (.ready a rest) (.ready a rest)
  | suspended (code : κ) : Shows force (.suspended code) (.suspended (force code))
  -- mplus(empty, t) = t
  | mplus_empty {s t : Answers κ α} {h : Head κ α} (left : Shows force s .empty)
      (right : Shows force t h) : Shows force (.merging s t) h
  -- mplus(ready(a, r), t) = ready(a, mplus(t, r))
  | mplus_ready {s t r : Answers κ α} {a : α} (left : Shows force s (.ready a r)) :
      Shows force (.merging s t) (.ready a (.merging t r))
  -- mplus(suspended r, t) = suspended(mplus(t, r()))
  | mplus_suspended {s t r : Answers κ α} (left : Shows force s (.suspended r)) :
      Shows force (.merging s t) (.suspended (.merging t r))
  -- bind(empty, g) = empty
  | bind_empty {s : Answers κ α} {g : α → Answers κ α ⊕ κ} (source : Shows force s .empty) :
      Shows force (.feeding s g) .empty
  -- bind(ready(a, r), g) = mplus(g(a), bind(r, g))
  | bind_ready {s r : Answers κ α} {g : α → Answers κ α ⊕ κ} {a : α} {h : Head κ α}
      (source : Shows force s (.ready a r))
      (results : Shows force (.merging (given force (g a)) (.feeding r g)) h) :
      Shows force (.feeding s g) h
  -- bind(suspended r, g) = suspended(bind(r(), g))
  | bind_suspended {s r : Answers κ α} {g : α → Answers κ α ⊕ κ}
      (source : Shows force s (.suspended r)) :
      Shows force (.feeding s g) (.suspended (.feeding r g))

/-- Pulling from the first stream gives the result, forces so many suspensions, and leaves
    the second stream. -/
inductive Pulls (force : κ → Answers κ α) :
    Answers κ α → Option α → Nat → Answers κ α → Prop where
  | ended {s : Answers κ α} (shows : Shows force s .empty) : Pulls force s none 0 .empty
  | found {s r : Answers κ α} {a : α} (shows : Shows force s (.ready a r)) :
      Pulls force s (some a) 0 r
  | forced {s r t : Answers κ α} {found : Option α} {n : Nat}
      (shows : Shows force s (.suspended r)) (later : Pulls force r found n t) :
      Pulls force s found (n + 1) t

/-- The first results of a stream, each with the number of suspensions forced until then,
    when the given number has been forced before. -/
def Gives (force : κ → Answers κ α) : Answers κ α → Nat → List (Option α × Nat) → Prop
  | _, _, [] => True
  | s, before, (found, after) :: more =>
    ∃ t n, Pulls force s found n t ∧ after = before + n ∧ Gives force t after more

theorem shows_unique {s : Answers κ α} {h k : Head κ α} (first : Shows force s h)
    (second : Shows force s k) : h = k := by
  induction first generalizing k with
  | empty => cases second; rfl
  | ready => cases second; rfl
  | suspended => cases second; rfl
  | mplus_empty left right ihl ihr =>
    cases second with
    | mplus_empty left' right' => exact ihr right'
    | mplus_ready left' => cases ihl left'
    | mplus_suspended left' => cases ihl left'
  | mplus_ready left ih =>
    cases second with
    | mplus_empty left' right' => cases ih left'
    | mplus_ready left' => cases ih left'; rfl
    | mplus_suspended left' => cases ih left'
  | mplus_suspended left ih =>
    cases second with
    | mplus_empty left' right' => cases ih left'
    | mplus_ready left' => cases ih left'
    | mplus_suspended left' => cases ih left'; rfl
  | bind_empty source ih =>
    cases second with
    | bind_empty source' => rfl
    | bind_ready source' results' => cases ih source'
    | bind_suspended source' => cases ih source'
  | bind_ready source results ihs ihr =>
    cases second with
    | bind_empty source' => cases ihs source'
    | bind_ready source' results' => cases ihs source'; exact ihr results'
    | bind_suspended source' => cases ihs source'
  | bind_suspended source ih =>
    cases second with
    | bind_empty source' => cases ih source'
    | bind_ready source' results' => cases ih source'
    | bind_suspended source' => cases ih source'; rfl

theorem pulls_unique {s t u : Answers κ α} {found other : Option α} {n m : Nat}
    (first : Pulls force s found n t) (second : Pulls force s other m u) :
    found = other ∧ n = m ∧ t = u := by
  induction first generalizing other m u with
  | ended shows =>
    cases second with
    | ended shows' => exact ⟨rfl, rfl, rfl⟩
    | found shows' => cases shows_unique shows shows'
    | forced shows' later' => cases shows_unique shows shows'
  | found shows =>
    cases second with
    | ended shows' => cases shows_unique shows shows'
    | found shows' => cases shows_unique shows shows'; exact ⟨rfl, rfl, rfl⟩
    | forced shows' later' => cases shows_unique shows shows'
  | forced shows later ih =>
    cases second with
    | ended shows' => cases shows_unique shows shows'
    | found shows' => cases shows_unique shows shows'
    | forced shows' later' =>
      cases shows_unique shows shows'
      obtain ⟨sameFound, sameCount, sameRest⟩ := ih later'
      exact ⟨sameFound, congrArg (· + 1) sameCount, sameRest⟩

end Answers

end RelationalSearch

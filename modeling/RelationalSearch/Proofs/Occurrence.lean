import Mathlib.Logic.Equiv.Sum
import RelationalSearch.Proofs.StreamAlgebra

/-!
Occurrences of answers. An answer lies at the end of a finite path into a stream; a path
through a bind first leads to the answer that is fed and then into what the function makes of
it. When a stream shows its head, its paths correspond one to one to those of the head. The
rank of a path is chosen so that no correspondence raises it: a merge doubles it, for the
other side may come first, and a path through a bind doubles it once for each answer before
the one that is fed.
-/
namespace RelationalSearch

variable {κ α : Type}

namespace Answers

inductive Occurrence (force : κ → Answers κ α) : Answers κ α → α → Type where
  | head (a : α) (r : Answers κ α) : Occurrence force (.ready a r) a
  | rest (a : α) {r : Answers κ α} {x : α} (later : Occurrence force r x) :
      Occurrence force (.ready a r) x
  | forced (code : κ) {x : α} (later : Occurrence force (force code) x) :
      Occurrence force (.suspended code) x
  | left {s : Answers κ α} (t : Answers κ α) {x : α} (inside : Occurrence force s x) :
      Occurrence force (.merging s t) x
  | right (s : Answers κ α) {t : Answers κ α} {x : α} (inside : Occurrence force t x) :
      Occurrence force (.merging s t) x
  | fed {s : Answers κ α} (g : α → Answers κ α ⊕ κ) {x y : α} (source : Occurrence force s y)
      (result : Occurrence force (given force (g y)) x) : Occurrence force (.feeding s g) x

variable {force : κ → Answers κ α}

namespace Occurrence

def fedRank : Nat → Nat → Nat
  | 0, result => 2 * result + 1
  | source + 1, result => 2 * fedRank source result + 1

def rank : {s : Answers κ α} → {x : α} → Occurrence force s x → Nat
  | _, _, .head _ _ => 0
  | _, _, .rest _ later => later.rank + 1
  | _, _, .forced _ later => later.rank + 1
  | _, _, .left _ inside => 2 * inside.rank
  | _, _, .right _ inside => 2 * inside.rank + 1
  | _, _, .fed _ source result => fedRank source.rank result.rank

theorem twice_le_fedRank (source result : Nat) : 2 * result ≤ fedRank source result := by
  induction source with
  | zero => exact Nat.le_succ _
  | succ source ih =>
    rw [fedRank]
    omega

theorem fedRank_mono {first second : Nat} (earlier : first ≤ second) (result : Nat) :
    fedRank first result ≤ fedRank second result := by
  induction earlier with
  | refl => exact Nat.le_refl _
  | step _ ih =>
    rw [fedRank]
    omega

theorem fedRank_lt {first second : Nat} (earlier : first < second) (result : Nat) :
    2 * fedRank first result + 1 ≤ fedRank second result :=
  fedRank_mono earlier result

theorem source_le_fedRank (source result : Nat) : source ≤ fedRank source result := by
  induction source with
  | zero => exact Nat.zero_le _
  | succ source ih =>
    rw [fedRank]
    omega

theorem result_lt_fedRank (source result : Nat) : result < fedRank source result := by
  have first := fedRank_mono (Nat.zero_le source) result
  rw [fedRank] at first
  omega

end Occurrence

end Answers

namespace Head

open Answers

variable {force : κ → Answers κ α}

def Occurs (force : κ → Answers κ α) : Head κ α → α → Type
  | .empty, _ => Empty
  | .ready a rest, x => PLift (a = x) ⊕ Occurrence force rest x
  | .suspended forced, x => Occurrence force forced x

def rank : {h : Head κ α} → {x : α} → h.Occurs force x → Nat
  | .empty, _, o => nomatch o
  | .ready _ _, _, .inl _ => 0
  | .ready _ _, _, .inr (later : Occurrence force _ _) => later.rank + 1
  | .suspended _, _, (later : Occurrence force _ _) => later.rank + 1

end Head

namespace Answers

variable {force : κ → Answers κ α} {s t r : Answers κ α} {h : Head κ α}
  {g : α → Answers κ α ⊕ κ} {a : α}

namespace Occurrence

def readyEquiv (a : α) (r : Answers κ α) (x : α) :
    Occurrence force (.ready a r) x ≃ PLift (a = x) ⊕ Occurrence force r x where
  toFun
    | .head _ _ => .inl ⟨rfl⟩
    | .rest _ later => .inr later
  invFun
    | .inl ⟨same⟩ => same ▸ .head a r
    | .inr later => .rest a later
  left_inv
    | .head _ _ => rfl
    | .rest _ _ => rfl
  right_inv
    | .inl ⟨rfl⟩ => rfl
    | .inr _ => rfl

def suspendedEquiv (code : κ) (x : α) :
    Occurrence force (.suspended code) x ≃ Occurrence force (force code) x where
  toFun | .forced _ later => later
  invFun later := .forced code later
  left_inv | .forced _ _ => rfl
  right_inv _ := rfl

def mergingEquiv (s t : Answers κ α) (x : α) :
    Occurrence force (.merging s t) x ≃ Occurrence force s x ⊕ Occurrence force t x where
  toFun
    | .left _ inside => .inl inside
    | .right _ inside => .inr inside
  invFun
    | .inl inside => .left t inside
    | .inr inside => .right s inside
  left_inv
    | .left _ _ => rfl
    | .right _ _ => rfl
  right_inv
    | .inl _ => rfl
    | .inr _ => rfl

def feedingEquiv (s : Answers κ α) (g : α → Answers κ α ⊕ κ) (x : α) :
    Occurrence force (.feeding s g) x ≃
      Σ y, Occurrence force s y × Occurrence force (given force (g y)) x where
  toFun | .fed (y := y) _ source result => ⟨y, source, result⟩
  invFun path := .fed g path.2.1 path.2.2
  left_inv | .fed _ _ _ => rfl
  right_inv _ := rfl

end Occurrence

/-- The paths of a stream as those of its head. -/
structure Moves (force : κ → Answers κ α) (s : Answers κ α) (h : Head κ α) where
  equiv (x : α) : Occurrence force s x ≃ h.Occurs force x
  rank_le (x : α) (o : Occurrence force s x) : Head.rank (equiv x o) ≤ o.rank

namespace Moves

def empty : Moves force .empty .empty where
  equiv _ := {
    toFun := fun o => nomatch o
    invFun := fun o => nomatch o
    left_inv := fun o => nomatch o
    right_inv := fun o => nomatch o }
  rank_le _ o := nomatch o

def ready (a : α) (r : Answers κ α) : Moves force (.ready a r) (.ready a r) where
  equiv := Occurrence.readyEquiv a r
  rank_le
    | _, .head _ _ => Nat.le_refl _
    | _, .rest _ _ => Nat.le_refl _

def suspended (code : κ) : Moves force (.suspended code) (.suspended (force code)) where
  equiv := Occurrence.suspendedEquiv code
  rank_le
    | _, .forced _ _ => Nat.le_refl _

def mplusEmpty (left : Moves force s .empty) (right : Moves force t h) :
    Moves force (.merging s t) h where
  equiv x := (Occurrence.mergingEquiv s t x).trans <|
    (Equiv.sumCongr (left.equiv x) (right.equiv x)).trans (Equiv.emptySum Empty _)
  rank_le
    | x, .left _ inside => nomatch left.equiv x inside
    | x, .right _ inside => by
      have later := right.rank_le x inside
      show Head.rank (right.equiv x inside) ≤ 2 * inside.rank + 1
      omega

def readySwap (t : Answers κ α) (x : α) :
    (PLift (a = x) ⊕ Occurrence force r x) ⊕ Occurrence force t x ≃
      (Head.ready a (.merging t r)).Occurs force x :=
  (Equiv.sumAssoc _ _ _).trans <| Equiv.sumCongr (Equiv.refl _) <|
    (Equiv.sumComm _ _).trans (Occurrence.mergingEquiv t r x).symm

def mplusReady (left : Moves force s (.ready a r)) :
    Moves force (.merging s t) (.ready a (.merging t r)) where
  equiv x := (Occurrence.mergingEquiv s t x).trans <|
    (Equiv.sumCongr (left.equiv x) (Equiv.refl _)).trans (readySwap t x)
  rank_le
    | x, .left _ inside => by
      have later := left.rank_le x inside
      change Head.rank (readySwap t x (.inl (left.equiv x inside))) ≤ 2 * inside.rank
      generalize left.equiv x inside = moved at later ⊢
      cases moved with
      | inl same => exact Nat.zero_le _
      | inr o =>
        change o.rank + 1 ≤ inside.rank at later
        change 2 * o.rank + 1 + 1 ≤ 2 * inside.rank
        omega
    | _, .right _ inside => Nat.le_refl (2 * inside.rank + 1)

def mplusSuspended (left : Moves force s (.suspended r)) :
    Moves force (.merging s t) (.suspended (.merging t r)) where
  equiv x := (Occurrence.mergingEquiv s t x).trans <|
    (Equiv.sumCongr (left.equiv x) (Equiv.refl _)).trans <|
    (Equiv.sumComm _ _).trans (Occurrence.mergingEquiv t r x).symm
  rank_le
    | x, .left _ inside => by
      let moved : Occurrence force r x := left.equiv x inside
      have later : moved.rank + 1 ≤ inside.rank := left.rank_le x inside
      change 2 * moved.rank + 1 + 1 ≤ 2 * inside.rank
      omega
    | _, .right _ inside => Nat.le_refl (2 * inside.rank + 1)

def bindEmpty (source : Moves force s .empty) : Moves force (.feeding s g) .empty where
  equiv _ := {
    toFun | .fed _ inside _ => nomatch source.equiv _ inside
    invFun := fun o => nomatch o
    left_inv | .fed _ inside _ => nomatch source.equiv _ inside
    right_inv := fun o => nomatch o }
  rank_le
    | _, .fed _ inside _ => nomatch source.equiv _ inside

def feedFirst (g : α → Answers κ α ⊕ κ) (x : α) :
    (Σ y, (PLift (a = y) ⊕ Occurrence force r y) × Occurrence force (given force (g y)) x) ≃
      Occurrence force (.merging (given force (g a)) (.feeding r g)) x where
  toFun
    | ⟨_, .inl ⟨same⟩, result⟩ => .left _ (same ▸ result)
    | ⟨_, .inr later, result⟩ => .right _ (.fed g later result)
  invFun
    | .left _ result => ⟨a, .inl ⟨rfl⟩, result⟩
    | .right _ (.fed _ later result) => ⟨_, .inr later, result⟩
  left_inv
    | ⟨_, .inl ⟨rfl⟩, _⟩ => rfl
    | ⟨_, .inr _, _⟩ => rfl
  right_inv
    | .left _ _ => rfl
    | .right _ (.fed _ _ _) => rfl

theorem rank_feedFirst {x y : α} {source : Nat} (moved : (Head.ready a r).Occurs force y)
    (result : Occurrence force (given force (g y)) x) (later : Head.rank moved ≤ source) :
    (feedFirst g x ⟨y, moved, result⟩).rank ≤ Occurrence.fedRank source result.rank := by
  cases moved with
  | inl same =>
    obtain ⟨rfl⟩ := same
    exact Occurrence.twice_le_fedRank source result.rank
  | inr o => exact Occurrence.fedRank_lt later result.rank

def bindReady (source : Moves force s (.ready a r))
    (results : Moves force (.merging (given force (g a)) (.feeding r g)) h) :
    Moves force (.feeding s g) h where
  equiv x := (Occurrence.feedingEquiv s g x).trans <|
    (Equiv.sigmaCongrRight fun y => Equiv.prodCongr (source.equiv y) (Equiv.refl _)).trans <|
    (feedFirst g x).trans (results.equiv x)
  rank_le
    | x, .fed (y := y) _ inside result => by
      have fed := rank_feedFirst (source.equiv y inside) result (source.rank_le y inside)
      exact Nat.le_trans (results.rank_le x _) fed

def bindSuspended (source : Moves force s (.suspended r)) :
    Moves force (.feeding s g) (.suspended (.feeding r g)) where
  equiv x := (Occurrence.feedingEquiv s g x).trans <|
    (Equiv.sigmaCongrRight fun y => Equiv.prodCongr (source.equiv y) (Equiv.refl _)).trans
      (Occurrence.feedingEquiv r g x).symm
  rank_le
    | _, .fed (y := y) _ inside result => by
      let moved : Occurrence force r y := source.equiv y inside
      have fed : 2 * Occurrence.fedRank moved.rank result.rank + 1 ≤
          Occurrence.fedRank inside.rank result.rank :=
        Occurrence.fedRank_lt (source.rank_le y inside) result.rank
      change Occurrence.fedRank moved.rank result.rank + 1 ≤
        Occurrence.fedRank inside.rank result.rank
      omega

end Moves

theorem nonempty_moves (shows : Shows force s h) : Nonempty (Moves force s h) := by
  induction shows with
  | empty => exact ⟨.empty⟩
  | ready a rest => exact ⟨.ready a rest⟩
  | suspended code => exact ⟨.suspended code⟩
  | mplus_empty left right ihl ihr =>
    obtain ⟨left⟩ := ihl
    obtain ⟨right⟩ := ihr
    exact ⟨.mplusEmpty left right⟩
  | mplus_ready left ih =>
    obtain ⟨left⟩ := ih
    exact ⟨.mplusReady left⟩
  | mplus_suspended left ih =>
    obtain ⟨left⟩ := ih
    exact ⟨.mplusSuspended left⟩
  | bind_empty source ih =>
    obtain ⟨source⟩ := ih
    exact ⟨.bindEmpty source⟩
  | bind_ready source results ihs ihr =>
    obtain ⟨source⟩ := ihs
    obtain ⟨results⟩ := ihr
    exact ⟨.bindReady source results⟩
  | bind_suspended source ih =>
    obtain ⟨source⟩ := ih
    exact ⟨.bindSuspended source⟩

theorem occurs_of_ready (shows : Shows force s (.ready a r)) : Nonempty (Occurrence force s a) := by
  obtain ⟨moves⟩ := nonempty_moves shows
  exact ⟨(moves.equiv a).symm (.inl ⟨rfl⟩)⟩

theorem occurs_of_rest {x : α} (shows : Shows force s (.ready a r))
    (later : Nonempty (Occurrence force r x)) : Nonempty (Occurrence force s x) := by
  obtain ⟨moves⟩ := nonempty_moves shows
  obtain ⟨later⟩ := later
  exact ⟨(moves.equiv x).symm (.inr later)⟩

theorem occurs_of_forced {x : α} (shows : Shows force s (.suspended r))
    (later : Nonempty (Occurrence force r x)) : Nonempty (Occurrence force s x) := by
  obtain ⟨moves⟩ := nonempty_moves shows
  obtain ⟨later⟩ := later
  exact ⟨(moves.equiv x).symm later⟩

/-- The answer lies in the stream, at a rank up to the given one. -/
def Within (force : κ → Answers κ α) (bound : Nat) (s : Answers κ α) (x : α) : Prop :=
  ∃ o : Occurrence force s x, o.rank ≤ bound

theorem not_within_empty (bound : Nat) (x : α) : ¬ Within force bound .empty x :=
  fun within => nomatch within.choose

theorem within_suspended {bound : Nat} {code : κ} {x : α}
    (within : Within force bound (.suspended code) x) :
    ∃ less < bound, Within force less (force code) x := by
  obtain ⟨o, le⟩ := within
  cases o with
  | forced _ later => exact ⟨later.rank, le, later, Nat.le_refl _⟩

theorem within_merging {bound : Nat} {x : α} (within : Within force bound (.merging s t) x) :
    Within force bound s x ∨ Within force bound t x := by
  obtain ⟨o, le⟩ := within
  cases o with
  | left _ inside =>
    rw [Occurrence.rank] at le
    exact .inl ⟨inside, by omega⟩
  | right _ inside =>
    rw [Occurrence.rank] at le
    exact .inr ⟨inside, by omega⟩

theorem within_merge {bound : Nat} {x : α} (within : Within force bound (s.merge t) x) :
    Within force bound s x ∨ Within force bound t x := by
  rcases merge_cases s t with ⟨-, same⟩ | ⟨a, rest, rfl, same⟩ | same
  · rw [same] at within
    exact .inr within
  · rw [same] at within
    obtain ⟨o, le⟩ := within
    cases o with
    | head => exact .inl ⟨.head _ rest, Nat.zero_le _⟩
    | rest _ later =>
      rcases within_merging ⟨later, Nat.le_refl _⟩ with ⟨inside, inner⟩ | ⟨inside, inner⟩
      · exact .inr ⟨inside, Nat.le_trans (Nat.le_succ_of_le inner) le⟩
      · exact .inl ⟨.rest a inside, Nat.le_trans (Nat.succ_le_succ inner) le⟩
  · rw [same] at within
    exact within_merging within

theorem within_feeding {bound : Nat} {x : α} (within : Within force bound (.feeding s g) x) :
    ∃ y, Within force bound s y ∧ ∃ less < bound, Within force less (given force (g y)) x := by
  obtain ⟨o, le⟩ := within
  cases o with
  | fed _ source result =>
    have first := Occurrence.source_le_fedRank source.rank result.rank
    have second := Occurrence.result_lt_fedRank source.rank result.rank
    exact ⟨_, ⟨source, Nat.le_trans first le⟩, result.rank, Nat.lt_of_lt_of_le second le, result,
      Nat.le_refl _⟩

theorem within_feed {bound : Nat} {x : α} (within : Within force bound (s.feed g) x) :
    ∃ y, Within force bound s y ∧ ∃ less < bound, Within force less (given force (g y)) x := by
  rcases feed_cases s g with ⟨-, same⟩ | same
  · rw [same] at within
    exact absurd within (not_within_empty bound x)
  · rw [same] at within
    exact within_feeding within

theorem eq_of_within_single {bound : Nat} {x : α} (within : Within force bound (.single a) x) :
    x = a := by
  obtain ⟨o, -⟩ := within
  cases o with
  | head => rfl
  | rest _ later => cases later

theorem mem_of_within_ofList {bound : Nat} {items : List α} {x : α}
    (within : Within force bound (.ofList items) x) : x ∈ items := by
  obtain ⟨o, -⟩ := within
  induction items with
  | nil => cases o
  | cons item items ih =>
    cases o with
    | head => exact List.mem_cons_self
    | rest _ later => exact List.mem_cons_of_mem _ (ih later)

theorem occurrence_merge_left {x : α} (t : Answers κ α) (o : Occurrence force s x) :
    Nonempty (Occurrence force (s.merge t) x) := by
  rcases merge_cases s t with ⟨rfl, -⟩ | ⟨a, rest, rfl, same⟩ | same
  · cases o
  · rw [same]
    cases o with
    | head => exact ⟨.head _ _⟩
    | rest _ later => exact ⟨.rest a (.right t later)⟩
  · rw [same]
    exact ⟨.left t o⟩

theorem occurrence_merge_right {x : α} (s : Answers κ α) (o : Occurrence force t x) :
    Nonempty (Occurrence force (s.merge t) x) := by
  rcases merge_cases s t with ⟨-, same⟩ | ⟨a, rest, -, same⟩ | same
  · rw [same]
    exact ⟨o⟩
  · rw [same]
    exact ⟨.rest a (.left rest o)⟩
  · rw [same]
    exact ⟨.right s o⟩

theorem occurrence_feed {x y : α} (source : Occurrence force s y)
    (result : Occurrence force (given force (g y)) x) :
    Nonempty (Occurrence force (s.feed g) x) := by
  rcases feed_cases s g with ⟨rfl, -⟩ | same
  · cases source
  · rw [same]
    exact ⟨.fed g source result⟩

theorem occurrence_ofList {items : List α} {x : α} (member : x ∈ items) :
    Nonempty (Occurrence force (.ofList items) x) := by
  induction items with
  | nil => cases member
  | cons item items ih =>
    rcases List.mem_cons.mp member with rfl | later
    · exact ⟨.head x _⟩
    · obtain ⟨o⟩ := ih later
      exact ⟨.rest item o⟩

end Answers

end RelationalSearch

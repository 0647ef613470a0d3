import RelationalSearch.Proofs.StreamAlgebra

/-!
Leaving out what is empty. A search does not keep the empty side of a merge, nor what a bind
would go on with after the last answer. The streams before and after such an omission show
the same answers, ends and suspensions, and what remains of them is related in the same way.
-/
namespace RelationalSearch

variable {κ α : Type}

namespace Answers

variable {force : κ → Answers κ α}

/-- The second stream is the first one without some of its empty parts. -/
inductive Trims : Answers κ α → Answers κ α → Prop where
  | empty : Trims .empty .empty
  | suspended (code : κ) : Trims (.suspended code) (.suspended code)
  | ready {s s' : Answers κ α} (a : α) (rest : Trims s s') : Trims (.ready a s) (.ready a s')
  | merging {s s' t t' : Answers κ α} (left : Trims s s') (right : Trims t t') :
      Trims (.merging s t) (.merging s' t')
  | feeding {s s' : Answers κ α} (g : α → Answers κ α ⊕ κ) (source : Trims s s') :
      Trims (.feeding s g) (.feeding s' g)
  | keep_left {s s' t : Answers κ α} (left : Trims s s') (right : Trims t .empty) :
      Trims (.merging s t) s'
  | keep_right {s t t' : Answers κ α} (left : Trims s .empty) (right : Trims t t') :
      Trims (.merging s t) t'
  | feed_nothing {s : Answers κ α} (g : α → Answers κ α ⊕ κ) (source : Trims s .empty) :
      Trims (.feeding s g) .empty

inductive HeadTrims : Head κ α → Head κ α → Prop where
  | empty : HeadTrims .empty .empty
  | ready {s s' : Answers κ α} (a : α) (rest : Trims s s') :
      HeadTrims (.ready a s) (.ready a s')
  | suspended {s s' : Answers κ α} (forced : Trims s s') :
      HeadTrims (.suspended s) (.suspended s')

def ShowsAs (force : κ → Answers κ α) (s t : Answers κ α) : Prop :=
  ∀ h k, Shows force s h → HeadTrims h k → ∃ h', Shows force t h' ∧ HeadTrims h' k

theorem trims_refl (s : Answers κ α) : Trims s s :=
  match s with
  | .empty => .empty
  | .ready a rest => .ready a (trims_refl rest)
  | .suspended code => .suspended code
  | .merging left right => .merging (trims_refl left) (trims_refl right)
  | .feeding source g => .feeding g (trims_refl source)

theorem shows_empty_of_trims {s t : Answers κ α} (trims : Trims s t) (same : t = .empty) :
    Shows force s .empty := by
  induction trims with
  | empty => exact .empty
  | keep_left left right ihl ihr => exact .mplus_empty (ihl same) (ihr rfl)
  | keep_right left right ihl ihr => exact .mplus_empty (ihl rfl) (ihr same)
  | feed_nothing g source ih => exact .bind_empty (ih rfl)
  | suspended | ready | merging | feeding => cases same

theorem showsAs_refl (s : Answers κ α) : ShowsAs force s s :=
  fun h _ shows trims => ⟨h, shows, trims⟩

theorem showsAs_left {s t u : Answers κ α} (side : ShowsAs force u s) (right : Trims t .empty) :
    ShowsAs force u (.merging s t) := by
  intro h k shows trims
  obtain ⟨h', shows', trims'⟩ := side h k shows trims
  cases trims' with
  | empty => exact ⟨_, .mplus_empty shows' (shows_empty_of_trims right rfl), .empty⟩
  | ready a rest => exact ⟨_, .mplus_ready shows', .ready a (.keep_right right rest)⟩
  | suspended forced => exact ⟨_, .mplus_suspended shows', .suspended (.keep_right right forced)⟩

theorem showsAs_right {s t u : Answers κ α} (side : ShowsAs force u t) (left : Trims s .empty) :
    ShowsAs force u (.merging s t) := by
  intro h k shows trims
  obtain ⟨h', shows', trims'⟩ := side h k shows trims
  exact ⟨h', .mplus_empty (shows_empty_of_trims left rfl) shows', trims'⟩

theorem ready_of_trims {s t r : Answers κ α} {a : α} (trims : Trims s t) (same : t = .ready a r) :
    ∃ rest, Trims rest r ∧ ShowsAs force (.ready a rest) s := by
  induction trims with
  | ready b rest =>
    cases same
    exact ⟨_, rest, showsAs_refl _⟩
  | keep_left left right ihl ihr =>
    obtain ⟨rest, trims, as⟩ := ihl same
    exact ⟨rest, trims, showsAs_left as right⟩
  | keep_right left right ihl ihr =>
    obtain ⟨rest, trims, as⟩ := ihr same
    exact ⟨rest, trims, showsAs_right as left⟩
  | empty | suspended | merging | feeding | feed_nothing => cases same

theorem suspended_of_trims {s t : Answers κ α} {code : κ} (trims : Trims s t)
    (same : t = .suspended code) : ShowsAs force (.suspended code) s := by
  induction trims with
  | suspended other =>
    cases same
    exact showsAs_refl _
  | keep_left left right ihl ihr => exact showsAs_left (ihl same) right
  | keep_right left right ihl ihr => exact showsAs_right (ihr same) left
  | empty | ready | merging | feeding | feed_nothing => cases same

theorem merging_of_trims {s t l r : Answers κ α} (trims : Trims s t) (same : t = .merging l r) :
    ∃ left right, Trims left l ∧ Trims right r ∧ ShowsAs force (.merging left right) s := by
  induction trims with
  | merging left right =>
    cases same
    exact ⟨_, _, left, right, showsAs_refl _⟩
  | keep_left left right ihl ihr =>
    obtain ⟨_, _, trimsLeft, trimsRight, as⟩ := ihl same
    exact ⟨_, _, trimsLeft, trimsRight, showsAs_left as right⟩
  | keep_right left right ihl ihr =>
    obtain ⟨_, _, trimsLeft, trimsRight, as⟩ := ihr same
    exact ⟨_, _, trimsLeft, trimsRight, showsAs_right as left⟩
  | empty | suspended | ready | feeding | feed_nothing => cases same

theorem feeding_of_trims {s t source : Answers κ α} {g : α → Answers κ α ⊕ κ}
    (trims : Trims s t) (same : t = .feeding source g) :
    ∃ origin, Trims origin source ∧ ShowsAs force (.feeding origin g) s := by
  induction trims with
  | feeding f inner =>
    cases same
    exact ⟨_, inner, showsAs_refl _⟩
  | keep_left left right ihl ihr =>
    obtain ⟨origin, trims, as⟩ := ihl same
    exact ⟨origin, trims, showsAs_left as right⟩
  | keep_right left right ihl ihr =>
    obtain ⟨origin, trims, as⟩ := ihr same
    exact ⟨origin, trims, showsAs_right as left⟩
  | empty | suspended | ready | merging | feed_nothing => cases same

/-- A stream shows what it shows without some of its empty parts. -/
theorem shows_of_trims {s t : Answers κ α} {k : Head κ α} (shows : Shows force t k)
    (trims : Trims s t) : ∃ h, Shows force s h ∧ HeadTrims h k := by
  induction shows generalizing s with
  | empty => exact ⟨_, shows_empty_of_trims trims rfl, .empty⟩
  | ready a rest =>
    obtain ⟨r, restTrims, as⟩ := ready_of_trims trims rfl
    exact as _ _ (.ready a r) (.ready a restTrims)
  | suspended code =>
    exact suspended_of_trims trims rfl _ _ (.suspended code) (.suspended (trims_refl _))
  | mplus_empty left right ihl ihr =>
    obtain ⟨_, _, trimsLeft, trimsRight, as⟩ := merging_of_trims trims rfl
    obtain ⟨h, shows, heads⟩ := ihl trimsLeft
    obtain ⟨h', shows', heads'⟩ := ihr trimsRight
    cases heads
    exact as _ _ (.mplus_empty shows shows') heads'
  | mplus_ready left ih =>
    obtain ⟨_, _, trimsLeft, trimsRight, as⟩ := merging_of_trims trims rfl
    obtain ⟨h, shows, heads⟩ := ih trimsLeft
    cases heads with
    | ready _ rest => exact as _ _ (.mplus_ready shows) (.ready _ (.merging trimsRight rest))
  | mplus_suspended left ih =>
    obtain ⟨_, _, trimsLeft, trimsRight, as⟩ := merging_of_trims trims rfl
    obtain ⟨h, shows, heads⟩ := ih trimsLeft
    cases heads with
    | suspended forced =>
      exact as _ _ (.mplus_suspended shows) (.suspended (.merging trimsRight forced))
  | bind_empty source ih =>
    obtain ⟨_, trimsSource, as⟩ := feeding_of_trims trims rfl
    obtain ⟨h, shows, heads⟩ := ih trimsSource
    cases heads
    exact as _ _ (.bind_empty shows) .empty
  | @bind_ready s r g a h source results ihs ihr =>
    obtain ⟨_, trimsSource, as⟩ := feeding_of_trims trims rfl
    obtain ⟨h, shows, heads⟩ := ihs trimsSource
    cases heads with
    | ready a rest =>
      obtain ⟨k, shows', heads'⟩ := ihr (.merging (trims_refl _) (.feeding g rest))
      exact as _ _ (.bind_ready shows shows') heads'
  | @bind_suspended s r g source ih =>
    obtain ⟨_, trimsSource, as⟩ := feeding_of_trims trims rfl
    obtain ⟨h, shows, heads⟩ := ih trimsSource
    cases heads with
    | suspended forced => exact as _ _ (.bind_suspended shows) (.suspended (.feeding g forced))

end Answers

end RelationalSearch

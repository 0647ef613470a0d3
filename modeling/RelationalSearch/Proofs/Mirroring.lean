import RelationalSearch.Proofs.Attempts

/-!
Streams that behave alike. One stream mirrors another if it shows whatever the other shows, and
what remains mirrors what remains there. For streams that mirror each other every search returns
the same, under all step limits, and no other streams have that. Merges and binds keep the
relation, and so does leaving out the parts of a stream that give nothing of their own, even
where it would have to be done anew inside every suspension. Nothing is asked of the streams: where
one of them never shows a head, the other does not either.
-/
namespace RelationalSearch

variable {κ α : Type}

namespace Answers

variable {force force' force'' : κ → Answers κ α} {s t u r : Answers κ α} {h : Head κ α}
  {config : SearchConfig} {steps : Nat} {outs : List (Attempt α)}

inductive Match (R : Answers κ α → Answers κ α → Prop) : Head κ α → Head κ α → Prop where
  | empty : Match R .empty .empty
  | ready {s t : Answers κ α} (a : α) (rest : R s t) : Match R (.ready a s) (.ready a t)
  | suspended {s t : Answers κ α} (forced : R s t) : Match R (.suspended s) (.suspended t)

/-- Whatever a stream shows, the related ones show as well, with related streams after it. -/
def Mirroring (force force' : κ → Answers κ α) (R : Answers κ α → Answers κ α → Prop) : Prop :=
  ∀ s t, R s t → ∀ h, Shows force s h → ∃ k, Shows force' t k ∧ Match R h k

/-- The second stream mirrors the first, each with its own meaning of the codes. -/
def Mirrors (force force' : κ → Answers κ α) (s t : Answers κ α) : Prop :=
  ∃ R, Mirroring force force' R ∧ R s t

def Displays (force : κ → Answers κ α) (s t : Answers κ α) : Prop :=
  ∀ h, Shows force s h → Shows force t h

theorem match_mono {R R' : Answers κ α → Answers κ α → Prop} {k : Head κ α}
    (weaker : ∀ s t, R s t → R' s t) (heads : Match R h k) : Match R' h k := by
  cases heads with
  | empty => exact .empty
  | ready a rest => exact .ready a (weaker _ _ rest)
  | suspended forced => exact .suspended (weaker _ _ forced)

theorem match_flip {R : Answers κ α → Answers κ α → Prop} {k : Head κ α} (heads : Match R h k) :
    Match (fun t s => R s t) k h := by
  cases heads with
  | empty => exact .empty
  | ready a rest => exact .ready a rest
  | suspended forced => exact .suspended forced

theorem head_of_mirrors (mirrors : Mirrors force force' s t) (shows : Shows force s h) :
    ∃ k, Shows force' t k ∧ Match (Mirrors force force') h k := by
  obtain ⟨R, mirroring, related⟩ := mirrors
  obtain ⟨k, shows', heads⟩ := mirroring s t related h shows
  exact ⟨k, shows', match_mono (fun _ _ related => ⟨R, mirroring, related⟩) heads⟩

theorem mirrors_of_head
    (head : ∀ h, Shows force s h → ∃ k, Shows force' t k ∧ Match (Mirrors force force') h k) :
    Mirrors force force' s t := by
  refine ⟨fun u v => (u = s ∧ v = t) ∨ Mirrors force force' u v, ?_, .inl ⟨rfl, rfl⟩⟩
  rintro u v (⟨rfl, rfl⟩ | mirrors) h shows
  · obtain ⟨k, shows', heads⟩ := head h shows
    exact ⟨k, shows', match_mono (fun _ _ => .inr) heads⟩
  · obtain ⟨k, shows', heads⟩ := head_of_mirrors mirrors shows
    exact ⟨k, shows', match_mono (fun _ _ => .inr) heads⟩

theorem mirrors_refl (force : κ → Answers κ α) (s : Answers κ α) : Mirrors force force s s := by
  refine ⟨Eq, ?_, rfl⟩
  rintro s _ rfl h shows
  refine ⟨h, shows, ?_⟩
  cases h with
  | empty => exact .empty
  | ready a rest => exact .ready a rfl
  | suspended forced => exact .suspended rfl

theorem mirrors_trans (first : Mirrors force force' s t) (second : Mirrors force' force'' t u) :
    Mirrors force force'' s u := by
  refine ⟨fun s u => ∃ t, Mirrors force force' s t ∧ Mirrors force' force'' t u, ?_,
    t, first, second⟩
  rintro s u ⟨t, first, second⟩ h shows
  obtain ⟨k, shows', heads⟩ := head_of_mirrors first shows
  obtain ⟨l, shows'', heads'⟩ := head_of_mirrors second shows'
  refine ⟨l, shows'', ?_⟩
  cases heads with
  | empty =>
    cases heads'
    exact .empty
  | ready a rest =>
    cases heads' with
    | ready _ rest' => exact .ready a ⟨_, rest, rest'⟩
  | suspended forced =>
    cases heads' with
    | suspended forced' => exact .suspended ⟨_, forced, forced'⟩

theorem mirrors_of_displays (displays : Displays force s t) : Mirrors force force s t := by
  refine mirrors_of_head fun h shows => ?_
  obtain ⟨k, shows', heads⟩ := head_of_mirrors (mirrors_refl force s) shows
  exact ⟨k, displays k shows', heads⟩

section Counted

/-- The head is shown after so many answers at most have been fed on the way to it. -/
inductive ShowsIn (force : κ → Answers κ α) : Nat → Answers κ α → Head κ α → Prop where
  | empty (n : Nat) : ShowsIn force n .empty .empty
  | ready (n : Nat) (a : α) (rest : Answers κ α) : ShowsIn force n (.ready a rest) (.ready a rest)
  | suspended (n : Nat) (code : κ) : ShowsIn force n (.suspended code) (.suspended (force code))
  | mplus_empty {n : Nat} {s t : Answers κ α} {h : Head κ α} (left : ShowsIn force n s .empty)
      (right : ShowsIn force n t h) : ShowsIn force n (.merging s t) h
  | mplus_ready {n : Nat} {s t r : Answers κ α} {a : α} (left : ShowsIn force n s (.ready a r)) :
      ShowsIn force n (.merging s t) (.ready a (.merging t r))
  | mplus_suspended {n : Nat} {s t r : Answers κ α} (left : ShowsIn force n s (.suspended r)) :
      ShowsIn force n (.merging s t) (.suspended (.merging t r))
  | bind_empty {n : Nat} {s : Answers κ α} {g : α → Answers κ α ⊕ κ}
      (source : ShowsIn force n s .empty) : ShowsIn force n (.feeding s g) .empty
  | bind_ready {n : Nat} {s r : Answers κ α} {g : α → Answers κ α ⊕ κ} {a : α} {h : Head κ α}
      (source : ShowsIn force n s (.ready a r))
      (results : ShowsIn force n (.merging (given force (g a)) (.feeding r g)) h) :
      ShowsIn force (n + 1) (.feeding s g) h
  | bind_suspended {n : Nat} {s r : Answers κ α} {g : α → Answers κ α ⊕ κ}
      (source : ShowsIn force n s (.suspended r)) :
      ShowsIn force n (.feeding s g) (.suspended (.feeding r g))

theorem shows_of_showsIn {n : Nat} (shows : ShowsIn force n s h) : Shows force s h := by
  induction shows with
  | empty => exact .empty
  | ready n a rest => exact .ready a rest
  | suspended n code => exact .suspended code
  | mplus_empty left right ihl ihr => exact .mplus_empty ihl ihr
  | mplus_ready left ih => exact .mplus_ready ih
  | mplus_suspended left ih => exact .mplus_suspended ih
  | bind_empty source ih => exact .bind_empty ih
  | bind_ready source results ihs ihr => exact .bind_ready ihs ihr
  | bind_suspended source ih => exact .bind_suspended ih

theorem showsIn_mono {n m : Nat} (shows : ShowsIn force n s h) (fewer : n ≤ m) :
    ShowsIn force m s h := by
  induction shows generalizing m with
  | empty => exact .empty m
  | ready n a rest => exact .ready m a rest
  | suspended n code => exact .suspended m code
  | mplus_empty left right ihl ihr => exact .mplus_empty (ihl fewer) (ihr fewer)
  | mplus_ready left ih => exact .mplus_ready (ih fewer)
  | mplus_suspended left ih => exact .mplus_suspended (ih fewer)
  | bind_empty source ih => exact .bind_empty (ih fewer)
  | bind_ready source results ihs ihr =>
    obtain ⟨m, rfl⟩ := Nat.exists_eq_add_one_of_ne_zero (Nat.ne_of_gt (Nat.zero_lt_of_lt fewer))
    have earlier := Nat.le_of_succ_le_succ fewer
    exact .bind_ready (ihs earlier) (ihr earlier)
  | bind_suspended source ih => exact .bind_suspended (ih fewer)

theorem exists_showsIn (shows : Shows force s h) : ∃ n, ShowsIn force n s h := by
  induction shows with
  | empty => exact ⟨0, .empty 0⟩
  | ready a rest => exact ⟨0, .ready 0 a rest⟩
  | suspended code => exact ⟨0, .suspended 0 code⟩
  | mplus_empty left right ihl ihr =>
    obtain ⟨n, left⟩ := ihl
    obtain ⟨m, right⟩ := ihr
    exact ⟨max n m, .mplus_empty (showsIn_mono left (Nat.le_max_left n m))
      (showsIn_mono right (Nat.le_max_right n m))⟩
  | mplus_ready left ih =>
    obtain ⟨n, left⟩ := ih
    exact ⟨n, .mplus_ready left⟩
  | mplus_suspended left ih =>
    obtain ⟨n, left⟩ := ih
    exact ⟨n, .mplus_suspended left⟩
  | bind_empty source ih =>
    obtain ⟨n, source⟩ := ih
    exact ⟨n, .bind_empty source⟩
  | bind_ready source results ihs ihr =>
    obtain ⟨n, source⟩ := ihs
    obtain ⟨m, results⟩ := ihr
    exact ⟨max n m + 1, .bind_ready (showsIn_mono source (Nat.le_max_left n m))
      (showsIn_mono results (Nat.le_max_right n m))⟩
  | bind_suspended source ih =>
    obtain ⟨n, source⟩ := ih
    exact ⟨n, .bind_suspended source⟩

/-- The streams show the same, and the first one feeds no more answers for it than the second. -/
structure SameHeads (force : κ → Answers κ α) (s t : Answers κ α) : Prop where
  onward : Displays force s t
  back : ∀ n h, ShowsIn force n t h → ShowsIn force n s h

theorem sameHeads_refl (force : κ → Answers κ α) (s : Answers κ α) : SameHeads force s s :=
  ⟨fun _ => id, fun _ _ => id⟩

theorem sameHeads_trans (first : SameHeads force s t) (second : SameHeads force t u) :
    SameHeads force s u where
  onward h shows := second.onward h (first.onward h shows)
  back n h shows := first.back n h (second.back n h shows)

theorem displays_of_sameHeads (same : SameHeads force s t) : Displays force t s := by
  intro h shows
  obtain ⟨n, counted⟩ := exists_showsIn shows
  exact shows_of_showsIn (same.back n h counted)

theorem sameHeads_after_empty (left : Shows force s .empty) :
    SameHeads force t (.merging s t) where
  onward _ shows := .mplus_empty left shows
  back _ _ shows := by
    cases shows with
    | mplus_empty _ right => exact right
    | mplus_ready left' => cases shows_unique left (shows_of_showsIn left')
    | mplus_suspended left' => cases shows_unique left (shows_of_showsIn left')

theorem sameHeads_merge (force : κ → Answers κ α) (s t : Answers κ α) :
    SameHeads force (.merging s t) (s.merge t) := by
  rcases merge_cases s t with ⟨rfl, same⟩ | ⟨a, rest, rfl, same⟩ | same
  · rw [same]
    exact ⟨displays_of_sameHeads (sameHeads_after_empty .empty),
      fun n h shows => .mplus_empty (.empty n) shows⟩
  · rw [same]
    constructor
    · intro h shows
      cases shows with
      | mplus_empty left right => cases left
      | mplus_suspended left => cases left
      | mplus_ready left =>
        cases left
        exact .ready a _
    · intro n h shows
      cases shows
      exact .mplus_ready (.ready n a rest)
  · rw [same]
    exact sameHeads_refl force _

theorem sameHeads_feed (force : κ → Answers κ α) (s : Answers κ α) (g : α → Answers κ α ⊕ κ) :
    SameHeads force (.feeding s g) (s.feed g) := by
  rcases feed_cases s g with ⟨rfl, same⟩ | same
  · rw [same]
    constructor
    · intro h shows
      cases shows with
      | bind_empty source => exact .empty
      | bind_ready source => cases source
      | bind_suspended source => cases source
    · intro n h shows
      cases shows
      exact .bind_empty (.empty n)
  · rw [same]
    exact sameHeads_refl force _

end Counted

section Seen

theorem sees_of_mirrors (mirrors : Mirrors force force' s t)
    (sees : Sees force config s steps outs) : Sees force' config t steps outs := by
  induction sees generalizing t with
  | nothing s steps => exact .nothing t steps
  | ended shows same =>
    obtain ⟨k, shows', heads⟩ := head_of_mirrors mirrors shows
    cases heads
    exact .ended shows' same
  | found shows later ih =>
    obtain ⟨k, shows', heads⟩ := head_of_mirrors mirrors shows
    cases heads with
    | ready a rest => exact .found shows' (ih rest)
  | forced shows allowed later ih =>
    obtain ⟨k, shows', heads⟩ := head_of_mirrors mirrors shows
    cases heads with
    | suspended forced => exact .forced shows' allowed (ih forced)
  | limited shows known reached same =>
    obtain ⟨k, shows', heads⟩ := head_of_mirrors mirrors shows
    cases heads with
    | suspended forced => exact .limited shows' known reached same

theorem sees_after_ready {a : α} {out : Attempt α} (shows : Shows force s (.ready a r))
    (sees : Sees force config s steps (out :: outs)) : Sees force config r steps outs := by
  cases sees with
  | ended shows' => cases shows_unique shows shows'
  | found shows' later =>
    cases shows_unique shows shows'
    exact later
  | forced shows' => cases shows_unique shows shows'
  | limited shows' => cases shows_unique shows shows'

theorem sees_after_forced (shows : Shows force s (.suspended r)) (allowed : config.Allows steps)
    (sees : Sees force config s steps outs) : Sees force config r (steps + 1) outs := by
  cases sees with
  | nothing => exact .nothing r (steps + 1)
  | ended shows' => cases shows_unique shows shows'
  | found shows' => cases shows_unique shows shows'
  | forced shows' _ later =>
    cases shows_unique shows shows'
    exact later
  | limited _ known reached => exact absurd (allowed _ known) (Nat.not_lt.mpr reached)

/-- A limit that is reached already tells the heads apart; larger ones tell what remains. -/
theorem mirrors_of_sees
    (sees : ∀ limit outs, Sees force (.withStepLimit limit) s 0 outs →
      Sees force' (.withStepLimit limit) t 0 outs) : Mirrors force force' s t := by
  refine ⟨fun s t => ∃ steps, ∀ limit, steps ≤ limit → ∀ outs,
    Sees force (.withStepLimit limit) s steps outs →
      Sees force' (.withStepLimit limit) t steps outs, ?_, 0, fun limit _ => sees limit⟩
  rintro s t ⟨steps, sees⟩ h shows
  have now := sees steps (Nat.le_refl steps)
  cases h with
  | empty =>
    have one : Sees force (.withStepLimit steps) s steps [(.ok none, steps)] :=
      .ended shows (List.forall_mem_singleton.mpr rfl)
    cases now _ one with
    | ended shows' => exact ⟨.empty, shows', .empty⟩
    | forced _ allowed => exact absurd (allowed steps rfl) (Nat.lt_irrefl steps)
    | limited _ _ _ same => cases List.forall_mem_singleton.mp same
  | ready a rest =>
    have one : Sees force (.withStepLimit steps) s steps [(.ok (some a), steps)] :=
      .found shows (.nothing rest steps)
    cases now _ one with
    | ended _ same => cases List.forall_mem_singleton.mp same
    | found shows' =>
      exact ⟨_, shows', .ready a ⟨steps, fun limit within outs later =>
        sees_after_ready shows' (sees limit within _ (.found shows later))⟩⟩
    | forced _ allowed => exact absurd (allowed steps rfl) (Nat.lt_irrefl steps)
    | limited _ _ _ same => cases List.forall_mem_singleton.mp same
  | suspended forced =>
    have one : Sees force (.withStepLimit steps) s steps
        [(.error (.stepLimitExceeded steps), steps)] :=
      .limited shows rfl (Nat.le_refl steps) (List.forall_mem_singleton.mpr rfl)
    cases now _ one with
    | ended _ same => cases List.forall_mem_singleton.mp same
    | forced _ allowed => exact absurd (allowed steps rfl) (Nat.lt_irrefl steps)
    | limited shows' =>
      refine ⟨_, shows', .suspended ⟨steps + 1, fun limit below outs later => ?_⟩⟩
      have allowed := Search.allows_limit (Nat.lt_of_succ_le below)
      exact sees_after_forced shows' allowed
        (sees limit (Nat.le_of_lt below) outs (.forced shows allowed later))

end Seen

/-- The second stream is like the first one with other codes, and without some of the parts that
    give nothing of their own: an empty side of a merge, a bind of nothing or of a single answer,
    a bind that hands every answer on as it is. How it is written does not count, only what it
    shows. -/
inductive Condenses (force force' : κ → Answers κ α) (codes : κ → κ → Prop) :
    Answers κ α → Answers κ α → Prop where
  | mirrored {s t : Answers κ α} (onward : Mirrors force force' s t)
      (back : Mirrors force' force t s) : Condenses force force' codes s t
  | ready {s t u : Answers κ α} {a : α} (rest : Condenses force force' codes s t)
      (shows : Shows force' u (.ready a t)) : Condenses force force' codes (.ready a s) u
  | suspended {u : Answers κ α} {c d : κ} (related : codes c d)
      (shows : Shows force' u (.suspended (force' d))) :
      Condenses force force' codes (.suspended c) u
  | merging {s s' t t' u : Answers κ α} (left : Condenses force force' codes s s')
      (right : Condenses force force' codes t t') (same : SameHeads force' (.merging s' t') u) :
      Condenses force force' codes (.merging s t) u
  | feeding {s t u : Answers κ α} {f g : α → Answers κ α ⊕ κ}
      (source : Condenses force force' codes s t)
      (results : ∀ a, Condenses force force' codes (given force (f a)) (given force' (g a)))
      (same : SameHeads force' (.feeding t g) u) : Condenses force force' codes (.feeding s f) u
  | feeding_codes {s t u : Answers κ α} {c d : α → κ} (source : Condenses force force' codes s t)
      (related : ∀ a, codes (c a) (d a))
      (same : SameHeads force' (.feeding t fun a => .inr (d a)) u) :
      Condenses force force' codes (.feeding s fun a => .inr (c a)) u
  | keep_left {s t u : Answers κ α} (left : Condenses force force' codes s u)
      (right : Condenses force force' codes t .empty) :
      Condenses force force' codes (.merging s t) u
  | keep_right {s t u : Answers κ α} (left : Condenses force force' codes s .empty)
      (right : Condenses force force' codes t u) :
      Condenses force force' codes (.merging s t) u
  | feed_nothing {s u : Answers κ α} (g : α → Answers κ α ⊕ κ)
      (source : Condenses force force' codes s .empty) (shows : Shows force' u .empty) :
      Condenses force force' codes (.feeding s g) u
  | feed_single {t : Answers κ α} (a : α) {g : α → Answers κ α ⊕ κ}
      (result : Condenses force force' codes (given force (g a)) t) :
      Condenses force force' codes (.feeding (.ready a .empty) g) t
  | hand_on {s t : Answers κ α} {g : α → Answers κ α ⊕ κ}
      (source : Condenses force force' codes s t)
      (returns : ∀ a, given force (g a) = .single a) :
      Condenses force force' codes (.feeding s g) t

section Condensing

variable {codes : κ → κ → Prop} {a : α} {g : α → Answers κ α ⊕ κ}

def Condensed (force force' : κ → Answers κ α) (codes : κ → κ → Prop) (h : Head κ α)
    (t : Answers κ α) : Prop :=
  ∃ k, Shows force' t k ∧ Match (Condenses force force' codes) h k

theorem condenses_refl (force : κ → Answers κ α) (s : Answers κ α) :
    Condenses force force codes s s :=
  .mirrored (mirrors_refl force s) (mirrors_refl force s)

theorem condenses_empty (shows : Shows force' t .empty) :
    Condenses force force' codes .empty t := by
  refine .mirrored (mirrors_of_head fun h shows' => ?_) (mirrors_of_head fun h shows' => ?_)
  · cases shows'
    exact ⟨.empty, shows, .empty⟩
  · cases shows_unique shows shows'
    exact ⟨.empty, .empty, .empty⟩

theorem condenses_sameHeads (condenses : Condenses force force' codes s t)
    (same : SameHeads force' t u) : Condenses force force' codes s u := by
  induction condenses with
  | mirrored onward back =>
    exact .mirrored (mirrors_trans onward (mirrors_of_displays same.onward))
      (mirrors_trans (mirrors_of_displays (displays_of_sameHeads same)) back)
  | ready rest shows => exact .ready rest (same.onward _ shows)
  | suspended related shows => exact .suspended related (same.onward _ shows)
  | merging left right within => exact .merging left right (sameHeads_trans within same)
  | feeding source results within => exact .feeding source results (sameHeads_trans within same)
  | feeding_codes source related within =>
    exact .feeding_codes source related (sameHeads_trans within same)
  | keep_left left right ih _ => exact .keep_left (ih same) right
  | keep_right left right _ ih => exact .keep_right left (ih same)
  | feed_nothing g source shows => exact .feed_nothing g source (same.onward _ shows)
  | feed_single a result ih => exact .feed_single a (ih same)
  | hand_on source returns ih => exact .hand_on (ih same) returns

theorem condenses_merging {s' t' : Answers κ α} (left : Condenses force force' codes s s')
    (right : Condenses force force' codes t t') :
    Condenses force force' codes (.merging s t) (.merging s' t') :=
  .merging left right (sameHeads_refl force' _)

theorem condenses_feeding {f : α → Answers κ α ⊕ κ} (source : Condenses force force' codes s t)
    (results : ∀ a, Condenses force force' codes (given force (f a)) (given force' (g a))) :
    Condenses force force' codes (.feeding s f) (.feeding t g) :=
  .feeding source results (sameHeads_refl force' _)

theorem condenses_feeding_codes {c d : α → κ} (source : Condenses force force' codes s t)
    (related : ∀ a, codes (c a) (d a)) :
    Condenses force force' codes (.feeding s fun a => .inr (c a))
      (.feeding t fun a => .inr (d a)) :=
  .feeding_codes source related (sameHeads_refl force' _)

theorem condensed_of_mirrors (onward : Mirrors force force' s t) (back : Mirrors force' force t s)
    (shows : Shows force s h) : Condensed force force' codes h t := by
  obtain ⟨k, shows', heads⟩ := head_of_mirrors onward shows
  obtain ⟨l, shows'', heads'⟩ := head_of_mirrors back shows'
  obtain rfl := shows_unique shows shows''
  refine ⟨k, shows', ?_⟩
  cases heads with
  | empty => exact .empty
  | ready a rest =>
    cases heads' with
    | ready _ rest' => exact .ready a (.mirrored rest rest')
  | suspended forced =>
    cases heads' with
    | suspended forced' => exact .suspended (.mirrored forced forced')

theorem shows_of_condenses_empty (condenses : Condenses force force' codes .empty t) :
    Shows force' t .empty := by
  cases condenses with
  | mirrored onward back =>
    obtain ⟨k, shows, heads⟩ := head_of_mirrors onward .empty
    cases heads
    exact shows

theorem shows_of_condenses_ready (condenses : Condenses force force' codes (.ready a r) t) :
    ∃ rest, Shows force' t (.ready a rest) ∧ Condenses force force' codes r rest := by
  cases condenses with
  | mirrored onward back =>
    have condensed : Condensed force force' codes (.ready a r) t :=
      condensed_of_mirrors onward back (.ready a r)
    obtain ⟨k, shows, heads⟩ := condensed
    cases heads with
    | ready _ rest => exact ⟨_, shows, rest⟩
  | ready rest shows => exact ⟨_, shows, rest⟩

theorem shows_of_condensed_empty (condensed : Condensed force force' codes .empty t) :
    Shows force' t .empty := by
  obtain ⟨k, shows, heads⟩ := condensed
  cases heads
  exact shows

theorem ready_of_condensed (condensed : Condensed force force' codes (.ready a r) t) :
    ∃ rest, Shows force' t (.ready a rest) ∧ Condenses force force' codes r rest := by
  obtain ⟨k, shows, heads⟩ := condensed
  cases heads with
  | ready _ rest => exact ⟨_, shows, rest⟩

theorem suspended_of_condensed (condensed : Condensed force force' codes (.suspended r) t) :
    ∃ rest, Shows force' t (.suspended rest) ∧ Condenses force force' codes r rest := by
  obtain ⟨k, shows, heads⟩ := condensed
  cases heads with
  | suspended rest => exact ⟨_, shows, rest⟩

theorem not_condensed_ready : ¬ Condensed force force' codes (.ready a r) .empty := by
  intro condensed
  obtain ⟨rest, shows, -⟩ := ready_of_condensed condensed
  cases shows

theorem not_condensed_suspended : ¬ Condensed force force' codes (.suspended r) .empty := by
  intro condensed
  obtain ⟨rest, shows, -⟩ := suspended_of_condensed condensed
  cases shows

theorem shows_handed_on (returns : ∀ a, given force (g a) = .single a)
    (source : Shows force s (.ready a r)) :
    Shows force (.feeding s g) (.ready a (.merging (.feeding r g) .empty)) := by
  refine .bind_ready source ?_
  rw [returns]
  exact .mplus_ready (.ready a .empty)

theorem condensed_after_empty (left : Shows force s .empty) (right : Shows force t h)
    (ofLeft : ∀ u, Condenses force force' codes s u → Condensed force force' codes .empty u)
    (ofRight : ∀ u, Condenses force force' codes t u → Condensed force force' codes h u)
    (condenses : Condenses force force' codes (.merging s t) u) :
    Condensed force force' codes h u := by
  cases condenses with
  | mirrored onward back => exact condensed_of_mirrors onward back (.mplus_empty left right)
  | merging leftCondenses rightCondenses same =>
    have shows := shows_of_condensed_empty (ofLeft _ leftCondenses)
    obtain ⟨k, shows', heads⟩ := ofRight _ rightCondenses
    exact ⟨k, same.onward _ (.mplus_empty shows shows'), heads⟩
  | keep_left leftCondenses rightCondenses =>
    obtain ⟨k, shows, heads⟩ := ofRight _ rightCondenses
    cases shows
    exact ⟨.empty, shows_of_condensed_empty (ofLeft _ leftCondenses), heads⟩
  | keep_right _ rightCondenses => exact ofRight _ rightCondenses

theorem condensed_merging_ready (left : Shows force s (.ready a r))
    (ofLeft : ∀ u, Condenses force force' codes s u → Condensed force force' codes (.ready a r) u)
    (condenses : Condenses force force' codes (.merging s t) u) :
    Condensed force force' codes (.ready a (.merging t r)) u := by
  cases condenses with
  | mirrored onward back => exact condensed_of_mirrors onward back (.mplus_ready left)
  | merging leftCondenses rightCondenses same =>
    obtain ⟨rest, shows, restCondenses⟩ := ready_of_condensed (ofLeft _ leftCondenses)
    exact ⟨_, same.onward _ (.mplus_ready shows),
      .ready a (condenses_merging rightCondenses restCondenses)⟩
  | keep_left leftCondenses rightCondenses =>
    obtain ⟨rest, shows, restCondenses⟩ := ready_of_condensed (ofLeft _ leftCondenses)
    exact ⟨_, shows, .ready a (.keep_right rightCondenses restCondenses)⟩
  | keep_right leftCondenses _ => exact absurd (ofLeft _ leftCondenses) not_condensed_ready

theorem condensed_merging_suspended (left : Shows force s (.suspended r))
    (ofLeft : ∀ u, Condenses force force' codes s u → Condensed force force' codes (.suspended r) u)
    (condenses : Condenses force force' codes (.merging s t) u) :
    Condensed force force' codes (.suspended (.merging t r)) u := by
  cases condenses with
  | mirrored onward back => exact condensed_of_mirrors onward back (.mplus_suspended left)
  | merging leftCondenses rightCondenses same =>
    obtain ⟨rest, shows, restCondenses⟩ := suspended_of_condensed (ofLeft _ leftCondenses)
    exact ⟨_, same.onward _ (.mplus_suspended shows),
      .suspended (condenses_merging rightCondenses restCondenses)⟩
  | keep_left leftCondenses rightCondenses =>
    obtain ⟨rest, shows, restCondenses⟩ := suspended_of_condensed (ofLeft _ leftCondenses)
    exact ⟨_, shows, .suspended (.keep_right rightCondenses restCondenses)⟩
  | keep_right leftCondenses _ => exact absurd (ofLeft _ leftCondenses) not_condensed_suspended

theorem condensed_feeding_empty (source : Shows force s .empty)
    (ofSource : ∀ u, Condenses force force' codes s u → Condensed force force' codes .empty u)
    (condenses : Condenses force force' codes (.feeding s g) u) :
    Condensed force force' codes .empty u := by
  cases condenses with
  | mirrored onward back => exact condensed_of_mirrors onward back (.bind_empty source)
  | feeding sourceCondenses _ same | feeding_codes sourceCondenses _ same =>
    have shows := shows_of_condensed_empty (ofSource _ sourceCondenses)
    exact ⟨_, same.onward _ (.bind_empty shows), .empty⟩
  | feed_nothing _ _ shows => exact ⟨_, shows, .empty⟩
  | feed_single => cases source
  | hand_on sourceCondenses => exact ofSource _ sourceCondenses

theorem condensed_feeding_suspended (source : Shows force s (.suspended r))
    (ofSource : ∀ u, Condenses force force' codes s u →
      Condensed force force' codes (.suspended r) u)
    (condenses : Condenses force force' codes (.feeding s g) u) :
    Condensed force force' codes (.suspended (.feeding r g)) u := by
  cases condenses with
  | mirrored onward back => exact condensed_of_mirrors onward back (.bind_suspended source)
  | feeding sourceCondenses results same =>
    obtain ⟨rest, shows, restCondenses⟩ := suspended_of_condensed (ofSource _ sourceCondenses)
    exact ⟨_, same.onward _ (.bind_suspended shows),
      .suspended (condenses_feeding restCondenses results)⟩
  | feeding_codes sourceCondenses related same =>
    obtain ⟨rest, shows, restCondenses⟩ := suspended_of_condensed (ofSource _ sourceCondenses)
    exact ⟨_, same.onward _ (.bind_suspended shows),
      .suspended (condenses_feeding_codes restCondenses related)⟩
  | feed_nothing _ sourceCondenses =>
    exact absurd (ofSource _ sourceCondenses) not_condensed_suspended
  | feed_single => cases source
  | hand_on sourceCondenses returns =>
    obtain ⟨rest, shows, restCondenses⟩ := suspended_of_condensed (ofSource _ sourceCondenses)
    exact ⟨_, shows, .suspended (.hand_on restCondenses returns)⟩

section Forced

variable (forced : ∀ c d, codes c d → Condenses force force' codes (force c) (force' d))

include forced

theorem condensed_feeding_ready (source : Shows force s (.ready a r))
    (results : Shows force (.merging (given force (g a)) (.feeding r g)) h)
    (ofSource : ∀ u, Condenses force force' codes s u → Condensed force force' codes (.ready a r) u)
    (ofResults : ∀ u, Condenses force force' codes (.merging (given force (g a)) (.feeding r g)) u →
      Condensed force force' codes h u)
    (condenses : Condenses force force' codes (.feeding s g) u) :
    Condensed force force' codes h u := by
  cases condenses with
  | mirrored onward back => exact condensed_of_mirrors onward back (.bind_ready source results)
  | feeding sourceCondenses each same =>
    obtain ⟨rest, shows, restCondenses⟩ := ready_of_condensed (ofSource _ sourceCondenses)
    obtain ⟨k, shows', heads⟩ := ofResults _
      (condenses_merging (each a) (condenses_feeding restCondenses each))
    exact ⟨k, same.onward _ (.bind_ready shows shows'), heads⟩
  | feeding_codes sourceCondenses related same =>
    obtain ⟨rest, shows, restCondenses⟩ := ready_of_condensed (ofSource _ sourceCondenses)
    obtain ⟨k, shows', heads⟩ := ofResults _ (condenses_merging (forced _ _ (related a))
      (condenses_feeding_codes restCondenses related))
    exact ⟨k, same.onward _ (.bind_ready shows shows'), heads⟩
  | feed_nothing _ sourceCondenses =>
    exact absurd (ofSource _ sourceCondenses) not_condensed_ready
  | feed_single _ result =>
    cases source
    exact ofResults _ (.keep_left result (.feed_nothing g (condenses_empty .empty) .empty))
  | hand_on sourceCondenses returns =>
    obtain ⟨rest, shows, restCondenses⟩ := ready_of_condensed (ofSource _ sourceCondenses)
    cases shows_unique (.bind_ready source results) (shows_handed_on returns source)
    have handedOn := Condenses.hand_on restCondenses returns
    exact ⟨_, shows, .ready a (.keep_left handedOn (condenses_empty .empty))⟩

theorem condensed_of_shows (shows : Shows force s h)
    (condenses : Condenses force force' codes s t) : Condensed force force' codes h t := by
  -- The induction is on the head of the first stream, which a part that is left out does not have
  -- or has from elsewhere.
  induction shows generalizing t with
  | empty => exact ⟨_, shows_of_condenses_empty condenses, .empty⟩
  | ready a rest =>
    obtain ⟨rest', shows, restCondenses⟩ := shows_of_condenses_ready condenses
    exact ⟨_, shows, .ready a restCondenses⟩
  | suspended code =>
    cases condenses with
    | mirrored onward back => exact condensed_of_mirrors onward back (.suspended code)
    | suspended related shows => exact ⟨_, shows, .suspended (forced _ _ related)⟩
  | mplus_empty left right ihl ihr =>
    exact condensed_after_empty left right (fun _ => ihl) (fun _ => ihr) condenses
  | mplus_ready left ih => exact condensed_merging_ready left (fun _ => ih) condenses
  | mplus_suspended left ih => exact condensed_merging_suspended left (fun _ => ih) condenses
  | bind_empty source ih => exact condensed_feeding_empty source (fun _ => ih) condenses
  | bind_ready source results ihs ihr =>
    exact condensed_feeding_ready forced source results (fun _ => ihs) (fun _ => ihr) condenses
  | bind_suspended source ih => exact condensed_feeding_suspended source (fun _ => ih) condenses

theorem mirrors_of_condenses (condenses : Condenses force force' codes s t) :
    Mirrors force force' s t :=
  ⟨Condenses force force' codes,
    fun _ _ condenses _ shows => condensed_of_shows forced shows condenses, condenses⟩

theorem match_of_condenses {k : Head κ α} (condenses : Condenses force force' codes s t)
    (shows : Shows force s h) (shows' : Shows force' t k) :
    Match (Condenses force force' codes) h k := by
  obtain ⟨l, shows'', heads⟩ := condensed_of_shows forced shows condenses
  rwa [shows_unique shows' shows'']

section Back

variable {n : Nat} {s' t' : Answers κ α} {g' : α → Answers κ α ⊕ κ} {k : Head κ α}

theorem shown_merging (left : Condenses force force' codes s s')
    (ofLeft : ∀ k, ShowsIn force' n s' k → ∃ h, Shows force s h)
    (ofRight : ∀ k, ShowsIn force' n t' k → ∃ h, Shows force t h)
    (shows : ShowsIn force' n (.merging s' t') k) : ∃ h, Shows force (.merging s t) h := by
  cases shows with
  | mplus_empty showsLeft' showsRight' =>
    obtain ⟨l, showsLeft⟩ := ofLeft _ showsLeft'
    obtain ⟨h, showsRight⟩ := ofRight _ showsRight'
    cases match_of_condenses forced left showsLeft (shows_of_showsIn showsLeft')
    exact ⟨h, .mplus_empty showsLeft showsRight⟩
  | mplus_ready showsLeft' =>
    obtain ⟨l, showsLeft⟩ := ofLeft _ showsLeft'
    cases match_of_condenses forced left showsLeft (shows_of_showsIn showsLeft')
    exact ⟨_, .mplus_ready showsLeft⟩
  | mplus_suspended showsLeft' =>
    obtain ⟨l, showsLeft⟩ := ofLeft _ showsLeft'
    cases match_of_condenses forced left showsLeft (shows_of_showsIn showsLeft')
    exact ⟨_, .mplus_suspended showsLeft⟩

theorem shown_feeding (source : Condenses force force' codes s t)
    (ofSource : ∀ k, ShowsIn force' n t k → ∃ h, Shows force s h)
    (ofResults : ∀ a r r' m k, m < n → Condenses force force' codes r r' →
      ShowsIn force' m (.merging (given force' (g' a)) (.feeding r' g')) k →
      ∃ h, Shows force (.merging (given force (g a)) (.feeding r g)) h)
    (shows : ShowsIn force' n (.feeding t g') k) : ∃ h, Shows force (.feeding s g) h := by
  cases shows with
  | bind_empty showsSource' =>
    obtain ⟨l, showsSource⟩ := ofSource _ showsSource'
    cases match_of_condenses forced source showsSource (shows_of_showsIn showsSource')
    exact ⟨_, .bind_empty showsSource⟩
  | @bind_ready m _ r' _ a _ showsSource' results' =>
    have fewer := Nat.lt_succ_self m
    obtain ⟨l, showsSource⟩ := ofSource _ (showsIn_mono showsSource' (Nat.le_of_lt fewer))
    cases match_of_condenses forced source showsSource (shows_of_showsIn showsSource') with
    | ready _ rest =>
      obtain ⟨h, results⟩ := ofResults a _ r' m k fewer rest results'
      exact ⟨h, .bind_ready showsSource results⟩
  | bind_suspended showsSource' =>
    obtain ⟨l, showsSource⟩ := ofSource _ showsSource'
    cases match_of_condenses forced source showsSource (shows_of_showsIn showsSource')
    exact ⟨_, .bind_suspended showsSource⟩

omit forced

theorem shown_both (left : ∃ h, Shows force s h) (right : ∃ h, Shows force t h) :
    ∃ h, Shows force (.merging s t) h := by
  obtain ⟨l, showsLeft⟩ := left
  obtain ⟨h, showsRight⟩ := right
  cases l with
  | empty => exact ⟨h, .mplus_empty showsLeft showsRight⟩
  | ready a rest => exact ⟨_, .mplus_ready showsLeft⟩
  | suspended rest => exact ⟨_, .mplus_suspended showsLeft⟩

end Back

theorem shown_of_condenses {n : Nat} {k : Head κ α} (condenses : Condenses force force' codes s t)
    (shows : ShowsIn force' n t k) : ∃ h, Shows force s h := by
  -- The outer induction is on the answers that the second stream feeds: a bind that has fed one
  -- goes on with streams that are only now compared.
  induction n using Nat.strongRecOn generalizing s t k with
  | ind n earlier =>
    induction condenses generalizing k with
    | mirrored onward back =>
      obtain ⟨h, shows', -⟩ := head_of_mirrors back (shows_of_showsIn shows)
      exact ⟨h, shows'⟩
    | ready rest => exact ⟨_, .ready _ _⟩
    | suspended => exact ⟨_, .suspended _⟩
    | merging left right same ihl ihr =>
      exact shown_merging forced left (fun _ => ihl) (fun _ => ihr) (same.back n k shows)
    | feeding source results same ih =>
      refine shown_feeding forced source (fun _ => ih) (fun a r r' m l fewer rest => ?_)
        (same.back n k shows)
      exact earlier m fewer (condenses_merging (results a) (condenses_feeding rest results))
    | feeding_codes source related same ih =>
      refine shown_feeding forced source (fun _ => ih) (fun a r r' m l fewer rest => ?_)
        (same.back n k shows)
      exact earlier m fewer (condenses_merging (forced _ _ (related a))
        (condenses_feeding_codes rest related))
    | keep_left left right ihl ihr => exact shown_both (ihl shows) (ihr (.empty n))
    | keep_right left right ihl ihr => exact shown_both (ihl (.empty n)) (ihr shows)
    | feed_nothing g source shows' ih =>
      obtain ⟨h, showsSource⟩ := ih (.empty n)
      cases match_of_condenses forced source showsSource .empty
      exact ⟨_, .bind_empty showsSource⟩
    | feed_single a result ih =>
      obtain ⟨h, shows'⟩ := shown_both (ih shows) ⟨_, .bind_empty .empty⟩
      exact ⟨h, .bind_ready (.ready a .empty) shows'⟩
    | hand_on source returns ih =>
      obtain ⟨h, showsSource⟩ := ih shows
      cases h with
      | empty => exact ⟨_, .bind_empty showsSource⟩
      | ready a rest => exact ⟨_, shows_handed_on returns showsSource⟩
      | suspended rest => exact ⟨_, .bind_suspended showsSource⟩

theorem mirrors_back (condenses : Condenses force force' codes s t) : Mirrors force' force t s := by
  refine ⟨fun t s => Condenses force force' codes s t, ?_, condenses⟩
  intro t s condenses k shows
  obtain ⟨n, counted⟩ := exists_showsIn shows
  obtain ⟨h, shows'⟩ := shown_of_condenses forced condenses counted
  exact ⟨h, shows', match_flip (match_of_condenses forced condenses shows' shows)⟩

end Forced

end Condensing

end Answers

end RelationalSearch

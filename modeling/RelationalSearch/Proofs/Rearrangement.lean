import RelationalSearch.Proofs.DepthFirst

/-!
Laws of depth-first evaluation, up to the order of the answers. Merges can be grouped in any way,
and so can binds; a bind of a merge is the merge of two binds. A merge of results can be taken out
of a bind too, but then the source is evaluated twice, and its forcings count twice.
-/
namespace RelationalSearch.Answers

variable {κ α : Type} {force : κ → Answers κ α} {s t t' : Answers κ α}
  {f g h : α → Answers κ α ⊕ κ} {xs ys zs : List α} {n k m : Nat}

theorem depthFirst_merging_iff :
    DepthFirst force (.merging s t) zs k ↔ ∃ xs ys n m, DepthFirst force s xs n ∧
      DepthFirst force t ys m ∧ zs = xs ++ ys ∧ k = n + m := by
  constructor
  · intro evaluates
    cases evaluates with
    | merging left right => exact ⟨_, _, _, _, left, right, rfl, rfl⟩
  · rintro ⟨xs, ys, n, m, left, right, rfl, rfl⟩
    exact .merging left right

section Results

theorem results_append_iff :
    Results force g (xs ++ ys) zs m ↔ ∃ first later n k, Results force g xs first n ∧
      Results force g ys later k ∧ zs = first ++ later ∧ m = n + k := by
  induction xs generalizing zs m with
  | nil =>
    constructor
    · exact fun results => ⟨[], zs, 0, m, .nil, results, rfl, (Nat.zero_add m).symm⟩
    · rintro ⟨_, later, _, k, nothing, results, rfl, rfl⟩
      cases nothing
      rwa [Nat.zero_add]
  | cons x xs ih =>
    rw [List.cons_append]
    constructor
    · intro results
      cases results with
      | cons first rest =>
        obtain ⟨more, later, n, k, inside, others, rfl, rfl⟩ := ih.mp rest
        exact ⟨_, later, _, k, .cons first inside, others, (List.append_assoc ..).symm,
          (Nat.add_assoc ..).symm⟩
    · rintro ⟨_, later, _, k, results, others, rfl, rfl⟩
      cases results with
      | cons first inside =>
        rw [List.append_assoc, Nat.add_assoc]
        exact .cons first (ih.mpr ⟨_, _, _, _, inside, others, rfl, rfl⟩)

theorem covers_results
    (each : ∀ x, Covers force (given force (f x)) 0 (given force (g x)) 0)
    (results : Results force f xs zs m) : ∃ zs', Results force g xs zs' m ∧ zs.Perm zs' := by
  induction results with
  | nil => exact ⟨[], .nil, .nil⟩
  | @cons x xs ys zs n m first later ih =>
    obtain ⟨ys', n', first', perm, same⟩ := each x ys n first
    obtain rfl : n' = n := by omega
    obtain ⟨zs', later', perm'⟩ := ih
    exact ⟨ys' ++ zs', .cons first' later', perm.append perm'⟩

theorem results_handed_on_iff (returns : ∀ x, given force (g x) = .single x) :
    Results force g xs zs m ↔ zs = xs ∧ m = 0 := by
  have alone (x : α) : DepthFirst force (given force (g x)) [x] 0 := by
    rw [returns]
    exact .ready x .empty
  induction xs generalizing zs m with
  | nil =>
    constructor
    · intro nothing
      cases nothing
      exact ⟨rfl, rfl⟩
    · rintro ⟨rfl, rfl⟩
      exact .nil
  | cons x xs ih =>
    constructor
    · intro results
      cases results with
      | cons first later =>
        obtain ⟨rfl, rfl⟩ := depthFirst_unique first (alone x)
        obtain ⟨rfl, rfl⟩ := ih.mp later
        exact ⟨rfl, rfl⟩
    · rintro ⟨rfl, rfl⟩
      exact .cons (alone x) (ih.mpr ⟨rfl, rfl⟩)

theorem results_nested_iff (nested : ∀ x, given force (h x) = .feeding (given force (f x)) g) :
    Results force h xs zs m ↔
      ∃ ys n k, Results force f xs ys n ∧ Results force g ys zs k ∧ m = n + k := by
  induction xs generalizing zs m with
  | nil =>
    constructor
    · intro nothing
      cases nothing
      exact ⟨[], 0, 0, .nil, .nil, rfl⟩
    · rintro ⟨ys, n, k, inner, outer, rfl⟩
      cases inner
      cases outer
      exact .nil
  | cons x xs ih =>
    constructor
    · intro results
      cases results with
      | cons first later =>
        rw [nested] at first
        obtain ⟨as, n, k, inner, outer, rfl⟩ := depthFirst_feeding_iff.mp first
        obtain ⟨bs, i, j, inners, outers, rfl⟩ := ih.mp later
        exact ⟨as ++ bs, n + i, k + j, .cons inner inners,
          results_append_iff.mpr ⟨_, _, _, _, outer, outers, rfl, rfl⟩, by omega⟩
    · rintro ⟨_, _, _, inner, outer, rfl⟩
      cases inner with
      | @cons _ _ as bs n i first later =>
        obtain ⟨ys, zs, k, j, results, others, rfl, rfl⟩ := results_append_iff.mp outer
        have here : DepthFirst force (given force (h x)) ys (n + k) := by
          rw [nested]
          exact depthFirst_feeding_iff.mpr ⟨as, n, k, first, results, rfl⟩
        have all := Results.cons here (ih.mpr ⟨bs, i, j, later, others, rfl⟩)
        rwa [Nat.add_add_add_comm] at all

theorem results_merged (merged : ∀ x, given force (h x) =
      .merging (given force (f x)) (given force (g x))) (xs : List α) :
    (∀ zs m, Results force h xs zs m → ∃ as bs n k, Results force f xs as n ∧
      Results force g xs bs k ∧ zs.Perm (as ++ bs) ∧ m = n + k) ∧
    ∀ as bs n k, Results force f xs as n → Results force g xs bs k →
      ∃ zs, Results force h xs zs (n + k) ∧ zs.Perm (as ++ bs) := by
  have regroup {as as' bs bs' zs : List α} (perm : zs.Perm (as' ++ bs')) :
      (as ++ bs ++ zs).Perm (as ++ as' ++ (bs ++ bs')) := by
    rw [List.append_assoc, List.append_assoc]
    exact ((perm.append_left bs).trans (List.perm_append_comm_assoc bs as' bs')).append_left as
  induction xs with
  | nil =>
    constructor
    · intro zs m nothing
      cases nothing
      exact ⟨[], [], 0, 0, .nil, .nil, .nil, rfl⟩
    · intro as bs n k left right
      cases left
      cases right
      exact ⟨[], .nil, .nil⟩
  | cons x xs ih =>
    obtain ⟨apart, together⟩ := ih
    constructor
    · intro zs m results
      cases results with
      | cons first later =>
        rw [merged] at first
        obtain ⟨as, bs, n, k, left, right, rfl, rfl⟩ := depthFirst_merging_iff.mp first
        obtain ⟨as', bs', n', k', lefts, rights, perm, rfl⟩ := apart _ _ later
        exact ⟨as ++ as', bs ++ bs', n + n', k + k', .cons left lefts, .cons right rights,
          regroup perm, by omega⟩
    · intro as bs n k left right
      cases left with
      | @cons _ _ as as' n n' left lefts =>
        cases right with
        | @cons _ _ bs bs' k k' right rights =>
          obtain ⟨zs, later, perm⟩ := together as' bs' n' k' lefts rights
          have here : DepthFirst force (given force (h x)) (as ++ bs) (n + k) := by
            rw [merged]
            exact .merging left right
          refine ⟨as ++ bs ++ zs, ?_, regroup perm⟩
          rw [Nat.add_add_add_comm]
          exact .cons here later

end Results

namespace Conserves

theorem symm (conserves : Conserves force s n t k) : Conserves force t k s n :=
  ⟨conserves.back, conserves.onward⟩

theorem merging_right (right : Conserves force t n t' n) (s : Answers κ α) :
    Conserves force (.merging s t) n (.merging s t') n :=
  ((swap s t n).trans (right.merging s)).trans (swap t' s n)

theorem merging_assoc (s t u : Answers κ α) (n : Nat) :
    Conserves force (.merging (.merging s t) u) n (.merging s (.merging t u)) n := by
  refine ⟨covers_of_imp ?_ n, covers_of_imp ?_ n⟩
  · intro zs l evaluates
    obtain ⟨_, cs, _, k, left, right, rfl, rfl⟩ := depthFirst_merging_iff.mp evaluates
    obtain ⟨as, bs, i, j, first, second, rfl, rfl⟩ := depthFirst_merging_iff.mp left
    rw [List.append_assoc, Nat.add_assoc]
    exact .merging first (.merging second right)
  · intro zs l evaluates
    obtain ⟨as, _, i, _, left, right, rfl, rfl⟩ := depthFirst_merging_iff.mp evaluates
    obtain ⟨bs, cs, j, k, second, third, rfl, rfl⟩ := depthFirst_merging_iff.mp right
    rw [← List.append_assoc, ← Nat.add_assoc]
    exact .merging (.merging left second) third

theorem merge (s t : Answers κ α) (n : Nat) :
    Conserves force (s.merge t) n (.merging s t) n := by
  rcases merge_cases s t with ⟨rfl, same⟩ | ⟨a, rest, rfl, same⟩ | same
  · rw [same]
    exact (after_empty t n).symm
  · rw [same]
    exact (answer_first a rest t n).symm
  · rw [same]
    exact refl _ n

theorem feed (s : Answers κ α) (g : α → Answers κ α ⊕ κ) (n : Nat) :
    Conserves force (s.feed g) n (.feeding s g) n := by
  rcases feed_cases s g with ⟨rfl, same⟩ | same
  · rw [same]
    exact (feed_nothing g n).symm
  · rw [same]
    exact refl _ n

theorem feeding_results
    (each : ∀ x, Conserves force (given force (f x)) 0 (given force (g x)) 0)
    (s : Answers κ α) (n : Nat) : Conserves force (.feeding s f) n (.feeding s g) n := by
  have covers {f g : α → Answers κ α ⊕ κ}
      (each : ∀ x, Covers force (given force (f x)) 0 (given force (g x)) 0) :
      Covers force (.feeding s f) n (.feeding s g) n := by
    intro zs l evaluates
    obtain ⟨xs, i, j, source, results, rfl⟩ := depthFirst_feeding_iff.mp evaluates
    obtain ⟨zs', results', perm⟩ := covers_results each results
    exact ⟨zs', i + j, depthFirst_feeding_iff.mpr ⟨xs, i, j, source, results', rfl⟩, perm, rfl⟩
  exact ⟨covers fun x => (each x).onward, covers fun x => (each x).back⟩

theorem handed_on (returns : ∀ x, given force (g x) = .single x) (s : Answers κ α) (n : Nat) :
    Conserves force (.feeding s g) n s n := by
  refine ⟨covers_of_imp ?_ n, covers_of_imp ?_ n⟩
  · intro zs l evaluates
    obtain ⟨xs, i, j, source, results, rfl⟩ := depthFirst_feeding_iff.mp evaluates
    obtain ⟨rfl, rfl⟩ := (results_handed_on_iff returns).mp results
    exact source
  · intro zs l evaluates
    exact depthFirst_feeding_iff.mpr
      ⟨zs, l, 0, evaluates, (results_handed_on_iff returns).mpr ⟨rfl, rfl⟩, rfl⟩

theorem feeding_assoc (nested : ∀ x, given force (h x) = .feeding (given force (f x)) g)
    (s : Answers κ α) (n : Nat) :
    Conserves force (.feeding (.feeding s f) g) n (.feeding s h) n := by
  refine ⟨covers_of_imp ?_ n, covers_of_imp ?_ n⟩
  · intro zs l evaluates
    obtain ⟨ys, _, k, inner, outer, rfl⟩ := depthFirst_feeding_iff.mp evaluates
    obtain ⟨xs, i, j, source, results, rfl⟩ := depthFirst_feeding_iff.mp inner
    exact depthFirst_feeding_iff.mpr ⟨xs, i, j + k, source,
      (results_nested_iff nested).mpr ⟨ys, j, k, results, outer, rfl⟩, Nat.add_assoc i j k⟩
  · intro zs l evaluates
    obtain ⟨xs, i, _, source, results, rfl⟩ := depthFirst_feeding_iff.mp evaluates
    obtain ⟨ys, j, k, inner, outer, rfl⟩ := (results_nested_iff nested).mp results
    exact depthFirst_feeding_iff.mpr ⟨ys, i + j, k,
      depthFirst_feeding_iff.mpr ⟨xs, i, j, source, inner, rfl⟩, outer, (Nat.add_assoc i j k).symm⟩

theorem feeding_merging (s t : Answers κ α) (g : α → Answers κ α ⊕ κ) (n : Nat) :
    Conserves force (.feeding (.merging s t) g) n (.merging (.feeding s g) (.feeding t g)) n := by
  refine ⟨covers_of_imp ?_ n, covers_of_imp ?_ n⟩
  · intro zs l evaluates
    obtain ⟨_, _, _, source, results, rfl⟩ := depthFirst_feeding_iff.mp evaluates
    obtain ⟨xs, ys, i, j, left, right, rfl, rfl⟩ := depthFirst_merging_iff.mp source
    obtain ⟨as, bs, k, m, first, later, rfl, rfl⟩ := results_append_iff.mp results
    rw [Nat.add_add_add_comm]
    exact .merging (depthFirst_feeding_iff.mpr ⟨xs, i, k, left, first, rfl⟩)
      (depthFirst_feeding_iff.mpr ⟨ys, j, m, right, later, rfl⟩)
  · intro zs l evaluates
    obtain ⟨as, bs, _, _, first, second, rfl, rfl⟩ := depthFirst_merging_iff.mp evaluates
    obtain ⟨xs, i, k, left, results, rfl⟩ := depthFirst_feeding_iff.mp first
    obtain ⟨ys, j, m, right, others, rfl⟩ := depthFirst_feeding_iff.mp second
    exact depthFirst_feeding_iff.mpr ⟨xs ++ ys, i + j, k + m, .merging left right,
      results_append_iff.mpr ⟨as, bs, k, m, results, others, rfl, rfl⟩,
      Nat.add_add_add_comm i k j m⟩

/-- The forcings of the source come once on the left and twice on the right. -/
theorem merging_results (merged : ∀ x, given force (h x) =
      .merging (given force (f x)) (given force (g x))) (source : DepthFirst force s xs n) :
    Conserves force (.feeding s h) n (.merging (.feeding s f) (.feeding s g)) 0 := by
  obtain ⟨apart, together⟩ := results_merged merged xs
  constructor
  · intro zs l evaluates
    obtain ⟨_, _, m, source', results, rfl⟩ := depthFirst_feeding_iff.mp evaluates
    obtain ⟨rfl, rfl⟩ := depthFirst_unique source source'
    obtain ⟨as, bs, i, j, left, right, perm, rfl⟩ := apart zs m results
    exact ⟨as ++ bs, _, .merging (depthFirst_feeding_iff.mpr ⟨xs, n, i, source, left, rfl⟩)
      (depthFirst_feeding_iff.mpr ⟨xs, n, j, source, right, rfl⟩), perm, by omega⟩
  · intro zs l evaluates
    obtain ⟨as, bs, _, _, first, second, rfl, rfl⟩ := depthFirst_merging_iff.mp evaluates
    obtain ⟨_, _, i, source', left, rfl⟩ := depthFirst_feeding_iff.mp first
    obtain ⟨rfl, rfl⟩ := depthFirst_unique source source'
    obtain ⟨_, _, j, source'', right, rfl⟩ := depthFirst_feeding_iff.mp second
    obtain ⟨rfl, rfl⟩ := depthFirst_unique source source''
    obtain ⟨zs, results, perm⟩ := together as bs i j left right
    exact ⟨zs, n + (i + j), depthFirst_feeding_iff.mpr ⟨xs, n, _, source, results, rfl⟩,
      perm.symm, by omega⟩

end Conserves

end RelationalSearch.Answers

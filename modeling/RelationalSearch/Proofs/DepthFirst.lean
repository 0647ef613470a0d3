import Mathlib.Data.List.Basic
import RelationalSearch.Proofs.Productivity

/-!
Depth-first evaluation, and what conserves it. A stream is evaluated from left to right as long
as that has an end, with every suspension forced on the way. A merge may change its sides, and a
bind may be opened answer by answer: the answers stay the same up to their order, and what is
forced earlier is forced no more later.
-/
namespace RelationalSearch.Answers

variable {κ α : Type} {force : κ → Answers κ α} {s t u : Answers κ α} {n k m : Nat}

def total (number : α → Nat) : List α → Nat
  | [] => 0
  | x :: xs => number x + total number xs

theorem total_congr {first second : α → Nat} {xs : List α} (same : ∀ x ∈ xs, first x = second x) :
    total first xs = total second xs := by
  induction xs with
  | nil => rfl
  | cons x xs ih =>
    rw [total, total, same x List.mem_cons_self, ih fun y later =>
      same y (List.mem_cons_of_mem x later)]

theorem total_perm (number : α → Nat) {xs ys : List α} (perm : xs.Perm ys) :
    total number xs = total number ys := by
  induction perm with
  | nil => rfl
  | cons x perm ih => rw [total, total, ih]
  | swap x y xs => exact Nat.add_left_comm _ _ _
  | trans first second ihFirst ihSecond => exact ihFirst.trans ihSecond

/-- The answers of the stream from left to right, and the number of forcings it takes to find
    them all. There is no such list if the evaluation has no end. -/
inductive DepthFirst (force : κ → Answers κ α) : Answers κ α → List α → Nat → Prop where
  | empty : DepthFirst force .empty [] 0
  | ready {s : Answers κ α} {xs : List α} {n : Nat} (a : α) (rest : DepthFirst force s xs n) :
      DepthFirst force (.ready a s) (a :: xs) n
  | suspended {xs : List α} {n : Nat} (code : κ) (forced : DepthFirst force (force code) xs n) :
      DepthFirst force (.suspended code) xs (n + 1)
  | merging {s t : Answers κ α} {xs ys : List α} {n m : Nat} (left : DepthFirst force s xs n)
      (right : DepthFirst force t ys m) : DepthFirst force (.merging s t) (xs ++ ys) (n + m)
  | feeding {s : Answers κ α} {g : α → Answers κ α ⊕ κ} {xs : List α} {n : Nat}
      (source : DepthFirst force s xs n) (answers : α → List α) (forcings : α → Nat)
      (results : ∀ x ∈ xs, DepthFirst force (given force (g x)) (answers x) (forcings x)) :
      DepthFirst force (.feeding s g) (xs.flatMap answers) (n + total forcings xs)

theorem depthFirst_unique {xs ys : List α} (first : DepthFirst force s xs n)
    (second : DepthFirst force s ys m) : xs = ys ∧ n = m := by
  induction first generalizing ys m with
  | empty =>
    cases second
    exact ⟨rfl, rfl⟩
  | ready a rest ih =>
    cases second with
    | ready _ rest' =>
      obtain ⟨rfl, rfl⟩ := ih rest'
      exact ⟨rfl, rfl⟩
  | suspended code forced ih =>
    cases second with
    | suspended _ forced' =>
      obtain ⟨rfl, rfl⟩ := ih forced'
      exact ⟨rfl, rfl⟩
  | merging left right ihl ihr =>
    cases second with
    | merging left' right' =>
      obtain ⟨rfl, rfl⟩ := ihl left'
      obtain ⟨rfl, rfl⟩ := ihr right'
      exact ⟨rfl, rfl⟩
  | @feeding s g xs n source answers forcings results ihs ihr =>
    cases second with
    | feeding source' answers' forcings' results' =>
      obtain ⟨rfl, rfl⟩ := ihs source'
      have same (x : α) (member : x ∈ xs) : answers x = answers' x ∧ forcings x = forcings' x :=
        ihr x member (results' x member)
      rw [List.flatMap_congr fun x member => (same x member).1,
        total_congr fun x member => (same x member).2]
      exact ⟨rfl, rfl⟩

/-- The results that a bind has for the answers in the list, one after the other, and the forcings
    for all of them. -/
inductive Results (force : κ → Answers κ α) (g : α → Answers κ α ⊕ κ) :
    List α → List α → Nat → Prop where
  | nil : Results force g [] [] 0
  | cons {x : α} {xs ys zs : List α} {n m : Nat}
      (first : DepthFirst force (given force (g x)) ys n) (later : Results force g xs zs m) :
      Results force g (x :: xs) (ys ++ zs) (n + m)

theorem results_of_each {g : α → Answers κ α ⊕ κ} {xs : List α} {answers : α → List α}
    {forcings : α → Nat}
    (each : ∀ x ∈ xs, DepthFirst force (given force (g x)) (answers x) (forcings x)) :
    Results force g xs (xs.flatMap answers) (total forcings xs) := by
  induction xs with
  | nil => exact .nil
  | cons x xs ih =>
    rw [List.flatMap_cons, total]
    exact .cons (each x List.mem_cons_self) (ih fun y later => each y (List.mem_cons_of_mem x later))

open Classical in
theorem each_of_results {g : α → Answers κ α ⊕ κ} {xs zs : List α}
    (results : Results force g xs zs m) :
    ∃ (answers : α → List α) (forcings : α → Nat),
      (∀ x ∈ xs, DepthFirst force (given force (g x)) (answers x) (forcings x)) ∧
      zs = xs.flatMap answers ∧ m = total forcings xs := by
  induction results with
  | nil => exact ⟨fun _ => [], fun _ => 0, fun x member => (nomatch member), rfl, rfl⟩
  | @cons x xs ys zs n m first later ih =>
    obtain ⟨answers, forcings, each, rfl, rfl⟩ := ih
    have each' (y : α) (member : y ∈ x :: xs) :
        DepthFirst force (given force (g y)) (Function.update answers x ys y)
          (Function.update forcings x n y) := by
      by_cases same : y = x
      · subst same
        rwa [Function.update_self, Function.update_self]
      · rw [Function.update_of_ne same, Function.update_of_ne same]
        exact each y ((List.mem_cons.mp member).resolve_left same)
    have agree (y : α) (member : y ∈ xs) :
        Function.update answers x ys y = answers y ∧ Function.update forcings x n y = forcings y :=
      depthFirst_unique (each' y (List.mem_cons_of_mem x member)) (each y member)
    refine ⟨_, _, each', ?_, ?_⟩
    · rw [List.flatMap_cons, Function.update_self,
        List.flatMap_congr fun y member => (agree y member).1]
    · rw [total, Function.update_self, total_congr fun y member => (agree y member).2]

theorem depthFirst_feeding_iff {g : α → Answers κ α ⊕ κ} {zs : List α} :
    DepthFirst force (.feeding s g) zs k ↔
      ∃ xs n m, DepthFirst force s xs n ∧ Results force g xs zs m ∧ k = n + m := by
  constructor
  · intro evaluates
    cases evaluates with
    | @feeding _ _ xs n source answers forcings each =>
      exact ⟨xs, n, total forcings xs, source, results_of_each each, rfl⟩
  · rintro ⟨xs, n, m, source, results, rfl⟩
    obtain ⟨answers, forcings, each, rfl, rfl⟩ := each_of_results results
    exact .feeding source answers forcings each

/-- Whatever depth-first evaluation finds in the first stream after so many forcings, it finds in
    the second, in some order; forcings done before count as well. -/
def Covers (force : κ → Answers κ α) (s : Answers κ α) (n : Nat) (t : Answers κ α) (k : Nat) :
    Prop :=
  ∀ xs m, DepthFirst force s xs m →
    ∃ ys l, DepthFirst force t ys l ∧ xs.Perm ys ∧ n + m = k + l

structure Conserves (force : κ → Answers κ α) (s : Answers κ α) (n : Nat) (t : Answers κ α)
    (k : Nat) : Prop where
  onward : Covers force s n t k
  back : Covers force t k s n

theorem covers_trans (first : Covers force s n t k) (second : Covers force t k u m) :
    Covers force s n u m := by
  intro xs l evaluates
  obtain ⟨ys, l', evaluates', perm, total⟩ := first xs l evaluates
  obtain ⟨zs, l'', evaluates'', perm', total'⟩ := second ys l' evaluates'
  exact ⟨zs, l'', evaluates'', perm.trans perm', total.trans total'⟩

theorem covers_merging (left : Covers force s n t k) (u : Answers κ α) :
    Covers force (.merging s u) n (.merging t u) k := by
  intro xs l evaluates
  cases evaluates with
  | @merging _ _ ls rs i j evaluatesLeft right =>
    obtain ⟨ys, i', evaluatesLeft', perm, total⟩ := left ls i evaluatesLeft
    exact ⟨ys ++ rs, i' + j, .merging evaluatesLeft' right, perm.append_right rs, by omega⟩

theorem covers_feeding (source : Covers force s n t k) (g : α → Answers κ α ⊕ κ) :
    Covers force (.feeding s g) n (.feeding t g) k := by
  intro xs l evaluates
  cases evaluates with
  | @feeding _ _ fed i evaluatesSource answers forcings results =>
    obtain ⟨ys, i', evaluatesSource', perm, forced⟩ := source fed i evaluatesSource
    have same : total forcings fed = total forcings ys := total_perm forcings perm
    refine ⟨ys.flatMap answers, i' + total forcings ys, ?_, perm.flatMap_right answers, ?_⟩
    · exact .feeding evaluatesSource' answers forcings fun x member =>
        results x (perm.mem_iff.mpr member)
    · omega

theorem covers_swap (s t : Answers κ α) (n : Nat) :
    Covers force (.merging s t) n (.merging t s) n := by
  intro xs l evaluates
  cases evaluates with
  | @merging _ _ ls rs i j left right =>
    exact ⟨rs ++ ls, j + i, .merging right left, List.perm_append_comm, by omega⟩

theorem covers_of_imp (same : ∀ xs m, DepthFirst force s xs m → DepthFirst force t xs m) (n : Nat) :
    Covers force s n t n :=
  fun xs m evaluates => ⟨xs, m, same xs m evaluates, .refl xs, rfl⟩

namespace Conserves

theorem refl (s : Answers κ α) (n : Nat) : Conserves force s n s n :=
  ⟨covers_of_imp (fun _ _ => id) n, covers_of_imp (fun _ _ => id) n⟩

theorem trans (first : Conserves force s n t k) (second : Conserves force t k u m) :
    Conserves force s n u m :=
  ⟨covers_trans first.onward second.onward, covers_trans second.back first.back⟩

theorem merging (left : Conserves force s n t k) (u : Answers κ α) :
    Conserves force (.merging s u) n (.merging t u) k :=
  ⟨covers_merging left.onward u, covers_merging left.back u⟩

theorem feeding (source : Conserves force s n t k) (g : α → Answers κ α ⊕ κ) :
    Conserves force (.feeding s g) n (.feeding t g) k :=
  ⟨covers_feeding source.onward g, covers_feeding source.back g⟩

theorem swap (s t : Answers κ α) (n : Nat) :
    Conserves force (.merging s t) n (.merging t s) n :=
  ⟨covers_swap s t n, covers_swap t s n⟩

theorem forced (code : κ) (n : Nat) :
    Conserves force (.suspended code) n (force code) (n + 1) := by
  constructor
  · intro xs m evaluates
    cases evaluates with
    | @suspended _ m _ later => exact ⟨xs, m, later, .refl xs, by omega⟩
  · intro xs m evaluates
    exact ⟨xs, m + 1, .suspended code evaluates, .refl xs, by omega⟩

theorem after_empty (t : Answers κ α) (n : Nat) : Conserves force (.merging .empty t) n t n := by
  refine ⟨covers_of_imp ?_ n, covers_of_imp ?_ n⟩
  · intro xs m evaluates
    cases evaluates with
    | merging left right =>
      cases left
      rwa [Nat.zero_add]
  · intro xs m evaluates
    have both := DepthFirst.merging .empty evaluates
    rwa [Nat.zero_add] at both

theorem before_empty (s : Answers κ α) (n : Nat) : Conserves force (.merging s .empty) n s n :=
  (swap s .empty n).trans (after_empty s n)

theorem answer_first (a : α) (s t : Answers κ α) (n : Nat) :
    Conserves force (.merging (.ready a s) t) n (.ready a (.merging t s)) n := by
  constructor
  · intro xs l evaluates
    cases evaluates with
    | merging left right =>
      cases left with
      | @ready _ ls i _ rest =>
        exact ⟨_, _, .ready a (.merging right rest), .cons a List.perm_append_comm, by omega⟩
  · intro xs l evaluates
    cases evaluates with
    | ready _ rest =>
      cases rest with
      | merging right left =>
        exact ⟨_, _, .merging (.ready a left) right, .cons a List.perm_append_comm, by omega⟩

theorem feed_nothing (g : α → Answers κ α ⊕ κ) (n : Nat) :
    Conserves force (.feeding .empty g) n .empty n := by
  refine ⟨covers_of_imp ?_ n, covers_of_imp ?_ n⟩
  · intro xs m evaluates
    cases evaluates with
    | feeding source =>
      cases source
      exact .empty
  · intro xs m evaluates
    cases evaluates
    exact .feeding .empty (fun _ => []) (fun _ => 0) fun x member => nomatch member

theorem feed_first (a : α) (s : Answers κ α) (g : α → Answers κ α ⊕ κ) (n : Nat) :
    Conserves force (.feeding (.ready a s) g) n
      (.merging (given force (g a)) (.feeding s g)) n := by
  refine ⟨covers_of_imp ?_ n, covers_of_imp ?_ n⟩
  · intro zs l evaluates
    obtain ⟨_, i, _, source, results, rfl⟩ := depthFirst_feeding_iff.mp evaluates
    cases source with
    | ready _ rest =>
      cases results with
      | @cons _ _ _ _ j m first later =>
        rw [Nat.add_left_comm]
        exact .merging first (depthFirst_feeding_iff.mpr ⟨_, i, m, rest, later, rfl⟩)
  · intro zs l evaluates
    cases evaluates with
    | merging first others =>
      obtain ⟨_, i, m, rest, later, rfl⟩ := depthFirst_feeding_iff.mp others
      rw [Nat.add_left_comm]
      exact depthFirst_feeding_iff.mpr ⟨_, i, _, .ready a rest, .cons first later, rfl⟩

theorem feed_last (a : α) (g : α → Answers κ α ⊕ κ) (n : Nat) :
    Conserves force (.feeding (.ready a .empty) g) n (given force (g a)) n := by
  have opened : Conserves force (.feeding (.ready a .empty) g) n
      (.merging (given force (g a)) (.feeding .empty g)) n := feed_first a .empty g n
  have swapped := opened.trans (swap (given force (g a)) (.feeding .empty g) n)
  have nothing := swapped.trans ((feed_nothing g n).merging (given force (g a)))
  exact nothing.trans (after_empty (given force (g a)) n)

theorem of_shows {h : Head κ α} (shows : Shows force s h) (n : Nat) :
    match h with
    | .empty => Conserves force s n .empty n
    | .ready a r => Conserves force s n (.ready a r) n
    | .suspended r => Conserves force s n r (n + 1) := by
  induction shows with
  | empty => exact refl .empty n
  | ready a rest => exact refl (.ready a rest) n
  | suspended code => exact forced code n
  | @mplus_empty s t h left right ihl ihr =>
    have opened : Conserves force (.merging s t) n t n := (merging ihl t).trans (after_empty t n)
    cases h with
    | empty => exact opened.trans ihr
    | ready a r => exact opened.trans ihr
    | suspended r => exact opened.trans ihr
  | @mplus_ready s t r a left ih => exact (merging ih t).trans (answer_first a r t n)
  | @mplus_suspended s t r left ih => exact (merging ih t).trans (swap r t (n + 1))
  | @bind_empty s g source ih => exact (feeding ih g).trans (feed_nothing g n)
  | @bind_ready s r g a h source results ihs ihr =>
    have opened : Conserves force (.feeding s g) n
        (.merging (given force (g a)) (.feeding r g)) n :=
      (feeding ihs g).trans (feed_first a r g n)
    cases h with
    | empty => exact opened.trans ihr
    | ready a r => exact opened.trans ihr
    | suspended r => exact opened.trans ihr
  | @bind_suspended s r g source ih => exact feeding ih g

end Conserves

theorem settles_of_depthFirst {xs : List α} (evaluates : DepthFirst force s xs n) :
    ∃ k, Settles force k s := by
  -- For a bind the answers before a suspension are among those that the evaluation of the source
  -- finds.
  induction evaluates with
  | empty => exact ⟨0, .ended .empty⟩
  | ready a rest ih =>
    obtain ⟨k, settles⟩ := ih
    exact ⟨k + 1, .answered (.ready a _) settles⟩
  | suspended code => exact ⟨0, .paused (.suspended code)⟩
  | merging left right ihl ihr =>
    obtain ⟨k, settlesLeft⟩ := ihl
    obtain ⟨l, settlesRight⟩ := ihr
    exact settles_merging settlesLeft settlesRight
  | @feeding s g xs n source answers forcings results ihs ihr =>
    obtain ⟨k, settles⟩ := ihs
    refine settles_feeding (P := fun s => ∃ ys m, DepthFirst force s ys m ∧ ys ⊆ xs) ?_
      ⟨xs, n, source, List.Subset.refl xs⟩ settles
    rintro s a r ⟨ys, m, evaluates, inside⟩ shows
    obtain ⟨zs, l, first, perm, -⟩ := (Conserves.of_shows shows 0).onward ys m evaluates
    cases first with
    | @ready _ zs _ _ rest =>
      have member : a ∈ xs := inside (perm.mem_iff.mpr List.mem_cons_self)
      refine ⟨⟨zs, l, rest, fun x later => inside ?_⟩, ihr a member⟩
      exact perm.mem_iff.mpr (List.mem_cons_of_mem a later)

theorem pulls_of_depthFirst {xs : List α} (evaluates : DepthFirst force s xs n) :
    ∃ found k t, Pulls force s found k t := by
  -- By induction on the forcings.
  induction n generalizing s xs with
  | zero =>
    obtain ⟨_, settles⟩ := settles_of_depthFirst evaluates
    obtain ⟨h, shows⟩ := shows_of_settles settles
    cases h with
    | empty => exact ⟨none, 0, .empty, .ended shows⟩
    | ready a r => exact ⟨some a, 0, r, .found shows⟩
    | suspended r =>
      obtain ⟨_, _, _, _, total⟩ := (Conserves.of_shows shows 0).onward xs 0 evaluates
      omega
  | succ n ih =>
    obtain ⟨_, settles⟩ := settles_of_depthFirst evaluates
    obtain ⟨h, shows⟩ := shows_of_settles settles
    cases h with
    | empty => exact ⟨none, 0, .empty, .ended shows⟩
    | ready a r => exact ⟨some a, 0, r, .found shows⟩
    | suspended r =>
      obtain ⟨ys, m, later, -, total⟩ := (Conserves.of_shows shows 0).onward xs (n + 1) evaluates
      obtain rfl : m = n := by omega
      obtain ⟨found, k, t, pulls⟩ := ih later
      exact ⟨found, k + 1, t, .forced shows pulls⟩

end RelationalSearch.Answers

import RelationalSearch.Program
import RelationalSearch.Proofs.Collecting
import RelationalSearch.Proofs.Rearrangement

/-!
Goals whose parts stand in another order or are grouped in another way. Evaluated depth first they
have the same answers but for the order, so running one of them to its end comes to an end if
running the other does, and the answers are a permutation. Most of these changes keep the number of
forcings too. Taking a disjunction out of what comes second in a conjunction does not: what comes
first is then run twice.
-/
namespace RelationalSearch.Program

open Answers

variable {p : Program} {g g' h h' k : Goal} {gs hs : List Goal}

/-- All answers of the goal, collected up to its end, and the forcings until then. -/
def RunsAll (p : Program) (g : Goal) (scope : Scope) (s : Subst) (answers : List Subst)
    (steps : Nat) : Prop :=
  ∃ last, (Search.ofAnswers (p.solve g scope s) .unbounded).Collects p.force answers last ∧
    last.steps = steps

/-- From every substitution both goals come to an end or none does, and then their answers are the
    same in some order. -/
structure SameAnswers (p : Program) (g h : Goal) : Prop where
  ends : ∀ scope s, (∃ xs n, p.RunsAll g scope s xs n) ↔ ∃ ys m, p.RunsAll h scope s ys m
  answers : ∀ scope s xs n ys m, p.RunsAll g scope s xs n → p.RunsAll h scope s ys m → xs.Perm ys

structure SameRuns (p : Program) (g h : Goal) : Prop extends p.SameAnswers g h where
  forcings : ∀ scope s xs n ys m, p.RunsAll g scope s xs n → p.RunsAll h scope s ys m → n = m

def Regroups (p : Program) (g h : Goal) : Prop :=
  ∀ scope s, Conserves p.force (p.solve g scope s) 0 (p.solve h scope s) 0

theorem runAll_of_runsAll {scope : Scope} {answers : List Subst} {steps : Nat}
    (runs : p.RunsAll g scope .empty answers steps) :
    ∃ turns, ∀ more, p.runAll (turns + more) g scope = answers := by
  obtain ⟨last, ⟨-, turns, collected⟩, -⟩ := runs
  exact ⟨turns, fun more => congrArg (·.1) (collected more)⟩

section DepthFirst

variable {scope : Scope} {s : Subst} {xs ys : List Subst} {n m i j : Nat}

theorem runsAll_of_depthFirst (evaluates : DepthFirst p.force (p.solve g scope s) xs n) :
    ∃ answers steps, p.RunsAll g scope s answers steps := by
  obtain ⟨answers, last, collects⟩ := Search.collects_of_depthFirst evaluates
  exact ⟨answers, last.steps, last, collects, rfl⟩

theorem depthFirst_of_runsAll (runs : p.RunsAll g scope s xs n) :
    ∃ ys, DepthFirst p.force (p.solve g scope s) ys n ∧ xs.Perm ys := by
  obtain ⟨last, collects, rfl⟩ := runs
  exact Search.depthFirst_of_collects collects

theorem runsAll_of_covers (covers : Covers p.force (p.solve g scope s) n (p.solve h scope s) m)
    (runs : p.RunsAll g scope s xs i) : ∃ answers steps, p.RunsAll h scope s answers steps := by
  obtain ⟨zs, evaluates, -⟩ := depthFirst_of_runsAll runs
  obtain ⟨_, _, evaluates', -, -⟩ := covers zs i evaluates
  exact runsAll_of_depthFirst evaluates'

theorem perm_of_covers (covers : Covers p.force (p.solve g scope s) n (p.solve h scope s) m)
    (first : p.RunsAll g scope s xs i) (second : p.RunsAll h scope s ys j) :
    xs.Perm ys ∧ n + i = m + j := by
  obtain ⟨zs, evaluates, perm⟩ := depthFirst_of_runsAll first
  obtain ⟨zs', evaluates', perm'⟩ := depthFirst_of_runsAll second
  obtain ⟨zs'', _, covered, permCovered, total⟩ := covers zs i evaluates
  obtain ⟨rfl, rfl⟩ := depthFirst_unique covered evaluates'
  exact ⟨(perm.trans permCovered).trans perm'.symm, total⟩

end DepthFirst

namespace Regroups

theorem refl (g : Goal) : p.Regroups g g :=
  fun scope s => .refl (p.solve g scope s) 0

theorem symm (regroups : p.Regroups g h) : p.Regroups h g :=
  fun scope s => (regroups scope s).symm

theorem trans (first : p.Regroups g h) (second : p.Regroups h k) : p.Regroups g k :=
  fun scope s => (first scope s).trans (second scope s)

theorem conserves_disj (g h : Goal) (scope : Scope) (s : Subst) (n : Nat) :
    Conserves p.force (p.solve (.disj g h) scope s) n
      (.merging (p.solve g scope s) (p.solve h scope s)) n :=
  .merge (p.solve g scope s) (p.solve h scope s) n

theorem conserves_conj (g h : Goal) (scope : Scope) (s : Subst) (n : Nat) :
    Conserves p.force (p.solve (.conj g h) scope s) n
      (.feeding (p.solve g scope s) fun m => .inr (.goal scope h m)) n :=
  .feed (p.solve g scope s) _ n

theorem conserves_disj_conj (g g' h h' : Goal) (scope : Scope) (s : Subst) (n : Nat) :
    Conserves p.force (p.solve (.disj (.conj g h) (.conj g' h')) scope s) n
      (.merging (.feeding (p.solve g scope s) fun m => .inr (.goal scope h m))
        (.feeding (p.solve g' scope s) fun m => .inr (.goal scope h' m))) n :=
  (conserves_disj (.conj g h) (.conj g' h') scope s n).trans
    (((conserves_conj g h scope s n).merging _).trans
      (.merging_right (conserves_conj g' h' scope s n) _))

theorem disj (left : p.Regroups g g') (right : p.Regroups h h') :
    p.Regroups (.disj g h) (.disj g' h') := by
  intro scope s
  have merged := ((left scope s).merging (p.solve h scope s)).trans
    (.merging_right (right scope s) (p.solve g' scope s))
  exact ((conserves_disj g h scope s 0).trans merged).trans (conserves_disj g' h' scope s 0).symm

theorem conj (first : p.Regroups g g') (second : p.Regroups h h') :
    p.Regroups (.conj g h) (.conj g' h') := by
  intro scope s
  have source := (first scope s).feeding fun m => .inr (.goal scope h m)
  have results : Conserves p.force (.feeding (p.solve g' scope s) fun m => .inr (.goal scope h m)) 0
      (.feeding (p.solve g' scope s) fun m => .inr (.goal scope h' m)) 0 :=
    .feeding_results (fun m => second scope m) (p.solve g' scope s) 0
  exact ((conserves_conj g h scope s 0).trans (source.trans results)).trans
    (conserves_conj g' h' scope s 0).symm

theorem disj_comm (g h : Goal) : p.Regroups (.disj g h) (.disj h g) :=
  fun scope s => ((conserves_disj g h scope s 0).trans (.swap _ _ 0)).trans
    (conserves_disj h g scope s 0).symm

theorem fail_disj (g : Goal) : p.Regroups (.disj .fail g) g :=
  fun scope s => (conserves_disj .fail g scope s 0).trans (.after_empty (p.solve g scope s) 0)

theorem disj_fail (g : Goal) : p.Regroups (.disj g .fail) g :=
  (disj_comm g .fail).trans (fail_disj g)

theorem disj_assoc (g h k : Goal) :
    p.Regroups (.disj (.disj g h) k) (.disj g (.disj h k)) := by
  intro scope s
  have left := (conserves_disj (p := p) (.disj g h) k scope s 0).trans
    ((conserves_disj g h scope s 0).merging (p.solve k scope s))
  have right := (conserves_disj (p := p) g (.disj h k) scope s 0).trans
    (.merging_right (conserves_disj h k scope s 0) (p.solve g scope s))
  exact (left.trans (.merging_assoc _ _ _ 0)).trans right.symm

theorem disj_left_comm (g h k : Goal) :
    p.Regroups (.disj g (.disj h k)) (.disj h (.disj g k)) :=
  ((disj_assoc g h k).symm.trans (disj (disj_comm g h) (refl k))).trans (disj_assoc h g k)

theorem succeed_conj (g : Goal) : p.Regroups (.conj .succeed g) g :=
  fun scope s => (conserves_conj .succeed g scope s 0).trans (.feed_last s _ 0)

theorem conj_succeed (g : Goal) : p.Regroups (.conj g .succeed) g :=
  fun scope s => (conserves_conj g .succeed scope s 0).trans
    (.handed_on (fun _ => rfl) (p.solve g scope s) 0)

theorem conj_assoc (g h k : Goal) :
    p.Regroups (.conj (.conj g h) k) (.conj g (.conj h k)) := by
  intro scope s
  let last : Subst → Solutions ⊕ Pending := fun m => .inr (.goal scope k m)
  let nested : Subst → Solutions ⊕ Pending := fun m => .inl (.feeding (p.solve h scope m) last)
  have left := (conserves_conj (p := p) (.conj g h) k scope s 0).trans
    ((conserves_conj g h scope s 0).feeding last)
  have right : Conserves p.force (p.solve (.conj g (.conj h k)) scope s) 0
      (.feeding (p.solve g scope s) nested) 0 :=
    (conserves_conj g (.conj h k) scope s 0).trans
      (.feeding_results (fun m => conserves_conj h k scope m 0) (p.solve g scope s) 0)
  exact (left.trans (.feeding_assoc (h := nested) (fun _ => rfl) (p.solve g scope s) 0)).trans
    right.symm

theorem disj_conj (g h k : Goal) :
    p.Regroups (.conj (.disj g h) k) (.disj (.conj g k) (.conj h k)) := by
  intro scope s
  let last : Subst → Solutions ⊕ Pending := fun m => .inr (.goal scope k m)
  have left := (conserves_conj (p := p) (.disj g h) k scope s 0).trans
    ((conserves_disj g h scope s 0).feeding last)
  have parted := left.trans (.feeding_merging _ _ last 0)
  exact parted.trans (conserves_disj_conj g h k k scope s 0).symm

theorem disjAll_cons (g : Goal) (gs : List Goal) :
    p.Regroups (.disjAll (g :: gs)) (.disj g (.disjAll gs)) := by
  cases gs with
  | nil => exact (disj_fail g).symm
  | cons h more => exact refl _

theorem conjAll_cons (g : Goal) (gs : List Goal) :
    p.Regroups (.conjAll (g :: gs)) (.conj g (.conjAll gs)) := by
  cases gs with
  | nil => exact (conj_succeed g).symm
  | cons h more => exact refl _

theorem disjAll_perm (perm : gs.Perm hs) : p.Regroups (.disjAll gs) (.disjAll hs) := by
  induction perm with
  | nil => exact refl _
  | cons g perm ih =>
    exact ((disjAll_cons g _).trans (disj (refl g) ih)).trans (disjAll_cons g _).symm
  | swap g h gs =>
    have opened (g h : Goal) :
        p.Regroups (.disjAll (g :: h :: gs)) (.disj g (.disj h (.disjAll gs))) :=
      (disjAll_cons g (h :: gs)).trans (disj (refl g) (disjAll_cons h gs))
    exact ((opened h g).trans (disj_left_comm h g _)).trans (opened g h).symm
  | trans first second ihFirst ihSecond => exact ihFirst.trans ihSecond

theorem disjAll_append (gs hs : List Goal) :
    p.Regroups (.disjAll (gs ++ hs)) (.disj (.disjAll gs) (.disjAll hs)) := by
  induction gs with
  | nil => exact (fail_disj (.disjAll hs)).symm
  | cons g gs ih =>
    have opened := (disjAll_cons (p := p) g (gs ++ hs)).trans (disj (refl g) ih)
    have grouped := opened.trans (disj_assoc g (.disjAll gs) (.disjAll hs)).symm
    exact grouped.trans (disj (disjAll_cons g gs).symm (refl _))

theorem conjAll_append (gs hs : List Goal) :
    p.Regroups (.conjAll (gs ++ hs)) (.conj (.conjAll gs) (.conjAll hs)) := by
  induction gs with
  | nil => exact (succeed_conj (.conjAll hs)).symm
  | cons g gs ih =>
    have opened := (conjAll_cons (p := p) g (gs ++ hs)).trans (conj (refl g) ih)
    have grouped := opened.trans (conj_assoc g (.conjAll gs) (.conjAll hs)).symm
    exact grouped.trans (conj (conjAll_cons g gs).symm (refl _))

theorem sameRuns (regroups : p.Regroups g h) : p.SameRuns g h where
  ends scope s :=
    ⟨fun ⟨_, _, runs⟩ => runsAll_of_covers (regroups scope s).onward runs,
      fun ⟨_, _, runs⟩ => runsAll_of_covers (regroups scope s).back runs⟩
  answers scope s _ _ _ _ first second :=
    (perm_of_covers (regroups scope s).onward first second).1
  forcings scope s _ _ _ _ first second := by
    have total := (perm_of_covers (regroups scope s).onward first second).2
    omega

end Regroups

section Repeated

variable {scope : Scope} {s : Subst} {xs ys : List Subst} {n m : Nat}

theorem first_of_conj (evaluates : DepthFirst p.force (p.solve (.conj g h) scope s) ys m) :
    ∃ xs n, DepthFirst p.force (p.solve g scope s) xs n := by
  obtain ⟨zs, l, opened, -, -⟩ := (Regroups.conserves_conj g h scope s 0).onward ys m evaluates
  obtain ⟨xs, n, _, first, -, -⟩ := depthFirst_feeding_iff.mp opened
  exact ⟨xs, n, first⟩

theorem first_of_conj_disj (runs : p.RunsAll (.conj k (.disj g h)) scope s ys m) :
    ∃ xs n, DepthFirst p.force (p.solve k scope s) xs n := by
  obtain ⟨zs, evaluates, -⟩ := depthFirst_of_runsAll runs
  exact first_of_conj evaluates

theorem first_of_disj_conj (runs : p.RunsAll (.disj (.conj k g) (.conj k h)) scope s ys m) :
    ∃ xs n, DepthFirst p.force (p.solve k scope s) xs n := by
  obtain ⟨zs, evaluates, -⟩ := depthFirst_of_runsAll runs
  obtain ⟨_, _, opened, -, -⟩ :=
    (Regroups.conserves_disj (.conj k g) (.conj k h) scope s 0).onward zs m evaluates
  obtain ⟨_, _, _, _, left, -, -, -⟩ := depthFirst_merging_iff.mp opened
  exact first_of_conj left

/-- The forcings of what comes first are done once on the left and twice on the right. -/
theorem conserves_conj_disj (first : DepthFirst p.force (p.solve k scope s) xs n) (g h : Goal) :
    Conserves p.force (p.solve (.conj k (.disj g h)) scope s) n
      (p.solve (.disj (.conj k g) (.conj k h)) scope s) 0 := by
  let both : Subst → Solutions ⊕ Pending := fun m => .inl
    (.merging (p.solve g scope m) (p.solve h scope m))
  let left : Subst → Solutions ⊕ Pending := fun m => .inr (.goal scope g m)
  let right : Subst → Solutions ⊕ Pending := fun m => .inr (.goal scope h m)
  have opened : Conserves p.force (p.solve (.conj k (.disj g h)) scope s) n
      (.feeding (p.solve k scope s) both) n :=
    (Regroups.conserves_conj k (.disj g h) scope s n).trans
      (.feeding_results (fun m => Regroups.conserves_disj g h scope m 0) (p.solve k scope s) n)
  have parted : Conserves p.force (.feeding (p.solve k scope s) both) n
      (.merging (.feeding (p.solve k scope s) left) (.feeding (p.solve k scope s) right)) 0 :=
    .merging_results (fun _ => rfl) first
  exact (opened.trans parted).trans (Regroups.conserves_disj_conj k k g h scope s 0).symm

theorem sameAnswers_conj_disj (k g h : Goal) :
    p.SameAnswers (.conj k (.disj g h)) (.disj (.conj k g) (.conj k h)) where
  ends scope s := by
    constructor
    · rintro ⟨ys, m, runs⟩
      obtain ⟨_, _, first⟩ := first_of_conj_disj runs
      exact runsAll_of_covers (conserves_conj_disj first g h).onward runs
    · rintro ⟨ys, m, runs⟩
      obtain ⟨_, _, first⟩ := first_of_disj_conj runs
      exact runsAll_of_covers (conserves_conj_disj first g h).back runs
  answers scope s xs n ys m left right := by
    obtain ⟨_, _, first⟩ := first_of_conj_disj left
    exact (perm_of_covers (conserves_conj_disj first g h).onward left right).1

theorem forcings_conj_disj (left : p.RunsAll (.conj k (.disj g h)) scope s xs n)
    (right : p.RunsAll (.disj (.conj k g) (.conj k h)) scope s ys m) :
    ∃ zs i, p.RunsAll k scope s zs i ∧ m = i + n := by
  obtain ⟨_, i, first⟩ := first_of_conj_disj left
  obtain ⟨zs, j, runs⟩ := runsAll_of_depthFirst first
  obtain ⟨_, evaluates, -⟩ := depthFirst_of_runsAll runs
  obtain ⟨-, rfl⟩ := depthFirst_unique first evaluates
  have total := (perm_of_covers (conserves_conj_disj first g h).onward left right).2
  exact ⟨zs, i, runs, by omega⟩

end Repeated

/-- Ways to regroup and reorder goals. -/
structure Regroupings (p : Program) : Prop where
  disjuncts_permuted : ∀ gs hs : List Goal, gs.Perm hs →
    p.SameRuns (.disjAll gs) (.disjAll hs)
  disjuncts_split : ∀ gs hs : List Goal,
    p.SameRuns (.disjAll (gs ++ hs)) (.disj (.disjAll gs) (.disjAll hs))
  conjuncts_split : ∀ gs hs : List Goal,
    p.SameRuns (.conjAll (gs ++ hs)) (.conj (.conjAll gs) (.conjAll hs))
  disj_first : ∀ g h k : Goal, p.SameRuns (.conj (.disj g h) k) (.disj (.conj g k) (.conj h k))
  disj_second : ∀ k g h : Goal,
    p.SameAnswers (.conj k (.disj g h)) (.disj (.conj k g) (.conj k h))
  /-- The goal that comes first is run to its end once more on the right. -/
  repeated : ∀ (k g h : Goal) scope s xs n ys m, p.RunsAll (.conj k (.disj g h)) scope s xs n →
    p.RunsAll (.disj (.conj k g) (.conj k h)) scope s ys m →
    ∃ zs i, p.RunsAll k scope s zs i ∧ m = i + n

/-- Regrouping and reordering goals keeps the answers of a run to the end, and wherever no goal is
    run more often than before it keeps the number of forcings. -/
theorem regrouped_goals_run_alike (p : Program) : p.Regroupings where
  disjuncts_permuted _ _ perm := (Regroups.disjAll_perm perm).sameRuns
  disjuncts_split gs hs := (Regroups.disjAll_append gs hs).sameRuns
  conjuncts_split gs hs := (Regroups.conjAll_append gs hs).sameRuns
  disj_first g h k := (Regroups.disj_conj g h k).sameRuns
  disj_second k g h := sameAnswers_conj_disj k g h
  repeated _ _ _ _ _ _ _ _ _ left right := forcings_conj_disj left right

end RelationalSearch.Program

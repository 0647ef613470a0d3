import RelationalSearch.Proofs.Solutions
import RelationalSearch.Proofs.Unifier

/-!
Numbers of variables along a derivation. A goal whose scope mentions only numbers that have been
handed out leads to substitutions of which the same is true, and the counter never goes back.
Nor does a derivation make a circle of links.
-/
namespace RelationalSearch

namespace Scope

def Below (bound : Nat) (scope : Scope) : Prop :=
  ∀ entry ∈ scope, entry.2.Below bound

theorem below_nil (bound : Nat) : Below bound [] :=
  fun _ member => nomatch member

theorem below_define {bound : Nat} {scope : Scope} {t : Term} (below : scope.Below bound)
    (name : String) (term : t.Below bound) : (scope.define name t).Below bound := by
  intro entry member
  rcases List.mem_cons.mp member with rfl | older
  · exact term
  · exact below entry older

theorem below_defineAll {bound : Nat} {scope : Scope} {ts : List Term}
    (below : scope.Below bound) (names : List String) (terms : ∀ t ∈ ts, t.Below bound) :
    (scope.defineAll names ts).Below bound := by
  induction names generalizing scope ts with
  | nil => exact below
  | cons name names ih =>
    cases ts with
    | nil => exact below
    | cons t ts =>
      apply ih (below_define below name (terms t List.mem_cons_self))
      intro u member
      exact terms u (List.mem_cons_of_mem _ member)

theorem below_mono {first second : Nat} (more : first ≤ second) {scope : Scope}
    (below : scope.Below first) : scope.Below second :=
  fun entry member => Term.below_mono more (below entry member)

theorem below_lookup {bound : Nat} {scope : Scope} (below : scope.Below bound) {name : String}
    {t : Term} (found : scope.lookup name = some t) : t.Below bound := by
  induction scope with
  | nil => cases found
  | cons entry scope ih =>
    obtain ⟨known, u⟩ := entry
    rw [List.lookup_cons] at found
    cases here : name == known with
    | true =>
      rw [here] at found
      cases found
      exact below _ List.mem_cons_self
    | false =>
      rw [here] at found
      exact ih (fun entry member => below entry (List.mem_cons_of_mem _ member)) found

end Scope

namespace Expr

variable {bound : Nat} {scope : Scope}

mutual

theorem eval_below (below : scope.Below bound) :
    ∀ (e : Expr) (t : Term), e.eval scope = some t → t.Below bound
  | .ref name, t, found => Scope.below_lookup below found
  | .atom a, t, found => by
    cases found
    exact Term.below_atom bound a
  | .seq es, t, found => by
    rw [eval, Option.map_eq_some_iff] at found
    obtain ⟨ts, items, rfl⟩ := found
    exact Term.below_seq (evalAll_below below es ts items)
  | .add e k, t, found => by
    rw [eval] at found
    split at found
    · cases found
      exact Term.below_atom bound _
    · cases found

theorem evalAll_below (below : scope.Below bound) :
    ∀ (es : List Expr) (ts : List Term), evalAll scope es = some ts → ∀ t ∈ ts, t.Below bound
  | [], ts, found => by
    cases found
    exact fun _ member => nomatch member
  | e :: es, ts, found => by
    rw [evalAll] at found
    split at found
    · next t rest first others =>
      cases found
      intro u member
      rcases List.mem_cons.mp member with rfl | later
      · exact eval_below below e u first
      · exact evalAll_below below es rest others u later
    · cases found

end

end Expr

namespace Subst

theorem nextId_freshAll (s : Subst) (names : List String) :
    (s.freshAll names).2.nextId = s.nextId + names.length := by
  induction names generalizing s with
  | nil => rfl
  | cons name names ih =>
    have rest := ih (s.fresh name).2
    change ((s.fresh name).2.freshAll names).2.nextId = s.nextId + (names.length + 1)
    rw [rest]
    change s.nextId + 1 + names.length = _
    omega

theorem freshAll_below (s : Subst) (names : List String) :
    ∀ x ∈ (s.freshAll names).1, x.id < (s.freshAll names).2.nextId := by
  induction names generalizing s with
  | nil => exact fun _ member => nomatch member
  | cons name names ih =>
    intro x member
    rcases List.mem_cons.mp member with rfl | later
    · rw [nextId_freshAll]
      change s.nextId < s.nextId + (names.length + 1)
      omega
    · exact ih (s.fresh name).2 x later

theorem scoped_freshAll {s : Subst} (inScope : s.Scoped) (names : List String) :
    (s.freshAll names).2.Scoped := by
  intro x t bound
  rw [get?_freshAll] at bound
  obtain ⟨small, below⟩ := inScope x t bound
  have more : s.nextId ≤ (s.freshAll names).2.nextId := by
    rw [nextId_freshAll]
    omega
  exact ⟨Nat.lt_of_lt_of_le small more, Term.below_mono more below⟩

theorem noLoops_freshAll {s : Subst} (noLoops : s.NoLoops) (names : List String) :
    (s.freshAll names).2.NoLoops := by
  have same : (s.freshAll names).2.Links = s.Links := by
    funext first second
    simp only [Links, get?_freshAll]
  rw [NoLoops, same]
  exact noLoops

theorem scope_freshAll {s : Subst} {scope : Scope} (below : scope.Below s.nextId)
    (names : List String) :
    (scope.defineAll names ((s.freshAll names).1.map .var)).Below (s.freshAll names).2.nextId := by
  have more : s.nextId ≤ (s.freshAll names).2.nextId := by
    rw [nextId_freshAll]
    omega
  apply Scope.below_defineAll (Scope.below_mono more below)
  intro t member
  obtain ⟨x, among, rfl⟩ := List.mem_map.mp member
  exact Term.below_var (freshAll_below s names x among)

end Subst

variable {p : Program} {g : Goal} {scope : Scope} {s s' : Subst}

theorem scoped_of_solution (solution : Solution p g scope s s') (below : scope.Below s.nextId)
    (inScope : s.Scoped) : s'.Scoped ∧ s.nextId ≤ s'.nextId := by
  induction solution with
  | succeed scope s => exact ⟨inScope, Nat.le_refl _⟩
  | always scope s => exact ⟨inScope, Nat.le_refl _⟩
  | eq left right solved =>
    obtain ⟨after, counter⟩ := Subst.scoped_of_unify inScope (Expr.eval_below below _ _ left)
      (Expr.eval_below below _ _ right) solved
    exact ⟨after, Nat.le_of_eq counter.symm⟩
  | conj first second ihFirst ihSecond =>
    obtain ⟨between, more⟩ := ihFirst below inScope
    obtain ⟨after, most⟩ := ihSecond (Scope.below_mono more below) between
    exact ⟨after, Nat.le_trans more most⟩
  | disj_left h inside ih => exact ih below inScope
  | disj_right g inside ih => exact ih below inScope
  | @fresh scope names body s s' inside ih =>
    obtain ⟨after, more⟩ :=
      ih (Subst.scope_freshAll below names) (Subst.scoped_freshAll inScope names)
    rw [Subst.nextId_freshAll] at more
    exact ⟨after, by omega⟩
  | defer inside ih => exact ih below inScope
  | @call scope name args ts r s s' arguments known inside ih =>
    have terms := Expr.evalAll_below below args ts arguments
    exact ih (Scope.below_defineAll (Scope.below_nil _) r.params terms) inScope
  | if_zero h value inside ih => exact ih below inScope
  | if_other g value other inside ih => exact ih below inScope
  | copies scope s some => exact ⟨inScope, Nat.le_refl _⟩

theorem noLoops_of_solution (solution : Solution p g scope s s') (noLoops : s.NoLoops) :
    s'.NoLoops := by
  induction solution with
  | succeed | always | copies => exact noLoops
  | eq left right solved => exact Subst.noLoops_of_unify noLoops solved
  | conj first second ihFirst ihSecond => exact ihSecond (ihFirst noLoops)
  | fresh inside ih => exact ih (Subst.noLoops_freshAll noLoops _)
  | disj_left _ _ ih | disj_right _ _ ih | defer _ ih | call _ _ _ ih | if_zero _ _ _ ih
  | if_other _ _ _ _ ih => exact ih noLoops

end RelationalSearch

import RelationalSearch.Proofs.Resolution

/-!
Unification beside the unifier of the textbook, which looks for a variable in what it is to be
bound to. Both walk the same terms, choose the same bindings and take the items of sequences in
the same order. From a substitution without circles the checked unifier always comes to an end,
and where it does not stop at an occurrence unification comes to the same result. Where it does,
no valuation makes the terms equal, so whatever unification returns there is circular.
-/
namespace RelationalSearch

inductive Checked where
  | solved (s : Subst)
  | clash
  | occurs

def Checked.unchecked? : Checked → Option Unification
  | .solved s => some (.solved s)
  | .clash => some .clash
  | .occurs => none

namespace Subst

variable {s s' m : Subst} {u v a b t : Term} {x : Var} {pairs : List (Term × Term)}
  {outcome : Checked} {θ : Valuation} {nodes : List Term}

/-- The checked unifier on a list of pairs, from left to right; a pair of sequences is replaced by
    the pairs of their items. -/
inductive Checks : Subst → List (Term × Term) → Checked → Prop where
  | done (s : Subst) : Checks s [] (.solved s)
  | keep {s : Subst} {u v a b : Term} {pairs : List (Term × Term)} {outcome : Checked}
      (left : s.walk u = some a) (right : s.walk v = some b) (decided : decision a b = .keep)
      (later : Checks s pairs outcome) : Checks s ((u, v) :: pairs) outcome
  | bind {s m : Subst} {u v a b t r : Term} {x : Var} {pairs : List (Term × Term)}
      {outcome : Checked} (left : s.walk u = some a) (right : s.walk v = some b)
      (decided : decision a b = .bind x t) (resolved : s.resolve t = some r)
      (absent : ¬ r.Mentions x.id) (extended : s.extend x t = .ok m)
      (later : Checks m pairs outcome) : Checks s ((u, v) :: pairs) outcome
  | occurs {s : Subst} {u v a b t r : Term} {x : Var} {pairs : List (Term × Term)}
      (left : s.walk u = some a) (right : s.walk v = some b)
      (decided : decision a b = .bind x t) (resolved : s.resolve t = some r)
      (present : r.Mentions x.id) : Checks s ((u, v) :: pairs) .occurs
  | descend {s : Subst} {u v a b : Term} {us vs : List Term} {pairs : List (Term × Term)}
      {outcome : Checked} (left : s.walk u = some a) (right : s.walk v = some b)
      (decided : decision a b = .descend us vs)
      (later : Checks s (us.zip vs ++ pairs) outcome) : Checks s ((u, v) :: pairs) outcome
  | clash {s : Subst} {u v a b : Term} {pairs : List (Term × Term)}
      (left : s.walk u = some a) (right : s.walk v = some b)
      (decided : decision a b = .clash) : Checks s ((u, v) :: pairs) .clash

theorem checks_cons (checks : Checks s ((u, v) :: pairs) outcome) (left : s.walk u = some a)
    (right : s.walk v = some b) :
    match decision a b with
    | .keep => Checks s pairs outcome
    | .bind x t => ∃ r, s.resolve t = some r ∧
        (r.Mentions x.id ∧ outcome = .occurs ∨
          ¬ r.Mentions x.id ∧ ∃ m, s.extend x t = .ok m ∧ Checks m pairs outcome)
    | .descend us vs => Checks s (us.zip vs ++ pairs) outcome
    | .clash => outcome = .clash := by
  cases checks with
  | keep left' right' decided later =>
    cases left.symm.trans left'
    cases right.symm.trans right'
    rw [decided]
    exact later
  | bind left' right' decided resolved absent extended later =>
    cases left.symm.trans left'
    cases right.symm.trans right'
    rw [decided]
    exact ⟨_, resolved, .inr ⟨absent, _, extended, later⟩⟩
  | occurs left' right' decided resolved present =>
    cases left.symm.trans left'
    cases right.symm.trans right'
    rw [decided]
    exact ⟨_, resolved, .inl ⟨present, rfl⟩⟩
  | descend left' right' decided later =>
    cases left.symm.trans left'
    cases right.symm.trans right'
    rw [decided]
    exact later
  | clash left' right' decided =>
    cases left.symm.trans left'
    cases right.symm.trans right'
    rw [decided]

theorem checks_unique {other : Checked} (first : Checks s pairs outcome)
    (second : Checks s pairs other) : outcome = other := by
  induction first with
  | done s => cases second; rfl
  | keep left right decided later ih =>
    have more := checks_cons second left right
    rw [decided] at more
    exact ih more
  | bind left right decided resolved absent extended later ih =>
    have more := checks_cons second left right
    rw [decided] at more
    obtain ⟨r, resolved', choice⟩ := more
    cases resolved.symm.trans resolved'
    rcases choice with ⟨present, -⟩ | ⟨-, m, extended', rest⟩
    · exact absurd present absent
    · rw [extended] at extended'
      cases extended'
      exact ih rest
  | occurs left right decided resolved present =>
    have more := checks_cons second left right
    rw [decided] at more
    obtain ⟨r, resolved', choice⟩ := more
    cases resolved.symm.trans resolved'
    rcases choice with ⟨-, same⟩ | ⟨absent, -⟩
    · exact same.symm
    · exact absurd present absent
  | descend left right decided later ih =>
    have more := checks_cons second left right
    rw [decided] at more
    exact ih more
  | clash left right decided =>
    have more := checks_cons second left right
    rw [decided] at more
    exact more.symm

theorem unifyAll_cons (s : Subst) (u v : Term) (pairs : List (Term × Term)) :
    s.unifyAll ((u, v) :: pairs) =
      match s.unify u v with
      | .solved m => m.unifyAll pairs
      | other => other := rfl

theorem unifyAll_append (s : Subst) (first later : List (Term × Term)) :
    s.unifyAll (first ++ later) =
      match s.unifyAll first with
      | .solved m => m.unifyAll later
      | other => other := by
  induction first generalizing s with
  | nil => rfl
  | cons pair first ih =>
    obtain ⟨u, v⟩ := pair
    rw [List.cons_append, unifyAll_cons, unifyAll_cons]
    cases s.unify u v with
    | solved m => exact ih m
    | clash | endless => rfl

theorem unifyAll_single (s : Subst) (u v : Term) : s.unifyAll [(u, v)] = s.unify u v := by
  rw [unifyAll_cons]
  cases s.unify u v <;> rfl

theorem unifyAll_of_checks {result : Unification} (checks : Checks s pairs outcome)
    (same : outcome.unchecked? = some result) : s.unifyAll pairs = result := by
  induction checks with
  | done s =>
    cases same
    rfl
  | keep left right decided later ih =>
    rw [unifyAll_cons, unify_walked left right, decided]
    exact ih same
  | bind left right decided resolved absent extended later ih =>
    rw [unifyAll_cons, unify_walked left right, decided, outcome_bind extended]
    exact ih same
  | occurs => cases same
  | descend left right decided later ih =>
    rw [unifyAll_cons, unify_walked left right, decided, ← ih same, unifyAll_append]
    rfl
  | clash left right decided =>
    cases same
    rw [unifyAll_cons, unify_walked left right, decided]
    rfl

theorem not_circular_bind {r : Term} (acyclic : ¬ s.Circular) (resolved : s.resolve t = some r)
    (absent : ¬ r.Mentions x.id) (extended : s.extend x t = .ok m) : ¬ m.Circular := by
  refine not_circular_extend extended acyclic fun id mentions path => absent ?_
  exact mentions_of_leads (extend_eq_ok extended).1 resolved ⟨id, mentions, path⟩

theorem not_circular_of_checks (acyclic : ¬ s.Circular) (checks : Checks s pairs outcome)
    (solved : outcome = .solved s') : ¬ s'.Circular := by
  induction checks with
  | done s =>
    cases solved
    exact acyclic
  | keep left right decided later ih => exact ih acyclic solved
  | bind left right decided resolved absent extended later ih =>
    exact ih (not_circular_bind acyclic resolved absent extended) solved
  | descend left right decided later ih => exact ih acyclic solved
  | occurs | clash => cases solved

theorem value_of_bind (decided : decision a b = .bind x t) (equal : a.value θ = b.value θ) :
    θ x.id = t.value θ := by
  have rule := decides a b
  rw [decided] at rule
  cases rule with
  | bind_left other => exact equal
  | bind_right bare => exact equal.symm

theorem size_lt_of_occurs {r : Term} (decided : decision a b = .bind x t)
    (left : s.follow? a = none) (right : s.follow? b = none) (resolved : s.resolve t = some r)
    (present : r.Mentions x.id) : (θ x.id).size < (r.value θ).size := by
  have rule := decides a b
  rw [decided] at rule
  have apart : ∀ y, t = .var y → y.id ≠ x.id := by
    cases rule with
    | bind_left other => exact other
    | bind_right bare => exact fun y target => absurd target (bare y)
  have stuck : s.follow? t = none := by
    cases rule with
    | bind_left other => exact right
    | bind_right bare => exact left
  have walked : s.walk t = some t := walkWithin_of_follow_none stuck s.size
  cases t with
  | var y =>
    rw [resolve_other walked nofun] at resolved
    cases resolved
    cases present with
    | var same => exact absurd same (apart y rfl)
  | atom c =>
    rw [resolve_other walked nofun] at resolved
    cases resolved
    cases present
  | seq ts =>
    obtain ⟨rs, rfl⟩ := resolve_seq walked resolved
    exact Term.size_lt_of_mentions present

/-- Where the checked unifier stops at an occurrence, no solution satisfies all pairs. -/
theorem not_equal_of_occurs (checks : Checks s pairs outcome) (occurs : outcome = .occurs)
    (solves : Solves θ s) : ¬ ∀ pair ∈ pairs, pair.1.value θ = pair.2.value θ := by
  induction checks with
  | done => cases occurs
  | keep left right decided later ih =>
    exact fun equal => ih occurs solves fun pair member =>
      equal pair (List.mem_cons_of_mem _ member)
  | @bind s m u v a b t r x pairs outcome left right decided resolved absent extended later ih =>
    intro equal
    have solved : s.unify u v = .solved m := by
      rw [unify_walked left right, decided, outcome_bind extended]
    have after := (solves_of_unify solved θ).mpr ⟨solves, equal (u, v) List.mem_cons_self⟩
    exact ih occurs after fun pair member => equal pair (List.mem_cons_of_mem _ member)
  | @occurs s u v a b t r x pairs left right decided resolved present =>
    intro equal
    have walked : a.value θ = b.value θ := by
      rw [walk_value solves left, walk_value solves right]
      exact equal (u, v) List.mem_cons_self
    have less := size_lt_of_occurs (θ := θ) decided (walk_stuck left) (walk_stuck right) resolved
      present
    rw [value_resolve solves resolved, value_of_bind decided walked] at less
    exact Nat.lt_irrefl _ less
  | @descend s u v a b us vs pairs outcome left right decided later ih =>
    intro equal
    have walked : a.value θ = b.value θ := by
      rw [walk_value solves left, walk_value solves right]
      exact equal (u, v) List.mem_cons_self
    have rule := decides a b
    rw [decided] at rule
    cases rule with
    | items same =>
      rw [Term.value, Term.value, Ground.seq.injEq, Term.values_eq_map, Term.values_eq_map]
        at walked
      refine ih occurs solves fun pair member => ?_
      rcases List.mem_append.mp member with inside | later
      · exact value_eq_of_mem_zip walked inside
      · exact equal pair (List.mem_cons_of_mem _ later)
  | clash => cases occurs

section Ending

def pairsSize (θ : Valuation) : List (Term × Term) → Nat
  | [] => 0
  | (u, _) :: pairs => (u.value θ).size + pairsSize θ pairs

theorem pairsSize_append (θ : Valuation) (first second : List (Term × Term)) :
    pairsSize θ (first ++ second) = pairsSize θ first + pairsSize θ second := by
  induction first with
  | nil => exact (Nat.zero_add _).symm
  | cons pair first ih =>
    rw [List.cons_append, pairsSize, pairsSize, ih]
    omega

theorem pairsSize_zip_le (θ : Valuation) (us vs : List Term) :
    pairsSize θ (us.zip vs) ≤ Ground.sizeItems (Term.values θ us) := by
  induction us generalizing vs with
  | nil => exact Nat.le_refl 0
  | cons u us ih =>
    cases vs with
    | nil => exact Nat.zero_le _
    | cons v vs => exact Nat.add_le_add_left (ih vs) _

theorem pairsSize_descend {us vs : List Term} (decided : decision a b = .descend us vs)
    (same : a.value θ = u.value θ) (v : Term) (pairs : List (Term × Term)) :
    pairsSize θ (us.zip vs ++ pairs) < pairsSize θ ((u, v) :: pairs) := by
  have rule := decides a b
  rw [decided] at rule
  cases rule with
  | items =>
    have few := pairsSize_zip_le θ us vs
    have whole : (u.value θ).size = Ground.sizeItems (Term.values θ us) + 1 := by
      rw [← same, Term.value, Ground.size]
    rw [pairsSize_append, pairsSize]
    omega

theorem exists_checks_within (items : ∀ ts, .seq ts ∈ nodes → ∀ t ∈ ts, t ∈ nodes)
    (acyclic : ¬ s.Circular) (binds : Binds (· ∈ nodes) s) (solves : Solves θ s)
    (fewer : ∀ m pairs, freePlaces nodes m < freePlaces nodes s → ¬ m.Circular →
      Binds (· ∈ nodes) m → (∀ pair ∈ pairs, pair.1 ∈ nodes ∧ pair.2 ∈ nodes) →
      ∃ outcome, Checks m pairs outcome)
    (inside : ∀ pair ∈ pairs, pair.1 ∈ nodes ∧ pair.2 ∈ nodes) :
    ∃ outcome, Checks s pairs outcome := by
  -- Where no place that was free has been taken, the pairs get smaller.
  induction total : pairsSize θ pairs using Nat.strongRecOn generalizing pairs with
  | ind total ih =>
    subst total
    cases pairs with
    | nil => exact ⟨_, .done s⟩
    | cons pair pairs =>
      obtain ⟨u, v⟩ := pair
      have first := inside (u, v) List.mem_cons_self
      have others : ∀ pair ∈ pairs, pair.1 ∈ nodes ∧ pair.2 ∈ nodes :=
        fun pair member => inside pair (List.mem_cons_of_mem _ member)
      obtain ⟨a, left⟩ := walk_isSome (noLoops_of_not_circular acyclic) u
      obtain ⟨b, right⟩ := walk_isSome (noLoops_of_not_circular acyclic) v
      have follows := follows_of_binds binds
      have goodLeft := walk_good follows left first.1
      have goodRight := walk_good follows right first.2
      cases decided : decision a b with
      | keep =>
        have less : pairsSize θ pairs < pairsSize θ ((u, v) :: pairs) := by
          have some := Ground.size_pos (u.value θ)
          rw [pairsSize]
          omega
        obtain ⟨outcome, later⟩ := ih _ less others rfl
        exact ⟨outcome, .keep left right decided later⟩
      | bind x t =>
        obtain ⟨r, resolved⟩ := resolve_isSome acyclic t
        by_cases present : r.Mentions x.id
        · exact ⟨.occurs, .occurs left right decided resolved present⟩
        · obtain ⟨m, extended⟩ := extend_of_decision decided (walk_stuck left) (walk_stuck right)
          have solved : (decision a b).outcome (unifyWithin 0) s = .solved m := by
            rw [decided, outcome_bind extended]
          have grows := grows_outcome items (grows_unifyWithin items 0) follows (walk_stuck left)
            (walk_stuck right) goodLeft goodRight solved
          have few := freePlaces_of_grows grows
          have size := size_of_extend extended
          obtain ⟨outcome, later⟩ := fewer m pairs (by omega)
            (not_circular_bind acyclic resolved present extended) (binds_of_grows grows binds)
            others
          exact ⟨outcome, .bind left right decided resolved present extended later⟩
      | descend us vs =>
        have goods : ∀ pair ∈ us.zip vs, pair.1 ∈ nodes ∧ pair.2 ∈ nodes := by
          have rule := decides a b
          rw [decided] at rule
          cases rule with
          | items same => exact zip_good items goodLeft goodRight
        have less := pairsSize_descend decided (walk_value solves left) v pairs
        obtain ⟨outcome, later⟩ := ih _ less
          (fun pair member => (List.mem_append.mp member).elim (goods pair) (others pair)) rfl
        exact ⟨outcome, .descend left right decided later⟩
      | clash => exact ⟨.clash, .clash left right decided⟩

theorem exists_checks (items : ∀ ts, .seq ts ∈ nodes → ∀ t ∈ ts, t ∈ nodes)
    (acyclic : ¬ s.Circular) (binds : Binds (· ∈ nodes) s)
    (inside : ∀ pair ∈ pairs, pair.1 ∈ nodes ∧ pair.2 ∈ nodes) :
    ∃ outcome, Checks s pairs outcome := by
  induction free : freePlaces nodes s using Nat.strongRecOn generalizing s pairs with
  | ind free ih =>
    obtain ⟨θ, solves, -⟩ := exists_solution acyclic fun _ => .atom .unit
    refine exists_checks_within items acyclic binds solves ?_ inside
    exact fun m pairs less acyclic binds inside => ih _ (free ▸ less) acyclic binds inside rfl

end Ending

/-- From a substitution without circles the checked unifier comes to exactly one outcome, and
    unification comes to the same unless that is an occurrence; then it returns no substitution
    without circles. -/
theorem unify_beside_checked (s : Subst) (acyclic : ¬ s.Circular) (u v : Term) :
    (∃! outcome, Checks s [(u, v)] outcome) ∧
      (∀ s', Checks s [(u, v)] (.solved s') → s.unify u v = .solved s' ∧ ¬ s'.Circular) ∧
      (Checks s [(u, v)] .clash → s.unify u v = .clash) ∧
      (Checks s [(u, v)] .occurs → ∀ s', s.unify u v = .solved s' → s'.Circular) := by
  have inside := inside_unifyNodes s u v
  refine ⟨?_, ?_, ?_, ?_⟩
  · have start : ∀ pair ∈ [(u, v)], pair.1 ∈ unifyNodes s u v ∧ pair.2 ∈ unifyNodes s u v := by
      intro pair member
      cases List.mem_singleton.mp member
      exact ⟨inside.left, inside.right⟩
    obtain ⟨outcome, checks⟩ := exists_checks (unifyNodes_items s u v) acyclic inside.binds start
    exact ⟨outcome, checks, fun other second => checks_unique second checks⟩
  · intro s' checks
    rw [← unifyAll_single]
    exact ⟨unifyAll_of_checks checks rfl, not_circular_of_checks acyclic checks rfl⟩
  · intro checks
    rw [← unifyAll_single]
    exact unifyAll_of_checks checks rfl
  · intro checks s' solved
    by_contra acyclic'
    obtain ⟨θ, solves, -⟩ := exists_solution acyclic' fun _ => .atom .unit
    obtain ⟨before, equal⟩ := (solves_of_unify solved θ).mp solves
    refine not_equal_of_occurs checks rfl before fun pair member => ?_
    cases List.mem_singleton.mp member
    exact equal

def cell : Subst :=
  ⟨(∅ : Std.ExtTreeMap Nat Binding).insert 0 ⟨"a", .seq [.var ⟨1, "b"⟩]⟩, 2⟩

theorem extend_cell :
    (⟨∅, 2⟩ : Subst).extend ⟨0, "a"⟩ (.seq [.var ⟨1, "b"⟩]) = .ok cell := by
  simp [extend, get?, cell]

theorem cell_beside_checked :
    ¬ cell.Circular ∧ Checks cell [(.var ⟨1, "b"⟩, .var ⟨0, "a"⟩)] .occurs ∧
      ∃ s', cell.unify (.var ⟨1, "b"⟩) (.var ⟨0, "a"⟩) = .solved s' ∧ s'.Circular := by
  have acyclic : ¬ cell.Circular := by
    have free (x : Var) : (⟨∅, 2⟩ : Subst).get? x = none := by simp [get?]
    refine not_circular_extend extend_cell (not_circular_of_free free) ?_
    rintro id (_ | ⟨member, inside⟩) path
    cases List.mem_singleton.mp member
    cases inside with
    | var same =>
      subst same
      rcases path.cases_head with same | ⟨_, depends, -⟩
      · cases same
      · exact not_depends_of_free (free ⟨1, "b"⟩) _ depends
  have occurs : Checks cell [(.var ⟨1, "b"⟩, .var ⟨0, "a"⟩)] .occurs :=
    .occurs (a := .var ⟨1, "b"⟩) (b := .seq [.var ⟨1, "b"⟩]) (r := .seq [.var ⟨1, "b"⟩])
      rfl rfl rfl rfl (.seq List.mem_cons_self (.var rfl))
  obtain ⟨-, -, -, onOccurs⟩ :=
    unify_beside_checked cell acyclic (.var ⟨1, "b"⟩) (.var ⟨0, "a"⟩)
  have solved : cell.unify (.var ⟨1, "b"⟩) (.var ⟨0, "a"⟩) =
      .solved { cell with entries := cell.entries.insert 1 ⟨"b", .seq [.var ⟨1, "b"⟩]⟩ } := rfl
  exact ⟨acyclic, occurs, _, solved, onOccurs occurs _ solved⟩

end Subst

end RelationalSearch

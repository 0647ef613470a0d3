import Mathlib.Data.List.Nodup
import RelationalSearch.Proofs.OccursCheck

/-!
Systems of equations in another order, or with sides exchanged. What a system comes to is fixed by
its solutions. Where one order comes to a result that has a solution, so one without circles, every
other order does. Two results without circles that have the same solutions leave the
same number of variables free: the one takes each free variable of the other to a free variable of
its own, and no two to the same.
-/
namespace RelationalSearch

namespace Term

theorem exists_below_all {ts : List Term} (each : ∀ t ∈ ts, ∃ bound, t.Below bound) :
    ∃ bound, ∀ t ∈ ts, t.Below bound := by
  induction ts with
  | nil => exact ⟨0, fun _ member => nomatch member⟩
  | cons t ts ih =>
    obtain ⟨first, below⟩ := each t List.mem_cons_self
    obtain ⟨rest, others⟩ := ih fun u member => each u (List.mem_cons_of_mem _ member)
    refine ⟨max first rest, fun u member => ?_⟩
    rcases List.mem_cons.mp member with rfl | later
    · exact below_mono (Nat.le_max_left _ _) below
    · exact below_mono (Nat.le_max_right _ _) (others u later)

theorem exists_below (t : Term) : ∃ bound, t.Below bound := by
  induction t using items_induction with
  | var x => exact ⟨x.id + 1, below_var (Nat.lt_succ_self _)⟩
  | atom a => exact ⟨0, below_atom 0 a⟩
  | seq ts ih =>
    obtain ⟨bound, below⟩ := exists_below_all ih
    exact ⟨bound, below_seq below⟩

end Term

namespace Subst

variable {s m s' : Subst} {θ : Valuation} {t r : Term} {pairs others : List (Term × Term)}
  {bound : Nat}

section Systems

def Equalizes (θ : Valuation) (pairs : List (Term × Term)) : Prop :=
  ∀ pair ∈ pairs, pair.1.value θ = pair.2.value θ

theorem equalizes_cons {u v : Term} :
    Equalizes θ ((u, v) :: pairs) ↔ u.value θ = v.value θ ∧ Equalizes θ pairs :=
  List.forall_mem_cons

theorem agrees_unifyAll (θ : Valuation) (s : Subst) (pairs : List (Term × Term)) :
    Agrees θ s (Equalizes θ pairs) (s.unifyAll pairs) := by
  induction pairs generalizing s with
  | nil =>
    have nothing : Equalizes θ [] := fun _ member => nomatch member
    exact ⟨fun solves => ⟨solves, nothing⟩, And.left⟩
  | cons pair pairs ih =>
    obtain ⟨u, v⟩ := pair
    have first := agrees_unify θ s u v
    rw [unifyAll_cons]
    refine agrees_congr (fun _ => equalizes_cons.symm) ?_
    cases step : s.unify u v with
    | solved m =>
      rw [step] at first
      exact agrees_chain first (ih m)
    | clash =>
      rw [step] at first
      exact fun solves => first ⟨solves.1, solves.2.1⟩
    | endless => trivial

theorem solves_of_unifyAll (solved : s.unifyAll pairs = .solved s') :
    Solves θ s' ↔ Solves θ s ∧ Equalizes θ pairs := by
  have agrees := agrees_unifyAll θ s pairs
  rw [solved] at agrees
  exact agrees

theorem grows_unifyAll (solved : s.unifyAll pairs = .solved s') :
    Grows (fun _ => True) s s' :=
  grows_unifyAllBy (fun _ _ _ _ _ _ _ => grows_of_unify) (fun _ _ => ⟨trivial, trivial⟩)
    (fun _ _ _ _ => trivial) solved

theorem unifyAll_solved (noLoops : s.NoLoops) (solves : Solves θ s)
    (equal : Equalizes θ pairs) : ∃ s', s.unifyAll pairs = .solved s' := by
  have ends : ∀ pair ∈ pairs, ∀ m, m.NoLoops ∧ Solves θ m →
      ∃ m', m.unify pair.1 pair.2 = .solved m' ∧ m'.NoLoops ∧ Solves θ m' := by
    rintro pair member m ⟨noLoops, solves⟩
    obtain ⟨m', solved, after⟩ := unify_solved noLoops solves (equal pair member)
    exact ⟨m', solved, noLoops_of_unify noLoops solved, after⟩
  obtain ⟨s', solved, -⟩ : ∃ s', s.unifyAll pairs = .solved s' ∧ s'.NoLoops ∧ Solves θ s' :=
    unifyAllBy_ends ends ⟨noLoops, solves⟩
  exact ⟨s', solved⟩

/-- The same equations in another order, each with its sides as they are or exchanged. -/
def Reordered (pairs others : List (Term × Term)) : Prop :=
  ∃ turned, List.Forall₂ (fun first second => second = first ∨ second = first.swap) pairs turned ∧
    turned.Perm others

theorem equalizes_of_reordered (reordered : Reordered pairs others) :
    Equalizes θ pairs ↔ Equalizes θ others := by
  obtain ⟨turned, sides, perm⟩ := reordered
  have order : Equalizes θ turned ↔ Equalizes θ others := by
    simp only [Equalizes, perm.mem_iff]
  refine Iff.trans ?_ order
  clear perm order
  induction sides with
  | nil => exact Iff.rfl
  | @cons first second pairs turned side _ ih =>
    obtain ⟨u, v⟩ := first
    have rest := and_congr_right' (a := u.value θ = v.value θ) ih
    rcases side with rfl | rfl
    · exact equalizes_cons.trans (rest.trans equalizes_cons.symm)
    · rw [Prod.swap_prod_mk, equalizes_cons, equalizes_cons, rest, eq_comm]

end Systems

section Counting

def Within (s : Subst) (bound : Nat) : Prop :=
  ∀ x t, s.get? x = some t → x.id < bound ∧ t.Below bound

theorem exists_within (s : Subst) : ∃ bound, s.Within bound := by
  obtain ⟨bound, below⟩ :
      ∃ bound, ∀ t ∈ s.bindings.flatMap fun b => [.var b.1, b.2], t.Below bound :=
    Term.exists_below_all fun t _ => t.exists_below
  refine ⟨bound, fun x t known => ?_⟩
  obtain ⟨name, listed⟩ := mem_bindings_of_get? known
  have both : ∀ u ∈ [Term.var ⟨x.id, name⟩, t], u.Below bound :=
    fun u member => below u (List.mem_flatMap.mpr ⟨_, listed, member⟩)
  exact ⟨both _ List.mem_cons_self x.id (.var rfl),
    both _ (List.mem_cons_of_mem _ List.mem_cons_self)⟩

theorem within_mono {more : Nat} (within : s.Within bound) (le : bound ≤ more) :
    s.Within more := fun x t known =>
  ⟨Nat.lt_of_lt_of_le (within x t known).1 le, Term.below_mono le (within x t known).2⟩

theorem below_of_resolve (within : s.Within bound) (resolved : s.resolve t = some r)
    (below : t.Below bound) : r.Below bound := by
  have follows : Follows (Term.Below bound) s := fun x t known _ => (within x t known).2
  refine resolve_induction (motive := fun t r => t.Below bound → r.Below bound)
    ?_ ?_ resolved below
  · exact fun t u walked _ below => walk_good follows walked below
  · intro t ts rs walked items below
    have inside : ∀ item ∈ ts, item.Below bound :=
      fun item member => Term.below_of_mem (walk_good follows walked below) member
    apply Term.below_seq
    clear walked
    induction items with
    | nil => exact fun _ member => nomatch member
    | cons first _ ih =>
      intro u member
      rcases List.mem_cons.mp member with rfl | later
      · exact first (inside _ List.mem_cons_self)
      · exact ih (fun item among => inside item (List.mem_cons_of_mem _ among)) u later

def IsBound (s : Subst) (id : Nat) : Bool := (s.get? ⟨id, ""⟩).isSome

def freeBelow (s : Subst) (bound : Nat) : List Nat :=
  (List.range bound).filter fun id => !s.IsBound id

theorem mem_freeBelow {id : Nat} :
    id ∈ s.freeBelow bound ↔ id < bound ∧ s.get? ⟨id, ""⟩ = none := by
  rw [freeBelow, List.mem_filter, List.mem_range, IsBound, Bool.not_eq_true',
    Option.isSome_eq_false_iff, Option.isNone_iff_eq_none]

theorem isBound_iff (s : Subst) (id : Nat) : s.IsBound id = true ↔ id ∈ s.entries := by
  rw [IsBound, get?, Option.isSome_map, Std.ExtTreeMap.mem_iff_isSome_getElem?]

theorem length_freeBelow (within : s.Within bound) :
    (s.freeBelow bound).length + s.size = bound := by
  have same : ((List.range bound).filter s.IsBound).length = s.size := by
    rw [size, ← Std.ExtTreeMap.length_keys]
    apply Nat.le_antisymm
    · refine List.Nodup.length_le_of_subset (List.nodup_range.filter _) fun id member => ?_
      exact Std.ExtTreeMap.mem_keys.mpr ((isBound_iff s id).mp (List.mem_filter.mp member).2)
    · refine List.Nodup.length_le_of_subset Std.ExtTreeMap.nodup_keys fun id member => ?_
      have found := (isBound_iff s id).mpr (Std.ExtTreeMap.mem_keys.mp member)
      obtain ⟨t, known⟩ := Option.isSome_iff_exists.mp found
      exact List.mem_filter.mpr ⟨List.mem_range.mpr (within _ t known).1, found⟩
  have parts := List.length_eq_length_filter_add (l := List.range bound) s.IsBound
  rw [same, List.length_range] at parts
  rw [freeBelow]
  omega

/-- The variable that a variable is resolved to, if it is resolved to one. -/
def representative (s : Subst) (id : Nat) : Nat :=
  match s.resolve (.var ⟨id, ""⟩) with
  | some (.var y) => y.id
  | _ => id

theorem resolve_free (acyclic : ¬ s.Circular) (acyclic' : ¬ m.Circular)
    (same : ∀ θ, Solves θ s ↔ Solves θ m) {x : Var} (free : m.get? x = none) :
    ∃ y, s.resolve (.var x) = some (.var y) := by
  obtain ⟨r, resolved⟩ := resolve_isSome acyclic (.var x)
  have takes (g : Ground) : ∃ θ, r.value θ = g := by
    obtain ⟨θ, solves, given⟩ := exists_solution acyclic' fun _ => g
    exact ⟨θ, (value_resolve ((same θ).mpr solves) resolved).trans (given x free)⟩
  cases r with
  | var y => exact ⟨y, resolved⟩
  | atom a =>
    obtain ⟨θ, value⟩ := takes (.seq [])
    cases value
  | seq rs =>
    obtain ⟨θ, value⟩ := takes (.atom .unit)
    cases value

theorem representative_free (acyclic : ¬ s.Circular) (acyclic' : ¬ m.Circular)
    (same : ∀ θ, Solves θ s ↔ Solves θ m) (within : s.Within bound) {id : Nat}
    (member : id ∈ m.freeBelow bound) : s.representative id ∈ s.freeBelow bound := by
  obtain ⟨small, free⟩ := mem_freeBelow.mp member
  obtain ⟨y, resolved⟩ := resolve_free acyclic acyclic' same free
  have below := below_of_resolve within resolved (Term.below_var small)
  have stuck : s.get? y = none := free_of_resolve resolved (.var rfl)
  rw [representative, resolved]
  exact mem_freeBelow.mpr ⟨below y.id (.var rfl), stuck⟩

theorem representative_inj (acyclic : ¬ s.Circular) (acyclic' : ¬ m.Circular)
    (same : ∀ θ, Solves θ s ↔ Solves θ m) {first second : Nat}
    (free : m.get? ⟨first, ""⟩ = none) (free' : m.get? ⟨second, ""⟩ = none)
    (equal : s.representative first = s.representative second) : first = second := by
  -- Some solution tells the two variables apart.
  obtain ⟨y, resolved⟩ := resolve_free acyclic acyclic' same free
  obtain ⟨z, resolved'⟩ := resolve_free acyclic acyclic' same free'
  rw [representative, representative, resolved, resolved'] at equal
  by_contra apart
  obtain ⟨θ, solves, given⟩ := exists_solution acyclic'
    (Function.update (fun _ => .atom .unit) first (.seq []))
  have before := (same θ).mpr solves
  have values : θ first = θ second :=
    calc θ first = (Term.var y).value θ := (value_resolve before resolved).symm
      _ = (Term.var z).value θ := congrArg θ equal
      _ = θ second := value_resolve before resolved'
  have one : θ first = .seq [] := (given _ free).trans (Function.update_self ..)
  have other : θ second = .atom .unit :=
    (given _ free').trans (Function.update_of_ne (Ne.symm apart) ..)
  rw [one, other] at values
  cases values

theorem size_le_of_same_solutions (acyclic : ¬ s.Circular) (acyclic' : ¬ m.Circular)
    (same : ∀ θ, Solves θ s ↔ Solves θ m) : s.size ≤ m.size := by
  obtain ⟨first, withinFirst⟩ := exists_within s
  obtain ⟨second, withinSecond⟩ := exists_within m
  have within := within_mono withinFirst (Nat.le_max_left first second)
  have within' := within_mono withinSecond (Nat.le_max_right first second)
  have distinct : ((m.freeBelow (max first second)).map s.representative).Nodup :=
    List.Nodup.map_on (fun _ member _ member' => representative_inj acyclic acyclic' same
      (mem_freeBelow.mp member).2 (mem_freeBelow.mp member').2) (List.nodup_range.filter _)
  have among : (m.freeBelow (max first second)).map s.representative ⊆
      s.freeBelow (max first second) := by
    intro id mapped
    obtain ⟨free, member, rfl⟩ := List.mem_map.mp mapped
    exact representative_free acyclic acyclic' same within member
  have few := distinct.length_le_of_subset among
  have total := length_freeBelow within
  have total' := length_freeBelow within'
  rw [List.length_map] at few
  omega

end Counting

/-- Both sides of each binding of the other substitution are resolved to the same term. -/
def Satisfies (s other : Subst) : Prop :=
  ∀ x t, other.get? x = some t →
    ∃ a b, s.resolve (.var x) = some a ∧ s.resolve t = some b ∧ (a == b) = true

theorem satisfies_of_solutions (acyclic : ¬ s.Circular)
    (more : ∀ θ, Solves θ s → Solves θ m) : s.Satisfies m :=
  fun x t known => resolve_agree acyclic fun θ solves => more θ solves x t known

/-- The order of the equations of a system and the sides of each make no difference to whether it
    has a result without circles, to the number of bindings in the result and to the counter, and
    the results satisfy each other. A clash in one order leaves no such result to another. -/
theorem unifyAll_in_any_order (s : Subst) (acyclic : ¬ s.Circular)
    (pairs others : List (Term × Term)) (reordered : Reordered pairs others) :
    (∀ s₁, s.unifyAll pairs = .solved s₁ → ¬ s₁.Circular →
      ∃ s₂, s.unifyAll others = .solved s₂ ∧ ¬ s₂.Circular ∧ s₁.size = s₂.size ∧
        s₁.nextId = s₂.nextId ∧ s₁.Satisfies s₂ ∧ s₂.Satisfies s₁) ∧
    (s.unifyAll pairs = .clash → ∀ s₂, s.unifyAll others = .solved s₂ → s₂.Circular) := by
  constructor
  · intro s₁ solved acyclic₁
    obtain ⟨θ, solves, -⟩ := exists_solution acyclic₁ fun _ => .atom .unit
    have noLoops := noLoops_of_not_circular acyclic
    obtain ⟨before, equal⟩ := (solves_of_unifyAll solved).mp solves
    have equal' := (equalizes_of_reordered reordered).mp equal
    obtain ⟨s₂, solved'⟩ := unifyAll_solved noLoops before equal'
    have acyclic₂ := not_circular_of_solves (noLoops_of_grows (grows_unifyAll solved') noLoops)
      ((solves_of_unifyAll solved').mpr ⟨before, equal'⟩)
    have same (θ : Valuation) : Solves θ s₁ ↔ Solves θ s₂ := by
      rw [solves_of_unifyAll solved, solves_of_unifyAll solved', equalizes_of_reordered reordered]
    have sizes := Nat.le_antisymm (size_le_of_same_solutions acyclic₁ acyclic₂ same)
      (size_le_of_same_solutions acyclic₂ acyclic₁ fun θ => (same θ).symm)
    have counters : s₁.nextId = s₂.nextId := (nextId_of_grows (grows_unifyAll solved)).trans
      (nextId_of_grows (grows_unifyAll solved')).symm
    exact ⟨s₂, solved', acyclic₂, sizes, counters,
      satisfies_of_solutions acyclic₁ fun θ => (same θ).mp,
      satisfies_of_solutions acyclic₂ fun θ => (same θ).mpr⟩
  · intro clash s₂ solved
    by_contra acyclic₂
    obtain ⟨θ, solves, -⟩ := exists_solution acyclic₂ fun _ => .atom .unit
    obtain ⟨before, equal⟩ := (solves_of_unifyAll solved).mp solves
    have agrees := agrees_unifyAll θ s pairs
    rw [clash] at agrees
    exact agrees ⟨before, (equalizes_of_reordered reordered).mpr equal⟩

/-- Two variables and a cell, in two orders and with the sides of one equation exchanged: other
    variables are bound, but as many. -/
theorem cell_in_any_order :
    let a : Term := .var ⟨0, "a"⟩
    let b : Term := .var ⟨1, "b"⟩
    let c : Term := .var ⟨2, "c"⟩
    let start : Subst := ⟨∅, 3⟩
    ¬ start.Circular ∧ Reordered [(a, .seq [b]), (b, c)] [(c, b), (a, .seq [b])] ∧
      ∃ s₁ s₂, start.unifyAll [(a, .seq [b]), (b, c)] = .solved s₁ ∧ ¬ s₁.Circular ∧
        s₁.get? ⟨2, "c"⟩ = none ∧ start.unifyAll [(c, b), (a, .seq [b])] = .solved s₂ ∧
        ¬ s₂.Circular ∧ s₁.size = s₂.size ∧ s₁.nextId = s₂.nextId ∧ s₁.Satisfies s₂ ∧
        s₂.Satisfies s₁ := by
  intro a b c start
  have free (x : Var) : start.get? x = none := by simp [start, get?]
  have acyclic : ¬ start.Circular := not_circular_of_free free
  have reordered : Reordered [(a, .seq [b]), (b, c)] [(c, b), (a, .seq [b])] :=
    ⟨[(a, .seq [b]), (c, b)], .cons (.inl rfl) (.cons (.inr rfl) .nil), .swap _ _ _⟩
  obtain ⟨s₁, solved, open₁⟩ : ∃ s₁, start.unifyAll [(a, .seq [b]), (b, c)] = .solved s₁ ∧
      s₁.get? ⟨2, "c"⟩ = none := ⟨_, rfl, rfl⟩
  have acyclic₁ : ¬ s₁.Circular := by
    let θ : Valuation := fun id => if id = 0 then .seq [.atom .unit] else .atom .unit
    have solves : Solves θ start := fun x _ known =>
      absurd known (by rw [free x]; exact (Option.some_ne_none _).symm)
    have equal : Equalizes θ [(a, .seq [b]), (b, c)] :=
      equalizes_cons.mpr ⟨rfl, equalizes_cons.mpr ⟨rfl, List.forall_mem_nil _⟩⟩
    exact not_circular_of_solves (noLoops_of_grows (grows_unifyAll solved)
      (noLoops_of_not_circular acyclic)) ((solves_of_unifyAll solved).mpr ⟨solves, equal⟩)
  obtain ⟨s₂, solved', acyclic₂, sizes, counters, there, back⟩ :=
    (unifyAll_in_any_order start acyclic _ _ reordered).1 s₁ solved acyclic₁
  exact ⟨acyclic, reordered, s₁, s₂, solved, acyclic₁, open₁, solved', acyclic₂, sizes, counters,
    there, back⟩

end Subst

end RelationalSearch

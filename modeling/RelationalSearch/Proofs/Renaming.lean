import Mathlib.Data.List.Forall2
import Mathlib.Data.List.Perm.Basic
import RelationalSearch.Proofs.Unifier

/-!
Renaming variables. Two substitutions correspond under an injective renaming of numbers if what the
renaming sends to each other is bound to corresponding terms, whatever the variables are called.
Walking, unifying and resolving then go the same way: nothing compares names, and numbers are only
compared for being equal. The bounds agree too, since corresponding substitutions have as many
bindings, and as many nodes in them.
-/
namespace RelationalSearch

/-- An injective renaming of numbers that sends those from the first counter on to those from the
    second, in order. -/
structure Renaming (n m : Nat) where
  map : Nat → Nat
  injective : Function.Injective map
  shifts : ∀ i, map (n + i) = m + i

theorem none_or_some_of_rel {α β : Type} {R : α → β → Prop} {a : Option α} {b : Option β}
    (related : Option.Rel R a b) :
    (a = none ∧ b = none) ∨ ∃ x y, a = some x ∧ b = some y ∧ R x y := by
  cases related with
  | none => exact .inl ⟨rfl, rfl⟩
  | some both => exact .inr ⟨_, _, rfl, rfl, both⟩

variable {n m : Nat} {ρ : Renaming n m}

inductive Term.Renames (ρ : Renaming n m) : Term → Term → Prop where
  | var {x y : Var} (same : ρ.map x.id = y.id) : Renames ρ (.var x) (.var y)
  | atom (a : Atom) : Renames ρ (.atom a) (.atom a)
  | seq {ts us : List Term} (items : List.Forall₂ (Renames ρ) ts us) :
      Renames ρ (.seq ts) (.seq us)

theorem Term.size_of_renames {t u : Term} (renames : t.Renames ρ u) : t.size = u.size := by
  induction t using items_induction generalizing u with
  | var x =>
    cases renames
    rfl
  | atom a =>
    cases renames
    rfl
  | seq ts ih =>
    cases renames with
    | @seq _ us items =>
      have total : sizeItems ts = sizeItems us := by
        induction items with
        | nil => rfl
        | cons first rest ihItems =>
          rw [sizeItems, sizeItems, ih _ List.mem_cons_self first,
            ihItems fun t member => ih t (List.mem_cons_of_mem _ member)]
      rw [size, size, total]

namespace Subst

/-- Corresponding variables have corresponding values, all that is bound on the right corresponds
    to something, and as many variables have been handed out since the two counters. -/
structure Renames (ρ : Renaming n m) (s t : Subst) : Prop where
  values : ∀ x y : Var, ρ.map x.id = y.id → Option.Rel (Term.Renames ρ) (s.get? x) (t.get? y)
  onto : ∀ y u, t.get? y = some u → ∃ id, ρ.map id = y.id
  counters : ∃ i, s.nextId = n + i ∧ t.nextId = m + i

variable {s t s' t' : Subst} {x y : Var} {u v u' v' : Term}

section Bounds

def sizes (f : Nat → Nat) (s : Subst) : List (Nat × Nat) :=
  s.bindings.map fun b => (f b.1.id, b.2.size)

theorem length_sizes (f : Nat → Nat) (s : Subst) : (s.sizes f).length = s.size := by
  rw [sizes, List.length_map, bindings, List.length_map]
  exact Std.ExtTreeMap.length_toList

theorem foldr_sizes (f : Nat → Nat) (s : Subst) :
    ((s.sizes f).map Prod.snd).foldr (· + ·) 0 = s.weight := by
  rw [sizes, List.map_map, List.foldr_map, weight]
  rfl

theorem mem_sizes_iff (f : Nat → Nat) {entry : Nat × Nat} :
    entry ∈ s.sizes f ↔ ∃ x u, s.get? x = some u ∧ entry = (f x.id, u.size) := by
  constructor
  · intro member
    obtain ⟨⟨x, u⟩, listed, rfl⟩ := List.mem_map.mp member
    exact ⟨x, u, get?_of_mem_bindings listed, rfl⟩
  · rintro ⟨x, u, bound, rfl⟩
    obtain ⟨_, listed⟩ := mem_bindings_of_get? bound
    exact List.mem_map.mpr ⟨_, listed, rfl⟩

theorem nodup_sizes {f : Nat → Nat} (injective : Function.Injective f) (s : Subst) :
    (s.sizes f).Nodup := by
  rw [sizes, bindings, List.map_map]
  refine List.pairwise_map.mpr (Std.ExtTreeMap.distinct_keys_toList.imp fun apart same => apart ?_)
  exact Std.LawfulEqCmp.compare_eq_iff_eq.mpr (injective (congrArg Prod.fst same))

theorem sizes_of_renames (renames : s.Renames ρ t) : (s.sizes ρ.map).Perm (t.sizes id) := by
  refine (List.perm_ext_iff_of_nodup (nodup_sizes ρ.injective s)
    (nodup_sizes Function.injective_id t)).mpr fun entry => ?_
  rw [mem_sizes_iff, mem_sizes_iff]
  constructor
  · rintro ⟨x, u, bound, rfl⟩
    rcases none_or_some_of_rel (renames.values x ⟨ρ.map x.id, x.name⟩ rfl) with
      ⟨free, -⟩ | ⟨r, v, known, found, terms⟩
    · cases free.symm.trans bound
    · cases known.symm.trans bound
      exact ⟨_, _, found, by rw [Term.size_of_renames terms]; rfl⟩
  · rintro ⟨y, v, bound, rfl⟩
    obtain ⟨id, same⟩ := renames.onto y v bound
    rcases none_or_some_of_rel (renames.values ⟨id, y.name⟩ y same) with
      ⟨-, free⟩ | ⟨u, r, found, known, terms⟩
    · cases free.symm.trans bound
    · cases known.symm.trans bound
      exact ⟨_, _, found, by rw [Term.size_of_renames terms, same]; rfl⟩

theorem size_of_renames (renames : s.Renames ρ t) : s.size = t.size := by
  rw [← length_sizes ρ.map s, ← length_sizes id t]
  exact (sizes_of_renames renames).length_eq

theorem weight_of_renames (renames : s.Renames ρ t) : s.weight = t.weight := by
  rw [← foldr_sizes ρ.map s, ← foldr_sizes id t]
  exact ((sizes_of_renames renames).map Prod.snd).foldr_eq 0

end Bounds

section Walking

theorem renames_follow? (renames : s.Renames ρ t) (terms : u.Renames ρ v) :
    Option.Rel (Term.Renames ρ) (s.follow? u) (t.follow? v) := by
  cases terms with
  | var same => exact renames.values _ _ same
  | atom a => exact .none
  | seq items => exact .none

theorem renames_walkWithin (renames : s.Renames ρ t) (hops : Nat) (terms : u.Renames ρ v) :
    Option.Rel (Term.Renames ρ) (s.walkWithin hops u) (t.walkWithin hops v) := by
  induction hops generalizing u v with
  | zero =>
    rw [walkWithin, walkWithin]
    rcases none_or_some_of_rel (renames_follow? renames terms) with
      ⟨last, last'⟩ | ⟨next, next', more, more', -⟩
    · rw [last, last']
      exact .some terms
    · rw [more, more']
      exact .none
  | succ hops ih =>
    rw [walkWithin, walkWithin]
    rcases none_or_some_of_rel (renames_follow? renames terms) with
      ⟨last, last'⟩ | ⟨next, next', more, more', nextTerms⟩
    · rw [last, last']
      exact .some terms
    · rw [more, more']
      exact ih nextTerms

theorem renames_walk (renames : s.Renames ρ t) (terms : u.Renames ρ v) :
    Option.Rel (Term.Renames ρ) (s.walk u) (t.walk v) := by
  rw [walk, walk, size_of_renames renames]
  exact renames_walkWithin renames t.size terms

end Walking

end Subst

inductive Unification.Renames (ρ : Renaming n m) : Unification → Unification → Prop where
  | solved {s t : Subst} (renames : s.Renames ρ t) : Renames ρ (.solved s) (.solved t)
  | clash : Renames ρ .clash .clash
  | endless : Renames ρ .endless .endless

namespace Subst

variable {s t s' t' : Subst} {x y : Var} {a b u v u' v' : Term}

inductive Decision.Renames (ρ : Renaming n m) : Decision → Decision → Prop where
  | keep : Renames ρ .keep .keep
  | bind {x y : Var} {u v : Term} (same : ρ.map x.id = y.id) (terms : u.Renames ρ v) :
      Renames ρ (.bind x u) (.bind y v)
  | descend {us us' vs vs' : List Term} (left : List.Forall₂ (Term.Renames ρ) us us')
      (right : List.Forall₂ (Term.Renames ρ) vs vs') :
      Renames ρ (.descend us vs) (.descend us' vs')
  | clash : Renames ρ .clash .clash

section Unifying

theorem beq_of_renames {z w : Var} (same : ρ.map x.id = y.id) (same' : ρ.map z.id = w.id) :
    (x == z) = (y == w) := by
  rw [Bool.eq_iff_iff, Var.beq_iff, Var.beq_iff, ← same, ← same', ρ.injective.eq_iff]

theorem renames_decision (left : u.Renames ρ u') (right : v.Renames ρ v') :
    (decision u v).Renames ρ (decision u' v') := by
  cases left with
  | @var x y same =>
    cases right with
    | @var z w same' =>
      rw [decision, decision, beq_of_renames same same']
      split
      · exact .keep
      · exact .bind same (.var same')
    | atom b => exact .bind same (.atom b)
    | seq items => exact .bind same (.seq items)
  | atom a =>
    cases right with
    | var same => exact .bind same (.atom a)
    | atom b =>
      rw [decision]
      split
      · exact .keep
      · exact .clash
    | seq items => exact .clash
  | seq items =>
    cases right with
    | var same => exact .bind same (.seq items)
    | atom b => exact .clash
    | seq items' =>
      rw [decision, decision, items.length_eq, items'.length_eq]
      split
      · exact .descend items items'
      · exact .clash

theorem renames_extended (renames : s.Renames ρ t) (same : ρ.map x.id = y.id)
    (terms : u.Renames ρ v) (extended : s.extend x u = .ok s') (extended' : t.extend y v = .ok t') :
    s'.Renames ρ t' where
  values z w image := by
    have either : x.id = z.id ↔ y.id = w.id := by rw [← same, ← image, ρ.injective.eq_iff]
    rw [get?_extend extended, get?_extend extended']
    by_cases here : x.id = z.id
    · rw [if_pos here, if_pos (either.mp here)]
      exact .some terms
    · rw [if_neg here, if_neg (mt either.mpr here)]
      exact renames.values z w image
  onto w r bound := by
    rw [get?_extend extended'] at bound
    split at bound
    · next here => exact ⟨x.id, same.trans here⟩
    · exact renames.onto w r bound
  counters := by
    rw [nextId_of_extend extended, nextId_of_extend extended']
    exact renames.counters

theorem renames_extend (renames : s.Renames ρ t) (same : ρ.map x.id = y.id)
    (terms : u.Renames ρ v) :
    Unification.Renames ρ (.ofExtend (s.extend x u)) (.ofExtend (t.extend y v)) := by
  rcases none_or_some_of_rel (renames.values x y same) with
    ⟨free, free'⟩ | ⟨known, known', bound, bound', -⟩
  · have extended : s.extend x u = .ok { s with entries := s.entries.insert x.id ⟨x.name, u⟩ } := by
      rw [extend, free]
    have extended' : t.extend y v =
        .ok { t with entries := t.entries.insert y.id ⟨y.name, v⟩ } := by
      rw [extend, free']
    rw [extended, extended']
    exact .solved (renames_extended renames same terms extended extended')
  · rw [extend, extend, bound, bound']
    exact .clash

section Solving

variable {solve : Term → Term → Subst → Unification}
  (each : ∀ {s t : Subst} {u u' v v' : Term}, s.Renames ρ t → u.Renames ρ u' → v.Renames ρ v' →
    (solve u v s).Renames ρ (solve u' v' t))

include each

theorem renames_unifyAllBy {us us' vs vs' : List Term} (renames : s.Renames ρ t)
    (left : List.Forall₂ (Term.Renames ρ) us us') (right : List.Forall₂ (Term.Renames ρ) vs vs') :
    (unifyAllBy solve (us.zip vs) s).Renames ρ (unifyAllBy solve (us'.zip vs') t) := by
  induction left generalizing vs vs' s t with
  | nil => exact .solved renames
  | @cons u u' us us' first rest ih =>
    cases right with
    | nil => exact .solved renames
    | @cons v v' vs vs' first' rest' =>
      have solved := each renames first first'
      rw [List.zip_cons_cons, List.zip_cons_cons, unifyAllBy, unifyAllBy]
      generalize solve u v s = outcome at solved
      generalize solve u' v' t = outcome' at solved
      cases solved with
      | solved between => exact ih between rest'
      | clash => exact .clash
      | endless => exact .endless

theorem renames_outcome {d d' : Decision} (renames : s.Renames ρ t) (decisions : d.Renames ρ d') :
    (d.outcome solve s).Renames ρ (d'.outcome solve t) := by
  cases decisions with
  | keep => exact .solved renames
  | bind same terms => exact renames_extend renames same terms
  | descend left right => exact renames_unifyAllBy each renames left right
  | clash => exact .clash

end Solving

theorem renames_unifyWithin (depth : Nat) (renames : s.Renames ρ t) (left : u.Renames ρ u')
    (right : v.Renames ρ v') :
    (unifyWithin depth u v s).Renames ρ (unifyWithin depth u' v' t) := by
  induction depth generalizing s t u u' v v' with
  | zero => exact .endless
  | succ depth ih =>
    rcases none_or_some_of_rel (renames_walk renames left) with
      ⟨lost, lost'⟩ | ⟨a, a', first, first', terms⟩
    · rw [unifyWithin, unifyWithin, lost, lost']
      exact .endless
    · rcases none_or_some_of_rel (renames_walk renames right) with
        ⟨lost, lost'⟩ | ⟨b, b', second, second', terms'⟩
      · rw [unifyWithin, unifyWithin, first, first', lost, lost']
        cases terms <;> exact .endless
      · rw [unifyWithin_walked depth first second, unifyWithin_walked depth first' second']
        exact renames_outcome ih renames (renames_decision terms terms')

theorem renames_unify (renames : s.Renames ρ t) (left : u.Renames ρ u') (right : v.Renames ρ v') :
    (s.unify u v).Renames ρ (t.unify u' v') := by
  have depths : s.unifyDepth u v = t.unifyDepth u' v' := by
    rw [unifyDepth, unifyDepth, weight_of_renames renames, Term.size_of_renames left,
      Term.size_of_renames right]
  have deep := renames_unifyWithin (s.unifyDepth u v) renames left right
  have tried := renames_unifyWithin shallow renames left right
  rw [depths] at deep
  rw [unify, unify, depths]
  generalize unifyWithin shallow u v s = outcome at tried
  generalize unifyWithin shallow u' v' t = outcome' at tried
  cases tried with
  | solved between => exact .solved between
  | clash => exact .clash
  | endless => exact deep

end Unifying

section Resolving

theorem renames_mapM {f g : Term → Option Term} {ts us : List Term}
    (each : ∀ t u, t.Renames ρ u → Option.Rel (Term.Renames ρ) (f t) (g u))
    (items : List.Forall₂ (Term.Renames ρ) ts us) :
    Option.Rel (List.Forall₂ (Term.Renames ρ)) (ts.mapM f) (us.mapM g) := by
  induction items with
  | nil => exact .some .nil
  | @cons t u ts us first rest ih =>
    rw [List.mapM_cons, List.mapM_cons]
    rcases none_or_some_of_rel (each t u first) with
      ⟨lost, lost'⟩ | ⟨r, r', found, found', terms⟩
    · rw [lost, lost']
      exact .none
    · rw [found, found']
      rcases none_or_some_of_rel ih with ⟨lost, lost'⟩ | ⟨rs, rs', others, others', restTerms⟩
      · rw [lost, lost']
        exact .none
      · rw [others, others']
        exact .some (.cons terms restTerms)

theorem renames_resolveWithin (renames : s.Renames ρ t) (depth : Nat) (terms : u.Renames ρ v) :
    Option.Rel (Term.Renames ρ) (s.resolveWithin depth u) (t.resolveWithin depth v) := by
  induction depth generalizing u v with
  | zero => exact .none
  | succ depth ih =>
    rw [resolveWithin, resolveWithin]
    rcases none_or_some_of_rel (renames_walk renames terms) with
      ⟨lost, lost'⟩ | ⟨a, b, walked, walked', found⟩
    · rw [lost, lost']
      exact .none
    · rw [walked, walked']
      cases found with
      | var same => exact .some (.var same)
      | atom a => exact .some (.atom a)
      | seq items =>
        dsimp only
        rcases none_or_some_of_rel (renames_mapM (fun _ _ => ih) items) with
          ⟨lost, lost'⟩ | ⟨rs, rs', mapped, mapped', results⟩
        · rw [lost, lost']
          exact .none
        · rw [mapped, mapped']
          exact .some (.seq results)

theorem renames_resolve (renames : s.Renames ρ t) (terms : u.Renames ρ v) :
    Option.Rel (Term.Renames ρ) (s.resolve u) (t.resolve v) := by
  rw [resolve, resolve, weight_of_renames renames, Term.size_of_renames terms]
  rcases none_or_some_of_rel (renames_resolveWithin renames shallow terms) with
    ⟨lost, lost'⟩ | ⟨r, r', found, found', results⟩
  · rw [lost, lost']
    exact renames_resolveWithin renames (t.weight + v.size) terms
  · rw [found, found']
    exact .some results

theorem renames_resolveVar (renames : s.Renames ρ t) (same : ρ.map x.id = y.id) :
    Option.Rel (Term.Renames ρ) (s.resolveVar x) (t.resolveVar y) :=
  renames_resolve renames (.var same)

end Resolving

section Fresh

theorem renames_fresh (renames : s.Renames ρ t) (name name' : String) :
    ρ.map (s.fresh name).1.id = (t.fresh name').1.id ∧
      (s.fresh name).2.Renames ρ (t.fresh name').2 := by
  obtain ⟨i, counter, counter'⟩ := renames.counters
  refine ⟨?_, renames.values, renames.onto, i + 1, congrArg (· + 1) counter,
    congrArg (· + 1) counter'⟩
  show ρ.map s.nextId = t.nextId
  rw [counter, counter']
  exact ρ.shifts i

theorem renames_freshAll (renames : s.Renames ρ t) {names names' : List String}
    (count : names.length = names'.length) :
    List.Forall₂ (fun x y => ρ.map x.id = y.id) (s.freshAll names).1 (t.freshAll names').1 ∧
      (s.freshAll names).2.Renames ρ (t.freshAll names').2 := by
  induction names generalizing names' s t with
  | nil =>
    obtain rfl := List.length_eq_zero_iff.mp count.symm
    exact ⟨.nil, renames⟩
  | cons name names ih =>
    cases names' with
    | nil => cases count
    | cons name' names' =>
      obtain ⟨first, after⟩ := renames_fresh renames name name'
      obtain ⟨rest, last⟩ := ih after (Nat.succ.inj count)
      exact ⟨.cons first rest, last⟩

end Fresh

end Subst

end RelationalSearch

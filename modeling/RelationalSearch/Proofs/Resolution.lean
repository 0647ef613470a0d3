import Mathlib.Data.List.Forall2
import Mathlib.Logic.Function.Basic
import RelationalSearch.Proofs.CallTree
import RelationalSearch.Proofs.Circularity

/-!
Resolved terms. Resolving keeps the instance of a term under every solution, leaves only free
variables, and leaves each free variable that the term leads to. Where no binding is circular it
has a result for every term. Two terms that every solution makes equal have equal results: what
is left in them is free, so values could tell them apart.

From this comes the solution set of a unification. Its result has the solutions that make the two
terms equal and resolves them to the same term unless it is circular, and a clash means that there
is no such solution. No binding is refused on the way: a walk stops at a variable only where it is
free, so a clash is never a variable bound twice.
-/
namespace RelationalSearch

namespace Term

theorem exists_values_ne {ts us : List Term}
    (each : ∀ t ∈ ts, ∀ {u}, (t == u) = false → ∃ θ, t.value θ ≠ u.value θ)
    (different : beqItems ts us = false) : ∃ θ, values θ ts ≠ values θ us := by
  induction ts generalizing us with
  | nil =>
    cases us with
    | nil => cases different
    | cons u us => exact ⟨fun _ => .atom .unit, (List.cons_ne_nil _ _).symm⟩
  | cons t ts ih =>
    cases us with
    | nil => exact ⟨fun _ => .atom .unit, List.cons_ne_nil _ _⟩
    | cons u us =>
      rw [beqItems, Bool.and_eq_false_iff] at different
      rcases different with first | later
      · obtain ⟨θ, apart⟩ := each t List.mem_cons_self first
        exact ⟨θ, fun same => apart (List.cons.inj same).1⟩
      · obtain ⟨θ, apart⟩ := ih (fun t member => each t (List.mem_cons_of_mem _ member)) later
        exact ⟨θ, fun same => apart (List.cons.inj same).2⟩

theorem exists_value_ne {a b : Term} (different : (a == b) = false) :
    ∃ θ, a.value θ ≠ b.value θ := by
  induction a using items_induction generalizing b with
  | var x =>
    cases b with
    | var y =>
      have apart : y.id ≠ x.id := by
        intro same
        have equal : (x == y) = true := (Var.beq_iff x y).mpr same.symm
        exact Bool.noConfusion (equal.symm.trans different)
      refine ⟨Function.update (fun _ => .atom .unit) x.id (.seq []), ?_⟩
      rw [value, value, Function.update_self, Function.update_of_ne apart]
      exact Ground.noConfusion
    | atom b => exact ⟨fun _ => .seq [], Ground.noConfusion⟩
    | seq us => exact ⟨fun _ => .atom .unit, Ground.noConfusion⟩
  | atom a =>
    cases b with
    | var y => exact ⟨fun _ => .seq [], Ground.noConfusion⟩
    | atom b =>
      refine ⟨fun _ => .atom .unit, fun same => ?_⟩
      cases same
      exact Bool.noConfusion ((beq_self_eq_true a).symm.trans different)
    | seq us => exact ⟨fun _ => .atom .unit, Ground.noConfusion⟩
  | seq ts ih =>
    cases b with
    | var y => exact ⟨fun _ => .atom .unit, Ground.noConfusion⟩
    | atom b => exact ⟨fun _ => .atom .unit, Ground.noConfusion⟩
    | seq us =>
      obtain ⟨θ, apart⟩ := exists_values_ne ih different
      exact ⟨θ, fun same => apart (Ground.seq.inj same)⟩

theorem beq_of_value_eq {a b : Term} (same : ∀ θ, a.value θ = b.value θ) : (a == b) = true := by
  cases equal : a == b with
  | true => rfl
  | false =>
    obtain ⟨θ, different⟩ := exists_value_ne equal
    exact absurd (same θ) different

end Term

namespace Subst

variable {θ : Valuation} {s : Subst} {t r : Term}

theorem forall₂_of_mapM {f : Term → Option Term} {ts rs : List Term}
    (mapped : ts.mapM f = some rs) : List.Forall₂ (fun t r => f t = some r) ts rs := by
  induction ts generalizing rs with
  | nil =>
    cases mapped
    exact .nil
  | cons t ts ih =>
    rw [List.mapM_cons] at mapped
    cases first : f t with
    | none =>
      rw [first] at mapped
      cases mapped
    | some r =>
      cases others : ts.mapM f with
      | none =>
        rw [first, others] at mapped
        cases mapped
      | some rest =>
        rw [first, others] at mapped
        cases mapped
        exact .cons first (ih others)

theorem mapM_isSome {f : Term → Option Term} {ts : List Term}
    (each : ∀ t ∈ ts, ∃ r, f t = some r) : ∃ rs, ts.mapM f = some rs := by
  induction ts with
  | nil => exact ⟨[], rfl⟩
  | cons t ts ih =>
    obtain ⟨r, first⟩ := each t List.mem_cons_self
    obtain ⟨rs, others⟩ := ih fun t member => each t (List.mem_cons_of_mem _ member)
    exact ⟨r :: rs, by rw [List.mapM_cons, first, others]; rfl⟩

theorem resolveWithin_seq {ts : List Term} (walked : s.walk t = some (.seq ts)) (depth : Nat) :
    s.resolveWithin (depth + 1) t = (ts.mapM (s.resolveWithin depth)).map .seq := by
  rw [resolveWithin, walked]

theorem resolveWithin_other {u : Term} (walked : s.walk t = some u) (other : ∀ ts, u ≠ .seq ts)
    (depth : Nat) : s.resolveWithin (depth + 1) t = some u := by
  rw [resolveWithin, walked]
  cases u with
  | var x => rfl
  | atom a => rfl
  | seq ts => exact absurd rfl (other ts)

theorem resolveWithin_induction {motive : Term → Term → Prop} {depth : Nat}
    (stuck : ∀ t u, s.walk t = some u → (∀ ts, u ≠ .seq ts) → motive t u)
    (items : ∀ t ts rs, s.walk t = some (.seq ts) → List.Forall₂ motive ts rs →
      motive t (.seq rs))
    (resolved : s.resolveWithin depth t = some r) : motive t r := by
  induction depth generalizing t r with
  | zero => cases resolved
  | succ depth ih =>
    cases walked : s.walk t with
    | none =>
      rw [resolveWithin, walked] at resolved
      cases resolved
    | some u =>
      cases u with
      | seq ts =>
        rw [resolveWithin_seq walked, Option.map_eq_some_iff] at resolved
        obtain ⟨rs, mapped, rfl⟩ := resolved
        exact items t ts rs walked ((forall₂_of_mapM mapped).imp fun _ _ => ih)
      | var x =>
        rw [resolveWithin_other walked nofun] at resolved
        cases resolved
        exact stuck t _ walked nofun
      | atom a =>
        rw [resolveWithin_other walked nofun] at resolved
        cases resolved
        exact stuck t _ walked nofun

theorem resolve_eq_resolveWithin (s : Subst) (t : Term) :
    ∃ depth, s.resolve t = s.resolveWithin depth t := by
  cases first : s.resolveWithin shallow t with
  | some r => exact ⟨shallow, by rw [resolve, first]⟩
  | none => exact ⟨s.weight + t.size, by rw [resolve, first]⟩

theorem resolve_induction {motive : Term → Term → Prop}
    (stuck : ∀ t u, s.walk t = some u → (∀ ts, u ≠ .seq ts) → motive t u)
    (items : ∀ t ts rs, s.walk t = some (.seq ts) → List.Forall₂ motive ts rs →
      motive t (.seq rs))
    (resolved : s.resolve t = some r) : motive t r := by
  obtain ⟨depth, same⟩ := resolve_eq_resolveWithin s t
  rw [same] at resolved
  exact resolveWithin_induction stuck items resolved

theorem resolve_other {u : Term} (walked : s.walk t = some u) (other : ∀ ts, u ≠ .seq ts) :
    s.resolve t = some u := by
  have first : s.resolveWithin shallow t = some u := resolveWithin_other walked other 4095
  rw [resolve, first]

theorem resolve_seq {ts : List Term} (walked : s.walk t = some (.seq ts))
    (resolved : s.resolve t = some r) : ∃ rs, r = .seq rs := by
  refine resolve_induction
    (motive := fun t r => s.walk t = some (.seq ts) → ∃ rs, r = .seq rs) ?_ ?_ resolved walked
  · intro t u walked other same
    rw [walked] at same
    exact absurd (Option.some.inj same) (other ts)
  · exact fun _ _ rs _ _ _ => ⟨rs, rfl⟩

theorem value_resolve (solves : Solves θ s) (resolved : s.resolve t = some r) :
    r.value θ = t.value θ := by
  refine resolve_induction (motive := fun t r => r.value θ = t.value θ) ?_ ?_ resolved
  · exact fun t u walked _ => walk_value solves walked
  · intro t ts rs walked same
    rw [← walk_value solves walked, Term.value, Term.value, Term.values_eq_map,
      Term.values_eq_map]
    congr 1
    clear walked
    induction same with
    | nil => rfl
    | cons first _ ih => rw [List.map_cons, List.map_cons, first, ih]

theorem free_of_resolve {x : Var} (resolved : s.resolve t = some r)
    (mentions : r.Mentions x.id) : s.get? x = none := by
  refine resolve_induction (motive := fun _ r => r.Mentions x.id → s.get? x = none)
    ?_ ?_ resolved mentions
  · intro t u walked other mentions
    cases mentions with
    | var same => exact (get?_congr same).symm.trans (walk_stuck walked)
    | seq => exact absurd rfl (other _)
  · intro t ts rs walked items mentions
    cases mentions with
    | seq member inside =>
      clear walked
      induction items with
      | nil => cases member
      | cons first _ ih =>
        rcases List.mem_cons.mp member with rfl | later
        · exact first inside
        · exact ih later

/-- Some variable of the term leads to the variable of this number. -/
def Leads (s : Subst) (id : Nat) (t : Term) : Prop :=
  ∃ first, t.Mentions first ∧ Relation.ReflTransGen s.Depends first id

theorem leads_of_walk {x : Var} {u : Term} (free : s.get? x = none) (walked : s.walk t = some u)
    (leads : s.Leads x.id t) : s.Leads x.id u := by
  refine walkWithin_induction (motive := s.Leads x.id) ?_ walked leads
  intro t u followed leads
  obtain ⟨y, rfl, bound⟩ := follow?_eq_some followed
  obtain ⟨first, mentions, path⟩ := leads
  cases mentions with
  | var same =>
    subst same
    rcases Relation.ReflTransGen.cases_head path with
      last | ⟨next, ⟨z, v, other, same, inside⟩, path⟩
    · rw [get?_congr last, free] at bound
      cases bound
    · rw [get?_congr same, bound] at other
      cases other
      exact ⟨next, inside, path⟩

theorem mentions_of_leads {x : Var} (free : s.get? x = none) (resolved : s.resolve t = some r)
    (leads : s.Leads x.id t) : r.Mentions x.id := by
  refine resolve_induction (motive := fun t r => s.Leads x.id t → r.Mentions x.id)
    ?_ ?_ resolved leads
  · intro t u walked other leads
    obtain ⟨first, mentions, path⟩ := leads_of_walk free walked leads
    cases mentions with
    | @var y same =>
      subst same
      have stuck : s.get? y = none := walk_stuck walked
      rcases Relation.ReflTransGen.cases_head path with last | ⟨next, depends, -⟩
      · exact .var last
      · exact absurd depends (not_depends_of_free stuck next)
    | seq => exact absurd rfl (other _)
  · intro t ts rs walked items leads
    obtain ⟨first, mentions, path⟩ := leads_of_walk free walked leads
    cases mentions with
    | seq member inside =>
      clear walked
      induction items with
      | nil => cases member
      | cons head _ ih =>
        rcases List.mem_cons.mp member with rfl | later
        · exact .seq List.mem_cons_self (head ⟨first, inside, path⟩)
        · cases ih later with
          | seq among found => exact .seq (List.mem_cons_of_mem _ among) found

section Ending

variable {nodes : List Term}

theorem resolveWithin_isSome (items : ∀ ts, .seq ts ∈ nodes → ∀ t ∈ ts, t ∈ nodes)
    (solvable : Solvable θ nodes s) {depth : Nat} (member : t ∈ nodes)
    (enough : room θ nodes (t.value θ).size ≤ depth) :
    ∃ r, s.resolveWithin depth t = some r := by
  -- Each step into a sequence leaves behind at least one term with an instance as large.
  induction depth generalizing t with
  | zero =>
    have some : room θ nodes 0 < room θ nodes (t.value θ).size :=
      room_lt (Ground.size_pos (t.value θ)) member rfl
    omega
  | succ depth ih =>
    obtain ⟨u, walked⟩ := walk_isSome solvable.noLoops t
    have inside := walk_good (follows_of_binds solvable.binds) walked member
    cases u with
    | var x => exact ⟨_, resolveWithin_other walked nofun depth⟩
    | atom a => exact ⟨_, resolveWithin_other walked nofun depth⟩
    | seq ts =>
      have each : ∀ t ∈ ts, ∃ r, s.resolveWithin depth t = some r := by
        intro item among
        have less := room_lt (θ := θ) (Term.size_value_lt among) inside rfl
        rw [walk_value solvable.solves walked] at less
        exact ih (items ts inside item among) (by omega)
      obtain ⟨rs, mapped⟩ := mapM_isSome each
      exact ⟨.seq rs, by rw [resolveWithin_seq walked, mapped]; rfl⟩

end Ending

def resolveNodes (s : Subst) (t : Term) : List Term :=
  s.bindings.flatMap (fun b => b.2.nodes) ++ t.nodes

theorem length_resolveNodes (s : Subst) (t : Term) :
    (s.resolveNodes t).length = s.weight + t.size := by
  rw [resolveNodes, List.length_append, length_bindings_nodes, weight, Term.length_nodes]

theorem resolveNodes_items (s : Subst) (t : Term) (ts : List Term)
    (inside : .seq ts ∈ s.resolveNodes t) : ∀ item ∈ ts, item ∈ s.resolveNodes t := by
  intro item member
  rw [resolveNodes, List.mem_append, List.mem_flatMap] at inside ⊢
  rcases inside with ⟨b, bound, inside⟩ | inside
  · exact .inl ⟨b, bound, Term.mem_nodes_of_mem b.2 inside member⟩
  · exact .inr (Term.mem_nodes_of_mem t inside member)

theorem resolveNodes_binds (s : Subst) (t : Term) : Binds (· ∈ s.resolveNodes t) s := by
  intro x u bound
  obtain ⟨_, listed⟩ := mem_bindings_of_get? bound
  exact List.mem_append_left _ (List.mem_flatMap.mpr ⟨_, listed, u.mem_nodes_self⟩)

/-- Without circular bindings every term has a result. -/
theorem resolve_isSome (acyclic : ¬ s.Circular) (t : Term) : ∃ r, s.resolve t = some r := by
  obtain ⟨θ, solves, -⟩ := exists_solution acyclic fun _ => .atom .unit
  have solvable : Solvable θ (s.resolveNodes t) s :=
    ⟨resolveNodes_binds s t, noLoops_of_not_circular acyclic, solves⟩
  have enough : room θ (s.resolveNodes t) (t.value θ).size ≤ s.weight + t.size := by
    rw [← length_resolveNodes]
    exact List.countP_le_length
  obtain ⟨r, resolved⟩ := resolveWithin_isSome (resolveNodes_items s t) solvable
    (List.mem_append_right _ t.mem_nodes_self) enough
  cases first : s.resolveWithin shallow t with
  | some r => exact ⟨r, by rw [resolve, first]⟩
  | none => exact ⟨r, by rw [resolve, first]; exact resolved⟩

/-- The values of results can be chosen freely: some solution gives them to the terms. -/
theorem exists_solution_of_results (acyclic : ¬ s.Circular) (θ : Valuation) :
    ∃ θ', Solves θ' s ∧ ∀ t r, s.resolve t = some r → r.value θ = t.value θ' := by
  obtain ⟨θ', solves, free⟩ := exists_solution acyclic θ
  refine ⟨θ', solves, fun t r resolved => ?_⟩
  calc r.value θ = r.value θ' :=
        Term.value_congr fun id mentions =>
          (free ⟨id, ""⟩ (free_of_resolve (x := ⟨id, ""⟩) resolved mentions)).symm
    _ = t.value θ' := value_resolve solves resolved

theorem resolve_agree {u v : Term} (acyclic : ¬ s.Circular)
    (equal : ∀ θ, Solves θ s → u.value θ = v.value θ) :
    ∃ a b, s.resolve u = some a ∧ s.resolve v = some b ∧ (a == b) = true := by
  obtain ⟨a, left⟩ := resolve_isSome acyclic u
  obtain ⟨b, right⟩ := resolve_isSome acyclic v
  refine ⟨a, b, left, right, Term.beq_of_value_eq fun θ => ?_⟩
  obtain ⟨θ', solves, chosen⟩ := exists_solution_of_results acyclic θ
  calc a.value θ = u.value θ' := chosen u a left
    _ = v.value θ' := equal θ' solves
    _ = b.value θ := (chosen v b right).symm

section Unifying

variable {u v : Term}

theorem solves_of_unify {s' : Subst} (solved : s.unify u v = .solved s') (θ : Valuation) :
    Solves θ s' ↔ Solves θ s ∧ u.value θ = v.value θ := by
  have agrees := agrees_unify θ s u v
  rw [solved] at agrees
  exact agrees

theorem value_ne_of_clash (clash : s.unify u v = .clash) {θ : Valuation} (solves : Solves θ s) :
    u.value θ ≠ v.value θ := by
  have agrees := agrees_unify θ s u v
  rw [clash] at agrees
  exact fun equal => agrees ⟨solves, equal⟩

/-- Unification finds all solutions and only these, makes the resolved terms equal, and refuses no
    binding in any of the equations that it comes to. -/
theorem unify_solution_set (s : Subst) (u v : Term) :
    (s.unify u v = .clash → ∀ θ, Solves θ s → u.value θ ≠ v.value θ) ∧
      (∀ s', s.unify u v = .solved s' →
        (∀ θ, Solves θ s' ↔ Solves θ s ∧ u.value θ = v.value θ) ∧
        (¬ s'.Circular →
          ∃ a b, s'.resolve u = some a ∧ s'.resolve v = some b ∧ (a == b) = true)) ∧
      ∀ e a b x t, Relation.ReflTransGen Enters ⟨s, u, v⟩ e → e.under.walk e.left = some a →
        e.under.walk e.right = some b → decision a b = .bind x t →
        ∃ m, e.under.extend x t = .ok m := by
  refine ⟨fun clash θ solves => value_ne_of_clash clash solves, ?_, ?_⟩
  · intro s' solved
    refine ⟨solves_of_unify solved, fun acyclic => resolve_agree acyclic ?_⟩
    exact fun θ solves => ((solves_of_unify solved θ).mp solves).2
  · intro e a b x t _ left right decided
    exact extend_of_decision decided (walk_stuck left) (walk_stuck right)

end Unifying

end Subst

end RelationalSearch

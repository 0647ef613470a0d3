import RelationalSearch.Proofs.Allocation
import RelationalSearch.Proofs.Resolution
import RelationalSearch.Proofs.Stability

/-!
The bindings that a unification adds. It adds none where the two terms have the same result
already: any binding on the way would tell some solutions apart. It never takes a binding away or
counts up, and what it binds is free and left in one of the two results, since every term that it
comes to is reached from the two terms, through bindings that were there before or through new
ones. Where the terms have been made equal, unifying them again changes nothing.
-/
namespace RelationalSearch

namespace Term

theorem values_eq_of_beqItems (θ : Valuation) {ts us : List Term}
    (each : ∀ t ∈ ts, ∀ {u}, (t == u) = true → t.value θ = u.value θ)
    (equal : beqItems ts us = true) : values θ ts = values θ us := by
  induction ts generalizing us with
  | nil =>
    cases us with
    | nil => rfl
    | cons u us => cases equal
  | cons t ts ih =>
    cases us with
    | nil => cases equal
    | cons u us =>
      rw [beqItems, Bool.and_eq_true] at equal
      obtain ⟨first, others⟩ := equal
      have rest := ih (fun t member => each t (List.mem_cons_of_mem _ member)) others
      rw [values, values, each t List.mem_cons_self first, rest]

theorem value_eq_of_beq {a b : Term} (equal : (a == b) = true) (θ : Valuation) :
    a.value θ = b.value θ := by
  induction a using items_induction generalizing b with
  | var x =>
    cases b with
    | var y =>
      have same : x.id = y.id := (Var.beq_iff x y).mp equal
      rw [value, value, same]
    | atom | seq => cases equal
  | atom a =>
    cases b with
    | atom b =>
      have same : a = b := eq_of_beq equal
      rw [same]
    | var | seq => cases equal
  | seq ts ih =>
    cases b with
    | seq us => rw [value, value, values_eq_of_beqItems θ ih equal]
    | var | atom => cases equal

end Term

namespace Subst

variable {s s' : Subst} {u v a b : Term}

section Unchanged

theorem solves_of_keeps {θ : Valuation} (keeps : s.Keeps s') (solves : Solves θ s') :
    Solves θ s :=
  fun x t bound => solves x t (get?_of_keeps keeps x t bound)

theorem not_beq_of_stuck {x : Var} {t : Term} (acyclic : ¬ s.Circular) (free : s.get? x = none)
    (stuck : s.follow? t = none) (other : ∀ y, t = .var y → y.id ≠ x.id) :
    ¬ ∀ θ, Solves θ s → (Term.var x).value θ = t.value θ := by
  intro equal
  obtain ⟨a, b, left, right, same⟩ := resolve_agree acyclic equal
  have source : s.follow? (.var x) = none := free
  have target : s.walk t = some t := walkWithin_of_follow_none stuck s.size
  rw [resolve_other (walkWithin_of_follow_none source s.size) nofun] at left
  cases left
  cases t with
  | var y =>
    rw [resolve_other target nofun] at right
    cases right
    exact other y rfl ((Var.beq_iff x y).mp same).symm
  | atom c =>
    rw [resolve_other target nofun] at right
    cases right
    cases same
  | seq ts =>
    obtain ⟨rs, rfl⟩ := resolve_seq target right
    cases same

theorem eq_of_grows {Good : Term → Prop} (grows : Grows Good s s') (acyclic : ¬ s.Circular)
    (kept : ∀ θ, Solves θ s → Solves θ s') : s' = s := by
  -- The first binding already asks for more than the solutions have in common.
  cases grows with
  | refl => rfl
  | @bind _ m _ x t extended stuck other source target later =>
    have free := (extend_eq_ok extended).1
    refine absurd (fun θ solves => ?_) (not_beq_of_stuck acyclic free stuck other)
    have solves' := solves_of_keeps (keeps_of_grows later) (kept θ solves)
    exact ((solves_extend_iff extended).mp solves').2

theorem unify_unchanged (acyclic : ¬ s.Circular)
    (equal : ∀ θ, Solves θ s → u.value θ = v.value θ) : s.unify u v = .solved s := by
  obtain ⟨θ, solves, -⟩ := exists_solution acyclic fun _ => .atom .unit
  obtain ⟨s', solved, -⟩ := unify_solved (noLoops_of_not_circular acyclic) solves (equal θ solves)
  have kept (θ : Valuation) (solves : Solves θ s) : Solves θ s' :=
    (solves_of_unify solved θ).mpr ⟨solves, equal θ solves⟩
  rw [solved, eq_of_grows (grows_of_unify solved) acyclic kept]

theorem unify_unchanged_iff (acyclic : ¬ s.Circular) (left : s.resolve u = some a)
    (right : s.resolve v = some b) : s.unify u v = .solved s ↔ (a == b) = true := by
  constructor
  · intro solved
    obtain ⟨a', b', left', right', same⟩ :=
      resolve_agree acyclic fun θ solves => ((solves_of_unify solved θ).mp solves).2
    cases left.symm.trans left'
    cases right.symm.trans right'
    exact same
  · intro same
    refine unify_unchanged acyclic fun θ solves => ?_
    calc u.value θ = a.value θ := (value_resolve solves left).symm
      _ = b.value θ := Term.value_eq_of_beq same θ
      _ = v.value θ := value_resolve solves right

end Unchanged

section Added

theorem mem_bindings_extend {x y : Var} {t w : Term} (extended : s.extend x t = .ok s')
    (listed : (y, w) ∈ s'.bindings) : (y, w) ∈ s.bindings ∨ y = x := by
  obtain ⟨-, rfl⟩ := extend_eq_ok extended
  rw [mem_bindings] at listed ⊢
  simp only [Std.ExtTreeMap.getElem?_insert, Std.LawfulEqCmp.compare_eq_iff_eq] at listed
  split at listed
  · next same =>
    cases x
    cases y
    cases same
    cases listed
    exact .inr rfl
  · exact .inl listed

theorem get?_of_extend_none {x y : Var} {t : Term} (extended : s.extend x t = .ok s')
    (free : s'.get? y = none) : s.get? y = none := by
  rw [get?_extend extended] at free
  split at free
  · cases free
  · exact free

theorem added_of_grows {Good : Term → Prop} (grows : Grows Good s s') {x : Var} {t : Term}
    (listed : (x, t) ∈ s'.bindings) :
    (x, t) ∈ s.bindings ∨ s.get? x = none ∧ Good (.var x) := by
  induction grows with
  | refl => exact .inl listed
  | bind extended stuck other source target later ih =>
    rcases ih listed with before | ⟨free, good⟩
    · rcases mem_bindings_extend extended before with old | rfl
      · exact .inl old
      · exact .inr ⟨(extend_eq_ok extended).1, source⟩
    · exact .inr ⟨get?_of_extend_none extended free, good⟩

/-- Whatever is free and reached from the term is reached from one of the two. -/
def Reached (s : Subst) (u v t : Term) : Prop :=
  ∀ x, s.get? x = none → s.Leads x.id t → s.Leads x.id u ∨ s.Leads x.id v

theorem reached_item {ts : List Term} (reached : s.Reached u v (.seq ts)) :
    ∀ t ∈ ts, s.Reached u v t := by
  rintro t member x free ⟨first, mentions, path⟩
  exact reached x free ⟨first, .seq member mentions, path⟩

theorem reached_follows (s : Subst) (u v : Term) : Follows (s.Reached u v) s := by
  rintro y t bound reached x free ⟨first, mentions, path⟩
  exact reached x free ⟨y.id, .var rfl, path.head (depends_of_get? bound mentions)⟩

theorem grows_reached (solved : s.unify u v = .solved s') : Grows (s.Reached u v) s s' :=
  grows_unify (fun _ => reached_item) (reached_follows s u v) (fun _ _ leads => .inl leads)
    (fun _ _ leads => .inr leads) solved

theorem mentions_of_added (left : s.resolve u = some a) (right : s.resolve v = some b)
    (solved : s.unify u v = .solved s') {x : Var} {t : Term} (listed : (x, t) ∈ s'.bindings)
    (new : (x, t) ∉ s.bindings) :
    s.get? x = none ∧ (a.Mentions x.id ∨ b.Mentions x.id) := by
  rcases added_of_grows (grows_reached solved) listed with old | ⟨free, reached⟩
  · exact absurd old new
  · refine ⟨free, ?_⟩
    rcases reached x free ⟨x.id, .var rfl, .refl⟩ with leads | leads
    · exact .inl (mentions_of_leads free left leads)
    · exact .inr (mentions_of_leads free right leads)

end Added

/-- Unification changes nothing exactly where the results are equal already. Otherwise it keeps
    all bindings and adds some of variables that are left in the results, and these are enough. -/
theorem unify_adds_least (s : Subst) (acyclic : ¬ s.Circular) (u v : Term) :
    ∃ a b, s.resolve u = some a ∧ s.resolve v = some b ∧
      (s.unify u v = .solved s ↔ (a == b) = true) ∧
      ∀ s', s.unify u v = .solved s' →
        s.bindings ⊆ s'.bindings ∧ s'.nextId = s.nextId ∧
        (∀ x t, (x, t) ∈ s'.bindings → (x, t) ∉ s.bindings →
          s.get? x = none ∧ (a.Mentions x.id ∨ b.Mentions x.id)) ∧
        (¬ s'.Circular → s'.unify u v = .solved s') := by
  obtain ⟨a, left⟩ := resolve_isSome acyclic u
  obtain ⟨b, right⟩ := resolve_isSome acyclic v
  refine ⟨a, b, left, right, unify_unchanged_iff acyclic left right, fun s' solved => ?_⟩
  refine ⟨bindings_subset (keeps_unify solved), nextId_of_grows (grows_of_unify solved),
    fun x t => mentions_of_added left right solved, fun acyclic' => ?_⟩
  exact unify_unchanged acyclic' fun θ solves => ((solves_of_unify solved θ).mp solves).2

theorem cell_adds_least :
    ¬ cell.Circular ∧ ∃ s', cell.unify (.var ⟨0, "a"⟩) (.seq [.atom (.int 1)]) = .solved s' ∧
      s'.bindings = [(⟨0, "a"⟩, .seq [.var ⟨1, "b"⟩]), (⟨1, "b"⟩, .atom (.int 1))] ∧
      cell.bindings ⊆ s'.bindings ∧ s'.nextId = cell.nextId := by
  obtain ⟨a, b, -, -, -, kept⟩ :=
    unify_adds_least cell not_circular_cell (.var ⟨0, "a"⟩) (.seq [.atom (.int 1)])
  have solved : cell.unify (.var ⟨0, "a"⟩) (.seq [.atom (.int 1)]) =
      .solved { cell with entries := cell.entries.insert 1 ⟨"b", .atom (.int 1)⟩ } := rfl
  obtain ⟨subset, counter, -⟩ := kept _ solved
  exact ⟨not_circular_cell, _, solved, rfl, subset, counter⟩

end Subst

end RelationalSearch

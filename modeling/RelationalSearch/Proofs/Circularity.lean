import RelationalSearch.Proofs.Links

/-!
Circular bindings. A bound variable depends on the variables of its binding, and a substitution
is circular if some variable depends on itself through any number of bindings. Finite values solve
no circle but one of variables alone. Where there is no circle, a variable reaches more bound
variables than any that it depends on, so values for the free variables can be carried to all
others, and every such choice of values solves the substitution.
-/
namespace RelationalSearch.Subst

variable {s s' : Subst} {θ : Valuation}

def Depends (s : Subst) (first second : Nat) : Prop :=
  ∃ x t, s.get? x = some t ∧ x.id = first ∧ t.Mentions second

/-- Some variable reaches itself through bindings. -/
def Circular (s : Subst) : Prop :=
  ∃ id, Relation.TransGen s.Depends id id

theorem depends_of_get? {x : Var} {t : Term} {id : Nat} (bound : s.get? x = some t)
    (mentions : t.Mentions id) : s.Depends x.id id :=
  ⟨x, t, bound, rfl, mentions⟩

theorem not_depends_of_free {x : Var} (free : s.get? x = none) (id : Nat) :
    ¬ s.Depends x.id id := by
  rintro ⟨y, t, bound, same, -⟩
  rw [get?_congr same, free] at bound
  cases bound

theorem not_circular_of_free (free : ∀ x, s.get? x = none) : ¬ s.Circular := by
  rintro ⟨id, circle⟩
  obtain ⟨_, depends, -⟩ := Relation.TransGen.head'_iff.mp circle
  exact not_depends_of_free (free ⟨id, ""⟩) _ depends

theorem not_circular_of_ascending
    (ascending : ∀ x t, s.get? x = some t → ∀ id, t.Mentions id → x.id < id) :
    ¬ s.Circular := by
  have step {first second : Nat} (depends : s.Depends first second) : first < second := by
    obtain ⟨x, t, bound, rfl, mentions⟩ := depends
    exact ascending x t bound second mentions
  rintro ⟨id, circle⟩
  have higher {last : Nat} (path : Relation.TransGen s.Depends id last) : id < last := by
    induction path with
    | single depends => exact step depends
    | tail _ depends ih => exact Nat.lt_trans ih (step depends)
  exact Nat.lt_irrefl id (higher circle)

/-- A variable bound to a sequence that it is in. -/
def ring : Subst :=
  ⟨(∅ : Std.ExtTreeMap Nat Binding).insert 0 ⟨"x", .seq [.var ⟨0, "x"⟩]⟩, 1⟩

theorem noLoops_of_not_circular (acyclic : ¬ s.Circular) : s.NoLoops := by
  intro id loop
  refine acyclic ⟨id, loop.lift (fun id => id) ?_⟩
  rintro first second ⟨x, y, bound, rfl, rfl⟩
  exact depends_of_get? bound (.var rfl)

theorem depends_path_extend {x : Var} {t : Term} (extended : s.extend x t = .ok s')
    {first last : Nat} (path : Relation.TransGen s'.Depends first last) :
    Relation.TransGen s.Depends first last ∨
      Relation.ReflTransGen s.Depends first x.id ∧
        ∃ id, t.Mentions id ∧ Relation.ReflTransGen s.Depends id last := by
  refine path_of_new_edges (fun a b depends => ?_) path
  obtain ⟨y, u, bound, rfl, mentions⟩ := depends
  rw [get?_extend extended] at bound
  split at bound
  · next same =>
    cases bound
    exact .inr ⟨same.symm, mentions⟩
  · exact .inl (depends_of_get? bound mentions)

/-- A binding closes a circle only if some variable of the term leads to the bound one. -/
theorem not_circular_extend {x : Var} {t : Term} (extended : s.extend x t = .ok s')
    (acyclic : ¬ s.Circular)
    (apart : ∀ id, t.Mentions id → ¬ Relation.ReflTransGen s.Depends id x.id) : ¬ s'.Circular := by
  rintro ⟨id, circle⟩
  rcases depends_path_extend extended circle with old | ⟨toVar, inner, mentions, fromTerm⟩
  · exact acyclic ⟨id, old⟩
  · exact apart inner mentions (fromTerm.trans toVar)

section Values

theorem size_of_depends (solves : Solves θ s) {first second : Nat}
    (depends : s.Depends first second) :
    (θ second).size < (θ first).size ∨
      (θ second).size = (θ first).size ∧ s.Links first second := by
  obtain ⟨x, t, bound, rfl, mentions⟩ := depends
  have value := solves x t bound
  cases t with
  | var y =>
    cases mentions with
    | var same =>
      subst same
      exact .inr ⟨congrArg Ground.size value.symm, x, y, bound, rfl, rfl⟩
  | atom a => cases mentions
  | seq ts =>
    rw [value]
    exact .inl (Term.size_lt_of_mentions mentions)

theorem size_of_path (solves : Solves θ s) {first last : Nat}
    (path : Relation.TransGen s.Depends first last) :
    (θ last).size < (θ first).size ∨
      (θ last).size = (θ first).size ∧ Relation.TransGen s.Links first last := by
  induction path with
  | single depends =>
    rcases size_of_depends solves depends with less | ⟨same, link⟩
    · exact .inl less
    · exact .inr ⟨same, .single link⟩
  | tail before depends ih =>
    rcases size_of_depends solves depends with less | ⟨same, link⟩
    · left
      rcases ih with earlier | ⟨equal, -⟩ <;> omega
    · rcases ih with earlier | ⟨equal, links⟩
      · left
        omega
      · exact .inr ⟨same.trans equal, .tail links link⟩

/-- Finite values cannot solve a circle of bindings, unless it is made of links alone. -/
theorem not_circular_of_solves (noLoops : s.NoLoops) (solves : Solves θ s) : ¬ s.Circular := by
  rintro ⟨id, circle⟩
  rcases size_of_path solves circle with less | ⟨-, links⟩
  · exact Nat.lt_irrefl _ less
  · exact noLoops id links

end Values

section Reach

open Classical

/-- The number of bound variables that a variable leads to, itself included. -/
noncomputable def reach (s : Subst) (id : Nat) : Nat :=
  s.entries.keys.countP fun key => Relation.ReflTransGen s.Depends id key

theorem reach_le_size (s : Subst) (id : Nat) : s.reach id ≤ s.size := by
  rw [size, ← Std.ExtTreeMap.length_keys]
  exact List.countP_le_length

theorem reach_of_bound {x : Var} {t : Term} (bound : s.get? x = some t) : 0 < s.reach x.id :=
  List.countP_pos_iff.mpr ⟨x.id, Std.ExtTreeMap.mem_keys.mpr (mem_entries_of_get? bound),
    decide_eq_true .refl⟩

theorem reach_lt (acyclic : ¬ s.Circular) {x : Var} {t : Term} {id : Nat}
    (bound : s.get? x = some t) (mentions : t.Mentions id) : s.reach id < s.reach x.id := by
  have step := depends_of_get? bound mentions
  refine countP_lt ?_ (Std.ExtTreeMap.mem_keys.mpr (mem_entries_of_get? bound)) ?_ ?_
  · intro key _ path
    rw [decide_eq_true_eq] at path ⊢
    exact .head step path
  · rw [decide_eq_true_eq]
    intro back
    exact acyclic ⟨x.id, .head' step back⟩
  · exact decide_eq_true .refl

end Reach

/-- The given values, after so many rounds in which each bound variable has taken the value of
    its binding. -/
def carry (s : Subst) (θ : Valuation) : Nat → Valuation
  | 0 => θ
  | rounds + 1 => fun id =>
    match s.get? ⟨id, ""⟩ with
    | some t => t.value (s.carry θ rounds)
    | none => θ id

theorem carry_bound {x : Var} {t : Term} (bound : s.get? x = some t) (θ : Valuation)
    (rounds : Nat) : s.carry θ (rounds + 1) x.id = t.value (s.carry θ rounds) := by
  have same : s.get? ⟨x.id, ""⟩ = some t := bound
  simp only [carry, same]

theorem carry_free {x : Var} (free : s.get? x = none) (θ : Valuation) (rounds : Nat) :
    s.carry θ rounds x.id = θ x.id := by
  cases rounds with
  | zero => rfl
  | succ rounds =>
    have same : s.get? ⟨x.id, ""⟩ = none := free
    simp only [carry, same]

theorem carry_stable (acyclic : ¬ s.Circular) (θ : Valuation) {rounds : Nat} (x : Var)
    (enough : s.reach x.id ≤ rounds) : s.carry θ (rounds + 1) x.id = s.carry θ rounds x.id := by
  induction rounds generalizing x with
  | zero =>
    cases bound : s.get? x with
    | none => rw [carry_free bound, carry_free bound]
    | some t =>
      have none := reach_of_bound bound
      omega
  | succ rounds ih =>
    cases bound : s.get? x with
    | none => rw [carry_free bound, carry_free bound]
    | some t =>
      rw [carry_bound bound, carry_bound bound]
      apply Term.value_congr
      intro id mentions
      have less := reach_lt acyclic bound mentions
      exact ih ⟨id, ""⟩ (by dsimp only; omega)

/-- Values for the free variables extend to a solution. -/
theorem exists_solution (acyclic : ¬ s.Circular) (θ : Valuation) :
    ∃ θ', Solves θ' s ∧ ∀ x, s.get? x = none → θ' x.id = θ x.id := by
  refine ⟨s.carry θ s.size, ?_, fun x free => carry_free free θ s.size⟩
  intro x t bound
  rw [← carry_stable acyclic θ x (reach_le_size s x.id), carry_bound bound]

end RelationalSearch.Subst

import RelationalSearch.Proofs.Allocation
import RelationalSearch.Proofs.OccursCheck
import RelationalSearch.Proofs.Resolution

/-!
Resolved terms and further bindings. Where no binding is circular, resolving follows its own
recursion with no depth in it, and what it makes of a term depends only on where walking leads.
Bindings that are added later lead on from where walking has stopped. So a result can be resolved
again in place of the term, under the same bindings, where nothing changes, and under more of them,
as a search finds them. The values of a term are those of its result, and every choice of values
for what is left in the result is one of them.
-/
namespace RelationalSearch.Subst

variable {s s' : Subst} {t u r : Term} {ts rs : List Term} {f : Term → Option Term}

section Walking

theorem walk_again (walked : s.walk t = some u) : s.walk u = some u :=
  walkWithin_of_follow_none (walk_stuck walked) s.size

theorem walk_of_kept (noLoops : s'.NoLoops)
    (kept : ∀ x v, s.get? x = some v → s'.get? x = some v) (walked : s.walk t = some u) :
    s'.walk t = s'.walk u := by
  apply walkWithin_induction (motive := fun v => s'.walk t = s'.walk v) _ walked rfl
  intro v w followed same
  obtain ⟨x, rfl, bound⟩ := follow?_eq_some followed
  exact same.trans (walk_of_follow noLoops (kept x w bound))

end Walking

section Recursion

theorem mapM_of_forall₂ (each : List.Forall₂ (fun t r => f t = some r) ts rs) :
    ts.mapM f = some rs := by
  induction each with
  | nil => rfl
  | cons first _ ih => simp [List.mapM_cons, first, ih]

theorem mapM_congr (each : List.Forall₂ (fun t r => f t = f r) ts rs) :
    ts.mapM f = rs.mapM f := by
  induction each with
  | nil => rfl
  | cons first _ ih => simp [List.mapM_cons, first, ih]

theorem resolveWithin_mono {depth : Nat} (resolved : s.resolveWithin depth t = some r)
    (more : Nat) : s.resolveWithin (depth + more) t = some r := by
  induction depth generalizing t r with
  | zero => cases resolved
  | succ depth ih =>
    rw [Nat.add_right_comm]
    unfold resolveWithin at resolved ⊢
    split at resolved
    · next ts walked =>
      obtain ⟨rs, mapped, rfl⟩ := Option.map_eq_some_iff.mp resolved
      simp [mapM_of_forall₂ ((forall₂_of_mapM mapped).imp fun _ _ => ih)]
    · exact resolved

theorem resolve_of_within (acyclic : ¬ s.Circular) {depth : Nat}
    (resolved : s.resolveWithin depth t = some r) : s.resolve t = some r := by
  obtain ⟨a, found⟩ := resolve_isSome acyclic t
  obtain ⟨other, same⟩ := resolve_eq_resolveWithin s t
  -- Both depths can be raised to their sum.
  have long := resolveWithin_mono resolved other
  have long' := resolveWithin_mono (same.symm.trans found) depth
  rw [Nat.add_comm, long] at long'
  rw [found, long']

theorem resolve_eq (acyclic : ¬ s.Circular) (t : Term) :
    s.resolve t =
      match s.walk t with
      | some (.seq ts) => (ts.mapM s.resolve).map .seq
      | found => found := by
  obtain ⟨r, found⟩ := resolve_isSome acyclic t
  obtain ⟨u, walked⟩ := walk_isSome (noLoops_of_not_circular acyclic) t
  cases u with
  | var x => rw [walked, resolve_other walked nofun]
  | atom a => rw [walked, resolve_other walked nofun]
  | seq ts =>
    obtain ⟨depth, same⟩ := resolve_eq_resolveWithin s t
    rw [walked, found]
    rw [same] at found
    cases depth with
    | zero => cases found
    | succ depth =>
      rw [resolveWithin_seq walked, Option.map_eq_some_iff] at found
      obtain ⟨rs, mapped, rfl⟩ := found
      have items : List.Forall₂ (fun t r => s.resolve t = some r) ts rs :=
        (forall₂_of_mapM mapped).imp fun _ _ => resolve_of_within acyclic
      simp only [mapM_of_forall₂ items, Option.map_some]

theorem resolve_congr (acyclic : ¬ s.Circular) (same : s.walk t = s.walk u) :
    s.resolve t = s.resolve u := by
  rw [resolve_eq acyclic t, resolve_eq acyclic u, same]

theorem resolve_items (acyclic : ¬ s.Circular) (ts : List Term) :
    s.resolve (.seq ts) = (ts.mapM s.resolve).map .seq := by
  have walked : s.walk (.seq ts) = some (.seq ts) := walkWithin_of_follow_none rfl s.size
  rw [resolve_eq acyclic, walked]

end Recursion

section Later

/-- Under more bindings a result stands for the term. -/
theorem resolve_of_kept (acyclic : ¬ s'.Circular)
    (kept : ∀ x v, s.get? x = some v → s'.get? x = some v) (resolved : s.resolve t = some r) :
    s'.resolve t = s'.resolve r := by
  have noLoops := noLoops_of_not_circular acyclic
  apply resolve_induction (motive := fun t r => s'.resolve t = s'.resolve r) _ _ resolved
  · intro t u walked _
    exact resolve_congr acyclic (walk_of_kept noLoops kept walked)
  · intro t ts rs walked same
    calc s'.resolve t = s'.resolve (.seq ts) :=
          resolve_congr acyclic (walk_of_kept noLoops kept walked)
      _ = (ts.mapM s'.resolve).map .seq := resolve_items acyclic ts
      _ = (rs.mapM s'.resolve).map .seq := by rw [mapM_congr same]
      _ = s'.resolve (.seq rs) := (resolve_items acyclic rs).symm

theorem get?_of_keeps (keeps : s.Keeps s') (x : Var) (v : Term) (bound : s.get? x = some v) :
    s'.get? x = some v := by
  obtain ⟨b, entry, rfl⟩ := Option.map_eq_some_iff.mp bound
  simp [get?, keeps x.id b entry]

def ResolvesAlike (s : Subst) (t u : Term) : Prop :=
  ∃ r, s.resolve t = some r ∧ s.resolve u = some r

theorem resolvesAlike_of_kept (acyclic : ¬ s'.Circular)
    (kept : ∀ x v, s.get? x = some v → s'.get? x = some v) (resolved : s.resolve t = some r) :
    s'.ResolvesAlike r t := by
  obtain ⟨a, found⟩ := resolve_isSome acyclic r
  exact ⟨a, found, (resolve_of_kept acyclic kept resolved).trans found⟩

end Later

/-- What the substitution makes of a term, as far as it goes and no further. -/
structure MostGeneral (s : Subst) (t r : Term) : Prop where
  unbound : ∀ x, r.Mentions x.id → s.get? x = none
  again : s.resolve r = some r
  walked : ∃ u, s.walk t = some u ∧ s.resolve u = some r
  bound : ∀ x, s.get? x = some t → s.resolve (.var x) = some r
  values : ∀ θ, Solves θ s → r.value θ = t.value θ
  instances : ∀ θ, ∃ θ', Solves θ' s ∧ t.value θ' = r.value θ
  /-- Bindings that come later make of the result what they make of the term. -/
  extended : ∀ (s' : Subst), ¬ s'.Circular → (∀ x v, s.get? x = some v → s'.get? x = some v) →
    s'.ResolvesAlike r t
  /-- In particular those that a search adds to the substitution that it is given. -/
  searched : ∀ (p : Program) (g : Goal) (scope : Scope) (config : SearchConfig) (k : Nat)
    (s' : Subst), (Search.ofAnswers (p.solve g scope s) config).Delivers p.force k s' →
    ¬ s'.Circular → s'.ResolvesAlike r t

/-- Without circular bindings every term has a result, and the result is the most general one. -/
theorem resolve_mostGeneral (s : Subst) (acyclic : ¬ s.Circular) (t : Term) :
    ∃ r, s.resolve t = some r ∧ s.MostGeneral t r := by
  obtain ⟨r, resolved⟩ := resolve_isSome acyclic t
  refine ⟨r, resolved, ?_⟩
  exact {
    unbound := fun x mentions => free_of_resolve resolved mentions
    again := (resolve_of_kept acyclic (fun _ _ known => known) resolved).symm.trans resolved
    walked := by
      obtain ⟨u, walked⟩ := walk_isSome (noLoops_of_not_circular acyclic) t
      have same : s.walk u = s.walk t := (walk_again walked).trans walked.symm
      exact ⟨u, walked, (resolve_congr acyclic same).trans resolved⟩
    bound := by
      intro x known
      have same : s.walk (.var x) = s.walk t :=
        walk_of_follow (noLoops_of_not_circular acyclic) known
      exact (resolve_congr acyclic same).trans resolved
    values := fun θ solves => value_resolve solves resolved
    instances := by
      intro θ
      obtain ⟨θ', solves, chosen⟩ := exists_solution_of_results acyclic θ
      exact ⟨θ', solves, (chosen t r resolved).symm⟩
    extended := fun s' acyclic' kept => resolvesAlike_of_kept acyclic' kept resolved
    searched := by
      intro p g scope config k s' delivers acyclic'
      obtain ⟨o⟩ := Search.occurrence_of_delivers (Search.delivers_unlimited delivers)
      have keeps := keeps_of_solution (Program.occurrence_iff_solution.mp ⟨o⟩)
      exact resolvesAlike_of_kept acyclic' (get?_of_keeps keeps) resolved }

theorem not_circular_cell : ¬ cell.Circular := by
  apply not_circular_of_ascending
  rintro ⟨number, name⟩ t bound id mentions
  have bindings : cell.bindings = [(⟨0, "a"⟩, .seq [.var ⟨1, "b"⟩])] := rfl
  obtain ⟨_, listed⟩ := mem_bindings_of_get? bound
  rw [bindings, List.mem_singleton] at listed
  cases listed
  cases mentions with
  | seq member inside =>
    cases List.mem_singleton.mp member
    cases inside with
    | var same => subst same; exact Nat.zero_lt_one

theorem cell_mostGeneral :
    ¬ cell.Circular ∧
      cell.resolve (.seq [.var ⟨0, "a"⟩, .var ⟨1, "b"⟩]) =
        some (.seq [.seq [.var ⟨1, "b"⟩], .var ⟨1, "b"⟩]) ∧
      cell.MostGeneral (.seq [.var ⟨0, "a"⟩, .var ⟨1, "b"⟩])
        (.seq [.seq [.var ⟨1, "b"⟩], .var ⟨1, "b"⟩]) := by
  obtain ⟨r, resolved, mostGeneral⟩ :=
    resolve_mostGeneral cell not_circular_cell (.seq [.var ⟨0, "a"⟩, .var ⟨1, "b"⟩])
  have result : cell.resolve (.seq [.var ⟨0, "a"⟩, .var ⟨1, "b"⟩]) =
      some (.seq [.seq [.var ⟨1, "b"⟩], .var ⟨1, "b"⟩]) := rfl
  cases result.symm.trans resolved
  exact ⟨not_circular_cell, result, mostGeneral⟩

end RelationalSearch.Subst

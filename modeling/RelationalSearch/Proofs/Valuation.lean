import RelationalSearch.Unification

/-!
Valuations of variables by finite terms without variables. A valuation solves a substitution
when it gives each bound variable the instance of its binding; walking does not change the
instance of a term, and each further binding is one further equation to solve.
-/
namespace RelationalSearch

/-- A finite term without variables. -/
inductive Ground where
  | atom (a : Atom)
  | seq (items : List Ground)

abbrev Valuation := Nat → Ground

namespace Ground

mutual

def size : Ground → Nat
  | .atom _ => 1
  | .seq gs => sizeItems gs + 1

def sizeItems : List Ground → Nat
  | [] => 0
  | g :: gs => size g + sizeItems gs

end

theorem size_pos (g : Ground) : 0 < g.size := by
  cases g with
  | atom a => exact Nat.one_pos
  | seq gs => exact Nat.succ_pos _

theorem size_le_sizeItems {g : Ground} {gs : List Ground} (member : g ∈ gs) :
    g.size ≤ sizeItems gs := by
  induction gs with
  | nil => cases member
  | cons head gs ih =>
    rw [sizeItems]
    rcases List.mem_cons.mp member with rfl | later
    · omega
    · have inside := ih later
      omega

end Ground

namespace Term

inductive Mentions (id : Nat) : Term → Prop where
  | var {x : Var} (same : x.id = id) : Mentions id (.var x)
  | seq {t : Term} {ts : List Term} (member : t ∈ ts) (inside : Mentions id t) :
      Mentions id (.seq ts)

def Below (bound : Nat) (t : Term) : Prop :=
  ∀ id, t.Mentions id → id < bound

@[elab_as_elim]
theorem items_induction {motive : Term → Prop} (var : ∀ x, motive (.var x))
    (atom : ∀ a, motive (.atom a)) (seq : ∀ ts, (∀ t ∈ ts, motive t) → motive (.seq ts)) :
    ∀ t, motive t
  | .var x => var x
  | .atom a => atom a
  | .seq ts => seq ts fun t _ => items_induction var atom seq t

theorem below_of_mem {bound : Nat} {t : Term} {ts : List Term} (below : (Term.seq ts).Below bound)
    (member : t ∈ ts) : t.Below bound :=
  fun id inside => below id (.seq member inside)

theorem below_var {bound : Nat} {x : Var} (small : x.id < bound) : (Term.var x).Below bound := by
  intro id mentions
  cases mentions with
  | var same => exact same ▸ small

theorem below_atom (bound : Nat) (a : Atom) : (Term.atom a).Below bound :=
  fun _ mentions => nomatch mentions

theorem below_seq {bound : Nat} {ts : List Term} (items : ∀ t ∈ ts, t.Below bound) :
    (Term.seq ts).Below bound := by
  intro id mentions
  cases mentions with
  | seq member inside => exact items _ member id inside

theorem below_mono {first second : Nat} (more : first ≤ second) {t : Term}
    (below : t.Below first) : t.Below second :=
  fun id mentions => Nat.lt_of_lt_of_le (below id mentions) more

mutual

def value (θ : Valuation) : Term → Ground
  | .var x => θ x.id
  | .atom a => .atom a
  | .seq ts => .seq (values θ ts)

def values (θ : Valuation) : List Term → List Ground
  | [] => []
  | t :: ts => value θ t :: values θ ts

end

theorem values_eq_map (θ : Valuation) (ts : List Term) : values θ ts = ts.map (value θ) := by
  induction ts with
  | nil => rfl
  | cons t ts ih => rw [values, ih, List.map_cons]

theorem value_congr {θ θ' : Valuation} {t : Term} (same : ∀ id, t.Mentions id → θ id = θ' id) :
    t.value θ = t.value θ' := by
  induction t using items_induction with
  | var x => exact same x.id (.var rfl)
  | atom a => rfl
  | seq ts ih =>
    rw [value, value, values_eq_map, values_eq_map]
    congr 1
    apply List.map_congr_left
    intro t member
    exact ih t member fun id inside => same id (.seq member inside)

theorem size_value_lt {θ : Valuation} {t : Term} {ts : List Term} (member : t ∈ ts) :
    (t.value θ).size < ((Term.seq ts).value θ).size := by
  rw [value, Ground.size, values_eq_map]
  have inside := Ground.size_le_sizeItems (List.mem_map_of_mem (f := value θ) member)
  omega

theorem size_le_of_mentions {θ : Valuation} {id : Nat} {t : Term} (mentions : t.Mentions id) :
    (θ id).size ≤ (t.value θ).size := by
  induction mentions with
  | var same => exact Nat.le_of_eq (congrArg (fun id => (θ id).size) same.symm)
  | seq member _ ih => exact Nat.le_trans ih (Nat.le_of_lt (size_value_lt member))

theorem size_lt_of_mentions {θ : Valuation} {id : Nat} {ts : List Term}
    (mentions : (Term.seq ts).Mentions id) : (θ id).size < ((Term.seq ts).value θ).size := by
  cases mentions with
  | seq member inside =>
    exact Nat.lt_of_le_of_lt (size_le_of_mentions inside) (size_value_lt member)

end Term

namespace Subst

variable {θ : Valuation} {s s' : Subst} {t u : Term}

/-- The valuation satisfies every binding. -/
def Solves (θ : Valuation) (s : Subst) : Prop :=
  ∀ x t, s.get? x = some t → θ x.id = t.value θ

/-- Every bound variable and every variable in a binding has a number that has been handed
    out. -/
def Scoped (s : Subst) : Prop :=
  ∀ x t, s.get? x = some t → x.id < s.nextId ∧ t.Below s.nextId

theorem get?_congr {x y : Var} (same : x.id = y.id) : s.get? x = s.get? y := by
  rw [get?, get?, same]

theorem follow?_eq_some (followed : s.follow? t = some u) :
    ∃ x, t = .var x ∧ s.get? x = some u := by
  cases t with
  | var x => exact ⟨x, rfl, followed⟩
  | atom a => cases followed
  | seq ts => cases followed

theorem follow?_value (solves : Solves θ s) (followed : s.follow? t = some u) :
    u.value θ = t.value θ := by
  obtain ⟨x, rfl, bound⟩ := follow?_eq_some followed
  exact (solves x u bound).symm

theorem walk_stuck (walked : s.walk t = some u) : s.follow? u = none := by
  obtain ⟨_, -, -, last⟩ := walkWithin_eq_some_iff.mp walked
  exact last

theorem walkWithin_induction {motive : Term → Prop} {hops : Nat}
    (step : ∀ t u, s.follow? t = some u → motive t → motive u)
    (walked : s.walkWithin hops t = some u) (start : motive t) : motive u := by
  rw [walkWithin_eq_some_iff] at walked
  obtain ⟨_, -, path, -⟩ := walked
  induction path with
  | stay t => exact start
  | hop followed later ih => exact ih (step _ _ followed start)

theorem walk_value (solves : Solves θ s) (walked : s.walk t = some u) :
    u.value θ = t.value θ :=
  walkWithin_induction (motive := fun v => v.value θ = t.value θ)
    (fun _ _ followed same => (follow?_value solves followed).trans same) walked rfl

theorem get?_of_extend {x y : Var} (extended : s.extend x t = .ok s') (bound : s.get? y = some u) :
    s'.get? y = some u := by
  rw [get?_extend extended]
  split
  · next same =>
    rw [← get?_congr same, (extend_eq_ok extended).1] at bound
    cases bound
  · exact bound

theorem solves_extend_iff {x : Var} (extended : s.extend x t = .ok s') :
    Solves θ s' ↔ Solves θ s ∧ θ x.id = t.value θ := by
  constructor
  · intro solves
    refine ⟨fun y u bound => solves y u (get?_of_extend extended bound), ?_⟩
    apply solves x t
    rw [get?_extend extended, if_pos rfl]
  · rintro ⟨solves, new⟩ y u bound
    rw [get?_extend extended] at bound
    split at bound
    · next same =>
      cases bound
      rw [← same]
      exact new
    · exact solves y u bound

theorem nextId_of_extend {x : Var} (extended : s.extend x t = .ok s') : s'.nextId = s.nextId := by
  obtain ⟨-, rfl⟩ := extend_eq_ok extended
  rfl

theorem scoped_extend {x : Var} (extended : s.extend x t = .ok s') (inScope : s.Scoped)
    (small : x.id < s.nextId) (below : t.Below s.nextId) : s'.Scoped := by
  intro y u bound
  rw [nextId_of_extend extended]
  rw [get?_extend extended] at bound
  split at bound
  · next same =>
    cases bound
    exact ⟨same ▸ small, below⟩
  · exact inScope y u bound

theorem solves_congr {θ' : Valuation} (inScope : s.Scoped) (same : ∀ id < s.nextId, θ id = θ' id)
    (solves : Solves θ s) : Solves θ' s := by
  intro x t bound
  obtain ⟨small, below⟩ := inScope x t bound
  rw [← same x.id small, ← Term.value_congr fun id mentions => same id (below id mentions)]
  exact solves x t bound

theorem get?_freshAll (s : Subst) (names : List String) (x : Var) :
    (s.freshAll names).2.get? x = s.get? x := by
  induction names generalizing s with
  | nil => rfl
  | cons name names ih => exact ih (s.fresh name).2

theorem length_freshAll (s : Subst) (names : List String) :
    (s.freshAll names).1.length = names.length := by
  induction names generalizing s with
  | nil => rfl
  | cons name names ih => exact congrArg (· + 1) (ih (s.fresh name).2)

theorem solves_freshAll_iff (names : List String) :
    Solves θ (s.freshAll names).2 ↔ Solves θ s := by
  simp only [Solves, get?_freshAll]

end Subst

end RelationalSearch

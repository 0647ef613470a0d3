import RelationalSearch.Program
import RelationalSearch.Proofs.Valuation

/-!
The logical reading of goals. An equation holds when both sides have the same instance,
conjunction and disjunction are read as such, new variables stand for some values, and calls
unfold; what holds is the least relation with these rules. A scope is read by giving every
variable in its terms a value. That something is a variable stays known, for a choice or a sum
is made by the term at hand and not by its instance.
-/
namespace RelationalSearch

/-- A term whose variables have values. -/
inductive Reading where
  | var (value : Ground)
  | atom (a : Atom)
  | seq (items : List Reading)

namespace Reading

mutual

def value : Reading → Ground
  | .var g => g
  | .atom a => .atom a
  | .seq rs => .seq (values rs)

def values : List Reading → List Ground
  | [] => []
  | r :: rs => value r :: values rs

end

end Reading

namespace Term

mutual

def read (θ : Valuation) : Term → Reading
  | .var x => .var (θ x.id)
  | .atom a => .atom a
  | .seq ts => .seq (readItems θ ts)

def readItems (θ : Valuation) : List Term → List Reading
  | [] => []
  | t :: ts => read θ t :: readItems θ ts

end

theorem readItems_eq_map (θ : Valuation) (ts : List Term) : readItems θ ts = ts.map (read θ) := by
  induction ts with
  | nil => rfl
  | cons t ts ih => rw [readItems, ih, List.map_cons]

mutual

theorem value_read (θ : Valuation) : ∀ t : Term, (t.read θ).value = t.value θ
  | .var _ => rfl
  | .atom _ => rfl
  | .seq ts => by rw [read, Reading.value, values_readItems θ ts, value]

theorem values_readItems (θ : Valuation) :
    ∀ ts : List Term, Reading.values (readItems θ ts) = values θ ts
  | [] => rfl
  | t :: ts => by rw [readItems, Reading.values, value_read θ t, values_readItems θ ts, values]

end

theorem read_congr {θ θ' : Valuation} {t : Term} (same : ∀ id, t.Mentions id → θ id = θ' id) :
    t.read θ = t.read θ' := by
  induction t using items_induction with
  | var x => exact congrArg Reading.var (same x.id (.var rfl))
  | atom a => rfl
  | seq ts ih =>
    rw [read, read, readItems_eq_map, readItems_eq_map]
    congr 1
    apply List.map_congr_left
    intro t member
    exact ih t member fun id inside => same id (.seq member inside)

theorem read_eq_atom_iff (θ : Valuation) (t : Term) (a : Atom) :
    t.read θ = .atom a ↔ t = .atom a := by
  cases t with
  | var x => constructor <;> intro same <;> cases same
  | atom b =>
    rw [read, Reading.atom.injEq, Term.atom.injEq]
  | seq ts => constructor <;> intro same <;> cases same

end Term

abbrev Env := List (String × Reading)

namespace Env

def define (env : Env) (name : String) (r : Reading) : Env :=
  (name, r) :: env

def defineAll (env : Env) : List String → List Reading → Env
  | name :: names, r :: rs => (env.define name r).defineAll names rs
  | _, _ => env

end Env

namespace Scope

def read (θ : Valuation) (scope : Scope) : Env :=
  scope.map fun entry => (entry.1, entry.2.read θ)

theorem read_defineAll (θ : Valuation) (scope : Scope) (names : List String) (ts : List Term) :
    (scope.defineAll names ts).read θ =
      Env.defineAll (scope.read θ) names (ts.map (Term.read θ)) := by
  induction names generalizing scope ts with
  | nil => rfl
  | cons name names ih =>
    cases ts with
    | nil => rfl
    | cons t ts => exact ih (scope.define name t) ts

theorem read_defineVars (θ : Valuation) (scope : Scope) (names : List String) (xs : List Var) :
    (scope.defineAll names (xs.map .var)).read θ =
      Env.defineAll (scope.read θ) names ((xs.map fun x => θ x.id).map .var) := by
  rw [read_defineAll, List.map_map, List.map_map]
  rfl

theorem lookup_read (θ : Valuation) (scope : Scope) (name : String) :
    (scope.read θ).lookup name = (scope.lookup name).map (Term.read θ) := by
  induction scope with
  | nil => rfl
  | cons entry scope ih =>
    obtain ⟨known, t⟩ := entry
    rw [read, List.map_cons, List.lookup_cons, List.lookup_cons]
    cases name == known with
    | true => rfl
    | false => exact ih

end Scope

namespace Expr

mutual

def evalRead (env : Env) : Expr → Option Reading
  | .ref name => env.lookup name
  | .atom a => some (.atom a)
  | .seq es => (evalReadAll env es).map .seq
  | .add e k =>
    match evalRead env e with
    | some (.atom (.int i)) => some (.atom (.int (i + k)))
    | _ => none

def evalReadAll (env : Env) : List Expr → Option (List Reading)
  | [] => some []
  | e :: es =>
    match evalRead env e, evalReadAll env es with
    | some r, some rs => some (r :: rs)
    | _, _ => none

end

mutual

theorem evalRead_read (θ : Valuation) (scope : Scope) :
    ∀ e : Expr, e.evalRead (scope.read θ) = (e.eval scope).map (Term.read θ)
  | .ref name => Scope.lookup_read θ scope name
  | .atom _ => rfl
  | .seq es => by
    rw [evalRead, evalReadAll_read θ scope es, eval]
    cases evalAll scope es with
    | none => rfl
    | some ts => rw [Option.map_some, Option.map_some, Option.map_some, Option.map_some, Term.read,
        Term.readItems_eq_map]
  | .add e k => by
    rw [evalRead, evalRead_read θ scope e, eval]
    cases eval scope e with
    | none => rfl
    | some t =>
      cases t with
      | var x => rfl
      | seq ts => rfl
      | atom a => cases a <;> rfl

theorem evalReadAll_read (θ : Valuation) (scope : Scope) :
    ∀ es : List Expr, evalReadAll (scope.read θ) es =
      (evalAll scope es).map (List.map (Term.read θ))
  | [] => rfl
  | e :: es => by
    rw [evalReadAll, evalRead_read θ scope e, evalReadAll_read θ scope es, evalAll]
    cases eval scope e with
    | none => rfl
    | some t =>
      cases evalAll scope es with
      | none => rfl
      | some ts => rfl

end

end Expr

/-- What a goal says, when the names in its scope stand for the given readings. -/
inductive Holds (p : Program) : Goal → Env → Prop where
  | succeed {env : Env} : Holds p .succeed env
  | always {env : Env} : Holds p .always env
  | eq {env : Env} {u v : Expr} {a b : Reading} (left : u.evalRead env = some a)
      (right : v.evalRead env = some b) (equal : a.value = b.value) : Holds p (.eq u v) env
  | conj {env : Env} {g h : Goal} (first : Holds p g env) (second : Holds p h env) :
      Holds p (.conj g h) env
  | disj_left {env : Env} {g : Goal} (h : Goal) (holds : Holds p g env) :
      Holds p (.disj g h) env
  | disj_right {env : Env} (g : Goal) {h : Goal} (holds : Holds p h env) :
      Holds p (.disj g h) env
  | fresh {env : Env} {names : List String} {body : Goal} (values : List Ground)
      (count : values.length = names.length)
      (holds : Holds p body (env.defineAll names (values.map .var))) :
      Holds p (.fresh names body) env
  | defer {env : Env} {body : Goal} (holds : Holds p body env) : Holds p (.defer body) env
  | call {env : Env} {name : String} {args : List Expr} {rs : List Reading} {r : Relation}
      (arguments : Expr.evalReadAll env args = some rs) (known : p.relations.lookup name = some r)
      (holds : Holds p r.body (Env.defineAll [] r.params rs)) : Holds p (.call name args) env
  | if_zero {env : Env} {e : Expr} {g : Goal} (h : Goal)
      (value : e.evalRead env = some (.atom (.int 0))) (holds : Holds p g env) :
      Holds p (.ifZero e g h) env
  | if_other {env : Env} {e : Expr} (g : Goal) {h : Goal} {r : Reading}
      (value : e.evalRead env = some r) (other : r ≠ .atom (.int 0)) (holds : Holds p h env) :
      Holds p (.ifZero e g h) env
  | copies {env : Env} {n : Nat} (some : 0 < n) : Holds p (.copies n) env

theorem holds_conjAll_iff {p : Program} {goals : List Goal} {env : Env} :
    Holds p (.conjAll goals) env ↔ ∀ g ∈ goals, Holds p g env := by
  induction goals with
  | nil =>
    constructor
    · intro _ g member
      cases member
    · exact fun _ => .succeed
  | cons g more ih =>
    rw [List.forall_mem_cons, ← ih]
    cases more with
    | nil => exact ⟨fun holds => ⟨holds, .succeed⟩, And.left⟩
    | cons h more =>
      rw [Goal.conjAll_cons_cons]
      constructor
      · intro both
        cases both with
        | conj first rest => exact ⟨first, rest⟩
      · intro both
        exact .conj both.1 both.2

theorem holds_disjAll_iff {p : Program} {goals : List Goal} {env : Env} :
    Holds p (.disjAll goals) env ↔ ∃ g ∈ goals, Holds p g env := by
  induction goals with
  | nil =>
    constructor
    · intro fails
      cases fails
    · rintro ⟨g, member, _⟩
      cases member
  | cons g more ih =>
    simp only [List.mem_cons, exists_eq_or_imp]
    rw [← ih]
    cases more with
    | nil =>
      constructor
      · exact .inl
      · rintro (holds | fails)
        · exact holds
        · cases fails
    | cons h more =>
      rw [Goal.disjAll_cons_cons]
      constructor
      · intro either
        cases either with
        | disj_left _ first => exact .inl first
        | disj_right _ rest => exact .inr rest
      · rintro (first | rest)
        · exact .disj_left _ first
        · exact .disj_right _ rest

end RelationalSearch

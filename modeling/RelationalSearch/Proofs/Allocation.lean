import RelationalSearch.Proofs.Unifications
import RelationalSearch.Proofs.Scoping
import RelationalSearch.Proofs.StepLimit

/-!
The variables handed out on the way to an answer. A trail lists them in order, each with the scope
and the substitution at the moment it was handed out. Their numbers are the ones that follow the
counter, so each is new to that substitution and to that scope; what was bound before stays bound
to the same term. Other branches of a search hand out the same numbers again, so all this is said
of one way to an answer at a time.
-/
namespace RelationalSearch

namespace Subst

variable {s m s' : Subst} {u v : Term}

/-- Every binding of the first substitution is in the second, with the same name and term. -/
def Keeps (s s' : Subst) : Prop :=
  ∀ (id : Nat) (b : Binding), s.entries[id]? = some b → s'.entries[id]? = some b

theorem keeps_refl (s : Subst) : s.Keeps s :=
  fun _ _ entry => entry

theorem keeps_trans (first : s.Keeps m) (second : m.Keeps s') : s.Keeps s' :=
  fun id b entry => second id b (first id b entry)

theorem keeps_extend {x : Var} {t : Term} (extended : s.extend x t = .ok s') : s.Keeps s' := by
  obtain ⟨free, rfl⟩ := extend_eq_ok extended
  intro id b entry
  simp only [Std.ExtTreeMap.getElem?_insert, Std.LawfulEqCmp.compare_eq_iff_eq]
  split
  · next same =>
    rw [get?, same, entry] at free
    cases free
  · exact entry

theorem keeps_of_grows {Good : Term → Prop} (grows : Grows Good s s') : s.Keeps s' := by
  induction grows with
  | refl => exact keeps_refl _
  | bind extended stuck other source target later ih => exact keeps_trans (keeps_extend extended) ih

theorem keeps_unify (solved : s.unify u v = .solved s') : s.Keeps s' :=
  keeps_of_grows (grows_of_unify solved)

theorem entries_freshAll (s : Subst) (names : List String) :
    (s.freshAll names).2.entries = s.entries := by
  induction names generalizing s with
  | nil => rfl
  | cons name names ih => exact ih (s.fresh name).2

theorem bindings_subset (keeps : s.Keeps s') : s.bindings ⊆ s'.bindings := by
  rintro ⟨x, t⟩ listed
  exact mem_bindings.mpr (keeps x.id ⟨x.name, t⟩ (mem_bindings.mp listed))

end Subst

/-- A variable with the scope and the substitution at the moment it was handed out. -/
structure Allocation where
  var : Var
  scope : Scope
  subst : Subst

namespace Allocation

structure Fresh (a : Allocation) : Prop where
  unbound : ∀ x t, a.subst.get? x = some t → x.id ≠ a.var.id ∧ ¬ t.Mentions a.var.id
  unnamed : ∀ entry ∈ a.scope, ¬ entry.2.Mentions a.var.id

def all (scope : Scope) (s : Subst) : List String → List Allocation
  | [] => []
  | name :: names =>
    let (x, s') := s.fresh name
    ⟨x, scope, s⟩ :: all (scope.define name (.var x)) s' names

theorem vars_all (scope : Scope) (s : Subst) (names : List String) :
    (all scope s names).map var = (s.freshAll names).1 := by
  induction names generalizing scope s with
  | nil => rfl
  | cons name names ih => exact congrArg (List.cons _) (ih _ (s.fresh name).2)

theorem length_all (scope : Scope) (s : Subst) (names : List String) :
    (all scope s names).length = names.length := by
  rw [← List.length_map (f := var), vars_all, Subst.length_freshAll]

theorem ids_all (scope : Scope) (s : Subst) (names : List String) :
    (all scope s names).map (fun a => a.var.id) = List.range' s.nextId names.length := by
  induction names generalizing scope s with
  | nil => rfl
  | cons name names ih =>
    rw [List.length_cons, List.range'_succ]
    exact congrArg (List.cons s.nextId) (ih _ (s.fresh name).2)

theorem fresh_of_counter {scope : Scope} {s : Subst} (name : String)
    (below : scope.Below s.nextId) (inScope : s.Scoped) :
    Fresh ⟨(s.fresh name).1, scope, s⟩ where
  unbound x t known :=
    ⟨Nat.ne_of_lt (inScope x t known).1, fun inside =>
      Nat.lt_irrefl _ ((inScope x t known).2 s.nextId inside)⟩
  unnamed entry member inside := Nat.lt_irrefl _ (below entry member s.nextId inside)

theorem fresh_all {scope : Scope} {s : Subst} (names : List String)
    (below : scope.Below s.nextId) (inScope : s.Scoped) : ∀ a ∈ all scope s names, a.Fresh := by
  induction names generalizing scope s with
  | nil => exact fun _ member => nomatch member
  | cons name names ih =>
    intro a member
    rcases List.mem_cons.mp member with rfl | later
    · exact fresh_of_counter name below inScope
    · have wider : Scope.Below (s.nextId + 1) (scope.define name (.var (s.fresh name).1)) :=
        Scope.below_define (Scope.below_mono (Nat.le_succ _) below) name
          (Term.below_var (Nat.lt_succ_self _))
      exact ih (s := (s.fresh name).2) wider (Subst.scoped_freshAll inScope [name]) a later

end Allocation

/-- The goal leads from the first substitution to the second, and these variables are handed out
    on the way. -/
inductive Trail (p : Program) : Goal → Scope → Subst → List Allocation → Subst → Prop where
  | succeed (scope : Scope) (s : Subst) : Trail p .succeed scope s [] s
  | always (scope : Scope) (s : Subst) : Trail p .always scope s [] s
  | eq {scope : Scope} {u v : Expr} {a b : Term} {s s' : Subst} (left : u.eval scope = some a)
      (right : v.eval scope = some b) (solved : s.unify a b = .solved s') :
      Trail p (.eq u v) scope s [] s'
  | conj {scope : Scope} {g h : Goal} {s m s' : Subst} {before after : List Allocation}
      (first : Trail p g scope s before m) (second : Trail p h scope m after s') :
      Trail p (.conj g h) scope s (before ++ after) s'
  | disj_left {scope : Scope} {g : Goal} (h : Goal) {s s' : Subst} {trail : List Allocation}
      (inside : Trail p g scope s trail s') : Trail p (.disj g h) scope s trail s'
  | disj_right {scope : Scope} (g : Goal) {h : Goal} {s s' : Subst} {trail : List Allocation}
      (inside : Trail p h scope s trail s') : Trail p (.disj g h) scope s trail s'
  | fresh {scope : Scope} {names : List String} {body : Goal} {s s' : Subst}
      {trail : List Allocation}
      (inside : Trail p body (scope.defineAll names ((s.freshAll names).1.map .var))
        (s.freshAll names).2 trail s') :
      Trail p (.fresh names body) scope s (Allocation.all scope s names ++ trail) s'
  | defer {scope : Scope} {body : Goal} {s s' : Subst} {trail : List Allocation}
      (inside : Trail p body scope s trail s') : Trail p (.defer body) scope s trail s'
  | call {scope : Scope} {name : String} {args : List Expr} {ts : List Term} {r : Relation}
      {s s' : Subst} {trail : List Allocation} (arguments : Expr.evalAll scope args = some ts)
      (known : p.relations.lookup name = some r)
      (inside : Trail p r.body (Scope.defineAll [] r.params ts) s trail s') :
      Trail p (.call name args) scope s trail s'
  | if_zero {scope : Scope} {e : Expr} {g : Goal} (h : Goal) {s s' : Subst}
      {trail : List Allocation} (value : e.eval scope = some (.atom (.int 0)))
      (inside : Trail p g scope s trail s') : Trail p (.ifZero e g h) scope s trail s'
  | if_other {scope : Scope} {e : Expr} (g : Goal) {h : Goal} {t : Term} {s s' : Subst}
      {trail : List Allocation} (value : e.eval scope = some t) (other : t ≠ .atom (.int 0))
      (inside : Trail p h scope s trail s') : Trail p (.ifZero e g h) scope s trail s'
  | copies {n : Nat} (scope : Scope) (s : Subst) (some : 0 < n) :
      Trail p (.copies n) scope s [] s

section Trails

variable {p : Program} {g : Goal} {scope : Scope} {s s' : Subst} {trail : List Allocation}

/-- Every derivation has a trail, and every trail is that of a derivation. -/
theorem trail_iff_solution : (∃ trail, Trail p g scope s trail s') ↔ Solution p g scope s s' := by
  constructor
  · rintro ⟨trail, trailed⟩
    induction trailed with
    | succeed scope s => exact .succeed scope s
    | always scope s => exact .always scope s
    | eq left right solved => exact .eq left right solved
    | conj first second ihFirst ihSecond => exact .conj ihFirst ihSecond
    | disj_left h inside ih => exact .disj_left h ih
    | disj_right g inside ih => exact .disj_right g ih
    | fresh inside ih => exact .fresh ih
    | defer inside ih => exact .defer ih
    | call arguments known inside ih => exact .call arguments known ih
    | if_zero h value inside ih => exact .if_zero h value ih
    | if_other g value other inside ih => exact .if_other g value other ih
    | copies scope s some => exact .copies scope s some
  · intro solution
    induction solution with
    | succeed scope s => exact ⟨_, .succeed scope s⟩
    | always scope s => exact ⟨_, .always scope s⟩
    | eq left right solved => exact ⟨_, .eq left right solved⟩
    | conj first second ihFirst ihSecond =>
      obtain ⟨before, first⟩ := ihFirst
      obtain ⟨after, second⟩ := ihSecond
      exact ⟨_, .conj first second⟩
    | disj_left h inside ih => exact ih.imp fun _ => .disj_left h
    | disj_right g inside ih => exact ih.imp fun _ => .disj_right g
    | fresh inside ih =>
      obtain ⟨trail, inside⟩ := ih
      exact ⟨_, .fresh inside⟩
    | defer inside ih => exact ih.imp fun _ => .defer
    | call arguments known inside ih => exact ih.imp fun _ => .call arguments known
    | if_zero h value inside ih => exact ih.imp fun _ => .if_zero h value
    | if_other g value other inside ih => exact ih.imp fun _ => .if_other g value other
    | copies scope s some => exact ⟨_, .copies scope s some⟩

theorem keeps_of_solution (solution : Solution p g scope s s') : s.Keeps s' := by
  induction solution with
  | succeed | always | copies => exact Subst.keeps_refl _
  | eq left right solved => exact Subst.keeps_unify solved
  | conj first second ihFirst ihSecond => exact Subst.keeps_trans ihFirst ihSecond
  | fresh inside ih =>
    intro id b entry
    apply ih id b
    rw [Subst.entries_freshAll]
    exact entry
  | disj_left _ _ ih | disj_right _ _ ih | defer _ ih | call _ _ _ ih | if_zero _ _ _ ih
  | if_other _ _ _ _ ih => exact ih

theorem ids_of_trail (trailed : Trail p g scope s trail s') :
    trail.map (fun a => a.var.id) = List.range' s.nextId trail.length ∧
      s'.nextId = s.nextId + trail.length := by
  induction trailed with
  | succeed | always | copies => exact ⟨rfl, rfl⟩
  | eq left right solved =>
    exact ⟨rfl, Subst.nextId_of_grows (Subst.grows_of_unify solved)⟩
  | conj first second ihFirst ihSecond =>
    obtain ⟨ids, counter⟩ := ihFirst
    obtain ⟨ids', counter'⟩ := ihSecond
    rw [List.map_append, ids, ids', counter, List.length_append, List.range'_append_1]
    exact ⟨rfl, by omega⟩
  | @fresh scope names body s s' trail inside ih =>
    obtain ⟨ids, counter⟩ := ih
    rw [Subst.nextId_freshAll] at ids counter
    rw [List.map_append, Allocation.ids_all, ids, List.length_append, Allocation.length_all,
      List.range'_append_1]
    exact ⟨rfl, by omega⟩
  | disj_left _ _ ih | disj_right _ _ ih | defer _ ih | call _ _ _ ih | if_zero _ _ _ ih
  | if_other _ _ _ _ ih => exact ih

theorem fresh_of_trail (trailed : Trail p g scope s trail s') (below : scope.Below s.nextId)
    (inScope : s.Scoped) : ∀ a ∈ trail, a.Fresh := by
  -- The induction is on the trail: what is known of scope and substitution at the start of each
  -- part is what is needed when its variables are handed out.
  induction trailed with
  | succeed | always | copies | eq => exact fun _ member => nomatch member
  | conj first second ihFirst ihSecond =>
    obtain ⟨between, more⟩ := scoped_of_solution (trail_iff_solution.mp ⟨_, first⟩) below inScope
    intro a member
    rcases List.mem_append.mp member with before | after
    · exact ihFirst below inScope a before
    · exact ihSecond (Scope.below_mono more below) between a after
  | @fresh scope names body s s' trail inside ih =>
    intro a member
    rcases List.mem_append.mp member with here | later
    · exact Allocation.fresh_all names below inScope a here
    · exact ih (Subst.scope_freshAll below names) (Subst.scoped_freshAll inScope names) a later
  | @call scope name args ts r s s' trail arguments known inside ih =>
    have terms := Expr.evalAll_below below args ts arguments
    exact ih (Scope.below_defineAll (Scope.below_nil _) r.params terms) inScope
  | disj_left _ _ ih | disj_right _ _ ih | defer _ ih | if_zero _ _ _ ih
  | if_other _ _ _ _ ih => exact ih below inScope

end Trails

/-- Whatever a search delivers extends the substitution that the goal was given, and every way to
    it has handed out new variables only, in increasing order. -/
theorem delivered_answers_extend (p : Program) (g : Goal) (scope : Scope) (s s' : Subst)
    (below : scope.Below s.nextId) (inScope : s.Scoped) (config : SearchConfig) (k : Nat)
    (delivers : (Search.ofAnswers (p.solve g scope s) config).Delivers p.force k s') :
    s'.Scoped ∧ s.bindings ⊆ s'.bindings ∧ s.nextId ≤ s'.nextId ∧
      (∃ trail, Trail p g scope s trail s') ∧
      ∀ trail, Trail p g scope s trail s' →
        (∀ a ∈ trail, a.Fresh ∧ s.nextId ≤ a.var.id ∧ a.var.id < s'.nextId) ∧
        (trail.map fun a => a.var.id).Pairwise (· < ·) := by
  obtain ⟨o⟩ := Search.occurrence_of_delivers (Search.delivers_unlimited delivers)
  have solution := Program.occurrence_iff_solution.mp ⟨o⟩
  obtain ⟨after, more⟩ := scoped_of_solution solution below inScope
  refine ⟨after, Subst.bindings_subset (keeps_of_solution solution), more,
    trail_iff_solution.mpr solution, fun trail trailed => ?_⟩
  obtain ⟨ids, counter⟩ := ids_of_trail trailed
  refine ⟨fun a member => ⟨fresh_of_trail trailed below inScope a member, ?_⟩, ?_⟩
  · have listed : a.var.id ∈ trail.map fun a => a.var.id := List.mem_map_of_mem member
    rw [ids, List.mem_range'_1] at listed
    rw [counter]
    exact listed
  · rw [ids]
    exact List.pairwise_lt_range'

theorem peano_one_extends :
    let start := (Subst.empty.fresh "n").2
    let scope : Scope := [("n", .var ⟨0, "n"⟩)]
    scope.Below start.nextId ∧ start.Scoped ∧
      ∃ k s', (Search.ofAnswers (Program.peano.solve (.call "peano" [.ref "n"]) scope start)
          .unbounded).Delivers Program.peano.force k s' ∧
        s'.nextId = 2 ∧ s'.Scoped ∧ start.bindings ⊆ s'.bindings ∧
        ∃ a, Trail Program.peano (.call "peano" [.ref "n"]) scope start [a] s' ∧
          a.var.id = 1 ∧ a.Fresh := by
  intro start scope
  have below : Scope.Below start.nextId scope :=
    Scope.below_define (Scope.below_nil _) "n" (Term.below_var Nat.one_pos)
  have inScope : start.Scoped := by
    intro x t bound
    cases (Subst.get?_empty x).symm.trans bound
  have one : Trail Program.peano (.call "peano" [.ref "n"]) scope start [_] _ :=
    .call rfl rfl (.disj_right _ (.fresh (.conj (.eq rfl rfl rfl)
      (.defer (.call rfl rfl (.disj_left _ (.eq rfl rfl rfl)))))))
  obtain ⟨k, delivers⟩ := Program.delivers_of_solution Program.peano_guarded
    Program.peano_decides (trail_iff_solution.mp ⟨_, one⟩)
  obtain ⟨after, kept, -, -, trails⟩ := delivered_answers_extend Program.peano _ scope start _
    below inScope .unbounded k delivers
  obtain ⟨fresh, -, -⟩ := (trails _ one).1 _ List.mem_cons_self
  exact ⟨below, inScope, k, _, delivers, rfl, after, kept, _, one, rfl, fresh⟩

end RelationalSearch

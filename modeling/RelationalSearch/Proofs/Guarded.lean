import RelationalSearch.Proofs.Solutions

/-!
Programs whose relations call themselves only under a deferral. What such a program starts is done
starting after finitely many calls. So where in addition every unification that solving a goal can
come to has an end, the goal has a stream whose evaluation between two forcings is finite, and a
search delivers every answer that can be derived.
-/
namespace RelationalSearch

open Answers

namespace Goal

/-- The goal calls the relation before anything is deferred. -/
inductive CallsAtOnce : Goal → String → Prop where
  | call (name : String) (args : List Expr) : CallsAtOnce (.call name args) name
  | conj_left {g : Goal} (h : Goal) {name : String} (inside : CallsAtOnce g name) :
      CallsAtOnce (.conj g h) name
  | conj_right (g : Goal) {h : Goal} {name : String} (inside : CallsAtOnce h name) :
      CallsAtOnce (.conj g h) name
  | disj_left {g : Goal} (h : Goal) {name : String} (inside : CallsAtOnce g name) :
      CallsAtOnce (.disj g h) name
  | disj_right (g : Goal) {h : Goal} {name : String} (inside : CallsAtOnce h name) :
      CallsAtOnce (.disj g h) name
  | fresh (names : List String) {body : Goal} {name : String} (inside : CallsAtOnce body name) :
      CallsAtOnce (.fresh names body) name
  | if_zero (e : Expr) {g : Goal} (h : Goal) {name : String} (inside : CallsAtOnce g name) :
      CallsAtOnce (.ifZero e g h) name
  | if_other (e : Expr) (g : Goal) {h : Goal} {name : String} (inside : CallsAtOnce h name) :
      CallsAtOnce (.ifZero e g h) name

end Goal

namespace Program

variable {p : Program} {g h : Goal} {scope : Scope} {s s' m : Subst} {a b : Term}

def CallsAtOnce (p : Program) (callee caller : String) : Prop :=
  ∃ r, p.relations.lookup caller = some r ∧ r.body.CallsAtOnce callee

/-- Chains of calls that are not deferred come to an end; in particular no relation calls
    itself in that way. -/
def Guarded (p : Program) : Prop :=
  WellFounded p.CallsAtOnce

/-- Solving the goal from the first substitution, the two terms are to be unified in the second. -/
inductive Unifies (p : Program) : Goal → Scope → Subst → Subst → Term → Term → Prop where
  | eq {scope : Scope} {u v : Expr} {s : Subst} {a b : Term} (left : u.eval scope = some a)
      (right : v.eval scope = some b) : Unifies p (.eq u v) scope s s a b
  | conj_first {scope : Scope} {g : Goal} (h : Goal) {s m : Subst} {a b : Term}
      (inside : Unifies p g scope s m a b) : Unifies p (.conj g h) scope s m a b
  | conj_second {scope : Scope} {g h : Goal} {s s' m : Subst} {a b : Term}
      (first : Solution p g scope s s') (inside : Unifies p h scope s' m a b) :
      Unifies p (.conj g h) scope s m a b
  | disj_left {scope : Scope} {g : Goal} (h : Goal) {s m : Subst} {a b : Term}
      (inside : Unifies p g scope s m a b) : Unifies p (.disj g h) scope s m a b
  | disj_right {scope : Scope} (g : Goal) {h : Goal} {s m : Subst} {a b : Term}
      (inside : Unifies p h scope s m a b) : Unifies p (.disj g h) scope s m a b
  | fresh {scope : Scope} {names : List String} {body : Goal} {s m : Subst} {a b : Term}
      (inside : Unifies p body (scope.defineAll names ((s.freshAll names).1.map .var))
        (s.freshAll names).2 m a b) : Unifies p (.fresh names body) scope s m a b
  | defer {scope : Scope} {body : Goal} {s m : Subst} {a b : Term}
      (inside : Unifies p body scope s m a b) : Unifies p (.defer body) scope s m a b
  | call {scope : Scope} {name : String} {args : List Expr} {ts : List Term} {r : Relation}
      {s m : Subst} {a b : Term} (arguments : Expr.evalAll scope args = some ts)
      (known : p.relations.lookup name = some r)
      (inside : Unifies p r.body (Scope.defineAll [] r.params ts) s m a b) :
      Unifies p (.call name args) scope s m a b
  | if_zero {scope : Scope} {e : Expr} {g : Goal} (h : Goal) {s m : Subst} {a b : Term}
      (value : e.eval scope = some (.atom (.int 0))) (inside : Unifies p g scope s m a b) :
      Unifies p (.ifZero e g h) scope s m a b
  | if_other {scope : Scope} {e : Expr} (g : Goal) {h : Goal} {t : Term} {s m : Subst} {a b : Term}
      (value : e.eval scope = some t) (other : t ≠ .atom (.int 0))
      (inside : Unifies p h scope s m a b) : Unifies p (.ifZero e g h) scope s m a b

/-- Every unification that solving the goal can come to has an end. -/
def Decides (p : Program) (g : Goal) (scope : Scope) (s : Subst) : Prop :=
  ∀ m a b, p.Unifies g scope s m a b → m.unify a b ≠ .endless

def DecidesCode (p : Program) : Pending → Prop
  | .goal scope g s => p.Decides g scope s
  | .call name ts s => ∀ r, p.relations.lookup name = some r →
    p.Decides r.body (Scope.defineAll [] r.params ts) s
  | .endless _ => False

def bare : Program where
  relations := []

theorem bare_guarded : bare.Guarded := by
  refine ⟨fun name => ⟨name, ?_⟩⟩
  rintro callee ⟨r, known, -⟩
  cases known

/-- Numbers that are counted by successor cells on top of zero. -/
def peano : Program where
  relations := [("peano", ⟨["n"], .disj (.eq (.ref "n") (.peano 0))
    (.fresh ["m"] (.conj (.eq (.ref "n") (.seq [.atom (.str "s"), .ref "m"]))
      (.defer (.call "peano" [.ref "m"]))))⟩)]

theorem peano_guarded : peano.Guarded := by
  have deferred (callee caller : String) : ¬ peano.CallsAtOnce callee caller := by
    rintro ⟨r, known, inside⟩
    rw [peano, List.lookup_cons] at known
    split at known
    · cases known
      cases inside with
      | disj_left _ zero => cases zero
      | disj_right _ successor =>
        cases successor with
        | fresh _ body =>
          cases body with
          | conj_left _ cell => cases cell
          | conj_right _ rest => cases rest
    · cases known
  exact ⟨fun name => ⟨name, fun callee calls => absurd calls (deferred callee name)⟩⟩

section Tame

def StartsTame (p : Program) (name : String) : Prop :=
  ∀ depth ts s, p.DecidesCode (.call name ts s) →
    Tame p.force p.DecidesCode (p.invoke depth name ts s)

theorem tame_startEq (decided : s.unify a b ≠ .endless) :
    Tame p.force p.DecidesCode (Goal.startEq a b s) := by
  unfold Goal.startEq
  cases result : s.unify a b with
  | solved m => exact .ready m .empty
  | clash => exact .empty
  | endless => exact absurd result decided

theorem tame_start (calls : ∀ name, g.CallsAtOnce name → p.StartsTame name) (depth : Nat)
    (decides : p.Decides g scope s) :
    Tame p.force p.DecidesCode (g.start (p.invoke depth) scope s) := by
  induction g generalizing depth scope s with
  | succeed => exact .ready s .empty
  | fail => exact .empty
  | always =>
    refine .suspended fun m a b unifies => ?_
    cases unifies with
    | disj_left _ inside => cases inside
    | disj_right _ inside => cases inside
  | never =>
    refine .suspended fun m a b unifies => ?_
    cases unifies
  | eq u v =>
    rw [Goal.start]
    cases left : u.eval scope with
    | none => exact .empty
    | some a =>
      cases right : v.eval scope with
      | none => exact .empty
      | some b => exact tame_startEq (decides s a b (.eq left right))
  | conj g h ihg ihh =>
    have first := ihg (fun name inside => calls name (.conj_left h inside)) depth
      fun m a b unifies => decides m a b (.conj_first h unifies)
    -- The second goal is only solved from what the first one has found.
    have second (s' : Subst)
        (occurs : Nonempty (Occurrence p.force (g.start (p.invoke depth) scope s) s')) :
        p.Decides h scope s' :=
      fun m a b unifies => decides m a b (.conj_second (solution_of_occurrence occurs) unifies)
    refine tame_feed (.feeding first ?_ fun s' occurs => ?_)
    · rintro s' code occurs ⟨⟩
      exact second s' occurs
    · exact ihh (fun name inside => calls name (.conj_right g inside)) p.callDepth
        (second s' occurs)
  | disj g h ihg ihh =>
    have left := ihg (fun name inside => calls name (.disj_left h inside)) depth
      fun m a b unifies => decides m a b (.disj_left h unifies)
    have right := ihh (fun name inside => calls name (.disj_right g inside)) depth
      fun m a b unifies => decides m a b (.disj_right g unifies)
    exact tame_merge left right
  | fresh names body ih =>
    exact ih (fun name inside => calls name (.fresh names inside)) depth
      fun m a b unifies => decides m a b (.fresh unifies)
  | defer body ih => exact .suspended fun m a b unifies => decides m a b (.defer unifies)
  | call name args =>
    rw [Goal.start]
    cases arguments : Expr.evalAll scope args with
    | none => exact .empty
    | some ts =>
      exact calls name (.call name args) depth ts s fun r known m a b unifies =>
        decides m a b (.call arguments known unifies)
  | ifZero e g h ihg ihh =>
    rw [Goal.start]
    cases value : e.eval scope with
    | none => exact .empty
    | some t =>
      dsimp only
      split
      · next zero =>
        rw [Term.beq_atom_iff] at zero
        exact ihg (fun name inside => calls name (.if_zero e h inside)) depth
          fun m a b unifies => decides m a b (.if_zero h (zero ▸ value) unifies)
      · next other =>
        rw [Term.beq_atom_iff] at other
        exact ihh (fun name inside => calls name (.if_other e g inside)) depth
          fun m a b unifies => decides m a b (.if_other g value other unifies)
  | copies n => exact tame_ofList _

theorem startsTame (guarded : p.Guarded) (name : String) : p.StartsTame name := by
  -- The induction is on the chain of calls at once.
  induction name using guarded.induction with
  | _ name ih =>
    intro depth ts s decides
    cases depth with
    | zero => exact .suspended decides
    | succ depth =>
      cases known : p.relations.lookup name with
      | none =>
        rw [invoke_unknown known]
        exact .empty
      | some r =>
        rw [invoke_known known]
        exact tame_start (fun callee inside => ih callee ⟨r, known, inside⟩) depth (decides r known)

theorem tame_solve (guarded : p.Guarded) (decides : p.Decides g scope s) :
    Tame p.force p.DecidesCode (p.solve g scope s) :=
  tame_start (fun name _ => startsTame guarded name) p.callDepth decides

theorem closed_force (guarded : p.Guarded) : Closed p.force p.DecidesCode := by
  intro code decides
  cases code with
  | goal scope g s => exact tame_solve guarded decides
  | call name ts s => exact startsTame guarded name (p.callDepth + 1) ts s decides
  | endless s => exact decides.elim

theorem delivers_of_solution (guarded : p.Guarded) (decides : p.Decides g scope s)
    (solution : Solution p g scope s s') :
    ∃ k, (Search.ofAnswers (p.solve g scope s) .unbounded).Delivers p.force k s' := by
  obtain ⟨o⟩ := occurrence_iff_solution.mpr solution
  have productive := productive_of_tame (closed_force guarded) (tame_solve guarded decides)
  exact Search.delivers_of_occurrence productive o

end Tame

end Program

end RelationalSearch

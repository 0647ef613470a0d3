import RelationalSearch.Proofs.Guarded
import RelationalSearch.Proofs.OccursCheck
import RelationalSearch.Proofs.Pauses

/-!
The unifications that a search can come to. Where it starts without a circle, and no unification on
the way binds a variable to a term that holds it, each of them has an end, and so has every turn. A
unification that does not return is never got past, with or without a step limit, and from a circle
it can be met although nothing has been bound.
-/
namespace RelationalSearch

open Answers

namespace Program

variable {p : Program} {g h : Goal} {scope : Scope} {s s' m : Subst} {a b t : Term} {x : Var}

/-- No unification on the way binds a variable to a term that holds it. -/
def BindsNoCircle (p : Program) (g : Goal) (scope : Scope) (s : Subst) : Prop :=
  ∀ m a b, p.Unifies g scope s m a b → ¬ m.Checks [(a, b)] .occurs

/-- A search that has come to a computation without return stays there, under any step limit. -/
theorem pull_endless (p : Program) (s : Subst) (frames : List (Frame Pending Subst)) (steps : Nat)
    (config : SearchConfig) (turns : Nat) :
    ((Search.ofFrames (Goal.endless s) frames steps config).pull p.force turns).1 = .unsettled := by
  have opened : ((Search.ofFrames (Goal.endless s) frames steps config).pull p.force turns).1 =
        .unsettled ∧
      ((Search.ofFrames (.single s) (frames ++ [.bind fun s => .inr (.endless s)]) steps
        config).pull p.force turns).1 = .unsettled := by
    induction turns with
    | zero => exact ⟨rfl, rfl⟩
    | succ turns ih =>
      constructor
      · rw [Search.pull_succ, Goal.endless, Search.turn_feeding]
        exact ih.2
      · rw [Search.pull_succ, single, Search.turn_ready_bind_last]
        exact ih.1
  exact opened.1

section Acyclic

theorem unify_ne_endless (acyclic : ¬ s.Circular) (unchecked : ¬ s.Checks [(a, b)] .occurs) :
    s.unify a b ≠ .endless ∧ ∀ s', s.unify a b = .solved s' → ¬ s'.Circular := by
  have inside := Subst.inside_unifyNodes s a b
  have start : ∀ pair ∈ [(a, b)], pair.1 ∈ s.unifyNodes a b ∧ pair.2 ∈ s.unifyNodes a b := by
    intro pair member
    cases List.mem_singleton.mp member
    exact ⟨inside.left, inside.right⟩
  obtain ⟨outcome, checks⟩ :=
    Subst.exists_checks (Subst.unifyNodes_items s a b) acyclic inside.binds start
  rw [← Subst.unifyAll_single]
  cases outcome with
  | solved m =>
    rw [Subst.unifyAll_of_checks checks rfl]
    refine ⟨fun same => (nomatch same), fun s' same => ?_⟩
    cases same
    exact Subst.not_circular_of_checks acyclic checks rfl
  | clash =>
    rw [Subst.unifyAll_of_checks checks rfl]
    exact ⟨fun same => (nomatch same), fun _ same => nomatch same⟩
  | occurs => exact absurd checks unchecked

theorem not_circular_freshAll (acyclic : ¬ s.Circular) (names : List String) :
    ¬ (s.freshAll names).2.Circular := by
  have same : (s.freshAll names).2.Depends = s.Depends := by
    funext first second
    simp only [Subst.Depends, Subst.get?_freshAll]
  rwa [Subst.Circular, same]

theorem not_circular_of_solution (solution : Solution p g scope s s') (acyclic : ¬ s.Circular)
    (noCircle : p.BindsNoCircle g scope s) : ¬ s'.Circular := by
  induction solution with
  | succeed => exact acyclic
  | always => exact acyclic
  | eq left right solved =>
    exact (unify_ne_endless acyclic (noCircle _ _ _ (.eq left right))).2 _ solved
  | conj first second ihFirst ihSecond =>
    have middle := ihFirst acyclic fun m a b unifies => noCircle m a b (.conj_first _ unifies)
    exact ihSecond middle fun m a b unifies => noCircle m a b (.conj_second first unifies)
  | disj_left h inside ih =>
    exact ih acyclic fun m a b unifies => noCircle m a b (.disj_left h unifies)
  | disj_right g inside ih =>
    exact ih acyclic fun m a b unifies => noCircle m a b (.disj_right g unifies)
  | @fresh scope names body s s' inside ih =>
    exact ih (not_circular_freshAll acyclic names) fun m a b unifies =>
      noCircle m a b (.fresh unifies)
  | defer inside ih => exact ih acyclic fun m a b unifies => noCircle m a b (.defer unifies)
  | call arguments known inside ih =>
    exact ih acyclic fun m a b unifies => noCircle m a b (.call arguments known unifies)
  | if_zero h value inside ih =>
    exact ih acyclic fun m a b unifies => noCircle m a b (.if_zero h value unifies)
  | if_other g value other inside ih =>
    exact ih acyclic fun m a b unifies => noCircle m a b (.if_other g value other unifies)
  | copies => exact acyclic

theorem decides_of_bindsNoCircle (acyclic : ¬ s.Circular) (noCircle : p.BindsNoCircle g scope s) :
    p.Decides g scope s := by
  intro m a b unifies
  induction unifies with
  | eq left right => exact (unify_ne_endless acyclic (noCircle _ _ _ (.eq left right))).1
  | conj_first h inside ih =>
    exact ih acyclic fun m a b unifies => noCircle m a b (.conj_first h unifies)
  | conj_second first inside ih =>
    have middle := not_circular_of_solution first acyclic fun m a b unifies =>
      noCircle m a b (.conj_first _ unifies)
    exact ih middle fun m a b unifies => noCircle m a b (.conj_second first unifies)
  | disj_left h inside ih =>
    exact ih acyclic fun m a b unifies => noCircle m a b (.disj_left h unifies)
  | disj_right g inside ih =>
    exact ih acyclic fun m a b unifies => noCircle m a b (.disj_right g unifies)
  | @fresh scope names body s m a b inside ih =>
    exact ih (not_circular_freshAll acyclic names) fun m a b unifies =>
      noCircle m a b (.fresh unifies)
  | defer inside ih => exact ih acyclic fun m a b unifies => noCircle m a b (.defer unifies)
  | call arguments known inside ih =>
    exact ih acyclic fun m a b unifies => noCircle m a b (.call arguments known unifies)
  | if_zero h value inside ih =>
    exact ih acyclic fun m a b unifies => noCircle m a b (.if_zero h value unifies)
  | if_other g value other inside ih =>
    exact ih acyclic fun m a b unifies => noCircle m a b (.if_other g value other unifies)

end Acyclic

section Invariants

variable {P : Subst → Term → Term → Prop} {I : String → List Term → Subst → Prop}

/-- The equations of the goal have the property, and its calls keep the invariant. -/
def Upholds (p : Program) (P : Subst → Term → Term → Prop)
    (I : String → List Term → Subst → Prop) : Goal → Scope → Subst → Prop
  | .eq u v, scope, s => ∀ a b, u.eval scope = some a → v.eval scope = some b → P s a b
  | .conj g h, scope, s =>
    p.Upholds P I g scope s ∧ ∀ s', Solution p g scope s s' → p.Upholds P I h scope s'
  | .disj g h, scope, s => p.Upholds P I g scope s ∧ p.Upholds P I h scope s
  | .fresh names body, scope, s =>
    p.Upholds P I body (scope.defineAll names ((s.freshAll names).1.map .var)) (s.freshAll names).2
  | .defer body, scope, s => p.Upholds P I body scope s
  | .call name args, scope, s => ∀ ts, Expr.evalAll scope args = some ts → I name ts s
  | .ifZero _ g h, scope, s => p.Upholds P I g scope s ∧ p.Upholds P I h scope s
  | .succeed, _, _ | .fail, _, _ | .always, _, _ | .never, _, _ | .copies _, _, _ => True

/-- A property of all unifications of a program, from an invariant of its calls. -/
theorem property_of_unifies
    (bodies : ∀ name ts s r, p.relations.lookup name = some r → I name ts s →
      p.Upholds P I r.body (Scope.defineAll [] r.params ts) s)
    (upholds : p.Upholds P I g scope s) (unifies : p.Unifies g scope s m a b) : P m a b := by
  induction unifies with
  | eq left right => exact upholds _ _ left right
  | conj_first h inside ih => exact ih upholds.1
  | conj_second first inside ih => exact ih (upholds.2 _ first)
  | disj_left h inside ih => exact ih upholds.1
  | disj_right g inside ih => exact ih upholds.2
  | fresh inside ih => exact ih upholds
  | defer inside ih => exact ih upholds
  | call arguments known inside ih => exact ih (bodies _ _ _ _ known (upholds _ arguments))
  | if_zero h value inside ih => exact ih upholds.1
  | if_other g value other inside ih => exact ih upholds.2

end Invariants

section Peano

theorem decision_of_free (free : s.get? x = none) (bare : ∀ y, t ≠ .var y) :
    s.walk (.var x) = some (.var x) ∧ s.walk t = some t ∧
      Subst.decision (.var x) t = .bind x t := by
  have stuck : s.follow? (.var x) = none := free
  refine ⟨Subst.walkWithin_of_follow_none stuck s.size, ?_⟩
  cases t with
  | var y => exact absurd rfl (bare y)
  | atom | seq => exact ⟨Subst.walkWithin_of_follow_none rfl s.size, rfl⟩

theorem extend_of_unify (free : s.get? x = none) (bare : ∀ y, t ≠ .var y)
    (solved : s.unify (.var x) t = .solved s') : s.extend x t = .ok s' := by
  obtain ⟨left, right, decided⟩ := decision_of_free free bare
  rw [Subst.unify_walked left right, decided, Subst.Decision.outcome] at solved
  cases extended : s.extend x t with
  | error e =>
    rw [extended] at solved
    cases solved
  | ok m =>
    rw [extended] at solved
    cases solved
    rfl

theorem not_occurs_of_absent {r : Term} (free : s.get? x = none) (bare : ∀ y, t ≠ .var y)
    (resolved : s.resolve t = some r) (absent : ¬ r.Mentions x.id) :
    ¬ s.Checks [(.var x, t)] .occurs := by
  intro occurs
  obtain ⟨left, right, decided⟩ := decision_of_free free bare
  have rest := Subst.checks_cons occurs left right
  rw [decided] at rest
  obtain ⟨_, same, ⟨present, -⟩ | ⟨-, m, -, done⟩⟩ := rest
  · cases resolved.symm.trans same
    exact absent present
  · cases done

theorem resolve_cell {y : Var} (free : s.get? y = none) :
    s.resolve (.seq [.atom (.str "s"), .var y]) = some (.seq [.atom (.str "s"), .var y]) := by
  have head : s.walk (.atom (.str "s")) = some (.atom (.str "s")) :=
    Subst.walkWithin_of_follow_none rfl s.size
  have stuck : s.follow? (.var y) = none := free
  have tail : s.walk (.var y) = some (.var y) := Subst.walkWithin_of_follow_none stuck s.size
  have flat : s.resolveWithin Subst.shallow (.seq [.atom (.str "s"), .var y]) =
      some (.seq [.atom (.str "s"), .var y]) := by
    rw [Subst.shallow, Subst.resolveWithin_seq (Subst.walkWithin_of_follow_none rfl s.size) 4095]
    simp only [List.mapM_cons, List.mapM_nil, Subst.resolveWithin_other head nofun 4094,
      Subst.resolveWithin_other tail nofun 4094]
    rfl
  rw [Subst.resolve, flat]

def AsksForNumber (name : String) (ts : List Term) (s : Subst) : Prop :=
  name = "peano" ∧ ∃ x : Var, ts = [.var x] ∧ s.get? x = none ∧ x.id < s.nextId ∧
    ∀ y : Var, s.nextId ≤ y.id → s.get? y = none

theorem peano_upholds {name : String} {ts : List Term} {r : Relation}
    (known : peano.relations.lookup name = some r) (asks : AsksForNumber name ts s) :
    peano.Upholds (fun m a b => ¬ m.Checks [(a, b)] .occurs) AsksForNumber r.body
      (Scope.defineAll [] r.params ts) s := by
  obtain ⟨rfl, x, rfl, free, handedOut, unused⟩ := asks
  cases known
  have unused' := unused ⟨s.nextId, "m"⟩ (Nat.le_refl _)
  have apart : s.nextId ≠ x.id := Nat.ne_of_gt handedOut
  simp only [Upholds]
  refine ⟨?_, ?_, ?_⟩
  · rintro a b ⟨⟩ ⟨⟩
    exact not_occurs_of_absent free nofun
      (Subst.resolve_other (Subst.walkWithin_of_follow_none rfl s.size) nofun) nofun
  · rintro a b ⟨⟩ ⟨⟩
    refine not_occurs_of_absent (s := (s.fresh "m").2) free nofun (resolve_cell unused') ?_
    intro mentions
    cases mentions with
    | seq member inside =>
      simp only [List.mem_cons, List.not_mem_nil, or_false] at member
      rcases member with rfl | rfl
      · cases inside
      · cases inside with
        | var same => exact apart same
  · rintro s' found ts arguments
    cases arguments
    cases found with
    | eq left right solved =>
      cases left
      cases right
      have bare : ∀ y, Term.seq [.atom (.str "s"), .var ⟨s.nextId, "m"⟩] ≠ .var y := nofun
      have extended := extend_of_unify (s := (s.fresh "m").2) free bare solved
      refine ⟨rfl, ⟨s.nextId, "m"⟩, rfl, ?_, ?_, fun y later => ?_⟩
      · rw [Subst.get?_extend extended, if_neg apart.symm]
        exact unused'
      · rw [Subst.nextId_of_extend extended]
        exact Nat.lt_succ_self s.nextId
      · rw [Subst.nextId_of_extend extended] at later
        have above : s.nextId < y.id := later
        rw [Subst.get?_extend extended, if_neg (Nat.ne_of_lt (Nat.lt_trans handedOut above))]
        exact unused y (Nat.le_of_lt above)

theorem peano_binds_no_circle : peano.BindsNoCircle (.call "peano" [.ref "n"])
    [("n", .var ⟨0, "n"⟩)] (Subst.empty.fresh "n").2 := by
  intro m a b unifies
  refine property_of_unifies (P := fun m a b => ¬ m.Checks [(a, b)] .occurs) (I := AsksForNumber)
    (fun _ _ _ _ => peano_upholds) ?_ unifies
  rintro ts ⟨⟩
  exact ⟨rfl, ⟨0, "n"⟩, rfl, Subst.get?_empty _, Nat.one_pos, fun y _ => Subst.get?_empty y⟩

theorem peano_decides : peano.Decides (.call "peano" [.ref "n"]) [("n", .var ⟨0, "n"⟩)]
    (Subst.empty.fresh "n").2 :=
  decides_of_bindsNoCircle (Subst.not_circular_of_free fun x => Subst.get?_empty x)
    peano_binds_no_circle

end Peano

end Program

/-- From a substitution without circles, and where no binding closes one, there are finitely many
    turns before the next forcing in every state that a search for a goal comes to, under any limit.
    With a limit a pull gives an answer, finds the end or fails for the limit; without one it can
    only fail to do so by forcing suspensions without end. Nothing of this depends on what is taken
    for a computation that does not return, for no turn comes to one. -/
theorem searches_are_paced (p : Program) (guarded : p.Guarded) (g : Goal) (scope : Scope)
    (s : Subst) (acyclic : ¬ s.Circular) (noCircle : p.BindsNoCircle g scope s)
    (config : SearchConfig) (taken : List Subst) (d : Search Pending Subst)
    (history : Search.History p.force (.ofAnswers (p.solve g scope s) config) taken d) :
    d.Paced p.force ∧ p.Decides g scope s ∧ (∀ code, d.Evaluates code → p.DecidesCode code) ∧
      ∀ force, (∀ code, p.DecidesCode code → force code = p.force code) →
        d.turn force = d.turn p.force := by
  have decides := Program.decides_of_bindsNoCircle acyclic noCircle
  obtain ⟨paced, evaluated⟩ := Search.paced_of_tame (Program.closed_force guarded)
    (Program.tame_solve guarded decides) history
  refine ⟨paced, decides, evaluated, fun force same => ?_⟩
  exact Search.turn_congr fun code evaluates => same code (evaluated code evaluates)

/-- Counting up through all numbers never stalls, here after the first of them. -/
theorem peano_is_paced :
    let start : Search Pending Subst := .ofAnswers
      (Program.peano.solve (.call "peano" [.ref "n"]) [("n", .var ⟨0, "n"⟩)]
        (Subst.empty.fresh "n").2) (.withStepLimit 5)
    let first := start.turn Program.peano.force
    Search.History Program.peano.force start first.answers first.next ∧
      first.next.Paced Program.peano.force := by
  intro start first
  have history : Search.History Program.peano.force start first.answers first.next := .turn .start
  have acyclic : ¬ (Subst.empty.fresh "n").2.Circular :=
    Subst.not_circular_of_free fun x => Subst.get?_empty x
  obtain ⟨paced, -⟩ := searches_are_paced Program.peano Program.peano_guarded
    (.call "peano" [.ref "n"]) [("n", .var ⟨0, "n"⟩)] _ acyclic Program.peano_binds_no_circle
    (.withStepLimit 5) first.answers first.next history
  exact ⟨history, paced⟩

namespace Subst

/-- Two variables bound to each other. -/
def tangle : Subst :=
  let first := (∅ : Std.ExtTreeMap Nat Binding).insert 0 ⟨"x", .var ⟨1, "y"⟩⟩
  ⟨first.insert 1 ⟨"y", .var ⟨0, "x"⟩⟩, 2⟩

theorem extend_extend_tangle :
    ∃ m, ((empty.fresh "x").2.fresh "y").2.extend ⟨0, "x"⟩ (.var ⟨1, "y"⟩) = .ok m ∧
      m.extend ⟨1, "y"⟩ (.var ⟨0, "x"⟩) = .ok tangle :=
  ⟨_, rfl, rfl⟩

theorem walk_tangle : tangle.walk (.var ⟨0, "x"⟩) = none := rfl

theorem unify_tangle (t : Term) : tangle.unify (.var ⟨0, "x"⟩) t = .endless := by
  refine unify_eq_endless_iff.mpr fun depth => ?_
  cases depth with
  | zero => rfl
  | succ depth => rw [unifyWithin, walk_tangle]

theorem not_checks_tangle (t : Term) (outcome : Checked) :
    ¬ tangle.Checks [(.var ⟨0, "x"⟩, t)] outcome := by
  intro checks
  cases checks with
  | keep walked | bind walked | occurs walked | descend walked | clash walked =>
    cases walk_tangle.symm.trans walked

theorem unify_ring : ring.unify (.var ⟨0, "x"⟩) (.seq [.var ⟨0, "x"⟩]) = .endless := by
  have again (depth : Nat) : ∀ u v, ring.walk u = some (.seq [.var ⟨0, "x"⟩]) →
      ring.walk v = some (.seq [.var ⟨0, "x"⟩]) → unifyWithin depth u v ring = .endless := by
    induction depth with
    | zero => exact fun _ _ _ _ => rfl
    | succ depth ih =>
      intro u v left right
      rw [unifyWithin_walked depth left right]
      have inside := ih (.var ⟨0, "x"⟩) (.var ⟨0, "x"⟩) rfl rfl
      simp [decision, Decision.outcome, unifyAllBy, inside]
  exact unify_eq_endless_iff.mpr fun depth => again depth _ _ rfl rfl

theorem not_checks_ring {outcome : Checked} (u v : Term) (pairs : List (Term × Term))
    (left : ring.walk u = some (.seq [.var ⟨0, "x"⟩]))
    (right : ring.walk v = some (.seq [.var ⟨0, "x"⟩])) :
    ¬ ring.Checks ((u, v) :: pairs) outcome := by
  intro checks
  generalize start : ring = s at checks
  generalize whole : (u, v) :: pairs = all at checks
  induction checks generalizing u v pairs with
  | done => cases whole
  | descend left' right' decided later ih =>
    subst start
    cases whole
    cases left.symm.trans left'
    cases right.symm.trans right'
    cases decided
    exact ih (.var ⟨0, "x"⟩) (.var ⟨0, "x"⟩) _ rfl rfl rfl rfl
  | keep left' right' decided | bind left' right' decided | occurs left' right' decided
  | clash left' right' decided =>
    subst start
    cases whole
    cases left.symm.trans left'
    cases right.symm.trans right'
    cases decided

end Subst

namespace Program

variable {s : Subst} {e : Expr} {t : Term}

def justX : Scope := [("x", .var ⟨0, "x"⟩)]

/-- An equation that is put off, and no answer whatever it comes to. -/
def asksInVain (e : Expr) : Goal := .conj (.defer (.eq (.ref "x") e)) .fail

def searchInVain (e : Expr) (s : Subst) : Search Pending Subst :=
  .ofAnswers (bare.solve (asksInVain e) justX s) (.withStepLimit 1)

/-- No pull of the search returns, although no unification binds anything. -/
structure Strays (e : Expr) (s : Subst) : Prop where
  noCircle : bare.BindsNoCircle (asksInVain e) justX s
  lost : ∀ turns, ((searchInVain e s).pull bare.force turns).1 = .unsettled
  unpaced : ¬ (searchInVain e s).Paced bare.force

theorem asksInVain_binds_no_circle (value : e.eval justX = some t)
    (unchecked : ¬ s.Checks [(.var ⟨0, "x"⟩, t)] .occurs) :
    bare.BindsNoCircle (asksInVain e) justX s := by
  intro m a b unifies
  cases unifies with
  | conj_first h inside =>
    cases inside with
    | defer inside =>
      cases inside with
      | eq left right =>
        cases left
        cases value.symm.trans right
        exact unchecked
  | conj_second first inside => cases inside

def failing : Frame Pending Subst := .bind fun m => .inr (.goal justX .fail m)

theorem force_equation (value : e.eval justX = some t)
    (lost : s.unify (.var ⟨0, "x"⟩) t = .endless) :
    bare.force (.goal justX (.eq (.ref "x") e) s) = Goal.endless s := by
  have left : (Expr.ref "x").eval justX = some (.var ⟨0, "x"⟩) := rfl
  rw [force, solve, Goal.start, left, value]
  dsimp only
  rw [Goal.startEq, lost]

theorem turn_searchInVain (e : Expr) (s : Subst) :
    (searchInVain e s).turn bare.force =
      .running (Search.ofFrames (.suspended (.goal justX (.eq (.ref "x") e) s)) [failing] 0
        (.withStepLimit 1)) := rfl

theorem turn_equation (value : e.eval justX = some t)
    (lost : s.unify (.var ⟨0, "x"⟩) t = .endless) :
    (Search.ofFrames (.suspended (.goal justX (.eq (.ref "x") e) s)) [failing] 0
        (.withStepLimit 1)).turn bare.force =
      .running (Search.ofFrames (Goal.endless s) [failing] 1 (.withStepLimit 1)) := by
  rw [← force_equation value lost]
  rfl

theorem pull_searchInVain (value : e.eval justX = some t)
    (lost : s.unify (.var ⟨0, "x"⟩) t = .endless) (turns : Nat) :
    ((searchInVain e s).pull bare.force turns).1 = .unsettled := by
  -- The first turn opens the conjunction, and the second one forces the equation.
  cases turns with
  | zero => rfl
  | succ turns =>
    rw [Search.pull_succ, turn_searchInVain]
    cases turns with
    | zero => rfl
    | succ turns =>
      dsimp only
      rw [Search.pull_succ, turn_equation value lost]
      exact pull_endless bare s [failing] 1 _ turns

theorem strays_of_endless (value : e.eval justX = some t)
    (endless : s.unify (.var ⟨0, "x"⟩) t = .endless)
    (unchecked : ¬ s.Checks [(.var ⟨0, "x"⟩, t)] .occurs) : Strays e s := by
  have lost := pull_searchInVain value endless
  refine ⟨asksInVain_binds_no_circle value unchecked, lost, fun paced => ?_⟩
  obtain ⟨result, d, ⟨turns, pulled⟩, -⟩ := paced.limited 1 rfl
  have unsettled := lost turns
  rw [pulled] at unsettled
  exact Search.ofResult_ne_unsettled result unsettled

end Program

/-- From variables bound to each other, or one bound to a sequence that it is in, a search can be
    lost after its first forcing: a limit of one forcing does not bring it back. -/
theorem circular_starts_never_return :
    Program.bare.Guarded ∧ Program.Strays (.atom (.int 1)) Subst.tangle ∧
      Program.Strays (.seq [.ref "x"]) Subst.ring :=
  ⟨Program.bare_guarded,
    Program.strays_of_endless rfl (Subst.unify_tangle _) (Subst.not_checks_tangle _ _),
    Program.strays_of_endless rfl Subst.unify_ring (Subst.not_checks_ring _ _ [] rfl rfl)⟩

end RelationalSearch

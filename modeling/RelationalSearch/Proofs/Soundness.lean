import RelationalSearch.Proofs.Reading
import RelationalSearch.Proofs.Unifications
import RelationalSearch.Proofs.Unifier

/-!
Soundness. Whatever a search delivers for a goal, every valuation that solves it solves the
substitution that the search began with and makes the goal hold. Along a derivation bindings
are only added, so what an early equation asks for is still there at the end; what the new
variables of a goal stand for is what the valuation gives them.
-/
namespace RelationalSearch

open Subst

variable {p : Program} {g : Goal} {scope : Scope} {s s' : Subst} {θ : Valuation}

theorem holds_of_solution (solution : Solution p g scope s s') (solves : Solves θ s') :
    Solves θ s ∧ Holds p g (scope.read θ) := by
  induction solution with
  | succeed scope s => exact ⟨solves, .succeed⟩
  | always scope s => exact ⟨solves, .always⟩
  | @eq scope u v a b s s' left right solved =>
    have agrees := agrees_unify θ s a b
    rw [solved] at agrees
    obtain ⟨before, equal⟩ := agrees.mp solves
    have first : u.evalRead (scope.read θ) = some (a.read θ) := by
      rw [Expr.evalRead_read, left, Option.map_some]
    have second : v.evalRead (scope.read θ) = some (b.read θ) := by
      rw [Expr.evalRead_read, right, Option.map_some]
    refine ⟨before, .eq first second ?_⟩
    rw [Term.value_read, Term.value_read, equal]
  | conj first second ihFirst ihSecond =>
    obtain ⟨between, holdsSecond⟩ := ihSecond solves
    obtain ⟨before, holdsFirst⟩ := ihFirst between
    exact ⟨before, .conj holdsFirst holdsSecond⟩
  | disj_left h inside ih =>
    obtain ⟨before, holds⟩ := ih solves
    exact ⟨before, .disj_left h holds⟩
  | disj_right g inside ih =>
    obtain ⟨before, holds⟩ := ih solves
    exact ⟨before, .disj_right g holds⟩
  | @fresh scope names body s s' inside ih =>
    obtain ⟨before, holds⟩ := ih solves
    rw [Scope.read_defineVars] at holds
    refine ⟨(solves_freshAll_iff names).mp before, .fresh _ ?_ holds⟩
    rw [List.length_map, length_freshAll]
  | defer inside ih =>
    obtain ⟨before, holds⟩ := ih solves
    exact ⟨before, .defer holds⟩
  | @call scope name args ts r s s' arguments known inside ih =>
    obtain ⟨before, holds⟩ := ih solves
    rw [Scope.read_defineAll] at holds
    refine ⟨before, .call ?_ known holds⟩
    rw [Expr.evalReadAll_read, arguments, Option.map_some]
  | @if_zero scope e g h s s' value inside ih =>
    obtain ⟨before, holds⟩ := ih solves
    refine ⟨before, .if_zero h ?_ holds⟩
    rw [Expr.evalRead_read, value]
    rfl
  | @if_other scope e g h t s s' value other inside ih =>
    obtain ⟨before, holds⟩ := ih solves
    refine ⟨before, .if_other (r := t.read θ) g ?_ ?_ holds⟩
    · rw [Expr.evalRead_read, value, Option.map_some]
    · exact fun same => other ((Term.read_eq_atom_iff θ t _).mp same)
  | copies scope s some => exact ⟨solves, .copies some⟩

/-- Every valuation that solves a delivered answer solves the first substitution and makes the
    goal hold. -/
theorem delivered_answers_hold (p : Program) (g : Goal) (scope : Scope) (s s' : Subst) (k : Nat)
    (delivers : (Search.ofAnswers (p.solve g scope s) .unbounded).Delivers p.force k s')
    (θ : Valuation) (solves : Solves θ s') : Solves θ s ∧ Holds p g (scope.read θ) :=
  holds_of_solution (Program.occurrence_iff_solution.mp (Search.occurrence_of_delivers delivers))
    solves

theorem peano_one_holds :
    let start := (Subst.empty.fresh "n").2
    let scope := [("n", .var ⟨0, "n"⟩)]
    ∃ k s', (Search.ofAnswers (Program.peano.solve (.call "peano" [.ref "n"]) scope start)
        .unbounded).Delivers Program.peano.force k s' ∧
      s'.resolveVar ⟨0, "n"⟩ = some (.seq [.atom (.str "s"), .atom (.str "z")]) ∧
      ∀ θ, Solves θ s' → Solves θ start ∧
        Holds Program.peano (.call "peano" [.ref "n"]) (Scope.read θ scope) := by
  intro start scope
  have one : Solution Program.peano (.call "peano" [.ref "n"]) scope start _ :=
    .call rfl rfl (.disj_right _ (.fresh (.conj (.eq rfl rfl rfl)
      (.defer (.call rfl rfl (.disj_left _ (.eq rfl rfl rfl)))))))
  obtain ⟨k, delivers⟩ := Program.delivers_of_solution Program.peano_guarded
    Program.peano_decides one
  exact ⟨k, _, delivers, rfl, fun θ solves =>
    delivered_answers_hold Program.peano _ scope start _ k delivers θ solves⟩

end RelationalSearch

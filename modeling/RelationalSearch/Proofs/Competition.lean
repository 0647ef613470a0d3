import Mathlib.Tactic.Ring
import RelationalSearch.Proofs.Alternation

/-!
Solutions behind branches that only force. The disjunctions of a list are nested to the right, and
every merge shares the turns of its right side out again. So each silent branch in front of a goal
doubles what the goal costs: the forcings are proportional to those of the goal alone, but the factor
is exponential in the number of branches.
-/
namespace RelationalSearch

open Answers

namespace Goal

def deferred : Nat → Goal
  | 0 => .succeed
  | depth + 1 => .defer (deferred depth)

/-- The goal as the last one of a disjunction in which so many others only force. -/
def behindSilence (silent : Nat) (g : Goal) : Goal :=
  disjAll (List.replicate silent .never ++ [g])

theorem behindSilence_succ (silent : Nat) (g : Goal) :
    behindSilence (silent + 1) g = .disj .never (behindSilence silent g) := by
  cases silent <;> rfl

end Goal

namespace Program

variable {p : Program} {g : Goal} {scope : Scope} {s found : Subst} {n : Nat}
  {rest : Answers Pending Subst}

theorem pulls_deferred (p : Program) (scope : Scope) (s : Subst) (depth : Nat) :
    Pulls p.force (p.solve (.deferred depth) scope s) (some s) depth .empty := by
  induction depth with
  | zero => exact .found (.ready s .empty)
  | succ depth ih => exact .forced (.suspended _) ih

theorem pulls_behindSilence (pulls : Pulls p.force (p.solve g scope s) (some found) n rest)
    (silent : Nat) :
    ∃ more, Pulls p.force (p.solve (.behindSilence silent g) scope s) (some found)
      (2 ^ silent * (n + 1) - 1) more := by
  -- By induction on the branches in front, each of which takes every second turn.
  induction silent with
  | zero =>
    rw [Nat.pow_zero, Nat.one_mul, Nat.add_sub_cancel]
    exact ⟨rest, pulls⟩
  | succ silent ih =>
    obtain ⟨more, inner⟩ := ih
    have silence : p.force (.goal scope .never s) = .suspended (.goal scope .never s) := rfl
    have positive : 0 < 2 ^ silent * (n + 1) := Nat.mul_pos (Nat.two_pow_pos silent) n.succ_pos
    have doubled : 2 ^ (silent + 1) * (n + 1) - 1 = 2 * (2 ^ silent * (n + 1) - 1) + 1 := by
      rw [Nat.pow_succ, Nat.mul_comm (2 ^ silent), Nat.mul_assoc]
      omega
    rw [Goal.behindSilence_succ, doubled]
    exact ⟨_, pulls_beside_silence silence inner⟩

end Program

theorem exists_power_beyond (a b : Nat) : ∃ n, a * (n + 1) + b < 2 ^ n - 1 := by
  let m := 2 * a + b + 2
  refine ⟨2 * m, ?_⟩
  have square : (m + 1) * (m + 1) ≤ 2 ^ (2 * m) := by
    rw [Nat.two_mul, Nat.pow_add]
    exact Nat.mul_le_mul Nat.lt_two_pow_self Nat.lt_two_pow_self
  have expanded : (m + 1) * (m + 1) = 2 * (a * m) + b * m + 4 * m + 1 := by
    simp only [m]
    ring
  have linear : a * (2 * m + 1) + b = 2 * (a * m) + a + b := by ring
  have large : m = 2 * a + b + 2 := rfl
  omega

/-- A success behind so many silent branches and put off so many times is returned, and what it
    takes is the number of its own turns, doubled for each of the branches. -/
theorem success_behind_silence (p : Program) (scope : Scope) (s : Subst) (silent depth : Nat) :
    (Search.ofAnswers (p.solve (.behindSilence silent (.deferred depth)) scope s) .unbounded).Returns
      p.force [(some s, 2 ^ silent * (depth + 1) - 1)] := by
  obtain ⟨rest, pulls⟩ :=
    Program.pulls_behindSilence (Program.pulls_deferred p scope s depth) silent
  exact (Search.returns_iff_of_trims (trims_refl _)).mpr
    ⟨rest, _, pulls, (Nat.zero_add _).symm, trivial⟩

/-- No bound that is linear in the number of branches and the depth holds for all of them. -/
theorem competition_exceeds_linear_bounds :
    ¬ ∃ a b, ∀ k depth, 1 ≤ k → ∃ steps ≤ a * (depth + k) + b,
      (Search.ofAnswers (Program.bare.solve (.behindSilence (k - 1) (.deferred depth)) [] .empty)
        .unbounded).Returns Program.bare.force [(some .empty, steps)] := by
  rintro ⟨a, b, bounded⟩
  obtain ⟨n, beyond⟩ := exists_power_beyond a b
  obtain ⟨steps, within, returns⟩ := bounded (n + 1) 0 (Nat.succ_pos n)
  obtain ⟨_, m, pulls, rfl, -⟩ := (Search.returns_iff_of_trims (trims_refl _)).mp returns
  obtain ⟨_, pulls'⟩ :=
    Program.pulls_behindSilence (Program.pulls_deferred Program.bare [] .empty 0) n
  obtain ⟨-, rfl, -⟩ := pulls_unique pulls pulls'
  rw [Nat.zero_add, Nat.mul_one, Nat.zero_add] at within
  exact absurd beyond (Nat.not_lt_of_le within)

end RelationalSearch

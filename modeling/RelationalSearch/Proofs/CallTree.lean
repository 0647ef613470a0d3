import Mathlib.Data.List.ProdSigma
import RelationalSearch.Proofs.Unifier

/-!
The equations inside a unification. Where walked terms are sequences of one length, the pairs of
their items are solved one after the other, each under the bindings of those before it. On the
way down into a unification that settles no equation comes up twice, and there are fewer
different ones than the depth that a unification is given. So whatever settles at some depth is
settled, and unification follows its own rules with no depth in them.
-/
namespace RelationalSearch.Subst

structure Equation where
  under : Subst
  left : Term
  right : Term

variable {s s' m : Subst} {u v : Term} {solve more : Term → Term → Subst → Unification}
  {nodes : List Term}

/-- Solving the first equation comes to the second, which is about a pair of items. -/
inductive Enters : Equation → Equation → Prop where
  | item {s m : Subst} {u v a b : Term} {us vs : List Term} {before after : List (Term × Term)}
      {depth : Nat} (left : s.walk u = some (.seq us)) (right : s.walk v = some (.seq vs))
      (same : us.length = vs.length) (place : us.zip vs = before ++ (a, b) :: after)
      (solved : unifyAllBy (unifyWithin depth) before s = .solved m) :
      Enters ⟨s, u, v⟩ ⟨m, a, b⟩

section Settled

def Extends (solve more : Term → Term → Subst → Unification) : Prop :=
  ∀ u v s, solve u v s ≠ .endless → more u v s = solve u v s

theorem unifyAllBy_extends (extend : Extends solve more) {pairs : List (Term × Term)}
    (settled : unifyAllBy solve pairs s ≠ .endless) :
    unifyAllBy more pairs s = unifyAllBy solve pairs s := by
  induction pairs generalizing s with
  | nil => rfl
  | cons pair pairs ih =>
    obtain ⟨u, v⟩ := pair
    have first : solve u v s ≠ .endless := by
      intro lost
      rw [unifyAllBy, lost] at settled
      exact settled rfl
    rw [unifyAllBy, unifyAllBy, extend u v s first]
    rw [unifyAllBy] at settled
    cases step : solve u v s with
    | clash => rfl
    | endless => rfl
    | solved m =>
      rw [step] at settled
      exact ih settled

theorem outcome_extends (extend : Extends solve more) {d : Decision}
    (settled : d.outcome solve s ≠ .endless) : d.outcome more s = d.outcome solve s := by
  cases d with
  | keep | bind | clash => rfl
  | descend us vs => exact unifyAllBy_extends extend settled

theorem unifyWithin_extends (depth deeper : Nat) :
    Extends (unifyWithin depth) (unifyWithin (depth + deeper)) := by
  induction depth with
  | zero => exact fun _ _ _ settled => absurd rfl settled
  | succ depth ih =>
    intro u v s settled
    rcases unifyWithin_succ depth u v s with lost | ⟨a, b, left, right, same⟩
    · exact absurd lost settled
    · rw [same] at settled ⊢
      rw [Nat.add_right_comm, unifyWithin_walked (depth + deeper) left right]
      exact outcome_extends ih settled

theorem unifyWithin_eq {first second : Nat} (settled : unifyWithin first u v s ≠ .endless)
    (settled' : unifyWithin second u v s ≠ .endless) :
    unifyWithin first u v s = unifyWithin second u v s := by
  have long := unifyWithin_extends first second u v s settled
  have long' := unifyWithin_extends second first u v s settled'
  rw [← long, Nat.add_comm, long']

end Settled

section Depth

/-- The equation is settled at the depth after this one and not before. -/
def NeedsDepth (depth : Nat) (e : Equation) : Prop :=
  unifyWithin depth e.left e.right e.under = .endless ∧
    unifyWithin (depth + 1) e.left e.right e.under ≠ .endless

theorem needsDepth_unique {n m : Nat} {e : Equation} (first : NeedsDepth n e)
    (second : NeedsDepth m e) : n = m := by
  have below {n m : Nat} (first : NeedsDepth n e) (second : NeedsDepth m e) : ¬ n < m := by
    intro less
    obtain ⟨more, rfl⟩ := Nat.exists_eq_add_of_le (Nat.succ_le_of_lt less)
    have settled := first.2
    rw [← unifyWithin_extends (n + 1) more _ _ _ settled] at settled
    exact settled second.1
  have notLess := below first second
  have notMore := below second first
  omega

theorem exists_needsDepth {depth : Nat} (settled : unifyWithin depth u v s ≠ .endless) :
    ∃ least, NeedsDepth least ⟨s, u, v⟩ := by
  induction depth with
  | zero => exact absurd rfl settled
  | succ depth ih =>
    by_cases before : unifyWithin depth u v s = .endless
    · exact ⟨depth, before, settled⟩
    · exact ih before

theorem solved_ne_endless (m : Subst) : Unification.solved m ≠ .endless :=
  fun same => nomatch same

theorem lost_item (extend : Extends solve more) {pairs : List (Term × Term)}
    (lost : unifyAllBy solve pairs s = .endless) (settled : unifyAllBy more pairs s ≠ .endless) :
    ∃ before a b after m, pairs = before ++ (a, b) :: after ∧
      unifyAllBy solve before s = .solved m ∧ solve a b m = .endless ∧ more a b m ≠ .endless := by
  induction pairs generalizing s with
  | nil => cases lost
  | cons pair pairs ih =>
    obtain ⟨u, v⟩ := pair
    rw [unifyAllBy] at lost settled
    cases step : solve u v s with
    | clash =>
      rw [step] at lost
      cases lost
    | endless =>
      refine ⟨[], u, v, pairs, s, rfl, rfl, step, fun deep => ?_⟩
      rw [deep] at settled
      exact settled rfl
    | solved m =>
      have same : more u v s = .solved m := by
        rw [extend u v s (by rw [step]; exact solved_ne_endless m), step]
      rw [step] at lost
      rw [same] at settled
      obtain ⟨before, a, b, after, last, place, solved, inside, deep⟩ := ih lost settled
      refine ⟨(u, v) :: before, a, b, after, last, by rw [place]; rfl, ?_, inside, deep⟩
      rw [unifyAllBy, step]
      exact solved

theorem descends_of_endless {a b : Term} (stuckLeft : s.follow? a = none)
    (stuckRight : s.follow? b = none) (endless : (decision a b).outcome solve s = .endless) :
    ∃ us vs, decision a b = .descend us vs ∧ unifyAllBy solve (us.zip vs) s = .endless := by
  cases decided : decision a b with
  | keep =>
    rw [decided] at endless
    cases endless
  | bind x t =>
    obtain ⟨s', extended⟩ := extend_of_decision decided stuckLeft stuckRight
    rw [decided, outcome_bind extended] at endless
    cases endless
  | clash =>
    rw [decided] at endless
    cases endless
  | descend us vs =>
    rw [decided] at endless
    exact ⟨us, vs, rfl, endless⟩

theorem enters_of_needsDepth {depth : Nat} {e : Equation} (needs : NeedsDepth (depth + 1) e) :
    ∃ d, Enters e d ∧ NeedsDepth depth d := by
  obtain ⟨s, u, v⟩ := e
  obtain ⟨lost, settled⟩ := needs
  rcases unifyWithin_succ (depth + 1) u v s with gone | ⟨a, b, left, right, deep⟩
  · exact absurd gone settled
  · dsimp only at lost settled
    rw [deep] at settled
    rw [unifyWithin_walked depth left right] at lost
    obtain ⟨us, vs, decided, endless⟩ :=
      descends_of_endless (walk_stuck left) (walk_stuck right) lost
    rw [decided] at settled
    have rule := decides a b
    rw [decided] at rule
    cases rule with
    | items same =>
      obtain ⟨before, a, b, after, m, place, solved, inside, more⟩ :=
        lost_item (unifyWithin_extends depth 1) endless settled
      exact ⟨⟨m, a, b⟩, .item left right same place solved, inside, more⟩

/-- The way down to where the depth is needed, on which no equation comes up twice. -/
theorem chain_of_needsDepth {depth : Nat} {e : Equation} (needs : NeedsDepth depth e) :
    ∃ chain : List Equation, chain.length = depth ∧
      (e :: chain).Pairwise (fun c d => Relation.TransGen Enters c d ∧ c ≠ d) ∧
      ∀ d ∈ e :: chain, ∃ less ≤ depth, NeedsDepth less d := by
  induction depth generalizing e with
  | zero =>
    refine ⟨[], rfl, List.pairwise_singleton _ _, ?_⟩
    intro d member
    cases List.mem_singleton.mp member
    exact ⟨0, Nat.le_refl 0, needs⟩
  | succ depth ih =>
    obtain ⟨next, enters, needsNext⟩ := enters_of_needsDepth needs
    obtain ⟨chain, count, pairwise, depths⟩ := ih needsNext
    refine ⟨next :: chain, congrArg (· + 1) count, List.pairwise_cons.mpr ⟨?_, pairwise⟩, ?_⟩
    · intro d member
      constructor
      · rcases List.mem_cons.mp member with rfl | later
        · exact .single enters
        · exact .head enters ((List.pairwise_cons.mp pairwise).1 d later).1
      · rintro rfl
        obtain ⟨less, le, again⟩ := depths e member
        have equal := needsDepth_unique needs again
        omega
    · intro d member
      rcases List.mem_cons.mp member with rfl | later
      · exact ⟨depth + 1, Nat.le_refl _, needs⟩
      · obtain ⟨less, le, needsLess⟩ := depths d later
        exact ⟨less, Nat.le_succ_of_le le, needsLess⟩

end Depth

section Counting

def isFree (s : Subst) : Term → Bool
  | .var x => (s.get? x).isNone
  | _ => false

def freePlaces (nodes : List Term) (s : Subst) : Nat :=
  nodes.countP s.isFree

theorem freePlaces_extend {x : Var} {t : Term} (extended : s.extend x t = .ok m)
    (member : .var x ∈ nodes) : freePlaces nodes m < freePlaces nodes s := by
  refine countP_lt ?_ member ?_ ?_
  · intro u _ free
    cases u with
    | var y =>
      cases bound : s.get? y with
      | none => rw [isFree, bound]; rfl
      | some w =>
        rw [isFree, get?_of_extend extended bound] at free
        exact absurd free Bool.false_ne_true
    | atom a => exact free
    | seq ts => exact free
  · rw [isFree, get?_extend extended, if_pos rfl]
    exact Bool.false_ne_true
  · rw [isFree, (extend_eq_ok extended).1]
    rfl

theorem size_of_extend {x : Var} {t : Term} (extended : s.extend x t = .ok m) :
    m.size = s.size + 1 := by
  obtain ⟨free, rfl⟩ := extend_eq_ok extended
  have absent : ¬ x.id ∈ s.entries := by
    intro member
    rw [Std.ExtTreeMap.mem_iff_isSome_getElem?] at member
    rw [get?, Option.map_eq_none_iff] at free
    rw [free] at member
    cases member
  rw [size, Std.ExtTreeMap.size_insert]
  exact if_neg absent

theorem freePlaces_of_grows (grows : Grows (· ∈ nodes) s s') :
    s'.size + freePlaces nodes s' ≤ s.size + freePlaces nodes s := by
  induction grows with
  | refl => exact Nat.le_refl _
  | bind extended stuck other source target later ih =>
    have size := size_of_extend extended
    have fewer := freePlaces_extend extended source
    omega

theorem size_of_grows {Good : Term → Prop} (grows : Grows Good s s') :
    s = s' ∨ s.size < s'.size := by
  induction grows with
  | refl => exact .inl rfl
  | bind extended stuck other source target later ih =>
    have size := size_of_extend extended
    right
    rcases ih with rfl | more
    · omega
    · omega

structure Inside (nodes : List Term) (e : Equation) : Prop where
  binds : Binds (· ∈ nodes) e.under
  left : e.left ∈ nodes
  right : e.right ∈ nodes

theorem inside_of_enters (items : ∀ ts, .seq ts ∈ nodes → ∀ t ∈ ts, t ∈ nodes) {c d : Equation}
    (inside : Inside nodes c) (enters : Enters c d) :
    Inside nodes d ∧ Grows (· ∈ nodes) c.under d.under := by
  cases enters with
  | @item s m u v a b us vs before after depth left right same place solved =>
    have follows := follows_of_binds inside.binds
    have goods := zip_good items (walk_good follows left inside.left)
      (walk_good follows right inside.right)
    rw [place] at goods
    have pair := goods (a, b) (List.mem_append_right _ List.mem_cons_self)
    have grows : Grows (· ∈ nodes) s m :=
      grows_unifyAllBy (grows_unifyWithin items depth)
        (fun pair member => goods pair (List.mem_append_left _ member)) follows solved
    exact ⟨⟨binds_of_grows grows inside.binds, pair.1, pair.2⟩, grows⟩

theorem inside_of_path (items : ∀ ts, .seq ts ∈ nodes → ∀ t ∈ ts, t ∈ nodes) {c d : Equation}
    (inside : Inside nodes c) (path : Relation.TransGen Enters c d) :
    Inside nodes d ∧ Grows (· ∈ nodes) c.under d.under := by
  induction path with
  | single enters => exact inside_of_enters items inside enters
  | tail before enters ih =>
    obtain ⟨middle, grows⟩ := ih
    obtain ⟨last, more⟩ := inside_of_enters items middle enters
    exact ⟨last, grows_trans grows more⟩

/-- An equation on a way down, by its terms and the number of bindings. -/
def Equation.code (e : Equation) : Term × Term × Nat :=
  (e.left, e.right, e.under.size)

def codes (nodes : List Term) (s : Subst) : List (Term × Term × Nat) :=
  nodes ×ˢ (nodes ×ˢ List.range' s.size (nodes.length + 1))

theorem code_mem {c d : Equation} (inside : Inside nodes d)
    (grows : Grows (· ∈ nodes) c.under d.under) : d.code ∈ codes nodes c.under := by
  have few := freePlaces_of_grows grows
  have all : freePlaces nodes c.under ≤ nodes.length := List.countP_le_length
  have least : c.under.size ≤ d.under.size := by
    rcases size_of_grows grows with same | more
    · exact Nat.le_of_eq (congrArg size same)
    · exact Nat.le_of_lt more
  refine List.mem_product.mpr ⟨inside.left, List.mem_product.mpr ⟨inside.right, ?_⟩⟩
  exact List.mem_range'_1.mpr ⟨least, by omega⟩

theorem code_ne {c d : Equation} (grows : Grows (· ∈ nodes) c.under d.under) (different : c ≠ d) :
    c.code ≠ d.code := by
  intro same
  obtain ⟨s, u, v⟩ := c
  obtain ⟨m, a, b⟩ := d
  rw [Equation.code, Equation.code, Prod.mk.injEq, Prod.mk.injEq] at same
  obtain ⟨rfl, rfl, sizes⟩ := same
  rcases size_of_grows grows with rfl | more
  · exact different rfl
  · exact Nat.ne_of_lt more sizes

theorem needsDepth_lt (items : ∀ ts, .seq ts ∈ nodes → ∀ t ∈ ts, t ∈ nodes) {depth : Nat}
    {e : Equation} (inside : Inside nodes e) (needs : NeedsDepth depth e) :
    depth < nodes.length * (nodes.length * (nodes.length + 1)) := by
  obtain ⟨chain, count, pairwise, -⟩ := chain_of_needsDepth needs
  have paths := (List.pairwise_cons.mp pairwise).1
  have member : ∀ d ∈ e :: chain, Inside nodes d ∧ Grows (· ∈ nodes) e.under d.under := by
    intro d member
    rcases List.mem_cons.mp member with rfl | later
    · exact ⟨inside, .refl _⟩
    · exact inside_of_path items inside (paths d later).1
  have distinct : ((e :: chain).map Equation.code).Nodup := by
    refine List.pairwise_map.mpr (pairwise.imp_of_mem ?_)
    intro c d first _ path
    exact code_ne (inside_of_path items (member c first).1 path.1).2 path.2
  have among : (e :: chain).map Equation.code ⊆ codes nodes e.under := by
    intro code mapped
    obtain ⟨d, listed, rfl⟩ := List.mem_map.mp mapped
    exact code_mem (member d listed).1 (member d listed).2
  have few := distinct.length_le_of_subset among
  rw [List.length_map, List.length_cons, count, codes, List.length_product, List.length_product,
    List.length_range'] at few
  exact few

end Counting

theorem inside_unifyNodes (s : Subst) (u v : Term) : Inside (s.unifyNodes u v) ⟨s, u, v⟩ :=
  ⟨binds_unifyNodes s u v, left_mem_unifyNodes s u v, right_mem_unifyNodes s u v⟩

theorem unify_eq_of_settled {depth : Nat} (settled : unifyWithin depth u v s ≠ .endless) :
    s.unify u v = unifyWithin depth u v s := by
  obtain ⟨least, needs⟩ := exists_needsDepth settled
  have less := needsDepth_lt (unifyNodes_items s u v) (inside_unifyNodes s u v) needs
  rw [length_unifyNodes, ← Nat.mul_assoc, ← Nat.add_assoc] at less
  have enough : unifyWithin (s.unifyDepth u v) u v s ≠ .endless := by
    obtain ⟨more, equal⟩ := Nat.exists_eq_add_of_le (show least + 1 ≤ s.unifyDepth u v by
      rw [unifyDepth]
      omega)
    rw [equal, unifyWithin_extends _ more u v s needs.2]
    exact needs.2
  by_cases first : unifyWithin shallow u v s = .endless
  · rw [unify, first]
    exact unifyWithin_eq enough settled
  · have same : s.unify u v = unifyWithin shallow u v s := by
      rw [unify]
      split
      · next lost => exact absurd lost first
      · rfl
    exact same.trans (unifyWithin_eq first settled)

/-- A unification is endless exactly if no depth settles it. -/
theorem unify_eq_endless_iff :
    s.unify u v = .endless ↔ ∀ depth, unifyWithin depth u v s = .endless := by
  constructor
  · intro endless depth
    by_contra settled
    exact settled ((unify_eq_of_settled settled).symm.trans endless)
  · intro endless
    obtain ⟨depth, same⟩ := unify_eq_unifyWithin s u v
    rw [same, endless depth]

theorem unify_extends (depth : Nat) :
    Extends (unifyWithin depth) (fun u v s => s.unify u v) :=
  fun _ _ _ settled => unify_eq_of_settled settled

theorem unifyAll_eq_unifyAllBy {pairs : List (Term × Term)}
    (settled : s.unifyAll pairs ≠ .endless) :
    ∃ depth, s.unifyAll pairs = unifyAllBy (unifyWithin depth) pairs s := by
  induction pairs generalizing s with
  | nil => exact ⟨0, rfl⟩
  | cons pair pairs ih =>
    obtain ⟨u, v⟩ := pair
    obtain ⟨first, same⟩ := unify_eq_unifyWithin s u v
    rw [unifyAll, unifyAllBy] at settled ⊢
    cases step : s.unify u v with
    | clash => exact ⟨first, by rw [unifyAllBy, ← same, step]⟩
    | endless =>
      rw [step] at settled
      exact absurd rfl settled
    | solved m =>
      rw [step] at settled
      obtain ⟨second, later⟩ := ih settled
      have here : unifyWithin (first + second) u v s = .solved m := by
        rw [unifyWithin_extends first second, ← same, step]
        rw [← same, step]
        exact solved_ne_endless m
      have rest : unifyAllBy (unifyWithin (first + second)) pairs m =
          unifyAllBy (unifyWithin second) pairs m := by
        rw [Nat.add_comm]
        apply unifyAllBy_extends (unifyWithin_extends second first)
        rw [← later]
        exact settled
      exact ⟨first + second, by rw [unifyAllBy, here]; exact later.trans rest.symm⟩

theorem unify_walked {a b : Term} (left : s.walk u = some a) (right : s.walk v = some b) :
    s.unify u v = (decision a b).outcome (fun u v s => s.unify u v) s := by
  by_cases endless : s.unify u v = .endless
  · have shallow := unifyWithin_walked 0 left right
    rw [unify_eq_endless_iff.mp endless 1] at shallow
    obtain ⟨us, vs, decided, -⟩ :=
      descends_of_endless (walk_stuck left) (walk_stuck right) shallow.symm
    rw [endless, decided]
    by_contra settled
    obtain ⟨depth, same⟩ := unifyAll_eq_unifyAllBy (Ne.symm settled)
    have deep := unifyWithin_walked depth left right
    rw [unify_eq_endless_iff.mp endless (depth + 1), decided] at deep
    exact settled (deep.trans same.symm)
  · obtain ⟨depth, same⟩ := unify_eq_unifyWithin s u v
    cases depth with
    | zero => exact absurd same endless
    | succ depth =>
      rw [same, unifyWithin_walked depth left right] at endless ⊢
      exact (outcome_extends (unify_extends depth) endless).symm

end RelationalSearch.Subst

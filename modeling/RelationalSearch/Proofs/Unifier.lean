import RelationalSearch.Proofs.Links

/-!
What unification computes. A unification that returns gives exactly the valuations that solve
the substitution and make the two terms equal, and it only adds bindings of free variables to
terms that lead nowhere. It has an end wherever there is such a valuation: each step into a
sequence leads to terms with smaller instances, and all of them occur in what was given.
-/
namespace RelationalSearch

namespace Subst

variable {θ : Valuation} {s s' : Subst} {u v : Term}
  {solve : Term → Term → Subst → Unification}

inductive Decision where
  | keep
  | bind (x : Var) (t : Term)
  | descend (us vs : List Term)
  | clash

def decision : Term → Term → Decision
  | .var x, .var y => if x == y then .keep else .bind x (.var y)
  | .var x, t => .bind x t
  | t, .var y => .bind y t
  | .seq us, .seq vs => if us.length = vs.length then .descend us vs else .clash
  | .atom a, .atom b => if a = b then .keep else .clash
  | .atom _, .seq _ => .clash
  | .seq _, .atom _ => .clash

inductive Decides : Term → Term → Decision → Prop where
  | same {x y : Var} (equal : x.id = y.id) : Decides (.var x) (.var y) .keep
  | bind_left {x : Var} {t : Term} (other : ∀ y, t = .var y → y.id ≠ x.id) :
      Decides (.var x) t (.bind x t)
  | bind_right {x : Var} {t : Term} (bare : ∀ y, t ≠ .var y) : Decides t (.var x) (.bind x t)
  | items {us vs : List Term} (same : us.length = vs.length) :
      Decides (.seq us) (.seq vs) (.descend us vs)
  | lengths {us vs : List Term} (different : us.length ≠ vs.length) :
      Decides (.seq us) (.seq vs) .clash
  | equal (a : Atom) : Decides (.atom a) (.atom a) .keep
  | different {a b : Atom} (different : a ≠ b) : Decides (.atom a) (.atom b) .clash
  | atom_seq (a : Atom) (vs : List Term) : Decides (.atom a) (.seq vs) .clash
  | seq_atom (us : List Term) (b : Atom) : Decides (.seq us) (.atom b) .clash

theorem decides (a b : Term) : Decides a b (decision a b) := by
  fun_cases decision a b with
  | case1 x y equal => exact .same ((Var.beq_iff x y).mp equal)
  | case2 x y apart =>
    refine .bind_left ?_
    rintro z target same
    cases target
    exact apart ((Var.beq_iff x y).mpr same.symm)
  | case3 x t bare => exact .bind_left fun y target => absurd target (bare y)
  | case4 t y bare => exact .bind_right bare
  | case5 us vs same => exact .items same
  | case6 us vs apart => exact .lengths apart
  | case7 a => exact .equal a
  | case8 a b apart => exact .different apart
  | case9 a vs => exact .atom_seq a vs
  | case10 us b => exact .seq_atom us b

def Decision.outcome (solve : Term → Term → Subst → Unification) (s : Subst) :
    Decision → Unification
  | .keep => .solved s
  | .bind x t => .ofExtend (s.extend x t)
  | .descend us vs => unifyAllBy solve (us.zip vs) s
  | .clash => .clash

theorem outcome_bind {x : Var} {t : Term} (extended : s.extend x t = .ok s') :
    (Decision.bind x t).outcome solve s = .solved s' := by
  rw [Decision.outcome, extended]
  rfl

theorem extend_of_decision {a b t : Term} {x : Var} (decided : decision a b = .bind x t)
    (stuckLeft : s.follow? a = none) (stuckRight : s.follow? b = none) :
    ∃ s', s.extend x t = .ok s' := by
  have rule := decides a b
  rw [decided] at rule
  have free : s.get? x = none := by
    cases rule with
    | bind_left other => exact stuckLeft
    | bind_right bare => exact stuckRight
  unfold extend
  rw [free]
  exact ⟨_, rfl⟩

theorem unifyWithin_walked (depth : Nat) {a b : Term} (left : s.walk u = some a)
    (right : s.walk v = some b) :
    unifyWithin (depth + 1) u v s = (decision a b).outcome (unifyWithin depth) s := by
  rw [unifyWithin, left, right]
  fun_cases decision a b with
  | case1 x y equal => simp only [equal, if_true, Decision.outcome]
  | case2 x y apart => simp only [apart, Bool.false_eq_true, if_false, Decision.outcome]
  | case3 _ x bare =>
    cases b with
    | var y => exact absurd rfl (bare y)
    | atom | seq => rfl
  | case4 _ y bare =>
    cases a with
    | var x => exact absurd rfl (bare x)
    | atom | seq => rfl
  | case5 us vs same => simp only [same, if_true, Decision.outcome]
  | case6 us vs apart => simp only [apart, if_false, Decision.outcome]
  | case7 a => simp only [if_true, Decision.outcome]
  | case8 a b apart => simp only [apart, if_false, Decision.outcome]
  | case9 a vs => rfl
  | case10 us b => rfl

/-- The result is right about an equation that is added to those of the substitution. -/
def Agrees (θ : Valuation) (s : Subst) (equation : Prop) : Unification → Prop
  | .solved s' => Solves θ s' ↔ Solves θ s ∧ equation
  | .clash => ¬ (Solves θ s ∧ equation)
  | .endless => True

theorem agrees_congr {first second : Prop} {result : Unification}
    (same : Solves θ s → (first ↔ second)) (agrees : Agrees θ s first result) :
    Agrees θ s second result := by
  have both : Solves θ s ∧ first ↔ Solves θ s ∧ second := and_congr_right same
  cases result with
  | solved s' => exact agrees.trans both
  | clash => exact fun solves => agrees (both.mpr solves)
  | endless => trivial

theorem agrees_chain {first second : Prop} {m : Subst} {result : Unification}
    (before : Agrees θ s first (.solved m)) (after : Agrees θ m second result) :
    Agrees θ s (first ∧ second) result := by
  have both : Solves θ m ∧ second ↔ Solves θ s ∧ first ∧ second :=
    (and_congr_left' before).trans and_assoc
  cases result with
  | solved s' => exact after.trans both
  | clash => exact fun solves => after (both.mpr solves)
  | endless => trivial

theorem agrees_unifyAllBy
    (right : ∀ u v s, Agrees θ s (u.value θ = v.value θ) (solve u v s)) {us vs : List Term}
    (same : us.length = vs.length) (s : Subst) :
    Agrees θ s (us.map (Term.value θ) = vs.map (Term.value θ))
      (unifyAllBy solve (us.zip vs) s) := by
  induction us generalizing vs s with
  | nil =>
    cases vs with
    | nil => exact ⟨fun solves => ⟨solves, rfl⟩, And.left⟩
    | cons v vs => cases same
  | cons u us ih =>
    cases vs with
    | nil => cases same
    | cons v vs =>
      have first := right u v s
      rw [List.zip_cons_cons, unifyAllBy, List.map_cons, List.map_cons, List.cons.injEq]
      cases step : solve u v s with
      | clash =>
        rw [step] at first
        exact fun solves => first ⟨solves.1, solves.2.1⟩
      | endless => trivial
      | solved m =>
        rw [step] at first
        exact agrees_chain first (ih (Nat.succ.inj same) m)

theorem agrees_outcome {a b : Term} (stuckLeft : s.follow? a = none)
    (stuckRight : s.follow? b = none)
    (right : ∀ u v s, Agrees θ s (u.value θ = v.value θ) (solve u v s)) :
    Agrees θ s (a.value θ = b.value θ) ((decision a b).outcome solve s) := by
  have rule := decides a b
  generalize decided : decision a b = d at rule
  cases rule with
  | same equal =>
    refine ⟨fun solves => ⟨solves, ?_⟩, And.left⟩
    rw [Term.value, Term.value, equal]
  | bind_left other =>
    obtain ⟨s', extended⟩ := extend_of_decision decided stuckLeft stuckRight
    rw [outcome_bind extended]
    exact solves_extend_iff extended
  | bind_right bare =>
    obtain ⟨s', extended⟩ := extend_of_decision decided stuckLeft stuckRight
    rw [outcome_bind extended]
    exact (solves_extend_iff extended).trans (and_congr_right' eq_comm)
  | @items us vs same =>
    rw [Term.value, Term.value, Ground.seq.injEq, Term.values_eq_map, Term.values_eq_map]
    exact agrees_unifyAllBy right same s
  | @lengths us vs different =>
    rintro ⟨-, equal⟩
    rw [Term.value, Term.value, Ground.seq.injEq, Term.values_eq_map, Term.values_eq_map] at equal
    apply different
    rw [← List.length_map (Term.value θ), equal, List.length_map]
  | equal a => exact ⟨fun solves => ⟨solves, rfl⟩, And.left⟩
  | different different =>
    rintro ⟨-, equal⟩
    cases equal
    exact different rfl
  | atom_seq a vs => exact fun solves => nomatch solves.2
  | seq_atom us b => exact fun solves => nomatch solves.2

theorem unifyWithin_succ (depth : Nat) (u v : Term) (s : Subst) :
    unifyWithin (depth + 1) u v s = .endless ∨
      ∃ a b, s.walk u = some a ∧ s.walk v = some b ∧
        unifyWithin (depth + 1) u v s = (decision a b).outcome (unifyWithin depth) s := by
  cases left : s.walk u with
  | none =>
    rw [unifyWithin, left]
    exact .inl rfl
  | some a =>
    cases right : s.walk v with
    | none =>
      rw [unifyWithin, left, right]
      cases a <;> exact .inl rfl
    | some b => exact .inr ⟨a, b, rfl, rfl, unifyWithin_walked depth left right⟩

theorem agrees_unifyWithin (θ : Valuation) (depth : Nat) (u v : Term) (s : Subst) :
    Agrees θ s (u.value θ = v.value θ) (unifyWithin depth u v s) := by
  induction depth generalizing u v s with
  | zero => trivial
  | succ depth ih =>
    rcases unifyWithin_succ depth u v s with lost | ⟨a, b, left, right, same⟩
    · rw [lost]
      trivial
    · rw [same]
      refine agrees_congr (fun solves => ?_)
        (agrees_outcome (walk_stuck left) (walk_stuck right) ih)
      rw [walk_value solves left, walk_value solves right]

theorem unify_eq_unifyWithin (s : Subst) (u v : Term) :
    ∃ depth, s.unify u v = unifyWithin depth u v s := by
  cases first : unifyWithin shallow u v s with
  | endless => exact ⟨s.unifyDepth u v, by rw [unify, first]⟩
  | solved s' => exact ⟨shallow, by rw [unify, first]⟩
  | clash => exact ⟨shallow, by rw [unify, first]⟩

/-- The outcome of a unification is right for every valuation. -/
theorem agrees_unify (θ : Valuation) (s : Subst) (u v : Term) :
    Agrees θ s (u.value θ = v.value θ) (s.unify u v) := by
  obtain ⟨depth, same⟩ := unify_eq_unifyWithin s u v
  rw [same]
  exact agrees_unifyWithin θ depth u v s

/-- Bindings added one after the other, each of a free variable to a term that leads nowhere. -/
inductive Grows (Good : Term → Prop) : Subst → Subst → Prop where
  | refl (s : Subst) : Grows Good s s
  | bind {s m s' : Subst} {x : Var} {t : Term} (extended : s.extend x t = .ok m)
      (stuck : s.follow? t = none) (other : ∀ y, t = .var y → y.id ≠ x.id)
      (source : Good (.var x)) (target : Good t) (later : Grows Good m s') : Grows Good s s'

def Binds (Good : Term → Prop) (s : Subst) : Prop :=
  ∀ x t, s.get? x = some t → Good t

def Follows (Good : Term → Prop) (s : Subst) : Prop :=
  ∀ x t, s.get? x = some t → Good (.var x) → Good t

theorem follows_of_binds {Good : Term → Prop} (binds : Binds Good s) : Follows Good s :=
  fun x t bound _ => binds x t bound

section Growing

variable {Good : Term → Prop}

theorem grows_trans {m : Subst} (first : Grows Good s m) (second : Grows Good m s') :
    Grows Good s s' := by
  induction first with
  | refl => exact second
  | bind extended stuck other source target later ih =>
    exact .bind extended stuck other source target (ih second)

theorem binds_of_grows (grows : Grows Good s s') (binds : Binds Good s) : Binds Good s' := by
  induction grows with
  | refl => exact binds
  | bind extended stuck other source target later ih =>
    apply ih
    intro y u bound
    rw [get?_extend extended] at bound
    split at bound
    · cases bound
      exact target
    · exact binds y u bound

theorem follows_of_grows (grows : Grows Good s s') (follows : Follows Good s) :
    Follows Good s' := by
  induction grows with
  | refl => exact follows
  | bind extended stuck other source target later ih =>
    apply ih
    intro y u bound
    rw [get?_extend extended] at bound
    split at bound
    · cases bound
      exact fun _ => target
    · exact follows y u bound

theorem noLoops_of_grows (grows : Grows Good s s') (noLoops : s.NoLoops) : s'.NoLoops := by
  induction grows with
  | refl => exact noLoops
  | bind extended stuck other source target later ih =>
    exact ih (noLoops_extend extended stuck other noLoops)

theorem nextId_of_grows (grows : Grows Good s s') : s'.nextId = s.nextId := by
  induction grows with
  | refl => rfl
  | bind extended stuck other source target later ih =>
    exact ih.trans (nextId_of_extend extended)

theorem walk_good (follows : Follows Good s) (walked : s.walk u = some v) (good : Good u) :
    Good v := by
  refine walkWithin_induction (motive := Good) ?_ walked good
  intro t next followed good
  obtain ⟨x, rfl, bound⟩ := follow?_eq_some followed
  exact follows x next bound good

theorem grows_unifyAllBy
    (grows : ∀ u v s s', Follows Good s → Good u → Good v → solve u v s = .solved s' →
      Grows Good s s')
    {pairs : List (Term × Term)} (goods : ∀ pair ∈ pairs, Good pair.1 ∧ Good pair.2)
    (follows : Follows Good s) (solved : unifyAllBy solve pairs s = .solved s') :
    Grows Good s s' := by
  induction pairs generalizing s with
  | nil =>
    cases solved
    exact .refl _
  | cons pair pairs ih =>
    obtain ⟨u, v⟩ := pair
    obtain ⟨left, right⟩ := goods (u, v) List.mem_cons_self
    rw [unifyAllBy] at solved
    cases step : solve u v s with
    | clash => rw [step] at solved; cases solved
    | endless => rw [step] at solved; cases solved
    | solved m =>
      rw [step] at solved
      have first := grows u v s m follows left right step
      have rest := ih (fun pair member => goods pair (List.mem_cons_of_mem _ member))
        (follows_of_grows first follows) solved
      exact grows_trans first rest

theorem zip_good (items : ∀ ts, Good (.seq ts) → ∀ t ∈ ts, Good t) {us vs : List Term}
    (left : Good (.seq us)) (right : Good (.seq vs)) :
    ∀ pair ∈ us.zip vs, Good pair.1 ∧ Good pair.2 := by
  intro pair member
  obtain ⟨first, second⟩ := List.of_mem_zip member
  exact ⟨items us left _ first, items vs right _ second⟩

theorem grows_outcome {a b : Term} (items : ∀ ts, Good (.seq ts) → ∀ t ∈ ts, Good t)
    (grows : ∀ u v s s', Follows Good s → Good u → Good v → solve u v s = .solved s' →
      Grows Good s s')
    (follows : Follows Good s) (stuckLeft : s.follow? a = none) (stuckRight : s.follow? b = none)
    (left : Good a) (right : Good b) (solved : (decision a b).outcome solve s = .solved s') :
    Grows Good s s' := by
  have rule := decides a b
  generalize decided : decision a b = d at rule solved
  cases rule with
  | same equal => cases solved; exact .refl _
  | bind_left other =>
    obtain ⟨m, extended⟩ := extend_of_decision decided stuckLeft stuckRight
    rw [outcome_bind extended] at solved
    cases solved
    exact .bind extended stuckRight other left right (.refl _)
  | bind_right bare =>
    obtain ⟨m, extended⟩ := extend_of_decision decided stuckLeft stuckRight
    rw [outcome_bind extended] at solved
    cases solved
    exact .bind extended stuckLeft (fun y same => absurd same (bare y)) right left (.refl _)
  | items same => exact grows_unifyAllBy grows (zip_good items left right) follows solved
  | lengths different => cases solved
  | equal a => cases solved; exact .refl _
  | different different => cases solved
  | atom_seq a vs => cases solved
  | seq_atom us b => cases solved

theorem grows_unifyWithin (items : ∀ ts, Good (.seq ts) → ∀ t ∈ ts, Good t) (depth : Nat) :
    ∀ u v s s', Follows Good s → Good u → Good v → unifyWithin depth u v s = .solved s' →
      Grows Good s s' := by
  induction depth with
  | zero => exact fun _ _ _ _ _ _ _ solved => nomatch solved
  | succ depth ih =>
    intro u v s s' follows goodLeft goodRight solved
    rcases unifyWithin_succ depth u v s with lost | ⟨a, b, left, right, same⟩
    · rw [lost] at solved
      cases solved
    · rw [same] at solved
      exact grows_outcome items ih follows (walk_stuck left) (walk_stuck right)
        (walk_good follows left goodLeft) (walk_good follows right goodRight) solved

theorem grows_unify (items : ∀ ts, Good (.seq ts) → ∀ t ∈ ts, Good t) (follows : Follows Good s)
    (left : Good u) (right : Good v) (solved : s.unify u v = .solved s') : Grows Good s s' := by
  obtain ⟨depth, same⟩ := unify_eq_unifyWithin s u v
  rw [same] at solved
  exact grows_unifyWithin items depth u v s s' follows left right solved

theorem grows_of_unify (solved : s.unify u v = .solved s') : Grows (fun _ => True) s s' :=
  grows_unify (fun _ _ _ _ => trivial) (fun _ _ _ _ => trivial) trivial trivial solved

end Growing

theorem scoped_of_grows {bound : Nat} (grows : Grows (Term.Below bound) s s')
    (counter : s.nextId = bound) (inScope : s.Scoped) : s'.Scoped := by
  induction grows with
  | refl => exact inScope
  | @bind s m s' x t extended stuck other source target later ih =>
    subst counter
    have small : x.id < s.nextId := source x.id (.var rfl)
    exact ih (nextId_of_extend extended) (scoped_extend extended inScope small target)

theorem scoped_of_unify (inScope : s.Scoped) (left : u.Below s.nextId) (right : v.Below s.nextId)
    (solved : s.unify u v = .solved s') : s'.Scoped ∧ s'.nextId = s.nextId := by
  have grows : Grows (Term.Below s.nextId) s s' :=
    grows_unify (fun _ below _ member => Term.below_of_mem below member)
      (fun x t bound _ => (inScope x t bound).2) left right solved
  exact ⟨scoped_of_grows grows rfl inScope, nextId_of_grows grows⟩

theorem noLoops_of_unify (noLoops : s.NoLoops) (solved : s.unify u v = .solved s') :
    s'.NoLoops :=
  noLoops_of_grows (grows_of_unify solved) noLoops

section Ending

variable {nodes : List Term}

/-- The number of terms whose instance is not larger than the given size. -/
def room (θ : Valuation) (nodes : List Term) (size : Nat) : Nat :=
  nodes.countP fun t => (t.value θ).size ≤ size

theorem room_lt {t : Term} {first second : Nat} (less : first < second) (member : t ∈ nodes)
    (exact : (t.value θ).size = second) : room θ nodes first < room θ nodes second := by
  refine countP_lt ?_ member ?_ (decide_eq_true (Nat.le_of_eq exact))
  · intro u _ small
    rw [decide_eq_true_eq] at small ⊢
    omega
  · rw [decide_eq_true_eq]
    omega

theorem unifyAllBy_ends {Inv : Subst → Prop} {pairs : List (Term × Term)}
    (ends : ∀ pair ∈ pairs, ∀ s, Inv s → ∃ s', solve pair.1 pair.2 s = .solved s' ∧ Inv s')
    (start : Inv s) : ∃ s', unifyAllBy solve pairs s = .solved s' ∧ Inv s' := by
  induction pairs generalizing s with
  | nil => exact ⟨s, rfl, start⟩
  | cons pair pairs ih =>
    obtain ⟨m, step, inv⟩ := ends pair List.mem_cons_self s start
    obtain ⟨s', more, last⟩ := ih (fun pair member => ends pair (List.mem_cons_of_mem _ member)) inv
    exact ⟨s', by rw [unifyAllBy, step]; exact more, last⟩

/-- What a unification keeps while it is inside the given terms and can still be solved. -/
structure Solvable (θ : Valuation) (nodes : List Term) (s : Subst) : Prop where
  binds : Binds (· ∈ nodes) s
  noLoops : s.NoLoops
  solves : Solves θ s

theorem solvable_of_unifyWithin (items : ∀ ts, .seq ts ∈ nodes → ∀ t ∈ ts, t ∈ nodes)
    {depth : Nat} (solvable : Solvable θ nodes s) (left : u ∈ nodes) (right : v ∈ nodes)
    (equal : u.value θ = v.value θ) (solved : unifyWithin depth u v s = .solved s') :
    Solvable θ nodes s' := by
  have grows := grows_unifyWithin items depth u v s s' (follows_of_binds solvable.binds) left right solved
  have agrees := agrees_unifyWithin θ depth u v s
  rw [solved] at agrees
  exact ⟨binds_of_grows grows solvable.binds, noLoops_of_grows grows solvable.noLoops,
    agrees.mpr ⟨solvable.solves, equal⟩⟩

theorem value_eq_of_mem_zip {us vs : List Term} {pair : Term × Term}
    (equal : us.map (Term.value θ) = vs.map (Term.value θ)) (member : pair ∈ us.zip vs) :
    pair.1.value θ = pair.2.value θ := by
  induction us generalizing vs with
  | nil => cases member
  | cons u us ih =>
    cases vs with
    | nil => cases member
    | cons v vs =>
      rw [List.map_cons, List.map_cons, List.cons.injEq] at equal
      rw [List.zip_cons_cons] at member
      rcases List.mem_cons.mp member with rfl | later
      · exact equal.1
      · exact ih equal.2 later

theorem unifyWithin_solved (items : ∀ ts, .seq ts ∈ nodes → ∀ t ∈ ts, t ∈ nodes) {depth : Nat}
    (solvable : Solvable θ nodes s) (left : u ∈ nodes) (right : v ∈ nodes)
    (equal : u.value θ = v.value θ) (enough : room θ nodes (u.value θ).size ≤ depth) :
    ∃ s', unifyWithin depth u v s = .solved s' := by
  -- The depth that is left is enough for the terms whose instances are not larger than those at
  -- hand, and each step into a sequence leaves at least one of these behind.
  induction depth generalizing u v s with
  | zero =>
    have some : room θ nodes 0 < room θ nodes (u.value θ).size :=
      room_lt (Ground.size_pos (u.value θ)) left rfl
    omega
  | succ depth ih =>
    obtain ⟨u', walkedLeft⟩ := walk_isSome solvable.noLoops u
    obtain ⟨v', walkedRight⟩ := walk_isSome solvable.noLoops v
    have follows := follows_of_binds solvable.binds
    have goodLeft := walk_good follows walkedLeft left
    have goodRight := walk_good follows walkedRight right
    have sameLeft := walk_value solvable.solves walkedLeft
    have walkedEqual : u'.value θ = v'.value θ := by
      rw [sameLeft, walk_value solvable.solves walkedRight, equal]
    have stuckLeft := walk_stuck walkedLeft
    have stuckRight := walk_stuck walkedRight
    have agrees := agrees_outcome stuckLeft stuckRight (agrees_unifyWithin θ depth)
    rw [unifyWithin_walked depth walkedLeft walkedRight]
    have rule := decides u' v'
    generalize decided : decision u' v' = d at rule agrees
    cases rule with
    | same equal => exact ⟨_, rfl⟩
    | bind_left | bind_right =>
      obtain ⟨s', extended⟩ := extend_of_decision decided stuckLeft stuckRight
      exact ⟨s', outcome_bind extended⟩
    | equal a => exact ⟨_, rfl⟩
    | lengths different => exact absurd ⟨solvable.solves, walkedEqual⟩ agrees
    | different different => exact absurd ⟨solvable.solves, walkedEqual⟩ agrees
    | atom_seq a vs => exact absurd ⟨solvable.solves, walkedEqual⟩ agrees
    | seq_atom us b => exact absurd ⟨solvable.solves, walkedEqual⟩ agrees
    | @items us vs same =>
      rw [Term.value, Term.value, Ground.seq.injEq, Term.values_eq_map, Term.values_eq_map]
        at walkedEqual
      have ends : ∀ pair ∈ us.zip vs, ∀ m, Solvable θ nodes m →
          ∃ s', unifyWithin depth pair.1 pair.2 m = .solved s' ∧ Solvable θ nodes s' := by
        intro pair member m inv
        obtain ⟨first, second⟩ := zip_good items goodLeft goodRight pair member
        have pairEqual := value_eq_of_mem_zip walkedEqual member
        have smaller := Term.size_value_lt (θ := θ) (List.of_mem_zip member).1
        have less := room_lt smaller goodLeft rfl
        rw [sameLeft] at less
        obtain ⟨s', solved⟩ := ih inv first second pairEqual (by omega)
        exact ⟨s', solved, solvable_of_unifyWithin items inv first second pairEqual solved⟩
      obtain ⟨s', solved, -⟩ := unifyAllBy_ends ends solvable
      exact ⟨s', solved⟩

end Ending

end Subst

namespace Term

mutual

def nodes : Term → List Term
  | .var x => [.var x]
  | .atom a => [.atom a]
  | .seq ts => .seq ts :: nodesItems ts

def nodesItems : List Term → List Term
  | [] => []
  | t :: ts => nodes t ++ nodesItems ts

end

theorem nodesItems_eq_flatMap (ts : List Term) : nodesItems ts = ts.flatMap nodes := by
  induction ts with
  | nil => rfl
  | cons t ts ih => rw [nodesItems, ih, List.flatMap_cons]

theorem mem_nodes_self (t : Term) : t ∈ t.nodes := by
  cases t with
  | var x => exact List.mem_singleton_self _
  | atom a => exact List.mem_singleton_self _
  | seq ts => exact List.mem_cons_self

mutual

theorem length_nodes : ∀ t : Term, t.nodes.length = t.size
  | .var _ => rfl
  | .atom _ => rfl
  | .seq ts => by rw [nodes, List.length_cons, length_nodesItems ts, size]

theorem length_nodesItems : ∀ ts : List Term, (nodesItems ts).length = sizeItems ts
  | [] => rfl
  | t :: ts => by
    rw [nodesItems, List.length_append, length_nodes t, length_nodesItems ts, sizeItems]

end

theorem mem_nodes_of_mem {t : Term} {ts : List Term} (whole : Term) (inside : .seq ts ∈ whole.nodes)
    (member : t ∈ ts) : t ∈ whole.nodes := by
  induction whole using items_induction with
  | var x => cases List.mem_singleton.mp inside
  | atom a => cases List.mem_singleton.mp inside
  | seq us ih =>
    rw [nodes, nodesItems_eq_flatMap] at inside ⊢
    apply List.mem_cons_of_mem
    rcases List.mem_cons.mp inside with same | deeper
    · cases same
      exact List.mem_flatMap.mpr ⟨t, member, mem_nodes_self t⟩
    · obtain ⟨u, among, found⟩ := List.mem_flatMap.mp deeper
      exact List.mem_flatMap.mpr ⟨u, among, ih u among found⟩

end Term

namespace Subst

variable {θ : Valuation} {s s' : Subst} {u v : Term}

theorem length_bindings_nodes (bindings : List (Var × Term)) :
    (bindings.flatMap fun b => b.2.nodes).length =
      bindings.foldr (fun b total => b.2.size + total) 0 := by
  induction bindings with
  | nil => rfl
  | cons b bindings ih =>
    rw [List.flatMap_cons, List.length_append, ih, List.foldr_cons, Term.length_nodes]

/-- All terms that a unification can come to. -/
def unifyNodes (s : Subst) (u v : Term) : List Term :=
  s.bindings.flatMap (fun b => b.2.nodes) ++ (u.nodes ++ v.nodes)

theorem length_unifyNodes (s : Subst) (u v : Term) :
    (s.unifyNodes u v).length = s.weight + (u.size + v.size) := by
  rw [unifyNodes, List.length_append, List.length_append, length_bindings_nodes, weight,
    Term.length_nodes, Term.length_nodes]

theorem mem_unifyNodes (s : Subst) (u v : Term) (t : Term) :
    t ∈ s.unifyNodes u v ↔
      (∃ b ∈ s.bindings, t ∈ b.2.nodes) ∨ t ∈ u.nodes ∨ t ∈ v.nodes := by
  simp only [unifyNodes, List.mem_append, List.mem_flatMap]

theorem unifyNodes_items (s : Subst) (u v : Term) (ts : List Term)
    (inside : .seq ts ∈ s.unifyNodes u v) : ∀ t ∈ ts, t ∈ s.unifyNodes u v := by
  intro t member
  rw [mem_unifyNodes] at inside ⊢
  rcases inside with ⟨b, bound, inside⟩ | inside | inside
  · exact .inl ⟨b, bound, Term.mem_nodes_of_mem b.2 inside member⟩
  · exact .inr (.inl (Term.mem_nodes_of_mem u inside member))
  · exact .inr (.inr (Term.mem_nodes_of_mem v inside member))

theorem mem_bindings {x : Var} {t : Term} :
    (x, t) ∈ s.bindings ↔ s.entries[x.id]? = some ⟨x.name, t⟩ := by
  constructor
  · intro listed
    obtain ⟨⟨id, b⟩, stored, same⟩ := List.mem_map.mp listed
    cases same
    exact Std.ExtTreeMap.mem_toList_iff_getElem?_eq_some.mp stored
  · intro entry
    have stored := Std.ExtTreeMap.mem_toList_iff_getElem?_eq_some.mpr entry
    exact List.mem_map_of_mem stored

theorem get?_of_mem_bindings {x : Var} {t : Term} (listed : (x, t) ∈ s.bindings) :
    s.get? x = some t := by
  rw [get?, mem_bindings.mp listed]
  rfl

theorem mem_bindings_of_get? {x : Var} {t : Term} (bound : s.get? x = some t) :
    ∃ name, (⟨x.id, name⟩, t) ∈ s.bindings := by
  rw [get?, Option.map_eq_some_iff] at bound
  obtain ⟨b, entry, rfl⟩ := bound
  exact ⟨b.name, mem_bindings.mpr entry⟩

theorem binds_unifyNodes (s : Subst) (u v : Term) : Binds (· ∈ s.unifyNodes u v) s := by
  intro x t bound
  obtain ⟨_, listed⟩ := mem_bindings_of_get? bound
  exact (mem_unifyNodes s u v t).mpr (.inl ⟨_, listed, t.mem_nodes_self⟩)

theorem left_mem_unifyNodes (s : Subst) (u v : Term) : u ∈ s.unifyNodes u v :=
  (mem_unifyNodes s u v u).mpr (.inr (.inl u.mem_nodes_self))

theorem right_mem_unifyNodes (s : Subst) (u v : Term) : v ∈ s.unifyNodes u v :=
  (mem_unifyNodes s u v v).mpr (.inr (.inr v.mem_nodes_self))

theorem unifyDepth_enough (s : Subst) (u v : Term) :
    (s.unifyNodes u v).length ≤ s.unifyDepth u v := by
  rw [length_unifyNodes, unifyDepth, Nat.add_assoc]
  generalize s.weight + (u.size + v.size) = nodes
  have square : nodes ≤ nodes * nodes := Nat.le_mul_self nodes
  have cube : nodes * nodes ≤ nodes * nodes * (nodes + 1) := Nat.le_mul_of_pos_right _ (by omega)
  omega

/-- A unification that some valuation can satisfy is solved, and the valuation satisfies the
    result. -/
theorem unify_solved (noLoops : s.NoLoops) (solves : Solves θ s)
    (equal : u.value θ = v.value θ) : ∃ s', s.unify u v = .solved s' ∧ Solves θ s' := by
  have agrees := agrees_unify θ s u v
  cases result : s.unify u v with
  | solved s' =>
    rw [result] at agrees
    exact ⟨s', rfl, agrees.mpr ⟨solves, equal⟩⟩
  | clash =>
    rw [result] at agrees
    exact absurd ⟨solves, equal⟩ agrees
  | endless =>
    have enough : room θ (s.unifyNodes u v) (u.value θ).size ≤ s.unifyDepth u v :=
      Nat.le_trans List.countP_le_length (unifyDepth_enough s u v)
    obtain ⟨s', solved⟩ := unifyWithin_solved (unifyNodes_items s u v)
      ⟨binds_unifyNodes s u v, noLoops, solves⟩ (left_mem_unifyNodes s u v)
      (right_mem_unifyNodes s u v) equal enough
    unfold unify at result
    split at result
    · rw [solved] at result
      cases result
    · next settled => exact absurd result settled

end Subst

end RelationalSearch

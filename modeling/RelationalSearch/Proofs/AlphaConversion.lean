import RelationalSearch.Proofs.Guarded
import RelationalSearch.Proofs.Lockstep
import RelationalSearch.Proofs.Renaming

/-!
Goals that differ in names. What a goal calls its variables may be changed as long as each name
stands for what it stood for before. In scopes that hold corresponding terms, such goals start
streams that are alike on corresponding substitutions, and what is forced later is alike again. So
the searches go in lockstep: neither names nor numbers of variables have an effect on them, nor has
the number of variables that were handed out before.
-/
namespace RelationalSearch

/-- Which names of one goal stand for which names of another. -/
abbrev Pairing := String → String → Prop

namespace Pairing

def free : Pairing := fun _ _ => True

inductive define (P : Pairing) (name name' : String) : Pairing where
  | here : define P name name' name name'
  | there {a b : String} (other : a ≠ name) (other' : b ≠ name') (paired : P a b) :
      define P name name' a b

def defineAll (P : Pairing) : List String → List String → Pairing
  | name :: names, name' :: names' => (P.define name name').defineAll names names'
  | _, _ => P

theorem define_refl {P : Pairing} (same : ∀ a, P a a) (name a : String) :
    P.define name name a a := by
  by_cases here : a = name
  · rw [here]
    exact .here
  · exact .there here here (same a)

theorem defineAll_refl {P : Pairing} (same : ∀ a, P a a) (names : List String) (a : String) :
    P.defineAll names names a a := by
  induction names generalizing P with
  | nil => exact same a
  | cons name names ih => exact ih (define_refl same name)

end Pairing

inductive Expr.Alike (P : Pairing) : Expr → Expr → Prop where
  | ref {a b : String} (paired : P a b) : Alike P (.ref a) (.ref b)
  | atom (a : Atom) : Alike P (.atom a) (.atom a)
  | seq {es es' : List Expr} (items : List.Forall₂ (Alike P) es es') : Alike P (.seq es) (.seq es')
  | add {e e' : Expr} (inner : Alike P e e') (k : Int64) : Alike P (.add e k) (.add e' k)

/-- The same goal with other names, also for the variables that it hands out. -/
inductive Goal.Alike : Pairing → Goal → Goal → Prop where
  | succeed {P : Pairing} : Alike P .succeed .succeed
  | fail {P : Pairing} : Alike P .fail .fail
  | always {P : Pairing} : Alike P .always .always
  | never {P : Pairing} : Alike P .never .never
  | eq {P : Pairing} {u u' v v' : Expr} (left : u.Alike P u') (right : v.Alike P v') :
      Alike P (.eq u v) (.eq u' v')
  | conj {P : Pairing} {g g' h h' : Goal} (first : Alike P g g') (second : Alike P h h') :
      Alike P (.conj g h) (.conj g' h')
  | disj {P : Pairing} {g g' h h' : Goal} (left : Alike P g g') (right : Alike P h h') :
      Alike P (.disj g h) (.disj g' h')
  | fresh {P : Pairing} {names names' : List String} {g g' : Goal}
      (count : names.length = names'.length) (body : Alike (P.defineAll names names') g g') :
      Alike P (.fresh names g) (.fresh names' g')
  | defer {P : Pairing} {g g' : Goal} (body : Alike P g g') : Alike P (.defer g) (.defer g')
  | call {P : Pairing} (name : String) {args args' : List Expr}
      (items : List.Forall₂ (Expr.Alike P) args args') :
      Alike P (.call name args) (.call name args')
  | ifZero {P : Pairing} {e e' : Expr} {g g' h h' : Goal} (choice : e.Alike P e')
      (zero : Alike P g g') (other : Alike P h h') : Alike P (.ifZero e g h) (.ifZero e' g' h')
  | copies {P : Pairing} (n : Nat) : Alike P (.copies n) (.copies n)

structure Relation.Alike (r r' : Relation) : Prop where
  arity : r.params.length = r'.params.length
  bodies : ∀ count, r.body.Alike
    (Pairing.free.defineAll (r.params.take count) (r'.params.take count)) r'.body

structure Program.Alike (p q : Program) : Prop where
  depth : p.callDepth = q.callDepth
  relations : ∀ name, Option.Rel Relation.Alike (p.relations.lookup name) (q.relations.lookup name)

section Reflexivity

variable {P : Pairing}

mutual

theorem Expr.alike_refl (same : ∀ a, P a a) : ∀ e : Expr, e.Alike P e
  | .ref name => .ref (same name)
  | .atom a => .atom a
  | .seq es => .seq (Expr.alike_refl_items same es)
  | .add e k => .add (Expr.alike_refl same e) k

theorem Expr.alike_refl_items (same : ∀ a, P a a) :
    ∀ es : List Expr, List.Forall₂ (Expr.Alike P) es es
  | [] => .nil
  | e :: es => .cons (Expr.alike_refl same e) (Expr.alike_refl_items same es)

end

theorem Goal.alike_refl (same : ∀ a, P a a) (g : Goal) : g.Alike P g := by
  induction g generalizing P with
  | succeed => exact .succeed
  | fail => exact .fail
  | always => exact .always
  | never => exact .never
  | eq u v => exact .eq (Expr.alike_refl same u) (Expr.alike_refl same v)
  | conj g h ihg ihh => exact .conj (ihg same) (ihh same)
  | disj g h ihg ihh => exact .disj (ihg same) (ihh same)
  | fresh names body ih => exact .fresh rfl (ih (Pairing.defineAll_refl same names))
  | defer body ih => exact .defer (ih same)
  | call name args => exact .call name (Expr.alike_refl_items same args)
  | ifZero e g h ihg ihh => exact .ifZero (Expr.alike_refl same e) (ihg same) (ihh same)
  | copies n => exact .copies n

theorem Program.alike_refl (p : Program) : p.Alike p := by
  refine ⟨rfl, fun name => ?_⟩
  cases p.relations.lookup name with
  | none => exact .none
  | some r =>
    have same (count : Nat) (a : String) :
        Pairing.free.defineAll (r.params.take count) (r.params.take count) a a :=
      Pairing.defineAll_refl (fun _ => trivial) _ a
    exact .some ⟨rfl, fun count => Goal.alike_refl (same count) r.body⟩

end Reflexivity

variable {n m : Nat} {ρ : Renaming n m} {P : Pairing} {scope scope' : Scope} {s t : Subst}

namespace Scope

def Alike (ρ : Renaming n m) (P : Pairing) (scope scope' : Scope) : Prop :=
  ∀ a b, P a b → Option.Rel (Term.Renames ρ) (scope.lookup a) (scope'.lookup b)

theorem alike_nil (ρ : Renaming n m) (P : Pairing) : Scope.Alike ρ P [] [] :=
  fun _ _ _ => .none

theorem alike_define {u v : Term} (scopes : Scope.Alike ρ P scope scope') (terms : u.Renames ρ v)
    (name name' : String) :
    Scope.Alike ρ (P.define name name') (scope.define name u) (scope'.define name' v) := by
  intro a b paired
  rw [define, define, List.lookup_cons, List.lookup_cons]
  cases paired with
  | here =>
    rw [beq_self_eq_true, beq_self_eq_true]
    exact .some terms
  | there other other' paired =>
    rw [beq_false_of_ne other, beq_false_of_ne other']
    exact scopes a b paired

theorem alike_defineAll {us vs : List Term} (scopes : Scope.Alike ρ P scope scope')
    (terms : List.Forall₂ (Term.Renames ρ) us vs) {names names' : List String}
    (count : names.length = names'.length) :
    Scope.Alike ρ (P.defineAll (names.take us.length) (names'.take us.length))
      (scope.defineAll names us) (scope'.defineAll names' vs) := by
  induction terms generalizing P scope scope' names names' with
  | nil =>
    cases names <;> cases names' <;> exact scopes
  | @cons u v us vs first rest ih =>
    cases names with
    | nil =>
      obtain rfl := List.length_eq_zero_iff.mp count.symm
      exact scopes
    | cons name names =>
      cases names' with
      | nil => cases count
      | cons name' names' =>
        exact ih (alike_define scopes first name name') (Nat.succ.inj count)

end Scope

namespace Expr

mutual

theorem renames_eval (scopes : Scope.Alike ρ P scope scope') : ∀ e e' : Expr, e.Alike P e' →
    Option.Rel (Term.Renames ρ) (e.eval scope) (e'.eval scope')
  | .ref a, e', alike => by
    cases alike with
    | ref paired => exact scopes _ _ paired
  | .atom a, e', alike => by
    cases alike
    exact .some (.atom a)
  | .seq es, e', alike => by
    cases alike with
    | @seq _ es' items =>
      rw [eval, eval]
      rcases none_or_some_of_rel (renames_evalAll scopes es es' items) with
        ⟨lost, lost'⟩ | ⟨ts, us, found, found', terms⟩
      · rw [lost, lost']
        exact .none
      · rw [found, found']
        exact .some (.seq terms)
  | .add e k, e', alike => by
    cases alike with
    | @add _ e' inner _ =>
      rw [eval, eval]
      rcases none_or_some_of_rel (renames_eval scopes e e' inner) with
        ⟨lost, lost'⟩ | ⟨t, u, found, found', terms⟩
      · rw [lost, lost']
        exact .none
      · rw [found, found']
        cases terms with
        | var same => exact .none
        | seq items => exact .none
        | atom a =>
          cases a with
          | int i => exact .some (.atom _)
          | _ => exact .none

theorem renames_evalAll (scopes : Scope.Alike ρ P scope scope') :
    ∀ es es' : List Expr, List.Forall₂ (Expr.Alike P) es es' →
      Option.Rel (List.Forall₂ (Term.Renames ρ)) (evalAll scope es) (evalAll scope' es')
  | [], es', items => by
    cases items
    exact .some .nil
  | e :: es, es', items => by
    cases items with
    | @cons _ e' _ es' first rest =>
      rw [evalAll, evalAll]
      rcases none_or_some_of_rel (renames_eval scopes e e' first) with
        ⟨lost, lost'⟩ | ⟨t, u, found, found', term⟩
      · rw [lost, lost']
        exact .none
      · rw [found, found']
        rcases none_or_some_of_rel (renames_evalAll scopes es es' rest) with
          ⟨lost, lost'⟩ | ⟨ts, us, others, others', terms⟩
        · rw [lost, lost']
          exact .none
        · rw [others, others']
          exact .some (.cons term terms)

end

end Expr

inductive Pending.Renames (ρ : Renaming n m) : Pending → Pending → Prop where
  | goal {P : Pairing} {scope scope' : Scope} {g g' : Goal} {s t : Subst}
      (scopes : Scope.Alike ρ P scope scope') (goals : g.Alike P g') (renames : s.Renames ρ t) :
      Renames ρ (.goal scope g s) (.goal scope' g' t)
  | call (name : String) {ts us : List Term} {s t : Subst}
      (args : List.Forall₂ (Term.Renames ρ) ts us) (renames : s.Renames ρ t) :
      Renames ρ (.call name ts s) (.call name us t)
  | endless {s t : Subst} (renames : s.Renames ρ t) : Renames ρ (.endless s) (.endless t)

abbrev Solutions.Renames (ρ : Renaming n m) : Solutions → Solutions → Prop :=
  Answers.Alike (Subst.Renames ρ) (Pending.Renames ρ)

namespace Goal

theorem renames_single (renames : s.Renames ρ t) : Solutions.Renames ρ (.single s) (.single t) :=
  .ready renames .empty

theorem renames_endless (renames : s.Renames ρ t) : Solutions.Renames ρ (endless s) (endless t) :=
  .feeding (renames_single renames) fun _ _ between => .inr (.endless between)

theorem renames_startEq {u u' v v' : Term} (renames : s.Renames ρ t) (left : u.Renames ρ u')
    (right : v.Renames ρ v') : Solutions.Renames ρ (startEq u v s) (startEq u' v' t) := by
  have outcomes := Subst.renames_unify renames left right
  rw [startEq, startEq]
  generalize s.unify u v = outcome at outcomes
  generalize t.unify u' v' = outcome' at outcomes
  cases outcomes with
  | solved between => exact renames_single between
  | clash => exact .empty
  | endless => exact renames_endless renames

theorem isZero_of_renames {u v : Term} (terms : u.Renames ρ v) :
    (u == .atom (.int 0)) = (v == .atom (.int 0)) := by
  cases terms <;> rfl

theorem renames_start {invoke invoke' : Invoke}
    (calls : ∀ name ts us s t, List.Forall₂ (Term.Renames ρ) ts us → s.Renames ρ t →
      Solutions.Renames ρ (invoke name ts s) (invoke' name us t))
    {g g' : Goal} (goals : g.Alike P g') (scopes : Scope.Alike ρ P scope scope')
    (renames : s.Renames ρ t) :
    Solutions.Renames ρ (g.start invoke scope s) (g'.start invoke' scope' t) := by
  -- The induction is on the goal. Scopes and substitutions vary, since every part of it may stand
  -- under new names and start from another substitution.
  induction goals generalizing scope scope' s t with
  | succeed => exact renames_single renames
  | fail => exact .empty
  | always => exact .suspended (.goal scopes (.disj .succeed .always) renames)
  | never => exact .suspended (.goal scopes .never renames)
  | @eq P u u' v v' left right =>
    rw [start, start]
    rcases none_or_some_of_rel (Expr.renames_eval scopes u u' left) with
      ⟨lost, lost'⟩ | ⟨a, a', first, first', terms⟩
    · rw [lost, lost']
      exact .empty
    · rcases none_or_some_of_rel (Expr.renames_eval scopes v v' right) with
        ⟨lost, lost'⟩ | ⟨b, b', second, second', terms'⟩
      · rw [first, first', lost, lost']
        exact .empty
      · rw [first, first', second, second']
        exact renames_startEq renames terms terms'
  | conj first second ihFirst _ =>
    refine Answers.alike_feed (ihFirst scopes renames) fun a b answers => ?_
    exact .inr (.goal scopes second answers)
  | disj left right ihLeft ihRight =>
    exact Answers.alike_merge (ihLeft scopes renames) (ihRight scopes renames)
  | @fresh P names names' g g' count body ih =>
    obtain ⟨vars, after⟩ := Subst.renames_freshAll renames count
    have terms : List.Forall₂ (Term.Renames ρ) ((s.freshAll names).1.map .var)
        ((t.freshAll names').1.map .var) := by
      rw [List.forall₂_map_left_iff, List.forall₂_map_right_iff]
      exact vars.imp fun _ _ => .var
    have inner := Scope.alike_defineAll scopes terms count
    rw [List.length_map, Subst.length_freshAll, List.take_length, count, List.take_length] at inner
    exact ih inner after
  | defer body _ => exact .suspended (.goal scopes body renames)
  | @call P name args args' items =>
    rw [start, start]
    rcases none_or_some_of_rel (Expr.renames_evalAll scopes args args' items) with
      ⟨lost, lost'⟩ | ⟨ts, us, found, found', terms⟩
    · rw [lost, lost']
      exact .empty
    · rw [found, found']
      exact calls name ts us s t terms renames
  | @ifZero P e e' g g' h h' choice zero other ihZero ihOther =>
    rw [start, start]
    rcases none_or_some_of_rel (Expr.renames_eval scopes e e' choice) with
      ⟨lost, lost'⟩ | ⟨a, a', found, found', terms⟩
    · rw [lost, lost']
      exact .empty
    · rw [found, found']
      dsimp only
      rw [isZero_of_renames terms]
      split
      · exact ihZero scopes renames
      · exact ihOther scopes renames
  | copies n =>
    have items : List.Forall₂ (Subst.Renames ρ) (List.replicate n s) (List.replicate n t) := by
      induction n with
      | zero => exact .nil
      | succ n ih => exact .cons renames ih
    exact Answers.alike_ofList items

end Goal

namespace Program

variable {p q : Program}

theorem renames_invoke (programs : p.Alike q) (depth : Nat) (name : String) (ts us : List Term)
    (s t : Subst) (args : List.Forall₂ (Term.Renames ρ) ts us) (renames : s.Renames ρ t) :
    Solutions.Renames ρ (p.invoke depth name ts s) (q.invoke depth name us t) := by
  induction depth generalizing name ts us s t with
  | zero => exact .suspended (.call name args renames)
  | succ depth ih =>
    rcases none_or_some_of_rel (programs.relations name) with
      ⟨unknown, unknown'⟩ | ⟨r, r', known, known', relations⟩
    · rw [invoke_unknown unknown, invoke_unknown unknown']
      exact .empty
    · rw [invoke_known known, invoke_known known']
      exact Goal.renames_start ih (relations.bodies ts.length)
        (Scope.alike_defineAll (Scope.alike_nil ρ .free) args relations.arity) renames

theorem renames_solve (programs : p.Alike q) {g g' : Goal} (goals : g.Alike P g')
    (scopes : Scope.Alike ρ P scope scope') (renames : s.Renames ρ t) :
    Solutions.Renames ρ (p.solve g scope s) (q.solve g' scope' t) := by
  rw [solve, solve, programs.depth]
  exact Goal.renames_start (renames_invoke programs q.callDepth) goals scopes renames

theorem renames_force (programs : p.Alike q) (c d : Pending) (codes : c.Renames ρ d) :
    Solutions.Renames ρ (p.force c) (q.force d) := by
  cases codes with
  | goal scopes goals renames => exact renames_solve programs goals scopes renames
  | call name args renames =>
    rw [force, force, programs.depth]
    exact renames_invoke programs _ name _ _ _ _ args renames
  | endless renames => exact Goal.renames_endless renames

/-- What a new variable stands for in each of the first solutions, when the search is not started
    with the empty substitution. -/
def queryFrom (p : Program) (s : Subst) (scope : Scope) (turns count : Nat) (name : String)
    (g : Goal) : List (Option Term) :=
  let (x, s) := s.fresh name
  let d := Search.ofAnswers (p.solve g (scope.define name (.var x)) s) .unbounded
  (d.take p.force turns count).1.map fun s => s.resolveVar x

theorem query_eq_queryFrom (p : Program) (turns count : Nat) (name : String) (g : Goal) :
    p.query turns count name g = p.queryFrom .empty [] turns count name g := rfl

theorem corresponds_solve (programs : p.Alike q) {g g' : Goal} (goals : g.Alike P g')
    (scopes : Scope.Alike ρ P scope scope') (renames : s.Renames ρ t) (config : SearchConfig) :
    Search.Corresponds (Subst.Renames ρ) p.force q.force
      (.ofAnswers (p.solve g scope s) config) (.ofAnswers (q.solve g' scope' t) config) := by
  have started := renames_solve programs goals scopes renames
  exact Search.corresponds_of_lockstep (renames_force programs)
    (Search.lockstep_ofAnswers started config)

theorem renames_queryFrom (programs : p.Alike q) (scopes : Scope.Alike ρ P scope scope')
    (renames : s.Renames ρ t) {name name' : String} {g g' : Goal}
    (goals : g.Alike (P.define name name') g') (turns count : Nat) :
    List.Forall₂ (Option.Rel (Term.Renames ρ)) (p.queryFrom s scope turns count name g)
      (q.queryFrom t scope' turns count name' g') := by
  obtain ⟨same, after⟩ := Subst.renames_fresh renames name name'
  have corresponds := corresponds_solve programs goals
    (Scope.alike_define scopes (.var same) name name') after .unbounded
  rw [queryFrom, queryFrom]
  dsimp only
  rw [List.forall₂_map_left_iff, List.forall₂_map_right_iff]
  exact (corresponds.taken turns count).imp fun _ _ related =>
    Subst.renames_resolveVar related same

end Program

/-- Later numbers, as if so many variables had been handed out before. -/
def Renaming.later (before : Nat) : Renaming 0 before where
  map i := before + i
  injective _ _ same := Nat.add_left_cancel same
  shifts i := by rw [Nat.zero_add]

def Subst.allocated (count : Nat) : Subst := ⟨∅, count⟩

theorem Subst.renames_allocated (ρ : Renaming n m) : (allocated n).Renames ρ (allocated m) where
  values _ _ _ := by
    rw [get?, get?, allocated, allocated]
    simp
  onto _ _ bound := by
    rw [get?, allocated] at bound
    simp at bound
  counters := ⟨0, rfl, rfl⟩

/-- Searches depend neither on names nor on numbers of variables: under a renaming they correspond
    pull by pull. So queries have the same results under other names, and also when variables were
    handed out before. -/
theorem searches_correspond_under_renaming {p q : Program} (programs : p.Alike q)
    (scopes : Scope.Alike ρ P scope scope') (renames : s.Renames ρ t) :
    (∀ g g', g.Alike P g' → ∀ config, Search.Corresponds (Subst.Renames ρ) p.force q.force
      (.ofAnswers (p.solve g scope s) config) (.ofAnswers (q.solve g' scope' t) config)) ∧
    (∀ name name' g g', g.Alike (P.define name name') g' → ∀ turns count,
      List.Forall₂ (Option.Rel (Term.Renames ρ)) (p.queryFrom s scope turns count name g)
        (q.queryFrom t scope' turns count name' g')) ∧
    (∀ name name' g g', g.Alike (Pairing.free.define name name') g' → ∀ turns count,
      List.Forall₂ (Option.Rel (Term.Renames (.later 0))) (p.query turns count name g)
        (q.query turns count name' g')) ∧
    ∀ before name g turns count,
      List.Forall₂ (Option.Rel (Term.Renames (.later before))) (p.query turns count name g)
        (p.queryFrom (.allocated before) [] turns count name g) := by
  refine ⟨fun g g' goals => Program.corresponds_solve programs goals scopes renames,
    fun name name' g g' => Program.renames_queryFrom programs scopes renames,
    fun name name' g g' goals turns count => ?_, fun before name g turns count => ?_⟩
  · rw [Program.query_eq_queryFrom, Program.query_eq_queryFrom]
    exact Program.renames_queryFrom programs (Scope.alike_nil _ .free)
      (Subst.renames_allocated (.later 0)) goals turns count
  · have same : g.Alike (Pairing.free.define name name) g :=
      Goal.alike_refl (Pairing.define_refl (fun _ => trivial) name) g
    rw [Program.query_eq_queryFrom]
    exact Program.renames_queryFrom p.alike_refl (Scope.alike_nil _ .free)
      (Subst.renames_allocated (.later before)) same turns count

def Program.renamedPeano : Program where
  relations := [("peano", ⟨["number"], .disj (.eq (.ref "number") (.peano 0))
    (.fresh ["n"] (.conj (.eq (.ref "number") (.seq [.atom (.str "s"), .ref "n"]))
      (.defer (.call "peano" [.ref "n"]))))⟩)]

theorem Program.peano_alike : peano.Alike renamedPeano := by
  refine ⟨rfl, fun name => ?_⟩
  rw [peano, renamedPeano, List.lookup_cons, List.lookup_cons]
  split
  · refine .some ⟨rfl, fun count => ?_⟩
    have param :
        Pairing.free.defineAll (["n"].take count) (["number"].take count) "n" "number" := by
      cases count with
      | zero => trivial
      | succ count =>
        rw [List.take_succ_cons, List.take_succ_cons, List.take_nil]
        exact .here
    refine .disj (.eq (.ref param) (.atom _)) (.fresh rfl (.conj (.eq (.ref ?_) ?_) ?_))
    · exact .there (by decide) (by decide) param
    · exact .seq (.cons (.atom _) (.cons (.ref .here) .nil))
    · exact .defer (.call "peano" (.cons (.ref .here) .nil))
  · exact .none

/-- The first two numbers change places and move on, with room for another one between them. -/
def Renaming.crossed : Renaming 2 3 where
  map
    | 0 => 2
    | 1 => 0
    | i + 2 => i + 3
  injective i j same := by
    rcases i with _ | _ | i <;> rcases j with _ | _ | j <;> simp_all
  shifts i := by
    rw [Nat.add_comm]
    exact Nat.add_comm _ _

theorem peano_under_other_names :
    let start : Subst := ⟨(∅ : Std.ExtTreeMap Nat Binding).insert 0 ⟨"a", .var ⟨1, "b"⟩⟩, 2⟩
    let start' : Subst := ⟨(∅ : Std.ExtTreeMap Nat Binding).insert 2 ⟨"x", .var ⟨0, "x"⟩⟩, 3⟩
    let scope : Scope := [("n", .var ⟨0, "c"⟩)]
    let scope' : Scope := [("number", .var ⟨2, "y"⟩)]
    let search := Search.ofAnswers (Program.peano.solve (.call "peano" [.ref "n"]) scope start)
      .unbounded
    let search' := Search.ofAnswers
      (Program.renamedPeano.solve (.call "peano" [.ref "number"]) scope' start') .unbounded
    Program.peano.Alike Program.renamedPeano ∧
      Scope.Alike .crossed (Pairing.free.define "n" "number") scope scope' ∧
      start.Renames .crossed start' ∧
      (∃ a b, search.Tries Program.peano.force [(.ok (some a), 0)] ∧
        search'.Tries Program.renamedPeano.force [(.ok (some b), 0)] ∧ a.Renames .crossed b) ∧
      ∀ turns count, List.Forall₂ (Option.Rel (Term.Renames (.later 0)))
        (Program.peano.query turns count "n" (.call "peano" [.ref "n"]))
        (Program.renamedPeano.query turns count "number" (.call "peano" [.ref "number"])) := by
  intro start start' scope scope' search search'
  have extended : (Subst.allocated 2).extend ⟨0, "a"⟩ (.var ⟨1, "b"⟩) = .ok start := rfl
  have extended' : (Subst.allocated 3).extend ⟨2, "x"⟩ (.var ⟨0, "x"⟩) = .ok start' := rfl
  have renames : start.Renames .crossed start' :=
    Subst.renames_extended (Subst.renames_allocated .crossed) rfl (.var rfl) extended extended'
  have scopes : Scope.Alike .crossed (Pairing.free.define "n" "number") scope scope' :=
    Scope.alike_define (Scope.alike_nil _ .free) (.var rfl) "n" "number"
  have call : (Goal.call "peano" [.ref "n"]).Alike (Pairing.free.define "n" "number")
      (.call "peano" [.ref "number"]) := .call "peano" (.cons (.ref .here) .nil)
  obtain ⟨runs, -, queries, -⟩ :=
    searches_correspond_under_renaming Program.peano_alike scopes renames
  have zero : search.Tries Program.peano.force [(.ok (some _), 0)] :=
    ⟨_, ⟨3, rfl⟩, rfl, trivial⟩
  obtain ⟨outs, related, tries⟩ := (runs _ _ call .unbounded).forth _ zero
  cases related with
  | @cons _ out _ _ both rest =>
    cases rest
    obtain ⟨result, steps⟩ := out
    obtain ⟨results, counted⟩ := both
    cases results with
    | answer renamed =>
      cases counted
      exact ⟨Program.peano_alike, scopes, renames, ⟨_, _, zero, tries, renamed⟩,
        queries "n" "number" _ _ call⟩

end RelationalSearch

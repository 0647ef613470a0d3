import RelationalSearch.Proofs.Completeness
import RelationalSearch.Proofs.Determined
import RelationalSearch.Proofs.EquationOrder
import RelationalSearch.Proofs.Equivalence

/-!
The relation that appends lists. Its first branch stops where the first list is empty, the other
one takes an element off the first list and the result and goes on with what is left, once a
search forces it. All that a call finds in the substitution is which values the query and the
arguments can have together: one step narrows them to those of the call inside, and a stop to those
of the answer. An equation that some of these values satisfy is solved, and one between a sequence
and an argument that has to be empty clashes, or the other way around.

So asking for the lists that make up a given one gives all of them, one for each call, and asking
for the result gives it in the last call.
-/
namespace RelationalSearch

open Subst Answers

namespace Ground

def cells (items : List Ground) (tail : Ground) : Ground :=
  items.foldr (fun head rest => .seq [head, rest]) tail

def list (items : List Ground) : Ground :=
  cells items (.atom .unit)

theorem list_cons (g : Ground) (items : List Ground) :
    list (g :: items) = .seq [g, list items] := rfl

theorem cells_concat (items : List Ground) (g tail : Ground) :
    cells (items ++ [g]) tail = cells items (.seq [g, tail]) := by
  rw [cells, List.foldr_append]
  rfl

theorem cells_list (items others : List Ground) :
    cells items (list others) = list (items ++ others) := by
  rw [list, list, cells, cells, cells, List.foldr_append]

theorem term_list (items : List Ground) :
    (list items).term = .cells (items.map term) .unit := by
  induction items with
  | nil => rfl
  | cons g items ih =>
    change Term.seq [g.term, (list items).term] = .seq [g.term, .cells (items.map term) .unit]
    rw [ih]

theorem eval_list (scope : Scope) (items : List Ground) :
    (Expr.list (items.map expr)).eval scope = some (list items).term := by
  induction items with
  | nil => rfl
  | cons g items ih =>
    change (Expr.seq [g.expr, .list (items.map expr)]).eval scope =
      some (.seq [g.term, (list items).term])
    simp only [Expr.eval, Expr.evalAll, eval_expr, ih, Option.map_some]

end Ground

theorem Subst.scoped_empty : Subst.empty.Scoped := by
  intro x t bound
  cases (get?_empty x).symm.trans bound

theorem Subst.solves_empty (θ : Valuation) : Solves θ Subst.empty := by
  intro x t bound
  cases (get?_empty x).symm.trans bound

section Equations

variable {p : Program} {invoke : Invoke} {scope : Scope} {s m : Subst} {u v : Expr} {a b : Term}

theorem start_eq_solved (left : u.eval scope = some a) (right : v.eval scope = some b)
    (solved : s.unify a b = .solved m) : (Goal.eq u v).start invoke scope s = .single m := by
  rw [Goal.start, left, right]
  simp only [Goal.startEq, solved]

theorem start_eq_clash (left : u.eval scope = some a) (right : v.eval scope = some b)
    (clash : s.unify a b = .clash) : (Goal.eq u v).start invoke scope s = .empty := by
  rw [Goal.start, left, right]
  simp only [Goal.startEq, clash]

theorem equivalent_after_eq (h : Goal) (left : u.eval scope = some a)
    (right : v.eval scope = some b) (solved : s.unify a b = .solved m) :
    Equivalent p.force p.force ((Goal.conj (.eq u v) h).start invoke scope s)
      (p.solve h scope m) := by
  rw [Goal.start, start_eq_solved left right solved]
  exact equivalent_trans (equivalent_feed p.force _ _)
    (equivalent_feeding_single p.force m fun s => .inr (.goal scope h s))

theorem start_after_clash (h : Goal) (left : u.eval scope = some a)
    (right : v.eval scope = some b) (clash : s.unify a b = .clash) :
    (Goal.conj (.eq u v) h).start invoke scope s = .empty := by
  rw [Goal.start, start_eq_clash left right clash]
  rfl

end Equations

namespace Appending

def base : Goal :=
  .conj (.eq (.ref "l") (.atom .unit)) (.eq (.ref "s") (.ref "out"))

def again : Goal :=
  .call "appendo" [.ref "d", .ref "s", .ref "res"]

def recursive : Goal :=
  .conjAll [.eq (.seq [.ref "a", .ref "d"]) (.ref "l"),
    .eq (.seq [.ref "a", .ref "res"]) (.ref "out"), .defer again]

/-- The third list is the first one, followed by the second. -/
def relation : Relation where
  params := ["l", "s", "out"]
  body := .disj base (.fresh ["a", "d", "res"] recursive)

def program : Program where
  relations := [("appendo", relation)]

/-- All pairs of lists that make up the list. -/
def splitting (items : List Ground) : Goal :=
  .fresh ["l", "s"] (.conj (.eq (.ref "q") (.seq [.ref "l", .ref "s"]))
    (.call "appendo" [.ref "l", .ref "s", .list (items.map Ground.expr)]))

/-- The list that the two make up. -/
def joining (first second : List Ground) : Goal :=
  .call "appendo" [.list (first.map Ground.expr), .list (second.map Ground.expr), .ref "q"]

/-- What a query and the three lists of a call can stand for together. -/
abbrev Table := Ground → Ground → Ground → Ground → Prop

/-- The table of the call that is left when an element has been taken off. -/
def Table.inner (T : Table) : Table :=
  fun q rest s res => ∃ a, T q (.seq [a, rest]) s (.seq [a, res])

/-- The solutions of the substitution give the query and the arguments of a call the values in the
    table and no other ones. -/
structure Stage (σ : Subst) (x : Var) (l s o : Term) (T : Table) : Prop where
  noLoops : σ.NoLoops
  inScope : σ.Scoped
  query : x.id < σ.nextId
  first : l.Below σ.nextId
  second : s.Below σ.nextId
  third : o.Below σ.nextId
  sound : ∀ θ, Solves θ σ → T (θ x.id) (l.value θ) (s.value θ) (o.value θ)
  full : ∀ q d e r, T q d e r →
    ∃ θ, Solves θ σ ∧ θ x.id = q ∧ l.value θ = d ∧ s.value θ = e ∧ o.value θ = r

namespace Stage

variable {σ : Subst} {x : Var} {l s o : Term} {T : Table} {q d e r g : Ground}

theorem acyclic (stage : Stage σ x l s o T) (possible : T q d e r) : ¬ σ.Circular := by
  obtain ⟨θ, solves, -⟩ := stage.full q d e r possible
  exact not_circular_of_solves stage.noLoops solves

theorem stop (stage : Stage σ x l s o T) (possible : T g (.atom .unit) e e)
    (only : ∀ q e, T q (.atom .unit) e e → q = g) :
    ∃ m σ', σ.unify l (.atom .unit) = .solved m ∧ m.unify s o = .solved σ' ∧
      σ'.resolveVar x = some g.term := by
  obtain ⟨θ, solves, -, empty, left, right⟩ := stage.full _ _ _ _ possible
  obtain ⟨m, solved, solves⟩ := unify_solved (v := .atom .unit) stage.noLoops solves empty
  have noLoops := noLoops_of_unify stage.noLoops solved
  obtain ⟨σ', solved', solves⟩ := unify_solved noLoops solves (left.trans right.symm)
  have acyclic := not_circular_of_solves (noLoops_of_unify noLoops solved') solves
  refine ⟨m, σ', solved, solved', resolve_of_determines acyclic fun θ solves => ?_⟩
  obtain ⟨solves, same⟩ := (solves_of_unify solved' θ).mp solves
  obtain ⟨solves, empty⟩ := (solves_of_unify solved θ).mp solves
  have row := stage.sound θ solves
  rw [empty, same] at row
  exact only _ _ row

abbrev head (σ : Subst) : Term := .var ⟨σ.nextId, "a"⟩

abbrev rest (σ : Subst) : Term := .var ⟨σ.nextId + 1, "d"⟩

abbrev result (σ : Subst) : Term := .var ⟨σ.nextId + 2, "res"⟩

def opened (σ : Subst) : Subst :=
  (σ.freshAll ["a", "d", "res"]).2

theorem solves_opened {θ : Valuation} : Solves θ (opened σ) ↔ Solves θ σ :=
  solves_freshAll_iff ["a", "d", "res"]

theorem noLoops_opened (noLoops : σ.NoLoops) : (opened σ).NoLoops :=
  noLoops_freshAll noLoops ["a", "d", "res"]

theorem value_pair (θ : Valuation) (a b : Term) :
    (Term.seq [a, b]).value θ = .seq [a.value θ, b.value θ] := rfl

theorem below_pair {bound : Nat} {a b : Term} (left : a.Below bound) (right : b.Below bound) :
    (Term.seq [a, b]).Below bound := by
  apply Term.below_seq
  rintro t (_ | ⟨_, _ | ⟨_, ⟨⟩⟩⟩)
  · exact left
  · exact right

theorem value_below {θ θ' : Valuation} {t : Term} (below : t.Below σ.nextId)
    (same : ∀ id < σ.nextId, θ' id = θ id) : t.value θ' = t.value θ :=
  Term.value_congr fun id mentions => same id (below id mentions)

theorem assign (stage : Stage σ x l s o T) (possible : T q d e r) (a b c : Ground) :
    ∃ θ, Solves θ σ ∧ θ x.id = q ∧ l.value θ = d ∧ s.value θ = e ∧ o.value θ = r ∧
      (head σ).value θ = a ∧ (rest σ).value θ = b ∧ (result σ).value θ = c := by
  obtain ⟨θ, solves, query, first, second, third⟩ := stage.full q d e r possible
  have same := Valuation.assign_below θ σ.nextId [a, b, c]
  have count : [a, b, c].length = ["a", "d", "res"].length := rfl
  have values := Valuation.assign_freshAll θ σ count
  obtain ⟨ofHead, more⟩ := List.cons.inj values
  obtain ⟨ofRest, more⟩ := List.cons.inj more
  refine ⟨θ.assign σ.nextId [a, b, c], ?_, ?_, ?_, ?_, ?_, ofHead, ofRest, (List.cons.inj more).1⟩
  · exact solves_congr stage.inScope (fun id small => (same id small).symm) solves
  · rw [same x.id stage.query, query]
  · rw [value_below stage.first same, first]
  · rw [value_below stage.second same, second]
  · rw [value_below stage.third same, third]

theorem open_cell (stage : Stage σ x l s o T) (possible : T q (.seq [g, d]) e r) :
    ∃ m, (opened σ).unify (.seq [head σ, rest σ]) l = .solved m ∧ m.NoLoops ∧ ¬ m.Circular ∧
      ∀ θ, Solves θ m ↔ Solves θ σ ∧ (Term.seq [head σ, rest σ]).value θ = l.value θ := by
  obtain ⟨θ, solves, -, first, -, -, ofHead, ofRest, -⟩ := stage.assign possible g d d
  have equal : (Term.seq [head σ, rest σ]).value θ = l.value θ := by
    rw [value_pair, ofHead, ofRest, first]
  obtain ⟨m, solved, solvesAfter⟩ :=
    unify_solved (noLoops_opened stage.noLoops) (solves_opened.mpr solves) equal
  have noLoops := noLoops_of_unify (noLoops_opened stage.noLoops) solved
  refine ⟨m, solved, noLoops, not_circular_of_solves noLoops solvesAfter, fun θ => ?_⟩
  rw [solves_of_unify solved, solves_opened]

theorem scoped_of_step {m σ' : Subst} (stage : Stage σ x l s o T)
    (solved : (opened σ).unify (.seq [head σ, rest σ]) l = .solved m)
    (solved' : m.unify (.seq [head σ, result σ]) o = .solved σ') :
    σ'.Scoped ∧ σ'.nextId = σ.nextId + 3 := by
  have counter : (opened σ).nextId = σ.nextId + 3 := rfl
  have more : σ.nextId ≤ (opened σ).nextId := by omega
  have new {x : Var} (small : x.id < σ.nextId + 3) : (Term.var x).Below (opened σ).nextId :=
    Term.below_var small
  have before : (opened σ).Scoped := scoped_freshAll stage.inScope ["a", "d", "res"]
  obtain ⟨between, same⟩ :=
    scoped_of_unify before (below_pair (new (by dsimp only; omega)) (new (by dsimp only; omega)))
      (Term.below_mono more stage.first) solved
  rw [← counter, ← same]
  rw [← same] at more new
  exact scoped_of_unify between
    (below_pair (new (by dsimp only; omega)) (new (by dsimp only; omega)))
    (Term.below_mono more stage.third) solved'

theorem step (stage : Stage σ x l s o T) (possible : T.inner q d e r) :
    ∃ m σ', (opened σ).unify (.seq [head σ, rest σ]) l = .solved m ∧
      m.unify (.seq [head σ, result σ]) o = .solved σ' ∧
      Stage σ' x (rest σ) s (result σ) T.inner := by
  obtain ⟨g, possible⟩ := possible
  obtain ⟨m, solved, noLoops, -, solvesFirst⟩ := stage.open_cell possible
  -- A row of the inner table belongs to a row with some element in front, and the new variables
  -- can take the parts of that row.
  have both (a : Ground) {q d e r : Ground} (possible : T q (.seq [a, d]) e (.seq [a, r])) :
      ∃ θ, Solves θ m ∧ (Term.seq [head σ, result σ]).value θ = o.value θ ∧
        θ x.id = q ∧ (rest σ).value θ = d ∧ s.value θ = e ∧ (result σ).value θ = r := by
    obtain ⟨θ, solves, query, first, second, third, ofHead, ofRest, ofResult⟩ :=
      stage.assign possible a d r
    refine ⟨θ, (solvesFirst θ).mpr ⟨solves, ?_⟩, ?_, query, ofRest, second, ofResult⟩
    · rw [value_pair, ofHead, ofRest, first]
    · rw [value_pair, ofHead, ofResult, third]
  obtain ⟨θ, solves, equal, -⟩ := both g possible
  obtain ⟨σ', solved', -⟩ := unify_solved noLoops solves equal
  obtain ⟨inScope, counter⟩ := stage.scoped_of_step solved solved'
  have more : σ.nextId ≤ σ'.nextId := by omega
  refine ⟨m, σ', solved, solved', ?_⟩
  exact {
    noLoops := noLoops_of_unify noLoops solved'
    inScope := inScope
    query := Nat.lt_of_lt_of_le stage.query more
    first := Term.below_var (by dsimp only; omega)
    second := Term.below_mono more stage.second
    third := Term.below_var (by dsimp only; omega)
    sound := by
      intro θ solves
      obtain ⟨solves, ofResult⟩ := (solves_of_unify solved' θ).mp solves
      obtain ⟨solves, ofFirst⟩ := (solvesFirst θ).mp solves
      have row := stage.sound θ solves
      rw [← ofFirst, ← ofResult] at row
      exact ⟨(head σ).value θ, row⟩
    full := by
      rintro q d e r ⟨a, possible⟩
      obtain ⟨θ, solves, equal, values⟩ := both a possible
      exact ⟨θ, (solves_of_unify solved' θ).mpr ⟨solves, equal⟩, values⟩ }

theorem not_stop {gs : List Ground} (stage : Stage σ x l s o T) (possible : T q d e r)
    (cell : ∀ q d e r, T q d e r → d = .seq gs) : σ.unify l (.atom .unit) = .clash :=
  unify_determined_atom (stage.acyclic possible) fun θ solves =>
    cell _ _ _ _ (stage.sound θ solves)

theorem not_open {c : Atom} (stage : Stage σ x l s o T) (possible : T q d e r)
    (empty : ∀ q d e r, T q d e r → d = .atom c) :
    (opened σ).unify (.seq [head σ, rest σ]) l = .clash := by
  obtain ⟨θ, solves, -⟩ := stage.full q d e r possible
  have acyclic := not_circular_of_solves (noLoops_opened stage.noLoops) (solves_opened.mpr solves)
  exact unify_seq_atom acyclic fun θ solves =>
    empty _ _ _ _ (stage.sound θ (solves_opened.mp solves))

theorem not_put {c : Atom} (stage : Stage σ x l s o T) (possible : T q (.seq [g, d]) e r)
    (empty : ∀ q d e r, T q d e r → r = .atom c) :
    ∃ m, (opened σ).unify (.seq [head σ, rest σ]) l = .solved m ∧
      m.unify (.seq [head σ, result σ]) o = .clash := by
  obtain ⟨m, solved, -, acyclic, solvesFirst⟩ := stage.open_cell possible
  refine ⟨m, solved, unify_seq_atom (c := c) acyclic fun θ solves => ?_⟩
  exact empty _ _ _ _ (stage.sound θ ((solvesFirst θ).mp solves).1)

end Stage

section Calls

variable {σ : Subst} {x : Var} {l s o : Term} {T : Table} {q d e r g : Ground} {steps : Nat}
  {outs : List (Attempt Subst)} {invoke : Invoke}

def arguments (l s o : Term) : Scope :=
  [("out", o), ("s", s), ("l", l)]

def parts (σ : Subst) (l s o : Term) : Scope :=
  ("res", Stage.result σ) :: ("d", Stage.rest σ) :: ("a", Stage.head σ) :: arguments l s o

def calling (l s o : Term) (σ : Subst) : Solutions :=
  program.invoke program.callDepth "appendo" [l, s, o] σ

theorem calling_eq (l s o : Term) (σ : Subst) :
    calling l s o σ =
      (base.start (program.invoke (program.callDepth - 1)) (arguments l s o) σ).merge
        (recursive.start (program.invoke (program.callDepth - 1)) (parts σ l s o)
          (Stage.opened σ)) := by
  have known : program.relations.lookup "appendo" = some relation := rfl
  have room : 0 < program.callDepth := by decide
  calc calling l s o σ
      = program.invoke (program.callDepth - 1 + 1) "appendo" [l, s, o] σ := by
        rw [Nat.sub_add_cancel room, calling]
    _ = relation.body.start (program.invoke (program.callDepth - 1))
          (Scope.defineAll [] relation.params [l, s, o]) σ := Program.invoke_known known _ _ σ

theorem solve_call {scope : Scope} {args : List Expr}
    (evaluated : Expr.evalAll scope args = some [l, s, o]) (σ : Subst) :
    program.solve (.call "appendo" args) scope σ = calling l s o σ := by
  rw [Program.solve, Goal.start, evaluated]
  rfl

theorem equivalent_calling {A B : Solutions}
    (nothing : ∀ invoke, Equivalent program.force program.force
      (base.start invoke (arguments l s o) σ) A)
    (cell : ∀ invoke, Equivalent program.force program.force
      (recursive.start invoke (parts σ l s o) (Stage.opened σ)) B) :
    Equivalent program.force program.force (calling l s o σ) (.merging A B) := by
  rw [calling_eq]
  exact equivalent_trans (equivalent_merge_congr (nothing _) (cell _))
    (equivalent_merge program.force A B)

theorem equivalent_stop (stage : Stage σ x l s o T) (possible : T g (.atom .unit) e e)
    (only : ∀ q e, T q (.atom .unit) e e → q = g) :
    ∃ answer : Subst, answer.resolveVar x = some g.term ∧ ∀ invoke,
      Equivalent program.force program.force (base.start invoke (arguments l s o) σ)
        (.single answer) := by
  obtain ⟨m, answer, solved, solved', resolved⟩ := stage.stop possible only
  refine ⟨answer, resolved, fun invoke => ?_⟩
  have last : program.solve (.eq (.ref "s") (.ref "out")) (arguments l s o) m = .single answer :=
    start_eq_solved rfl rfl solved'
  rw [← last]
  exact equivalent_after_eq _ rfl rfl solved

theorem equivalent_step (stage : Stage σ x l s o T) (possible : T.inner q d e r) :
    ∃ (σ' : Subst) (code : Pending), Stage σ' x (Stage.rest σ) s (Stage.result σ) T.inner ∧
      program.force code = calling (Stage.rest σ) s (Stage.result σ) σ' ∧ ∀ invoke,
      Equivalent program.force program.force
        (recursive.start invoke (parts σ l s o) (Stage.opened σ)) (.suspended code) := by
  obtain ⟨m, σ', solved, solved', next⟩ := stage.step possible
  refine ⟨σ', .goal (parts σ l s o) again σ', next, solve_call rfl σ', fun invoke => ?_⟩
  exact equivalent_trans (equivalent_after_eq _ rfl rfl solved)
    (equivalent_after_eq (.defer again) rfl rfl solved')

theorem equivalent_not_stop {gs : List Ground} (stage : Stage σ x l s o T)
    (possible : T q d e r) (cell : ∀ q d e r, T q d e r → d = .seq gs) (invoke : Invoke) :
    Equivalent program.force program.force (base.start invoke (arguments l s o) σ)
      .empty := by
  rw [base, start_after_clash _ rfl rfl (stage.not_stop possible cell)]
  exact equivalent_refl program.force .empty

theorem equivalent_not_open {c : Atom} (stage : Stage σ x l s o T) (possible : T q d e r)
    (empty : ∀ q d e r, T q d e r → d = .atom c) (invoke : Invoke) :
    Equivalent program.force program.force
      (recursive.start invoke (parts σ l s o) (Stage.opened σ)) .empty := by
  rw [recursive, Goal.conjAll_cons_cons,
    start_after_clash _ rfl rfl (stage.not_open possible empty)]
  exact equivalent_refl program.force .empty

theorem equivalent_not_put {c : Atom} (stage : Stage σ x l s o T)
    (possible : T q (.seq [g, d]) e r) (empty : ∀ q d e r, T q d e r → r = .atom c)
    (invoke : Invoke) :
    Equivalent program.force program.force
      (recursive.start invoke (parts σ l s o) (Stage.opened σ)) .empty := by
  obtain ⟨m, solved, clash⟩ := stage.not_put possible empty
  have nothing : program.solve (.conj (.eq (.seq [.ref "a", .ref "res"]) (.ref "out"))
      (.defer again)) (parts σ l s o) m = .empty :=
    start_after_clash _ rfl rfl clash
  rw [← nothing]
  exact equivalent_after_eq _ rfl rfl solved

theorem sees_stop {answer : Subst}
    (nothing : ∀ invoke, Equivalent program.force program.force
      (base.start invoke (arguments l s o) σ) (.single answer))
    (cell : ∀ invoke, Equivalent program.force program.force
      (recursive.start invoke (parts σ l s o) (Stage.opened σ)) .empty) :
    Sees program.force .unbounded (calling l s o σ) steps
      [(.ok (some answer), steps), (.ok none, steps)] := by
  refine sees_of_equivalent (equivalent_calling nothing cell) ?_
  refine .found (.mplus_ready (.ready answer .empty)) ?_
  exact .ended (.mplus_empty .empty .empty) (List.forall_mem_singleton.mpr rfl)

theorem sees_step {code : Pending} {rest res : Term} {σ' : Subst}
    (inner : program.force code = calling rest s res σ')
    (nothing : ∀ invoke, Equivalent program.force program.force
      (base.start invoke (arguments l s o) σ) .empty)
    (cell : ∀ invoke, Equivalent program.force program.force
      (recursive.start invoke (parts σ l s o) (Stage.opened σ)) (.suspended code))
    (later : Sees program.force .unbounded (calling rest s res σ') (steps + 1) outs) :
    Sees program.force .unbounded (calling l s o σ) steps outs := by
  refine sees_of_equivalent (equivalent_calling nothing cell) ?_
  refine .forced (.mplus_empty .empty (.suspended code)) (SearchConfig.unbounded_allows steps) ?_
  rw [inner]
  exact later

/-- A call that does both gives its answer first. -/
theorem sees_both {answer : Subst} {code : Pending} {rest res : Term} {σ' : Subst}
    (inner : program.force code = calling rest s res σ')
    (nothing : ∀ invoke, Equivalent program.force program.force
      (base.start invoke (arguments l s o) σ) (.single answer))
    (cell : ∀ invoke, Equivalent program.force program.force
      (recursive.start invoke (parts σ l s o) (Stage.opened σ)) (.suspended code))
    (later : Sees program.force .unbounded (calling rest s res σ') (steps + 1) outs) :
    Sees program.force .unbounded (calling l s o σ) steps
      ((.ok (some answer), steps) :: outs) := by
  refine sees_of_equivalent (equivalent_calling nothing cell) ?_
  refine .found (.mplus_ready (.ready answer .empty)) ?_
  refine sees_of_equivalent (equivalent_merging_empty program.force (.suspended code)) ?_
  refine .forced (.suspended code) (SearchConfig.unbounded_allows steps) ?_
  rw [inner]
  exact later

/-- The first list begins with these elements, and it and the second one make up the whole. -/
def Splits (before items : List Ground) : Table :=
  fun q d e r => q = .seq [Ground.cells before d, e] ∧ r = Ground.list items

def Joins (before items second : List Ground) : Table :=
  fun q d e r => q = Ground.cells before r ∧ d = Ground.list items ∧ e = Ground.list second

theorem splits_inner (before items : List Ground) (g : Ground) :
    (Splits before (g :: items)).inner = Splits (before ++ [g]) items := by
  funext q d e r
  apply propext
  constructor
  · rintro ⟨a, rfl, same⟩
    rw [Ground.list_cons] at same
    cases same
    exact ⟨by rw [Ground.cells_concat], rfl⟩
  · rintro ⟨rfl, rfl⟩
    exact ⟨g, by rw [Ground.cells_concat], rfl⟩

theorem joins_inner (before items second : List Ground) (g : Ground) :
    (Joins before (g :: items) second).inner = Joins (before ++ [g]) items second := by
  funext q d e r
  apply propext
  constructor
  · rintro ⟨a, rfl, same, rfl⟩
    rw [Ground.list_cons] at same
    cases same
    exact ⟨by rw [Ground.cells_concat], rfl, rfl⟩
  · rintro ⟨rfl, rfl, rfl⟩
    exact ⟨g, by rw [Ground.cells_concat], rfl, rfl⟩

/-- The answers, each after the number of suspensions that is its place, and then the end. -/
def counted (answers : List Subst) (steps last : Nat) : List (Attempt Subst) :=
  (answers.zipIdx steps).map (fun answer => (.ok (some answer.1), answer.2)) ++ [(.ok none, last)]

theorem sees_splits {before items : List Ground} (stage : Stage σ x l s o (Splits before items))
    (steps : Nat) :
    ∃ answers : List Subst,
      answers.map (Subst.resolveVar · x) = (List.range (items.length + 1)).map (fun i =>
        some (Ground.seq [.list (before ++ items.take i), .list (items.drop i)]).term) ∧
      Sees program.force .unbounded (calling l s o σ) steps
        (counted answers steps (steps + items.length)) := by
  induction items generalizing before l o σ steps with
  | nil =>
    have whole : Splits before [] (.seq [.list before, .list []]) (.atom .unit) (.atom .unit)
        (.atom .unit) := ⟨rfl, rfl⟩
    obtain ⟨answer, resolved, nothing⟩ := equivalent_stop stage whole fun q e row => by
      obtain ⟨rfl, rfl⟩ := row
      rfl
    -- An element could still be taken off, for the first list is free, but the result has none.
    have cell := equivalent_not_put (c := .unit) (g := .atom .unit) (d := .atom .unit)
      (e := .atom .unit) stage ⟨rfl, rfl⟩ fun q d e r row => row.2
    refine ⟨[answer], ?_, sees_stop nothing cell⟩
    simp [resolved]
  | cons g items ih =>
    have whole : Splits before (g :: items) (.seq [.list before, .list (g :: items)])
        (.atom .unit) (.list (g :: items)) (.list (g :: items)) := ⟨rfl, rfl⟩
    obtain ⟨answer, resolved, nothing⟩ := equivalent_stop stage whole fun q e row => by
      obtain ⟨rfl, rfl⟩ := row
      rfl
    have less : Splits (before ++ [g]) items (.seq [.list (before ++ [g]), .list []])
        (.atom .unit) (.list []) (.list items) := ⟨rfl, rfl⟩
    rw [← splits_inner] at less
    obtain ⟨σ', code, next, inner, cell⟩ := equivalent_step stage less
    rw [splits_inner] at next
    obtain ⟨answers, resolvedAll, sees⟩ := ih next (steps + 1)
    refine ⟨answer :: answers, ?_, ?_⟩
    · rw [List.length_cons, List.range_succ_eq_map, List.map_cons, List.map_cons, resolved,
        resolvedAll, List.map_map, List.take_zero, List.append_nil, List.drop_zero]
      simp only [List.append_assoc, List.singleton_append, Function.comp_def, Nat.succ_eq_add_one,
        List.take_succ_cons, List.drop_succ_cons]
    · rw [counted, List.zipIdx_cons, List.length_cons, ← Nat.add_assoc, Nat.add_right_comm]
      exact sees_both inner nothing cell sees

theorem sees_joins {before items second : List Ground}
    (stage : Stage σ x l s o (Joins before items second)) (steps : Nat) :
    ∃ answer : Subst, answer.resolveVar x = some (Ground.list (before ++ items ++ second)).term ∧
      Sees program.force .unbounded (calling l s o σ) steps
        [(.ok (some answer), steps + items.length), (.ok none, steps + items.length)] := by
  induction items generalizing before l o σ steps with
  | nil =>
    -- Only here can the first list be empty, so this is the one call that stops.
    have whole : Joins before [] second (.list (before ++ second)) (.atom .unit) (.list second)
        (.list second) := ⟨(Ground.cells_list before second).symm, rfl, rfl⟩
    obtain ⟨answer, resolved, nothing⟩ := equivalent_stop stage whole fun q e row => by
      obtain ⟨rfl, -, rfl⟩ := row
      exact Ground.cells_list before second
    have cell := equivalent_not_open (c := .unit) stage whole fun q d e r row => row.2.1
    rw [List.append_nil]
    exact ⟨answer, resolved, sees_stop nothing cell⟩
  | cons g items ih =>
    have some : Joins before (g :: items) second (Ground.cells before (.atom .unit))
        (.list (g :: items)) (.list second) (.atom .unit) := ⟨rfl, rfl, rfl⟩
    have nothing := equivalent_not_stop stage some fun q d e r row => row.2.1
    have less : Joins (before ++ [g]) items second (Ground.cells (before ++ [g]) (.atom .unit))
        (.list items) (.list second) (.atom .unit) := ⟨rfl, rfl, rfl⟩
    rw [← joins_inner] at less
    obtain ⟨σ', code, next, inner, cell⟩ := equivalent_step stage less
    rw [joins_inner] at next
    obtain ⟨answer, resolved, sees⟩ := ih next (steps + 1)
    rw [List.append_assoc before [g], List.singleton_append] at resolved
    refine ⟨answer, resolved, ?_⟩
    rw [List.length_cons, ← Nat.add_assoc, Nat.add_right_comm]
    exact sees_step inner nothing cell sees

def queried : Subst :=
  (Subst.empty.freshAll ["q"]).2

theorem stage_joining (first second : List Ground) :
    Stage queried ⟨0, "q"⟩ (Ground.list first).term (Ground.list second).term (.var ⟨0, "q"⟩)
      (Joins [] first second) where
  noLoops := noLoops_freshAll noLoops_empty ["q"]
  inScope := scoped_freshAll scoped_empty ["q"]
  query := Nat.one_pos
  first := Ground.below_term _ _
  second := Ground.below_term _ _
  third := Term.below_var Nat.one_pos
  sound := fun θ _ => ⟨rfl, Ground.value_term θ _, Ground.value_term θ _⟩
  full := by
    rintro q d e r ⟨same, rfl, rfl⟩
    refine ⟨fun _ => r, ?_, same.symm, Ground.value_term _ _, Ground.value_term _ _, rfl⟩
    exact (solves_freshAll_iff ["q"]).mpr (solves_empty _)

def asked : Subst :=
  (queried.freshAll ["l", "s"]).2

theorem solves_asked (θ : Valuation) : Solves θ asked :=
  (solves_freshAll_iff ["l", "s"]).mpr ((solves_freshAll_iff ["q"]).mpr (solves_empty θ))

def pairing (first second : Ground) : Valuation
  | 0 => .seq [first, second]
  | 1 => first
  | _ => second

theorem stage_splitting (items : List Ground) :
    ∃ σ, asked.unify (.var ⟨0, "q"⟩) (.seq [.var ⟨1, "l"⟩, .var ⟨2, "s"⟩]) = .solved σ ∧
      Stage σ ⟨0, "q"⟩ (.var ⟨1, "l"⟩) (.var ⟨2, "s"⟩) (Ground.list items).term
        (Splits [] items) := by
  have noLoops : asked.NoLoops :=
    noLoops_freshAll (noLoops_freshAll noLoops_empty ["q"]) ["l", "s"]
  have inScope : asked.Scoped :=
    scoped_freshAll (scoped_freshAll scoped_empty ["q"]) ["l", "s"]
  have equal (d e : Ground) : (Term.var ⟨0, "q"⟩).value (pairing d e) =
    (Term.seq [.var ⟨1, "l"⟩, .var ⟨2, "s"⟩]).value (pairing d e) := rfl
  obtain ⟨σ, solved, -⟩ :=
    unify_solved noLoops (solves_asked _) (equal (.atom .unit) (.atom .unit))
  obtain ⟨after, counter⟩ := scoped_of_unify inScope (Term.below_var (by decide))
    (Stage.below_pair (Term.below_var (by decide)) (Term.below_var (by decide))) solved
  have counter : σ.nextId = 3 := counter
  refine ⟨σ, solved, ?_⟩
  exact {
    noLoops := noLoops_of_unify noLoops solved
    inScope := after
    query := by rw [counter]; decide
    first := Term.below_var (by rw [counter]; decide)
    second := Term.below_var (by rw [counter]; decide)
    third := Ground.below_term _ _
    sound := fun θ solves =>
      ⟨((solves_of_unify solved θ).mp solves).2, Ground.value_term θ _⟩
    full := by
      rintro q d e r ⟨rfl, rfl⟩
      exact ⟨pairing d e, (solves_of_unify solved _).mpr ⟨solves_asked _, equal d e⟩, rfl, rfl, rfl,
        Ground.value_term _ _⟩ }

theorem evalAll_splitting (items : List Ground) :
    Expr.evalAll [("s", .var ⟨2, "s"⟩), ("l", .var ⟨1, "l"⟩), ("q", .var ⟨0, "q"⟩)]
      [.ref "l", .ref "s", .list (items.map Ground.expr)] =
        some [.var ⟨1, "l"⟩, .var ⟨2, "s"⟩, (Ground.list items).term] := by
  simp only [Expr.evalAll, Ground.eval_list]
  rfl

theorem evalAll_joining (first second : List Ground) :
    Expr.evalAll [("q", .var ⟨0, "q"⟩)]
      [.list (first.map Ground.expr), .list (second.map Ground.expr), .ref "q"] =
        some [(Ground.list first).term, (Ground.list second).term, .var ⟨0, "q"⟩] := by
  simp only [Expr.evalAll, Ground.eval_list]
  rfl

/-- Asked for two lists that make up a given one, the search gives all of them, from the front to
    the back, each after one more suspension, and ends with the last; asked for the list that two
    lists make up, it gives that one, after as many suspensions as the first has elements. -/
theorem append_splits_and_joins (items first second : List Ground) :
    (∃ answers : List Subst,
      answers.map (Subst.resolveVar · (program.querySearch "q" (splitting items)).1) =
        (List.range (items.length + 1)).map (fun i =>
          some (.seq [.cells ((items.take i).map Ground.term) .unit,
            .cells ((items.drop i).map Ground.term) .unit])) ∧
      (program.querySearch "q" (splitting items)).2.Tries program.force
        (counted answers 0 items.length)) ∧
    ∃ answer : Subst,
      answer.resolveVar (program.querySearch "q" (joining first second)).1 =
        some (.cells ((first ++ second).map Ground.term) .unit) ∧
      (program.querySearch "q" (joining first second)).2.Tries program.force
        [(.ok (some answer), first.length), (.ok none, first.length)] := by
  constructor
  · obtain ⟨σ, solved, stage⟩ := stage_splitting items
    obtain ⟨answers, resolved, sees⟩ := sees_splits stage 0
    have asking : Equivalent program.force program.force
        (program.solve (splitting items) [("q", .var ⟨0, "q"⟩)] queried)
        (calling (.var ⟨1, "l"⟩) (.var ⟨2, "s"⟩) (Ground.list items).term σ) := by
      rw [← solve_call (evalAll_splitting items) σ]
      exact equivalent_after_eq _ rfl rfl solved
    simp only [← Ground.term_list]
    refine ⟨answers, resolved, ?_⟩
    rw [Nat.zero_add] at sees
    exact (asking .unbounded _).mpr ((Search.tries_iff_sees program.force _ .unbounded _).mpr sees)
  · obtain ⟨answer, resolved, sees⟩ := sees_joins (stage_joining first second) 0
    have asking : program.solve (joining first second) [("q", .var ⟨0, "q"⟩)] queried =
        calling (Ground.list first).term (Ground.list second).term (.var ⟨0, "q"⟩) queried :=
      solve_call (evalAll_joining first second) queried
    rw [← Ground.term_list]
    refine ⟨answer, resolved, ?_⟩
    rw [Nat.zero_add, ← asking] at sees
    exact (Search.tries_iff_sees program.force _ .unbounded _).mpr sees

end Calls

end Appending

end RelationalSearch

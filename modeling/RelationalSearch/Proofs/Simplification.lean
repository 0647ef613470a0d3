import RelationalSearch.Proofs.Equivalence
import RelationalSearch.Proofs.Guarded

/-!
Goals without their trivial parts. A success beside another goal of a conjunction and a failure
beside another goal of a disjunction can be left out, and so can all that follows a failure: the
streams are equivalent, in whatever surroundings the part stands and also if it stands in the
relations of the program. There it is left out anew each time that a call is started, so the two
programs are compared along everything that a search can force.
-/
namespace RelationalSearch

open Answers

namespace Goal

/-- The second goal is the first one without some trivial parts, at any places. -/
inductive Simplifies : Goal → Goal → Prop where
  | succeed : Simplifies .succeed .succeed
  | fail : Simplifies .fail .fail
  | always : Simplifies .always .always
  | never : Simplifies .never .never
  | eq (u v : Expr) : Simplifies (.eq u v) (.eq u v)
  | call (name : String) (args : List Expr) : Simplifies (.call name args) (.call name args)
  | copies (n : Nat) : Simplifies (.copies n) (.copies n)
  | conj {g g' h h' : Goal} (first : Simplifies g g') (second : Simplifies h h') :
      Simplifies (.conj g h) (.conj g' h')
  | disj {g g' h h' : Goal} (left : Simplifies g g') (right : Simplifies h h') :
      Simplifies (.disj g h) (.disj g' h')
  | fresh (names : List String) {g g' : Goal} (body : Simplifies g g') :
      Simplifies (.fresh names g) (.fresh names g')
  | defer {g g' : Goal} (body : Simplifies g g') : Simplifies (.defer g) (.defer g')
  | ifZero (e : Expr) {g g' h h' : Goal} (zero : Simplifies g g') (other : Simplifies h h') :
      Simplifies (.ifZero e g h) (.ifZero e g' h')
  | succeed_conj {g g' : Goal} (rest : Simplifies g g') : Simplifies (.conj .succeed g) g'
  | conj_succeed {g g' : Goal} (rest : Simplifies g g') : Simplifies (.conj g .succeed) g'
  | fail_disj {g g' : Goal} (rest : Simplifies g g') : Simplifies (.disj .fail g) g'
  | disj_fail {g g' : Goal} (rest : Simplifies g g') : Simplifies (.disj g .fail) g'
  | fail_conj (g : Goal) : Simplifies (.conj .fail g) .fail

variable {g g' : Goal} {name : String}

theorem simplifies_refl (g : Goal) : g.Simplifies g := by
  induction g with
  | succeed => exact .succeed
  | fail => exact .fail
  | always => exact .always
  | never => exact .never
  | eq u v => exact .eq u v
  | conj g h ihg ihh => exact .conj ihg ihh
  | disj g h ihg ihh => exact .disj ihg ihh
  | fresh names body ih => exact .fresh names ih
  | defer body ih => exact .defer ih
  | call name args => exact .call name args
  | ifZero e g h ihg ihh => exact .ifZero e ihg ihh
  | copies n => exact .copies n

theorem simplifies_conjAll (g : Goal) (gs : List Goal) :
    (Goal.conj g (conjAll gs)).Simplifies (conjAll (g :: gs)) := by
  cases gs with
  | nil => exact .conj_succeed (simplifies_refl g)
  | cons h gs => exact simplifies_refl _

theorem simplifies_disjAll (g : Goal) (gs : List Goal) :
    (Goal.disj g (disjAll gs)).Simplifies (disjAll (g :: gs)) := by
  cases gs with
  | nil => exact .disj_fail (simplifies_refl g)
  | cons h gs => exact simplifies_refl _

end Goal

namespace Answers

variable {κ α : Type} {force force' : κ → Answers κ α} {codes : κ → κ → Prop}
  {s s' t t' u : Answers κ α}

theorem condenses_merge (left : Condenses force force' codes s s')
    (right : Condenses force force' codes t t') :
    Condenses force force' codes (s.merge t) (s'.merge t') := by
  rcases merge_cases s t with ⟨rfl, same⟩ | ⟨a, rest, rfl, same⟩ | same
  · have shows := shows_of_condenses_empty left
    rw [same]
    exact condenses_sameHeads right
      (sameHeads_trans (sameHeads_after_empty shows) (sameHeads_merge force' s' t'))
  · obtain ⟨rest', shows, restCondenses⟩ := shows_of_condenses_ready left
    rw [same]
    exact .ready (condenses_merging right restCondenses)
      ((sameHeads_merge force' s' t').onward _ (.mplus_ready shows))
  · rw [same]
    exact .merging left right (sameHeads_merge force' s' t')

theorem condenses_feed {c d : α → κ} (source : Condenses force force' codes s t)
    (related : ∀ a, codes (c a) (d a)) :
    Condenses force force' codes (s.feed fun a => .inr (c a)) (t.feed fun a => .inr (d a)) := by
  rcases feed_cases s fun a => .inr (c a) with ⟨rfl, same⟩ | same
  · rw [same]
    have shows := shows_of_condenses_empty source
    exact condenses_empty ((sameHeads_feed force' t _).onward _ (.bind_empty shows))
  · rw [same]
    exact .feeding_codes source related (sameHeads_feed force' t _)

theorem condenses_merge_empty (left : Condenses force force' codes s u) :
    Condenses force force' codes (s.merge .empty) u := by
  rcases merge_cases s .empty with ⟨rfl, same⟩ | ⟨a, rest, rfl, same⟩ | same
  · rwa [same]
  · obtain ⟨rest', shows, restCondenses⟩ := shows_of_condenses_ready left
    rw [same]
    exact .ready (.keep_right (condenses_empty .empty) restCondenses) shows
  · rw [same]
    exact .keep_left left (condenses_empty .empty)

theorem condenses_handed_on {g : α → Answers κ α ⊕ κ} (source : Condenses force force' codes s u)
    (returns : ∀ a, given force (g a) = .single a) :
    Condenses force force' codes (s.feed g) u := by
  rcases feed_cases s g with ⟨rfl, same⟩ | same
  · rwa [same]
  · rw [same]
    exact .hand_on source returns

theorem condenses_ofList (items : List α) :
    Condenses force force' codes (ofList items) (ofList items) := by
  induction items with
  | nil => exact condenses_empty .empty
  | cons a items ih => exact .ready ih (.ready a (ofList items))

end Answers

namespace Program

variable {p q : Program} {g g' : Goal} {rank : String → Nat}

/-- In one program, a goal can be exchanged for the simplified one in all surroundings. -/
theorem equivalent_solve (p : Program) (simplifies : g.Simplifies g') (scope : Scope)
    (s : Subst) : Equivalent p.force p.force (p.solve g scope s) (p.solve g' scope s) := by
  induction simplifies generalizing scope s with
  | succeed | fail | always | never | eq | call | copies => exact equivalent_refl _ _
  | conj first second ihFirst ihSecond =>
    exact equivalent_feed_congr (ihFirst scope s) fun m => ihSecond scope m
  | disj left right ihLeft ihRight =>
    exact equivalent_merge_congr (ihLeft scope s) (ihRight scope s)
  | fresh names body ih => exact ih _ _
  | defer body ih => exact equivalent_suspended (ih scope s)
  | ifZero e zero other ihZero ihOther =>
    rw [solve, solve, Goal.start, Goal.start]
    cases e.eval scope with
    | none => exact equivalent_refl _ _
    | some t =>
      dsimp only
      split
      · exact ihZero scope s
      · exact ihOther scope s
  | succeed_conj rest ih =>
    exact equivalent_trans (equivalent_feeding_single p.force s _) (ih scope s)
  | conj_succeed rest ih =>
    exact equivalent_trans (equivalent_feed p.force _ _)
      (equivalent_trans (equivalent_handed_on (fun _ => rfl) _) (ih scope s))
  | fail_disj rest ih => exact ih scope s
  | disj_fail rest ih =>
    exact equivalent_trans (equivalent_merge p.force _ _)
      (equivalent_trans (equivalent_merging_empty p.force _) (ih scope s))
  | fail_conj g => exact equivalent_refl _ _

structure Simplifies (p q : Program) : Prop where
  depth : q.callDepth = p.callDepth
  relations : ∀ name, Option.Rel (fun r r' => r.params = r'.params ∧ r.body.Simplifies r'.body)
    (p.relations.lookup name) (q.relations.lookup name)

/-- Calls that are not deferred are nested less deeply than the program starts at once. -/
structure Ranks (p : Program) (rank : String → Nat) : Prop where
  falls : ∀ callee caller, p.CallsAtOnce callee caller → rank callee < rank caller
  deep : ∀ name, rank name < p.callDepth

inductive Related : Pending → Pending → Prop where
  | goal {g g' : Goal} (scope : Scope) (s : Subst) (simplifies : g.Simplifies g') :
      Related (.goal scope g s) (.goal scope g' s)
  | endless (s : Subst) : Related (.endless s) (.endless s)

abbrev CondensesTo (p q : Program) : Solutions → Solutions → Prop :=
  Condenses p.force q.force Related

theorem condenses_endless (s : Subst) : p.CondensesTo q (Goal.endless s) (Goal.endless s) :=
  condenses_feeding_codes (condenses_ofList [s]) fun m => .endless m

theorem condenses_startEq (a b : Term) (s : Subst) :
    p.CondensesTo q (Goal.startEq a b s) (Goal.startEq a b s) := by
  unfold Goal.startEq
  cases s.unify a b with
  | solved m => exact condenses_ofList [m]
  | clash => exact condenses_empty .empty
  | endless => exact condenses_endless s

theorem condenses_start (ranks : p.Ranks rank) (simplifies : g.Simplifies g')
    (calls : ∀ name, g.CallsAtOnce name → ∀ d d', rank name < d → rank name < d' →
      ∀ ts s, p.CondensesTo q (p.invoke d name ts s) (q.invoke d' name ts s))
    (d d' : Nat) (room : ∀ name, g.CallsAtOnce name → rank name < d ∧ rank name < d')
    (scope : Scope) (s : Subst) :
    p.CondensesTo q (g.start (p.invoke d) scope s) (g'.start (q.invoke d') scope s) := by
  induction simplifies generalizing d d' scope s with
  | succeed => exact condenses_ofList [s]
  | fail => exact condenses_empty .empty
  | always =>
    exact .suspended (.goal scope s (Goal.simplifies_refl (.disj .succeed .always))) (.suspended _)
  | never => exact .suspended (.goal scope s .never) (.suspended _)
  | eq u v =>
    rw [Goal.start, Goal.start]
    cases u.eval scope with
    | none => exact condenses_empty .empty
    | some a =>
      cases v.eval scope with
      | none => exact condenses_empty .empty
      | some b => exact condenses_startEq a b s
  | call name args =>
    obtain ⟨enough, enough'⟩ := room name (.call name args)
    rw [Goal.start, Goal.start]
    cases Expr.evalAll scope args with
    | none => exact condenses_empty .empty
    | some ts => exact calls name (.call name args) d d' enough enough' ts s
  | copies n => exact condenses_ofList _
  | conj first second ihFirst _ =>
    refine condenses_feed (ihFirst (fun name inside => calls name (.conj_left _ inside)) d d'
      (fun name inside => room name (.conj_left _ inside)) scope s) ?_
    exact fun m => .goal scope m second
  | disj left right ihLeft ihRight =>
    exact condenses_merge
      (ihLeft (fun name inside => calls name (.disj_left _ inside)) d d'
        (fun name inside => room name (.disj_left _ inside)) scope s)
      (ihRight (fun name inside => calls name (.disj_right _ inside)) d d'
        (fun name inside => room name (.disj_right _ inside)) scope s)
  | fresh names body ih =>
    exact ih (fun name inside => calls name (.fresh names inside)) d d'
      (fun name inside => room name (.fresh names inside)) _ _
  | defer body ih => exact .suspended (.goal scope s body) (.suspended _)
  | ifZero e zero other ihZero ihOther =>
    have first := ihZero (fun name inside => calls name (.if_zero e _ inside)) d d'
      (fun name inside => room name (.if_zero e _ inside)) scope s
    have second := ihOther (fun name inside => calls name (.if_other e _ inside)) d d'
      (fun name inside => room name (.if_other e _ inside)) scope s
    rw [Goal.start, Goal.start]
    cases e.eval scope with
    | none => exact condenses_empty .empty
    | some t =>
      dsimp only
      split
      · exact first
      · exact second
  | succeed_conj rest ih =>
    -- The second goal is started afresh, with as many calls before it as the program allows.
    have result := ih (fun name inside => calls name (.conj_right _ inside)) p.callDepth d'
      (fun name inside => ⟨ranks.deep name, (room name (.conj_right _ inside)).2⟩) scope s
    exact .feed_single s result
  | conj_succeed rest ih =>
    exact condenses_handed_on (ih (fun name inside => calls name (.conj_left _ inside)) d d'
      (fun name inside => room name (.conj_left _ inside)) scope s) fun _ => rfl
  | fail_disj rest ih =>
    exact ih (fun name inside => calls name (.disj_right _ inside)) d d'
      (fun name inside => room name (.disj_right _ inside)) scope s
  | disj_fail rest ih =>
    exact condenses_merge_empty (ih (fun name inside => calls name (.disj_left _ inside)) d d'
      (fun name inside => room name (.disj_left _ inside)) scope s)
  | fail_conj g => exact condenses_empty .empty

theorem condenses_invoke (ranks : p.Ranks rank) (simplifies : p.Simplifies q) (name : String)
    (d d' : Nat) (room : rank name < d) (room' : rank name < d') (ts : List Term) (s : Subst) :
    p.CondensesTo q (p.invoke d name ts s) (q.invoke d' name ts s) := by
  -- The induction is on the rank: what a relation calls at once has a smaller one.
  induction measure : rank name using Nat.strongRecOn generalizing name d d' ts s with
  | ind bound ih =>
    obtain ⟨d, rfl⟩ := Nat.exists_eq_add_one_of_ne_zero (Nat.ne_of_gt (Nat.zero_lt_of_lt room))
    obtain ⟨d', rfl⟩ := Nat.exists_eq_add_one_of_ne_zero (Nat.ne_of_gt (Nat.zero_lt_of_lt room'))
    have related := simplifies.relations name
    cases known : p.relations.lookup name with
    | none =>
      rw [known] at related
      cases known' : q.relations.lookup name with
      | none =>
        rw [invoke_unknown known, invoke_unknown known']
        exact condenses_empty .empty
      | some r' =>
        rw [known'] at related
        cases related
    | some r =>
      rw [known] at related
      cases known' : q.relations.lookup name with
      | none =>
        rw [known'] at related
        cases related
      | some r' =>
        rw [known'] at related
        cases related with
        | some both =>
          obtain ⟨params, body⟩ := both
          have lower (callee : String) (inside : r.body.CallsAtOnce callee) :
              rank callee < rank name := ranks.falls callee name ⟨r, known, inside⟩
          rw [invoke_known known, invoke_known known', params]
          refine condenses_start ranks body (fun callee inside e e' enough enough' => ?_) d d'
            (fun callee inside => ?_) _ s
          · have smaller := lower callee inside
            exact fun ts s => ih (rank callee) (by omega) callee e e' enough enough' ts s rfl
          · have smaller := lower callee inside
            exact ⟨by omega, by omega⟩

theorem condenses_solve (ranks : p.Ranks rank) (related : p.Simplifies q)
    (simplifies : g.Simplifies g') (scope : Scope) (s : Subst) :
    p.CondensesTo q (p.solve g scope s) (q.solve g' scope s) := by
  refine condenses_start ranks simplifies
    (fun name _ d d' room room' => condenses_invoke ranks related name d d' room room')
    p.callDepth q.callDepth (fun name _ => ?_) scope s
  rw [related.depth]
  exact ⟨ranks.deep name, ranks.deep name⟩

theorem equivalent_programs (ranks : p.Ranks rank) (related : p.Simplifies q)
    (simplifies : g.Simplifies g') (scope : Scope) (s : Subst) :
    Equivalent p.force q.force (p.solve g scope s) (q.solve g' scope s) := by
  have forced (c d : Pending) (pending : Related c d) :
      p.CondensesTo q (p.force c) (q.force d) := by
    cases pending with
    | goal scope s simplifies => exact condenses_solve ranks related simplifies scope s
    | endless s => exact condenses_endless s
  exact equivalent_of_condenses forced (condenses_solve ranks related simplifies scope s)

end Program

/-- How streams are built keeps equivalence, and the empty stream and single answers are units. -/
structure StreamIdentities {κ α : Type} (force : κ → Answers κ α) : Prop where
  ready : ∀ a s t, Equivalent force force s t → Equivalent force force (.ready a s) (.ready a t)
  suspended : ∀ c d, Equivalent force force (force c) (force d) →
    Equivalent force force (.suspended c) (.suspended d)
  merging : ∀ s s' t t', Equivalent force force s s' → Equivalent force force t t' →
    Equivalent force force (.merging s t) (.merging s' t')
  feeding : ∀ s t f g, Equivalent force force s t →
    (∀ a, Equivalent force force (given force (f a)) (given force (g a))) →
    Equivalent force force (.feeding s f) (.feeding t g)
  merge : ∀ s t, Equivalent force force (s.merge t) (.merging s t)
  feed : ∀ s g, Equivalent force force (s.feed g) (.feeding s g)
  bind : ∀ s (g : α → Answers κ α),
    Equivalent force force (s.bind g) (.feeding s fun a => .inl (g a))
  empty_merging : ∀ s, Equivalent force force (.merging .empty s) s
  merging_empty : ∀ s, Equivalent force force (.merging s .empty) s
  feeding_empty : ∀ g, Equivalent force force (.feeding .empty g) .empty
  feeding_single : ∀ a g, Equivalent force force (.feeding (.single a) g) (given force (g a))
  handed_on : ∀ s g, (∀ a, given force (g a) = .single a) → Equivalent force force (.feeding s g) s

/-- Trivial parts of goals can be left out of a goal, at any place, and of the relations too. -/
structure GoalIdentities (p : Program) : Prop where
  exchanged : ∀ g g', g.Simplifies g' → ∀ scope s,
    Equivalent p.force p.force (p.solve g scope s) (p.solve g' scope s)
  redefined : ∀ q rank, p.Ranks rank → p.Simplifies q → ∀ g g', g.Simplifies g' → ∀ scope s,
    Equivalent p.force q.force (p.solve g scope s) (q.solve g' scope s)
  conjAll : ∀ g gs scope s, Equivalent p.force p.force
    (p.solve (.conjAll (g :: gs)) scope s) (p.solve (.conj g (.conjAll gs)) scope s)
  disjAll : ∀ g gs scope s, Equivalent p.force p.force
    (p.solve (.disjAll (g :: gs)) scope s) (p.solve (.disj g (.disjAll gs)) scope s)

/-- Searches do not see how the trivial parts of streams and goals are dealt with, wherever these
    stand: the answers, their order and the forcings are the same under every step limit. -/
theorem identities_in_every_context {κ α : Type} (force : κ → Answers κ α) (p : Program) :
    StreamIdentities force ∧ GoalIdentities p := by
  constructor
  · exact {
      ready := fun a _ _ => equivalent_ready a
      suspended := fun _ _ => equivalent_suspended
      merging := fun _ _ _ _ => equivalent_merging
      feeding := fun _ _ _ _ => equivalent_feeding
      merge := equivalent_merge force
      feed := equivalent_feed force
      bind := fun s g => equivalent_feed force s fun a => .inl (g a)
      empty_merging := equivalent_empty_merging force
      merging_empty := equivalent_merging_empty force
      feeding_empty := equivalent_feeding_empty force
      feeding_single := equivalent_feeding_single force
      handed_on := fun s _ returns => equivalent_handed_on returns s }
  · exact {
      exchanged := fun _ _ => p.equivalent_solve
      redefined := fun _ _ ranks related _ _ => Program.equivalent_programs ranks related
      conjAll := fun g gs scope s =>
        equivalent_symm (p.equivalent_solve (Goal.simplifies_conjAll g gs) scope s)
      disjAll := fun g gs scope s =>
        equivalent_symm (p.equivalent_solve (Goal.simplifies_disjAll g gs) scope s) }

def Program.paddedPeano : Program where
  relations := [("peano", ⟨["n"], .conj .succeed (.disj (.eq (.ref "n") (.peano 0))
    (.fresh ["m"] (.conj (.conj (.eq (.ref "n") (.seq [.atom (.str "s"), .ref "m"])) .succeed)
      (.defer (.call "peano" [.ref "m"])))))⟩)]

theorem Program.paddedPeano_ranks : paddedPeano.Ranks (fun _ => 0) := by
  refine ⟨fun callee caller calls => ?_, fun _ => by decide⟩
  obtain ⟨r, known, inside⟩ := calls
  rw [paddedPeano, List.lookup_cons] at known
  split at known
  · cases known
    cases inside with
    | conj_left _ success => cases success
    | conj_right _ body =>
      cases body with
      | disj_left _ zero => cases zero
      | disj_right _ successor =>
        cases successor with
        | fresh _ both =>
          cases both with
          | conj_left _ cell =>
            cases cell with
            | conj_left _ equation => cases equation
            | conj_right _ success => cases success
          | conj_right _ rest => cases rest
  · cases known

theorem Program.paddedPeano_simplifies : paddedPeano.Simplifies peano := by
  refine ⟨rfl, fun name => ?_⟩
  rw [paddedPeano, peano, List.lookup_cons, List.lookup_cons]
  split
  · have cell := Goal.Simplifies.eq (.ref "n") (.seq [.atom (.str "s"), .ref "m"])
    exact .some ⟨rfl, .succeed_conj (.disj (.eq _ _)
      (.fresh ["m"] (.conj (.conj_succeed cell) (.defer (.call "peano" [.ref "m"])))))⟩
  · exact .none

theorem padded_peano_equivalent :
    Program.paddedPeano.Ranks (fun _ => 0) ∧ Program.paddedPeano.Simplifies Program.peano ∧
      ∀ scope s, Equivalent Program.paddedPeano.force Program.peano.force
        (Program.paddedPeano.solve (.disj .fail (.call "peano" [.ref "n"])) scope s)
        (Program.peano.solve (.call "peano" [.ref "n"]) scope s) := by
  obtain ⟨-, goals⟩ := identities_in_every_context Program.paddedPeano.force Program.paddedPeano
  exact ⟨Program.paddedPeano_ranks, Program.paddedPeano_simplifies,
    goals.redefined Program.peano _ Program.paddedPeano_ranks Program.paddedPeano_simplifies _ _
      (.fail_disj (.call "peano" [.ref "n"]))⟩

end RelationalSearch

import Mathlib.Logic.Relation
import RelationalSearch.Proofs.Valuation

/-!
Links from variable to variable. Where no variable reaches itself through links, every walk
has an end: the numbers that it passes are different and bound, and there are only so many of
them. Binding a free variable to a term that does not walk to it makes no new circle of links.
-/
namespace RelationalSearch.Subst

variable {s s' : Subst}

theorem countP_lt {α : Type} {items : List α} {p q : α → Bool}
    (imp : ∀ a ∈ items, p a = true → q a = true) {a : α} (member : a ∈ items)
    (missed : ¬ p a = true) (counted : q a = true) : items.countP p < items.countP q := by
  induction items with
  | nil => cases member
  | cons head items ih =>
    have rest := List.countP_mono_left fun b later => imp b (List.mem_cons_of_mem _ later)
    have first := imp head List.mem_cons_self
    rw [List.countP_cons, List.countP_cons]
    rcases List.mem_cons.mp member with rfl | later
    · rw [if_neg missed, if_pos counted]
      omega
    · have less := ih (fun b later => imp b (List.mem_cons_of_mem _ later)) later
      split
      · next holds =>
        rw [if_pos (first holds)]
        omega
      · omega

def Links (s : Subst) (first second : Nat) : Prop :=
  ∃ x y : Var, s.get? x = some (.var y) ∧ x.id = first ∧ y.id = second

/-- No variable is bound to itself through links alone. -/
def NoLoops (s : Subst) : Prop :=
  ∀ id, ¬ Relation.TransGen s.Links id id

theorem noLoops_empty : empty.NoLoops := by
  intro id loop
  obtain ⟨_, ⟨x, y, bound, -⟩, -⟩ := Relation.TransGen.head'_iff.mp loop
  rw [get?_empty] at bound
  cases bound

theorem mem_entries_of_get? {x : Var} {t : Term} (bound : s.get? x = some t) :
    x.id ∈ s.entries := by
  rw [get?, Option.map_eq_some_iff] at bound
  obtain ⟨b, entry, -⟩ := bound
  exact Std.ExtTreeMap.mem_iff_isSome_getElem?.mpr (by rw [entry]; rfl)

/-- A walk that is given up has passed one bound variable more than it has made hops. -/
theorem chain_of_lost_walk {hops : Nat} {x : Var} (lost : s.walkWithin hops (.var x) = none) :
    ∃ ids, ids.length = hops ∧ (x.id :: ids).Pairwise (Relation.TransGen s.Links) ∧
      ∀ id ∈ x.id :: ids, id ∈ s.entries := by
  induction hops generalizing x with
  | zero =>
    cases bound : s.follow? (.var x) with
    | none =>
      rw [walkWithin_of_follow_none bound] at lost
      cases lost
    | some t =>
      refine ⟨[], rfl, List.pairwise_singleton _ _, ?_⟩
      intro id member
      cases List.mem_singleton.mp member
      exact mem_entries_of_get? bound
  | succ hops ih =>
    cases bound : s.follow? (.var x) with
    | none =>
      rw [walkWithin_of_follow_none bound] at lost
      cases lost
    | some t =>
      rw [walkWithin_of_follow_some bound] at lost
      cases t with
      | atom a =>
        rw [walkWithin_of_follow_none rfl] at lost
        cases lost
      | seq ts =>
        rw [walkWithin_of_follow_none rfl] at lost
        cases lost
      | var y =>
        obtain ⟨ids, count, chain, entries⟩ := ih lost
        have link : s.Links x.id y.id := ⟨x, y, bound, rfl, rfl⟩
        refine ⟨y.id :: ids, congrArg (· + 1) count, ?_, ?_⟩
        · refine List.pairwise_cons.mpr ⟨?_, chain⟩
          intro id member
          rcases List.mem_cons.mp member with rfl | later
          · exact .single link
          · exact .head link ((List.pairwise_cons.mp chain).1 id later)
        · intro id member
          rcases List.mem_cons.mp member with rfl | later
          · exact mem_entries_of_get? bound
          · exact entries id later

theorem walk_isSome (noLoops : s.NoLoops) (t : Term) : ∃ u, s.walk t = some u := by
  cases t with
  | atom a => exact ⟨_, walkWithin_of_follow_none rfl s.size⟩
  | seq ts => exact ⟨_, walkWithin_of_follow_none rfl s.size⟩
  | var x =>
    cases walked : s.walk (.var x) with
    | some u => exact ⟨u, rfl⟩
    | none =>
      obtain ⟨ids, count, chain, entries⟩ := chain_of_lost_walk walked
      have distinct : (x.id :: ids).Nodup := by
        refine chain.imp ?_
        rintro first second reaches rfl
        exact noLoops first reaches
      have few := List.Nodup.length_le_of_subset distinct
        fun id member => Std.ExtTreeMap.mem_keys.mpr (entries id member)
      rw [List.length_cons, count, Std.ExtTreeMap.length_keys, size] at few
      omega

theorem walkWithin_mono {hops : Nat} {t u : Term} (walked : s.walkWithin hops t = some u)
    (more : Nat) : s.walkWithin (hops + more) t = some u := by
  obtain ⟨n, few, path, last⟩ := walkWithin_eq_some_iff.mp walked
  exact walkWithin_eq_some_iff.mpr ⟨n, Nat.le_add_right_of_le few, path, last⟩

theorem walk_of_follow (noLoops : s.NoLoops) {t u : Term} (followed : s.follow? t = some u) :
    s.walk t = s.walk u := by
  obtain ⟨last, walked⟩ := walk_isSome noLoops t
  unfold walk at walked ⊢
  cases count : s.size with
  | zero => simp [count, walkWithin, followed] at walked
  | succ hops =>
    rw [count, walkWithin_of_follow_some followed] at walked
    rw [walkWithin_of_follow_some followed, walked, walkWithin_mono walked 1]

theorem walk_of_links (noLoops : s.NoLoops) {x y : Var} (free : s.get? x = none)
    (path : Relation.ReflTransGen s.Links y.id x.id) :
    ∃ z, s.walk (.var y) = some (.var z) ∧ z.id = x.id := by
  generalize same : y.id = first at path
  induction path using Relation.ReflTransGen.head_induction_on generalizing y with
  | refl =>
    have stuck : s.follow? (.var y) = none := (get?_congr same).trans free
    exact ⟨y, walkWithin_of_follow_none stuck s.size, same⟩
  | head link _ ih =>
    obtain ⟨p, q, bound, atFirst, atNext⟩ := link
    have followed : s.follow? (.var y) = some (.var q) :=
      (get?_congr (same.trans atFirst.symm)).trans bound
    rw [walk_of_follow noLoops followed]
    exact ih atNext

/-- Where all new edges start at one place, a path is old, or it has come to that place and gone on
    from the end of a new edge. -/
theorem path_of_new_edges {old new : Nat → Nat → Prop} {place : Nat} {ends : Nat → Prop}
    (edge : ∀ a b, new a b → old a b ∨ a = place ∧ ends b) {first last : Nat}
    (path : Relation.TransGen new first last) :
    Relation.TransGen old first last ∨
      Relation.ReflTransGen old first place ∧ ∃ id, ends id ∧ Relation.ReflTransGen old id last := by
  induction path with
  | single step =>
    rcases edge _ _ step with known | ⟨rfl, here⟩
    · exact .inl (.single known)
    · exact .inr ⟨.refl, _, here, .refl⟩
  | tail before step ih =>
    rcases edge _ _ step with known | ⟨rfl, here⟩
    · rcases ih with path | ⟨toPlace, id, inside, path⟩
      · exact .inl (.tail path known)
      · exact .inr ⟨toPlace, id, inside, .tail path known⟩
    · rcases ih with path | ⟨toPlace, -⟩
      · exact .inr ⟨path.to_reflTransGen, _, here, .refl⟩
      · exact .inr ⟨toPlace, _, here, .refl⟩

/-- A binding closes a circle of links only if its term walks to the bound variable. -/
theorem noLoops_extend_apart {x : Var} {t : Term} (extended : s.extend x t = .ok s')
    (apart : ∀ y, s.walk t = some (.var y) → y.id ≠ x.id) (noLoops : s.NoLoops) : s'.NoLoops := by
  have link (a b : Nat) (new : s'.Links a b) :
      s.Links a b ∨ a = x.id ∧ ∃ y : Var, t = .var y ∧ y.id = b := by
    obtain ⟨z, y, bound, rfl, rfl⟩ := new
    rw [get?_extend extended] at bound
    split at bound
    · next same =>
      cases bound
      exact .inr ⟨same.symm, y, rfl, rfl⟩
    · exact .inl ⟨z, y, bound, rfl, rfl⟩
  intro id loop
  rcases path_of_new_edges link loop with old | ⟨toVar, _, ⟨y, rfl, rfl⟩, fromTerm⟩
  · exact noLoops id old
  · have free := (extend_eq_ok extended).1
    obtain ⟨z, walked, same⟩ := walk_of_links noLoops free (fromTerm.trans toVar)
    exact apart z walked same

theorem noLoops_extend {x : Var} {t : Term} (extended : s.extend x t = .ok s')
    (stuck : s.follow? t = none) (other : ∀ y, t = .var y → y.id ≠ x.id)
    (noLoops : s.NoLoops) : s'.NoLoops := by
  refine noLoops_extend_apart extended (fun y walked => other y ?_) noLoops
  rw [walk, walkWithin_of_follow_none stuck] at walked
  exact Option.some.inj walked

end RelationalSearch.Subst

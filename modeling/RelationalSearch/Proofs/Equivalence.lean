import RelationalSearch.Proofs.Mirroring

/-!
Equivalent streams: no search can tell them apart, whatever its step limit and however often it is
pulled. Equivalence is kept by everything that streams are built with, so what is equivalent can
be exchanged anywhere. Merges and binds are equivalent to the nodes that stand for them, and the
empty stream and single answers are their units.
-/
namespace RelationalSearch

variable {κ α : Type}

namespace Answers

variable {force force' force'' : κ → Answers κ α} {s s' t t' u : Answers κ α}
  {f g : α → Answers κ α ⊕ κ}

/-- Every search of the one returns what a search of the other does, pull by pull and after the
    same number of forcings. -/
def Equivalent (force force' : κ → Answers κ α) (s t : Answers κ α) : Prop :=
  ∀ (config : SearchConfig) (outs : List (Attempt α)),
    (Search.ofAnswers s config).Tries force outs ↔ (Search.ofAnswers t config).Tries force' outs

theorem equivalent_iff_mirrors :
    Equivalent force force' s t ↔ Mirrors force force' s t ∧ Mirrors force' force t s := by
  constructor
  · intro equivalent
    constructor
    · refine mirrors_of_sees fun limit outs sees => ?_
      have tries := (Search.tries_iff_sees force s _ outs).mpr sees
      exact (Search.tries_iff_sees force' t _ outs).mp ((equivalent _ outs).mp tries)
    · refine mirrors_of_sees fun limit outs sees => ?_
      have tries := (Search.tries_iff_sees force' t _ outs).mpr sees
      exact (Search.tries_iff_sees force s _ outs).mp ((equivalent _ outs).mpr tries)
  · rintro ⟨onward, back⟩ config outs
    rw [Search.tries_iff_sees, Search.tries_iff_sees]
    exact ⟨sees_of_mirrors onward, sees_of_mirrors back⟩

theorem equivalent_refl (force : κ → Answers κ α) (s : Answers κ α) : Equivalent force force s s :=
  fun _ _ => Iff.rfl

theorem equivalent_symm (equivalent : Equivalent force force' s t) : Equivalent force' force t s :=
  fun config outs => (equivalent config outs).symm

theorem equivalent_trans (first : Equivalent force force' s t)
    (second : Equivalent force' force'' t u) : Equivalent force force'' s u :=
  fun config outs => (first config outs).trans (second config outs)

theorem sees_of_equivalent {config : SearchConfig} {steps : Nat} {outs : List (Attempt α)}
    (equivalent : Equivalent force force' s t) (sees : Sees force' config t steps outs) :
    Sees force config s steps outs :=
  sees_of_mirrors (equivalent_iff_mirrors.mp equivalent).2 sees

theorem equivalent_of_condenses {codes : κ → κ → Prop}
    (forced : ∀ c d, codes c d → Condenses force force' codes (force c) (force' d))
    (condenses : Condenses force force' codes s t) : Equivalent force force' s t :=
  equivalent_iff_mirrors.mpr
    ⟨mirrors_of_condenses forced condenses, mirrors_back forced condenses⟩

theorem equivalent_of_sameHeads (same : SameHeads force s t) : Equivalent force force s t :=
  equivalent_iff_mirrors.mpr
    ⟨mirrors_of_displays same.onward, mirrors_of_displays (displays_of_sameHeads same)⟩

section Building

theorem equivalent_of_parts (condenses : Condenses force force' (fun _ _ => False) s t) :
    Equivalent force force' s t :=
  equivalent_of_condenses (fun _ _ impossible => impossible.elim) condenses

theorem condenses_of_equivalent {codes : κ → κ → Prop} (equivalent : Equivalent force force' s t) :
    Condenses force force' codes s t := by
  obtain ⟨onward, back⟩ := equivalent_iff_mirrors.mp equivalent
  exact .mirrored onward back

theorem equivalent_ready (a : α) (rest : Equivalent force force' s t) :
    Equivalent force force' (.ready a s) (.ready a t) :=
  equivalent_of_parts (.ready (condenses_of_equivalent rest) (.ready a t))

theorem equivalent_suspended {c d : κ} (forced : Equivalent force force' (force c) (force' d)) :
    Equivalent force force' (.suspended c) (.suspended d) := by
  have condenses : Condenses force force' (fun c d => Equivalent force force' (force c) (force' d))
      (.suspended c) (.suspended d) := .suspended forced (.suspended d)
  exact equivalent_of_condenses (fun _ _ => condenses_of_equivalent) condenses

theorem equivalent_merging (left : Equivalent force force' s s')
    (right : Equivalent force force' t t') :
    Equivalent force force' (.merging s t) (.merging s' t') :=
  equivalent_of_parts
    (condenses_merging (condenses_of_equivalent left) (condenses_of_equivalent right))

theorem equivalent_feeding (source : Equivalent force force' s t)
    (results : ∀ a, Equivalent force force' (given force (f a)) (given force' (g a))) :
    Equivalent force force' (.feeding s f) (.feeding t g) :=
  equivalent_of_parts (condenses_feeding (condenses_of_equivalent source)
    fun a => condenses_of_equivalent (results a))

end Building

section Units

variable (force)

theorem equivalent_empty_merging (s : Answers κ α) :
    Equivalent force force (.merging .empty s) s :=
  equivalent_of_parts (.keep_right (condenses_empty .empty) (condenses_refl force s))

theorem equivalent_merging_empty (s : Answers κ α) :
    Equivalent force force (.merging s .empty) s :=
  equivalent_of_parts (.keep_left (condenses_refl force s) (condenses_empty .empty))

theorem equivalent_feeding_empty (g : α → Answers κ α ⊕ κ) :
    Equivalent force force (.feeding .empty g) .empty :=
  equivalent_of_parts (.feed_nothing g (condenses_empty .empty) .empty)

theorem equivalent_feeding_single (a : α) (g : α → Answers κ α ⊕ κ) :
    Equivalent force force (.feeding (.single a) g) (given force (g a)) :=
  equivalent_of_parts (.feed_single a (condenses_refl force _))

variable {force}

theorem equivalent_handed_on (returns : ∀ a, given force (g a) = .single a) (s : Answers κ α) :
    Equivalent force force (.feeding s g) s :=
  equivalent_of_parts (.hand_on (condenses_refl force s) returns)

end Units

section Deciding

variable (force)

theorem equivalent_merge (s t : Answers κ α) :
    Equivalent force force (s.merge t) (.merging s t) :=
  equivalent_symm (equivalent_of_sameHeads (sameHeads_merge force s t))

theorem equivalent_feed (s : Answers κ α) (g : α → Answers κ α ⊕ κ) :
    Equivalent force force (s.feed g) (.feeding s g) :=
  equivalent_symm (equivalent_of_sameHeads (sameHeads_feed force s g))

variable {force}

theorem equivalent_merge_congr (left : Equivalent force force s s')
    (right : Equivalent force force t t') : Equivalent force force (s.merge t) (s'.merge t') :=
  equivalent_trans (equivalent_merge force s t) (equivalent_trans (equivalent_merging left right)
    (equivalent_symm (equivalent_merge force s' t')))

theorem equivalent_feed_congr (source : Equivalent force force s t)
    (results : ∀ a, Equivalent force force (given force (f a)) (given force (g a))) :
    Equivalent force force (s.feed f) (t.feed g) :=
  equivalent_trans (equivalent_feed force s f) (equivalent_trans (equivalent_feeding source results)
    (equivalent_symm (equivalent_feed force t g)))

end Deciding

end Answers

end RelationalSearch

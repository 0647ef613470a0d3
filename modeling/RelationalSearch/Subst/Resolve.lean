import RelationalSearch.Subst

/-!
Reading terms under a substitution. Walking follows links from variable to variable
and stops at the first term that is no bound variable; resolving goes on inside
sequences. Bindings may run in a circle, so both can have no result. The bounds are
computed from the substitution: a chain of links that is longer than the number of
bindings comes back to where it was, and so does a path into sequences that is longer
than the number of nodes there are.
-/
namespace RelationalSearch.Subst

def follow? (s : Subst) : Term → Option Term
  | .var x => s.get? x
  | _ => none

def walkWithin (s : Subst) : Nat → Term → Option Term
  | 0, t =>
    match s.follow? t with
    | none => some t
    | some _ => none
  | hops + 1, t =>
    match s.follow? t with
    | none => some t
    | some next => walkWithin s hops next

def walk (s : Subst) (t : Term) : Option Term :=
  s.walkWithin s.size t

def resolveWithin (s : Subst) : Nat → Term → Option Term
  | 0, _ => none
  | depth + 1, t =>
    match s.walk t with
    | some (.seq ts) => (ts.mapM (resolveWithin s depth)).map .seq
    | found => found

/-- Depth that is tried before a bound is worked out; few terms are nested deeper. -/
def shallow : Nat := 4096

/-- The term with every variable replaced by its value, as far as it has one. There is
    no result exactly if a circle is met. -/
def resolve (s : Subst) (t : Term) : Option Term :=
  match s.resolveWithin shallow t with
  | some u => some u
  | none => s.resolveWithin (s.weight + t.size) t

def resolveVar (s : Subst) (x : Var) : Option Term :=
  s.resolve (.var x)

theorem walkWithin_of_follow_none {s : Subst} {t : Term} (h : s.follow? t = none) (hops : Nat) :
    s.walkWithin hops t = some t := by
  cases hops <;> simp [walkWithin, h]

theorem walkWithin_of_follow_some {s : Subst} {t u : Term} (h : s.follow? t = some u)
    (hops : Nat) : s.walkWithin (hops + 1) t = s.walkWithin hops u := by
  simp [walkWithin, h]

inductive Hops (s : Subst) : Nat → Term → Term → Prop where
  | stay (t : Term) : Hops s 0 t t
  | hop {n : Nat} {t u v : Term} (followed : s.follow? t = some u) (later : Hops s n u v) :
      Hops s (n + 1) t v

theorem walkWithin_eq_some_iff {s : Subst} {hops : Nat} {t u : Term} :
    s.walkWithin hops t = some u ↔ ∃ n, n ≤ hops ∧ s.Hops n t u ∧ s.follow? u = none := by
  constructor
  · intro walked
    induction hops generalizing t with
    | zero =>
      unfold walkWithin at walked
      split at walked
      · next last =>
        cases walked
        exact ⟨0, Nat.le_refl 0, .stay _, last⟩
      · cases walked
    | succ hops ih =>
      unfold walkWithin at walked
      split at walked
      · next last =>
        cases walked
        exact ⟨0, Nat.zero_le _, .stay _, last⟩
      · next next followed =>
        obtain ⟨n, few, rest, last⟩ := ih walked
        exact ⟨n + 1, Nat.succ_le_succ few, .hop followed rest, last⟩
  · rintro ⟨n, few, path, last⟩
    induction path generalizing hops with
    | stay t => exact walkWithin_of_follow_none last hops
    | hop followed later ih =>
      obtain ⟨fewer, rfl⟩ : ∃ fewer, hops = fewer + 1 := ⟨hops - 1, by omega⟩
      rw [walkWithin_of_follow_some followed]
      exact ih (Nat.le_of_succ_le_succ few) last

end RelationalSearch.Subst

import RelationalSearch.Proofs.Resolution

/-!
Reading texts back. Each writer puts its text in front of a rest, and the two can be told apart
again: numerals end where no digit follows, names at the hash sign, literals at the first mark of
their own that is not escaped, and items at a comma or a bracket. The first character says what
is to be read, but for names and truth values, which are told apart where they end. So a text
that follows another one does not change what that was, and sequences can be split at any depth.
-/
namespace RelationalSearch

namespace Text

variable {a b rest rest' : List Char} {n m : Nat} {c d : Char}

theorem append_unique {kind : Char → Bool} (left : ∀ c ∈ a, kind c = true)
    (right : ∀ c ∈ b, kind c = true) (ends : ∀ c ∈ rest.head?, kind c = false)
    (ends' : ∀ c ∈ rest'.head?, kind c = false) (same : a ++ rest = b ++ rest') :
    a = b ∧ rest = rest' := by
  induction a generalizing b with
  | nil =>
    cases b with
    | nil => exact ⟨rfl, same⟩
    | cons d b =>
      have inside := right d List.mem_cons_self
      rw [List.nil_append, List.cons_append] at same
      rw [ends d (by rw [same]; rfl)] at inside
      cases inside
  | cons c a ih =>
    have inside := left c List.mem_cons_self
    cases b with
    | nil =>
      rw [List.nil_append, List.cons_append] at same
      rw [ends' c (by rw [← same]; rfl)] at inside
      cases inside
    | cons d b =>
      obtain ⟨rfl, more⟩ := List.cons.inj same
      obtain ⟨rfl, others⟩ := ih (fun x member => left x (List.mem_cons_of_mem _ member))
        (fun x member => right x (List.mem_cons_of_mem _ member)) more
      exact ⟨rfl, others⟩

section Numerals

theorem digitChar_injective : ∀ i < 16, ∀ j < 16, Nat.digitChar i = Nat.digitChar j → i = j := by
  decide

theorem digitChar_ne_brace : ∀ i < 16, (Nat.digitChar i != '\x7d') = true := by
  decide

theorem toDigits_injective {base : Nat} (large : 1 < base) (small : base ≤ 16)
    (same : Nat.toDigits base n = Nat.toDigits base m) : n = m := by
  -- The last digit comes off the end, and the digits before it are those of the quotient.
  induction n using Nat.strongRecOn generalizing m with
  | ind n ih =>
    have apart {i j : Nat} (less : i < base) (more : base ≤ j) :
        Nat.toDigits base i ≠ Nat.toDigits base j := by
      intro same
      rw [Nat.toDigits_of_lt_base less, Nat.toDigits_of_base_le large more,
        ← List.nil_append [Nat.digitChar i]] at same
      exact Nat.toDigits_ne_nil (List.append_inj' same rfl).1.symm
    rcases Nat.lt_or_ge n base with first | first <;> rcases Nat.lt_or_ge m base with second | second
    · rw [Nat.toDigits_of_lt_base first, Nat.toDigits_of_lt_base second] at same
      exact digitChar_injective n (by omega) m (by omega) (List.singleton_inj.mp same)
    · exact absurd same (apart first second)
    · exact absurd same.symm (apart second first)
    · rw [Nat.toDigits_of_base_le large first, Nat.toDigits_of_base_le large second] at same
      obtain ⟨higher, last⟩ := List.append_inj' same rfl
      have quotients := ih (n / base) (Nat.div_lt_self (by omega) large) higher
      have below (k : Nat) : k % base < 16 := by
        have less := Nat.mod_lt k (Nat.lt_trans Nat.zero_lt_one large)
        omega
      have remainders := digitChar_injective (n % base) (below n) (m % base) (below m)
        (List.singleton_inj.mp last)
      rw [← Nat.div_add_mod n base, quotients, remainders, Nat.div_add_mod]

theorem mem_toDigits {base : Nat} (large : 1 < base) (member : c ∈ Nat.toDigits base n) :
    ∃ i < base, c = Nat.digitChar i := by
  induction n using Nat.strongRecOn with
  | ind n ih =>
    rcases Nat.lt_or_ge n base with less | more
    · rw [Nat.toDigits_of_lt_base less, List.mem_singleton] at member
      exact ⟨n, less, member⟩
    · rw [Nat.toDigits_of_base_le large more, List.mem_append, List.mem_singleton] at member
      rcases member with higher | last
      · exact ih (n / base) (Nat.div_lt_self (by omega) large) higher
      · exact ⟨n % base, Nat.mod_lt n (by omega), last⟩

def Apart (rest : List Char) : Prop :=
  ∀ c ∈ rest.head?, c.isDigit = false

theorem natural_unique (ends : Apart rest) (ends' : Apart rest')
    (same : natural n rest = natural m rest') : n = m ∧ rest = rest' := by
  have digits (k : Nat) : ∀ c ∈ Nat.toDigits 10 k, c.isDigit = true :=
    fun c => Nat.isDigit_of_mem_toDigits (by decide) (by decide)
  obtain ⟨equal, others⟩ := append_unique (digits n) (digits m) ends ends' same
  exact ⟨toDigits_injective (by decide) (by decide) equal, others⟩

theorem natural_head (n : Nat) (rest : List Char) :
    ∃ i < 10, (natural n rest).head? = some (Nat.digitChar i) := by
  cases digits : Nat.toDigits 10 n with
  | nil => exact absurd digits Nat.toDigits_ne_nil
  | cons c more =>
    have member : c ∈ Nat.toDigits 10 n := digits ▸ List.mem_cons_self
    obtain ⟨i, less, rfl⟩ := mem_toDigits (by decide) member
    exact ⟨i, less, by rw [natural, digits]; rfl⟩

theorem digitChar_ne_minus : ∀ i < 10, Nat.digitChar i ≠ '-' := by
  decide

theorem natural_ne_minus (n : Nat) (text : List Char) : natural n rest ≠ '-' :: text := by
  intro same
  obtain ⟨i, less, first⟩ := natural_head n rest
  rw [same, List.head?_cons, Option.some.injEq] at first
  exact digitChar_ne_minus i less first.symm

theorem integer_unique {i j : Int} (ends : Apart rest) (ends' : Apart rest')
    (same : integer i rest = integer j rest') : i = j ∧ rest = rest' := by
  unfold integer at same
  split at same <;> split at same
  · obtain ⟨equal, others⟩ := natural_unique ends ends' (List.cons.inj same).2
    exact ⟨by omega, others⟩
  · exact absurd same.symm (natural_ne_minus j.natAbs _)
  · exact absurd same (natural_ne_minus i.natAbs _)
  · obtain ⟨equal, others⟩ := natural_unique ends ends' same
    exact ⟨by omega, others⟩

theorem hexadecimal_unique
    (same : hexadecimal n ('\x7d' :: rest) = hexadecimal m ('\x7d' :: rest')) :
    n = m ∧ rest = rest' := by
  have digits (k : Nat) : ∀ c ∈ Nat.toDigits 16 k, (c != '\x7d') = true := by
    intro c member
    obtain ⟨i, less, rfl⟩ := mem_toDigits (by decide) member
    exact digitChar_ne_brace i less
  have ends (text : List Char) : ∀ c ∈ ('\x7d' :: text).head?, (c != '\x7d') = false := by
    intro c member
    cases member
    rfl
  obtain ⟨equal, others⟩ := append_unique (digits n) (digits m) (ends rest) (ends rest') same
  exact ⟨toDigits_injective (by decide) (by decide) equal, (List.cons.inj others).2⟩

end Numerals

section Literals

def escaped : Char → Option Char
  | '0' => some '\x00'
  | 't' => some '\t'
  | 'r' => some '\r'
  | 'n' => some '\n'
  | '\\' => some '\\'
  | '\'' => some '\''
  | '"' => some '"'
  | _ => none

/-- The three forms of a character inside a literal. -/
inductive Written (q : Quote) (rest : List Char) (c : Char) : List Char → Prop where
  | letter {l : Char} (stands : escaped l = some c) : Written q rest c ('\\' :: l :: rest)
  | number {digits : List Char} (numeral : hexadecimal c.toNat ('\x7d' :: rest) = digits) :
      Written q rest c ('\\' :: 'u' :: '\x7b' :: digits)
  | plain (bare : c ≠ '\\') (inside : c ≠ q.mark) : Written q rest c (c :: rest)

theorem written (q : Quote) (c : Char) (rest : List Char) :
    Written q rest c (character q c rest) := by
  fun_cases character q c rest with
  | case1 letter short =>
    refine .letter ?_
    unfold shortEscape at short
    split at short <;> cases short <;> rfl
  | case2 short mark => cases q <;> cases mark <;> exact .letter rfl
  | case3 short unmarked invisible => exact .number rfl
  | case4 short unmarked visible =>
    refine .plain ?_ unmarked
    rintro rfl
    cases short

theorem written_unique {q : Quote} {text : List Char} (first : Written q rest c text)
    (second : Written q rest' d text) : c = d ∧ rest = rest' := by
  cases first with
  | letter stands =>
    cases second with
    | letter stands' => exact ⟨Option.some.inj (stands.symm.trans stands'), rfl⟩
    | number => cases stands
    | plain bare => exact absurd rfl bare
  | number numeral =>
    cases second with
    | letter stands => cases stands
    | number numeral' =>
      obtain ⟨same, others⟩ := hexadecimal_unique (numeral.trans numeral'.symm)
      exact ⟨Char.toNat_inj.mp same, others⟩
    | plain bare => exact absurd rfl bare
  | plain bare inside =>
    cases second with
    | letter stands => exact absurd rfl bare
    | number => exact absurd rfl bare
    | plain => exact ⟨rfl, rfl⟩

theorem not_written_mark {q : Quote} (text : List Char) :
    ¬ Written q rest c (q.mark :: text) := by
  intro written
  cases q <;> cases written <;> contradiction

theorem foldr_character_unique {q : Quote} {cs ds : List Char}
    (same : cs.foldr (character q) (q.mark :: rest) = ds.foldr (character q) (q.mark :: rest')) :
    cs = ds ∧ rest = rest' := by
  induction cs generalizing ds with
  | nil =>
    cases ds with
    | nil => exact ⟨rfl, (List.cons.inj same).2⟩
    | cons d ds =>
      have written := written q d (ds.foldr (character q) (q.mark :: rest'))
      rw [List.foldr_nil, List.foldr_cons] at same
      exact absurd (same ▸ written) (not_written_mark rest)
  | cons c cs ih =>
    have first := written q c (cs.foldr (character q) (q.mark :: rest))
    cases ds with
    | nil =>
      rw [List.foldr_nil, List.foldr_cons] at same
      exact absurd (same ▸ first) (not_written_mark rest')
    | cons d ds =>
      have second := written q d (ds.foldr (character q) (q.mark :: rest'))
      rw [List.foldr_cons, List.foldr_cons] at same
      obtain ⟨rfl, more⟩ := written_unique first (same ▸ second)
      obtain ⟨rfl, others⟩ := ih more
      exact ⟨rfl, others⟩

theorem quoted_unique {q : Quote} {cs ds : List Char}
    (same : quoted q cs rest = quoted q ds rest') : cs = ds ∧ rest = rest' :=
  foldr_character_unique (List.cons.inj same).2

end Literals

section Openings

/-- A letter or the underscore. All that is beyond the first 128 characters counts as a letter. -/
def isLetter (c : Char) : Bool :=
  c.isAlpha || c == '_' || 128 ≤ c.toNat

def isWord (c : Char) : Bool :=
  isLetter c || c.isDigit

def isIdentifier (name : String) : Bool :=
  match name.toList with
  | [] => false
  | first :: others => isLetter first && others.all isWord

theorem isWord_of_isIdentifier {name : String} (identifier : isIdentifier name = true) :
    ∀ c ∈ name.toList, isWord c = true := by
  unfold isIdentifier at identifier
  split at identifier
  · cases identifier
  · next first others text =>
    rw [Bool.and_eq_true, List.all_eq_true] at identifier
    intro c member
    rw [text] at member
    rcases List.mem_cons.mp member with rfl | later
    · rw [isWord, identifier.1, Bool.true_or]
    · exact identifier.2 c later

/-- What the first character of a text announces. -/
inductive Opening where
  | word
  | number
  | unit
  | character
  | string
  | sequence
  deriving DecidableEq

def opening? (c : Char) : Option Opening :=
  if isLetter c then some .word
  else if c.isDigit then some .number
  else
    match c with
    | '-' => some .number
    | '(' => some .unit
    | '\'' => some .character
    | '"' => some .string
    | '[' => some .sequence
    | _ => none

def opens (text : List Char) : Option Opening :=
  text.head?.bind opening?

theorem opening?_digitChar : ∀ i < 10, opening? (Nat.digitChar i) = some .number := by
  decide

theorem opens_natural (n : Nat) (rest : List Char) : opens (natural n rest) = some .number := by
  obtain ⟨i, less, first⟩ := natural_head n rest
  rw [opens, first]
  exact opening?_digitChar i less

theorem opens_integer (i : Int) (rest : List Char) : opens (integer i rest) = some .number := by
  unfold integer
  split
  · rfl
  · exact opens_natural i.natAbs rest

theorem opens_identifier {name : String} (identifier : isIdentifier name = true)
    (rest : List Char) : opens (word name rest) = some .word := by
  unfold isIdentifier at identifier
  split at identifier
  · cases identifier
  · next first others text =>
    rw [Bool.and_eq_true] at identifier
    rw [opens, word, text]
    exact if_pos identifier.1

end Openings

def Ends (rest : List Char) : Prop :=
  ∀ c ∈ rest.head?, c = ',' ∨ c = ']'

theorem ends_nil : Ends [] := nofun

theorem not_isWord_of_ends (ends : Ends rest) : ∀ c ∈ rest.head?, isWord c = false := by
  intro c first
  rcases ends c first with rfl | rfl <;> decide

theorem apart_of_ends (ends : Ends rest) : Apart rest := by
  intro c first
  rcases ends c first with rfl | rfl <;> decide

theorem apart_hash (rest : List Char) : ∀ c ∈ ('#' :: rest).head?, isWord c = false := by
  intro c first
  cases first
  decide

end Text

namespace Atom

def opening : Atom → Text.Opening
  | .unit => .unit
  | .bool _ => .word
  | .int _ => .number
  | .char _ => .character
  | .str _ => .string

theorem opens_write (a : Atom) (rest : List Char) :
    Text.opens (a.write rest) = some a.opening := by
  cases a with
  | int i => exact Text.opens_integer i.toInt rest
  | bool b => cases b <;> rfl
  | unit | char | str => rfl

theorem bool_word (b : Bool) :
    ∀ c ∈ (if b then "true" else "false").toList, Text.isWord c = true := by
  apply List.all_eq_true.mp
  cases b <;> decide

theorem write_unique {a b : Atom} {rest rest' : List Char} (ends : Text.Ends rest)
    (ends' : Text.Ends rest') (same : a.write rest = b.write rest') : a = b ∧ rest = rest' := by
  -- Atoms of different kinds begin differently, so each case is left with its own kind.
  have opened : a.opening = b.opening := by
    rw [← Option.some_inj, ← opens_write a rest, same, opens_write]
  cases a with
  | unit =>
    cases b with
    | unit => exact ⟨rfl, (List.cons.inj (List.cons.inj same).2).2⟩
    | bool | int | char | str => cases opened
  | bool x =>
    cases b with
    | bool y =>
      obtain ⟨equal, others⟩ := Text.append_unique (bool_word x) (bool_word y)
        (Text.not_isWord_of_ends ends) (Text.not_isWord_of_ends ends') same
      cases x <;> cases y <;> first | exact ⟨rfl, others⟩ | cases equal
    | unit | int | char | str => cases opened
  | int i =>
    cases b with
    | int j =>
      obtain ⟨equal, others⟩ :=
        Text.integer_unique (Text.apart_of_ends ends) (Text.apart_of_ends ends') same
      exact ⟨congrArg int (Int64.toInt_inj.mp equal), others⟩
    | unit | bool | char | str => cases opened
  | char c =>
    cases b with
    | char d =>
      obtain ⟨equal, others⟩ := Text.quoted_unique same
      exact ⟨congrArg char (List.singleton_inj.mp equal), others⟩
    | unit | bool | int | str => cases opened
  | str x =>
    cases b with
    | str y =>
      obtain ⟨equal, others⟩ := Text.quoted_unique same
      exact ⟨congrArg str (String.toList_inj.mp equal), others⟩
    | unit | bool | int | char => cases opened

end Atom

theorem Var.write_unique {x y : Var} {rest rest' : List Char}
    (named : Text.isIdentifier x.name = true) (named' : Text.isIdentifier y.name = true)
    (ends : Text.Ends rest) (ends' : Text.Ends rest') (same : x.write rest = y.write rest') :
    x = y ∧ rest = rest' := by
  obtain ⟨names, numbers⟩ := Text.append_unique (Text.isWord_of_isIdentifier named)
    (Text.isWord_of_isIdentifier named') (Text.apart_hash _) (Text.apart_hash _) same
  obtain ⟨ids, others⟩ := Text.natural_unique (Text.apart_of_ends ends) (Text.apart_of_ends ends')
    (List.cons.inj numbers).2
  cases x
  cases y
  cases ids
  cases String.toList_inj.mp names
  exact ⟨rfl, others⟩

theorem Var.write_ne_atom {x : Var} {a : Atom} {rest rest' : List Char}
    (named : Text.isIdentifier x.name = true) (ends' : Text.Ends rest') :
    x.write rest ≠ a.write rest' := by
  intro same
  have opened : some Text.Opening.word = some a.opening := by
    rw [← Text.opens_identifier named, ← a.opens_write rest']
    exact congrArg Text.opens same
  cases a with
  | bool b =>
    obtain ⟨-, others⟩ := Text.append_unique (Text.isWord_of_isIdentifier named)
      (Atom.bool_word b) (Text.apart_hash _) (Text.not_isWord_of_ends ends') same
    rcases ends' '#' (by rw [← others]; rfl) with comma | bracket
    · cases comma
    · cases bracket
  | unit | int | char | str => cases opened

namespace Term

/-- Every variable in the term has an identifier for its name. -/
def Named (t : Term) : Prop :=
  ∀ x, .var x ∈ t.nodes → Text.isIdentifier x.name = true

def opening : Term → Text.Opening
  | .var _ => .word
  | .atom a => a.opening
  | .seq _ => .sequence

theorem opens_write {t : Term} (named : t.Named) (rest : List Char) :
    Text.opens (t.write rest) = some t.opening := by
  cases t with
  | var x => exact Text.opens_identifier (named x List.mem_cons_self) _
  | atom a => exact a.opens_write rest
  | seq ts => rfl

theorem named_of_mem {t : Term} {ts : List Term} (named : (Term.seq ts).Named) (member : t ∈ ts) :
    t.Named := by
  intro x inside
  apply named x
  rw [nodes, nodesItems_eq_flatMap]
  exact List.mem_cons_of_mem _ (List.mem_flatMap.mpr ⟨t, member, inside⟩)

theorem ends_writeMore (ts : List Term) (rest : List Char) :
    Text.Ends (writeMore ts (']' :: rest)) := by
  intro c first
  cases ts with
  | nil => cases first; exact .inr rfl
  | cons t ts => cases first; exact .inl rfl

/-- Where a text begins with that of the term, it begins with that of no other one, and what
    follows is the same. -/
def Unique (t : Term) : Prop :=
  ∀ {u : Term} {rest rest' : List Char}, t.Named → u.Named → Text.Ends rest → Text.Ends rest' →
    t.write rest = u.write rest' → t = u ∧ rest = rest'

theorem writeMore_unique {ts us : List Term} {rest rest' : List Char}
    (each : ∀ t ∈ ts, t.Unique) (named : ∀ t ∈ ts, t.Named) (named' : ∀ u ∈ us, u.Named)
    (same : writeMore ts (']' :: rest) = writeMore us (']' :: rest')) : ts = us ∧ rest = rest' := by
  induction ts generalizing us with
  | nil =>
    cases us with
    | nil => exact ⟨rfl, (List.cons.inj same).2⟩
    | cons u us => cases same
  | cons t ts ih =>
    cases us with
    | nil => cases same
    | cons u us =>
      have items := (List.cons.inj (List.cons.inj same).2).2
      obtain ⟨rfl, more⟩ := each t List.mem_cons_self (named t List.mem_cons_self)
        (named' u List.mem_cons_self) (ends_writeMore ts rest) (ends_writeMore us rest') items
      obtain ⟨rfl, others⟩ := ih (fun t member => each t (List.mem_cons_of_mem _ member))
        (fun t member => named t (List.mem_cons_of_mem _ member))
        (fun u member => named' u (List.mem_cons_of_mem _ member)) more
      exact ⟨rfl, others⟩

theorem close_ne_write {t : Term} (named : t.Named) (text rest : List Char) :
    ']' :: text ≠ t.write rest := by
  intro same
  have opened := opens_write named rest
  rw [← same] at opened
  cases opened

theorem writeItems_unique {ts us : List Term} {rest rest' : List Char}
    (each : ∀ t ∈ ts, t.Unique) (named : ∀ t ∈ ts, t.Named) (named' : ∀ u ∈ us, u.Named)
    (same : writeItems ts (']' :: rest) = writeItems us (']' :: rest')) :
    ts = us ∧ rest = rest' := by
  cases ts with
  | nil =>
    cases us with
    | nil => exact ⟨rfl, (List.cons.inj same).2⟩
    | cons u us => exact absurd same (close_ne_write (named' u List.mem_cons_self) _ _)
  | cons t ts =>
    cases us with
    | nil => exact absurd same.symm (close_ne_write (named t List.mem_cons_self) _ _)
    | cons u us =>
      -- With a comma in front the items read like items that follow another one.
      have more : writeMore (t :: ts) (']' :: rest) = writeMore (u :: us) (']' :: rest') :=
        congrArg (fun text => ',' :: ' ' :: text) same
      exact writeMore_unique each named named' more

theorem unique (t : Term) : t.Unique := by
  induction t using items_induction with
  | var x =>
    intro u rest rest' named named' ends ends' same
    cases u with
    | var y =>
      obtain ⟨rfl, others⟩ := Var.write_unique (named x List.mem_cons_self)
        (named' y List.mem_cons_self) ends ends' same
      exact ⟨rfl, others⟩
    | atom a => exact absurd same (Var.write_ne_atom (named x List.mem_cons_self) ends')
    | seq us =>
      have opened := opens_write named rest
      rw [same] at opened
      cases opened
  | atom a =>
    intro u rest rest' named named' ends ends' same
    cases u with
    | var y => exact absurd same.symm (Var.write_ne_atom (named' y List.mem_cons_self) ends)
    | atom b =>
      obtain ⟨rfl, others⟩ := Atom.write_unique ends ends' same
      exact ⟨rfl, others⟩
    | seq us =>
      have opened := opens_write named rest
      rw [same] at opened
      cases a <;> cases opened
  | seq ts ih =>
    intro u rest rest' named named' ends ends' same
    have opened := opens_write named' rest'
    rw [← same] at opened
    cases u with
    | var y => cases opened
    | atom b => cases b <;> cases opened
    | seq us =>
      obtain ⟨rfl, others⟩ := writeItems_unique ih (fun t => named_of_mem named)
        (fun u => named_of_mem named') (List.cons.inj same).2
      exact ⟨rfl, others⟩

/-- Terms with the same text are the same. -/
theorem render_unambiguous {t u : Term} (named : t.Named) (named' : u.Named)
    (same : t.render = u.render) : t = u ∧ (t == u) = true := by
  obtain ⟨rfl, -⟩ := unique t named named' Text.ends_nil Text.ends_nil (String.ofList_inj.mp same)
  exact ⟨rfl, beq_of_value_eq fun _ => rfl⟩

def lookalikes : Term :=
  .seq [.atom (.bool true), .var ⟨7, "true"⟩, .atom (.char ']'), .atom (.str "#7, ")]

theorem lookalikes_unambiguous :
    lookalikes.Named ∧ lookalikes.render = "[true, true#7, ']', \"#7, \"]" ∧
      lookalikes = .seq [.atom (.bool true), .var ⟨7, "true"⟩, .atom (.char ']'),
        .atom (.str "#7, ")] := by
  have named : lookalikes.Named := by
    intro x member
    simp only [lookalikes, nodes, nodesItems, List.mem_cons, List.mem_append, List.not_mem_nil,
      reduceCtorEq, var.injEq, false_or, or_false] at member
    subst member
    decide
  exact ⟨named, by decide +kernel, (render_unambiguous named named rfl).1⟩

end Term

end RelationalSearch

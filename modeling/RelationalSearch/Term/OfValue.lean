import RelationalSearch.Term

/- Conversion of plain values to terms. Integers of every width up to 64 bits become
   the same kind of atom, so a value is compared with a term through its conversion. -/
namespace RelationalSearch

class ToTerm (α : Type) where
  toTerm : α → Term

export ToTerm (toTerm)

instance : ToTerm Term := ⟨id⟩

instance : ToTerm Var := ⟨.var⟩

instance : ToTerm Atom := ⟨.atom⟩

instance : ToTerm (List Term) := ⟨.seq⟩

instance : ToTerm Unit := ⟨fun _ => .unit⟩

instance : ToTerm Bool := ⟨fun b => .atom (.bool b)⟩

instance : ToTerm Char := ⟨fun c => .atom (.char c)⟩

instance : ToTerm String := ⟨fun s => .atom (.str s)⟩

instance : ToTerm Int64 := ⟨fun i => .atom (.int i)⟩

instance : ToTerm Int32 := ⟨fun i => toTerm i.toInt64⟩

instance : ToTerm Int16 := ⟨fun i => toTerm i.toInt64⟩

instance : ToTerm Int8 := ⟨fun i => toTerm i.toInt64⟩

instance : ToTerm UInt32 := ⟨fun n => toTerm (Int64.ofNat n.toNat)⟩

instance : ToTerm UInt16 := ⟨fun n => toTerm (Int64.ofNat n.toNat)⟩

instance : ToTerm UInt8 := ⟨fun n => toTerm (Int64.ofNat n.toNat)⟩

def Term.equals {α : Type} [ToTerm α] (t : Term) (value : α) : Bool :=
  t == toTerm value

end RelationalSearch

import RelationalSearch.Text.Invisible

/-!
Texts. Every writer of this library puts its text in front of a given rest, so long texts stay
linear and two texts can be compared from the left. Besides words and numerals there are quoted
literals, in which a character is escaped if it has a short escape, if it is the mark that closes
the literal, or if it has no visible form of its own.
-/
namespace RelationalSearch.Text

def word (w : String) (rest : List Char) : List Char :=
  w.toList ++ rest

def natural (n : Nat) (rest : List Char) : List Char :=
  Nat.toDigits 10 n ++ rest

def integer (i : Int) (rest : List Char) : List Char :=
  if i < 0 then '-' :: natural i.natAbs rest else natural i.natAbs rest

example : integer (-120) ['x'] = ['-', '1', '2', '0', 'x'] := by decide

/-- Digits above nine are lower-case letters. -/
def hexadecimal (n : Nat) (rest : List Char) : List Char :=
  Nat.toDigits 16 n ++ rest

def joined (separator : String) : List (List Char → List Char) → List Char → List Char
  | [], rest => rest
  | first :: more, rest =>
    first (more.foldr (fun text after => word separator (text after)) rest)

example : joined ", " [word "a", word "b"] [] = ['a', ',', ' ', 'b'] := by decide

inductive Quote where
  | single
  | double
  deriving DecidableEq, Repr

def Quote.mark : Quote → Char
  | .single => '\''
  | .double => '"'

def shortEscape : Char → Option Char
  | '\x00' => some '0'
  | '\t' => some 't'
  | '\r' => some 'r'
  | '\n' => some 'n'
  | '\\' => some '\\'
  | _ => none

def character (q : Quote) (c : Char) (rest : List Char) : List Char :=
  match shortEscape c with
  | some letter => '\\' :: letter :: rest
  | none =>
    if c = q.mark then '\\' :: c :: rest
    else if isInvisible c then
      '\\' :: 'u' :: '\x7b' :: hexadecimal c.toNat ('\x7d' :: rest)
    else c :: rest

def quoted (q : Quote) (content : List Char) (rest : List Char) : List Char :=
  q.mark :: content.foldr (character q) (q.mark :: rest)

end RelationalSearch.Text

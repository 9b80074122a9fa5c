import TermRewriting.Toml.Value

/-! Reading a flat TOML document: lines `key = value`, each with an optional comment. -/

namespace TermRewriting.Toml

def isSpace (c : Char) : Bool := c == ' ' || c == '\t'

def isText (c : Char) : Bool := c == '\t' || (' ' ≤ c && c != '\x7f')

def isKeyChar (c : Char) : Bool := c.isAlphanum || c == '_' || c == '-'

def isWordChar (c : Char) : Bool := isKeyChar c || c == '+' || c == '.'

def skipSpace (cs : List Char) : List Char := cs.dropWhile isSpace

def isLineEnd : List Char → Bool
  | [] => true
  | c :: cs => c == '#' && cs.all isText

def validChar? (code : Nat) : Option Char :=
  if code.isValidChar then some (Char.ofNat code) else none

def escape? : List Char → Option (Char × List Char)
  | '"' :: cs => some ('"', cs)
  | '\\' :: cs => some ('\\', cs)
  | 'b' :: cs => some ('\x08', cs)
  | 't' :: cs => some ('\t', cs)
  | 'n' :: cs => some ('\n', cs)
  | 'f' :: cs => some ('\x0c', cs)
  | 'r' :: cs => some ('\r', cs)
  | 'u' :: a :: b :: c :: d :: cs =>
    ((Text.numeral? 16 [a, b, c, d]).bind validChar?).map (·, cs)
  | 'U' :: a :: b :: c :: d :: e :: f :: g :: h :: cs =>
    ((Text.numeral? 16 [a, b, c, d, e, f, g, h]).bind validChar?).map (·, cs)
  | _ => none

/-- What stands before the closing quote, and what follows it. At most `fuel` characters are read. -/
def quoted? (fuel : Nat) (cs : List Char) : Option (List Char × List Char) :=
  match fuel, cs with
  | _, '"' :: cs => some ([], cs)
  | fuel + 1, '\\' :: cs =>
    (escape? cs).bind fun (c, cs) => (quoted? fuel cs).map fun (text, cs) => (c :: text, cs)
  | fuel + 1, c :: cs =>
    if isText c then (quoted? fuel cs).map fun (text, cs) => (c :: text, cs) else none
  | _, _ => none

/-- Between single quotes everything stands for itself. -/
def verbatim? (cs : List Char) : Option (List Char × List Char) :=
  let text := cs.takeWhile fun c => isText c && c != '\''
  match cs.drop text.length with
  | '\'' :: cs => some (text, cs)
  | _ => none

def key? : List Char → Option (String × List Char)
  | '"' :: cs => (quoted? cs.length cs).map fun (text, cs) => (String.ofList text, cs)
  | '\'' :: cs => (verbatim? cs).map fun (text, cs) => (String.ofList text, cs)
  | cs =>
    let name := cs.takeWhile isKeyChar
    if name.isEmpty then none else some (String.ofList name, cs.dropWhile isKeyChar)

mutual

def value? (fuel : Nat) : List Char → Option (Value × List Char)
  | '"' :: cs => (quoted? cs.length cs).map fun (text, cs) => (.string (String.ofList text), cs)
  | '\'' :: cs => (verbatim? cs).map fun (text, cs) => (.string (String.ofList text), cs)
  | '[' :: cs =>
    match fuel with
    | 0 => none
    | fuel + 1 => (items? fuel cs).map (.array, ·)
  | cs => (word? (cs.takeWhile isWordChar)).map (·, cs.dropWhile isWordChar)

def items? (fuel : Nat) (cs : List Char) : Option (List Char) :=
  match skipSpace cs with
  | ']' :: cs => some cs
  | cs =>
    match fuel with
    | 0 => none
    | fuel + 1 =>
      (value? fuel cs).bind fun (_, cs) =>
        match skipSpace cs with
        | ']' :: cs => some cs
        | ',' :: cs => items? fuel cs
        | _ => none

end

/-- The entry on a line, if it holds one; `none` if the line is malformed. -/
def line? (cs : List Char) : Option (Option (String × Value)) :=
  let cs := skipSpace cs
  if isLineEnd cs then some none
  else
    (key? cs).bind fun (key, cs) =>
      match skipSpace cs with
      | '=' :: cs =>
        (value? cs.length (skipSpace cs)).bind fun (value, cs) =>
          if isLineEnd (skipSpace cs) then some (some (key, value)) else none
      | _ => none

def lines (text : String) : List (List Char) :=
  (text.toList.splitOn '\n').map fun line =>
    if line.getLast? == some '\r' then line.dropLast else line

/-- The entries of a document in order, no key twice. -/
def document? (text : String) : Option (List (String × Value)) :=
  ((lines text).mapM line?).bind fun found =>
    let entries := found.filterMap id
    if (entries.map Prod.fst).Nodup then some entries else none

end TermRewriting.Toml

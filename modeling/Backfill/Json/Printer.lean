import Backfill.Json.Tree

/-! Writing JSON: compact, on one line without blanks, and pretty, with one item or member a line
and two blanks for each level. -/
namespace Backfill.Json

def hexDigit (n : Nat) : Char := Nat.digitChar n

/-- One character of a string literal. Quote, backslash and control characters are escaped. -/
def escapeChar (c : Char) : List Char :=
  if c = '"' then ['\\', '"']
  else if c = '\\' then ['\\', '\\']
  else if c = '\x08' then ['\\', 'b']
  else if c = '\t' then ['\\', 't']
  else if c = '\n' then ['\\', 'n']
  else if c = '\x0c' then ['\\', 'f']
  else if c = '\r' then ['\\', 'r']
  else if c.toNat < 0x20 then
    ['\\', 'u', '0', '0', hexDigit (c.toNat / 16), hexDigit (c.toNat % 16)]
  else [c]

def literal (s : String) : List Char := '"' :: s.toList.flatMap escapeChar ++ ['"']

def truth : Bool → List Char
  | true => ['t', 'r', 'u', 'e']
  | false => ['f', 'a', 'l', 's', 'e']

def nullChars : List Char := ['n', 'u', 'l', 'l']

mutual
def compact : Json → List Char
  | .null => nullChars
  | .bool b => truth b
  | .number n => n.chars
  | .text s => literal s
  | .array items => '[' :: compactItems items ++ [']']
  | .object members => '{' :: compactMembers members ++ ['}']
def compactItems : List Json → List Char
  | [] => []
  | [j] => compact j
  | j :: k :: js => compact j ++ ',' :: compactItems (k :: js)
def compactMembers : List (String × Json) → List Char
  | [] => []
  | [(name, j)] => literal name ++ ':' :: compact j
  | (name, j) :: m :: ms => literal name ++ ':' :: compact j ++ ',' :: compactMembers (m :: ms)
end

def newLine (level : Nat) : List Char := '\n' :: List.replicate (2 * level) ' '

mutual
/-- A value whose first line starts at `level`; each item and member has a line of its own. -/
def pretty (level : Nat) : Json → List Char
  | .null => nullChars
  | .bool b => truth b
  | .number n => n.chars
  | .text s => literal s
  | .array [] => ['[', ']']
  | .array (j :: js) => '[' :: prettyItems (level + 1) (j :: js) ++ newLine level ++ [']']
  | .object [] => ['{', '}']
  | .object (m :: ms) => '{' :: prettyMembers (level + 1) (m :: ms) ++ newLine level ++ ['}']
/-- Items with commas between them, each on a line of its own. -/
def prettyItems (level : Nat) : List Json → List Char
  | [] => []
  | [j] => newLine level ++ pretty level j
  | j :: k :: js => newLine level ++ pretty level j ++ ',' :: prettyItems level (k :: js)
def prettyMembers (level : Nat) : List (String × Json) → List Char
  | [] => []
  | [(name, j)] => newLine level ++ literal name ++ ':' :: ' ' :: pretty level j
  | (name, j) :: m :: ms =>
    newLine level ++ literal name ++ ':' :: ' ' :: pretty level j
      ++ ',' :: prettyMembers level (m :: ms)
end

def print (j : Json) : String := String.ofList (compact j)

def printPretty (j : Json) : String := String.ofList (pretty 0 j)

end Backfill.Json

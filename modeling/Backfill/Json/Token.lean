import Backfill.Json.Tree

/-! The tokens of a JSON text, found by a scanner that takes one character at a time. -/
namespace Backfill.Json

inductive Token where
  | openArray
  | closeArray
  | openObject
  | closeObject
  | comma
  | colon
  | null
  | bool (b : Bool)
  | number (n : Option Number)
  | text (t : Option String)

/-- The white space that JSON allows between tokens. -/
def isGap (c : Char) : Bool := c = ' ' || c = '\t' || c = '\n' || c = '\r'

def punctuation? (c : Char) : Option Token :=
  if c = '[' then some .openArray
  else if c = ']' then some .closeArray
  else if c = '{' then some .openObject
  else if c = '}' then some .closeObject
  else if c = ',' then some .comma
  else if c = ':' then some .colon
  else none

/-- What a place in a string literal stands for: a character, or one half of a surrogate pair. -/
inductive Piece where
  | char (c : Char)
  | half (unit : Nat)

def Piece.ofUnit (unit : Nat) : Piece :=
  if 0xD800 ≤ unit ∧ unit ≤ 0xDFFF then .half unit else .char (Char.ofNat unit)

/-- The text of a string literal: a high half joins the low half right after it, and a half that
stays alone makes the literal denote no text. -/
def joinPieces : List Piece → Option (List Char)
  | [] => some []
  | .char c :: ps => (joinPieces ps).map (c :: ·)
  | .half high :: .half low :: ps =>
    if high < 0xDC00 ∧ 0xDC00 ≤ low then
      (joinPieces ps).map (Char.ofNat (0x10000 + (high - 0xD800) * 0x400 + (low - 0xDC00)) :: ·)
    else none
  | .half _ :: _ => none

def hexValue? (c : Char) : Option Nat :=
  if '0' ≤ c ∧ c ≤ '9' then some (c.toNat - '0'.toNat)
  else if 'a' ≤ c ∧ c ≤ 'f' then some (c.toNat - 'a'.toNat + 10)
  else if 'A' ≤ c ∧ c ≤ 'F' then some (c.toNat - 'A'.toNat + 10)
  else none

def escaped? (c : Char) : Option Char :=
  if c = '"' then some '"'
  else if c = '\\' then some '\\'
  else if c = '/' then some '/'
  else if c = 'b' then some '\x08'
  else if c = 'f' then some '\x0c'
  else if c = 'n' then some '\n'
  else if c = 'r' then some '\r'
  else if c = 't' then some '\t'
  else none

/-- The digits at the start of a text and the rest. -/
def spanDigits (cs : List Char) : List Char × List Char :=
  (cs.takeWhile Char.isDigit, cs.dropWhile Char.isDigit)

/-- Reads the exponent of a number literal up to its end; there may be none. -/
def exponent? : List Char → Option (Option Int)
  | [] => some none
  | e :: cs =>
    if e = 'e' ∨ e = 'E' then
      let (sign, ds) : Int × List Char := match cs with
        | '-' :: ds => (-1, ds)
        | '+' :: ds => (1, ds)
        | ds => (1, ds)
      if ds ≠ [] ∧ ds.all Char.isDigit then some (some (sign * Nat.ofDigitChars 10 ds 0)) else none
    else none

/-- Reads a number literal after its sign: digits without a needless zero at the front, then
perhaps a point with digits after it, then perhaps an exponent. -/
def unsigned? (negative : Bool) (cs : List Char) : Option Literal :=
  let (whole, rest) := spanDigits cs
  if whole = [] ∨ (whole.head? = some '0' ∧ whole ≠ ['0']) then none
  else match rest with
    | '.' :: rest =>
      let (fraction, rest) := spanDigits rest
      if fraction = [] then none
      else (exponent? rest).map fun e => ⟨negative, whole, fraction, e⟩
    | rest => (exponent? rest).map fun e => ⟨negative, whole, [], e⟩

def literal? : List Char → Option Literal
  | '-' :: cs => unsigned? true cs
  | cs => unsigned? false cs

/-- The token of a run of characters between gaps, punctuation and string literals. -/
def word? (cs : List Char) : Option Token :=
  if cs = ['n', 'u', 'l', 'l'] then some .null
  else if cs = ['t', 'r', 'u', 'e'] then some (.bool true)
  else if cs = ['f', 'a', 'l', 's', 'e'] then some (.bool false)
  else (literal? cs).map fun l => .number l.number?

/-- Where a scanner stands: between tokens, in a word, or at a place of a string literal. What has
been read of a token is kept last character first. -/
inductive Place where
  | between
  | word (done : List Char)
  | text (done : List Piece)
  | escape (done : List Piece)
  | unit (done : List Piece) (value digits : Nat)

/-- A scanner: the tokens found, last one first, and where it stands. -/
structure Scanner where
  tokens : List Token
  place : Place

namespace Scanner

def start : Scanner := ⟨[], .between⟩

def found (s : Scanner) (t : Token) : Scanner := ⟨t :: s.tokens, .between⟩

/-- Ends the word that the scanner stands in; string literals have to end by themselves. -/
def settle (s : Scanner) : Option Scanner :=
  match s.place with
  | .between => some s
  | .word done => (word? done.reverse).map s.found
  | _ => none

def begin (s : Scanner) (c : Char) : Scanner :=
  if isGap c then s
  else match punctuation? c with
    | some t => s.found t
    | none => ⟨s.tokens, if c = '"' then .text [] else .word [c]⟩

def endsWord (c : Char) : Bool := isGap c || (punctuation? c).isSome || c = '"'

def feed (s : Scanner) (c : Char) : Option Scanner :=
  match s.place with
  | .between => some (s.begin c)
  | .word done =>
    if endsWord c then s.settle.map fun s => s.begin c
    else some ⟨s.tokens, .word (c :: done)⟩
  | .text done =>
    if c = '"' then some (s.found (.text ((joinPieces done.reverse).map String.ofList)))
    else if c = '\\' then some ⟨s.tokens, .escape done⟩
    else if c.toNat < 0x20 then none
    else some ⟨s.tokens, .text (.char c :: done)⟩
  | .escape done =>
    if c = 'u' then some ⟨s.tokens, .unit done 0 0⟩
    else (escaped? c).map fun d => ⟨s.tokens, .text (.char d :: done)⟩
  | .unit done value digits =>
    (hexValue? c).map fun d =>
      if digits = 3 then ⟨s.tokens, .text (.ofUnit (value * 16 + d) :: done)⟩
      else ⟨s.tokens, .unit done (value * 16 + d) (digits + 1)⟩

end Scanner

def tokens? (cs : List Char) : Option (List Token) := do
  let s ← cs.foldlM Scanner.feed Scanner.start
  let s ← s.settle
  some s.tokens.reverse

end Backfill.Json

import Backfill.Json.Token

/-! Reading JSON texts: a parser that takes one token at a time and keeps the arrays and objects
that are still open on a stack. -/
namespace Backfill.Json

/-- An open array or object whose next value is being read; what it holds is kept last first. -/
inductive Frame where
  | array (done : List Reading)
  | object (done : List (Option String × Reading)) (name : Option String)

/-- What a parser waits for. -/
inductive Phase where
  /-- A value. -/
  | value
  /-- The first item of an array, or its end. -/
  | item
  /-- The first member of an object, or its end. -/
  | member
  /-- The name of a further member. -/
  | name (done : List (Option String × Reading))
  /-- The colon after a member's name. -/
  | colon (done : List (Option String × Reading)) (name : Option String)
  /-- What follows a complete value. -/
  | after (r : Reading)

/-- A parser: the open arrays and objects, innermost first, and what it waits for. -/
structure Parser where
  frames : List Frame
  phase : Phase

namespace Parser

def start : Parser := ⟨[], .value⟩

def beginValue (frames : List Frame) : Token → Option Parser
  | .null => some ⟨frames, .after .null⟩
  | .bool b => some ⟨frames, .after (.bool b)⟩
  | .number n => some ⟨frames, .after (.number n)⟩
  | .text t => some ⟨frames, .after (.text t)⟩
  | .openArray => some ⟨frames, .item⟩
  | .openObject => some ⟨frames, .member⟩
  | _ => none

def continueAfter (r : Reading) : List Frame → Token → Option Parser
  | .array done :: frames, .comma => some ⟨.array (r :: done) :: frames, .value⟩
  | .array done :: frames, .closeArray => some ⟨frames, .after (.array (r :: done).reverse)⟩
  | .object done name :: frames, .comma => some ⟨frames, .name ((name, r) :: done)⟩
  | .object done name :: frames, .closeObject =>
    some ⟨frames, .after (.object ((name, r) :: done).reverse)⟩
  | _, _ => none

def feed (p : Parser) (t : Token) : Option Parser :=
  match p.phase, t with
  | .value, t => beginValue p.frames t
  | .item, .closeArray => some ⟨p.frames, .after (.array [])⟩
  | .item, t => beginValue (.array [] :: p.frames) t
  | .member, .closeObject => some ⟨p.frames, .after (.object [])⟩
  | .member, .text name => some ⟨p.frames, .colon [] name⟩
  | .name done, .text name => some ⟨p.frames, .colon done name⟩
  | .colon done name, .colon => some ⟨.object done name :: p.frames, .value⟩
  | .after r, t => continueAfter r p.frames t
  | _, _ => none

def result? : Parser → Option Reading
  | ⟨[], .after r⟩ => some r
  | _ => none

end Parser

def parseTokens (ts : List Token) : Option Reading := do
  let p ← ts.foldlM Parser.feed Parser.start
  p.result?

/-- The document that a text holds, with nothing but white space around it. -/
def read (s : String) : Option Reading := (tokens? s.toList).bind parseTokens

end Backfill.Json

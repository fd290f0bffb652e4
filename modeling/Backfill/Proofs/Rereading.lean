import Backfill.Json.Printer
import Backfill.Json.Reader
import Mathlib.Data.List.TakeWhile

/-! A document that is written on one line is read as what it was, provided that its numbers are.
Scanning what was written gives the tokens of the document, and parsing these gives its reading. -/
namespace Backfill.Json

mutual
def reading : Json → Reading
  | .null => .null
  | .bool b => .bool b
  | .number n => .number (some n)
  | .text t => .text (some t)
  | .array items => .array (readings items)
  | .object members => .object (memberReadings members)
def readings : List Json → List Reading
  | [] => []
  | j :: js => reading j :: readings js
def memberReadings : List (String × Json) → List (Option String × Reading)
  | [] => []
  | (name, j) :: ms => (some name, reading j) :: memberReadings ms
end

theorem readings_eq_map (js : List Json) : readings js = js.map reading := by
  induction js with
  | nil => rfl
  | cons j js ih => rw [readings, ih, List.map_cons]

mutual
def tokensOf : Json → List Token
  | .null => [.null]
  | .bool b => [.bool b]
  | .number n => [.number (some n)]
  | .text t => [.text (some t)]
  | .array items => .openArray :: itemTokens items ++ [.closeArray]
  | .object members => .openObject :: memberTokens members ++ [.closeObject]
def itemTokens : List Json → List Token
  | [] => []
  | [j] => tokensOf j
  | j :: k :: js => tokensOf j ++ .comma :: itemTokens (k :: js)
def memberTokens : List (String × Json) → List Token
  | [] => []
  | [(name, j)] => .text (some name) :: .colon :: tokensOf j
  | (name, j) :: m :: ms =>
    .text (some name) :: .colon :: tokensOf j ++ .comma :: memberTokens (m :: ms)
end

structure IsWord (cs : List Char) (t : Token) : Prop where
  ne_nil : cs ≠ []
  plain : ∀ c ∈ cs, Scanner.endsWord c = false
  denotes : word? cs = some t

mutual
def Rereads : Json → Prop
  | .number n => IsWord n.chars (.number (some n))
  | .array items => ItemsReread items
  | .object members => MembersReread members
  | _ => True
def ItemsReread : List Json → Prop
  | [] => True
  | j :: js => Rereads j ∧ ItemsReread js
def MembersReread : List (String × Json) → Prop
  | [] => True
  | (_, j) :: ms => Rereads j ∧ MembersReread ms
end

theorem itemsReread_iff {js : List Json} : ItemsReread js ↔ ∀ j ∈ js, Rereads j := by
  induction js with
  | nil => simp [ItemsReread]
  | cons j js ih => simp [ItemsReread, ih]

theorem membersReread_iff {ms : List (String × Json)} :
    MembersReread ms ↔ ∀ m ∈ ms, Rereads m.2 := by
  induction ms with
  | nil => simp [MembersReread]
  | cons m ms ih => simp [MembersReread, ih]

/-! ### Scanning -/

namespace Scanner
variable {ts : List Token} {cs rest : List Char} {c : Char} {t : Token}

def run (s : Scanner) (cs : List Char) : Option Scanner := (cs.foldlM feed s).bind settle

theorem run_cons (s : Scanner) (c : Char) (cs : List Char) :
    s.run (c :: cs) = (s.feed c).bind fun s => s.run cs := by
  rw [run, List.foldlM_cons]
  cases s.feed c <;> rfl

/-- Whether a word ends before a text. -/
def EndsBefore (cs : List Char) : Prop := ∀ c, cs.head? = some c → endsWord c = true

theorem run_punctuation (h : punctuation? c = some t) :
    run ⟨ts, .between⟩ (c :: rest) = run ⟨t :: ts, .between⟩ rest := by
  have hgap : isGap c = false := by
    refine Bool.eq_false_iff.2 fun hgap => ?_
    simp only [isGap, Bool.or_eq_true, decide_eq_true_eq] at hgap
    rcases hgap with ((rfl | rfl) | rfl) | rfl <;> simp [punctuation?] at h
  rw [run_cons, feed]
  simp [begin, hgap, h, found]

private theorem run_in_word {done : List Char} (hplain : ∀ c ∈ cs, endsWord c = false)
    (hword : word? (done.reverse ++ cs) = some t) (hrest : EndsBefore rest) :
    run ⟨ts, .word done⟩ (cs ++ rest) = run ⟨t :: ts, .between⟩ rest := by
  induction cs generalizing done with
  | nil =>
    rw [List.append_nil] at hword
    have hsettle : settle ⟨ts, .word done⟩ = some ⟨t :: ts, .between⟩ := by
      simp [settle, hword, found]
    cases rest with
    | nil => exact hsettle
    | cons c rest =>
      rw [List.nil_append, run_cons, run_cons]
      simp only [feed, hrest c rfl, if_true, hsettle]
      rfl
  | cons c cs ih =>
    have hc := hplain c List.mem_cons_self
    rw [List.cons_append, run_cons]
    simp only [feed, hc, Bool.false_eq_true, if_false, Option.bind_some]
    refine ih (fun d hd => hplain d (List.mem_cons_of_mem _ hd)) ?_
    simpa using hword

theorem run_word (h : IsWord cs t) (hrest : EndsBefore rest) :
    run ⟨ts, .between⟩ (cs ++ rest) = run ⟨t :: ts, .between⟩ rest := by
  obtain ⟨hne, hplain, hdenotes⟩ := h
  cases cs with
  | nil => exact absurd rfl hne
  | cons c cs =>
    have hc := hplain c List.mem_cons_self
    simp only [endsWord, Bool.or_eq_false_iff, decide_eq_false_iff_not] at hc
    obtain ⟨⟨hgap, hpunct⟩, hquote⟩ := hc
    rw [List.cons_append, run_cons]
    simp only [feed, begin, hgap, Bool.false_eq_true, if_false, Option.bind_some,
      Option.isSome_eq_false_iff, Option.isNone_iff_eq_none] at hpunct ⊢
    simp only [hpunct, hquote, if_false]
    exact run_in_word (fun d hd => hplain d (List.mem_cons_of_mem _ hd)) hdenotes hrest

private theorem hexValue?_hexDigit {d : Nat} (h : d < 16) : hexValue? (hexDigit d) = some d := by
  have hall : ∀ d < 16, hexValue? (hexDigit d) = some d := by decide
  exact hall d h

private theorem run_numbered {done : List Piece} (h : c.toNat < 0x20) :
    run ⟨ts, .escape done⟩
      ('u' :: '0' :: '0' :: hexDigit (c.toNat / 16) :: hexDigit (c.toNat % 16) :: rest) =
        run ⟨ts, .text (.char c :: done)⟩ rest := by
  have hhigh : hexValue? (hexDigit (c.toNat / 16)) = some (c.toNat / 16) :=
    hexValue?_hexDigit (by omega)
  have hlow : hexValue? (hexDigit (c.toNat % 16)) = some (c.toNat % 16) :=
    hexValue?_hexDigit (by omega)
  have hzero : hexValue? '0' = some 0 := rfl
  have hunit : Piece.ofUnit (c.toNat / 16 * 16 + c.toNat % 16) = .char c := by
    have hsum : c.toNat / 16 * 16 + c.toNat % 16 = c.toNat := by omega
    rw [hsum, Piece.ofUnit, if_neg (by omega), Char.ofNat_toNat]
  simp [run_cons, feed, hhigh, hlow, hzero, hunit]

/-- A character of a string literal is found again. -/
private theorem run_escapeChar {done : List Piece} (c : Char) :
    run ⟨ts, .text done⟩ (escapeChar c ++ rest) = run ⟨ts, .text (.char c :: done)⟩ rest := by
  have hescape (cs : List Char) :
      run ⟨ts, .text done⟩ ('\\' :: cs) = run ⟨ts, .escape done⟩ cs := by
    rw [run_cons]
    rfl
  have hnamed (e : Char) (hu : e ≠ 'u') (he : escaped? e = some c) :
      run ⟨ts, .text done⟩ ('\\' :: e :: rest) = run ⟨ts, .text (.char c :: done)⟩ rest := by
    rw [hescape, run_cons]
    simp [feed, hu, he]
  unfold escapeChar
  split
  next h => exact hnamed '"' (by decide) (by simp [escaped?, h])
  split
  next h => exact hnamed '\\' (by decide) (by simp [escaped?, h])
  split
  next h => exact hnamed 'b' (by decide) (by simp [escaped?, h])
  split
  next h => exact hnamed 't' (by decide) (by simp [escaped?, h])
  split
  next h => exact hnamed 'n' (by decide) (by simp [escaped?, h])
  split
  next h => exact hnamed 'f' (by decide) (by simp [escaped?, h])
  split
  next h => exact hnamed 'r' (by decide) (by simp [escaped?, h])
  split
  next h => exact (hescape _).trans (run_numbered h)
  next hquote hslash _ _ _ _ _ hcontrol =>
    rw [List.singleton_append, run_cons]
    simp [feed, hquote, hslash, hcontrol]

private theorem joinPieces_char (cs : List Char) : joinPieces (cs.map .char) = some cs := by
  induction cs with
  | nil => rfl
  | cons c cs ih => simp [joinPieces, ih]

private theorem run_in_text {done : List Char} :
    run ⟨ts, .text (done.reverse.map .char)⟩ (cs.flatMap escapeChar ++ '"' :: rest) =
      run ⟨.text (some (String.ofList (done ++ cs))) :: ts, .between⟩ rest := by
  induction cs generalizing done with
  | nil =>
    rw [List.flatMap_nil, List.nil_append, run_cons]
    simp [feed, found, ← List.map_reverse, joinPieces_char]
  | cons c cs ih =>
    have hmore : run ⟨ts, .text ((done ++ [c]).reverse.map .char)⟩
        (cs.flatMap escapeChar ++ '"' :: rest) =
          run ⟨.text (some (String.ofList (done ++ [c] ++ cs))) :: ts, .between⟩ rest := ih
    rw [List.flatMap_cons, List.append_assoc, run_escapeChar]
    simpa using hmore

theorem run_literal (s : String) :
    run ⟨ts, .between⟩ (literal s ++ rest) = run ⟨.text (some s) :: ts, .between⟩ rest := by
  have hopen : feed ⟨ts, .between⟩ '"' = some ⟨ts, .text []⟩ := rfl
  have hin : run ⟨ts, .text ([].reverse.map .char)⟩ (s.toList.flatMap escapeChar ++ '"' :: rest) =
      run ⟨.text (some (String.ofList ([] ++ s.toList))) :: ts, .between⟩ rest := run_in_text
  rw [literal, List.cons_append, List.cons_append, run_cons, hopen]
  simpa using hin

end Scanner

open Scanner

theorem endsBefore_of_punctuation {c : Char} {cs : List Char} {t : Token}
    (h : punctuation? c = some t) : EndsBefore (c :: cs) := by
  rintro d ⟨⟩
  simp [endsWord, h]

/-- Whether a word is plain can be computed. -/
private theorem plain_of_all {cs : List Char} (h : cs.all (fun c => !endsWord c) = true) :
    ∀ c ∈ cs, endsWord c = false := by
  simpa using h

theorem isWord_null : IsWord nullChars .null := ⟨by decide, plain_of_all rfl, rfl⟩

theorem isWord_truth (b : Bool) : IsWord (truth b) (.bool b) := by
  cases b <;> exact ⟨by decide, plain_of_all rfl, rfl⟩

mutual
/-- Scanning a document finds its tokens. -/
theorem run_compact {j : Json} (hj : Rereads j) {ts : List Token} {rest : List Char}
    (hrest : EndsBefore rest) : Scanner.run ⟨ts, .between⟩ (compact j ++ rest) =
      Scanner.run ⟨(tokensOf j).reverse ++ ts, .between⟩ rest := by
  cases j with
  | null => exact run_word isWord_null hrest
  | bool b => exact run_word (isWord_truth b) hrest
  | number n =>
    rw [Rereads] at hj
    exact run_word hj hrest
  | text t => exact run_literal t
  | array items =>
    rw [Rereads] at hj
    have hclose : EndsBefore (']' :: rest) := endsBefore_of_punctuation (t := .closeArray) rfl
    rw [compact, List.append_assoc, List.cons_append, run_punctuation (t := .openArray) rfl,
      List.singleton_append, run_compactItems hj hclose, run_punctuation (t := .closeArray) rfl]
    simp [tokensOf]
  | object members =>
    rw [Rereads] at hj
    have hclose : EndsBefore ('}' :: rest) := endsBefore_of_punctuation (t := .closeObject) rfl
    rw [compact, List.append_assoc, List.cons_append, run_punctuation (t := .openObject) rfl,
      List.singleton_append, run_compactMembers hj hclose, run_punctuation (t := .closeObject) rfl]
    simp [tokensOf]
theorem run_compactItems {js : List Json} (hjs : ItemsReread js) {ts : List Token}
    {rest : List Char} (hrest : EndsBefore rest) :
    Scanner.run ⟨ts, .between⟩ (compactItems js ++ rest) =
      Scanner.run ⟨(itemTokens js).reverse ++ ts, .between⟩ rest := by
  match js with
  | [] => rfl
  | [j] =>
    rw [ItemsReread] at hjs
    exact run_compact hjs.1 hrest
  | j :: k :: js =>
    rw [ItemsReread] at hjs
    have hcomma {cs : List Char} : EndsBefore (',' :: cs) :=
      endsBefore_of_punctuation (t := .comma) rfl
    rw [compactItems, List.append_assoc, List.cons_append, run_compact hjs.1 hcomma,
      run_punctuation (t := .comma) rfl, run_compactItems hjs.2 hrest]
    simp [itemTokens]
theorem run_compactMembers {ms : List (String × Json)} (hms : MembersReread ms) {ts : List Token}
    {rest : List Char} (hrest : EndsBefore rest) :
    Scanner.run ⟨ts, .between⟩ (compactMembers ms ++ rest) =
      Scanner.run ⟨(memberTokens ms).reverse ++ ts, .between⟩ rest := by
  match ms with
  | [] => rfl
  | [(name, j)] =>
    rw [MembersReread] at hms
    rw [compactMembers, List.append_assoc, List.cons_append, run_literal,
      run_punctuation (t := .colon) rfl, run_compact hms.1 hrest]
    simp [memberTokens]
  | (name, j) :: m :: ms =>
    rw [MembersReread] at hms
    have hcomma {cs : List Char} : EndsBefore (',' :: cs) :=
      endsBefore_of_punctuation (t := .comma) rfl
    rw [compactMembers]
    simp only [List.append_assoc, List.cons_append]
    rw [run_literal, run_punctuation (t := .colon) rfl, run_compact hms.1 hcomma,
      run_punctuation (t := .comma) rfl, run_compactMembers hms.2 hrest]
    simp [memberTokens]
end

theorem tokens?_eq_run (cs : List Char) :
    tokens? cs = (Scanner.run Scanner.start cs).map fun s => s.tokens.reverse := by
  rw [tokens?, Scanner.run]
  cases cs.foldlM Scanner.feed Scanner.start with
  | none => rfl
  | some s => cases hs : s.settle <;> simp [hs]

theorem tokens?_compact {j : Json} (hj : Rereads j) : tokens? (compact j) = some (tokensOf j) := by
  have hend : EndsBefore [] := nofun
  have hrun : Scanner.run Scanner.start (compact j ++ []) = _ := run_compact hj hend
  rw [List.append_nil, List.append_nil] at hrun
  rw [tokens?_eq_run, hrun]
  simp [Scanner.run, Scanner.settle]

/-! ### Parsing -/

/-- No document begins with the end of an array. -/
private theorem exists_tokensOf_eq_cons (j : Json) :
    ∃ t ts, tokensOf j = t :: ts ∧ t ≠ .closeArray := by
  cases j <;> exact ⟨_, _, rfl, nofun⟩

/-- The first item of an array is parsed like the others. -/
private theorem parse_firstItem {js : List Json} (hne : js ≠ []) (frames : List Frame)
    (rest : List Token) : (itemTokens js ++ rest).foldlM Parser.feed ⟨frames, .item⟩ =
      (itemTokens js ++ rest).foldlM Parser.feed ⟨.array [] :: frames, .value⟩ := by
  obtain ⟨t, ts, ht, hclose⟩ : ∃ t ts, itemTokens js = t :: ts ∧ t ≠ .closeArray := by
    obtain ⟨j, js, rfl⟩ := List.exists_cons_of_ne_nil hne
    obtain ⟨t, ts, ht, hclose⟩ := exists_tokensOf_eq_cons j
    cases js with
    | nil => exact ⟨t, ts, ht, hclose⟩
    | cons k js => exact ⟨t, _, by rw [itemTokens, ht, List.cons_append], hclose⟩
  have hfeed : Parser.feed ⟨frames, .item⟩ t = Parser.feed ⟨.array [] :: frames, .value⟩ t := by
    cases t with
    | closeArray => exact absurd rfl hclose
    | _ => rfl
  rw [ht, List.cons_append, List.foldlM_cons, List.foldlM_cons, hfeed]

private theorem parse_firstMember {ms : List (String × Json)} (hne : ms ≠ []) (frames : List Frame)
    (rest : List Token) : (memberTokens ms ++ rest).foldlM Parser.feed ⟨frames, .member⟩ =
      (memberTokens ms ++ rest).foldlM Parser.feed ⟨frames, .name []⟩ := by
  obtain ⟨⟨name, j⟩, ms, rfl⟩ := List.exists_cons_of_ne_nil hne
  cases ms <;> rfl

mutual
/-- Parsing the tokens of a document gives its reading. -/
theorem parse_tokensOf (j : Json) (frames : List Frame) (rest : List Token) :
    (tokensOf j ++ rest).foldlM Parser.feed ⟨frames, .value⟩ =
      rest.foldlM Parser.feed ⟨frames, .after (reading j)⟩ := by
  match j with
  | .null | .bool b | .number n | .text t => rfl
  | .array items =>
    have hopen : Parser.feed ⟨frames, .value⟩ .openArray = some ⟨frames, .item⟩ := rfl
    rw [tokensOf, List.append_assoc, List.cons_append, List.foldlM_cons, hopen,
      List.singleton_append, reading]
    by_cases hne : items = []
    · rw [hne]
      rfl
    · exact (parse_firstItem hne frames _).trans (parse_itemTokens items hne [] frames rest)
  | .object members =>
    have hopen : Parser.feed ⟨frames, .value⟩ .openObject = some ⟨frames, .member⟩ := rfl
    rw [tokensOf, List.append_assoc, List.cons_append, List.foldlM_cons, hopen,
      List.singleton_append, reading]
    by_cases hne : members = []
    · rw [hne]
      rfl
    · exact (parse_firstMember hne frames _).trans (parse_memberTokens members hne [] frames rest)
theorem parse_itemTokens (js : List Json) (hne : js ≠ []) (done : List Reading)
    (frames : List Frame) (rest : List Token) :
    (itemTokens js ++ .closeArray :: rest).foldlM Parser.feed ⟨.array done :: frames, .value⟩ =
      rest.foldlM Parser.feed ⟨frames, .after (.array (done.reverse ++ readings js))⟩ := by
  match js with
  | [] => exact absurd rfl hne
  | [j] =>
    have hclose : Parser.feed ⟨.array done :: frames, .after (reading j)⟩ .closeArray =
        some ⟨frames, .after (.array (reading j :: done).reverse)⟩ := rfl
    rw [itemTokens, parse_tokensOf j, List.foldlM_cons, hclose]
    simp [readings]
  | j :: k :: js =>
    have hcomma : Parser.feed ⟨.array done :: frames, .after (reading j)⟩ .comma =
        some ⟨.array (reading j :: done) :: frames, .value⟩ := rfl
    have hrest := parse_itemTokens (k :: js) (by simp) (reading j :: done) frames rest
    rw [itemTokens, List.append_assoc, parse_tokensOf j, List.cons_append, List.foldlM_cons, hcomma]
    simpa [readings] using hrest
theorem parse_memberTokens (ms : List (String × Json)) (hne : ms ≠ [])
    (done : List (Option String × Reading)) (frames : List Frame) (rest : List Token) :
    (memberTokens ms ++ .closeObject :: rest).foldlM Parser.feed ⟨frames, .name done⟩ =
      rest.foldlM Parser.feed ⟨frames, .after (.object (done.reverse ++ memberReadings ms))⟩ := by
  have hname (name : Option String) : Parser.feed ⟨frames, .name done⟩ (.text name) =
      some ⟨frames, .colon done name⟩ := rfl
  have hcolon (name : Option String) : Parser.feed ⟨frames, .colon done name⟩ .colon =
      some ⟨.object done name :: frames, .value⟩ := rfl
  match ms with
  | [] => exact absurd rfl hne
  | [(name, j)] =>
    have hclose : Parser.feed ⟨.object done (some name) :: frames, .after (reading j)⟩ .closeObject =
        some ⟨frames, .after (.object ((some name, reading j) :: done).reverse)⟩ := rfl
    have hvalue := parse_tokensOf j (.object done (some name) :: frames) (.closeObject :: rest)
    simp only [memberTokens, List.cons_append, List.foldlM_cons, hname, hcolon, Option.bind_eq_bind,
      Option.bind_some]
    rw [hvalue, List.foldlM_cons, hclose]
    simp [memberReadings]
  | (name, j) :: m :: ms =>
    have hcomma : Parser.feed ⟨.object done (some name) :: frames, .after (reading j)⟩ .comma =
        some ⟨frames, .name ((some name, reading j) :: done)⟩ := rfl
    have hvalue := parse_tokensOf j (.object done (some name) :: frames)
      (.comma :: (memberTokens (m :: ms) ++ .closeObject :: rest))
    have hrest := parse_memberTokens (m :: ms) (by simp) ((some name, reading j) :: done) frames rest
    simp only [memberTokens, List.cons_append, List.append_assoc, List.foldlM_cons, hname, hcolon,
      Option.bind_eq_bind, Option.bind_some]
    rw [hvalue, List.foldlM_cons, hcomma]
    simpa [memberReadings] using hrest
end

theorem parseTokens_tokensOf (j : Json) : parseTokens (tokensOf j) = some (reading j) := by
  have h := parse_tokensOf j [] []
  rw [List.append_nil] at h
  simp [parseTokens, Parser.start, h, Parser.result?]

/-- What is written is read as what it was. -/
theorem read_print {j : Json} (hj : Rereads j) : read j.print = some (reading j) := by
  rw [read, print, String.toList_ofList, tokens?_compact hj, Option.bind_some,
    parseTokens_tokensOf]

/-! ### Integers -/

private theorem head?_numeral {n : Nat} (h : n ≠ 0) : (Text.numeral n).head? ≠ some '0' := by
  induction n using Nat.strongRecOn with
  | ind n ih =>
    rw [Text.numeral]
    by_cases hn : n < 10
    · rw [Nat.toDigits_of_lt_base hn, List.head?_cons, ne_eq, Option.some.injEq,
        Nat.digitChar_eq_zero]
      exact h
    · have hfront := ih (n / 10) (by omega) (by omega)
      obtain ⟨d, ds, hd⟩ := List.exists_cons_of_ne_nil (Text.numeral_ne_nil (n / 10))
      rw [hd] at hfront
      rw [Nat.toDigits_of_base_le (by decide) (by omega), show Nat.toDigits 10 (n / 10) = _ from hd]
      exact hfront

theorem unsigned?_numeral (negative : Bool) (n : Nat) :
    unsigned? negative (Text.numeral n) = some ⟨negative, Text.numeral n, [], none⟩ := by
  have hdigits : ∀ c ∈ Text.numeral n, c.isDigit = true := fun c hc =>
    Nat.isDigit_of_mem_toDigits (by decide) (by decide) hc
  have hspan : spanDigits (Text.numeral n) = (Text.numeral n, []) := by
    simp only [spanDigits, Prod.mk.injEq, List.takeWhile_eq_self_iff, List.dropWhile_eq_nil_iff]
    exact ⟨hdigits, hdigits⟩
  have hstart : ¬ (Text.numeral n = [] ∨
      (Text.numeral n).head? = some '0' ∧ Text.numeral n ≠ ['0']) := by
    rintro (hnil | ⟨hhead, hzero⟩)
    · exact Text.numeral_ne_nil n hnil
    · by_cases hn : n = 0
      · exact hzero (hn ▸ rfl)
      · exact head?_numeral hn hhead
  rw [unsigned?, hspan]
  simp only [hstart, if_false, exponent?, Option.map_some]

theorem number?_numeral {negative : Bool} {n : Nat}
    (h : if negative then 0 < n ∧ n ≤ 0x8000000000000000 else n < UInt64.size) :
    (⟨negative, Text.numeral n, [], none⟩ : Literal).number? =
      some (.int (if negative then -(n : Int) else n)) := by
  have hvalue : Nat.ofDigitChars 10 (Text.numeral n) 0 = n := Nat.ofDigitChars_ten_toDigits
  cases negative <;>
  · simp only [Bool.false_eq_true, if_false, if_true] at h
    simp [Literal.number?, Literal.integer?, hvalue, h]

private theorem endsWord_eq_false {c : Char} (h : c.isDigit = true ∨ c = '-') :
    endsWord c = false := by
  have hother (d : Char) (hd : d.isDigit = false ∧ d ≠ '-') : c ≠ d := by
    rintro rfl
    rcases h with h | h
    · exact absurd (h.symm.trans hd.1) (by simp)
    · exact hd.2 h
  simp [endsWord, isGap, punctuation?, hother ' ' (by decide), hother '\t' (by decide),
    hother '\n' (by decide), hother '\r' (by decide), hother '[' (by decide),
    hother ']' (by decide), hother '{' (by decide), hother '}' (by decide), hother ',' (by decide),
    hother ':' (by decide), hother '"' (by decide)]

/-- Digits, perhaps after a minus sign, are the word of the number that they denote. -/
private theorem isWord_of_literal {cs : List Char} {l : Literal} {n : Number}
    (hcs : ∀ c ∈ cs, c.isDigit = true ∨ c = '-') (hne : cs ≠ []) (hliteral : literal? cs = some l)
    (hl : l.number? = some n) : IsWord cs (.number (some n)) := by
  have hname (name : List Char) (c : Char) (hc : c ∈ name)
      (hd : ¬ (c.isDigit = true ∨ c = '-')) : cs ≠ name := by
    rintro rfl
    exact hd (hcs c hc)
  refine ⟨hne, fun c hc => endsWord_eq_false (hcs c hc), ?_⟩
  rw [word?, if_neg (hname _ 'l' (by simp) (by decide)), if_neg (hname _ 'r' (by simp) (by decide)),
    if_neg (hname _ 'l' (by simp) (by decide)), hliteral, Option.map_some, hl]

theorem isWord_integer {n : Int} (h : -0x8000000000000000 ≤ n) (h' : n < UInt64.size) :
    IsWord (Number.int n).chars (.number (some (.int n))) := by
  have hdigits {m : Nat} : ∀ c ∈ Text.numeral m, c.isDigit = true ∨ c = '-' := fun c hc =>
    .inl (Nat.isDigit_of_mem_toDigits (by decide) (by decide) hc)
  rw [Number.chars, integer]
  split
  · rename_i hneg
    refine isWord_of_literal (l := ⟨true, Text.numeral n.natAbs, [], none⟩) ?_ (by simp) ?_ ?_
    · exact List.forall_mem_cons.2 ⟨.inr rfl, hdigits⟩
    · exact unsigned?_numeral true _
    · rw [number?_numeral (by simpa using ⟨by omega, by omega⟩)]
      simp only [if_true]
      congr 2
      omega
  · rename_i hnonneg
    refine isWord_of_literal (l := ⟨false, Text.numeral n.natAbs, [], none⟩) hdigits
      (Text.numeral_ne_nil _) ?_ ?_
    · unfold literal?
      split
      · rename_i cs hcs
        have hsign : '-' ∈ Text.numeral n.natAbs := hcs ▸ List.mem_cons_self
        exact absurd (Nat.isDigit_of_mem_toDigits (by decide) (by decide) hsign) (by decide)
      · exact unsigned?_numeral false _
    · rw [number?_numeral (by simpa using by omega)]
      simp only [Bool.false_eq_true, if_false]
      congr 2
      omega

end Backfill.Json

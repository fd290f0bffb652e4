import Backfill.Proofs.Rereading

/-! A document that is laid out over several lines is read as the same document on one line: the
gaps between its tokens are passed over, so that it has the same tokens. -/
namespace Backfill.Json
open Scanner

namespace Scanner
variable {ts : List Token} {rest : List Char} {c : Char}

theorem run_gap (h : isGap c = true) :
    run ⟨ts, .between⟩ (c :: rest) = run ⟨ts, .between⟩ rest := by
  rw [run_cons, feed]
  simp [begin, h]

theorem endsBefore_of_gap (h : isGap c = true) : EndsBefore (c :: rest) := by
  rintro d ⟨⟩
  simp [endsWord, h]

theorem run_newLine (level : Nat) :
    run ⟨ts, .between⟩ (newLine level ++ rest) = run ⟨ts, .between⟩ rest := by
  have hblanks (n : Nat) :
      run ⟨ts, .between⟩ (List.replicate n ' ' ++ rest) = run ⟨ts, .between⟩ rest := by
    induction n with
    | zero => rfl
    | succ n ih => rw [List.replicate_succ, List.cons_append, run_gap rfl, ih]
  rw [newLine, List.cons_append, run_gap rfl, hblanks]

theorem endsBefore_newLine (level : Nat) : EndsBefore (newLine level ++ rest) :=
  endsBefore_of_gap rfl

end Scanner

private theorem endsBefore_comma {cs : List Char} : EndsBefore (',' :: cs) :=
  endsBefore_of_punctuation (t := .comma) rfl

mutual
/-- Scanning a document that is laid out finds its tokens. -/
theorem run_pretty {j : Json} (hj : Rereads j) (level : Nat) {ts : List Token} {rest : List Char}
    (hrest : EndsBefore rest) : Scanner.run ⟨ts, .between⟩ (pretty level j ++ rest) =
      Scanner.run ⟨(tokensOf j).reverse ++ ts, .between⟩ rest := by
  match j with
  | .null | .bool b | .number n | .text t => exact run_compact hj hrest
  | .array [] | .object [] => exact run_compact hj hrest
  | .array (j :: js) =>
    rw [Rereads] at hj
    rw [pretty]
    simp only [List.append_assoc, List.cons_append]
    rw [run_punctuation (t := .openArray) rfl,
      run_prettyItems hj (level + 1) (endsBefore_newLine level), run_newLine, List.nil_append,
      run_punctuation (t := .closeArray) rfl]
    simp [tokensOf]
  | .object (m :: ms) =>
    rw [Rereads] at hj
    rw [pretty]
    simp only [List.append_assoc, List.cons_append]
    rw [run_punctuation (t := .openObject) rfl,
      run_prettyMembers hj (level + 1) (endsBefore_newLine level), run_newLine, List.nil_append,
      run_punctuation (t := .closeObject) rfl]
    simp [tokensOf]
theorem run_prettyItems {js : List Json} (hjs : ItemsReread js) (level : Nat) {ts : List Token}
    {rest : List Char} (hrest : EndsBefore rest) :
    Scanner.run ⟨ts, .between⟩ (prettyItems level js ++ rest) =
      Scanner.run ⟨(itemTokens js).reverse ++ ts, .between⟩ rest := by
  match js with
  | [] => rfl
  | [j] =>
    rw [ItemsReread] at hjs
    rw [prettyItems, List.append_assoc, run_newLine, run_pretty hjs.1 level hrest]
    rfl
  | j :: k :: js =>
    rw [ItemsReread] at hjs
    rw [prettyItems]
    simp only [List.append_assoc, List.cons_append]
    rw [run_newLine, run_pretty hjs.1 level endsBefore_comma, run_punctuation (t := .comma) rfl,
      run_prettyItems hjs.2 level hrest]
    simp [itemTokens]
theorem run_prettyMembers {ms : List (String × Json)} (hms : MembersReread ms) (level : Nat)
    {ts : List Token} {rest : List Char} (hrest : EndsBefore rest) :
    Scanner.run ⟨ts, .between⟩ (prettyMembers level ms ++ rest) =
      Scanner.run ⟨(memberTokens ms).reverse ++ ts, .between⟩ rest := by
  match ms with
  | [] => rfl
  | [(name, j)] =>
    rw [MembersReread] at hms
    rw [prettyMembers]
    simp only [List.append_assoc, List.cons_append]
    rw [run_newLine, run_literal, run_punctuation (t := .colon) rfl, run_gap rfl,
      run_pretty hms.1 level hrest]
    simp [memberTokens]
  | (name, j) :: m :: ms =>
    rw [MembersReread] at hms
    rw [prettyMembers]
    simp only [List.append_assoc, List.cons_append]
    rw [run_newLine, run_literal, run_punctuation (t := .colon) rfl, run_gap rfl,
      run_pretty hms.1 level endsBefore_comma, run_punctuation (t := .comma) rfl,
      run_prettyMembers hms.2 level hrest]
    simp [memberTokens]
end

theorem tokens?_pretty {j : Json} (hj : Rereads j) (level : Nat) :
    tokens? (pretty level j) = some (tokensOf j) := by
  have hend : EndsBefore [] := nofun
  have hrun : Scanner.run Scanner.start (pretty level j ++ []) = _ := run_pretty hj level hend
  rw [List.append_nil, List.append_nil] at hrun
  rw [tokens?_eq_run, hrun]
  simp [Scanner.run, Scanner.settle]

/-- What is laid out over several lines is read as what it was. -/
theorem read_printPretty {j : Json} (hj : Rereads j) : read j.printPretty = some (reading j) := by
  rw [read, printPretty, String.toList_ofList, tokens?_pretty hj, Option.bind_some,
    parseTokens_tokensOf]

end Backfill.Json

/-! White space as the Unicode property White_Space has it, and its removal from texts. -/
namespace Backfill.Text

/-- The code points with the property White_Space, as inclusive ranges in ascending order. -/
def blankRanges : List (Nat × Nat) :=
  [(0x09, 0x0D), (0x20, 0x20), (0x85, 0x85), (0xA0, 0xA0), (0x1680, 0x1680), (0x2000, 0x200A),
   (0x2028, 0x2029), (0x202F, 0x202F), (0x205F, 0x205F), (0x3000, 0x3000)]

/-- Holds of white space in the sense of Unicode, which is more than the ASCII blanks. -/
def isBlank (c : Char) : Bool :=
  blankRanges.any fun r => r.1 ≤ c.toNat && c.toNat ≤ r.2

/-- A text without any of its blanks, inner ones included. -/
def dropBlanks (cs : List Char) : List Char := cs.filter fun c => !isBlank c

def trim (cs : List Char) : List Char :=
  ((cs.dropWhile isBlank).reverse.dropWhile isBlank).reverse

theorem mem_dropBlanks {c : Char} {cs : List Char} :
    c ∈ dropBlanks cs ↔ c ∈ cs ∧ isBlank c = false := by
  simp [dropBlanks]

theorem dropBlanks_of_forall {cs : List Char} (h : ∀ c ∈ cs, isBlank c = false) :
    dropBlanks cs = cs := by
  simpa [dropBlanks] using h

variable {cs : List Char}

theorem dropWhile_eq_self {kind : Char → Bool} (h : ∀ c ∈ cs.head?, kind c = false) :
    cs.dropWhile kind = cs := by
  cases cs with
  | nil => rfl
  | cons c cs => rw [List.dropWhile_cons, h c rfl, if_neg Bool.false_ne_true]

/-- Blanks inside a text stay. -/
theorem trim_eq_self (hfirst : ∀ c ∈ cs.head?, isBlank c = false)
    (hlast : ∀ c ∈ cs.getLast?, isBlank c = false) : trim cs = cs := by
  have hend : ∀ c ∈ cs.reverse.head?, isBlank c = false := by rwa [List.head?_reverse]
  rw [trim, dropWhile_eq_self hfirst, dropWhile_eq_self hend, List.reverse_reverse]

end Backfill.Text

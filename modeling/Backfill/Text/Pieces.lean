/-! Cutting a text at a separator: into all its pieces, at the first one, or at the last one. -/
namespace Backfill.Text

/-- The pieces of a text between the separators, empty ones included; there is at least one. -/
def pieces (sep : Char) : List Char → List (List Char)
  | [] => [[]]
  | c :: cs =>
    if c = sep then [] :: pieces sep cs
    else match pieces sep cs with
      | [] => [[c]]
      | p :: ps => (c :: p) :: ps

def cutFirst (sep : Char) : List Char → Option (List Char × List Char)
  | [] => none
  | c :: cs =>
    if c = sep then some ([], cs)
    else (cutFirst sep cs).map fun p => (c :: p.1, p.2)

def cutLast (sep : Char) : List Char → Option (List Char × List Char)
  | [] => none
  | c :: cs =>
    match cutLast sep cs with
    | some p => some (c :: p.1, p.2)
    | none => if c = sep then some ([], cs) else none

def occurs (phrase : List Char) : List Char → Bool
  | [] => phrase.isEmpty
  | c :: cs => phrase.isPrefixOf (c :: cs) || occurs phrase cs

/-- Pieces written one after the other with a separator between neighbours. -/
def join (sep : List Char) : List (List Char) → List Char
  | [] => []
  | [p] => p
  | p :: q :: ps => p ++ sep ++ join sep (q :: ps)

theorem pieces_ne_nil (sep : Char) (cs : List Char) : pieces sep cs ≠ [] := by
  cases cs with
  | nil => simp [pieces]
  | cons c cs =>
    simp only [pieces]
    split
    · simp
    · split <;> simp

theorem pieces_of_not_mem {sep : Char} {a : List Char} (h : sep ∉ a) : pieces sep a = [a] := by
  induction a with
  | nil => rfl
  | cons c a ih =>
    simp only [List.mem_cons, not_or] at h
    simp [pieces, Ne.symm h.1, ih h.2]

theorem pieces_append {sep : Char} {a : List Char} (h : sep ∉ a) (b : List Char) :
    pieces sep (a ++ sep :: b) = a :: pieces sep b := by
  induction a with
  | nil => simp [pieces]
  | cons c a ih =>
    simp only [List.mem_cons, not_or] at h
    simp [pieces, Ne.symm h.1, ih h.2]

theorem pieces_join {sep : Char} {ps : List (List Char)} (hne : ps ≠ [])
    (h : ∀ p ∈ ps, sep ∉ p) : pieces sep (join [sep] ps) = ps := by
  induction ps with
  | nil => exact absurd rfl hne
  | cons p ps ih =>
    cases ps with
    | nil => exact pieces_of_not_mem (h p (by simp))
    | cons q qs =>
      have hp := h p (by simp)
      have ht := ih (by simp) (fun r hr => h r (List.mem_cons_of_mem _ hr))
      simp only [join, List.append_assoc, List.singleton_append]
      rw [pieces_append hp, ht]

theorem not_mem_of_mem_pieces {sep : Char} {cs p : List Char} (h : p ∈ pieces sep cs) : sep ∉ p := by
  induction cs generalizing p with
  | nil =>
    obtain rfl := List.mem_singleton.1 h
    exact List.not_mem_nil
  | cons c cs ih =>
    rw [pieces] at h
    split at h
    · rcases List.mem_cons.1 h with rfl | h
      · exact List.not_mem_nil
      · exact ih h
    · rename_i hc
      split at h
      · rename_i hnil
        exact absurd hnil (pieces_ne_nil sep cs)
      · rename_i q qs hpieces
        rcases List.mem_cons.1 h with rfl | h
        · have hq : sep ∉ q := ih (hpieces ▸ List.mem_cons_self)
          exact List.not_mem_cons_of_ne_of_not_mem (Ne.symm hc) hq
        · exact ih (hpieces ▸ List.mem_cons_of_mem _ h)

theorem join_cons_cons (sep : List Char) (c : Char) (p : List Char) (ps : List (List Char)) :
    join sep ((c :: p) :: ps) = c :: join sep (p :: ps) := by
  cases ps <;> rfl

/-- Cutting a text loses nothing but the separators. -/
theorem join_pieces (sep : Char) (cs : List Char) : join [sep] (pieces sep cs) = cs := by
  induction cs with
  | nil => rfl
  | cons c cs ih =>
    rw [pieces]
    obtain ⟨p, ps, hpieces⟩ := List.exists_cons_of_ne_nil (pieces_ne_nil sep cs)
    rw [hpieces] at ih ⊢
    split
    · rename_i hc
      rw [join, ih, hc]
      rfl
    · rw [join_cons_cons, ih]

/-- Whether a text is cut into pieces at each of its separators. -/
structure AreCut (sep : Char) (cs : List Char) (ps : List (List Char)) : Prop where
  ne_nil : ps ≠ []
  plain : ∀ p ∈ ps, sep ∉ p
  joined : join [sep] ps = cs

theorem areCut_iff {sep : Char} {cs : List Char} {ps : List (List Char)} :
    AreCut sep cs ps ↔ pieces sep cs = ps := by
  constructor
  · rintro ⟨hne, hplain, rfl⟩
    exact pieces_join hne hplain
  · rintro rfl
    exact ⟨pieces_ne_nil sep cs, fun p hp => not_mem_of_mem_pieces hp, join_pieces sep cs⟩

theorem cutFirst_eq_none {sep : Char} {a : List Char} (h : sep ∉ a) : cutFirst sep a = none := by
  induction a with
  | nil => rfl
  | cons c a ih =>
    simp only [List.mem_cons, not_or] at h
    simp [cutFirst, Ne.symm h.1, ih h.2]

theorem cutFirst_append {sep : Char} {a : List Char} (h : sep ∉ a) (b : List Char) :
    cutFirst sep (a ++ sep :: b) = some (a, b) := by
  induction a with
  | nil => simp [cutFirst]
  | cons c a ih =>
    simp only [List.mem_cons, not_or] at h
    simp [cutFirst, Ne.symm h.1, ih h.2]

theorem cutFirst_eq_some_iff {sep : Char} {cs a b : List Char} :
    cutFirst sep cs = some (a, b) ↔ sep ∉ a ∧ cs = a ++ sep :: b := by
  constructor
  · intro h
    induction cs generalizing a with
    | nil => exact absurd h (by simp [cutFirst])
    | cons c cs ih =>
      rw [cutFirst] at h
      split at h
      · rename_i hc
        obtain ⟨rfl, rfl⟩ := Prod.mk.inj (Option.some.inj h)
        exact ⟨List.not_mem_nil, by rw [hc]; rfl⟩
      · rename_i hc
        obtain ⟨⟨a', b'⟩, hcut, heq⟩ := Option.map_eq_some_iff.1 h
        obtain ⟨rfl, rfl⟩ := Prod.mk.inj heq
        obtain ⟨hplain, rfl⟩ := ih hcut
        exact ⟨List.not_mem_cons_of_ne_of_not_mem (Ne.symm hc) hplain, rfl⟩
  · rintro ⟨hplain, rfl⟩
    exact cutFirst_append hplain b

theorem cutLast_eq_none {sep : Char} {a : List Char} (h : sep ∉ a) : cutLast sep a = none := by
  induction a with
  | nil => rfl
  | cons c a ih =>
    simp only [List.mem_cons, not_or] at h
    simp [cutLast, ih h.2, Ne.symm h.1]

theorem cutLast_append {sep : Char} {b : List Char} (h : sep ∉ b) (a : List Char) :
    cutLast sep (a ++ sep :: b) = some (a, b) := by
  induction a with
  | nil => simp [cutLast, cutLast_eq_none h]
  | cons c a ih => simp [cutLast, ih]

theorem eq_of_cutLast {sep : Char} {cs a b : List Char} (h : cutLast sep cs = some (a, b)) :
    cs = a ++ sep :: b := by
  induction cs generalizing a with
  | nil => exact absurd h (by simp [cutLast])
  | cons c cs ih =>
    rw [cutLast] at h
    split at h
    · rename_i p hcut
      obtain ⟨rfl, rfl⟩ := Prod.mk.inj (Option.some.inj h)
      rw [ih hcut]
      rfl
    · split at h
      · rename_i hc
        obtain ⟨rfl, rfl⟩ := Prod.mk.inj (Option.some.inj h)
        rw [hc]
        rfl
      · cases h

end Backfill.Text

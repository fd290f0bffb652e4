/-! Finite maps whose keys are texts. Entries are kept in ascending order of their keys, so that
two maps with the same entries are equal and are written out in one order. -/
namespace Backfill

/-- A finite map from texts to values of type `β`. -/
structure TextMap (β : Type) where
  entries : List (String × β)
  sorted : entries.Pairwise fun a b => a.1 < b.1

namespace TextMap
variable {β γ : Type}

@[ext] theorem ext {m n : TextMap β} (h : m.entries = n.entries) : m = n := by
  cases m; cases n; congr

instance [DecidableEq β] : DecidableEq (TextMap β) := fun m n =>
  decidable_of_iff (m.entries = n.entries) ⟨ext, fun h => h ▸ rfl⟩

def empty : TextMap β := ⟨[], .nil⟩

instance : EmptyCollection (TextMap β) := ⟨empty⟩
instance : Inhabited (TextMap β) := ⟨empty⟩

/-- Puts an entry in its place among ascending ones, over an entry of the same key. -/
def insertEntry (k : String) (v : β) : List (String × β) → List (String × β)
  | [] => [(k, v)]
  | e :: es =>
    if k < e.1 then (k, v) :: e :: es
    else if k = e.1 then (k, v) :: es
    else e :: insertEntry k v es

theorem mem_insertEntry {k : String} {v : β} {es : List (String × β)} {e : String × β}
    (h : e ∈ insertEntry k v es) : e = (k, v) ∨ e ∈ es := by
  induction es with
  | nil => simpa [insertEntry] using h
  | cons d es ih =>
    simp only [insertEntry] at h
    split at h
    · simpa using h
    · split at h
      · rcases List.mem_cons.1 h with h | h
        · exact .inl h
        · exact .inr (List.mem_cons_of_mem _ h)
      · rcases List.mem_cons.1 h with h | h
        · exact .inr (h ▸ List.mem_cons_self)
        · exact (ih h).imp id (List.mem_cons_of_mem _)

theorem insertEntry_sorted (k : String) (v : β) {es : List (String × β)}
    (h : es.Pairwise fun a b => a.1 < b.1) :
    (insertEntry k v es).Pairwise fun a b => a.1 < b.1 := by
  induction es with
  | nil => simp [insertEntry]
  | cons d es ih =>
    obtain ⟨hd, hes⟩ := List.pairwise_cons.1 h
    simp only [insertEntry]
    split
    · rename_i hk
      refine List.pairwise_cons.2 ⟨fun e he => ?_, h⟩
      rcases List.mem_cons.1 he with rfl | he
      · exact hk
      · exact String.lt_trans hk (hd e he)
    · split
      · rename_i hk
        exact List.pairwise_cons.2 ⟨fun e he => hk ▸ hd e he, hes⟩
      · rename_i hlt hne
        refine List.pairwise_cons.2 ⟨fun e he => ?_, ih hes⟩
        rcases mem_insertEntry he with rfl | he
        · rcases String.le_total d.1 k with hle | hle
          · exact Decidable.byContradiction fun hnlt =>
              hne (String.le_antisymm hnlt hle)
          · exact absurd (String.le_antisymm hle hlt) hne
        · exact hd e he

def insert (m : TextMap β) (k : String) (v : β) : TextMap β :=
  ⟨insertEntry k v m.entries, insertEntry_sorted k v m.sorted⟩

def erase (m : TextMap β) (k : String) : TextMap β :=
  ⟨m.entries.filter fun e => e.1 ≠ k, m.sorted.filter _⟩

def get? (m : TextMap β) (k : String) : Option β :=
  (m.entries.find? fun e => e.1 = k).map Prod.snd

/-- The map of a list of entries, of which the later ones win. -/
def ofList (es : List (String × β)) : TextMap β :=
  es.foldl (fun m e => m.insert e.1 e.2) empty

def keys (m : TextMap β) : List String := m.entries.map Prod.fst

def isEmpty (m : TextMap β) : Bool := m.entries.isEmpty

def size (m : TextMap β) : Nat := m.entries.length

/-- Replaces each value by another one or drops its entry. -/
def filterMap (f : String → β → Option γ) (m : TextMap β) : TextMap γ where
  entries := m.entries.filterMap fun e => (f e.1 e.2).map fun v => (e.1, v)
  sorted := by
    refine List.pairwise_filterMap.2 (m.sorted.imp ?_)
    intro a b hab x hx y hy
    obtain ⟨_, _, rfl⟩ := Option.map_eq_some_iff.1 hx
    obtain ⟨_, _, rfl⟩ := Option.map_eq_some_iff.1 hy
    exact hab

@[simp] theorem get?_empty (k : String) : (empty : TextMap β).get? k = none := rfl

theorem find?_insertEntry (k : String) (v : β) (l : String) (es : List (String × β)) :
    ((insertEntry k v es).find? fun e => e.1 = l).map Prod.snd =
      if l = k then some v else (es.find? fun e => e.1 = l).map Prod.snd := by
  induction es with
  | nil => by_cases h : k = l <;> simp [insertEntry, h, eq_comm]
  | cons d es ih =>
    simp only [insertEntry]
    split
    · by_cases h : k = l <;> simp [h, List.find?_cons, eq_comm]
    · split
      · rename_i h
        subst h
        by_cases h : d.1 = l
        · simp [h]
        · simp [h, Ne.symm h]
      · rename_i h
        by_cases hd : d.1 = l
        · have hl : l ≠ k := fun hl => h (hl.symm.trans hd.symm)
          simp [hd, hl]
        · simpa [List.find?_cons, hd] using ih

/-- An inserted value is found under its key, and what is under other keys stays. -/
theorem get?_insert (m : TextMap β) (k : String) (v : β) (l : String) :
    (m.insert k v).get? l = if l = k then some v else m.get? l :=
  find?_insertEntry k v l m.entries

/-- Nothing is found under an erased key, and what is under other keys stays. -/
theorem get?_erase (m : TextMap β) (k l : String) :
    (m.erase k).get? l = if l = k then none else m.get? l := by
  simp only [get?, erase, List.find?_filter]
  induction m.entries with
  | nil => simp
  | cons d es ih =>
    by_cases hd : d.1 = k
    · by_cases hl : k = l
      · simp [hl]
      · simpa [List.find?_cons, hd, hl] using ih
    · by_cases hl : d.1 = l
      · have hlk : l ≠ k := fun h => hd (hl.trans h)
        simp [hl, hlk]
      · simpa [List.find?_cons, hl] using ih

theorem mem_entries_of_get? {m : TextMap β} {k : String} {v : β} (h : m.get? k = some v) :
    (k, v) ∈ m.entries := by
  obtain ⟨e, he, rfl⟩ := Option.map_eq_some_iff.1 h
  have hk := List.find?_some he
  simp only [decide_eq_true_eq] at hk
  exact hk ▸ List.mem_of_find?_eq_some he

theorem get?_eq_some_iff {m : TextMap β} {k : String} {v : β} :
    m.get? k = some v ↔ (k, v) ∈ m.entries := by
  constructor
  · exact mem_entries_of_get?
  · obtain ⟨es, hs⟩ := m
    intro h
    change (es.find? fun e => e.1 = k).map Prod.snd = some v
    change (k, v) ∈ es at h
    induction es with
    | nil => simp at h
    | cons d es ih =>
      obtain ⟨hd, hes⟩ := List.pairwise_cons.1 hs
      rcases List.mem_cons.1 h with rfl | h
      · simp
      · have hlt : d.1 < k := hd (k, v) h
        have hne : d.1 ≠ k := fun he => String.lt_irrefl k (by rwa [he] at hlt)
        simpa [List.find?_cons, hne] using ih hes h

/-- Maps with the same values under the same keys are equal. -/
theorem eq_of_get? {m n : TextMap β} (h : ∀ k, m.get? k = n.get? k) : m = n := by
  have hnodup (l : TextMap β) : l.entries.Nodup := by
    refine l.sorted.imp fun {a b} hab => ?_
    rintro rfl
    exact String.lt_irrefl a.1 hab
  have hmem (e : String × β) : e ∈ m.entries ↔ e ∈ n.entries := by
    rw [← get?_eq_some_iff, h, get?_eq_some_iff]
  have hperm := (List.perm_ext_iff_of_nodup (hnodup m) (hnodup n)).2 hmem
  refine ext (hperm.eq_of_pairwise (fun a b _ _ hab hba => ?_) m.sorted n.sorted)
  exact absurd (String.lt_trans hab hba) (String.lt_irrefl a.1)

theorem mem_keys {m : TextMap β} {k : String} : k ∈ m.keys ↔ ∃ v, m.get? k = some v := by
  simp only [keys, List.mem_map, get?_eq_some_iff]
  constructor
  · rintro ⟨⟨l, v⟩, he, rfl⟩
    exact ⟨v, he⟩
  · rintro ⟨v, he⟩
    exact ⟨(k, v), he, rfl⟩

theorem nodup_keys (m : TextMap β) : m.keys.Nodup := by
  refine List.pairwise_map.2 (m.sorted.imp fun hab heq => ?_)
  exact String.lt_irrefl _ (heq ▸ hab)

end TextMap
end Backfill

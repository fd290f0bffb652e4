import Backfill.Proofs.Grammar

/-! Positions and sets of positions are read as themselves from their texts. What is written follows
the grammar of listings, if the sources are names that an entry can have: neither names nor ranges
hold a separator or a blank, so that cutting the text gives back the entries that were joined. What is
read covers what the entries list, and sets with the same positions are equal. -/
namespace Backfill

namespace Text

theorem isDigit_of_mem_numeral {n : Nat} {c : Char} (h : c ∈ numeral n) : c.isDigit = true :=
  Nat.isDigit_of_mem_toDigits (by decide) (by decide) h

theorem isNumeral_numeral (n : Nat) : IsNumeral (numeral n) n := by
  have hvalue : Nat.ofDigitChars 10 (numeral n) 0 = n :=
    Nat.ofDigitChars_toDigits (by decide) (by decide)
  have hnumeral := IsNumeral.plain (numeral_ne_nil n) fun c hc => isDigit_of_mem_numeral hc
  rwa [hvalue] at hnumeral

theorem isBlank_of_isDigit {c : Char} (h : c.isDigit = true) : isBlank c = false := by
  simp only [Char.isDigit, Bool.and_eq_true, decide_eq_true_eq, UInt32.le_iff_toNat_le] at h
  have hlow : 48 ≤ c.toNat := h.1
  have hhigh : c.toNat ≤ 57 := h.2
  simp [isBlank, blankRanges]
  omega

end Text

namespace IdRange
open Text

/-- Neither a separator nor a blank stands in the text of a range. -/
theorem plain_of_mem_chars {r : IdRange} {c : Char} (h : c ∈ r.chars) :
    c ≠ ':' ∧ c ≠ ',' ∧ isBlank c = false := by
  have hdigit {d : Char} (hd : d.isDigit = true) : d ≠ ':' ∧ d ≠ ',' ∧ isBlank d = false := by
    refine ⟨?_, ?_, isBlank_of_isDigit hd⟩ <;>
    · rintro rfl
      exact absurd hd (by decide)
  rw [chars] at h
  split at h
  · exact hdigit (isDigit_of_mem_numeral h)
  · rcases List.mem_append.1 h with h | h
    · exact hdigit (isDigit_of_mem_numeral h)
    · rcases List.mem_cons.1 h with rfl | h
      · decide
      · exact hdigit (isDigit_of_mem_numeral h)

theorem isWritten_chars (r : IdRange) : IsWritten r.chars r := by
  obtain ⟨first, last, hle⟩ := r
  rw [chars]
  split
  · rename_i heq
    obtain rfl : first = last := heq
    exact .single (isNumeral_numeral _)
  · exact .span (isNumeral_numeral _) (isNumeral_numeral _)

end IdRange

namespace Position
open Text

/-- A position is read as itself from its text, if its source begins with something else than a
blank. Colons in the source do no harm, since no colon stands in the numeral behind the last one. -/
theorem parse_text {p : Position} (hsource : p.source ≠ "")
    (hfirst : ∀ c ∈ p.source.toList.head?, isBlank c = false) : parse p.text = .ok p := by
  obtain ⟨source, n⟩ := p
  obtain ⟨c, cs, hcs⟩ : ∃ c cs, source.toList = c :: cs :=
    List.exists_cons_of_ne_nil fun hnil => hsource (String.toList_inj.1 hnil)
  have hchars : chars ⟨source, n⟩ = source.toList ++ ':' :: numeral n.toNat := rfl
  have htrim : trim (chars ⟨source, n⟩) = source.toList ++ ':' :: numeral n.toNat := by
    rw [← hchars]
    apply trim_eq_self
    · intro d hd
      rw [hchars, hcs] at hd
      exact hfirst d (by rw [hcs]; exact hd)
    · intro d hd
      obtain ⟨e, es, hes⟩ := List.exists_cons_of_ne_nil (numeral_ne_nil n.toNat)
      have hlast : d ∈ (numeral n.toNat).getLast? := by
        rw [hchars, hes] at hd
        simpa [hes, List.getLast?_append, List.getLast?_cons_cons] using hd
      exact isBlank_of_isDigit (isDigit_of_mem_numeral (List.mem_of_getLast? hlast))
  have hcolon : ':' ∉ numeral n.toNat := (isNumeral_numeral _).colon_not_mem
  have hword : readWord (numeral n.toNat) = .ok n := readWord_eq_ok_iff.2 (isNumeral_numeral _)
  have hnonempty : source.toList.isEmpty = false := by rw [hcs]; rfl
  rw [parse, text, String.toList_ofList]
  simp only [htrim, cutLast_append hcolon, hnonempty, hword, String.ofList_toList]
  rfl

end Position

namespace PositionSet
open Text
variable {s : PositionSet} {p : Position} {e : String × List IdRange}
  {es : List (String × List IdRange)}

/-- Whether an entry of a listing can name a source. -/
structure IsSourceName (source : String) : Prop where
  ne_empty : source ≠ ""
  plain : ∀ c ∈ source.toList, c ≠ ':' ∧ c ≠ ',' ∧ isBlank c = false

def entryChars (e : String × List IdRange) : List Char :=
  join [':'] (e.1.toList :: e.2.map IdRange.chars)

theorem isEntry_entryChars (he : IsSourceName e.1) (hne : e.2 ≠ []) : IsEntry (entryChars e) e where
  named := he.ne_empty
  plain hcolon := (he.plain ':' hcolon).1 rfl
  ranged := hne
  text := ⟨_, rfl, List.forall₂_map_left_iff.2 (List.forall₂_same.2 fun r _ => r.isWritten_chars)⟩

private theorem mem_join {sep : Char} {ps : List (List Char)} {c : Char}
    (h : c ∈ join [sep] ps) : c = sep ∨ ∃ p ∈ ps, c ∈ p := by
  induction ps with
  | nil => exact absurd h List.not_mem_nil
  | cons p ps ih =>
    cases ps with
    | nil => exact .inr ⟨p, List.mem_cons_self, h⟩
    | cons q qs =>
      simp only [join, List.mem_append, List.mem_singleton] at h
      rcases h with (h | h) | h
      · exact .inr ⟨p, List.mem_cons_self, h⟩
      · exact .inl h
      · rcases ih h with hc | ⟨q', hq', hc⟩
        · exact .inl hc
        · exact .inr ⟨q', List.mem_cons_of_mem _ hq', hc⟩

private theorem plain_of_mem_entryChars (he : IsSourceName e.1)
    {c : Char} (h : c ∈ entryChars e) : c ≠ ',' ∧ isBlank c = false := by
  rcases mem_join h with rfl | ⟨piece, hpiece, hc⟩
  · decide
  · rcases List.mem_cons.1 hpiece with rfl | hpiece
    · exact (he.plain c hc).2
    · obtain ⟨r, -, rfl⟩ := List.mem_map.1 hpiece
      exact (IdRange.plain_of_mem_chars hc).2

private theorem entryChars_ne_nil (he : IsSourceName e.1) : entryChars e ≠ [] := by
  have hsource : e.1.toList ≠ [] := fun hnil => he.ne_empty (String.toList_inj.1 hnil)
  rw [entryChars]
  cases e.2 with
  | nil => exact hsource
  | cons r rs => simp [join, hsource]

def entryList (s : PositionSet) : List (String × List IdRange) :=
  s.bySource.entries.map fun e => (e.1, e.2.ranges)

theorem chars_eq_join (hs : s.IsFilled) : s.chars = join [','] (s.entryList.map entryChars) := by
  rw [chars, entryList, List.map_map]
  refine congrArg _ (List.map_congr_left fun e he => ?_)
  have hne : e.2.isEmpty = false := hs e.1 e.2 (TextMap.get?_eq_some_iff.2 he)
  obtain ⟨source, ids⟩ := e
  obtain ⟨r, rs, hrs⟩ : ∃ r rs, ids.ranges = r :: rs :=
    List.exists_cons_of_ne_nil (by simpa [IdSet.isEmpty] using hne)
  simp [entryChars, IdSet.chars, hrs, join]

/-- Cutting a listing gives back the entries that were joined. -/
private theorem entriesOf_join (h : ∀ e ∈ es, IsSourceName e.1) :
    entriesOf (join [','] (es.map entryChars)) = es.map entryChars := by
  have hplain : ∀ entry ∈ es.map entryChars, ∀ c ∈ entry, c ≠ ',' ∧ isBlank c = false := by
    intro entry hentry c hc
    obtain ⟨e, he, rfl⟩ := List.mem_map.1 hentry
    exact plain_of_mem_entryChars (h e he) hc
  have hnonempty : ∀ entry ∈ es.map entryChars, entry ≠ [] := by
    intro entry hentry
    obtain ⟨e, he, rfl⟩ := List.mem_map.1 hentry
    exact entryChars_ne_nil (h e he)
  rw [entriesOf]
  cases hes : es.map entryChars with
  | nil => rfl
  | cons entry entries =>
    rw [hes] at hplain hnonempty
    rw [pieces_join (by simp) fun entry hentry hc => (hplain entry hentry _ hc).1 rfl]
    have hdrop : (entry :: entries).map dropBlanks = entry :: entries :=
      List.map_congr_left (fun entry hentry =>
        dropBlanks_of_forall fun c hc => (hplain entry hentry c hc).2) |>.trans (List.map_id _)
    rw [hdrop]
    refine List.filter_eq_self.2 fun entry hentry => ?_
    simpa using hnonempty entry hentry

theorem contains_entryList : (ofEntries s.entryList).contains p = true ↔ s.contains p = true := by
  rw [contains_ofEntries, contains_iff]
  simp only [entryList, List.mem_map]
  constructor
  · rintro ⟨-, ⟨⟨source, ids⟩, he, rfl⟩, rfl, hcovers⟩
    exact ⟨ids, TextMap.get?_eq_some_iff.2 he, IdSet.contains_iff_covers.2 hcovers⟩
  · rintro ⟨ids, hids, hcontains⟩
    exact ⟨_, ⟨_, TextMap.get?_eq_some_iff.1 hids, rfl⟩, rfl, IdSet.contains_iff_covers.1 hcontains⟩

theorem parse_text (hs : s.IsFilled) (h : ∀ source ∈ s.sources, IsSourceName source) :
    parse s.text = .ok s := by
  have hnames : ∀ e ∈ s.entryList, IsSourceName e.1 := by
    intro e he
    obtain ⟨e', he', rfl⟩ := List.mem_map.1 he
    exact h e'.1 (List.mem_map_of_mem he')
  have hranges : ∀ e ∈ s.entryList, e.2 ≠ [] := by
    intro e he
    obtain ⟨e', he', rfl⟩ := List.mem_map.1 he
    have hfilled := hs e'.1 e'.2 (TextMap.get?_eq_some_iff.2 he')
    simpa [IdSet.isEmpty] using hfilled
  have hentries : (s.entryList.map entryChars).mapM parseEntry = .ok s.entryList := by
    rw [mapM_eq_ok_iff, List.forall₂_map_left_iff, List.forall₂_same]
    exact fun e he => parseEntry_eq_ok_iff.2 (isEntry_entryChars (hnames e he) (hranges e he))
  have hread : ofEntries s.entryList = s :=
    ((isFilled_ofMap _).eq_iff hs).2 fun p => Bool.eq_iff_iff.2 contains_entryList
  rw [parse_eq_ok_iff, text, String.toList_ofList, chars_eq_join hs, entriesOf_join hnames]
  exact ⟨_, hentries, hread⟩

theorem isSourceName_of_parse {t : String} (h : parse t = .ok s) :
    ∀ source ∈ s.sources, IsSourceName source := by
  intro source hsource
  obtain ⟨n, hn⟩ := (Built.parsed h).isFilled.mem_sources_iff.1 hsource
  obtain ⟨es, hes, rfl⟩ := parse_eq_ok_iff.1 h
  obtain ⟨e, he, rfl, -⟩ := contains_ofEntries.1 hn
  obtain ⟨part, hpart, hentry⟩ := (mem_of_mapM_parseEntry hes).1 he
  obtain ⟨texts, htext, -⟩ := hentry.text
  refine ⟨hentry.named, fun c hc => ?_⟩
  have hmem : c ∈ dropBlanks part := by
    rw [← htext]
    cases texts with
    | nil => exact hc
    | cons text texts => simp [join, hc]
  obtain ⟨hcpart, hblank⟩ := mem_dropBlanks.1 hmem
  refine ⟨?_, ?_, hblank⟩
  · rintro rfl
    exact hentry.plain hc
  · rintro rfl
    exact not_mem_of_mem_pieces hpart hcpart

/-- Texts and the sets and positions that they denote. A set that the operations give is read as
itself from its text, if its sources can be named. What is read from any text has such sources, so its
own text is read as the same set, and two texts that denote the same positions lead to one text. A
position is read as itself from its text, if its source is not empty and begins with no blank. -/
theorem rereads_texts :
    (∀ s : PositionSet, s.Built → (∀ source ∈ s.sources, IsSourceName source) →
      parse s.text = .ok s) ∧
    (∀ (t : String) (s : PositionSet), parse t = .ok s → parse s.text = .ok s) ∧
    (∀ (t u : String) (s v : PositionSet), parse t = .ok s → parse u = .ok v →
      (s.text = v.text ↔ ∀ p, s.contains p = v.contains p)) ∧
    ∀ p : Position, p.source ≠ "" → (∀ c ∈ p.source.toList.head?, isBlank c = false) →
      Position.parse p.text = .ok p := by
  have hreread {t : String} {s : PositionSet} (h : parse t = .ok s) : parse s.text = .ok s :=
    parse_text (Built.parsed h).isFilled (isSourceName_of_parse h)
  refine ⟨fun s hs hnames => parse_text hs.isFilled hnames, fun t s h => hreread h, ?_,
    fun p hsource hfirst => Position.parse_text hsource hfirst⟩
  intro t u s v hs hv
  constructor
  · intro htext p
    have hsame : Except.ok (ε := ListingError) s = .ok v := by
      rw [← hreread hs, htext, hreread hv]
    rw [Except.ok.inj hsame]
  · intro hsame
    rw [((Built.parsed hs).isFilled.eq_iff (Built.parsed hv).isFilled).2 hsame]

/-- A listing of which the entries overlap, with blanks and zeros, and one of the same positions. -/
theorem listed_reread : parse "b : +07-9, ,a:3,b:12:8" = .ok listed ∧
    parse "a:3,b:12:8-9:007" = .ok listed ∧ listed.Built ∧
    (∀ source ∈ listed.sources, IsSourceName source) ∧ listed.text = "a:3,b:7-9:12" ∧
    parse "a:3,b:7-9:12" = .ok listed ∧
    (listed.text = listed.text ↔ ∀ p, listed.contains p = listed.contains p) ∧
    Position.parse (Position.text ⟨"b :a", IdRange.maxId⟩) = .ok ⟨"b :a", IdRange.maxId⟩ := by
  obtain ⟨hset, htext, hsame, hposition⟩ := rereads_texts
  have hbuilt : listed.Built := ((Built.single _ _ _).insert _).insert _
  have hnames : ∀ source ∈ listed.sources, IsSourceName source := by
    have hsources : listed.sources = ["a", "b"] := by decide +kernel
    rw [hsources]
    intro source hsource
    rcases List.mem_pair.1 hsource with rfl | rfl
    · exact ⟨by decide, List.forall_mem_singleton.2 (by decide)⟩
    · exact ⟨by decide, List.forall_mem_singleton.2 (by decide)⟩
  have hblanks : parse "b : +07-9, ,a:3,b:12:8" = .ok listed := by decide +kernel
  have hzeros : parse "a:3,b:12:8-9:007" = .ok listed := by decide +kernel
  have hwritten : listed.text = "a:3,b:7-9:12" := by decide +kernel
  have hfirst : ∀ c ∈ "b :a".toList.head?, isBlank c = false := by
    intro c hc
    obtain rfl : 'b' = c := Option.some.inj hc
    decide
  refine ⟨hblanks, hzeros, hbuilt, hnames, hwritten, ?_, hsame _ _ _ _ hblanks hzeros, ?_⟩
  · rw [← hwritten]
    exact hset listed hbuilt hnames
  · exact hposition ⟨"b :a", IdRange.maxId⟩ (by decide) hfirst

end PositionSet
end Backfill

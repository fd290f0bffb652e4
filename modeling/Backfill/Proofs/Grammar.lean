import Backfill.Proofs.Canonical
import Backfill.Proofs.Traversal
import Mathlib.Data.List.TakeWhile

/-! The grammar of listings, and that reading a listing accepts it and nothing else. The grammar is
given without the reader: numerals by their digits, ranges by their numerals, entries by a source and
ranges with colons between them. Cutting a text at its separators can be undone, so what the reader
finds in the pieces is what the grammar says of the text. -/
namespace Backfill

namespace Text

/-- Whether a text is left of another one without the blanks at its ends. -/
structure IsTrimmed (cs core : List Char) : Prop where
  around : ∃ before after, cs = before ++ core ++ after ∧ ∀ c ∈ before ++ after, isBlank c = true
  first : ∀ c ∈ core.head?, isBlank c = false
  last : ∀ c ∈ core.getLast?, isBlank c = false

/-- Whether a text is the longest start of another one in which all characters are of one kind. -/
structure IsLongestStart (kind : Char → Bool) (cs start : List Char) : Prop where
  ends : ∃ rest, cs = start ++ rest ∧ ∀ c ∈ rest.head?, kind c = false
  alike : ∀ c ∈ start, kind c = true

theorem head?_dropWhile {kind : Char → Bool} {cs : List Char} {c : Char}
    (h : c ∈ (cs.dropWhile kind).head?) : kind c = false := by
  have hnot := List.head?_dropWhile_not kind cs
  rw [Option.mem_def.1 h] at hnot
  simpa using hnot

theorem isLongestStart_iff {kind : Char → Bool} {cs start : List Char} :
    IsLongestStart kind cs start ↔ cs.takeWhile kind = start := by
  constructor
  · rintro ⟨⟨rest, rfl, hrest⟩, halike⟩
    rw [List.takeWhile_append_of_pos halike]
    cases rest with
    | nil => simp
    | cons c rest => simp [hrest c rfl]
  · rintro rfl
    exact ⟨⟨cs.dropWhile kind, List.takeWhile_append_dropWhile.symm, fun c hc => head?_dropWhile hc⟩,
      fun c hc => List.mem_takeWhile_imp hc⟩

/-- Blanks before a text do not count, nor do those behind one that does not end with a blank. -/
theorem trim_append {before core after : List Char} (hbefore : ∀ c ∈ before, isBlank c = true)
    (hne : core ≠ []) (hfirst : ∀ c ∈ core.head?, isBlank c = false)
    (hlast : ∀ c ∈ core.getLast?, isBlank c = false) :
    trim (before ++ (core ++ after)) = core ++ (after.reverse.dropWhile isBlank).reverse := by
  have hhead : ∀ c ∈ (core ++ after).head?, isBlank c = false := by
    intro c hc
    obtain ⟨d, ds, rfl⟩ := List.exists_cons_of_ne_nil hne
    exact hfirst c hc
  have hend : core.reverse.dropWhile isBlank = core.reverse := by
    refine dropWhile_eq_self fun c hc => hlast c ?_
    rwa [List.head?_reverse] at hc
  rw [trim, List.dropWhile_append_of_pos hbefore, dropWhile_eq_self hhead, List.reverse_append,
    List.dropWhile_append]
  split
  · rename_i hempty
    rw [List.isEmpty_iff.1 hempty, hend]
    simp
  · simp

theorem isTrimmed_trim (cs : List Char) : IsTrimmed cs (trim cs) := by
  have hcs : cs = cs.takeWhile isBlank ++ cs.dropWhile isBlank :=
    (List.takeWhile_append_dropWhile).symm
  have hinner : cs.dropWhile isBlank =
      trim cs ++ ((cs.dropWhile isBlank).reverse.takeWhile isBlank).reverse := by
    rw [trim, ← List.reverse_append, List.takeWhile_append_dropWhile, List.reverse_reverse]
  refine ⟨⟨cs.takeWhile isBlank, ((cs.dropWhile isBlank).reverse.takeWhile isBlank).reverse, ?_,
    fun c hc => ?_⟩, fun c hc => ?_, fun c hc => ?_⟩
  · rw [List.append_assoc, ← hinner]
    exact hcs
  · rcases List.mem_append.1 hc with hc | hc
    · exact List.mem_takeWhile_imp hc
    · exact List.mem_takeWhile_imp (List.mem_reverse.1 hc)
  · have hhead : c ∈ (cs.dropWhile isBlank).head? := by
      rw [hinner, List.head?_append, Option.mem_def.1 hc]
      rfl
    exact head?_dropWhile hhead
  · rw [trim, List.getLast?_reverse] at hc
    exact head?_dropWhile hc

theorem isTrimmed_iff {cs core : List Char} : IsTrimmed cs core ↔ trim cs = core := by
  constructor
  · rintro ⟨⟨before, after, rfl, hblank⟩, hfirst, hlast⟩
    have hafter : after.reverse.dropWhile isBlank = [] := List.dropWhile_eq_nil_iff.2 fun c hc =>
      hblank c (List.mem_append_right _ (List.mem_reverse.1 hc))
    by_cases hne : core = []
    · subst hne
      have hnone : (before ++ [] ++ after).dropWhile isBlank = [] := by
        rw [List.append_nil]
        exact List.dropWhile_eq_nil_iff.2 hblank
      rw [trim, hnone]
      rfl
    · rw [List.append_assoc,
        trim_append (fun c hc => hblank c (List.mem_append_left _ hc)) hne hfirst hlast, hafter]
      simp
  · rintro rfl
    exact isTrimmed_trim cs

/-- How a number may be written: in digits, of which the first ones may be zeros, after at most one
plus sign. -/
inductive IsNumeral : List Char → Nat → Prop
  | plain {ds : List Char} (some : ds ≠ []) (digits : ∀ c ∈ ds, c.isDigit = true) :
      IsNumeral ds (Nat.ofDigitChars 10 ds 0)
  | signed {ds : List Char} (some : ds ≠ []) (digits : ∀ c ∈ ds, c.isDigit = true) :
      IsNumeral ('+' :: ds) (Nat.ofDigitChars 10 ds 0)

theorem digit?_eq_some_iff {c : Char} {d : Nat} :
    digit? c = some d ↔ c.isDigit = true ∧ c.toNat - '0'.toNat = d := by
  have hdigit : c.isDigit = true ↔ '0' ≤ c ∧ c ≤ '9' := by
    simp [Char.isDigit, Char.le_def]
  rw [digit?, hdigit]
  split <;> simp_all

theorem le_ofDigitChars (cs : List Char) (n : Nat) : n ≤ Nat.ofDigitChars 10 cs n := by
  induction cs generalizing n with
  | nil => exact Nat.le_refl n
  | cons c cs ih =>
    have hstep := ih (10 * n + (c.toNat - '0'.toNat))
    change n ≤ Nat.ofDigitChars 10 cs (10 * n + (c.toNat - '0'.toNat))
    omega

/-- Digits are read if the number that they denote is in range; the numbers before it are smaller. -/
theorem readDigits_eq_ok_iff {bound n m : Nat} {cs : List Char} (hn : n < bound) :
    readDigits bound n cs = .ok m ↔
      (∀ c ∈ cs, c.isDigit = true) ∧ Nat.ofDigitChars 10 cs n = m ∧ m < bound := by
  induction cs generalizing n with
  | nil =>
    rw [readDigits, Except.ok.injEq]
    constructor
    · rintro rfl
      exact ⟨List.forall_mem_nil _, rfl, hn⟩
    · exact fun h => h.2.1
  | cons c cs ih =>
    rw [readDigits, List.forall_mem_cons]
    cases hc : digit? c with
    | none =>
      have hdigit : ¬ c.isDigit = true := fun h => by
        rw [digit?_eq_some_iff.2 ⟨h, rfl⟩] at hc
        cases hc
      simp [hdigit]
    | some d =>
      obtain ⟨hdigit, rfl⟩ := digit?_eq_some_iff.1 hc
      have hvalue : Nat.ofDigitChars 10 (c :: cs) n =
          Nat.ofDigitChars 10 cs (n * 10 + (c.toNat - '0'.toNat)) := by
        rw [Nat.mul_comm n]
        rfl
      simp only [hvalue, hdigit, true_and]
      by_cases hlt : n * 10 + (c.toNat - '0'.toNat) < bound
      · rw [if_pos hlt, ih hlt]
      · rw [if_neg hlt]
        have hle := le_ofDigitChars cs (n * 10 + (c.toNat - '0'.toNat))
        simp only [reduceCtorEq, false_iff]
        rintro ⟨-, rfl, hm⟩
        exact hlt (Nat.lt_of_le_of_lt hle hm)

theorem readNumeral_eq_ok_iff {bound n : Nat} {cs : List Char} (hbound : 0 < bound) :
    readNumeral bound cs = .ok n ↔ IsNumeral cs n ∧ n < bound := by
  constructor
  · intro h
    unfold readNumeral at h
    split at h
    · cases h
    · cases h
    · rename_i c ds
      obtain ⟨hdigits, rfl, hlt⟩ := (readDigits_eq_ok_iff hbound).1 h
      exact ⟨.signed (List.cons_ne_nil c ds) hdigits, hlt⟩
    · rename_i c ds _ _
      obtain ⟨hdigits, rfl, hlt⟩ := (readDigits_eq_ok_iff hbound).1 h
      exact ⟨.plain (List.cons_ne_nil c ds) hdigits, hlt⟩
  · rintro ⟨hnumeral, hlt⟩
    cases hnumeral with
    | plain hsome hdigits =>
      have hplus : '+' ∉ cs := fun hmem => absurd (hdigits _ hmem) (by decide)
      have hread := (readDigits_eq_ok_iff hbound).2 ⟨hdigits, rfl, hlt⟩
      unfold readNumeral
      split
      · exact absurd rfl hsome
      · exact absurd List.mem_cons_self hplus
      · exact absurd List.mem_cons_self hplus
      · exact hread
    | signed hsome hdigits =>
      obtain ⟨c, ds, rfl⟩ := List.exists_cons_of_ne_nil hsome
      exact (readDigits_eq_ok_iff hbound).2 ⟨hdigits, rfl, hlt⟩

theorem readWord_eq_ok_iff {cs : List Char} {n : UInt64} :
    readWord cs = .ok n ↔ IsNumeral cs n.toNat := by
  have hiff : readNumeral UInt64.size cs = .ok n.toNat ↔ IsNumeral cs n.toNat ∧ n.toNat < UInt64.size :=
    readNumeral_eq_ok_iff (by decide)
  rw [and_iff_left n.toNat_lt] at hiff
  rw [← hiff, readWord]
  cases hread : readNumeral UInt64.size cs with
  | error e => simp [Except.map]
  | ok m =>
    have hm : m < UInt64.size := ((readNumeral_eq_ok_iff (by decide)).1 hread).2
    rw [Except.map, Except.ok.injEq, Except.ok.injEq, ← UInt64.toNat_inj,
      UInt64.toNat_ofNat_of_lt' hm]

theorem IsNumeral.eq_plus_or_isDigit {cs : List Char} {n : Nat} {c : Char} (h : IsNumeral cs n)
    (hc : c ∈ cs) : c = '+' ∨ c.isDigit = true := by
  cases h with
  | plain _ digits => exact .inr (digits c hc)
  | signed _ digits => exact (List.mem_cons.1 hc).imp_right (digits c)

theorem IsNumeral.hyphen_not_mem {cs : List Char} {n : Nat} (h : IsNumeral cs n) : '-' ∉ cs :=
  fun hmem => absurd (h.eq_plus_or_isDigit hmem) (by decide)

theorem IsNumeral.colon_not_mem {cs : List Char} {n : Nat} (h : IsNumeral cs n) : ':' ∉ cs :=
  fun hmem => absurd (h.eq_plus_or_isDigit hmem) (by decide)

end Text

namespace IdRange
open Text

/-- How a range may be written: as its one id, or as its first and its last one with a hyphen
between them. -/
inductive IsWritten : List Char → IdRange → Prop
  | single {cs : List Char} {n : UInt64} (id : IsNumeral cs n.toNat) : IsWritten cs (single n)
  | span {a b : List Char} {r : IdRange} (first : IsNumeral a r.first.toNat)
      (last : IsNumeral b r.last.toNat) : IsWritten (a ++ '-' :: b) r

theorem IsWritten.colon_not_mem {cs : List Char} {r : IdRange} (h : IsWritten cs r) : ':' ∉ cs := by
  cases h with
  | single id => exact id.colon_not_mem
  | span first last =>
    intro hmem
    rcases List.mem_append.1 hmem with hmem | hmem
    · exact first.colon_not_mem hmem
    · exact last.colon_not_mem ((List.mem_cons.1 hmem).resolve_left (by decide))

theorem parse_eq_ok_iff {entry cs : List Char} {r : IdRange} :
    parse entry cs = .ok r ↔ IsWritten cs r := by
  constructor
  · intro h
    unfold parse at h
    cases hcut : cutFirst '-' cs with
    | none =>
      rw [hcut] at h
      cases hn : readWord cs with
      | error e => simp [hn, Except.map, Except.mapError] at h
      | ok n =>
        simp only [hn, Except.map, Except.mapError, Except.ok.injEq] at h
        exact h ▸ .single (readWord_eq_ok_iff.1 hn)
    | some p =>
      obtain ⟨a, b⟩ := p
      obtain ⟨-, rfl⟩ := cutFirst_eq_some_iff.1 hcut
      rw [hcut] at h
      cases ha : readWord a with
      | error e => simp [ha, Except.mapError, bind, Except.bind] at h
      | ok first =>
        cases hb : readWord b with
        | error e => simp [ha, hb, Except.mapError, bind, Except.bind] at h
        | ok last =>
          simp only [ha, hb, Except.mapError, bind, Except.bind] at h
          split at h
          · rename_i hle
            obtain rfl := Except.ok.inj h
            exact .span (readWord_eq_ok_iff.1 ha) (readWord_eq_ok_iff.1 hb)
          · cases h
  · intro h
    cases h with
    | single id =>
      rw [parse, cutFirst_eq_none id.hyphen_not_mem]
      simp only [readWord_eq_ok_iff.2 id, Except.map, Except.mapError]
    | span first last =>
      rw [parse, cutFirst_append first.hyphen_not_mem]
      simp only [readWord_eq_ok_iff.2 first, readWord_eq_ok_iff.2 last, Except.mapError]
      exact dif_pos r.ascending

end IdRange

def ListingError.entry : ListingError → String
  | .emptySource entry | .noRanges entry | .badRange _ entry _ | .descending _ entry => entry

namespace PositionSet
open Text
variable {entry cs : List Char} {e : String × List IdRange} {es : List (String × List IdRange)}
  {p : Position}

/-- Whether an entry without blanks is a source and at least one range, with colons between them. -/
structure IsEntry (entry : List Char) (e : String × List IdRange) : Prop where
  named : e.1 ≠ ""
  plain : ':' ∉ e.1.toList
  ranged : e.2 ≠ []
  text : ∃ texts, join [':'] (e.1.toList :: texts) = entry ∧
    List.Forall₂ IdRange.IsWritten texts e.2

/-- Whether a part of a listing is nothing but blanks, or an entry apart from its blanks. -/
def IsPart (part : List Char) : Prop := dropBlanks part = [] ∨ ∃ e, IsEntry (dropBlanks part) e

theorem parse_ranges_eq_ok_iff {texts : List (List Char)} {ranges : List IdRange} :
    texts.mapM (IdRange.parse entry) = .ok ranges ↔ List.Forall₂ IdRange.IsWritten texts ranges := by
  rw [mapM_eq_ok_iff]
  simp only [IdRange.parse_eq_ok_iff]

theorem parseEntry_eq_ok_iff : parseEntry entry = .ok e ↔ IsEntry entry e := by
  constructor
  · intro h
    unfold parseEntry at h
    split at h
    · cases h
    · cases h
    · cases h
    · rename_i source texts hsource htexts hpieces
      cases hranges : texts.mapM (IdRange.parse entry) with
      | error e' => simp [hranges, bind, Except.bind] at h
      | ok ranges =>
        simp only [hranges, bind, Except.bind, Except.ok.injEq] at h
        subst h
        have hcut := areCut_iff.2 hpieces
        have hwritten := parse_ranges_eq_ok_iff.1 hranges
        refine ⟨?_, ?_, ?_, texts, ?_, hwritten⟩
        · intro hempty
          apply hsource
          simpa using hempty
        · simpa using hcut.plain source List.mem_cons_self
        · rintro rfl
          exact htexts (List.forall₂_nil_right_iff.1 hwritten)
        · simpa using hcut.joined
  · rintro ⟨hnamed, hplain, hranged, texts, rfl, hwritten⟩
    obtain ⟨source, ranges⟩ := e
    have hcolons : ∀ text ∈ texts, ':' ∉ text := by
      intro text htext
      obtain ⟨r, -, hr⟩ := exists_of_forall₂ hwritten htext
      exact hr.colon_not_mem
    have hpieces : pieces ':' (join [':'] (source.toList :: texts)) = source.toList :: texts :=
      areCut_iff.1 ⟨List.cons_ne_nil _ _, List.forall_mem_cons.2 ⟨hplain, hcolons⟩, rfl⟩
    obtain ⟨c, cs, hcs⟩ : ∃ c cs, source.toList = c :: cs :=
      List.exists_cons_of_ne_nil fun hnil => hnamed (String.toList_inj.1 hnil)
    obtain ⟨text, texts, rfl⟩ : ∃ text texts', texts = text :: texts' := by
      apply List.exists_cons_of_ne_nil
      rintro rfl
      exact hranged (List.forall₂_nil_left_iff.1 hwritten)
    have hsource : String.ofList (c :: cs) = source := by rw [← hcs, String.ofList_toList]
    rw [hcs] at hpieces ⊢
    have hranges : (text :: texts).mapM (IdRange.parse (join [':'] ((c :: cs) :: text :: texts))) =
        .ok ranges := parse_ranges_eq_ok_iff.2 hwritten
    simp only [parseEntry, hpieces, hranges, hsource]
    rfl

theorem mem_entriesOf :
    entry ∈ entriesOf cs ↔ entry ≠ [] ∧ ∃ part ∈ pieces ',' cs, dropBlanks part = entry := by
  simp [entriesOf, and_comm]

private theorem entry_of_parse_range {range : List Char} {err : ListingError}
    (h : IdRange.parse entry range = .error err) : err.entry = String.ofList entry := by
  unfold IdRange.parse at h
  split at h
  · cases hn : readWord range with
    | ok n => simp [hn, Except.map, Except.mapError] at h
    | error e' =>
      simp only [hn, Except.map, Except.mapError, Except.error.injEq] at h
      exact h ▸ rfl
  · rename_i a b _
    cases ha : readWord a with
    | error e' =>
      simp only [ha, Except.mapError, bind, Except.bind, Except.error.injEq] at h
      exact h ▸ rfl
    | ok first =>
      cases hb : readWord b with
      | error e' =>
        simp only [ha, hb, Except.mapError, bind, Except.bind, Except.error.injEq] at h
        exact h ▸ rfl
      | ok last =>
        simp only [ha, hb, Except.mapError, bind, Except.bind] at h
        split at h
        · cases h
        · exact Except.error.inj h ▸ rfl

theorem entry_of_parseEntry {err : ListingError} (h : parseEntry entry = .error err) :
    err.entry = String.ofList entry := by
  unfold parseEntry at h
  split at h
  · exact Except.error.inj h ▸ rfl
  · exact Except.error.inj h ▸ rfl
  · exact Except.error.inj h ▸ rfl
  · rename_i source texts _ _ _
    cases hranges : texts.mapM (IdRange.parse entry) with
    | ok ranges => simp [hranges, bind, Except.bind] at h
    | error e' =>
      simp only [hranges, bind, Except.bind, Except.error.injEq] at h
      subst h
      obtain ⟨text, -, hfails⟩ := exists_mem_of_mapM_eq_error hranges
      exact entry_of_parse_range hfails

/-- The error of a listing is about its first part at fault. -/
theorem exists_fault {parts : List (List Char)} {err : ListingError}
    (h : ((parts.map dropBlanks).filter fun entry => !entry.isEmpty).mapM parseEntry = .error err) :
    ∃ before part behind, parts = before ++ part :: behind ∧ (∀ p ∈ before, IsPart p) ∧
      ¬ IsPart part ∧ err.entry = String.ofList (dropBlanks part) := by
  induction parts with
  | nil => cases h
  | cons part parts ih =>
    -- a part that is read leaves the fault to the parts behind it
    have later (hpart : IsPart part) (hrest : ((parts.map dropBlanks).filter
        fun entry => !entry.isEmpty).mapM parseEntry = .error err) :
        ∃ before part' behind, part :: parts = before ++ part' :: behind ∧
          (∀ p ∈ before, IsPart p) ∧ ¬ IsPart part' ∧
          err.entry = String.ofList (dropBlanks part') := by
      obtain ⟨before, part', behind, rfl, hbefore, hfault⟩ := ih hrest
      exact ⟨part :: before, part', behind, rfl, List.forall_mem_cons.2 ⟨hpart, hbefore⟩, hfault⟩
    by_cases hblank : dropBlanks part = []
    · apply later (.inl hblank)
      simpa [hblank] using h
    · rw [List.map_cons, List.filter_cons_of_pos (by simpa using hblank), List.mapM_cons] at h
      cases hentry : parseEntry (dropBlanks part) with
      | error e' =>
        rw [hentry] at h
        obtain rfl := Except.error.inj h
        refine ⟨[], part, parts, rfl, List.forall_mem_nil _, ?_, entry_of_parseEntry hentry⟩
        rintro (hempty | ⟨e, he⟩)
        · exact hblank hempty
        · rw [parseEntry_eq_ok_iff.2 he] at hentry
          cases hentry
      | ok e =>
        apply later (.inr ⟨e, parseEntry_eq_ok_iff.1 hentry⟩)
        rw [hentry] at h
        cases hrest : ((parts.map dropBlanks).filter fun entry => !entry.isEmpty).mapM parseEntry with
        | error e' =>
          rw [hrest] at h
          exact congrArg Except.error (Except.error.inj h)
        | ok es =>
          rw [hrest] at h
          cases h

theorem mem_of_mapM_parseEntry (h : (entriesOf cs).mapM parseEntry = .ok es) :
    e ∈ es ↔ ∃ part ∈ pieces ',' cs, IsEntry (dropBlanks part) e := by
  have hread := mapM_eq_ok_iff.1 h
  constructor
  · intro he
    obtain ⟨entry, hentry, hparse⟩ := exists_of_forall₂ hread.flip he
    obtain ⟨-, part, hpart, rfl⟩ := mem_entriesOf.1 hentry
    exact ⟨part, hpart, parseEntry_eq_ok_iff.1 hparse⟩
  · rintro ⟨part, hpart, he⟩
    have hparse := parseEntry_eq_ok_iff.2 he
    have hnonempty : dropBlanks part ≠ [] := by
      intro hnil
      rw [hnil] at hparse
      cases hparse
    obtain ⟨e', he', hparse'⟩ :=
      exists_of_forall₂ hread (mem_entriesOf.2 ⟨hnonempty, part, hpart, rfl⟩)
    rw [hparse] at hparse'
    exact Except.ok.inj hparse' ▸ he'

private theorem covers_grouped {grouped : TextMap (List IdRange)} {source : String} {n : UInt64} :
    IdRange.Covers (((es.foldl addEntry grouped).get? source).getD []) n ↔
      IdRange.Covers ((grouped.get? source).getD []) n ∨
        ∃ e ∈ es, e.1 = source ∧ IdRange.Covers e.2 n := by
  induction es generalizing grouped with
  | nil => simp
  | cons e es ih =>
    rw [List.foldl_cons, ih, addEntry, TextMap.get?_insert]
    by_cases he : source = e.1
    · subst he
      simp [or_assoc]
    · simp [he, Ne.symm he]

/-- What is read has the positions that the entries list. -/
theorem contains_ofEntries : (ofEntries es).contains p = true ↔
    ∃ e ∈ es, e.1 = p.source ∧ ∃ r ∈ e.2, r.contains p.transaction = true := by
  have hgrouped :
      IdRange.Covers (((es.foldl addEntry .empty).get? p.source).getD []) p.transaction ↔
        ∃ e ∈ es, e.1 = p.source ∧ IdRange.Covers e.2 p.transaction := by
    rw [covers_grouped, TextMap.get?_empty, Option.getD_none]
    simp only [IdRange.covers_nil, false_or]
  rw [ofEntries, contains_ofMap, TextMap.get?_filterMap]
  refine Iff.trans ?_ hgrouped
  cases (es.foldl addEntry .empty).get? p.source with
  | none => simp
  | some ranges => simp [IdSet.contains_ofRanges, IdRange.Covers]

/-- A text is read exactly if each of the parts between its commas is blank or an entry. If it is not
read, the error is about the first part for which this fails, and quotes it. If it is read, the set
has the positions that the ranges of its entries cover, in whatever order the entries and ranges
come and however they overlap. -/
theorem parse_eq_ok_iff_parts (s : String) : ∃ parts, AreCut ',' s.toList parts ∧
    ((∃ set, parse s = .ok set) ↔ ∀ part ∈ parts, IsPart part) ∧
    (∀ err, parse s = .error err → err.failure = .invalidPosition err.message ∧
      ∃ before part behind, parts = before ++ part :: behind ∧ (∀ p ∈ before, IsPart p) ∧
        ¬ IsPart part ∧ err.entry = String.ofList (dropBlanks part)) ∧
    ∀ set, parse s = .ok set → ∀ p, set.contains p = true ↔
      ∃ part ∈ parts, ∃ ranges, IsEntry (dropBlanks part) (p.source, ranges) ∧
        ∃ r ∈ ranges, r.contains p.transaction = true := by
  refine ⟨pieces ',' s.toList, areCut_iff.2 rfl, ?_⟩
  unfold parse
  cases hread : (entriesOf s.toList).mapM parseEntry with
  | error err =>
    obtain ⟨before, part, behind, hparts, hbefore, hfault, hentry⟩ := exists_fault hread
    refine ⟨?_, ?_, ?_⟩
    · constructor
      · rintro ⟨set, hset⟩
        cases hset
      · intro hall
        exact absurd (hall part (by simp [hparts])) hfault
    · intro err' herr
      obtain rfl : err = err' := Except.error.inj herr
      exact ⟨rfl, before, part, behind, hparts, hbefore, hfault, hentry⟩
    · intro set hset
      cases hset
  | ok es =>
    refine ⟨?_, ?_, ?_⟩
    · constructor
      · intro _ part hpart
        by_cases hblank : dropBlanks part = []
        · exact .inl hblank
        · obtain ⟨e, -, he⟩ := exists_of_forall₂ (mapM_eq_ok_iff.1 hread)
            (mem_entriesOf.2 ⟨hblank, part, hpart, rfl⟩)
          exact .inr ⟨e, parseEntry_eq_ok_iff.1 he⟩
      · exact fun _ => ⟨ofEntries es, rfl⟩
    · intro err herr
      cases herr
    · intro set hset p
      obtain rfl : ofEntries es = set := Except.ok.inj hset
      rw [contains_ofEntries]
      constructor
      · rintro ⟨⟨source, ranges⟩, he, rfl, hcovers⟩
        obtain ⟨part, hpart, hentry⟩ := (mem_of_mapM_parseEntry hread).1 he
        exact ⟨part, hpart, ranges, hentry, hcovers⟩
      · rintro ⟨part, hpart, ranges, hentry, hcovers⟩
        exact ⟨_, (mem_of_mapM_parseEntry hread).2 ⟨part, hpart, hentry⟩, rfl, hcovers⟩

/-- The first fault counts, and the entry is quoted without its blanks. -/
example : parse "a:1, b : 2-1:x,c" = .error (.descending "2-1" "b:2-1:x") := rfl

end PositionSet
end Backfill

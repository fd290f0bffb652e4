import Backfill.Proofs.Persistence

/-! Watermarks that grow by the positions of a stream, and whether they outlive being written down.
A position is cut at its last colon and keeps whatever stands before it, but an entry of a listing is
cut at its first colon, has no comma and loses its blanks. So the stream carries positions that can be
added to a set while the text of the set denotes another set or none. -/
namespace Backfill

namespace Position
variable {t : String} {p : Position}

theorem source_of_parse (h : parse t = .ok p) :
    p.source ≠ "" ∧ ∀ c ∈ p.source.toList.head?, Text.isBlank c = false := by
  rw [parse] at h
  split at h
  · cases h
  · rename_i source number hcut
    split at h
    · cases h
    · rename_i hsource
      split at h
      · cases h
      · obtain rfl := Except.ok.inj h
        have hnonempty : source ≠ [] := by simpa using hsource
        refine ⟨fun hempty => hnonempty (String.ofList_eq_empty_iff.1 hempty), fun c hc => ?_⟩
        have hhead : c ∈ (Text.trim t.toList).head? := by
          obtain ⟨d, ds, rfl⟩ := List.exists_cons_of_ne_nil hnonempty
          rw [Text.eq_of_cutLast hcut]
          simpa using hc
        exact (Text.isTrimmed_trim _).first c hhead

/-- The positions that some text denotes: all but those of which the source is empty or begins with
a blank. -/
theorem exists_parse_iff : (∃ t, parse t = .ok p) ↔
    p.source ≠ "" ∧ ∀ c ∈ p.source.toList.head?, Text.isBlank c = false := by
  constructor
  · rintro ⟨t, h⟩
    exact source_of_parse h
  · rintro ⟨hsource, hfirst⟩
    exact ⟨p.text, parse_text hsource hfirst⟩

end Position

namespace PositionSet
variable {s : PositionSet} {p : Position}

def insertAll (s : PositionSet) (ps : List Position) : PositionSet := ps.foldl insert s

theorem Built.insertAll (hs : s.Built) (ps : List Position) : (s.insertAll ps).Built := by
  induction ps generalizing s with
  | nil => exact hs
  | cons q ps ih => exact ih (hs.insert q)

theorem contains_insertAll {ps : List Position} :
    (s.insertAll ps).contains p = true ↔ s.contains p = true ∨ p ∈ ps := by
  induction ps generalizing s with
  | nil => simp [PositionSet.insertAll]
  | cons q ps ih =>
    have hcons : s.insertAll (q :: ps) = (s.insert q).insertAll ps := rfl
    rw [hcons, ih, contains_insert, List.mem_cons, or_assoc]

theorem Built.named_iff (hs : s.Built) : (∀ source ∈ s.sources, IsSourceName source) ↔
    ∀ p, s.contains p = true → IsSourceName p.source := by
  constructor
  · intro h p hp
    exact h p.source (hs.isFilled.mem_sources_iff.2 ⟨p.transaction, hp⟩)
  · intro h source hsource
    obtain ⟨n, hn⟩ := hs.isFilled.mem_sources_iff.1 hsource
    exact h ⟨source, n⟩ hn

/-- A set is read as itself from its text if, and only if, an entry can name the source of each of
its positions. -/
theorem Built.parse_text_iff (hs : s.Built) : parse s.text = .ok s ↔
    ∀ p, s.contains p = true → IsSourceName p.source := by
  rw [← hs.named_iff]
  exact ⟨isSourceName_of_parse, parse_text hs.isFilled⟩

theorem parse_insertAll_iff {u : String} {ps : List Position} (hs : parse u = .ok s) :
    parse (s.insertAll ps).text = .ok (s.insertAll ps) ↔ ∀ p ∈ ps, IsSourceName p.source := by
  have hbuilt : s.Built := .parsed hs
  have hnamed : ∀ p, s.contains p = true → IsSourceName p.source :=
    hbuilt.named_iff.1 (isSourceName_of_parse hs)
  rw [(hbuilt.insertAll ps).parse_text_iff]
  constructor
  · intro h p hp
    exact h p (contains_insertAll.2 (.inr hp))
  · intro h p hp
    exact (contains_insertAll.1 hp).elim (hnamed p) (h p)

end PositionSet

/-- A run is restored from its document if, and only if, an entry of a listing can name the source of
each position in its watermarks. -/
theorem Run.restore_persist_iff {r : Run} (hlow : ∀ s, r.watermarks.low = some s → s.Built)
    (hhigh : ∀ s, r.watermarks.high = some s → s.Built) :
    restore r.persist = .ok r ↔
      ∀ s, r.watermarks.low = some s ∨ r.watermarks.high = some s →
        ∀ p, s.contains p = true → PositionSet.IsSourceName p.source := by
  constructor
  · intro h s hs
    have hlistable := isListable_of_restore h
    have hset : s.IsListable := hs.elim (hlistable.low s) (hlistable.high s)
    exact hset.built.named_iff.1 hset.named
  · intro h
    refine (restore_written r ⟨fun s hs => ?_, fun s hs => ?_⟩).1
    · exact ⟨hlow s hs, (hlow s hs).named_iff.2 (h s (.inl hs))⟩
    · exact ⟨hhigh s hs, (hhigh s hs).named_iff.2 (h s (.inr hs))⟩

namespace PositionSet
open Text

/-- Whether a set was listed once and has grown since by positions that came as texts. -/
def IsAccumulated (s : PositionSet) : Prop :=
  ∃ u base ps, parse u = .ok base ∧ (∀ p ∈ ps, ∃ t, Position.parse t = .ok p) ∧
    s = base.insertAll ps

theorem IsAccumulated.built {s : PositionSet} (h : s.IsAccumulated) : s.Built := by
  obtain ⟨u, base, ps, hbase, -, rfl⟩ := h
  exact (Built.parsed hbase).insertAll ps

theorem IsAccumulated.source_ne_empty {s : PositionSet} {p : Position} (h : s.IsAccumulated)
    (hp : s.contains p = true) : p.source ≠ "" := by
  obtain ⟨u, base, ps, hbase, hps, rfl⟩ := h
  rcases contains_insertAll.1 hp with hp | hp
  · exact ((Built.parsed hbase).named_iff.1 (isSourceName_of_parse hbase) p hp).ne_empty
  · obtain ⟨t, ht⟩ := hps p hp
    exact (Position.source_of_parse ht).1

/-- Positions that came as texts, in sets that are written down. A text denotes a position whatever
its source holds behind the first character. A set that was listed is read as itself from its text
after the position was added if, and only if, the source is one that an entry can name: without
colons, commas and blanks. So a run with watermarks that grew by such positions is restored from its
document just if all of their sources can be named. -/
theorem rereads_accumulated {t u : String} {p : Position} {s : PositionSet} {r : Run}
    (hp : Position.parse t = .ok p) (hs : parse u = .ok s)
    (hmarks : ∀ m, r.watermarks.low = some m ∨ r.watermarks.high = some m → m.IsAccumulated) :
    (∀ q, (∃ v, Position.parse v = .ok q) ↔
      q.source ≠ "" ∧ ∀ c ∈ q.source.toList.head?, isBlank c = false) ∧
    (parse (s.insert p).text = .ok (s.insert p) ↔
      ∀ c ∈ p.source.toList, c ≠ ':' ∧ c ≠ ',' ∧ isBlank c = false) ∧
    (Run.restore r.persist = .ok r ↔
      ∀ m, r.watermarks.low = some m ∨ r.watermarks.high = some m →
        ∀ q, m.contains q = true →
          ∀ c ∈ q.source.toList, c ≠ ':' ∧ c ≠ ',' ∧ isBlank c = false) := by
  have hname {source : String} (hne : source ≠ "") : IsSourceName source ↔
      ∀ c ∈ source.toList, c ≠ ':' ∧ c ≠ ',' ∧ isBlank c = false :=
    ⟨fun h => h.plain, fun h => ⟨hne, h⟩⟩
  refine ⟨fun q => Position.exists_parse_iff, ?_, ?_⟩
  · have hone : parse (s.insertAll [p]).text = .ok (s.insertAll [p]) ↔
        ∀ q ∈ [p], IsSourceName q.source := parse_insertAll_iff hs
    rw [← hname (Position.source_of_parse hp).1]
    exact hone.trans List.forall_mem_singleton
  · rw [Run.restore_persist_iff (fun m hm => (hmarks m (.inl hm)).built)
      (fun m hm => (hmarks m (.inr hm)).built)]
    exact forall₄_congr fun m hm q hq => hname ((hmarks m hm).source_ne_empty hq)

def grown (p : Position) : Run where
  id := "run"
  mode := .opened
  watermarks := ⟨some (.single "s" 1 5), some ((single "s" 1 5).insert p)⟩
  startedAt := 0
  lastActivity := 0

theorem isAccumulated_grown {p : Position} {t : String} (h : Position.parse t = .ok p) :
    ∀ s, (grown p).watermarks.low = some s ∨ (grown p).watermarks.high = some s →
      s.IsAccumulated := by
  have hbase : parse "s:1-5" = .ok (single "s" 1 5) := by decide +kernel
  rintro s (hs | hs)
  · obtain rfl := Option.some.inj hs
    exact ⟨_, _, [], hbase, List.forall_mem_nil _, rfl⟩
  · obtain rfl := Option.some.inj hs
    exact ⟨_, _, [p], hbase, List.forall_mem_singleton.2 ⟨t, h⟩, rfl⟩

theorem grown_accumulated : Position.parse " b-1:07 " = .ok ⟨"b-1", 7⟩ ∧
    parse ((single "s" 1 5).insert ⟨"b-1", 7⟩).text = .ok ((single "s" 1 5).insert ⟨"b-1", 7⟩) ∧
    Run.restore (grown ⟨"b-1", 7⟩).persist = .ok (grown ⟨"b-1", 7⟩) := by
  have hposition : Position.parse " b-1:07 " = .ok ⟨"b-1", 7⟩ := by decide +kernel
  have hbase : parse "s:1-5" = .ok (single "s" 1 5) := by decide +kernel
  have hplain {source : String}
      (h : source.toList.all (fun c => c ≠ ':' && c ≠ ',' && !isBlank c) = true) :
      ∀ c ∈ source.toList, c ≠ ':' ∧ c ≠ ',' ∧ isBlank c = false := by
    simpa [List.all_eq_true, and_assoc] using h
  obtain ⟨-, htext, hrun⟩ := rereads_accumulated hposition hbase (isAccumulated_grown hposition)
  refine ⟨hposition, htext.2 (hplain (by decide +kernel)), hrun.2 fun s hs p hp => ?_⟩
  have hsource : p.source = "s" ∨ p.source = "b-1" := by
    rcases hs with hs | hs
    · obtain rfl := Option.some.inj hs
      exact .inl (contains_single.1 hp).1
    · obtain rfl := Option.some.inj hs
      exact (contains_insert.1 hp).imp (fun h => (contains_single.1 h).1) (congrArg Position.source)
  rcases hsource with h | h
  · rw [h]
    exact hplain (by decide +kernel)
  · rw [h]
    exact hplain (by decide +kernel)

/-- Two positions that cannot be kept. In a listing the source `a:b` ends at its first colon, so that
the text of a set with the first position has no reading; the source `a b` loses its blank, so that
the text of a set with the second one denotes another position. -/
theorem colons_and_blanks_lost :
    Position.parse "a:b:1" = .ok ⟨"a:b", 1⟩ ∧ Position.parse "a b:1" = .ok ⟨"a b", 1⟩ ∧
    parse "" = .ok .empty ∧
    parse (empty.insert ⟨"a:b", 1⟩).text = .error (.badRange "b" "a:b:1" .invalidDigit) ∧
    parse (empty.insert ⟨"a b", 1⟩).text = .ok (single "ab" 1 1) ∧
    parse (empty.insert ⟨"a b", 1⟩).text ≠ .ok (empty.insert ⟨"a b", 1⟩) ∧
    Run.restore (grown ⟨"a:b", 1⟩).persist = .error .json := by
  have hmarks : (Json.Format.read? (Json.reading (Json.Format.write (grown ⟨"a:b", 1⟩).watermarks)) :
      Option Watermarks) = none := by decide +kernel
  refine ⟨?_, ?_, ?_, ?_, ?_, ?_, by rw [Run.restore_persist, hmarks]⟩
  all_goals decide +kernel

end PositionSet
end Backfill

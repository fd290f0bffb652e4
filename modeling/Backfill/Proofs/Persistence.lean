import Backfill.Proofs.Forms
import Backfill.Proofs.Layout
import Backfill.Proofs.Listing

/-! A run that is written down is restored as it was, from one line and from many. Its watermarks
stand in the document as texts of their own, which can be read if they name sources as an entry of a
listing can; everything else is restored whatever it holds. -/
namespace Backfill
open Json

/-- Whether a set can be listed: it was made by the operations, and an entry can name its sources. -/
structure PositionSet.IsListable (s : PositionSet) : Prop where
  built : s.Built
  named : ∀ source ∈ s.sources, IsSourceName source

theorem PositionSet.IsListable.parse_text {s : PositionSet} (h : s.IsListable) :
    parse s.text = .ok s :=
  PositionSet.parse_text h.built.isFilled h.named

structure Watermarks.IsListable (w : Watermarks) : Prop where
  low : ∀ s, w.low = some s → s.IsListable
  high : ∀ s, w.high = some s → s.IsListable

private theorem read?_mark {mark : Option PositionSet} (h : ∀ s, mark = some s → s.IsListable) :
    Format.read? (reading (Format.write mark)) = some mark := by
  cases mark with
  | none => rfl
  | some s =>
    have hread : (PositionSet.parse s.text).toOption = some s := by
      rw [(h s rfl).parse_text]
      rfl
    exact congrArg (Option.map some) hread

theorem Watermarks.IsListable.read_write {w : Watermarks} (h : w.IsListable) :
    Format.read? (reading (Format.write w)) = some w := by
  refine Option.bind_eq_some_iff.2 ⟨_, Fields.ofReading?_object (by simp), ?_⟩
  simp [Fields.optional, Fields.get?, read?_mark h.low, read?_mark h.high]

/-! What was read from a text can be written down again. -/

private theorem isListable_of_read?_mark {r : Reading} {mark : Option PositionSet}
    (h : Format.read? r = some mark) : ∀ s, mark = some s → s.IsListable := by
  rintro s rfl
  have hset : (Format.read? r : Option PositionSet) = some s := by
    cases r with
    | null => cases h
    | _ =>
      obtain ⟨s', hs', heq⟩ := Option.map_eq_some_iff.1 h
      exact Option.some.inj heq ▸ hs'
  obtain ⟨text, -, hparse⟩ := Option.bind_eq_some_iff.1 hset
  cases ht : PositionSet.parse text with
  | error f => simp [ht, Except.toOption] at hparse
  | ok s' =>
    rw [ht] at hparse
    obtain rfl := Option.some.inj hparse
    exact ⟨.parsed ht, PositionSet.isSourceName_of_parse ht⟩

private theorem isListable_of_optional {fs : Fields} {name : String} {mark : Option PositionSet}
    (h : fs.optional name = some mark) : ∀ s, mark = some s → s.IsListable := by
  unfold Fields.optional at h
  split at h
  · exact isListable_of_read?_mark h
  · split at h
    · cases h
    · exact Option.some.inj h ▸ fun s hs => nomatch hs

theorem Watermarks.isListable_empty : ({} : Watermarks).IsListable :=
  ⟨fun _ hs => absurd hs (by simp), fun _ hs => absurd hs (by simp)⟩

theorem Watermarks.isListable_of_read? {r : Reading} {w : Watermarks}
    (h : Format.read? r = some w) : w.IsListable := by
  obtain ⟨fs, -, h⟩ := Option.bind_eq_some_iff.1 h
  obtain ⟨low, hlow, h⟩ := Option.bind_eq_some_iff.1 h
  obtain ⟨high, hhigh, h⟩ := Option.bind_eq_some_iff.1 h
  obtain rfl := Option.some.inj h
  exact ⟨isListable_of_optional hlow, isListable_of_optional hhigh⟩

namespace Run

/-- The watermarks of a run that was restored can be listed, whatever text it was restored from. -/
theorem isListable_of_restore {text : String} {r : Run} (h : restore text = .ok r) :
    r.watermarks.IsListable := by
  rw [restore, parse] at h
  split at h
  · rename_i r' hread
    obtain rfl := Except.ok.inj h
    obtain ⟨reading, -, hread⟩ := Option.bind_eq_some_iff.1 hread
    obtain ⟨fs, -, hread⟩ := Option.bind_eq_some_iff.1 hread
    obtain ⟨_, -, hread⟩ := Option.bind_eq_some_iff.1 hread
    obtain ⟨_, -, hread⟩ := Option.bind_eq_some_iff.1 hread
    obtain ⟨_, -, hread⟩ := Option.bind_eq_some_iff.1 hread
    obtain ⟨_, -, hread⟩ := Option.bind_eq_some_iff.1 hread
    obtain ⟨_, -, hread⟩ := Option.bind_eq_some_iff.1 hread
    obtain ⟨w, hw, hread⟩ := Option.bind_eq_some_iff.1 hread
    obtain ⟨_, -, hread⟩ := Option.bind_eq_some_iff.1 hread
    obtain ⟨_, -, hread⟩ := Option.bind_eq_some_iff.1 hread
    obtain ⟨_, -, hread⟩ := Option.bind_eq_some_iff.1 hread
    obtain ⟨_, -, hread⟩ := Option.bind_eq_some_iff.1 hread
    obtain rfl := Option.some.inj hread
    unfold Fields.defaulted at hw
    split at hw
    · exact Watermarks.isListable_of_read? hw
    · exact Option.some.inj hw ▸ Watermarks.isListable_empty
  · cases h

private theorem restore_of_reading {r : Run} {s : String} (h : r.watermarks.IsListable)
    (hread : Json.read s = some (reading (Format.write r))) : restore s = .ok r := by
  rw [restore_of_read hread, h.read_write]

theorem restore_renderPretty (r : Run) (h : r.watermarks.IsListable) :
    restore (renderPretty r) = .ok r :=
  restore_of_reading h (read_printPretty r.rereads_write)

/-- Whatever a run holds, it is restored from its document and from the one that is laid out over
several lines, if its watermarks can be listed. -/
theorem restore_written (r : Run) (h : r.watermarks.IsListable) :
    restore r.persist = .ok r ∧ restore (renderPretty r) = .ok r :=
  ⟨restore_of_reading h (read_print r.rereads_write), restore_renderPretty r h⟩

/-- A run in an open window, with texts that are escaped and a key with parts of every kind. -/
def laden : Run where
  id := "run\n\t\\ 1"
  tables := [⟨"d", "a.b"⟩, ⟨"", "\u00fc"⟩]
  filters := TextMap.empty.insert "d.a.b" "name = 'x'"
  chunk := { sequence := IdRange.maxId, stop := some ⟨[.null, .int (-5), .text "k", .bytes [0, 255]]⟩ }
  mode := .opened
  watermarks := ⟨some (.single "s" 1 5), some .empty⟩
  commandOffset := some 0
  startedAt := -1
  lastActivity := 0

theorem laden_isListable : laden.watermarks.IsListable := by
  have hlow : (PositionSet.single "s" 1 5).IsListable := by
    refine ⟨.single _ _ _, fun source hsource => ?_⟩
    obtain rfl : source = "s" := List.mem_singleton.1 hsource
    have hplain : ∀ c ∈ ['s'], c ≠ ':' ∧ c ≠ ',' ∧ Text.isBlank c = false :=
      List.forall_mem_singleton.2 ⟨by decide, by decide, by decide⟩
    exact ⟨by decide, hplain⟩
  refine ⟨fun s hs => ?_, fun s hs => ?_⟩
  · exact Option.some.inj hs ▸ hlow
  · exact Option.some.inj hs ▸ ⟨.empty, List.forall_mem_nil _⟩

theorem laden_restored : laden.watermarks.IsListable ∧
    restore laden.persist = .ok laden ∧ restore (renderPretty laden) = .ok laden :=
  ⟨laden_isListable, restore_written laden laden_isListable⟩

end Run
end Backfill

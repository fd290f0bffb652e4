import Backfill.Proofs.Recording
import Backfill.Proofs.Selection
import Mathlib.Data.List.Induction

/-! The database that a snapshot is taken of, as a log of committed transactions, and the table that
a sink makes of the records it is given. -/
namespace Backfill

structure Transaction where
  position : Position
  changes : List Change

/-- A database. It begins with some contents, and transactions are committed one after the other. -/
structure Source where
  initial : Table → Contents
  log : List Transaction

def Record.outcome (r : Record) : Option Json := if r.operation = .delete then none else r.data

def Contents.record (c : Contents) (r : Record) : Contents := fun k =>
  if r.key = k then r.outcome else c k

def Contents.change (t : Table) (c : Contents) (ch : Change) : Contents :=
  if ch.table = t then c.record ch.record else c

theorem Contents.change_of_ne {t : Table} {c : Contents} {ch : Change} {k : Key}
    (h : ¬ (ch.table = t ∧ ch.key = k)) : c.change t ch k = c k := by
  unfold change
  split
  · rename_i ht
    exact if_neg fun hk => h ⟨ht, hk⟩
  · rfl

namespace Source

def changesOf (log : List Transaction) : List (Position × Change) :=
  log.flatMap fun tr => tr.changes.map fun ch => (tr.position, ch)

variable (src : Source)

def changes : List (Position × Change) := changesOf src.log

/-- The number of changes that the first transactions made. -/
def boundary (n : Nat) : Nat := (changesOf (src.log.take n)).length

/-- The contents of a table after the first changes. -/
def after (d : Nat) (t : Table) : Contents :=
  (src.changes.take d).foldl (fun c ch => c.change t ch.2) (src.initial t)

def tableAt (n : Nat) (t : Table) : Contents := src.after (src.boundary n) t

/-- Whether, of the positions of the log, a set has those of the first transactions. -/
def Marks (n : Nat) (executed : PositionSet) : Prop :=
  ∀ i tr, src.log[i]? = some tr → (executed.contains tr.position = true ↔ i < n)

variable {src} {d n : Nat} {t : Table} {k : Key}

theorem changes_eq (n : Nat) :
    src.changes = changesOf (src.log.take n) ++ changesOf (src.log.drop n) := by
  rw [changes, changesOf, changesOf, changesOf, ← List.flatMap_append, List.take_append_drop]

theorem boundary_mono {m n : Nat} (h : m ≤ n) : src.boundary m ≤ src.boundary n := by
  have hprefix : src.log.take m <+: src.log.take n := List.take_prefix_take_left h
  obtain ⟨rest, hrest⟩ := hprefix
  simp only [boundary, ← hrest, changesOf, List.flatMap_append, List.length_append]
  omega

theorem after_succ {p : Position} {ch : Change} (h : src.changes[d]? = some (p, ch)) :
    src.after (d + 1) t = (src.after d t).change t ch := by
  simp only [after, List.take_add_one, h, List.foldl_append, Option.toList_some, List.foldl_cons,
    List.foldl_nil]

theorem after_eq_initial (h : ∀ i p ch, i < d → src.changes[i]? = some (p, ch) →
    ¬ (ch.table = t ∧ ch.key = k)) : src.after d t k = src.initial t k := by
  induction d with
  | zero => simp [after]
  | succ d ih =>
    have hprevious := ih fun i p ch hi => h i p ch (by omega)
    cases hd : src.changes[d]? with
    | none =>
      have hlength : src.changes.length ≤ d := List.getElem?_eq_none_iff.1 hd
      rw [← hprevious, after, after, List.take_of_length_le hlength,
        List.take_of_length_le (by omega)]
    | some pch =>
      obtain ⟨p, ch⟩ := pch
      rw [after_succ hd, Contents.change_of_ne (h d p ch (by omega) hd), hprevious]

/-- A change whose position is among those of the first transactions is one of theirs. -/
theorem lt_boundary {executed : PositionSet} {p : Position} {ch : Change}
    (hmarks : src.Marks n executed) (h : src.changes[d]? = some (p, ch))
    (hp : executed.contains p = true) : d < src.boundary n := by
  by_contra hle
  rw [src.changes_eq n, List.getElem?_append_right (not_lt.1 hle)] at h
  obtain ⟨tr, htr, hmem⟩ := List.mem_flatMap.1 (List.mem_of_getElem? h)
  obtain ⟨ch', -, heq⟩ := List.mem_map.1 hmem
  obtain ⟨i, hi⟩ := List.mem_iff_getElem?.1 htr
  rw [List.getElem?_drop] at hi
  have hlt := (hmarks (n + i) tr hi).1 ((Prod.mk.inj heq).1 ▸ hp)
  omega

end Source

/-- The table that a sink makes of the records it was given, one after the other. -/
def replay (t : Table) (es : List Emission) : Contents :=
  es.foldl (fun c e => if e.table = t then c.record e.record else c) fun _ => none

def Touched (t : Table) (es : List Emission) (k : Key) : Prop :=
  ∃ e ∈ es, e.table = t ∧ e.record.key = k

section Replay
variable {t : Table} {es : List Emission} {e : Emission} {k : Key}

theorem replay_snoc (t : Table) (es : List Emission) (e : Emission) :
    replay t (es ++ [e]) =
      if e.table = t then (replay t es).record e.record else replay t es := by
  rw [replay, List.foldl_append]
  rfl

theorem replay_snoc_of_ne (h : ¬ (e.table = t ∧ e.record.key = k)) :
    replay t (es ++ [e]) k = replay t es k := by
  rw [replay_snoc]
  split
  · rename_i ht
    exact if_neg fun hk => h ⟨ht, hk⟩
  · rfl

theorem replay_snoc_self (ht : e.table = t) : replay t (es ++ [e]) e.record.key = e.record.outcome := by
  rw [replay_snoc, if_pos ht]
  exact if_pos rfl

theorem touched_snoc : Touched t (es ++ [e]) k ↔
    Touched t es k ∨ e.table = t ∧ e.record.key = k := by
  simp only [Touched, List.mem_append, List.mem_singleton, or_and_right, exists_or, exists_eq_left]

theorem replay_of_not_touched (h : ¬ Touched t es k) : replay t es k = none := by
  induction es using List.reverseRecOn with
  | nil => rfl
  | append_singleton es e ih =>
    rw [touched_snoc, not_or] at h
    rw [replay_snoc_of_ne h.2, ih h.1]

end Replay
end Backfill

import Backfill.Proofs.Position
import Backfill.Run.Basic
import Mathlib.Logic.Relation

/-! What an ordered stream does to the window of a chunk. Units come first whose positions are in
the low watermark, then units whose positions were executed while the chunk was read, and then one
whose position is later. The first ones mean nothing, those between open the window and have
changes compared with the rows, and the last one closes it. From there on nothing happens to the
window until a low watermark is captured anew. -/
namespace Backfill
open Relation

/-- A unit as the window sees it: when it came and the position it brought. -/
structure Arrival where
  now : Int64
  position : Option Position
deriving DecidableEq

/-- The transition that leaves a closed window closed and asks for nothing. -/
def Transition.idle : Transition := ⟨.closed, []⟩

namespace Watermarks
variable {w : Watermarks} {mode : WindowMode} {p : Position}

theorem transition_none (w : Watermarks) (mode : WindowMode) :
    (w.transition mode none).mode = mode ∧ (w.transition mode none).opens = false ∧
      (w.transition mode none).closes = false := by
  cases mode <;> simp [transition, Transition.opens, Transition.closes]

theorem transition_closed (h : isPast w.low p = false) :
    w.transition .closed (some p) = .idle := by
  simp [transition, Transition.idle, h]

theorem transition_opening (hlow : isPast w.low p = true) (hhigh : isPast w.high p = false) :
    w.transition .closed (some p) = ⟨.opened, [.openWindow, .deduplicate]⟩ := by
  simp [transition, hlow, hhigh]

theorem transition_staying (h : isPast w.high p = false) :
    w.transition .opened (some p) = ⟨.opened, [.deduplicate]⟩ := by
  simp [transition, h]

theorem transition_past (hlow : isPast w.low p = true) (hhigh : isPast w.high p = true) :
    w.transition mode (some p) =
      ⟨.closed, (if mode = .closed then [.openWindow] else []) ++ [.closeWindow]⟩ := by
  cases mode <;> simp [transition, hlow, hhigh]

end Watermarks

namespace Run
variable {r s : Run} {us vs seen rest : List Arrival} {u : Arrival} {now : Int64} {p : Position}

def follow (r : Run) : List Arrival → Run
  | [] => r
  | u :: us => (r.advance u.now u.position).follow us

def transitions (r : Run) : List Arrival → List Transition
  | [] => []
  | u :: us => r.transition u.position :: (r.advance u.now u.position).transitions us

theorem follow_append (r : Run) (us vs : List Arrival) :
    r.follow (us ++ vs) = (r.follow us).follow vs := by
  induction us generalizing r with
  | nil => rfl
  | cons u us ih => exact ih _

theorem transitions_append (r : Run) (us vs : List Arrival) :
    r.transitions (us ++ vs) = r.transitions us ++ (r.follow us).transitions vs := by
  induction us generalizing r with
  | nil => rfl
  | cons u us ih => exact congrArg (_ :: ·) (ih _)

theorem exists_of_mem_transitions {t : Transition} (h : t ∈ r.transitions us) :
    ∃ seen u rest, us = seen ++ u :: rest ∧ t = (r.follow seen).transition u.position := by
  induction us generalizing r with
  | nil => exact absurd h List.not_mem_nil
  | cons v us ih =>
    rcases List.mem_cons.1 h with rfl | h
    · exact ⟨[], v, us, rfl, rfl⟩
    · obtain ⟨seen, u, rest, rfl, ht⟩ := ih h
      exact ⟨v :: seen, u, rest, rfl, ht⟩

theorem advance_of_not_closes {position : Option Position}
    (h : (r.transition position).closes = false) (now : Int64) :
    r.advance now position = { r with mode := (r.transition position).mode } := by
  simp [advance, h]

theorem advance_of_closes {position : Option Position}
    (h : (r.transition position).closes = true) (now : Int64) :
    r.advance now position = r.closeWindow now := by
  simp [advance, h]

theorem transition_none (r : Run) : (r.transition none).mode = r.mode ∧
    (r.transition none).opens = false ∧ (r.transition none).closes = false :=
  r.watermarks.transition_none r.mode

theorem advance_none (r : Run) (now : Int64) : r.advance now none = r := by
  rw [advance_of_not_closes r.transition_none.2.2, r.transition_none.1]

theorem advance_of_idle (hmode : r.mode = .closed) {position : Option Position}
    (h : r.transition position = .idle) (now : Int64) : r.advance now position = r := by
  rw [advance_of_not_closes (by rw [h]; rfl), h, Transition.idle, ← hmode]

/-- Whether the window is closed and nothing can open it. -/
structure Unmarked (r : Run) : Prop where
  mode : r.mode = .closed
  low : r.watermarks.low = none

/-- One thing that happens to a run, other than that a low watermark is captured. -/
inductive Turns (r : Run) : Run → Prop
  | touched (now : Int64) : Turns r (r.touch now)
  | added (now : Int64) (tables : List Table) (filters : TextMap String) :
    Turns r (r.addTables now tables filters)
  | removed (now : Int64) (tables : List Table) : Turns r (r.removeTables now tables)
  | cleared (now : Int64) : Turns r (r.clearTables now)
  | finished (now : Int64) : Turns r (r.nextTable now)
  | started (now : Int64) : Turns r (r.startChunk now)
  | read (k : Key) : Turns r (r.chunkEndsAt k)
  | reverted : Turns r r.revertChunk
  | measured (k : Key) : Turns r (r.setMaximum k)
  | sent (k : Key) : Turns r (r.recordSent k)
  | marked (executed : PositionSet) : Turns r (r.setHigh executed)
  | closed (now : Int64) : Turns r (r.closeWindow now)
  | advanced (now : Int64) (position : Option Position) : Turns r (r.advance now position)
  | paused (paused : Bool) : Turns r { r with paused }
  | noted (offset : Option UInt64) : Turns r { r with commandOffset := offset }

namespace Unmarked

theorem transition (h : r.Unmarked) (p : Position) : r.transition (some p) = .idle := by
  rw [Run.transition, h.mode]
  exact Watermarks.transition_closed (by rw [h.low]; rfl)

theorem advance (h : r.Unmarked) (now : Int64) (position : Option Position) :
    r.advance now position = r := by
  cases position with
  | none => exact advance_none r now
  | some p => exact advance_of_idle h.mode (h.transition p) now

theorem closeWindow (r : Run) (now : Int64) : (r.closeWindow now).Unmarked := ⟨rfl, rfl⟩

private theorem of_eq (h : r.Unmarked) (hmode : s.mode = r.mode)
    (hlow : s.watermarks.low = r.watermarks.low) : s.Unmarked :=
  ⟨hmode.trans h.mode, hlow.trans h.low⟩

private theorem enqueue (h : r.Unmarked) (filters : TextMap String) (t : Table) :
    (r.enqueue filters t).Unmarked := by
  rw [Run.enqueue]
  split
  · exact h
  · exact h.of_eq rfl rfl

private theorem addTables (h : r.Unmarked) (tables : List Table) (filters : TextMap String) :
    (tables.foldl (Run.enqueue filters) r).Unmarked := by
  induction tables generalizing r with
  | nil => exact h
  | cons t ts ih => exact ih (h.enqueue filters t)

/-- Only a low watermark makes positions count again. -/
theorem turns (h : r.Unmarked) (hturns : Turns r s) : s.Unmarked := by
  cases hturns with
  | added now tables filters => exact (h.addTables tables filters).of_eq rfl rfl
  | reverted => exact ⟨rfl, h.low⟩
  | closed now => exact closeWindow r now
  | advanced now position => exact (h.advance now position).symm ▸ h
  | _ => exact h.of_eq rfl rfl

theorem turnsAll (h : r.Unmarked) (hturns : ReflTransGen Turns r s) : s.Unmarked := by
  induction hturns with
  | refl => exact h
  | tail _ hturn ih => exact ih.turns hturn

end Unmarked

theorem turns_follow (r : Run) (us : List Arrival) : ReflTransGen Turns r (r.follow us) := by
  induction us generalizing r with
  | nil => exact .refl
  | cons u us ih => exact .head (.advanced u.now u.position) (ih _)

end Run

def Arrival.positions (us : List Arrival) : List Position := us.filterMap Arrival.position

/-- Whether the positions of units lead past both watermarks: some in the low watermark, then some
that were executed since, then one in neither. Units without a position may be anywhere. -/
structure PassesWindow (low executed : PositionSet) (us : List Arrival) (before within : List Position)
    (x : Position) : Prop where
  positions : Arrival.positions us = before ++ within ++ [x]
  before : ∀ p ∈ before, low.contains p = true
  within : ∀ p ∈ within, executed.contains p = true ∧ low.contains p = false
  last : executed.contains x = false ∧ low.contains x = false

namespace Run

def marked (r : Run) (low executed : PositionSet) : Run := (r.setLow low).setHigh executed

structure Classifies (r : Run) (low executed : PositionSet) (us : List Arrival) : Prop where
  /-- A position in the low watermark asks for nothing and changes nothing. -/
  early : ∀ seen u rest p, us = seen ++ u :: rest → u.position = some p → low.contains p = true →
    (r.follow seen).transition u.position = .idle ∧ r.follow (seen ++ [u]) = r.follow seen
  /-- With one that was executed since, changes are compared with the rows, and the window stays
  open. -/
  within : ∀ seen u rest p, us = seen ++ u :: rest → u.position = some p →
    low.contains p = false → executed.contains p = true →
    ((r.follow seen).transition u.position).deduplicates = true ∧
      ((r.follow seen).transition u.position).closes = false ∧
      (r.follow (seen ++ [u])).mode = .opened
  /-- A later one closes the window and nothing is compared; the watermarks are spent. -/
  past : ∀ seen u rest p, us = seen ++ u :: rest → u.position = some p →
    low.contains p = false → executed.contains p = false →
    ((r.follow seen).transition u.position).closes = true ∧
      ((r.follow seen).transition u.position).deduplicates = false ∧
      (r.follow (seen ++ [u])).mode = .closed ∧ (r.follow (seen ++ [u])).watermarks = {}
  /-- The window opens with the first position outside the low watermark and with no other. -/
  opens : ∀ seen u rest, us = seen ++ u :: rest →
    (((r.follow seen).transition u.position).opens = true ↔
      (∃ p, u.position = some p ∧ low.contains p = false) ∧
        ∀ p ∈ Arrival.positions seen, low.contains p = true)
  once : (r.transitions us).countP Transition.opens = 1
  /-- A unit without a position leaves the run as it is. -/
  unplaced : ∀ seen u rest, us = seen ++ u :: rest → u.position = none →
    ((r.follow seen).transition u.position).mode = (r.follow seen).mode ∧
      ((r.follow seen).transition u.position).opens = false ∧
      ((r.follow seen).transition u.position).closes = false ∧
      r.follow (seen ++ [u]) = r.follow seen
  /-- Whatever happens afterwards except that a low watermark is captured, positions mean nothing. -/
  quiet : ∀ s, ReflTransGen Turns (r.follow us) s → ∀ p now,
    s.transition (some p) = .idle ∧ s.advance now (some p) = s

end Run

section
variable {r : Run} {low executed : PositionSet} {us vs seen rest : List Arrival} {u : Arrival}
  {before within : List Position} {x p : Position}

namespace Arrival

theorem positions_append (us vs : List Arrival) :
    positions (us ++ vs) = positions us ++ positions vs :=
  List.filterMap_append

theorem mem_positions : p ∈ positions us ↔ ∃ u ∈ us, u.position = some p := List.mem_filterMap

theorem positions_cons (hu : u.position = some p) : positions (u :: us) = p :: positions us :=
  List.filterMap_cons_some hu

end Arrival

namespace Run

def opened (r : Run) : Run := { r with mode := .opened }

theorem isPast_low (r : Run) (low executed : PositionSet) (p : Position) :
    Watermarks.isPast (r.marked low executed).watermarks.low p = !low.contains p := rfl

/-- A position is outside the high watermark if it was not executed or is in the low watermark. -/
theorem isPast_high (r : Run) (low executed : PositionSet) (p : Position) :
    Watermarks.isPast (r.marked low executed).watermarks.high p =
      (!executed.contains p || low.contains p) := by
  have h : (executed.subtract low).contains p = (executed.contains p && !low.contains p) := by
    rw [Bool.eq_iff_iff, PositionSet.contains_subtract]
    simp
  change (!(executed.subtract low).contains p) = _
  simp [h]

theorem transition_early (hmode : r.mode = .closed) (h : low.contains p = true) :
    (r.marked low executed).transition (some p) = .idle := by
  rw [transition, show (r.marked low executed).mode = .closed from hmode]
  exact Watermarks.transition_closed (by rw [isPast_low, h]; rfl)

theorem advance_early (hmode : r.mode = .closed) (h : low.contains p = true) (now : Int64) :
    (r.marked low executed).advance now (some p) = r.marked low executed :=
  advance_of_idle (r := r.marked low executed) hmode (transition_early hmode h) now

theorem transition_first (hmode : r.mode = .closed) (hlow : low.contains p = false)
    (h : executed.contains p = true) :
    (r.marked low executed).transition (some p) = ⟨.opened, [.openWindow, .deduplicate]⟩ := by
  rw [transition, show (r.marked low executed).mode = .closed from hmode]
  exact Watermarks.transition_opening (by rw [isPast_low, hlow]; rfl)
    (by rw [isPast_high, hlow, h]; rfl)

theorem advance_first (hmode : r.mode = .closed) (hlow : low.contains p = false)
    (h : executed.contains p = true) (now : Int64) :
    (r.marked low executed).advance now (some p) = (r.marked low executed).opened := by
  have hopen := transition_first hmode hlow h
  rw [advance_of_not_closes (by rw [hopen]; rfl), hopen, opened]

theorem transition_within (hlow : low.contains p = false) (h : executed.contains p = true) :
    (r.marked low executed).opened.transition (some p) = ⟨.opened, [.deduplicate]⟩ :=
  Watermarks.transition_staying ((r.isPast_high low executed p).trans (by rw [hlow, h]; rfl))

theorem advance_within (hlow : low.contains p = false) (h : executed.contains p = true)
    (now : Int64) :
    (r.marked low executed).opened.advance now (some p) = (r.marked low executed).opened := by
  have hstays := transition_within (r := r) hlow h
  rw [advance_of_not_closes (by rw [hstays]; rfl), hstays, opened]

theorem transition_last (hlow : low.contains p = false) (h : executed.contains p = false)
    {s : Run} (hmarks : s.watermarks = (r.marked low executed).watermarks) :
    s.transition (some p) =
      ⟨.closed, (if s.mode = .closed then [.openWindow] else []) ++ [.closeWindow]⟩ := by
  rw [transition, hmarks]
  exact Watermarks.transition_past (by rw [isPast_low, hlow]; rfl)
    (by rw [isPast_high, hlow, h]; rfl)

theorem follow_of_unmoved (h : ∀ p ∈ Arrival.positions us, ∀ now, r.advance now (some p) = r) :
    r.follow us = r := by
  induction us with
  | nil => rfl
  | cons u us ih =>
    have hu : r.advance u.now u.position = r := by
      cases hposition : u.position with
      | none => exact advance_none r u.now
      | some p => exact h p (by rw [Arrival.positions_cons hposition]; simp) u.now
    rw [follow, hu]
    exact ih fun p hp => h p (Arrival.positions_append [u] us ▸ List.mem_append_right _ hp)

/-- What positions of the low watermark and then such as were executed since leave of a run: itself,
or the run with its window open. -/
theorem follow_within (hmode : r.mode = .closed)
    (hpositions : Arrival.positions us = before ++ within)
    (hbefore : ∀ p ∈ before, low.contains p = true)
    (hwithin : ∀ p ∈ within, executed.contains p = true ∧ low.contains p = false) :
    (r.marked low executed).follow us =
      if within = [] then r.marked low executed else (r.marked low executed).opened := by
  have hearly {vs : List Arrival} (hvs : ∀ p ∈ Arrival.positions vs, low.contains p = true) :
      (r.marked low executed).follow vs = r.marked low executed :=
    follow_of_unmoved fun p hp => advance_early hmode (hvs p hp)
  obtain ⟨us₁, us₂, rfl, hus₁, hus₂⟩ := List.filterMap_eq_append_iff.1 hpositions
  rw [follow_append, hearly fun p hp => hbefore p (hus₁ ▸ hp)]
  cases within with
  | nil => exact hearly fun p hp => absurd (hus₂ ▸ hp : p ∈ []) List.not_mem_nil
  | cons q within =>
    -- the window opens with the first of these positions and stays as it is with the others
    obtain ⟨us₃, u, us₄, rfl, hus₃, hu, hus₄⟩ := List.filterMap_eq_cons_iff.1 hus₂
    have hnone : Arrival.positions us₃ = [] := List.filterMap_eq_nil_iff.2 hus₃
    have hq := hwithin q List.mem_cons_self
    rw [follow_append, hearly (by simp [hnone]), follow, hu, advance_first hmode hq.2 hq.1,
      if_neg (List.cons_ne_nil _ _)]
    refine follow_of_unmoved fun p hp => ?_
    have hp := hwithin p (List.mem_cons_of_mem _ (hus₄ ▸ hp))
    exact advance_within hp.2 hp.1

end Run

theorem Arrival.exists_first (hp : p ∈ positions us) (hlow : low.contains p = false) :
    ∃ seen u rest, us = seen ++ u :: rest ∧ (∃ q, u.position = some q ∧ low.contains q = false) ∧
      ∀ q ∈ positions seen, low.contains q = true := by
  obtain ⟨v, hv, hvp⟩ := mem_positions.1 hp
  have hsome : us.any (fun u => u.position.any fun q => !low.contains q) = true :=
    List.any_eq_true.2 ⟨v, hv, by simp [hvp, hlow]⟩
  obtain ⟨u, hfirst⟩ := Option.isSome_iff_exists.1 (List.find?_isSome.2 (List.any_eq_true.1 hsome))
  obtain ⟨hu, seen, rest, rfl, hseen⟩ := List.find?_eq_some_iff_append.1 hfirst
  refine ⟨seen, u, rest, rfl, by simpa [Option.any_eq_true] using hu, fun q hq => ?_⟩
  obtain ⟨v, hv, hvq⟩ := mem_positions.1 hq
  simpa [hvq] using hseen v hv

theorem Arrival.first_unique {seen' rest' : List Arrival} {u' : Arrival} {q : Position}
    (hsplit : seen ++ u :: rest = seen' ++ u' :: rest')
    (hu : u.position = some p) (hp : low.contains p = false)
    (hu' : u'.position = some q) (hq : low.contains q = false)
    (hseen : ∀ q ∈ positions seen, low.contains q = true)
    (hseen' : ∀ q ∈ positions seen', low.contains q = true) : seen' = seen := by
  rcases List.append_eq_append_iff.1 hsplit with ⟨vs, hvs, htail⟩ | ⟨vs, hvs, htail⟩ <;>
    cases vs with
    | nil => simp [hvs]
    | cons v vs => ?_
  · obtain rfl : u = v := (List.cons.inj htail).1
    exact absurd (hseen' p (mem_positions.2 ⟨u, by simp [hvs], hu⟩)) (by simp [hp])
  · obtain rfl : u' = v := (List.cons.inj htail).1
    exact absurd (hseen q (mem_positions.2 ⟨u', by simp [hvs], hu'⟩)) (by simp [hq])

/-- What is seen before a position of such a row are positions of the low watermark and then such as
were executed since, the latter only before a position outside the low watermark. -/
theorem PassesWindow.exists_seen (h : PassesWindow low executed us before within x)
    (hus : us = seen ++ u :: rest) (hu : u.position = some p) :
    ∃ b w, Arrival.positions seen = b ++ w ∧ (∀ q ∈ b, low.contains q = true) ∧
      (∀ q ∈ w, executed.contains q = true ∧ low.contains q = false) ∧
      (low.contains p = true → w = []) := by
  have hsplit : Arrival.positions seen ++ p :: Arrival.positions rest = before ++ (within ++ [x]) := by
    rw [← Arrival.positions_cons hu, ← Arrival.positions_append, ← hus, h.positions,
      List.append_assoc]
  rcases List.append_eq_append_iff.1 hsplit with ⟨b, hbefore, -⟩ | ⟨w, hseen, htail⟩
  · exact ⟨_, [], (List.append_nil _).symm,
      fun q hq => h.before q (hbefore ▸ List.mem_append_left _ hq), by simp, fun _ => rfl⟩
  · have hwithin : within = w ++ (p :: Arrival.positions rest).dropLast := by
      rw [← List.dropLast_append_of_ne_nil (List.cons_ne_nil _ _), ← htail, List.dropLast_concat]
    refine ⟨before, w, hseen, h.before, fun q hq => ?_, fun hp => ?_⟩
    · exact h.within q (hwithin ▸ List.mem_append_left _ hq)
    · have hlater : low.contains p = false := by
        have hmem : p ∈ within ++ [x] := htail ▸ List.mem_append_right _ List.mem_cons_self
        rcases List.mem_append.1 hmem with hmem | hmem
        · exact (h.within p hmem).2
        · exact List.mem_singleton.1 hmem ▸ h.last.2
      exact absurd hp (by simp [hlater])

namespace Run

theorem follow_concat (r : Run) (us : List Arrival) (u : Arrival) :
    r.follow (us ++ [u]) = (r.follow us).advance u.now u.position :=
  follow_append r us [u]

/-- Before a position the window is closed as it was, or it is open and the low watermark is left
behind. -/
theorem follow_seen (hmode : r.mode = .closed) (h : PassesWindow low executed us before within x)
    (hus : us = seen ++ u :: rest) (hu : u.position = some p) :
    ((r.marked low executed).follow seen = r.marked low executed ∧
        ∀ q ∈ Arrival.positions seen, low.contains q = true) ∨
      ((r.marked low executed).follow seen = (r.marked low executed).opened ∧
        low.contains p = false ∧ ∃ q ∈ Arrival.positions seen, low.contains q = false) := by
  obtain ⟨b, w, hseen, hb, hw, hp⟩ := h.exists_seen hus hu
  rw [follow_within hmode hseen hb hw, hseen]
  cases w with
  | nil => exact .inl ⟨rfl, by simpa using hb⟩
  | cons q w =>
    refine .inr ⟨rfl, Bool.eq_false_iff.2 fun hlow => absurd (hp hlow) (List.cons_ne_nil q w), ?_⟩
    exact ⟨q, by simp, (hw q List.mem_cons_self).2⟩

theorem countP_opens (hus : us = seen ++ u :: rest)
    (hopens : ((r.follow seen).transition u.position).opens = true)
    (hothers : ∀ seen' u' rest', us = seen' ++ u' :: rest' →
      ((r.follow seen').transition u'.position).opens = true → seen' = seen) :
    (r.transitions us).countP Transition.opens = 1 := by
  have hbefore : (r.transitions seen).countP Transition.opens = 0 := by
    refine List.countP_eq_zero.2 fun t ht hopens => ?_
    obtain ⟨seen', u', rest', rfl, rfl⟩ := exists_of_mem_transitions ht
    simpa using hothers seen' u' (rest' ++ u :: rest) (by simp [hus]) hopens
  have hafter : ((r.follow (seen ++ [u])).transitions rest).countP Transition.opens = 0 := by
    refine List.countP_eq_zero.2 fun t ht hopens => ?_
    obtain ⟨seen', u', rest', rfl, rfl⟩ := exists_of_mem_transitions ht
    rw [← follow_append] at hopens
    simpa using hothers (seen ++ [u] ++ seen') u' rest' (by simp [hus]) hopens
  rw [hus, transitions_append, List.countP_append, hbefore, transitions, List.countP_cons, hopens,
    ← follow_concat, hafter]
  rfl

/-- What a position asks for: the first one outside the low watermark opens the window, and those
outside it have changes compared or close the window. -/
theorem transition_seen (hmode : r.mode = .closed) (h : PassesWindow low executed us before within x)
    (hus : us = seen ++ u :: rest) (hu : u.position = some p) :
    ((r.marked low executed).follow seen).transition (some p) =
      if low.contains p then .idle
      else
        ⟨if executed.contains p then .opened else .closed,
          (if ∀ q ∈ Arrival.positions seen, low.contains q = true then [.openWindow] else []) ++
            if executed.contains p then [.deduplicate] else [.closeWindow]⟩ := by
  rcases follow_seen hmode h hus hu with ⟨hseen, hall⟩ | ⟨hseen, hlow, q, hq, hqlow⟩
  · rw [hseen, if_pos hall]
    cases hlow : low.contains p with
    | true => exact transition_early hmode hlow
    | false =>
      cases hp : executed.contains p with
      | true => exact transition_first hmode hlow hp
      | false =>
        rw [transition_last hlow hp rfl, if_pos (show (r.marked low executed).mode = .closed from hmode)]
        rfl
  · have hsome : ¬ ∀ q ∈ Arrival.positions seen, low.contains q = true :=
      fun hall => absurd (hall q hq) (by simp [hqlow])
    rw [hseen, if_neg hsome, hlow]
    cases hp : executed.contains p with
    | true => exact transition_within hlow hp
    | false => exact transition_last hlow hp rfl

theorem opens_seen_iff (hmode : r.mode = .closed) (h : PassesWindow low executed us before within x)
    (hus : us = seen ++ u :: rest) :
    (((r.marked low executed).follow seen).transition u.position).opens = true ↔
      (∃ p, u.position = some p ∧ low.contains p = false) ∧
        ∀ p ∈ Arrival.positions seen, low.contains p = true := by
  cases hu : u.position with
  | none => simp [(transition_none _).2.1]
  | some p =>
    rw [transition_seen hmode h hus hu]
    cases hlow : low.contains p <;> cases executed.contains p <;>
      simp [Transition.opens, Transition.idle, hlow]

theorem past_seen (hmode : r.mode = .closed) (h : PassesWindow low executed us before within x)
    (hus : us = seen ++ u :: rest) (hu : u.position = some p) (hlow : low.contains p = false)
    (hp : executed.contains p = false) :
    (((r.marked low executed).follow seen).transition u.position).closes = true ∧
      (((r.marked low executed).follow seen).transition u.position).deduplicates = false ∧
      ((r.marked low executed).follow (seen ++ [u])).mode = .closed ∧
      ((r.marked low executed).follow (seen ++ [u])).watermarks = {} := by
  have ht := transition_seen hmode h hus hu
  rw [hlow, hp] at ht
  rw [follow_concat, hu, ht, advance_of_closes] <;>
    simp [Transition.deduplicates, Transition.closes, ht, closeWindow, touch]

theorem unmarked_follow (hmode : r.mode = .closed)
    (h : PassesWindow low executed us before within x) :
    ((r.marked low executed).follow us).Unmarked := by
  have hlast : x ∈ Arrival.positions us := by simp [h.positions]
  obtain ⟨u, hmem, hu⟩ := Arrival.mem_positions.1 hlast
  obtain ⟨seen, rest, hus⟩ := List.append_of_mem hmem
  obtain ⟨-, -, hclosed, hspent⟩ := past_seen hmode h hus hu h.last.2 h.last.1
  have hunmarked : ((r.marked low executed).follow (seen ++ [u])).Unmarked :=
    ⟨hclosed, by rw [hspent]⟩
  rw [hus, List.append_cons, follow_append]
  exact hunmarked.turnsAll (turns_follow _ rest)

theorem countP_opens_seen (hmode : r.mode = .closed)
    (h : PassesWindow low executed us before within x) :
    ((r.marked low executed).transitions us).countP Transition.opens = 1 := by
  have hlast : x ∈ Arrival.positions us := by simp [h.positions]
  obtain ⟨seen, u, rest, hus, ⟨p, hu, hp⟩, hseen⟩ := Arrival.exists_first hlast h.last.2
  refine countP_opens hus ((opens_seen_iff hmode h hus).2 ⟨⟨p, hu, hp⟩, hseen⟩) ?_
  intro seen' u' rest' hus' hopens'
  obtain ⟨⟨q, hu', hq⟩, hseen'⟩ := (opens_seen_iff hmode h hus').1 hopens'
  exact Arrival.first_unique (hus.symm.trans hus') hu hp hu' hq hseen hseen'

/-- A row of units that leads past both watermarks is classified by where its positions are. -/
theorem classifies (hmode : r.mode = .closed) (h : PassesWindow low executed us before within x) :
    (r.marked low executed).Classifies low executed us where
  early := by
    intro seen u rest p hus hu hp
    rcases follow_seen hmode h hus hu with ⟨hseen, -⟩ | ⟨-, hlow, -⟩
    · rw [follow_concat, hseen, hu]
      exact ⟨transition_early hmode hp, advance_early hmode hp u.now⟩
    · exact absurd hp (by simp [hlow])
  within := by
    intro seen u rest p hus hu hlow hp
    have ht := transition_seen hmode h hus hu
    rw [hlow, hp] at ht
    rw [follow_concat, hu, ht, advance_of_not_closes] <;>
      simp [Transition.deduplicates, Transition.closes, ht]
  past := fun _ _ _ _ hus hu hlow hp => past_seen hmode h hus hu hlow hp
  opens := fun _ _ _ hus => opens_seen_iff hmode h hus
  once := countP_opens_seen hmode h
  unplaced := by
    intro seen u rest hus hu
    rw [follow_concat, hu, advance_none]
    obtain ⟨hm, ho, hc⟩ := ((r.marked low executed).follow seen).transition_none
    exact ⟨hm, ho, hc, rfl⟩
  quiet := by
    intro s hs p now
    have hs := (unmarked_follow hmode h).turnsAll hs
    exact ⟨hs.transition p, hs.advance now (some p)⟩

end Run

namespace Rehearsal

/-- Units of three sources: the window opens late, its positions repeat, and it closes at a position
of a source that no watermark knows. -/
def passingUnits : List Arrival :=
  let positions : List (Option Position) :=
    [some ⟨"s", 3⟩, none, some ⟨"s", 5⟩, some ⟨"s", 5⟩, some ⟨"t", 1⟩, none, some ⟨"t", 1⟩,
      some ⟨"s", 7⟩, some ⟨"s", 7⟩, none, some ⟨"u", 1⟩, none]
  positions.map fun position => ⟨0, position⟩

theorem passingUnits_classified :
    let low : PositionSet := .single "s" 1 5
    let executed : PositionSet := (PositionSet.single "s" 1 7).insert ⟨"t", 1⟩
    let before : List Position := [⟨"s", 3⟩, ⟨"s", 5⟩, ⟨"s", 5⟩]
    let within : List Position := [⟨"t", 1⟩, ⟨"t", 1⟩, ⟨"s", 7⟩, ⟨"s", 7⟩]
    (Run.fresh "t" 0).mode = .closed ∧
      PassesWindow low executed passingUnits before within ⟨"u", 1⟩ ∧
      ((Run.fresh "t" 0).marked low executed).Classifies low executed passingUnits := by
  intro low executed before within
  have h : PassesWindow low executed passingUnits before within ⟨"u", 1⟩ :=
    ⟨rfl, by decide +kernel, by decide +kernel, by decide +kernel⟩
  exact ⟨rfl, h, Run.classifies rfl h⟩

end Rehearsal
end
end Backfill

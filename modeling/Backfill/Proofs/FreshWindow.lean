import Backfill.Proofs.Journal
import Backfill.Proofs.Position
import Backfill.Rehearsal.World

/-! The window of a chunk that was just read is closed, and what can happen to it until the next
chunk is read. -/
namespace Backfill
open Procedure Session Environment
variable {σ : Type} {env : Environment σ}

/-- How far a reading that begins with a closed window has come, if `base` was captured before. -/
def Phase.ReadsFresh (base : List PositionSet) (p : Phase) (s : Session (Recorded σ)) : Prop :=
  match p with
  | .idle => (∃ w, s.coordinator.window = some (.closed, w)) ∧
    (s.coordinator.buffer.rows ≠ [] → ∃ before low executed,
      s.captured = base ++ before ++ [low, executed] ∧
        s.coordinator.window = some (.closed, ⟨some low, some (executed.subtract low)⟩))
  | .filling | .filled => ∃ before low, s.captured = base ++ before ++ [low] ∧
    s.coordinator.window = some (.closed, ⟨some low, none⟩)
  | _ => (∃ w, s.coordinator.window = some (.closed, w)) ∧ ∃ before, s.captured = base ++ before

private theorem readsFresh_move {base : List PositionSet} {p q : Phase} {s t : Session (Recorded σ)}
    (h : Move env.recorded p s q t) (hs : s.coordinator.Consistent p)
    (hf : p.ReadsFresh base s) : q.ReadsFresh base t := by
  cases h with
  | sent emit =>
    obtain ⟨v, -, rfl⟩ := recorded_emit_eq_ok.1 emit
    simpa [Phase.ReadsFresh, captured, journal, List.filterMap_cons, Answer.executed?] using hf
  | allSent => simpa [Phase.ReadsFresh, captured, journal] using hf
  | declined stays => exact ⟨hf.1, fun h => absurd hs.rows h⟩
  | @began c w w₁ w₂ w₃ w₄ low reads commit positions commit' begins =>
    obtain ⟨v₁, v₂, rfl, rfl⟩ := recorded_opening commit positions commit' begins
    obtain ⟨⟨m, hm⟩, before, hb⟩ := hf
    refine ⟨before, low, ?_, ?_⟩
    · simp only [captured, journal] at hb ⊢
      simp [hb, List.filterMap_cons, Answer.executed?]
    · simp only at hm
      simp [hm]
  | measured run tables unknown maximum =>
    obtain ⟨v, -, rfl⟩ := recorded_maximum_eq_ok.1 maximum
    simpa [Phase.ReadsFresh, captured, journal, List.filterMap_cons, Answer.executed?] using hf
  | vacant run tables unknown maximum =>
    obtain ⟨v, -, rfl⟩ := recorded_maximum_eq_ok.1 maximum
    simpa [Phase.ReadsFresh, captured, journal, List.filterMap_cons, Answer.executed?] using hf
  | exhausted run tables known query | buffered run tables known found query =>
    obtain ⟨v, -, rfl⟩ := recorded_query_eq_ok.1 query
    simpa [Phase.ReadsFresh, captured, journal, List.filterMap_cons, Answer.executed?] using hf
  | served run tables => exact hf
  | @kept c w w' executed running positions clear =>
    obtain ⟨v, -, rfl⟩ := recorded_positions_eq_ok.1 positions
    obtain ⟨before, low, hb, hw⟩ := hf
    have hwindow := Coordinator.window_setHigh executed hw
    refine ⟨⟨_, hwindow⟩, fun _ => ⟨before, low, executed, ?_, hwindow⟩⟩
    simp only [captured, journal] at hb ⊢
    simp [hb, Answer.executed?]
  | @reverted c w w' executed running positions ambiguous held =>
    obtain ⟨v, -, rfl⟩ := recorded_positions_eq_ok.1 positions
    obtain ⟨before, low, hb, hw⟩ := hf
    have hwindow := Coordinator.window_setHigh executed hw
    refine ⟨⟨_, by simp [hwindow]; rfl⟩, before ++ [low, executed], ?_⟩
    simp only [captured, journal] at hb ⊢
    simp [hb, Answer.executed?]
  | @completed c w ended =>
    obtain ⟨before, low, hb, hw⟩ := hf
    simp only at hw
    refine ⟨⟨{}, by simp [hw]⟩, fun h => ?_⟩
    rcases hs.rows with ⟨r, t, ts, hr, ht, -⟩ | ⟨hrows, -⟩
    · simp only at hr
      simp [Coordinator.isRunning, hr, Run.isRunning, ht] at ended
    · exact absurd hrows h

/-- Queueing tables for a run that has none although its window was left open. The chunk that is
then read finds the window open. -/
def Stage.ContinuesOpen (st : Stage) (c : Coordinator) : Prop :=
  (∃ rounds tables filters, st = .add rounds tables filters) ∧ c.isRunning = false ∧
    ∃ w, c.window = some (.opened, w)

private theorem readsFresh_of_flushing {c : Coordinator} {r : Run} (now : Int64) (p : Partition)
    (o : Offset) (hr : c.run = some r) (w : Recorded σ) :
    ((c.closeWindow now).flushing p o).1.ReadsFresh (captured ⟨c, w⟩)
      ⟨((c.closeWindow now).flushing p o).2, w⟩ := by
  have hw := window_of_flushing now p o hr
  have hc : captured ⟨((c.closeWindow now).flushing p o).2, w⟩ = captured ⟨c, w⟩ ++ [] := by
    rw [List.append_nil]
    rfl
  rcases (c.closeWindow now).flushing_phase p o with h | ⟨t, -, h⟩ <;> rw [h] <;>
    exact ⟨⟨_, hw⟩, _, hc⟩

private theorem readsFresh_enter {st : Stage} {p : Phase} {s t : Session (Recorded σ)}
    (h : Enters env.recorded st s p t) (hs : s.coordinator.Consistent .idle)
    (hopen : ¬ st.ContinuesOpen s.coordinator) :
    p.ReadsFresh s.captured t ∨ p = .idle ∧ t.captured = s.captured := by
  cases h with
  | fresh version accepted positions =>
    refine .inl ⟨⟨_, rfl⟩, fun h => absurd rfl h⟩
  | restored version accepted positions =>
    obtain ⟨v₁, -, rfl⟩ := recorded_version_eq_ok.1 version
    obtain ⟨v₂, -, rfl⟩ := recorded_positions_eq_ok.1 positions
    exact .inl ⟨⟨_, rfl⟩, _, List.filterMap_append⟩
  | enqueued | taken | added run running | stopped | paused | unpaused stays | pending run pending |
    noted | placed stays | unreached stays => exact .inr ⟨rfl, rfl⟩
  | @begun rounds tables filters c w r run ended =>
    obtain ⟨new, filters', h⟩ := r.addTables_eq (env.recorded.now w) tables filters
    have hmode : r.mode = .closed := by
      cases hm : r.mode with
      | closed => rfl
      | opened =>
        refine absurd ⟨⟨rounds, tables, filters, rfl⟩, ?_, r.watermarks, ?_⟩ hopen
        · simp [Coordinator.isRunning, run, ended]
        · simp [Coordinator.window, run, hm]
    refine .inl ⟨⟨r.watermarks, ?_⟩, [], (List.append_nil _).symm⟩
    simp only [h, Coordinator.window, Option.map_some, hmode]
  | @resumed rounds c w r run free =>
    refine .inl ⟨⟨r.watermarks, ?_⟩, [], (List.append_nil _).symm⟩
    rcases hs.marks r run with ⟨-, hmode⟩ | ⟨low, executed, hw⟩
    · simp only [Coordinator.window, Option.map_some, hmode]
    · simp [hw] at free
  | closed closes =>
    obtain ⟨r, hr⟩ := exists_run_of_closes closes
    exact .inl (readsFresh_of_flushing _ _ _ hr _)
  | reached reached =>
    obtain ⟨r, hr⟩ := exists_run_of_isReachedBy reached
    exact .inl (readsFresh_of_flushing _ _ _ hr _)
  | passed emit =>
    obtain ⟨v, -, rfl⟩ := recorded_emit_eq_ok.1 emit
    refine .inr ⟨rfl, ?_⟩
    simp [captured, journal, List.filterMap_cons, Answer.executed?]

/-- A chunk that a stage has read finds its window closed and its watermarks new, unless the stage
continued an open window. -/
private theorem readsFresh_perform {st : Stage} {s s' : Session (Recorded σ)} {u : Unit}
    (h : st.perform env.recorded s = .ok u s') (hs : s.coordinator.Consistent .idle)
    (hopen : ¬ st.ContinuesOpen s.coordinator) (hread : s'.captured ≠ s.captured) :
    Phase.ReadsFresh s.captured .idle s' := by
  obtain ⟨p, t, henter, hmoves⟩ := perform_enters h
  have ht := Coordinator.Consistent.enter henter hs
  rcases readsFresh_enter henter hs hopen with hfresh | ⟨rfl, hsame⟩
  · have hkeeps := hmoves.keeps
      (I := fun p t => t.coordinator.Consistent p ∧ p.ReadsFresh s.captured t)
      (fun hmove ⟨hc, hf⟩ => ⟨hc.move hmove, readsFresh_move hmove hc hf⟩) ⟨ht, hfresh⟩
    exact hkeeps.2
  · obtain ⟨-, rfl⟩ := hmoves.of_idle
    exact absurd hsame hread

/-- A position opens a closed window only from outside the low watermark, and only if something
was executed while the chunk was read. -/
theorem Watermarks.transition_opened {w : Watermarks} {position : Option Position}
    (h : (w.transition .closed position).mode = .opened) :
    (∃ p, position = some p ∧ isPast w.low p = true) ∧ w.high.any (·.isEmpty) = false := by
  cases position with
  | none => simp [transition] at h
  | some p =>
    cases hlow : isPast w.low p with
    | false => simp [transition, hlow] at h
    | true =>
      refine ⟨⟨p, rfl, hlow⟩, ?_⟩
      cases hhigh : w.high with
      | none => rfl
      | some high =>
        refine Bool.eq_false_iff.2 fun he => ?_
        have hp := PositionSet.contains_of_isEmpty he p
        simp [transition, isPast, hhigh, hp] at h

theorem Watermarks.not_deduplicates_within_low {w : Watermarks} {mode : WindowMode} {p : Position}
    (hw : w = {} ∧ mode = .closed ∨
      ∃ low executed : PositionSet, w = ⟨some low, some (executed.subtract low)⟩)
    (hlow : isPast w.low p = false) : (w.transition mode (some p)).deduplicates = false := by
  rcases hw with ⟨rfl, rfl⟩ | ⟨low, executed, rfl⟩
  · rfl
  · have hhigh : isPast (some (executed.subtract low)) p = true := by
      simp only [isPast, Option.any_some, Bool.not_eq_eq_eq_not, Bool.not_true, Bool.not_false]
        at hlow ⊢
      refine Bool.eq_false_iff.2 fun hp => ?_
      rw [PositionSet.not_contains_of_contains_subtract hp] at hlow
      exact absurd hlow Bool.false_ne_true
    cases mode <;> simp [transition, Transition.deduplicates, hlow, hhigh]

/-- Until the next watermarks are captured, a window is opened only by a position outside the low
watermark, and not at all if nothing was executed while the chunk was read. -/
theorem window_each {mid : List Stage} {s s' : Session (Recorded σ)} {m : Watermarks}
    (h : Stage.performAll env.recorded mid s = .ok () s')
    (hw : s.coordinator.window = some (.closed, m)) (hquiet : s'.captured = s.captured) :
    s'.coordinator.window = some (.closed, {}) ∨
    ∃ mode, s'.coordinator.window = some (mode, m) ∧ (mode = .opened →
      (∃ rounds e p, Stage.place rounds e ∈ mid ∧ e.position = some p ∧
        Watermarks.isPast m.low p = true) ∧ m.high.any (·.isEmpty) = false) := by
  have hkeeps := each_keeps (f := Stage.perform env.recorded)
    (I := fun t => ∃ new, t.captured = s.captured ++ new ∧ (new = [] →
      t.coordinator.window = some (.closed, {}) ∨
      ∃ mode, t.coordinator.window = some (mode, m) ∧ (mode = .opened →
        (∃ rounds e p, Stage.place rounds e ∈ mid ∧ e.position = some p ∧
          Watermarks.isPast m.low p = true) ∧ m.high.any (·.isEmpty) = false))) ?_ h
    ⟨[], (List.append_nil _).symm, fun _ => .inr ⟨.closed, hw, nofun⟩⟩
  · obtain ⟨new, hnew, hwindow⟩ := hkeeps
    rw [hquiet, List.self_eq_append_right] at hnew
    exact hwindow hnew
  · rintro st hst t t' hperform ⟨new, hnew, hwindow⟩
    obtain ⟨new', hnew'⟩ := captured_perform hperform
    refine ⟨new ++ new', by rw [hnew', hnew, List.append_assoc], fun h => ?_⟩
    obtain ⟨rfl, rfl⟩ := List.append_eq_nil_iff.1 h
    rw [List.append_nil] at hnew'
    have hwindow := hwindow rfl
    rcases window_perform hperform hnew' with hsame | hclosed | ⟨rounds, e, rfl, hc⟩
    · rwa [hsame]
    · exact .inl hclosed
    · have hmove := t.coordinator.window_moveTo e
      rw [← hc] at hmove
      rcases hwindow with hwindow | ⟨mode, hwindow, hopened⟩
      · refine .inl ?_
        rw [hmove, hwindow, Option.map_some, Watermarks.transition_empty]
      · refine .inr ⟨_, by rw [hmove, hwindow, Option.map_some], fun hmode => ?_⟩
        cases mode with
        | opened => exact hopened rfl
        | closed =>
          obtain ⟨⟨p, hp, hlow⟩, hhigh⟩ := Watermarks.transition_opened hmode
          exact ⟨⟨rounds, e, p, hst, hp, hlow⟩, hhigh⟩

theorem window_each_closed {mid : List Stage} {s s' : Session (Recorded σ)}
    (h : Stage.performAll env.recorded mid s = .ok () s')
    (hw : s.coordinator.window = some (.closed, {})) (hquiet : s'.captured = s.captured) :
    s'.coordinator.window = some (.closed, {}) := by
  rcases window_each h hw hquiet with hclosed | ⟨mode, hmode, hopened⟩
  · exact hclosed
  · cases mode with
    | closed => exact hmode
    | opened =>
      obtain ⟨⟨_, _, _, _, _, hpast⟩, -⟩ := hopened rfl
      exact absurd hpast Bool.false_ne_true

private theorem place_within_low {rounds : Nat} {e : Event} {p : Position} {m : Watermarks}
    {s s' : Session σ} {u : Unit} (h : (Stage.place rounds e).perform env s = .ok u s')
    (hw : s.coordinator.window = some (.closed, m)) (hp : e.position = some p)
    (hlow : Watermarks.isPast m.low p = false) : s' = s := by
  obtain ⟨r, hr, hm⟩ := Option.map_eq_some_iff.1 hw
  obtain ⟨hmode, hmarks⟩ := Prod.mk.inj hm
  have ht : r.transition e.position = ⟨.closed, []⟩ := by
    simp [Run.transition, hmode, hmarks, hp, Watermarks.transition, hlow]
  obtain ⟨q, t, henter, hmoves⟩ := perform_enters h
  have hct : s.coordinator.transition e = ⟨.closed, []⟩ := by
    simp [Coordinator.transition, hr, ht]
  cases henter with
  | placed stays =>
    obtain ⟨-, rfl⟩ := hmoves.of_idle
    rename_i c w
    refine congrArg (Session.mk · w) ?_
    have hupdate : (c.updateRun fun r => { r with mode := (r.transition e.position).mode }) = c := by
      rw [Coordinator.updateRun_of_some hr, ht, ← hmode]
      exact congrArg (fun run => { c with run }) hr.symm
    unfold Coordinator.moveTo
    split
    · rw [if_neg (by simp [hct, Transition.deduplicates])]
      exact hupdate
    · exact hupdate
  | closed closes => simp [hct, Transition.closes] at closes

/-- What has become of the window with the watermarks `m` after stages that captured nothing. -/
structure Session.LeavesWindow (env : Environment σ) (m : Watermarks) (mid : List Stage)
    (s : Session (Recorded σ)) : Prop where
  /-- The window has ended, or its watermarks are the same. -/
  same : s.coordinator.window = some (.closed, {}) ∨ ∃ mode, s.coordinator.window = some (mode, m)
  /-- It was opened by a position outside the low watermark. -/
  opened : s.coordinator.window = some (.opened, m) → ∃ rounds e p,
    Stage.place rounds e ∈ mid ∧ e.position = some p ∧ Watermarks.isPast m.low p = true
  /-- It was not opened if nothing was executed while the chunk was read. -/
  idle : s.coordinator.window = some (.opened, m) → m.high.any (·.isEmpty) = false
  /-- A position within the low watermark drops no row. -/
  spares : ∀ mode, s.coordinator.window = some (mode, m) → ∀ e p, e.position = some p →
    Watermarks.isPast m.low p = false → (s.coordinator.transition e).deduplicates = false
  /-- While it is closed, a position within the low watermark changes nothing, so that no rows are
  sent. -/
  within : s.coordinator.window = some (.closed, m) → ∀ rounds e p t, e.position = some p →
    Watermarks.isPast m.low p = false →
    (Stage.place rounds e).perform env.recorded s = .ok () t → t = s

/-- After every stage that has captured watermarks, other than one that continued an open window,
the window is closed; if there are rows its watermarks are those captured last. -/
def BeginsClosed (env : Environment σ) (s : Session (Recorded σ)) (sts : List Stage) : Prop :=
  ∀ before st mid after s₁ s₂ s₃, sts = before ++ st :: (mid ++ after) →
    Stage.performAll env.recorded before s = .ok () s₁ →
    st.perform env.recorded s₁ = .ok () s₂ →
    Stage.performAll env.recorded mid s₂ = .ok () s₃ →
    s₂.captured ≠ s₁.captured → ¬ st.ContinuesOpen s₁.coordinator →
    ∃ m, s₂.coordinator.window = some (.closed, m) ∧
      (s₂.coordinator.buffer.rows ≠ [] → ∃ new low executed,
        s₂.captured = s₁.captured ++ new ++ [low, executed] ∧
          m = ⟨some low, some (executed.subtract low)⟩) ∧
      (s₃.captured = s₂.captured → s₃.LeavesWindow env m mid)

/-- Whatever is asked of a new coordinator, the window of a chunk begins closed. It is opened only
by a later position outside the low watermark of the chunk. -/
theorem performAll_beginsClosed {settings : Settings} {commands : Option CommandQueue}
    {w : Recorded σ} {reqs : List Request} {s' : Session (Recorded σ)}
    (h : Request.performAll env.recorded reqs ⟨{ settings, commands }, w⟩ = .ok () s') :
    ∃ sts, Unfolds env.recorded ⟨{ settings, commands }, w⟩ reqs sts s' ∧
      BeginsClosed env ⟨{ settings, commands }, w⟩ sts := by
  obtain ⟨sts, hsts⟩ := performAll_unfolds h
  refine ⟨sts, hsts, ?_⟩
  intro before st mid after s₁ s₂ s₃ _ hbefore hst hmid hread hopen
  have hs₁ : s₁.coordinator.Consistent .idle :=
    each_keeps (f := Stage.perform env.recorded) (I := fun s => s.coordinator.Consistent .idle)
      (fun _ _ => Coordinator.Consistent.perform) hbefore (.initial settings commands)
  obtain ⟨⟨m, hm⟩, hrows⟩ := readsFresh_perform hst hs₁ hopen hread
  refine ⟨m, hm, fun hb => ?_, fun hquiet => ?_⟩
  · obtain ⟨new, low, executed, hcaptured, hwindow⟩ := hrows hb
    rw [hm] at hwindow
    exact ⟨new, low, executed, hcaptured, (Prod.mk.inj (Option.some.inj hwindow)).2⟩
  · have hw := window_each hmid hm hquiet
    have hopened (h : s₃.coordinator.window = some (.opened, m)) :
        (∃ rounds e p, Stage.place rounds e ∈ mid ∧ e.position = some p ∧
          Watermarks.isPast m.low p = true) ∧ m.high.any (·.isEmpty) = false := by
      rcases hw with hw | ⟨mode, hw, hopened⟩
      · simp [h] at hw
      · refine hopened ?_
        rw [h] at hw
        exact (Prod.mk.inj (Option.some.inj hw)).1.symm
    have hs₃ : s₃.coordinator.Consistent .idle :=
      each_keeps (f := Stage.perform env.recorded) (I := fun s => s.coordinator.Consistent .idle)
        (fun _ _ => Coordinator.Consistent.perform) hmid (.perform hst hs₁)
    have hspares {mode : WindowMode} (h : s₃.coordinator.window = some (mode, m)) {e : Event}
        {p : Position} (hp : e.position = some p) (hlow : Watermarks.isPast m.low p = false) :
        (s₃.coordinator.transition e).deduplicates = false := by
      obtain ⟨r, hr, hwr⟩ := Option.map_eq_some_iff.1 h
      obtain ⟨rfl, rfl⟩ := Prod.mk.inj hwr
      simp only [Coordinator.transition, hr, Option.map_some, Option.getD_some, Run.transition, hp]
      exact Watermarks.not_deduplicates_within_low (hs₃.marks r hr) hlow
    exact
      { same := hw.imp id fun hw => hw.imp fun _ hw => hw.1
        opened := fun h => (hopened h).1
        idle := fun h => (hopened h).2
        spares := fun _ h _ _ hp hlow => hspares h hp hlow
        within := fun h _ _ _ _ hp hlow hplace => place_within_low hplace h hp hlow }

namespace Rehearsal

def twoTables (positions : List PositionSet) : Session (Recorded World) where
  coordinator := { settings := {} }
  world :=
    { world :=
        { positions
          tables := [⟨⟨"d", "a"⟩, [⟨⟨[.int 1]⟩, .null⟩], none⟩, ⟨⟨"d", "b"⟩, [⟨⟨[.int 2]⟩, .null⟩], none⟩] }
      journal := [] }

def upTo (n : UInt64) : PositionSet := .single "s" 1 n

def unit (n : UInt64) (kind : Event.Kind) : Event := ⟨⟨"p"⟩, ⟨some ⟨"s", n⟩, false⟩, kind⟩

theorem twoTables_beginsClosed : ∃ s',
    Request.performAll environment.recorded [.start 9 none, .add 9 [⟨"d", "a"⟩] .empty]
      (twoTables [upTo 5, upTo 5, upTo 6]) = .ok () s' ∧
    ∃ sts, Unfolds environment.recorded (twoTables [upTo 5, upTo 5, upTo 6])
        [.start 9 none, .add 9 [⟨"d", "a"⟩] .empty] sts s' ∧
      BeginsClosed environment (twoTables [upTo 5, upTo 5, upTo 6]) sts := by
  obtain ⟨s', h, -⟩ := exists_of_endsIn
    (x := Request.performAll environment.recorded [.start 9 none, .add 9 [⟨"d", "a"⟩] .empty])
    (s := twoTables [upTo 5, upTo 5, upTo 6]) (p := fun _ => true) (by decide +kernel)
  exact ⟨s', h, performAll_beginsClosed h⟩

/-- A heartbeat within the low watermark of a closed window sends the rows if it has reached the
end of the watermarks, and any position within it sends them once the window is open. -/
theorem rows_sent_within_low :
    (Request.performAll environment.recorded
      [.start 9 none, .add 9 [⟨"d", "a"⟩] .empty]).endsIn (twoTables [upTo 5]) (fun s =>
        s.coordinator.window = some (.closed, ⟨some (upTo 5), some .empty⟩) &&
          (upTo 5).contains ⟨"s", 5⟩ && s.emitted.length = 0) = true ∧
    (Request.performAll environment.recorded
      [.start 9 none, .add 9 [⟨"d", "a"⟩] .empty, .process 9 (unit 5 .heartbeat)]).endsIn
        (twoTables [upTo 5]) (fun s => s.emitted.length = 1) = true ∧
    (Request.performAll environment.recorded
      [.start 9 none, .add 9 [⟨"d", "a"⟩] .empty, .process 9 (unit 6 .begin),
        .process 9 (unit 5 .begin)]).endsIn (twoTables [upTo 5, upTo 5, upTo 6]) (fun s =>
        s.captured.take 3 = [upTo 5, upTo 5, upTo 6] && s.emitted.length = 1) = true := by
  refine ⟨?_, ?_, ?_⟩ <;> decide +kernel

end Rehearsal
end Backfill

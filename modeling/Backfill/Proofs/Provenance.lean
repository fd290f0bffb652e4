import Backfill.Proofs.Attempts
import Backfill.Proofs.Filters

/-! Where the filter of a query comes from. The history of a coordinator is the row of the stages
that were done, of which any may fail; a run that is left may be taken up again by a new coordinator.
Each query for a table has the filter that was given in the stage that queued the table last. What is
given to a table while it is queued, or to other tables, does not matter. -/
namespace Backfill
open Procedure Session
variable {σ : Type} {env : Environment σ}

/-- A stage that was done or failed, with the session before and after it. -/
structure Step (σ : Type) where
  before : Session σ
  stage : Stage
  /-- Why the stage failed, unless it ended well. -/
  failure : Option Failure
  after : Session σ

/-- Stages done one after the other, up to one that fails. -/
inductive Steps (env : Environment σ) :
    Session σ → List Stage → List (Step σ) → Option Failure → Session σ → Prop
  | nil {s} : Steps env s [] [] none s
  | done {s st t sts steps f s'} (ok : st.perform env s = .ok () t)
      (rest : Steps env t sts steps f s') :
      Steps env s (st :: sts) (⟨s, st, none, t⟩ :: steps) f s'
  | failed {s st sts f s'} (failed : st.perform env s = .error (.failed f) s') :
      Steps env s (st :: sts) [⟨s, st, some f, s'⟩] (some f) s'

namespace Steps

theorem of_performAll {sts : List Stage} {s s' : Session σ} {u : Unit}
    (h : Stage.performAll env sts s = .ok u s') : ∃ steps, Steps env s sts steps none s' := by
  induction sts generalizing s with
  | nil =>
    obtain rfl := each_nil_eq_ok.1 h
    exact ⟨_, .nil⟩
  | cons st sts ih =>
    obtain ⟨t, hst, hrest⟩ := each_cons_eq_ok.1 h
    obtain ⟨steps, hsteps⟩ := ih hrest
    exact ⟨_, .done hst hsteps⟩

theorem of_performAll_failed {sts : List Stage} {s s' : Session σ} {f : Failure}
    (h : Stage.performAll env sts s = .error (.failed f) s') :
    ∃ steps, Steps env s sts steps (some f) s' := by
  induction sts generalizing s with
  | nil => exact absurd h pure_ne_error
  | cons st sts ih =>
    rcases each_cons_eq_error.1 h with hst | ⟨t, hst, hrest⟩
    · exact ⟨_, .failed hst⟩
    · obtain ⟨steps, hsteps⟩ := ih hrest
      exact ⟨_, .done hst hsteps⟩

/-- Each request that is made is done in steps. -/
theorem of_happens {a : Attempt σ} (h : a.Happens env) : ∃ n steps,
    Steps env a.before (a.request.stages a.before.coordinator n) steps a.failure a.after := by
  unfold Attempt.Happens at h
  split at h
  · rename_i hf
    obtain ⟨n, hn⟩ := perform_stages h
    obtain ⟨steps, hsteps⟩ := of_performAll hn
    exact ⟨n, steps, hf ▸ hsteps⟩
  · rename_i f hf
    obtain ⟨n, hn⟩ := performAll_stages_of_failed h
    obtain ⟨steps, hsteps⟩ := of_performAll_failed hn
    exact ⟨n, steps, hf ▸ hsteps⟩

end Steps

/-- The steps that led to a coordinator. Requests are made one after the other and may fail; between
them the world may change. A run is taken up again as it was left or as its document says, by the
same coordinator or by one without a run. -/
inductive History (env : Environment σ) : List (Step σ) → Coordinator → Prop
  | fresh (settings : Settings) (commands : Option CommandQueue) :
    History env [] { settings, commands }
  | made {past c steps n} {a : Attempt σ} (left : History env past c)
    (goesOn : a.before.coordinator = c) (happens : a.Happens env)
    (anew : ∀ rounds r, a.request ≠ .start rounds (some r))
    (course : Steps env a.before (a.request.stages a.before.coordinator n) steps a.failure a.after) :
    History env (past ++ steps) a.after.coordinator
  | resumed {past c steps rounds n r r'} {a : Attempt σ} (left : History env past c)
    (run : c.run = some r) (handedOn : r' = r ∨ Run.restore r.persist = .ok r')
    (goesOn : a.before.coordinator = c ∨ a.before.coordinator.run = none)
    (again : a.request = .start rounds (some r')) (happens : a.Happens env)
    (course : Steps env a.before (a.request.stages a.before.coordinator n) steps a.failure a.after) :
    History env (past ++ steps) a.after.coordinator

def Step.Gives (x : Step σ) (t : Table) (filter : Option String) : Prop :=
  x.stage.Gives x.before.coordinator t filter

def Step.queries (x : Step (Heard σ)) : List ChunkQuery :=
  x.after.world.asked.drop x.before.world.asked.length

/-- Whether a filter was given to a table when it was queued last, and the table has been queued
since. -/
def Remains (past : List (Step σ)) (t : Table) (filter : Option String) : Prop :=
  ∃ before y after, past = before ++ y :: after ∧ y.Gives t filter ∧
    (∀ z ∈ after, ∀ f, ¬ z.Gives t f) ∧ ∀ z ∈ y :: after, t ∈ z.after.coordinator.queue

def Traced (past steps : List (Step (Heard σ))) : Prop :=
  ∀ before x after, steps = before ++ x :: after → ∀ q ∈ x.queries,
    x.stage.Leaves (Remains (past ++ before)) x.before.coordinator q.table q.filter

section
variable {past : List (Step (Heard σ))} {t : Table} {filter : Option String}

theorem Remains.snoc {x : Step (Heard σ)}
    (h : x.stage.Leaves (Remains past) x.before.coordinator t filter)
    (ht : t ∈ x.after.coordinator.queue) : Remains (past ++ [x]) t filter := by
  rcases h with hgives | ⟨⟨before, y, after, rfl, hgives, hlast, hqueued⟩, hnone⟩
  · exact ⟨past, x, [], rfl, hgives, fun _ hz => absurd hz List.not_mem_nil,
      List.forall_mem_singleton.2 ht⟩
  · refine ⟨before, y, after ++ [x], by simp, hgives, ?_, ?_⟩
    · exact List.forall_mem_append.2 ⟨hlast, List.forall_mem_singleton.2 hnone⟩
    · rw [← List.cons_append]
      exact List.forall_mem_append.2 ⟨hqueued, List.forall_mem_singleton.2 ht⟩

theorem traced_cons {x : Step (Heard σ)} {steps : List (Step (Heard σ))} :
    Traced past (x :: steps) ↔
      (∀ q ∈ x.queries, x.stage.Leaves (Remains past) x.before.coordinator q.table q.filter) ∧
        Traced (past ++ [x]) steps := by
  constructor
  · intro h
    refine ⟨fun q hq => ?_, fun before y after hsplit q hq => ?_⟩
    · simpa using h [] x steps rfl q hq
    · simpa using h (x :: before) y after (by rw [hsplit, List.cons_append]) q hq
  · rintro ⟨hfirst, hrest⟩ before y after hsplit q hq
    cases before with
    | nil =>
      obtain ⟨rfl, -⟩ := List.cons.inj hsplit
      simpa using hfirst q hq
    | cons z before =>
      obtain ⟨rfl, hsplit⟩ := List.cons.inj hsplit
      simpa using hrest before y after (by simpa using hsplit) q hq

theorem Traced.append {steps steps' : List (Step (Heard σ))} (h : Traced past steps)
    (h' : Traced (past ++ steps) steps') : Traced past (steps ++ steps') := by
  induction steps generalizing past with
  | nil => simpa using h'
  | cons x steps ih =>
    obtain ⟨hfirst, hrest⟩ := traced_cons.1 h
    exact traced_cons.2 ⟨hfirst, ih hrest (by simpa using h')⟩

def Coordinator.IsTraced (past : List (Step (Heard σ))) (c : Coordinator) : Prop :=
  ∀ r, c.run = some r → r.Carries (Remains past)

/-- In a stage the queries have the filters that were given to their tables, and afterwards again
the queued tables have. -/
theorem Session.Carries.step {x : Step (Heard σ)}
    (h : x.after.Carries (x.stage.Leaves (Remains past) x.before.coordinator) x.before.world.asked) :
    (∀ q ∈ x.queries, x.stage.Leaves (Remains past) x.before.coordinator q.table q.filter) ∧
      x.after.coordinator.IsTraced (past ++ [x]) := by
  constructor
  · obtain ⟨new, hnew, hright⟩ := h.asked
    intro q hq
    rw [Step.queries, hnew, List.drop_left] at hq
    exact hright q hq
  · intro r hr
    refine (h.run r hr).mono fun t ht filter hright => Remains.snoc hright ?_
    simpa [Coordinator.queue, hr] using ht

/-- Stages of which one that takes up a run again stands alone. -/
theorem Steps.traced {s s' : Session (Heard σ)} {sts : List Stage} {steps : List (Step (Heard σ))}
    {f : Option Failure} (h : Steps env.heard s sts steps f s')
    (hplain : ∀ x ∈ steps, ∀ t ∈ x.stage.named, t.IsPlain)
    (hstart : ∀ rounds r, .start rounds (some r) ∈ sts →
      sts = [.start rounds (some r)] ∧ r.Carries (Remains past))
    (hs : s.coordinator.IsTraced past) :
    Traced past steps ∧ s'.coordinator.IsTraced (past ++ steps) := by
  have hfirst {st : Stage} {sts : List Stage}
      (hstart : ∀ rounds r, .start rounds (some r) ∈ st :: sts →
        st :: sts = [.start rounds (some r)] ∧ r.Carries (Remains past)) (rounds : Nat) (r : Run)
      (heq : st = .start rounds (some r)) : r.Carries (Remains past) :=
    (hstart rounds r (heq ▸ List.mem_cons_self)).2
  induction h generalizing past with
  | nil =>
    refine ⟨fun before x after hsplit => absurd hsplit (by simp), ?_⟩
    rwa [List.append_nil]
  | @done s st t sts steps f s' ok rest ih =>
    obtain ⟨hnamed, hplain⟩ := List.forall_mem_cons.1 hplain
    obtain ⟨hqueries, ht⟩ := Session.Carries.step (x := ⟨s, st, none, t⟩)
      (.perform ok hnamed (hfirst hstart) hs)
    have hlater (rounds : Nat) (r : Run) (hmem : Stage.start rounds (some r) ∈ sts) : False := by
      obtain ⟨halone, -⟩ := hstart rounds r (List.mem_cons_of_mem _ hmem)
      rw [(List.cons.inj halone).2] at hmem
      exact absurd hmem List.not_mem_nil
    obtain ⟨hrest, hs'⟩ := ih hplain (fun rounds r hmem => (hlater rounds r hmem).elim) ht
      fun hstart rounds r heq => (hstart rounds r (heq ▸ List.mem_cons_self)).2
    exact ⟨traced_cons.2 ⟨hqueries, hrest⟩, by simpa using hs'⟩
  | @failed s st sts f s' failed =>
    obtain ⟨hnamed, -⟩ := List.forall_mem_cons.1 hplain
    obtain ⟨hqueries, hs'⟩ := Session.Carries.step (x := ⟨s, st, some f, s'⟩)
      (.fails (perform_fails failed) hnamed (hfirst hstart) hs)
    exact ⟨traced_cons.2 ⟨hqueries, fun before x after hsplit => absurd hsplit (by simp)⟩, hs'⟩

theorem History.traced {steps : List (Step (Heard σ))} {c : Coordinator}
    (h : History env.heard steps c) (hplain : ∀ x ∈ steps, ∀ t ∈ x.stage.named, t.IsPlain) :
    Traced [] steps ∧ c.IsTraced steps := by
  induction h with
  | fresh settings commands =>
    exact ⟨fun before x after hsplit => absurd hsplit (by simp), fun _ hr => absurd hr (by simp)⟩
  | @made past c steps n a left goesOn happens anew course ih =>
    obtain ⟨hpast, hnew⟩ := List.forall_mem_append.1 hplain
    obtain ⟨htraced, hc⟩ := ih hpast
    obtain ⟨hcourse, hafter⟩ := course.traced hnew
      (fun rounds r hmem => absurd (Request.of_start_mem_stages hmem) (anew rounds r)) (goesOn ▸ hc)
    exact ⟨htraced.append (by simpa using hcourse), hafter⟩
  | @resumed past c steps rounds n r r' a left run handedOn goesOn again happens course ih =>
    obtain ⟨hpast, hnew⟩ := List.forall_mem_append.1 hplain
    obtain ⟨htraced, hc⟩ := ih hpast
    have hkept : r'.Carries (Remains past) := by
      rcases handedOn with rfl | hdocument
      · exact hc _ run
      · obtain ⟨watermarks, rfl⟩ := Run.of_restore_persist hdocument
        exact (hc _ run).of_eq rfl rfl
    have hbefore : a.before.coordinator.IsTraced past := by
      rcases goesOn with hsame | hnone
      · exact hsame ▸ hc
      · exact fun r hr => absurd (hnone.symm.trans hr) (by simp)
    rw [again] at course
    have hagain (rounds' : Nat) (r'' : Run) (hmem : Stage.start rounds' (some r'') ∈
        (Request.start rounds (some r')).stages a.before.coordinator n) :
        (Request.start rounds (some r')).stages a.before.coordinator n =
          [.start rounds' (some r'')] ∧ r''.Carries (Remains past) := by
      obtain ⟨rfl, heq⟩ := Stage.start.inj (List.mem_singleton.1 hmem)
      obtain rfl := Option.some.inj heq
      exact ⟨rfl, hkept⟩
    obtain ⟨hcourse, hafter⟩ := course.traced hnew hagain hbefore
    exact ⟨htraced.append (by simpa using hcourse), hafter⟩

end

structure FilterRecord (steps : List (Step (Heard σ))) : Prop where
  /-- A query has the filter that its table was given in the step that queued it last, which is this
  one or an earlier one after which the table stayed queued. -/
  queries : ∀ before x after, steps = before ++ x :: after → ∀ q ∈ x.queries,
    x.Gives q.table q.filter ∨ Remains before q.table q.filter ∧ ∀ f, ¬ x.Gives q.table f
  /-- A command that was read from a record gives a table the last of the filters that the record
  has for it, or none. -/
  records : ∀ x ∈ steps, ∀ (r : CommandRecord) connector cmd rounds,
    r.parse connector = .ok (some cmd) → x.stage ∈ cmd.stages rounds → ∀ t filter,
      x.Gives t filter → ∃ d, r.details? = some d ∧ filter = d.filterFor t

/-- As long as no table is named whose database has a dot in its name, filters reach the tables they
were given for, whatever is asked and however often the run is taken up again. -/
theorem History.filterRecord {steps : List (Step (Heard σ))} {c : Coordinator}
    (h : History env.heard steps c) (hplain : ∀ x ∈ steps, ∀ t ∈ x.stage.named, t.IsPlain) :
    FilterRecord steps where
  queries before x after hsplit q hq := by
    have hleaves := (h.traced hplain).1 before x after hsplit q hq
    rwa [List.nil_append] at hleaves
  records x hx r connector cmd rounds hparse hstage t filter hgives := by
    obtain ⟨d, hd, htables, hfilters⟩ := CommandRecord.filters_of_parse hparse
    refine ⟨d, hd, ?_⟩
    obtain ⟨before, stage, failure, after⟩ := x
    simp only [Command.stages, List.mem_cons, List.not_mem_nil, or_false] at hstage
    rcases hstage with rfl | rfl
    · cases hact : cmd.action with
      | execute =>
        simp only [Step.Gives, hact] at hgives
        obtain ⟨-, ht, -, hfilter⟩ := hgives
        exact hfilter ▸ hfilters t (htables t ht)
      | _ =>
        simp only [Step.Gives, hact] at hgives
        exact hgives.elim
    · exact hgives.elim

namespace Rehearsal

def filtering : CommandRecord :=
  ⟨3, some "c", "\x7b\"type\":\"execute-snapshot\",\"data\":\x7b\"data-collections\":[\"d.a\",\"d.b\"]," ++
    "\"additional-conditions\":[\x7b\"data-collection\":\"d.a\",\"filter\":\"x\"\x7d," ++
    "\x7b\"data-collection\":\" d.a\",\"filter\":\"y\"\x7d]\x7d\x7d"⟩

def filtered : Command :=
  (Command.execute 3 [⟨"d", "a"⟩, ⟨"d", "b"⟩]).withFilter ⟨"d", "a"⟩ "y"

/-- Each row of the first table is asked for with the second filter. -/
theorem filtering_filterRecord : filtering.parse "c" = .ok (some filtered) ∧
    ∃ (steps : List (Step (Heard (List PositionSet)))) (c : Coordinator),
      History (shelf shelves).heard steps c ∧ (∀ x ∈ steps, ∀ t ∈ x.stage.named, t.IsPlain) ∧
      (∃ x ∈ steps, x.stage ∈ filtered.stages 9 ∧
        x.queries.map ChunkQuery.filter = [some "y"]) ∧ FilterRecord steps := by
  refine ⟨by decide +kernel, ?_⟩
  let fresh : Session (Heard (List PositionSet)) :=
    ⟨{ settings := { chunkSize := 1 } }, ⟨[], []⟩⟩
  obtain ⟨s₁, hstart, hquiet⟩ := exists_of_endsIn
    (x := Request.perform (shelf shelves).heard (.start 9 none)) (s := fresh)
    (p := fun s => s.world.asked = []) (by decide +kernel)
  obtain ⟨s₂, hboth, hasked⟩ := exists_of_endsIn
    (x := Request.performAll (shelf shelves).heard [.start 9 none, .apply 9 filtered]) (s := fresh)
    (p := fun s => s.world.asked.map ChunkQuery.filter = [some "y"]) (by decide +kernel)
  obtain ⟨s₁', hstart', hrest⟩ := each_cons_eq_ok.1 hboth
  obtain rfl := eq_of_eq_ok hstart hstart'
  obtain ⟨s₂', happly, hend⟩ := each_cons_eq_ok.1 hrest
  obtain rfl := each_nil_eq_ok.1 hend
  have hstages : Stage.performAll (shelf shelves).heard (filtered.stages 9) s₁ = .ok () s₂' :=
    apply_stages happly
  obtain ⟨t, hadd, hrest⟩ := each_cons_eq_ok.1 hstages
  obtain ⟨s₃, hnote, hend⟩ := each_cons_eq_ok.1 hrest
  obtain rfl := each_nil_eq_ok.1 hend
  have hnoted : s₃.world = t.world := by
    rw [Stage.perform, update_eq_ok] at hnote
    rw [hnote]
  let adding : Step (Heard (List PositionSet)) :=
    ⟨s₁, .add 9 filtered.tables filtered.filters, none, t⟩
  have hfirst : History (shelf shelves).heard [⟨fresh, .start 9 none, none, s₁⟩] s₁.coordinator :=
    .made (n := 0) (a := ⟨fresh, .start 9 none, none, s₁⟩) (.fresh _ _) rfl hstart (by simp)
      (.done hstart .nil)
  have hhistory : History (shelf shelves).heard
      [⟨fresh, .start 9 none, none, s₁⟩, adding, ⟨t, .note filtered, none, s₃⟩] s₃.coordinator :=
    .made (n := 0) (a := ⟨s₁, .apply 9 filtered, none, s₃⟩) hfirst rfl happly (by simp)
      (.done hadd (.done hnote .nil))
  have hplain : ∀ x ∈ [⟨fresh, .start 9 none, none, s₁⟩, adding, ⟨t, .note filtered, none, s₃⟩],
      ∀ t ∈ x.stage.named, t.IsPlain := by
    simp only [List.forall_mem_cons]
    exact ⟨by decide, show ∀ t ∈ filtered.tables, t.IsPlain by decide, by decide,
      fun _ h => absurd h List.not_mem_nil⟩
  refine ⟨_, _, hhistory, hplain, ⟨adding, by simp, List.mem_cons_self, ?_⟩,
    hhistory.filterRecord hplain⟩
  rw [Step.queries, show adding.before.world.asked = [] by simpa using hquiet, ← hnoted]
  simpa using hasked

end Rehearsal
end Backfill

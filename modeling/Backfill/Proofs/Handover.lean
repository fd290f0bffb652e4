import Backfill.Proofs.Forms
import Backfill.Proofs.Tracking
import Backfill.Proofs.Waiting

/-! A run is handed over to another coordinator between two operations. The chunk that waits in the
buffer is read again, and otherwise reading goes on as if there had been one coordinator. The
exception is a paused run whose window has ended: its rows were sent, but no chunk was started since,
so that the chunk sent last counts as the one in progress. -/
namespace Backfill
open Procedure Session Environment
variable {σ : Type} {env : Environment σ} {contents : σ → Table → Contents}
  {admits : String → Row → Prop} {seed : List (Visit σ)}

section
variable (contents : σ → Table → Contents) (admits : String → Row → Prop) (seed : List (Visit σ))
  (x : Option (Table × Key)) (p : Phase)

/-- Whether the rows of the chunk in progress are held back, with its high watermark captured. What
was sent of the table then comes before the chunk. -/
def Phase.holdsBack (vs : List (Visit σ)) (r : Run) : Prop :=
  match p with
  | .sending .. => False
  | .filling | .filled => True
  | _ => r.chunk.maximum.isSome →
    ∃ v, vs.head? = some v ∧ v.ReadUpTo contents admits x r.chunk.start []

/-- As long as a window is pending, no row of its chunk is sent. -/
def Session.HoldsBack (s : Session (Recorded σ)) : Prop :=
  ∀ r, s.coordinator.run = some r → r.watermarks.high.isSome →
    p.holdsBack contents admits x (s.visits seed) r

end

namespace Session.HoldsBack
variable {x : Option (Table × Key)} {p q : Phase} {c c' : Coordinator} {w : Recorded σ}
  {s t : Session (Recorded σ)}

theorem mono (h : s.HoldsBack contents admits seed none .idle) :
    s.HoldsBack contents admits seed x .idle := by
  intro r hr hhigh hm
  obtain ⟨v, hv, hread⟩ := h r hr hhigh hm
  exact ⟨v, hv, hread.mono⟩

private theorem of_run {f : Run → Run} (h : (⟨c, w⟩ : Session _).HoldsBack contents admits seed x .idle)
    (hrun : c'.run = c.run.map f)
    (hf : ∀ r, c.run = some r → (f r).watermarks = r.watermarks ∧
      (f r).chunk.maximum = r.chunk.maximum ∧ (f r).chunk.start = r.chunk.start) :
    (⟨c', w⟩ : Session _).HoldsBack contents admits seed x .idle := by
  intro r' hr' hhigh hm
  change c'.run = some r' at hr'
  rw [hrun] at hr'
  obtain ⟨r, hr, rfl⟩ := Option.map_eq_some_iff.1 hr'
  obtain ⟨hmarks, hmax, hstart⟩ := hf r hr
  rw [hstart]
  exact h r hr (hmarks ▸ hhigh) (hmax ▸ hm)

/-- Where no high watermark is captured, nothing is to be shown. -/
private theorem of_none (h : ∀ r, s.coordinator.run = some r → r.watermarks.high = none) :
    s.HoldsBack contents admits seed x p := by
  intro r hr hhigh
  rw [h r hr] at hhigh
  exact absurd hhigh Bool.false_ne_true

/-- The high watermark of a chunk is captured. Nothing of the chunk was sent. -/
private theorem captured {old : List Table} {v : σ} {executed : PositionSet}
    {r r' : Run} (hs : (⟨c, w⟩ : Session _).InTurn contents admits seed old none .filled)
    (hr : c.run = some r) (hm : r.chunk.maximum.isSome) (hstart : r'.chunk.start = r.chunk.start) :
    ∃ u, (Session.visits seed ⟨c', ⟨v, w.journal ++ [.positions executed]⟩⟩).head? = some u ∧
      u.ReadUpTo contents admits none r'.chunk.start [] := by
  rw [hstart]
  obtain ⟨u, us, hus, -, -, suits⟩ := hs.stands.underway_of_known hr hm
  refine ⟨u.note (.positions executed), ?_, Visit.ReadUpTo.note suits nofun⟩
  rw [Session.visits, Session.journal, ofJournal_snoc, Visit.follow_of_isPlain rfl]
  exact (congrArg (fun vs => (List.modifyHead (Visit.note · (.positions executed)) vs).head?) hus :)

theorem move {old : List Table} (h : Move env.recorded p s q t)
    (hs : s.InTurn contents admits seed old none p)
    (hb : s.HoldsBack contents admits seed none p) : t.HoldsBack contents admits seed none q := by
  cases h with
  | sent emit =>
    intro r' hr' hhigh
    obtain ⟨r, hr, rfl⟩ := Option.map_eq_some_iff.1 hr'
    exact hb r hr hhigh
  | allSent => exact fun r hr hhigh => (hb r hr hhigh).elim
  | declined stays => exact hb
  | began | measured | vacant | exhausted | buffered | served => exact fun _ _ _ => trivial
  | kept running positions clear =>
    obtain ⟨v, -, rfl⟩ := recorded_positions_eq_ok.1 positions
    intro r' hr' _ hm
    obtain ⟨r, hr, rfl⟩ := Option.map_eq_some_iff.1 hr'
    exact captured hs hr hm rfl
  | reverted running positions ambiguous held =>
    obtain ⟨v, -, rfl⟩ := recorded_positions_eq_ok.1 positions
    intro r' hr' _ hm
    obtain ⟨r₁, hr₁, rfl⟩ := Option.map_eq_some_iff.1 hr'
    obtain ⟨r, hr, rfl⟩ := Option.map_eq_some_iff.1 hr₁
    exact captured hs hr hm rfl
  | completed ended =>
    refine of_none fun r' hr' => ?_
    obtain ⟨r, -, rfl⟩ := Option.map_eq_some_iff.1 hr'
    rfl

private theorem enter {old : List Table} {st : Stage} (h : Enters env.recorded st s p t)
    (hst : st.Continues) (hs : s.InTurn contents admits seed old st.before .idle)
    (hb : s.HoldsBack contents admits seed st.before .idle) :
    t.HoldsBack contents admits seed none p ∨
      p = .idle ∧ t.HoldsBack contents admits seed st.after .idle := by
  have hclosed {c : Coordinator} {w : Recorded σ} (now : Int64) (pt : Partition) (o : Offset)
      (p : Phase) : (⟨((c.closeWindow now).flushing pt o).2, w⟩ : Session (Recorded σ)).HoldsBack
        contents admits seed none p := by
    refine of_none fun r' hr' => ?_
    rw [Coordinator.flushing_coordinator] at hr'
    obtain ⟨r, -, rfl⟩ := Option.map_eq_some_iff.1 hr'
    rfl
  cases h with
  | fresh | restored | stopped => exact hst.elim
  | enqueued | taken | unpaused stays | unreached stays => exact .inl hb
  | @added rounds tables filters c w r run running =>
    obtain ⟨new, filters', heq⟩ := r.addTables_eq (env.recorded.now w) tables filters
    refine .inl (hb.of_run (f := fun r => r.addTables (env.recorded.now w) tables filters)
      (by rw [run]; rfl) fun r' hr' => ?_)
    obtain rfl : r = r' := Option.some.inj (run.symm.trans hr')
    rw [heq]
    exact ⟨rfl, rfl, rfl⟩
  | @begun rounds tables filters c w r run ended =>
    obtain ⟨new, filters', heq⟩ := r.addTables_eq (env.recorded.now w) tables filters
    refine .inl fun r' hr' _ hm => ?_
    obtain rfl := Option.some.inj hr'
    have hnone := (hs.regular.resumable r run).ended (by simpa [Run.isRunning] using ended)
    rw [heq] at hm
    exact absurd hm (by simp [hnone])
  | paused =>
    exact .inl (hb.of_run (f := fun r => { r with paused := true }) rfl fun _ _ => ⟨rfl, rfl, rfl⟩)
  | @pending rounds c w r run pending =>
    exact .inl (hb.of_run (f := fun r => { r with paused := false }) (by rw [run]; rfl)
      fun _ _ => ⟨rfl, rfl, rfl⟩)
  | @resumed rounds c w r run free =>
    refine .inl (of_none fun r' hr' => ?_)
    obtain rfl := Option.some.inj hr'
    exact free
  | @noted cmd c w =>
    exact .inl (hb.of_run (f := fun r => { r with commandOffset := some cmd.offset }) rfl
      fun _ _ => ⟨rfl, rfl, rfl⟩)
  | @placed rounds e c w stays =>
    exact .inr ⟨rfl, hb.mono.of_run (c.moveTo_run e) fun _ _ => ⟨rfl, rfl, rfl⟩⟩
  | closed closes => exact .inl (hclosed _ _ _ _)
  | reached reached => exact .inl (hclosed _ _ _ _)
  | @passed e change c w w' emit =>
    obtain ⟨v, -, rfl⟩ := recorded_emit_eq_ok.1 emit
    refine .inl fun r hr hhigh hm => ?_
    obtain ⟨u, hu, hread⟩ := hb r hr hhigh hm
    obtain ⟨us, hus⟩ := List.head?_eq_some_iff.1 hu
    refine ⟨u.note (.sent ⟨e.partition, change.table, change.record, e.offset⟩), ?_,
      hread.pass rfl hst.isRead_eq_false⟩
    rw [Session.visits] at hus
    rw [Session.visits, Session.journal, ofJournal_snoc]
    exact (congrArg (fun vs => (Visit.follow vs _).head?) hus :)

theorem perform {old : List Table} {st : Stage} {u : Unit} (honest : env.Honest contents admits)
    (h : st.perform env.recorded s = .ok u t) (hst : st.Continues)
    (hs : s.InTurn contents admits seed old st.before .idle)
    (hb : s.HoldsBack contents admits seed st.before .idle) :
    t.HoldsBack contents admits seed st.after .idle := by
  obtain ⟨p, s₁, henter, hmoves⟩ := perform_enters h
  rcases enter henter hst hs hb with hb₁ | ⟨rfl, hb₁⟩
  · rcases hs.enter henter hst with hs₁ | ⟨rfl, -⟩
    · have hboth := hmoves.keeps (I := fun p s => s.InTurn contents admits seed old none p ∧
        s.HoldsBack contents admits seed none p)
        (fun hmove hi => ⟨hi.1.move honest hmove, hi.2.move hmove hi.1⟩) ⟨hs₁, hb₁⟩
      exact hboth.2.mono
    · obtain ⟨-, rfl⟩ := hmoves.of_idle
      exact hb₁.mono
  · obtain ⟨-, rfl⟩ := hmoves.of_idle
    exact hb₁

end Session.HoldsBack

def Coordinator.ReadsBehind (k : Key) (c : Coordinator) : Prop :=
  ∀ r, c.run = some r → r.chunk.maximum.isSome → Reaches r.chunk.start k ∧ Reaches r.chunk.stop k

theorem Coordinator.ReadsBehind.of_run {k : Key} {c c' : Coordinator} (f : Run → Run)
    (h : c.ReadsBehind k) (hrun : c'.run = c.run.map f)
    (hf : ∀ r, c.run = some r → (f r).chunk.maximum.isSome → r.chunk.maximum.isSome ∧
      (Reaches r.chunk.start k ∧ Reaches r.chunk.stop k →
        Reaches (f r).chunk.start k ∧ Reaches (f r).chunk.stop k)) : c'.ReadsBehind k := by
  intro r' hr' hm
  rw [hrun] at hr'
  obtain ⟨r, hr, rfl⟩ := Option.map_eq_some_iff.1 hr'
  obtain ⟨hknown, hreaches⟩ := hf r hr hm
  exact hreaches (h r hr hknown)

/-- Whether only rows behind a key were asked for, until another table was begun. -/
def Answer.AskBehind (k : Key) (answers : List (Answer σ)) : Prop :=
  ∀ w q rows, .query w q rows ∈ answers.takeWhile (fun a => !a.begins) → Reaches q.after k

def Session.StaysBehind (k : Key) (earlier : List (Answer σ)) (s : Session (Recorded σ)) : Prop :=
  ∃ later, s.journal = earlier ++ later ∧ Answer.AskBehind k later ∧
    ((∀ a ∈ later, a.begins = false) → s.coordinator.ReadsBehind k)

namespace Session.StaysBehind
variable {k : Key} {earlier : List (Answer σ)} {c c' : Coordinator} {w : Recorded σ}
  {s t : Session (Recorded σ)} {p q : Phase}

private theorem of_run (h : (⟨c, w⟩ : Session _).StaysBehind k earlier)
    (hc : c.ReadsBehind k → c'.ReadsBehind k) : (⟨c', w⟩ : Session _).StaysBehind k earlier := by
  obtain ⟨later, hj, hasks, hreads⟩ := h
  exact ⟨later, hj, hasks, fun hlater => hc (hreads hlater)⟩

private theorem note {a : Answer σ} {v : σ} (h : (⟨c, w⟩ : Session _).StaysBehind k earlier)
    (ha : c.ReadsBehind k → ∀ x q rows, a = .query x q rows → Reaches q.after k)
    (hc : a.begins = false → c.ReadsBehind k → c'.ReadsBehind k) :
    (⟨c', ⟨v, w.journal ++ [a]⟩⟩ : Session _).StaysBehind k earlier := by
  obtain ⟨later, hj, hasks, hreads⟩ := h
  have hj : w.journal = earlier ++ later := hj
  refine ⟨later ++ [a], by rw [Session.journal, hj, List.append_assoc], ?_, fun hlater => ?_⟩
  · intro x q rows hq
    rw [List.takeWhile_append] at hq
    split at hq
    · rename_i hlen
      rcases List.mem_append.1 hq with hq | hq
      · exact hasks x q rows (by rwa [(List.takeWhile_prefix _).eq_of_length hlen])
      · refine ha (hreads fun b hb => ?_) x q rows ?_
        · rw [← (List.takeWhile_prefix _).eq_of_length hlen] at hb
          simpa using List.mem_takeWhile_imp hb
        · exact (List.mem_singleton.1 ((List.takeWhile_sublist _).subset hq)).symm
    · exact hasks x q rows hq
  · exact hc (hlater a (by simp)) (hreads fun b hb => hlater b (List.mem_append_left _ hb))

private theorem asks {r : Run} {u : Table} {ts : List Table} (h : c.ReadsBehind k)
    (hr : c.run = some r) (ht : r.tables = u :: ts) (hm : r.chunk.maximum.isSome) :
    Reaches (c.chunkQuery u).after k := by
  rw [(Coordinator.chunkQuery_of_run hr ht).2.1]
  exact (h r hr hm).2

private theorem move {ok : Command → Prop} (honest : env.Honest contents admits)
    (h : Move env.recorded p s q t) (hregular : s.Regular ok p) (hs : s.StaysBehind k earlier) :
    t.StaysBehind k earlier := by
  have hsame {c c' : Coordinator} (f : Run → Run) (hrun : c'.run = c.run.map f)
      (hf : ∀ r, (f r).chunk.maximum = r.chunk.maximum ∧ (f r).chunk.start = r.chunk.start ∧
        (f r).chunk.stop = r.chunk.stop) (hc : c.ReadsBehind k) : c'.ReadsBehind k := by
    refine hc.of_run f hrun fun r _ hm => ?_
    obtain ⟨hmax, hstart, hstop⟩ := hf r
    rw [hstart, hstop, ← hmax]
    exact ⟨hm, id⟩
  have hover {c : Coordinator} (now : Int64) :
      ((c.updateRun fun r => r.nextTable now).count .tableCompleted).ReadsBehind k := by
    intro r' hr' hm
    obtain ⟨r, -, rfl⟩ := Option.map_eq_some_iff.1 hr'
    exact absurd hm Bool.false_ne_true
  cases h with
  | sent emit =>
    obtain ⟨v, -, rfl⟩ := recorded_emit_eq_ok.1 emit
    exact hs.note nofun fun _ => hsame _ rfl fun _ => ⟨rfl, rfl, rfl⟩
  | allSent | declined stays | served run tables => exact hs
  | @began c w w₁ w₂ w₃ w₄ low reads commit positions commit' begins =>
    obtain ⟨v₁, v₂, rfl, rfl⟩ := recorded_opening commit positions commit' begins
    have hfirst := hs.note (a := .committed) (v := v₁) nofun fun _ => id
    have hlow := hfirst.note (a := .positions low) (v := v₁) nofun fun _ => id
    have hsecond := hlow.note (a := .committed) (v := v₁) nofun fun _ => id
    have hbegun := hsecond.note (a := .began) (v := v₂) nofun fun _ => id
    refine hbegun.of_run fun hc => hc.of_run (fun r => (r.startChunk (env.now v₁)).setLow low)
      (Option.map_map ..) fun r _ hm => ⟨hm, fun h => ⟨h.2, h.2⟩⟩
  | measured run tables unknown maximum =>
    obtain ⟨v, -, rfl⟩ := recorded_maximum_eq_ok.1 maximum
    exact hs.note nofun fun ha => absurd ha (by simp [Answer.begins])
  | vacant run tables unknown maximum =>
    obtain ⟨v, -, rfl⟩ := recorded_maximum_eq_ok.1 maximum
    exact hs.note nofun fun _ _ => hover _
  | exhausted run tables known query =>
    obtain ⟨v, -, rfl⟩ := recorded_query_eq_ok.1 query
    refine hs.note (fun hc x q rows heq => ?_) fun _ _ => hover _
    obtain ⟨-, rfl, -⟩ := Answer.query.inj heq
    exact asks hc run tables known
  | @buffered c w w' r u ts rows run tables known found query =>
    obtain ⟨v, hquery, rfl⟩ := recorded_query_eq_ok.1 query
    have hrows := honest _ _ _ _ hquery
    refine hs.note (fun hc x q rows heq => ?_) fun _ hc => ?_
    · obtain ⟨-, rfl, -⟩ := Answer.query.inj heq
      exact asks hc run tables known
    · obtain ⟨last, hlast⟩ : ∃ last, rows.getLast? = some last :=
        ⟨_, List.getLast?_eq_some_getLast found⟩
      obtain ⟨-, hrun⟩ := Standing.bufferRows_of_nodup (t := u) hregular.consistent.rows hrows.nodup
        hlast
      refine hc.of_run _ hrun fun r' hr' hm => ⟨hm, fun h => ⟨h.1, last.key, rfl, ?_⟩⟩
      obtain ⟨b, hb, hle⟩ := asks hc run tables known
      exact hle.trans (le_of_lt ((hrows.asked last (List.mem_of_getLast? hlast)).after b hb))
  | kept running positions clear =>
    obtain ⟨v, -, rfl⟩ := recorded_positions_eq_ok.1 positions
    exact hs.note nofun fun _ => hsame _ rfl fun _ => ⟨rfl, rfl, rfl⟩
  | reverted running positions ambiguous held =>
    obtain ⟨v, -, rfl⟩ := recorded_positions_eq_ok.1 positions
    refine hs.note nofun fun _ hc => hc.of_run _ (Option.map_map ..) fun r _ hm =>
      ⟨hm, fun h => ⟨h.1, h.1⟩⟩
  | completed ended => exact hs.of_run (hsame _ rfl fun _ => ⟨rfl, rfl, rfl⟩)

private theorem enter {st : Stage} (h : Enters env.recorded st s p t) (hst : st.Continues)
    (hs : s.StaysBehind k earlier) : t.StaysBehind k earlier := by
  have hrun {c c' : Coordinator} (f : Run → Run) (hrun : c'.run = c.run.map f)
      (hf : ∀ r, c.run = some r → (f r).chunk = r.chunk) (hc : c.ReadsBehind k) :
      c'.ReadsBehind k := by
    refine hc.of_run f hrun fun r hr hm => ?_
    rw [hf r hr] at hm ⊢
    exact ⟨hm, id⟩
  have hadded {c : Coordinator} {r : Run} (run : c.run = some r) (now : Int64) (tables : List Table)
      (filters : TextMap String) (hc : c.ReadsBehind k) :
      ({ c with run := some (r.addTables now tables filters) } : Coordinator).ReadsBehind k := by
    refine hrun (fun r => r.addTables now tables filters) (by rw [run]; rfl) (fun r' _ => ?_) hc
    obtain ⟨new, filters', heq⟩ := r'.addTables_eq now tables filters
    rw [heq]
  cases h with
  | fresh | restored | stopped => exact hst.elim
  | enqueued | taken | unpaused stays | unreached stays => exact hs
  | added run running => exact hs.of_run (hadded run _ _ _)
  | begun run ended => exact hs.of_run (hadded run _ _ _)
  | paused => exact hs.of_run (hrun _ rfl fun _ _ => rfl)
  | noted => exact hs.of_run (hrun _ rfl fun _ _ => rfl)
  | pending run pending =>
    exact hs.of_run (hrun (fun r => { r with paused := false }) (by rw [run]; rfl) fun _ _ => rfl)
  | resumed run free =>
    exact hs.of_run (hrun (fun r => { r with paused := false }) (by rw [run]; rfl) fun _ _ => rfl)
  | @placed rounds e c w stays => exact hs.of_run (hrun _ (c.moveTo_run e) fun _ _ => rfl)
  | @closed rounds e c w ends | @reached rounds e c w ends =>
    rw [Coordinator.flushing_coordinator]
    exact hs.of_run (hrun (fun r => r.closeWindow (env.recorded.now w)) rfl fun _ _ => rfl)
  | passed emit =>
    obtain ⟨v, -, rfl⟩ := recorded_emit_eq_ok.1 emit
    exact hs.note nofun fun _ => id

theorem perform {st : Stage} {u : Unit} (honest : env.Honest contents admits)
    (h : st.perform env.recorded s = .ok u t) (hst : st.Continues)
    (hregular : s.Regular (·.action ≠ .stop) .idle) (hs : s.StaysBehind k earlier) :
    t.StaysBehind k earlier := by
  obtain ⟨p, s₁, henter, hmoves⟩ := perform_enters h
  have hregular₁ := hregular.enter henter (by rintro rounds r rfl; exact hst.elim)
    (by rintro cmd rfl; exact hst)
  have hboth := hmoves.keeps (I := fun p s => s.Regular (·.action ≠ .stop) p ∧
    s.StaysBehind k earlier) (fun hmove hi => ⟨hi.1.move hmove, move honest hmove hi.1 hi.2⟩)
    ⟨hregular₁, enter henter hst hs⟩
  exact hboth.2

end Session.StaysBehind
namespace Session
variable {settings : Settings} {commands : Option CommandQueue} {w : σ} {rounds : Nat}
  {restored : Option Run} {reqs : List Request} {s : Session (Recorded σ)} {r r' : Run}
  {old : List Table}

private theorem inTurn_and_holdsBack (honest : env.Honest contents admits)
    (hsize : settings.chunkSize ≠ 0)
    (hcommands : ∀ q, commands = some q → ∀ cmd ∈ q.pending, cmd.action ≠ .stop)
    (hres : ∀ r, restored = some r → r.Resumable) (hreqs : ∀ req ∈ reqs, req.Continues)
    (h : Request.performAll env.recorded (.start rounds restored :: reqs)
      ⟨{ settings, commands }, ⟨w, []⟩⟩ = .ok () s) :
    s.InTurn contents admits ((restored.map (Run.visits σ)).getD []) [] none .idle ∧
      s.HoldsBack contents admits ((restored.map (Run.visits σ)).getD []) none .idle := by
  obtain ⟨s₀, hstart, hrest⟩ := each_cons_eq_ok.1 h
  have hperform : (Stage.start rounds restored).perform env.recorded _ = .ok () s₀ := hstart
  obtain ⟨p, t, henter, hmoves⟩ := perform_enters hperform
  have hturn : t.InTurn contents admits ((restored.map (Run.visits σ)).getD []) [] none p :=
    .started hsize hcommands hres henter
  have hholds : t.HoldsBack contents admits ((restored.map (Run.visits σ)).getD []) none p := by
    refine HoldsBack.of_none fun r hr => ?_
    cases henter with
    | fresh | restored => exact Option.some.inj hr ▸ rfl
  have hs₀ := hmoves.keeps (I := fun p s => s.InTurn contents admits _ [] none p ∧
    s.HoldsBack contents admits _ none p)
    (fun hmove hi => ⟨hi.1.move honest hmove, hi.2.move hmove hi.1⟩) ⟨hturn, hholds⟩
  have hkeeps : Stage.Keeps env.recorded fun x s => s.InTurn contents admits _ [] x .idle ∧
      s.HoldsBack contents admits ((restored.map (Run.visits σ)).getD []) x .idle :=
    ⟨fun hst hcontinues hi =>
        ⟨hi.1.perform honest hst hcontinues, hi.2.perform honest hst hcontinues hi.1⟩,
      fun hi => hi.1.regular.commands, fun hi => hi.1.stands.exists_run⟩
  exact hkeeps.requests hrest hreqs hs₀

/-- When a run is handed over, what was sent of the current table comes before the chunk in progress,
unless the chunk was sent and no other was started. -/
private theorem readUpTo_start (hs : s.InTurn contents admits seed old none .idle)
    (hb : s.HoldsBack contents admits seed none .idle) (hr : s.coordinator.run = some r)
    (hclean : r.watermarks.high = none → r.chunk.stop = r.chunk.start) {v : Visit σ}
    {vs : List (Visit σ)} (hvs : s.visits seed = v :: vs)
    (hv : v.Underway contents admits none r (Phase.idle.unsent s.coordinator)) :
    v.ReadUpTo contents admits none r.chunk.start [] := by
  cases hhigh : r.watermarks.high with
  | some high =>
    obtain ⟨u, hu, hread⟩ := hb r hr (by rw [hhigh]; rfl) (hv.maximum ▸ hv.known)
    rw [hvs] at hu
    exact Option.some.inj hu ▸ hread
  | none =>
    have hempty : Phase.idle.unsent s.coordinator = [] := by
      by_contra hne
      obtain ⟨-, r', hr', hset⟩ := hs.regular.consistent.rows hne
      obtain rfl := Option.some.inj (hr.symm.trans hr')
      exact absurd hset (by simp [hhigh])
    exact hclean hhigh ▸ hempty ▸ hv.readUpTo

/-- A run that is not paused waits for a window to end, unless no table is left. -/
private theorem stop_eq_start (hlive : s.coordinator.Live) (hres : r.Resumable)
    (hr : s.coordinator.run = some r)
    (hclean : r.paused = true → r.watermarks.high = none → r.chunk.stop = r.chunk.start)
    (hhigh : r.watermarks.high = none) : r.chunk.stop = r.chunk.start := by
  by_cases hpaused : r.paused = true
  · exact hclean hpaused hhigh
  · have hidle : r.isRunning = false := by
      by_contra hrunning
      have hset := hlive r hr (by simpa using hrunning) (by simpa using hpaused)
      exact absurd hset (by simp [hhigh])
    obtain ⟨hstart, hstop⟩ := hres.unread (hres.ended (by simpa [Run.isRunning] using hidle))
    rw [hstart, hstop]

/-- The visits go on with the next coordinator. -/
private theorem stands_handedOver (hs : s.InTurn contents admits seed old none .idle)
    (hb : s.HoldsBack contents admits seed none .idle) (hr : s.coordinator.run = some r)
    (hclean : r.watermarks.high = none → r.chunk.stop = r.chunk.start)
    (hchunk : r'.chunk = r.chunk) (htables : r'.tables = r.tables) (now : Int64) {c : Coordinator}
    (hc : c.run = some (r'.prepareResume now)) (hempty : c.buffer.rows = []) :
    Standing contents admits none .due (s.visits seed) c := by
  have hstands : Standing contents admits none .idle (s.visits seed) s.coordinator := hs.stands
  generalize hvs : s.visits seed = vs at hstands
  cases hstands with
  | between run unknown unsent finished =>
    obtain rfl := Option.some.inj (hr.symm.trans run)
    refine .between hc ?_ hempty finished
    exact (congrArg ChunkProgress.maximum hchunk :).trans unknown
  | reading run finished underway suits =>
    obtain rfl := Option.some.inj (hr.symm.trans run)
    have hread := readUpTo_start hs hb hr hclean hvs underway
    refine .reading hc finished ⟨underway.continues, ?_, ?_, underway.known, underway.queries,
      underway.reads, ?_⟩ trivial
    · exact (congrArg List.head? htables :).trans underway.current
    · exact (congrArg ChunkProgress.maximum hchunk :).trans underway.maximum
    · have hstop : (r'.prepareResume now).chunk.stop = r.chunk.start :=
        congrArg ChunkProgress.start hchunk
      rw [show Phase.due.unsent c = [] from hempty, hstop]
      exact hread

/-- What was sent of the current table comes before the chunk in progress. -/
private theorem reaches_start (hs : s.InTurn contents admits seed old none .idle)
    (hb : s.HoldsBack contents admits seed none .idle) (hr : s.coordinator.run = some r)
    (hclean : r.watermarks.high = none → r.chunk.stop = r.chunk.start) {v : Visit σ}
    (hv : (s.visits seed).head? = some v) (hover : v.ended = false) :
    ∀ k ∈ v.keys, Reaches r.chunk.start k := by
  have hstands : Standing contents admits none .idle (s.visits seed) s.coordinator := hs.stands
  generalize hvs : s.visits seed = vs at hv hstands
  cases hstands with
  | between run unknown unsent finished =>
    exact absurd ((finished v (List.mem_of_mem_head? hv)).ended.symm.trans hover) (by simp)
  | reading run finished underway suits =>
    obtain rfl := Option.some.inj (hr.symm.trans run)
    obtain rfl := Option.some.inj hv
    have hread := readUpTo_start hs hb hr hclean hvs underway
    exact fun k hk => hread.reached k (List.mem_append_left _ hk)

end Session

/-- A run is handed over between two operations, as it is or as its document; if it is paused and no
window is pending, no chunk was sent since the last one was started. Then the two coordinators
together read every queued table once, one after the other. Of the table that was being read, what
was sent before comes before the chunk in progress, and what is asked for afterwards behind its start. -/
theorem performAll_handsOver {settings settings' : Settings} {commands commands' : Option CommandQueue}
    {w w' : σ} {rounds rounds' : Nat} {restored : Option Run} {reqs reqs' : List Request}
    {s s' : Session (Recorded σ)} {r r' : Run} (honest : env.Honest contents admits)
    (hsize : settings.chunkSize ≠ 0)
    (hcommands : ∀ q, commands = some q → ∀ cmd ∈ q.pending, cmd.action ≠ .stop)
    (hres : ∀ r, restored = some r → r.Resumable) (hreqs : ∀ req ∈ reqs, req.Continues)
    (h : Request.performAll env.recorded (.start rounds restored :: reqs)
      ⟨{ settings, commands }, ⟨w, []⟩⟩ = .ok () s)
    (hr : s.coordinator.run = some r) (hsame : r' = r ∨ Run.restore r.persist = .ok r')
    (hclean : r.paused = true → r.watermarks.high = none → r.chunk.stop = r.chunk.start)
    (hsize' : settings'.chunkSize ≠ 0)
    (hcommands' : ∀ q, commands' = some q → ∀ cmd ∈ q.pending, cmd.action ≠ .stop)
    (hreqs' : ∀ req ∈ reqs', req.Continues)
    (h' : Request.performAll env.recorded (.start rounds' (some r') :: reqs')
      ⟨{ settings := settings', commands := commands' }, ⟨w', s.journal⟩⟩ = .ok () s') :
    s'.ReadsOnce contents admits ((restored.map (Run.visits σ)).getD []) ∧
    s.line ((restored.map (Run.visits σ)).getD []) <+:
      s'.line ((restored.map (Run.visits σ)).getD []) ∧
    ∀ v, (s.visits ((restored.map (Run.visits σ)).getD [])).head? = some v → v.ended = false →
      (∀ k ∈ v.keys, Reaches r.chunk.start k) ∧
      ∀ k, r.chunk.start = some k → ∃ later, s'.journal = s.journal ++ later ∧
        Answer.AskBehind k later := by
  obtain ⟨hs, hb⟩ := Session.inTurn_and_holdsBack honest hsize hcommands hres hreqs h
  generalize (restored.map (Run.visits σ)).getD [] = seed at hs hb ⊢
  have hready := Session.stop_eq_start (Coordinator.Live.performAll h)
    (hs.regular.resumable r hr) hr hclean
  obtain ⟨hchunk, htables⟩ := Run.chunk_tables_of_handedOn hsame
  obtain ⟨s₁, hstart, hrest⟩ := each_cons_eq_ok.1 h'
  have hperform : (Stage.start rounds' (some r')).perform env.recorded _ = .ok () s₁ := hstart
  obtain ⟨p, t, henter, hmoves⟩ := perform_enters hperform
  have hturn : t.InTurn contents admits seed (s.line seed) none p := by
    refine .restored hsize' hcommands' ((hs.regular.resumable r hr).of_eq hchunk htables)
      (fun now c => Session.stands_handedOver hs hb hr hready hchunk htables now) hs.reads ?_ henter
    rw [Session.line, Coordinator.queue, hr, htables]
    exact List.prefix_rfl
  have hbehind (k : Key) (hk : r.chunk.start = some k) : t.StaysBehind k s.journal := by
    cases henter with
    | @restored _ _ _ _ _ _ executed _ version accepted positions =>
      obtain ⟨v₁, -, rfl⟩ := recorded_version_eq_ok.1 version
      obtain ⟨v₂, -, rfl⟩ := recorded_positions_eq_ok.1 positions
      refine ⟨[.positions executed], rfl, ?_, fun _ r'' hr'' _ => ?_⟩
      · intro x q rows hq
        simp [Answer.begins] at hq
      · obtain rfl := Option.some.inj hr''
        have hstart : Reaches r'.chunk.start k := hchunk ▸ ⟨k, hk, le_refl k⟩
        exact ⟨hstart, hstart⟩
  have hs₁ := hmoves.keeps (I := fun p s' => s'.InTurn contents admits seed (s.line seed) none p ∧
    ∀ k, r.chunk.start = some k → s'.StaysBehind k s.journal)
    (fun hmove hi => ⟨hi.1.move honest hmove,
      fun k hk => (hi.2 k hk).move honest hmove hi.1.regular⟩) ⟨hturn, hbehind⟩
  have hkeeps : Stage.Keeps env.recorded fun x s' =>
      s'.InTurn contents admits seed (s.line seed) x .idle ∧
        ∀ k, r.chunk.start = some k → s'.StaysBehind k s.journal :=
    ⟨fun hst hcontinues hi => ⟨hi.1.perform honest hst hcontinues,
        fun k hk => (hi.2 k hk).perform honest hst hcontinues hi.1.regular⟩,
      fun hi => hi.1.regular.commands, fun hi => hi.1.stands.exists_run⟩
  obtain ⟨hs', hlast⟩ := hkeeps.requests hrest hreqs' hs₁
  refine ⟨⟨hs'.stands.wellRead, hs'.stands.ended, fun v => hs'.stands.current, hs'.reads⟩, hs'.line,
    fun v hv hover => ⟨Session.reaches_start hs hb hr hready hv hover, fun k hk => ?_⟩⟩
  obtain ⟨later, hjournal, hasks, -⟩ := hlast k hk
  exact ⟨later, hjournal, hasks⟩

namespace Rehearsal

private theorem restore_of_watermarks {r : Run}
    (h : Json.Format.read? (Json.reading (Json.Format.write r.watermarks)) = some r.watermarks) :
    Run.restore r.persist = .ok r := by
  rw [Run.restore_persist, h]

/-- A run is handed over while the second row of a table waits in the buffer. The row is read again,
and each row of both tables is sent once. -/
theorem shelves_handsOver : ∃ s r s',
    Request.performAll (shelf shelves).recorded [.start 9 none,
      .add 9 [⟨"d", "a"⟩, ⟨"d", "b"⟩] .empty, .process 9 ⟨⟨"p"⟩, ⟨some ⟨"s", 6⟩, false⟩, .begin⟩]
      ⟨{ settings := { chunkSize := 1 } }, ⟨[], []⟩⟩ = .ok () s ∧
    s.coordinator.run = some r ∧ Run.restore r.persist = .ok r ∧
    Request.performAll (shelf shelves).recorded [.start 9 (some r),
      .process 9 ⟨⟨"p"⟩, ⟨none, false⟩, .heartbeat⟩]
      ⟨{ settings := { chunkSize := 1 } }, ⟨[], s.journal⟩⟩ = .ok () s' ∧
    s.emitted.map (fun e => e.record.key) = [⟨[.int 1]⟩] ∧
    s'.emitted.map (fun e => e.record.key) = [⟨[.int 1]⟩, ⟨[.int 2]⟩, ⟨[.int 3]⟩] ∧
    s'.ReadsOnce (fun _ t => ChunkQuery.contentsOf (shelves t)) (fun _ _ => True) [] := by
  obtain ⟨s, h, hends⟩ := exists_of_endsIn
    (x := Request.performAll (shelf shelves).recorded [.start 9 none,
      .add 9 [⟨"d", "a"⟩, ⟨"d", "b"⟩] .empty, .process 9 ⟨⟨"p"⟩, ⟨some ⟨"s", 6⟩, false⟩, .begin⟩])
    (s := ⟨{ settings := { chunkSize := 1 } }, ⟨[], []⟩⟩)
    (p := fun s => s.emitted.map (fun e => e.record.key) = [⟨[.int 1]⟩] ∧
      s.coordinator.run.any fun r => r.paused = false ∧
        Json.Format.read? (Json.reading (Json.Format.write r.watermarks)) = some r.watermarks ∧
        endsIn (Request.performAll (shelf shelves).recorded [.start 9 (some r),
          .process 9 ⟨⟨"p"⟩, ⟨none, false⟩, .heartbeat⟩])
          ⟨{ settings := { chunkSize := 1 } }, ⟨[], s.journal⟩⟩
          fun s' => s'.emitted.map (fun e => e.record.key) =
            [⟨[.int 1]⟩, ⟨[.int 2]⟩, ⟨[.int 3]⟩])
    (by decide +kernel)
  simp only [decide_eq_true_eq, Option.any_eq_true] at hends
  obtain ⟨hfirst, r, hr, hpaused, hmarks, hsecond⟩ := hends
  obtain ⟨s', h', hkeys⟩ := exists_of_endsIn hsecond
  have hrestore := restore_of_watermarks hmarks
  refine ⟨s, r, s', h, hr, hrestore, h', hfirst, of_decide_eq_true hkeys, ?_⟩
  exact (performAll_handsOver (shelf_honest shelves_ascending) (by decide) (by simp) (by simp)
    (by simp [Request.Continues]) h hr (.inr hrestore) (by simp [hpaused]) (by decide) (by simp)
    (by simp [Request.Continues]) h').1

/-- The window of a paused run ends, and its row is sent. The next coordinator takes the chunk for
one that is still to be sent, and sends the row again. -/
theorem paused_shelves_repeat : ∃ s r s',
    Request.performAll (shelf shelves).recorded [.start 9 none, .add 9 [⟨"d", "a"⟩] .empty, .pause,
      .process 9 ⟨⟨"p"⟩, ⟨some ⟨"s", 6⟩, false⟩, .begin⟩]
      ⟨{ settings := { chunkSize := 1 } }, ⟨[], []⟩⟩ = .ok () s ∧
    s.coordinator.run = some r ∧ Run.restore r.persist = .ok r ∧
    Request.performAll (shelf shelves).recorded [.start 9 (some r), .resume 9,
      .process 9 ⟨⟨"p"⟩, ⟨none, false⟩, .heartbeat⟩]
      ⟨{ settings := { chunkSize := 1 } }, ⟨[], []⟩⟩ = .ok () s' ∧
    s.emitted.map (fun e => e.record.key) = [⟨[.int 1]⟩] ∧
    s'.emitted.map (fun e => e.record.key) = [⟨[.int 1]⟩, ⟨[.int 2]⟩] := by
  obtain ⟨s, h, hends⟩ := exists_of_endsIn
    (x := Request.performAll (shelf shelves).recorded [.start 9 none,
      .add 9 [⟨"d", "a"⟩] .empty, .pause, .process 9 ⟨⟨"p"⟩, ⟨some ⟨"s", 6⟩, false⟩, .begin⟩])
    (s := ⟨{ settings := { chunkSize := 1 } }, ⟨[], []⟩⟩)
    (p := fun s => s.emitted.map (fun e => e.record.key) = [⟨[.int 1]⟩] ∧
      s.coordinator.run.any fun r =>
        Json.Format.read? (Json.reading (Json.Format.write r.watermarks)) = some r.watermarks ∧
        endsIn (Request.performAll (shelf shelves).recorded [.start 9 (some r), .resume 9,
          .process 9 ⟨⟨"p"⟩, ⟨none, false⟩, .heartbeat⟩])
          ⟨{ settings := { chunkSize := 1 } }, ⟨[], []⟩⟩
          fun s' => s'.emitted.map (fun e => e.record.key) = [⟨[.int 1]⟩, ⟨[.int 2]⟩])
    (by decide +kernel)
  simp only [decide_eq_true_eq, Option.any_eq_true] at hends
  obtain ⟨hfirst, r, hr, hmarks, hsecond⟩ := hends
  obtain ⟨s', h', hkeys⟩ := exists_of_endsIn hsecond
  exact ⟨s, r, s', h, hr, restore_of_watermarks hmarks, h', hfirst, of_decide_eq_true hkeys⟩

end Rehearsal
end Backfill

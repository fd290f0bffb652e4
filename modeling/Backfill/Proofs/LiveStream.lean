import Backfill.Proofs.Attempts
import Backfill.Proofs.FreshWindow

/-! The live stream passes through unchanged. Whatever is flushed and read for a unit and whatever
fails, each change is given to the sink once, after the rows that its unit lets out, and only if the
unit was taken well. All other records are rows that were read. -/
namespace Backfill
open Procedure Session Environment
variable {σ : Type} {env : Environment σ}

def Event.passed (e : Event) : List Emission :=
  match e.kind with
  | .change c => [⟨e.partition, c.table, c.record, e.offset⟩]
  | _ => []

/-- Whether a record is that of a row that was read, let out by a unit. -/
structure Event.LetsOut (e : Event) (x : Emission) : Prop where
  operation : x.record.operation = .read
  partition : x.partition = e.partition
  offset : x.offset = ⟨e.position, true⟩

def Request.LetsOut : Request → Emission → Prop
  | .process _ e, x => e.LetsOut x
  | _, _ => False

def Stage.LetsOut : Stage → Emission → Prop
  | .place _ e, x | .close _ e, x => e.LetsOut x
  | _, _ => False

def Stage.passes : Stage → Bool
  | .pass _ _ => true
  | _ => false

/-- Whether only records of a kind were given to the sink between two sessions. -/
def Session.Sends (C : Emission → Prop) (s t : Session (Recorded σ)) : Prop :=
  ∃ sent, t.emitted = s.emitted ++ sent ∧ ∀ x ∈ sent, C x

namespace Session.Sends
variable {C D : Emission → Prop} {s t u : Session (Recorded σ)}

theorem of_eq (h : t.emitted = s.emitted) : Sends C s t :=
  ⟨[], by rw [h, List.append_nil], fun _ hx => absurd hx List.not_mem_nil⟩

theorem trans (h : Sends C s t) (h' : Sends C t u) : Sends C s u := by
  obtain ⟨sent, hsent, hall⟩ := h
  obtain ⟨sent', hsent', hall'⟩ := h'
  refine ⟨sent ++ sent', by rw [hsent', hsent, List.append_assoc], fun x hx => ?_⟩
  exact (List.mem_append.1 hx).elim (hall x) (hall' x)

theorem mono (h : Sends C s t) (hCD : ∀ x, C x → D x) : Sends D s t :=
  h.imp fun _ hsent => ⟨hsent.1, fun x hx => hCD x (hsent.2 x hx)⟩

end Session.Sends

theorem Event.letsOut_flushing (e : Event) (c : Coordinator) :
    ∀ x ∈ (c.flushing e.partition e.offset).1.records, e.LetsOut x := by
  intro x hx
  rcases c.flushing_phase e.partition e.offset with hp | ⟨t, -, hp⟩ <;> rw [hp] at hx
  · exact absurd hx List.not_mem_nil
  · obtain ⟨row, -, rfl⟩ := List.mem_map.1 hx
    exact ⟨rfl, rfl, rfl⟩

/-- The beginning of a stage gives nothing to the sink; what is to be sent are rows that it lets
out. -/
theorem Enters.letsOut {st : Stage} {p : Phase} {s t : Session (Recorded σ)}
    (h : Enters env.recorded st s p t) (hst : st.passes = false) :
    t.emitted = s.emitted ∧ ∀ x ∈ p.records, st.LetsOut x := by
  have none {q : Phase} (hq : q.records = []) : ∀ x ∈ q.records, st.LetsOut x :=
    fun x hx => absurd (hq ▸ hx) List.not_mem_nil
  cases h with
  | fresh version accepted positions | restored version accepted positions =>
    obtain ⟨v₁, -, rfl⟩ := recorded_version_eq_ok.1 version
    obtain ⟨v₂, -, rfl⟩ := recorded_positions_eq_ok.1 positions
    exact ⟨by simp [emitted, journal, List.filterMap_cons, Answer.sent?], none rfl⟩
  | passed emit => exact absurd hst (by simp [Stage.passes])
  | closed closes | reached reached => exact ⟨rfl, Event.letsOut_flushing _ _⟩
  | _ => exact ⟨rfl, none rfl⟩

theorem emitted_of_journal {s t : Session (Recorded σ)} (h : t.world.journal = s.world.journal) :
    t.emitted = s.emitted :=
  congrArg (List.filterMap Answer.sent?) h

theorem Environment.FailsOpening.sent {w w' : Recorded σ} {f : Failure}
    (h : env.recorded.FailsOpening w f w') :
    w'.journal.filterMap Answer.sent? = w.journal.filterMap Answer.sent? := by
  cases h with
  | positions positions =>
    simp only [recorded] at positions
    rw [recording_eq_error positions]
  | commit positions commit =>
    obtain ⟨v, -, rfl⟩ := recorded_positions_eq_ok.1 positions
    simp only [recorded] at commit
    rw [recording_eq_error commit]
    exact Answer.sent_snoc rfl
  | begin positions commit begins =>
    obtain ⟨v, -, rfl⟩ := recorded_positions_eq_ok.1 positions
    obtain ⟨v', -, rfl⟩ := recorded_commit_eq_ok.1 commit
    simp only [recorded] at begins
    rw [recording_eq_error begins]
    exact (Answer.sent_snoc rfl).trans (Answer.sent_snoc rfl)

/-- A reading that breaks off at a call has given nothing to the sink by that call. -/
theorem Breaks.emitted {p : Phase} {s s' : Session (Recorded σ)} {f : Failure}
    (h : Breaks env.recorded p s f s') : s'.emitted = s.emitted := by
  cases h with
  | unsent emit =>
    simp only [recorded] at emit
    exact emitted_of_journal (recording_eq_error emit)
  | stayed asked | stopped asked => rfl
  | uncommitted reads commit =>
    simp only [recorded] at commit
    exact emitted_of_journal (recording_eq_error commit)
  | unopened reads commit opens =>
    obtain ⟨v, -, rfl⟩ := recorded_commit_eq_ok.1 commit
    exact opens.sent.trans (Answer.sent_snoc rfl)
  | unmeasured run tables unknown maximum =>
    simp only [recorded] at maximum
    exact emitted_of_journal (recording_eq_error maximum)
  | unanswered run tables known query =>
    simp only [recorded] at query
    exact emitted_of_journal (recording_eq_error query)
  | uncaptured running positions =>
    simp only [recorded] at positions
    exact emitted_of_journal (recording_eq_error positions)

theorem perform_sends {st : Stage} {s s' : Session (Recorded σ)} {u : Unit}
    (h : st.perform env.recorded s = .ok u s') (hst : st.passes = false) :
    Sends st.LetsOut s s' := by
  obtain ⟨p, t, henter, hmoves⟩ := perform_enters h
  obtain ⟨hsame, hrecords⟩ := henter.letsOut hst
  obtain ⟨sent, hsent, hall⟩ := sent_moves hmoves
  rw [Phase.records_idle, List.append_nil] at hall
  exact ⟨sent, by rw [hsent, hsame], hall ▸ hrecords⟩

/-- Also a stage that fails gives nothing to the sink but rows that it lets out. -/
theorem Fails.sends {st : Stage} {s s' : Session (Recorded σ)} {f : Failure}
    (h : Fails env.recorded st s f s') : Sends st.LetsOut s s' := by
  cases h with
  | unknown version =>
    simp only [recorded] at version
    exact .of_eq (emitted_of_journal (recording_eq_error version))
  | unsupported version refused =>
    obtain ⟨v, -, rfl⟩ := recorded_version_eq_ok.1 version
    exact .of_eq rfl
  | unlisted version accepted positions =>
    obtain ⟨v, -, rfl⟩ := recorded_version_eq_ok.1 version
    simp only [recorded] at positions
    have hjournal := recording_eq_error positions
    exact .of_eq (emitted_of_journal hjournal)
  | absent run => exact .of_eq rfl
  | unpassed emit =>
    simp only [recorded] at emit
    exact .of_eq (emitted_of_journal (recording_eq_error emit))
  | placed closes asked | reached reached asked => exact .of_eq rfl
  | @broken _ _ p t _ _ enters breaks =>
    obtain ⟨q, u, hmoves, hbreaks⟩ := breaks
    cases hst : st.passes with
    | true =>
      -- a change that is passed on is the whole of its stage
      cases enters with
      | passed emit =>
        obtain ⟨rfl, rfl⟩ := hmoves.of_idle
        cases hbreaks
      | _ => exact absurd hst (by simp [Stage.passes])
    | false =>
      obtain ⟨hsame, hrecords⟩ := enters.letsOut hst
      obtain ⟨sent, hsent, hall⟩ := sent_moves hmoves
      refine ⟨sent, by rw [hbreaks.emitted, hsent, hsame], fun x hx => hrecords x ?_⟩
      rw [hall]
      exact List.mem_append_left _ hx

section Rows
variable {sts : List Stage} {C : Emission → Prop} {s s' : Session (Recorded σ)}

theorem performAll_sends (h : Stage.performAll env.recorded sts s = .ok () s')
    (hsts : ∀ st ∈ sts, st.passes = false ∧ ∀ x, st.LetsOut x → C x) : Sends C s s' :=
  each_keeps (f := Stage.perform env.recorded) (I := fun t => Sends C s t)
    (fun st hst _ _ hperform hi =>
      hi.trans ((perform_sends hperform (hsts st hst).1).mono (hsts st hst).2))
    h (.of_eq rfl)

theorem performAll_sends_of_failed {f : Failure}
    (h : Stage.performAll env.recorded sts s = .error (.failed f) s')
    (hsts : ∀ st ∈ sts, st.passes = false ∧ ∀ x, st.LetsOut x → C x) : Sends C s s' := by
  obtain ⟨before, st, after, t, rfl, hbefore, hst⟩ := exists_of_each_eq_error h
  refine (performAll_sends hbefore fun st' hst' => hsts st' (List.mem_append_left _ hst')).trans ?_
  exact (perform_fails hst).sends.mono (hsts st (by simp)).2

end Rows

def Request.passStages : Request → List Stage
  | .process _ e => e.passStages
  | _ => []

/-- A request ends with passing on a change; before that only rows are let out. -/
theorem Request.stages_eq (req : Request) (c : Coordinator) (n : Nat) : ∃ work,
    req.stages c n = work ++ req.passStages ∧
      ∀ st ∈ work, st.passes = false ∧ ∀ x, st.LetsOut x → req.LetsOut x := by
  have hcommand (rounds : Nat) (cmd : Command) : ∀ st ∈ cmd.stages rounds,
      st.passes = false ∧ ∀ x, ¬ st.LetsOut x := by
    unfold Command.stages
    cases cmd.action <;> simp [Stage.passes, Stage.LetsOut]
  cases req with
  | process rounds e =>
    cases hrun : c.run.isNone with
    | true => exact ⟨[], by simp [stages, hrun, passStages], by simp⟩
    | false =>
      refine ⟨.take :: c.pending.flatMap (Command.stages rounds) ++
        .place rounds e :: e.closeStages rounds n, by simp [stages, hrun, passStages], ?_⟩
      intro st hst
      simp only [List.mem_append, List.mem_cons, List.mem_flatMap, List.cons_append] at hst
      obtain rfl | ⟨cmd, -, hst⟩ | rfl | hst := hst
      · exact ⟨rfl, fun _ hx => hx.elim⟩
      · obtain ⟨hpass, hout⟩ := hcommand rounds cmd st hst
        exact ⟨hpass, fun x hx => absurd hx (hout x)⟩
      · exact ⟨rfl, fun _ hx => hx⟩
      · rw [Event.eq_of_mem_closeStages hst]
        exact ⟨rfl, fun _ hx => hx⟩
  | apply rounds cmd =>
    refine ⟨cmd.stages rounds, (List.append_nil _).symm, fun st hst => ?_⟩
    obtain ⟨hpass, hout⟩ := hcommand rounds cmd st hst
    exact ⟨hpass, fun x hx => absurd hx (hout x)⟩
  | _ =>
    refine ⟨_, (List.append_nil _).symm, fun st hst => ?_⟩
    rw [List.mem_singleton.1 hst]
    exact ⟨rfl, fun _ hx => hx.elim⟩

theorem Event.emitted_passStages {e : Event} {s s' : Session (Recorded σ)}
    (h : Stage.performAll env.recorded e.passStages s = .ok () s') :
    s'.emitted = s.emitted ++ e.passed := by
  unfold passStages at h
  unfold passed
  split
  · rename_i change hk
    simp only [hk] at h
    obtain ⟨t, hpass, hend⟩ := each_cons_eq_ok.1 h
    obtain rfl := each_nil_eq_ok.1 hend
    obtain ⟨p, u, henter, hmoves⟩ := perform_enters hpass
    cases henter with
    | passed emit =>
      obtain ⟨-, rfl⟩ := hmoves.of_idle
      obtain ⟨v, -, rfl⟩ := recorded_emit_eq_ok.1 emit
      exact List.filterMap_append
  · rename_i hk
    split at h
    · exact absurd ‹_› (hk _)
    · rw [each_nil_eq_ok.1 h, List.append_nil]

theorem Event.emitted_passStages_of_failed {e : Event} {s s' : Session (Recorded σ)} {f : Failure}
    (h : Stage.performAll env.recorded e.passStages s = .error (.failed f) s') :
    s'.emitted = s.emitted := by
  unfold passStages at h
  split at h
  · rcases each_cons_eq_error.1 h with hpass | ⟨_, -, hend⟩
    · obtain ⟨sent, hsent, hall⟩ := (perform_fails hpass).sends
      rw [hsent, List.eq_nil_iff_forall_not_mem.2 hall, List.append_nil]
    · exact absurd hend pure_ne_error
  · exact absurd h pure_ne_error

def Attempt.passed (a : Attempt σ) : List Emission :=
  match a.request, a.failure with
  | .process _ e, none => e.passed
  | _, _ => []

/-- What an attempt gives to the sink are rows that it lets out, and then the change itself. -/
theorem Attempt.Happens.emitted {a : Attempt (Recorded σ)} (h : a.Happens env.recorded) :
    ∃ rows, a.after.emitted = a.before.emitted ++ rows ++ a.passed ∧
      ∀ x ∈ rows, a.request.LetsOut x := by
  obtain ⟨s, req, failure, s'⟩ := a
  cases failure with
  | none =>
    obtain ⟨n, hstages⟩ := perform_stages h
    obtain ⟨work, hwork, hlets⟩ := req.stages_eq s.coordinator n
    rw [hwork] at hstages
    obtain ⟨t, hperformed, hpass⟩ := each_append_eq_ok.1 hstages
    obtain ⟨rows, hrows, hall⟩ := performAll_sends hperformed hlets
    refine ⟨rows, ?_, hall⟩
    cases req with
    | process rounds e => exact (e.emitted_passStages hpass).trans (congrArg (· ++ e.passed) hrows)
    | _ =>
      obtain rfl := each_nil_eq_ok.1 hpass
      exact hrows.trans (List.append_nil _).symm
  | some f =>
    obtain ⟨n, hstages⟩ := performAll_stages_of_failed h
    obtain ⟨work, hwork, hlets⟩ := req.stages_eq s.coordinator n
    rw [hwork] at hstages
    have hnone : passed ⟨s, req, some f, s'⟩ = [] := by cases req <;> rfl
    simp only [hnone, List.append_nil]
    rcases each_append_eq_error.1 hstages with hfailed | ⟨t, hperformed, hpass⟩
    · exact performAll_sends_of_failed hfailed hlets
    · obtain ⟨rows, hrows, hall⟩ := performAll_sends hperformed hlets
      refine ⟨rows, ?_, hall⟩
      cases req with
      | process rounds e => exact (e.emitted_passStages_of_failed hpass).trans hrows
      | _ => exact absurd hpass pure_ne_error

def Emission.isLive (x : Emission) : Bool := !x.offset.fromSnapshot

/-- Whether a request takes no unit that a snapshot brought. -/
def Request.isLive : Request → Bool
  | .process _ e => !e.offset.fromSnapshot
  | _ => true

theorem Request.LetsOut.isLive {req : Request} {x : Emission} (h : req.LetsOut x) :
    x.isLive = false := by
  cases req with
  | process rounds e => simp [Emission.isLive, h.offset]
  | _ => exact h.elim

theorem Attempt.isLive_of_mem_passed {a : Attempt σ} (hlive : a.request.isLive = true) :
    ∀ x ∈ a.passed, x.isLive = true := by
  obtain ⟨s, req, failure, s'⟩ := a
  intro x hx
  cases req with
  | process rounds e =>
    cases failure with
    | some f => exact absurd hx List.not_mem_nil
    | none =>
      simp only [passed, Event.passed] at hx
      split at hx
      · rw [List.mem_singleton.1 hx]
        exact hlive
      · exact absurd hx List.not_mem_nil
  | _ => exact absurd hx List.not_mem_nil

/-- What attempts give to the sink. -/
structure PassesThrough (s : Session (Recorded σ)) (as : List (Attempt (Recorded σ)))
    (s' : Session (Recorded σ)) : Prop where
  /-- The records of the live stream are the changes that were taken well, in order. -/
  live : s'.emitted.filter Emission.isLive =
    s.emitted.filter Emission.isLive ++ as.flatMap Attempt.passed
  /-- The other records are those of rows that a unit lets out before its own change. -/
  each : ∀ a ∈ as, ∃ rows, a.after.emitted = a.before.emitted ++ rows ++ a.passed ∧
    ∀ x ∈ rows, a.request.LetsOut x

/-- Whatever is asked and whatever fails, the live stream passes through unchanged. -/
theorem attempts_passThrough {s s' : Session (Recorded σ)} {as : List (Attempt (Recorded σ))}
    (h : Attempts env.recorded s as s') (hlive : ∀ a ∈ as, a.request.isLive = true) :
    PassesThrough s as s' := by
  refine ⟨?_, fun a ha => (h.happens a ha).emitted⟩
  induction h with
  | nil => exact (List.append_nil _).symm
  | @cons a as s' happens _ ih =>
    obtain ⟨rows, hemitted, hall⟩ := happens.emitted
    have hrows : rows.filter Emission.isLive = [] :=
      List.filter_eq_nil_iff.2 fun x hx => by simp [(hall x hx).isLive]
    have hpassed : a.passed.filter Emission.isLive = a.passed :=
      List.filter_eq_self.2 (Attempt.isLive_of_mem_passed (hlive a (by simp)))
    rw [ih fun a' ha' => hlive a' (List.mem_cons_of_mem _ ha'), hemitted, List.filter_append,
      List.filter_append, hrows, hpassed, List.append_nil, List.flatMap_cons, List.append_assoc]

namespace Rehearsal

def faultySink : Session (Recorded World) where
  coordinator := { settings := {} }
  world :=
    { world :=
        { positions := [upTo 5, upTo 5, upTo 6]
          tables := [⟨⟨"d", "a"⟩, [⟨⟨[.int 1]⟩, .null⟩], none⟩]
          failures := [⟨.emit, 2, .dataAccess "refused"⟩] }
      journal := [] }

/-- A change of another table, and one that ends the window and is repeated after a failure. -/
def repeatedChange : List Request :=
  let change (t : Table) (key : Int64) : Event.Kind :=
    .change ⟨t, .update, ⟨[.int key]⟩, some .null⟩
  [.start 9 none, .add 9 [⟨"d", "a"⟩] .empty, .process 9 (unit 6 (change ⟨"d", "b"⟩ 7)),
    .process 9 (unit 7 (change ⟨"d", "a"⟩ 8)), .process 9 (unit 7 (change ⟨"d", "a"⟩ 8))]

theorem repeatedChange_passesThrough : ∃ as s', as.map Attempt.request = repeatedChange ∧
    as.map (fun a => a.failure.isSome) = [false, false, false, true, false] ∧
    as.flatMap (fun a => a.passed.map fun e => e.record.key) = [⟨[.int 7]⟩, ⟨[.int 8]⟩] ∧
    Attempts environment.recorded faultySink as s' ∧ (∀ a ∈ as, a.request.isLive = true) ∧
    PassesThrough faultySink as s' := by
  have hall : (Request.attemptAll? environment.recorded repeatedChange faultySink).any (fun as =>
      as.map (fun a => a.failure.isSome) = [false, false, false, true, false] &&
      as.flatMap (fun a => a.passed.map fun e => e.record.key) = [⟨[.int 7]⟩, ⟨[.int 8]⟩]) =
        true := by
    decide +kernel
  obtain ⟨as, has, hshown⟩ := (Option.any_eq_true _ _).1 hall
  simp only [Bool.and_eq_true, decide_eq_true_eq] at hshown
  obtain ⟨hrequests, s', h⟩ := attempts_of_attemptAll? has
  have hlive : ∀ a ∈ as, a.request.isLive = true := by
    have hunits : ∀ req ∈ repeatedChange, req.isLive = true := by decide
    exact fun a ha => hunits _ (hrequests ▸ List.mem_map_of_mem ha)
  exact ⟨as, s', hrequests, hshown.1, hshown.2, h, hlive, attempts_passThrough h hlive⟩

end Rehearsal
end Backfill

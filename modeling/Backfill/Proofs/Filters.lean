import Backfill.Proofs.Served
import Backfill.Proofs.Stopping
import Backfill.Proofs.Traversal

/-! Filters stand under the texts of tables, in a map beside the queue. Two tables have the same text
only if a database has a dot in its name, and what is read from a record has none. So as long as no
such database is named, each queued table keeps the filter it was queued with: no table that is
finished, stopped or queued shares its entry. -/
namespace Backfill
open Procedure Session Text
variable {σ : Type} {env : Environment σ}

namespace Table
variable {t u : Table}

/-- Whether the name of the database has no dot. -/
def IsPlain (t : Table) : Prop := '.' ∉ t.database.toList

instance (t : Table) : Decidable t.IsPlain := inferInstanceAs (Decidable (_ ∉ _))

theorem IsPlain.eq_of_text (ht : t.IsPlain) (hu : u.IsPlain) (h : t.text = u.text) : t = u := by
  have hchars (t : Table) : t.text.toList = t.database.toList ++ '.' :: t.name.toList := by
    simp [text, String.toList_append]
  have hcut : cutFirst '.' t.text.toList = cutFirst '.' u.text.toList := congrArg _ (by rw [h])
  rw [hchars, hchars, cutFirst_append ht, cutFirst_append hu] at hcut
  obtain ⟨hdatabase, hname⟩ := Prod.mk.inj (Option.some.inj hcut)
  cases t
  cases u
  exact congr (congrArg _ (String.toList_inj.1 hdatabase)) (String.toList_inj.1 hname)

theorem isPlain_of_parse {s : String} (h : parse s = .ok t) : t.IsPlain := by
  unfold parse at h
  split at h
  · rename_i d database n name hcut
    obtain rfl := Except.ok.inj h
    simpa [IsPlain] using (cutFirst_eq_some_iff.1 hcut).1
  · cases h

theorem isPlain_of_mapM_parse {ss : List String} {ts : List Table} (h : ss.mapM parse = .ok ts) :
    ∀ t ∈ ts, t.IsPlain := by
  intro t ht
  obtain ⟨s, -, hparse⟩ := exists_of_forall₂ (mapM_eq_ok_iff.1 h).flip ht
  exact isPlain_of_parse hparse

end Table

/-- The filter that the details of a record give for a table; the last one counts. -/
def CommandDetails.filterFor (d : CommandDetails) (t : Table) : Option String :=
  (d.filters.reverse.find? fun f => (Table.parse f.table).toOption = some t).map TableFilter.filter

namespace CommandRecord

def details? (r : CommandRecord) : Option CommandDetails :=
  ((Json.read r.value).bind payload?).map Prod.snd

private theorem get?_of_addFilters {fs : List TableFilter} {m m' : TextMap String}
    (h : fs.foldlM addFilter m = .ok m') {t : Table} (ht : t.IsPlain) :
    m'.get? t.text = ((fs.reverse.find? fun f => (Table.parse f.table).toOption = some t).map
      TableFilter.filter).or (m.get? t.text) := by
  induction fs generalizing m with
  | nil =>
    obtain rfl : m = m' := Except.ok.inj h
    rfl
  | cons f fs ih =>
    rw [List.foldlM_cons] at h
    cases hparse : Table.parse f.table with
    | error e => simp [addFilter, hparse, bind, Except.bind] at h
    | ok u =>
      have hadd : addFilter m f = .ok (m.insert u.text f.filter) := by
        simp [addFilter, hparse, bind, Except.bind]
      rw [hadd] at h
      have htext : t.text = u.text ↔ u = t :=
        ⟨fun heq => (ht.eq_of_text (Table.isPlain_of_parse hparse) heq).symm, fun heq => heq ▸ rfl⟩
      rw [ih h, TextMap.get?_insert, List.reverse_cons, List.find?_append]
      simp only [htext, List.find?_singleton, hparse, Except.toOption, Option.some.injEq,
        decide_eq_true_eq]
      split
      · cases fs.reverse.find? _ <;> rfl
      · cases fs.reverse.find? _ <;> rfl

/-- The command of a record names tables without a dot in their databases. For such a table it has
the filter that the record gives last. -/
theorem filters_of_parse {r : CommandRecord} {connector : String} {cmd : Command}
    (h : r.parse connector = .ok (some cmd)) : ∃ d, r.details? = some d ∧
      (∀ t ∈ cmd.tables, t.IsPlain) ∧
      ∀ t : Table, t.IsPlain → cmd.filters.get? t.text = d.filterFor t := by
  unfold parse at h
  split at h
  · cases h
  cases hpayload : (Json.read r.value).bind payload? with
  | none => simp [hpayload] at h
  | some p =>
    obtain ⟨name, d⟩ := p
    simp only [hpayload] at h
    split at h
    · cases h
    rename_i action _
    refine ⟨d, by rw [details?, hpayload]; rfl, ?_⟩
    unfold command at h
    split at h
    · cases h
    cases htables : d.tables.mapM Table.parse with
    | error e => simp [htables, bind, Except.bind] at h
    | ok tables =>
      cases hfilters : d.filters.foldlM addFilter .empty with
      | error e => simp [htables, hfilters, bind, Except.bind] at h
      | ok filters =>
        simp only [htables, hfilters, bind, Except.bind, Except.ok.injEq, Option.some.injEq] at h
        subst h
        refine ⟨Table.isPlain_of_mapM_parse htables, fun t ht => ?_⟩
        rw [get?_of_addFilters hfilters ht, TextMap.get?_empty, Option.or_none]
        rfl

end CommandRecord
namespace Run
variable {r : Run}

/-- Whether each table is queued once, none has a dot in its database, and only queued tables have
filters. -/
structure Tidy (r : Run) : Prop where
  once : r.tables.Nodup
  plain : ∀ t ∈ r.tables, t.IsPlain
  filters : r.FiltersQueued

theorem Tidy.of_eq {r' : Run} (h : r.Tidy) (htables : r'.tables = r.tables)
    (hfilters : r'.filters = r.filters) : r'.Tidy :=
  ⟨htables ▸ h.once, htables ▸ h.plain, h.filters.of_eq htables hfilters⟩

/-- A table that was not queued has the filter it is queued with. The others keep theirs. -/
theorem Tidy.enqueue (h : r.Tidy) (filters : TextMap String) {t : Table} (ht : t.IsPlain) :
    (r.enqueue filters t).Tidy ∧ ∀ u ∈ (r.enqueue filters t).tables,
      (r.enqueue filters t).filters.get? u.text =
        if u ∈ r.tables then r.filters.get? u.text else filters.get? u.text := by
  by_cases hqueued : t ∈ r.tables
  · have hsame : r.enqueue filters t = r := if_pos hqueued
    exact ⟨hsame.symm ▸ h, fun u hu => by rw [hsame] at hu ⊢; rw [if_pos hu]⟩
  have htables : (r.enqueue filters t).tables = r.tables ++ [t] := by
    rw [Run.enqueue, if_neg hqueued]
  have hfree : r.filters.get? t.text = none := by
    by_contra hsome
    obtain ⟨u, hu, htext⟩ := h.filters _ hsome
    exact hqueued ((h.plain u hu).eq_of_text ht htext ▸ hu)
  have hfilters (k : String) : (r.enqueue filters t).filters.get? k =
      if k = t.text then filters.get? t.text else r.filters.get? k := by
    rw [Run.enqueue, if_neg hqueued]
    cases hfilter : filters.get? t.text with
    | none =>
      simp only
      split
      · rename_i hk
        rw [hk, hfree]
      · rfl
    | some filter => rw [TextMap.get?_insert]
  refine ⟨⟨nodup_enqueue filters t h.once, ?_, h.filters.enqueue filters t⟩, fun u hu => ?_⟩
  · rw [htables]
    exact List.forall_mem_append.2 ⟨h.plain, List.forall_mem_singleton.2 ht⟩
  · rw [htables, List.mem_append, List.mem_singleton] at hu
    rw [hfilters]
    rcases hu with hu | rfl
    · have hother : u.text ≠ t.text := fun heq => hqueued ((h.plain u hu).eq_of_text ht heq ▸ hu)
      rw [if_neg hother, if_pos hu]
    · rw [if_pos rfl, if_neg hqueued]

theorem Tidy.addTables (h : r.Tidy) (now : Int64) {tables : List Table} (filters : TextMap String)
    (hplain : ∀ t ∈ tables, t.IsPlain) : (r.addTables now tables filters).Tidy ∧
      ∀ u ∈ (r.addTables now tables filters).tables,
        (r.addTables now tables filters).filters.get? u.text =
          if u ∈ r.tables then r.filters.get? u.text else filters.get? u.text := by
  suffices hall : ∀ r : Run, r.Tidy → (tables.foldl (Run.enqueue filters) r).Tidy ∧
      ∀ u ∈ (tables.foldl (Run.enqueue filters) r).tables,
        (tables.foldl (Run.enqueue filters) r).filters.get? u.text =
          if u ∈ r.tables then r.filters.get? u.text else filters.get? u.text by
    obtain ⟨htidy, hget⟩ := hall r h
    exact ⟨htidy.of_eq rfl rfl, hget⟩
  clear h
  induction tables with
  | nil => exact fun r hr => ⟨hr, fun u hu => (if_pos hu).symm⟩
  | cons t ts ih =>
    intro r hr
    obtain ⟨ht, hts⟩ := List.forall_mem_cons.1 hplain
    obtain ⟨hfirst, hget⟩ := hr.enqueue filters ht
    obtain ⟨hrest, hget'⟩ := ih hts _ hfirst
    refine ⟨hrest, fun u hu => (hget' u hu).trans ?_⟩
    split
    · rename_i hqueued
      exact hget u hqueued
    · rename_i hnew
      have hnot : u ∉ r.tables := by
        intro hmem
        refine hnew ?_
        unfold Run.enqueue
        split
        · exact hmem
        · exact List.mem_append_left _ hmem
      rw [if_neg hnot]

theorem Tidy.nextTable (h : r.Tidy) {t : Table} {ts : List Table} (ht : r.tables = t :: ts)
    (now : Int64) : (r.nextTable now).Tidy ∧ ∀ u ∈ (r.nextTable now).tables,
      u ∈ r.tables ∧ (r.nextTable now).filters.get? u.text = r.filters.get? u.text := by
  have htail : (r.nextTable now).tables = ts := by simp [Run.nextTable, touch, ht]
  obtain ⟨hnew, honce⟩ := List.nodup_cons.1 (ht ▸ h.once)
  obtain ⟨hplain, hplains⟩ := List.forall_mem_cons.1 (ht ▸ h.plain)
  refine ⟨⟨htail ▸ honce, htail ▸ hplains, h.filters.nextTable now⟩, fun u hu => ?_⟩
  rw [htail] at hu
  refine ⟨ht ▸ List.mem_cons_of_mem t hu, ?_⟩
  have hother : u.text ≠ t.text := fun heq => hnew ((hplains u hu).eq_of_text hplain heq ▸ hu)
  simp [Run.nextTable, touch, currentTable, ht, TextMap.get?_erase, hother]

theorem Tidy.removeTables (h : r.Tidy) (now : Int64) {tables : List Table}
    (hplain : ∀ t ∈ tables, t.IsPlain) : (r.removeTables now tables).Tidy ∧
      ∀ u ∈ (r.removeTables now tables).tables,
        u ∈ r.tables ∧ (r.removeTables now tables).filters.get? u.text = r.filters.get? u.text := by
  have hsub : (r.removeTables now tables).tables.Sublist r.tables := List.filter_sublist
  refine ⟨⟨h.once.sublist hsub, fun u hu => h.plain u (hsub.subset hu),
    h.filters.removeTables now tables⟩, fun u hu => ⟨hsub.subset hu, ?_⟩⟩
  have hstays : u ∉ tables := by simpa using (List.mem_filter.1 hu).2
  have hother : u.text ∉ tables.map Table.text := by
    intro hmem
    obtain ⟨t, ht, htext⟩ := List.mem_map.1 hmem
    exact hstays ((hplain t ht).eq_of_text (h.plain u (hsub.subset hu)) htext ▸ ht)
  have hfilters : (r.removeTables now tables).filters =
      (tables.map Table.text).foldl TextMap.erase r.filters := by
    rw [List.foldl_map]
    rfl
  rw [hfilters, TextMap.get?_foldl_erase, if_neg hother]

/-- Whether each queued table has a filter, or none, that is right for it. -/
structure Carries (right : Table → Option String → Prop) (r : Run) : Prop where
  tidy : r.Tidy
  given : ∀ t ∈ r.tables, right t (r.filters.get? t.text)

namespace Carries
variable {right right' : Table → Option String → Prop}

theorem of_eq {r' : Run} (h : r.Carries right) (htables : r'.tables = r.tables)
    (hfilters : r'.filters = r.filters) : r'.Carries right :=
  ⟨h.tidy.of_eq htables hfilters, by rw [htables, hfilters]; exact h.given⟩

theorem mono (h : r.Carries right)
    (hright : ∀ t ∈ r.tables, ∀ filter, right t filter → right' t filter) : r.Carries right' :=
  ⟨h.tidy, fun t ht => hright t ht _ (h.given t ht)⟩

theorem nextTable (h : r.Carries right) {t : Table} {ts : List Table} (ht : r.tables = t :: ts)
    (now : Int64) : (r.nextTable now).Carries right := by
  obtain ⟨htidy, hkept⟩ := h.tidy.nextTable ht now
  exact ⟨htidy, fun u hu => (hkept u hu).2 ▸ h.given u (hkept u hu).1⟩

theorem removeTables (h : r.Carries right) (now : Int64) {tables : List Table}
    (hplain : ∀ t ∈ tables, t.IsPlain) : (r.removeTables now tables).Carries right := by
  obtain ⟨htidy, hkept⟩ := h.tidy.removeTables now hplain
  exact ⟨htidy, fun u hu => (hkept u hu).2 ▸ h.given u (hkept u hu).1⟩

theorem addTables (h : r.Carries right) (now : Int64) {tables : List Table}
    {filters : TextMap String} (hplain : ∀ t ∈ tables, t.IsPlain)
    (hright : ∀ t ∈ r.tables, ∀ filter, right t filter → right' t filter)
    (hnew : ∀ t ∈ tables, t ∉ r.tables → right' t (filters.get? t.text)) :
    (r.addTables now tables filters).Carries right' := by
  obtain ⟨htidy, hget⟩ := h.tidy.addTables now filters hplain
  refine ⟨htidy, fun u hu => ?_⟩
  rw [hget u hu]
  split
  · rename_i hqueued
    exact hright u hqueued _ (h.given u hqueued)
  · rename_i hnot
    exact hnew u ((mem_of_mem_addTables hu).resolve_left hnot) hnot

end Carries
end Run

/-- A world and the queries that it was asked, whether they were answered or not. -/
structure Heard (σ : Type) where
  world : σ
  asked : List ChunkQuery

def Environment.heard (env : Environment σ) : Environment (Heard σ) where
  serverVersion w := ((env.serverVersion w.world).1, ⟨(env.serverVersion w.world).2, w.asked⟩)
  executedPositions w :=
    ((env.executedPositions w.world).1, ⟨(env.executedPositions w.world).2, w.asked⟩)
  beginRead w := ((env.beginRead w.world).1, ⟨(env.beginRead w.world).2, w.asked⟩)
  commit w := ((env.commit w.world).1, ⟨(env.commit w.world).2, w.asked⟩)
  maximumKey t w := ((env.maximumKey t w.world).1, ⟨(env.maximumKey t w.world).2, w.asked⟩)
  rangeQuery q w := ((env.rangeQuery q w.world).1, ⟨(env.rangeQuery q w.world).2, w.asked ++ [q]⟩)
  emit e w := ((env.emit e w.world).1, ⟨(env.emit e w.world).2, w.asked⟩)
  isInterrupted w := env.isInterrupted w.world
  now w := env.now w.world
  freshToken w := env.freshToken w.world

/-- Whether a stage queues a table, and with which filter. -/
def Stage.Gives (c : Coordinator) (t : Table) (filter : Option String) : Stage → Prop
  | .add _ tables filters =>
    c.run.isSome ∧ t ∈ tables ∧ t ∉ c.queue ∧ filters.get? t.text = filter
  | _ => False

/-- What is right for a table after a stage, if before it what was right is `right`. -/
def Stage.Leaves (right : Table → Option String → Prop) (c : Coordinator) (st : Stage) (t : Table)
    (filter : Option String) : Prop :=
  st.Gives c t filter ∨ right t filter ∧ ∀ f, ¬ st.Gives c t f

/-- A stage gives no filter for a table that is queued. -/
theorem Stage.not_gives {st : Stage} {c : Coordinator} {r : Run} {t : Table} (hr : c.run = some r)
    (ht : t ∈ r.tables) (filter : Option String) : ¬ st.Gives c t filter := by
  intro h
  cases st with
  | add => exact h.2.2.1 (by simpa [Coordinator.queue, hr] using ht)
  | _ => exact h

def Stage.named : Stage → List Table
  | .add _ tables _ | .stop tables => tables
  | _ => []

/-- Whether the queued tables have filters that are right for them, and so had all queries since
those in `old`. -/
structure Session.Carries (right : Table → Option String → Prop) (old : List ChunkQuery)
    (s : Session (Heard σ)) : Prop where
  run : ∀ r, s.coordinator.run = some r → r.Carries right
  asked : ∃ new, s.world.asked = old ++ new ∧ ∀ q ∈ new, right q.table q.filter

namespace Session.Carries
variable {right right' : Table → Option String → Prop} {old : List ChunkQuery} {p q : Phase}
  {s s' : Session (Heard σ)} {f : Failure}

theorem of_run (hs : s.Carries right old) (g : Run → Run)
    (hrun : s'.coordinator.run = s.coordinator.run.map g)
    (hg : ∀ r, r.Carries right → (g r).Carries right) (hasked : s'.world.asked = s.world.asked) :
    s'.Carries right old := by
  refine ⟨fun r' hr' => ?_, hasked ▸ hs.asked⟩
  rw [hrun] at hr'
  obtain ⟨r, hr, rfl⟩ := Option.map_eq_some_iff.1 hr'
  exact hg r (hs.run r hr)

theorem of_eq (hs : s.Carries right old) (hrun : s'.coordinator.run = s.coordinator.run)
    (hasked : s'.world.asked = s.world.asked) : s'.Carries right old :=
  ⟨hrun ▸ hs.run, hasked ▸ hs.asked⟩

/-- The query for the current table has its filter. -/
theorem query {c : Coordinator} {w : Heard σ} {r : Run} {t : Table} {ts : List Table}
    (hs : Session.Carries right old ⟨c, w⟩) (run : c.run = some r) (queued : r.tables = t :: ts)
    (v : σ) : Session.Carries right old ⟨c, ⟨v, w.asked ++ [c.chunkQuery t]⟩⟩ := by
  obtain ⟨new, hnew, hright⟩ := hs.asked
  refine ⟨hs.run, new ++ [c.chunkQuery t], ?_, fun q hq => ?_⟩
  · rw [← List.append_assoc]
    exact congrArg (· ++ _) hnew
  · rcases List.mem_append.1 hq with hq | hq
    · exact hright q hq
    · rw [List.mem_singleton.1 hq, (c.chunkQuery_of_run run queued).2.2.2]
      exact (hs.run r run).given t (queued ▸ List.mem_cons_self)

theorem move (h : Move env.heard p s q s') (hs : s.Carries right old) : s'.Carries right old := by
  cases h with
  | @sent pt t o n row rows c w w' emit =>
    obtain ⟨-, rfl⟩ := Prod.mk.inj emit
    exact hs.of_run (fun r => r.recordSent row.key) rfl (fun _ hr => hr.of_eq rfl rfl) rfl
  | allSent | declined stays | served run queued => exact hs.of_eq rfl rfl
  | @began c w w₁ w₂ w₃ w₄ low reads commit positions commit' begins =>
    obtain ⟨-, rfl⟩ := Prod.mk.inj commit
    obtain ⟨-, rfl⟩ := Prod.mk.inj positions
    obtain ⟨-, rfl⟩ := Prod.mk.inj commit'
    obtain ⟨-, rfl⟩ := Prod.mk.inj begins
    exact hs.of_run (fun r => (r.startChunk _).setLow low) (Option.map_map ..)
      (fun _ hr => hr.of_eq rfl rfl) rfl
  | @measured c w w' r t ts k run queued unknown maximum =>
    obtain ⟨-, rfl⟩ := Prod.mk.inj maximum
    exact hs.of_run (fun r => r.setMaximum k) rfl (fun _ hr => hr.of_eq rfl rfl) rfl
  | @vacant c w w' r t ts run queued unknown maximum =>
    obtain ⟨-, rfl⟩ := Prod.mk.inj maximum
    refine ⟨fun r' hr' => ?_, hs.asked⟩
    obtain ⟨r'', hr'', rfl⟩ := Option.map_eq_some_iff.1 hr'
    obtain rfl := Option.some.inj (run.symm.trans hr'')
    exact (hs.run r run).nextTable queued _
  | @exhausted c w w' r t ts run queued known query =>
    obtain ⟨-, rfl⟩ := Prod.mk.inj query
    have hqueried := hs.query run queued (env.rangeQuery (c.chunkQuery t) w.world).2
    refine ⟨fun r' hr' => ?_, hqueried.asked⟩
    obtain ⟨r'', hr'', rfl⟩ := Option.map_eq_some_iff.1 hr'
    obtain rfl := Option.some.inj (run.symm.trans hr'')
    exact (hs.run r run).nextTable queued _
  | @buffered c w w' r t ts rows run queued known found query =>
    obtain ⟨-, rfl⟩ := Prod.mk.inj query
    have hqueried := hs.query run queued (env.rangeQuery (c.chunkQuery t) w.world).2
    refine ⟨fun r' hr' => ?_, hqueried.asked⟩
    simp only [Coordinator.bufferRows] at hr'
    split at hr'
    · obtain ⟨r'', hr'', rfl⟩ := Option.map_eq_some_iff.1 hr'
      exact (hs.run r'' hr'').of_eq rfl rfl
    · exact hs.run r' hr'
  | @kept c w w' executed running positions clear =>
    obtain ⟨-, rfl⟩ := Prod.mk.inj positions
    exact hs.of_run (fun r => r.setHigh executed) rfl (fun _ hr => hr.of_eq rfl rfl) rfl
  | @reverted c w w' executed running positions ambiguous held =>
    obtain ⟨-, rfl⟩ := Prod.mk.inj positions
    exact hs.of_run (fun r => (r.setHigh executed).revertChunk) (Option.map_map ..)
      (fun _ hr => hr.of_eq rfl rfl) rfl
  | completed ended =>
    exact hs.of_run (fun r => r.closeWindow _) rfl (fun _ hr => hr.of_eq rfl rfl) rfl

theorem breaks (h : Breaks env.heard p s f s') (hs : s.Carries right old) :
    s'.Carries right old := by
  cases h with
  | unsent emit =>
    obtain ⟨-, rfl⟩ := Prod.mk.inj emit
    exact hs.of_eq rfl rfl
  | stayed asked | stopped asked => exact hs
  | uncommitted reads commit =>
    obtain ⟨-, rfl⟩ := Prod.mk.inj commit
    exact hs.of_eq rfl rfl
  | @unopened c w w₁ f w' reads commit opens =>
    obtain ⟨-, rfl⟩ := Prod.mk.inj commit
    refine hs.of_run (fun r => r.startChunk _) rfl (fun _ hr => hr.of_eq rfl rfl) ?_
    cases opens with
    | positions positions =>
      obtain ⟨-, rfl⟩ := Prod.mk.inj positions
      rfl
    | commit positions commit =>
      obtain ⟨-, rfl⟩ := Prod.mk.inj positions
      obtain ⟨-, rfl⟩ := Prod.mk.inj commit
      rfl
    | begin positions commit begins =>
      obtain ⟨-, rfl⟩ := Prod.mk.inj positions
      obtain ⟨-, rfl⟩ := Prod.mk.inj commit
      obtain ⟨-, rfl⟩ := Prod.mk.inj begins
      rfl
  | unmeasured run queued unknown maximum =>
    obtain ⟨-, rfl⟩ := Prod.mk.inj maximum
    exact hs.of_eq rfl rfl
  | unanswered run queued known query =>
    obtain ⟨-, rfl⟩ := Prod.mk.inj query
    exact hs.query run queued _
  | uncaptured running positions =>
    obtain ⟨-, rfl⟩ := Prod.mk.inj positions
    exact hs.of_eq rfl rfl

/-- What is right stays right until a stage gives something else. -/
private theorem of_right {c : Coordinator} (hc : ∀ r, c.run = some r → r.Carries right) (w : Heard σ)
    (st : Stage) : Session.Carries (st.Leaves right c) w.asked ⟨c, w⟩ :=
  ⟨fun r hr => (hc r hr).mono fun _ ht _ hright => .inr ⟨hright, Stage.not_gives hr ht⟩,
    [], (List.append_nil _).symm, fun _ hq => absurd hq List.not_mem_nil⟩

private theorem stopTables {c : Coordinator} {w : Heard σ} (hs : Session.Carries right old ⟨c, w⟩)
    (now : Int64) {tables : List Table} (hplain : ∀ t ∈ tables, t.IsPlain) :
    Session.Carries right old ⟨c.stopTables now tables, w⟩ := by
  refine ⟨fun r' hr' => ?_, hs.asked⟩
  rcases c.stopTables_cases now tables with ⟨heq, -⟩ | ⟨r, hr, -, ⟨-, heq⟩ | ⟨-, -, heq⟩ |
    ⟨-, -, heq⟩⟩ <;> rw [heq] at hr'
  · exact hs.run r' hr'
  · obtain rfl := Option.some.inj hr'
    exact ⟨⟨List.nodup_nil, fun _ h => absurd h List.not_mem_nil, fun _ h => absurd rfl h⟩,
      fun _ h => absurd h List.not_mem_nil⟩
  · exact Option.some.inj hr' ▸ (hs.run r hr).removeTables now hplain
  · exact Option.some.inj hr' ▸ (hs.run r hr).removeTables now hplain

theorem enter {st : Stage} (h : Enters env.heard st s p s') (hplain : ∀ t ∈ st.named, t.IsPlain)
    (hstart : ∀ rounds r, st = .start rounds (some r) → r.Carries right)
    (hs : ∀ r, s.coordinator.run = some r → r.Carries right) :
    s'.Carries (st.Leaves right s.coordinator) s.world.asked := by
  have hadded {c : Coordinator} {w : Heard σ} {r : Run} {rounds : Nat} {tables : List Table}
      {filters : TextMap String} (hc : ∀ r, c.run = some r → r.Carries right) (hr : c.run = some r)
      (hplain : ∀ t ∈ tables, t.IsPlain) (now : Int64) :
      Session.Carries ((Stage.add rounds tables filters).Leaves right c) w.asked
        ⟨{ c with run := some (r.addTables now tables filters) }, w⟩ := by
    refine ⟨fun r' hr' => ?_, (of_right hc w _).asked⟩
    obtain rfl := Option.some.inj hr'
    refine (hc r hr).addTables now hplain
      (fun t ht _ hright => .inr ⟨hright, Stage.not_gives hr ht⟩) fun t ht hnew => .inl ?_
    exact ⟨by simp [hr], ht, by simpa [Coordinator.queue, hr] using hnew, rfl⟩
  have hwide := of_right hs s.world st
  cases h with
  | fresh version accepted positions =>
    obtain ⟨-, rfl⟩ := Prod.mk.inj version
    obtain ⟨-, rfl⟩ := Prod.mk.inj positions
    refine ⟨fun r hr => ?_, hwide.asked⟩
    obtain rfl := Option.some.inj hr
    exact ⟨⟨List.nodup_nil, fun _ h => absurd h List.not_mem_nil, .fresh _ _⟩,
      fun _ h => absurd h List.not_mem_nil⟩
  | @restored rounds _ _ _ _ _ _ r version accepted positions =>
    obtain ⟨-, rfl⟩ := Prod.mk.inj version
    obtain ⟨-, rfl⟩ := Prod.mk.inj positions
    refine ⟨fun r' hr' => ?_, hwide.asked⟩
    obtain rfl := Option.some.inj hr'
    exact ((hstart rounds r rfl).mono fun _ _ _ hright => .inr ⟨hright, fun _ => id⟩).of_eq rfl rfl
  | enqueued | taken | unpaused stays | unreached stays => exact hwide.of_eq rfl rfl
  | passed emit =>
    obtain ⟨-, rfl⟩ := Prod.mk.inj emit
    exact hwide.of_eq rfl rfl
  | added run running | begun run ended => exact hadded hs run hplain _
  | stopped => exact hwide.stopTables _ hplain
  | paused =>
    exact hwide.of_run (fun r => { r with paused := true }) rfl (fun _ hr => hr.of_eq rfl rfl) rfl
  | @pending _ c w r run | @resumed _ c w r run =>
    refine ⟨fun r' hr' => ?_, hwide.asked⟩
    obtain rfl := Option.some.inj hr'
    exact (hwide.run r run).of_eq rfl rfl
  | @noted cmd =>
    exact hwide.of_run (fun r => { r with commandOffset := some cmd.offset }) rfl
      (fun _ hr => hr.of_eq rfl rfl) rfl
  | @placed rounds e c =>
    exact hwide.of_run _ (c.moveTo_run e) (fun _ hr => hr.of_eq rfl rfl) rfl
  | @closed _ _ c w | @reached _ _ c w =>
    refine hwide.of_run (fun r => r.closeWindow (env.heard.now w)) ?_
      (fun _ hr => hr.of_eq rfl rfl) rfl
    rw [Coordinator.flushing_coordinator]
    rfl

theorem perform {st : Stage} {u : Unit} (h : st.perform env.heard s = .ok u s')
    (hplain : ∀ t ∈ st.named, t.IsPlain)
    (hstart : ∀ rounds r, st = .start rounds (some r) → r.Carries right)
    (hs : ∀ r, s.coordinator.run = some r → r.Carries right) :
    s'.Carries (st.Leaves right s.coordinator) s.world.asked := by
  obtain ⟨p, t, henter, hmoves⟩ := perform_enters h
  exact hmoves.keeps (I := fun _ t => t.Carries _ s.world.asked) move (enter henter hplain hstart hs)

theorem fails {st : Stage} (h : Fails env.heard st s f s') (hplain : ∀ t ∈ st.named, t.IsPlain)
    (hstart : ∀ rounds r, st = .start rounds (some r) → r.Carries right)
    (hs : ∀ r, s.coordinator.run = some r → r.Carries right) :
    s'.Carries (st.Leaves right s.coordinator) s.world.asked := by
  have hwide := of_right hs s.world st
  cases h with
  | unknown version | unsupported version refused =>
    obtain ⟨-, rfl⟩ := Prod.mk.inj version
    exact hwide.of_eq rfl rfl
  | unlisted version accepted positions =>
    obtain ⟨-, rfl⟩ := Prod.mk.inj version
    obtain ⟨-, rfl⟩ := Prod.mk.inj positions
    exact hwide.of_eq rfl rfl
  | absent run => exact hwide
  | unpassed emit =>
    obtain ⟨-, rfl⟩ := Prod.mk.inj emit
    exact hwide.of_eq rfl rfl
  | placed closes asked | reached reached asked =>
    exact hwide.of_run (fun r => r.closeWindow _) rfl (fun _ hr => hr.of_eq rfl rfl) rfl
  | broken enters breaks =>
    obtain ⟨q, u, hmoves, hbreaks⟩ := breaks
    exact (hmoves.keeps (I := fun _ t => t.Carries _ s.world.asked) move
      (enter enters hplain hstart hs)).breaks hbreaks

end Session.Carries
end Backfill

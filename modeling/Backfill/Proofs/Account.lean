import Backfill.Proofs.Source

/-! What a sink was told about a table, measured against the database. `H` is the number of
transactions that were committed when the table was read last, `d` the number of changes that the
stream has delivered. A row that the sink was told of is as it was after some number of changes, not
fewer than were delivered; every other row of the table is still to be read or to be changed. -/
namespace Backfill
variable {src : Source} {t : Table} {H d low : Nat} {es : List Emission} {e : Emission} {k : Key}
  {data : Option Json} {p : Position} {ch : Change}

namespace Source

/-- Whether a row was in a state after some number of changes, and no change of it that was
delivered since is left out. -/
def Shows (src : Source) (t : Table) (H low d : Nat) (k : Key) (data : Option Json) : Prop :=
  ∃ b, low ≤ b ∧ d ≤ b ∧ b ≤ max d (src.boundary H) ∧ src.after b t k = data

def Due (src : Source) (t : Table) (H d : Nat) (k : Key) : Prop :=
  ∃ i p ch, d ≤ i ∧ i < src.boundary H ∧ src.changes[i]? = some (p, ch) ∧ ch.table = t ∧ ch.key = k

/-- Whether a row need not be read: it was not there at first, the sink was told of it, or will be
told of a change of it. -/
def Settled (src : Source) (t : Table) (H d : Nat) (es : List Emission) (k : Key) : Prop :=
  src.initial t k = none ∨ Touched t es k ∨ src.Due t H d k

/-- What the sink was told is true, and no change that was delivered was kept from it. -/
structure Told (src : Source) (t : Table) (H d : Nat) (es : List Emission) : Prop where
  passed : ∀ i p ch, i < d → src.changes[i]? = some (p, ch) → ch.table = t → Touched t es ch.key
  current : ∀ k, Touched t es k → src.Shows t H 0 d k (replay t es k)

theorem Shows.mono {H' : Nat} (h : src.Shows t H low d k data) (hH : H ≤ H') :
    src.Shows t H' low d k data := by
  obtain ⟨b, hlow, hd, hb, hdata⟩ := h
  have hle := src.boundary_mono hH
  exact ⟨b, hlow, hd, by omega, hdata⟩

theorem Shows.of_low (h : src.Shows t H low d k data) : src.Shows t H 0 d k data := by
  obtain ⟨b, -, hd, hb, hdata⟩ := h
  exact ⟨b, Nat.zero_le b, hd, hb, hdata⟩

/-- A change of another row is delivered, or one that was seen already. -/
theorem Shows.succ (h : src.Shows t H low d k data) (hch : src.changes[d]? = some (p, ch))
    (hseen : d < low ∨ ¬ (ch.table = t ∧ ch.key = k)) : src.Shows t H low (d + 1) k data := by
  obtain ⟨b, hlow, hd, hb, hdata⟩ := h
  by_cases hlt : d < b
  · exact ⟨b, hlow, hlt, by omega, hdata⟩
  · obtain rfl : b = d := by omega
    have hother : ¬ (ch.table = t ∧ ch.key = k) := hseen.resolve_left (by omega)
    refine ⟨b + 1, by omega, le_rfl, by omega, ?_⟩
    rw [after_succ hch, Contents.change_of_ne hother, hdata]

/-- Once all that was committed is delivered, only what was delivered counts. -/
theorem Shows.eq (h : src.Shows t H low d k data) (hd : src.boundary H ≤ d) :
    src.after d t k = data := by
  obtain ⟨b, -, hdb, hb, hdata⟩ := h
  obtain rfl : b = d := by omega
  exact hdata

theorem Due.mono {H' : Nat} (h : src.Due t H d k) (hH : H ≤ H') : src.Due t H' d k := by
  obtain ⟨i, p, ch, hd, hi, hch⟩ := h
  exact ⟨i, p, ch, hd, hi.trans_le (src.boundary_mono hH), hch⟩

namespace Settled

theorem mono {H' : Nat} (h : src.Settled t H d es k) (hH : H ≤ H') : src.Settled t H' d es k :=
  h.imp_right fun h => h.imp_right fun h => h.mono hH

theorem snoc (h : src.Settled t H d es k) (e : Emission) : src.Settled t H d (es ++ [e]) k :=
  h.imp_right fun h => h.imp_left fun h => touched_snoc.2 (.inl h)

theorem pass (h : src.Settled t H d es k) (hch : src.changes[d]? = some (p, ch))
    (ht : e.table = ch.table) (hr : e.record = ch.record) :
    src.Settled t H (d + 1) (es ++ [e]) k := by
  rcases h with h | h | ⟨i, p', ch', hd, hi, hch', htable, hkey⟩
  · exact .inl h
  · exact .inr (.inl (touched_snoc.2 (.inl h)))
  · by_cases heq : i = d
    · obtain rfl := heq
      obtain ⟨-, rfl⟩ := Prod.mk.inj (Option.some.inj (hch.symm.trans hch'))
      exact .inr (.inl (touched_snoc.2 (.inr ⟨ht.trans htable, (congrArg Record.key hr).trans hkey⟩)))
    · exact .inr (.inr ⟨i, p', ch', by omega, hi, hch', htable, hkey⟩)

end Settled

namespace Told

theorem mono {H' : Nat} (h : src.Told t H d es) (hH : H ≤ H') : src.Told t H' d es :=
  ⟨h.passed, fun k hk => (h.current k hk).mono hH⟩

/-- A record about another table changes nothing. -/
theorem snoc_of_ne (h : src.Told t H d es) (he : e.table ≠ t) : src.Told t H d (es ++ [e]) := by
  refine ⟨fun i p ch hi hch ht => touched_snoc.2 (.inl (h.passed i p ch hi hch ht)), fun k hk => ?_⟩
  rw [replay_snoc, if_neg he]
  refine h.current k ((touched_snoc.1 hk).resolve_right fun h => he h.1)

theorem snoc_row {row : Row} (h : src.Told t H d es) (ht : e.table = t) (he : e.record = row.record)
    (hrow : src.Shows t H 0 d row.key (some row.data)) : src.Told t H d (es ++ [e]) := by
  have hkey : e.record.key = row.key := congrArg Record.key he
  refine ⟨fun i p ch hi hch ht => touched_snoc.2 (.inl (h.passed i p ch hi hch ht)), fun k hk => ?_⟩
  by_cases hk' : e.record.key = k
  · subst hk'
    rw [replay_snoc_self ht, hkey, he]
    exact hrow
  · rw [replay_snoc_of_ne fun h => hk' h.2]
    exact h.current k ((touched_snoc.1 hk).resolve_right fun h => hk' h.2)

theorem pass (h : src.Told t H d es) (hch : src.changes[d]? = some (p, ch))
    (ht : e.table = ch.table) (hr : e.record = ch.record) : src.Told t H (d + 1) (es ++ [e]) := by
  have hkey : e.record.key = ch.key := congrArg Record.key hr
  constructor
  · intro i p' ch' hi hch' htable
    by_cases heq : i = d
    · obtain rfl := heq
      obtain ⟨-, rfl⟩ := Prod.mk.inj (Option.some.inj (hch.symm.trans hch'))
      exact touched_snoc.2 (.inr ⟨ht.trans htable, hkey⟩)
    · exact touched_snoc.2 (.inl (h.passed i p' ch' (by omega) hch' htable))
  · intro k hk
    by_cases hsame : e.table = t ∧ e.record.key = k
    · obtain ⟨htable, rfl⟩ := hsame
      refine ⟨d + 1, Nat.zero_le _, le_rfl, le_max_left _ _, ?_⟩
      rw [replay_snoc_self htable, after_succ hch, Contents.change, if_pos (ht.symm.trans htable), hr]
      exact if_pos rfl
    · rw [replay_snoc_of_ne hsame]
      refine (h.current k ((touched_snoc.1 hk).resolve_right hsame)).succ hch (.inr ?_)
      rwa [← ht, ← hkey]

/-- A row that is not settled has never been changed. -/
theorem after_eq_of_not_settled {b : Nat} (h : src.Told t H d es) (hk : ¬ src.Settled t H d es k)
    (hb : b ≤ src.boundary H) : src.after b t k = src.initial t k := by
  simp only [Settled, not_or] at hk
  refine after_eq_initial fun i p ch hi hch ⟨ht, hkey⟩ => ?_
  by_cases hd : i < d
  · exact hk.2.1 (hkey ▸ h.passed i p ch hd hch ht)
  · exact hk.2.2 ⟨i, p, ch, not_lt.1 hd, by omega, hch, ht, hkey⟩

theorem settled_of_prefix {H' d' : Nat} {es' : List Emission} (h : src.Told t H' d' es')
    (hk : src.Settled t H d es k) (hH : H ≤ H') (hes : es <+: es') : src.Settled t H' d' es' k := by
  rcases hk with hk | ⟨e, he, hk⟩ | ⟨i, p, ch, -, hi, hch, htable, hkey⟩
  · exact .inl hk
  · exact .inr (.inl ⟨e, hes.subset he, hk⟩)
  · by_cases hid : i < d'
    · exact .inr (.inl (hkey ▸ h.passed i p ch hid hch htable))
    · exact .inr (.inr ⟨i, p, ch, not_lt.1 hid, hi.trans_le (src.boundary_mono hH), hch, htable, hkey⟩)

/-- If every row is settled and all that was committed is delivered, the sink has the table. -/
theorem replay_eq (h : src.Told t H d es) (hsettled : ∀ k, src.Settled t H d es k)
    (hd : src.boundary H ≤ d) : replay t es = src.after d t := by
  funext k
  by_cases hk : Touched t es k
  · exact ((h.current k hk).eq hd).symm
  · have hinitial : src.initial t k = none := by
      rcases hsettled k with h | h | ⟨i, p, ch, hdi, hi, -⟩
      · exact h
      · exact absurd h hk
      · omega
    have hafter : src.after d t k = src.initial t k :=
      after_eq_initial fun i p ch hi hch ⟨ht, hkey⟩ => hk (hkey ▸ h.passed i p ch hi hch ht)
    rw [replay_of_not_touched hk, hafter, hinitial]

end Told
end Source
end Backfill

import Backfill.Command.Listener
import Mathlib.Data.List.TakeWhile

/-! What a listener forwards. The receiver gets the commands of all records that are fetched, in
their order, or of those up to its last taking if it goes away; a record without a command makes no
difference. The looks at the source end with the first one that fails, or during which the listener
is told to end or loses the receiver. -/
namespace Backfill

def CommandRecord.command? (connector : String) (r : CommandRecord) : Option Command :=
  match r.parse connector with
  | .ok c => c
  | .error _ => none

namespace Occurrence

def command? (connector : String) : Occurrence → Option Command
  | .record r => r.command? connector
  | .intervention _ => none

def ends : Occurrence → Bool
  | .record _ => false
  | .intervention i => i ≠ .take

end Occurrence

namespace Listening

abbrev taking : Occurrence := .intervention .take
abbrev leaving : Occurrence := .intervention .leave
abbrev stopping : Occurrence := .intervention .stop

section
variable (connector : String)

def commandsOf (os : List Occurrence) : List Command := os.filterMap (Occurrence.command? connector)

/-- What has happened up to the last time that the receiver took commands. -/
def untilTaking (os : List Occurrence) : List Occurrence :=
  (os.reverse.dropWhile fun o => o ≠ taking).reverse

/-- What has happened since the receiver took commands last. -/
def sinceTaking (os : List Occurrence) : List Occurrence :=
  (os.reverse.takeWhile fun o => o ≠ taking).reverse

/-- The commands that a receiver gets which takes all that waits in the end, unless it has left. -/
def obtained (os : List Occurrence) : List Command :=
  commandsOf connector
    (if leaving ∈ os then untilTaking (os.takeWhile fun o => o ≠ leaving) else os)

/-- Whether fewer commands wait than the queue holds whenever one more comes. -/
def HasRoom (capacity : Nat) (os : List Occurrence) : Prop :=
  ∀ pre r post, os = pre ++ .record r :: post → (r.command? connector).isSome = true →
    leaving ∉ pre → (commandsOf connector (sinceTaking pre)).length < capacity

end
end Listening

namespace Look

def occurrences (k : Look) : List Occurrence :=
  k.meanwhile.map .intervention ++ (match k.batch with | .ok os => os | .error _ => [])

def isLast (k : Look) : Bool := !k.batch.isOk || k.occurrences.any Occurrence.ends

def upToLast : List Look → List Look
  | [] => []
  | k :: ks => k :: if k.isLast then [] else upToLast ks

def taken (sought : Except Failure Unit) (meanwhile : List Intervention) (ks : List Look) :
    List Look :=
  if sought.isOk && meanwhile.all (· = .take) then upToLast ks else []

def outcome (sought : Except Failure Unit) (meanwhile : List Intervention) (ks : List Look) :
    Option (Except Failure Unit) :=
  match sought with
  | .error f => some (.error f)
  | .ok () =>
    if meanwhile.all (· = .take) then (ks.find? isLast).map fun k => k.batch.map fun _ => ()
    else some (.ok ())

end Look

namespace Listening
variable {connector : String} {capacity : Nat} {os more : List Occurrence} {o : Occurrence}

@[simp] theorem commandsOf_nil : commandsOf connector [] = [] := rfl

@[simp] theorem commandsOf_append :
    commandsOf connector (os ++ more) = commandsOf connector os ++ commandsOf connector more :=
  List.filterMap_append

@[simp] theorem commandsOf_intervention (i : Intervention) :
    commandsOf connector [.intervention i] = [] := rfl

theorem untilTaking_append_sinceTaking (os : List Occurrence) :
    untilTaking os ++ sinceTaking os = os := by
  rw [untilTaking, sinceTaking, ← List.reverse_append, List.takeWhile_append_dropWhile,
    List.reverse_reverse]

theorem untilTaking_taking : untilTaking (os ++ [taking]) = os ++ [taking] := by
  simp [untilTaking]

theorem sinceTaking_taking : sinceTaking (os ++ [taking]) = [] := by
  simp [sinceTaking]

theorem untilTaking_concat (h : o ≠ taking) : untilTaking (os ++ [o]) = untilTaking os := by
  simp [untilTaking, h]

theorem sinceTaking_concat (h : o ≠ taking) : sinceTaking (os ++ [o]) = sinceTaking os ++ [o] := by
  simp [sinceTaking, h]

/-- Nothing is obtained after the receiver has left. -/
theorem obtained_append (h : leaving ∈ os) :
    obtained connector (os ++ more) = obtained connector os := by
  have htake : (os ++ more).takeWhile (fun o => o ≠ leaving) =
      os.takeWhile fun o => o ≠ leaving := by
    rw [List.takeWhile_append, if_neg]
    intro hlength
    have hall := (List.takeWhile_prefix fun o => decide (o ≠ leaving)).eq_of_length hlength
    simpa using List.takeWhile_eq_self_iff.1 hall leaving h
  rw [obtained, obtained, if_pos h, if_pos (List.mem_append_left _ h), htake]

theorem obtained_of_stays (h : leaving ∉ os) : obtained connector os = commandsOf connector os := by
  rw [obtained, if_neg h]

theorem obtained_leaving (h : leaving ∉ os) :
    obtained connector (os ++ [leaving]) = commandsOf connector (untilTaking os) := by
  have htake : (os ++ [leaving]).takeWhile (fun o => o ≠ leaving) = os := by
    rw [List.takeWhile_append_of_pos]
    · simp
    · intro o ho
      simp only [ne_eq, decide_not, Bool.not_eq_true', decide_eq_false_iff_not]
      rintro rfl
      exact h ho
  rw [obtained, if_pos (by simp), htake]

theorem HasRoom.of_append (h : HasRoom connector capacity (os ++ more)) :
    HasRoom connector capacity os :=
  fun pre r post hos => h pre r (post ++ more) (by simp [hos])

variable {l : Listening}

/-- A listener whose receiver is there, after it has come across some occurrences. -/
structure Attending (connector : String) (capacity : Nat) (os : List Occurrence) (l : Listening) :
    Prop where
  stays : leaving ∉ os
  capacity : l.queue.capacity = capacity
  opened : l.queue.closed = false
  attended : l.attended = true
  running : l.running = true ↔ stopping ∉ os
  received : l.received = commandsOf connector (untilTaking os)
  pending : l.queue.pending = commandsOf connector (sinceTaking os)

structure Deserted (connector : String) (os : List Occurrence) (l : Listening) : Prop where
  left : leaving ∈ os
  closed : l.queue.closed = true
  attended : l.attended = false
  received : l.received = obtained connector os

namespace Attending

theorem take_received (h : Attending connector capacity os l) :
    l.take.received = obtained connector os := by
  rw [obtained_of_stays h.stays, take, if_pos h.attended]
  simp only [h.received, h.pending]
  rw [← commandsOf_append, untilTaking_append_sinceTaking]

theorem take (h : Attending connector capacity os l) :
    Attending connector capacity (os ++ [taking]) l.take := by
  have hreceived := h.take_received
  rw [Listening.take, if_pos h.attended] at hreceived ⊢
  refine ⟨?_, h.capacity, h.opened, h.attended, ?_, ?_, ?_⟩
  · simp [h.stays]
  · simpa using h.running
  · rw [hreceived, obtained_of_stays h.stays, untilTaking_taking, commandsOf_append]
    simp
  · rw [sinceTaking_taking]
    rfl

theorem stop (h : Attending connector capacity os l) :
    Attending connector capacity (os ++ [stopping]) { l with running := false } := by
  refine ⟨?_, h.capacity, h.opened, h.attended, ?_, ?_, ?_⟩
  · simp [h.stays]
  · simp
  · rw [untilTaking_concat (by decide)]
    exact h.received
  · rw [sinceTaking_concat (by decide), commandsOf_append, commandsOf_intervention, List.append_nil]
    exact h.pending

theorem leave (h : Attending connector capacity os l) :
    Deserted connector (os ++ [leaving]) l.dropReceiver := by
  rw [dropReceiver, if_pos h.attended]
  refine ⟨by simp, rfl, rfl, ?_⟩
  rw [obtained_leaving h.stays]
  exact h.received

theorem skip {r : CommandRecord} (h : Attending connector capacity os l)
    (hr : r.command? connector = none) : Attending connector capacity (os ++ [.record r]) l := by
  refine ⟨?_, h.capacity, h.opened, h.attended, ?_, ?_, ?_⟩
  · simp [h.stays]
  · simpa using h.running
  · rw [untilTaking_concat (by simp)]
    exact h.received
  · rw [sinceTaking_concat (by simp), h.pending]
    simp [commandsOf, Occurrence.command?, hr]

/-- The command of a record waits after those that came before. -/
theorem push {r : CommandRecord} {c : Command} (h : Attending connector capacity os l)
    (hr : r.command? connector = some c) :
    Attending connector capacity (os ++ [.record r]) (l.withQueue (l.queue.push c)) := by
  refine ⟨?_, h.capacity, h.opened, h.attended, ?_, ?_, ?_⟩
  · simp [h.stays]
  · simpa [withQueue] using h.running
  · rw [untilTaking_concat (by simp)]
    exact h.received
  · rw [sinceTaking_concat (by simp), commandsOf_append, ← h.pending]
    simp [withQueue, CommandQueue.push, commandsOf, Occurrence.command?, hr]

end Attending

namespace Deserted

theorem take_received (h : Deserted connector os l) : l.take.received = obtained connector os := by
  rw [take, if_neg (by simp [h.attended])]
  exact h.received

/-- Whatever happens after the receiver has left, it gets no more of it. -/
theorem append (h : Deserted connector os l) : Deserted connector (os ++ more) l :=
  ⟨List.mem_append_left _ h.left, h.closed, h.attended, by rw [obtained_append h.left, h.received]⟩

theorem intervene (h : Deserted connector os l) (i : Intervention) :
    Deserted connector os (l.intervene i) := by
  cases i with
  | take =>
    have htake : l.intervene .take = l := by simp [Listening.intervene, take, h.attended]
    rw [htake]
    exact h
  | leave =>
    have hleave : l.intervene .leave = l := by simp [Listening.intervene, dropReceiver, h.attended]
    rw [hleave]
    exact h
  | stop => exact ⟨h.left, h.closed, h.attended, h.received⟩

/-- Without a receiver nothing is put into the queue, and the first command is the end. -/
theorem forward (h : Deserted connector os l) (more : List Occurrence) :
    ((l.forward connector more).1 = none ∨
      (l.forward connector more).1 = some (.finished (.ok ()))) ∧
    Deserted connector os (l.forward connector more).2 := by
  induction more generalizing l with
  | nil => exact ⟨.inl rfl, h⟩
  | cons o more ih =>
    cases o with
    | intervention i => exact ih (h.intervene i)
    | record r =>
      rw [Listening.forward]
      split
      · rw [CommandQueue.send, if_pos h.closed]
        exact ⟨.inr rfl, h⟩
      · exact ih h

end Deserted

/-- What a listener has come across, whether its receiver is there or not. -/
inductive Heard (connector : String) (capacity : Nat) (os : List Occurrence) (l : Listening) : Prop
  | attending (h : Attending connector capacity os l)
  | deserted (h : Deserted connector os l)

theorem Attending.intervene (h : Attending connector capacity os l) (i : Intervention) :
    Heard connector capacity (os ++ [.intervention i]) (l.intervene i) :=
  match i with
  | .take => .attending h.take
  | .leave => .deserted h.leave
  | .stop => .attending h.stop

theorem Heard.take_received (h : Heard connector capacity os l) :
    l.take.received = obtained connector os := by
  cases h with
  | attending h => exact h.take_received
  | deserted h => exact h.take_received

theorem Attending.send (h : Attending connector capacity os l) {r : CommandRecord} {c : Command}
    (hr : r.command? connector = some c)
    (hroom : HasRoom connector capacity (os ++ [.record r])) :
    l.queue.send c = some (.ok (l.queue.push c)) := by
  have hlength := hroom os r [] rfl (hr ▸ rfl) h.stays
  rw [← h.pending, ← h.capacity] at hlength
  simp [CommandQueue.send, h.opened, CommandQueue.isFull, hlength]

/-- If there is room, a listener comes across all the occurrences, or ends since the receiver has
left. -/
theorem Attending.forward (h : Attending connector capacity os l)
    (hroom : HasRoom connector capacity (os ++ more)) :
    ((l.forward connector more).1 = none ∨
      leaving ∈ os ++ more ∧ (l.forward connector more).1 = some (.finished (.ok ()))) ∧
    Heard connector capacity (os ++ more) (l.forward connector more).2 := by
  induction more generalizing os l with
  | nil =>
    rw [List.append_nil]
    exact ⟨.inl rfl, .attending h⟩
  | cons o more ih =>
    rw [List.append_cons] at hroom ⊢
    cases o with
    | intervention i =>
      rw [Listening.forward]
      cases h.intervene i with
      | attending h => exact ih h hroom
      | deserted h =>
        obtain ⟨hend, hdeserted⟩ := h.forward more
        refine ⟨?_, .deserted hdeserted.append⟩
        rcases hend with hend | hend
        · exact .inl hend
        · exact .inr ⟨List.mem_append_left _ h.left, hend⟩
    | record r =>
      rw [Listening.forward]
      cases hparse : r.parse connector with
      | error f =>
        have hr : r.command? connector = none := by simp [CommandRecord.command?, hparse]
        exact ih (h.skip hr) hroom
      | ok c? =>
        have hr : r.command? connector = c? := by simp [CommandRecord.command?, hparse]
        cases c? with
        | none => exact ih (h.skip hr) hroom
        | some c =>
          have hsend := h.send hr hroom.of_append
          simp only [hsend]
          exact ih (h.push hr) hroom

theorem Heard.isOver_iff (h : Heard connector capacity os l) :
    l.isOver = true ↔ leaving ∈ os ∨ stopping ∈ os := by
  cases h with
  | deserted h => exact iff_of_true (by simp [isOver, h.closed]) (.inl h.left)
  | attending h =>
    rw [isOver, h.opened, Bool.or_false, Bool.not_eq_true', ← Bool.not_eq_true, h.running, not_not]
    exact (or_iff_right h.stays).symm

theorem any_ends_iff : os.any Occurrence.ends = true ↔ leaving ∈ os ∨ stopping ∈ os := by
  induction os with
  | nil => simp
  | cons o os ih =>
    rw [List.any_cons, Bool.or_eq_true, ih]
    cases o with
    | record r => simp [Occurrence.ends]
    | intervention i => cases i <;> simp [Occurrence.ends]

theorem intervene_counts (l : Listening) (i : Intervention) :
    (l.intervene i).polls = l.polls ∧ (l.intervene i).seeks = l.seeks := by
  cases i with
  | take => rw [intervene, take]; split <;> exact ⟨rfl, rfl⟩
  | leave => rw [intervene, dropReceiver]; split <;> exact ⟨rfl, rfl⟩
  | stop => exact ⟨rfl, rfl⟩

theorem forward_counts (connector : String) (l : Listening) (os : List Occurrence) :
    (l.forward connector os).2.polls = l.polls ∧ (l.forward connector os).2.seeks = l.seeks := by
  induction os generalizing l with
  | nil => exact ⟨rfl, rfl⟩
  | cons o os ih =>
    cases o with
    | intervention i =>
      rw [forward, ← (l.intervene_counts i).1, ← (l.intervene_counts i).2]
      exact ih _
    | record r =>
      rw [forward]
      split
      · split
        · exact ih _
        · exact ⟨rfl, rfl⟩
        · exact ⟨rfl, rfl⟩
      · exact ih _

theorem forward_interventions (connector : String) (l : Listening) (is : List Intervention)
    (os : List Occurrence) : l.forward connector (is.map .intervention ++ os) =
      (is.foldl intervene l).forward connector os := by
  induction is generalizing l with
  | nil => rfl
  | cons i is ih => exact ih (l.intervene i)

theorem listen_cons (h : l.isOver = false) (k : Look) (ks : List Look) :
    l.listen connector (k :: ks) =
      let run := l.poll.forward connector k.occurrences
      match k.batch with
      | .error f => (some (.finished (.error f)), run.2)
      | .ok _ =>
        match run.1 with
        | some e => (some e, run.2)
        | none => run.2.listen connector ks := by
  rw [listen, if_neg (h ▸ Bool.false_ne_true), Look.occurrences, forward_interventions]
  cases k.batch with
  | error f => rfl
  | ok os =>
    dsimp only
    rcases forward connector (k.meanwhile.foldl intervene l.poll) os with ⟨_ | e, l⟩ <;> rfl

theorem listen_of_isOver (h : l.isOver = true) (ks : List Look) :
    l.listen connector ks = (some (.finished (.ok ())), l) := by
  cases ks <;> simp [listen, h]

/-- A look after which there was no reason to end is followed by the next one, and all others are
the last. -/
theorem Attending.look (h : Attending connector capacity os l) (k : Look) (hstop : stopping ∉ os)
    (hroom : HasRoom connector capacity (os ++ k.occurrences)) :
    ∃ l', Heard connector capacity (os ++ k.occurrences) l' ∧ l'.polls = l.polls + 1 ∧
      l'.seeks = l.seeks ∧ ∀ ks, l.listen connector (k :: ks) =
        if k.isLast then (some (.finished (k.batch.map fun _ => ())), l')
        else l'.listen connector ks := by
  have hpoll : Attending connector capacity os l.poll :=
    ⟨h.stays, h.capacity, h.opened, h.attended, h.running, h.received, h.pending⟩
  have hover : l.isOver = false := by
    rw [← Bool.not_eq_true, (Heard.attending h).isOver_iff, not_or]
    exact ⟨h.stays, hstop⟩
  obtain ⟨hend, hheard⟩ := hpoll.forward hroom
  obtain ⟨hpolls, hseeks⟩ := forward_counts connector l.poll k.occurrences
  refine ⟨_, hheard, hpolls, hseeks, fun ks => ?_⟩
  rw [listen_cons hover]
  have hlast : k.isLast = true ↔ k.batch.isOk = false ∨
      (l.poll.forward connector k.occurrences).2.isOver = true := by
    rw [Look.isLast, Bool.or_eq_true, any_ends_iff, hheard.isOver_iff]
    simp [h.stays, hstop]
  cases hbatch : k.batch with
  | error f =>
    rw [if_pos (hlast.2 (.inl (by rw [hbatch]; rfl)))]
    rfl
  | ok arrived =>
    have hover : k.isLast = true ↔ (l.poll.forward connector k.occurrences).2.isOver = true := by
      rw [hlast, hbatch]
      simp [Except.isOk, Except.toBool]
    rcases hend with hend | ⟨hleft, hend⟩
    · simp only [hend]
      by_cases hk : k.isLast = true
      · rw [if_pos hk, listen_of_isOver (hover.1 hk)]
        rfl
      · rw [if_neg hk]
    · simp only [hend]
      rw [if_pos (hover.2 (hheard.isOver_iff.2 (.inl hleft)))]
      rfl

theorem HasRoom.of_length (h : (commandsOf connector os).length ≤ capacity) :
    HasRoom connector capacity os := by
  rintro pre r post rfl hr -
  have hone : (commandsOf connector [.record r]).length = 1 := by
    obtain ⟨c, hc⟩ := Option.isSome_iff_exists.1 hr
    simp [commandsOf, Occurrence.command?, hc]
  have hpre := congrArg (fun os => (commandsOf connector os).length)
    (untilTaking_append_sinceTaking pre)
  rw [List.append_cons] at h
  simp only [commandsOf_append, List.length_append, hone] at h hpre
  omega

/-- How a listener goes on while nobody has given it a reason to end. -/
theorem Attending.listen {ks : List Look} (h : Attending connector capacity os l)
    (hstop : stopping ∉ os)
    (hroom : HasRoom connector capacity (os ++ (Look.upToLast ks).flatMap Look.occurrences)) :
    let run := l.listen connector ks
    run.1 = (ks.find? Look.isLast).map (fun k => .finished (k.batch.map fun _ => ())) ∧
      run.2.take.received =
        obtained connector (os ++ (Look.upToLast ks).flatMap Look.occurrences) ∧
      run.2.polls = l.polls + (Look.upToLast ks).length ∧ run.2.seeks = l.seeks := by
  induction ks generalizing os l with
  | nil =>
    have hover : l.isOver = false := by
      rw [← Bool.not_eq_true, (Heard.attending h).isOver_iff, not_or]
      exact ⟨h.stays, hstop⟩
    rw [Listening.listen, hover, Look.upToLast, List.flatMap_nil, List.append_nil]
    exact ⟨rfl, h.take_received, rfl, rfl⟩
  | cons k ks ih =>
    rw [Look.upToLast, List.flatMap_cons, ← List.append_assoc] at hroom
    obtain ⟨l', hheard, hpolls, hseeks, hlisten⟩ := h.look k hstop hroom.of_append
    rw [hlisten, Look.upToLast, List.flatMap_cons, ← List.append_assoc, List.find?_cons]
    cases hk : k.isLast with
    | true =>
      rw [if_pos rfl, if_pos rfl, List.flatMap_nil, List.append_nil]
      exact ⟨rfl, hheard.take_received, hpolls, hseeks⟩
    | false =>
      rw [hk, if_neg Bool.false_ne_true] at hroom
      have hon : ¬ (leaving ∈ k.occurrences ∨ stopping ∈ k.occurrences) := by
        rw [← any_ends_iff]
        simp only [Look.isLast, Bool.or_eq_false_iff] at hk
        exact hk.2 ▸ Bool.false_ne_true
      rw [not_or] at hon
      have hnext : Attending connector capacity (os ++ k.occurrences) l' := by
        cases hheard with
        | attending h => exact h
        | deserted hleft => exact absurd hleft.left (by simp [h.stays, hon.1])
      obtain ⟨hend, hreceived, hmore, hsought⟩ := ih hnext (by simp [hstop, hon.2]) hroom
      rw [if_neg Bool.false_ne_true, if_neg Bool.false_ne_true]
      refine ⟨hend, hreceived, ?_, hsought.trans hseeks⟩
      rw [hmore, hpolls, List.length_cons]
      omega

theorem obtained_interventions (is : List Intervention) :
    obtained connector (is.map .intervention) = [] := by
  refine List.filterMap_eq_nil_iff.2 fun o ho => ?_
  have hmem : o ∈ is.map Occurrence.intervention := by
    split at ho
    · rw [untilTaking, List.mem_reverse] at ho
      have htaken := List.mem_reverse.1 ((List.dropWhile_suffix _).subset ho)
      exact (List.takeWhile_prefix _).subset htaken
    · exact ho
  obtain ⟨i, -, rfl⟩ := List.mem_map.1 hmem
  rfl

/-- Taking makes no difference as long as nothing has come. -/
theorem Attending.takeNothing {is : List Intervention} (h : Attending connector capacity [] l)
    (hall : ∀ i ∈ is, i = .take) :
    Attending connector capacity [] (is.foldl Listening.intervene l) := by
  induction is generalizing l with
  | nil => exact h
  | cons i is ih =>
    obtain rfl := hall i List.mem_cons_self
    refine ih ?_ fun i hi => hall i (List.mem_cons_of_mem _ hi)
    have hreceived := h.take_received
    rw [Listening.intervene]
    rw [Listening.take, if_pos h.attended] at hreceived ⊢
    exact ⟨h.stays, h.capacity, h.opened, h.attended, h.running, hreceived, rfl⟩

theorem Attending.begin (h : Attending connector capacity [] l) (is : List Intervention) :
    Heard connector capacity (is.map .intervention) (is.foldl Listening.intervene l) ∧
      (is.foldl Listening.intervene l).polls = l.polls ∧
      (is.foldl Listening.intervene l).seeks = l.seeks := by
  have hforward : is.foldl Listening.intervene l =
      (l.forward connector (is.map .intervention)).2 := by
    have hall := forward_interventions connector l is []
    rw [List.append_nil] at hall
    rw [hall]
    rfl
  have hroom : HasRoom connector capacity ([] ++ is.map .intervention) := by
    intro pre r post hos
    have hr : Occurrence.record r ∈ is.map Occurrence.intervention := by
      rw [← List.nil_append (is.map _), hos]
      simp
    obtain ⟨i, -, hi⟩ := List.mem_map.1 hr
    cases hi
  rw [hforward]
  exact ⟨(h.forward hroom).2, forward_counts connector l _⟩

/-- There is a reason to end before the first look if others do more than taking. -/
theorem Heard.isOver_of_interventions {is : List Intervention}
    (h : Heard connector capacity (is.map .intervention) l) (hall : is.all (· = .take) = false) :
    l.isOver = true := by
  obtain ⟨i, hi, hne⟩ := List.all_eq_false.1 hall
  refine h.isOver_iff.2 ?_
  cases i with
  | take => exact absurd rfl hne
  | leave => exact .inl (List.mem_map_of_mem hi)
  | stop => exact .inr (List.mem_map_of_mem hi)

/-- How a listener goes on after it has asked for records. -/
theorem Attending.listenIf {ks : List Look} (h : Attending connector capacity [] l)
    (sought : Except Failure Unit) (is : List Intervention)
    (hroom : HasRoom connector capacity ((Look.upToLast ks).flatMap Look.occurrences)) :
    let run := (is.foldl Listening.intervene l).listenIf sought connector ks
    run.1 = (Look.outcome sought is ks).map ListenerEnd.finished ∧
      run.2.take.received = obtained connector ((Look.taken sought is ks).flatMap Look.occurrences) ∧
      run.2.polls = l.polls + (Look.taken sought is ks).length ∧ run.2.seeks = l.seeks := by
  obtain ⟨hheard, hpolls, hseeks⟩ := h.begin is
  have hnothing := hheard.take_received.trans (obtained_interventions is)
  cases sought with
  | error f => exact ⟨rfl, hnothing, hpolls, hseeks⟩
  | ok u =>
    rw [Look.outcome, Look.taken, Listening.listenIf]
    cases hall : is.all (· = .take) with
    | true =>
      have hon : Attending connector capacity [] (is.foldl Listening.intervene l) :=
        h.takeNothing fun i hi => by simpa using List.all_eq_true.1 hall i hi
      obtain ⟨hend, hreceived, hcount, hsame⟩ := hon.listen List.not_mem_nil hroom
      refine ⟨?_, hreceived, ?_, hsame.trans hseeks⟩
      · rw [hend, if_pos rfl, Option.map_map]
        rfl
      · rw [hcount, hpolls]
        rfl
    | false =>
      rw [listen_of_isOver (hheard.isOver_of_interventions hall)]
      exact ⟨rfl, hnothing, hpolls, hseeks⟩

end Listening

open Listening

/-- Listening starts after the command applied last, or with the first one. -/
theorem toNat_listenerStart {lastApplied : Option UInt64}
    (h : ∀ o, lastApplied = some o → o.toNat + 1 < UInt64.size) :
    (listenerStart lastApplied).toNat = (lastApplied.map fun o => o.toNat + 1).getD 0 := by
  cases lastApplied with
  | none => rfl
  | some o =>
    rw [listenerStart, Option.map_some, Option.getD_some, Option.map_some, Option.getD_some,
      UInt64.toNat_add]
    exact Nat.mod_eq_of_lt (h o rfl)

/-- A listener asks the source once, for the records after the command applied last, or for all. It
then looks at the source until the first look that fails, or during which it is told to end or the
receiver leaves; it does not look at all if this happens before. The receiver obtains exactly the
commands of the records that are fetched by these looks, each once and in their order, up to the
moment it leaves. The listener fails only as the source does, and never waits for room. -/
theorem runListener_forwards (connector : String) (capacity : Nat) (lastApplied : Option UInt64)
    (seek : UInt64 → Except Failure Unit) (meanwhile : List Intervention) (ks : List Look)
    (hlast : ∀ o, lastApplied = some o → o.toNat + 1 < UInt64.size)
    (hroom : HasRoom connector (max capacity 1) ((Look.upToLast ks).flatMap Look.occurrences)) :
    let run := runListener connector capacity lastApplied seek meanwhile ks
    let sought := seek (listenerStart lastApplied)
    let looks := Look.taken sought meanwhile ks
    run.2.seeks.map UInt64.toNat = [(lastApplied.map fun o => o.toNat + 1).getD 0] ∧
      run.2.polls = looks.length ∧
      run.2.take.received = obtained connector (looks.flatMap Look.occurrences) ∧
      run.1 = (Look.outcome sought meanwhile ks).map ListenerEnd.finished := by
  intro run sought looks
  have hasked : Attending connector (max capacity 1) []
      (Listening.seek { queue := .ofCapacity capacity } (listenerStart lastApplied)) :=
    ⟨List.not_mem_nil, rfl, rfl, rfl, iff_of_true rfl List.not_mem_nil, rfl, rfl⟩
  obtain ⟨hend, hreceived, hpolls, hseeks⟩ := hasked.listenIf sought meanwhile hroom
  have hstart : run.2.seeks.map UInt64.toNat = [(listenerStart lastApplied).toNat] :=
    congrArg (List.map UInt64.toNat) hseeks
  refine ⟨?_, ?_, hreceived, hend⟩
  · rw [hstart, toNat_listenerStart hlast]
  · exact hpolls.trans (Nat.zero_add _)

/-- Two looks at records of all kinds. The receiver takes commands twice and leaves among the
records of the second look. -/
def mixedLooks : List Look :=
  let pause := "\x7b\"type\":\"pause-snapshot\"\x7d"
  let resume := "\x7b\"type\":\"resume-snapshot\"\x7d"
  [{ batch := .ok [.record ⟨1, some "c", pause⟩, .record ⟨2, some "other", pause⟩,
      .record ⟨3, none, pause⟩, .record ⟨4, some "c", "garbage"⟩,
      .record ⟨5, some "c", "\x7b\"type\":\"unknown\"\x7d"⟩, .record ⟨6, some "c", resume⟩] },
    { meanwhile := [.take], batch := .ok [.record ⟨7, some "c", pause⟩, .intervention .take,
      .record ⟨8, some "c", resume⟩, .intervention .leave, .record ⟨9, some "c", pause⟩] },
    { batch := .error .interrupted }]

theorem mixedLooks_forwarded :
    (∀ o : UInt64, some 0 = some o → o.toNat + 1 < UInt64.size) ∧
    HasRoom "c" (max 8 1) ((Look.upToLast mixedLooks).flatMap Look.occurrences) ∧
    let run := runListener "c" 8 (some 0) (fun _ => .ok ()) [] mixedLooks
    run.2.seeks.map UInt64.toNat = [1] ∧ run.2.polls = 2 ∧
      run.2.take.received = [.pause 1, .resume 6, .pause 7] := by
  have hlast : ∀ o : UInt64, some 0 = some o → o.toNat + 1 < UInt64.size := by
    rintro o ⟨⟩
    decide
  have hroom : HasRoom "c" (max 8 1) ((Look.upToLast mixedLooks).flatMap Look.occurrences) := by
    refine HasRoom.of_length ?_
    decide +kernel
  obtain ⟨hseeks, hpolls, hreceived, -⟩ :=
    runListener_forwards "c" 8 (some 0) (fun _ => .ok ()) [] mixedLooks hlast hroom
  exact ⟨hlast, hroom, hseeks, hpolls, hreceived.trans (by decide +kernel)⟩

end Backfill

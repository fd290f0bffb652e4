import Backfill.Proofs.Listing
import Backfill.Proofs.Waiting

/-! Which servers a coordinator is started on. The texts of versions are given a grammar without the
reader. Starting is followed up to the call that is refused: until the server is known to be supported
and to report its positions, a coordinator stays as it is and asks for nothing else. -/
namespace Backfill
open Procedure

namespace ServerVersion
open Text
variable {s : String} {parts : List (List Char)} {v m : ServerVersion}

/-- The parts of a version text. Of what stands between the blanks at its ends, the longest start of
ASCII digits and dots counts. It is cut at its dots, and pieces without digits are left out. -/
def HasParts (s : String) (parts : List (List Char)) : Prop :=
  ∃ core start all, IsTrimmed s.toList core ∧
    IsLongestStart (fun c => c.isDigit || c = '.') core start ∧ AreCut '.' start all ∧
    parts = all.filter fun part => !part.isEmpty

theorem hasParts_iff : HasParts s parts ↔ numerals s = parts := by
  constructor
  · rintro ⟨core, start, all, hcore, hstart, hall, rfl⟩
    obtain rfl := isTrimmed_iff.1 hcore
    obtain rfl := isLongestStart_iff.1 hstart
    obtain rfl := areCut_iff.1 hall
    rfl
  · rintro rfl
    exact ⟨_, _, _, isTrimmed_iff.2 rfl, isLongestStart_iff.2 rfl, areCut_iff.2 rfl, rfl⟩

/-- The version that parts name: by the first three, or by two of which the patch number is zero. -/
inductive Names : List (List Char) → ServerVersion → Prop
  | short {a b : List Char} {v : ServerVersion} (major : IsNumeral a v.major.toNat)
      (minor : IsNumeral b v.minor.toNat) (patch : v.patch = 0) : Names [a, b] v
  | long {a b c : List Char} {more : List (List Char)} {v : ServerVersion}
      (major : IsNumeral a v.major.toNat) (minor : IsNumeral b v.minor.toNat)
      (patch : IsNumeral c v.patch.toNat) : Names (a :: b :: c :: more) v

theorem number?_eq_some_iff {cs : List Char} {n : UInt32} :
    number? cs = some n ↔ IsNumeral cs n.toNat := by
  have hiff : readNumeral UInt32.size cs = .ok n.toNat ↔ IsNumeral cs n.toNat ∧ n.toNat < UInt32.size :=
    readNumeral_eq_ok_iff (by decide)
  rw [and_iff_left n.toNat_lt] at hiff
  rw [← hiff, number?]
  cases hread : readNumeral UInt32.size cs with
  | error e => simp [Except.toOption]
  | ok k =>
    have hk : k < UInt32.size := ((readNumeral_eq_ok_iff (by decide)).1 hread).2
    simp [Except.toOption, ← UInt32.toNat_inj, Nat.mod_eq_of_lt hk]

theorem ofNumerals?_eq_some_iff : ofNumerals? parts = some v ↔ Names parts v := by
  obtain ⟨major, minor, patch⟩ := v
  constructor
  · intro h
    match parts, h with
    | [a, b], h =>
      simp only [ofNumerals?, Option.bind_eq_bind, Option.bind_eq_some_iff, Option.pure_def,
        Option.some.injEq, mk.injEq] at h
      obtain ⟨_, ha, _, hb, rfl, rfl, rfl⟩ := h
      exact .short (number?_eq_some_iff.1 ha) (number?_eq_some_iff.1 hb) rfl
    | a :: b :: c :: more, h =>
      simp only [ofNumerals?, Option.bind_eq_bind, Option.bind_eq_some_iff, Option.pure_def,
        Option.some.injEq, mk.injEq] at h
      obtain ⟨_, ha, _, hb, _, hc, rfl, rfl, rfl⟩ := h
      exact .long (number?_eq_some_iff.1 ha) (number?_eq_some_iff.1 hb) (number?_eq_some_iff.1 hc)
  · intro h
    cases h with
    | short hmajor hminor hpatch =>
      obtain rfl : patch = 0 := hpatch
      simp [ofNumerals?, number?_eq_some_iff.2 hmajor, number?_eq_some_iff.2 hminor]
    | long hmajor hminor hpatch =>
      simp [ofNumerals?, number?_eq_some_iff.2 hmajor, number?_eq_some_iff.2 hminor,
        number?_eq_some_iff.2 hpatch]

def IsDenoted (s : String) (v : ServerVersion) : Prop := ∃ parts, HasParts s parts ∧ Names parts v

theorem parse_eq_ok_iff : parse s = .ok v ↔ IsDenoted s v := by
  have hdenoted : IsDenoted s v ↔ ofNumerals? (numerals s) = some v := by
    simp only [IsDenoted, hasParts_iff, exists_eq_left', ofNumerals?_eq_some_iff]
  rw [hdenoted, parse]
  cases ofNumerals? (numerals s) <;> simp

theorem parse_eq_error (h : ∀ v, ¬ IsDenoted s v) :
    parse s = .error (.config ("invalid server version '" ++ s ++ "'")) := by
  cases hnumerals : ofNumerals? (numerals s) with
  | none => rw [parse, hnumerals]
  | some v =>
    have hparse : parse s = .ok v := by rw [parse, hnumerals]
    exact absurd (parse_eq_ok_iff.1 hparse) (h v)

def IsSince (v m : ServerVersion) : Prop :=
  m.major < v.major ∨ m.major = v.major ∧
    (m.minor < v.minor ∨ m.minor = v.minor ∧ m.patch ≤ v.patch)

instance (v m : ServerVersion) : Decidable (v.IsSince m) :=
  inferInstanceAs (Decidable (_ ∨ _ ∧ (_ ∨ _ ∧ _)))

theorem not_lt_iff : ¬ v < m ↔ v.IsSince m := by
  have hlt : v < m ↔ v.major < m.major ∨ v.major = m.major ∧
      (v.minor < m.minor ∨ v.minor = m.minor ∧ v.patch < m.patch) := by
    change compare v m = .lt ↔ _
    simp [compare, Ordering.then_eq_lt, compareOfLessAndEq_eq_lt, compareOfLessAndEq_eq_eq]
  rw [hlt, IsSince]
  simp only [UInt32.lt_iff_toNat_lt, UInt32.le_iff_toNat_le, ← UInt32.toNat_inj]
  omega

theorem checkServerVersion_of_isSince {settings : Settings} (h : IsDenoted s v)
    (hsince : v.IsSince settings.minServerVersion) : settings.checkServerVersion s = .ok () := by
  rw [Settings.checkServerVersion, parse_eq_ok_iff.2 h]
  exact if_neg (not_lt_iff.2 hsince)

theorem checkServerVersion_of_not_isSince {settings : Settings} (h : IsDenoted s v)
    (hsince : ¬ v.IsSince settings.minServerVersion) : settings.checkServerVersion s =
      .error (.unsupportedVersion settings.minServerVersion.text s) := by
  rw [Settings.checkServerVersion, parse_eq_ok_iff.2 h]
  exact if_pos (not_not.1 (mt not_lt_iff.1 hsince))

theorem checkServerVersion_of_not_isDenoted {settings : Settings} (h : ∀ v, ¬ IsDenoted s v) :
    settings.checkServerVersion s =
      .error (.config ("invalid server version '" ++ s ++ "'")) := by
  rw [Settings.checkServerVersion, parse_eq_error h]
  rfl

/-- The numerals of a version stand before whatever follows it, if that begins with no digit. -/
private theorem exists_pieces_chars (v : ServerVersion) {rest : List Char}
    (h : ∀ c ∈ rest.head?, c = '.') : ∃ more, pieces '.' (v.chars ++ rest) =
      numeral v.major.toNat :: numeral v.minor.toNat :: numeral v.patch.toNat :: more := by
  have hdot (n : Nat) : '.' ∉ numeral n := fun hmem =>
    absurd (isDigit_of_mem_numeral hmem) (by decide)
  have hchars : v.chars ++ rest = numeral v.major.toNat ++
      '.' :: (numeral v.minor.toNat ++ '.' :: (numeral v.patch.toNat ++ rest)) := by
    simp [chars]
  rw [hchars, pieces_append (hdot _), pieces_append (hdot _)]
  cases rest with
  | nil => exact ⟨[], by rw [List.append_nil, pieces_of_not_mem (hdot _)]⟩
  | cons c rest =>
    obtain rfl := h c rfl
    exact ⟨pieces '.' rest, by rw [pieces_append (hdot _)]⟩

private theorem isNumberPart_of_mem_chars {c : Char} (h : c ∈ v.chars) : isNumberPart c = true := by
  simp only [chars, List.mem_append, List.mem_cons] at h
  rcases h with (h | rfl | h) | rfl | h
  · simp [isNumberPart, isDigit_of_mem_numeral h]
  · rfl
  · simp [isNumberPart, isDigit_of_mem_numeral h]
  · rfl
  · simp [isNumberPart, isDigit_of_mem_numeral h]

/-- The text of a version begins and ends with a digit. -/
private theorem isDigit_ends_chars (v : ServerVersion) :
    (∀ c ∈ v.chars.head?, c.isDigit = true) ∧ ∀ c ∈ v.chars.getLast?, c.isDigit = true := by
  obtain ⟨d, ds, hmajor⟩ := List.exists_cons_of_ne_nil (numeral_ne_nil v.major.toNat)
  obtain ⟨e, es, hpatch⟩ := List.exists_cons_of_ne_nil (numeral_ne_nil v.patch.toNat)
  constructor
  · intro c hc
    have hhead : c ∈ (numeral v.major.toNat).head? := by simpa [chars, hmajor] using hc
    exact isDigit_of_mem_numeral (List.mem_of_mem_head? hhead)
  · intro c hc
    have hchars : v.chars = (numeral v.major.toNat ++ '.' :: numeral v.minor.toNat ++ ['.']) ++
        numeral v.patch.toNat := by simp [chars]
    have hend : c ∈ (numeral v.patch.toNat).getLast? := by
      rw [hchars, List.getLast?_append, hpatch, List.getLast?_cons, Option.some_or] at hc
      rwa [hpatch, List.getLast?_cons]
    exact isDigit_of_mem_numeral (List.mem_of_getLast? hend)

/-- What counts of a text that begins with a version goes on with a dot, if at all. -/
private theorem exists_numberPart (v : ServerVersion) {suffix : String}
    (h : ∀ c ∈ suffix.toList.head?, c.isDigit = false) :
    ∃ rest, (trim (v.text ++ suffix).toList).takeWhile isNumberPart = v.chars ++ rest ∧
      ∀ c ∈ rest.head?, c = '.' := by
  obtain ⟨hfirst, hlast⟩ := v.isDigit_ends_chars
  have htrim : trim (v.text ++ suffix).toList =
      v.chars ++ (suffix.toList.reverse.dropWhile isBlank).reverse := by
    rw [String.toList_append, text, String.toList_ofList, ← List.nil_append (_ ++ _)]
    exact trim_append (List.forall_mem_nil _) (by simp [chars])
      (fun c hc => isBlank_of_isDigit (hfirst c hc)) fun c hc => isBlank_of_isDigit (hlast c hc)
  refine ⟨_, by
    rw [htrim, List.takeWhile_append_of_pos fun c hc => isNumberPart_of_mem_chars hc], fun c hc => ?_⟩
  have hprefix : ((suffix.toList.reverse.dropWhile isBlank).reverse.takeWhile isNumberPart) <+:
      suffix.toList := by
    refine (List.takeWhile_prefix _).trans ?_
    simpa using (List.dropWhile_suffix (l := suffix.toList.reverse) isBlank).reverse
  have hpart : isNumberPart c = true := List.mem_takeWhile_imp (List.mem_of_mem_head? hc)
  have hdigit : c.isDigit = false := by
    obtain ⟨others, hothers⟩ := hprefix
    refine h c ?_
    rw [← hothers, List.head?_append, Option.mem_def.1 hc]
    rfl
  simpa [isNumberPart, hdigit] using hpart

/-- A version is read as itself from its text and from longer ones that do not go on with a digit. -/
theorem parse_text_append (v : ServerVersion) {suffix : String}
    (h : ∀ c ∈ suffix.toList.head?, c.isDigit = false) : parse (v.text ++ suffix) = .ok v := by
  obtain ⟨rest, hstart, hrest⟩ := v.exists_numberPart h
  obtain ⟨more, hpieces⟩ := v.exists_pieces_chars hrest
  have hnumerals : numerals (v.text ++ suffix) = numeral v.major.toNat :: numeral v.minor.toNat ::
      numeral v.patch.toNat :: more.filter fun part => !part.isEmpty := by
    rw [numerals, hstart, hpieces]
    simp [numeral_ne_nil]
  exact parse_eq_ok_iff.2 ⟨_, hasParts_iff.2 hnumerals,
    .long (isNumeral_numeral _) (isNumeral_numeral _) (isNumeral_numeral _)⟩

end ServerVersion

/-- What keeps a coordinator from being started, with the failure that is answered, the number of
calls of the store that were made and the world that they left. -/
inductive Environment.Refuses {σ : Type} (env : Environment σ) (least : ServerVersion) (w : σ) :
    Failure → Nat → σ → Prop
  | unknown {f : Failure} {w' : σ} (version : env.serverVersion w = (.error f, w')) :
      Refuses env least w f 1 w'
  | unreadable {s : String} {w' : σ} (version : env.serverVersion w = (.ok s, w'))
      (unread : ∀ v, ¬ ServerVersion.IsDenoted s v) :
      Refuses env least w (.config ("invalid server version '" ++ s ++ "'")) 1 w'
  | old {s : String} {v : ServerVersion} {w' : σ} (version : env.serverVersion w = (.ok s, w'))
      (read : ServerVersion.IsDenoted s v) (before : ¬ v.IsSince least) :
      Refuses env least w (.unsupportedVersion least.text s) 1 w'
  | unlisted {s : String} {v : ServerVersion} {f : Failure} {w₁ w' : σ}
      (version : env.serverVersion w = (.ok s, w₁)) (read : ServerVersion.IsDenoted s v)
      (since : v.IsSince least) (positions : env.executedPositions w₁ = (.error f, w')) :
      Refuses env least w f 2 w'

/-- Whether the server is supported and reports its positions, with the world after both calls. -/
inductive Environment.Admits {σ : Type} (env : Environment σ) (least : ServerVersion) (w : σ) :
    σ → Prop
  | supported {s : String} {v : ServerVersion} {executed : PositionSet} {w₁ w' : σ}
      (version : env.serverVersion w = (.ok s, w₁)) (read : ServerVersion.IsDenoted s v)
      (since : v.IsSince least) (positions : env.executedPositions w₁ = (.ok executed, w')) :
      Admits env least w w'

theorem Environment.Refuses.counted {σ : Type} {env : Environment σ} {least : ServerVersion}
    {w w' : σ} {f : Failure} {calls : Nat} (h : env.Refuses least w f calls w') (n : Nat) :
    env.counted.Refuses least ⟨w, n⟩ f calls ⟨w', n + calls⟩ := by
  have hcounted {α : Type} {call : σ → Except Failure α × σ} {v v' : σ} {a : Except Failure α}
      (hcall : call v = (a, v')) (k : Nat) : counting call ⟨v, k⟩ = (a, ⟨v', k + 1⟩) := by
    rw [counting, hcall]
  cases h with
  | unknown version => exact .unknown (hcounted version n)
  | unreadable version unread => exact .unreadable (hcounted version n) unread
  | old version read before => exact .old (hcounted version n) read before
  | unlisted version read since positions =>
    exact .unlisted (hcounted version n) read since (hcounted positions (n + 1))

def Run.started (restored : Option Run) (token : String) (now : Int64) : Run :=
  match restored with
  | some r => r.prepareResume now
  | none => fresh token now

namespace Session
variable {σ : Type} {env : Environment σ} {rounds : Nat} {restored : Option Run} {c : Coordinator}
  {w w' : σ} {f : Failure} {calls : Nat}

/-- What a coordinator does with the run it is started with: the chunk in progress of one that is
taken up again is read at once. -/
def takeUp (env : Environment σ) (rounds : Nat) (restored : Option Run) (r : Run) :
    Procedure σ (Option UInt64) := do
  if restored.isSome && r.isRunning && !r.paused then readChunk env rounds
  return r.commandOffset

theorem start_of_refuses (h : env.Refuses c.settings.minServerVersion w f calls w') :
    start env rounds restored ⟨c, w⟩ = .error (.failed f) ⟨c, w'⟩ := by
  have hcheck {s : String} (version : env.serverVersion w = (.ok s, w'))
      (refused : c.settings.checkServerVersion s = .error f) :
      start env rounds restored ⟨c, w⟩ = .error (.failed f) ⟨c, w'⟩ := by
    rw [start, bind_of_ok (call_eq_ok.2 ⟨w', version, rfl⟩),
      bind_of_ok (current_eq_ok.2 ⟨rfl, rfl⟩), refused]
    exact fail_eq_error.2 ⟨rfl, rfl⟩
  cases h with
  | unknown version =>
    rw [start]
    exact bind_of_error (call_eq_error.2 ⟨f, w', version, rfl, rfl⟩)
  | unreadable version unread =>
    exact hcheck version (ServerVersion.checkServerVersion_of_not_isDenoted unread)
  | old version read before =>
    exact hcheck version (ServerVersion.checkServerVersion_of_not_isSince read before)
  | unlisted version read since positions =>
    rw [start, bind_of_ok (call_eq_ok.2 ⟨_, version, rfl⟩),
      bind_of_ok (current_eq_ok.2 ⟨rfl, rfl⟩),
      ServerVersion.checkServerVersion_of_isSince read since]
    exact bind_of_error (call_eq_error.2 ⟨f, w', positions, rfl, rfl⟩)

theorem start_of_admits (h : env.Admits c.settings.minServerVersion w w') :
    start env rounds restored ⟨c, w⟩ =
      takeUp env rounds restored (Run.started restored (env.freshToken w') (env.now w'))
        ⟨{ c.dropWindow with run := some (.started restored (env.freshToken w') (env.now w')) },
          w'⟩ := by
  obtain ⟨version, read, since, positions⟩ := h
  rw [start, bind_of_ok (call_eq_ok.2 ⟨_, version, rfl⟩), bind_of_ok (current_eq_ok.2 ⟨rfl, rfl⟩),
    ServerVersion.checkServerVersion_of_isSince read since]
  change ((call env.executedPositions >>= _) : Procedure σ (Option UInt64)) _ = _
  rw [bind_of_ok (call_eq_ok.2 ⟨_, positions, rfl⟩), bind_of_ok (now_eq_ok.2 ⟨rfl, rfl⟩),
    bind_of_ok (get_eq_ok.2 ⟨rfl, rfl⟩), bind_of_ok (update_eq_ok (u := ()).2 rfl)]
  rfl

theorem refuses_or_admits (env : Environment σ) (least : ServerVersion) (w : σ) :
    (∃ f calls w', env.Refuses least w f calls w') ∨ ∃ w', env.Admits least w w' := by
  rcases version : env.serverVersion w with ⟨_ | s, w₁⟩
  · exact .inl ⟨_, _, _, .unknown version⟩
  · by_cases read : ∃ v, ServerVersion.IsDenoted s v
    · obtain ⟨v, read⟩ := read
      by_cases since : v.IsSince least
      · rcases positions : env.executedPositions w₁ with ⟨_ | executed, w₂⟩
        · exact .inl ⟨_, _, _, .unlisted version read since positions⟩
        · exact .inr ⟨_, .supported version read since positions⟩
      · exact .inl ⟨_, _, _, .old version read since⟩
    · exact .inl ⟨_, _, _, .unreadable version (not_exists.1 read)⟩

/-- A coordinator passes the check of the server if, and only if, the version text denotes a version
that is not older than the least one of the settings; what follows the text of a version without a
digit does not change what it denotes. If the server is refused, because it does not tell its version,
because the text denotes none or an older one, or because it does not report its positions, then
starting answers the failure of that kind and leaves the coordinator as it was, after one call of the
store or two. Otherwise the coordinator takes up its run after both calls. Either of them happens. -/
theorem start_admitsSupported (env : Environment σ) (rounds : Nat) (restored : Option Run)
    (c : Coordinator) (w : σ) :
    (∀ s, c.settings.checkServerVersion s = .ok () ↔
      ∃ v, ServerVersion.IsDenoted s v ∧ v.IsSince c.settings.minServerVersion) ∧
    (∀ (v : ServerVersion) (suffix : String), (∀ d ∈ suffix.toList.head?, d.isDigit = false) →
      ServerVersion.parse (v.text ++ suffix) = .ok v) ∧
    (∀ f calls w', env.Refuses c.settings.minServerVersion w f calls w' →
      start env rounds restored ⟨c, w⟩ = .error (.failed f) ⟨c, w'⟩ ∧
      ∀ n, start env.counted rounds restored ⟨c, ⟨w, n⟩⟩ =
        .error (.failed f) ⟨c, ⟨w', n + calls⟩⟩) ∧
    (∀ w', env.Admits c.settings.minServerVersion w w' →
      start env rounds restored ⟨c, w⟩ =
        takeUp env rounds restored (Run.started restored (env.freshToken w') (env.now w'))
          ⟨{ c.dropWindow with run := some (.started restored (env.freshToken w') (env.now w')) },
            w'⟩) ∧
    ((∃ f calls w', env.Refuses c.settings.minServerVersion w f calls w') ∨
      ∃ w', env.Admits c.settings.minServerVersion w w') := by
  refine ⟨fun s => ?_, fun v suffix h => v.parse_text_append h, fun f calls w' h => ?_,
    fun w' h => start_of_admits h, refuses_or_admits env _ w⟩
  · constructor
    · intro h
      by_cases read : ∃ v, ServerVersion.IsDenoted s v
      · obtain ⟨v, read⟩ := read
        by_cases since : v.IsSince c.settings.minServerVersion
        · exact ⟨v, read, since⟩
        · rw [ServerVersion.checkServerVersion_of_not_isSince read since] at h
          cases h
      · rw [ServerVersion.checkServerVersion_of_not_isDenoted (not_exists.1 read)] at h
        cases h
    · rintro ⟨v, read, since⟩
      exact ServerVersion.checkServerVersion_of_isSince read since
  · exact ⟨start_of_refuses h, fun n => start_of_refuses (h.counted n)⟩

end Session

namespace Rehearsal

def busyCoordinator : Coordinator where
  settings := {}
  run := some { Run.fresh "a" 0 with tables := [⟨"d", "a"⟩] }
  buffer := RowBuffer.empty.insert ⟨⟨[.int 1]⟩, .null⟩
  bufferTable := some ⟨"d", "a"⟩
  statistics := { chunksRead := 1 }

/-- A coordinator at work is started once more on a server that is too old, on one that does not
report its positions, and on one whose version text goes on behind the patch number. -/
theorem busyCoordinator_admitsSupported :
    Session.start environment 9 none ⟨busyCoordinator, { version := "5.6.4-log" }⟩ =
      .error (.failed (.unsupportedVersion "5.6.5" "5.6.4-log"))
        ⟨busyCoordinator, { version := "5.6.4-log", calls := [.version] }⟩ ∧
    Session.start environment 9 none
        ⟨busyCoordinator, { failures := [⟨.positions, 0, .dataAccess "gone"⟩] }⟩ =
      .error (.failed (.dataAccess "gone")) ⟨busyCoordinator, { calls := [.positions, .version] }⟩ ∧
    Session.start environment 9 none ⟨busyCoordinator, { version := " 5.6..5.x" }⟩ =
      Session.takeUp environment 9 none (Run.fresh "rehearsal" 0)
        ⟨{ settings := {}, run := some (Run.fresh "rehearsal" 0), statistics := { chunksRead := 1 } },
          { version := " 5.6..5.x", calls := [.positions, .version] }⟩ ∧
    ServerVersion.parse ((ServerVersion.mk 8 0 34).text ++ ".1-log") = .ok ⟨8, 0, 34⟩ := by
  have hold : environment.Refuses ⟨5, 6, 5⟩ { version := "5.6.4-log" }
      (.unsupportedVersion "5.6.5" "5.6.4-log") 1 { version := "5.6.4-log", calls := [.version] } :=
    .old (v := ⟨5, 6, 4⟩) rfl (ServerVersion.parse_eq_ok_iff.1 (by decide +kernel)) (by decide)
  have hunlisted : environment.Refuses ⟨5, 6, 5⟩
      { failures := [⟨.positions, 0, .dataAccess "gone"⟩] } (.dataAccess "gone") 2
      { calls := [.positions, .version] } :=
    .unlisted (v := ⟨8, 0, 34⟩) rfl (ServerVersion.parse_eq_ok_iff.1 (by decide +kernel))
      (by decide) rfl
  have hsupported : environment.Admits ⟨5, 6, 5⟩ { version := " 5.6..5.x" }
      { version := " 5.6..5.x", calls := [.positions, .version] } :=
    .supported (v := ⟨5, 6, 5⟩) rfl (ServerVersion.parse_eq_ok_iff.1 (by decide +kernel))
      (by decide) rfl
  obtain ⟨-, htext, hrefused, -⟩ :=
    Session.start_admitsSupported environment 9 none busyCoordinator { version := "5.6.4-log" }
  obtain ⟨-, -, hrefused', -⟩ := Session.start_admitsSupported environment 9 none busyCoordinator
    { failures := [⟨.positions, 0, .dataAccess "gone"⟩] }
  obtain ⟨-, -, -, hadmitted, -⟩ :=
    Session.start_admitsSupported environment 9 none busyCoordinator { version := " 5.6..5.x" }
  refine ⟨(hrefused _ _ _ hold).1, (hrefused' _ _ _ hunlisted).1, hadmitted _ hsupported,
    htext ⟨8, 0, 34⟩ ".1-log" fun d hd => ?_⟩
  obtain rfl : '.' = d := Option.some.inj hd
  decide

end Rehearsal
end Backfill

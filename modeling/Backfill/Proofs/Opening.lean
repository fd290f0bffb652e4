import Backfill.Archive.File
import Mathlib.Tactic.ByContra

/-! What an archive knows when it is opened on a directory: the runs that can be read from files of
valid keys, in whatever order the names of the directory come and whatever else is there. -/
namespace Backfill

theorem fromUTF8?_eq_some_iff {b : ByteArray} {s : String} :
    String.fromUTF8? b = some s ↔ b = s.toUTF8 := by
  rw [String.fromUTF8?]
  constructor
  · intro h
    split at h
    · exact congrArg String.toUTF8 (Option.some.inj h)
    · cases h
  · rintro rfl
    exact dif_pos s.isValidUTF8

namespace FileArchive
variable {key other : String}

theorem fileName_inj : fileName key = fileName other ↔ key = other := by
  simp [fileName]

theorem getLast?_fileName (key : String) : (fileName key).toList.getLast? = some 'n' := by
  simp [fileName, List.getLast?_append]

theorem getLast?_draftName (key : String) :
    (draftName key).toList.getLast? = some (if key = "." then '.' else 'p') := by
  by_cases h : key = "." <;> simp [draftName, h, List.getLast?_append]

theorem fileName_ne_draftName : fileName key ≠ draftName other := by
  intro h
  have hlast := congrArg (fun s => s.toList.getLast?) h
  simp only [getLast?_fileName, getLast?_draftName] at hlast
  split at hlast <;> cases hlast

theorem draftName_inj (h : draftName key = draftName other) : key = other := by
  have hlast := congrArg (fun s => s.toList.getLast?) h
  simp only [getLast?_draftName] at hlast
  by_cases hkey : key = "." <;> by_cases hother : other = "." <;> simp only [hkey, hother] at hlast
  · exact hkey.trans hother.symm
  · cases hlast
  · cases hlast
  · simpa [draftName, hkey, hother] using h

/-- A key is found again in the name of its file, and no other name gives one. -/
theorem keyOf?_eq_some_iff {name : String} :
    keyOf? name = some key ↔ key ≠ "" ∧ name = fileName key := by
  constructor
  · intro h
    unfold keyOf? at h
    split at h
    · rename_i c cs hcut
      obtain rfl := Option.some.inj h
      have hname : name.toList = (fileName (String.ofList (c :: cs))).toList := by
        rw [Text.eq_of_cutLast hcut, fileName, String.toList_append, String.toList_ofList]
        rfl
      exact ⟨fun hempty => by simpa using congrArg String.toList hempty, String.toList_inj.1 hname⟩
    · cases h
  · rintro ⟨hkey, rfl⟩
    have hcut : Text.cutLast '.' (fileName key).toList =
        some (key.toList, ['j', 's', 'o', 'n']) := by
      have hname : (fileName key).toList = key.toList ++ '.' :: ['j', 's', 'o', 'n'] := by
        simp [fileName]
      rw [hname, Text.cutLast_append (by decide)]
    obtain ⟨c, cs, hcs⟩ : ∃ c cs, key.toList = c :: cs :=
      List.exists_cons_of_ne_nil (by simpa using hkey)
    rw [keyOf?, hcut, hcs]
    exact congrArg some (by rw [← hcs, String.ofList_toList])

end FileArchive

theorem isArchiveKey_iff {key : String} : isArchiveKey key = true ↔
    key ≠ "" ∧ key ≠ ".." ∧ '/' ∉ key.toList ∧ '\\' ∉ key.toList := by
  simp [isArchiveKey, and_assoc]

theorem checkArchiveKey_ok {key : String} (h : isArchiveKey key = true) :
    checkArchiveKey key = .ok () := by
  simp [checkArchiveKey, h]

theorem isArchiveKey_of_check {key : String} {u : Unit} (h : checkArchiveKey key = .ok u) :
    isArchiveKey key = true := by
  by_contra hkey
  simp [checkArchiveKey, hkey] at h

theorem Directory.has_congr {d d' : Directory} {name : String} (h : d.get? name = d'.get? name) :
    d.has name = d'.has name := by
  rw [has, h, has]

namespace FileArchive
variable {d d' : Directory} {key : String}

/-- The run in the file of a key, if it can be read. -/
def stored? (d : Directory) (key : String) : Option Run :=
  if isArchiveKey key then (readRun d key).toOption else none

theorem readRun_of_missing (h : d.get? (fileName key) = none) :
    readRun d key = .error Directory.missingFailure := by
  simp only [readRun, Directory.readText, h]
  rfl

theorem stored?_of_missing (h : d.get? (fileName key) = none) :
    stored? d key = none := by
  rw [stored?, readRun_of_missing h]
  exact ite_self none

theorem load_rest (a : FileArchive) (key : String) :
    (a.load key).2.directory = a.directory ∧ (a.load key).2.durable = a.durable := by
  unfold load
  repeat' split
  all_goals exact ⟨rfl, rfl⟩

/-- Loading makes the run in the file of the key known, unless one is known already. -/
theorem load_known_self (a : FileArchive) (key : String) :
    (a.load key).2.known.get? key = (a.known.get? key).or (stored? a.directory key) := by
  cases hvalid : isArchiveKey key with
  | false => simp [load, checkArchiveKey, stored?, hvalid]
  | true =>
    simp only [load, checkArchiveKey_ok hvalid]
    cases hget : a.known.get? key with
    | some r => exact hget
    | none =>
      cases hfile : a.directory.get? (fileName key) with
      | none => simp [Directory.has, hfile, hget, stored?_of_missing hfile]
      | some e =>
        simp only [Directory.has, hfile, Option.isSome_some, stored?, hvalid, if_true]
        cases readRun a.directory key with
        | error f => exact hget
        | ok r => simp [TextMap.get?_insert, Except.toOption]

theorem load_known_of_ne (a : FileArchive) {other : String} (h : other ≠ key) :
    (a.load key).2.known.get? other = a.known.get? other := by
  unfold load
  repeat' split
  all_goals first | rfl | rw [TextMap.get?_insert, if_neg h]

theorem learn_rest (a : FileArchive) (name : String) :
    (a.learn name).directory = a.directory ∧ (a.learn name).durable = a.durable := by
  unfold learn
  split
  · exact a.load_rest _
  · exact ⟨rfl, rfl⟩

theorem learn_known (a : FileArchive) (name key : String) : (a.learn name).known.get? key =
    (a.known.get? key).or (if fileName key = name then stored? a.directory key else none) := by
  cases hkey : keyOf? name with
  | some other =>
    obtain ⟨-, rfl⟩ := keyOf?_eq_some_iff.1 hkey
    rw [learn, hkey]
    by_cases hother : key = other
    · rw [if_pos (fileName_inj.2 hother), hother]
      exact a.load_known_self other
    · rw [if_neg fun hname => hother (fileName_inj.1 hname), Option.or_none]
      exact a.load_known_of_ne hother
  | none =>
    rw [learn, hkey]
    by_cases hname : fileName key = name
    · have hempty : key = "" := by
        by_contra hne
        exact absurd (keyOf?_eq_some_iff.2 ⟨hne, hname.symm⟩) (by simp [hkey])
      rw [if_pos hname, hempty]
      exact Option.or_none.symm
    · rw [if_neg hname, Option.or_none]

/-- From names the runs in the files of these names are learned, in whatever order they come. -/
theorem foldl_learn (a : FileArchive) (names : List String) :
    (names.foldl learn a).directory = a.directory ∧ (names.foldl learn a).durable = a.durable ∧
      ∀ key, (names.foldl learn a).known.get? key =
        (a.known.get? key).or (if fileName key ∈ names then stored? a.directory key else none) := by
  induction names generalizing a with
  | nil => exact ⟨rfl, rfl, fun key => (Option.or_none).symm⟩
  | cons name names ih =>
    obtain ⟨hdirectory, hdurable, hknown⟩ := ih (a.learn name)
    obtain ⟨hsame, hsame'⟩ := a.learn_rest name
    refine ⟨hdirectory.trans hsame, hdurable.trans hsame', fun key => ?_⟩
    rw [List.foldl_cons, hknown, hsame, learn_known, Option.or_assoc]
    by_cases hname : fileName key = name
    · by_cases hrest : name ∈ names <;> simp [hname, hrest]
    · simp [hname]

theorem ofDirectory_rest (d : Directory) (durable : Bool) :
    (ofDirectory d durable).directory = d ∧ (ofDirectory d durable).durable = durable := by
  obtain ⟨hdirectory, hdurable, -⟩ := foldl_learn ⟨d, .empty, durable⟩ d.entries.keys
  exact ⟨hdirectory, hdurable⟩

/-- An archive that is opened on a directory knows the runs that can be read there. -/
theorem ofDirectory_known (d : Directory) (durable : Bool) (key : String) :
    (ofDirectory d durable).known.get? key = stored? d key := by
  obtain ⟨-, -, hknown⟩ := foldl_learn ⟨d, .empty, durable⟩ d.entries.keys
  rw [ofDirectory, hknown, TextMap.get?_empty, Option.none_or]
  split
  · rfl
  · rename_i hmissing
    refine (stored?_of_missing (Option.eq_none_iff_forall_ne_some.2 fun e he => ?_)).symm
    exact hmissing (TextMap.mem_keys.2 ⟨e, he⟩)

theorem readRun_congr (h : d.get? (fileName key) = d'.get? (fileName key)) :
    readRun d key = readRun d' key := by
  simp only [readRun, Directory.readText, h]

theorem stored?_congr (h : d.get? (fileName key) = d'.get? (fileName key)) :
    stored? d key = stored? d' key := by
  rw [stored?, readRun_congr h, stored?]

end FileArchive
end Backfill

import Backfill.Proofs.Archive

/-! Saving is all or nothing. A run is written to a temporary file, and only the last step touches
the file of its key. Up to there nothing has happened that an archive could notice, whatever is
asked of it later: it looks at the files of keys, and of a temporary file only whether it is a
folder. -/
namespace Backfill
open FileArchive

namespace Directory
variable {d d' e : Directory} {key : String} {content : ByteArray} {m : Medium}

/-- Whether two directories have the same files of keys and folders in the same places of temporary
files. They may differ in what temporary files are there and what these hold. -/
structure Alike (d d' : Directory) : Prop where
  file : ∀ key, d.get? (fileName key) = d'.get? (fileName key)
  draft : ∀ key, d.isFolder (draftName key) = d'.isFolder (draftName key)

theorem isFolder_congr {name : String} (h : d.get? name = d'.get? name) :
    d.isFolder name = d'.isFolder name := by
  simp only [isFolder, h]

theorem get?_put (d : Directory) (name other : String) (content : ByteArray) :
    (d.put name content).get? other =
      if other = name then some (.file content) else d.get? other :=
  TextMap.get?_insert _ _ _ _

theorem get?_erase (d : Directory) (name other : String) :
    get? ⟨d.entries.erase name⟩ other = if other = name then none else d.get? other :=
  TextMap.get?_erase _ _ _

theorem isFolder_put (d : Directory) (name other : String) (content : ByteArray) :
    (d.put name content).isFolder other = if other = name then false else d.isFolder other := by
  by_cases hname : other = name
  · simp [isFolder, get?_put, hname]
  · simp [isFolder, get?_put, hname]

theorem isFolder_erase (d : Directory) (name other : String) :
    isFolder ⟨d.entries.erase name⟩ other = if other = name then false else d.isFolder other := by
  by_cases hname : other = name
  · simp [isFolder, get?_erase, hname]
  · simp [isFolder, get?_erase, hname]

namespace Alike

theorem refl (d : Directory) : d.Alike d := ⟨fun _ => rfl, fun _ => rfl⟩

theorem trans {d'' : Directory} (h : d.Alike d') (h' : d'.Alike d'') : d.Alike d'' :=
  ⟨fun key => (h.file key).trans (h'.file key), fun key => (h.draft key).trans (h'.draft key)⟩

theorem put (h : d.Alike d') (name : String) (content : ByteArray) :
    (d.put name content).Alike (d'.put name content) where
  file key := by simp only [get?_put, h.file]
  draft key := by simp only [isFolder_put, h.draft]

theorem erase (h : d.Alike d') (name : String) :
    Alike ⟨d.entries.erase name⟩ ⟨d'.entries.erase name⟩ where
  file key := by simp only [get?_erase, h.file]
  draft key := by simp only [isFolder_erase, h.draft]

end Alike

end Directory

/-- Whether a step changes at most the temporary file of a key. -/
def FileStep.IsDraft (key : String) : FileStep → Prop
  | .openTruncate name | .write name _ | .sync name => name = draftName key
  | .rename .. => False

namespace FileArchive

def draftSteps (durable : Bool) (key : String) (content : ByteArray) : List FileStep :=
  [.openTruncate (draftName key), .write (draftName key) content]
    ++ if durable then [.sync (draftName key)] else []

theorem isDraft_of_mem {durable : Bool} {key : String} {content : ByteArray} :
    ∀ s ∈ draftSteps durable key content, s.IsDraft key := by
  refine List.forall_mem_cons.2 ⟨rfl, List.forall_mem_cons.2 ⟨rfl, ?_⟩⟩
  cases durable with
  | false => exact List.forall_mem_nil _
  | true => exact List.forall_mem_singleton.2 rfl

end FileArchive

namespace Directory
variable {d d' e : Directory} {key : String} {content : ByteArray} {m : Medium} {ss : List FileStep}

/-- A step of a save ends alike in directories that are alike, once the temporary file is opened. -/
theorem Alike.step {s : FileStep} (h : d.Alike d')
    (hs : s.IsDraft key ∨ s = .rename (draftName key) (fileName key))
    (hdraft : (∃ name, s = .openTruncate name) ∨ d.get? (draftName key) = d'.get? (draftName key)) :
    (∃ f, d.step s = .error f ∧ d'.step s = .error f) ∨
      ∃ e e', d.step s = .ok e ∧ d'.step s = .ok e' ∧ e.Alike e' ∧
        e.get? (draftName key) = e'.get? (draftName key) := by
  cases s with
  | openTruncate name =>
    obtain rfl : name = draftName key := hs.resolve_right (by simp)
    have hsame : d.checkTarget (draftName key) = d'.checkTarget (draftName key) := by
      simp only [checkTarget, h.draft]
    simp only [Directory.step, hsame]
    cases d'.checkTarget (draftName key) with
    | error f => exact .inl ⟨f, rfl, rfl⟩
    | ok u =>
      refine .inr ⟨_, _, rfl, rfl, h.put _ _, ?_⟩
      rw [get?_put, get?_put, if_pos rfl, if_pos rfl]
  | write name content =>
    obtain rfl : name = draftName key := hs.resolve_right (by simp)
    refine .inr ⟨_, _, rfl, rfl, h.put _ _, ?_⟩
    rw [get?_put, get?_put, if_pos rfl, if_pos rfl]
  | sync name => exact .inr ⟨d, d', rfl, rfl, h, hdraft.resolve_left (by simp)⟩
  | rename source target =>
    obtain ⟨rfl, rfl⟩ := FileStep.rename.inj (hs.resolve_left id)
    have hsame : d.checkTarget (fileName key) = d'.checkTarget (fileName key) := by
      simp only [checkTarget, isFolder_congr (h.file key)]
    simp only [Directory.step, hsame, hdraft.resolve_left (by simp)]
    cases d'.checkTarget (fileName key) with
    | error f => exact .inl ⟨f, rfl, rfl⟩
    | ok u =>
      cases d'.get? (draftName key) with
      | none => exact .inl ⟨_, rfl, rfl⟩
      | some entry =>
        cases entry with
        | folder => exact .inl ⟨_, rfl, rfl⟩
        | file content =>
          have hgone (d : Directory) : ((⟨d.entries.erase (draftName key)⟩ : Directory).put
              (fileName key) content).get? (draftName key) = none := by
            rw [get?_put, if_neg fileName_ne_draftName.symm, get?_erase, if_pos rfl]
          exact .inr ⟨_, _, rfl, rfl, (h.erase _).put _ _, (hgone d).trans (hgone d').symm⟩

theorem Alike.run (h : d.Alike d')
    (hss : ∀ s ∈ ss, s.IsDraft key ∨ s = .rename (draftName key) (fileName key))
    (hdraft : (∃ name rest, ss = .openTruncate name :: rest) ∨
      d.get? (draftName key) = d'.get? (draftName key)) :
    (d.run m ss).1 = (d'.run m ss).1 ∧ (d.run m ss).2.Alike (d'.run m ss).2 := by
  induction ss generalizing d d' with
  | nil => exact ⟨rfl, h⟩
  | cons s ss ih =>
    obtain ⟨hs, hss⟩ := List.forall_mem_cons.1 hss
    have hopen : (∃ name, s = .openTruncate name) ∨
        d.get? (draftName key) = d'.get? (draftName key) :=
      hdraft.imp_left fun ⟨name, _, hname⟩ => ⟨name, (List.cons.inj hname).1⟩
    simp only [Directory.run]
    cases m s with
    | some f => exact ⟨rfl, h⟩
    | none =>
      rcases h.step hs hopen with ⟨f, hf, hf'⟩ | ⟨e, e', he, he', halike, hsame⟩
      · simp only [hf, hf']
        exact ⟨trivial, h⟩
      · simp only [he, he']
        exact ih halike hss (.inr hsame)

end Directory

namespace FileArchive
variable {d d' : Directory} {key : String} {r : Run} {a b : FileArchive} {m : Directory.Medium}

/-- Whether two archives know the same runs, and their directories differ in temporary files only. -/
structure Alike (a b : FileArchive) : Prop where
  known : a.known = b.known
  durable : a.durable = b.durable
  directory : a.directory.Alike b.directory

/-- What is asked of an archive whose directory is on a medium that may fail. -/
def answerOn (m : Directory.Medium) (a : FileArchive) : ArchiveCall → ArchiveAnswer × FileArchive
  | .save key r => (a.saveOn m key r).map .done id
  | c => a.answer c

def answersOn (a : FileArchive) : List (Directory.Medium × ArchiveCall) → List ArchiveAnswer
  | [] => []
  | (m, c) :: calls => (a.answerOn m c).1 :: (a.answerOn m c).2.answersOn calls

namespace Alike

theorem ofDirectory (h : d.Alike d') (durable : Bool) :
    (ofDirectory d durable).Alike (FileArchive.ofDirectory d' durable) := by
  obtain ⟨hdirectory, hdurable⟩ := ofDirectory_rest d durable
  obtain ⟨hdirectory', hdurable'⟩ := ofDirectory_rest d' durable
  refine ⟨TextMap.eq_of_get? fun key => ?_, hdurable.trans hdurable'.symm, ?_⟩
  · rw [ofDirectory_known, ofDirectory_known, stored?_congr (h.file key)]
  · rw [hdirectory, hdirectory']
    exact h

theorem saveOn (h : a.Alike b) (m : Directory.Medium) (key : String) (r : Run) :
    (a.saveOn m key r).1 = (b.saveOn m key r).1 ∧ (a.saveOn m key r).2.Alike (b.saveOn m key r).2 := by
  obtain ⟨d, known, durable⟩ := a
  obtain ⟨d', known', durable'⟩ := b
  obtain ⟨rfl, rfl, (halike : d.Alike d')⟩ := h
  simp only [FileArchive.saveOn]
  cases checkArchiveKey key with
  | error f => exact ⟨rfl, rfl, rfl, halike⟩
  | ok u =>
    have hsteps : ∀ s ∈ saveSteps durable key (Json.renderPretty r).toUTF8,
        s.IsDraft key ∨ s = .rename (draftName key) (fileName key) :=
      fun s hs => (List.mem_append.1 hs).imp (isDraft_of_mem s) List.mem_singleton.1
    obtain ⟨hresult, hleft⟩ := halike.run (m := m) hsteps (.inl ⟨_, _, rfl⟩)
    generalize d.run m _ = left at hresult hleft
    generalize d'.run m _ = left' at hresult hleft
    obtain ⟨result, e⟩ := left
    obtain ⟨result', e'⟩ := left'
    obtain rfl : result = result' := hresult
    cases result with
    | error f => exact ⟨rfl, rfl, rfl, hleft⟩
    | ok u => exact ⟨rfl, rfl, rfl, hleft⟩

theorem load (h : a.Alike b) (key : String) :
    (a.load key).1 = (b.load key).1 ∧ (a.load key).2.Alike (b.load key).2 := by
  obtain ⟨d, known, durable⟩ := a
  obtain ⟨d', known', durable'⟩ := b
  obtain ⟨rfl, rfl, (halike : d.Alike d')⟩ := h
  have hhas := Directory.has_congr (halike.file key)
  simp only [FileArchive.load, hhas, readRun_congr (halike.file key)]
  cases checkArchiveKey key with
  | error f => exact ⟨rfl, rfl, rfl, halike⟩
  | ok u =>
    cases known.get? key with
    | some r => exact ⟨rfl, rfl, rfl, halike⟩
    | none =>
      cases d'.has (fileName key) with
      | false => exact ⟨rfl, rfl, rfl, halike⟩
      | true =>
        cases readRun d' key with
        | error f => exact ⟨rfl, rfl, rfl, halike⟩
        | ok r => exact ⟨rfl, rfl, rfl, halike⟩

theorem delete (h : a.Alike b) (key : String) :
    (a.delete key).1 = (b.delete key).1 ∧ (a.delete key).2.Alike (b.delete key).2 := by
  obtain ⟨d, known, durable⟩ := a
  obtain ⟨d', known', durable'⟩ := b
  obtain ⟨rfl, rfl, (halike : d.Alike d')⟩ := h
  have hhas := Directory.has_congr (halike.file key)
  simp only [FileArchive.delete, hhas, Directory.remove, halike.file]
  cases checkArchiveKey key with
  | error f => exact ⟨rfl, rfl, rfl, halike⟩
  | ok u =>
    cases d'.has (fileName key) with
    | false => exact ⟨rfl, rfl, rfl, halike⟩
    | true =>
      cases d'.get? (fileName key) with
      | none => exact ⟨rfl, rfl, rfl, halike⟩
      | some entry =>
        cases entry with
        | folder => exact ⟨rfl, rfl, rfl, halike⟩
        | file content => exact ⟨rfl, rfl, rfl, halike.erase _⟩

theorem answerOn (h : a.Alike b) (m : Directory.Medium) (c : ArchiveCall) :
    (a.answerOn m c).1 = (b.answerOn m c).1 ∧ (a.answerOn m c).2.Alike (b.answerOn m c).2 := by
  cases c with
  | save key r =>
    obtain ⟨hanswer, halike⟩ := h.saveOn m key r
    exact ⟨congrArg ArchiveAnswer.done hanswer, halike⟩
  | load key =>
    obtain ⟨hanswer, halike⟩ := h.load key
    exact ⟨congrArg ArchiveAnswer.found hanswer, halike⟩
  | delete key =>
    obtain ⟨hanswer, halike⟩ := h.delete key
    exact ⟨congrArg ArchiveAnswer.done hanswer, halike⟩
  | list => exact ⟨congrArg (fun runs : TextMap Run => ArchiveAnswer.keys runs.keys) h.known, h⟩
  | reopen durable => exact ⟨rfl, .ofDirectory h.directory durable⟩

theorem answersOn (h : a.Alike b) (calls : List (Directory.Medium × ArchiveCall)) :
    a.answersOn calls = b.answersOn calls := by
  induction calls generalizing a b with
  | nil => rfl
  | cons call calls ih =>
    obtain ⟨hanswer, halike⟩ := h.answerOn call.1 call.2
    exact congrArg₂ List.cons hanswer (ih halike)

end Alike

/-- A save under a valid key is the run of its steps. -/
theorem run_saveSteps (hkey : isArchiveKey key = true) (a : FileArchive) (m : Directory.Medium)
    (r : Run) : a.directory.run m (saveSteps a.durable key (Json.renderPretty r).toUTF8) =
      ((a.saveOn m key r).1, (a.saveOn m key r).2.directory) := by
  simp only [saveOn, checkArchiveKey_ok hkey]
  generalize a.directory.run m _ = left
  obtain ⟨result, d⟩ := left
  cases result with
  | error f => rfl
  | ok u => rfl

def looks : List (Directory.Medium × ArchiveCall) :=
  [.load "a", .list, .reopen false, .load "a", .list].map fun c => (Directory.soundMedium, c)

end FileArchive
end Backfill

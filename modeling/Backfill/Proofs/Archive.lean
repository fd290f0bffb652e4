import Backfill.Proofs.Canonical
import Backfill.Proofs.Opening
import Backfill.Proofs.Persistence

/-! The archive of files answers as the one in memory does, however often it is opened again.
Between two calls its directory holds one file for each run and nothing else, so that what it knows
can be learned anew from the names and the texts of the files. Only the key `.` is not kept: its
temporary file would be the folder around the directory. -/
namespace Backfill

inductive ArchiveCall where
  | save (key : String) (r : Run)
  | load (key : String)
  | delete (key : String)
  | list
  /-- The archive of the same directory is opened anew. -/
  | reopen (durable : Bool)

inductive ArchiveAnswer where
  | done (result : Except Failure Unit)
  | found (result : Except Failure (Option Run))
  | keys (listed : List String)

def ArchiveAnswer.failure? : ArchiveAnswer → Option Failure
  | .done (.error f) | .found (.error f) => some f
  | _ => none

namespace ArchiveCall
variable {σ : Type}

def transcript (answer : σ → ArchiveCall → ArchiveAnswer × σ) (a : σ) :
    List ArchiveCall → List (ArchiveCall × ArchiveAnswer)
  | [] => []
  | c :: cs => (c, (answer a c).1) :: transcript answer (answer a c).2 cs

def after (answer : σ → ArchiveCall → ArchiveAnswer × σ) (a : σ) (cs : List ArchiveCall) : σ :=
  cs.foldl (fun a c => (answer a c).2) a

def key? : ArchiveCall → Option String
  | .save key _ | .load key | .delete key => some key
  | .list | .reopen _ => none

def savesDot : ArchiveCall → Bool
  | .save key _ => key = "."
  | _ => false

/-- Whether a call is within what files can do: a key that is saved under fits in a file name, and
the watermarks of its run can be listed. -/
def IsStorable : ArchiveCall → Prop
  | .save key r => '\x00' ∉ key.toList ∧
      (FileArchive.fileName key).utf8ByteSize ≤ Directory.maxNameBytes ∧ r.watermarks.IsListable
  | _ => True

end ArchiveCall

/-- Opening it anew means nothing to an archive in memory. -/
def MemoryArchive.answer (m : MemoryArchive) : ArchiveCall → ArchiveAnswer × MemoryArchive
  | .save key r => (m.save key r).map .done id
  | .load key => (.found (m.load key), m)
  | .delete key => (m.delete key).map .done id
  | .list => (.keys m.list, m)
  | .reopen _ => (.done (.ok ()), m)

def FileArchive.answer (a : FileArchive) : ArchiveCall → ArchiveAnswer × FileArchive
  | .save key r => (a.save key r).map .done id
  | .load key => (a.load key).map .found id
  | .delete key => (a.delete key).map .done id
  | .list => (.keys a.list, a)
  | .reopen durable => (.done (.ok ()), .ofDirectory a.directory durable)

namespace Directory
open FileArchive
variable {d : Directory} {runs : TextMap Run} {key name : String} {r : Run}

/-- A name that ends in a letter leads nowhere else. -/
private theorem isSurrounding_eq_false {c : Char} (h : name.toList.getLast? = some c)
    (hc : c ≠ '.') : isSurrounding name = false := by
  simp only [isSurrounding, Bool.or_eq_false_iff, decide_eq_false_iff_not]
  refine ⟨⟨?_, ?_⟩, ?_⟩
  · rintro rfl
    cases h
  · rintro rfl
    exact hc (Option.some.inj h).symm
  · rintro rfl
    exact hc (Option.some.inj h).symm

/-- Both files of a key can be there if the longer name is not too long. -/
theorem checkName_names (h : isArchiveKey key = true) (hdot : key ≠ ".")
    (hzero : '\x00' ∉ key.toList) (hsize : (fileName key).utf8ByteSize ≤ maxNameBytes) :
    checkName (fileName key) = .ok () ∧ checkName (draftName key) = .ok () := by
  obtain ⟨-, -, hslash, -⟩ := isArchiveKey_iff.1 h
  have hlong : key.utf8ByteSize + 5 ≤ maxNameBytes := by
    rwa [fileName, String.utf8ByteSize_append] at hsize
  constructor
  · have hsurrounding := isSurrounding_eq_false (getLast?_fileName key) (by decide)
    simp only [checkName, hsurrounding, Nat.not_lt.2 hsize]
    simp [fileName, hslash, hzero]
  · have hlast : (draftName key).toList.getLast? = some 'p' := by
      rw [getLast?_draftName, if_neg hdot]
    have hsurrounding := isSurrounding_eq_false hlast (by decide)
    have hshort : (draftName key).utf8ByteSize ≤ maxNameBytes := by
      rw [draftName, if_neg hdot, String.utf8ByteSize_append]
      exact Nat.le_of_succ_le hlong
    simp only [checkName, hsurrounding, Nat.not_lt.2 hshort]
    simp [draftName, hdot, hslash, hzero]

private theorem run_of_step {d' : Directory} {s : FileStep} {ss : List FileStep}
    (h : d.step s = .ok d') : d.run soundMedium (s :: ss) = d'.run soundMedium ss := by
  simp only [run, soundMedium, h]

theorem readRun_of_document {text : String}
    (hfile : d.get? (fileName key) = some (.file text.toUTF8)) :
    readRun d key = (Run.restore text).mapError fun _ => unreadable key := by
  have htext : d.readText (fileName key) = .ok text := by
    simp only [readText, hfile, fromUTF8?_eq_some_iff.2 rfl]
  simp only [readRun, htext, bind, Except.bind]
  cases Run.restore text with
  | error f => rfl
  | ok r => rfl

/-- A directory that holds one file for each run, and nothing else. -/
structure Holds (d : Directory) (runs : TextMap Run) : Prop where
  file : ∀ key, d.get? (fileName key) =
    (runs.get? key).map fun r => .file (Json.renderPretty r).toUTF8
  nothingElse : ∀ name, (∀ key, name ≠ fileName key) → d.get? name = none
  valid : ∀ key r, runs.get? key = some r → isArchiveKey key = true
  listable : ∀ key r, runs.get? key = some r → r.watermarks.IsListable

namespace Holds

theorem isFolder_eq_false (h : d.Holds runs) (name : String) : d.isFolder name = false := by
  rw [isFolder]
  by_cases hname : ∃ key, name = fileName key
  · obtain ⟨key, rfl⟩ := hname
    rw [h.file]
    cases runs.get? key <;> rfl
  · rw [h.nothingElse name (not_exists.1 hname)]

theorem get?_draftName (h : d.Holds runs) (key : String) : d.get? (draftName key) = none :=
  h.nothingElse _ fun _ => fileName_ne_draftName.symm

/-- A text takes the place of a key's file, and the temporary file is gone again. -/
theorem run_saveSteps (h : d.Holds runs) (durable : Bool) (content : ByteArray)
    (hnames : checkName (fileName key) = .ok () ∧ checkName (draftName key) = .ok ()) :
    ∃ d', d.run soundMedium (saveSteps durable key content) = (.ok (), d') ∧
      ∀ name, d'.get? name =
        if name = fileName key then some (.file content) else d.get? name := by
  obtain ⟨hfile, hdraft⟩ := hnames
  let opened := d.put (draftName key) .empty
  let written := opened.put (draftName key) content
  have hopen : d.step (.openTruncate (draftName key)) = .ok opened := by
    simp only [step, checkTarget, hdraft, h.isFolder_eq_false]
    rfl
  have hwritten (name : String) : written.get? name =
      if name = draftName key then some (.file content) else d.get? name := by
    simp only [written, opened, get?, put, TextMap.get?_insert]
    split <;> rfl
  have htarget : written.checkTarget (fileName key) = .ok () := by
    have hfolder : written.isFolder (fileName key) = false := by
      have := h.isFolder_eq_false (fileName key)
      simpa [isFolder, hwritten, fileName_ne_draftName] using this
    simp only [checkTarget, hfile, hfolder]
    rfl
  let renamed : Directory :=
    ⟨(written.entries.erase (draftName key)).insert (fileName key) (.file content)⟩
  have hrename : written.step (.rename (draftName key) (fileName key)) = .ok renamed := by
    simp only [step, htarget, hwritten, if_true]
    rfl
  refine ⟨renamed, ?_, fun name => ?_⟩
  · have hlast : written.run soundMedium [.rename (draftName key) (fileName key)] =
        (.ok (), renamed) := run_of_step hrename
    cases durable with
    | false => exact (run_of_step hopen).trans ((run_of_step rfl).trans hlast)
    | true =>
      exact (run_of_step hopen).trans ((run_of_step rfl).trans ((run_of_step rfl).trans hlast))
  · have herased : (written.entries.erase (draftName key)).get? name = d.get? name := by
      rw [TextMap.get?_erase]
      by_cases hname : name = draftName key
      · rw [if_pos hname, hname, h.get?_draftName]
      · rw [if_neg hname]
        exact (hwritten name).trans (if_neg hname)
    rw [get?, TextMap.get?_insert, herased]

/-- A saved run is one file more, or another text in the file of its key. -/
theorem insert (h : d.Holds runs) (hkey : isArchiveKey key = true)
    (hr : r.watermarks.IsListable) {d' : Directory}
    (hd : ∀ name, d'.get? name = if name = fileName key then
      some (.file (Json.renderPretty r).toUTF8) else d.get? name) : d'.Holds (runs.insert key r) where
  file other := by
    rw [hd, TextMap.get?_insert]
    by_cases hother : other = key
    · simp [hother]
    · simp [hother, fileName_inj, h.file]
  nothingElse name hname := by rw [hd, if_neg (hname key), h.nothingElse name hname]
  valid other r' hother := by
    rw [TextMap.get?_insert] at hother
    split at hother
    · exact ‹other = key› ▸ hkey
    · exact h.valid other r' hother
  listable other r' hother := by
    rw [TextMap.get?_insert] at hother
    split at hother
    · exact Option.some.inj hother ▸ hr
    · exact h.listable other r' hother

theorem erase (h : d.Holds runs) {d' : Directory}
    (hd : ∀ name, d'.get? name = if name = fileName key then none else d.get? name) :
    d'.Holds (runs.erase key) where
  file other := by
    rw [hd, TextMap.get?_erase]
    by_cases hother : other = key
    · simp [hother]
    · simp [hother, fileName_inj, h.file]
  nothingElse name hname := by rw [hd, if_neg (hname key), h.nothingElse name hname]
  valid other r' hother := by
    rw [TextMap.get?_erase] at hother
    split at hother
    · cases hother
    · exact h.valid other r' hother
  listable other r' hother := by
    rw [TextMap.get?_erase] at hother
    split at hother
    · cases hother
    · exact h.listable other r' hother

theorem readRun_eq_ok (h : d.Holds runs) (hr : runs.get? key = some r) :
    readRun d key = .ok r := by
  have hfile : d.get? (fileName key) = some (.file (Json.renderPretty r).toUTF8) := by
    rw [h.file, hr, Option.map_some]
  rw [readRun_of_document hfile, Run.restore_renderPretty r (h.listable key r hr)]
  rfl

end Holds
end Directory

namespace FileArchive
variable {a : FileArchive} {d : Directory} {runs : TextMap Run} {key : String} {r : Run}

/-- An archive that knows the runs which its directory holds. -/
structure Keeps (a : FileArchive) (runs : TextMap Run) : Prop where
  known : a.known = runs
  holds : a.directory.Holds runs

/-- An archive that is opened on a directory knows the runs which this holds. -/
theorem ofDirectory_keeps (h : d.Holds runs) (durable : Bool) :
    (ofDirectory d durable).Keeps runs := by
  refine ⟨TextMap.eq_of_get? fun key => ?_, (ofDirectory_rest d durable).1.symm ▸ h⟩
  rw [ofDirectory_known]
  cases hr : runs.get? key with
  | some r => rw [stored?, if_pos (h.valid key r hr), h.readRun_eq_ok hr, Except.toOption]
  | none => exact stored?_of_missing (by rw [h.file, hr, Option.map_none])

namespace Keeps

theorem load_eq (h : a.Keeps runs) (key : String) :
    a.load key = (MemoryArchive.load ⟨runs⟩ key, a) := by
  rw [load, MemoryArchive.load]
  cases checkArchiveKey key with
  | error f => rfl
  | ok u =>
    rw [h.known]
    cases hr : runs.get? key with
    | some r => rfl
    | none =>
      have hfile : a.directory.has (fileName key) = false := by
        simp [Directory.has, h.holds.file, hr]
      simp only [hfile]
      rfl

theorem save_eq (h : a.Keeps runs) (hdot : key ≠ ".") (hzero : '\x00' ∉ key.toList)
    (hsize : (fileName key).utf8ByteSize ≤ Directory.maxNameBytes)
    (hr : r.watermarks.IsListable) :
    (a.save key r).1 = (MemoryArchive.save ⟨runs⟩ key r).1 ∧
      (a.save key r).2.Keeps (MemoryArchive.save ⟨runs⟩ key r).2.runs := by
  rw [save, saveOn, MemoryArchive.save]
  cases hcheck : checkArchiveKey key with
  | error f => exact ⟨rfl, h⟩
  | ok u =>
    have hvalid := isArchiveKey_of_check hcheck
    obtain ⟨d', hrun, hd'⟩ := h.holds.run_saveSteps a.durable (Json.renderPretty r).toUTF8
      (Directory.checkName_names hvalid hdot hzero hsize)
    rw [hrun]
    exact ⟨rfl, congrArg (·.insert key r) h.known, h.holds.insert hvalid hr hd'⟩

theorem delete_eq (h : a.Keeps runs) (key : String) :
    (a.delete key).1 = (MemoryArchive.delete ⟨runs⟩ key).1 ∧
      (a.delete key).2.Keeps (MemoryArchive.delete ⟨runs⟩ key).2.runs := by
  rw [delete, MemoryArchive.delete]
  cases checkArchiveKey key with
  | error f => exact ⟨rfl, h⟩
  | ok u =>
    have hfile := h.holds.file key
    have hknown := congrArg (·.erase key) h.known
    cases hr : runs.get? key with
    | none =>
      replace hfile : a.directory.get? (fileName key) = none := by rw [hfile, hr]; rfl
      have hstays (name : String) : a.directory.get? name =
          if name = fileName key then none else a.directory.get? name := by
        by_cases hname : name = fileName key
        · rw [if_pos hname, hname, hfile]
        · rw [if_neg hname]
      simp only [Directory.has, hfile]
      exact ⟨rfl, hknown, h.holds.erase hstays⟩
    | some r =>
      rw [hr, Option.map_some] at hfile
      simp only [Directory.has, Directory.remove, hfile]
      exact ⟨rfl, hknown, h.holds.erase fun name => TextMap.get?_erase _ _ _⟩

/-- Any call but saving under `.` is answered as in memory, and leaves what memory holds. -/
theorem answer_eq {m : MemoryArchive} {c : ArchiveCall} (h : a.Keeps m.runs) (hc : c.IsStorable)
    (hdot : c.savesDot = false) :
    (a.answer c).1 = (m.answer c).1 ∧ (a.answer c).2.Keeps (m.answer c).2.runs := by
  cases c with
  | save key r =>
    obtain ⟨hzero, hsize, hr⟩ := hc
    obtain ⟨hanswer, hkeeps⟩ := h.save_eq (of_decide_eq_false hdot) hzero hsize hr
    exact ⟨congrArg ArchiveAnswer.done hanswer, hkeeps⟩
  | load key =>
    simp only [FileArchive.answer, MemoryArchive.answer, h.load_eq]
    exact ⟨rfl, h⟩
  | delete key =>
    obtain ⟨hanswer, hkeeps⟩ := h.delete_eq key
    exact ⟨congrArg ArchiveAnswer.done hanswer, hkeeps⟩
  | list => exact ⟨congrArg (fun runs : TextMap Run => ArchiveAnswer.keys runs.keys) h.known, h⟩
  | reopen durable => exact ⟨rfl, ofDirectory_keeps h.holds durable⟩

end Keeps

/-- Nothing can be written to the temporary file of the key `.`, so that saving under it fails. -/
theorem answer_savesDot (a : FileArchive) {c : ArchiveCall} (h : c.savesDot = true) :
    (∃ kind what, (a.answer c).1.failure? = some (.io kind what)) ∧ (a.answer c).2 = a := by
  cases c with
  | save key r =>
    obtain rfl : key = "." := of_decide_eq_true h
    exact ⟨⟨_, _, rfl⟩, rfl⟩
  | load | delete | list | reopen => cases h

theorem transcript_eq {calls : List ArchiveCall} {m : MemoryArchive} (h : a.Keeps m.runs)
    (hcalls : ∀ c ∈ calls, c.IsStorable) :
    (ArchiveCall.transcript FileArchive.answer a calls).filter (fun e => !e.1.savesDot) =
        ArchiveCall.transcript MemoryArchive.answer m (calls.filter fun c => !c.savesDot) ∧
      (∀ e ∈ ArchiveCall.transcript FileArchive.answer a calls, e.1.savesDot = true →
        ∃ kind what, e.2.failure? = some (.io kind what)) ∧
      (ArchiveCall.after FileArchive.answer a calls).Keeps
        (ArchiveCall.after MemoryArchive.answer m (calls.filter fun c => !c.savesDot)).runs := by
  induction calls generalizing a m with
  | nil => exact ⟨rfl, List.forall_mem_nil _, h⟩
  | cons c calls ih =>
    have hrest : ∀ c ∈ calls, c.IsStorable := fun c hc => hcalls c (List.mem_cons_of_mem _ hc)
    cases hdot : c.savesDot with
    | true =>
      obtain ⟨hfails, hsame⟩ := a.answer_savesDot hdot
      obtain ⟨htold, hrefused, hkeeps⟩ := ih h hrest
      simp only [ArchiveCall.transcript, ArchiveCall.after, List.foldl_cons, List.filter_cons, hdot,
        hsame, Bool.not_true, Bool.false_eq_true, if_false]
      refine ⟨htold, fun e he => ?_, hkeeps⟩
      rcases List.mem_cons.1 he with rfl | he
      · exact fun _ => hfails
      · exact hrefused e he
    | false =>
      obtain ⟨hanswer, hnext⟩ := h.answer_eq (hcalls c List.mem_cons_self) hdot
      obtain ⟨htold, hrefused, hkeeps⟩ := ih hnext hrest
      simp only [ArchiveCall.transcript, ArchiveCall.after, List.foldl_cons, List.filter_cons, hdot,
        Bool.not_false, if_true]
      refine ⟨?_, fun e he => ?_, hkeeps⟩
      · rw [← hanswer]
        exact congrArg _ htold
      · rcases List.mem_cons.1 he with rfl | he
        · intro hsaves
          exact absurd (hdot.symm.trans hsaves) Bool.false_ne_true
        · exact hrefused e he

/-- A key that is not valid is refused by both archives in the same words, and changes neither. -/
theorem answer_invalid (a : FileArchive) (m : MemoryArchive) {c : ArchiveCall}
    (hkey : c.key? = some key) (h : isArchiveKey key = false) :
    (a.answer c).1 = (m.answer c).1 ∧ (a.answer c).2 = a ∧ (m.answer c).2 = m ∧
      (m.answer c).1.failure? = some (.config ("invalid context key '" ++ key ++ "'")) := by
  have hcheck : checkArchiveKey key = .error (.config ("invalid context key '" ++ key ++ "'")) := by
    simp [checkArchiveKey, h]
  cases c with
  | save other r =>
    obtain rfl : other = key := Option.some.inj hkey
    simp [FileArchive.answer, MemoryArchive.answer, save, saveOn, MemoryArchive.save, hcheck,
      ArchiveAnswer.failure?]
  | load other =>
    obtain rfl : other = key := Option.some.inj hkey
    simp [FileArchive.answer, MemoryArchive.answer, load, MemoryArchive.load, hcheck,
      ArchiveAnswer.failure?, Except.map]
  | delete other =>
    obtain rfl : other = key := Option.some.inj hkey
    simp [FileArchive.answer, MemoryArchive.answer, delete, MemoryArchive.delete, hcheck,
      ArchiveAnswer.failure?]
  | list | reopen => cases hkey

/-- However often the directory of an archive is opened anew, durably or not, the archive answers
every call as one in memory does that is not told to save under `.`: saving under `.` fails and
changes nothing. In the end the directory holds one file for each run in memory and nothing else.
Invalid keys are refused alike and change nothing, and two keys never share a file. -/
theorem answers_asMemory (durable : Bool) {calls : List ArchiveCall}
    (h : ∀ c ∈ calls, c.IsStorable) :
    let told := ArchiveCall.transcript FileArchive.answer (ofDirectory {} durable) calls
    let heard := calls.filter fun c => !c.savesDot
    told.filter (fun e => !e.1.savesDot) = ArchiveCall.transcript MemoryArchive.answer {} heard ∧
      (∀ e ∈ told, e.1.savesDot = true → ∃ kind what, e.2.failure? = some (.io kind what)) ∧
      (ArchiveCall.after FileArchive.answer (ofDirectory {} durable) calls).Keeps
        (ArchiveCall.after MemoryArchive.answer {} heard).runs ∧
      (∀ (a : FileArchive) (m : MemoryArchive) (c : ArchiveCall) (key : String),
        c.key? = some key → isArchiveKey key = false →
          (a.answer c).1 = (m.answer c).1 ∧ (a.answer c).2 = a ∧ (m.answer c).2 = m ∧
            (m.answer c).1.failure? = some (.config ("invalid context key '" ++ key ++ "'"))) ∧
      ∀ key other : String, fileName key ≠ draftName other ∧
        (key ≠ other → fileName key ≠ fileName other ∧ draftName key ≠ draftName other) := by
  have hempty : Directory.Holds {} .empty :=
    ⟨fun _ => rfl, fun _ _ => rfl, fun _ _ hr => (nomatch hr), fun _ _ hr => (nomatch hr)⟩
  obtain ⟨htold, hrefused, hkeeps⟩ :=
    transcript_eq (m := {}) (ofDirectory_keeps hempty durable) h
  refine ⟨htold, hrefused, hkeeps, fun a m c key hkey hinvalid => a.answer_invalid m hkey hinvalid,
    fun key other => ⟨fileName_ne_draftName, fun hne => ⟨?_, ?_⟩⟩⟩
  · exact fun hname => hne (fileName_inj.1 hname)
  · exact fun hname => hne (draftName_inj hname)

def dottedCalls : List ArchiveCall :=
  [.save "a" .laden, .save "a.tmp" .laden, .save "a.json" .laden, .delete "a", .reopen false,
    .load "a.tmp", .save "." .laden, .save "../a" .laden, .load ".", .reopen true, .list]

theorem dottedCalls_asMemory : (∀ c ∈ dottedCalls, c.IsStorable) ∧
    let told := ArchiveCall.transcript FileArchive.answer (ofDirectory {} true) dottedCalls
    let heard := dottedCalls.filter fun c => !c.savesDot
    told.filter (fun e => !e.1.savesDot) = ArchiveCall.transcript MemoryArchive.answer {} heard := by
  have hstorable : ∀ c ∈ dottedCalls, c.IsStorable := by
    have hsave (key : String) (hzero : '\x00' ∉ key.toList)
        (hsize : (fileName key).utf8ByteSize ≤ Directory.maxNameBytes) :
        (ArchiveCall.save key .laden).IsStorable := ⟨hzero, hsize, Run.laden_isListable⟩
    simp only [dottedCalls, List.forall_mem_cons]
    refine ⟨hsave _ (by decide) (by decide), hsave _ (by decide) (by decide),
      hsave _ (by decide) (by decide), trivial, trivial, trivial, hsave _ (by decide) (by decide),
      hsave _ (by decide) (by decide), trivial, trivial, trivial, List.forall_mem_nil _⟩
  exact ⟨hstorable, (answers_asMemory true hstorable).1⟩

/-- The archive in memory keeps a run under `.`, the archive of files refuses it. -/
theorem dot_refused : (ArchiveCall.save "." .laden).IsStorable ∧
    ArchiveCall.transcript FileArchive.answer (ofDirectory {} true) [.save "." .laden] ≠
      ArchiveCall.transcript MemoryArchive.answer {} [.save "." .laden] := by
  refine ⟨⟨by decide, by decide, Run.laden_isListable⟩, fun heq => ?_⟩
  have hfailures := congrArg (List.map fun e => e.2.failure?) heq
  revert hfailures
  decide

end FileArchive

end Backfill

import EllohimMQ.Lib.Transition
import EllohimMQ.Proof.BackupNames

/-!
# Log rotation

A start moves the log to the backup folder and begins a new one.  Where nothing stands in the way
(`Settled`), both succeed, and only the log, the folder and the one backup change (`createBackup_spec`).
The name of the backup is the only thing that ties it to the log: it is a new one when the local second
of the log's last write is (`Apart`).
-/

namespace EllohimMQ

open Logger

variable {fs : FileSystem LogFile} {file : FilePath}

/-! ## Places -/

/-- The folder of the log. -/
def logFolder (fs : FileSystem LogFile) (file : FilePath) : List Str := fs.locate file.parentPath

/-- The place of the log. -/
def logPlace (fs : FileSystem LogFile) (file : FilePath) : List Str :=
  logFolder fs file ++ [file.filename]

/-- The folder of the backups. -/
def backupFolder (fs : FileSystem LogFile) (file : FilePath) : List Str :=
  logFolder fs file ++ [bytes "backup"]

/-- The place of the backup of a log that was last written at a local time. -/
def backupPlace (fs : FileSystem LogFile) (file : FilePath) (tm : Tm) : List Str :=
  backupFolder fs file ++ [backupName tm file.filename]

/-- The log can be written and moved: its folder is there; its name is a name, and not the one of the
backup folder; and no directory stands in its place or in the place of a backup. -/
structure Settled (fs : FileSystem LogFile) (file : FilePath) : Prop where
  folder : fs.tree.lookup (fs.start file) (file.parentPath.names.map component) = some .dir
  proper : component file.filename = .down file.filename
  name : file.filename ≠ bytes "backup"
  log : fs.tree.node (logPlace fs file) ≠ some .dir
  backups : ∀ name, fs.tree.node (backupFolder fs file ++ [name]) ≠ some .dir

namespace Settled

variable (h : Settled fs file)
include h

theorem walk_folder : fs.tree.walk (fs.start file) (file.parentPath.names.map component) =
    some (logFolder fs file) := (FileTree.lookup_eq_some_iff.1 h.folder).1

theorem dir_folder : fs.tree.node (logFolder fs file) = some .dir :=
  (FileTree.lookup_eq_some_iff.1 h.folder).2

theorem names_eq : file.names = file.parentPath.names ++ [file.filename] := by
  cases hlast : file.names.getLast? with
  | none =>
    have hproper := h.proper
    rw [FilePath.filename, hlast] at hproper
    cases hproper
  | some name =>
    rw [FilePath.filename, hlast]
    exact (List.dropLast_append_getLast? name hlast).symm

theorem isEmpty_eq_false : file.isEmpty = false := by
  rw [FilePath.isEmpty, h.names_eq]
  simp

theorem walk_log {t : FileTree Str LogFile}
    (hdirs : ∀ loc, fs.tree.node loc = some .dir → t.node loc = some .dir) :
    t.walk (fs.start file) (file.names.map component) = some (logPlace fs file) := by
  rw [h.names_eq, List.map_append, FileTree.walk_append, FileTree.walk_mono hdirs h.walk_folder,
    Option.bind_some, List.map_singleton, h.proper, FileTree.walk,
    if_pos (FileTree.isDir_iff.2 (hdirs _ h.dir_folder))]
  rfl

theorem status_eq : fs.status file = fs.tree.node (logPlace fs file) := by
  rw [FileSystem.status, h.isEmpty_eq_false, if_neg Bool.false_ne_true, FileTree.lookup,
    h.walk_log fun _ => id, Option.bind_some]

end Settled

/-! ## The move to the backup folder -/

/-- Empty names do not change where a path leads. -/
theorem walk_filter {t : FileTree Str LogFile} {loc loc' : List Str} {names : List Str}
    (h : t.walk loc (names.map component) = some loc') :
    t.walk loc ((names.filter (· ≠ [])).map component) = some loc' := by
  induction names generalizing loc with
  | nil => exact h
  | cons name names ih =>
    rw [List.map_cons, FileTree.walk] at h
    split_ifs at h with hdir
    by_cases hname : name = []
    · rw [hname] at h
      rw [hname, List.filter_cons_of_neg (by simp)]
      exact ih h
    · rw [List.filter_cons_of_pos (by simpa using hname), List.map_cons, FileTree.walk, if_pos hdir]
      exact ih h

/-- The folder that the backups are moved to, as the code writes it. -/
def backupParent (file : FilePath) : FilePath :=
  { file.parentPath with
    names := file.parentPath.names.filter (· ≠ []) ++ [bytes ".", bytes "backup"] }

section Move

variable {name : Str}

theorem destination_backup (hsep : 47 ∉ name) (hne : name ≠ []) :
    FileSystem.destination file (.parse .posix (bytes "./backup/" ++ name)) =
      { backupParent file with names := (backupParent file).names ++ [name] } := by
  rw [FileSystem.destination, parse_backup hsep hne]
  simp [FilePath.isAbsolute, FilePath.append, backupParent]

theorem component_of_mem (hname : 95 ∈ name) : component name = .down name := by
  rw [component, if_neg, if_neg]
  · rintro rfl
    exact absurd hname (by decide)
  · rintro (rfl | rfl) <;> exact absurd hname (by decide)

theorem map_component_backupParent : (backupParent file).names.map component =
    (file.parentPath.names.filter (· ≠ [])).map component ++
      [.here, .down (bytes "backup")] := by
  rw [backupParent, List.map_append]
  rfl

theorem Settled.walk_backup (h : Settled fs file) {t : FileTree Str LogFile}
    (hdirs : ∀ loc, fs.tree.node loc = some .dir → t.node loc = some .dir)
    (path : List (Component Str)) :
    t.walk (fs.start file) ((backupParent file).names.map component ++ path) =
      t.walk (backupFolder fs file) path := by
  have hfolder := FileTree.isDir_iff.2 (hdirs _ h.dir_folder)
  rw [map_component_backupParent, List.append_assoc, FileTree.walk_append,
    FileTree.walk_mono hdirs (walk_filter h.walk_folder), Option.bind_some]
  change t.walk (logFolder fs file) (.here :: .down (bytes "backup") :: path) = _
  rw [FileTree.walk, if_pos hfolder, FileTree.next, FileTree.walk, if_pos hfolder]
  rfl

theorem backupParent_isEmpty (file : FilePath) : (backupParent file).isEmpty = false := by
  simp [FilePath.isEmpty, backupParent]

theorem Settled.status_backupParent (h : Settled fs file) :
    fs.status (backupParent file) = fs.tree.node (backupFolder fs file) := by
  have hwalk := h.walk_backup (fun _ => id) []
  rw [List.append_nil] at hwalk
  rw [FileSystem.status, backupParent_isEmpty, if_neg Bool.false_ne_true, FileTree.lookup]
  exact congrArg (fun o => o.bind fs.tree.node) hwalk

/-- The backup folder is made where it is missing, and nothing else. -/
theorem Settled.createDirectories_backup (h : Settled fs file) {t : FileTree Str LogFile}
    (hdirs : ∀ loc, fs.tree.node loc = some .dir → t.node loc = some .dir)
    (hfree : ∀ a, t.node (backupFolder fs file) ≠ some (.file a)) :
    ∃ t', { fs with tree := t }.createDirectories (backupParent file) =
        ({ fs with tree := t' }, true) ∧
      t'.node = Function.update t.node (backupFolder fs file) (some .dir) := by
  obtain ⟨t', hmade, hnode⟩ :=
    FileTree.createDirectories_child (hdirs _ h.dir_folder) hfree
  refine ⟨t', ?_, hnode⟩
  have happend : t.createDirectories ({ fs with tree := t }.start (backupParent file))
      ((backupParent file).names.map component) = (t', true) := by
    rw [map_component_backupParent, ← hmade]
    exact FileTree.createDirectories_append (FileTree.walk_mono hdirs (walk_filter h.walk_folder))
      (hdirs _ h.dir_folder)
  rw [FileSystem.createDirectories, backupParent_isEmpty, if_neg Bool.false_ne_true, happend]

theorem Settled.ensureFolderExists_backup (h : Settled fs file) :
    ∃ t, fs.ensureFolderExists (backupParent file) =
        ({ fs with tree := t }, some (backupParent file)) ∧
      t.node = Function.update fs.tree.node (backupFolder fs file) (some .dir) := by
  have hstatus := h.status_backupParent
  cases hnode : fs.tree.node (backupFolder fs file) with
  | none =>
    rw [hnode] at hstatus
    obtain ⟨t, hmade, ht⟩ := h.createDirectories_backup (fun _ => id) (by simp [hnode])
    refine ⟨t, ?_, ht⟩
    rw [FileSystem.ensureFolderExists_none hstatus, hmade]
    rfl
  | some x =>
    rw [hnode] at hstatus
    cases x with
    | file a =>
      have hplace : fs.locate (backupParent file) = backupFolder fs file := by
        have hwalk := h.walk_backup (fun _ => id) []
        rw [List.append_nil] at hwalk
        exact FileTree.walk_eq_some hwalk
      have hdirs : ∀ loc, fs.tree.node loc = some .dir →
          (fs.tree.unlink (backupFolder fs file)).node loc = some .dir := fun loc hdir =>
        FileTree.unlink_dir_iff.2 hdir
      obtain ⟨t, hmade, ht⟩ := h.createDirectories_backup hdirs fun b hb =>
        (FileTree.unlink_file_iff.1 hb).1 rfl
      refine ⟨t, ?_, ?_⟩
      · rw [FileSystem.ensureFolderExists_file hstatus, FileSystem.remove_file hstatus, hplace, hmade]
        rfl
      · rw [ht]
        funext loc
        by_cases hloc : loc = backupFolder fs file
        · rw [hloc, Function.update_self, Function.update_self]
        · rw [Function.update_of_ne hloc, Function.update_of_ne hloc]
          exact if_neg fun hat => hloc hat.1
    | dir =>
      rw [FileSystem.ensureFolderExists_dir hstatus]
      refine ⟨fs.tree, rfl, ?_⟩
      rw [← hnode, Function.update_eq_self]

theorem logPlace_ne_backupFolder (h : Settled fs file) :
    logPlace fs file ≠ backupFolder fs file := fun heq =>
  h.name (List.cons.inj (List.append_cancel_left heq)).1

theorem backupFolder_append_ne (fs : FileSystem LogFile) (file : FilePath) (name : Str) :
    backupFolder fs file ++ [name] ≠ logPlace fs file ∧
      backupFolder fs file ++ [name] ≠ backupFolder fs file := by
  constructor <;> intro heq <;> replace heq := congrArg List.length heq <;>
    simp [backupFolder, logPlace] at heq

end Move

/-- What may have changed when a start begins its log: the log of before is the backup with the time
`time`, if it was moved; its place is free; and the backup folder may be there. -/
structure Rotated (fs : FileSystem LogFile) (file : FilePath) (time : Option Tm)
    (t : FileTree Str LogFile) : Prop where
  backup : ∀ tm ∈ time, ∀ a, fs.tree.node (logPlace fs file) = some (.file a) →
    t.node (backupPlace fs file tm) = some (.file a)
  rest : ∀ loc, loc ≠ logPlace fs file → loc ≠ backupFolder fs file →
    (∀ tm ∈ time, loc ≠ backupPlace fs file tm) → t.node loc = fs.tree.node loc
  dirs : ∀ loc, fs.tree.node loc = some .dir → t.node loc = some .dir
  log : t.node (logPlace fs file) ≠ some .dir

/-- The log is renamed, after the backup folder has been made. -/
theorem Rotated.rename {t t' : FileTree Str LogFile} {tm : Tm} {a : LogFile}
    (ht : t.node = Function.update fs.tree.node (backupFolder fs file) (some .dir))
    (hdirs : ∀ loc, fs.tree.node loc = some .dir → t.node loc = some .dir)
    (hlog : fs.tree.node (logPlace fs file) = some (.file a))
    (hlogt : t.node (logPlace fs file) = some (.file a))
    (hrename : t.rename (logPlace fs file) (backupPlace fs file tm) = some t') :
    Rotated fs file (some tm) t' where
  backup tm' htm a' ha' := by
    obtain rfl := Option.some.inj htm
    rw [hlog] at ha'
    exact ha' ▸ (FileTree.node_rename hlogt hrename).1
  rest loc hold hfolder hnew := by
    rw [(FileTree.node_rename hlogt hrename).2 loc hold (hnew tm rfl), ht,
      Function.update_of_ne hfolder]
  dirs loc hdir := FileTree.dir_rename hlogt hrename (hdirs loc hdir)
  log := FileTree.node_rename_old hlogt hrename

theorem Settled.walk_backupPlace (h : Settled fs file) {t : FileTree Str LogFile}
    (hdirs : ∀ loc, fs.tree.node loc = some .dir → t.node loc = some .dir)
    (hbackup : t.node (backupFolder fs file) = some .dir) (tm : Tm) :
    t.walk (fs.start file)
        (((backupParent file).names ++ [backupName tm file.filename]).map component) =
      some (backupPlace fs file tm) := by
  rw [List.map_append, h.walk_backup hdirs, List.map_singleton,
    component_of_mem (mem_backupName tm file.filename), FileTree.walk,
    if_pos (FileTree.isDir_iff.2 hbackup)]
  rfl

/-- The log is moved; besides, only the backup folder is touched. -/
theorem Settled.move_backup (h : Settled fs file) (hsep : 47 ∉ file.filename) (tm : Tm) {a : LogFile}
    (hlog : fs.tree.node (logPlace fs file) = some (.file a)) :
    ∃ t p, fs.move file
        (.parse .posix (bytes "./backup/" ++ backupName tm file.filename)) =
          ({ fs with tree := t }, some p) ∧ Rotated fs file (some tm) t := by
  obtain ⟨t, hensure, ht⟩ := h.ensureFolderExists_backup
  have hdirs : ∀ loc, fs.tree.node loc = some .dir → t.node loc = some .dir := fun loc hdir => by
    rw [ht, Function.update_apply]
    split_ifs
    · rfl
    · exact hdir
  have hbackup : t.node (backupFolder fs file) = some .dir := by rw [ht, Function.update_self]
  have hlogt : t.node (logPlace fs file) = some (.file a) := by
    rw [ht, Function.update_of_ne (logPlace_ne_backupFolder h)]
    exact hlog
  have hstatus : ({ fs with tree := t } : FileSystem LogFile).status file = some (.file a) := by
    rw [FileSystem.status, h.isEmpty_eq_false, if_neg Bool.false_ne_true, FileTree.lookup]
    exact (congrArg (fun o => o.bind t.node) (h.walk_log hdirs)).trans hlogt
  obtain ⟨t', hrename⟩ : ∃ t', t.rename (logPlace fs file) (backupPlace fs file tm) = some t' := by
    apply FileTree.exists_rename hlogt
    · rw [backupPlace, ht, Function.update_of_ne (backupFolder_append_ne fs file _).2]
      exact h.backups _
    · rwa [backupPlace, List.dropLast_concat]
  refine ⟨t', { backupParent file with
    names := (backupParent file).names ++ [backupName tm file.filename] }, ?_,
    .rename ht hdirs hlog hlogt hrename⟩
  apply FileSystem.move_eq_some
  · exact destination_backup (notMem_backupName hsep)
      (List.ne_nil_of_mem (mem_backupName tm file.filename))
  · rw [FilePath.parentPath, List.dropLast_concat]
    exact hensure
  · exact FileSystem.exists'_iff.2 ⟨_, hstatus⟩
  · exact FileSystem.rename_eq_some { fs with tree := t } h.isEmpty_eq_false
      (by simp [FilePath.isEmpty]) (h.walk_log hdirs) (h.walk_backupPlace hdirs hbackup tm) hrename

/-! ## A start -/

section Start

variable {t : FileTree Str LogFile} {time : Option Tm}

theorem Settled.put_log (h : Settled fs file)
    (hdirs : ∀ loc, fs.tree.node loc = some .dir → t.node loc = some .dir)
    (hlog : t.node (logPlace fs file) ≠ some .dir) (a : LogFile) :
    ∃ t', ({ fs with tree := t } : FileSystem LogFile).put file a = some { fs with tree := t' } ∧
      t'.node = Function.update t.node (logPlace fs file) (some (.file a)) := by
  obtain ⟨t', hput, ht'⟩ := FileTree.exists_put a
    (by rw [logPlace, List.dropLast_concat]; exact hdirs _ h.dir_folder) hlog
  refine ⟨t', ?_, ht'⟩
  rw [FileSystem.put, h.isEmpty_eq_false, if_neg Bool.false_ne_true]
  change ((t.walk (fs.start file) (file.names.map component)).bind fun loc =>
    (t.put loc a).map fun tree => ({ fs with tree } : FileSystem LogFile)) = _
  rw [h.walk_log hdirs, Option.bind_some, hput, Option.map_some]

theorem Rotated.put (h : Settled fs file) (hr : Rotated fs file time t) {a : LogFile}
    {t' : FileTree Str LogFile}
    (ht' : t'.node = Function.update t.node (logPlace fs file) (some (.file a))) :
    Rotated fs file time t' where
  backup tm htm b hb := by
    have hne : backupPlace fs file tm ≠ logPlace fs file := (backupFolder_append_ne fs file _).1
    rw [ht', Function.update_of_ne hne]
    exact hr.backup tm htm b hb
  rest loc hlog hfolder hbackup := by
    rw [ht', Function.update_of_ne hlog]
    exact hr.rest loc hlog hfolder hbackup
  dirs loc hdir := by
    have hlog : loc ≠ logPlace fs file := by
      rintro rfl
      exact h.log hdir
    rw [ht', Function.update_of_ne hlog]
    exact hr.dirs loc hdir
  log := by
    rw [ht', Function.update_self]
    nofun

theorem Settled.createBackup_spec (h : Settled fs file) (hsep : 47 ∉ file.filename)
    (localtime : ℤ → Tm) (dirTime : ℤ) (s : Start) :
    ∃ t, createBackup localtime dirTime fs file s = ({ fs with tree := t }, true) ∧
      Rotated fs file (backupTime localtime dirTime fs file s) t := by
  cases hlog : fs.tree.node (logPlace fs file) with
  | none =>
    have htime : backupTime localtime dirTime fs file s = none := by
      rw [backupTime, h.status_eq, hlog]
      rfl
    rw [createBackup, htime]
    exact ⟨fs.tree, rfl, nofun, fun _ _ _ _ => rfl, fun _ => id, h.log⟩
  | some x =>
    cases x with
    | dir => exact absurd hlog h.log
    | file a =>
      have htime : backupTime localtime dirTime fs file s =
          some (localtime (toTimeT a.lastWrite s)) := by
        rw [backupTime, h.status_eq, hlog]
        rfl
      obtain ⟨t, p, hmove, hr⟩ := h.move_backup hsep (localtime (toTimeT a.lastWrite s)) hlog
      rw [createBackup, htime]
      refine ⟨t, ?_, hr⟩
      dsimp only
      rw [hmove]
      rfl

end Start

namespace LogHistory

variable {localtime : ℤ → Tm} {dirTime : ℤ} {h : LogHistory}

theorem step_spec (hs : Settled h.fs file) (hsep : 47 ∉ file.filename) (localtime : ℤ → Tm)
    (dirTime : ℤ) (s : Start) :
    ∃ t, step localtime dirTime file h s = some
        { fs := { h.fs with tree := t }
          earlier := h.earlier ++ h.current.toList
          current := some s.contents
          seconds :=
            if h.current.isSome then
              (backupTime localtime dirTime h.fs file s).toList ++ h.seconds
            else h.seconds } ∧
      Rotated h.fs file (backupTime localtime dirTime h.fs file s) t ∧
      t.node (logPlace h.fs file) =
        some (.file { contents := s.contents, lastWrite := s.lastWrite }) := by
  obtain ⟨t₁, hbackup, hr₁⟩ := hs.createBackup_spec hsep localtime dirTime s
  obtain ⟨t₂, hopen, ht₂⟩ := hs.put_log hr₁.dirs hr₁.log { contents := [], lastWrite := s.fileNow }
  have hr₂ := hr₁.put hs ht₂
  obtain ⟨t₃, hwrite, ht₃⟩ := hs.put_log hr₂.dirs hr₂.log
    { contents := s.contents, lastWrite := s.lastWrite }
  have hinit : initImpl localtime dirTime .fresh h.fs file s =
      ({ file, initialized := true }, { h.fs with tree := t₂ }, true) := by
    simp only [initImpl, fresh, hbackup, hopen]
    rfl
  refine ⟨t₃, ?_, hr₂.put hs ht₃, by rw [ht₃, Function.update_self]⟩
  rw [step, hinit]
  dsimp only
  rw [hwrite]

/-! ## Runs -/

/-- The contents of the logs of all starts but the last are in the backup folder. -/
def Kept (file : FilePath) (h : LogHistory) : Prop :=
  ∀ c ∈ h.earlier, ∃ name a,
    h.fs.tree.node (backupFolder h.fs file ++ [name]) = some (.file a) ∧ a.contents = c

/-- The log was last written at another local second than the logs of all starts before. -/
def Apart (localtime : ℤ → Tm) (dirTime : ℤ) (file : FilePath) (h : LogHistory) (s : Start) : Prop :=
  ∀ tm ∈ backupTime localtime dirTime h.fs file s, tm ∉ h.seconds

instance (localtime : ℤ → Tm) (dirTime : ℤ) (file : FilePath) (h : LogHistory) (s : Start) :
    Decidable (Apart localtime dirTime file h s) :=
  inferInstanceAs (Decidable (∀ tm ∈ backupTime localtime dirTime h.fs file s, tm ∉ h.seconds))

/-- The last log is in its place, and those before it are in the backup folder under their times. -/
structure Good (file : FilePath) (h : LogHistory) : Prop where
  settled : Settled h.fs file
  current : ∀ c ∈ h.current, ∃ a,
    h.fs.tree.node (logPlace h.fs file) = some (.file a) ∧ a.contents = c
  earlier : ∀ c ∈ h.earlier, ∃ tm ∈ h.seconds, ∃ a,
    h.fs.tree.node (backupPlace h.fs file tm) = some (.file a) ∧ a.contents = c

theorem Good.kept (hg : Good file h) : Kept file h := fun c hc => by
  obtain ⟨tm, -, a, ha, hcontents⟩ := hg.earlier c hc
  exact ⟨_, a, ha, hcontents⟩

theorem good_init (hs : Settled fs file) : Good file (init fs) := ⟨hs, nofun, nofun⟩

end LogHistory

/-- What a start leaves is settled again. -/
theorem Rotated.settled {t : FileTree Str LogFile} {time : Option Tm} (h : Settled fs file)
    (hr : Rotated fs file time t)
    (htime : ∀ tm ∈ time, ∃ a, fs.tree.node (logPlace fs file) = some (.file a)) :
    Settled { fs with tree := t } file where
  folder := FileTree.lookup_eq_some_iff.2
    ⟨FileTree.walk_mono hr.dirs h.walk_folder, hr.dirs _ h.dir_folder⟩
  proper := h.proper
  name := h.name
  log := hr.log
  backups name := by
    change t.node (backupFolder fs file ++ [name]) ≠ _
    obtain ⟨hlog, hfolder⟩ := backupFolder_append_ne fs file name
    by_cases hbackup : ∃ tm ∈ time, backupFolder fs file ++ [name] = backupPlace fs file tm
    · obtain ⟨tm, htm, heq⟩ := hbackup
      obtain ⟨a, ha⟩ := htime tm htm
      rw [heq, hr.backup tm htm a ha]
      nofun
    · push Not at hbackup
      rw [hr.rest _ hlog hfolder hbackup]
      exact h.backups name

namespace LogHistory

variable {localtime : ℤ → Tm} {dirTime : ℤ} {h h' : LogHistory} {s : Start}

theorem exists_log_of_backupTime (hs : Settled fs file) {tm : Tm}
    (htm : tm ∈ backupTime localtime dirTime fs file s) :
    ∃ a, fs.tree.node (logPlace fs file) = some (.file a) := by
  rw [backupTime, hs.status_eq] at htm
  cases hlog : fs.tree.node (logPlace fs file) with
  | none =>
    rw [hlog] at htm
    cases htm
  | some x =>
    cases x with
    | file a => exact ⟨a, rfl⟩
    | dir => exact absurd hlog hs.log

theorem backupPlace_inj {tm tm' : Tm} (h : backupPlace fs file tm = backupPlace fs file tm') :
    tm = tm' :=
  backupName_inj (List.cons.inj (List.append_cancel_left h)).1

/-- The files of the backup folder stay, the one with the name of the backup apart. -/
theorem step_rest (hs : Settled h.fs file) (hsep : 47 ∉ file.filename)
    (hstep : LogHistory.step localtime dirTime file h s = some h') :
    Settled h'.fs file ∧ ∀ name,
      (∀ tm ∈ backupTime localtime dirTime h.fs file s, name ≠ backupName tm file.filename) →
        h'.fs.tree.node (backupFolder h'.fs file ++ [name]) =
          h.fs.tree.node (backupFolder h.fs file ++ [name]) := by
  obtain ⟨t, hspec, hr, -⟩ := step_spec hs hsep localtime dirTime s
  obtain rfl := Option.some.inj (hspec.symm.trans hstep)
  refine ⟨hr.settled hs fun tm htm => exists_log_of_backupTime hs htm, fun name hname => ?_⟩
  obtain ⟨hlog, hfolder⟩ := backupFolder_append_ne h.fs file name
  exact hr.rest _ hlog hfolder fun tm htm heq =>
    hname tm htm (List.cons.inj (List.append_cancel_left heq)).1

theorem Good.step (hg : Good file h) (hsep : 47 ∉ file.filename)
    (hapart : Apart localtime dirTime file h s)
    (hstep : step localtime dirTime file h s = some h') : Good file h' := by
  obtain ⟨t, hspec, hr, hlog⟩ := step_spec hg.settled hsep localtime dirTime s
  obtain rfl := Option.some.inj (hspec.symm.trans hstep)
  refine ⟨hr.settled hg.settled fun tm htm => exists_log_of_backupTime hg.settled htm, ?_, ?_⟩
  · intro c hc
    obtain rfl := Option.some.inj hc
    exact ⟨_, hlog, rfl⟩
  · intro c hc
    rcases List.mem_append.1 hc with hc | hc
    · obtain ⟨tm, htm, a, ha, hcontents⟩ := hg.earlier c hc
      refine ⟨tm, ?_, a, ?_, hcontents⟩
      · dsimp only
        split_ifs
        · exact List.mem_append_right _ htm
        · exact htm
      · -- the backup of the last log has another name
        obtain ⟨hplace, hfolder⟩ := backupFolder_append_ne h.fs file (backupName tm file.filename)
        refine (hr.rest _ hplace hfolder fun tm' htm' heq => ?_).trans ha
        exact hapart tm' htm' (backupPlace_inj heq ▸ htm)
    · have hcurrent : h.current = some c := Option.mem_toList.1 hc
      obtain ⟨a, ha, hcontents⟩ := hg.current c hcurrent
      have htime : backupTime localtime dirTime h.fs file s =
          some (localtime (toTimeT a.lastWrite s)) := by
        rw [backupTime, hg.settled.status_eq, ha]
        rfl
      refine ⟨localtime (toTimeT a.lastWrite s), ?_, a, hr.backup _ htime a ha, hcontents⟩
      dsimp only
      rw [hcurrent, htime]
      exact List.mem_append_left _ (List.mem_singleton_self _)

/-- The logs of all starts before the last one are kept in a run in which each log was last written at
a local second of its own. -/
theorem kept_of_apart (localtime : ℤ → Tm) (dirTime : ℤ) (path : Str) (fs : FileSystem LogFile)
    (hs : Settled fs (.parse .posix path)) (starts : List Start)
    (hapart : Transition.Admissible (LogHistory.step localtime dirTime (.parse .posix path))
      (Apart localtime dirTime (.parse .posix path)) (init fs) starts)
    (hrun : Transition.run (LogHistory.step localtime dirTime (.parse .posix path)) (init fs) starts =
      some h) :
    Kept (.parse .posix path) h := by
  have hgood : Good (.parse .posix path) h :=
    hapart.invariant (fun _ _ _ hg hok hstep => hg.step notMem_filename hok hstep) (good_init hs) hrun
  exact hgood.kept

/-! ## Three starts in one second -/

/-- A file system with nothing in it. -/
def emptyRoot : FileSystem LogFile where
  tree :=
    { node := fun loc => if loc = [] then some .dir else none
      root := rfl
      parent := fun loc name hsome => by simp at hsome }
  currentPath := []

/-- `localtime` in the first days of 1970, in UTC. -/
def utc (t : ℤ) : Tm where
  tmSec := t.toNat % 60
  tmMin := t.toNat / 60 % 60
  tmHour := t.toNat / 3600 % 24
  tmMday := 1 + t.toNat / 86400
  tmMon := 0
  tmYear := 70

/-- The log in the current directory. -/
def coutLog : Str := bytes "./cout.log"

theorem settled_emptyRoot : Settled emptyRoot (.parse .posix coutLog) where
  folder := rfl
  proper := by decide
  name := by decide
  log := by decide
  backups name := nofun

/-- Three starts, an hour apart. -/
def hourly : List Start :=
  [{ fileNow := 0, systemNow := 0, contents := bytes "a", lastWrite := 1 },
    { fileNow := 3600000000000, systemNow := 3600000000000, contents := bytes "b",
      lastWrite := 3600000000001 },
    { fileNow := 7200000000000, systemNow := 7200000000000, contents := bytes "c",
      lastWrite := 7200000000001 }]

theorem kept_of_apart_hourly : Kept (.parse .posix coutLog)
    ((Transition.run (LogHistory.step utc 0 (.parse .posix coutLog)) (init emptyRoot) hourly).getD
      (init emptyRoot)) := by
  have hsome : (Transition.run (LogHistory.step utc 0 (.parse .posix coutLog)) (init emptyRoot)
      hourly).isSome = true := by decide +kernel
  exact kept_of_apart utc 0 coutLog emptyRoot settled_emptyRoot hourly (by decide +kernel)
    ((Option.eq_some_of_isSome hsome).trans (congrArg some (Option.get_eq_getD _)))

/-- The clocks do not go back. -/
def Ordered (starts : List Start) : Prop :=
  (∀ s ∈ starts, s.fileNow ≤ s.lastWrite) ∧
    starts.IsChain fun s s' => s.lastWrite ≤ s'.fileNow ∧ s.systemNow ≤ s'.systemNow

/-- The starts of a crash loop, which write their numbers. -/
def crashStart (n : ℕ) : Start :=
  { fileNow := 2 * n, systemNow := 2 * n, contents := digits n, lastWrite := 2 * n + 1 }

/-- What there is after `n` of them. -/
def crashed : ℕ → LogHistory
  | 0 => init emptyRoot
  | n + 1 =>
    (LogHistory.step utc 0 (.parse .posix coutLog) (crashed n) (crashStart n)).getD (crashed n)

theorem step_crashed (n : ℕ) : Settled (crashed n).fs (.parse .posix coutLog) ∧
    LogHistory.step utc 0 (.parse .posix coutLog) (crashed n) (crashStart n) =
      some (crashed (n + 1)) := by
  have hstep : ∀ n, Settled (crashed n).fs (.parse .posix coutLog) →
      LogHistory.step utc 0 (.parse .posix coutLog) (crashed n) (crashStart n) =
        some (crashed (n + 1)) := fun n hs => by
    obtain ⟨t, hspec, -⟩ := step_spec hs notMem_filename utc 0 (crashStart n)
    rw [crashed, hspec, Option.getD_some]
  induction n with
  | zero => exact ⟨settled_emptyRoot, hstep 0 settled_emptyRoot⟩
  | succ n ih =>
    have hs := (step_rest ih.1 notMem_filename ih.2).1
    exact ⟨hs, hstep (n + 1) hs⟩

/-- With three starts in one second the log of the first is replaced by that of the second. -/
theorem not_kept : ¬ ∀ (localtime : ℤ → Tm) (dirTime : ℤ) (path : Str) (fs : FileSystem LogFile)
    (starts : List Start) (h : LogHistory), Settled fs (.parse .posix path) → Ordered starts →
      Transition.run (LogHistory.step localtime dirTime (.parse .posix path)) (init fs) starts =
        some h → Kept (.parse .posix path) h := by
  intro hall
  have hrun : Transition.run (LogHistory.step utc 0 (.parse .posix coutLog)) (init emptyRoot)
      [crashStart 0, crashStart 1, crashStart 2] = some (crashed 3) := by
    simp only [Transition.run_cons, Transition.run_nil]
    rw [show init emptyRoot = crashed 0 from rfl, (step_crashed 0).2, Option.bind_some,
      (step_crashed 1).2, Option.bind_some, (step_crashed 2).2, Option.bind_some]
  have hordered : Ordered [crashStart 0, crashStart 1, crashStart 2] := by
    constructor
    · decide
    · simp [crashStart]
  obtain ⟨name, a, ha, hcontents⟩ := hall utc 0 coutLog emptyRoot _ (crashed 3) settled_emptyRoot
    hordered hrun (digits 0) (by decide)
  by_cases hname : name = backupName (utc 0) (bytes "cout.log")
  · have hlast : (crashed 3).fs.tree.node (backupFolder (crashed 3).fs (.parse .posix coutLog) ++
        [backupName (utc 0) (bytes "cout.log")]) =
          some (.file { contents := digits 1, lastWrite := 3 }) := by decide
    rw [hname, hlast] at ha
    obtain rfl := FileNode.file.inj (Option.some.inj ha)
    exact absurd hcontents (by decide)
  · -- no other name was ever given to a backup
    have htimes : ∀ n < 3, ∀ tm ∈ backupTime utc 0 (crashed n).fs (.parse .posix coutLog)
        (crashStart n), tm = utc 0 := by decide
    have hrest : ∀ n < 3, ∀ tm ∈ backupTime utc 0 (crashed n).fs (.parse .posix coutLog)
        (crashStart n), name ≠ backupName tm (FilePath.parse .posix coutLog).filename :=
      fun n hn tm htm heq => by
        obtain rfl := htimes n hn tm htm
        exact hname heq
    have hnode : ∀ n < 3, (crashed (n + 1)).fs.tree.node
        (backupFolder (crashed (n + 1)).fs (.parse .posix coutLog) ++ [name]) =
          (crashed n).fs.tree.node (backupFolder (crashed n).fs (.parse .posix coutLog) ++ [name]) :=
      fun n hn =>
        (step_rest (step_crashed n).1 notMem_filename (step_crashed n).2).2 name (hrest n hn)
    rw [hnode 2 (by decide), hnode 1 (by decide), hnode 0 (by decide)] at ha
    cases ha

end LogHistory

end EllohimMQ

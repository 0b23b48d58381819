import EllohimMQ.Model.FileManager

/-!
# The log and its backups

`logger/logger.cpp`: at the start of the program the log of the start before is moved to the folder
`backup`, under a name that is made of the local time of its last write, and a new log is begun.
`localtime` is a parameter; times are nanoseconds.
-/

namespace EllohimMQ

/-- A regular file: what it holds, and when it was last written, by the clock of the file system. -/
structure LogFile where
  contents : Str
  lastWrite : ℤ
  deriving DecidableEq

/-- The broken-down time of the C library. -/
structure Tm where
  tmSec : ℕ
  tmMin : ℕ
  tmHour : ℕ
  tmMday : ℕ
  tmMon : ℕ
  tmYear : ℤ
  deriving DecidableEq

/-- One start of the program: what the two clocks show when the log is set up, and what is written to
it until when. -/
structure Start where
  fileNow : ℤ
  systemNow : ℤ
  contents : Str
  lastWrite : ℤ
  deriving DecidableEq

/-! ## The name of a backup -/

/-- The decimal digits of a number. -/
def digits (n : ℕ) : Str := (Nat.toDigits 10 n).map Char.toUInt8

/-- `{:0>2}` -/
def formatTwo (n : ℕ) : Str := List.replicate (2 - (digits n).length) 48 ++ digits n

/-- `{}` -/
def formatInt (n : ℤ) : Str := if n < 0 then 45 :: digits n.natAbs else digits n.natAbs

/-- `{:0>2}-{:0>2}-{}-{:0>2}-{:0>2}-{:0>2}_{}` -/
def backupName (tm : Tm) (filename : Str) : Str :=
  formatTwo (tm.tmMon + 1) ++ 45 :: (formatTwo tm.tmMday ++ 45 :: (formatInt (tm.tmYear + 1900) ++
    45 :: (formatTwo tm.tmHour ++ 45 :: (formatTwo tm.tmMin ++ 45 :: (formatTwo tm.tmSec ++
      95 :: filename)))))

/-- `to_time_t`, of a time of the file clock -/
def toTimeT (tp : ℤ) (s : Start) : ℤ := (tp - s.fileNow + s.systemNow).tdiv 1000000000

/-! ## The logger -/

/-- Open a file and begin it anew, or write to it. -/
def FileSystem.put {A : Type} (fs : FileSystem A) (p : FilePath) (a : A) : Option (FileSystem A) :=
  if p.isEmpty then none
  else
    (fs.tree.walk (fs.start p) (p.names.map component)).bind fun loc =>
      (fs.tree.put loc a).map fun tree => { fs with tree }

/-- The members of `logger` that its functions read. -/
structure Logger where
  file : FilePath
  initialized : Bool

namespace Logger

/-- The logger of a program that has just started. -/
def fresh : Logger where
  file := { rootName := [], rootDirectory := false, names := [] }
  initialized := false

/-- The local time to the second at which the log was last written, if there is one.  `dirTime` is the
time of a directory in its place. -/
def backupTime (localtime : ℤ → Tm) (dirTime : ℤ) (fs : FileSystem LogFile) (file : FilePath)
    (s : Start) : Option Tm :=
  (fs.status file).map fun node =>
    localtime <| match node with
      | .file a => toTimeT a.lastWrite s
      | .dir => toTimeT dirTime s

/-- `logger::create_backup`; `false` when it throws -/
def createBackup (localtime : ℤ → Tm) (dirTime : ℤ) (fs : FileSystem LogFile) (file : FilePath)
    (s : Start) : FileSystem LogFile × Bool :=
  match backupTime localtime dirTime fs file s with
  | none => (fs, true)
  | some tm =>
    let (fs, moved) :=
      fs.move file (.parse .posix (bytes "./backup/" ++ backupName tm file.filename))
    (fs, moved.isSome)

/-- `logger::init_impl` -/
def initImpl (localtime : ℤ → Tm) (dirTime : ℤ) (logger : Logger) (fs : FileSystem LogFile)
    (name : FilePath) (s : Start) : Logger × FileSystem LogFile × Bool :=
  let logger := { logger with file := name }
  if logger.initialized then (logger, fs, true)
  else
    match createBackup localtime dirTime fs logger.file s with
    | (fs, false) => (logger, fs, false)
    | (fs, true) =>
      match fs.put name { contents := [], lastWrite := s.fileNow } with
      | none => (logger, fs, false)
      | some fs => ({ logger with initialized := true }, fs, true)

end Logger

/-! ## Starts of the program -/

/-- The file system, what the starts before the last one wrote, what the last one wrote, and the local
times of the last writes to the logs of those before it. -/
structure LogHistory where
  fs : FileSystem LogFile
  earlier : List Str
  current : Option Str
  seconds : List Tm

namespace LogHistory

/-- Before the first start. -/
def init (fs : FileSystem LogFile) : LogHistory :=
  { fs, earlier := [], current := none, seconds := [] }

/-- One start, which sets up its log and writes it. -/
def step (localtime : ℤ → Tm) (dirTime : ℤ) (file : FilePath) (h : LogHistory) (s : Start) :
    Option LogHistory :=
  let earlier := h.earlier ++ h.current.toList
  let seconds :=
    if h.current.isSome then (Logger.backupTime localtime dirTime h.fs file s).toList ++ h.seconds
    else h.seconds
  match Logger.initImpl localtime dirTime .fresh h.fs file s with
  | (_, fs, false) => some { fs, earlier, current := none, seconds }
  | (logger, fs, true) =>
    match fs.put logger.file { contents := s.contents, lastWrite := s.lastWrite } with
    | none => some { fs, earlier, current := none, seconds }
    | some fs => some { fs, earlier, current := some s.contents, seconds }

end LogHistory

end EllohimMQ

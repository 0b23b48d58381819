import EllohimMQ.Lib.FileTree
import EllohimMQ.Model.FilePath

/-!
# Files and folders

`file_manager.cpp`, `file_manager/file.cpp` and `file_manager/folder.cpp`, over a file system that is
one tree with a current directory.  `A` is what a regular file holds.  An operation that throws yields
`none` or the text of the exception, together with the file system that it leaves.
-/

namespace EllohimMQ

/-- The tree, and the current directory of the process. -/
structure FileSystem (A : Type) where
  tree : FileTree Str A
  currentPath : List Str

/-- The component that a name stands for. -/
def component (name : Str) : Component Str :=
  if name = [] ∨ name = bytes "." then .here
  else if name = bytes ".." then .up
  else .down name

namespace FileSystem

variable {A : Type}

/-- Where a path starts. -/
def start (fs : FileSystem A) (p : FilePath) : List Str :=
  if p.rootDirectory then [] else fs.currentPath

/-- The place that a path leads to. -/
def locate (fs : FileSystem A) (p : FilePath) : List Str :=
  FileTree.locate (fs.start p) (p.names.map component)

/-- What is there; the empty path leads nowhere. -/
def status (fs : FileSystem A) (p : FilePath) : Option (FileNode A) :=
  if p.isEmpty then none else fs.tree.lookup (fs.start p) (p.names.map component)

/-! ## `std::filesystem` -/

/-- `exists` -/
def exists' (fs : FileSystem A) (p : FilePath) : Bool := (fs.status p).isSome

/-- `is_directory` -/
def isDirectory (fs : FileSystem A) (p : FilePath) : Bool :=
  match fs.status p with
  | some .dir => true
  | _ => false

/-- `remove`, of what is not a directory -/
def remove (fs : FileSystem A) (p : FilePath) : FileSystem A :=
  match fs.status p with
  | some (.file _) => { fs with tree := fs.tree.unlink (fs.locate p) }
  | _ => fs

/-- `create_directories`; the second component tells whether it returned. -/
def createDirectories (fs : FileSystem A) (p : FilePath) : FileSystem A × Bool :=
  if p.isEmpty then (fs, false)
  else
    let (tree, returned) := fs.tree.createDirectories (fs.start p) (p.names.map component)
    ({ fs with tree }, returned)

/-- `rename`, which throws when it has no effect. -/
def rename (fs : FileSystem A) (old new : FilePath) : Option (FileSystem A) :=
  if old.isEmpty || new.isEmpty then none
  else
    match fs.tree.walk (fs.start old) (old.names.map component),
        fs.tree.walk (fs.start new) (new.names.map component) with
    | some source, some target => (fs.tree.rename source target).map fun tree => { fs with tree }
    | _, _ => none

/-! ## `file_manager` -/

/-- `file_manager::ensure_folder_exists`; no path when it throws -/
def ensureFolderExists (fs : FileSystem A) (folderPath : FilePath) :
    FileSystem A × Option FilePath :=
  let exists? := fs.exists' folderPath
  let inTheWay := exists? && !fs.isDirectory folderPath
  let fs := if inTheWay then fs.remove folderPath else fs
  if !exists? || inTheWay then
    match fs.createDirectories folderPath with
    | (fs, true) => (fs, some folderPath)
    | (fs, false) => (fs, none)
  else (fs, some folderPath)

/-- `file_manager::ensure_file_can_be_created`; no path when it throws -/
def ensureFileCanBeCreated (fs : FileSystem A) (filePath : FilePath) :
    FileSystem A × Option FilePath :=
  match fs.ensureFolderExists filePath.parentPath with
  | (fs, some _) => (fs, some filePath)
  | (fs, none) => (fs, none)

/-! ## `file` -/

/-- Where `file::move` moves a file: a relative path is one from the folder of the file. -/
def destination (filePath newPath : FilePath) : FilePath :=
  if newPath.isAbsolute .posix then newPath else filePath.parentPath.append .posix newPath

/-- `file::move` -/
def move (fs : FileSystem A) (filePath newPath : FilePath) : FileSystem A × Option FilePath :=
  let newPath := destination filePath newPath
  match fs.ensureFileCanBeCreated newPath with
  | (fs, none) => (fs, none)
  | (fs, some _) =>
    if fs.exists' filePath then
      match fs.rename filePath newPath with
      | none => (fs, none)
      | some fs => (fs, some newPath)
    else (fs, some newPath)

end FileSystem

/-! ## Project paths -/

/-- What the four functions test: the path, when it is relative and its text has no two dots in a row,
else the text of the exception. -/
def relativePath (platform : Platform) (absolute traversal : Str) (path : Str) :
    Except Str FilePath :=
  let p := FilePath.parse platform path
  if p.isAbsolute platform then .error absolute
  else if containsStr path (bytes "..") then .error traversal
  else .ok p

/-- The result of `m_base_dir / path` after one of the `ensure` functions. -/
def prepared {A : Type} : FileSystem A × Option FilePath → FileSystem A × Except Str FilePath
  | (fs, some p) => (fs, .ok p)
  | (fs, none) => (fs, .error (bytes "filesystem_error"))

namespace FileManager

variable {A : Type}

/-- The text of the exception for two dots in the path of a file. -/
def filePathTraversal : Str :=
  bytes "Relative path traversal is not allowed, refrain from using \"..\" in file paths."

/-- The text of the exception for two dots in the path of a folder. -/
def folderPathTraversal : Str :=
  bytes "Relative path traversal is not allowed, refrain from using \"..\" in folder paths."

/-- `file_manager::get_project_file_impl` -/
def getProjectFile (platform : Platform) (fs : FileSystem A) (baseDir : FilePath) (filePath : Str) :
    FileSystem A × Except Str FilePath :=
  match relativePath platform
      (bytes "Project files are relative to the BaseDir, don't use absolute paths!")
      filePathTraversal filePath with
  | .error what => (fs, .error what)
  | .ok p => prepared (fs.ensureFileCanBeCreated (baseDir.append platform p))

/-- `file_manager::get_project_folder_impl` -/
def getProjectFolder (platform : Platform) (fs : FileSystem A) (baseDir : FilePath)
    (folderPath : Str) : FileSystem A × Except Str FilePath :=
  match relativePath platform
      (bytes "Project folders are relative to the BaseDir, don't use absolute paths!")
      folderPathTraversal folderPath with
  | .error what => (fs, .error what)
  | .ok p => prepared (fs.ensureFolderExists (baseDir.append platform p))

end FileManager

namespace Folder

/-- `folder::get_file`, of a folder with path `folderPath` -/
def getFile (platform : Platform) (folderPath : FilePath) (filePath : Str) : Except Str FilePath :=
  (relativePath platform (bytes "folder#get_file requires a relative path.")
    FileManager.filePathTraversal filePath).map fun p => folderPath.append platform p

/-- `folder::get_folder` -/
def getFolder (platform : Platform) (folderPath : FilePath) (path : Str) : Except Str FilePath :=
  (relativePath platform (bytes "folder#get_folder requires a relative path.")
    FileManager.filePathTraversal path).map fun p => folderPath.append platform p

end Folder

end EllohimMQ

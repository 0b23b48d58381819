import EllohimMQ.Proof.Moving

/-!
# Project paths and their base

A path that is accepted has no name `..` (`not_mem_names`), so appending it to the base only adds names
to the normal form (`prefix_normalNames`).  That needs the path to have no root of its own, which is
what `is_absolute` says on POSIX and less than what it says on Windows.
-/

namespace EllohimMQ

variable {A : Type} {platform : Platform} {base p r : FilePath} {path : Str}

/-! ## The names of a path -/

/-- A piece is a part of the list, and no separator is in it. -/
theorem mem_splitOnPPrepend {f : UInt8 → Bool} {s acc name : Str}
    (hacc : ∀ c ∈ acc, f c = false) (h : name ∈ s.splitOnPPrepend f acc) :
    name <:+: acc.reverse ++ s ∧ ∀ c ∈ name, f c = false := by
  induction s generalizing acc with
  | nil =>
    rw [List.splitOnPPrepend_nil, List.mem_singleton] at h
    rw [h, List.append_nil]
    exact ⟨List.infix_rfl, fun c hc => hacc c (List.mem_reverse.1 hc)⟩
  | cons d s ih =>
    rw [List.splitOnPPrepend_cons_eq_if] at h
    split_ifs at h with hd
    · rcases List.mem_cons.1 h with rfl | h
      · exact ⟨(List.prefix_append ..).isInfix, fun c hc => hacc c (List.mem_reverse.1 hc)⟩
      · obtain ⟨hs, hname⟩ := ih (fun c hc => absurd hc List.not_mem_nil) h
        exact ⟨hs.trans ((List.suffix_cons d s).trans (List.suffix_append ..)).isInfix, hname⟩
    · have hacc' : ∀ c ∈ d :: acc, f c = false := fun c hc => by
        rcases List.mem_cons.1 hc with rfl | hc
        · exact Bool.not_eq_true _ ▸ hd
        · exact hacc c hc
      obtain ⟨hs, hname⟩ := ih hacc' h
      rw [List.reverse_cons, List.append_assoc] at hs
      exact ⟨hs, hname⟩

theorem suffix_splitRootName (platform : Platform) (s : Str) :
    (platform.splitRootName s).2 <:+ s := by
  unfold Platform.splitRootName
  split
  · exact List.suffix_rfl
  · rename_i c d s
    have hs : s <:+ c :: d :: s := List.suffix_append [c, d] s
    split_ifs
    · exact hs
    · exact (List.dropWhile_suffix _).trans hs
    · exact List.suffix_rfl
  · exact List.suffix_rfl

/-- A name of a path is in its text, and no separator is in the name. -/
theorem mem_names {name : Str} (h : name ∈ (FilePath.parse platform path).names) :
    name <:+: path ∧ ∀ c ∈ name, platform.isSeparator c = false := by
  have hrest := ((List.dropWhile_suffix platform.isSeparator).trans
    (suffix_splitRootName platform path)).isInfix
  simp only [FilePath.parse, Platform.splitNames] at h
  have hnames : ∀ name ∈ ((List.dropWhile platform.isSeparator
      (platform.splitRootName path).2).splitOnP platform.isSeparator).filter (· ≠ []),
      name <:+: path ∧ ∀ c ∈ name, platform.isSeparator c = false := fun name hname =>
    (mem_splitOnPPrepend (fun c hc => absurd hc List.not_mem_nil) (List.mem_filter.1 hname).1).imp_left
      fun hs => hs.trans hrest
  split_ifs at h
  · rcases List.mem_append.1 h with h | h
    · exact hnames name h
    · rw [List.mem_singleton.1 h]
      exact ⟨List.nil_infix, fun c hc => absurd hc List.not_mem_nil⟩
  · exact hnames name h

theorem not_mem_names (h : containsStr path (bytes "..") = false) :
    bytes ".." ∉ (FilePath.parse platform path).names := fun hmem => by
  rw [containsStr, decide_eq_false_iff_not] at h
  exact h (mem_names hmem).1

/-! ## The normal form -/

namespace FilePath

theorem prefix_foldl_normalStep {rooted : Bool} {names done : List Str}
    (h : bytes ".." ∉ names) : done <+: names.foldl (normalStep rooted) done := by
  induction names generalizing done with
  | nil => exact List.prefix_rfl
  | cons name names ih =>
    rw [List.mem_cons, not_or] at h
    refine List.IsPrefix.trans ?_ (ih h.2)
    rw [normalStep, if_neg (Ne.symm h.1)]
    split_ifs
    · exact List.prefix_rfl
    · exact List.prefix_append ..

theorem foldl_normalStep_filter {rooted : Bool} {names done : List Str} :
    (names.filter (· ≠ [])).foldl (normalStep rooted) done =
      names.foldl (normalStep rooted) done := by
  induction names generalizing done with
  | nil => rfl
  | cons name names ih =>
    by_cases hname : name = []
    · rw [hname, List.filter_cons_of_neg (by simp), ih]
      simp [normalStep]
    · rw [List.filter_cons_of_pos (by simpa), List.foldl_cons, ih, List.foldl_cons]

/-- The names of a path without `..` come after those of what it is appended to. -/
theorem prefix_normalNames (h : bytes ".." ∉ r.names) :
    base.normalNames <+: normalNames { base with names := base.names.filter (· ≠ []) ++ r.names } := by
  simp only [normalNames]
  rw [List.foldl_append, foldl_normalStep_filter]
  exact prefix_foldl_normalStep h

end FilePath

/-! ## Inside -/

/-- The normal form of `r` begins with what the normal form of `base` consists of: its root name, its
root directory and its names. -/
structure Inside (base r : FilePath) : Prop where
  rootName : r.rootName = base.rootName
  rootDirectory : r.rootDirectory = base.rootDirectory
  names : base.normalNames <+: r.normalNames

/-- A path that is not absolute: it has no root name or the one of the base; and if it has a root
directory, so has the base, and its normal form begins with the names of the base. -/
def StaysInside (base p : FilePath) : Prop :=
  (p.rootName = [] ∨ p.rootName = base.rootName) ∧
    (p.rootDirectory = true → base.rootDirectory = true ∧ base.normalNames <+: p.normalNames)

theorem inside_append_iff (habsolute : p.isAbsolute platform = false) (hdots : bytes ".." ∉ p.names) :
    Inside base (base.append platform p) ↔ StaysInside base p := by
  rw [FilePath.append, habsolute, Bool.false_or, StaysInside]
  by_cases hname : p.rootName = [] ∨ p.rootName = base.rootName
  · rw [if_neg (by simpa [or_iff_not_imp_left] using hname), and_iff_right hname]
    by_cases hrooted : p.rootDirectory = true
    · rw [if_pos hrooted]
      constructor
      · exact fun h _ => ⟨h.rootDirectory.symm.trans hrooted, h.names⟩
      · intro h
        obtain ⟨hbase, hnames⟩ := h hrooted
        exact ⟨rfl, hrooted.trans hbase.symm, hnames⟩
    · rw [if_neg hrooted]
      refine iff_of_true ?_ fun h => absurd h hrooted
      split_ifs
      · exact ⟨rfl, rfl, List.prefix_rfl⟩
      · refine ⟨rfl, rfl, ?_⟩
        simp only [FilePath.normalNames]
        rw [List.foldl_append]
        exact FilePath.prefix_foldl_normalStep (by decide)
      · exact ⟨rfl, rfl, FilePath.prefix_normalNames hdots⟩
  · -- another root name: the path replaces the base
    rw [if_pos (by simpa [not_or] using hname)]
    exact iff_of_false (fun h => hname (.inr h.rootName)) fun h => hname h.1

/-! ## The calls -/

/-- The calls that take a project path. -/
inductive ProjectCall where
  | projectFile
  | projectFolder
  | folderFile
  | folderFolder

/-- What a call returns; the base is the folder itself for the calls of a folder. -/
def ProjectCall.run (call : ProjectCall) (platform : Platform) (fs : FileSystem A)
    (base : FilePath) (path : Str) : Except Str FilePath :=
  match call with
  | projectFile => (FileManager.getProjectFile platform fs base path).2
  | projectFolder => (FileManager.getProjectFolder platform fs base path).2
  | folderFile => Folder.getFile platform base path
  | folderFolder => Folder.getFolder platform base path

/-- The test that all calls make. -/
def Accepted (platform : Platform) (path : Str) : Prop :=
  (FilePath.parse platform path).isAbsolute platform = false ∧ containsStr path (bytes "..") = false

theorem relativePath_of_accepted (absolute traversal : Str) (h : Accepted platform path) :
    relativePath platform absolute traversal path = .ok (FilePath.parse platform path) := by
  simp [relativePath, h.1, h.2]

theorem accepted_of_relativePath {absolute traversal : Str}
    (h : relativePath platform absolute traversal path = .ok p) :
    Accepted platform path ∧ FilePath.parse platform path = p := by
  rw [relativePath] at h
  split_ifs at h with habsolute hdots
  exact ⟨⟨by simpa using habsolute, by simpa using hdots⟩, Except.ok.inj h⟩

theorem ensureFolderExists_some {fs : FileSystem A} (h : (fs.ensureFolderExists p).2 = some r) :
    p = r := by
  cases hstatus : fs.status p with
  | none =>
    rw [FileSystem.ensureFolderExists_none hstatus] at h
    exact (Option.ite_some_none_eq_some.1 h).2
  | some x =>
    cases x with
    | file a =>
      rw [FileSystem.ensureFolderExists_file hstatus] at h
      exact (Option.ite_some_none_eq_some.1 h).2
    | dir =>
      rw [FileSystem.ensureFolderExists_dir hstatus] at h
      exact Option.some.inj h

theorem ensureFileCanBeCreated_some {fs : FileSystem A}
    (h : (fs.ensureFileCanBeCreated p).2 = some r) : p = r := by
  rw [FileSystem.ensureFileCanBeCreated] at h
  split at h
  · exact Option.some.inj h
  · cases h

theorem map_ok {x : Except Str FilePath} {f : FilePath → FilePath} (h : x.map f = .ok r) :
    ∃ p, x = .ok p ∧ f p = r := by
  cases x with
  | error what => cases h
  | ok p => exact ⟨p, rfl, Except.ok.inj h⟩

theorem prepared_ok {e : FileSystem A × Option FilePath} (h : (prepared e).2 = .ok r) :
    e.2 = some r := by
  obtain ⟨fs, _ | p⟩ := e
  · cases h
  · exact congrArg some (Except.ok.inj h)

namespace ProjectCall

/-- What a call returns is the path appended to the base. -/
theorem run_eq_ok {call : ProjectCall} {fs : FileSystem A}
    (h : call.run platform fs base path = .ok r) :
    Accepted platform path ∧ base.append platform (FilePath.parse platform path) = r := by
  cases call with
  | projectFile =>
    simp only [run, FileManager.getProjectFile] at h
    split at h
    · cases h
    · rename_i p hp
      obtain ⟨haccepted, rfl⟩ := accepted_of_relativePath hp
      exact ⟨haccepted, ensureFileCanBeCreated_some (prepared_ok h)⟩
  | projectFolder =>
    simp only [run, FileManager.getProjectFolder] at h
    split at h
    · cases h
    · rename_i p hp
      obtain ⟨haccepted, rfl⟩ := accepted_of_relativePath hp
      exact ⟨haccepted, ensureFolderExists_some (prepared_ok h)⟩
  | folderFile =>
    obtain ⟨p, hp, rfl⟩ := map_ok h
    obtain ⟨haccepted, rfl⟩ := accepted_of_relativePath hp
    exact ⟨haccepted, rfl⟩
  | folderFolder =>
    obtain ⟨p, hp, rfl⟩ := map_ok h
    obtain ⟨haccepted, rfl⟩ := accepted_of_relativePath hp
    exact ⟨haccepted, rfl⟩

end ProjectCall

/-! ## Which paths stay inside -/

/-- A file system of directories only: nothing is in anybody's way. -/
def allDirectories : FileSystem A where
  tree := { node := fun _ => some .dir, root := rfl, parent := fun _ _ _ => rfl }
  currentPath := []

theorem status_allDirectories (h : p.isEmpty = false) :
    (allDirectories : FileSystem A).status p = some .dir := by
  have hwalk : ∀ loc (cs : List (Component Str)),
      (allDirectories : FileSystem A).tree.lookup loc cs = some .dir := fun loc cs => by
    induction cs generalizing loc with
    | nil => rfl
    | cons c cs ih => exact ih (FileTree.next loc c)
  rw [FileSystem.status, h]
  exact hwalk ..

/-- There, an accepted path that has a root is returned. -/
theorem ProjectCall.run_allDirectories (call : ProjectCall) (haccepted : Accepted platform path)
    (hroot : (base.append platform (FilePath.parse platform path)).rootName ≠ [] ∨
      (base.append platform (FilePath.parse platform path)).rootDirectory = true) :
    call.run platform (allDirectories : FileSystem A) base path =
      .ok (base.append platform (FilePath.parse platform path)) := by
  have hempty : ∀ p : FilePath, (p.rootName ≠ [] ∨ p.rootDirectory = true) → p.isEmpty = false :=
    fun p hp => by
      rw [FilePath.isEmpty]
      rcases hp with hp | hp <;> simp [hp]
  cases call with
  | projectFile =>
    have hparent := FileSystem.ensureFolderExists_dir (status_allDirectories (A := A)
      (hempty (base.append platform (FilePath.parse platform path)).parentPath hroot))
    simp only [run, FileManager.getProjectFile, relativePath_of_accepted _ _ haccepted,
      FileSystem.ensureFileCanBeCreated, hparent]
    rfl
  | projectFolder =>
    have hfolder := FileSystem.ensureFolderExists_dir (status_allDirectories (A := A)
      (hempty (base.append platform (FilePath.parse platform path)) hroot))
    simp only [run, FileManager.getProjectFolder, relativePath_of_accepted _ _ haccepted, hfolder]
    rfl
  | folderFile =>
    rw [run, Folder.getFile, relativePath_of_accepted _ _ haccepted]
    rfl
  | folderFolder =>
    rw [run, Folder.getFolder, relativePath_of_accepted _ _ haccepted]
    rfl

/-- A path that is appended and does not stay inside brings a root with it. -/
theorem rooted_of_not_staysInside (habsolute : p.isAbsolute platform = false)
    (h : ¬ StaysInside base p) :
    (base.append platform p).rootName ≠ [] ∨ (base.append platform p).rootDirectory = true := by
  rw [FilePath.append, habsolute, Bool.false_or]
  by_cases hname : p.rootName = [] ∨ p.rootName = base.rootName
  · rw [StaysInside, and_iff_right hname, Classical.not_imp] at h
    rw [if_neg (by simpa [or_iff_not_imp_left] using hname), if_pos h.1]
    exact .inr h.1
  · rw [not_or] at hname
    rw [if_pos (by simpa using hname)]
    exact .inl hname.1

/-- Every call returns places inside the base only, exactly for the paths that it refuses and for those
that do not bring another root with them. -/
theorem ProjectCall.inside_iff (call : ProjectCall) (platform : Platform) (base : FilePath)
    (path : Str) :
    (∀ (fs : FileSystem A) (r : FilePath), call.run platform fs base path = .ok r → Inside base r) ↔
      (Accepted platform path → StaysInside base (FilePath.parse platform path)) := by
  constructor
  · intro h haccepted
    by_contra hout
    apply hout
    rw [← inside_append_iff haccepted.1 (not_mem_names haccepted.2)]
    apply h allDirectories
    exact call.run_allDirectories haccepted (rooted_of_not_staysInside haccepted.1 hout)
  · intro h fs r hr
    obtain ⟨haccepted, rfl⟩ := run_eq_ok hr
    exact (inside_append_iff haccepted.1 (not_mem_names haccepted.2)).2 (h haccepted)

/-- On POSIX a path that is not absolute has no root. -/
theorem ProjectCall.inside_posix {call : ProjectCall} {fs : FileSystem A}
    (h : call.run .posix fs base path = .ok r) : Inside base r := by
  refine (call.inside_iff .posix base path).2 (fun haccepted => ⟨.inl rfl, fun hrooted => ?_⟩) fs r h
  cases hrooted.symm.trans haccepted.1

/-- With `D:\srv` as the base on Windows, `\temp` is accepted and is not in it. -/
theorem ProjectCall.not_inside : ¬ ∀ (call : ProjectCall) (platform : Platform) (base : FilePath)
    (path : Str) (fs : FileSystem ℕ) (r : FilePath), call.run platform fs base path = .ok r →
      Inside base r := by
  intro h
  have hinside := h .projectFile .windows (.parse .windows (bytes "D:\\srv")) (bytes "\\temp")
    allDirectories (.parse .windows (bytes "D:\\temp")) (by decide)
  have hnames := hinside.names
  revert hnames
  decide

end EllohimMQ

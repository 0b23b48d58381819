import EllohimMQ.Model.FileManager

/-!
# Moving a file

`file::move` prepares the parent of the destination before it looks at the file that it moves.  Where
the parent is a directory or nothing, that only adds directories (`ensureFolderExists_grows`); where it
is a file, the file is gone (`ensureFolderExists_over`), and it may be the one to be moved.
-/

namespace EllohimMQ

namespace FileSystem

variable {A : Type} {fs fs' : FileSystem A} {p filePath newPath : FilePath} {a : A}

theorem status_eq_some_iff {x : FileNode A} : fs.status p = some x ↔
    p.isEmpty = false ∧ fs.tree.walk (fs.start p) (p.names.map component) = some (fs.locate p) ∧
      fs.tree.node (fs.locate p) = some x := by
  rw [status]
  split_ifs with hempty
  · simp [hempty]
  · rw [FileTree.lookup_eq_some_iff]
    simp [hempty, locate]

theorem status_mono {t : FileTree Str A} {x : FileNode A}
    (hdir : ∀ loc, fs.tree.node loc = some .dir → t.node loc = some .dir)
    (h : fs.status p = some x) (hx : t.node (fs.locate p) = some x) :
    { fs with tree := t }.status p = some x := by
  rw [status_eq_some_iff] at h ⊢
  exact ⟨h.1, FileTree.walk_mono hdir h.2.1, hx⟩

/-! ## The parent of the destination -/

theorem exists'_iff : fs.exists' p = true ↔ ∃ x, fs.status p = some x := by
  rw [exists', Option.isSome_iff_exists]

theorem createDirectories_spec (fs : FileSystem A) (p : FilePath) :
    ∃ t, (fs.createDirectories p).1 = { fs with tree := t } ∧ fs.tree.Grows t ∧
      ((fs.createDirectories p).2 = true → t.node (fs.locate p) = some .dir) := by
  rw [createDirectories]
  split_ifs
  · exact ⟨fs.tree, rfl, .refl _, nofun⟩
  · exact ⟨_, rfl, FileTree.grows_createDirectories .., FileTree.dir_createDirectories⟩

theorem ensureFolderExists_dir (h : fs.status p = some .dir) :
    fs.ensureFolderExists p = (fs, some p) := by
  simp [ensureFolderExists, exists', isDirectory, h]

theorem ensureFolderExists_none (h : fs.status p = none) :
    fs.ensureFolderExists p =
      ((fs.createDirectories p).1, if (fs.createDirectories p).2 then some p else none) := by
  simp only [ensureFolderExists, exists', isDirectory, h, Option.isSome_none, Bool.false_and,
    Bool.not_false, Bool.true_or, if_true, Bool.false_eq_true, if_false]
  cases fs.createDirectories p with
  | mk _ returned => cases returned <;> rfl

theorem ensureFolderExists_file (h : fs.status p = some (.file a)) :
    fs.ensureFolderExists p = (((fs.remove p).createDirectories p).1,
      if ((fs.remove p).createDirectories p).2 then some p else none) := by
  simp only [ensureFolderExists, exists', isDirectory, h, Option.isSome_some, Bool.not_false,
    Bool.and_self, Bool.or_true, if_true]
  cases (fs.remove p).createDirectories p with
  | mk _ returned => cases returned <;> rfl

theorem remove_file (h : fs.status p = some (.file a)) :
    fs.remove p = { fs with tree := fs.tree.unlink (fs.locate p) } := by
  rw [remove, h]

/-- Where there is no file, directories may come and nothing goes. -/
theorem ensureFolderExists_grows (h : ∀ a, fs.status p ≠ some (.file a)) :
    ∃ t, (fs.ensureFolderExists p).1 = { fs with tree := t } ∧ fs.tree.Grows t := by
  cases hstatus : fs.status p with
  | none =>
    obtain ⟨t, htree, hgrows, -⟩ := fs.createDirectories_spec p
    rw [ensureFolderExists_none hstatus]
    exact ⟨t, htree, hgrows⟩
  | some x =>
    cases x with
    | file a => exact absurd hstatus (h a)
    | dir =>
      rw [ensureFolderExists_dir hstatus]
      exact ⟨fs.tree, rfl, .refl _⟩

/-- Where there is a file, it is gone; when the call returns there is a directory instead. -/
theorem ensureFolderExists_over (h : fs.status p = some (.file a)) :
    ∃ t, (fs.ensureFolderExists p).1 = { fs with tree := t } ∧
      (fs.tree.unlink (fs.locate p)).Grows t ∧
      ((fs.ensureFolderExists p).2.isSome → t.node (fs.locate p) = some .dir) := by
  obtain ⟨t, htree, hgrows, hdir⟩ :=
    { fs with tree := fs.tree.unlink (fs.locate p) }.createDirectories_spec p
  rw [ensureFolderExists_file h, remove_file h]
  refine ⟨t, htree, hgrows, fun hsome => hdir ?_⟩
  by_contra hfalse
  rw [if_neg hfalse] at hsome
  cases hsome

/-! ## The move -/

/-- What `file::move` is for, of a file that holds `a`: it is at the new path or still at the old one,
and the other files are as they were. -/
structure MoveKeeps (fs : FileSystem A) (filePath newPath : FilePath) (a : A) : Prop where
  returned : ∀ p, (fs.move filePath newPath).2 = some p →
    (fs.move filePath newPath).1.status p = some (.file a)
  threw : (fs.move filePath newPath).2 = none →
    (fs.move filePath newPath).1.status filePath = some (.file a)
  others : ∀ loc b, loc ≠ fs.locate filePath → loc ≠ fs.locate (destination filePath newPath) →
    fs.tree.node loc = some (.file b) →
    (fs.move filePath newPath).1.tree.node loc = some (.file b)

/-- A rename that returns has moved what the old path leads to where the new one leads. -/
theorem rename_tree {dest : FilePath} (h : fs.rename filePath dest = some fs') :
    dest.isEmpty = false ∧
      fs.tree.walk (fs.start dest) (dest.names.map component) = some (fs.locate dest) ∧
      ∃ t, fs.tree.rename (fs.locate filePath) (fs.locate dest) = some t ∧
        fs' = { fs with tree := t } := by
  rw [rename] at h
  split_ifs at h with hempty
  split at h
  · rename_i source target hsource htarget
    obtain ⟨t, ht, rfl⟩ := Option.map_eq_some_iff.1 h
    rw [← FileTree.walk_eq_some hsource, ← FileTree.walk_eq_some htarget] at ht
    rw [← FileTree.walk_eq_some htarget] at htarget
    simp only [Bool.or_eq_true, not_or, Bool.not_eq_true] at hempty
    exact ⟨hempty.2, htarget, t, ht, rfl⟩
  · cases h

theorem rename_eq_some (fs : FileSystem A) {dest : FilePath} {source target : List Str}
    {t : FileTree Str A}
    (hfile : filePath.isEmpty = false) (hdest : dest.isEmpty = false)
    (hsource : fs.tree.walk (fs.start filePath) (filePath.names.map component) = some source)
    (htarget : fs.tree.walk (fs.start dest) (dest.names.map component) = some target)
    (h : fs.tree.rename source target = some t) :
    fs.rename filePath dest = some { fs with tree := t } := by
  simp [rename, hfile, hdest, hsource, htarget, h]

theorem move_eq_some {dest q : FilePath} {fs₁ fs₂ : FileSystem A}
    (hdest : destination filePath newPath = dest)
    (hensure : fs.ensureFolderExists dest.parentPath = (fs₁, some q))
    (hexists : fs₁.exists' filePath = true) (hrename : fs₁.rename filePath dest = some fs₂) :
    fs.move filePath newPath = (fs₂, some dest) := by
  rw [← hdest] at hensure hrename ⊢
  simp only [move, ensureFileCanBeCreated, hensure, hexists, if_true, hrename]

theorem rename_spec {dest : FilePath} (hfile : fs.status filePath = some (.file a))
    (h : fs.rename filePath dest = some fs') :
    fs'.status dest = some (.file a) ∧ ∀ loc, loc ≠ fs.locate filePath → loc ≠ fs.locate dest →
      fs'.tree.node loc = fs.tree.node loc := by
  have hnode := (status_eq_some_iff.1 hfile).2.2
  obtain ⟨hempty, hwalk, t, ht, rfl⟩ := rename_tree h
  obtain ⟨hat, helse⟩ := FileTree.node_rename hnode ht
  refine ⟨status_eq_some_iff.2 ⟨hempty, ?_, hat⟩, helse⟩
  exact FileTree.walk_mono (fun loc => FileTree.dir_rename hnode ht) hwalk

/-- How a move ends, after the parent of the destination has been prepared with the result `e`. -/
inductive MoveEnds (e : FileSystem A × Option FilePath) (filePath dest : FilePath) :
    FileSystem A × Option FilePath → Prop where
  | unprepared (h : e.2 = none) : MoveEnds e filePath dest (e.1, none)
  | absent (h : e.2.isSome) (habsent : e.1.exists' filePath = false) :
      MoveEnds e filePath dest (e.1, some dest)
  | refused (h : e.2.isSome) (hexists : e.1.exists' filePath = true)
      (hnone : e.1.rename filePath dest = none) : MoveEnds e filePath dest (e.1, none)
  | moved (h : e.2.isSome) (hexists : e.1.exists' filePath = true) (fs' : FileSystem A)
      (hsome : e.1.rename filePath dest = some fs') : MoveEnds e filePath dest (fs', some dest)

theorem moveEnds (fs : FileSystem A) (filePath newPath : FilePath) :
    MoveEnds (fs.ensureFolderExists (destination filePath newPath).parentPath) filePath
      (destination filePath newPath) (fs.move filePath newPath) := by
  cases he : fs.ensureFolderExists (destination filePath newPath).parentPath with
  | mk fs₁ r =>
    cases r with
    | none =>
      simp only [move, ensureFileCanBeCreated, he]
      exact .unprepared rfl
    | some p =>
      simp only [move, ensureFileCanBeCreated, he]
      split_ifs with hexists
      · cases hrename : fs₁.rename filePath (destination filePath newPath) with
        | none => exact .refused rfl hexists hrename
        | some fs' => exact .moved rfl hexists fs' hrename
      · exact .absent rfl (Bool.not_eq_true _ ▸ hexists)

/-- A file that is there after the preparation is moved or stays. -/
theorem moveKeeps_of_prepared {t : FileTree Str A}
    (htree : (fs.ensureFolderExists (destination filePath newPath).parentPath).1 =
      { fs with tree := t })
    (hfile : { fs with tree := t }.status filePath = some (.file a))
    (hothers : ∀ loc b, loc ≠ fs.locate (destination filePath newPath) →
      fs.tree.node loc = some (.file b) → t.node loc = some (.file b)) :
    MoveKeeps fs filePath newPath a := by
  have hends := moveEnds fs filePath newPath
  generalize fs.ensureFolderExists (destination filePath newPath).parentPath = e at htree hends
  obtain ⟨fs₁, r⟩ := e
  obtain rfl : fs₁ = { fs with tree := t } := htree
  generalize hmove : fs.move filePath newPath = moved at hends
  cases hends with
  | unprepared | refused =>
    constructor <;> rw [hmove]
    · exact nofun
    · exact fun _ => hfile
    · exact fun loc b _ => hothers loc b
  | absent _ habsent => simp [exists', hfile] at habsent
  | moved _ _ fs' hsome =>
    obtain ⟨hat, helse⟩ := rename_spec hfile hsome
    constructor <;> rw [hmove]
    · intro p hp
      cases hp
      exact hat
    · exact nofun
    · intro loc b hold hnew hb
      exact (helse loc hold hnew).trans (hothers loc b hnew hb)

/-! ## The file in the way -/

/-- The destination is one component away from its parent. -/
theorem locate_eq_next (fs : FileSystem A) (p : FilePath) :
    ∃ c, fs.locate p = FileTree.next (fs.locate p.parentPath) c := by
  obtain ⟨rootName, rootDirectory, names⟩ := p
  cases names using List.reverseRecOn with
  | nil => exact ⟨.here, rfl⟩
  | append_singleton names name =>
    refine ⟨component name, ?_⟩
    simp [locate, start, FilePath.parentPath, FileTree.locate]

/-- The file that is in the way of another one is lost. -/
theorem not_moveKeeps_other {parent : FilePath} {b : A}
    (hparent : (destination filePath newPath).parentPath = parent)
    (hfile : fs.status filePath = some (.file a)) (hb : fs.status parent = some (.file b))
    (hsource : fs.locate parent ≠ fs.locate filePath)
    (hdest : fs.locate parent ≠ fs.locate (destination filePath newPath)) :
    ¬ MoveKeeps fs filePath newPath a := by
  intro hkeeps
  obtain ⟨t, htree, hgrows, -⟩ := ensureFolderExists_over hb
  have hbin := hkeeps.others _ b hsource hdest (status_eq_some_iff.1 hb).2.2
  have hgone : ∀ c, t.node (fs.locate parent) ≠ some (.file c) := fun c hc =>
    (FileTree.unlink_file_iff.1 (hgrows.file_iff.1 hc)).1 rfl
  have hstays : { fs with tree := t }.status filePath = some (.file a) := by
    apply status_mono (fun loc hdir => hgrows.node loc _ (FileTree.unlink_dir_iff.2 hdir)) hfile
    apply hgrows.node
    exact FileTree.unlink_file_iff.2 ⟨hsource.symm, (status_eq_some_iff.1 hfile).2.2⟩
  have hends := moveEnds fs filePath newPath
  rw [hparent] at hends
  generalize fs.ensureFolderExists parent = e at htree hends
  obtain ⟨fs₁, r⟩ := e
  obtain rfl : fs₁ = { fs with tree := t } := htree
  generalize fs.move filePath newPath = moved at hends hbin
  cases hends with
  | unprepared | refused | absent => exact hgone b hbin
  | moved _ _ fs' hsome =>
    have helse := (rename_spec hstays hsome).2 (fs.locate parent) hsource hdest
    exact hgone b (helse.symm.trans hbin)

/-- The file that is in its own way is lost. -/
theorem not_moveKeeps_self {parent : FilePath}
    (hparent : (destination filePath newPath).parentPath = parent) {b : A}
    (hb : fs.status parent = some (.file b)) (hsource : fs.locate parent = fs.locate filePath) :
    ¬ MoveKeeps fs filePath newPath a := by
  intro hkeeps
  obtain ⟨t, htree, hgrows, -⟩ := ensureFolderExists_over hb
  obtain ⟨c, hnext⟩ := fs.locate_eq_next (destination filePath newPath)
  rw [hparent] at hnext
  have hgone : ∀ loc d, t.node loc = some (.file d) → loc ≠ fs.locate parent ∧
      fs.tree.node loc = some (.file d) := fun loc d hd =>
    FileTree.unlink_file_iff.1 (hgrows.file_iff.1 hd)
  have hends := moveEnds fs filePath newPath
  rw [hparent] at hends
  generalize fs.ensureFolderExists parent = e at htree hends
  obtain ⟨fs₁, r⟩ := e
  obtain rfl : fs₁ = { fs with tree := t } := htree
  have hreturned := hkeeps.returned
  have hthrew := hkeeps.threw
  generalize fs.move filePath newPath = moved at hends hreturned hthrew
  cases hends with
  | unprepared | refused =>
    have hstatus := (status_eq_some_iff.1 (hthrew rfl)).2.2
    exact (hgone _ _ hstatus).1 hsource.symm
  | absent =>
    have hstatus := (status_eq_some_iff.1 (hreturned _ rfl)).2.2
    obtain ⟨hne, hat⟩ := hgone _ _ hstatus
    have hnode := (status_eq_some_iff.1 hb).2.2
    change FileTree.node _ (fs.locate (destination filePath newPath)) = _ at hat
    rw [hnext] at hat
    exact hne (hnext.trans (FileTree.next_eq_of_file hnode hat))
  | moved _ hexists fs' hsome =>
    obtain ⟨x, hx⟩ := exists'_iff.1 hexists
    have hdir : t.node (fs.locate parent) = some .dir := by
      rw [hsource]
      cases x with
      | file d => exact absurd hsource.symm (hgone _ d (status_eq_some_iff.1 hx).2.2).1
      | dir => exact (status_eq_some_iff.1 hx).2.2
    have hat := (status_eq_some_iff.1 (hreturned _ rfl)).2.2
    obtain ⟨-, -, t', ht', rfl⟩ := rename_tree hsome
    change t.rename (fs.locate filePath) (fs.locate (destination filePath newPath)) = _ at ht'
    change t'.node (fs.locate (destination filePath newPath)) = _ at hat
    rw [← hsource, hnext] at ht'
    by_cases hsame : FileTree.next (fs.locate parent) c = fs.locate parent
    · -- a rename onto itself has no effect, and a directory is there
      rw [FileTree.rename, if_pos hsame.symm, hdir] at ht'
      cases ht'
      rw [hnext, hsame, hdir] at hat
      cases hat
    · rw [FileTree.rename_next_eq_none hdir hsame] at ht'
      cases ht'

/-! ## When a move keeps what it moves -/

/-- The parent of the destination is no file; or it is another file than the source, and the
destination leads to that file too (it ends with a separator or a dot). -/
def ParentFree (fs : FileSystem A) (filePath newPath : FilePath) : Prop :=
  (∀ b, fs.status (destination filePath newPath).parentPath ≠ some (.file b)) ∨
    (fs.locate (destination filePath newPath).parentPath =
        fs.locate (destination filePath newPath) ∧
      fs.locate (destination filePath newPath) ≠ fs.locate filePath)

theorem moveKeeps_iff (hfile : fs.status filePath = some (.file a)) :
    MoveKeeps fs filePath newPath a ↔ ParentFree fs filePath newPath := by
  by_cases hparent : ∀ b, fs.status (destination filePath newPath).parentPath ≠ some (.file b)
  · refine iff_of_true ?_ (.inl hparent)
    obtain ⟨t, htree, hgrows⟩ := ensureFolderExists_grows hparent
    apply moveKeeps_of_prepared htree
    · exact status_mono (fun loc => hgrows.node loc _) hfile
        (hgrows.node _ _ (status_eq_some_iff.1 hfile).2.2)
    · exact fun loc b _ => hgrows.node loc _
  · push Not at hparent
    obtain ⟨b, hb⟩ := hparent
    rw [ParentFree, or_iff_right fun h => h b hb]
    by_cases hsource : fs.locate (destination filePath newPath).parentPath = fs.locate filePath
    · refine iff_of_false (not_moveKeeps_self rfl hb hsource) fun h => h.2 (h.1 ▸ hsource)
    by_cases hdest : fs.locate (destination filePath newPath).parentPath =
        fs.locate (destination filePath newPath)
    · refine iff_of_true ?_ ⟨hdest, hdest ▸ hsource⟩
      -- the file that is lost is the one at the destination
      obtain ⟨t, htree, hgrows, -⟩ := ensureFolderExists_over hb
      have hstays : ∀ loc c, loc ≠ fs.locate (destination filePath newPath) →
          fs.tree.node loc = some (.file c) → t.node loc = some (.file c) := fun loc c hne hc =>
        hgrows.node _ _ (FileTree.unlink_file_iff.2 ⟨hdest ▸ hne, hc⟩)
      apply moveKeeps_of_prepared htree _ hstays
      apply status_mono (fun loc hdir => hgrows.node loc _ (FileTree.unlink_dir_iff.2 hdir)) hfile
      exact hstays _ a (hdest ▸ Ne.symm hsource) (status_eq_some_iff.1 hfile).2.2
    · exact iff_of_false (not_moveKeeps_other rfl hfile hb hsource hdest) fun h => hdest h.1

/-- One file in the root directory. -/
def oneFile (name : Str) (a : ℕ) : FileSystem ℕ where
  tree :=
    { node := fun loc => if loc = [] then some .dir else if loc = [name] then some (.file a) else none
      root := rfl
      parent := fun loc other hsome => by
        by_cases hat : loc ++ [other] = [name]
        · have hone : loc ++ [other] = [] ++ [name] := hat
          obtain ⟨rfl, -⟩ := List.append_inj' hone rfl
          rfl
        · simp [hat] at hsome }
  currentPath := []

/-- To a new folder, which is made. -/
theorem moveKeeps_iff_backup :
    MoveKeeps (oneFile (bytes "log") 7) (.parse .posix (bytes "/log"))
      (.parse .posix (bytes "./backup/log")) 7 := by
  have hparent : (oneFile (bytes "log") 7).status (destination (.parse .posix (bytes "/log"))
      (.parse .posix (bytes "./backup/log"))).parentPath = none := by decide
  exact (moveKeeps_iff (by decide)).2 (.inl fun b => by simp [hparent])

/-- Into a folder of its own name: the file makes room for the folder. -/
theorem not_moveKeeps : ¬ ∀ (fs : FileSystem ℕ) (filePath newPath : FilePath) (a : ℕ),
    fs.status filePath = some (.file a) → MoveKeeps fs filePath newPath a := by
  intro h
  have hkeeps := h (oneFile (bytes "log") 7) (.parse .posix (bytes "/log"))
    (.parse .posix (bytes "log/1")) 7 (by decide)
  have hthrew := hkeeps.threw (by decide)
  revert hthrew
  decide

end FileSystem

end EllohimMQ

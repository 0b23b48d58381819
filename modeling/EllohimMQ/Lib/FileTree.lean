import Mathlib.Data.List.Infix
import Mathlib.Logic.Function.Basic

/-!
# Trees of files and directories

A place in the tree is the list of the names that lead to it from the root.  A path is a place to
start from and a list of components; it is walked component by component, and every place that it
passes has to be a directory.  Where it leads, if anywhere, is known without the tree (`locate`).

The operations are those of a file system without links.  What they do to the rest of the tree is
said by `Grows` for those that only add directories, and by `node_rename` for the one that moves.
-/

/-- What is at a place: a file with what it holds, or a directory. -/
inductive FileNode (A : Type*) where
  | file (a : A)
  | dir
  deriving DecidableEq

/-- A component of a path. -/
inductive Component (N : Type*) where
  | here
  | up
  | down (name : N)
  deriving DecidableEq

/-- A tree: the root is a directory, and so is the parent of everything. -/
@[ext] structure FileTree (N A : Type*) where
  node : List N → Option (FileNode A)
  root : node [] = some .dir
  parent : ∀ loc name, (node (loc ++ [name])).isSome → node loc = some .dir

namespace FileTree

variable {N A : Type*}

/-- There is a directory at the place. -/
def isDir (t : FileTree N A) (loc : List N) : Bool :=
  match t.node loc with
  | some .dir => true
  | _ => false

@[simp] theorem isDir_iff {t : FileTree N A} {loc : List N} :
    t.isDir loc = true ↔ t.node loc = some .dir := by
  unfold isDir
  split <;> simp_all

/-! ## Paths -/

/-- The place that a component leads to. -/
def next (loc : List N) : Component N → List N
  | .here => loc
  | .up => loc.dropLast
  | .down name => loc ++ [name]

/-- The place that a path leads to. -/
def locate (loc : List N) (path : List (Component N)) : List N := path.foldl next loc

/-- The place that a path leads to, if every place before it is a directory. -/
def walk (t : FileTree N A) : List N → List (Component N) → Option (List N)
  | loc, [] => some loc
  | loc, c :: path => if t.isDir loc then t.walk (next loc c) path else none

/-- What a path leads to. -/
def lookup (t : FileTree N A) (loc : List N) (path : List (Component N)) : Option (FileNode A) :=
  (t.walk loc path).bind t.node

variable {t t' t'' : FileTree N A} {loc loc' : List N} {path path' : List (Component N)}

theorem walk_append : t.walk loc (path ++ path') =
    (t.walk loc path).bind fun loc' => t.walk loc' path' := by
  induction path generalizing loc with
  | nil => rfl
  | cons c path ih =>
    rw [List.cons_append, walk, walk]
    split_ifs
    · exact ih
    · rfl

theorem walk_eq_some (h : t.walk loc path = some loc') : locate loc path = loc' := by
  induction path generalizing loc with
  | nil => exact Option.some.inj h
  | cons c path ih =>
    rw [walk] at h
    split_ifs at h
    exact ih h

theorem lookup_eq_some_iff {x : FileNode A} : t.lookup loc path = some x ↔
    t.walk loc path = some (locate loc path) ∧ t.node (locate loc path) = some x := by
  rw [lookup, Option.bind_eq_some_iff]
  constructor
  · rintro ⟨loc', hwalk, hnode⟩
    obtain rfl := walk_eq_some hwalk
    exact ⟨hwalk, hnode⟩
  · rintro ⟨hwalk, hnode⟩
    exact ⟨_, hwalk, hnode⟩

/-- Walking needs directories only. -/
theorem walk_mono (h : ∀ loc, t.node loc = some .dir → t'.node loc = some .dir)
    (hwalk : t.walk loc path = some loc') : t'.walk loc path = some loc' := by
  induction path generalizing loc with
  | nil => exact hwalk
  | cons c path ih =>
    rw [walk] at hwalk ⊢
    split_ifs at hwalk with hdir
    rw [if_pos (isDir_iff.2 (h loc (isDir_iff.1 hdir)))]
    exact ih hwalk

/-- A walk that ends at a directory begins at one. -/
theorem dir_of_walk (h : t.walk loc path = some loc') (hdir : t.node loc' = some .dir) :
    t.node loc = some .dir := by
  cases path with
  | nil => exact Option.some.inj h ▸ hdir
  | cons c path =>
    rw [walk] at h
    split_ifs at h with hloc
    exact isDir_iff.1 hloc

/-- The parent of a directory is a directory. -/
theorem dir_dropLast (h : t.node loc = some .dir) : t.node loc.dropLast = some .dir := by
  cases loc using List.reverseRecOn with
  | nil => exact h
  | append_singleton loc name =>
    rw [List.dropLast_concat]
    exact t.parent loc name (by simp [h])

/-- Nothing is below a file or below nothing. -/
theorem node_append_eq_none (h : t.node loc ≠ some .dir) {below : List N} (hne : below ≠ []) :
    t.node (loc ++ below) = none := by
  induction below using List.reverseRecOn with
  | nil => exact absurd rfl hne
  | append_singleton below name ih =>
    by_contra hsome
    have hdir := t.parent (loc ++ below) name
      (Option.isSome_iff_ne_none.2 (by rwa [List.append_assoc]))
    by_cases hnil : below = []
    · rw [hnil, List.append_nil] at hdir
      exact h hdir
    · rw [ih hnil] at hdir
      cases hdir

/-- There is no other file one component away from a file. -/
theorem next_eq_of_file {a b : A} {c : Component N} (h : t.node loc = some (.file a))
    (hnext : t.node (next loc c) = some (.file b)) : next loc c = loc := by
  cases c with
  | here => rfl
  | up =>
    cases loc using List.reverseRecOn with
    | nil => rfl
    | append_singleton loc name =>
      have hdir := t.parent loc name (by simp [h])
      rw [next, List.dropLast_concat, hdir] at hnext
      cases hnext
  | down name =>
    have hfile : t.node loc ≠ some .dir := by simp [h]
    rw [next, node_append_eq_none hfile (List.cons_ne_nil name [])] at hnext
    cases hnext

/-! ## Adding directories and taking files away -/

/-- `t'` has what `t` has, and beyond that only directories. -/
structure Grows (t t' : FileTree N A) : Prop where
  node : ∀ loc x, t.node loc = some x → t'.node loc = some x
  file : ∀ loc a, t'.node loc = some (.file a) → t.node loc = some (.file a)

theorem Grows.refl (t : FileTree N A) : t.Grows t := ⟨fun _ _ h => h, fun _ _ h => h⟩

theorem Grows.trans (h : t.Grows t') (h' : t'.Grows t'') : t.Grows t'' :=
  ⟨fun loc x hx => h'.node loc x (h.node loc x hx), fun loc a ha => h.file loc a (h'.file loc a ha)⟩

theorem Grows.file_iff (h : t.Grows t') {a : A} :
    t'.node loc = some (.file a) ↔ t.node loc = some (.file a) :=
  ⟨h.file loc a, h.node loc _⟩

variable [DecidableEq N]

/-- A new directory, where there is nothing and the parent is a directory. -/
def mkdir (t : FileTree N A) (loc : List N) (name : N) (hdir : t.node loc = some .dir) :
    FileTree N A where
  node := Function.update t.node (loc ++ [name]) (some .dir)
  root := by
    rw [Function.update_of_ne (by simp)]
    exact t.root
  parent loc' name' hsome := by
    by_cases heq : loc' ++ [name'] = loc ++ [name]
    · obtain ⟨rfl, -⟩ := List.append_inj' heq rfl
      rw [Function.update_of_ne (by simp)]
      exact hdir
    · rw [Function.update_of_ne heq] at hsome
      rw [Function.update_apply]
      split_ifs
      · rfl
      · exact t.parent loc' name' hsome

theorem grows_mkdir {name : N} (hdir : t.node loc = some .dir)
    (hnone : t.node (loc ++ [name]) = none) : t.Grows (t.mkdir loc name hdir) where
  node loc' x hx := by
    have hne : loc' ≠ loc ++ [name] := by
      rintro rfl
      rw [hnone] at hx
      cases hx
    exact (Function.update_of_ne hne ..).trans hx
  file loc' a ha := by
    simp only [mkdir, Function.update_apply] at ha
    split_ifs at ha
    · cases ha
    · exact ha

/-- Make the directory that a component leads to, if there is nothing. -/
def enter (t : FileTree N A) (loc : List N) : Component N → FileTree N A
  | .down name =>
    if h : t.isDir loc = true ∧ (t.node (loc ++ [name])).isNone = true then
      t.mkdir loc name (isDir_iff.1 h.1)
    else t
  | _ => t

theorem grows_enter (t : FileTree N A) (loc : List N) (c : Component N) :
    t.Grows (t.enter loc c) := by
  cases c with
  | here | up => exact .refl t
  | down name =>
    rw [enter]
    split_ifs with h
    · exact grows_mkdir _ (Option.isNone_iff_eq_none.1 h.2)
    · exact .refl t

theorem enter_eq_self {c : Component N} {x : FileNode A} (h : t.node (next loc c) = some x) :
    t.enter loc c = t := by
  cases c with
  | here | up => rfl
  | down name =>
    rw [enter, dif_neg]
    rintro ⟨-, hnone⟩
    cases h.symm.trans (Option.isNone_iff_eq_none.1 hnone)

/-- Make the directories of a path that are missing, from its start on; `false` when there is a file
in the way.  What was made before stays. -/
def createDirectories (t : FileTree N A) : List N → List (Component N) → FileTree N A × Bool
  | loc, [] => (t, t.isDir loc)
  | loc, c :: path =>
    if t.isDir loc then createDirectories (t.enter loc c) (next loc c) path else (t, false)

theorem grows_createDirectories (t : FileTree N A) (loc : List N) (path : List (Component N)) :
    t.Grows (t.createDirectories loc path).1 := by
  induction path generalizing t loc with
  | nil => exact .refl t
  | cons c path ih =>
    rw [createDirectories]
    split_ifs
    · exact (grows_enter t loc c).trans (ih ..)
    · exact .refl t

/-- The directories that are there are passed. -/
theorem createDirectories_append (h : t.walk loc path = some loc')
    (hdir : t.node loc' = some .dir) :
    t.createDirectories loc (path ++ path') = t.createDirectories loc' path' := by
  induction path generalizing loc with
  | nil => rw [← Option.some.inj h, List.nil_append]
  | cons c path ih =>
    rw [walk] at h
    split_ifs at h with hloc
    rw [List.cons_append, createDirectories, if_pos hloc, enter_eq_self (dir_of_walk h hdir)]
    exact ih h

/-- A call that is not in anybody's way leaves a directory where the path leads. -/
theorem dir_createDirectories (h : (t.createDirectories loc path).2 = true) :
    (t.createDirectories loc path).1.node (locate loc path) = some .dir := by
  induction path generalizing t loc with
  | nil => exact isDir_iff.1 h
  | cons c path ih =>
    rw [createDirectories] at h ⊢
    split_ifs at h ⊢
    exact ih h

/-- One directory is made in another one, where there is no file. -/
theorem createDirectories_child {name : N} (hdir : t.node loc = some .dir)
    (hfree : ∀ a, t.node (loc ++ [name]) ≠ some (.file a)) :
    ∃ t', t.createDirectories loc [.here, .down name] = (t', true) ∧
      t'.node = Function.update t.node (loc ++ [name]) (some .dir) := by
  have hloc := isDir_iff.2 hdir
  have hmake : t.createDirectories loc [.here, .down name] =
      (t.enter loc (.down name), (t.enter loc (.down name)).isDir (loc ++ [name])) := by
    rw [createDirectories, if_pos hloc]
    change t.createDirectories loc [.down name] = _
    rw [createDirectories, if_pos hloc]
    rfl
  rw [hmake]
  cases hnode : t.node (loc ++ [name]) with
  | none =>
    have hnone : (t.node (loc ++ [name])).isNone = true := by rw [hnode]; rfl
    have hupdate : (t.enter loc (.down name)).node =
        Function.update t.node (loc ++ [name]) (some .dir) := by
      rw [enter, dif_pos ⟨hloc, hnone⟩]
      rfl
    refine ⟨_, Prod.ext rfl ?_, hupdate⟩
    rw [isDir_iff, hupdate, Function.update_self]
  | some x =>
    cases x with
    | file a => exact absurd hnode (hfree a)
    | dir =>
      have hself : t.enter loc (.down name) = t := enter_eq_self hnode
      refine ⟨t, Prod.ext hself ?_, ?_⟩
      · rw [hself, isDir_iff]
        exact hnode
      · rw [← hnode, Function.update_eq_self]

/-- What is at the place is taken away, if it is a file. -/
def unlink (t : FileTree N A) (loc : List N) : FileTree N A where
  node loc' := if loc' = loc ∧ t.isDir loc = false then none else t.node loc'
  root := by
    rw [if_neg]
    · exact t.root
    · rintro ⟨rfl, hfile⟩
      rw [isDir_iff.2 t.root] at hfile
      cases hfile
  parent loc' name hsome := by
    split_ifs at hsome with hdown
    · cases hsome
    have hdir := t.parent loc' name hsome
    rw [if_neg]
    · exact hdir
    · rintro ⟨rfl, hfile⟩
      rw [isDir_iff.2 hdir] at hfile
      cases hfile

theorem unlink_file_iff {a : A} : (t.unlink loc).node loc' = some (.file a) ↔
    loc' ≠ loc ∧ t.node loc' = some (.file a) := by
  simp only [unlink]
  split_ifs with h
  · simp [h.1]
  · rw [iff_and_self]
    rintro hfile rfl
    apply h
    simp [isDir, hfile]

theorem unlink_dir_iff : (t.unlink loc).node loc' = some .dir ↔ t.node loc' = some .dir := by
  simp only [unlink]
  split_ifs with h
  · obtain ⟨rfl, hdir⟩ := h
    rw [← isDir_iff, hdir]
    simp
  · exact .rfl

/-- A file at a place, new or over an old one; none where there is a directory, or no directory
around. -/
def put (t : FileTree N A) (loc : List N) (a : A) : Option (FileTree N A) :=
  if h : t.isDir loc.dropLast = true ∧ t.isDir loc = false then
    some
      { node := Function.update t.node loc (some (.file a))
        root := by
          rw [Function.update_of_ne]
          · exact t.root
          · rintro rfl
            rw [isDir_iff.2 t.root] at h
            cases h.2
        parent := fun loc' name hsome => by
          by_cases heq : loc' ++ [name] = loc
          · have hdir := isDir_iff.1 h.1
            rw [← heq, List.dropLast_concat] at hdir
            rw [Function.update_of_ne (by simp [← heq])]
            exact hdir
          · rw [Function.update_of_ne heq] at hsome
            have hdir := t.parent loc' name hsome
            rw [Function.update_of_ne]
            · exact hdir
            · rintro rfl
              rw [isDir_iff.2 hdir] at h
              cases h.2 }
  else none

theorem exists_put (a : A) (haround : t.node loc.dropLast = some .dir)
    (hloc : t.node loc ≠ some .dir) :
    ∃ t', t.put loc a = some t' ∧ t'.node = Function.update t.node loc (some (.file a)) := by
  have hput : t.isDir loc.dropLast = true ∧ t.isDir loc = false := by
    rw [isDir_iff, ← Bool.not_eq_true, isDir_iff]
    exact ⟨haround, hloc⟩
  rw [put, dif_pos hput]
  exact ⟨_, rfl, rfl⟩

/-! ## Moving -/

/-- What a move needs: something to move; a new place that is not a directory, has one around it and
is not below the old one; and no file that a directory would replace. -/
structure Movable (t : FileTree N A) (old new : List N) : Prop where
  source : (t.node old).isSome
  target : t.isDir new = false
  around : t.isDir new.dropLast
  below : ¬ old <+: new
  replaces : t.isDir old → (t.node new).isNone

instance (t : FileTree N A) (old new : List N) : Decidable (t.Movable old new) :=
  decidable_of_iff ((t.node old).isSome ∧ t.isDir new = false ∧ t.isDir new.dropLast ∧
      ¬ old <+: new ∧ (t.isDir old → (t.node new).isNone))
    ⟨fun ⟨h₁, h₂, h₃, h₄, h₅⟩ => ⟨h₁, h₂, h₃, h₄, h₅⟩,
      fun ⟨h₁, h₂, h₃, h₄, h₅⟩ => ⟨h₁, h₂, h₃, h₄, h₅⟩⟩

/-- The tree in which what was at `old`, with everything below it, is at `new`. -/
def moved (t : FileTree N A) (old new : List N) (h : t.Movable old new) : FileTree N A where
  node loc :=
    if new <+: loc then t.node (old ++ loc.drop new.length)
    else if old <+: loc then none
    else t.node loc
  root := by
    rw [if_neg, if_neg]
    · exact t.root
    · intro hold
      exact h.below (List.prefix_nil.1 hold ▸ List.nil_prefix)
    · intro hnew
      have hdir := h.target
      rw [List.prefix_nil.1 hnew, isDir_iff.2 t.root] at hdir
      cases hdir
  parent loc name hsome := by
    by_cases hnew : new <+: loc
    · rw [if_pos (hnew.trans (List.prefix_append ..)), List.drop_append_of_le_length hnew.length_le,
        ← List.append_assoc] at hsome
      rw [if_pos hnew]
      exact t.parent _ name hsome
    · rw [if_neg hnew]
      by_cases hat : new <+: loc ++ [name]
      · -- `new` is the place itself, so `loc` is what is around it
        obtain rfl := (List.prefix_concat_iff.1 hat).resolve_right hnew
        rw [if_neg fun hold => h.below (hold.trans (List.prefix_append ..))]
        simpa using h.around
      · rw [if_neg hat] at hsome
        by_cases hold : old <+: loc
        · rw [if_pos (hold.trans (List.prefix_append ..))] at hsome
          cases hsome
        · rw [if_neg hold]
          split_ifs at hsome
          · cases hsome
          · exact t.parent loc name hsome

/-- Move what is at one place, with everything below it, to another one, replacing the file there; a
move that is not possible has no effect.  A directory replaces no directory here, where POSIX lets it
replace an empty one. -/
def rename (t : FileTree N A) (old new : List N) : Option (FileTree N A) :=
  if old = new then (t.node old).map fun _ => t
  else if h : t.Movable old new then some (t.moved old new h)
  else none

variable {old new : List N} {a : A}

/-- Nothing is moved onto a directory, or below itself. -/
theorem rename_eq_none (hne : old ≠ new) (h : t.node new = some .dir ∨ old <+: new) :
    t.rename old new = none := by
  rw [rename, if_neg hne, dif_neg]
  intro hm
  cases h with
  | inl hdir =>
    have htarget := hm.target
    rw [isDir_iff.2 hdir] at htarget
    cases htarget
  | inr hbelow => exact hm.below hbelow

/-- A directory is not moved one component away. -/
theorem rename_next_eq_none {c : Component N} (hdir : t.node loc = some .dir)
    (hne : next loc c ≠ loc) : t.rename loc (next loc c) = none := by
  apply rename_eq_none hne.symm
  cases c with
  | here => exact absurd rfl hne
  | up => exact .inl (dir_dropLast hdir)
  | down name => exact .inr (List.prefix_append ..)

/-- A file can be moved to any place in a directory where there is no directory. -/
theorem exists_rename (hfile : t.node old = some (.file a)) (htarget : t.node new ≠ some .dir)
    (haround : t.node new.dropLast = some .dir) : ∃ t', t.rename old new = some t' := by
  rw [rename]
  split_ifs with heq hm
  · rw [hfile]
    exact ⟨t, rfl⟩
  · exact ⟨_, rfl⟩
  · refine absurd ⟨by simp [hfile], ?_, isDir_iff.2 haround, ?_, ?_⟩ hm
    · rw [← Bool.not_eq_true, isDir_iff]
      exact htarget
    · -- below a file there is no directory
      rintro ⟨below, rfl⟩
      have hne : below ≠ [] := by simpa using heq
      rw [List.dropLast_append_of_ne_nil hne] at haround
      have hold : t.node old ≠ some .dir := by simp [hfile]
      by_cases hlast : below.dropLast = []
      · rw [hlast, List.append_nil] at haround
        exact hold haround
      · rw [node_append_eq_none hold hlast] at haround
        cases haround
    · rw [isDir_iff, hfile]
      nofun

/-- A file that is moved is at the new place afterwards, and the other places are as they were. -/
theorem node_rename (hfile : t.node old = some (.file a)) (h : t.rename old new = some t') :
    t'.node new = some (.file a) ∧ ∀ loc, loc ≠ old → loc ≠ new → t'.node loc = t.node loc := by
  rw [rename] at h
  split_ifs at h with heq hm
  · rw [hfile, Option.map_some, Option.some.injEq] at h
    exact ⟨h ▸ heq ▸ hfile, fun loc _ _ => h ▸ rfl⟩
  · obtain rfl := Option.some.inj h
    refine ⟨?_, fun loc hold hnew => ?_⟩
    · simpa [moved] using hfile
    · have hout : ∀ {loc' : List N}, t.node loc' ≠ some .dir → loc ≠ loc' → loc' <+: loc →
          t.node loc = none := fun {loc'} hdir hne hbelow => by
        obtain ⟨below, rfl⟩ := hbelow
        exact node_append_eq_none hdir (by simpa using hne)
      have htarget : t.node new ≠ some .dir := fun hdir => by
        have := hm.target
        rw [isDir_iff.2 hdir] at this
        cases this
      simp only [moved]
      split_ifs with hbelow hbelow'
      · -- below the file, and below the new place, there is nothing
        rw [hout htarget hnew hbelow]
        apply node_append_eq_none (by simp [hfile])
        obtain ⟨below, rfl⟩ := hbelow
        simpa using hnew
      · exact (hout (by simp [hfile]) hold hbelow').symm
      · rfl

/-- No directory comes where a file was. -/
theorem node_rename_old (hfile : t.node old = some (.file a)) (h : t.rename old new = some t') :
    t'.node old ≠ some .dir := by
  have hold : t.node old ≠ some .dir := by simp [hfile]
  rw [rename] at h
  split_ifs at h with heq hm
  · rw [hfile, Option.map_some, Option.some.injEq] at h
    exact h ▸ hold
  · obtain rfl := Option.some.inj h
    simp only [moved]
    split_ifs with hnew hself
    · obtain ⟨below, rfl⟩ := hnew
      have hbelow : below ≠ [] := by simpa using heq
      rw [List.drop_left, node_append_eq_none hold hbelow]
      nofun
    · nofun
    · exact hold

/-- The directories stay where a file is moved. -/
theorem dir_rename (hfile : t.node old = some (.file a)) (h : t.rename old new = some t')
    (hdir : t.node loc = some .dir) : t'.node loc = some .dir := by
  have hold : loc ≠ old := by
    rintro rfl
    cases hfile.symm.trans hdir
  have hnew : loc ≠ new := by
    rintro rfl
    rw [rename_eq_none hold.symm (.inl hdir)] at h
    cases h
  exact ((node_rename hfile h).2 loc hold hnew).trans hdir

end FileTree

import ContractModel.Instrument.Copies
import ContractModel.Proofs.Run
import Mathlib.Data.List.TakeDrop

/-! # Changes of a file tree

No operation moves the current directory, and none takes a directory away or puts a file in its
place. So a directory that was made once need not be made again.
-/

namespace ContractModel.FileTree

variable {t t' u : FileTree} {path source : String} {paths : List String} {content : Bytes}
  {place : List (List Char)} {e : FileEntry}

/-- The later tree has the same current directory and all directories of the earlier one. -/
structure Retains (t t' : FileTree) : Prop where
  current : t'.current = t.current
  directories : ∀ k, t.entries.get? k = some .directory → t'.entries.get? k = some .directory

theorem Retains.refl (t : FileTree) : Retains t t := ⟨rfl, fun _ h => h⟩

theorem Retains.trans (h : Retains t t') (h' : Retains t' u) : Retains t u :=
  ⟨h'.current.trans h.current, fun k hk => h'.directories k (h.directories k hk)⟩

theorem Retains.home_eq (h : Retains t t') : t'.home = t.home := by
  unfold home
  rw [h.current]

theorem entries_ne_of_entryAt? (h : t.entryAt? place ≠ some .directory) :
    t.entries.get? (pathOf place) ≠ some .directory := by
  unfold entryAt? at h
  split at h
  · exact absurd rfl h
  · exact h

theorem retains_put (h : t.entryAt? place ≠ some .directory) (e : FileEntry) :
    Retains t (t.put place e) := by
  refine ⟨rfl, fun k hk => ?_⟩
  have hne : k ≠ pathOf place := by
    rintro rfl
    exact entries_ne_of_entryAt? h hk
  rw [put, SortedMap.get?_insert, if_neg hne, hk]

theorem retains_erase (h : t.entryAt? place ≠ some .directory) :
    Retains t { t with entries := t.entries.erase (pathOf place) } := by
  refine ⟨rfl, fun k hk => ?_⟩
  have hne : k ≠ pathOf place := by
    rintro rfl
    exact entries_ne_of_entryAt? h hk
  rw [SortedMap.get?_erase, if_neg hne, hk]

/-- The path names what is at the place, if it is a file, or may become one. -/
def Names (t : FileTree) (path : String) (place : List (List Char)) : Prop :=
  ∃ target name, t.target path = .ok target ∧ target.name = some name ∧ target.hasSlash = false ∧
    t.step target.directory name = .ok place

/-- A place can be written if it has a name and is not a directory. -/
theorem writable_eq_ok_iff : t.writable path = .ok place ↔
    t.Names path place ∧ t.entryAt? place ≠ some .directory := by
  constructor
  · intro h
    obtain ⟨target, htarget, h⟩ := Run.except_bind_eq_ok_iff.1 h
    split at h
    · next name hname hslash =>
      obtain ⟨found, hfound, h⟩ := Run.except_bind_eq_ok_iff.1 h
      split at h
      · cases h
      · next hentry =>
        cases h
        exact ⟨⟨target, name, htarget, hname, hslash, hfound⟩, hentry⟩
    · cases h
  · rintro ⟨⟨target, name, htarget, hname, hslash, hstep⟩, hentry⟩
    unfold writable
    rw [htarget]
    dsimp only [bind, Except.bind]
    rw [hname, hslash]
    dsimp only
    rw [hstep]
    dsimp only
    split
    · next hdirectory => exact absurd hdirectory hentry
    · rfl

theorem write_eq_ok (h : t.write path content = .ok t') :
    ∃ place, t.writable path = .ok place ∧ t' = t.put place (.file content) := by
  obtain ⟨place, hplace, h⟩ := Run.except_bind_eq_ok_iff.1 h
  cases h
  exact ⟨place, hplace, rfl⟩

theorem copy_eq_ok (h : t.copy source path = .ok t') :
    ∃ place content, t.writable path = .ok place ∧ t' = t.put place (.file content) := by
  obtain ⟨_, -, h⟩ := Run.except_bind_eq_ok_iff.1 h
  split at h
  · cases h
  · cases h
  · obtain ⟨place, hplace, h⟩ := Run.except_bind_eq_ok_iff.1 h
    cases h
    exact ⟨place, _, hplace, rfl⟩

/-- A file that is removed has a name in a directory. -/
theorem remove_eq_ok (h : t.remove path = .ok t') :
    ∃ place content, t.entryAt? place = some (.file content) ∧
      t' = { t with entries := t.entries.erase (pathOf place) } ∧
      ∃ target name, t.target path = .ok target ∧ target.name = some name ∧
        t.step target.directory name = .ok place := by
  obtain ⟨target, htarget, h⟩ := Run.except_bind_eq_ok_iff.1 h
  split at h
  · cases h
  · next name hname =>
    obtain ⟨place, hplace, h⟩ := Run.except_bind_eq_ok_iff.1 h
    split at h
    · next content hentry =>
      split at h
      · cases h
      · cases h
        exact ⟨place, content, hentry, rfl, target, name, htarget, hname, hplace⟩
    · cases h
    · cases h

theorem makeDirectory_eq_ok (h : t.makeDirectory path = .ok t') :
    ∃ target name place, t.target path = .ok target ∧ target.name = some name ∧
      t.step target.directory name = .ok place ∧ t.entryAt? place = none ∧
      t' = t.put place .directory := by
  obtain ⟨target, htarget, h⟩ := Run.except_bind_eq_ok_iff.1 h
  split at h
  · cases h
  · next name hname =>
    obtain ⟨place, hplace, h⟩ := Run.except_bind_eq_ok_iff.1 h
    split at h
    · cases h
    · next hentry =>
      cases h
      exact ⟨target, name, place, htarget, hname, hplace, hentry, rfl⟩

theorem ensureDirectory_eq_ok (h : t.ensureDirectory path = .ok t') :
    t' = t ∧ t.makeDirectory path = .error .alreadyExists ∧ t.isDirectory path ∨
      t.makeDirectory path = .ok t' := by
  unfold ensureDirectory at h
  split at h
  · next hexists =>
    split at h
    · next hdirectory =>
      cases h
      exact .inl ⟨rfl, hexists, hdirectory⟩
    · cases h
  · exact .inr h

theorem retains_write (h : t.write path content = .ok t') : Retains t t' := by
  obtain ⟨place, hplace, rfl⟩ := write_eq_ok h
  exact retains_put (writable_eq_ok_iff.1 hplace).2 _

theorem retains_copy (h : t.copy source path = .ok t') : Retains t t' := by
  obtain ⟨place, content, hplace, rfl⟩ := copy_eq_ok h
  exact retains_put (writable_eq_ok_iff.1 hplace).2 _

theorem retains_remove (h : t.remove path = .ok t') : Retains t t' := by
  obtain ⟨place, content, hentry, rfl, -⟩ := remove_eq_ok h
  refine retains_erase ?_
  rw [hentry]
  simp

theorem retains_ensureDirectory (h : t.ensureDirectory path = .ok t') : Retains t t' := by
  rcases ensureDirectory_eq_ok h with ⟨rfl, -⟩ | h
  · exact .refl t'
  · obtain ⟨_, _, place, -, -, -, hentry, rfl⟩ := makeDirectory_eq_ok h
    refine retains_put ?_ _
    rw [hentry]
    simp

theorem retains_ensureLine (h : t.ensureLine paths = .ok t') : Retains t t' := by
  induction paths generalizing t' with
  | nil =>
    cases h
    exact .refl t
  | cons path above ih =>
    unfold ensureLine at h
    split at h
    · obtain ⟨u, hu, h⟩ := Run.except_bind_eq_ok_iff.1 h
      exact (ih hu).trans (retains_ensureDirectory h)
    · exact retains_ensureDirectory h

theorem retains_createDirectories (h : t.createDirectories path = .ok t') : Retains t t' :=
  retains_ensureLine h

section Directories

/-- The trees have the same files. -/
def SameFiles (t t' : FileTree) : Prop :=
  ∀ k content, t'.entries.get? k = some (.file content) ↔ t.entries.get? k = some (.file content)

theorem sameFiles_ensureDirectory (h : t.ensureDirectory path = .ok t') : SameFiles t t' := by
  rcases ensureDirectory_eq_ok h with ⟨rfl, -⟩ | h
  · exact fun _ _ => .rfl
  · obtain ⟨_, _, place, -, -, -, hentry, rfl⟩ := makeDirectory_eq_ok h
    have hnone : t.entries.get? (pathOf place) = none := by
      unfold entryAt? at hentry
      split at hentry
      · cases hentry
      · exact hentry
    intro k content
    rw [put, SortedMap.get?_insert]
    split
    · next hk => simp [hk, hnone]
    · exact .rfl

theorem sameFiles_ensureLine (h : t.ensureLine paths = .ok t') : SameFiles t t' := by
  induction paths generalizing t' with
  | nil =>
    cases h
    exact fun _ _ => .rfl
  | cons path above ih =>
    unfold ensureLine at h
    split at h
    · obtain ⟨u, hu, h⟩ := Run.except_bind_eq_ok_iff.1 h
      exact fun k content => (sameFiles_ensureDirectory h k content).trans (ih hu k content)
    · exact sameFiles_ensureDirectory h

/-- Making directories neither adds files nor changes any. -/
theorem sameFiles_createDirectories (h : t.createDirectories path = .ok t') : SameFiles t t' :=
  sameFiles_ensureLine h

end Directories

/-- On any device, a file is written or stays as it was. -/
theorem write_on_device (device : Device) (t : FileTree) (path : String) (content : Bytes) :
    (device.write t path content).2 = t ∨
      ∃ kept, t.write path kept = .ok (device.write t path content).2 := by
  unfold Device.write write
  cases t.writable path with
  | error fault => exact .inl rfl
  | ok place =>
    cases device.storing t path content with
    | stored => exact .inr ⟨content, rfl⟩
    | refused fault => exact .inl rfl
    | cut length fault => exact .inr ⟨content.take length, rfl⟩

theorem write_on_device_eq_ok {device : Device}
    (h : device.write t path content = (.ok (), t')) :
    ∃ place, t.writable path = .ok place ∧ t' = t.put place (.file content) := by
  unfold Device.write at h
  split at h
  · cases h
  · next place hplace =>
    split at h
    · cases h
      exact ⟨place, hplace, rfl⟩
    · cases h
    · cases h

theorem write_on_device_eq_error {device : Device} {fault : FileFault} (hwhole : device.Whole)
    (h : device.write t path content = (.error fault, t')) : t' = t := by
  unfold Device.write at h
  split at h
  · cases h
    rfl
  · split at h
    · cases h
    · cases h
      rfl
    · next hcut => exact absurd hcut (hwhole t path content _ _)

theorem retains_write_on_device (device : Device) (t : FileTree) (path : String)
    (content : Bytes) : Retains t (device.write t path content).2 := by
  rcases write_on_device device t path content with heq | ⟨kept, hwrite⟩
  · rw [heq]
    exact .refl t
  · exact retains_write hwrite

section Made

variable {name : List Char} {names : List (List Char)}

theorem Retains.entryAt? (h : Retains t t') (hplace : t.entryAt? place = some .directory) :
    t'.entryAt? place = some .directory := by
  unfold FileTree.entryAt? at *
  rw [h.home_eq]
  split
  · rfl
  · next hprefix =>
    rw [if_neg hprefix] at hplace
    exact h.directories _ hplace

theorem entryAt?_of_step {next : List (List Char)} (h : t.step place name = .ok next) :
    t.entryAt? place = some .directory := by
  unfold step at h
  split at h
  · cases h
  · cases h
  · next hentry => exact hentry

theorem Retains.step (h : Retains t t') {next : List (List Char)}
    (hstep : t.step place name = .ok next) : t'.step place name = .ok next := by
  have hentry := entryAt?_of_step hstep
  unfold FileTree.step at *
  rwa [h.entryAt? hentry, ← hentry]

theorem Retains.walk (h : Retains t t') (hwalk : t.walk path names = .ok place) :
    t'.walk path names = .ok place := by
  unfold FileTree.walk at *
  rw [h.home_eq]
  generalize (if Path.isAbsolute path then [] else t.home) = start at *
  induction names generalizing start with
  | nil => exact hwalk
  | cons name names ih =>
    rw [List.foldlM_cons] at *
    obtain ⟨next, hnext, hwalk⟩ := Run.except_bind_eq_ok_iff.1 hwalk
    rw [h.step hnext]
    exact ih next hwalk

theorem Retains.locate (h : Retains t t') (hlocate : t.locate path = .ok place) :
    t'.locate path = .ok place := by
  obtain ⟨_, hcheck, hwalk⟩ := Run.except_bind_eq_ok_iff.1 hlocate
  unfold FileTree.locate
  rw [hcheck]
  exact h.walk hwalk

theorem Retains.target (h : Retains t t') {target : Target} (htarget : t.target path = .ok target) :
    t'.target path = .ok target := by
  obtain ⟨_, hcheck, hresult⟩ := Run.except_bind_eq_ok_iff.1 htarget
  unfold FileTree.target
  rw [hcheck]
  generalize (Text.splitOnChar '/' path.toList).reverse.span (· = []) = parts at hresult
  obtain ⟨slashes, names⟩ := parts
  cases names with
  | nil => exact hresult
  | cons last front =>
    obtain ⟨above, hwalk, hresult⟩ := Run.except_bind_eq_ok_iff.1 hresult
    obtain ⟨directory, hstep, hresult⟩ := Run.except_bind_eq_ok_iff.1 hresult
    dsimp only [bind, Except.bind]
    rw [h.walk hwalk]
    dsimp only
    rw [h.step hstep]
    exact hresult

theorem eq_of_step_nil {next : List (List Char)} (h : t.step place [] = .ok next) :
    next = place := by
  have hentry := entryAt?_of_step h
  unfold step at h
  rw [hentry] at h
  exact (Except.ok.inj h).symm

theorem step_nil (h : t.entryAt? place = some .directory) : t.step place [] = .ok place := by
  unfold step
  rw [h]
  exact if_pos (.inl rfl)

/-- Slashes at the end stay in the directory. -/
theorem eq_of_foldlM_step {slashes : List (List Char)} (hslashes : ∀ s ∈ slashes, s = [])
    {next : List (List Char)} (h : slashes.foldlM t.step place = .ok next) : next = place := by
  induction slashes generalizing place with
  | nil =>
    cases h
    rfl
  | cons s slashes ih =>
    obtain ⟨rfl, hrest⟩ := List.forall_mem_cons.1 hslashes
    rw [List.foldlM_cons] at h
    obtain ⟨here, hhere, h⟩ := Run.except_bind_eq_ok_iff.1 h
    rw [eq_of_step_nil hhere] at h
    exact ih hrest h

theorem foldlM_step_slashes {slashes : List (List Char)} (hslashes : ∀ s ∈ slashes, s = [])
    (hplace : t.entryAt? place = some .directory) :
    slashes.foldlM t.step place = .ok place := by
  induction slashes with
  | nil => rfl
  | cons s slashes ih =>
    obtain ⟨rfl, hrest⟩ := List.forall_mem_cons.1 hslashes
    rw [List.foldlM_cons, step_nil hplace]
    exact ih hrest

/-- The slashes at the end of a path, and the names in front of them, the last one first. -/
theorem span_reverse_segments (segments : List (List Char)) : ∃ slashes names,
    segments.reverse.span (· = []) = (slashes, names) ∧
      segments = names.reverse ++ slashes.reverse ∧ ∀ s ∈ slashes.reverse, s = [] := by
  refine ⟨_, _, List.span_eq_takeWhile_dropWhile _ _, ?_, fun s hs => ?_⟩
  · rw [← List.reverse_append, List.takeWhile_append_dropWhile, List.reverse_reverse]
  · exact of_decide_eq_true (List.all_eq_true.1 List.all_takeWhile s (List.mem_reverse.1 hs))

/-- The last name of a path stands for a step down from its directory; behind it are only
slashes. -/
theorem target_eq_ok {target : Target} (h : t.target path = .ok target)
    (hname : target.name = some name) : ∃ front slashes,
      Text.splitOnChar '/' path.toList = front ++ name :: slashes ∧ (∀ s ∈ slashes, s = []) ∧
      (name ≠ [] ∧ name ≠ ['.'] ∧ name ≠ ['.', '.']) ∧ target.hasSlash = !slashes.isEmpty ∧
      checkPath path = .ok () ∧ t.walk path front = .ok target.directory := by
  obtain ⟨_, hcheck, h⟩ := Run.except_bind_eq_ok_iff.1 h
  obtain ⟨slashes, names, hspan, hsegments, hslashes⟩ :=
    span_reverse_segments (Text.splitOnChar '/' path.toList)
  have hnames : names = (Text.splitOnChar '/' path.toList).reverse.dropWhile (· = []) :=
    congrArg Prod.snd (hspan.symm.trans (List.span_eq_takeWhile_dropWhile _ _))
  rw [hspan] at h
  cases names with
  | nil =>
    cases h
    cases hname
  | cons last front =>
    obtain ⟨above, hwalk, hrest⟩ := Run.except_bind_eq_ok_iff.1 h
    obtain ⟨directory, hstay, hresult⟩ := Run.except_bind_eq_ok_iff.1 hrest
    obtain rfl := eq_of_step_nil hstay
    cases hresult
    have hne : last ≠ [] := by
      have hhead := List.head?_dropWhile_not (· = []) (Text.splitOnChar '/' path.toList).reverse
      rw [← hnames] at hhead
      simpa using hhead
    dsimp only at hname
    split at hname
    · cases hname
    · next hdots =>
      cases hname
      rw [not_or] at hdots
      refine ⟨front.reverse, slashes.reverse, ?_, hslashes, ⟨hne, hdots⟩, ?_, hcheck, hwalk⟩
      · rw [hsegments, List.reverse_cons, List.append_assoc, List.singleton_append]
      · rw [List.isEmpty_reverse]

/-- A path whose last name is a directory leads there. -/
theorem locate_of_target {target : Target} (htarget : t.target path = .ok target)
    (hname : target.name = some name) (hstep : t.step target.directory name = .ok place)
    (hplace : t.entryAt? place = some .directory) : t.locate path = .ok place := by
  obtain ⟨front, slashes, hsegments, hslashes, -, -, hcheck, hwalk⟩ := target_eq_ok htarget hname
  unfold locate walk at *
  rw [hcheck, hsegments, List.foldlM_append]
  dsimp only [bind, Except.bind]
  rw [hwalk]
  dsimp only
  rw [List.foldlM_cons, hstep]
  exact foldlM_step_slashes hslashes hplace

/-- A path that leads somewhere leads to its last name, if it has one. -/
theorem target_of_locate (h : t.locate path = .ok place) : ∃ target, t.target path = .ok target ∧
    ∀ name, target.name = some name → t.step target.directory name = .ok place := by
  obtain ⟨_, hcheck, h⟩ := Run.except_bind_eq_ok_iff.1 h
  obtain ⟨slashes, names, hspan, hsegments, hslashes⟩ :=
    span_reverse_segments (Text.splitOnChar '/' path.toList)
  unfold target
  rw [hcheck, hspan]
  cases names with
  | nil => exact ⟨_, rfl, nofun⟩
  | cons last front =>
    unfold walk at *
    rw [hsegments, List.reverse_cons, List.append_assoc, List.foldlM_append] at h
    obtain ⟨directory, hwalk, h⟩ := Run.except_bind_eq_ok_iff.1 h
    rw [List.singleton_append, List.foldlM_cons] at h
    obtain ⟨here, hhere, h⟩ := Run.except_bind_eq_ok_iff.1 h
    obtain rfl := eq_of_foldlM_step hslashes h
    dsimp only [bind, Except.bind]
    rw [hwalk]
    dsimp only
    rw [step_nil (entryAt?_of_step hhere)]
    refine ⟨_, rfl, fun name hname => ?_⟩
    dsimp only at hname
    split at hname
    · cases hname
    · cases hname
      exact hhere

theorem isDirectory_iff : t.isDirectory path ↔
    ∃ place, t.locate path = .ok place ∧ t.entryAt? place = some .directory := by
  unfold isDirectory entry?
  constructor
  · intro h
    split at h
    · next hentry =>
      obtain ⟨place, hlocate, hentry⟩ := Run.except_bind_eq_ok_iff.1 hentry
      refine ⟨place, hlocate, ?_⟩
      split at hentry
      · next e he =>
        cases hentry
        exact he
      · cases hentry
    · cases h
  · rintro ⟨place, hlocate, hplace⟩
    rw [hlocate]
    dsimp only [bind, Except.bind]
    rw [hplace]
    rfl

theorem Retains.isDirectory (h : Retains t t') (hpath : t.isDirectory path) :
    t'.isDirectory path := by
  obtain ⟨place, hlocate, hplace⟩ := isDirectory_iff.1 hpath
  exact isDirectory_iff.2 ⟨place, h.locate hlocate, h.entryAt? hplace⟩

/-- A directory that is there is not made again. -/
theorem ensureDirectory_of_isDirectory (h : t.isDirectory path) :
    t.ensureDirectory path = .ok t := by
  obtain ⟨place, hlocate, hplace⟩ := isDirectory_iff.1 h
  obtain ⟨target, htarget, hstep⟩ := target_of_locate hlocate
  have hmake : t.makeDirectory path = .error .alreadyExists := by
    unfold makeDirectory
    rw [htarget]
    dsimp only [bind, Except.bind]
    split
    · rfl
    · next name hname =>
      rw [hstep name hname]
      dsimp only
      rw [hplace]
      rfl
  unfold ensureDirectory
  rw [hmake]
  exact if_pos h

theorem isDirectory_of_ensureDirectory (h : t.ensureDirectory path = .ok t') :
    t'.isDirectory path := by
  have hretains := retains_ensureDirectory h
  rcases ensureDirectory_eq_ok h with ⟨rfl, -, hdirectory⟩ | h
  · exact hdirectory
  · obtain ⟨target, name, place, htarget, hname, hstep, -, rfl⟩ := makeDirectory_eq_ok h
    have hplace : (t.put place .directory).entryAt? place = some .directory := by
      unfold entryAt?
      split
      · rfl
      · rw [put, SortedMap.get?_insert, if_pos rfl]
    refine isDirectory_iff.2 ⟨place, ?_, hplace⟩
    exact locate_of_target (hretains.target htarget) hname (hretains.step hstep) hplace

/-- Directories that were made once are not made again. -/
theorem createDirectories_of_retains (h : t.createDirectories path = .ok t')
    (hretains : Retains t' u) : u.createDirectories path = .ok u := by
  unfold createDirectories at *
  cases hlineage : Path.lineage path with
  | nil => rfl
  | cons path above =>
    have hdirectory : t'.isDirectory path := by
      rw [hlineage] at h
      unfold ensureLine at h
      split at h
      · obtain ⟨_, -, h⟩ := Run.except_bind_eq_ok_iff.1 h
        exact isDirectory_of_ensureDirectory h
      · exact isDirectory_of_ensureDirectory h
    unfold ensureLine
    rw [ensureDirectory_of_isDirectory (hretains.isDirectory hdirectory)]

end Made

end ContractModel.FileTree

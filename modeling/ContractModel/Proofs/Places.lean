import ContractModel.Proofs.FileTree
import ContractModel.Proofs.Path

/-! # Where files are

An operation on a file tree that succeeds reaches the place to which its path leads. So it changes
no entry but the one under the normal form of the path.
-/

namespace ContractModel

open ContractModel.Path (Plain steps)

namespace FileTree

variable {t t' : FileTree} {path source : String} {place place' next : List (List Char)}
  {name : List Char} {segments : List (List Char)} {target : Target} {content : Bytes}

theorem plain_home (t : FileTree) : ∀ name ∈ t.home, Plain name :=
  Path.plain_resolve (fun _ => by simp) t.current

theorem plain_resolve_home (t : FileTree) (path : String) :
    ∀ name ∈ Path.resolve t.home path, Plain name :=
  Path.plain_resolve t.plain_home path

theorem pathOf_resolve (t : FileTree) (path : String) :
    pathOf (Path.resolve t.home path) = Path.normalize t.current path := by
  have hhome : t.home = Path.walk [] (Path.components t.current.toList) := by
    rw [home, Path.resolve, ite_self]
  rw [pathOf, hhome, Path.normalize]

theorem pathOf_injective (h : ∀ name ∈ place, Plain name) (h' : ∀ name ∈ place', Plain name)
    (heq : pathOf place = pathOf place') : place = place' :=
  Path.join_injective h h' (String.ofList_injective heq)

/-- One normal form, one place. -/
theorem resolve_eq_of_normalize_eq {other : String}
    (h : Path.normalize t.current path = Path.normalize t.current other) :
    Path.resolve t.home path = Path.resolve t.home other := by
  rw [← pathOf_resolve, ← pathOf_resolve] at h
  exact pathOf_injective (t.plain_resolve_home path) (t.plain_resolve_home other) h

theorem step_eq (h : t.step place name = .ok next) : next = Path.walk place (steps [name]) := by
  have hentry := entryAt?_of_step h
  unfold step at h
  rw [hentry] at h
  dsimp only at h
  unfold steps
  split at h
  · next htrivial =>
    cases h
    rw [List.filter_cons_of_neg (by simpa [or_iff_not_imp_left] using htrivial)]
    rfl
  · next htrivial =>
    rw [not_or] at htrivial
    rw [List.filter_cons_of_pos (by simpa using htrivial)]
    split at h
    · next hdots =>
      cases h
      exact (if_pos hdots).symm
    · next hdots =>
      split at h
      · cases h
      · cases h
        exact (if_neg hdots).symm

theorem walk_eq (h : t.walk path segments = .ok place) :
    place = Path.walk (if Path.isAbsolute path then [] else t.home) (steps segments) := by
  unfold walk at h
  generalize (if Path.isAbsolute path then [] else t.home) = start at *
  induction segments generalizing start with
  | nil => exact (Except.ok.inj h).symm
  | cons segment segments ih =>
    rw [List.foldlM_cons] at h
    obtain ⟨next, hnext, h⟩ := Run.except_bind_eq_ok_iff.1 h
    rw [← List.singleton_append, Path.steps_append, Path.walk_append, ← step_eq hnext]
    exact ih next h

theorem locate_eq (h : t.locate path = .ok place) : place = Path.resolve t.home path := by
  obtain ⟨_, -, h⟩ := Run.except_bind_eq_ok_iff.1 h
  exact walk_eq h

/-- The last name of a path is found at the place to which the path leads. -/
theorem eq_resolve_of_target (h : t.target path = .ok target) (hname : target.name = some name)
    (hstep : t.step target.directory name = .ok place) : place = Path.resolve t.home path := by
  obtain ⟨front, slashes, hsegments, hslashes, -, -, -, hwalk⟩ := target_eq_ok h hname
  have hnil : steps slashes = [] := List.filter_eq_nil_iff.2 fun s hs => by simp [hslashes s hs]
  have hlast : steps (name :: slashes) = steps [name] := by
    rw [← List.singleton_append, Path.steps_append, hnil, List.append_nil]
  rw [step_eq hstep, walk_eq hwalk, Path.resolve, Path.components_eq_steps, hsegments,
    Path.steps_append, hlast, Path.walk_append]

theorem Names.eq_resolve (h : t.Names path place) : place = Path.resolve t.home path := by
  obtain ⟨target, name, htarget, hname, -, hstep⟩ := h
  exact eq_resolve_of_target htarget hname hstep

theorem Names.of_retains (h : t.Names path place) (hretains : t.Retains t') :
    t'.Names path place := by
  obtain ⟨target, name, htarget, hname, hslash, hstep⟩ := h
  exact ⟨target, name, hretains.target htarget, hname, hslash, hretains.step hstep⟩

/-- A path that names a file ends in a name. -/
theorem Names.exists_segments (h : t.Names path place) : ∃ front name,
    Text.splitOnChar '/' path.toList = front ++ [name] ∧ Plain name ∧ checkPath path = .ok () ∧
      ∃ directory, t.walk path front = .ok directory ∧ t.step directory name = .ok place := by
  obtain ⟨target, name, htarget, hname, hslash, hstep⟩ := h
  obtain ⟨front, slashes, hsegments, -, ⟨hne, hdot, hdots⟩, hnone, hcheck, hwalk⟩ :=
    target_eq_ok htarget hname
  have hslashes : slashes = [] := by simpa [hslash] using hnone
  subst hslashes
  have hmem : name ∈ Text.splitOnChar '/' path.toList :=
    hsegments ▸ List.mem_append_right _ (List.mem_singleton_self name)
  exact ⟨front, name, hsegments, ⟨Text.notMem_of_mem_splitOnChar hmem, hne, hdot, hdots⟩, hcheck,
    _, hwalk, hstep⟩

/-- A path that names a file leads to it. -/
theorem Names.locate (h : t.Names path place) : t.locate path = .ok place := by
  obtain ⟨front, name, hsegments, -, hcheck, directory, hwalk, hstep⟩ := h.exists_segments
  unfold FileTree.locate FileTree.walk at *
  rw [hcheck, hsegments, List.foldlM_append]
  dsimp only [bind, Except.bind]
  rw [hwalk]
  dsimp only
  rw [List.foldlM_cons, hstep]
  rfl

/-- What a path names is read under it. -/
theorem Names.read (h : t.Names path place) (hentry : t.entryAt? place = some (.file content)) :
    t.read path = .ok content := by
  unfold FileTree.read entry?
  rw [h.locate]
  dsimp only [bind, Except.bind]
  rw [hentry]
  rfl

theorem read_eq_ok_iff : t.read path = .ok content ↔
    t.locate path = .ok (Path.resolve t.home path) ∧
      ¬ (Path.resolve t.home path).isPrefixOf t.home ∧
      t.entries.get? (Path.normalize t.current path) = some (.file content) := by
  rw [← pathOf_resolve]
  constructor
  · intro h
    obtain ⟨e, hentry, h⟩ := Run.except_bind_eq_ok_iff.1 h
    obtain ⟨place, hlocate, hentry⟩ := Run.except_bind_eq_ok_iff.1 hentry
    obtain rfl := locate_eq hlocate
    by_cases hplace : (Path.resolve t.home path).isPrefixOf t.home
    · rw [entryAt?, if_pos hplace] at hentry
      cases hentry
      cases h
    · rw [entryAt?, if_neg hplace] at hentry
      refine ⟨hlocate, hplace, ?_⟩
      split at hentry
      · next found hfound =>
        cases hentry
        cases e with
        | file kept =>
          cases h
          exact hfound
        | directory => cases h
      · cases hentry
  · rintro ⟨hlocate, hplace, hentry⟩
    unfold FileTree.read entry?
    rw [hlocate]
    dsimp only [bind, Except.bind]
    rw [entryAt?, if_neg hplace, hentry]
    rfl

/-- A file is read as before from a tree that has all directories and that file. -/
theorem read_of_retains (h : t.Retains t') (hread : t.read path = .ok content)
    (hentry : t'.entries.get? (Path.normalize t.current path) = some (.file content)) :
    t'.read path = .ok content := by
  obtain ⟨hlocate, hplace, -⟩ := read_eq_ok_iff.1 hread
  rw [← h.current] at hentry
  rw [← h.home_eq] at hlocate hplace
  exact read_eq_ok_iff.2 ⟨h.locate hlocate, hplace, hentry⟩

theorem Names.remove_eq (h : t.Names path place) : t.remove path =
    match t.entryAt? place with
    | some (.file _) => .ok { t with entries := t.entries.erase (pathOf place) }
    | some .directory => .error .isDirectory
    | none => .error .missing := by
  obtain ⟨target, name, htarget, hname, hslash, hstep⟩ := h
  unfold remove
  rw [htarget]
  dsimp only [bind, Except.bind]
  rw [hname]
  dsimp only
  rw [hstep]
  dsimp only
  rw [hslash]
  cases t.entryAt? place with
  | none => rfl
  | some e => cases e <;> rfl

/-- Once it is removed, there is no file at the place that a path names. -/
theorem Names.notFile_remove (h : t.Names path place) (hplace : ¬ place.isPrefixOf t.home)
    (content : Bytes) :
    ((t.remove path).toOption.getD t).entries.get? (pathOf place) ≠ some (.file content) := by
  have hentry : t.entryAt? place = t.entries.get? (pathOf place) := if_neg hplace
  rw [h.remove_eq, hentry]
  cases hget : t.entries.get? (pathOf place) with
  | none => simp [Except.toOption, hget]
  | some e =>
    cases e with
    | directory => simp [Except.toOption, hget]
    | file kept => simp [Except.toOption, SortedMap.get?_erase]

theorem get?_remove_of_ne {k : String} (hk : k ≠ Path.normalize t.current path) :
    ((t.remove path).toOption.getD t).entries.get? k = t.entries.get? k := by
  cases hremove : t.remove path with
  | error fault => rfl
  | ok t' =>
    obtain ⟨place, content, -, rfl, target, name, htarget, hname, hstep⟩ := remove_eq_ok hremove
    rw [eq_resolve_of_target htarget hname hstep, pathOf_resolve]
    exact (SortedMap.get?_erase ..).trans (if_neg hk)

/-- Removing brings no file back. -/
theorem notFile_remove {k : String} (h : t.entries.get? k ≠ some (.file content)) (path : String) :
    ((t.remove path).toOption.getD t).entries.get? k ≠ some (.file content) := by
  cases hremove : t.remove path with
  | error fault => exact h
  | ok t' =>
    obtain ⟨place, _, -, rfl, -⟩ := remove_eq_ok hremove
    simp only [Except.toOption, Option.getD_some, SortedMap.get?_erase]
    split
    · simp
    · exact h

/-- The tree with another entry under the normal form of a path. -/
theorem get?_put (t : FileTree) (path : String) (e : FileEntry) (k : String) :
    (t.put (Path.resolve t.home path) e).entries.get? k =
      if k = Path.normalize t.current path then some e else t.entries.get? k := by
  rw [put, SortedMap.get?_insert, pathOf_resolve]

theorem get?_write_of_ne (h : t.write path content = .ok t') {k : String}
    (hk : k ≠ Path.normalize t.current path) : t'.entries.get? k = t.entries.get? k := by
  obtain ⟨place, hplace, rfl⟩ := write_eq_ok h
  obtain rfl := (writable_eq_ok_iff.1 hplace).1.eq_resolve
  rw [get?_put, if_neg hk]

theorem get?_copy_of_ne (h : t.copy source path = .ok t') {k : String}
    (hk : k ≠ Path.normalize t.current path) : t'.entries.get? k = t.entries.get? k := by
  obtain ⟨place, content, hplace, rfl⟩ := copy_eq_ok h
  obtain rfl := (writable_eq_ok_iff.1 hplace).1.eq_resolve
  rw [get?_put, if_neg hk]

/-- The path of a file that was written names it. -/
theorem names_of_write (h : t.write path content = .ok t') :
    ∃ place, t'.Names path place ∧ ¬ place.isPrefixOf t'.home := by
  have hretains := retains_write h
  obtain ⟨place, hplace, rfl⟩ := write_eq_ok h
  obtain ⟨hnames, hentry⟩ := writable_eq_ok_iff.1 hplace
  refine ⟨place, hnames.of_retains hretains, fun hprefix => hentry (if_pos ?_)⟩
  rwa [← hretains.home_eq]

/-- A file that was written is read under its path. -/
theorem read_of_write (h : t.write path content = .ok t') : t'.read path = .ok content := by
  have hretains := retains_write h
  obtain ⟨place, hplace, rfl⟩ := write_eq_ok h
  obtain ⟨hnames, hentry⟩ := writable_eq_ok_iff.1 hplace
  refine (hnames.of_retains hretains).read ?_
  have hprefix : ¬ place.isPrefixOf (t.put place (.file content)).home :=
    fun hprefix => hentry (if_pos hprefix)
  rw [entryAt?, if_neg hprefix, put, SortedMap.get?_insert, if_pos rfl]

end FileTree

namespace Copies

variable {path path' : String} {current : List (List Char)} {name : List Char}

theorem plain_prefixed (h : '/' ∉ name) : Plain (namePrefix.toList ++ name) where
  slash := by
    rw [List.mem_append, not_or]
    exact ⟨by decide, h⟩
  nonempty := by simp [namePrefix]
  dot := by simp [namePrefix]
  dots := by simp [namePrefix]

/-- The copy of a source stands beside it, under the prefixed name. Without a name, the copy stands
in it. -/
theorem exists_resolve_pathOf (path : String) (current : List (List Char)) : ∃ above name,
    Path.resolve current (pathOf path) = above ++ [namePrefix.toList ++ name] ∧
      Path.resolve current path = if name = [] then above else above ++ [name] := by
  unfold pathOf Path.withFileName
  cases hsplit : Path.splitName path with
  | none =>
    have hname : Path.fileName? path = none := by rw [Path.fileName?, hsplit, Option.map_none]
    have hplain : Plain (namePrefix ++ (Path.fileName? path).getD "").toList := by
      rw [hname, String.toList_append]
      exact plain_prefixed List.not_mem_nil
    refine ⟨Path.resolve current path, [], ?_, (if_pos rfl).symm⟩
    dsimp only
    rw [Path.resolve_append hplain, hname, String.toList_append]
    rfl
  | some parts =>
    obtain ⟨above, name⟩ := parts
    have hname : Path.fileName? path = some (String.ofList name) := by
      rw [Path.fileName?, hsplit, Option.map_some]
    obtain ⟨hlast, -⟩ := Path.exists_front_of_splitName hsplit
    have hplain : Plain (namePrefix ++ (Path.fileName? path).getD "").toList := by
      rw [hname, String.toList_append, Option.getD_some, String.toList_ofList]
      exact plain_prefixed hlast.slash
    refine ⟨Path.resolve current above, name, ?_, ?_⟩
    · dsimp only
      rw [Path.resolve_append hplain, hname, String.toList_append, Option.getD_some,
        String.toList_ofList]
    · rw [if_neg hlast.nonempty, Path.resolve_of_splitName hsplit]

/-- Copies at one place are copies of sources at one place. -/
theorem resolve_pathOf_injective
    (h : Path.resolve current (pathOf path) = Path.resolve current (pathOf path')) :
    Path.resolve current path = Path.resolve current path' := by
  obtain ⟨above, name, hcopy, hpath⟩ := exists_resolve_pathOf path current
  obtain ⟨above', name', hcopy', hpath'⟩ := exists_resolve_pathOf path' current
  rw [hcopy, hcopy'] at h
  obtain ⟨rfl, hnames⟩ := List.append_inj' h rfl
  obtain rfl := List.append_cancel_left (List.singleton_inj.1 hnames)
  rw [hpath, hpath']

end Copies

end ContractModel

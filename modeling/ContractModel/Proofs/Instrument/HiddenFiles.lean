import ContractModel.Proofs.FileTree
import ContractModel.Proofs.Instrument.HiddenPaths
import ContractModel.Proofs.Link.Addresses
import Mathlib.Data.List.TakeDrop

/-! # File trees with hidden files

Trees that agree outside of hidden names cannot be told apart by paths without such names, and they
still agree when one of them is changed under a hidden name, or both in the same way.
-/

namespace ContractModel.FileTree

open ContractModel.Path Text

variable {t t' u u' : FileTree} {path source : String} {name : List Char} {content : Bytes}
  {place directory : List (List Char)} {e : FileEntry}

/-- No name on the way to the place is hidden. -/
def VisiblePlace (place : List (List Char)) : Prop :=
  ∀ name ∈ place, '/' ∉ name ∧ ¬ IsHidden name

/-- The trees differ in what has a hidden name, if at all. -/
structure AgreeOutside (t t' : FileTree) : Prop where
  current : t'.current = t.current
  entries : ∀ place, VisiblePlace place → t'.entryAt? place = t.entryAt? place

theorem AgreeOutside.refl (t : FileTree) : AgreeOutside t t := ⟨rfl, fun _ _ => rfl⟩

theorem AgreeOutside.trans (h : AgreeOutside t t') (h' : AgreeOutside t' u) : AgreeOutside t u :=
  ⟨h'.current.trans h.current,
    fun place hplace => (h'.entries place hplace).trans (h.entries place hplace)⟩

section Hidden

theorem toList_pathOf_concat (directory : List (List Char)) (name : List Char) :
    ∃ front, (pathOf (directory ++ [name])).toList = front ++ '/' :: name := by
  refine ⟨directory.flatMap fun c => '/' :: c, ?_⟩
  rw [pathOf, String.toList_ofList, join, if_neg (by simp), List.flatMap_append,
    List.flatMap_singleton]

/-- A place under a hidden name is not the place of a visible path. -/
theorem pathOf_ne (h : VisiblePlace place) (hslash : '/' ∉ name) (hname : IsHidden name)
    (directory : List (List Char)) : pathOf place ≠ pathOf (directory ++ [name]) := by
  intro heq
  obtain ⟨front, hfront⟩ := toList_pathOf_concat directory name
  rw [← heq] at hfront
  rcases place.eq_nil_or_concat with rfl | ⟨above, last, rfl⟩
  · have hroot : [] ++ '/' :: [] = front ++ '/' :: name := hfront
    obtain ⟨-, rfl⟩ := AddressBook.append_separator_injective List.not_mem_nil hslash hroot
    exact not_isHidden_nil hname
  · rw [List.concat_eq_append] at hfront h
    obtain ⟨hlast, hvisible⟩ := h last (List.mem_append_right _ (List.mem_singleton_self _))
    obtain ⟨front', hfront'⟩ := toList_pathOf_concat above last
    obtain ⟨-, rfl⟩ :=
      AddressBook.append_separator_injective hlast hslash (hfront'.symm.trans hfront)
    exact hvisible hname

theorem agreeOutside_put (hslash : '/' ∉ name) (hname : IsHidden name)
    (directory : List (List Char)) (e : FileEntry) :
    AgreeOutside t (t.put (directory ++ [name]) e) := by
  refine ⟨rfl, fun place hplace => ?_⟩
  unfold entryAt?
  rw [show (t.put (directory ++ [name]) e).home = t.home from rfl, put, SortedMap.get?_insert,
    if_neg (pathOf_ne hplace hslash hname directory)]

theorem agreeOutside_erase (hslash : '/' ∉ name) (hname : IsHidden name)
    (directory : List (List Char)) :
    AgreeOutside t { t with entries := t.entries.erase (pathOf (directory ++ [name])) } := by
  refine ⟨rfl, fun place hplace => ?_⟩
  unfold entryAt?
  rw [SortedMap.get?_erase, if_neg (pathOf_ne hplace hslash hname directory)]
  rfl

theorem step_of_isHidden (hname : IsHidden name) (h : t.step directory name = .ok place) :
    place = directory ++ [name] := by
  unfold step at h
  split at h
  · cases h
  · cases h
  · split at h
    · next hdot =>
      rcases hdot with rfl | rfl <;> exact absurd hname (by decide)
    · split at h
      · next hdots =>
        subst hdots
        exact absurd hname (by decide)
      · split at h
        · cases h
        · cases h
          rfl

theorem target_of_endsHidden (h : EndsHidden path) {target : Target}
    (htarget : t.target path = .ok target) (hname : target.name = some name) :
    '/' ∉ name ∧ IsHidden name := by
  obtain ⟨front, last, hpath, hhidden⟩ := h
  obtain ⟨_, -, htarget⟩ := Run.except_bind_eq_ok_iff.1 htarget
  have hne : last ≠ [] := by
    rintro rfl
    exact not_isHidden_nil hhidden
  have hmem : last ∈ splitOnChar '/' path.toList := by
    rw [hpath]
    exact List.mem_append_right _ (List.mem_singleton_self _)
  rw [hpath, List.reverse_append, List.reverse_singleton, List.singleton_append,
    List.span_eq_takeWhile_dropWhile, List.takeWhile_cons_of_neg (by simpa using hne),
    List.dropWhile_cons_of_neg (by simpa using hne)] at htarget
  obtain ⟨above, -, htarget⟩ := Run.except_bind_eq_ok_iff.1 htarget
  obtain ⟨directory, -, htarget⟩ := Run.except_bind_eq_ok_iff.1 htarget
  cases htarget
  dsimp only at hname
  split at hname
  · cases hname
  · cases hname
    exact ⟨notMem_of_mem_splitOnChar hmem, hhidden⟩

theorem agreeOutside_write (hpath : EndsHidden path) (h : t.write path content = .ok t') :
    AgreeOutside t t' := by
  obtain ⟨place, hplace, rfl⟩ := write_eq_ok h
  obtain ⟨⟨target, name, htarget, hname, -, hstep⟩, -⟩ := writable_eq_ok_iff.1 hplace
  obtain ⟨hslash, hhidden⟩ := target_of_endsHidden hpath htarget hname
  rw [step_of_isHidden hhidden hstep]
  exact agreeOutside_put hslash hhidden _ _

theorem agreeOutside_remove (hpath : EndsHidden path) (h : t.remove path = .ok t') :
    AgreeOutside t t' := by
  obtain ⟨place, content, -, rfl, target, name, htarget, hname, hstep⟩ := remove_eq_ok h
  obtain ⟨hslash, hhidden⟩ := target_of_endsHidden hpath htarget hname
  rw [step_of_isHidden hhidden hstep]
  exact agreeOutside_erase hslash hhidden _

end Hidden

section Visible

/-- In agreeing trees, a step along a visible name leads from a visible place to another one. -/
theorem AgreeOutside.step (h : AgreeOutside t t') (hplace : VisiblePlace place) (hslash : '/' ∉ name)
    (hname : ¬ IsHidden name) : t'.step place name = t.step place name ∧
      ∀ next, t.step place name = .ok next → VisiblePlace next := by
  refine ⟨?_, fun next hnext => ?_⟩
  · unfold FileTree.step
    rw [h.entries place hplace]
  · unfold FileTree.step at hnext
    split at hnext
    · cases hnext
    · cases hnext
    · split at hnext
      · cases hnext
        exact hplace
      · split at hnext
        · cases hnext
          exact fun name hname => hplace name (List.dropLast_subset _ hname)
        · split at hnext
          · cases hnext
          · cases hnext
            intro other hother
            rcases List.mem_append.1 hother with hother | hother
            · exact hplace other hother
            · rw [List.mem_singleton.1 hother]
              exact ⟨hslash, hname⟩

/-- So does a walk. -/
theorem AgreeOutside.foldlM_step (h : AgreeOutside t t') {names : List (List Char)}
    (hplace : VisiblePlace place) (hnames : VisiblePlace names) :
    names.foldlM t'.step place = names.foldlM t.step place ∧
      ∀ next, names.foldlM t.step place = .ok next → VisiblePlace next := by
  induction names generalizing place with
  | nil =>
    refine ⟨rfl, fun next hnext => ?_⟩
    cases hnext
    exact hplace
  | cons name names ih =>
    obtain ⟨⟨hslash, hname⟩, hnames⟩ := List.forall_mem_cons.1 hnames
    obtain ⟨hstep, hvisible⟩ := h.step hplace hslash hname
    rw [List.foldlM_cons, List.foldlM_cons, hstep]
    cases hnext : t.step place name with
    | error fault =>
      refine ⟨rfl, fun next hnext => ?_⟩
      cases hnext
    | ok next => exact ih (hvisible next hnext) hnames

theorem visiblePlace_of_visible (hpath : Visible path) :
    VisiblePlace (splitOnChar '/' path.toList) :=
  fun name hname => ⟨notMem_of_mem_splitOnChar hname, hpath name hname⟩

theorem visiblePlace_home (hcurrent : Visible t.current) : VisiblePlace t.home := by
  unfold home Path.resolve Path.walk
  refine List.foldlRecOn _ _ ?_ fun place hplace name hname => ?_
  · split <;> exact nofun
  · split
    · exact fun name hname => hplace name (List.dropLast_subset _ hname)
    · intro other hother
      rcases List.mem_append.1 hother with hother | hother
      · exact hplace other hother
      · rw [List.mem_singleton.1 hother]
        exact visiblePlace_of_visible hcurrent name (List.mem_filter.1 hname).1

variable (h : AgreeOutside t t') (hcurrent : Visible t.current) (hpath : Visible path)

include h hcurrent in
theorem AgreeOutside.walk (path : String) {names : List (List Char)} (hnames : VisiblePlace names) :
    t'.walk path names = t.walk path names ∧
      ∀ place, t.walk path names = .ok place → VisiblePlace place := by
  have hhome : t'.home = t.home := by
    unfold home
    rw [h.current]
  unfold FileTree.walk
  rw [hhome]
  refine h.foldlM_step ?_ hnames
  split
  · exact nofun
  · exact visiblePlace_home hcurrent

include h hcurrent hpath

theorem AgreeOutside.locate : t'.locate path = t.locate path ∧
    ∀ place, t.locate path = .ok place → VisiblePlace place := by
  obtain ⟨hwalk, hvisible⟩ := h.walk hcurrent path (visiblePlace_of_visible hpath)
  unfold FileTree.locate
  rw [hwalk]
  refine ⟨rfl, fun place hplace => ?_⟩
  obtain ⟨_, -, hplace⟩ := Run.except_bind_eq_ok_iff.1 hplace
  exact hvisible place hplace

theorem AgreeOutside.entry? : t'.entry? path = t.entry? path := by
  obtain ⟨hlocate, hvisible⟩ := h.locate hcurrent hpath
  unfold FileTree.entry?
  rw [hlocate]
  cases hplace : t.locate path with
  | error fault => rfl
  | ok place =>
    dsimp only [bind, Except.bind]
    rw [h.entries place (hvisible place hplace)]

theorem AgreeOutside.isDirectory : t'.isDirectory path = t.isDirectory path := by
  unfold FileTree.isDirectory
  rw [h.entry? hcurrent hpath]

theorem AgreeOutside.readText : t'.readText path = t.readText path := by
  unfold FileTree.readText FileTree.read
  rw [h.entry? hcurrent hpath]

theorem AgreeOutside.target : t'.target path = t.target path ∧
    ∀ target, t.target path = .ok target → VisiblePlace target.directory ∧
      ∀ name, target.name = some name → '/' ∉ name ∧ ¬ IsHidden name := by
  unfold FileTree.target
  rw [List.span_eq_takeWhile_dropWhile]
  have hnames : ∀ name ∈ (splitOnChar '/' path.toList).reverse.dropWhile (· = []),
      '/' ∉ name ∧ ¬ IsHidden name := fun name hname =>
    visiblePlace_of_visible hpath name
      (List.mem_reverse.1 ((List.dropWhile_sublist _).subset hname))
  generalize (splitOnChar '/' path.toList).reverse.dropWhile (· = []) = names at hnames
  cases names with
  | nil =>
    refine ⟨rfl, fun target htarget => ?_⟩
    obtain ⟨_, -, htarget⟩ := Run.except_bind_eq_ok_iff.1 htarget
    cases htarget
    exact ⟨nofun, nofun⟩
  | cons last front =>
    obtain ⟨hlast, hfront⟩ := List.forall_mem_cons.1 hnames
    obtain ⟨hwalk, hplace⟩ := h.walk hcurrent path
      fun name hname => hfront name (List.mem_reverse.1 hname)
    have hhere (place : List (List Char)) (hwalked : t.walk path front.reverse = .ok place) :=
      h.step (hplace place hwalked) List.not_mem_nil not_isHidden_nil
    refine ⟨?_, fun target htarget => ?_⟩
    · dsimp only
      rw [hwalk]
      refine bind_congr fun _ => ?_
      cases hwalked : t.walk path front.reverse with
      | error fault => rfl
      | ok place =>
        change t'.step place [] >>= _ = t.step place [] >>= _
        rw [(hhere place hwalked).1]
    · obtain ⟨_, -, htarget⟩ := Run.except_bind_eq_ok_iff.1 htarget
      obtain ⟨place, hwalked, htarget⟩ := Run.except_bind_eq_ok_iff.1 htarget
      obtain ⟨directory, hstep, htarget⟩ := Run.except_bind_eq_ok_iff.1 htarget
      cases htarget
      refine ⟨(hhere place hwalked).2 directory hstep, fun name hname => ?_⟩
      dsimp only at hname
      split at hname
      · cases hname
      · cases hname
        exact hlast

/-- What becomes of two trees: both changes fail in the same way, or the results agree again. -/
inductive SameOutcome : Except FileFault FileTree → Except FileFault FileTree → Prop
  | ok {t t' : FileTree} (h : AgreeOutside t t') : SameOutcome (.ok t) (.ok t')
  | error (fault : FileFault) : SameOutcome (.error fault) (.error fault)

omit h hcurrent hpath in
theorem AgreeOutside.put (h : AgreeOutside t t') (place : List (List Char)) (e : FileEntry) :
    AgreeOutside (t.put place e) (t'.put place e) := by
  refine ⟨h.current, fun other hother => ?_⟩
  have hentry := h.entries other hother
  have hhome (t : FileTree) : (t.put place e).home = t.home := rfl
  have hget (t : FileTree) (k : String) : (t.put place e).entries.get? k =
      if k = pathOf place then some e else t.entries.get? k := SortedMap.get?_insert _ _ _ _
  unfold entryAt? at *
  rw [hhome, hhome, hget, hget]
  by_cases heq : pathOf other = pathOf place
  · rw [if_pos heq, if_pos heq, show t'.home = t.home by unfold home; rw [h.current]]
  · rw [if_neg heq, if_neg heq]
    exact hentry

theorem AgreeOutside.writable : t'.writable path = t.writable path := by
  obtain ⟨htarget, hvisible⟩ := h.target hcurrent hpath
  unfold FileTree.writable
  rw [htarget]
  cases hresult : t.target path with
  | error fault => rfl
  | ok target =>
    obtain ⟨hdirectory, hname⟩ := hvisible target hresult
    dsimp only [bind, Except.bind]
    split
    · next name hsome _ =>
      obtain ⟨hslash, hvisible⟩ := hname name hsome
      obtain ⟨hstep, hnext⟩ := h.step hdirectory hslash hvisible
      rw [hstep]
      cases hplace : t.step target.directory name with
      | error fault => rfl
      | ok place =>
        dsimp only
        rw [h.entries place (hnext place hplace)]
    · rfl

theorem AgreeOutside.write (content : Bytes) :
    SameOutcome (t.write path content) (t'.write path content) := by
  unfold FileTree.write
  rw [h.writable hcurrent hpath]
  cases t.writable path with
  | error fault => exact .error fault
  | ok place => exact .ok (h.put place _)

theorem AgreeOutside.copy (hsource : Visible source) :
    SameOutcome (t.copy source path) (t'.copy source path) := by
  obtain ⟨hlocate, hvisible⟩ := h.locate hcurrent hsource
  unfold FileTree.copy
  rw [hlocate, h.writable hcurrent hpath]
  cases hplace : t.locate source with
  | error fault => exact .error fault
  | ok place =>
    dsimp only [bind, Except.bind]
    rw [h.entries place (hvisible place hplace)]
    split
    · exact .error _
    · exact .error _
    · cases t.writable path with
      | error fault => exact .error fault
      | ok target => exact .ok (h.put target _)

theorem AgreeOutside.makeDirectory :
    SameOutcome (t.makeDirectory path) (t'.makeDirectory path) := by
  obtain ⟨htarget, hvisible⟩ := h.target hcurrent hpath
  unfold FileTree.makeDirectory
  rw [htarget]
  cases hresult : t.target path with
  | error fault => exact .error fault
  | ok target =>
    obtain ⟨hdirectory, hname⟩ := hvisible target hresult
    dsimp only [bind, Except.bind]
    split
    · exact .error _
    · next name hsome =>
      obtain ⟨hslash, hvisible⟩ := hname name hsome
      obtain ⟨hstep, hnext⟩ := h.step hdirectory hslash hvisible
      rw [hstep]
      cases hplace : t.step target.directory name with
      | error fault => exact .error fault
      | ok place =>
        dsimp only
        rw [h.entries place (hnext place hplace)]
        split
        · exact .error _
        · exact .ok (h.put place _)

theorem AgreeOutside.ensureDirectory :
    SameOutcome (t.ensureDirectory path) (t'.ensureDirectory path) := by
  have hmake := h.makeDirectory hcurrent hpath
  have hdirectory := h.isDirectory hcurrent hpath
  unfold FileTree.ensureDirectory
  rw [hdirectory]
  revert hmake
  generalize t.makeDirectory path = r
  generalize t'.makeDirectory path = r'
  rintro (hagree | fault)
  · exact .ok hagree
  · cases fault with
    | alreadyExists =>
      dsimp only
      split
      · exact .ok h
      · exact .error _
    | _ => exact .error _

omit h hcurrent hpath in
theorem AgreeOutside.ensureLine {paths : List String} (h : AgreeOutside t t')
    (hcurrent : Visible t.current) (hpaths : ∀ path ∈ paths, Visible path) :
    SameOutcome (t.ensureLine paths) (t'.ensureLine paths) := by
  induction paths generalizing t t' with
  | nil => exact .ok h
  | cons path above ih =>
    obtain ⟨hpath, habove⟩ := List.forall_mem_cons.1 hpaths
    have hensure := h.ensureDirectory hcurrent hpath
    have hline := ih h hcurrent habove
    have hretains (u : FileTree) (hu : t.ensureLine above = .ok u) := retains_ensureLine hu
    unfold FileTree.ensureLine
    revert hensure
    generalize t.ensureDirectory path = r
    generalize t'.ensureDirectory path = r'
    rintro (hagree | fault)
    · exact .ok hagree
    · cases fault with
      | missing =>
        dsimp only [bind, Except.bind]
        revert hline hretains
        generalize t.ensureLine above = q
        generalize t'.ensureLine above = q'
        rintro (hagree | fault) hretains
        · exact hagree.ensureDirectory ((hretains _ rfl).current ▸ hcurrent) hpath
        · exact .error fault
      | _ => exact .error _

theorem AgreeOutside.createDirectories :
    SameOutcome (t.createDirectories path) (t'.createDirectories path) :=
  h.ensureLine hcurrent fun _ habove => visible_of_mem_lineage hpath habove

end Visible

end ContractModel.FileTree

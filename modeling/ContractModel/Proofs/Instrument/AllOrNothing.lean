import ContractModel.Proofs.Places

/-! # All copies or none

The copies of the edited sources are rendered before the first of them is written, and if one cannot
be written, those that were are removed again. So whatever the device does, a call that fails leaves
no copy that it completed, and one that goes well has written what was rendered.
-/

namespace ContractModel.Copies

open FileTree Run

variable {device : Device} {files t u : FileTree} {paths written : List String}
  {copies : List (String × Bytes)} {source : String × EditScript}
  {sources : List (String × EditScript)} {edits : SourceEdits} {path k : String}
  {place : List (List Char)} {content : Bytes}

section Rendered

/-- The content of the copy of a source: what is read of it, with its edits. -/
def rendering (files : FileTree) (source : String × EditScript) : Except InstrumentError Bytes :=
  match files.read source.1 with
  | .error fault => .error (.file source.1 fault)
  | .ok content => EditScript.render source.1 content source.2

theorem exists_read_of_rendering {source : String × EditScript}
    (h : rendering files source = .ok content) : ∃ read, files.read source.1 = .ok read := by
  unfold rendering at h
  split at h
  · cases h
  · next read hread => exact ⟨read, hread⟩

theorem renderAll_cons (files : FileTree) (source : String × EditScript)
    (sources : List (String × EditScript)) : renderAll files (source :: sources) = (do
      let output ← rendering files source
      let more ← renderAll files sources
      return (pathOf source.1, output) :: more) := by
  rw [renderAll, rendering]
  cases files.read source.1 with
  | error fault => rfl
  | ok content => rfl

theorem forall₂_of_renderAll (h : renderAll files sources = .ok copies) :
    List.Forall₂ (fun source copy => copy.1 = pathOf source.1 ∧
      rendering files source = .ok copy.2) sources copies := by
  induction sources generalizing copies with
  | nil =>
    cases h
    exact .nil
  | cons source sources ih =>
    rw [renderAll_cons] at h
    obtain ⟨output, houtput, h⟩ := except_bind_eq_ok_iff.1 h
    obtain ⟨more, hmore, h⟩ := except_bind_eq_ok_iff.1 h
    cases h
    exact .cons ⟨rfl, houtput⟩ (ih hmore)

/-- Rendering fails as the first source does that cannot be rendered. -/
theorem exists_of_renderAll_eq_error {e : InstrumentError} (h : renderAll files sources = .error e) :
    ∃ source ∈ sources, rendering files source = .error e := by
  induction sources with
  | nil => cases h
  | cons source sources ih =>
    rw [renderAll_cons] at h
    cases hsource : rendering files source with
    | error e' =>
      rw [hsource] at h
      cases h
      exact ⟨source, List.mem_cons_self, hsource⟩
    | ok output =>
      rw [hsource] at h
      cases hmore : renderAll files sources with
      | error e' =>
        rw [hmore] at h
        cases h
        obtain ⟨other, hother, hfails⟩ := ih hmore
        exact ⟨other, List.mem_cons_of_mem _ hother, hfails⟩
      | ok more =>
        rw [hmore] at h
        cases h

end Rendered

section Removed

theorem retains_removeOne (files : FileTree) (path : String) :
    files.Retains ((files.remove path).toOption.getD files) := by
  cases hremove : files.remove path with
  | error fault => exact .refl files
  | ok files' => exact retains_remove hremove

theorem retains_removeAll (files : FileTree) (paths : List String) :
    files.Retains (removeAll files paths) := by
  unfold removeAll
  induction paths generalizing files with
  | nil => exact .refl files
  | cons path paths ih => exact (retains_removeOne files path).trans (ih _)

theorem get?_removeAll_of_ne (h : ∀ path ∈ paths, k ≠ Path.normalize files.current path) :
    (removeAll files paths).entries.get? k = files.entries.get? k := by
  unfold removeAll
  induction paths generalizing files with
  | nil => rfl
  | cons path paths ih =>
    obtain ⟨hpath, hpaths⟩ := List.forall_mem_cons.1 h
    rw [List.foldl_cons, ih, get?_remove_of_ne hpath]
    intro other hother
    rw [(retains_removeOne files path).current]
    exact hpaths other hother

theorem notFile_removeAll (h : files.entries.get? k ≠ some (.file content)) (paths : List String) :
    (removeAll files paths).entries.get? k ≠ some (.file content) := by
  unfold removeAll
  induction paths generalizing files with
  | nil => exact h
  | cons path paths ih => exact ih (notFile_remove h path)

/-- There is no file left where one of the paths names one. -/
theorem notFile_removeAll_of_mem (hpath : path ∈ paths) (hnames : files.Names path place)
    (hplace : ¬ place.isPrefixOf files.home) (content : Bytes) :
    (removeAll files paths).entries.get? (FileTree.pathOf place) ≠ some (.file content) := by
  induction paths generalizing files with
  | nil => cases hpath
  | cons other paths ih =>
    rcases List.mem_cons.1 hpath with rfl | hpath
    · exact notFile_removeAll (hnames.notFile_remove hplace content) paths
    · have hretains := retains_removeOne files other
      exact ih hpath (hnames.of_retains hretains) (hretains.home_eq ▸ hplace)

end Removed

section Written

/-- The tree after all copies were written, one after the other. -/
inductive Filled : FileTree → List (String × Bytes) → FileTree → Prop
  | nil (t : FileTree) : Filled t [] t
  | cons {t u : FileTree} {place : List (List Char)} {path : String} {content : Bytes}
    {rest : List (String × Bytes)} (hplace : t.writable path = .ok place)
    (hrest : Filled (t.put place (.file content)) rest u) : Filled t ((path, content) :: rest) u

theorem Filled.retains (h : Filled t copies u) : t.Retains u := by
  induction h with
  | nil t => exact .refl t
  | cons hplace _ ih => exact (retains_put (writable_eq_ok_iff.1 hplace).2 _).trans ih

theorem Filled.get?_of_ne (h : Filled t copies u)
    (hk : ∀ copy ∈ copies, k ≠ Path.normalize t.current copy.1) :
    u.entries.get? k = t.entries.get? k := by
  induction h with
  | nil t => rfl
  | cons hplace _ ih =>
    obtain ⟨hcopy, hrest⟩ := List.forall_mem_cons.1 hk
    obtain rfl := (writable_eq_ok_iff.1 hplace).1.eq_resolve
    rw [ih hrest, get?_put, if_neg hcopy]

/-- Each of the paths names a place where the tree has a file or nothing. -/
theorem Filled.names (h : Filled t copies u) {copy : String × Bytes} (hcopy : copy ∈ copies) :
    ∃ place, u.Names copy.1 place ∧ ¬ place.isPrefixOf u.home := by
  induction h with
  | nil t => cases hcopy
  | cons hplace hrest ih =>
    rcases List.mem_cons.1 hcopy with rfl | hcopy
    · obtain ⟨hnames, hentry⟩ := writable_eq_ok_iff.1 hplace
      have hretains := (retains_put hentry (.file _)).trans hrest.retains
      refine ⟨_, hnames.of_retains hretains, ?_⟩
      rw [hretains.home_eq]
      intro hprefix
      exact hentry (if_pos hprefix)
    · exact ih hcopy

/-- A copy has its content in the end unless a later one is written to its place. -/
theorem Filled.get? {front rest : List (String × Bytes)} {copy : String × Bytes}
    (h : Filled t (front ++ copy :: rest) u)
    (hlater : ∀ later ∈ rest,
      Path.normalize t.current later.1 ≠ Path.normalize t.current copy.1) :
    u.entries.get? (Path.normalize t.current copy.1) = some (.file copy.2) := by
  induction front generalizing t with
  | nil =>
    cases h with
    | cons hplace hrest =>
      obtain rfl := (writable_eq_ok_iff.1 hplace).1.eq_resolve
      rw [hrest.get?_of_ne fun later hmem => (hlater later hmem).symm, get?_put, if_pos rfl]
  | cons other front ih =>
    cases h with
    | cons hplace hrest =>
      have hget := ih hrest hlater
      exact hget

theorem Filled.read {front rest : List (String × Bytes)} {copy : String × Bytes}
    (h : Filled t (front ++ copy :: rest) u)
    (hlater : ∀ later ∈ rest,
      Path.normalize t.current later.1 ≠ Path.normalize t.current copy.1) :
    u.read copy.1 = .ok copy.2 := by
  obtain ⟨place, hnames, hplace⟩ := h.names (List.mem_append_right _ List.mem_cons_self)
  refine hnames.read ?_
  obtain rfl := hnames.eq_resolve
  rw [entryAt?, if_neg hplace, pathOf_resolve, h.retains.current, h.get? hlater]

/-- Either all copies are written, or one is not and the ones before it are removed. -/
theorem writeAll_cases (device : Device) (files : FileTree) (written : List String)
    (copies : List (String × Bytes)) :
    (∃ t, writeAll device files written copies = (.ok (written ++ copies.map Prod.fst), t) ∧
      Filled files copies t) ∨
    ∃ front copy rest fault t u, copies = front ++ copy :: rest ∧ Filled files front t ∧
      device.write t copy.1 copy.2 = (.error fault, u) ∧
      writeAll device files written copies = (.error (.file copy.1 fault),
        removeAll u ((written ++ front.map Prod.fst).filter fun path => !device.keeps path)) := by
  induction copies generalizing files written with
  | nil => exact .inl ⟨files, by rw [List.map_nil, List.append_nil]; rfl, .nil files⟩
  | cons copy copies ih =>
    rcases hwrite : device.write files copy.1 copy.2 with ⟨fault | ⟨⟩, files'⟩
    · refine .inr ⟨[], copy, copies, fault, files, files', rfl, .nil files, hwrite, ?_⟩
      rw [writeAll, hwrite, List.map_nil, List.append_nil]
    · obtain ⟨place, hplace, rfl⟩ := write_on_device_eq_ok hwrite
      have hstep : writeAll device files written (copy :: copies) =
          writeAll device (files.put place (.file copy.2)) (written ++ [copy.1]) copies := by
        rw [writeAll, hwrite]
      rw [hstep]
      rcases ih (files.put place (.file copy.2)) (written ++ [copy.1]) with
        ⟨t, hrun, hfilled⟩ | ⟨front, last, rest, fault, t, u, rfl, hfilled, hlast, hrun⟩
      · rw [List.append_assoc, List.singleton_append] at hrun
        exact .inl ⟨t, hrun, .cons hplace hfilled⟩
      · rw [List.append_assoc, List.singleton_append] at hrun
        exact .inr ⟨copy :: front, last, rest, fault, t, u, rfl, .cons hplace hfilled, hlast, hrun⟩

theorem retains_writeAll (device : Device) (files : FileTree) (written : List String)
    (copies : List (String × Bytes)) : files.Retains (writeAll device files written copies).2 := by
  rcases writeAll_cases device files written copies with
    ⟨t, hrun, hfilled⟩ | ⟨front, copy, rest, fault, t, u, -, hfilled, hwrite, hrun⟩
  · rw [hrun]
    exact hfilled.retains
  · have hlast := retains_write_on_device device t copy.1 copy.2
    rw [hwrite] at hlast
    rw [hrun]
    exact (hfilled.retains.trans hlast).trans (retains_removeAll u _)

end Written

section Outcome

/-- The tree after a copy could not be written and the ones before it were removed again. -/
structure RolledBack (device : Device) (files : FileTree) (front : List String) (last : String)
    (t : FileTree) : Prop where
  current : t.current = files.current
  /-- In the place of a copy is no file, unless the device does not let it go. -/
  removed : ∀ path ∈ front, device.keeps (pathOf path) = false → ∀ content,
    t.entries.get? (Path.normalize files.current (pathOf path)) ≠ some (.file content)
  apart : ∀ k, (∀ path ∈ front ++ [last], k ≠ Path.normalize files.current (pathOf path)) →
    t.entries.get? k = files.entries.get? k
  /-- The copy that could not be written is not there either, if it was not created. -/
  uncreated : device.Whole → ∀ k, (∀ path ∈ front, k ≠ Path.normalize files.current (pathOf path)) →
    t.entries.get? k = files.entries.get? k

/-- What comes of writing the copies of edited sources to a device. -/
structure AllOrNothing (device : Device) (files : FileTree) (edits : SourceEdits)
    (r : Except InstrumentError (List String)) (t : FileTree) : Prop where
  /-- A source that cannot be read or rendered fails the call, which changes nothing then. -/
  unrendered : (∃ source ∈ edits.entries, ∀ content, rendering files source ≠ .ok content) →
    t = files ∧ ∃ source ∈ edits.entries, ∃ e, rendering files source = .error e ∧ r = .error e
  /-- If all are rendered, the call fails only at a copy that cannot be written. -/
  rolledBack : (∀ source ∈ edits.entries, ∃ content, rendering files source = .ok content) →
    ∀ e, r = .error e → ∃ front last rest fault, edits.keys = front ++ last :: rest ∧
      e = .file (pathOf last) fault ∧ RolledBack device files front last t
  /-- If it goes well, each copy holds what was rendered, unless a later key is another spelling of
  the same path. -/
  written : ∀ paths, r = .ok paths → paths = edits.keys.map pathOf ∧
    ∀ front source rest, edits.entries = front ++ source :: rest →
      (∀ later ∈ rest, Path.normalize files.current later.1 ≠
        Path.normalize files.current source.1) →
      ∃ content, rendering files source = .ok content ∧ t.read (pathOf source.1) = .ok content
  current : t.current = files.current
  /-- However it ends, nothing but the copies changes. -/
  frame : ∀ k, (∀ path ∈ edits.keys, k ≠ Path.normalize files.current (pathOf path)) →
    t.entries.get? k = files.entries.get? k

theorem map_fst_of_forall₂ (h : List.Forall₂ (fun source copy => copy.1 = pathOf source.1 ∧
    rendering files source = .ok copy.2) sources copies) :
    copies.map Prod.fst = (sources.map Prod.fst).map pathOf := by
  induction h with
  | nil => rfl
  | cons hcopy _ ih =>
    rw [List.map_cons, List.map_cons, List.map_cons, ih, hcopy.1]

/-- Copies in one place are copies of sources in one place. -/
theorem normalize_ne_of_later {later : String}
    (h : Path.normalize files.current later ≠ Path.normalize files.current path) :
    Path.normalize files.current (pathOf later) ≠ Path.normalize files.current (pathOf path) := by
  intro heq
  have hplaces := resolve_pathOf_injective (resolve_eq_of_normalize_eq heq)
  exact h (by rw [← pathOf_resolve, ← pathOf_resolve, hplaces])

theorem rolledBack_of_filled {front : List String} {last : String} {fault : FileFault}
    (hfilled : Filled files copies t) (hfront : copies.map Prod.fst = front.map pathOf)
    (hwrite : device.write t (pathOf last) content = (.error fault, u)) :
    RolledBack device files front last
      (removeAll u ((front.map pathOf).filter fun path => !device.keeps path)) := by
  have hlast := retains_write_on_device device t (pathOf last) content
  have hchange := write_on_device device t (pathOf last) content
  rw [hwrite] at hlast hchange
  have hcurrent : u.current = files.current := hlast.current.trans hfilled.retains.current
  have hremoved {k : String}
      (hk : ∀ path ∈ front, k ≠ Path.normalize files.current (pathOf path)) :
      (removeAll u ((front.map pathOf).filter fun path => !device.keeps path)).entries.get? k =
        u.entries.get? k := by
    refine get?_removeAll_of_ne fun path hpath => ?_
    obtain ⟨source, hsource, rfl⟩ := List.mem_map.1 (List.mem_filter.1 hpath).1
    rw [hcurrent]
    exact hk source hsource
  have hbefore {k : String}
      (hk : ∀ path ∈ front, k ≠ Path.normalize files.current (pathOf path)) :
      t.entries.get? k = files.entries.get? k := by
    refine hfilled.get?_of_ne fun copy hcopy => ?_
    have hpath : copy.1 ∈ front.map pathOf := hfront ▸ List.mem_map_of_mem hcopy
    obtain ⟨source, hsource, heq⟩ := List.mem_map.1 hpath
    rw [← heq]
    exact hk source hsource
  constructor
  case current =>
    exact (retains_removeAll u _).current.trans hcurrent
  case removed =>
    intro path hpath hkeeps content
    have hmem : pathOf path ∈ copies.map Prod.fst := hfront ▸ List.mem_map_of_mem hpath
    obtain ⟨copy, hcopy, heq⟩ := List.mem_map.1 hmem
    obtain ⟨place, hnames, hplace⟩ := hfilled.names hcopy
    have hnames := hnames.of_retains hlast
    rw [heq] at hnames
    have hfilter : pathOf path ∈ (front.map pathOf).filter fun path => !device.keeps path :=
      List.mem_filter.2 ⟨List.mem_map_of_mem hpath, by simp [hkeeps]⟩
    have hnone := notFile_removeAll_of_mem hfilter hnames (hlast.home_eq ▸ hplace) content
    rwa [hnames.eq_resolve, pathOf_resolve, hcurrent] at hnone
  case apart =>
    intro k hk
    obtain ⟨hfirst, hnext⟩ := List.forall_mem_append.1 hk
    rw [hremoved hfirst, ← hbefore hfirst]
    rcases hchange with rfl | ⟨kept, hkept⟩
    · rfl
    · refine get?_write_of_ne hkept ?_
      rw [hfilled.retains.current]
      exact hnext last (List.mem_singleton_self last)
  case uncreated =>
    intro hwhole k hk
    rw [hremoved hk, write_on_device_eq_error hwhole hwrite, hbefore hk]

/-- If the call goes well, all sources were rendered and the copies written in order. -/
theorem writeOn_eq_ok (h : writeOn device files edits = (.ok paths, t)) :
    paths = edits.keys.map pathOf ∧ ∃ copies,
      List.Forall₂ (fun source copy => copy.1 = pathOf source.1 ∧
        rendering files source = .ok copy.2) edits.entries copies ∧ Filled files copies t := by
  unfold writeOn at h
  split at h
  · cases h
  · next copies hrender =>
    have hcopies := forall₂_of_renderAll hrender
    rcases writeAll_cases device files [] copies with
      ⟨u, hrun, hfilled⟩ | ⟨front, copy, rest, fault, t', u, -, -, -, hrun⟩
    · cases hrun.symm.trans h
      exact ⟨map_fst_of_forall₂ hcopies, copies, hcopies, hfilled⟩
    · cases hrun.symm.trans h

theorem names_of_writeOn (h : writeOn device files edits = (.ok paths, t)) (hpath : path ∈ paths) :
    ∃ place, t.Names path place ∧ ¬ place.isPrefixOf t.home := by
  obtain ⟨rfl, copies, hcopies, hfilled⟩ := writeOn_eq_ok h
  obtain ⟨key, hkey, rfl⟩ := List.mem_map.1 hpath
  obtain ⟨source, hsource, rfl⟩ := List.mem_map.1 hkey
  obtain ⟨copy, hcopy, heq, -⟩ := exists_of_mem_forall₂ hcopies hsource
  rw [← heq]
  exact hfilled.names hcopy

/-- The copies are those of sources that could be read. -/
theorem exists_read_of_writeOn (h : writeOn device files edits = (.ok paths, t))
    (hpath : path ∈ paths) :
    ∃ source content, path = pathOf source ∧ files.read source = .ok content := by
  obtain ⟨rfl, copies, hcopies, -⟩ := writeOn_eq_ok h
  obtain ⟨key, hkey, rfl⟩ := List.mem_map.1 hpath
  obtain ⟨source, hsource, rfl⟩ := List.mem_map.1 hkey
  obtain ⟨copy, -, -, hcontent⟩ := exists_of_mem_forall₂ hcopies hsource
  obtain ⟨content, hread⟩ := exists_read_of_rendering hcontent
  exact ⟨source.1, content, rfl, hread⟩

/-- It fails because a source cannot be rendered, or at a copy that cannot be written. -/
theorem writeOn_eq_error {e : InstrumentError} (h : writeOn device files edits = (.error e, t)) :
    (t = files ∧ ∃ source ∈ edits.entries, rendering files source = .error e) ∨
    (∀ source ∈ edits.entries, ∃ content, rendering files source = .ok content) ∧
      ∃ front last rest fault, edits.keys = front ++ last :: rest ∧ e = .file (pathOf last) fault ∧
        RolledBack device files front last t := by
  unfold writeOn at h
  split at h
  · next hrender =>
    cases h
    exact .inl ⟨rfl, exists_of_renderAll_eq_error hrender⟩
  · next copies hrender =>
    have hcopies := forall₂_of_renderAll hrender
    refine .inr ⟨fun source hsource => ?_, ?_⟩
    · obtain ⟨copy, -, -, hcontent⟩ := exists_of_mem_forall₂ hcopies hsource
      exact ⟨copy.2, hcontent⟩
    rcases writeAll_cases device files [] copies with
      ⟨u, hrun, -⟩ | ⟨front, copy, rest, fault, t', u, rfl, hfilled, hwrite, hrun⟩
    · cases hrun.symm.trans h
    · cases hrun.symm.trans h
      have hpaths : _ = edits.keys.map pathOf := map_fst_of_forall₂ hcopies
      rw [List.map_append, List.map_cons] at hpaths
      obtain ⟨first, others, hkeys, hfront, hothers⟩ := List.map_eq_append_iff.1 hpaths.symm
      obtain ⟨last, others, rfl, hlast, -⟩ := List.map_eq_cons_iff.1 hothers
      rw [← hlast] at hwrite
      rw [List.nil_append, ← hfront, ← hlast]
      exact ⟨first, last, others, fault, hkeys, rfl,
        rolledBack_of_filled hfilled hfront.symm hwrite⟩

/-- However the call ends, nothing changes but the copies of sources that can be read. -/
theorem get?_writeOn_of_ne (hk : ∀ path ∈ edits.keys, (∃ content, files.read path = .ok content) →
      k ≠ Path.normalize files.current (pathOf path)) :
    (writeOn device files edits).2.entries.get? k = files.entries.get? k := by
  rcases hrun : writeOn device files edits with ⟨e | paths, t⟩
  · rcases writeOn_eq_error hrun with
      ⟨rfl, -⟩ | ⟨hrendered, front, last, rest, fault, hkeys, -, hback⟩
    · rfl
    · refine hback.apart k fun path hpath => ?_
      have hkey : path ∈ edits.keys := by
        rw [hkeys, ← List.singleton_append, ← List.append_assoc]
        exact List.mem_append_left _ hpath
      obtain ⟨source, hsource, rfl⟩ := List.mem_map.1 hkey
      obtain ⟨content, hcontent⟩ := hrendered source hsource
      exact hk source.1 hkey (exists_read_of_rendering hcontent)
  · obtain ⟨-, copies, hcopies, hfilled⟩ := writeOn_eq_ok hrun
    refine hfilled.get?_of_ne fun copy hcopy => ?_
    obtain ⟨source, hsource, hpath, hcontent⟩ := exists_of_mem_forall₂ hcopies.flip hcopy
    rw [hpath]
    exact hk source.1 (List.mem_map_of_mem hsource) (exists_read_of_rendering hcontent)

theorem retains_writeOn (device : Device) (files : FileTree) (edits : SourceEdits) :
    files.Retains (writeOn device files edits).2 := by
  unfold writeOn
  split
  · exact .refl files
  · exact retains_writeAll device files [] _

theorem retains_write (files : FileTree) (edits : SourceEdits) :
    files.Retains (write files edits).2 :=
  retains_writeOn .reliable files edits

theorem get?_of_write_eq_ok (h : write files edits = (.ok paths, t))
    (hk : ∀ path ∈ paths, k ≠ Path.normalize files.current path) :
    t.entries.get? k = files.entries.get? k := by
  have hpaths := (writeOn_eq_ok h).1
  have hframe : (write files edits).2.entries.get? k = files.entries.get? k :=
    get?_writeOn_of_ne fun path hpath _ =>
      hk (pathOf path) (hpaths ▸ List.mem_map_of_mem hpath)
  rwa [h] at hframe

/-- A call that fails leaves no file that was not there before. -/
theorem get?_of_write_eq_error {e : InstrumentError} (h : write files edits = (.error e, t))
    (hk : t.entries.get? k = some (.file content)) :
    files.entries.get? k = some (.file content) := by
  rcases writeOn_eq_error h with ⟨rfl, -⟩ | ⟨-, front, last, rest, fault, -, -, hback⟩
  · exact hk
  · have hfront : ∀ path ∈ front, k ≠ Path.normalize files.current (pathOf path) := by
      rintro path hpath rfl
      exact hback.removed path hpath rfl content hk
    rwa [hback.uncreated (fun _ _ _ _ _ => nofun) k hfront] at hk

end Outcome

def spelledFiles : FileTree := .ofEntries "/" [("/A.sol", .file [0x61])]

def spelledEdits : SourceEdits :=
  ((∅ : SourceEdits).insert "/A.sol" ∅).insert "/./A.sol"
    ((∅ : EditScript).insert 0 ⟨0x61, "b", .insertBefore⟩)

end ContractModel.Copies

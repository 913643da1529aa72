import Mathlib.Data.List.Nodup
import ContractModel.Proofs.Instrument.AllOrNothing

/-! # Normal paths and their copies

The normal form of a path is a slash and the names of the place that the path leads to, with slashes
between them. A path in normal form is its own normal form, so two paths have one normal form
exactly if walking along them ends at one place. The copy of a source with such a path has one too,
and no other source has the same copy.
-/

namespace ContractModel

namespace Path

open Text

variable {path path' directory above more current : String} {name segment : List Char}
  {here there place names segments : List (List Char)}

/-- A slash, and plain names with slashes between them. The root has no names. -/
def IsNormal (path : String) : Prop :=
  ∃ names, (∀ name ∈ names, Plain name) ∧ path.toList = '/' :: ['/'].intercalate names

/-- A walk along segments. Empty ones and `.` stay, `..` goes up and stays at the root, and any other
name goes down. -/
inductive Walks : List (List Char) → List (List Char) → List (List Char) → Prop
  | done (here : List (List Char)) : Walks here [] here
  | stay {here segments there : List (List Char)} {segment : List Char} :
      segment = [] ∨ segment = ['.'] → Walks here segments there →
      Walks here (segment :: segments) there
  | up {here segments there : List (List Char)} :
      Walks here.dropLast segments there → Walks here (['.', '.'] :: segments) there
  | down {here segments there : List (List Char)} {name : List Char} :
      Plain name → Walks (here ++ [name]) segments there → Walks here (name :: segments) there

/-- A path leads to a place: from the root if it is absolute, and else from the current
directory. -/
def LeadsTo (current path : String) (place : List (List Char)) : Prop :=
  ∃ here, Walks [] (splitOnChar '/' current.toList) here ∧
    Walks (if isAbsolute path then [] else here) (splitOnChar '/' path.toList) place

section Walks

theorem walk_steps_cons (here segments : List (List Char)) (segment : List Char) :
    walk here (steps (segment :: segments)) = walk (walk here (steps [segment])) (steps segments) := by
  rw [← List.singleton_append, steps_append, walk_append]

theorem walk_of_trivial (h : segment = [] ∨ segment = ['.']) (here : List (List Char)) :
    walk here (steps [segment]) = here := by
  rcases h with rfl | rfl <;> rfl

theorem walk_of_name (h : Plain name) (here : List (List Char)) :
    walk here (steps [name]) = here ++ [name] := by
  have hsteps : steps [name] = [name] := by simp [steps, h.nonempty, h.dot]
  rw [hsteps]
  exact walk_of_plain (List.forall_mem_singleton.2 h) here

theorem walks_iff (h : ∀ segment ∈ segments, '/' ∉ segment) :
    Walks here segments there ↔ walk here (steps segments) = there := by
  constructor
  · intro hwalks
    induction hwalks with
    | done here => rfl
    | stay htrivial _ ih =>
      rw [walk_steps_cons, walk_of_trivial htrivial]
      exact ih (List.forall_mem_cons.1 h).2
    | up _ ih =>
      rw [walk_steps_cons]
      exact ih (List.forall_mem_cons.1 h).2
    | down hname _ ih =>
      rw [walk_steps_cons, walk_of_name hname]
      exact ih (List.forall_mem_cons.1 h).2
  · rintro rfl
    induction segments generalizing here with
    | nil => exact .done here
    | cons segment segments ih =>
      obtain ⟨hslash, hsegments⟩ := List.forall_mem_cons.1 h
      rw [walk_steps_cons]
      by_cases htrivial : segment = [] ∨ segment = ['.']
      · rw [walk_of_trivial htrivial]
        exact .stay htrivial (ih hsegments)
      by_cases hdots : segment = ['.', '.']
      · subst hdots
        exact .up (ih hsegments)
      · rw [not_or] at htrivial
        have hname : Plain segment := ⟨hslash, htrivial.1, htrivial.2, hdots⟩
        rw [walk_of_name hname]
        exact .down hname (ih hsegments)

/-- Every path leads to one place. -/
theorem leadsTo_iff : LeadsTo current path place ↔
    resolve (walk [] (components current.toList)) path = place := by
  have hslash (text : String) : ∀ segment ∈ splitOnChar '/' text.toList, '/' ∉ segment :=
    fun _ => notMem_of_mem_splitOnChar
  unfold LeadsTo
  simp only [walks_iff (hslash _), exists_eq_left']
  rfl

end Walks

section Normal

theorem join_eq (names : List (List Char)) : join names = '/' :: ['/'].intercalate names := by
  unfold join
  cases names with
  | nil => rfl
  | cons name names =>
    rw [List.isEmpty_cons, if_neg Bool.false_ne_true]
    induction names generalizing name with
    | nil => simp
    | cons name' names ih =>
      rw [List.flatMap_cons, ih, List.intercalate_cons_cons]
      simp

theorem isNormal_iff : IsNormal path ↔
    ∃ names, (∀ name ∈ names, Plain name) ∧ path = String.ofList (join names) := by
  unfold IsNormal
  simp only [join_eq, ← String.toList_inj, String.toList_ofList]

theorem plain_components (current : String) :
    ∀ name ∈ walk [] (components current.toList), Plain name :=
  plain_walk nofun fun _ => notMem_of_mem_splitOnChar

theorem isNormal_normalize (current path : String) : IsNormal (normalize current path) :=
  isNormal_iff.2 ⟨_, plain_resolve (plain_components current) path, rfl⟩

theorem normalize_of_isNormal (h : IsNormal path) (current : String) :
    normalize current path = path := by
  obtain ⟨names, hnames, rfl⟩ := isNormal_iff.1 h
  rw [normalize, resolve_join hnames]

/-- Two paths have one normal form exactly if they lead to one place. -/
theorem normalize_eq_iff : normalize current path = normalize current path' ↔
    ∃ place, LeadsTo current path place ∧ LeadsTo current path' place := by
  simp only [leadsTo_iff, exists_eq_left']
  constructor
  · intro h
    have hplain := plain_resolve (plain_components current)
    exact (join_injective (hplain path) (hplain path') (String.ofList_injective h)).symm
  · intro h
    rw [normalize, normalize, h]

end Normal

section Names

theorem join_concat (names : List (List Char)) (name : List Char) :
    join (names ++ [name]) = (if names = [] then [] else join names) ++ '/' :: name := by
  cases names with
  | nil => simp [join]
  | cons first names => simp [join]

theorem splitOnChar_join (h : ∀ name ∈ names, Plain name) (hne : names ≠ []) :
    splitOnChar '/' (join names) = [] :: names := by
  rw [join_eq, splitOnChar_separator, splitOnChar_intercalate hne fun name hname => (h name hname).slash]

/-- In a normal path nothing stands between the slash and the last name. -/
theorem dropTrivial_names (h : ∀ name ∈ names, Plain name) :
    dropTrivial ([] :: names) = [] :: names := by
  rcases names.eq_nil_or_concat with rfl | ⟨front, last, rfl⟩
  · rfl
  · have hlast := h last (by simp)
    rw [List.concat_eq_append, ← List.cons_append, dropTrivial_concat hlast.nonempty hlast.dot]

theorem joinSegments_names (names : List (List Char)) : joinSegments ([] :: names) = join names := by
  cases names with
  | nil => rfl
  | cons name names =>
    rw [join_eq, joinSegments, List.intercalate_cons_cons]
    · rfl
    · simp

theorem splitName_join (h : ∀ name ∈ names, Plain name) (hname : Plain name) :
    splitName (String.ofList (join (names ++ [name]))) = some (String.ofList (join names), name) := by
  have hall : ∀ segment ∈ names ++ [name], Plain segment :=
    List.forall_mem_append.2 ⟨h, List.forall_mem_singleton.2 hname⟩
  have hdrop : dropTrivial (splitOnChar '/' (String.ofList (join (names ++ [name]))).toList) =
      [] :: names ++ [name] := by
    rw [String.toList_ofList, splitOnChar_join hall (by simp), dropTrivial_names hall]
    rfl
  have hparent : parent? (String.ofList (join (names ++ [name]))) =
      some (String.ofList (join names)) := by
    rw [parent?_of_segments hdrop, if_neg (List.cons_ne_nil _ _), dropTrivial_names h,
      joinSegments_names]
  unfold splitName
  rw [hparent, hdrop, List.getLast?_concat]
  exact if_neg (not_or.2 ⟨hname.dot, hname.dots⟩)

/-- A normal path ends in a slash only if it is the root. -/
theorem getLast?_join (h : ∀ name ∈ names, Plain name) :
    (join names).getLast? = some '/' ↔ names = [] := by
  rcases names.eq_nil_or_concat with rfl | ⟨front, last, rfl⟩
  · exact iff_of_true rfl rfl
  · have hlast := h last (by simp)
    refine iff_of_false (fun hslash => hlast.slash ?_) (by simp)
    rw [List.concat_eq_append, join_concat, List.getLast?_append_cons,
      List.getLast?_cons_of_ne_nil hlast.nonempty] at hslash
    exact List.mem_of_getLast? hslash

theorem append_join (h : ∀ name ∈ names, Plain name) (hmore : Plain more.toList) :
    append (String.ofList (join names)) more = String.ofList (join (names ++ [more.toList])) := by
  have hne : (join names).isEmpty = false := by simp [join_eq]
  unfold append
  rw [hmore.not_isAbsolute, if_neg Bool.false_ne_true]
  simp only [String.toList_ofList, hne, Bool.false_eq_true, false_or, getLast?_join h,
    join_concat, ← String.toList_inj]
  split
  · next hroot => simp [hroot, join]
  · simp

end Names

end Path

namespace Copies

open ContractModel.Path

variable {path path' : String} {names : List (List Char)} {name : List Char}

theorem pathOf_join (h : ∀ name ∈ names, Plain name) (hname : Plain name) :
    pathOf (String.ofList (join (names ++ [name]))) =
      String.ofList (join (names ++ [namePrefix.toList ++ name])) := by
  have hprefixed : Plain (namePrefix ++ String.ofList name).toList := by
    rw [String.toList_append, String.toList_ofList]
    exact plain_prefixed hname.slash
  unfold pathOf withFileName fileName?
  rw [splitName_join h hname]
  dsimp only [Option.map_some, Option.getD_some]
  rw [append_join h hprefixed, String.toList_append, String.toList_ofList]

theorem isNormal_pathOf (h : IsNormal path) : IsNormal (pathOf path) := by
  obtain ⟨names, hnames, rfl⟩ := isNormal_iff.1 h
  rcases names.eq_nil_or_concat with rfl | ⟨front, last, rfl⟩
  · have hroot : pathOf (String.ofList (join [])) = String.ofList (join [namePrefix.toList]) := by
      decide +kernel
    rw [hroot]
    have hprefix : Plain namePrefix.toList := plain_prefixed List.not_mem_nil
    exact isNormal_iff.2 ⟨_, List.forall_mem_singleton.2 hprefix, rfl⟩
  · rw [List.concat_eq_append] at hnames ⊢
    obtain ⟨hfront, hlast⟩ := List.forall_mem_append.1 hnames
    have hlast := List.forall_mem_singleton.1 hlast
    rw [pathOf_join hfront hlast]
    refine isNormal_iff.2 ⟨_, List.forall_mem_append.2 ⟨hfront, ?_⟩, rfl⟩
    exact List.forall_mem_singleton.2 (plain_prefixed hlast.slash)

/-- Sources with normal paths whose copies are at one place are one source. -/
theorem eq_of_resolve_pathOf_eq {files : FileTree} (h : IsNormal path) (h' : IsNormal path')
    (heq : Path.resolve files.home (pathOf path) = Path.resolve files.home (pathOf path')) :
    path = path' := by
  rw [← normalize_of_isNormal h files.current, ← normalize_of_isNormal h' files.current,
    ← FileTree.pathOf_resolve, ← FileTree.pathOf_resolve, resolve_pathOf_injective heq]

theorem nodup_copies {files : FileTree} {edits : SourceEdits} {copies : List (String × Bytes)}
    (hnormal : ∀ source ∈ edits.keys, IsNormal source)
    (h : renderAll files edits.entries = .ok copies) :
    (copies.map fun copy => Path.resolve files.home copy.1).Nodup := by
  have hpaths : copies.map Prod.fst = edits.keys.map pathOf :=
    map_fst_of_forall₂ (forall₂_of_renderAll h)
  have hplaces : (copies.map fun copy => Path.resolve files.home copy.1) =
      edits.keys.map fun source => Path.resolve files.home (pathOf source) := by
    have hresolved := congrArg (List.map (Path.resolve files.home)) hpaths
    rwa [List.map_map, List.map_map] at hresolved
  rw [hplaces]
  refine List.Nodup.map_on (fun source hsource source' hsource' heq => ?_) edits.nodup_keys
  exact eq_of_resolve_pathOf_eq (hnormal _ hsource) (hnormal _ hsource') heq

/-- Normal forms are normal and their own normal forms, and their copies are normal too and apart
from each other, at whatever places the copies of edited sources are written. Two paths have one
normal form exactly if they lead to one place. -/
theorem normalPaths_copiesApart (current : String) :
    (∀ path, IsNormal (normalize current path) ∧
      normalize current (normalize current path) = normalize current path) ∧
    (∀ path, IsNormal path → IsNormal (pathOf path)) ∧
    (∀ path path', IsNormal path → IsNormal path' → pathOf path = pathOf path' → path = path') ∧
    (∀ (files : FileTree) (edits : SourceEdits) copies,
      (∀ source ∈ edits.keys, IsNormal source) → renderAll files edits.entries = .ok copies →
      (copies.map fun copy => Path.resolve files.home copy.1).Nodup) ∧
    ∀ path path', normalize current path = normalize current path' ↔
      ∃ place, LeadsTo current path place ∧ LeadsTo current path' place := by
  refine ⟨fun path => ?_, fun path => isNormal_pathOf, fun path path' h h' heq => ?_,
    fun files edits copies => nodup_copies, fun path path' => normalize_eq_iff⟩
  · have hnormal := isNormal_normalize current path
    exact ⟨hnormal, normalize_of_isNormal hnormal current⟩
  · have hplaces := congrArg (Path.resolve (FileTree.home ⟨current, ∅⟩)) heq
    exact eq_of_resolve_pathOf_eq h h' hplaces

/-! A source and another that already has the name of its copy. -/

def siblingFiles : FileTree := .ofEntries "/p" [("A.sol", .file [0x61]), ("autoFinder_A.sol", .file [])]

def siblingEdits : SourceEdits :=
  ((∅ : SourceEdits).insert "/p/A.sol" ((∅ : EditScript).insert 0 ⟨0x61, "b", .insertBefore⟩)).insert
    "/p/autoFinder_A.sol" ∅

theorem normalPaths_copiesApart_siblings :
    normalize "/p" "../../p/./x/..//A.sol/" = "/p/A.sol" ∧
    pathOf "/p/A.sol" = "/p/autoFinder_A.sol" ∧ IsNormal "/p/autoFinder_A.sol" ∧
    pathOf "/p/A.sol" ≠ pathOf "/p/autoFinder_A.sol" ∧
    (∃ copies, renderAll siblingFiles siblingEdits.entries = .ok copies ∧
      (copies.map fun copy => Path.resolve siblingFiles.home copy.1).Nodup) ∧
    ∃ place, LeadsTo "/p" "../../p/./x/..//A.sol/" place ∧ LeadsTo "/p" "A.sol" place := by
  obtain ⟨hnormalize, hcopy, hinjective, hcopies, hplaces⟩ := normalPaths_copiesApart "/p"
  have hrendered : renderAll siblingFiles siblingEdits.entries =
      .ok [("/p/autoFinder_A.sol", [0x62, 0x61]), ("/p/autoFinder_autoFinder_A.sol", [])] :=
    Run.toOption_eq_some_iff.1 (by decide +kernel)
  have hpath : normalize "/p" "../../p/./x/..//A.sol/" = "/p/A.sol" := by decide +kernel
  have hsame : normalize "/p" "A.sol" = "/p/A.sol" := by decide +kernel
  have hprefixed : pathOf "/p/A.sol" = "/p/autoFinder_A.sol" := by decide +kernel
  have hnormal : IsNormal "/p/A.sol" := hpath ▸ (hnormalize _).1
  have hnormal' : IsNormal "/p/autoFinder_A.sol" := hprefixed ▸ hcopy _ hnormal
  refine ⟨hpath, hprefixed, hnormal', fun heq => ?_, ⟨_, hrendered, ?_⟩,
    (hplaces _ _).1 (hpath.trans hsame.symm)⟩
  · exact absurd (hinjective _ _ hnormal hnormal' heq) (by decide)
  · refine hcopies _ siblingEdits _ (fun source hsource => ?_) hrendered
    have hkeys : siblingEdits.keys = ["/p/A.sol", "/p/autoFinder_A.sol"] := by decide +kernel
    rw [hkeys] at hsource
    rcases List.mem_pair.1 hsource with rfl | rfl
    · exact hnormal
    · exact hnormal'

end Copies

end ContractModel

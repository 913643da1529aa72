import ContractModel.Proofs.Syntax.Inheritance
import ContractModel.Syntax.Imports
import Mathlib.Data.List.Basic

/-! # The closure of the imports

Following imports ends and finds exactly what is reached from a file when every path is taken in its
spelling with single slashes. A directive leads to the source that its path names, and these are two
things where a source itself is named with doubled slashes: such a source is not found, unless it is
the one the search starts with.
-/

namespace ContractModel.Imports

open Relation

variable {ts : Trees} {root compiled file path : String} {next : String → List String}
  {seen result : SortedMap String Unit} {waiting : List String} {steps : Nat}

section Search

/-- Following the waiting files until none is left, however long that takes. -/
inductive Follows (next : String → List String) :
    SortedMap String Unit → List String → SortedMap String Unit → Prop
  | done {seen : SortedMap String Unit} : Follows next seen [] seen
  | skip {seen result : SortedMap String Unit} {file : String} {waiting : List String}
    (h : seen.contains file = true) (hrest : Follows next seen waiting result) :
    Follows next seen (file :: waiting) result
  | step {seen result : SortedMap String Unit} {file : String} {waiting : List String}
    (h : seen.contains file = false)
    (hrest : Follows next (seen.insert file ()) ((next file).reverse ++ waiting) result) :
    Follows next seen (file :: waiting) result

theorem contains_iff_mem_keys : seen.contains file = true ↔ file ∈ seen.keys := by
  rw [SortedMap.contains_eq_isSome, SortedMap.mem_keys_iff, Option.isSome_iff_exists]

/-- The imports of files that were not followed. -/
def unfollowed (all : List (String × String)) (seen : SortedMap String Unit) : Nat :=
  all.countP fun p => p.1 ∉ seen.keys

theorem unfollowed_insert_add_le {all : List (String × String)} (hfile : file ∉ seen.keys)
    (hnext : (next file).length ≤ all.countP fun p => p.1 = file) :
    unfollowed all (seen.insert file ()) + (next file).length ≤ unfollowed all seen := by
  have hsplit : unfollowed all (seen.insert file ()) + (all.countP fun p => p.1 = file) =
      unfollowed all seen := by
    clear hnext
    unfold unfollowed
    induction all with
    | nil => rfl
    | cons p all ih =>
      simp only [List.countP_cons, decide_eq_true_eq, SortedMap.mem_keys_insert, not_or] at ih ⊢
      by_cases hp : p.1 = file
      · simp only [hp, hfile, not_true_eq_false, not_false_eq_true, and_true, if_true, if_false]
        omega
      · simp only [hp, not_false_eq_true, true_and, if_false]
        omega
  omega

/-- What waits and what may still come to wait fits in the steps, so that none is left. -/
theorem follows_follow (all : List (String × String))
    (hnext : ∀ file, (next file).length ≤ all.countP fun p => p.1 = file)
    (hsteps : waiting.length + unfollowed all seen ≤ steps) :
    Follows next seen waiting (follow next steps seen waiting) := by
  induction steps generalizing seen waiting with
  | zero =>
    have hwaiting : waiting = [] := List.length_eq_zero_iff.1 (by omega)
    subst hwaiting
    exact .done
  | succ steps ih =>
    cases waiting with
    | nil => exact .done
    | cons file waiting =>
      rw [List.length_cons] at hsteps
      unfold follow
      cases hfile : seen.contains file with
      | true =>
        rw [if_pos rfl]
        exact .skip hfile (ih (by omega))
      | false =>
        have hnew : file ∉ seen.keys := by
          rw [← contains_iff_mem_keys, hfile]
          exact Bool.false_ne_true
        have hless := unfollowed_insert_add_le hnew (hnext file)
        rw [if_neg Bool.false_ne_true]
        refine .step hfile (ih ?_)
        rw [List.length_append, List.length_reverse]
        omega

/-- A search from a file: everything that was followed or waits is reached from it, and what a
followed file imports was followed too or waits. -/
structure Progress (next : String → List String) (compiled : String)
    (seen : SortedMap String Unit) (waiting : List String) : Prop where
  starts : compiled ∈ seen.keys ∨ compiled ∈ waiting
  closed : ∀ f ∈ seen.keys, ∀ g ∈ next f, g ∈ seen.keys ∨ g ∈ waiting
  reached : ∀ f, f ∈ seen.keys ∨ f ∈ waiting → ReflTransGen (fun f g => g ∈ next f) compiled f

theorem Progress.start : Progress next compiled ∅ [compiled] where
  starts := .inr List.mem_cons_self
  closed := nofun
  reached f hf := by
    rcases hf with hf | hf
    · cases hf
    · rw [List.mem_singleton.1 hf]

theorem Progress.skip (h : Progress next compiled seen (file :: waiting))
    (hfile : file ∈ seen.keys) : Progress next compiled seen waiting where
  starts := by
    rcases h.starts with hc | hc
    · exact .inl hc
    · rcases List.mem_cons.1 hc with rfl | hc
      · exact .inl hfile
      · exact .inr hc
  closed f hf g hg := by
    rcases h.closed f hf g hg with hg | hg
    · exact .inl hg
    · rcases List.mem_cons.1 hg with rfl | hg
      · exact .inl hfile
      · exact .inr hg
  reached f hf := h.reached f (hf.imp_right (List.mem_cons_of_mem file))

theorem Progress.step (h : Progress next compiled seen (file :: waiting)) :
    Progress next compiled (seen.insert file ()) ((next file).reverse ++ waiting) where
  starts := by
    simp only [SortedMap.mem_keys_insert, List.mem_append]
    rcases h.starts with hc | hc
    · exact .inl (.inr hc)
    · exact (List.mem_cons.1 hc).imp .inl .inr
  closed f hf g hg := by
    simp only [SortedMap.mem_keys_insert, List.mem_append, List.mem_reverse] at hf ⊢
    rcases hf with rfl | hf
    · exact .inr (.inl hg)
    · rcases h.closed f hf g hg with hg | hg
      · exact .inl (.inr hg)
      · exact (List.mem_cons.1 hg).imp .inl .inr
  reached f hf := by
    have hfile := h.reached file (.inr List.mem_cons_self)
    simp only [SortedMap.mem_keys_insert, List.mem_append, List.mem_reverse] at hf
    rcases hf with (rfl | hf) | hf | hf
    · exact hfile
    · exact h.reached f (.inl hf)
    · exact hfile.tail hf
    · exact h.reached f (.inr (List.mem_cons_of_mem file hf))

theorem Follows.progress (h : Follows next seen waiting result)
    (hprogress : Progress next compiled seen waiting) : Progress next compiled result [] := by
  induction h with
  | done => exact hprogress
  | skip hfile _ ih => exact ih (hprogress.skip (contains_iff_mem_keys.1 hfile))
  | step _ _ ih => exact ih hprogress.step

/-- A search that has ended has followed what is reached, and nothing else. -/
theorem Follows.mem_iff (h : Follows next ∅ [compiled] result) :
    file ∈ result.keys ↔ ReflTransGen (fun f g => g ∈ next f) compiled file := by
  have hend := h.progress .start
  constructor
  · exact fun hfile => hend.reached file (.inl hfile)
  · intro hfile
    induction hfile with
    | refl => exact hend.starts.resolve_right List.not_mem_nil
    | tail _ hg ih => exact (hend.closed _ ih _ hg).resolve_right List.not_mem_nil

end Search

section Targets

/-- The imports of all sources of a compilation, each with the source that has it. -/
def edges (ts : Trees) (root : String) : List (String × String) :=
  (ts.unitsOf root).entries.flatMap fun e => (targets ts root e.1).map fun g => (e.1, g)

theorem length_edges (ts : Trees) (root : String) : (edges ts root).length + 1 = bound ts root := by
  simp only [edges, SortedMap.length_flatMap_entries, List.length_map, bound]

/-- The paths of a source's import directives. -/
def paths (ts : Trees) (root file : String) : List String :=
  (ts.nodesOf root file).filterMap fun n =>
    if n.is "ImportDirective" then n.string? "absolutePath" else none

/-- The spelling of a path with single slashes. -/
def spelled (path : String) : String := String.ofList (singleSlashes path.toList)

theorem targets_eq (ts : Trees) (root file : String) :
    targets ts root file = (paths ts root file).map spelled := by
  rw [targets, paths, List.map_filterMap]
  refine List.filterMap_congr fun n _ => ?_
  split
  · rfl
  · rfl

/-- The path is the name of a source of the compilation. -/
def IsSource (ts : Trees) (root path : String) : Prop := ∃ t, ts.unit? root path = some t

instance (ts : Trees) (root path : String) : Decidable (IsSource ts root path) :=
  decidable_of_iff _ Option.isSome_iff_exists

theorem isSource_of_mem_paths (h : path ∈ paths ts root file) : IsSource ts root file := by
  obtain ⟨n, hn, -⟩ := List.mem_filterMap.1 h
  obtain ⟨t, ht, -⟩ := Inheritance.mem_nodesOf_iff.1 hn
  exact ⟨t, SortedMap.get?_eq_some_iff.2 ht⟩

theorem length_targets_le (ts : Trees) (root file : String) :
    (targets ts root file).length ≤ (edges ts root).countP fun p => p.1 = file := by
  cases htargets : targets ts root file with
  | nil => exact Nat.zero_le _
  | cons g gs =>
    have hpath : ∃ path, path ∈ paths ts root file := by
      cases hpaths : paths ts root file with
      | nil =>
        rw [targets_eq, hpaths] at htargets
        cases htargets
      | cons path _ => exact ⟨path, List.mem_cons_self⟩
    obtain ⟨path, hpath⟩ := hpath
    obtain ⟨t, ht⟩ := isSource_of_mem_paths hpath
    have hmem : (file, t) ∈ (ts.unitsOf root).entries := SortedMap.get?_eq_some_iff.1 ht
    obtain ⟨front, rest, heq⟩ := List.append_of_mem hmem
    have hown : ((targets ts root file).map fun g => (file, g)).countP (fun p => p.1 = file) =
        (targets ts root file).length := by
      rw [List.countP_map, List.countP_eq_length.2]
      intro g _
      exact decide_eq_true rfl
    rw [← htargets, edges, heq, List.flatMap_append, List.flatMap_cons, List.countP_append,
      List.countP_append, hown]
    omega

theorem singleSlashes_cons_cons {c d : Char} (cs : List Char) (h : ¬ (c = '/' ∧ d = '/')) :
    singleSlashes (c :: d :: cs) = c :: singleSlashes (d :: cs) := by
  rw [singleSlashes.eq_def]
  split
  · next heq => cases heq
  · next heq => cases heq
  · next heq =>
    cases heq
    exact absurd ⟨rfl, rfl⟩ h
  · next heq =>
    cases heq
    rfl

theorem head?_singleSlashes (cs : List Char) : (singleSlashes cs).head? = cs.head? := by
  fun_induction singleSlashes cs with
  | case1 => rfl
  | case2 => rfl
  | case3 cs ih => exact ih
  | case4 => rfl

theorem singleSlashes_singleSlashes (cs : List Char) :
    singleSlashes (singleSlashes cs) = singleSlashes cs := by
  fun_induction singleSlashes cs with
  | case1 => rfl
  | case2 => rfl
  | case3 cs ih => exact ih
  | case4 c cs hcs hslashes ih =>
    -- the rest keeps its first character, so the character in front of it is kept again
    cases cs with
    | nil => exact absurd rfl hcs
    | cons d cs =>
      obtain ⟨rest, hrest⟩ : ∃ rest, singleSlashes (d :: cs) = d :: rest :=
        List.head?_eq_some_iff.1 (head?_singleSlashes (d :: cs))
      rw [hrest, singleSlashes_cons_cons, ← hrest, ih]
      rintro ⟨rfl, rfl⟩
      exact hslashes cs rfl rfl

theorem spelled_spelled (path : String) : spelled (spelled path) = spelled path := by
  rw [spelled, spelled, String.toList_ofList, singleSlashes_singleSlashes]

end Targets

section Closure

theorem exists_follows (ts : Trees) (root compiled : String) :
    ∃ seen, Follows (targets ts root) ∅ [compiled] seen ∧
      ts.importedFiles root compiled = seen.keys := by
  refine ⟨_, follows_follow (edges ts root) (length_targets_le ts root) ?_, rfl⟩
  have hall : unfollowed (edges ts root) ∅ ≤ (edges ts root).length := List.countP_le_length
  rw [← length_edges, List.length_singleton]
  omega

theorem mem_importedFiles_iff : file ∈ ts.importedFiles root compiled ↔
    ReflTransGen (fun f g => ∃ path ∈ paths ts root f, g = spelled path) compiled file := by
  obtain ⟨seen, hseen, heq⟩ := exists_follows ts root compiled
  rw [heq, hseen.mem_iff]
  refine iff_of_eq (congrArg (fun r => ReflTransGen r compiled file) ?_)
  funext f g
  rw [targets_eq, List.mem_map, eq_iff_iff]
  exact exists_congr fun path => and_congr_right fun _ => eq_comm

/-- What a path in a directive leads to: the source that has it as its name, otherwise the path in
its spelling with single slashes. -/
def destination (ts : Trees) (root path : String) : String :=
  if IsSource ts root path then path else spelled path

/-- The first file imports the second, directly or through others. -/
def Reaches (ts : Trees) (root : String) : String → String → Prop :=
  ReflTransGen fun f g => ∃ path ∈ paths ts root f, g = destination ts root path

/-- All reached sources are found, and besides what is reached only imports of what is no source. -/
structure FollowsImports (ts : Trees) (root compiled : String) : Prop where
  complete : ∀ file, Reaches ts root compiled file → IsSource ts root file →
    file ∈ ts.importedFiles root compiled
  sound : ∀ file ∈ ts.importedFiles root compiled, Reaches ts root compiled file ∨
    ¬ IsSource ts root file ∧ ∃ f, Reaches ts root compiled f ∧
      ∃ path ∈ paths ts root f, file = spelled path

/-- No reached source is named with doubled slashes but perhaps the first one. If that is imported
by another, it is not taken for a source that is not reached. -/
structure SingleSpelled (ts : Trees) (root compiled : String) : Prop where
  others : ∀ file, Reaches ts root compiled file → IsSource ts root file →
    file = compiled ∨ spelled file = file
  first : ∀ f, Reaches ts root compiled f → compiled ∈ paths ts root f →
    IsSource ts root (spelled compiled) → Reaches ts root compiled (spelled compiled)

theorem spelled_of_mem_importedFiles (h : file ∈ ts.importedFiles root compiled) :
    file = compiled ∨ spelled file = file := by
  rcases ReflTransGen.cases_tail (mem_importedFiles_iff.1 h) with heq | ⟨_, -, path, -, rfl⟩
  · exact .inl heq
  · exact .inr (spelled_spelled path)

theorem spelled_mem_importedFiles {f : String} (h : f ∈ ts.importedFiles root compiled)
    (hpath : path ∈ paths ts root f) : spelled path ∈ ts.importedFiles root compiled :=
  mem_importedFiles_iff.2 ((mem_importedFiles_iff.1 h).tail ⟨path, hpath, rfl⟩)

theorem SingleSpelled.complete (h : SingleSpelled ts root compiled)
    (hfile : Reaches ts root compiled file) : file ∈ ts.importedFiles root compiled := by
  induction hfile with
  | refl => exact mem_importedFiles_iff.2 .refl
  | @tail f g hf hg ih =>
    obtain ⟨path, hpath, rfl⟩ := hg
    have hmem := spelled_mem_importedFiles ih hpath
    have hreached : Reaches ts root compiled (destination ts root path) := hf.tail ⟨path, hpath, rfl⟩
    unfold destination at hreached ⊢
    split at hreached
    · next hsource =>
      rw [if_pos hsource]
      rcases h.others path hreached hsource with rfl | hspelled
      · exact mem_importedFiles_iff.2 .refl
      · rwa [hspelled] at hmem
    · next hsource => rwa [if_neg hsource]

theorem SingleSpelled.sound (h : SingleSpelled ts root compiled)
    (hfile : file ∈ ts.importedFiles root compiled) : Reaches ts root compiled file ∨
      ¬ IsSource ts root file ∧ ∃ f, Reaches ts root compiled f ∧
        ∃ path ∈ paths ts root f, file = spelled path := by
  induction mem_importedFiles_iff.1 hfile with
  | refl => exact .inl .refl
  | @tail f g hf hg ih =>
    obtain ⟨path, hpath, rfl⟩ := hg
    have hf : Reaches ts root compiled f :=
      (ih (mem_importedFiles_iff.2 hf)).resolve_right fun hno =>
        hno.1 (isSource_of_mem_paths hpath)
    have hreached : Reaches ts root compiled (destination ts root path) := hf.tail ⟨path, hpath, rfl⟩
    unfold destination at hreached
    split at hreached
    · next hsource =>
      rcases h.others path hreached hsource with rfl | hspelled
      · by_cases hspelled : IsSource ts root (spelled path)
        · exact .inl (h.first f hf hpath hspelled)
        · exact .inr ⟨hspelled, f, hf, path, hpath, rfl⟩
      · exact .inl (hspelled.symm ▸ hreached)
    · exact .inl hreached

/-- Where no path has doubled slashes, what is found is what is reached. -/
theorem reaches_iff_of_spelled
    (h : ∀ f ∈ (ts.unitsOf root).keys, ∀ path ∈ paths ts root f, spelled path = path) :
    Reaches ts root compiled file ↔ file ∈ ts.importedFiles root compiled := by
  rw [mem_importedFiles_iff]
  refine iff_of_eq (congrArg (fun r => ReflTransGen r compiled file) ?_)
  funext f g
  refine propext (exists_congr fun path => and_congr_right fun hpath => ?_)
  obtain ⟨t, ht⟩ := isSource_of_mem_paths hpath
  have hspelled := h f (SortedMap.mem_keys_iff.2 ⟨t, ht⟩) path hpath
  rw [destination, hspelled, ite_self]

/-- Following imports always ends. What is found is what is reached when every path is taken with
single slashes; these are the imports exactly if no reached source is named otherwise. -/
theorem importedFiles_followsImports_iff (ts : Trees) (root compiled : String) :
    (∃ seen, Follows (targets ts root) ∅ [compiled] seen ∧
      ts.importedFiles root compiled = seen.keys) ∧
    (∀ file, file ∈ ts.importedFiles root compiled ↔
      ReflTransGen (fun f g => ∃ path ∈ paths ts root f, g = spelled path) compiled file) ∧
    (FollowsImports ts root compiled ↔ SingleSpelled ts root compiled) := by
  refine ⟨exists_follows ts root compiled, fun _ => mem_importedFiles_iff, ?_, ?_⟩
  · intro h
    constructor
    · intro file hfile hsource
      exact spelled_of_mem_importedFiles (h.complete file hfile hsource)
    · intro f hf hpath hsource
      have hmem := h.complete f hf (isSource_of_mem_paths hpath)
      exact (h.sound _ (spelled_mem_importedFiles hmem hpath)).resolve_right
        fun hno => hno.1 hsource
  · intro h
    exact ⟨fun file hfile _ => h.complete hfile, fun file hfile => h.sound hfile⟩

/-- A source that imports another one by the name it has, with a doubled slash. -/
def doubledSlash : Trees :=
  (∅ : Trees).insert "main.sol" (((∅ : Units).insert "main.sol"
    (FlatTree.empty.insert (Node.ofImport 1 "lib//base.sol"))).insert "lib//base.sol" ∅)

/-- The imported source is missing. -/
theorem not_followsImports_doubledSlash : ¬ FollowsImports doubledSlash "main.sol" "main.sol" := by
  intro h
  have hsource : IsSource doubledSlash "main.sol" "lib//base.sol" := by decide +kernel
  have hreached : Reaches doubledSlash "main.sol" "main.sol" "lib//base.sol" :=
    .single ⟨"lib//base.sol", by decide +kernel, (if_pos hsource).symm⟩
  have hmissing : "lib//base.sol" ∉ doubledSlash.importedFiles "main.sol" "main.sol" := by
    decide +kernel
  exact hmissing (h.complete _ hreached hsource)

end Closure

end ContractModel.Imports

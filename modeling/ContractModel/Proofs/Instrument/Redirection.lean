import ContractModel.Instrument.Imports
import ContractModel.Proofs.Instrument.Placement
import ContractModel.Proofs.Syntax.Inheritance

/-! # The sources that are redirected

Going backwards along the import directives from the edited sources reaches exactly those that
depend on an edited source, and comes to an end also where imports go round in circles. Each
directive on the way gets one edit, at a place that no other edit has.
-/

namespace ContractModel.Redirect

open Run
open FinderPlan (editAt? put editAt?_put)

/-- What a directive imports of its target: all of it, all of it under a name, or some symbols. -/
inductive Clause where
  | whole
  | named (name : String)
  | symbols (list : List String)

/-- The text of a directive that imports a path. -/
def Clause.text (path : String) : Clause → String
  | whole => "import '" ++ path ++ "';"
  | named name => "import '" ++ path ++ "' as " ++ name ++ ";"
  | symbols list => "import \x7b " ++ String.intercalate ", " list ++ " \x7d from '" ++ path ++ "';"

namespace Directive

/-- The directive stands in a source of the compilation. -/
def StandsIn (d : Directive) (ts : Trees) (root : String) : Prop :=
  d.node ∈ ts.nodesOf root d.importer ∧ d.node.is "ImportDirective"

/-- The normal path of the source in which the directive stands. -/
def source (d : Directive) (current : String) : String := Path.normalize current d.importer

/-- The directive imports the source with the normal path. -/
def Imports (d : Directive) (current path : String) : Prop :=
  ∃ absolute, d.node.string? "absolutePath" = some absolute ∧ path = Path.normalize current absolute

/-- The name that the directive gives to its target; without one it is empty. -/
def unitAlias (d : Directive) : String := (d.node.string? "unitAlias").getD ""

/-- What the directive imports of its target. -/
inductive Has (files : FileTree) (d : Directive) : Clause → Prop
  | whole (hname : d.unitAlias = "") (hsymbols : d.node.items "symbolAliases" = []) :
    Has files d .whole
  | named (hname : d.unitAlias ≠ "") (hsymbols : d.node.items "symbolAliases" = []) :
    Has files d (.named d.unitAlias)
  | symbols {list : List String} (hname : d.unitAlias = "")
    (hsymbols : d.node.items "symbolAliases" ≠ [])
    (hlist : Redirect.symbols files d [] (d.node.items "symbolAliases") = .ok list) :
    Has files d (.symbols list)

end Directive

/-- The edit that makes a directive import the copy of a path, and its place. The edit expects the
letter that begins a directive. -/
def IsRedirect (files : FileTree) (d : Directive) (path : String) (site : String × Nat)
    (e : Edit) : Prop :=
  ∃ src clause, d.node.src? = some src ∧ d.Has files clause ∧
    site = (d.source files.current, src.start) ∧
    e = ⟨0x69, clause.text (Copies.pathOf path), .replace src.length⟩

/-- The least set of paths that has those edited before, and with a path the sources that import
it. -/
inductive Affected (ts : Trees) (current root : String) (edits : SourceEdits) : String → Prop
  | edited {path : String} (h : path ∈ edits.keys) : Affected ts current root edits path
  | importer {d : Directive} {path : String} (hd : d.StandsIn ts root)
    (himports : d.Imports current path) (h : Affected ts current root edits path) :
    Affected ts current root edits (d.source current)

/-- The directive is one of those that import an affected source. -/
def IsAffected (files : FileTree) (ts : Trees) (root : String) (edits : SourceEdits)
    (p : String × Directive) : Prop :=
  p.2.StandsIn ts root ∧ p.2.Imports files.current p.1 ∧
    Affected ts files.current root edits p.1

/-- The edits after redirecting: those from before, and one for each directive that imports an
affected source, at a place of its own. -/
structure Redirected (files : FileTree) (ts : Trees) (root : String) (edits edits' : SourceEdits) :
    Prop where
  keys : ∀ path, path ∈ edits'.keys ↔ Affected ts files.current root edits path
  redirected : ∀ p, IsAffected files ts root edits p →
    ∃ site e, IsRedirect files p.2 p.1 site e ∧ editAt? edits' site = some e
  kept : ∀ site e, editAt? edits site = some e → editAt? edits' site = some e
  only : ∀ site e, editAt? edits' site = some e → editAt? edits site = some e ∨
    ∃ p, IsAffected files ts root edits p ∧ IsRedirect files p.2 p.1 site e
  apart : ∀ p, IsAffected files ts root edits p → ∀ site e, IsRedirect files p.2 p.1 site e →
    editAt? edits site = none ∧ ∀ p', IsAffected files ts root edits p' →
      ∀ e', IsRedirect files p'.2 p'.1 site e' → p' = p

variable {files : FileTree} {ts : Trees} {current root path : String} {d : Directive}
  {all : List (String × Directive)} {p : String × Directive} {offset : Nat} {e : Edit}
  {site : String × Nat} {edits edits' before : SourceEdits}

section Directives

theorem targetOf_eq_ok_iff :
    targetOf current d.importer d.node = .ok path ↔ d.Imports current path := by
  unfold targetOf Directive.Imports
  cases d.node.string? "absolutePath" with
  | none => simp
  | some absolute => simp [eq_comm]

/-- All directives of the compilation are found, each with what it imports. -/
theorem mem_directives_iff (h : directives ts current root = .ok all) :
    p ∈ all ↔ p.2.StandsIn ts root ∧ p.2.Imports current p.1 := by
  have hmem (d : Directive) : d.StandsIn ts root ↔ d ∈ (ts.unitsOf root).entries.flatMap
      fun u => (u.2.nodes.filter fun n => n.is "ImportDirective").map (⟨u.1, ·⟩) := by
    unfold Directive.StandsIn
    rw [Inheritance.mem_nodesOf_iff, List.mem_flatMap]
    constructor
    · rintro ⟨⟨t, ht, hn⟩, hkind⟩
      exact ⟨(d.importer, t), ht, List.mem_map.2 ⟨d.node, List.mem_filter.2 ⟨hn, hkind⟩, rfl⟩⟩
    · rintro ⟨⟨file, t⟩, ht, hd⟩
      obtain ⟨n, hn, rfl⟩ := List.mem_map.1 hd
      obtain ⟨hn, hkind⟩ := List.mem_filter.1 hn
      exact ⟨⟨t, ht, hn⟩, hkind⟩
  have hall := forall₂_of_mapM_eq_ok h
  rw [hmem, ← targetOf_eq_ok_iff]
  constructor
  · intro hp
    obtain ⟨d, hd, hresult⟩ := exists_of_mem_forall₂ hall.flip hp
    obtain ⟨path, hpath, hresult⟩ := except_bind_eq_ok_iff.1 hresult
    cases hresult
    exact ⟨hd, hpath⟩
  · rintro ⟨hd, hpath⟩
    obtain ⟨q, hq, hresult⟩ := exists_of_mem_forall₂ hall hd
    rw [hpath] at hresult
    cases hresult
    exact hq

/-- The edit of a directive imports the copy of its target. -/
theorem isRedirect_of_editOf (h : editOf files d = .ok (offset, e))
    (hpath : d.Imports files.current path) :
    IsRedirect files d path (d.source files.current, offset) e := by
  unfold editOf at h
  obtain ⟨target, htarget, h⟩ := except_bind_eq_ok_iff.1 h
  obtain rfl : target = path := Except.ok.inj (htarget.symm.trans (targetOf_eq_ok_iff.2 hpath))
  split at h
  · next src hsrc =>
    rw [pure_bind] at h
    suffices hclause : ∃ clause, d.Has files clause ∧ offset = src.start ∧
        e = ⟨0x69, clause.text (Copies.pathOf target), .replace src.length⟩ by
      obtain ⟨clause, hhas, rfl, rfl⟩ := hclause
      exact ⟨src, clause, hsrc, hhas, rfl, rfl⟩
    simp only [Bool.and_eq_true, Bool.not_eq_true', List.isEmpty_eq_false_iff,
      String.isEmpty_eq_false_iff] at h
    split at h
    · cases h
    · next hone =>
      split at h
      · next hsymbols =>
        have hname : d.unitAlias = "" := by
          by_contra hname
          exact hone ⟨hname, hsymbols⟩
        obtain ⟨list, hlist, h⟩ := except_bind_eq_ok_iff.1 h
        cases h
        exact ⟨.symbols list, .symbols hname hsymbols hlist, rfl, rfl⟩
      · next hsymbols =>
        rw [not_not] at hsymbols
        split at h
        · next hname =>
          cases h
          exact ⟨.named d.unitAlias, .named hname hsymbols, rfl, rfl⟩
        · next hname =>
          cases h
          exact ⟨.whole, .whole (not_not.1 hname) hsymbols, rfl, rfl⟩
  · cases h

theorem site_eq_of_isRedirect {site' : String × Nat} {e' : Edit} {path' : String}
    (h : IsRedirect files d path site e) (h' : IsRedirect files d path' site' e') :
    site = site' := by
  obtain ⟨src, _, hsrc, -, rfl, -⟩ := h
  obtain ⟨src', _, hsrc', -, rfl, -⟩ := h'
  rw [Option.some.inj (hsrc.symm.trans hsrc')]

/-- Redirecting a directive adds its edit at a place that had none. -/
theorem redirect_eq_ok {source : String}
    (h : (redirect files d).run.run edits = (.ok source, edits')) :
    source = d.source files.current ∧ ∃ offset e, editOf files d = .ok (offset, e) ∧
      editAt? edits (d.source files.current, offset) = none ∧
      edits' = put edits ((d.source files.current, offset), e) := by
  unfold redirect at h
  dsimp only at h
  split at h
  · cases h
  · next offset e hedit =>
    rw [run_get_bind] at h
    split at h
    · cases h
    · next hfree =>
      cases h
      rw [Bool.not_eq_true, SortedMap.contains_eq_isSome, Option.isSome_eq_false_iff,
        Option.isNone_iff_eq_none] at hfree
      exact ⟨rfl, offset, e, hedit, hfree, rfl⟩

theorem sources_of_mapM {ds : List Directive} {sources : List String}
    (h : (ds.mapM (redirect files)).run.run edits = (.ok sources, edits')) :
    sources = ds.map fun d => d.source files.current := by
  have hall := (mapM_invariant (fun _ => True) (R := fun d source => d.source files.current = source)
    (fun d source s s' _ hrun => ⟨trivial, (redirect_eq_ok hrun).1.symm⟩) trivial h).2
  exact (List.forall₂_eq_eq_eq ▸ List.forall₂_map_left_iff.2 hall).symm

end Directives

section Worklist

variable {reached waiting new sources added : List String} {steps : Nat}

/-- Redirects the directives that import a path. -/
def redirectTo (files : FileTree) (all : List (String × Directive)) (path : String) :
    Redirecting (List String) :=
  ((all.filter fun p => p.1 = path).map Prod.snd).mapM (redirect files)

/-- Visiting the waiting sources until none is left, however long that takes. -/
inductive Visits (files : FileTree) (all : List (String × Directive)) : List String → List String →
    SourceEdits → Except InstrumentError Unit → SourceEdits → Prop
  | done {reached : List String} {edits : SourceEdits} :
    Visits files all reached [] edits (.ok ()) edits
  | failed {reached waiting : List String} {path : String} {edits edits' : SourceEdits}
    {e : InstrumentError} (h : (redirectTo files all path).run.run edits = (.error e, edits')) :
    Visits files all reached (path :: waiting) edits (.error e) edits'
  | next {reached waiting sources : List String} {path : String} {edits between edits' : SourceEdits}
    {r : Except InstrumentError Unit}
    (h : (redirectTo files all path).run.run edits = (.ok sources, between))
    (hrest : Visits files all (sources.foldl reach (reached, [])).1
      (waiting ++ (sources.foldl reach (reached, [])).2) between r edits') :
    Visits files all reached (path :: waiting) edits r edits'

/-- The sources that were not reached before are added, each once. -/
theorem foldl_reach (sources reached added : List String) : ∃ new : List String,
    sources.foldl reach (reached, added) = (reached ++ new, added ++ new) ∧ new.Nodup ∧
      ∀ path, path ∈ new ↔ path ∈ sources ∧ path ∉ reached := by
  induction sources generalizing reached added with
  | nil => exact ⟨[], by simp⟩
  | cons source sources ih =>
    rw [List.foldl_cons]
    by_cases hsource : source ∈ reached
    · rw [show reach (reached, added) source = (reached, added) from if_pos (by simpa using hsource)]
      obtain ⟨new, heq, hnodup, hmem⟩ := ih reached added
      refine ⟨new, heq, hnodup, fun path => ?_⟩
      rw [hmem, List.mem_cons]
      constructor
      · exact fun h => ⟨.inr h.1, h.2⟩
      · rintro ⟨rfl | h, hpath⟩
        · exact absurd hsource hpath
        · exact ⟨h, hpath⟩
    · rw [show reach (reached, added) source = (reached ++ [source], added ++ [source]) from
        if_neg (by simpa using hsource)]
      obtain ⟨new, heq, hnodup, hmem⟩ := ih (reached ++ [source]) (added ++ [source])
      refine ⟨source :: new, by simpa using heq, ?_, fun path => ?_⟩
      · exact List.nodup_cons.2 ⟨fun h => ((hmem source).1 h).2 (by simp), hnodup⟩
      · by_cases hpath : path = source
        · subst hpath
          simp [hsource]
        · simp [hmem, hpath]

/-- How many directives stand in sources that were not reached. -/
def unreached (current : String) (all : List (String × Directive)) (reached : List String) : Nat :=
  all.countP fun p => p.2.source current ∉ reached

theorem unreached_concat_lt {source : String} (hsource : source ∉ reached)
    (h : ∃ p ∈ all, p.2.source current = source) :
    unreached current all (reached ++ [source]) < unreached current all reached := by
  obtain ⟨p, hp, rfl⟩ := h
  obtain ⟨front, rest, rfl⟩ := List.append_of_mem hp
  have hle (ps : List (String × Directive)) :
      unreached current ps (reached ++ [p.2.source current]) ≤ unreached current ps reached := by
    refine List.countP_mono_left fun q _ hq => ?_
    simp only [List.mem_append, not_or, decide_eq_true_eq] at hq ⊢
    exact hq.1
  have hfront := hle front
  have hrest := hle rest
  simp [unreached, hsource] at hfront hrest ⊢
  omega

theorem unreached_append_add_le (hnodup : new.Nodup)
    (h : ∀ source ∈ new, source ∉ reached ∧ ∃ p ∈ all, p.2.source current = source) :
    unreached current all (reached ++ new) + new.length ≤ unreached current all reached := by
  induction new generalizing reached with
  | nil => simp
  | cons source new ih =>
    obtain ⟨hsource, hnodup⟩ := List.nodup_cons.1 hnodup
    obtain ⟨⟨hreached, hall⟩, hnew⟩ := List.forall_mem_cons.1 h
    have hlt := unreached_concat_lt hreached hall
    have hrest : unreached current all (reached ++ [source] ++ new) + new.length ≤
        unreached current all (reached ++ [source]) := by
      refine ih hnodup fun other hother => ⟨?_, (hnew other hother).2⟩
      rw [List.mem_append, List.mem_singleton, not_or]
      refine ⟨(hnew other hother).1, ?_⟩
      rintro rfl
      exact hsource hother
    rw [List.append_assoc, List.singleton_append] at hrest
    rw [List.length_cons]
    omega

/-- What waits and what may still come to wait fits in the steps, so that none is left. -/
theorem exists_visits (edits : SourceEdits)
    (hsteps : waiting.length + unreached files.current all reached ≤ steps) :
    ∃ r edits', Visits files all reached waiting edits r edits' ∧
      (visit files all steps reached waiting).run.run edits = (r, edits') := by
  induction steps generalizing reached waiting edits with
  | zero =>
    have hwaiting : waiting = [] := List.length_eq_zero_iff.1 (by omega)
    subst hwaiting
    exact ⟨_, _, .done, rfl⟩
  | succ steps ih =>
    cases waiting with
    | nil => exact ⟨_, _, .done, rfl⟩
    | cons path waiting =>
      have hvisit : visit files all (steps + 1) reached (path :: waiting) =
          redirectTo files all path >>= fun sources =>
            visit files all steps (sources.foldl reach (reached, [])).1
              (waiting ++ (sources.foldl reach (reached, [])).2) := rfl
      rw [hvisit, run_bind]
      rcases hrun : (redirectTo files all path).run.run edits with ⟨e | sources, between⟩
      · exact ⟨_, _, .failed hrun, rfl⟩
      · obtain ⟨new, hnew, hnodup, hmem⟩ := foldl_reach sources reached []
        have hle : unreached files.current all (reached ++ new) + new.length ≤
            unreached files.current all reached := by
          refine unreached_append_add_le hnodup fun source hsource => ?_
          obtain ⟨hsource, hreached⟩ := (hmem source).1 hsource
          rw [sources_of_mapM hrun, List.map_map] at hsource
          obtain ⟨p, hp, rfl⟩ := List.mem_map.1 hsource
          exact ⟨hreached, p, (List.mem_filter.1 hp).1, rfl⟩
        have hbound : (waiting ++ new).length + unreached files.current all (reached ++ new) ≤
            steps := by
          rw [List.length_append]
          rw [List.length_cons] at hsteps
          omega
        obtain ⟨r, edits', hvisits, hrest⟩ := ih between hbound
        refine ⟨r, edits', .next hrun ?_, ?_⟩
        · rw [hnew]
          exact hvisits
        · dsimp only
          rw [hnew]
          exact hrest

end Worklist

section Invariant

variable {made ps : List (String × Directive)} {reached waiting sources : List String}
  {between : SourceEdits}

theorem mem_keys_put {path : String} {w : (String × Nat) × Edit} :
    path ∈ (put edits w).keys ↔ path = w.1.1 ∨ path ∈ edits.keys := by
  simp only [SortedMap.mem_keys_iff, put, FinderPlan.edit, SortedMap.get?_insert]
  by_cases hpath : path = w.1.1 <;> simp [hpath]

/-- The edits are those from before and the ones of the directives that were redirected, which
stand at places of their own. -/
structure Written (files : FileTree) (before : SourceEdits) (made : List (String × Directive))
    (edits : SourceEdits) : Prop where
  keys : ∀ path, path ∈ edits.keys ↔ path ∈ before.keys ∨ ∃ p ∈ made, path = p.2.source files.current
  redirected : ∀ p ∈ made, ∃ site e, IsRedirect files p.2 p.1 site e ∧ editAt? edits site = some e
  kept : ∀ site e, editAt? before site = some e → editAt? edits site = some e
  only : ∀ site e, editAt? edits site = some e →
    editAt? before site = some e ∨ ∃ p ∈ made, IsRedirect files p.2 p.1 site e
  apart : ∀ p ∈ made, ∀ site e, IsRedirect files p.2 p.1 site e → editAt? before site = none ∧
    ∀ p' ∈ made, ∀ e', IsRedirect files p'.2 p'.1 site e' → p' = p

theorem written_nil (files : FileTree) (before : SourceEdits) : Written files before [] before where
  keys := by simp
  redirected := nofun
  kept _ _ h := h
  only _ _ h := .inl h
  apart := nofun

/-- An edit at a free place is added to the others. -/
theorem editAt?_put_iff (hfree : editAt? edits site = none) {site' : String × Nat} {e' : Edit} :
    editAt? (put edits (site, e)) site' = some e' ↔
      editAt? edits site' = some e' ∨ site' = site ∧ e' = e := by
  rw [editAt?_put]
  split
  · next hsite =>
    subst hsite
    simp [hfree, eq_comm]
  · next hsite => simp [hsite]

/-- The place of a directive that was redirected is taken. -/
theorem Written.ne_none (h : Written files before made edits) (hp : p ∈ made)
    (hsite : IsRedirect files p.2 p.1 site e) : editAt? edits site ≠ none := by
  obtain ⟨site', e', hsite', hedit⟩ := h.redirected p hp
  rw [site_eq_of_isRedirect hsite hsite', hedit]
  nofun

/-- So is every place from before. -/
theorem Written.before_eq_none (h : Written files before made edits)
    (hfree : editAt? edits site = none) : editAt? before site = none := by
  by_contra htaken
  obtain ⟨e, he⟩ := Option.ne_none_iff_exists'.1 htaken
  rw [h.kept site e he] at hfree
  cases hfree

/-- The edit of one more directive takes a free place. -/
theorem Written.insert (h : Written files before made edits) (hfree : editAt? edits site = none)
    (hp : IsRedirect files p.2 p.1 site e) :
    Written files before (made ++ [p]) (put edits (site, e)) := by
  constructor
  case keys =>
    obtain ⟨src, clause, -, -, hsite, -⟩ := hp
    intro path
    rw [mem_keys_put, h.keys, hsite]
    simp only [List.mem_append, List.mem_singleton, or_and_right, exists_or, exists_eq_left]
    exact or_rotate
  case redirected =>
    intro p' hp'
    rcases List.mem_append.1 hp' with hp' | hp'
    · obtain ⟨site', e', hsite', he'⟩ := h.redirected p' hp'
      exact ⟨site', e', hsite', (editAt?_put_iff hfree).2 (.inl he')⟩
    · obtain rfl := List.mem_singleton.1 hp'
      exact ⟨site, e, hp, (editAt?_put_iff hfree).2 (.inr ⟨rfl, rfl⟩)⟩
  case kept =>
    intro site' e' he'
    exact (editAt?_put_iff hfree).2 (.inl (h.kept site' e' he'))
  case only =>
    intro site' e' he'
    rcases (editAt?_put_iff hfree).1 he' with he' | ⟨rfl, rfl⟩
    · refine (h.only site' e' he').imp_right ?_
      rintro ⟨p', hp', hsite'⟩
      exact ⟨p', List.mem_append_left _ hp', hsite'⟩
    · exact .inr ⟨p, by simp, hp⟩
  case apart =>
    -- the place is free, so that no directive before has it
    have hother : ∀ p' ∈ made, ∀ e', ¬ IsRedirect files p'.2 p'.1 site e' :=
      fun p' hmade e' hsite' => h.ne_none hmade hsite' hfree
    intro p' hp' site' e' hsite'
    rcases List.mem_append.1 hp' with hmade | hlast
    · obtain ⟨hbefore, hsame⟩ := h.apart p' hmade site' e' hsite'
      refine ⟨hbefore, fun p'' hp'' e'' hsite'' => ?_⟩
      rcases List.mem_append.1 hp'' with hmade' | hlast
      · exact hsame p'' hmade' e'' hsite''
      · rw [List.mem_singleton.1 hlast] at hsite''
        obtain rfl := site_eq_of_isRedirect hsite'' hp
        exact absurd hsite' (hother p' hmade e')
    · rw [List.mem_singleton.1 hlast] at hsite' ⊢
      obtain rfl := site_eq_of_isRedirect hsite' hp
      refine ⟨h.before_eq_none hfree, fun p'' hp'' e'' hsite'' => ?_⟩
      rcases List.mem_append.1 hp'' with hmade | hlast
      · exact absurd hsite'' (hother p'' hmade e'')
      · exact List.mem_singleton.1 hlast

/-- One more directive is redirected. -/
theorem Written.concat (h : Written files before made edits) (hp : p.2.Imports files.current p.1)
    {source : String} (hrun : (redirect files p.2).run.run edits = (.ok source, edits')) :
    Written files before (made ++ [p]) edits' := by
  obtain ⟨-, offset, e, hedit, hfree, rfl⟩ := redirect_eq_ok hrun
  exact h.insert hfree (isRedirect_of_editOf hedit hp)

/-- So are several. -/
theorem Written.append (h : Written files before made edits)
    (hps : ∀ p ∈ ps, p.2.Imports files.current p.1)
    (hrun : ((ps.map Prod.snd).mapM (redirect files)).run.run edits = (.ok sources, edits')) :
    Written files before (made ++ ps) edits' := by
  induction ps generalizing made edits sources with
  | nil =>
    obtain ⟨-, rfl⟩ := pure_eq_ok_iff.1 hrun
    rwa [List.append_nil]
  | cons p ps ih =>
    obtain ⟨hp, hps⟩ := List.forall_mem_cons.1 hps
    rw [List.map_cons, List.mapM_cons] at hrun
    obtain ⟨source, t, hsource, hrun⟩ := bind_eq_ok_iff.1 hrun
    obtain ⟨rest, t', hrest, hrun⟩ := bind_eq_ok_iff.1 hrun
    obtain ⟨-, rfl⟩ := pure_eq_ok_iff.1 hrun
    have hwritten := ih (h.concat hp hsource) hps hrest
    rwa [List.append_assoc] at hwritten

/-- A search from the edits before: the directives that were redirected, the sources that were
reached, and those of them that wait. -/
structure Progress (files : FileTree) (ts : Trees) (root : String) (before : SourceEdits)
    (all made : List (String × Directive)) (reached waiting : List String) (edits : SourceEdits) :
    Prop where
  written : Written files before made edits
  mem_made : ∀ p ∈ made, p ∈ all ∧ Affected ts files.current root before p.1
  mem_reached : ∀ path, path ∈ reached ↔
    path ∈ before.keys ∨ ∃ p ∈ made, path = p.2.source files.current
  mem_waiting : ∀ path ∈ waiting, path ∈ reached
  closed : ∀ p ∈ all, p.1 ∈ reached → p.1 ∈ waiting ∨ p ∈ made

theorem Progress.start (files : FileTree) (ts : Trees) (root : String) (before : SourceEdits)
    (all : List (String × Directive)) :
    Progress files ts root before all [] before.keys before.keys before where
  written := written_nil files before
  mem_made := nofun
  mem_reached := by simp
  mem_waiting _ h := h
  closed _ _ h := .inl h

variable (hall : directives ts files.current root = .ok all)

include hall

theorem Progress.affected (h : Progress files ts root before all made reached waiting edits)
    (hpath : path ∈ reached) : Affected ts files.current root before path := by
  rcases (h.mem_reached path).1 hpath with hpath | ⟨p, hp, rfl⟩
  · exact .edited hpath
  · obtain ⟨hmem, haffected⟩ := h.mem_made p hp
    obtain ⟨hstands, himports⟩ := (mem_directives_iff hall).1 hmem
    exact .importer hstands himports haffected

/-- The directives that import the source at the head are redirected. -/
theorem Progress.step
    (h : Progress files ts root before all made reached (path :: waiting) edits)
    (hrun : (redirectTo files all path).run.run edits = (.ok sources, between)) :
    Progress files ts root before all (made ++ all.filter fun p => p.1 = path)
      (sources.foldl reach (reached, [])).1 (waiting ++ (sources.foldl reach (reached, [])).2)
      between := by
  obtain ⟨new, hnew, -, hmem⟩ := foldl_reach sources reached []
  rw [hnew, List.nil_append]
  have hps : ∀ p ∈ all.filter (fun p => p.1 = path), p ∈ all ∧ p.1 = path := fun p hp => by
    simpa using hp
  have hpath : path ∈ reached := h.mem_waiting path List.mem_cons_self
  have hsources : ∀ source, source ∈ sources ↔
      ∃ p ∈ all.filter (fun p => p.1 = path), source = p.2.source files.current := by
    intro source
    rw [sources_of_mapM hrun, List.map_map, List.mem_map]
    simp only [Function.comp_apply, eq_comm]
  constructor
  case written =>
    exact h.written.append (fun p hp => ((mem_directives_iff hall).1 (hps p hp).1).2) hrun
  case mem_made =>
    intro p hp
    rcases List.mem_append.1 hp with hp | hp
    · exact h.mem_made p hp
    · obtain ⟨hmem, rfl⟩ := hps p hp
      exact ⟨hmem, h.affected hall hpath⟩
  case mem_reached =>
    intro other
    rw [List.mem_append, hmem, or_and_left, and_iff_left (em _), h.mem_reached, hsources, or_assoc]
    simp only [List.mem_append, or_and_right, exists_or]
  case mem_waiting =>
    intro other hother
    rw [List.mem_append] at hother ⊢
    exact hother.imp_left fun hother => h.mem_waiting other (List.mem_cons_of_mem _ hother)
  case closed =>
    intro p hp hreached
    rw [List.mem_append] at hreached
    rw [List.mem_append, List.mem_append]
    rcases hreached with hreached | hreached
    · rcases h.closed p hp hreached with hwaiting | hmade
      · rcases List.mem_cons.1 hwaiting with heq | hwaiting
        · exact .inr (.inr (List.mem_filter.2 ⟨hp, by simpa using heq⟩))
        · exact .inl (.inl hwaiting)
      · exact .inr (.inl hmade)
    · exact .inl (.inr hreached)

theorem Visits.exists_progress {r : Except InstrumentError Unit}
    (hvisits : Visits files all reached waiting edits r edits') (hr : r = .ok ())
    (h : Progress files ts root before all made reached waiting edits) :
    ∃ made reached, Progress files ts root before all made reached [] edits' := by
  induction hvisits generalizing made with
  | done => exact ⟨made, _, h⟩
  | failed => cases hr
  | next hrun _ ih => exact ih hr (h.step hall hrun)

/-- If nothing waits, exactly the affected sources were reached. -/
theorem Progress.affected_iff (h : Progress files ts root before all made reached [] edits) :
    Affected ts files.current root before path ↔ path ∈ reached := by
  refine ⟨fun haffected => ?_, h.affected hall⟩
  induction haffected with
  | edited hpath => exact (h.mem_reached _).2 (.inl hpath)
  | @importer d path hd himports _ ih =>
    have hmem : (path, d) ∈ all := (mem_directives_iff hall).2 ⟨hd, himports⟩
    have hmade := (h.closed _ hmem ih).resolve_left List.not_mem_nil
    exact (h.mem_reached _).2 (.inr ⟨_, hmade, rfl⟩)

/-- Exactly the directives that import them were redirected. -/
theorem Progress.isAffected_iff (h : Progress files ts root before all made reached [] edits) :
    IsAffected files ts root before p ↔ p ∈ made := by
  constructor
  · rintro ⟨hd, himports, haffected⟩
    have hmem := (mem_directives_iff hall).2 ⟨hd, himports⟩
    exact (h.closed p hmem ((h.affected_iff hall).1 haffected)).resolve_left List.not_mem_nil
  · intro hp
    obtain ⟨hmem, haffected⟩ := h.mem_made p hp
    obtain ⟨hd, himports⟩ := (mem_directives_iff hall).1 hmem
    exact ⟨hd, himports, haffected⟩

/-- When none waits, all that is affected is redirected. -/
theorem Progress.redirected (h : Progress files ts root before all made reached [] edits) :
    Redirected files ts root before edits := by
  constructor
  case keys =>
    intro path
    rw [h.written.keys, h.affected_iff hall, h.mem_reached]
  case redirected =>
    exact fun p hp => h.written.redirected p ((h.isAffected_iff hall).1 hp)
  case kept =>
    exact h.written.kept
  case only =>
    intro site e he
    refine (h.written.only site e he).imp_right ?_
    rintro ⟨p, hp, hsite⟩
    exact ⟨p, (h.isAffected_iff hall).2 hp, hsite⟩
  case apart =>
    intro p hp site e hsite
    obtain ⟨hfree, hsame⟩ := h.written.apart p ((h.isAffected_iff hall).1 hp) site e hsite
    exact ⟨hfree, fun p' hp' => hsame p' ((h.isAffected_iff hall).1 hp')⟩

end Invariant

/-- Redirecting comes to an end, also where imports go round in circles. If it goes well, the edited
sources are the least set that has those edited before and all importers of its members, each
directive that imports one of them has one edit, which imports the copy, and there is no other new
edit. -/
theorem imports_redirects (files : FileTree) (ts : Trees) (root : String) (edits : SourceEdits) :
    (∀ all, directives ts files.current root = .ok all →
      ∃ r edits', Visits files all edits.keys edits.keys edits r edits' ∧
        (imports files ts root).run.run edits = (r, edits')) ∧
    ∀ edits', (imports files ts root).run.run edits = (.ok (), edits') →
      Redirected files ts root edits edits' := by
  have hvisits : ∀ all, directives ts files.current root = .ok all →
      ∃ r edits', Visits files all edits.keys edits.keys edits r edits' ∧
        (imports files ts root).run.run edits = (r, edits') := by
    intro all hall
    have hsteps : edits.keys.length + unreached files.current all edits.keys ≤
        edits.keys.length + all.length + 1 := by
      have hle : unreached files.current all edits.keys ≤ all.length := List.countP_le_length
      omega
    obtain ⟨r, edits', hvisits, hrun⟩ := exists_visits edits hsteps
    refine ⟨r, edits', hvisits, ?_⟩
    unfold imports
    rw [hall]
    exact hrun
  refine ⟨hvisits, fun edits' hrun => ?_⟩
  cases hall : directives ts files.current root with
  | error e =>
    unfold imports at hrun
    rw [hall] at hrun
    cases hrun
  | ok all =>
    obtain ⟨r, edits'', hvisits, hrun'⟩ := hvisits all hall
    cases hrun.symm.trans hrun'
    obtain ⟨made, reached, hprogress⟩ :=
      hvisits.exists_progress hall rfl (.start files ts root edits all)
    exact hprogress.redirected hall

/-! Two sources that import each other, the first of which is edited, and one that imports it. -/

def circularTrees : Trees :=
  let unit (id : Nat) (path : String) : FlatTree := FlatTree.insert ∅ (.ofImport id path)
  (∅ : Trees).insert "/C.sol" <| (((∅ : Units).insert "/A.sol" (unit 1 "/B.sol")).insert "/B.sol"
    (unit 2 "/A.sol")).insert "/C.sol" (unit 3 "/A.sol")

def circularEdits : SourceEdits :=
  (∅ : SourceEdits).insert "/A.sol" ((∅ : EditScript).insert 20 ⟨0x7b, "", .replace 1⟩)

theorem imports_circular :
    ∃ all edits, directives circularTrees "/" "/C.sol" = .ok all ∧
      Visits (.ofEntries "/" []) all circularEdits.keys circularEdits.keys circularEdits (.ok ())
        edits ∧
      Redirected (.ofEntries "/" []) circularTrees "/C.sol" circularEdits edits ∧
      edits.keys = ["/A.sol", "/B.sol", "/C.sol"] := by
  obtain ⟨hvisits, hredirected⟩ :=
    imports_redirects (.ofEntries "/" []) circularTrees "/C.sol" circularEdits
  have hfound : (directives circularTrees "/" "/C.sol").toOption.isSome := by decide +kernel
  obtain ⟨all, hall⟩ := Option.isSome_iff_exists.1 hfound
  have hall := toOption_eq_some_iff.1 hall
  obtain ⟨r, edits, hvisits, hrun⟩ := hvisits all hall
  have hdone : ((imports (.ofEntries "/" []) circularTrees "/C.sol").run.run circularEdits).1.toOption
      = some () := by decide +kernel
  have hkeys : ((imports (.ofEntries "/" []) circularTrees "/C.sol").run.run circularEdits).2.keys
      = ["/A.sol", "/B.sol", "/C.sol"] := by decide +kernel
  rw [hrun] at hdone hkeys
  obtain rfl := toOption_eq_some_iff.1 hdone
  exact ⟨all, edits, hall, hvisits, hredirected edits hrun, hkeys⟩

end ContractModel.Redirect

import ContractModel.Path
import ContractModel.Proofs.Text.Parts
import Mathlib.Data.List.TakeDrop

/-! # The places that paths lead to

A place is told by plain names. A path leads to a place, a name behind a path leads one step down
from there, and the text of a place leads back to it, so that two paths lead to one place exactly if
they have one normal form.
-/

namespace ContractModel.Path

open Text

variable {path directory more : String} {name : List Char} {cs ds : List Char}
  {place place' start current segments : List (List Char)}

theorem mem_dropTrivial {segment : List Char} (h : segment ∈ dropTrivial segments) :
    segment ∈ segments := by
  cases segments with
  | nil => exact h
  | cons first rest =>
    rcases List.mem_cons.1 h with rfl | h
    · exact List.mem_cons_self
    · refine List.mem_cons_of_mem _ (List.mem_reverse.1 ?_)
      exact (List.dropWhile_sublist _).subset (List.mem_reverse.1 h)

/-- A name at the end stays. -/
theorem dropTrivial_concat (hne : name ≠ []) (hdot : name ≠ ['.']) (front : List (List Char)) :
    dropTrivial (front ++ [name]) = front ++ [name] := by
  cases front with
  | nil => rfl
  | cons first front =>
    rw [List.cons_append, dropTrivial, List.reverse_append, List.reverse_singleton,
      List.singleton_append, List.dropWhile_cons_of_neg (by simp [hne, hdot]), List.reverse_cons,
      List.reverse_reverse]

/-- A name that stands for a step down. -/
structure Plain (name : List Char) : Prop where
  slash : '/' ∉ name
  nonempty : name ≠ []
  dot : name ≠ ['.']
  dots : name ≠ ['.', '.']

/-- The segments that stand for a step. -/
def steps (segments : List (List Char)) : List (List Char) :=
  segments.filter fun c => c ≠ [] ∧ c ≠ ['.']

theorem components_eq_steps (cs : List Char) : components cs = steps (splitOnChar '/' cs) := rfl

@[simp]
theorem steps_append (front rest : List (List Char)) :
    steps (front ++ rest) = steps front ++ steps rest := List.filter_append ..

@[simp]
theorem steps_dropTrivial (segments : List (List Char)) :
    steps (dropTrivial segments) = steps segments := by
  cases segments with
  | nil => rfl
  | cons first rest =>
    have hrest : steps (rest.reverse.dropWhile fun s => s = [] || s = ['.']) =
        steps rest.reverse := by
      conv_rhs => rw [← List.takeWhile_append_dropWhile (p := fun s => s = [] || s = ['.'])
        (l := rest.reverse)]
      rw [steps_append, List.self_eq_append_left]
      refine List.filter_eq_nil_iff.2 fun s hs => ?_
      have htrivial := List.all_eq_true.1 List.all_takeWhile s hs
      simpa [or_iff_not_imp_left] using htrivial
    unfold steps at *
    rw [dropTrivial, List.filter_cons, List.filter_cons, List.filter_reverse, hrest,
      List.filter_reverse, List.reverse_reverse]

@[simp]
theorem walk_append (start front rest : List (List Char)) :
    walk start (front ++ rest) = walk (walk start front) rest := List.foldl_append ..

theorem walk_of_plain (h : ∀ name ∈ segments, Plain name) (start : List (List Char)) :
    walk start segments = start ++ segments := by
  induction segments generalizing start with
  | nil => exact (List.append_nil start).symm
  | cons name segments ih =>
    obtain ⟨hname, hsegments⟩ := List.forall_mem_cons.1 h
    have hwalk : walk start (name :: segments) = walk (start ++ [name]) segments := by
      unfold walk
      rw [List.foldl_cons, if_neg hname.dots]
    rw [hwalk, ih hsegments, List.append_assoc, List.singleton_append]

/-- Walking from a plain place along segments without slashes leads to a plain place. -/
theorem plain_walk (hstart : ∀ name ∈ start, Plain name) (h : ∀ name ∈ segments, '/' ∉ name) :
    ∀ name ∈ walk start (steps segments), Plain name := by
  induction segments generalizing start with
  | nil => exact hstart
  | cons segment segments ih =>
    obtain ⟨hsegment, hsegments⟩ := List.forall_mem_cons.1 h
    unfold steps at *
    by_cases htrivial : segment ≠ [] ∧ segment ≠ ['.']
    · rw [List.filter_cons_of_pos (by simpa using htrivial)]
      refine ih ?_ hsegments
      dsimp only
      split
      · exact fun name hname => hstart name (List.dropLast_subset _ hname)
      · next hdots =>
        refine List.forall_mem_append.2 ⟨hstart, List.forall_mem_singleton.2 ?_⟩
        exact ⟨hsegment, htrivial.1, htrivial.2, hdots⟩
    · rw [List.filter_cons_of_neg (by simpa using htrivial)]
      exact ih hstart hsegments

theorem plain_resolve (h : ∀ name ∈ current, Plain name) (path : String) :
    ∀ name ∈ resolve current path, Plain name := by
  refine plain_walk ?_ fun name hname => notMem_of_mem_splitOnChar hname
  split
  · exact nofun
  · exact h

theorem resolve_empty (current : List (List Char)) : resolve current "" = current := rfl

section Join

/-- A plain place is read back from its text. -/
theorem resolve_join (h : ∀ name ∈ place, Plain name) (current : List (List Char)) :
    resolve current (String.ofList (join place)) = place := by
  have hsplit : ∀ cs, splitOnChar '/' (cs ++ place.flatMap fun c => '/' :: c) =
      splitOnChar '/' cs ++ place := by
    induction place with
    | nil => simp
    | cons name place ih =>
      obtain ⟨hname, hplace⟩ := List.forall_mem_cons.1 h
      intro cs
      rw [List.flatMap_cons, List.cons_append, splitOnChar_append_separator, ih hplace,
        splitOnChar_of_notMem hname.slash, List.singleton_append]
  have hsteps : steps place = place :=
    List.filter_eq_self.2 fun name hname => by simp [(h name hname).nonempty, (h name hname).dot]
  unfold resolve join
  cases place with
  | nil => rfl
  | cons name names =>
    have habsolute : isAbsolute (String.ofList ((name :: names).flatMap fun c => '/' :: c)) := by
      simp [isAbsolute]
    rw [List.isEmpty_cons, if_neg Bool.false_ne_true, if_pos habsolute, String.toList_ofList,
      components_eq_steps, ← List.nil_append (List.flatMap _ _), hsplit, steps_append, hsteps]
    exact walk_of_plain h []

theorem join_injective (h : ∀ name ∈ place, Plain name) (h' : ∀ name ∈ place', Plain name)
    (heq : join place = join place') : place = place' := by
  rw [← resolve_join h [], heq, resolve_join h' []]

end Join

section Behind

theorem isAbsolute_append (hne : directory ≠ "") (more : String) :
    isAbsolute (directory ++ more) = isAbsolute directory := by
  obtain ⟨c, cs, hcs⟩ := List.exists_cons_of_ne_nil (mt String.toList_eq_nil_iff.1 hne)
  simp [isAbsolute, hcs]

theorem Plain.not_isAbsolute (h : Plain more.toList) : isAbsolute more = false := by
  unfold isAbsolute
  rw [decide_eq_false_iff_not]
  exact fun hhead => h.slash (List.mem_of_head? hhead)

/-- A path behind another one brings its own names, behind some of the other's. -/
theorem exists_splitOnChar_pathAppend (directory more : String) :
    ∃ front, (∀ name ∈ front, name ∈ splitOnChar '/' directory.toList) ∧
      splitOnChar '/' (Path.append directory more).toList =
        front ++ splitOnChar '/' more.toList := by
  unfold Path.append
  split
  · exact ⟨[], nofun, rfl⟩
  dsimp only
  split
  · next hend =>
    rw [String.toList_append]
    rcases hend with hempty | hslash
    · rw [List.isEmpty_iff.1 hempty]
      exact ⟨[], nofun, rfl⟩
    · obtain ⟨front, hfront⟩ := List.getLast?_eq_some_iff.1 hslash
      rw [hfront, List.append_assoc, List.singleton_append, splitOnChar_append_separator,
        splitOnChar_append_separator]
      exact ⟨_, fun name => List.mem_append_left _, rfl⟩
  · have hlist : (directory ++ "/" ++ more).toList = directory.toList ++ '/' :: more.toList := by
      simp
    rw [hlist, splitOnChar_append_separator]
    exact ⟨_, fun name => id, rfl⟩

/-- A plain name behind a path leads one step down. -/
theorem resolve_append (h : Plain more.toList) (current : List (List Char)) (directory : String) :
    resolve current (append directory more) = resolve current directory ++ [more.toList] := by
  have hmore : steps [more.toList] = [more.toList] := by simp [steps, h.nonempty, h.dot]
  have hwalk (start : List (List Char)) : walk start [more.toList] = start ++ [more.toList] :=
    walk_of_plain (List.forall_mem_singleton.2 h) start
  unfold append
  rw [h.not_isAbsolute, if_neg Bool.false_ne_true]
  dsimp only
  split
  · next hend =>
    rcases hend with hempty | hslash
    · obtain rfl := String.toList_eq_nil_iff.1 (List.isEmpty_iff.1 hempty)
      rw [String.empty_append, resolve_empty, resolve, h.not_isAbsolute,
        if_neg Bool.false_ne_true, components_eq_steps, splitOnChar_of_notMem h.slash, hmore, hwalk]
    · obtain ⟨front, hfront⟩ := List.getLast?_eq_some_iff.1 hslash
      have hne : directory ≠ "" := by
        rintro rfl
        simp at hfront
      unfold resolve
      rw [isAbsolute_append hne, String.toList_append, hfront, List.append_assoc,
        List.singleton_append, components_eq_steps, components_eq_steps,
        splitOnChar_append_separator, splitOnChar_append_separator, splitOnChar_of_notMem h.slash,
        steps_append, steps_append, hmore, show steps (splitOnChar '/' []) = [] from rfl,
        List.append_nil, walk_append, hwalk]
  · next hend =>
    have hne : directory ≠ "" := by
      rintro rfl
      exact hend (.inl rfl)
    have hlist : (directory ++ "/" ++ more).toList = directory.toList ++ '/' :: more.toList := by
      simp
    unfold resolve
    rw [String.append_assoc, isAbsolute_append hne, ← String.append_assoc, hlist,
      components_eq_steps, components_eq_steps, splitOnChar_append_separator,
      splitOnChar_of_notMem h.slash, steps_append, hmore, walk_append, hwalk]

end Behind

section Names

variable {above : String}

/-- An absolute path has nothing in front of its first slash. -/
theorem isAbsolute_iff : isAbsolute path ↔
    ∃ rest, splitOnChar '/' path.toList = [] :: rest ∧ rest ≠ [] := by
  unfold isAbsolute
  rw [decide_eq_true_eq]
  generalize path.toList = cs
  cases cs with
  | nil => simp [splitOnChar]
  | cons c cs =>
    rw [List.head?_cons, Option.some.injEq]
    constructor
    · rintro rfl
      exact ⟨_, splitOnChar_separator '/' cs, splitOnChar_ne_nil '/' cs⟩
    · rintro ⟨rest, hrest, -⟩
      by_contra hc
      obtain ⟨first, parts, hparts⟩ := List.exists_cons_of_ne_nil (splitOnChar_ne_nil '/' cs)
      rw [splitOnChar_cons hc hparts] at hrest
      cases hrest

theorem resolve_joinSegments (h : ∀ segment ∈ segments, '/' ∉ segment) (hne : segments ≠ [])
    (current : List (List Char)) :
    resolve current (String.ofList (joinSegments segments)) =
      walk (if segments.head? = some [] then [] else current) (steps segments) := by
  by_cases hroot : segments = [[]]
  · subst hroot
    rfl
  have hsplit : splitOnChar '/' (String.ofList (joinSegments segments)).toList = segments := by
    have hjoin : joinSegments segments = ['/'].intercalate segments := by
      unfold joinSegments
      split
      · exact absurd rfl hroot
      · rfl
    rw [String.toList_ofList, hjoin, splitOnChar_intercalate hne h]
  have hhead : isAbsolute (String.ofList (joinSegments segments)) ↔ segments.head? = some [] := by
    rw [isAbsolute_iff, hsplit]
    cases segments with
    | nil => simp
    | cons first rest => aesop
  unfold resolve
  rw [components_eq_steps, hsplit]
  simp only [hhead]

/-- Nothing that stands for no step is left at the end, unless it is the first segment. -/
theorem exists_dropTrivial_eq (first : List Char) (rest : List (List Char)) :
    ∃ kept, dropTrivial (first :: rest) = first :: kept ∧ (rest = [] → kept = []) ∧
      ∀ front last, kept = front ++ [last] → last ≠ [] ∧ last ≠ ['.'] := by
  refine ⟨_, rfl, ?_, fun front last hkept => ?_⟩
  · rintro rfl
    rfl
  · have hlast := congrArg List.reverse hkept
    rw [List.reverse_reverse, List.reverse_append, List.reverse_singleton,
      List.singleton_append] at hlast
    have hhead := List.head?_dropWhile_not (fun s => s = [] || s = ['.']) rest.reverse
    rw [hlast] at hhead
    simpa using hhead

theorem ne_of_dropTrivial_eq {front : List (List Char)} (h : dropTrivial segments = front ++ [name])
    (hfront : front ≠ []) : name ≠ [] ∧ name ≠ ['.'] := by
  obtain ⟨f, front, rfl⟩ := List.exists_cons_of_ne_nil hfront
  cases segments with
  | nil => cases h
  | cons first rest =>
    obtain ⟨kept, hkept, -, hend⟩ := exists_dropTrivial_eq first rest
    rw [hkept, List.cons_append, List.cons.injEq] at h
    exact hend front name h.2

section Segments

variable {front : List (List Char)}
  (hsegments : dropTrivial (splitOnChar '/' path.toList) = front ++ [name])

include hsegments

theorem parent?_of_segments : parent? path =
    if front = [] then if name = [] then none else some ""
    else some (String.ofList (joinSegments (dropTrivial front))) := by
  unfold parent?
  rw [hsegments]
  cases front with
  | nil => cases name <;> rfl
  | cons f front =>
    rw [if_neg (List.cons_ne_nil f front)]
    split
    · next heq => simp at heq
    · next heq => simp at heq
    · next heq => simp at heq
    · rw [List.dropLast_concat]

/-- A path is absolute if there is nothing in the first segment, which is not the only one. -/
theorem isAbsolute_iff_of_segments (hne : name ≠ []) :
    isAbsolute path ↔ front.head? = some [] := by
  obtain ⟨first, rest, hfirst⟩ :=
    List.exists_cons_of_ne_nil (splitOnChar_ne_nil '/' path.toList)
  obtain ⟨kept, hkept, hnil, -⟩ := exists_dropTrivial_eq first rest
  rw [isAbsolute_iff, hfirst]
  rw [hfirst, hkept] at hsegments
  cases front with
  | nil =>
    have hfirst : first ≠ [] := (List.cons.inj hsegments).1 ▸ hne
    simp [hfirst]
  | cons f front =>
    obtain ⟨rfl, hkept⟩ := List.cons.inj hsegments
    have hrest : rest ≠ [] := fun hrest => by simp [hnil hrest] at hkept
    simp [hrest]

/-- A plain name is one step down from where the segments in front of it lead. -/
theorem resolve_of_segments (hname : Plain name) (current : List (List Char)) :
    resolve current path =
      walk (if front.head? = some [] then [] else current) (steps front) ++ [name] := by
  have hsteps : components path.toList = steps front ++ [name] := by
    rw [components_eq_steps, ← steps_dropTrivial, hsegments, steps_append]
    simp [steps, hname.nonempty, hname.dot]
  unfold resolve
  simp only [isAbsolute_iff_of_segments hsegments hname.nonempty, hsteps, walk_append]
  exact walk_of_plain (List.forall_mem_singleton.2 hname) _

end Segments

/-- The last name of a path is plain, and what is in front of it are the segments before. -/
theorem exists_front_of_splitName (h : splitName path = some (above, name)) :
    Plain name ∧ ∃ front, dropTrivial (splitOnChar '/' path.toList) = front ++ [name] ∧
      above = if front = [] then "" else String.ofList (joinSegments (dropTrivial front)) := by
  obtain ⟨_, habove, h⟩ := Option.bind_eq_some_iff.1 h
  obtain ⟨_, hlast, h⟩ := Option.bind_eq_some_iff.1 h
  split at h
  · cases h
  next hdots =>
  cases h
  rw [not_or] at hdots
  obtain ⟨front, hfront⟩ := List.getLast?_eq_some_iff.1 hlast
  have hslash : '/' ∉ name :=
    notMem_of_mem_splitOnChar (mem_dropTrivial (List.mem_of_getLast? hlast))
  rw [parent?_of_segments hfront] at habove
  split at habove
  · next hnil =>
    rw [Option.ite_none_left_eq_some] at habove
    refine ⟨⟨hslash, habove.1, hdots.1, hdots.2⟩, front, hfront, ?_⟩
    rw [if_pos hnil]
    exact (Option.some.inj habove.2).symm
  · next hcons =>
    obtain ⟨hne, -⟩ := ne_of_dropTrivial_eq hfront hcons
    refine ⟨⟨hslash, hne, hdots.1, hdots.2⟩, front, hfront, ?_⟩
    rw [if_neg hcons]
    exact (Option.some.inj habove).symm

/-- What is in front of the last name leads to its directory. -/
theorem resolve_of_splitName (h : splitName path = some (above, name))
    (current : List (List Char)) :
    resolve current path = resolve current above ++ [name] := by
  obtain ⟨hname, front, hfront, rfl⟩ := exists_front_of_splitName h
  rw [resolve_of_segments hfront hname]
  cases front with
  | nil => rfl
  | cons f front =>
    obtain ⟨kept, hkept, -, -⟩ := exists_dropTrivial_eq f front
    have hslash : ∀ segment ∈ f :: kept, '/' ∉ segment := by
      intro segment hsegment
      have hmem : segment ∈ dropTrivial (splitOnChar '/' path.toList) := by
        rw [hfront]
        exact List.mem_append_left _ (mem_dropTrivial (hkept ▸ hsegment))
      exact notMem_of_mem_splitOnChar (mem_dropTrivial hmem)
    rw [if_neg (List.cons_ne_nil f front), hkept,
      resolve_joinSegments hslash (List.cons_ne_nil f kept), ← hkept, steps_dropTrivial, hkept]
    rfl

theorem exists_segment_of_fileName? {s : String} (h : fileName? path = some s) :
    ∃ segment ∈ splitOnChar '/' path.toList, s = String.ofList segment := by
  obtain ⟨⟨above, segment⟩, hsplit, rfl⟩ := Option.map_eq_some_iff.1 h
  obtain ⟨_, -, hsplit⟩ := Option.bind_eq_some_iff.1 hsplit
  obtain ⟨last, hlast, hsplit⟩ := Option.bind_eq_some_iff.1 hsplit
  split at hsplit
  · cases hsplit
  · cases hsplit
    exact ⟨segment, mem_dropTrivial (List.mem_of_getLast? hlast), rfl⟩

theorem slash_notMem_of_fileName? {s : String} (h : fileName? path = some s) : '/' ∉ s.toList := by
  obtain ⟨segment, hsegment, rfl⟩ := exists_segment_of_fileName? h
  rw [String.toList_ofList]
  exact notMem_of_mem_splitOnChar hsegment

/-- A plain name at the end is the name of its path. -/
theorem fileName?_of_segments (h : splitOnChar '/' path.toList = segments ++ [name])
    (hname : Plain name) : fileName? path = some (String.ofList name) := by
  have hdrop : dropTrivial (splitOnChar '/' path.toList) = segments ++ [name] := by
    rw [h, dropTrivial_concat hname.nonempty hname.dot]
  have hparent : ∃ above, parent? path = some above := by
    rw [parent?_of_segments hdrop, if_neg hname.nonempty]
    split
    · exact ⟨_, rfl⟩
    · exact ⟨_, rfl⟩
  obtain ⟨above, hparent⟩ := hparent
  simp [fileName?, splitName, hparent, hdrop, hname.dot, hname.dots]

end Names

end ContractModel.Path

import ContractModel.Instrument.Plan
import ContractModel.Proofs.Instrument.Stores
import Mathlib.Data.List.Nodup

/-! # Placing finders

What a plan holds of the finders that were placed one after the other: numbers ascend, the first
edit of a finder marks it, and bodies had no edit before. As long as the places are distinct, the
plan keeps every edit.
-/

namespace ContractModel

namespace Finder

variable {f : ContractFunction} {id : Nat} {tools : Toolchain}

/-- A text that logs the number of a finder under the finder's key. -/
def Marks (text : String) (id : Nat) : Prop :=
  ∃ front behind, text = front ++ (store id 0 (Text.decimal (symbol id)) ++ behind)

theorem Marks.append_left {text : String} (h : Marks text id) (s : String) :
    Marks (s ++ text) id := by
  obtain ⟨front, behind, rfl⟩ := h
  exact ⟨s ++ front, behind, by rw [String.append_assoc]⟩

theorem Marks.append_right {text : String} (h : Marks text id) (s : String) :
    Marks (text ++ s) id := by
  obtain ⟨front, behind, rfl⟩ := h
  exact ⟨front, behind ++ s, by simp only [String.append_assoc]⟩

/-- Every finder begins with its number. -/
theorem marks_assembly (tools : Toolchain) (id : Nat) (arguments : List ParameterType)
    (stores : List Store) : Marks (assembly tools id (markers id arguments ++ stores)) id := by
  refine ⟨"assembly \x7b ",
    written tools id (⟨1, .number (symbolCount arguments)⟩ :: stores) ++ "\x7d", ?_⟩
  rw [assembly, markers, List.cons_append, written_cons, String.append_assoc]
  rfl

theorem marks_inBody {text : String} (h : inBody f id tools = .ok text) : Marks text id := by
  rw [(inBody_eq_ok h).2]
  exact (marks_assembly tools id f.arguments _).append_left _

theorem marks_asModifier {m : ModifierFinder} (h : asModifier f id tools = .ok m) :
    Marks m.definition id := by
  rw [asModifier_eq_ok h]
  exact ((marks_assembly tools id f.arguments _).append_right _).append_left _

end Finder

namespace Placement

/-- The edits of a placement with their places. -/
def writes (p : Placement) : List ((String × Nat) × Edit) :=
  p.edits.map fun e => ((p.file, e.1), e.2)

/-- The finder stands in a modifier, which a second edit invokes. -/
def isModifier (p : Placement) : Prop := p.edits.tail ≠ []

theorem map_fst_writes (p : Placement) : p.writes.map Prod.fst = p.sites := by
  simp [writes, sites]

theorem symbol_injective {p q : Placement} (h : p.symbol = q.symbol) : p.id = q.id := by
  have hhex := Text.hexadecimal_injective (String.append_right_inj _ |>.1 h)
  unfold Finder.symbol at hhex
  omega

end Placement

namespace FinderPlan

open Placement

section Lookup

/-- The edit at a place. -/
def editAt? (edits : SourceEdits) (site : String × Nat) : Option Edit :=
  (edits.getD site.1 ∅).get? site.2

def edit? (plan : FinderPlan) (site : String × Nat) : Option Edit := editAt? plan.edits site

/-- Sets an edit at a place. -/
def put (edits : SourceEdits) (w : (String × Nat) × Edit) : SourceEdits :=
  edit edits w.1.1 w.1.2 w.2

theorem editAt?_put (edits : SourceEdits) (w : (String × Nat) × Edit) (site : String × Nat) :
    editAt? (put edits w) site = if site = w.1 then some w.2 else editAt? edits site := by
  obtain ⟨⟨file, offset⟩, e⟩ := w
  obtain ⟨file', offset'⟩ := site
  simp only [editAt?, put, edit, SortedMap.getD, SortedMap.get?_insert, Prod.mk.injEq]
  by_cases hf : file' = file
  · subst hf
    simp [SortedMap.get?_insert]
  · simp [hf]

theorem edits_foldl_place (ps : List Placement) (plan : FinderPlan) :
    (ps.foldl place plan).edits = (ps.flatMap writes).foldl put plan.edits := by
  induction ps generalizing plan with
  | nil => rfl
  | cons p ps ih =>
    rw [List.foldl_cons, ih, List.flatMap_cons, List.foldl_append, writes, List.foldl_map]
    rfl

theorem finders_foldl_place (ps : List Placement) (plan : FinderPlan) :
    (ps.foldl place plan).finders = (ps.map fun p => (p.symbol, p.function)).foldl
      (fun m w => m.insert w.1 w.2) plan.finders := by
  rw [List.foldl_map]
  induction ps generalizing plan with
  | nil => rfl
  | cons p ps ih => exact ih _

variable {ps : List Placement} {site : String × Nat} {e : Edit} {s : String}

theorem mem_of_edit? (h : (ofPlacements ps).edit? site = some e) :
    (site, e) ∈ ps.flatMap writes := by
  rw [edit?, ofPlacements, edits_foldl_place] at h
  rcases SortedMap.mem_of_look_foldl editAt?_put h with h | h
  · exact h
  · cases h

/-- As long as the places are distinct, every edit stays. -/
theorem edit?_of_mem (hn : (ps.flatMap sites).Nodup) (h : (site, e) ∈ ps.flatMap writes) :
    (ofPlacements ps).edit? site = some e := by
  have hmap : (ps.flatMap writes).map Prod.fst = ps.flatMap sites := by
    rw [List.map_flatMap]
    exact congrArg (ps.flatMap ·) (funext map_fst_writes)
  rw [edit?, ofPlacements, edits_foldl_place]
  exact SortedMap.look_foldl_of_mem editAt?_put (hmap ▸ hn) h _

theorem exists_of_mem_finders (h : s ∈ (ofPlacements ps).finders.keys) :
    ∃ p ∈ ps, p.symbol = s := by
  obtain ⟨f, hf⟩ := SortedMap.mem_keys_iff.1 h
  rw [ofPlacements, finders_foldl_place] at hf
  rcases SortedMap.mem_of_look_foldl (fun m w k => SortedMap.get?_insert m w.1 k w.2) hf with h | h
  · obtain ⟨p, hp, heq⟩ := List.mem_map.1 h
    exact ⟨p, hp, congrArg Prod.fst heq⟩
  · cases h

/-- As long as the numbers are distinct, every finder stays. -/
theorem finders_get?_of_mem (hn : (ps.map Placement.id).Nodup) {p : Placement} (h : p ∈ ps) :
    (ofPlacements ps).finders.get? p.symbol = some p.function := by
  have hsymbols : (ps.map symbol).Nodup :=
    List.Pairwise.map _ (fun p q hpq h => hpq (symbol_injective h)) (List.pairwise_map.1 hn)
  have hmap : (ps.map fun p => (p.symbol, p.function)).map Prod.fst = ps.map symbol := by
    rw [List.map_map]
    rfl
  have hmem : (p.symbol, p.function) ∈ ps.map fun p => (p.symbol, p.function) :=
    List.mem_map.2 ⟨p, h, rfl⟩
  rw [ofPlacements, finders_foldl_place]
  exact SortedMap.look_foldl_of_mem (fun m w k => SortedMap.get?_insert m w.1 k w.2)
    (hmap ▸ hsymbols) hmem _

end Lookup

section Step

variable {ts : Trees} {current contract : String} {u : BuildUnit} {f : ContractFunction}
  {definition : Node} {id start n n' : Nat} {tools : Toolchain} {edits : List (Nat × Edit)}
  {placed placed' : List Placement} {target : Target}

/-- The edits of a finder: one in the body, or a modifier behind the definition with its
invocation in front of the others. -/
theorem editsOf_cases (h : editsOf f definition id tools start = .ok edits) :
    (definition.items "modifiers" = [] ∧ ∃ text, Finder.inBody f id tools = .ok text ∧
      edits = [(start, ⟨brace, text, .insertAfter⟩)]) ∨
    (definition.items "modifiers" ≠ [] ∧ ∃ m last first name expected,
      Finder.asModifier f id tools = .ok m ∧
      definition.src?.bind SourceRange.last = some last ∧
      firstModifier (definition.items "modifiers") = some (first, name) ∧
      edits = [(last, ⟨closingBrace, m.definition, .insertAfter⟩),
        (first, ⟨expected, m.invocation ++ " ", .insertBefore⟩)]) := by
  unfold editsOf at h
  by_cases hm : (definition.items "modifiers").isEmpty
  · simp only [hm, if_true] at h
    cases hf : Finder.inBody f id tools with
    | error e => rw [hf] at h; cases h
    | ok text =>
      rw [hf] at h
      cases h
      exact .inl ⟨List.isEmpty_iff.1 hm, text, rfl, rfl⟩
  · simp only [hm, if_false, Bool.false_eq_true] at h
    cases hf : Finder.asModifier f id tools with
    | error e => rw [hf] at h; cases h
    | ok m =>
      simp only [hf, bind, Except.bind] at h
      split at h
      · next last first name hlast hfirst =>
        split at h
        · cases h
        · next expected _ hname =>
          cases h
          refine .inr ⟨fun hnil => hm (List.isEmpty_iff.2 hnil), ?_⟩
          exact ⟨m, last, first, name, expected, rfl, hlast, hfirst, rfl⟩
      · cases h

theorem target?_fresh (h : target? ts current u contract placed f = .ok (some target)) :
    ∀ p ∈ placed, (target.file, target.bodyStart) ∉ p.sites := by
  unfold target? at h
  split at h
  · cases h
  · split at h
    · split at h <;> cases h
    · simp only at h
      split at h
      · cases h
      · split at h
        · cases h
        · next hfree =>
          split at h
          · cases h
          · split at h <;> cases h
            intro p hp hsite
            exact hfree (List.any_eq_true.2 ⟨p, hp, List.contains_iff_mem.2 hsite⟩)

theorem nextNumber_eq_ok_iff : nextNumber.run.run n = (.ok id, n') ↔ id = n ∧ n' = n + 1 := by
  constructor
  · rintro ⟨⟩
    exact ⟨rfl, rfl⟩
  · rintro ⟨rfl, rfl⟩
    rfl

/-- A function leaves the placements as they are, or adds one with the next number. -/
theorem addFunction_cases
    (h : (addFunction ts current u contract placed f).run.run n = (.ok placed', n')) :
    (target? ts current u contract placed f = .ok none ∧ placed' = placed ∧ n' = n) ∨
    ∃ target edits, target? ts current u contract placed f = .ok (some target) ∧
      editsOf f target.definition n u.toolchain target.bodyStart = .ok edits ∧
      placed' = placed ++ [⟨n, f, target.file, edits⟩] ∧ n' = n + 1 := by
  rw [addFunction, Run.bind_eq_ok_iff] at h
  obtain ⟨found, t, hfound, h⟩ := h
  obtain ⟨ht, rfl⟩ := Run.ofExcept_eq_ok_iff.1 hfound
  cases found with
  | none =>
    obtain ⟨rfl, rfl⟩ := Run.pure_eq_ok_iff.1 h
    exact .inl ⟨ht, rfl, rfl⟩
  | some target =>
    obtain ⟨id, t, hid, h⟩ := Run.bind_eq_ok_iff.1 h
    obtain ⟨rfl, rfl⟩ := nextNumber_eq_ok_iff.1 hid
    obtain ⟨edits, t, hedits, h⟩ := Run.bind_eq_ok_iff.1 h
    obtain ⟨he, rfl⟩ := Run.ofExcept_eq_ok_iff.1 hedits
    obtain ⟨rfl, rfl⟩ := Run.pure_eq_ok_iff.1 h
    exact .inr ⟨target, edits, ht, he, rfl, rfl⟩

end Step

section Run

variable {ts : Trees} {current : String} {u : BuildUnit} {n n' : Nat}

/-- What holds of the finders placed so far, given the next number: the numbers ascend, the first
edit of each finder marks it, and bodies had no edit before. -/
structure Sound (ps : List Placement) (next : Nat) : Prop where
  ascending : (ps.map Placement.id).Pairwise (· < ·)
  lt_next : ∀ p ∈ ps, p.id < next
  marks : ∀ p ∈ ps, ∃ e, p.writes.head? = some e ∧ Finder.Marks e.2.payload p.id
  bodies : ps.Pairwise fun p q => ¬ q.isModifier → p.sites.Disjoint q.sites

theorem sound_nil (n : Nat) : Sound [] n := ⟨.nil, by simp, by simp, .nil⟩

theorem Sound.addFunction {contract : String} {f : ContractFunction} {ps ps' : List Placement}
    (hs : Sound ps n)
    (h : (addFunction ts current u contract ps f).run.run n = (.ok ps', n')) : Sound ps' n' := by
  rcases addFunction_cases h with ⟨-, rfl, rfl⟩ | ⟨target, edits, htarget, hedits, rfl, rfl⟩
  · exact hs
  · constructor
    · rw [List.map_append, List.pairwise_append]
      refine ⟨hs.ascending, List.pairwise_singleton _ _, ?_⟩
      intro i hi j hj
      obtain ⟨p, hp, rfl⟩ := List.mem_map.1 hi
      rw [List.mem_singleton.1 hj]
      exact hs.lt_next p hp
    · intro p hp
      rcases List.mem_append.1 hp with hp | hp
      · exact Nat.lt_succ_of_lt (hs.lt_next p hp)
      · rw [List.mem_singleton.1 hp]
        exact Nat.lt_succ_self n
    · intro p hp
      rcases List.mem_append.1 hp with hp | hp
      · exact hs.marks p hp
      · rw [List.mem_singleton.1 hp]
        rcases editsOf_cases hedits with ⟨-, text, htext, rfl⟩ | ⟨-, m, _, _, _, _, hm, -, -, rfl⟩
        · exact ⟨_, rfl, Finder.marks_inBody htext⟩
        · exact ⟨_, rfl, Finder.marks_asModifier hm⟩
    · rw [List.pairwise_append]
      refine ⟨hs.bodies, List.pairwise_singleton _ _, ?_⟩
      intro p hp q hq hbody
      rw [List.mem_singleton.1 hq] at hbody ⊢
      rcases editsOf_cases hedits with ⟨-, text, -, rfl⟩ | ⟨-, m, _, _, _, _, -, -, -, rfl⟩
      · exact List.disjoint_singleton.2 (target?_fresh htarget p hp)
      · exact absurd (List.cons_ne_nil _ _) hbody

theorem sound_placements {ps : List Placement}
    (h : (placements ts current u).run.run n = (.ok ps, n')) : Sound ps n' := by
  refine Run.foldlM_invariant Sound ?_ (sound_nil n) h
  intro c ps t ps' t' hs hc
  exact Run.foldlM_invariant Sound (fun f ps t ps' t' hs hf => hs.addFunction hf) hs hc

end Run

end FinderPlan

end ContractModel

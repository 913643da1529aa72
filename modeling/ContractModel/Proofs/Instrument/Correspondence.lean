import ContractModel.Proofs.Instrument.Placement
import Mathlib.Logic.ExistsUnique

/-! # Finders and their edits

The finders and the edits of a plan correspond as long as no edit is put over another one. Bodies
are guarded against that, modifiers are not: a plan is in order exactly when every modifier finds
its two places free. A function with modifiers that two contracts list never does.
-/

namespace ContractModel.FinderPlan

open Placement

section Correspondence

variable {ps : List Placement}

/-- The place of the edit that writes a symbol: it marks the symbol's finder, and stands in the plan
with all edits of the finder. -/
def WrittenAt (plan : FinderPlan) (ps : List Placement) (s : String) (site : String × Nat) : Prop :=
  ∃ p ∈ ps, p.symbol = s ∧ plan.finders.get? s = some p.function ∧
    (∀ w ∈ p.writes, plan.edit? w.1 = some w.2) ∧
    ∃ e, p.writes.head? = some (site, e) ∧ Finder.Marks e.payload p.id

/-- The finders of a plan and its edits correspond one to one. -/
structure Corresponds (plan : FinderPlan) (ps : List Placement) : Prop where
  written : ∀ s ∈ plan.finders.keys, ∃! site, WrittenAt plan ps s site
  belongs : ∀ site e, plan.edit? site = some e →
    ∃ p ∈ ps, p.symbol ∈ plan.finders.keys ∧ (site, e) ∈ p.writes
  /-- No edit was put over another one. -/
  kept : (ps.flatMap sites).Nodup

/-- The finders in modifiers have two places of their own, which no finder took before. -/
structure ModifiersFree (ps : List Placement) : Prop where
  apart : ∀ p ∈ ps, p.isModifier → p.sites.Nodup
  free : ps.Pairwise fun p q => q.isModifier → p.sites.Disjoint q.sites

theorem nodup_sites_of_not_isModifier {p : Placement} (h : ¬ p.isModifier) : p.sites.Nodup := by
  obtain ⟨id, f, file, edits⟩ := p
  cases edits with
  | nil => exact List.nodup_nil
  | cons e es =>
    have hes : es = [] := Classical.not_not.1 h
    subst hes
    exact List.nodup_singleton _

theorem Sound.nodup_iff {next : Nat} (hs : Sound ps next) :
    (ps.flatMap sites).Nodup ↔ ModifiersFree ps := by
  rw [List.nodup_flatMap]
  constructor
  · rintro ⟨hown, hpair⟩
    refine ⟨fun p hp _ => hown p hp, hpair.imp ?_⟩
    intro p q hd _
    exact hd
  · rintro ⟨hapart, hfree⟩
    refine ⟨fun p hp => ?_, (hs.bodies.and hfree).imp ?_⟩
    · by_cases hm : p.isModifier
      · exact hapart p hp hm
      · exact nodup_sites_of_not_isModifier hm
    · rintro p q ⟨hbody, hmodifier⟩
      by_cases hm : q.isModifier
      · exact hmodifier hm
      · exact hbody hm

theorem Sound.corresponds {next : Nat} (hs : Sound ps next) (hn : (ps.flatMap sites).Nodup) :
    Corresponds (ofPlacements ps) ps := by
  have hids : (ps.map Placement.id).Nodup := hs.ascending.imp Nat.ne_of_lt
  have hstays : ∀ p ∈ ps, ∀ w ∈ p.writes, (ofPlacements ps).edit? w.1 = some w.2 := by
    intro p hp w hw
    exact edit?_of_mem hn (List.mem_flatMap.2 ⟨p, hp, hw⟩)
  refine ⟨fun s hmem => ?_, fun site e he => ?_, hn⟩
  · obtain ⟨p, hp, rfl⟩ := exists_of_mem_finders hmem
    obtain ⟨⟨site, e⟩, hhead, hmarks⟩ := hs.marks p hp
    refine ⟨site, ⟨p, hp, rfl, finders_get?_of_mem hids hp, hstays p hp, e, hhead, hmarks⟩, ?_⟩
    rintro site' ⟨q, hq, hsymbol, -, -, e', hhead', -⟩
    have hqp : q = p := List.inj_on_of_nodup_map hids hq hp (symbol_injective hsymbol)
    rw [hqp, hhead] at hhead'
    cases hhead'
    rfl
  · obtain ⟨p, hp, hw⟩ := List.mem_flatMap.1 (mem_of_edit? he)
    exact ⟨p, hp, SortedMap.mem_keys_iff.2 ⟨_, finders_get?_of_mem hids hp⟩, hw⟩

end Correspondence

section ListedTwice

variable {ts : Trees} {current contract : String} {u : BuildUnit} {f : ContractFunction}
  {t : Target} {n n' : Nat} {ps placed placed' : List Placement}

/-- Whether a function gets a finder depends on the finders before it only through its body. -/
theorem target?_of_free (contract' : String)
    (ht : target? ts current u contract [] f = .ok (some t))
    (hfree : ∀ p ∈ placed, (t.file, t.bodyStart) ∉ p.sites) :
    target? ts current u contract' placed f = .ok (some t) := by
  unfold target? at ht ⊢
  split at ht
  · cases ht
  · next hskip =>
    rw [if_neg hskip]
    split at ht
    · split at ht <;> cases ht
    · next location hlocation =>
      simp only [List.any_nil, Bool.false_eq_true, if_false] at ht ⊢
      split at ht
      · cases ht
      · next hnames =>
        rw [if_neg hnames]
        split at ht
        · cases ht
        · next nodeId hnode =>
          split at ht
          · cases ht
          · next definition hdefinition =>
            cases ht
            have hany : (placed.any fun p => p.sites.contains
                (Path.normalize current location.file, location.src.start)) = false := by
              rw [List.any_eq_false]
              intro p hp hsite
              exact hfree p hp (List.contains_iff_mem.1 hsite)
            simp only [hany, Bool.false_eq_true, if_false]

/-- The finder of a function stands in the modifier behind the definition. -/
def StandsBehind (t : Target) (p : Placement) : Prop :=
  p.isModifier ∧ ∃ last, t.definition.src?.bind SourceRange.last = some last ∧
    (t.file, last) ∈ p.sites

theorem prefix_addFunction
    (h : (addFunction ts current u contract placed f).run.run n = (.ok placed', n')) :
    placed <+: placed' := by
  rcases addFunction_cases h with ⟨-, rfl, -⟩ | ⟨_, _, -, -, rfl, -⟩
  · exact List.prefix_refl _
  · exact List.prefix_append _ _

theorem prefix_foldlM_addFunction {fs : List ContractFunction}
    (h : (fs.foldlM (addFunction ts current u contract) placed).run.run n = (.ok placed', n')) :
    placed <+: placed' := by
  refine Run.foldlM_invariant (fun ps _ => placed <+: ps) ?_ (List.prefix_refl _) h
  intro f ps t ps' t' hp hf
  exact hp.trans (prefix_addFunction hf)

theorem prefix_foldlM_addContract {cs : List ContractRecord}
    (h : (cs.foldlM (addContract ts current u) placed).run.run n = (.ok placed', n')) :
    placed <+: placed' := by
  refine Run.foldlM_invariant (fun ps _ => placed <+: ps) ?_ (List.prefix_refl _) h
  intro c ps t ps' t' hp hc
  exact hp.trans (prefix_foldlM_addFunction hc)

/-- Each contract that lists a function with modifiers adds a finder for it. -/
theorem addContract_standsBehind {c : ContractRecord} (hf : f ∈ c.instrumentable)
    (ht : target? ts current u contract [] f = .ok (some t))
    (hmodifiers : t.definition.items "modifiers" ≠ [])
    (h : (addContract ts current u placed c).run.run n = (.ok placed', n'))
    (hfree : ∀ p ∈ placed', (t.file, t.bodyStart) ∉ p.sites) :
    ∃ added, placed' = placed ++ added ∧ ∃ p ∈ added, StandsBehind t p := by
  obtain ⟨before, after, hlist⟩ := List.append_of_mem hf
  rw [addContract, hlist, List.foldlM_append, Run.bind_eq_ok_iff] at h
  obtain ⟨ps, m, hbefore, h⟩ := h
  rw [List.foldlM_cons, Run.bind_eq_ok_iff] at h
  obtain ⟨ps', m', hstep, hafter⟩ := h
  obtain ⟨old, rfl⟩ := prefix_foldlM_addFunction hbefore
  obtain ⟨new, rfl⟩ := prefix_foldlM_addFunction hafter
  have htarget : target? ts current u c.name (placed ++ old) f = .ok (some t) := by
    refine target?_of_free c.name ht fun p hp => hfree p ?_
    exact List.mem_append_left _ ((prefix_addFunction hstep).subset hp)
  rcases addFunction_cases hstep with ⟨hnone, -, -⟩ | ⟨target, edits, hsome, hedits, rfl, -⟩
  · rw [htarget] at hnone
    cases hnone
  · rw [htarget] at hsome
    cases hsome
    refine ⟨old ++ [⟨m, f, t.file, edits⟩] ++ new, by simp only [List.append_assoc], ?_⟩
    refine ⟨⟨m, f, t.file, edits⟩, by simp, ?_⟩
    rcases editsOf_cases hedits with ⟨hnil, -⟩ | ⟨-, _, last, _, _, _, -, hlast, -, rfl⟩
    · exact absurd hnil hmodifiers
    · exact ⟨List.cons_ne_nil _ _, last, hlast, List.mem_cons_self⟩

/-- A function with modifiers that two contracts list gets two finders for the same places, unless
another finder stands in its body. -/
theorem not_modifiersFree_of_listed_twice {before between after : List ContractRecord}
    {c c' : ContractRecord} (hu : u.contracts = before ++ c :: (between ++ c' :: after))
    (hf : f ∈ c.instrumentable) (hf' : f ∈ c'.instrumentable)
    (ht : target? ts current u contract [] f = .ok (some t))
    (hmodifiers : t.definition.items "modifiers" ≠ [])
    (h : (placements ts current u).run.run n = (.ok ps, n'))
    (hfree : ∀ p ∈ ps, (t.file, t.bodyStart) ∉ p.sites) : ¬ ModifiersFree ps := by
  rw [placements, hu, List.foldlM_append, Run.bind_eq_ok_iff] at h
  obtain ⟨p₀, m₀, -, h⟩ := h
  rw [List.foldlM_cons, Run.bind_eq_ok_iff] at h
  obtain ⟨p₁, m₁, hc, h⟩ := h
  rw [List.foldlM_append, Run.bind_eq_ok_iff] at h
  obtain ⟨p₂, m₂, hbetween, h⟩ := h
  rw [List.foldlM_cons, Run.bind_eq_ok_iff] at h
  obtain ⟨p₃, m₃, hc', hafter⟩ := h
  have h₁₂ : p₁ <+: p₂ := prefix_foldlM_addContract hbetween
  have h₃ : p₃ <+: ps := prefix_foldlM_addContract hafter
  have hfree₃ : ∀ p ∈ p₃, (t.file, t.bodyStart) ∉ p.sites := fun p hp => hfree p (h₃.subset hp)
  obtain ⟨added', rfl, q, hq, hbehind, last, hlast, hsite⟩ :=
    addContract_standsBehind hf' ht hmodifiers hc' hfree₃
  obtain ⟨added, rfl, p, hp, -, last', hlast', hsite'⟩ :=
    addContract_standsBehind hf ht hmodifiers hc fun p hp =>
      hfree₃ p (List.mem_append_left _ (h₁₂.subset hp))
  cases hlast.symm.trans hlast'
  intro hm
  have hpair := List.pairwise_append.1 (hm.free.sublist h₃.sublist)
  have hdisjoint := hpair.2.2 p (h₁₂.subset (List.mem_append_right _ hp)) q hq hbehind
  exact hdisjoint hsite' hsite

end ListedTwice

section Inherited

variable {ts : Trees} {current : String} {u : BuildUnit} {n n' : Nat} {plan : FinderPlan}

/-- The finders and the edits of a plan correspond exactly when each function with modifiers finds
the two places of its finder free. -/
theorem corresponds_iff_modifiersFree
    (h : (ofUnit ts current u).run.run n = (.ok plan, n')) :
    ∃ ps, (placements ts current u).run.run n = (.ok ps, n') ∧ plan = ofPlacements ps ∧
      (Corresponds plan ps ↔ ModifiersFree ps) := by
  obtain ⟨ps, t, hps, h⟩ := Run.bind_eq_ok_iff.1 h
  obtain ⟨rfl, rfl⟩ := Run.pure_eq_ok_iff.1 h
  have hs := sound_placements hps
  refine ⟨ps, hps, rfl, fun hc => hs.nodup_iff.1 hc.kept, fun hfree => ?_⟩
  exact hs.corresponds (hs.nodup_iff.2 hfree)

/-- A function with a modifier. -/
def guarded : ContractFunction :=
  { (default : ContractFunction) with
    name := "f"
    nodeId := some 3
    location := some ⟨"/T.sol", ⟨45, 6, none⟩⟩ }

def guardedDefinition : Node where
  id := 3
  kind := "FunctionDefinition"
  contract := some "T"
  lang := .solidity
  fields := [("id", .ofNat 3), ("nodeType", "FunctionDefinition"), ("src", "17:34:0"),
    ("modifiers", .array [.object [("nodeType", "ModifierInvocation"), ("src", "39:5:0"),
      ("modifierName", .object [("name", "guard")])]])]

def guardedTrees : Trees :=
  (∅ : Trees).insert "/T.sol"
    ((∅ : Units).insert "/T.sol" ⟨[guardedDefinition], List.nodup_singleton _⟩)

/-- A contract that lists the function among its internal ones. -/
def listing (contract : String) : ContractRecord :=
  { (default : ContractRecord) with name := contract, internalFunctions := [guarded] }

def unitOf (contracts : List ContractRecord) : BuildUnit :=
  { (default : BuildUnit) with originFile := "/T.sol", contracts := contracts }

/-- A contract alone that lists the function gets a finder with both of its edits. -/
theorem corresponds_listed_once : ∃ plan ps n',
    (ofUnit guardedTrees "/" (unitOf [listing "T"])).run.run 0 = (.ok plan, n') ∧
      Corresponds plan ps := by
  have hrun : ((placements guardedTrees "/" (unitOf [listing "T"])).run.run 0).1.toOption.map
      (·.flatMap sites) = some [("/T.sol", 50), ("/T.sol", 39)] := by decide +kernel
  obtain ⟨ps, n', hps, hsites⟩ := Run.exists_of_map_eq_some hrun
  have hunit : (ofUnit guardedTrees "/" (unitOf [listing "T"])).run.run 0 =
      (.ok (ofPlacements ps), n') := Run.bind_eq_ok_iff.2 ⟨ps, n', hps, rfl⟩
  obtain ⟨ps', hps', -, hiff⟩ := corresponds_iff_modifiersFree hunit
  cases hps.symm.trans hps'
  refine ⟨_, ps, n', hunit, hiff.2 ((sound_placements hps).nodup_iff.1 ?_)⟩
  rw [hsites]
  decide

/-- If a heir lists the function too, its finder is put over the one of the base contract. -/
theorem not_corresponds_listed_twice : ∃ plan ps n',
    (ofUnit guardedTrees "/" (unitOf [listing "T", listing "U"])).run.run 0 = (.ok plan, n') ∧
      (placements guardedTrees "/" (unitOf [listing "T", listing "U"])).run.run 0 = (.ok ps, n') ∧
        plan = ofPlacements ps ∧ ¬ Corresponds plan ps := by
  have hrun : ((placements guardedTrees "/" (unitOf [listing "T", listing "U"])).run.run
      0).1.toOption.map (·.flatMap sites) =
        some [("/T.sol", 50), ("/T.sol", 39), ("/T.sol", 50), ("/T.sol", 39)] := by
    decide +kernel
  obtain ⟨ps, n', hps, hsites⟩ := Run.exists_of_map_eq_some hrun
  refine ⟨_, ps, n', Run.bind_eq_ok_iff.2 ⟨ps, n', hps, rfl⟩, hps, rfl, fun hc => ?_⟩
  have hkept := hc.kept
  rw [hsites] at hkept
  revert hkept
  decide

end Inherited

end ContractModel.FinderPlan

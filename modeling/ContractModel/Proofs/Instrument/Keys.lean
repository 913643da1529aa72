import ContractModel.Proofs.Instrument.Correspondence
import ContractModel.Proofs.Instrument.Stores
import ContractModel.Proofs.Effects
import ContractModel.Proofs.Text.Numerals

/-! # The keys of finders

A key is a number that tells the finder and the flag. A finder stores under each of its keys once,
as long as the indices of its arguments do not run into the flags, and finders have no key in
common: numbers are taken from one counter and never given back.
-/

namespace ContractModel

namespace Finder

variable {tools : Toolchain} {id id' flag flag' index : Nat} {t : ParameterType}
  {f : ContractFunction} {name : String} {s : Store}

section Keys

/-- The digits of a key. -/
def keyDigits (id flag : Nat) : List Char :=
  keyBase.toList.drop 2 ++ (Text.padded 4 16 id ++ Text.padded 4 16 flag)

theorem keyBase_toList : keyBase.toList = '0' :: 'x' :: 'f' :: keyBase.toList.drop 3 := rfl

theorem toList_key (id flag : Nat) : (key id flag).toList = '0' :: 'x' :: keyDigits id flag := by
  rw [key, String.toList_append, String.toList_append, Text.hexadecimalPadded,
    Text.hexadecimalPadded, String.toList_ofList, String.toList_ofList, List.append_assoc,
    keyDigits]
  nth_rewrite 1 [keyBase_toList]
  rfl

theorem isLowercase_keyDigits (id flag : Nat) :
    ∀ c ∈ keyDigits id flag, ∃ d < 16, Text.digitChar d = c := by
  have hbase : ((keyBase.toList.drop 2).all fun c =>
      (List.range 16).any fun d => Text.digitChar d == c) = true := by decide
  have hpadded (n : Nat) : ∀ c ∈ Text.padded 4 16 n, ∃ d < 16, Text.digitChar d = c := by
    intro c hc
    rcases List.mem_append.1 hc with hc | hc
    · exact ⟨0, by decide, (List.eq_of_mem_replicate hc).symm⟩
    · exact Text.exists_of_mem_digits (by decide) hc
  refine List.forall_mem_append.2
    ⟨fun c hc => ?_, List.forall_mem_append.2 ⟨hpadded id, hpadded flag⟩⟩
  obtain ⟨d, hd, heq⟩ := List.any_eq_true.1 (List.all_eq_true.1 hbase c hc)
  exact ⟨d, List.mem_range.1 hd, eq_of_beq heq⟩

/-- A key is written like any other number, so that different keys name different places. -/
theorem exists_key_eq (id flag : Nat) : ∃ place, key id flag = "0x" ++ Text.hexadecimal place := by
  have hfirst : (keyDigits id flag).head? = some 'f' := rfl
  have hne : keyDigits id flag ≠ [] := fun hnil => by
    rw [hnil] at hfirst
    cases hfirst
  have hshort : Text.IsShort (keyDigits id flag) := fun hzero => by
    rw [hfirst] at hzero
    exact absurd hzero (by decide)
  obtain ⟨place, hplace⟩ :=
    Text.exists_readDigits_of_digits (by decide) (isLowercase_keyDigits id flag) 0
  have hdigits := Text.digits_of_readLowercase (by decide) (by decide) hne hshort
    (isLowercase_keyDigits id flag) hplace
  refine ⟨place, String.toList_injective ?_⟩
  rw [toList_key, String.toList_append, Text.hexadecimal, hdigits, String.toList_ofList,
    String.toList_ofList]
  rfl

/-- Flags take up the last four digits. -/
theorem key_injective (hflag : flag < 0x10000) (hflag' : flag' < 0x10000)
    (h : key id flag = key id' flag') : id = id' ∧ flag = flag' := by
  have hlength {n : Nat} (hn : n < 0x10000) : (Text.padded 4 16 n).length = 4 := by
    have hn : n < Nat.pow 16 4 := hn
    have := Text.length_hexadecimalPadded (by decide : 1 ≤ 4) hn
    rwa [Text.hexadecimalPadded, String.length_ofList] at this
  have hpadded {m n : Nat} (heq : Text.padded 4 16 m = Text.padded 4 16 n) : m = n :=
    @Text.hexadecimalPadded_injective 4 m n (congrArg String.ofList heq)
  have hlist := congrArg String.toList h
  rw [toList_key, toList_key, keyDigits, keyDigits] at hlist
  obtain ⟨hid, hflags⟩ := List.append_inj'
    (List.append_cancel_left (List.cons.inj (List.cons.inj hlist).2).2)
    ((hlength hflag).trans (hlength hflag').symm)
  exact ⟨hpadded hid, hpadded hflags⟩

end Keys

section Flags

/-- The flags of an argument tell its index, as long as there are not too many arguments. -/
theorem flag_of_mem_argumentStores (h : s ∈ argumentStores tools index t name) :
    ∃ k, 1 ≤ k ∧ k ≤ 5 ∧ s.flag = 0x1000 * k + index := by
  unfold argumentStores at h
  split at h
  · split at h
    · rcases List.mem_pair.1 h with rfl | rfl
      · exact ⟨3, by decide, by decide, rfl⟩
      · exact ⟨2, by decide, by decide, rfl⟩
    · exact ⟨4, by decide, by decide, List.mem_singleton.1 h ▸ rfl⟩
  · split at h
    · exact ⟨5, by decide, by decide, List.mem_singleton.1 h ▸ rfl⟩
    · exact ⟨1, by decide, by decide, List.mem_singleton.1 h ▸ rfl⟩

theorem nodup_flags_argumentStores :
    ((argumentStores tools index t name).map Store.flag).Nodup := by
  unfold argumentStores
  split
  · split
    · simp [offsetFlag, lengthFlag]
    · exact List.nodup_singleton _
  · split <;> exact List.nodup_singleton _

theorem index_lt_of_mem_named {a : (ParameterType × String) × Nat} (h : a ∈ named f) :
    a.2 < f.arguments.length := by
  have hlt := (List.mem_zipIdx' h).1
  rw [List.length_zip] at hlt
  omega

/-- Few enough arguments for their indices to leave the flags alone. -/
def HasFewArguments (f : ContractFunction) : Prop := f.arguments.length < 0x1000

instance : DecidablePred HasFewArguments := fun f =>
  inferInstanceAs (Decidable (f.arguments.length < 0x1000))

theorem flag_of_mem_bodyArguments (hf : HasFewArguments f) (h : s ∈ bodyArguments tools id f) :
    0x1000 ≤ s.flag ∧ s.flag < 0x6000 := by
  obtain ⟨a, ha, hs⟩ := List.mem_flatMap.1 h
  obtain ⟨k, hk, hk', hflag⟩ := flag_of_mem_argumentStores hs
  have := index_lt_of_mem_named ha
  unfold HasFewArguments at hf
  omega

theorem nodup_flags_bodyArguments (hf : HasFewArguments f) :
    ((bodyArguments tools id f).map Store.flag).Nodup := by
  unfold HasFewArguments at hf
  rw [bodyArguments, List.map_flatMap, List.nodup_flatMap]
  refine ⟨fun a _ => nodup_flags_argumentStores, ?_⟩
  have hindices : ((named f).map Prod.snd).Nodup := by
    rw [named, List.zipIdx_map_snd]
    exact List.nodup_range'
  refine (List.pairwise_map.1 hindices).imp_of_mem fun {a b} ha hb hne flag hflag hflag' => ?_
  obtain ⟨s, hs, rfl⟩ := List.mem_map.1 hflag
  obtain ⟨s', hs', heq⟩ := List.mem_map.1 hflag'
  obtain ⟨k, -, -, hk⟩ := flag_of_mem_argumentStores hs
  obtain ⟨k', -, -, hk'⟩ := flag_of_mem_argumentStores hs'
  have := index_lt_of_mem_named ha
  have := index_lt_of_mem_named hb
  omega

theorem nodup_flags_markers {ts : List ParameterType} :
    ((markers id ts).map Store.flag).Nodup := by simp [markers]

theorem flag_le_of_mem_markers {ts : List ParameterType}
    (h : flag ∈ (markers id ts).map Store.flag) : flag ≤ 1 := by
  rcases List.mem_pair.1 h with rfl | rfl
  · exact Nat.zero_le 1
  · exact Nat.le_refl 1

theorem flags_bodyStores (hf : HasFewArguments f) :
    ((bodyStores tools id f).map Store.flag).Nodup ∧
      ∀ s ∈ bodyStores tools id f, s.flag < 0x10000 := by
  have hbody {s : Store} (hs : s ∈ bodyArguments tools id f) := flag_of_mem_bodyArguments hf hs
  rw [bodyStores]
  constructor
  · rw [List.map_append, List.nodup_append']
    refine ⟨nodup_flags_markers, nodup_flags_bodyArguments hf, ?_⟩
    intro flag hflag hflag'
    obtain ⟨s, hs, rfl⟩ := List.mem_map.1 hflag'
    have := flag_le_of_mem_markers hflag
    have := (hbody hs).1
    omega
  · intro s hs
    rcases List.mem_append.1 hs with hs | hs
    · have := flag_le_of_mem_markers (List.mem_map_of_mem hs)
      omega
    · have := (hbody hs).2
      omega

theorem symbolCount_le (ts : List ParameterType) : symbolCount ts ≤ 2 * ts.length := by
  have := List.countP_le_length (p := ParameterType.isDecomposed) (l := ts)
  unfold symbolCount
  omega

theorem flag_modifierStore (before : Nat) (t : ParameterType) (name : String) :
    0x6000 + before ≤ (modifierStore before t name).flag ∧
      (modifierStore before t name).flag ≤ 0x6100 + before := by
  unfold modifierStore modifierOffsetFlag modifierArgumentFlag
  split
  · dsimp only
    omega
  · dsimp only
    omega

theorem flags_modifierStores (hf : HasFewArguments f) :
    ((modifierStores tools id f).map Store.flag).Nodup ∧
      ∀ s ∈ modifierStores tools id f, s.flag < 0x10000 := by
  rw [modifierStores]
  split
  · simp [markers]
  · next t name index _ =>
    have hcount : symbolCount (f.arguments.take index) < 0x2000 := by
      have := symbolCount_le (f.arguments.take index)
      have := List.length_take_le' index f.arguments
      unfold HasFewArguments at hf
      omega
    have hflag := flag_modifierStore (symbolCount (f.arguments.take index)) t (readAs id index name)
    constructor
    · simp [markers]
      omega
    · simp [markers]
      omega

end Flags

end Finder

namespace FinderPlan

open Placement

section Generated

/-- A finder that planning generates for a function. -/
structure Generated where
  id : Nat
  function : ContractFunction
  definition : Node
  tools : Toolchain

namespace Generated

/-- A function without modifiers has its finder in its body. -/
def standsInBody (g : Generated) : Bool := (g.definition.items "modifiers").isEmpty

def text (g : Generated) : Except InstrumentError String :=
  if g.standsInBody then Finder.inBody g.function g.id g.tools
  else Finder.ModifierFinder.definition <$> Finder.asModifier g.function g.id g.tools

def symbol (g : Generated) : Nat := Finder.symbol g.id

def stores (g : Generated) : List Finder.Store :=
  if g.standsInBody then Finder.bodyStores g.tools g.id g.function
  else Finder.modifierStores g.tools g.id g.function

/-- The keys that the finder stores under. -/
def keys (g : Generated) : List String := g.stores.map fun s => Finder.key g.id s.flag

/-- What stands in front of the assembly, and behind it. -/
def surroundings (g : Generated) : String × String :=
  if g.standsInBody then (Finder.joinRenamings (Finder.copies g.id g.function), "")
  else (Finder.modifierHead g.tools g.id g.function, " _; \x7d")

theorem text_eq_ok {g : Generated} {text : String} (h : g.text = .ok text) :
    text = g.surroundings.1 ++ (Finder.assembly g.tools g.id g.stores ++ g.surroundings.2) := by
  unfold Generated.text at h
  unfold surroundings stores
  split at h
  · next hbody =>
    rw [if_pos hbody, if_pos hbody, String.append_empty]
    exact (Finder.inBody_eq_ok h).2
  · next hbody =>
    rw [if_neg hbody, if_neg hbody]
    obtain ⟨m, hm, rfl⟩ := Run.map_eq_ok_iff.1 h
    exact Finder.asModifier_eq_ok hm

theorem flags_stores {g : Generated} (hf : Finder.HasFewArguments g.function) :
    (g.stores.map Finder.Store.flag).Nodup ∧ ∀ s ∈ g.stores, s.flag < 0x10000 := by
  unfold stores
  split
  · exact Finder.flags_bodyStores hf
  · exact Finder.flags_modifierStores hf

/-- Keys agree only in finders of one number, and under one flag. -/
theorem nodup_keys {g : Generated} (hf : Finder.HasFewArguments g.function) : g.keys.Nodup := by
  obtain ⟨hflags, hlt⟩ := flags_stores hf
  refine List.pairwise_map.2 ((List.pairwise_map.1 hflags).imp_of_mem ?_)
  intro s s' hs hs' hne hkey
  exact hne (Finder.key_injective (hlt s hs) (hlt s' hs') hkey).2

theorem disjoint_keys {g g' : Generated} (hf : Finder.HasFewArguments g.function)
    (hf' : Finder.HasFewArguments g'.function) (hid : g.id ≠ g'.id) :
    g.keys.Disjoint g'.keys := by
  intro key hkey hkey'
  obtain ⟨s, hs, rfl⟩ := List.mem_map.1 hkey
  obtain ⟨s', hs', heq⟩ := List.mem_map.1 hkey'
  have hlt := (flags_stores hf).2 s hs
  have hlt' := (flags_stores hf').2 s' hs'
  exact hid (Finder.key_injective hlt hlt' heq.symm).1

end Generated

end Generated

section Numbers

variable {ts : Trees} {current : String} {u : BuildUnit} {n n' : Nat}
  {placed placed' : List Placement} {cs : List (String × ContractFunction)}

/-- The functions that planning goes through, with the names of their contracts. -/
def functions (u : BuildUnit) : List (String × ContractFunction) :=
  u.contracts.flatMap fun c => c.instrumentable.map fun f => (c.name, f)

def addNext (ts : Trees) (current : String) (u : BuildUnit) (placed : List Placement)
    (c : String × ContractFunction) : Planning (List Placement) :=
  addFunction ts current u c.1 placed c.2

theorem placements_eq (ts : Trees) (current : String) (u : BuildUnit) :
    placements ts current u = (functions u).foldlM (addNext ts current u) [] := by
  rw [placements, functions]
  generalize ([] : List Placement) = placed
  induction u.contracts generalizing placed with
  | nil => rfl
  | cons c cs ih =>
    rw [List.foldlM_cons, List.flatMap_cons, List.foldlM_append, List.foldlM_map]
    exact bind_congr ih

/-- The finder that is generated for a function, if one is, when the next number is given. -/
def generatedFor (ts : Trees) (current : String) (u : BuildUnit) (placed : List Placement)
    (c : String × ContractFunction) (n : Nat) : List Generated :=
  match target? ts current u c.1 placed c.2 with
  | .ok (some target) => [⟨n, c.2, target.definition, u.toolchain⟩]
  | _ => []

/-- The finders that are generated for functions one after the other, until planning fails. -/
def generatedAll (ts : Trees) (current : String) (u : BuildUnit) :
    List Placement → List (String × ContractFunction) → Nat → List Generated
  | _, [], _ => []
  | placed, c :: cs, n =>
    generatedFor ts current u placed c n ++
      match (addNext ts current u placed c).run.run n with
      | (.ok placed, n) => generatedAll ts current u placed cs n
      | (.error _, _) => []

/-- A finder takes the next number, also if it cannot be written. -/
theorem counter_addNext (ts : Trees) (current : String) (u : BuildUnit) (placed : List Placement)
    (c : String × ContractFunction) (n : Nat) :
    ((addNext ts current u placed c).run.run n).2 =
      n + (generatedFor ts current u placed c n).length := by
  unfold addNext addFunction generatedFor
  rcases target? ts current u c.1 placed c.2 with e | _ | target
  · rfl
  · rfl
  · change ((ofExcept (editsOf c.2 target.definition n u.toolchain target.bodyStart) >>=
      fun edits => pure (placed ++ [⟨n, c.2, target.file, edits⟩]) : Planning _).run.run
        (n + 1)).2 = n + 1
    cases editsOf c.2 target.definition n u.toolchain target.bodyStart <;> rfl

/-- The finders have the numbers that follow each other, and the counter is left behind them. -/
theorem ids_generatedAll (ts : Trees) (current : String) (u : BuildUnit) (placed : List Placement)
    (cs : List (String × ContractFunction)) (n : Nat) :
    (generatedAll ts current u placed cs n).map Generated.id =
        List.range' n (generatedAll ts current u placed cs n).length ∧
      ((cs.foldlM (addNext ts current u) placed).run.run n).2 =
        n + (generatedAll ts current u placed cs n).length := by
  induction cs generalizing placed n with
  | nil => exact ⟨rfl, rfl⟩
  | cons c cs ih =>
    have hfirst : (generatedFor ts current u placed c n).map Generated.id =
        List.range' n (generatedFor ts current u placed c n).length := by
      unfold generatedFor
      split <;> rfl
    have hcounter := counter_addNext ts current u placed c n
    rw [List.foldlM_cons, Run.run_bind, generatedAll]
    rcases hrun : (addNext ts current u placed c).run.run n with ⟨e | placed', n'⟩
    · rw [hrun] at hcounter
      dsimp only at hcounter ⊢
      rw [List.append_nil]
      exact ⟨hfirst, hcounter⟩
    · rw [hrun] at hcounter
      dsimp only at hcounter ⊢
      obtain ⟨hids, hlast⟩ := ih placed' n'
      rw [List.map_append, List.length_append, hfirst, hids, hlast, hcounter]
      exact ⟨List.range'_append_1, Nat.add_assoc _ _ _⟩

/-- The first edit of a placement writes the text of a finder. -/
def Writes (g : Generated) (p : Placement) : Prop :=
  p.id = g.id ∧ p.function = g.function ∧
    ∃ text offset e, g.text = .ok text ∧ p.edits.head? = some (offset, e) ∧ e.payload = text

theorem writes_of_editsOf {f : ContractFunction} {definition : Node} {tools : Toolchain}
    {start : Nat} {edits : List (Nat × Edit)} {file : String}
    (h : editsOf f definition n tools start = .ok edits) :
    Writes ⟨n, f, definition, tools⟩ ⟨n, f, file, edits⟩ := by
  refine ⟨rfl, rfl, ?_⟩
  unfold Generated.text Generated.standsInBody
  rcases editsOf_cases h with ⟨hnil, text, htext, rfl⟩ | ⟨hne, m, _, _, _, _, hm, -, -, rfl⟩
  · rw [if_pos (List.isEmpty_iff.2 hnil)]
    exact ⟨text, _, _, htext, rfl, rfl⟩
  · rw [if_neg fun hnil => hne (List.isEmpty_iff.1 hnil)]
    exact ⟨m.definition, _, _, Run.map_eq_ok_iff.2 ⟨m, hm, rfl⟩, rfl, rfl⟩

/-- A plan writes the finders that were generated for it. -/
theorem forall₂_writes_of_foldlM
    (h : (cs.foldlM (addNext ts current u) placed).run.run n = (.ok placed', n')) :
    ∃ added, placed' = placed ++ added ∧
      List.Forall₂ Writes (generatedAll ts current u placed cs n) added := by
  induction cs generalizing placed n with
  | nil =>
    obtain ⟨rfl, rfl⟩ := Run.pure_eq_ok_iff.1 h
    exact ⟨[], (List.append_nil _).symm, .nil⟩
  | cons c cs ih =>
    rw [List.foldlM_cons] at h
    obtain ⟨placed₁, n₁, hc, h⟩ := Run.bind_eq_ok_iff.1 h
    obtain ⟨added, rfl, hadded⟩ := ih h
    rw [generatedAll, hc]
    rcases addFunction_cases hc with ⟨hnone, rfl, rfl⟩ | ⟨target, edits, hsome, hedits, rfl, rfl⟩
    · refine ⟨added, rfl, ?_⟩
      rwa [generatedFor, hnone]
    · refine ⟨⟨n, c.2, target.file, edits⟩ :: added, List.append_assoc _ _ _, ?_⟩
      rw [generatedFor, hsome]
      exact .cons (writes_of_editsOf hedits) hadded

end Numbers

section Sequence

/-- What planning is asked for. -/
structure Request where
  trees : Trees
  current : String
  unit : BuildUnit

namespace Request

def plan (r : Request) : Planning FinderPlan := ofUnit r.trees r.current r.unit

/-- The finders that the plan generates, also one that fails. -/
def generated (r : Request) (n : Nat) : List Generated :=
  generatedAll r.trees r.current r.unit [] (functions r.unit) n

theorem ids_generated (r : Request) (n : Nat) :
    (r.generated n).map Generated.id = List.range' n (r.generated n).length ∧
      (r.plan.run.run n).2 = n + (r.generated n).length := by
  obtain ⟨hids, hlast⟩ := ids_generatedAll r.trees r.current r.unit [] (functions r.unit) n
  refine ⟨hids, ?_⟩
  rw [plan, ofUnit, Run.run_bind, placements_eq]
  refine Eq.trans ?_ hlast
  generalize ((functions r.unit).foldlM (addNext r.trees r.current r.unit) []).run.run n = run
  rcases run with ⟨_ | _, _⟩
  · rfl
  · rfl

/-- A plan that does not fail writes the finders that it generates. -/
theorem writes_of_plan {r : Request} {plan : FinderPlan} {n n' : Nat}
    (h : r.plan.run.run n = (.ok plan, n')) :
    ∃ ps, plan = ofPlacements ps ∧ List.Forall₂ Writes (r.generated n) ps := by
  obtain ⟨ps, m, hps, h⟩ := Run.bind_eq_ok_iff.1 h
  obtain ⟨rfl, rfl⟩ := Run.pure_eq_ok_iff.1 h
  rw [placements_eq] at hps
  obtain ⟨added, rfl, hadded⟩ := forall₂_writes_of_foldlM hps
  exact ⟨_, rfl, hadded⟩

end Request

/-- The finders of plans that are made one after the other with one counter. -/
def generatedInTurn : List Request → Nat → List Generated
  | [], _ => []
  | r :: rs, n => r.generated n ++ generatedInTurn rs (r.plan.run.run n).2

theorem ids_generatedInTurn (rs : List Request) (n : Nat) :
    (generatedInTurn rs n).map Generated.id = List.range' n (generatedInTurn rs n).length := by
  induction rs generalizing n with
  | nil => rfl
  | cons r rs ih =>
    obtain ⟨hids, hlast⟩ := r.ids_generated n
    rw [generatedInTurn, List.map_append, List.length_append, hids, hlast, ih,
      List.range'_append_1]

theorem pairwise_id_ne (rs : List Request) (n : Nat) :
    (generatedInTurn rs n).Pairwise fun g g' => g.id ≠ g'.id := by
  have hnodup : ((generatedInTurn rs n).map Generated.id).Nodup := by
    rw [ids_generatedInTurn]
    exact List.nodup_range'
  exact List.pairwise_map.1 hnodup

/-- Each finder stores under keys of its own, each once, and marks its function with a symbol of
its own. -/
structure KeysApart (gs : List Generated) : Prop where
  once : ∀ g ∈ gs, Finder.HasFewArguments g.function → g.keys.Nodup
  keys : gs.Pairwise fun g g' => Finder.HasFewArguments g.function →
    Finder.HasFewArguments g'.function → g.keys.Disjoint g'.keys
  symbols : gs.Pairwise fun g g' => g.symbol ≠ g'.symbol

theorem keysApart_generatedInTurn (rs : List Request) (n : Nat) :
    KeysApart (generatedInTurn rs n) where
  once _ _ hf := Generated.nodup_keys hf
  keys := (pairwise_id_ne rs n).imp fun hid hf hf' => Generated.disjoint_keys hf hf' hid
  symbols := (pairwise_id_ne rs n).imp fun hid hsymbol => hid (Nat.add_left_cancel hsymbol)

/-- A function with an argument in calldata. -/
def receiving : ContractFunction :=
  { (default : ContractFunction) with
    name := "g"
    arguments := [{ ParameterType.elementary "bytes" with isCalldata := true },
      ParameterType.elementary "address"]
    parameterNames := ["data", "to"]
    nodeId := some 4
    location := some ⟨"/T.sol", ⟨70, 6, none⟩⟩ }

/-- The same with a modifier. -/
def receivingGuarded : ContractFunction :=
  { receiving with name := "h", nodeId := some 3, location := some ⟨"/T.sol", ⟨45, 6, none⟩⟩ }

def receivingTrees : Trees :=
  (∅ : Trees).insert "/T.sol" ((∅ : Units).insert "/T.sol"
    ⟨[guardedDefinition, { guardedDefinition with id := 4, fields := [] }], by decide⟩)

/-- A contract with both functions. -/
def receivingRequest : Request where
  trees := receivingTrees
  current := "/"
  unit := { (default : BuildUnit) with
    originFile := "/T.sol"
    contracts := [{ (default : ContractRecord) with
      name := "T", internalFunctions := [receiving, receivingGuarded] }]
    toolchain := { (default : Toolchain) with version := ⟨0, 8, 17⟩ } }

end Sequence

end FinderPlan

end ContractModel

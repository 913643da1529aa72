import ContractModel.Proofs.Build.Links

/-! # Units with what links set

A link sets a slot of a unit, or the immutables with a name. A model that links have changed is the
one before with the last value that each of them was set to. What decides which of them a directive
is for, and which address it points to, is the same in both.
-/

namespace ContractModel

/-- What a directive sets: a slot of a unit, or the immutables with the name in the contracts with
the name. -/
inductive LinkTarget where
  | slot (key slot : String)
  | immutable (key contract variableName : String)
  deriving DecidableEq

namespace LinkTarget

/-- The key of the unit. -/
def key : LinkTarget → String
  | slot key _ => key
  | immutable key _ _ => key

/-- The value that stays of those that the target was set to in turn. -/
def lastValue (settings : List (LinkTarget × String)) (target : LinkTarget) : Option String :=
  (settings.filter fun w => w.1 = target).getLast?.map Prod.snd

theorem lastValue_cons (w : LinkTarget × String) (settings : List (LinkTarget × String))
    (target : LinkTarget) : lastValue (w :: settings) target =
      (lastValue settings target).or (lastValue [w] target) := by
  rw [← List.singleton_append, lastValue, List.filter_append, List.getLast?_append, Option.map_or]
  rfl

theorem lastValue_singleton (target target' : LinkTarget) (value : String) :
    lastValue [(target, value)] target' = if target = target' then some value else none := by
  by_cases h : target = target' <;> simp [lastValue, h]

theorem lastValue_of_key_ne {target target' : LinkTarget} {value : String}
    (h : target.key ≠ target'.key) : lastValue [(target, value)] target' = none := by
  rw [lastValue_singleton, if_neg fun heq => h (congrArg key heq)]

theorem lastValue_eq_none {settings : List (LinkTarget × String)} {target : LinkTarget}
    (h : ∀ w ∈ settings, w.1 ≠ target) : lastValue settings target = none := by
  rw [lastValue, List.filter_eq_nil_iff.2 fun w hw => by simpa using h w hw]
  rfl

end LinkTarget

section Values

variable {values more : LinkTarget → Option String} {key key' contract variableName : String}
  {value slot : String} {holder i : Nat} {u v w : BuildUnit} {m n p : BuildModel}

namespace ContractRecord

/-- The contract with values for its immutables by name. -/
def withValues (values : String → Option String) (c : ContractRecord) : ContractRecord :=
  { c with immutables := c.immutables.map fun i =>
      { i with value := (values i.variableName).or i.value } }

/-- The contract before its immutables have values. -/
def unset (c : ContractRecord) : ContractRecord :=
  { c with immutables := c.immutables.map fun i => { i with value := none } }

theorem withValues_withValues (values more : String → Option String) (c : ContractRecord) :
    (c.withValues values).withValues more =
      c.withValues fun name => (more name).or (values name) := by
  simp [withValues, Option.or_assoc]

theorem unset_withValues (values : String → Option String) (c : ContractRecord) :
    (c.withValues values).unset = c.unset := by
  simp [withValues, unset]

theorem withValues_eq_self {values : String → Option String} {c : ContractRecord}
    (h : ∀ i ∈ c.immutables, values i.variableName = none) : c.withValues values = c := by
  have himmutables : (c.immutables.map fun i =>
      { i with value := (values i.variableName).or i.value }) = c.immutables := by
    refine (List.map_congr_left fun i hi => ?_).trans (List.map_id _)
    rw [h i hi]
    rfl
  rw [withValues, himmutables]

end ContractRecord

namespace BuildUnit

/-- One unit has the values and is otherwise the other one. -/
structure LinkedTo (values : LinkTarget → Option String) (key : String) (u v : BuildUnit) :
    Prop where
  state : ∀ slot, v.state.get? slot = (values (.slot key slot)).or (u.state.get? slot)
  contracts : v.contracts = u.contracts.map fun c =>
    c.withValues fun name => values (.immutable key c.name name)
  rest : v = { u with state := v.state, contracts := v.contracts }

/-- The unit before links have set slots and immutables. -/
def unset (u : BuildUnit) : BuildUnit :=
  { u with contracts := u.contracts.map ContractRecord.unset, state := ∅ }

namespace LinkedTo

theorem eq (h : LinkedTo values key u v) (h' : LinkedTo values key u w) : v = w := by
  have hstate : v.state = w.state :=
    SortedMap.eq_of_get?_eq fun slot => (h.state slot).trans (h'.state slot).symm
  rw [h.rest, h'.rest, hstate, h.contracts, h'.contracts]

theorem of_none (u : BuildUnit)
    (hnone : ∀ target : LinkTarget, target.key = key → values target = none) :
    LinkedTo values key u u where
  state slot := by
    rw [hnone _ rfl]
    rfl
  contracts := by
    refine ((List.map_congr_left fun c _ => ?_).trans (List.map_id _)).symm
    exact ContractRecord.withValues_eq_self fun i _ => hnone _ rfl
  rest := rfl

theorem trans (h : LinkedTo values key u v) (h' : LinkedTo more key v w) :
    LinkedTo (fun target => (more target).or (values target)) key u w where
  state slot := by rw [h'.state, h.state, Option.or_assoc]
  contracts := by
    rw [h'.contracts, h.contracts, List.map_map]
    exact List.map_congr_left fun c _ => c.withValues_withValues
      (fun name => values (.immutable key c.name name)) fun name => more (.immutable key c.name name)
  rest := by
    rw [h'.rest, h.rest]

theorem unset_eq (h : LinkedTo values key u v) : v.unset = u.unset := by
  rw [h.rest, unset, unset, h.contracts, List.map_map]
  congr 1
  exact List.map_congr_left fun c _ => c.unset_withValues _

end LinkedTo

theorem mem_immutableHolders_iff : i ∈ u.immutableHolders contract variableName ↔
    ∃ c, u.contracts[i]? = some c ∧ c.name = contract ∧
      ∃ x ∈ c.immutables, x.variableName = variableName := by
  simp [immutableHolders, List.mem_zipIdx_iff_getElem?]

theorem linkedTo_insert (key slot value : String) (u : BuildUnit) :
    LinkedTo (LinkTarget.lastValue [(.slot key slot, value)]) key u
      { u with state := u.state.insert slot value } where
  state slot' := by
    rw [SortedMap.get?_insert, LinkTarget.lastValue_singleton]
    by_cases h : slot' = slot
    · simp [h]
    · simp [h, Ne.symm h]
  contracts := by
    refine ((List.map_congr_left fun c _ => ?_).trans (List.map_id _)).symm
    exact ContractRecord.withValues_eq_self fun i _ => LinkTarget.lastValue_eq_none (by simp)
  rest := rfl

/-- If only one contract with the name has the immutable, it does not matter that no other is
set. -/
theorem linkedTo_presetImmutable (key value : String)
    (h : u.immutableHolders contract variableName = [holder]) :
    LinkedTo (LinkTarget.lastValue [(.immutable key contract variableName, value)]) key u
      (u.presetImmutable holder variableName value) where
  state slot := by
    rw [LinkTarget.lastValue_eq_none (by simp)]
    rfl
  contracts := by
    refine List.ext_getElem? fun i => ?_
    rw [presetImmutable, List.getElem?_modify, List.getElem?_map]
    refine Option.map_congr fun c hc => ?_
    have hholder : i ∈ u.immutableHolders contract variableName ↔ _ := mem_immutableHolders_iff
    rw [h, List.mem_singleton] at hholder
    split
    · next heq =>
      obtain ⟨c', hc', hname, -⟩ := hholder.1 heq.symm
      obtain rfl := Option.some.inj (hc'.symm.trans hc)
      rw [ContractRecord.withValues]
      congr 1
      refine List.map_congr_left fun x _ => ?_
      by_cases hx : x.variableName = variableName
      · simp [LinkTarget.lastValue_singleton, hname, hx, Immutable.preset]
      · simp [LinkTarget.lastValue_singleton, hx, Ne.symm hx]
    · next hne =>
      refine (ContractRecord.withValues_eq_self fun x hx => ?_).symm
      refine LinkTarget.lastValue_eq_none fun w hw heq => hne ?_
      obtain rfl := List.mem_singleton.1 hw
      injection heq with _ hcontract hvariable
      exact (hholder.2 ⟨c, hc, hcontract.symm, x, hx, hvariable.symm⟩).symm
  rest := rfl

theorem immutableHolders_unset (u : BuildUnit) (contract variableName : String) :
    u.unset.immutableHolders contract variableName = u.immutableHolders contract variableName := by
  simp only [immutableHolders, unset, List.zipIdx_map, List.filter_map, List.map_map]
  simp [Function.comp_def, ContractRecord.unset]

theorem storageLayouts_unset (u : BuildUnit) (contract : String) :
    u.unset.storageLayouts contract = u.storageLayouts contract := by
  simp only [storageLayouts, unset, List.filter_map, List.filterMap_map]
  rfl

end BuildUnit

namespace BuildModel

/-- One model has the units of the other one, with the values. -/
structure LinkedTo (values : LinkTarget → Option String) (m n : BuildModel) : Prop where
  missing : ∀ key, m.get? key = none → n.get? key = none
  present : ∀ key u, m.get? key = some u → ∃ v, n.get? key = some v ∧ u.LinkedTo values key v

/-- The model before links have set slots and immutables. -/
def unset (m : BuildModel) : BuildModel := m.mapValues fun _ u => u.unset

namespace LinkedTo

theorem refl (m : BuildModel) : LinkedTo (fun _ => none) m m where
  missing _ h := h
  present _ u hu := ⟨u, hu, .of_none u fun _ _ => rfl⟩

theorem eq (h : LinkedTo values m n) (h' : LinkedTo values m p) : n = p := by
  refine SortedMap.eq_of_get?_eq fun key => ?_
  cases hu : m.get? key with
  | none => rw [h.missing key hu, h'.missing key hu]
  | some u =>
    obtain ⟨v, hv, huv⟩ := h.present key u hu
    obtain ⟨w, hw, huw⟩ := h'.present key u hu
    rw [hv, hw, huv.eq huw]

theorem trans (h : LinkedTo values m n) (h' : LinkedTo more n p) :
    LinkedTo (fun target => (more target).or (values target)) m p where
  missing key hnone := h'.missing key (h.missing key hnone)
  present key u hu := by
    obtain ⟨v, hv, huv⟩ := h.present key u hu
    obtain ⟨w, hw, hvw⟩ := h'.present key v hv
    exact ⟨w, hw, huv.trans hvw⟩

theorem get?_eq_of_none (h : LinkedTo values m n)
    (hnone : ∀ target : LinkTarget, target.key = key → values target = none) :
    n.get? key = m.get? key := by
  cases hu : m.get? key with
  | none => exact h.missing key hu
  | some u =>
    obtain ⟨v, hv, huv⟩ := h.present key u hu
    rw [hv, huv.eq (.of_none u hnone)]

theorem unset_eq (h : LinkedTo values m n) : n.unset = m.unset := by
  refine SortedMap.eq_of_get?_eq fun key => ?_
  rw [unset, unset, SortedMap.get?_mapValues, SortedMap.get?_mapValues]
  cases hu : m.get? key with
  | none => rw [h.missing key hu]
  | some u =>
    obtain ⟨v, hv, huv⟩ := h.present key u hu
    rw [hv, Option.map_some, Option.map_some, huv.unset_eq]

/-- Changing one unit sets targets in that unit alone. -/
theorem modify (hu : m.get? key = some u) (change : BuildUnit → BuildUnit)
    (hvalues : ∀ target : LinkTarget, target.key ≠ key → values target = none)
    (h : BuildUnit.LinkedTo values key u (change u)) :
    LinkedTo values m (m.modify key change) where
  missing key' hnone := by
    rw [SortedMap.modify, SortedMap.get?_mapValues, hnone]
    rfl
  present key' v hv := by
    rw [SortedMap.modify, SortedMap.get?_mapValues, hv, Option.map_some]
    refine ⟨_, rfl, ?_⟩
    by_cases heq : key' = key
    · subst heq
      obtain rfl := Option.some.inj (hu.symm.trans hv)
      rwa [if_pos rfl]
    · rw [if_neg heq]
      exact .of_none v fun target htarget => hvalues target (htarget ▸ heq)

end LinkedTo

theorem keysOf_unset (m : BuildModel) (contract : String) :
    m.unset.keysOf contract = m.keysOf contract := by
  simp only [keysOf, unset, SortedMap.keys, SortedMap.filter, SortedMap.mapValues, List.filter_map,
    List.map_map]
  rfl

theorem addressOf?_unset (m : BuildModel) (contract : String) :
    m.unset.addressOf? contract = m.addressOf? contract := by
  simp only [addressOf?, unset, SortedMap.values, SortedMap.filter, SortedMap.mapValues,
    List.filter_map, List.map_map, List.head?_map, Option.map_map]
  rfl

theorem uniqueKey_of_unset_eq (h : m.unset = n.unset) (contract : String) :
    m.uniqueKey contract = n.uniqueKey contract := by
  rw [uniqueKey, uniqueKey, ← keysOf_unset m, h, keysOf_unset]

theorem destination_of_unset_eq (h : m.unset = n.unset) (isPlain : Bool) (text : String) :
    m.destination isPlain text = n.destination isPlain text := by
  rw [destination, destination, ← addressOf?_unset m, h, addressOf?_unset]

theorem exists_of_unset_eq (h : m.unset = n.unset) (hu : m.get? key = some u) :
    ∃ v, n.get? key = some v ∧ u.unset = v.unset := by
  have hget := congrArg (fun m : BuildModel => m.get? key) h
  simp only [unset, SortedMap.get?_mapValues, hu, Option.map_some] at hget
  obtain ⟨v, hv, heq⟩ := Option.map_eq_some_iff.1 hget.symm
  exact ⟨v, hv, heq.symm⟩

end BuildModel

end Values

end ContractModel

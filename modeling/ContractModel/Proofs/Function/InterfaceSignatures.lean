import ContractModel.Proofs.Function.Union
import ContractModel.Proofs.Types.SourceSignature

/-! # Functions under the signatures of the interface

What an entry of the interface is resolved to has the source signature of the entry, if the lengths
of arrays are written without zeros in front. So getters and the functions of Vyper contracts, which
are described by entries, are found in the interface.
-/

namespace ContractModel

namespace InterfaceEntry

/-- The lengths of arrays in the arguments have no zeros in front. -/
def HasPlainLengths (e : InterfaceEntry) : Prop :=
  ∀ p ∈ e.inputs, Dimensions.HasPlainLengths p.shownType

variable {e : InterfaceEntry} {types : List SourceType} {ts : List ParameterType}

theorem signatureWith_resolved (hplain : e.HasPlainLengths)
    (h : e.inputs.mapM (ParameterType.ofInterface types) = .ok ts) :
    ContractFunction.signatureWith ParameterType.sourceSignature e.signatureName ts =
      e.sourceSignature := by
  rw [ContractFunction.signatureWith, ParameterType.map_sourceSignature_eq hplain h]
  rfl

theorem signatureName_of_isFunction (h : e.isFunction) : e.signatureName = e.name.getD "" := by
  have hkind : e.kind = functionKind := eq_of_beq h
  have hconstructor : e.isConstructor = false := by
    rw [isConstructor, hkind]
    decide
  rw [signatureName, hconstructor, if_neg Bool.false_ne_true]

end InterfaceEntry

namespace Catalog

open ParameterType (ofInterface)

/-- The function is the one that an entry of the interface describes. -/
structure DescribedBy (s : Subject) (e : InterfaceEntry) (f : ContractFunction) : Prop where
  mem : e ∈ s.contract.interface
  isFunction : e.isFunction
  name : e.signatureName = f.name
  arguments : e.inputs.mapM (ofInterface s.types) = .ok f.arguments
  results : e.outputs.mapM (ofInterface s.types) = .ok f.results
  /-- It belongs to the interface at once, or if it is found there. -/
  listed : f.isInInterface ∨ f.isInInterface = isInInterface s false f.name f.arguments f.results

variable {s : Subject} {e : InterfaceEntry} {f : ContractFunction} {base : BaseContract} {n : Node}
  {found found' : Selectors} {compiled contract : String} {ix ix' : SyntaxIndex}
  {fs : List ContractFunction}

theorem describedBy_of_ofEntry (he : e ∈ s.contract.interface) (hfunction : e.isFunction)
    (h : ofEntry s e = .ok f) : DescribedBy s e f := by
  obtain ⟨arguments, harguments, h⟩ := Run.except_bind_eq_ok_iff.1 h
  obtain ⟨selector, -, h⟩ := Run.except_bind_eq_ok_iff.1 h
  obtain ⟨results, hresults, h⟩ := Run.except_bind_eq_ok_iff.1 h
  cases h
  exact ⟨he, hfunction, rfl, harguments, hresults, .inl rfl⟩

theorem getterEntry_eq_ok {name : String} (h : getterEntry s name = .ok e) :
    e ∈ s.contract.interface ∧ e.isFunction ∧ e.name = some name := by
  unfold getterEntry at h
  split at h
  · next heq =>
    cases h
    have hmem := List.mem_filter.1 (heq ▸ List.mem_singleton_self e)
    simpa using hmem
  · cases h
  · cases h

theorem describedBy_of_ofVariable (h : ofVariable s base found n = .ok (some f, found')) :
    ∃ e, DescribedBy s e f := by
  obtain ⟨e, hentry, h⟩ := Run.except_bind_eq_ok_iff.1 h
  obtain ⟨arguments, harguments, h⟩ := Run.except_bind_eq_ok_iff.1 h
  obtain ⟨selector, -, h⟩ := Run.except_bind_eq_ok_iff.1 h
  obtain ⟨he, hfunction, hname⟩ := getterEntry_eq_ok hentry
  rcases unlessFound_eq_ok_iff.1 h with ⟨-, hnone, -⟩ | ⟨-, hmake, -⟩
  · cases hnone
  · obtain ⟨results, hresults, hmake⟩ := Run.except_bind_eq_ok_iff.1 hmake
    cases hmake
    have hsignature : e.signatureName = n.name := by
      rw [InterfaceEntry.signatureName_of_isFunction hfunction, hname, Option.getD_some]
    exact ⟨e, he, hfunction, hsignature, harguments, hresults, .inr rfl⟩

/-- Functions without a definition in the tree are described by entries. -/
theorem exists_describedBy (h : (collectAll s compiled contract).run.run ix = (.ok fs, ix'))
    (hf : f ∈ fs) (hnode : f.nodeId = none) : ∃ e, DescribedBy s e f := by
  rcases collected_cases h hf with
    ⟨-, bases, made, found, d, -, hmade, hd⟩ | ⟨e, he, hfunction, hentry⟩
  · cases d with
    | definition base n =>
      obtain ⟨selector, hmakes, -⟩ := makes_of_mem hmade hd
      generalize hr : some f = r at hmakes
      cases hmakes with
      | definition _ _ _ _ hf =>
        split at hr
        · cases hr
        · cases hr
          rw [hf] at hnode
          cases hnode
    | stateVariable base n =>
      obtain ⟨-, -, -, next, next', -, -, hread, -⟩ := exists_read_of_mem hmade hd
      exact describedBy_of_ofVariable hread
  · exact ⟨e, describedBy_of_ofEntry he hfunction hentry⟩

theorem any_isStorage_of_resolved {types : List SourceType} {ps : List InterfaceParameter}
    {ts : List ParameterType} (h : ps.mapM (ofInterface types) = .ok ts) :
    (ts.any fun t => t.isStorage) = false := by
  rw [List.any_eq_false]
  intro t ht
  obtain ⟨p, -, hp⟩ := Run.exists_of_mem_mapM h ht
  simp [ParameterType.isStorage_of_ofInterface hp]

namespace DescribedBy

theorem sourceSignature_eq (h : DescribedBy s e f) (hplain : e.HasPlainLengths) :
    f.sourceSignature = e.sourceSignature := by
  rw [ContractFunction.sourceSignature, ← h.name]
  exact InterfaceEntry.signatureWith_resolved hplain h.arguments

theorem sourceSignature_mem (h : DescribedBy s e f) (hplain : e.HasPlainLengths) :
    f.sourceSignature ∈ s.interfaceSignatures := by
  rw [h.sourceSignature_eq hplain]
  apply List.mem_map_of_mem
  simp [h.mem, h.isFunction]

theorem isInInterface (h : DescribedBy s e f) (hplain : e.HasPlainLengths) :
    f.isInInterface = true := by
  rcases h.listed with hlisted | hlisted
  · exact hlisted
  · have hmem := h.sourceSignature_mem hplain
    rw [ContractFunction.sourceSignature] at hmem
    rw [hlisted, Catalog.isInInterface]
    simp [hmem, any_isStorage_of_resolved h.arguments, any_isStorage_of_resolved h.results]

end DescribedBy

/-- Whatever the declared types are, an entry is resolved to arguments of its own source signature.
So every function without a definition, which is a getter or belongs to a Vyper contract, is found
in the interface under the signature of the entry that describes it. -/
theorem sourceSignatures_coincide :
    (∀ (e : InterfaceEntry) (types : List SourceType) (ts : List ParameterType),
      e.HasPlainLengths → e.inputs.mapM (ofInterface types) = .ok ts →
      ContractFunction.signatureWith ParameterType.sourceSignature e.signatureName ts =
        e.sourceSignature) ∧
    ∀ (s : Subject) (compiled contract : String) (ix ix' : SyntaxIndex)
      (fs : List ContractFunction),
      (collectAll s compiled contract).run.run ix = (.ok fs, ix') →
      ∀ f ∈ fs, f.nodeId = none → ∃ e, DescribedBy s e f ∧
        (e.HasPlainLengths → f.sourceSignature = e.sourceSignature ∧
          f.sourceSignature ∈ s.interfaceSignatures ∧ f.isInInterface = true) := by
  refine ⟨fun e types ts => InterfaceEntry.signatureWith_resolved, ?_⟩
  intro s compiled contract ix ix' fs h f hf hnode
  obtain ⟨e, he⟩ := exists_describedBy h hf hnode
  refine ⟨e, he, fun hplain => ⟨?_, ?_, ?_⟩⟩
  · exact he.sourceSignature_eq hplain
  · exact he.sourceSignature_mem hplain
  · exact he.isInInterface hplain

section Vault

/-! A contract `Vault` with a function of nested arrays, and the getter of a mapping. -/

def totalEntry : InterfaceEntry :=
  ⟨"function", some "total", [⟨"rounds", "uint8[3][]", some "enum Round[3][]", none⟩], [], none,
    none⟩

def sharesEntry : InterfaceEntry :=
  ⟨"function", some "shares", [⟨"", "address", some "contract Token", none⟩],
    [⟨"", "uint256", some "uint256", none⟩], none, none⟩

def vaultNodes : List Node :=
  [.ofContract 1 "Vault" [], variableNode 2 "Vault" "shares" "ce7c2ac2"]

def vault : Subject :=
  .ofNodes "/Vault.sol" vaultNodes {
    interface := [sharesEntry]
    storageLayout := none
    machine := none }

theorem hasPlainLengths_totalEntry : totalEntry.HasPlainLengths := by
  intro p hp
  obtain rfl := List.mem_singleton.1 hp
  exact ⟨"enum Round", [['3'], []], by decide +kernel, by decide, by decide +kernel⟩

theorem hasPlainLengths_sharesEntry : sharesEntry.HasPlainLengths := by
  intro p hp
  obtain rfl := List.mem_singleton.1 hp
  exact ⟨"contract Token", [], by decide +kernel, by simp, by decide +kernel⟩

end Vault

theorem sourceSignatures_coincide_vault :
    (∃ ts, totalEntry.inputs.mapM (ofInterface []) = .ok ts ∧
      ContractFunction.signatureWith ParameterType.sourceSignature "total" ts =
        "total(enum Round[3][])") ∧
    ∃ fs ix', (collectAll vault "/Vault.sol" "Vault").run.run (.ofNodes "/Vault.sol" vaultNodes) =
        (.ok fs, ix') ∧
      ∃ f ∈ fs, f.nodeId = none ∧ f.sourceSignature = "shares(contract Token)" ∧
        f.sourceSignature ∈ vault.interfaceSignatures ∧ f.isInInterface = true := by
  obtain ⟨hentries, hcollected⟩ := sourceSignatures_coincide
  constructor
  · have hresolved : (totalEntry.inputs.mapM (ofInterface [])).toOption.isSome := by
      decide +kernel
    obtain ⟨ts, hts⟩ := Option.isSome_iff_exists.1 hresolved
    have hts := Run.toOption_eq_some_iff.1 hts
    have hsignature := hentries totalEntry [] ts hasPlainLengths_totalEntry hts
    have htext : totalEntry.sourceSignature = "total(enum Round[3][])" := by decide +kernel
    exact ⟨ts, hts, hsignature.trans htext⟩
  · have hrun : ((collectAll vault "/Vault.sol" "Vault").run.run
        (.ofNodes "/Vault.sol" vaultNodes)).1.toOption.map
          (fun fs => fs.map ContractFunction.nodeId) = some [none] := by decide +kernel
    obtain ⟨fs, ix', hfs, hids⟩ := Run.exists_of_map_eq_some hrun
    obtain ⟨f, rfl, hnode⟩ := List.map_eq_singleton_iff.1 hids
    obtain ⟨e, he, hlisted⟩ := hcollected _ _ _ _ _ _ hfs f (List.mem_singleton_self f) hnode
    obtain rfl : e = sharesEntry := List.mem_singleton.1 he.mem
    obtain ⟨hsignature, hmem, hinterface⟩ := hlisted hasPlainLengths_sharesEntry
    have htext : sharesEntry.sourceSignature = "shares(contract Token)" := by decide +kernel
    exact ⟨[f], ix', hfs, f, List.mem_singleton_self f, hnode, hsignature.trans htext, hmem,
      hinterface⟩

end Catalog

end ContractModel

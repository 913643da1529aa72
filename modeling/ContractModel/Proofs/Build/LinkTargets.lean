import ContractModel.Proofs.Build.LinkValues

/-! # What a directive is for

Which slot or immutable a directive sets, and to what, is clear from the model before all directives:
nothing that it depends on is set by a link. So of the directives with one target the last one
counts, and others can change places.
-/

namespace ContractModel

open Run

namespace Build

variable {α : Type} {a : α} {setting : BuildSetting} {s s' : BuildState}

theorem tool_eq_ok_iff {r : Except ToolFault α} :
    (tool r).run.run s = (.ok a, s') ↔ r = .ok a ∧ s = s' := by
  cases r with
  | error fault =>
    constructor
    · rintro ⟨⟩
    · rintro ⟨⟨⟩, _⟩
  | ok b =>
    rw [Except.ok.injEq]
    exact pure_eq_ok_iff

theorem request_eq_ok_iff {r : CompilerRequest} {answer : r.Answer} :
    (request setting r).run.run s = (.ok answer, s') ↔
      setting.compiler.answer s.files s.requests r = .ok answer ∧
        { s with requests := s.requests ++ [r] } = s' :=
  tool_eq_ok_iff

end Build

/-- However often it is asked, the compiler lists an assembly in the same way. -/
def Compiler.ListsAlike (compiler : Compiler) : Prop :=
  ∀ files earlier earlier' executable path arguments allowed,
    compiler.answer files earlier' (.assembly executable path arguments allowed) =
      compiler.answer files earlier (.assembly executable path arguments allowed)

namespace Links

open Build BuildModel

variable {setting : BuildSetting} {files : FileTree} {m n : BuildModel} {d : LinkDirective}
  {ds ds' : List LinkDirective} {target target' : LinkTarget} {targets : List LinkTarget}
  {u v : BuildUnit} {key contract name slot slot' : String} {s s' : BuildState}

/-- The compiler that lists the assembly of a contract of the unit. -/
def lister (setting : BuildSetting) (u : BuildUnit) (contract : String) : String :=
  let configFile := setting.config.contractToFile.getD contract u.originFile
  setting.config.compilerFor configFile (.ofPath configFile)

/-- The assembly listing that the compiler gives, asked at some time, has the slot of a variable. -/
def Lists (setting : BuildSetting) (files : FileTree) (earlier : List CompilerRequest)
    (u : BuildUnit) (contract name slot : String) : Prop :=
  ∃ arguments assembly, setting.config.extraArguments = .ok arguments ∧
    setting.compiler.answer files earlier (.assembly (lister setting u contract) u.originFile
      (setting.config.remappings ++ arguments) setting.config.path) = .ok assembly ∧
    Slot.ofAssembly contract name assembly = .ok slot

/-- The slot of a variable: the one in the storage layout of the contract, if it has exactly one, and
otherwise the one in the assembly listing. -/
inductive HasSlot (setting : BuildSetting) (files : FileTree) (u : BuildUnit)
    (contract name slot : String) : Prop
  | layout {layout : Json} (hlayout : u.storageLayouts contract = [layout])
      (hslot : Slot.ofLayout contract name layout = .ok (some slot))
  | listing {earlier : List CompilerRequest}
      (hlayout : ∀ layout, u.storageLayouts contract = [layout] →
        Slot.ofLayout contract name layout = .ok none)
      (hslot : Lists setting files earlier u contract name slot)

theorem lists_of_slotFromAssembly
    (h : (slotFromAssembly setting u contract name).run.run s = (.ok slot, s')) :
    Lists setting s.files s.requests u contract name slot := by
  obtain ⟨arguments, _, hrun, h⟩ := bind_eq_ok_iff.1 h
  obtain ⟨harguments, rfl⟩ := tool_eq_ok_iff.1 hrun
  obtain ⟨assembly, _, hrun, h⟩ := bind_eq_ok_iff.1 h
  obtain ⟨hassembly, -⟩ := request_eq_ok_iff.1 hrun
  exact ⟨arguments, assembly, harguments, hassembly, (ofExcept_eq_ok_iff.1 h).1⟩

theorem hasSlot_of_slotOf (h : (slotOf setting u contract name).run.run s = (.ok slot, s')) :
    HasSlot setting s.files u contract name slot := by
  unfold slotOf at h
  split at h
  · next layout hlayout =>
    obtain ⟨found, _, hrun, h⟩ := bind_eq_ok_iff.1 h
    obtain ⟨hfound, rfl⟩ := ofExcept_eq_ok_iff.1 hrun
    cases found with
    | some slot' =>
      obtain ⟨rfl, -⟩ := pure_eq_ok_iff.1 h
      exact .layout hlayout hfound
    | none =>
      refine .listing (fun layout' hlayout' => ?_) (lists_of_slotFromAssembly h)
      rw [hlayout, List.singleton_inj] at hlayout'
      exact hlayout' ▸ hfound
  · next hlayouts =>
    exact .listing (fun layout hlayout => absurd hlayout (hlayouts layout))
      (lists_of_slotFromAssembly h)

theorem exists_slotFromAssembly (halike : setting.compiler.ListsAlike)
    {earlier : List CompilerRequest} (h : Lists setting s.files earlier u contract name slot) :
    ∃ s', (slotFromAssembly setting u contract name).run.run s = (.ok slot, s') := by
  obtain ⟨arguments, assembly, harguments, hassembly, hslot⟩ := h
  rw [← halike s.files earlier s.requests] at hassembly
  simp only [slotFromAssembly, bind_eq_ok_iff]
  exact ⟨_, arguments, s, tool_eq_ok_iff.2 ⟨harguments, rfl⟩, assembly, _,
    request_eq_ok_iff.2 ⟨hassembly, rfl⟩, ofExcept_eq_ok_iff.2 ⟨hslot, rfl⟩⟩

theorem exists_slotOf (halike : setting.compiler.ListsAlike)
    (h : HasSlot setting s.files u contract name slot) :
    ∃ s', (slotOf setting u contract name).run.run s = (.ok slot, s') := by
  unfold slotOf
  cases h with
  | layout hlayout hslot =>
    rw [hlayout]
    exact ⟨s, bind_eq_ok_iff.2 ⟨_, s, ofExcept_eq_ok_iff.2 ⟨hslot, rfl⟩, rfl⟩⟩
  | listing hlayout hslot =>
    obtain ⟨s', hrun⟩ := exists_slotFromAssembly halike hslot
    split
    · next layout hlayout' =>
      exact ⟨s', bind_eq_ok_iff.2 ⟨none, s, ofExcept_eq_ok_iff.2 ⟨hlayout _ hlayout', rfl⟩, hrun⟩⟩
    · exact ⟨s', hrun⟩

/-- A variable has one slot. -/
theorem HasSlot.eq (halike : setting.compiler.ListsAlike)
    (h : HasSlot setting files u contract name slot)
    (h' : HasSlot setting files u contract name slot') : slot = slot' := by
  obtain ⟨s, hrun⟩ := exists_slotOf (s := .start files) halike h
  obtain ⟨s', hrun'⟩ := exists_slotOf (s := .start files) halike h'
  exact Except.ok.inj (congrArg Prod.fst (hrun.symm.trans hrun'))

theorem HasSlot.of_unset_eq (hunset : u.unset = v.unset)
    (h : HasSlot setting files u contract name slot) :
    HasSlot setting files v contract name slot := by
  have hlayouts : u.storageLayouts contract = v.storageLayouts contract := by
    rw [← u.storageLayouts_unset, hunset, v.storageLayouts_unset]
  have horigin : u.originFile = v.originFile :=
    show u.unset.originFile = v.unset.originFile from congrArg _ hunset
  cases h with
  | layout hlayout hslot => exact .layout (hlayouts ▸ hlayout) hslot
  | @listing earlier hlayout hslot =>
    rw [hlayouts] at hlayout
    have hslot : Lists setting files earlier v contract name slot := by
      unfold Lists lister at hslot ⊢
      rwa [← horigin]
    exact .listing hlayout hslot

/-- The target of a directive in a unit: the immutables with the name that it refers to, if just one
contract with its name has some, and if none has, the slot of that number or variable. -/
inductive HasTarget (setting : BuildSetting) (files : FileTree) (key : String) (u : BuildUnit)
    (d : LinkDirective) : LinkTarget → Prop
  | immutable {holder : Nat} (hholder : u.immutableHolders d.contract d.reference = [holder]) :
      HasTarget setting files key u d (.immutable key d.contract d.reference)
  | number {slot : String} (hnone : u.immutableHolders d.contract d.reference = [])
      (hnumber : isNumber d.reference) (hslot : Slot.normalize d.reference = some slot) :
      HasTarget setting files key u d (.slot key slot)
  | variableSlot {slot : String} (hnone : u.immutableHolders d.contract d.reference = [])
      (hname : ¬ isNumber d.reference)
      (hslot : HasSlot setting files u d.contract d.reference slot) :
      HasTarget setting files key u d (.slot key slot)

/-- The target of a directive in a model, in the only unit of its contract. -/
def Resolves (setting : BuildSetting) (files : FileTree) (m : BuildModel) (d : LinkDirective)
    (target : LinkTarget) : Prop :=
  ∃ key u, m.uniqueKey d.contract = .ok key ∧ m.get? key = some u ∧
    HasTarget setting files key u d target

theorem HasTarget.eq (halike : setting.compiler.ListsAlike)
    (h : HasTarget setting files key u d target) (h' : HasTarget setting files key u d target') :
    target = target' := by
  cases h with
  | immutable hholder =>
    cases h' with
    | immutable => rfl
    | number hnone => cases hholder.symm.trans hnone
    | variableSlot hnone => cases hholder.symm.trans hnone
  | number hnone hnumber hslot =>
    cases h' with
    | immutable hholder => cases hholder.symm.trans hnone
    | number _ _ hslot' => rw [Option.some.inj (hslot.symm.trans hslot')]
    | variableSlot _ hname => exact absurd hnumber hname
  | variableSlot hnone hname hslot =>
    cases h' with
    | immutable hholder => cases hholder.symm.trans hnone
    | number _ hnumber => exact absurd hnumber hname
    | variableSlot _ _ hslot' => rw [hslot.eq halike hslot']

theorem HasTarget.of_unset_eq (hunset : u.unset = v.unset)
    (h : HasTarget setting files key u d target) : HasTarget setting files key v d target := by
  have hholders : u.immutableHolders d.contract d.reference =
      v.immutableHolders d.contract d.reference := by
    rw [← u.immutableHolders_unset, hunset, v.immutableHolders_unset]
  cases h with
  | immutable hholder => exact .immutable (hholders ▸ hholder)
  | number hnone hnumber hslot => exact .number (hholders ▸ hnone) hnumber hslot
  | variableSlot hnone hname hslot =>
    exact .variableSlot (hholders ▸ hnone) hname (hslot.of_unset_eq hunset)

theorem Resolves.eq (halike : setting.compiler.ListsAlike)
    (h : Resolves setting files m d target) (h' : Resolves setting files m d target') :
    target = target' := by
  obtain ⟨key, u, hkey, hu, htarget⟩ := h
  obtain ⟨key', u', hkey', hu', htarget'⟩ := h'
  obtain rfl := Except.ok.inj (hkey.symm.trans hkey')
  obtain rfl := Option.some.inj (hu.symm.trans hu')
  exact htarget.eq halike htarget'

/-- What a directive is for does not depend on what links have set. -/
theorem Resolves.of_unset_eq (hunset : m.unset = n.unset)
    (h : Resolves setting files m d target) : Resolves setting files n d target := by
  obtain ⟨key, u, hkey, hu, htarget⟩ := h
  obtain ⟨v, hv, huv⟩ := exists_of_unset_eq hunset hu
  exact ⟨key, v, uniqueKey_of_unset_eq hunset _ ▸ hkey, hv, htarget.of_unset_eq huv⟩

theorem setSlot_eq_ok {value : String}
    (h : (setSlot setting key u d value).run.run s = (.ok (), s'))
    (hnone : u.immutableHolders d.contract d.reference = []) :
    ∃ slot, HasTarget setting s.files key u d (.slot key slot) ∧
      s'.model = s.model.modify key fun u => { u with state := u.state.insert slot value } := by
  unfold setSlot at h
  extract_lets rest at h
  split at h
  · next hnumber =>
    split at h
    · next slot hslot =>
      obtain ⟨_, _, hrun, h⟩ := bind_eq_ok_iff.1 h
      obtain ⟨rfl, rfl⟩ := pure_eq_ok_iff.1 hrun
      cases h
      exact ⟨_, .number hnone hnumber hslot, rfl⟩
    · obtain ⟨_, _, hrun, h⟩ := bind_eq_ok_iff.1 h
      cases hrun
  · next hname =>
    obtain ⟨slot, t, hrun, h⟩ := bind_eq_ok_iff.1 h
    have hmodel : t.model = s.model := (keeps_slotOf (fun _ _ => rfl) u _ _).eq hrun
    cases h
    refine ⟨slot, .variableSlot hnone hname (hasSlot_of_slotOf hrun), ?_⟩
    rw [← hmodel]

/-- Following a directive sets its target. -/
theorem apply_eq_ok (h : (apply setting d).run.run s = (.ok (), s')) :
    ∃ target, Resolves setting s.files s.model d target ∧
      LinkedTo (LinkTarget.lastValue [(target, s.model.destination true d.destination)])
        s.model s'.model := by
  unfold apply at h
  rw [run_get_bind] at h
  obtain ⟨key, _, hrun, h⟩ := bind_eq_ok_iff.1 h
  obtain ⟨hkey, rfl⟩ := ofExcept_eq_ok_iff.1 hrun
  split at h
  · cases h
  · next u hu =>
    split at h
    · next hnone =>
      obtain ⟨slot, htarget, hmodel⟩ := setSlot_eq_ok h hnone
      refine ⟨_, ⟨key, u, hkey, hu, htarget⟩, hmodel ▸ ?_⟩
      refine .modify hu _ (fun target htarget => ?_) (u.linkedTo_insert key slot _)
      exact LinkTarget.lastValue_of_key_ne htarget.symm
    · next holder hholder =>
      cases h
      refine ⟨_, ⟨key, u, hkey, hu, .immutable hholder⟩, ?_⟩
      refine .modify hu (fun u => u.presetImmutable holder d.reference _) (fun target htarget => ?_)
        (u.linkedTo_presetImmutable key _ hholder)
      exact LinkTarget.lastValue_of_key_ne htarget.symm
    · cases h

/-- A directive with a target can be followed. -/
theorem exists_apply (halike : setting.compiler.ListsAlike)
    (h : Resolves setting s.files s.model d target) :
    ∃ s', (apply setting d).run.run s = (.ok (), s') := by
  obtain ⟨key, u, hkey, hu, htarget⟩ := h
  unfold apply
  rw [run_get_bind]
  simp only [bind_eq_ok_iff, ofExcept_eq_ok_iff, hkey, Except.ok.injEq, hu, ↓existsAndEq,
    and_true, true_and]
  cases htarget with
  | immutable hholder =>
    rw [hholder]
    exact ⟨_, rfl⟩
  | number hnone hnumber hslot =>
    simp only [hnone, setSlot, hnumber, if_true, hslot]
    exact ⟨_, rfl⟩
  | variableSlot hnone hname hslot =>
    obtain ⟨t, hrun⟩ := exists_slotOf halike hslot
    simp only [hnone, setSlot, if_neg hname]
    exact ⟨_, bind_eq_ok_iff.2 ⟨_, t, hrun, rfl⟩⟩

section Runs

theorem files_of_apply (h : (apply setting d).run.run s = (.ok (), s')) : s'.files = s.files := by
  have hfiles : IgnoresLinks BuildState.files := ⟨fun _ _ _ _ => rfl, fun _ _ => rfl⟩
  exact (keeps_apply hfiles d).eq h

/-- What is neither the model nor a question to the compiler. -/
theorem eq_of_forM_apply {r : Except Error Unit}
    (h : (ds.forM (apply setting)).run.run s = (r, s')) :
    s' = { s with model := s'.model, requests := s'.requests } := by
  let view (s : BuildState) : BuildState := { s with model := ∅, requests := [] }
  have hview : IgnoresLinks view := ⟨fun _ _ _ _ => rfl, fun _ _ => rfl⟩
  have heq : view s' = view s := (Keeps.forM (keeps_apply hview) ds).eq h
  exact congrArg (fun t : BuildState => { t with model := s'.model, requests := s'.requests }) heq

/-- The targets in a list, each with the destination that the directive sets it to. -/
def settingsOf (m : BuildModel) (ds : List LinkDirective) (targets : List LinkTarget) :
    List (LinkTarget × String) :=
  targets.zip (ds.map fun d => m.destination true d.destination)

theorem forM_apply_eq_ok (h : (ds.forM (apply setting)).run.run s = (.ok (), s')) :
    ∃ targets, List.Forall₂ (Resolves setting s.files s.model) ds targets ∧
      LinkedTo (LinkTarget.lastValue (settingsOf s.model ds targets)) s.model s'.model := by
  induction ds generalizing s with
  | nil =>
    obtain ⟨-, rfl⟩ := pure_eq_ok_iff.1 h
    exact ⟨[], .nil, .refl _⟩
  | cons d ds ih =>
    obtain ⟨_, t, hrun, h⟩ := bind_eq_ok_iff.1 h
    obtain ⟨target, htarget, hlinked⟩ := apply_eq_ok hrun
    obtain ⟨targets, htargets, hlinked'⟩ := ih h
    have hunset := hlinked.unset_eq
    have hfiles := files_of_apply hrun
    refine ⟨target :: targets, .cons htarget (htargets.imp fun d target htarget => ?_), ?_⟩
    · exact hfiles ▸ htarget.of_unset_eq hunset
    · have hsettings : settingsOf t.model ds targets = settingsOf s.model ds targets := by
        simp only [settingsOf, destination_of_unset_eq hunset]
      rw [hsettings] at hlinked'
      have hall := hlinked.trans hlinked'
      simp only [← LinkTarget.lastValue_cons] at hall
      exact hall

theorem exists_forM_apply (halike : setting.compiler.ListsAlike)
    (h : ∀ d ∈ ds, ∃ target, Resolves setting s.files s.model d target) :
    ∃ s', (ds.forM (apply setting)).run.run s = (.ok (), s') := by
  induction ds generalizing s with
  | nil => exact ⟨s, rfl⟩
  | cons d ds ih =>
    obtain ⟨⟨_, htarget⟩, hrest⟩ := List.forall_mem_cons.1 h
    obtain ⟨t, hrun⟩ := exists_apply halike htarget
    obtain ⟨_, -, hlinked⟩ := apply_eq_ok hrun
    have hfiles := files_of_apply hrun
    have hrest : ∀ d ∈ ds, ∃ target, Resolves setting t.files t.model d target := by
      intro d hd
      obtain ⟨target, htarget⟩ := hrest d hd
      exact ⟨target, hfiles ▸ htarget.of_unset_eq hlinked.unset_eq.symm⟩
    obtain ⟨s', hrun'⟩ := ih hrest
    exact ⟨s', bind_eq_ok_iff.2 ⟨(), t, hrun, hrun'⟩⟩

open Classical in
/-- The directives in an order in which those with one target follow each other as before. -/
structure Reordered (setting : BuildSetting) (files : FileTree) (m : BuildModel)
    (ds ds' : List LinkDirective) : Prop where
  perm : ds'.Perm ds
  order : ∀ target, (ds'.filter fun d => Resolves setting files m d target) =
    ds.filter fun d => Resolves setting files m d target

/-- Neighbours with different targets can change places. -/
theorem reordered_swap (halike : setting.compiler.ListsAlike) {d d' : LinkDirective}
    (h : Resolves setting files m d target) (h' : Resolves setting files m d' target')
    (hne : target ≠ target') (front rest : List LinkDirective) :
    Reordered setting files m (front ++ d :: d' :: rest) (front ++ d' :: d :: rest) where
  perm := (List.Perm.swap d d' rest).append_left front
  order other := by
    simp only [List.filter_append, List.filter_cons]
    by_cases hother : Resolves setting files m d other
    · have hnot : ¬ Resolves setting files m d' other := fun hother' =>
        hne ((h.eq halike hother).trans (hother'.eq halike h'))
      simp [hnot]
    · simp [hother]

open Classical in
theorem filter_settingsOf (halike : setting.compiler.ListsAlike)
    (h : List.Forall₂ (Resolves setting files m) ds targets) (target : LinkTarget) :
    ((settingsOf m ds targets).filter fun w => w.1 = target) =
      (ds.filter fun d => Resolves setting files m d target).map fun d =>
        (target, m.destination true d.destination) := by
  induction h with
  | nil => rfl
  | @cons d target' ds targets htarget _ ih =>
    have hiff : target' = target ↔ Resolves setting files m d target :=
      ⟨fun heq => heq ▸ htarget, htarget.eq halike⟩
    by_cases heq : target' = target
    · rw [List.filter_cons_of_pos (by simpa using hiff.1 heq), List.map_cons, ← ih, ← heq]
      exact List.filter_cons_of_pos (by simp)
    · rw [List.filter_cons_of_neg (by simpa using mt hiff.2 heq), ← ih]
      exact List.filter_cons_of_neg (by simpa using heq)

theorem lastValue_settingsOf (halike : setting.compiler.ListsAlike) {targets' : List LinkTarget}
    (h : List.Forall₂ (Resolves setting files m) ds targets)
    (h' : List.Forall₂ (Resolves setting files m) ds' targets')
    (hordered : Reordered setting files m ds ds') :
    LinkTarget.lastValue (settingsOf m ds' targets') =
      LinkTarget.lastValue (settingsOf m ds targets) := by
  funext target
  rw [LinkTarget.lastValue, LinkTarget.lastValue, filter_settingsOf halike h,
    filter_settingsOf halike h', hordered.order]

end Runs

/-- Directives that can be followed set their targets and nothing else, each target to what the last
directive for it says. The targets are those in the model before all of them, so in another order
that leaves directives with one target in order they set the same, if the compiler lists an assembly
in the same way each time. -/
theorem links_lastCounts (setting : BuildSetting) (ds : List LinkDirective) (s s' : BuildState)
    (h : (ds.forM (apply setting)).run.run s = (.ok (), s')) :
    ∃ targets, List.Forall₂ (Resolves setting s.files s.model) ds targets ∧
      s' = { s with model := s'.model, requests := s'.requests } ∧
      s.model.LinkedTo (LinkTarget.lastValue (settingsOf s.model ds targets)) s'.model ∧
      (∀ key, (∀ target ∈ targets, target.key ≠ key) → s'.model.get? key = s.model.get? key) ∧
      (setting.compiler.ListsAlike → ∀ ds', Reordered setting s.files s.model ds ds' →
        ∃ s'', (ds'.forM (apply setting)).run.run s = (.ok (), s'') ∧ s''.model = s'.model) := by
  obtain ⟨targets, htargets, hlinked⟩ := forM_apply_eq_ok h
  refine ⟨targets, htargets, eq_of_forM_apply h, hlinked, fun key hkey => ?_,
    fun halike ds' hordered => ?_⟩
  · refine hlinked.get?_eq_of_none fun target htarget => ?_
    refine LinkTarget.lastValue_eq_none fun w hw heq => hkey w.1 (List.of_mem_zip hw).1 ?_
    rw [heq, htarget]
  · have hresolve : ∀ d ∈ ds', ∃ target, Resolves setting s.files s.model d target := by
      intro d hd
      obtain ⟨target, -, htarget⟩ := exists_of_mem_forall₂ htargets (hordered.perm.mem_iff.1 hd)
      exact ⟨target, htarget⟩
    obtain ⟨s'', hrun⟩ := exists_forM_apply halike hresolve
    obtain ⟨targets', htargets', hlinked'⟩ := forM_apply_eq_ok hrun
    rw [lastValue_settingsOf halike htargets htargets' hordered] at hlinked'
    exact ⟨s'', hrun, hlinked'.eq hlinked⟩

/-! A vault with an immutable in two places of its code and a slot that is named in two ways. -/

def vault : BuildUnit :=
  { (default : BuildUnit) with
    primaryContract := "Vault"
    address := "aa"
    contracts := [{ (default : ContractRecord) with
      name := "Vault", immutables := [⟨12, 32, "owner", none⟩, ⟨80, 32, "owner", none⟩] }] }

def vaultState : BuildState :=
  { BuildState.start (.ofEntries "/p" []) with
    model := ((∅ : BuildModel).insert "Vault_aa" vault).insert "Token_bb"
      { (default : BuildUnit) with primaryContract := "Token", address := "bb" } }

def vaultSetting : BuildSetting where
  config := {}
  compiler := { answer := fun _ _ r => match r with
    | .assembly _ _ _ _ => .ok "/* \"Vault.sol\":14:19  limit */\n  0x07\n  sload\n"
    | .version executable => .error (.notStarted executable)
    | .output executable _ _ => .error (.notSpawned executable) }
  finders := ∅

def limitLink : LinkDirective := ⟨"Vault", "limit", "Token"⟩
def ownerLink : LinkDirective := ⟨"Vault", "owner", "Token"⟩
def slotLink : LinkDirective := ⟨"Vault", "0x7", "0x0B"⟩

/-- The slots of the vault with the values of its immutables. -/
def vaultValues (s : BuildState) : Option (List (String × String) × List (Option String)) :=
  (s.model.get? "Vault_aa").map fun u =>
    (u.state.entries, u.contracts.flatMap fun c => c.immutables.map Immutable.value)

theorem links_lastCounts_vault : ∃ s s',
    ([limitLink, ownerLink, slotLink].forM (apply vaultSetting)).run.run vaultState = (.ok (), s) ∧
      ([limitLink, slotLink, ownerLink].forM (apply vaultSetting)).run.run vaultState =
        (.ok (), s') ∧
      vaultValues s = some ([("7", "b")], [some "bb", some "bb"]) ∧ s'.model = s.model := by
  have hvalues : ∀ r s, ([limitLink, ownerLink, slotLink].forM (apply vaultSetting)).run.run
      vaultState = (.ok r, s) → vaultValues s = some ([("7", "b")], [some "bb", some "bb"]) := by
    decide +kernel
  have hrun : (([limitLink, ownerLink, slotLink].forM (apply vaultSetting)).run.run
      vaultState).1.toOption.map id = some () := by decide +kernel
  obtain ⟨_, s, hs, -⟩ := exists_of_map_eq_some hrun
  obtain ⟨targets, -, -, -, -, hreordered⟩ := links_lastCounts _ _ _ _ hs
  have halike : vaultSetting.compiler.ListsAlike := fun _ _ _ _ _ _ _ => rfl
  have hkey : vaultState.model.uniqueKey "Vault" = .ok "Vault_aa" :=
    toOption_eq_some_iff.1 (by decide +kernel)
  have hvault : vaultState.model.get? "Vault_aa" = some vault := by
    simp [vaultState, SortedMap.get?_insert]
  have hholder : vault.immutableHolders "Vault" "owner" = [0] := by decide +kernel
  have howner : Resolves vaultSetting vaultState.files vaultState.model ownerLink
      (.immutable "Vault_aa" "Vault" "owner") := ⟨_, vault, hkey, hvault, .immutable hholder⟩
  have hslot : Resolves vaultSetting vaultState.files vaultState.model slotLink
      (.slot "Vault_aa" "7") :=
    ⟨_, vault, hkey, hvault, .number (by decide +kernel) (by decide +kernel) (by decide +kernel)⟩
  obtain ⟨s', hs', hmodel⟩ := hreordered halike _
    (reordered_swap halike howner hslot (by decide) [limitLink] [])
  exact ⟨s, s', hs, hs', hvalues _ _ hs, hmodel⟩

end Links

end ContractModel

import ContractModel.Proofs.Build.Instrumented

/-! # What a build adds

A build adds the units of one file after the other. Whatever it adds has the address that the book
of its file had for the contract, and the addresses that are not set by the user are new for every
file.
-/

namespace ContractModel

open Run

namespace AddressBook

variable {b : AddressBook} {lo n : Nat} {file file' contract : String} {text : String}
  {overrides : SortedMap String String}

/-- The addresses in the book are distinct, and taken from the given index on. -/
structure TakenFrom (lo : Nat) (b : AddressBook) : Prop where
  ascending : (b.entries.map Prod.fst).Pairwise (· < ·)
  within : ∀ e ∈ b.entries, Address.ofIndex lo ≤ e.1 ∧ e.1 < Address.ofIndex b.nextIndex
  le : lo ≤ b.nextIndex

theorem takenFrom_clear (h : lo ≤ b.nextIndex) : TakenFrom lo b.clear :=
  ⟨.nil, by rintro e ⟨⟩, h⟩

theorem TakenFrom.mono (h : TakenFrom n b) (hle : lo ≤ n) :
    TakenFrom lo b := by
  refine ⟨h.ascending, fun e he => ?_, hle.trans h.le⟩
  have hwithin := h.within e he
  unfold Address.ofIndex at *
  omega

theorem TakenFrom.assign (h : TakenFrom lo b) (file contract : String) :
    TakenFrom lo (b.assign file contract) := by
  unfold AddressBook.assign
  split
  · exact h
  · have hlo := h.le
    constructor
    · rw [List.map_append, List.pairwise_append]
      refine ⟨h.ascending, List.pairwise_singleton _ _, ?_⟩
      intro a ha a' ha'
      obtain ⟨e, he, rfl⟩ := List.mem_map.1 ha
      rw [List.mem_singleton.1 ha']
      exact (h.within e he).2
    · intro e he
      dsimp only [Address.ofIndex]
      rcases List.mem_append.1 he with he | he
      · have hwithin := h.within e he
        unfold Address.ofIndex at hwithin
        omega
      · rw [List.mem_singleton.1 he]
        dsimp only [Address.ofIndex]
        omega
    · exact Nat.le_succ_of_le hlo

theorem TakenFrom.assignAddresses (h : TakenFrom lo b) (found : SortedMap String (List String)) :
    TakenFrom lo (Collect.assignAddresses found b) := by
  unfold Collect.assignAddresses
  refine List.foldlRecOn _ _ h fun b hb entry _ => ?_
  exact List.foldlRecOn _ _ hb fun b hb name _ => hb.assign entry.1 name

theorem mem_of_lookup? {a : Nat} (h : b.lookup? file contract = some a) :
    (a, entryKey file contract) ∈ b.entries := by
  obtain ⟨⟨a, key⟩, he, rfl⟩ := Option.map_eq_some_iff.1 h
  have hkey : key = entryKey file contract := by simpa using List.find?_some he
  exact hkey ▸ List.mem_of_find?_eq_some he

/-- An address that the user does not set is within the range of the book. -/
theorem TakenFrom.exists_within (h : TakenFrom lo b) (hnone : overrides.get? contract = none)
    (hfind : b.find overrides file contract = .ok text) :
    ∃ a, Address.ofIndex lo ≤ a ∧ a < Address.ofIndex b.nextIndex ∧ text = Address.text a := by
  obtain ⟨a, hlookup, rfl⟩ := (find_eq_ok_iff hnone).1 hfind
  obtain ⟨hlo, hhi⟩ := h.within _ (mem_of_lookup? hlookup)
  exact ⟨a, hlo, hhi, rfl⟩

/-- Contracts of one name that have one address, not set by the user, are in one file. -/
theorem TakenFrom.file_eq (h : TakenFrom lo b) (hnone : overrides.get? contract = none)
    (hfind : b.find overrides file contract = .ok text)
    (hfind' : b.find overrides file' contract = .ok text) : file = file' := by
  obtain ⟨a, hlookup, rfl⟩ := (find_eq_ok_iff hnone).1 hfind
  obtain ⟨a', hlookup', htext⟩ := (find_eq_ok_iff hnone).1 hfind'
  obtain rfl := Address.text_injective htext
  have hnodup : (b.entries.map Prod.fst).Nodup := h.ascending.imp Nat.ne_of_lt
  have hkey : entryKey file contract = entryKey file' contract := congrArg Prod.snd
    (List.inj_on_of_nodup_map hnodup (mem_of_lookup? hlookup) (mem_of_lookup? hlookup') rfl)
  have hlist : file.toList ++ ':' :: contract.toList = file'.toList ++ ':' :: contract.toList := by
    simpa [entryKey] using congrArg String.toList hkey
  exact String.toList_injective (List.append_cancel_right hlist)

/-- A contract whose address the user sets has the same in every file. -/
theorem find_eq_of_isSome (hsome : (overrides.get? contract).isSome) {b' : AddressBook}
    {text' : String} (hfind : b.find overrides file contract = .ok text)
    (hfind' : b'.find overrides file' contract = .ok text') : text = text' := by
  obtain ⟨value, hvalue⟩ := Option.isSome_iff_exists.1 hsome
  have hparse : ∀ {b : AddressBook} {file text : String},
      b.find overrides file contract = .ok text →
        ∃ a, Address.parse value = some a ∧ text = Address.text a := by
    intro b file text h
    unfold find at h
    rw [hvalue] at h
    split at h
    · cases h
    · dsimp only at h
      split at h
      · next a ha =>
        cases h
        exact ⟨a, ha, rfl⟩
      · cases h
  obtain ⟨a, ha, rfl⟩ := hparse hfind
  obtain ⟨a', ha', rfl⟩ := hparse hfind'
  rw [Option.some.inj (ha.symm.trans ha')]

end AddressBook

namespace BuildUnit

open AddressBook

variable {overrides : SortedMap String String} {book : AddressBook} {u v : BuildUnit}

/-- The unit stands for one contract, of the name of its primary contract, and the book has the
addresses of both. -/
structure InBook (overrides : SortedMap String String) (book : AddressBook) (u : BuildUnit) :
    Prop where
  address : book.find overrides u.originFile u.primaryContract = .ok u.address
  libraries : u.libraryAddresses.Nodup
  contract : ∃ c, u.contracts = [c] ∧ c.name = u.primaryContract ∧
    book.find overrides c.file c.name = .ok c.address

theorem InBook.underscore_notMem (h : u.InBook overrides book) : '_' ∉ u.address.toList := by
  obtain ⟨n, hn⟩ := exists_text_of_find h.address
  rw [hn]
  exact Address.underscore_notMem_text n

end BuildUnit

namespace Build

open AddressBook BuildUnit Collect

variable {overrides : SortedMap String String} {book : AddressBook} {source file : String}
  {contracts : List String} {base : BuildUnit} {us vs ws : List BuildUnit}
  {finders : SortedMap String ContractFunction} {prototypes : SortedMap String (List String)}
  {setting : BuildSetting} {index lo mid hi : Nat} {s s' : BuildState}

/-- Units that are added one after the other. Their books took the addresses from the given range,
each library has a unit of its own, and no two files share an address for one contract unless the
user sets it. -/
structure Traced (overrides : SortedMap String String) (lo hi : Nat) (vs : List BuildUnit) :
    Prop where
  le : lo ≤ hi
  inBook : ∀ v ∈ vs, ∃ book, v.InBook overrides book ∧ TakenFrom lo book
  within : ∀ v ∈ vs, overrides.get? v.primaryContract = none →
    ∃ a, Address.ofIndex lo ≤ a ∧ a < Address.ofIndex hi ∧ v.address = Address.text a
  libraries : ∀ v ∈ vs, ∀ address ∈ v.libraryAddresses, ∃ w ∈ vs, w.address = address
  origin : ∀ v ∈ vs, ∀ w ∈ vs, v.key = w.key → overrides.get? v.primaryContract = none →
    v.originFile = w.originFile

theorem Traced.underscore_notMem (h : Traced overrides lo hi vs) {v : BuildUnit} (hv : v ∈ vs) :
    '_' ∉ v.address.toList := by
  obtain ⟨book, hbook, -⟩ := h.inBook v hv
  exact hbook.underscore_notMem

theorem traced_nil (h : lo ≤ hi) : Traced overrides lo hi [] := by
  constructor
  · exact h
  all_goals rintro v ⟨⟩

/-- Units that are added later have other addresses, unless the user sets them. -/
theorem Traced.key_ne (hvs : Traced overrides lo mid vs) (hws : Traced overrides mid hi ws)
    {v w : BuildUnit} (hv : v ∈ vs) (hw : w ∈ ws)
    (hnone : overrides.get? v.primaryContract = none) : v.key ≠ w.key := by
  intro hkey
  obtain ⟨hname, haddress⟩ :=
    BuildModel.key_injective (hvs.underscore_notMem hv) (hws.underscore_notMem hw) hkey
  obtain ⟨a, -, hlt, ha⟩ := hvs.within v hv hnone
  obtain ⟨a', hle, -, ha'⟩ := hws.within w hw (hname ▸ hnone)
  obtain rfl : a = a' := Address.text_injective (ha.symm.trans (haddress.trans ha'))
  exact absurd hlt (Nat.not_lt_of_le hle)

/-- The books of the units go on where those before ended. -/
theorem Traced.append (hvs : Traced overrides lo mid vs) (hws : Traced overrides mid hi ws) :
    Traced overrides lo hi (vs ++ ws) := by
  have hlo := hvs.le
  have hhi := hws.le
  constructor
  case le => exact hlo.trans hhi
  case inBook =>
    intro v hv
    rcases List.mem_append.1 hv with hv | hv
    · exact hvs.inBook v hv
    · obtain ⟨book, hbook, htaken⟩ := hws.inBook v hv
      exact ⟨book, hbook, htaken.mono hlo⟩
  case within =>
    intro v hv hnone
    unfold Address.ofIndex
    rcases List.mem_append.1 hv with hv | hv
    · obtain ⟨a, hle, hlt, ha⟩ := hvs.within v hv hnone
      unfold Address.ofIndex at *
      exact ⟨a, by omega, by omega, ha⟩
    · obtain ⟨a, hle, hlt, ha⟩ := hws.within v hv hnone
      unfold Address.ofIndex at *
      exact ⟨a, by omega, by omega, ha⟩
  case libraries =>
    intro v hv address haddress
    rcases List.mem_append.1 hv with hv | hv
    · obtain ⟨w, hw, hwaddress⟩ := hvs.libraries v hv address haddress
      exact ⟨w, List.mem_append_left _ hw, hwaddress⟩
    · obtain ⟨w, hw, hwaddress⟩ := hws.libraries v hv address haddress
      exact ⟨w, List.mem_append_right _ hw, hwaddress⟩
  case origin =>
    intro v hv w hw hkey hnone
    rcases List.mem_append.1 hv with hv | hv
    · rcases List.mem_append.1 hw with hw | hw
      · exact hvs.origin v hv w hw hkey hnone
      · exact absurd hkey (hvs.key_ne hws hv hw hnone)
    · rcases List.mem_append.1 hw with hw | hw
      · obtain ⟨hname, -⟩ :=
          BuildModel.key_injective (hws.underscore_notMem hv) (hvs.underscore_notMem hw) hkey
        exact absurd hkey.symm (hvs.key_ne hws hw hv (hname ▸ hnone))
      · exact hws.origin v hv w hw hkey hnone

section Found

/-- The contracts of a unit as it is added are those it was found with, but for their finders. -/
theorem exists_record_of_prepared {f : FoundUnit} {c : ContractRecord}
    (h : c ∈ (f.prepared prototypes).contracts) :
    ∃ d ∈ f.unit.contracts, c.name = d.name ∧ c.file = d.file ∧ c.address = d.address := by
  obtain ⟨d, hd, rfl⟩ := List.mem_map.1 h
  exact ⟨d, hd, rfl, rfl, rfl⟩

variable {f : FoundUnit} {front : List BuildUnit}

theorem inBook_of_mem_additions (h : UnitsOf overrides book source contracts base us) (hf : f.unit ∈ us)
    (hfront : (f.prepared prototypes).additions = .ok front) :
    ∀ v ∈ front, v.InBook overrides book := by
  obtain ⟨contract, -, address, haddress, hunit⟩ := exists_of_mem_forall₂ h.units.flip hf
  have hrecord : ∀ c ∈ (f.prepared prototypes).contracts,
      book.find overrides c.file c.name = .ok c.address := by
    intro c hc
    obtain ⟨d, hd, hname, hfile, haddress⟩ := exists_record_of_prepared hc
    rw [hname, hfile, haddress]
    rw [hunit] at hd
    exact h.records d hd
  obtain ⟨libraries, v, hlibraries, hv, rfl⟩ := additions_eq_ok_iff.1 hfront
  intro w hw
  rcases List.mem_append.1 hw with hw | hw
  · obtain ⟨c, hc, -, rfl⟩ := (mem_libraryUnits_iff hlibraries).1 hw
    exact ⟨hrecord c hc, .nil, c, rfl, rfl, hrecord c hc⟩
  · obtain rfl := List.mem_singleton.1 hw
    obtain ⟨c, hc, rfl⟩ := primary_eq_ok_iff.1 hv
    have hmem := List.mem_filter.1 (hc ▸ List.mem_singleton_self c)
    constructor
    · change book.find overrides f.unit.originFile f.unit.primaryContract = .ok f.unit.address
      rw [hunit]
      change book.find overrides base.originFile contract = .ok address
      rw [h.origin, haddress]
    · change f.unit.libraryAddresses.Nodup
      rw [hunit]
      exact h.libraries
    · exact ⟨_, rfl, eq_of_beq hmem.2, hrecord c hmem.1⟩

/-- The libraries of a unit are added together with it. -/
theorem exists_library_of_mem_additions (hfront : (f.prepared prototypes).additions = .ok front)
    {v : BuildUnit} (hv : v ∈ front) {address : String} (haddress : address ∈ v.libraryAddresses) :
    ∃ w ∈ front, w.address = address := by
  obtain ⟨libraries, u, hlibraries, hu, rfl⟩ := additions_eq_ok_iff.1 hfront
  rcases List.mem_append.1 hv with hv | hv
  · obtain ⟨c, -, -, rfl⟩ := (mem_libraryUnits_iff hlibraries).1 hv
    cases haddress
  · obtain rfl := List.mem_singleton.1 hv
    obtain ⟨d, -, rfl⟩ := primary_eq_ok_iff.1 hu
    obtain ⟨c, hc, rfl⟩ := exists_library_of_libraryUnits hlibraries haddress
    exact ⟨_, List.mem_append_left _ ((mem_libraryUnits_iff hlibraries).2 ⟨c, hc, haddress, rfl⟩),
      rfl⟩

/-- Units of one file are added under the addresses of its book. -/
theorem traced_of_unitsOf (h : UnitsOf overrides book source contracts base us)
    (htaken : TakenFrom lo book) (hle : book.nextIndex ≤ hi)
    (hvs : additionsOf prototypes (foundWith finders us) = .ok vs) : Traced overrides lo hi vs := by
  have hinBook : ∀ v ∈ vs, v.InBook overrides book := by
    intro v hv
    obtain ⟨f, hf, front, hfront, hv⟩ := (mem_appendAll_iff hvs).1 hv
    obtain ⟨u, hu, rfl⟩ := List.mem_map.1 hf
    exact inBook_of_mem_additions h hu hfront v hv
  constructor
  · exact htaken.le.trans hle
  · exact fun v hv => ⟨book, hinBook v hv, htaken⟩
  · intro v hv hnone
    obtain ⟨a, hlo, hhi, ha⟩ := htaken.exists_within hnone (hinBook v hv).address
    unfold Address.ofIndex at *
    exact ⟨a, hlo, by omega, ha⟩
  · intro v hv address haddress
    obtain ⟨f, hf, front, hfront, hv⟩ := (mem_appendAll_iff hvs).1 hv
    obtain ⟨w, hw, hwaddress⟩ := exists_library_of_mem_additions hfront hv haddress
    exact ⟨w, (mem_appendAll_iff hvs).2 ⟨f, hf, front, hfront, hw⟩, hwaddress⟩
  · intro v hv w hw hkey hnone
    obtain ⟨hname, haddress⟩ := BuildModel.key_injective (hinBook v hv).underscore_notMem
      (hinBook w hw).underscore_notMem hkey
    refine htaken.file_eq hnone (hinBook v hv).address ?_
    rw [hname, haddress]
    exact (hinBook w hw).address

/-- Each contract of the file is added with the file as its origin. -/
theorem exists_primary_of_unitsOf (h : UnitsOf overrides book source contracts base us)
    (hvs : additionsOf prototypes (foundWith finders us) = .ok vs) {contract : String}
    (hcontract : contract ∈ contracts) :
    ∃ v ∈ vs, v.primaryContract = contract ∧ v.originFile = source := by
  obtain ⟨u, hu, address, -, hunit⟩ := exists_of_mem_forall₂ h.units hcontract
  have hf : (⟨finders, u⟩ : FoundUnit) ∈ foundWith finders us := List.mem_map_of_mem hu
  obtain ⟨front, hfront⟩ := exists_of_appendAll hvs hf
  obtain ⟨libraries, v, -, hv, rfl⟩ := additions_eq_ok_iff.1 hfront
  refine ⟨v, (mem_appendAll_iff hvs).2 ⟨_, hf, _, hfront, by simp⟩, ?_⟩
  obtain ⟨c, -, rfl⟩ := primary_eq_ok_iff.1 hv
  change u.primaryContract = contract ∧ u.originFile = source
  rw [hunit]
  exact ⟨rfl, h.origin⟩

end Found

section Files

/-- The units of a file as they are added. -/
def foundUnits (setting : BuildSetting) (file : String) (index : Nat) : Build (List FoundUnit) := do
  let units ← Collect.units setting file file index false
  ofExcept (checkMethod setting.config file units)
  match Language.ofPath file with
  | .solidity => Finders.instrumented setting file index units
  | .vyper => return Finders.withoutFinders units

theorem buildFile_eq (setting : BuildSetting) (prototypes : SortedMap String (List String))
    (file : String) (index : Nat) :
    buildFile setting prototypes file index =
      foundUnits setting file index >>= addFound prototypes := by
  unfold buildFile foundUnits addFound
  simp only [bind_assoc]
  refine bind_congr fun units => bind_congr fun _ => ?_
  cases Language.ofPath file with
  | solidity => rfl
  | vyper => rfl

theorem keeps_foundUnits : Keeps (fun s => (s.model, s.files.current))
    (foundUnits setting file index) := by
  have hignores : IgnoresFiles fun s : BuildState => (s.model, s.files.current) :=
    ⟨fun s _ h => congrArg (Prod.mk s.model) h.current, fun _ _ => rfl, fun _ _ => rfl,
      fun _ _ => rfl⟩
  refine (keeps_units hignores ?_ ?_ ?_ file file index false).bind fun units => ?_
  all_goals try exact fun _ _ => rfl
  refine (keeps_ofExcept _).bind fun _ => ?_
  split
  · apply Finders.keeps_instrumented hignores <;> exact fun _ _ => rfl
  · exact keeps_pure _

/-- The file, or the instrumented copy of it. -/
def IsFileOrCopy (current file source : String) : Prop :=
  source = file ∨ source = Copies.pathOf (Path.normalize current file)

/-- The units that are added for a file are those of the file or of its copy. -/
theorem foundUnits_eq_ok {found : List FoundUnit}
    (h : (foundUnits setting file index).run.run s = (.ok found, s')) :
    ∃ source finders base us book, IsFileOrCopy s.files.current file source ∧
      found = foundWith finders us ∧
      UnitsOf setting.config.address book source (setting.config.contractsOf file) base us ∧
      TakenFrom s.book.nextIndex book ∧ book.nextIndex ≤ s'.book.nextIndex := by
  obtain ⟨us, t, hus, h⟩ := bind_eq_ok_iff.1 h
  obtain ⟨_, t', hcheck, h⟩ := bind_eq_ok_iff.1 h
  obtain ⟨-, rfl⟩ := ofExcept_eq_ok_iff.1 hcheck
  obtain ⟨contracts, base, hbook, hunits⟩ := units_eq_ok hus
  rw [if_pos rfl] at hbook
  have htaken : TakenFrom s.book.nextIndex t.book :=
    hbook ▸ (takenFrom_clear (Nat.le_refl _)).assignAddresses contracts
  split at h
  · rcases Finders.instrumented_cases h with
      ⟨rfl, rfl, rfl⟩ | ⟨-, -, rfl, hcore⟩ | ⟨finders, copy, u, vs, hinstrument, hvs, rfl⟩
    · exact ⟨file, ∅, base, [], _, .inl rfl, rfl, hunits, htaken, Nat.le_refl _⟩
    · have hsame : s'.book = t.book := congrArg (fun c => c.2.2.1) hcore
      exact ⟨file, ∅, base, us, _, .inl rfl, rfl, hunits, htaken, Nat.le_of_eq (hsame ▸ rfl)⟩
    · have hcurrent : t.files.current = s.files.current :=
        (keeps_units Finders.ignoresFiles_current (fun _ _ => rfl) (fun _ _ => rfl)
          (fun _ _ => rfl) file file index false).eq hus
      have hbookIgnores : IgnoresFiles BuildState.book :=
        ⟨fun _ _ _ => rfl, fun _ _ => rfl, fun _ _ => rfl, fun _ _ => rfl⟩
      have hu : u.book = t.book :=
        (Finders.keeps_instrument hbookIgnores (fun _ _ => rfl) file us).eq hinstrument
      obtain ⟨contracts', base', hbook', hunits'⟩ := units_eq_ok hvs
      refine ⟨copy, finders, base', vs, _, .inr ?_, rfl, hunits', ?_, Nat.le_refl _⟩
      · rw [Finders.copy_eq_of_instrument hinstrument, hcurrent]
      · rw [hbook', hu]
        split
        · exact (takenFrom_clear htaken.le).assignAddresses contracts'
        · exact htaken.assignAddresses contracts'
  · obtain ⟨rfl, rfl⟩ := pure_eq_ok_iff.1 h
    exact ⟨file, ∅, base, us, _, .inl rfl, rfl, hunits, htaken, Nat.le_refl _⟩

/-- What the files put into the model, in order, as far as all goes well. -/
def additionsFrom (setting : BuildSetting) (prototypes : SortedMap String (List String)) :
    List (String × Nat) → BuildState → List BuildUnit
  | [], _ => []
  | (file, index) :: rest, s =>
    match (foundUnits setting file index).run.run s with
    | (.error _, _) => []
    | (.ok found, t) =>
      match additionsOf prototypes found with
      | .error _ => []
      | .ok vs =>
        vs ++ additionsFrom setting prototypes rest
          { t with model := vs.foldl BuildModel.add t.model }

variable {files : List (String × Nat)}

/-- A run over files adds what it finds, each contract of each file among it. -/
structure AddsUp (setting : BuildSetting) (files : List (String × Nat)) (vs : List BuildUnit)
    (s s' : BuildState) : Prop where
  model : s'.model = vs.foldl BuildModel.add s.model
  current : s'.files.current = s.files.current
  traced : Traced setting.config.address s.book.nextIndex s'.book.nextIndex vs
  primaries : ∀ p ∈ files, ∀ contract ∈ setting.config.contractsOf p.1,
    ∃ v ∈ vs, v.primaryContract = contract ∧ IsFileOrCopy s.files.current p.1 v.originFile

theorem AddsUp.cons {t : BuildState} (hvs : AddsUp setting [(file, index)] vs s t)
    (hws : AddsUp setting files ws t s') :
    AddsUp setting ((file, index) :: files) (vs ++ ws) s s' := by
  constructor
  · rw [hws.model, hvs.model, List.foldl_append]
  · rw [hws.current, hvs.current]
  · exact hvs.traced.append hws.traced
  · intro p hp contract hcontract
    rcases List.mem_cons.1 hp with rfl | hp
    · obtain ⟨v, hv, hname, horigin⟩ := hvs.primaries _ (List.mem_singleton_self _) _ hcontract
      exact ⟨v, List.mem_append_left _ hv, hname, horigin⟩
    · obtain ⟨v, hv, hname, horigin⟩ := hws.primaries p hp contract hcontract
      exact ⟨v, List.mem_append_right _ hv, hname, hvs.current ▸ horigin⟩

/-- What one file adds. -/
theorem addsUp_buildFile
    (h : (buildFile setting prototypes file index).run.run s = (.ok (), s')) :
    ∃ found t vs, (foundUnits setting file index).run.run s = (.ok found, t) ∧
      additionsOf prototypes found = .ok vs ∧
      s' = { t with model := vs.foldl BuildModel.add t.model } ∧
      AddsUp setting [(file, index)] vs s s' := by
  rw [buildFile_eq] at h
  obtain ⟨found, t, hfound, h⟩ := bind_eq_ok_iff.1 h
  obtain ⟨vs, hvs, rfl⟩ := (adds_addFound _ _ _ _).1 h
  refine ⟨found, t, vs, hfound, hvs, rfl, ?_⟩
  have hkeeps := keeps_foundUnits.eq hfound
  obtain ⟨source, finders, base, us, book, hsource, rfl, hunits, htaken, hle⟩ :=
    foundUnits_eq_ok hfound
  constructor
  · exact congrArg (vs.foldl BuildModel.add) (congrArg Prod.fst hkeeps)
  · exact congrArg Prod.snd hkeeps
  · exact traced_of_unitsOf hunits htaken hle hvs
  · intro p hp contract hcontract
    obtain rfl := List.mem_singleton.1 hp
    obtain ⟨v, hv, hname, rfl⟩ := exists_primary_of_unitsOf hunits hvs hcontract
    exact ⟨v, hv, hname, hsource⟩

/-- What all files add. -/
theorem addsUp_files
    (h : (files.forM fun p => buildFile setting prototypes p.1 p.2).run.run s = (.ok (), s')) :
    AddsUp setting files (additionsFrom setting prototypes files s) s s' := by
  induction files generalizing s with
  | nil =>
    obtain ⟨-, rfl⟩ := pure_eq_ok_iff.1 h
    exact ⟨rfl, rfl, traced_nil (Nat.le_refl _), nofun⟩
  | cons p files ih =>
    obtain ⟨file, index⟩ := p
    obtain ⟨_, t, hfile, h⟩ := bind_eq_ok_iff.1 h
    obtain ⟨found, t', vs, hfound, hvs, rfl, hadds⟩ := addsUp_buildFile hfile
    rw [additionsFrom, hfound]
    dsimp only
    rw [hvs]
    exact hadds.cons (ih h)

end Files

end Build

end ContractModel

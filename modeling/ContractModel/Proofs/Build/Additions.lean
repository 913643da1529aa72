import ContractModel.Proofs.Build.Overloads
import ContractModel.Proofs.Build.Units
import ContractModel.Proofs.Link.Addresses

/-! # Units that are added one after the other

Adding a unit puts the units of its libraries and then its own into the model. Of the units with
one key the last one stays.
-/

namespace ContractModel

open Run

namespace SortedMap

variable {κ α : Type} [LT κ] [DecidableEq κ] [Key κ]

omit [DecidableEq κ] in
theorem nodup_entries (m : SortedMap κ α) : m.entries.Nodup :=
  (nodup_keys m).of_map Prod.fst

/-- Maps with the same lookups are equal. -/
theorem eq_of_get?_eq {m n : SortedMap κ α} (h : ∀ k, m.get? k = n.get? k) : m = n := by
  have hmem : ∀ e, e ∈ m.entries ↔ e ∈ n.entries := by
    intro e
    rw [← get?_eq_some_iff (k := e.1) (v := e.2), h, get?_eq_some_iff]
  have hperm : m.entries.Perm n.entries :=
    (List.perm_ext_iff_of_nodup (nodup_entries m) (nodup_entries n)).2 hmem
  refine SortedMap.ext (hperm.eq_of_pairwise ?_ (List.pairwise_map.1 m.sorted)
    (List.pairwise_map.1 n.sorted))
  intro e e' _ _ hlt hgt
  exact absurd (Key.lt_trans hlt hgt) (Key.lt_irrefl e.1)

end SortedMap

/-- What a unit is entered under. -/
def BuildUnit.key (u : BuildUnit) : String := BuildModel.key u.primaryContract u.address

namespace BuildModel

theorem key_injective {contract contract' address address' : String}
    (h : '_' ∉ address.toList) (h' : '_' ∉ address'.toList)
    (heq : key contract address = key contract' address') :
    contract = contract' ∧ address = address' := by
  have hlist : contract.toList ++ '_' :: address.toList =
      contract'.toList ++ '_' :: address'.toList := by
    simpa [key] using congrArg String.toList heq
  obtain ⟨hcontract, haddress⟩ := AddressBook.append_separator_injective h h' hlist
  exact ⟨String.toList_injective hcontract, String.toList_injective haddress⟩

theorem get?_foldl_add (us : List BuildUnit) (m : BuildModel) (k : String) :
    (us.foldl add m).get? k = (us.reverse.find? fun u => u.key = k).or (m.get? k) := by
  induction us generalizing m with
  | nil => rfl
  | cons u us ih =>
    rw [List.foldl_cons, ih, List.reverse_cons, List.find?_append, Option.or_assoc, add,
      SortedMap.get?_insert]
    congr 1
    by_cases hk : k = u.key
    · simp [hk, BuildUnit.key]
    · simp [Ne.symm hk, show k ≠ BuildModel.key u.primaryContract u.address from hk]

end BuildModel

namespace Run

variable {ε α β : Type} {g : β → Except ε (List α)} {bs : List β} {as : List α}

/-- The lists that come of the elements, one behind the other. -/
def appendAll (g : β → Except ε (List α)) : List β → Except ε (List α)
  | [] => .ok []
  | b :: bs => do return (← g b) ++ (← appendAll g bs)

theorem appendAll_cons_eq_ok_iff {b : β} : appendAll g (b :: bs) = .ok as ↔
    ∃ front back, g b = .ok front ∧ appendAll g bs = .ok back ∧ as = front ++ back := by
  constructor
  · intro h
    obtain ⟨front, hfront, h⟩ := except_bind_eq_ok_iff.1 h
    obtain ⟨back, hback, h⟩ := except_bind_eq_ok_iff.1 h
    cases h
    exact ⟨front, back, hfront, hback, rfl⟩
  · rintro ⟨front, back, hfront, hback, rfl⟩
    simp only [appendAll, hfront, hback]
    rfl

theorem exists_of_appendAll (h : appendAll g bs = .ok as) {b : β} (hb : b ∈ bs) :
    ∃ front, g b = .ok front := by
  induction bs generalizing as with
  | nil => cases hb
  | cons c bs ih =>
    obtain ⟨front, back, hfront, hback, rfl⟩ := appendAll_cons_eq_ok_iff.1 h
    rcases List.mem_cons.1 hb with rfl | hb
    · exact ⟨front, hfront⟩
    · exact ih hback hb

theorem mem_appendAll_iff (h : appendAll g bs = .ok as) {a : α} :
    a ∈ as ↔ ∃ b ∈ bs, ∃ front, g b = .ok front ∧ a ∈ front := by
  induction bs generalizing as with
  | nil =>
    cases h
    simp
  | cons b bs ih =>
    obtain ⟨front, back, hfront, hback, rfl⟩ := appendAll_cons_eq_ok_iff.1 h
    simp [ih hback, hfront]

end Run

namespace BuildUnit

/-- The units of the libraries linked into a unit. -/
def libraryUnits (u : BuildUnit) : Except Error (List BuildUnit) :=
  appendAll (fun address => (fun c => [u.splitLibrary c]) <$> u.library address) u.libraryAddresses

theorem library_eq_ok_iff {u : BuildUnit} {address : String} {c : ContractRecord} :
    u.library address = .ok c ↔ (u.contracts.filter fun c => c.address == address) = [c] := by
  unfold library
  split
  · next d hd => rw [hd, Except.ok.injEq, List.cons.injEq, and_iff_left rfl]
  · next cs hne =>
    constructor
    · rintro ⟨⟩
    · exact fun hc => absurd hc (hne c)

theorem mem_and_address_of_library {u : BuildUnit} {address : String} {c : ContractRecord}
    (h : u.library address = .ok c) : c ∈ u.contracts ∧ c.address = address := by
  have hmem := List.mem_filter.1 (library_eq_ok_iff.1 h ▸ List.mem_singleton_self c)
  exact ⟨hmem.1, eq_of_beq hmem.2⟩

/-- There is one unit for each contract at an address of a library. -/
theorem mem_libraryUnits_iff {u v : BuildUnit} {vs : List BuildUnit}
    (h : u.libraryUnits = .ok vs) : v ∈ vs ↔
      ∃ c ∈ u.contracts, c.address ∈ u.libraryAddresses ∧ v = u.splitLibrary c := by
  rw [mem_appendAll_iff h]
  constructor
  · rintro ⟨address, haddress, front, hfront, hv⟩
    obtain ⟨c, hc, rfl⟩ := map_eq_ok_iff.1 hfront
    obtain ⟨hmem, rfl⟩ := mem_and_address_of_library hc
    exact ⟨c, hmem, haddress, List.mem_singleton.1 hv⟩
  · rintro ⟨c, hmem, haddress, rfl⟩
    obtain ⟨front, hfront⟩ := exists_of_appendAll h haddress
    obtain ⟨d, hd, rfl⟩ := map_eq_ok_iff.1 hfront
    have hc : c ∈ [d] := by
      rw [← library_eq_ok_iff.1 hd]
      exact List.mem_filter.2 ⟨hmem, beq_self_eq_true _⟩
    rw [List.mem_singleton.1 hc] at *
    exact ⟨_, haddress, _, hfront, List.mem_singleton_self _⟩

theorem exists_library_of_libraryUnits {u : BuildUnit} {vs : List BuildUnit} {address : String}
    (h : u.libraryUnits = .ok vs) (haddress : address ∈ u.libraryAddresses) :
    ∃ c ∈ u.contracts, c.address = address := by
  obtain ⟨front, hfront⟩ := exists_of_appendAll h haddress
  obtain ⟨c, hc, -⟩ := map_eq_ok_iff.1 hfront
  exact ⟨c, mem_and_address_of_library hc⟩

/-- What adding a unit puts into the model, in order. -/
def additions (u : BuildUnit) : Except Error (List BuildUnit) := do
  return (← u.libraryUnits) ++ [← u.primary]

theorem additions_eq_ok_iff {u : BuildUnit} {vs : List BuildUnit} : u.additions = .ok vs ↔
    ∃ libraries v, u.libraryUnits = .ok libraries ∧ u.primary = .ok v ∧
      vs = libraries ++ [v] := by
  constructor
  · intro h
    obtain ⟨libraries, hlibraries, h⟩ := except_bind_eq_ok_iff.1 h
    obtain ⟨v, hv, h⟩ := except_bind_eq_ok_iff.1 h
    cases h
    exact ⟨libraries, v, hlibraries, hv, rfl⟩
  · rintro ⟨libraries, v, hlibraries, hv, rfl⟩
    simp only [additions, hlibraries, hv]
    rfl

end BuildUnit

/-- The unit as it is added. -/
def FoundUnit.prepared (f : FoundUnit) (prototypes : SortedMap String (List String)) : BuildUnit :=
  { f.unit.withFinders f.finders with
    prototypes := prototypes.getD f.unit.primaryContract [] }

namespace Build

/-- Adds units in order. -/
def addFound (prototypes : SortedMap String (List String)) (fs : List FoundUnit) : Build Unit :=
  fs.forM fun f => addUnit (prototypes.getD f.unit.primaryContract []) f

/-- What adding units in order puts into the model. -/
def additionsOf (prototypes : SortedMap String (List String)) (fs : List FoundUnit) :
    Except Error (List BuildUnit) :=
  appendAll (fun f => (f.prepared prototypes).additions) fs

/-- If the action goes well, it adds these units to the model and changes nothing else. -/
def Adds (x : Build Unit) (r : Except Error (List BuildUnit)) : Prop :=
  ∀ s s', x.run.run s = (.ok (), s') ↔
    ∃ vs, r = .ok vs ∧ s' = { s with model := vs.foldl BuildModel.add s.model }

theorem adds_one {α : Type} (r : Except Error α) (unitOf : α → BuildUnit) :
    Adds (do let a ← ofExcept r; onModel fun m => m.add (unitOf a))
      ((fun a => [unitOf a]) <$> r) := by
  intro s s'
  cases r with
  | error e =>
    constructor
    · rintro ⟨⟩
    · rintro ⟨_, ⟨⟩, _⟩
  | ok a =>
    constructor
    · intro h
      cases h
      exact ⟨[unitOf a], rfl, rfl⟩
    · rintro ⟨_, ⟨⟩, rfl⟩
      rfl

variable {x y : Build Unit} {r q : Except Error (List BuildUnit)}

theorem Adds.append (hx : Adds x r) (hy : Adds y q) :
    Adds (x >>= fun _ => y) (do return (← r) ++ (← q)) := by
  intro s s'
  rw [bind_eq_ok_iff]
  constructor
  · rintro ⟨_, t, hrun, h⟩
    obtain ⟨vs, hvs, rfl⟩ := (hx _ _).1 hrun
    obtain ⟨ws, hws, rfl⟩ := (hy _ _).1 h
    refine ⟨vs ++ ws, ?_, by rw [List.foldl_append]⟩
    rw [hvs, hws]
    rfl
  · rintro ⟨_, h, rfl⟩
    obtain ⟨vs, hvs, h⟩ := except_bind_eq_ok_iff.1 h
    obtain ⟨ws, hws, h⟩ := except_bind_eq_ok_iff.1 h
    cases h
    refine ⟨(), _, (hx _ _).2 ⟨vs, hvs, rfl⟩, (hy _ _).2 ⟨ws, hws, ?_⟩⟩
    rw [List.foldl_append]

theorem Adds.forM {β : Type} {step : β → Build Unit} {g : β → Except Error (List BuildUnit)}
    (h : ∀ b, Adds (step b) (g b)) (bs : List β) : Adds (bs.forM step) (appendAll g bs) := by
  induction bs with
  | nil =>
    intro s s'
    constructor
    · intro h
      cases h
      exact ⟨[], rfl, rfl⟩
    · rintro ⟨_, ⟨⟩, rfl⟩
      rfl
  | cons b bs ih => exact (h b).append ih

theorem adds_addLibraries (u : BuildUnit) : Adds (addLibraries u) u.libraryUnits :=
  Adds.forM (fun address => adds_one (u.library address) u.splitLibrary) u.libraryAddresses

theorem adds_addUnit (prototypes : SortedMap String (List String)) (f : FoundUnit) :
    Adds (addUnit (prototypes.getD f.unit.primaryContract []) f)
      (f.prepared prototypes).additions := by
  have hadditions (u : BuildUnit) :
      (do return (← u.libraryUnits) ++ (← (fun v => [v]) <$> u.primary)) = u.additions := by
    unfold BuildUnit.additions
    cases u.libraryUnits <;> cases u.primary <;> rfl
  rw [← hadditions]
  exact (adds_addLibraries _).append (adds_one (f.prepared prototypes).primary fun u => u)

theorem adds_addFound (prototypes : SortedMap String (List String)) (fs : List FoundUnit) :
    Adds (addFound prototypes fs) (additionsOf prototypes fs) :=
  Adds.forM (adds_addUnit prototypes) fs

end Build

end ContractModel

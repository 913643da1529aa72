import ContractModel.Build.Collect
import ContractModel.Proofs.Link.Addresses
import ContractModel.Proofs.Link.Substitution
import ContractModel.Proofs.Syntax.Inheritance
import Mathlib

/-! # What the dependencies of a file cover

The files that a compiled file depends on are followed until none waits, so they are closed under
the link references of deployed bytecode. Two things are not covered: a file is listed in the
spelling in which it is followed, while link references look it up as they spell it, and the link
references of constructor bytecode are not followed.
-/

namespace ContractModel

/-- A link reference of the bytecode names the library. -/
def Bytecode.Refers (code : Bytecode) (place library : String) : Prop :=
  ∃ libraries, (code.linkReferences.getD ∅).get? place = some libraries ∧ library ∈ libraries.keys

namespace CompiledContract

def deployed (c : CompiledContract) : Bytecode := (c.machine.getD .empty).deployedCode.getD .empty

def creation (c : CompiledContract) : Bytecode :=
  (c.machine.getD .empty).constructorCode.getD .empty

end CompiledContract

namespace Dependencies

variable {current root file name : String} {lang : Language} {output : CompilerOutput}
  {s s' : SyntaxIndex} {ts : Trees} {fs : List String}

section Files

theorem total_eq_sum {α : Type} (m : SortedMap String α) (count : String → α → Nat) :
    m.total count = (m.entries.map fun e => count e.1 e.2).sum := by
  rw [List.sum_eq_foldl, List.foldl_map, SortedMap.total]

theorem length_nodesOf_le (ts : Trees) (root compiled : String) :
    (ts.nodesOf root compiled).length ≤ ts.nodeCount root := by
  rw [Trees.nodesOf, Trees.nodeCount, total_eq_sum]
  cases hunit : ts.unit? root compiled with
  | none => exact Nat.zero_le _
  | some t =>
    have hmem : (compiled, t) ∈ (ts.unitsOf root).entries := SortedMap.get?_eq_some_iff.1 hunit
    exact List.le_sum_of_mem (List.mem_map_of_mem (f := fun e => e.2.nodes.length) hmem)

/-- A contract calls no more libraries than there are nodes. -/
theorem length_called_le (ts : Trees) (root compiled contract : String)
    (f : String → Option String) :
    ((SortedMap.distinct (ts.calledContracts root compiled contract)).filterMap f).length ≤
      ts.nodeCount root :=
  calc
    _ ≤ (SortedMap.distinct (ts.calledContracts root compiled contract)).length :=
      List.length_filterMap_le _ _
    _ ≤ (ts.calledContracts root compiled contract).length := SortedMap.length_distinct_le _
    _ ≤ (ts.callReferences root compiled contract).length := List.length_filterMap_le _ _
    _ ≤ (ts.nodesOf root compiled).length := List.length_filterMap_le _ _
    _ ≤ ts.nodeCount root := length_nodesOf_le ts root compiled

/-- The linked files of a contract, none if it is not compiled. -/
def linkedFilesOf (output : CompilerOutput) (file name : String) : List String :=
  ((output.contract? file name).map linkedFiles).getD []

/-- How many files a contract may add to those that wait. -/
def contractBound (nodes : Nat) (output : CompilerOutput) (file name : String) : Nat :=
  2 * nodes + 1 + (linkedFilesOf output file name).length

theorem ofContract_eq_ok
    (h : (ofContract current root output file name).run.run s = (.ok fs, s')) :
    s'.trees = s.trees ∧ linkedFilesOf output file name ⊆ fs ∧
      fs.length ≤ contractBound (s.trees.nodeCount root) output file name := by
  obtain ⟨bases, t, hbases, h⟩ := Run.bind_eq_ok_iff.1 h
  obtain ⟨_, _, htrees, h⟩ := Run.bind_eq_ok_iff.1 h
  cases htrees
  obtain ⟨rfl, rfl⟩ := Run.pure_eq_ok_iff.1 h
  have hkept := Inheritance.trees_baseContracts hbases
  obtain ⟨n, hbases⟩ := Inheritance.exists_basesOf_of_baseContracts hbases
  have hlength := Inheritance.length_basesOf_le hbases
  have hcalled := length_called_le t.trees root file name (libraryFile current output)
  rw [hkept] at hlength hcalled ⊢
  refine ⟨rfl, ?_, ?_⟩
  · exact List.subset_append_of_subset_left _ (List.subset_append_right _ _)
  · rw [List.length_append, List.length_append, (Sorting.sort_perm _).length_eq, List.length_map,
      contractBound, linkedFilesOf]
    omega

theorem length_flatten_le {α β : Type} {f : α → Nat} {as : List α} {bss : List (List β)}
    (h : List.Forall₂ (fun a bs => bs.length ≤ f a) as bss) :
    bss.flatten.length ≤ (as.map f).sum := by
  induction h with
  | nil => exact Nat.le_refl _
  | cons h _ ih =>
    rw [List.flatten_cons, List.length_append, List.map_cons, List.sum_cons]
    omega

/-- How many files a file may add to those that wait. -/
def fileBound (nodes : Nat) (output : CompilerOutput) (file : String) : Nat :=
  ((contractNames output file).map (contractBound nodes output file)).sum

theorem ofFile_eq_ok (h : (ofFile current root lang output file).run.run s = (.ok fs, s')) :
    s'.trees = s.trees ∧
      (lang = .solidity → ∀ name ∈ contractNames output file,
        linkedFilesOf output file name ⊆ fs) ∧
      fs.length ≤ fileBound (s.trees.nodeCount root) output file := by
  cases lang with
  | vyper =>
    obtain ⟨rfl, rfl⟩ := Run.pure_eq_ok_iff.1 h
    exact ⟨rfl, nofun, Nat.zero_le _⟩
  | solidity =>
    obtain ⟨fss, t, hfss, h⟩ := Run.bind_eq_ok_iff.1 h
    obtain ⟨rfl, rfl⟩ := Run.pure_eq_ok_iff.1 h
    obtain ⟨hkept, hall⟩ := Run.mapM_invariant (fun t => t.trees = s.trees)
      (R := fun name fs => linkedFilesOf output file name ⊆ fs ∧
        fs.length ≤ contractBound (s.trees.nodeCount root) output file name)
      (fun name fs t t' ht h => by
        obtain ⟨ht', hlinked, hlength⟩ := ofContract_eq_ok h
        rw [ht] at ht' hlength
        exact ⟨ht', hlinked, hlength⟩) rfl hfss
    refine ⟨hkept, fun _ name hname => ?_, length_flatten_le (hall.imp fun _ _ h => h.2)⟩
    obtain ⟨fs, hfs, hlinked, -⟩ := Run.exists_of_mem_forall₂ hall hname
    exact fun f hf => List.mem_flatten_of_mem hfs (hlinked hf)

theorem contractsOf?_eq (output : CompilerOutput) (file : String) :
    output.contractsOf? file = output.allContracts.get? file := by
  rw [CompilerOutput.contractsOf?, CompilerOutput.allContracts]
  cases output.contracts <;> rfl

theorem fileBound_of_mem (nodes : Nat) {contracts : SortedMap String CompiledContract}
    (h : (file, contracts) ∈ output.allContracts.entries) : fileBound nodes output file =
      contracts.total fun _ c => 2 * nodes + 1 + (linkedFiles c).length := by
  have hcontracts : output.contractsOf? file = some contracts := by
    rw [contractsOf?_eq, SortedMap.get?_eq_some_iff]
    exact h
  rw [fileBound, contractNames, hcontracts, Option.map_some, Option.getD_some, SortedMap.keys,
    total_eq_sum, List.map_map]
  congr 1
  refine List.map_congr_left fun e he => ?_
  have hcontract : output.contract? file e.1 = some e.2 := by
    rw [CompilerOutput.contract?, hcontracts]
    exact SortedMap.get?_eq_some_iff.2 he
  rw [Function.comp_apply, contractBound, linkedFilesOf, hcontract]
  rfl

/-- The files together add no more than the bound of the search. -/
theorem bound_eq (nodes : Nat) (output : CompilerOutput) :
    bound nodes output = (output.allContracts.keys.map (fileBound nodes output)).sum + 1 := by
  rw [bound, total_eq_sum, SortedMap.keys, List.map_map]
  congr 2
  exact List.map_congr_left fun e he => (fileBound_of_mem nodes he).symm

theorem fileBound_of_notMem (nodes : Nat) (h : file ∉ output.allContracts.keys) :
    fileBound nodes output file = 0 := by
  have hnone : output.contractsOf? file = none := by
    rw [contractsOf?_eq, Option.eq_none_iff_forall_ne_some]
    exact fun contracts hfile => h (SortedMap.mem_keys_iff.2 ⟨contracts, hfile⟩)
  rw [fileBound, contractNames, hnone]
  rfl

end Files

section Follow

variable {names : String → List String} {next : String → Query (List String)}
  {found found' : SortedMap String (List String)} {made : List (String × List String)}
  {waiting seen files more : List String} {weight : String → Nat} {steps : Nat}

/-- Asking for the dependencies of the file may have this answer, whatever the caches hold. -/
def Answers (ts : Trees) (next : String → Query (List String)) (file : String)
    (more : List String) : Prop :=
  ∃ s s', s.trees = ts ∧ (next file).run.run s = (.ok more, s')

/-- Of the files that were followed, each with its dependencies, the first depends on the second. -/
def DependsOn (made : List (String × List String)) (file other : String) : Prop :=
  ∃ more, (file, more) ∈ made ∧ other ∈ more

def Reaches (made : List (String × List String)) : String → String → Prop :=
  Relation.ReflTransGen (DependsOn made)

theorem Reaches.cons {p : String × List String} {other : String}
    (h : Reaches made file other) : Reaches (p :: made) file other :=
  h.lift id fun _ _ ⟨more, hmem, hother⟩ => ⟨more, List.mem_cons_of_mem p hmem, hother⟩

/-- A search from the root: the files that were followed, the last one first and each with its
dependencies, and the files that wait. -/
structure Progress (ts : Trees) (current root : String) (names : String → List String)
    (next : String → Query (List String)) (made : List (String × List String))
    (found : SortedMap String (List String)) (waiting : List String) : Prop where
  answers : ∀ p ∈ made, Answers ts next p.1 p.2
  found : ∀ f, found.get? f = if f ∈ made.map Prod.fst then some (names f) else none
  starts : root ∈ made.map Prod.fst ∨ made = [] ∧ waiting = [root]
  closed : ∀ p ∈ made, ∀ g ∈ p.2,
    g ∈ waiting ∨ Path.normalize current g ∈ made.map fun q => Path.normalize current q.1
  reached : ∀ g ∈ made.map Prod.fst ++ waiting, Reaches made root g
  distinct : (made.map fun p => Path.normalize current p.1).Nodup

theorem Progress.start : Progress ts current root names next [] ∅ [root] where
  answers := nofun
  found _ := rfl
  starts := .inr ⟨rfl, rfl⟩
  closed := nofun
  reached g hg := by
    rw [List.map_nil, List.nil_append, List.mem_singleton] at hg
    exact hg ▸ .refl
  distinct := .nil

theorem Progress.skip (h : Progress ts current root names next made found (file :: waiting))
    (hseen : Path.normalize current file ∈ made.map fun p => Path.normalize current p.1) :
    Progress ts current root names next made found waiting where
  answers := h.answers
  found := h.found
  starts := by
    rcases h.starts with hroot | ⟨rfl, -⟩
    · exact .inl hroot
    · cases hseen
  closed p hp g hg := by
    rcases h.closed p hp g hg with hg | hg
    · rcases List.mem_cons.1 hg with rfl | hg
      · exact .inr hseen
      · exact .inl hg
    · exact .inr hg
  reached g hg := h.reached g <| by
    rcases List.mem_append.1 hg with hg | hg
    · exact List.mem_append_left _ hg
    · exact List.mem_append_right _ (List.mem_cons_of_mem _ hg)
  distinct := h.distinct

theorem Progress.step (h : Progress ts current root names next made found (file :: waiting))
    (hnew : Path.normalize current file ∉ made.map fun p => Path.normalize current p.1)
    (hmore : Answers ts next file more) :
    Progress ts current root names next ((file, more) :: made) (found.insert file (names file))
      (more.reverse ++ waiting) where
  answers := List.forall_mem_cons.2 ⟨hmore, h.answers⟩
  found f := by
    rw [SortedMap.get?_insert, h.found]
    by_cases hf : f = file
    · simp [hf]
    · simp only [List.map_cons, List.mem_cons, hf, false_or, if_false]
  starts := by
    rcases h.starts with hroot | ⟨-, hwaiting⟩
    · exact .inl (List.mem_cons_of_mem _ hroot)
    · cases hwaiting
      exact .inl List.mem_cons_self
  closed := by
    refine List.forall_mem_cons.2 ⟨fun g hg => ?_, fun p hp g hg => ?_⟩
    · exact .inl (List.mem_append_left _ (List.mem_reverse.2 hg))
    · rcases h.closed p hp g hg with hg | hg
      · rcases List.mem_cons.1 hg with rfl | hg
        · exact .inr List.mem_cons_self
        · exact .inl (List.mem_append_right _ hg)
      · exact .inr (List.mem_cons_of_mem _ hg)
  reached g hg := by
    have hfile : Reaches ((file, more) :: made) root file :=
      (h.reached file (List.mem_append_right _ List.mem_cons_self)).cons
    rw [List.map_cons, List.cons_append, List.mem_cons, List.mem_append, List.mem_append,
      List.mem_reverse] at hg
    rcases hg with rfl | hg | hg | hg
    · exact hfile
    · exact (h.reached g (List.mem_append_left _ hg)).cons
    · exact hfile.tail ⟨more, List.mem_cons_self, hg⟩
    · exact (h.reached g (List.mem_append_right _ (List.mem_cons_of_mem _ hg))).cons
  distinct := List.nodup_cons.2 ⟨hnew, h.distinct⟩

/-- How many files those that were not followed may still add. -/
def unspent (current : String) (weight : String → Nat) (files seen : List String) : Nat :=
  (files.map fun f => if Path.normalize current f ∈ seen then 0 else weight f).sum

theorem unspent_start_le (nodes : Nat) (output : CompilerOutput) :
    [root].length + unspent current (fileBound nodes output) output.allContracts.keys [] ≤
      bound nodes output := by
  rw [bound_eq, List.length_singleton, Nat.add_comm]
  exact Nat.le_refl _

theorem unspent_cons_le (current : String) (weight : String → Nat) (files seen : List String)
    (place : String) :
    unspent current weight files (place :: seen) ≤ unspent current weight files seen := by
  refine List.sum_le_sum fun f _ => ?_
  by_cases hf : Path.normalize current f ∈ seen
  · rw [if_pos (List.mem_cons_of_mem place hf)]
    exact Nat.zero_le _
  · rw [if_neg hf]
    split
    · exact Nat.zero_le _
    · exact Nat.le_refl _

theorem unspent_cons_add_le (hfiles : file ∉ files → weight file = 0)
    (hnew : Path.normalize current file ∉ seen) :
    unspent current weight files (Path.normalize current file :: seen) + weight file ≤
      unspent current weight files seen := by
  by_cases hmem : file ∈ files
  · obtain ⟨front, rest, rfl⟩ := List.append_of_mem hmem
    have hfront := unspent_cons_le current weight front seen (Path.normalize current file)
    have hrest := unspent_cons_le current weight rest seen (Path.normalize current file)
    simp only [unspent, List.map_append, List.map_cons, List.sum_append, List.sum_cons,
      List.mem_cons_self, if_true, hnew, if_false] at hfront hrest ⊢
    omega
  · rw [hfiles hmem]
    exact unspent_cons_le current weight files seen _

/-- The steps suffice for all files that come to wait. -/
theorem exists_progress_of_follow
    (hnext : ∀ file s more s', s.trees = ts → (next file).run.run s = (.ok more, s') →
      s'.trees = ts ∧ more.length ≤ weight file)
    (hfiles : ∀ file ∉ files, weight file = 0)
    (hs : s.trees = ts) (hprogress : Progress ts current root names next made found waiting)
    (hsteps : waiting.length + unspent current weight files
      (made.map fun p => Path.normalize current p.1) ≤ steps)
    (h : (follow current names next steps (made.map fun p => Path.normalize current p.1) found
      waiting).run.run s = (.ok found', s')) :
    s'.trees = ts ∧ ∃ made, Progress ts current root names next made found' [] := by
  -- what waits and what may still be added fits in the steps that are left: a file that is skipped
  -- no longer waits, and one that is followed adds no more than it takes off the rest
  induction steps generalizing s made found waiting with
  | zero =>
    have hwaiting : waiting = [] := List.length_eq_zero_iff.1 (by omega)
    obtain ⟨rfl, rfl⟩ := Run.pure_eq_ok_iff.1 h
    exact ⟨hs, made, hwaiting ▸ hprogress⟩
  | succ steps ih =>
    cases waiting with
    | nil =>
      obtain ⟨rfl, rfl⟩ := Run.pure_eq_ok_iff.1 h
      exact ⟨hs, made, hprogress⟩
    | cons file waiting =>
      rw [List.length_cons] at hsteps
      simp only [follow, List.contains_iff_mem] at h
      split at h
      · next hseen => exact ih hs (hprogress.skip hseen) (by omega) h
      · next hnew =>
        obtain ⟨more, t, hmore, h⟩ := Run.bind_eq_ok_iff.1 h
        obtain ⟨ht, hlength⟩ := hnext file s more t hs hmore
        have hspent := unspent_cons_add_le (hfiles file) hnew
        refine ih ht (hprogress.step hnew ⟨s, t, hs, hmore⟩) ?_ h
        have hlength : (more.reverse ++ waiting).length = more.length + waiting.length := by
          rw [List.length_append, List.length_reverse]
        simp only [List.map_cons, hlength]
        omega

end Follow

section References

variable {found : SortedMap String (List String)} {made : List (String × List String)}
  {place library : String} {c : CompiledContract}

/-- The contract is one of those found in the file. -/
def Lists (found : SortedMap String (List String)) (file name : String) : Prop :=
  ∃ names, found.get? file = some names ∧ name ∈ names

/-- The libraries that the bytecode of a listed contract refers to, and that are compiled, are
listed. -/
def CoversReferences (output : CompilerOutput) (found : SortedMap String (List String)) : Prop :=
  ∀ file name c, Lists found file name → output.contract? file name = some c →
    ∀ place library, c.deployed.Refers place library ∨ c.creation.Refers place library →
      (output.contract? place library).isSome → Lists found place library

theorem mem_contractNames_iff :
    name ∈ contractNames output file ↔ (output.contract? file name).isSome := by
  rw [contractNames, CompilerOutput.contract?]
  cases output.contractsOf? file with
  | none => simp
  | some contracts => simp [SortedMap.mem_keys_iff, Option.isSome_iff_exists]

theorem mem_linkedFilesOf (hc : output.contract? file name = some c)
    (h : c.deployed.Refers place library) : place ∈ linkedFilesOf output file name := by
  obtain ⟨libraries, hplace, -⟩ := h
  have hreferences : ((c.machine.bind Machine.deployedCode).bind Bytecode.linkReferences).getD ∅ =
      c.deployed.linkReferences.getD ∅ := by
    unfold CompiledContract.deployed
    cases c.machine with
    | none => rfl
    | some machine =>
      rw [Option.bind_some, Option.getD_some]
      cases machine.deployedCode <;> rfl
  rw [← hreferences] at hplace
  rw [linkedFilesOf, hc, Option.map_some, Option.getD_some, linkedFiles]
  cases hrefs : (c.machine.bind Machine.deployedCode).bind Bytecode.linkReferences with
  | none =>
    rw [hrefs] at hplace
    cases hplace
  | some references =>
    rw [hrefs] at hplace
    exact SortedMap.mem_keys_iff.2 ⟨libraries, hplace⟩

section Closed

variable (h : Progress ts current root (contractNames output)
  (ofFile current root lang output) made found [])

include h

theorem Progress.mem_keys_iff : place ∈ found.keys ↔ place ∈ made.map Prod.fst := by
  rw [SortedMap.mem_keys_iff, h.found]
  split <;> simp_all

theorem Progress.lists_iff :
    Lists found place library ↔
      place ∈ made.map Prod.fst ∧ (output.contract? place library).isSome := by
  rw [← mem_contractNames_iff]
  simp only [Lists, h.found]
  split <;> simp_all

/-- A file that the root reaches is listed, maybe in another spelling. -/
theorem Progress.exists_spelling (hplace : Reaches made root place) :
    ∃ other ∈ found.keys, Path.normalize current other = Path.normalize current place := by
  simp only [h.mem_keys_iff]
  rcases hplace.cases_tail with rfl | ⟨file, -, more, hmore, hplace⟩
  · rcases h.starts with hroot | ⟨-, hwaiting⟩
    · exact ⟨place, hroot, rfl⟩
    · cases hwaiting
  · rcases h.closed _ hmore place hplace with hwaiting | hseen
    · cases hwaiting
    · obtain ⟨q, hq, heq⟩ := List.mem_map.1 hseen
      exact ⟨q.1, List.mem_map_of_mem hq, heq⟩

theorem Progress.reaches_of_refers (hlang : lang = .solidity) (hlists : Lists found file name)
    (hc : output.contract? file name = some c) (hrefers : c.deployed.Refers place library) :
    Reaches made root place := by
  obtain ⟨hfile, -⟩ := h.lists_iff.1 hlists
  obtain ⟨p, hp, rfl⟩ := List.mem_map.1 hfile
  obtain ⟨t, t', -, hmore⟩ := h.answers p hp
  have hname : name ∈ contractNames output p.1 := by
    rw [mem_contractNames_iff, hc]
    rfl
  have hplace := (ofFile_eq_ok hmore).2.1 hlang name hname (mem_linkedFilesOf hc hrefers)
  exact (h.reached p.1 (List.mem_append_left _ hfile)).tail ⟨p.2, hp, hplace⟩

theorem Progress.eq_of_normalize {other : String} (hplace : place ∈ found.keys)
    (hother : other ∈ found.keys)
    (heq : Path.normalize current other = Path.normalize current place) : other = place := by
  rw [h.mem_keys_iff] at hplace hother
  obtain ⟨p, hp, rfl⟩ := List.mem_map.1 hplace
  obtain ⟨q, hq, rfl⟩ := List.mem_map.1 hother
  rw [List.inj_on_of_nodup_map h.distinct hq hp heq]

end Closed

section Linked

theorem assignAddresses_eq_run (contracts : SortedMap String (List String)) (book : AddressBook) :
    Collect.assignAddresses contracts book = book.run (contracts.entries.flatMap fun e =>
      e.2.map (AddressBook.Operation.assign e.1)) := by
  rw [AddressBook.run, List.foldl_flatMap]
  simp only [List.foldl_map]
  rfl

theorem Lists.isSome_lookup? (h : Lists found place library) (book : AddressBook) :
    ((Collect.assignAddresses found book).lookup? place library).isSome := by
  obtain ⟨names, hnames, hlibrary⟩ := h
  rw [assignAddresses_eq_run]
  refine AddressBook.isSome_lookup?_of_assigned ?_
  have hmem : AddressBook.Operation.assign place library ∈ found.entries.flatMap fun e =>
      e.2.map (AddressBook.Operation.assign e.1) :=
    List.mem_flatMap.2 ⟨_, SortedMap.get?_eq_some_iff.1 hnames, List.mem_map_of_mem hlibrary⟩
  obtain ⟨front, rest, heq⟩ := List.append_of_mem hmem
  refine ⟨front, rest, heq, fun hclear => ?_⟩
  have hclear : AddressBook.Operation.clear ∈ found.entries.flatMap fun e =>
      e.2.map (AddressBook.Operation.assign e.1) := by
    rw [heq]
    exact List.mem_append_right _ (List.mem_cons_of_mem _ hclear)
  obtain ⟨e, -, he⟩ := List.mem_flatMap.1 hclear
  obtain ⟨name, -, hname⟩ := List.mem_map.1 he
  cases hname

theorem find_eq_noAddress {book : AddressBook} {overrides : SortedMap String String}
    {contract : String} {available : List String}
    (h : book.find overrides file name = .error (.noAddress contract place available)) :
    file = place ∧ name = contract ∧ book.lookup? place contract = none := by
  unfold AddressBook.find at h
  split at h
  · next hnone =>
    cases h
    exact ⟨rfl, rfl, hnone⟩
  · split at h
    · cases h
    · split at h <;> cases h

theorem link_of_linkBytecode {setting : BuildSetting} {code : Bytecode} {b b' : BuildState}
    {fault : InputFault}
    (h : (Record.linkBytecode setting code).run.run b = (.error (.input fault), b')) :
    Linking.link (b.book.find setting.config.address) code.object
      (code.linkReferences.getD ∅) = .error (.unresolved fault) := by
  rw [Record.linkBytecode, Run.run_get_bind] at h
  simp only at h
  split at h
  · cases h
  · next hlink =>
    cases h
    exact hlink
  · cases h

/-- A bytecode that cannot be linked for want of an address refers to the library without one. -/
theorem refers_of_linkBytecode {setting : BuildSetting} {code : Bytecode} {b b' : BuildState}
    {available : List String} (h : (Record.linkBytecode setting code).run.run b =
      (.error (.input (.noAddress library place available)), b')) :
    code.Refers place library ∧ b.book.lookup? place library = none := by
  obtain ⟨p, hp, hfind⟩ := Linking.unresolved_of_link (link_of_linkBytecode h)
  obtain ⟨hplace, hlibrary, hnone⟩ := find_eq_noAddress hfind
  obtain ⟨e, he, hp⟩ := List.mem_flatMap.1 hp
  obtain ⟨e', he', hp⟩ := List.mem_flatMap.1 hp
  obtain ⟨range, -, rfl⟩ := List.mem_map.1 hp
  cases hplace
  cases hlibrary
  exact ⟨⟨e.2, SortedMap.get?_eq_some_iff.2 he, List.mem_map_of_mem he'⟩, hnone⟩

end Linked

/-- The dependencies of a file cover all link references exactly if no file that a reference names
is listed in another spelling, and the files that only constructor bytecode refers to, or Vyper, are
dependencies anyway. With addresses for the listed contracts, no bytecode then lacks the address of
a compiled library. -/
theorem coversReferences_iff
    (h : (collect current root lang output).run.run s = (.ok found, s')) :
    ∃ made, Progress s.trees current root (contractNames output)
        (ofFile current root lang output) made found [] ∧
      (CoversReferences output found ↔
        ∀ file name c, Lists found file name → output.contract? file name = some c →
          ∀ place library, (output.contract? place library).isSome →
            (c.deployed.Refers place library ∨ c.creation.Refers place library →
              ∀ other ∈ found.keys,
                Path.normalize current other = Path.normalize current place → other = place) ∧
            (c.creation.Refers place library ∨ lang = .vyper ∧ c.deployed.Refers place library →
              Reaches made root place)) ∧
      (CoversReferences output found →
        ∀ file name c, Lists found file name → output.contract? file name = some c →
          ∀ (b : BuildState) book, b.book = Collect.assignAddresses found book →
            ∀ setting code, code = c.deployed ∨ code = c.creation →
              ∀ place library available b', (Record.linkBytecode setting code).run.run b =
                  (.error (.input (.noAddress library place available)), b') →
                output.contract? place library = none) := by
  obtain ⟨_, _, htrees, h⟩ := Run.bind_eq_ok_iff.1 h
  cases htrees
  obtain ⟨-, made, hmade⟩ := exists_progress_of_follow
    (fun file t more t' ht hmore => by
      obtain ⟨ht', -, hlength⟩ := ofFile_eq_ok hmore
      exact ⟨ht'.trans ht, ht ▸ hlength⟩)
    (fun file hfile => fileBound_of_notMem (s.trees.nodeCount root) hfile) rfl
    Progress.start (unspent_start_le _ _) h
  refine ⟨made, hmade, ⟨?_, ?_⟩, ?_⟩
  · intro hcovers file name c hlists hc place library hcompiled
    refine ⟨fun hrefers other hother heq => ?_, fun hrefers => ?_⟩
    · have hplace := hcovers file name c hlists hc place library hrefers hcompiled
      exact hmade.eq_of_normalize (hmade.mem_keys_iff.2 (hmade.lists_iff.1 hplace).1) hother heq
    · have hplace := hcovers file name c hlists hc place library
        (hrefers.symm.imp_left And.right) hcompiled
      exact hmade.reached place (List.mem_append_left _ (hmade.lists_iff.1 hplace).1)
  · intro hspelled file name c hlists hc place library hrefers hcompiled
    obtain ⟨hspelling, hreaches⟩ := hspelled file name c hlists hc place library hcompiled
    -- the search itself follows the references of deployed bytecode, but no others
    have hreaches : Reaches made root place := by
      rcases hrefers with hdeployed | hcreation
      · cases lang with
        | solidity => exact hmade.reaches_of_refers rfl hlists hc hdeployed
        | vyper => exact hreaches (.inr ⟨rfl, hdeployed⟩)
      · exact hreaches (.inl hcreation)
    obtain ⟨other, hother, heq⟩ := hmade.exists_spelling hreaches
    obtain rfl := hspelling hrefers other hother heq
    exact hmade.lists_iff.2 ⟨hmade.mem_keys_iff.1 hother, hcompiled⟩
  · intro hcovers file name c hlists hc b book hbook setting code hcode place library available b'
      hlink
    obtain ⟨hrefers, hnone⟩ := refers_of_linkBytecode hlink
    rw [← Option.not_isSome_iff_eq_none]
    intro hcompiled
    have hrefers : c.deployed.Refers place library ∨ c.creation.Refers place library := by
      rcases hcode with rfl | rfl
      · exact .inl hrefers
      · exact .inr hrefers
    have hplace := hcovers file name c hlists hc place library hrefers hcompiled
    have haddress := hplace.isSome_lookup? book
    rw [← hbook, hnone] at haddress
    cases haddress

end References

section Libraries

/-! A contract in one file and a library in another. -/

def libraryIndex : SyntaxIndex :=
  { SyntaxIndex.empty with
    trees := (∅ : Trees).insert "/A.sol" (SortedMap.ofList [
      ("/A.sol", FlatTree.insert ∅ (.ofContract 1 "A" [])),
      ("/L.sol", FlatTree.insert ∅ (.ofLibrary 2 "L"))]) }

def libraryReference : LinkReferences :=
  (∅ : LinkReferences).insert "/L.sol"
    ((∅ : SortedMap String (List ByteRange)).insert "L" [⟨1, 20⟩])

def linkedCode (references : LinkReferences) : Bytecode := ⟨"", none, some references, none⟩

/-- The contract, with the link references of its deployed and of its constructor bytecode. -/
def caller (deployed creation : LinkReferences) : CompiledContract :=
  ⟨[], none, some ⟨none, some (linkedCode creation), some (linkedCode deployed), none⟩⟩

def callerOutput (deployed creation : LinkReferences) : CompilerOutput where
  contracts := some (SortedMap.ofList [
    ("/A.sol", (∅ : SortedMap String CompiledContract).insert "A" (caller deployed creation)),
    ("/L.sol", (∅ : SortedMap String CompiledContract).insert "L" ⟨[], none, none⟩)])
  sources := none
  errors := none

theorem contract?_caller (deployed creation : LinkReferences) :
    (callerOutput deployed creation).contract? "/A.sol" "A" = some (caller deployed creation) := by
  simp [CompilerOutput.contract?, CompilerOutput.contractsOf?, callerOutput, SortedMap.ofList,
    SortedMap.get?_insert]

theorem refers_libraryReference {place library : String}
    (h : (linkedCode libraryReference).Refers place library) : place = "/L.sol" := by
  obtain ⟨libraries, hplace, -⟩ := h
  rw [SortedMap.get?_eq_some_iff] at hplace
  cases List.mem_singleton.1 hplace
  rfl

end Libraries

theorem coversReferences_bothCodes : ∃ found s',
    (collect "/" "/A.sol" .solidity (callerOutput libraryReference libraryReference)).run.run
      libraryIndex = (.ok found, s') ∧
    found.entries = [("/A.sol", ["A"]), ("/L.sol", ["L"])] ∧
    CoversReferences (callerOutput libraryReference libraryReference) found := by
  have hrun : ((collect "/" "/A.sol" .solidity
      (callerOutput libraryReference libraryReference)).run.run libraryIndex).1.toOption.map
        SortedMap.entries = some [("/A.sol", ["A"]), ("/L.sol", ["L"])] := by decide +kernel
  obtain ⟨found, s', hfound, hentries⟩ := Run.exists_of_map_eq_some hrun
  obtain ⟨made, hmade, hcovers, -⟩ := coversReferences_iff hfound
  refine ⟨found, s', hfound, hentries, hcovers.2 ?_⟩
  have hkeys : found.keys = ["/A.sol", "/L.sol"] := congrArg (List.map Prod.fst) hentries
  intro file name c hlists hc place library hcompiled
  have hplace : c.deployed.Refers place library ∨ c.creation.Refers place library →
      place = "/L.sol" := by
    obtain ⟨names, hnames, hname⟩ := hlists
    rw [SortedMap.get?_eq_some_iff, hentries] at hnames
    rcases hnames with _ | ⟨_, _ | ⟨_, ⟨⟩⟩⟩
    · obtain rfl := List.mem_singleton.1 hname
      obtain rfl := Option.some.inj ((contract?_caller _ _).symm.trans hc)
      exact fun h => h.elim refers_libraryReference refers_libraryReference
    · obtain rfl := List.mem_singleton.1 hname
      cases hc
      rintro (⟨_, hnone, -⟩ | ⟨_, hnone, -⟩) <;> cases hnone
  refine ⟨fun hrefers other hother heq => ?_, fun hrefers => ?_⟩
  · obtain rfl := hplace hrefers
    rw [hkeys] at hother
    rcases hother with _ | ⟨_, _ | ⟨_, ⟨⟩⟩⟩
    · exact absurd heq (by decide +kernel)
    · rfl
  · obtain rfl := hplace (hrefers.symm.imp_left And.right)
    refine hmade.reached _ (List.mem_append_left _ (hmade.mem_keys_iff.1 ?_))
    rw [hkeys]
    decide

/-- A library that only constructor bytecode refers to is not listed. -/
theorem not_coversReferences_constructorOnly : ∃ found s',
    (collect "/" "/A.sol" .solidity (callerOutput ∅ libraryReference)).run.run libraryIndex =
      (.ok found, s') ∧
    ¬ CoversReferences (callerOutput ∅ libraryReference) found := by
  have hrun : ((collect "/" "/A.sol" .solidity (callerOutput ∅ libraryReference)).run.run
      libraryIndex).1.toOption.map SortedMap.entries = some [("/A.sol", ["A"])] := by
    decide +kernel
  obtain ⟨found, s', hfound, hentries⟩ := Run.exists_of_map_eq_some hrun
  refine ⟨found, s', hfound, fun hcovers => ?_⟩
  have hlists : Lists found "/A.sol" "A" :=
    ⟨["A"], SortedMap.get?_eq_some_iff.2 (hentries ▸ List.mem_cons_self), List.mem_cons_self⟩
  have hrefers : (caller ∅ libraryReference).creation.Refers "/L.sol" "L" := ⟨_, rfl, by decide⟩
  obtain ⟨names, hnames, -⟩ := hcovers "/A.sol" "A" _ hlists (contract?_caller _ _) "/L.sol" "L"
    (.inr hrefers) rfl
  rw [SortedMap.get?_eq_some_iff, hentries] at hnames
  simp at hnames

end Dependencies

end ContractModel

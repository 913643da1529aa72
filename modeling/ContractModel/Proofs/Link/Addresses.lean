import ContractModel.Link.Address
import ContractModel.Proofs.Run
import Mathlib.Data.List.Induction

/-! # Runs of an address book

The addresses that a book gives ascend for as long as it is used, also when it is cleared in
between. A contract has the address of its first assignment behind the last clearing, and none if
there is no such assignment.
-/

namespace ContractModel

namespace Address

theorem text_injective {m n : Nat} (h : text m = text n) : m = n :=
  Text.hexadecimalPadded_injective h

theorem length_text {n : Nat} (h : n < Nat.pow 16 40) : (text n).length = 40 :=
  Text.length_hexadecimalPadded (by decide) h

theorem underscore_notMem_text (n : Nat) : '_' ∉ (text n).toList := by
  intro h
  rw [text, Text.hexadecimalPadded, String.toList_ofList, Text.padded, List.mem_append] at h
  rcases h with h | h
  · exact absurd (List.eq_of_mem_replicate h) (by decide)
  · obtain ⟨d, hd, hchar⟩ := Text.exists_of_mem_digits (by decide) h
    revert d
    decide

/-- The tag and the index of fewer than `2 ^ 100` addresses take up 128 bits. -/
theorem ofIndex_lt {index : Nat} (h : index < Nat.pow 2 100) : ofIndex index < Nat.pow 2 128 := by
  have hbase : base + Nat.pow 2 100 ≤ Nat.pow 2 128 := by decide
  unfold ofIndex
  omega

end Address

namespace AddressBook

/-- What is done to a book in a run. -/
inductive Operation where
  | assign (file contract : String)
  | clear
  | find (file contract : String)

namespace Operation

def apply (b : AddressBook) : Operation → AddressBook
  | assign file contract => b.assign file contract
  | clear => b.clear
  | find _ _ => b

/-- The entries that an operation adds behind those of the book. -/
def added (b : AddressBook) (op : Operation) : List (Nat × String) :=
  (op.apply b).entries.drop b.entries.length

/-- The name of the contract, if there is one, has no colon. -/
def HasPlainName : Operation → Prop
  | assign _ contract | find _ contract => ':' ∉ contract.toList
  | clear => True

end Operation

def run (b : AddressBook) (ops : List Operation) : AddressBook := ops.foldl Operation.apply b

/-- All entries that are added in a run, also those that are forgotten. -/
def assignments : AddressBook → List Operation → List (Nat × String)
  | _, [] => []
  | b, op :: ops => op.added b ++ assignments (op.apply b) ops

/-- The last operations begin with an assignment of the contract and do not clear the book. -/
def AssignedBehind (front ops : List Operation) (file contract : String) : Prop :=
  ∃ rest, ops = front ++ .assign file contract :: rest ∧ .clear ∉ rest

/-- The contract was assigned and the book was not cleared since then. -/
def AssignedSinceClear (ops : List Operation) (file contract : String) : Prop :=
  ∃ front, AssignedBehind front ops file contract

variable {b : AddressBook} {op : Operation} {ops front : List Operation}
  {file file' contract contract' : String} {address : Nat} {overrides : SortedMap String String}

section Steps

/-- An operation adds at most one entry, under the next address. -/
theorem added_cases (b : AddressBook) (op : Operation) :
    op.added b = [] ∧ (op.apply b).nextIndex = b.nextIndex ∨
      ∃ key, op.added b = [(Address.ofIndex b.nextIndex, key)] ∧
        (op.apply b).nextIndex = b.nextIndex + 1 := by
  cases op with
  | assign file contract =>
    simp only [Operation.added, Operation.apply, assign]
    split
    · left
      simp
    · right
      exact ⟨entryKey file contract, by simp, rfl⟩
  | clear =>
    left
    simp [Operation.added, Operation.apply, clear]
  | find file contract =>
    left
    simp [Operation.added, Operation.apply]

theorem assign_of_isSome (h : (b.lookup? file contract).isSome) :
    b.assign file contract = b := if_pos h

theorem added_assign_of_isSome (h : (b.lookup? file contract).isSome) :
    (Operation.assign file contract).added b = [] := by
  simp [Operation.added, Operation.apply, assign_of_isSome h]

theorem added_assign_of_none (h : b.lookup? file contract = none) :
    (Operation.assign file contract).added b =
      [(Address.ofIndex b.nextIndex, entryKey file contract)] := by
  simp [Operation.added, Operation.apply, assign, h]

theorem lookup?_assign_of_none (h : b.lookup? file contract = none) :
    (b.assign file contract).lookup? file' contract' =
      (b.lookup? file' contract').or
        (if entryKey file contract = entryKey file' contract' then
          some (Address.ofIndex b.nextIndex)
        else none) := by
  rw [assign, h, if_neg (by simp)]
  simp only [lookup?, List.find?_append, Option.map_or]
  congr 1
  split <;> simp_all

theorem append_separator_injective {separator : Char} {cs cs' ds ds' : List Char}
    (hd : separator ∉ ds) (hd' : separator ∉ ds')
    (h : cs ++ separator :: ds = cs' ++ separator :: ds') : cs = cs' ∧ ds = ds' := by
  rcases List.append_eq_append_iff.1 h with ⟨rest, rfl, hrest⟩ | ⟨rest, rfl, hrest⟩
  · cases rest with
    | nil => simpa using hrest
    | cons c rest =>
      obtain ⟨-, rfl⟩ := List.cons.inj hrest
      simp at hd
  · cases rest with
    | nil => simpa [eq_comm] using hrest
    | cons c rest =>
      obtain ⟨-, rfl⟩ := List.cons.inj hrest
      simp at hd'

theorem separator_append_injective {separator : Char} {cs cs' ds ds' : List Char}
    (hc : separator ∉ cs) (hc' : separator ∉ cs')
    (h : cs ++ separator :: ds = cs' ++ separator :: ds') : cs = cs' ∧ ds = ds' := by
  have hreverse : ds.reverse ++ separator :: cs.reverse =
      ds'.reverse ++ separator :: cs'.reverse := by
    simpa using congrArg List.reverse h
  obtain ⟨hd, hc⟩ := append_separator_injective (by simpa) (by simpa) hreverse
  exact ⟨List.reverse_injective hc, List.reverse_injective hd⟩

theorem entryKey_injective (hc : ':' ∉ contract.toList) (hc' : ':' ∉ contract'.toList)
    (h : entryKey file contract = entryKey file' contract') :
    file = file' ∧ contract = contract' := by
  have hlist : file.toList ++ ':' :: contract.toList =
      file'.toList ++ ':' :: contract'.toList := by
    simpa [entryKey] using congrArg String.toList h
  obtain ⟨hfile, hcontract⟩ := append_separator_injective hc hc' hlist
  exact ⟨String.toList_injective hfile, String.toList_injective hcontract⟩

/-- After an assignment a contract has the address it had, or the one that was added for it. -/
theorem lookup?_assign_iff (hc' : ':' ∉ contract'.toList) (hc : ':' ∉ contract.toList) :
    (b.assign file' contract').lookup? file contract = some address ↔
      b.lookup? file contract = some address ∨ (file' = file ∧ contract' = contract) ∧
        (Operation.assign file contract).added b = [(address, entryKey file contract)] := by
  cases hb : b.lookup? file' contract' with
  | some taken =>
    rw [assign_of_isSome (by simp [hb])]
    constructor
    · exact .inl
    · rintro (h | ⟨⟨rfl, rfl⟩, hadded⟩)
      · exact h
      · rw [added_assign_of_isSome (by simp [hb])] at hadded
        cases hadded
  | none =>
    rw [lookup?_assign_of_none hb]
    by_cases hsame : file' = file ∧ contract' = contract
    · obtain ⟨rfl, rfl⟩ := hsame
      simp [hb, added_assign_of_none hb]
    · have hkey : entryKey file' contract' ≠ entryKey file contract :=
        fun h => hsame (entryKey_injective hc' hc h)
      simp [hkey, hsame]

end Steps

section Runs

theorem run_append_singleton (ops : List Operation) (op : Operation) :
    b.run (ops ++ [op]) = op.apply (b.run ops) := by
  simp [run]

theorem le_of_mem_assignments {e : Nat × String} (h : e ∈ assignments b ops) :
    Address.ofIndex b.nextIndex ≤ e.1 := by
  induction ops generalizing b with
  | nil => cases h
  | cons op ops ih =>
    rcases List.mem_append.1 h with h | h
    · rcases added_cases b op with ⟨hnone, -⟩ | ⟨key, hkey, -⟩
      · rw [hnone] at h
        cases h
      · rw [hkey, List.mem_singleton] at h
        exact Nat.le_of_eq (h ▸ rfl)
    · have hle := ih h
      unfold Address.ofIndex at *
      rcases added_cases b op with ⟨-, hnext⟩ | ⟨key, -, hnext⟩
      · omega
      · omega

/-- The addresses of a run ascend. -/
theorem pairwise_assignments (b : AddressBook) (ops : List Operation) :
    ((assignments b ops).map Prod.fst).Pairwise (· < ·) := by
  induction ops generalizing b with
  | nil => exact .nil
  | cons op ops ih =>
    rw [assignments]
    rcases added_cases b op with ⟨hnone, -⟩ | ⟨key, hkey, hnext⟩
    · rw [hnone]
      exact ih _
    · rw [hkey, List.singleton_append, List.map_cons, List.pairwise_cons]
      refine ⟨fun address haddress => ?_, ih _⟩
      obtain ⟨e, he, rfl⟩ := List.mem_map.1 haddress
      have hle := le_of_mem_assignments he
      rw [hnext] at hle
      exact hle

/-- The next index counts the assignments. -/
theorem nextIndex_run (b : AddressBook) (ops : List Operation) :
    (b.run ops).nextIndex = b.nextIndex + (assignments b ops).length := by
  induction ops generalizing b with
  | nil => rfl
  | cons op ops ih =>
    change ((op.apply b).run ops).nextIndex = _
    rw [ih, assignments, List.length_append]
    rcases added_cases b op with ⟨hnone, hnext⟩ | ⟨key, hkey, hnext⟩
    · rw [hnone, hnext, List.length_nil]
      omega
    · rw [hkey, hnext, List.length_singleton]
      omega

theorem lt_of_mem_assignments {e : Nat × String} (h : e ∈ assignments b ops) :
    e.1 < Address.ofIndex (b.run ops).nextIndex := by
  induction ops generalizing b with
  | nil => cases h
  | cons op ops ih =>
    change e.1 < Address.ofIndex ((op.apply b).run ops).nextIndex
    rcases List.mem_append.1 h with h | h
    · rcases added_cases b op with ⟨hnone, -⟩ | ⟨key, hkey, hnext⟩
      · rw [hnone] at h
        cases h
      · rw [hkey, List.mem_singleton] at h
        rw [h, nextIndex_run, hnext]
        unfold Address.ofIndex
        omega
    · exact ih h

end Runs

section SinceClear

theorem assignedBehind_append_singleton_iff :
    AssignedBehind front (ops ++ [op]) file contract ↔
      op = .assign file contract ∧ front = ops ∨
        op ≠ .clear ∧ AssignedBehind front ops file contract := by
  constructor
  · rintro ⟨rest, hops, hrest⟩
    rcases rest.eq_nil_or_concat with rfl | ⟨rest, last, rfl⟩
    · obtain ⟨rfl, hlast⟩ := List.append_inj' hops rfl
      exact .inl ⟨List.singleton_inj.1 hlast, rfl⟩
    · rw [List.concat_eq_append] at hops hrest
      rw [← List.cons_append, ← List.append_assoc] at hops
      obtain ⟨rfl, hlast⟩ := List.append_inj' hops rfl
      obtain rfl := List.singleton_inj.1 hlast
      rw [List.mem_append, List.mem_singleton, not_or] at hrest
      exact .inr ⟨Ne.symm hrest.2, rest, rfl, hrest.1⟩
  · rintro (⟨rfl, rfl⟩ | ⟨hop, rest, rfl, hrest⟩)
    · exact ⟨[], rfl, List.not_mem_nil⟩
    · refine ⟨rest ++ [op], by simp, ?_⟩
      simpa [hrest] using hop.symm

theorem isSome_lookup?_run (h : (b.lookup? file contract).isSome) (hops : .clear ∉ ops) :
    ((b.run ops).lookup? file contract).isSome := by
  induction ops generalizing b with
  | nil => exact h
  | cons op ops ih =>
    rw [List.mem_cons, not_or] at hops
    refine ih (b := op.apply b) ?_ hops.2
    cases op with
    | assign file' contract' =>
      cases hb : b.lookup? file' contract' with
      | none => simp [Operation.apply, lookup?_assign_of_none hb, h]
      | some address =>
        rw [Operation.apply, assign_of_isSome (by simp [hb])]
        exact h
    | clear => exact absurd rfl hops.1
    | find file' contract' => exact h

theorem isSome_lookup?_of_assigned (h : AssignedSinceClear ops file contract) :
    ((b.run ops).lookup? file contract).isSome := by
  obtain ⟨front, rest, rfl, hrest⟩ := h
  rw [run, List.foldl_append, List.foldl_cons]
  refine isSome_lookup?_run ?_ hrest
  rw [Operation.apply]
  cases hb : (b.run front).lookup? file contract with
  | none =>
    rw [run] at hb
    simp [lookup?_assign_of_none hb]
  | some address =>
    rw [run] at hb
    rw [assign_of_isSome (by simp [hb]), hb]
    rfl

/-- A contract has the address that was taken for it behind the last clearing. -/
theorem lookup?_run_iff (hops : ∀ op ∈ ops, op.HasPlainName) (hc : ':' ∉ contract.toList) :
    (empty.run ops).lookup? file contract = some address ↔
      ∃ front, AssignedBehind front ops file contract ∧
        (Operation.assign file contract).added (empty.run front) =
          [(address, entryKey file contract)] := by
  induction ops using List.reverseRecOn with
  | nil =>
    constructor
    · rintro ⟨⟩
    · rintro ⟨front, ⟨rest, hnil, -⟩, -⟩
      simp at hnil
  | append_singleton ops op ih =>
    rw [List.forall_mem_append, List.forall_mem_singleton] at hops
    obtain ⟨hops, hop⟩ := hops
    have ih := ih hops
    rw [run_append_singleton]
    simp only [assignedBehind_append_singleton_iff]
    cases op with
    | clear =>
      constructor
      · rintro ⟨⟩
      · rintro ⟨front, ⟨hassign, -⟩ | ⟨hclear, -⟩, -⟩
        · cases hassign
        · exact absurd rfl hclear
    | find file' contract' => simpa [Operation.apply] using ih
    | assign file' contract' =>
      rw [Operation.apply, lookup?_assign_iff hop hc, ih]
      constructor
      · rintro (⟨front, hbehind, hadded⟩ | ⟨⟨rfl, rfl⟩, hadded⟩)
        · exact ⟨front, .inr ⟨nofun, hbehind⟩, hadded⟩
        · exact ⟨ops, .inl ⟨rfl, rfl⟩, hadded⟩
      · rintro ⟨front, ⟨hassign, rfl⟩ | ⟨-, hbehind⟩, hadded⟩
        · cases hassign
          exact .inr ⟨⟨rfl, rfl⟩, hadded⟩
        · exact .inl ⟨front, hbehind, hadded⟩

end SinceClear

/-- The addresses of a run: which are given, what is kept, and what is found. -/
structure Addressed (ops : List Operation) : Prop where
  ascending : ((assignments empty ops).map Prod.fst).Pairwise (· < ·)
  distinct : ((assignments empty ops).map Prod.fst).Nodup
  fits : ∀ e ∈ assignments empty ops, e.1 < Nat.pow 2 128 ∧ (Address.text e.1).length = 40
  again : ∀ file contract, AssignedSinceClear ops file contract →
    (empty.run ops).assign file contract = empty.run ops
  found : ∀ overrides file contract, ':' ∉ contract.toList → overrides.get? contract = none →
    ((∃ text, (empty.run ops).find overrides file contract = .ok text) ↔
      AssignedSinceClear ops file contract)
  find_eq : ∀ overrides file contract text, ':' ∉ contract.toList →
    overrides.get? contract = none → (empty.run ops).find overrides file contract = .ok text →
      ∃ front address, AssignedBehind front ops file contract ∧
        (Operation.assign file contract).added (empty.run front) =
          [(address, entryKey file contract)] ∧ text = Address.text address
  texts : ∀ m n, m ≠ n → Address.text m ≠ Address.text n

/-- What is found is the text of an address. -/
theorem exists_text_of_find {text : String} (h : b.find overrides file contract = .ok text) :
    ∃ address, text = Address.text address := by
  unfold find at h
  split at h
  · cases h
  · next address _ =>
    split at h
    · cases h
      exact ⟨address, rfl⟩
    · split at h
      · next address _ =>
        cases h
        exact ⟨address, rfl⟩
      · cases h

theorem find_eq_ok_iff (hoverrides : overrides.get? contract = none) {text : String} :
    b.find overrides file contract = .ok text ↔
      ∃ address, b.lookup? file contract = some address ∧ text = Address.text address := by
  unfold find
  cases b.lookup? file contract <;> simp [hoverrides, eq_comm]

/-- In every run addresses ascend across clearings, no contract gets a second one before the next
clearing, and exactly the contracts that were assigned since the last one are found. -/
theorem addressed_run (hops : ∀ op ∈ ops, op.HasPlainName)
    (hfew : (assignments empty ops).length < Nat.pow 2 100) : Addressed ops := by
  constructor
  · exact pairwise_assignments empty ops
  · exact (pairwise_assignments empty ops).imp Nat.ne_of_lt
  · intro e he
    have hlt := lt_of_mem_assignments he
    rw [nextIndex_run] at hlt
    have hindex : empty.nextIndex + (assignments empty ops).length < Nat.pow 2 100 := by
      simpa [empty] using hfew
    have hbits := Nat.lt_trans hlt (Address.ofIndex_lt hindex)
    exact ⟨hbits, Address.length_text (Nat.lt_trans hbits (by decide))⟩
  · intro file contract h
    exact assign_of_isSome (isSome_lookup?_of_assigned h)
  · intro overrides file contract hc hoverrides
    constructor
    · rintro ⟨text, h⟩
      obtain ⟨address, hlookup, -⟩ := (find_eq_ok_iff hoverrides).1 h
      obtain ⟨front, hbehind, -⟩ := (lookup?_run_iff hops hc).1 hlookup
      exact ⟨front, hbehind⟩
    · intro h
      obtain ⟨address, hlookup⟩ :=
        Option.isSome_iff_exists.1 (isSome_lookup?_of_assigned (b := empty) h)
      exact ⟨_, (find_eq_ok_iff hoverrides).2 ⟨address, hlookup, rfl⟩⟩
  · intro overrides file contract text hc hoverrides h
    obtain ⟨address, hlookup, rfl⟩ := (find_eq_ok_iff hoverrides).1 h
    obtain ⟨front, hbehind, hadded⟩ := (lookup?_run_iff hops hc).1 hlookup
    exact ⟨front, address, hbehind, hadded, rfl⟩
  · intro m n hne h
    exact hne (Address.text_injective h)

/-- A library that is assigned twice, forgotten, and assigned again. -/
def reassigned : List Operation :=
  [.assign "/p/Lib.sol" "LibA", .assign "/p/Lib.sol" "LibA", .clear, .assign "/p/Lib.sol" "LibA"]

/-- It gets a second address after the clearing. -/
theorem addressed_reassigned :
    (∀ op ∈ reassigned, op.HasPlainName) ∧
      (assignments empty reassigned).length < Nat.pow 2 100 ∧ Addressed reassigned ∧
      (empty.run reassigned).find ∅ "/p/Lib.sol" "LibA" =
        .ok "00000000ce4604a0000000000000000000000001" := by
  have hplain : ∀ op ∈ reassigned, op.HasPlainName := by
    simp [reassigned, Operation.HasPlainName]
  have hfew : (assignments empty reassigned).length < Nat.pow 2 100 := by decide +kernel
  have hfind : (empty.run reassigned).find ∅ "/p/Lib.sol" "LibA" =
      .ok "00000000ce4604a0000000000000000000000001" :=
    Run.toOption_eq_some_iff.1 (by decide +kernel)
  exact ⟨hplain, hfew, addressed_run hplain hfew, hfind⟩

end AddressBook

end ContractModel

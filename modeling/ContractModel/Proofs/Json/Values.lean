import ContractModel.Json.Schema

/-! # The numbers of JSON values, and limits

A value is written as itself, except that a text may give back another number for one that was
written; `readAs` is what such a text holds. A reader takes any value as it is written, with every
name that is repeated in an object resolved.
-/

namespace ContractModel.Json

variable {ρ : Number → Written}

mutual

/-- The numbers in a value. -/
def numbers : Json → List Number
  | .number n => [n]
  | .array js => numbersItems js
  | .object ms => numbersMembers ms
  | _ => []

def numbersItems : List Json → List Number
  | [] => []
  | j :: js => numbers j ++ numbersItems js

def numbersMembers : Members → List Number
  | [] => []
  | (_, j) :: ms => numbers j ++ numbersMembers ms

end

mutual

/-- A value as it is written, with each number given back as the function says. -/
def readAs (ρ : Number → Written) : Json → Written
  | .null => .null
  | .bool b => .bool b
  | .number n => ρ n
  | .string s => .string s
  | .array js => .array (readAsItems ρ js)
  | .object ms => .object (readAsMembers ρ ms)

def readAsItems (ρ : Number → Written) : List Json → List Written
  | [] => []
  | j :: js => readAs ρ j :: readAsItems ρ js

def readAsMembers (ρ : Number → Written) : Members → List (String × Written)
  | [] => []
  | (name, j) :: ms => (name, readAs ρ j) :: readAsMembers ρ ms

end

theorem readAsItems_eq (ρ : Number → Written) (js : List Json) :
    readAsItems ρ js = js.map (readAs ρ) := by
  induction js with
  | nil => rfl
  | cons j js ih => rw [readAsItems, ih, List.map_cons]

theorem readAsMembers_eq (ρ : Number → Written) (ms : Members) :
    readAsMembers ρ ms = ms.map fun m => (m.1, m.2.readAs ρ) := by
  induction ms with
  | nil => rfl
  | cons m ms ih => rw [readAsMembers, ih, List.map_cons]

theorem readAs_array (js : List Json) :
    (Json.array js).readAs ρ = .array (js.map (readAs ρ)) := by
  rw [readAs, readAsItems_eq]

theorem readAs_object (ms : Members) :
    (Json.object ms).readAs ρ = .object (ms.map fun m => (m.1, m.2.readAs ρ)) := by
  rw [readAs, readAsMembers_eq]

mutual

/-- With every number given back a value is written as itself. -/
theorem readAs_number (j : Json) : j.readAs .number = j.written := by
  cases j with
  | array js => rw [readAs, written, readAsItems_number js]
  | object ms => rw [readAs, written, readAsMembers_number ms]
  | _ => rfl

theorem readAsItems_number (js : List Json) : readAsItems .number js = writtenItems js := by
  cases js with
  | nil => rfl
  | cons j js => rw [readAsItems, writtenItems, readAs_number j, readAsItems_number js]

theorem readAsMembers_number (ms : Members) :
    readAsMembers .number ms = writtenMembers ms := by
  cases ms with
  | nil => rfl
  | cons m ms => rw [readAsMembers, writtenMembers, readAs_number m.2, readAsMembers_number ms]

end

/-! ## Numbers that are given back -/

/-- All numbers of the value are given back. -/
def Fixed (ρ : Number → Written) (j : Json) : Prop := ∀ n ∈ j.numbers, ρ n = .number n

theorem mem_numbersItems_iff {n : Number} {js : List Json} :
    n ∈ numbersItems js ↔ ∃ j ∈ js, n ∈ j.numbers := by
  induction js with
  | nil => simp [numbersItems]
  | cons j js ih => simp [numbersItems, ih]

theorem mem_numbersMembers_iff {n : Number} {ms : Members} :
    n ∈ numbersMembers ms ↔ ∃ m ∈ ms, n ∈ m.2.numbers := by
  induction ms with
  | nil => simp [numbersMembers]
  | cons m ms ih => simp [numbersMembers, ih]

@[simp] theorem fixed_null : Fixed ρ .null := by simp [Fixed, numbers]

@[simp] theorem fixed_bool (b : Bool) : Fixed ρ (.bool b) := by simp [Fixed, numbers]

@[simp] theorem fixed_string (s : String) : Fixed ρ (.string s) := by simp [Fixed, numbers]

@[simp] theorem fixed_number_iff {n : Number} : Fixed ρ (.number n) ↔ ρ n = .number n := by
  simp [Fixed, numbers]

@[simp] theorem fixed_array_iff {js : List Json} :
    Fixed ρ (.array js) ↔ ∀ j ∈ js, Fixed ρ j := by
  simp only [Fixed, numbers, mem_numbersItems_iff]
  exact ⟨fun h j hj n hn => h n ⟨j, hj, hn⟩, fun h n ⟨j, hj, hn⟩ => h j hj n hn⟩

@[simp] theorem fixed_object_iff {ms : Members} :
    Fixed ρ (.object ms) ↔ ∀ m ∈ ms, Fixed ρ m.2 := by
  simp only [Fixed, numbers, mem_numbersMembers_iff]
  exact ⟨fun h m hm n hn => h n ⟨m, hm, hn⟩, fun h n ⟨m, hm, hn⟩ => h m hm n hn⟩

@[simp] theorem fixed_ofNat_iff {n : Nat} :
    Fixed ρ (ofNat n) ↔ ρ (.int n) = .number (.int n) := fixed_number_iff

@[simp] theorem fixed_ofStrings (ss : List String) : Fixed ρ (ofStrings ss) := by
  simp [ofStrings]

section Containers

variable {α : Type} {write : α → Json}

@[simp] theorem fixed_ofOption_iff {o : Option α} :
    Fixed ρ (ofOption write o) ↔ ∀ a ∈ o, Fixed ρ (write a) := by
  cases o <;> simp [ofOption]

@[simp] theorem fixed_ofMap_iff {m : SortedMap String α} :
    Fixed ρ (ofMap write m) ↔ ∀ e ∈ m.entries, Fixed ρ (write e.2) := by
  rw [ofMap, fixed_object_iff, List.forall_mem_map]

end Containers

theorem fixed_number (j : Json) : Fixed .number j := fun _ _ => rfl

/-! ## Limits -/

/-- An integer of 64 bits, signed or unsigned, or a binary64 number. -/
def Number.Fits : Number → Prop
  | .int n => -0x8000000000000000 ≤ n ∧ n < 0x10000000000000000
  | .float _ => True

/-- Objects and arrays are nested at most so deeply, and all integers have 64 bits. -/
inductive Written.Within : Nat → Written → Prop
  | unreadable {k : Nat} : Within k .unreadable
  | null {k : Nat} : Within k .null
  | bool {k : Nat} {b : Bool} : Within k (.bool b)
  | number {k : Nat} {n : Number} (h : n.Fits) : Within k (.number n)
  | string {k : Nat} {s : String} : Within k (.string s)
  | array {k : Nat} {ws : List Written} (h : ∀ w ∈ ws, Within k w) : Within (k + 1) (.array ws)
  | object {k : Nat} {ms : List (String × Written)} (h : ∀ m ∈ ms, Within k m.2) :
      Within (k + 1) (.object ms)

variable {k k' : Nat} {w : Written} {j : Json}

theorem Written.Within.mono (h : w.Within k) (hk : k ≤ k') : w.Within k' := by
  induction h generalizing k' with
  | array _ ih =>
    obtain ⟨d, rfl⟩ := Nat.exists_eq_add_of_le' hk
    exact .array fun w hw => ih w hw (Nat.le_add_left _ d)
  | object _ ih =>
    obtain ⟨d, rfl⟩ := Nat.exists_eq_add_of_le' hk
    exact .object fun m hm => ih m hm (Nat.le_add_left _ d)
  | number h => exact .number h
  | _ => constructor

/-- A value within the limits as it is written. -/
def Within (k : Nat) (j : Json) : Prop := j.written.Within k

theorem within_array_iff {js : List Json} :
    (Json.array js).Within k ↔ ∃ k', k = k' + 1 ∧ ∀ j ∈ js, j.Within k' := by
  rw [Within, ← readAs_number, readAs_array]
  constructor
  · rintro (_ | _ | _ | _ | _ | h)
    refine ⟨_, rfl, fun j hj => ?_⟩
    have := h _ (List.mem_map_of_mem hj)
    rwa [readAs_number] at this
  · rintro ⟨k', rfl, h⟩
    refine .array fun w hw => ?_
    obtain ⟨j, hj, rfl⟩ := List.mem_map.1 hw
    rw [readAs_number]
    exact h j hj

theorem within_object_iff {ms : Members} :
    (Json.object ms).Within k ↔ ∃ k', k = k' + 1 ∧ ∀ m ∈ ms, m.2.Within k' := by
  rw [Within, ← readAs_number, readAs_object]
  constructor
  · rintro (_ | _ | _ | _ | _ | _ | h)
    refine ⟨_, rfl, fun m hm => ?_⟩
    have := h _ (List.mem_map_of_mem hm)
    rwa [readAs_number] at this
  · rintro ⟨k', rfl, h⟩
    refine .object fun w hw => ?_
    obtain ⟨m, hm, rfl⟩ := List.mem_map.1 hw
    rw [readAs_number]
    exact h m hm

theorem within_string (k : Nat) (s : String) : (Json.string s).Within k := .string

theorem within_bool (k : Nat) (b : Bool) : (Json.bool b).Within k := .bool

theorem within_null (k : Nat) : Json.null.Within k := .null

theorem within_number_iff {n : Number} : (Json.number n).Within k ↔ n.Fits :=
  ⟨fun | .number h => h, .number⟩

/-- The integers of a value within limits have 64 bits. -/
theorem Within.fits {k : Nat} {j : Json} {n : Number} (h : j.Within k) (hn : n ∈ j.numbers) :
    n.Fits := by
  cases j with
  | number m =>
    rw [numbers, List.mem_singleton] at hn
    exact hn ▸ within_number_iff.1 h
  | array js =>
    obtain ⟨k, rfl, hjs⟩ := within_array_iff.1 h
    obtain ⟨j, hj, hn⟩ := mem_numbersItems_iff.1 hn
    exact (hjs j hj).fits hn
  | object ms =>
    obtain ⟨k, rfl, hms⟩ := within_object_iff.1 h
    obtain ⟨m, hm, hn⟩ := mem_numbersMembers_iff.1 hn
    exact (hms m hm).fits hn
  | _ => cases hn
termination_by k

end ContractModel.Json

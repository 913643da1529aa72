import ContractModel.Proofs.Link.SlotNumbers
import Mathlib.Data.List.TakeWhile

/-! # Slots counted by value

The slot of a variable is what the entries of a layout, or the lines behind the comments of an
assembly listing, agree on. Texts are compared before they are read as numbers, so the numbers are
counted correctly exactly if a number that all of them denote is written in one way.
-/

namespace ContractModel.Slot

/-- One or more characters of a class. -/
def IsRun (p : Char → Bool) (cs : List Char) : Prop := cs ≠ [] ∧ ∀ c ∈ cs, p c

/-- A source comment on a variable: the file, the start and the length of a piece of source and,
behind blanks and a space, the name. -/
inductive IsComment (name : List Char) : List Char → Prop
  | source {file start length blanks : List Char} (hfile : IsRun isFileChar file)
      (hstart : IsRun Char.isDigit start) (hlength : IsRun Char.isDigit length)
      (hblanks : ∀ c ∈ blanks, Text.isBlank c) :
      IsComment name ("/* \"".toList ++ (file ++ ("\":".toList ++ (start ++ ([':'] ++ (length ++
        (blanks ++ ' ' :: (name ++ [' ', '*', '/']))))))))

section Comments

variable {name cs ds rest : List Char} {p : Char → Bool}

theorem skipSome_append (hds : IsRun p ds) (hrest : rest.head?.all fun c => !p c) :
    skipSome p (ds ++ rest) = some rest := by
  obtain ⟨hne, hds⟩ := hds
  obtain ⟨c, ds, rfl⟩ := List.exists_cons_of_ne_nil hne
  have hstop : rest.dropWhile p = rest := by
    cases rest with
    | nil => rfl
    | cons c rest => exact List.dropWhile_cons_of_neg (by simpa using hrest)
  rw [List.cons_append, skipSome, if_pos (hds c List.mem_cons_self), ← List.cons_append,
    List.dropWhile_append_of_pos hds, hstop]

theorem exists_run_of_skipSome (h : skipSome p cs = some rest) :
    ∃ ds, IsRun p ds ∧ cs = ds ++ rest := by
  cases cs with
  | nil => cases h
  | cons c cs =>
    rw [skipSome] at h
    split at h
    · next hc =>
      obtain rfl := Option.some.inj h
      refine ⟨(c :: cs).takeWhile p, ⟨?_, fun d hd => List.mem_takeWhile_imp hd⟩,
        List.takeWhile_append_dropWhile.symm⟩
      rw [List.takeWhile_cons_of_pos hc]
      exact List.cons_ne_nil _ _
    · cases h

theorem commentEnds_iff : commentEnds name cs ↔ ∃ blanks, (∀ c ∈ blanks, Text.isBlank c) ∧
    blanks ++ ' ' :: (name ++ [' ', '*', '/']) <+: cs := by
  induction cs with
  | nil => simp [commentEnds]
  | cons c cs ih =>
    rw [commentEnds, Bool.or_eq_true, Bool.and_eq_true, Bool.and_eq_true, decide_eq_true_iff,
      List.isPrefixOf_iff_prefix, ih]
    constructor
    · rintro (⟨rfl, hend⟩ | ⟨hc, blanks, hblanks, hend⟩)
      · exact ⟨[], by simp, List.cons_prefix_cons.2 ⟨rfl, hend⟩⟩
      · exact ⟨c :: blanks, List.forall_mem_cons.2 ⟨hc, hblanks⟩,
          List.cons_prefix_cons.2 ⟨rfl, hend⟩⟩
    · rintro ⟨- | ⟨b, blanks⟩, hblanks, hend⟩
      · obtain ⟨rfl, hname⟩ := List.cons_prefix_cons.1 hend
        exact .inl ⟨rfl, hname⟩
      · obtain ⟨rfl, hrest⟩ := List.cons_prefix_cons.1 hend
        obtain ⟨hb, hblanks⟩ := List.forall_mem_cons.1 hblanks
        exact .inr ⟨hb, blanks, hblanks, hrest⟩

theorem isPrefixOf?_append (cs ds : List Char) : List.isPrefixOf? cs (cs ++ ds) = some ds :=
  List.isPrefixOf?_eq_some_iff_append_eq.2 rfl

theorem not_isDigit_of_isBlank {c : Char} (h : Text.isBlank c) : c.isDigit = false := by
  rw [Bool.eq_false_iff, Ne, Text.isDigit_iff_toNat]
  simp only [Text.isBlank, Bool.or_eq_true, Bool.and_eq_true, decide_eq_true_iff, beq_iff_eq] at h
  omega

theorem commentHere_iff :
    commentHere name cs ↔ ∃ comment, IsComment name comment ∧ comment <+: cs := by
  constructor
  · intro h
    simp only [commentHere, Option.getD_eq_iff, Option.bind_eq_bind, Option.bind_eq_some_iff,
      List.isPrefixOf?_eq_some_iff_append_eq, Bool.false_eq_true, and_false, or_false] at h
    obtain ⟨_, rfl, _, hread, _, rfl, _, hread', _, rfl, _, hread'', hend⟩ := h
    obtain ⟨file, hfile, rfl⟩ := exists_run_of_skipSome hread
    obtain ⟨start, hstart, rfl⟩ := exists_run_of_skipSome hread'
    obtain ⟨length, hlength, rfl⟩ := exists_run_of_skipSome hread''
    obtain ⟨blanks, hblanks, hend⟩ := commentEnds_iff.1 (Option.some.inj hend)
    refine ⟨_, .source hfile hstart hlength hblanks, ?_⟩
    simp only [List.prefix_append_right_inj]
    exact hend
  · rintro ⟨_, @⟨file, start, length, blanks, hfile, hstart, hlength, hblanks⟩, rest, rfl⟩
    have hend : commentEnds name (blanks ++ (' ' :: (name ++ [' ', '*', '/']) ++ rest)) :=
      commentEnds_iff.2 ⟨blanks, hblanks, rest, List.append_assoc _ _ _⟩
    -- a run ends where a character of another class stands
    have hbehind : (blanks ++ (' ' :: (name ++ [' ', '*', '/']) ++ rest)).head?.all
        fun c => !c.isDigit := by
      cases blanks with
      | nil => rfl
      | cons b blanks => simp [not_isDigit_of_isBlank (hblanks b List.mem_cons_self)]
    simp only [commentHere, List.append_assoc, isPrefixOf?_append, Option.bind_eq_bind,
      Option.bind_some]
    rw [skipSome_append hfile rfl]
    simp only [isPrefixOf?_append, Option.bind_some]
    rw [skipSome_append hstart rfl]
    simp only [isPrefixOf?_append, Option.bind_some]
    rw [skipSome_append hlength hbehind, Option.bind_some, hend]
    rfl

theorem hasComment_iff :
    hasComment name cs ↔ ∃ comment, IsComment name comment ∧ comment <:+: cs := by
  induction cs with
  | nil =>
    simp only [hasComment, Bool.false_eq_true, List.infix_nil, false_iff, not_exists, not_and]
    rintro _ hcomment rfl
    cases hcomment
  | cons c cs ih =>
    simp only [hasComment, Bool.or_eq_true, commentHere_iff, ih, List.infix_cons_iff, and_or_left,
      exists_or]

end Comments

section Listing

variable {contract name listing s : String} {lines : List String}

/-- A line of the listing is the text in hexadecimal and stands right behind one with a source
comment on the variable. -/
def IsInListing (name listing s : String) : Prop :=
  ∃ line next comment, [line, next] <:+: Text.lines listing ∧ IsComment name.toList comment ∧
    comment <:+: line.toList ∧ s = Text.trim next ∧
      ∃ x ds, (x = 'x' ∨ x = 'X') ∧ s.toList = '0' :: x :: ds

/-- The lines in hexadecimal behind the comments on the variable. -/
def slotsInListing (name listing : String) : List String :=
  (linesBehind name.toList (Text.lines listing)).filter fun line => (hexDigits? line).isSome

theorem pair_infix_cons_iff {a b x y : String} : [a, b] <:+: x :: y :: lines ↔
    (a = x ∧ b = y) ∨ [a, b] <:+: y :: lines := by
  rw [List.infix_cons_iff, List.cons_prefix_cons, List.cons_prefix_cons]
  simp

theorem mem_linesBehind_iff {name : List Char} : s ∈ linesBehind name lines ↔
    ∃ line next, [line, next] <:+: lines ∧ hasComment name line.toList ∧ s = Text.trim next := by
  fun_induction linesBehind name lines with
  | case1 line next rest more hcomment ih =>
    simp only [List.mem_cons, more, ih, pair_infix_cons_iff, or_and_right, exists_or]
    simp [hcomment]
  | case2 line next rest more hcomment ih =>
    simp only [more, ih, pair_infix_cons_iff, or_and_right, exists_or]
    simp [hcomment]
  | case3 lines hshort =>
    simp only [List.not_mem_nil, false_iff, not_exists, not_and]
    intro line next hlines
    have hlength := hlines.length_le
    rcases lines with - | ⟨a, - | ⟨b, rest⟩⟩
    · simp at hlength
    · simp at hlength
    · exact (hshort a b rest rfl).elim

theorem mem_slotsInListing_iff : s ∈ slotsInListing name listing ↔ IsInListing name listing s := by
  simp only [slotsInListing, IsInListing, List.mem_filter, mem_linesBehind_iff, hasComment_iff,
    Option.isSome_iff_exists, hexDigits?_eq_some_iff]
  constructor
  · rintro ⟨⟨line, next, hlines, ⟨comment, hcomment, hinfix⟩, heq⟩, ds, x, hx, hs⟩
    exact ⟨line, next, comment, hlines, hcomment, hinfix, heq, x, ds, hx, hs⟩
  · rintro ⟨line, next, comment, hlines, hcomment, hinfix, heq, x, ds, hx, hs⟩
    exact ⟨⟨line, next, hlines, ⟨comment, hcomment, hinfix⟩, heq⟩, ds, x, hx, hs⟩

theorem ofAssembly_eq : ofAssembly contract name listing = readOnly normalize
    (.noVariableInAssembly name contract) (fun slot => .assemblySlot slot name contract)
    (.severalAssemblySlots name contract) (slotsInListing name listing) := by
  rw [ofAssembly, readOnly, slotsInListing]
  generalize SortedMap.distinct ((linesBehind _ _).filter _) = slots
  rcases slots with - | ⟨slot, - | ⟨other, slots⟩⟩
  · rfl
  · dsimp only
    cases normalize slot <;> rfl
  · rfl

end Listing

section Counting

variable {α : Type} {isMatch : String → Prop} {answer : String → α} {read : String → Option α}
  {missing : InputFault} {unread : String → Inconsistency}
  {several : List String → Inconsistency} {texts : List String} {n : Nat} {s t : String}

/-- There are matches, and all denote the number. -/
def OnlyNumber (isMatch : String → Prop) (n : Nat) : Prop :=
  (∃ s, isMatch s) ∧ ∀ s, isMatch s → Denotes s n

/-- What becomes of the matches depends on the numbers that they denote: of one number it is the
normal form, of none an error of the user and of several an inconsistency. -/
structure CountsByValue (isMatch : String → Prop) (answer : String → α) (result : Except Error α) :
    Prop where
  found : ∀ a, result = .ok a ↔ ∃ n, OnlyNumber isMatch n ∧ a = answer (Text.hexadecimal n)
  missing : (∃ fault, result = .error (.input fault)) ↔ ¬ ∃ s, isMatch s
  conflicting : (∃ fault, result = .error (.inconsistency fault)) ↔
    ∃ s t m n, isMatch s ∧ isMatch t ∧ Denotes s m ∧ Denotes t n ∧ m ≠ n

/-- A number that all matches denote is written in one way. -/
def SpelledAlike (isMatch : String → Prop) : Prop :=
  (∃ n, OnlyNumber isMatch n) → ∀ s t, isMatch s → isMatch t → s = t

theorem OnlyNumber.eq (h : OnlyNumber isMatch n) (hs : isMatch s) {m : Nat} (hm : Denotes s m) :
    n = m := (h.2 s hs).unique hm

theorem countsByValue_of_none {fault : InputFault} (h : ¬ ∃ s, isMatch s) :
    CountsByValue isMatch answer (.error (.input fault)) where
  found _ := ⟨nofun, fun ⟨_, hn, _⟩ => absurd hn.1 h⟩
  missing := ⟨fun _ => h, fun _ => ⟨fault, rfl⟩⟩
  conflicting := ⟨nofun, fun ⟨s, _, _, _, hs, _⟩ => absurd ⟨s, hs⟩ h⟩

theorem countsByValue_of_only (h : OnlyNumber isMatch n) :
    CountsByValue isMatch answer (.ok (answer (Text.hexadecimal n))) where
  found a := by
    constructor
    · rintro ⟨⟩
      exact ⟨n, h, rfl⟩
    · rintro ⟨n', hn', rfl⟩
      obtain ⟨s, hs⟩ := h.1
      rw [h.eq hs (hn'.2 s hs)]
  missing := ⟨nofun, fun hnone => absurd h.1 hnone⟩
  conflicting := by
    refine ⟨nofun, ?_⟩
    rintro ⟨s, t, m, n', hs, ht, hm, hn', hne⟩
    exact absurd ((h.eq hs hm).symm.trans (h.eq ht hn')) hne

theorem countsByValue_inconsistency_iff {fault : Inconsistency} (hs : ∃ s, isMatch s)
    (hnumbers : ∀ s, isMatch s → ∃ n, Denotes s n) :
    CountsByValue isMatch answer (.error (.inconsistency fault)) ↔ ¬ ∃ n, OnlyNumber isMatch n := by
  constructor
  · rintro h ⟨n, hn⟩
    obtain ⟨s, t, m, m', hs, ht, hm, hm', hne⟩ := h.conflicting.1 ⟨fault, rfl⟩
    exact hne ((hn.eq hs hm).symm.trans (hn.eq ht hm'))
  · intro hmany
    refine ⟨fun _ => ⟨nofun, fun ⟨n, hn, _⟩ => absurd ⟨n, hn⟩ hmany⟩,
      ⟨nofun, fun hnone => absurd hs hnone⟩, ⟨fun _ => ?_, fun _ => ⟨fault, rfl⟩⟩⟩
    by_contra hsame
    obtain ⟨s, hs⟩ := hs
    obtain ⟨m, hm⟩ := hnumbers s hs
    refine hmany ⟨m, ⟨s, hs⟩, fun t ht => ?_⟩
    obtain ⟨n, hn⟩ := hnumbers t ht
    by_cases hne : m = n
    · rwa [hne]
    · exact absurd ⟨s, t, m, n, hs, ht, hm, hn, hne⟩ hsame

theorem countsByValue_readOnly_iff
    (hread : ∀ s ∈ texts, ∃ n, Denotes s n ∧ read s = some (answer (Text.hexadecimal n))) :
    CountsByValue (· ∈ texts) answer (readOnly read missing unread several texts) ↔
      SpelledAlike (· ∈ texts) := by
  have hnumbers : ∀ s ∈ texts, ∃ n, Denotes s n := fun s hs =>
    (hread s hs).imp fun _ hn => hn.1
  by_cases hsome : ∃ s, s ∈ texts
  · obtain ⟨s, hs⟩ := hsome
    by_cases hsame : ∀ t ∈ texts, t = s
    · obtain ⟨n, hn, hread⟩ := hread s hs
      have honly : OnlyNumber (· ∈ texts) n := ⟨⟨s, hs⟩, fun t ht => hsame t ht ▸ hn⟩
      rw [readOnly_of_forall_eq hs hsame hread]
      exact iff_of_true (countsByValue_of_only honly)
        fun _ t t' ht ht' => (hsame t ht).trans (hsame t' ht').symm
    · obtain ⟨t, ht, hne⟩ : ∃ t ∈ texts, t ≠ s := by simpa using hsame
      obtain ⟨fault, hfault⟩ := readOnly_of_ne ht hs hne
      rw [hfault, countsByValue_inconsistency_iff ⟨s, hs⟩ hnumbers]
      exact ⟨fun hmany hn => absurd hn hmany, fun halike hn => hne (halike hn t s ht hs)⟩
  · obtain rfl : texts = [] :=
      List.eq_nil_iff_forall_not_mem.2 fun s hs => hsome ⟨s, hs⟩
    rw [readOnly_nil]
    exact iff_of_true (countsByValue_of_none hsome) fun ⟨_, hn⟩ => absurd hn.1 hsome

end Counting

/-- The slots of a variable are counted by value exactly if a number that all of them denote is
written in one way, in a layout as in a listing. -/
theorem slots_countedByValue_iff (contract name : String) :
    (∀ layout storage, layout.get? "storage" = some (.array storage) →
      (∀ s, IsListed name storage s → ∃ n, Spells 10 s.toList n) →
        (CountsByValue (IsListed name storage) some (ofLayout contract name layout) ↔
          SpelledAlike (IsListed name storage))) ∧
    ∀ listing, (∀ s, IsInListing name listing s → ∃ n, Spells 16 s.toList n) →
      (CountsByValue (IsInListing name listing) id (ofAssembly contract name listing) ↔
        SpelledAlike (IsInListing name listing)) := by
  constructor
  · intro layout storage hstorage hnumbers
    have hmatch : IsListed name storage = (· ∈ listedSlots name storage) :=
      funext fun s => propext mem_listedSlots_iff.symm
    rw [hmatch] at hnumbers ⊢
    rw [ofLayout_eq hstorage]
    refine countsByValue_readOnly_iff fun s hs => ?_
    obtain ⟨n, hn⟩ := hnumbers s hs
    refine ⟨n, ⟨10, hn⟩, ?_⟩
    rw [decimalToHex_of_spells hn, Option.map_some]
  · intro listing hnumbers
    have hmatch : IsInListing name listing = (· ∈ slotsInListing name listing) :=
      funext fun s => propext mem_slotsInListing_iff.symm
    rw [hmatch] at hnumbers ⊢
    rw [ofAssembly_eq]
    refine countsByValue_readOnly_iff fun s hs => ?_
    obtain ⟨n, hn⟩ := hnumbers s hs
    exact ⟨n, ⟨16, hn⟩, normalize_of_spells hn⟩

/-- Entries of a layout for a variable, one with each slot. -/
def entriesOf (name : String) (slots : List String) : List Json :=
  slots.map fun slot => .object [("label", .string name), ("slot", .string slot)]

def layoutOf (storage : List Json) : Json := .object [("storage", .array storage)]

/-- A listing with a comment on the variable in front of each of the lines. -/
def listingOf (name : String) (lines : List String) : String :=
  String.join (lines.map fun line =>
    "/* \"Vault.sol\":14:19  " ++ name ++ " */\n  " ++ line ++ "\n  sload\n")

theorem isListed_entriesOf_iff (slots : List String) {s : String}
    (h : listedSlots "owner" (entriesOf "owner" slots) = slots) :
    IsListed "owner" (entriesOf "owner" slots) s ↔ s ∈ slots := by
  rw [← mem_listedSlots_iff, h]

theorem isInListing_listingOf_iff (lines : List String) {s : String}
    (h : slotsInListing "owner" (listingOf "owner" lines) = lines) :
    IsInListing "owner" (listingOf "owner" lines) s ↔ s ∈ lines := by
  rw [← mem_slotsInListing_iff, h]

/-- Slots that are listed twice, one with a zero in front and one in capitals. -/
theorem slots_countedByValue_repeated :
    CountsByValue (IsListed "owner" (entriesOf "owner" ["017", "017"])) some
        (ofLayout "Vault" "owner" (layoutOf (entriesOf "owner" ["017", "017"]))) ∧
      CountsByValue (IsInListing "owner" (listingOf "owner" ["0X0A", "0X0A"])) id
        (ofAssembly "Vault" "owner" (listingOf "owner" ["0X0A", "0X0A"])) := by
  have hlisted : ∀ s, IsListed "owner" (entriesOf "owner" ["017", "017"]) s → s = "017" := by
    intro s hs
    rw [isListed_entriesOf_iff _ (by decide +kernel)] at hs
    simpa using hs
  have hlines : ∀ s, IsInListing "owner" (listingOf "owner" ["0X0A", "0X0A"]) s → s = "0X0A" := by
    intro s hs
    rw [isInListing_listingOf_iff _ (by decide +kernel)] at hs
    simpa using hs
  obtain ⟨hlayout, hlisting⟩ := slots_countedByValue_iff "Vault" "owner"
  constructor
  · refine (hlayout _ _ rfl fun s hs => ?_).2 fun _ s t hs ht =>
      (hlisted s hs).trans (hlisted t ht).symm
    rw [hlisted s hs]
    exact ⟨17, .decimal (by decide +kernel)⟩
  · refine (hlisting _ fun s hs => ?_).2 fun _ s t hs ht =>
      (hlines s hs).trans (hlines t ht).symm
    rw [hlines s hs]
    exact ⟨10, .hexadecimal (.inr rfl) (by decide +kernel)⟩

/-- Slot one, also written with a zero in front. -/
theorem not_slots_countedByValue_zeros :
    ¬ CountsByValue (IsListed "owner" (entriesOf "owner" ["1", "01"])) some
        (ofLayout "Vault" "owner" (layoutOf (entriesOf "owner" ["1", "01"]))) ∧
      ¬ CountsByValue (IsInListing "owner" (listingOf "owner" ["0x01", "0x1"])) id
        (ofAssembly "Vault" "owner" (listingOf "owner" ["0x01", "0x1"])) := by
  constructor
  · intro h
    have honly : OnlyNumber (IsListed "owner" (entriesOf "owner" ["1", "01"])) 1 := by
      simp only [OnlyNumber, isListed_entriesOf_iff ["1", "01"] (by decide +kernel)]
      refine ⟨⟨"1", by simp⟩, fun s hs => ⟨10, .decimal ?_⟩⟩
      have hone : s = "1" ∨ s = "01" := by simpa using hs
      rcases hone with rfl | rfl <;> decide +kernel
    have hok := (h.found _).2 ⟨1, honly, rfl⟩
    rw [← Run.toOption_eq_some_iff] at hok
    revert hok
    decide +kernel
  · intro h
    have honly : OnlyNumber (IsInListing "owner" (listingOf "owner" ["0x01", "0x1"])) 1 := by
      simp only [OnlyNumber, isInListing_listingOf_iff ["0x01", "0x1"] (by decide +kernel)]
      refine ⟨⟨"0x1", by simp⟩, fun s hs => ⟨16, ?_⟩⟩
      have hone : s = "0x01" ∨ s = "0x1" := by simpa using hs
      rcases hone with rfl | rfl <;> exact .hexadecimal (.inl rfl) (by decide +kernel)
    have hok := (h.found _).2 ⟨1, honly, rfl⟩
    rw [← Run.toOption_eq_some_iff] at hok
    revert hok
    decide +kernel

end ContractModel.Slot

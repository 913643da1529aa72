import Mathlib.Data.List.TakeWhile
import ContractModel.Proofs.Json.FloatTexts
import ContractModel.Proofs.Json.Limits

/-! # Printed values

A value within limits is printed, compact or indented, as a text that is read as the value again, up
to its binary64 numbers: each of them is read as what its own text is read as.
-/

namespace ContractModel.Json

/-- What the text of a number is read as. -/
def Number.reread (n : Number) : Written :=
  (Written.parse (String.ofList n.chars)).getD .unreadable

/-- The blanks of a text: in front of an element at a depth, and behind a colon. -/
structure Layout where
  lineBreak : Nat → List Char
  gap : List Char
  isSpace_lineBreak (depth : Nat) : ∀ c ∈ lineBreak depth, isSpace c
  isSpace_gap : ∀ c ∈ gap, isSpace c

namespace Layout

variable (L : Layout)

mutual

def chars (depth : Nat) : Json → List Char
  | .array (j :: js) => '[' :: (L.lineBreak (depth + 1) ++ (chars (depth + 1) j ++ items depth js))
  | .object ((name, j) :: ms) =>
    '\x7b' :: (L.lineBreak (depth + 1) ++
      (quoted name ++ (':' :: (L.gap ++ (chars (depth + 1) j ++ members depth ms)))))
  | j => compactChars j

def items (depth : Nat) : List Json → List Char
  | [] => L.lineBreak depth ++ [']']
  | j :: js => ',' :: (L.lineBreak (depth + 1) ++ (chars (depth + 1) j ++ items depth js))

def members (depth : Nat) : List (String × Json) → List Char
  | [] => L.lineBreak depth ++ ['\x7d']
  | (name, j) :: ms =>
    ',' :: (L.lineBreak (depth + 1) ++
      (quoted name ++ (':' :: (L.gap ++ (chars (depth + 1) j ++ members depth ms)))))

end

def compact : Layout := ⟨fun _ => [], [], nofun, nofun⟩

def indented : Layout where
  lineBreak := Json.lineBreak
  gap := [' ']
  isSpace_lineBreak depth c hc := by
    rcases List.mem_cons.1 hc with rfl | hc
    · rfl
    · rw [List.eq_of_mem_replicate hc]
      rfl
  isSpace_gap c hc := by
    rw [List.mem_singleton.1 hc]
    rfl

mutual

theorem chars_compact (depth : Nat) (j : Json) : compact.chars depth j = compactChars j := by
  match j with
  | .null | .bool _ | .number _ | .string _ | .array [] | .object [] => rfl
  | .array (j :: js) =>
    simp [chars, compactChars, compact, ← chars_compact (depth + 1) j, ← items_compact depth js]
  | .object ((name, j) :: ms) =>
    simp [chars, compactChars, compact, ← chars_compact (depth + 1) j, ← members_compact depth ms]

theorem items_compact (depth : Nat) (js : List Json) :
    compact.items depth js = compactItems js := by
  match js with
  | [] => rfl
  | j :: js =>
    simp [items, compactItems, compact, ← chars_compact (depth + 1) j, ← items_compact depth js]

theorem members_compact (depth : Nat) (ms : List (String × Json)) :
    compact.members depth ms = compactMembers ms := by
  match ms with
  | [] => rfl
  | (name, j) :: ms =>
    simp [members, compactMembers, compact, ← chars_compact (depth + 1) j,
      ← members_compact depth ms]

end

mutual

theorem chars_indented (depth : Nat) (j : Json) :
    indented.chars depth j = indentedChars depth j := by
  match j with
  | .null | .bool _ | .number _ | .string _ | .array [] | .object [] => rfl
  | .array (j :: js) =>
    simp [chars, indentedChars, indented, ← chars_indented (depth + 1) j, ← items_indented depth js]
  | .object ((name, j) :: ms) =>
    simp [chars, indentedChars, indented, ← chars_indented (depth + 1) j,
      ← members_indented depth ms]

theorem items_indented (depth : Nat) (js : List Json) :
    indented.items depth js = indentedItems depth js := by
  match js with
  | [] => rfl
  | j :: js =>
    simp [items, indentedItems, indented, ← chars_indented (depth + 1) j, ← items_indented depth js]

theorem members_indented (depth : Nat) (ms : List (String × Json)) :
    indented.members depth ms = indentedMembers depth ms := by
  match ms with
  | [] => rfl
  | (name, j) :: ms =>
    simp [members, indentedMembers, indented, ← chars_indented (depth + 1) j,
      ← members_indented depth ms]

end

end Layout

/-! ## Tokens -/

theorem skipSpace_append {bs : List Char} (h : ∀ c ∈ bs, isSpace c) (cs : List Char) :
    skipSpace (bs ++ cs) = skipSpace cs :=
  List.dropWhile_append_of_pos h

theorem skipSpace_cons {c : Char} (h : ¬ isSpace c) (cs : List Char) :
    skipSpace (c :: cs) = c :: cs :=
  List.dropWhile_cons_of_neg h

namespace Parser

variable {cs rest : List Char} {depth fuel : Nat}

theorem value_append {bs : List Char} (h : ∀ c ∈ bs, isSpace c) :
    value depth fuel (bs ++ cs) = value depth fuel cs := by
  cases fuel with
  | zero => rfl
  | succ fuel => rw [value, value, skipSpace_append h]

theorem items_append {bs : List Char} (h : ∀ c ∈ bs, isSpace c) :
    items depth fuel (bs ++ cs) = items depth fuel cs := by
  cases fuel with
  | zero => rfl
  | succ fuel => rw [items, items, value_append h]

theorem members_append {bs : List Char} (h : ∀ c ∈ bs, isSpace c) :
    members depth fuel (bs ++ cs) = members depth fuel cs := by
  cases fuel with
  | zero => rfl
  | succ fuel => rw [members, members, skipSpace_append h]

/-- The blanks in front of a text. -/
theorem exists_blanks (cs : List Char) : ∃ bs, (∀ c ∈ bs, isSpace c) ∧ cs = bs ++ skipSpace cs :=
  ⟨cs.takeWhile isSpace, fun _ => List.mem_takeWhile_imp, List.takeWhile_append_dropWhile.symm⟩

theorem items_skipSpace : items depth fuel (skipSpace cs) = items depth fuel cs := by
  obtain ⟨bs, hbs, hcs⟩ := exists_blanks cs
  exact (items_append hbs).symm.trans (by rw [← hcs])

theorem members_skipSpace : members depth fuel (skipSpace cs) = members depth fuel cs := by
  obtain ⟨bs, hbs, hcs⟩ := exists_blanks cs
  exact (members_append hbs).symm.trans (by rw [← hcs])

/-! ### Strings -/

/-- A control character is read from its code unit. -/
theorem stringRest_control (r : StringReading) (hr : r.waiting = none) {c : Char}
    (hc : c.toNat < 32) :
    stringRest r ('\\' :: 'u' :: Text.padded 4 16 c.toNat ++ cs) = stringRest (r.addChar c) cs := by
  have hlength : (Text.padded 4 16 c.toNat).length = 4 := by
    have hfits : c.toNat < Nat.pow 16 4 := Nat.lt_of_lt_of_le hc (by decide)
    have h := Text.length_hexadecimalPadded (by decide) hfits
    rwa [Text.hexadecimalPadded, String.length_ofList] at h
  obtain ⟨d₁, d₂, d₃, d₄, hdigits⟩ := List.length_eq_four.1 hlength
  have hunit : codeUnit d₁ d₂ d₃ d₄ = some c.toNat := by
    have hvalue := Text.readDigits_padded (by decide : 2 ≤ 16) (by decide) 4 c.toNat
    rw [hdigits] at hvalue
    exact hvalue
  have hadd : r.addUnit c.toNat = r.addChar c := by
    rw [StringReading.addUnit, hr]
    dsimp only
    rw [if_neg (by omega), if_neg (by omega), Char.ofNat_toNat]
  simp only [hdigits, List.cons_append, List.nil_append, stringRest, hunit, hadd]

theorem stringRest_escape (r : StringReading) (hr : r.waiting = none) (c : Char) :
    stringRest r (escapeChar c ++ cs) = stringRest (r.addChar c) cs := by
  unfold escapeChar
  split
  · rfl
  · rfl
  · rfl
  · rfl
  · rfl
  · rfl
  · rfl
  · next hquote hslash _ _ _ _ _ =>
    split
    · next hc => exact stringRest_control r hr hc
    · next hc =>
      rw [List.singleton_append]
      conv => lhs; unfold stringRest
      split
      · next heq => cases heq
      · next heq => exact absurd (List.cons.inj heq).1 hquote
      · next heq => exact absurd (List.cons.inj heq).1 hslash
      · next heq => exact absurd (List.cons.inj heq).1 hslash
      · next heq =>
        cases heq
        rw [if_neg hc]

theorem stringRest_quoted (s : String) :
    stringRest .start (s.toList.flatMap escapeChar ++ '"' :: rest) = some (some s, rest) := by
  have hread : ∀ cs acc : List Char, stringRest ⟨some acc, none⟩
      (cs.flatMap escapeChar ++ '"' :: rest) =
        some (some (String.ofList (acc.reverse ++ cs)), rest) := by
    intro cs
    induction cs with
    | nil => simp [stringRest, StringReading.text?]
    | cons c cs ih =>
      intro acc
      rw [List.flatMap_cons, List.append_assoc, stringRest_escape _ rfl]
      refine (ih (c :: acc)).trans ?_
      simp
  simpa [StringReading.start] using hread s.toList []

/-! ### Numbers -/

theorem value_number {c : Char} (hc : c.isDigit ∨ c = '-') :
    value depth (fuel + 1) (c :: cs) = number (c :: cs) := by
  have hblank : ¬ isSpace c := by
    rintro hspace
    simp only [isSpace, Bool.or_eq_true, decide_eq_true_eq] at hspace
    rcases hc with hc | rfl
    · rcases hspace with ((rfl | rfl) | rfl) | rfl <;> exact absurd hc (by decide)
    · exact absurd hspace (by decide)
  have hne {c' : Char} (hc' : ¬ (c'.isDigit ∨ c' = '-')) : c ≠ c' := fun heq => hc' (heq ▸ hc)
  rw [value, skipSpace_cons hblank]
  split
  · next heq => cases heq
  · next heq => exact absurd (List.cons.inj heq).1 (hne (by decide))
  · next heq => exact absurd (List.cons.inj heq).1 (hne (by decide))
  · next heq => exact absurd (List.cons.inj heq).1 (hne (by decide))
  · next heq => exact absurd (List.cons.inj heq).1 (hne (by decide))
  · next heq => exact absurd (List.cons.inj heq).1 (hne (by decide))
  · next heq => exact absurd (List.cons.inj heq).1 (hne (by decide))
  · rfl

theorem exists_head_of_number {p : Written × List Char} (h : number cs = some p) :
    ∃ c cs', cs = c :: cs' ∧ (c.isDigit ∨ c = '-') := by
  cases cs with
  | nil => cases h
  | cons c cs =>
    refine ⟨c, cs, rfl, ?_⟩
    by_contra hc
    rw [not_or] at hc
    have hsign : signPart (c :: cs) = (false, c :: cs) := by
      unfold signPart
      split
      · next heq => exact absurd (List.cons.inj heq).1 hc.2
      · rfl
    have hrun : (digitRun (c :: cs)).1 = [] := by
      rw [digitRun, List.takeWhile_cons_of_neg hc.1, List.map_nil]
    rw [number_eq, hsign, hrun] at h
    cases h

theorem value_of_number {w : Written} (h : ∀ rest, Ends rest → number (cs ++ rest) = some (w, rest))
    (hrest : Ends rest) : value depth (fuel + 1) (cs ++ rest) = some (w, rest) := by
  obtain ⟨c, cs', hcs, hc⟩ := exists_head_of_number (h rest hrest)
  rw [hcs, value_number hc, ← hcs]
  exact h rest hrest

/-- What is printed for a number is read, whatever follows it. -/
theorem exists_value_number {n : Number} (hn : n.Fits) : ∃ w, ∀ depth fuel rest, Ends rest →
    value depth (fuel + 1) (n.chars ++ rest) = some (w, rest) := by
  cases n with
  | int i =>
    exact ⟨.number (.int i), fun depth fuel rest hrest =>
      value_of_number (fun _ => number_signedDecimal hn) hrest⟩
  | float bits =>
    cases htext : Binary64.text bits with
    | none =>
      refine ⟨.null, fun depth fuel rest _ => ?_⟩
      rw [Number.chars, htext]
      rfl
    | some s =>
      obtain ⟨w, hw⟩ := Binary64.exists_number_of_text htext
      refine ⟨w, fun depth fuel rest hrest => ?_⟩
      rw [Number.chars, htext]
      exact value_of_number hw hrest

theorem reread_of_value {n : Number} {w : Written}
    (h : ∀ fuel, value 1 (fuel + 1) n.chars = some (w, [])) : n.reread = w := by
  rw [Number.reread, Written.parse, String.toList_ofList, h]
  rfl

theorem ends_nil : Ends [] := fun _ h => nomatch h

theorem ends_append {bs : List Char} (h : ∀ c ∈ bs, isSpace c) (hrest : Ends rest) :
    Ends (bs ++ rest) := by
  cases bs with
  | nil => exact hrest
  | cons c bs =>
    rintro _ ⟨⟩
    have hc := h c List.mem_cons_self
    simp only [isSpace, Bool.or_eq_true, decide_eq_true_eq] at hc
    rcases hc with ((rfl | rfl) | rfl) | rfl <;> decide

theorem ends_cons {c : Char} (h : ¬ c.isDigit ∧ c ≠ '.' ∧ c ≠ 'e' ∧ c ≠ 'E') :
    Ends (c :: rest) := by
  rintro _ ⟨⟩
  exact h

/-- What is printed for a number is read as its own text is. -/
theorem value_chars_number {n : Number} (hn : n.Fits) (depth fuel : Nat) (hrest : Ends rest) :
    value depth (fuel + 1) (n.chars ++ rest) = some (n.reread, rest) := by
  obtain ⟨w, hw⟩ := exists_value_number hn
  rw [reread_of_value fun fuel => by simpa using hw 1 fuel [] ends_nil]
  exact hw depth fuel rest hrest

theorem reread_int {i : Int} (hi : (Number.int i).Fits) :
    (Number.int i).reread = .number (.int i) := by
  refine reread_of_value fun fuel => ?_
  have h : value 1 (fuel + 1) ((Number.int i).chars ++ []) = some (.number (.int i), []) :=
    value_of_number (fun _ => number_signedDecimal hi) ends_nil
  rwa [List.append_nil] at h

theorem value_quoted (depth fuel : Nat) (s : String) (rest : List Char) :
    value depth (fuel + 1) (quoted s ++ rest) = some (.string s, rest) := by
  have hquote (cs : List Char) : value depth (fuel + 1) ('"' :: cs) =
      (stringRest .start cs).map fun p => (p.1.elim .unreadable .string, p.2) := by
    rw [value, skipSpace_cons (by decide)]
    rfl
  rw [quoted, List.append_assoc, List.cons_append, hquote, List.singleton_append,
    stringRest_quoted]
  rfl

/-! ### Arrays and objects -/

theorem nested_of_le {k : Nat} (h : depth + (k + 1) ≤ 128) (w : Written) : nested depth w = w :=
  if_pos (by unfold maxDepth; omega)

/-- The items behind one that was read. -/
def itemsBehind (depth fuel : Nat) (w : Written) (cs : List Char) :
    Option (List Written × List Char) :=
  match skipSpace cs with
  | ',' :: rest => (items depth fuel rest).map fun (ws, rest) => (w :: ws, rest)
  | ']' :: rest => some ([w], rest)
  | _ => none

theorem items_succ (depth fuel : Nat) (cs : List Char) : items depth (fuel + 1) cs =
    (value depth fuel cs).bind fun p => itemsBehind depth fuel p.1 p.2 := rfl

theorem itemsBehind_comma (w : Written) (cs : List Char) : itemsBehind depth fuel w (',' :: cs) =
    (items depth fuel cs).map fun p => (w :: p.1, p.2) := by
  rw [itemsBehind, skipSpace_cons (by decide)]
  rfl

theorem itemsBehind_end {bs : List Char} (h : ∀ c ∈ bs, isSpace c) (w : Written) :
    itemsBehind depth fuel w (bs ++ ']' :: rest) = some ([w], rest) := by
  rw [itemsBehind, skipSpace_append h, skipSpace_cons (by decide)]
  rfl

/-- The array behind its bracket. -/
def arrayBehind (depth fuel : Nat) (cs : List Char) : Option (Written × List Char) :=
  match skipSpace cs with
  | ']' :: rest => some (nested depth (.array []), rest)
  | rest => (items (depth + 1) fuel rest).map fun (ws, rest) => (nested depth (.array ws), rest)

theorem value_of_items {ws : List Written} (h : items (depth + 1) fuel cs = some (ws, rest)) :
    value depth (fuel + 1) ('[' :: cs) = some (nested depth (.array ws), rest) := by
  have hbracket : value depth (fuel + 1) ('[' :: cs) = arrayBehind depth fuel cs := by
    rw [value, skipSpace_cons (by decide)]
    rfl
  rw [← items_skipSpace] at h
  rw [hbracket, arrayBehind]
  split
  · next rest' heq =>
    -- no item begins with the end of the array
    rcases fuel with _ | _ | fuel
    · cases h
    · cases h
    · rw [items_succ, heq] at h
      cases h
  · rw [h]
    rfl

/-- The members behind one that was read. -/
def membersBehind (depth fuel : Nat) (m : Option String × Written) (cs : List Char) :
    Option (List (Option String × Written) × List Char) :=
  match skipSpace cs with
  | ',' :: rest => (members depth fuel rest).map fun (ms, rest) => (m :: ms, rest)
  | '\x7d' :: rest => some ([m], rest)
  | _ => none

/-- The members behind the name of one. -/
def membersBehindName (depth fuel : Nat) (name : Option String) (cs : List Char) :
    Option (List (Option String × Written) × List Char) :=
  match skipSpace cs with
  | ':' :: rest =>
    (value depth fuel rest).bind fun p => membersBehind depth fuel (name, p.1) p.2
  | _ => none

theorem members_succ (depth fuel : Nat) (name : String) (cs : List Char) :
    members depth (fuel + 1) (quoted name ++ (':' :: cs)) =
      (value depth fuel cs).bind fun p => membersBehind depth fuel (some name, p.1) p.2 := by
  have hquote (cs : List Char) : members depth (fuel + 1) ('"' :: cs) =
      (stringRest .start cs).bind fun p => membersBehindName depth fuel p.1 p.2 := by
    rw [members, skipSpace_cons (by decide)]
    rfl
  rw [quoted, List.append_assoc, List.cons_append, hquote, List.singleton_append,
    stringRest_quoted, Option.bind_some, membersBehindName, skipSpace_cons (by decide)]
  rfl

theorem membersBehind_comma (m : Option String × Written) (cs : List Char) :
    membersBehind depth fuel m (',' :: cs) =
      (members depth fuel cs).map fun p => (m :: p.1, p.2) := by
  rw [membersBehind, skipSpace_cons (by decide)]
  rfl

theorem membersBehind_end {bs : List Char} (h : ∀ c ∈ bs, isSpace c)
    (m : Option String × Written) :
    membersBehind depth fuel m (bs ++ '\x7d' :: rest) = some ([m], rest) := by
  rw [membersBehind, skipSpace_append h, skipSpace_cons (by decide)]
  rfl

/-- The object behind its brace. -/
def objectBehind (depth fuel : Nat) (cs : List Char) : Option (Written × List Char) :=
  match skipSpace cs with
  | '\x7d' :: rest => some (nested depth (.object []), rest)
  | rest =>
    (members (depth + 1) fuel rest).map fun (ms, rest) => (nested depth (.ofMembers ms), rest)

theorem value_of_members {ms : List (Option String × Written)}
    (h : members (depth + 1) fuel cs = some (ms, rest)) :
    value depth (fuel + 1) ('\x7b' :: cs) = some (nested depth (.ofMembers ms), rest) := by
  have hbrace : value depth (fuel + 1) ('\x7b' :: cs) = objectBehind depth fuel cs := by
    rw [value, skipSpace_cons (by decide)]
    rfl
  rw [← members_skipSpace] at h
  rw [hbrace, objectBehind]
  split
  · next rest' heq =>
    -- no member begins with the end of the object
    cases fuel with
    | zero => cases h
    | succ fuel =>
      rw [heq] at h
      cases h
  · rw [h]
    rfl

theorem ofMembers_some (ms : List (String × Written)) :
    Written.ofMembers (ms.map fun m => (some m.1, m.2)) = .object ms := by
  have hnames : ((ms.map fun m => (some m.1, m.2)).mapM fun m : Option String × Written =>
      m.1.map fun name => (name, m.2)) = some ms :=
    mapM_map_eq_some_iff.2 fun _ _ => rfl
  rw [Written.ofMembers, hnames]

end Parser

namespace Layout

open ContractModel.Json.Parser

variable {L : Layout} {rest : List Char}

theorem ends_items (level : Nat) (js : List Json) : Ends (L.items level js ++ rest) := by
  cases js with
  | nil =>
    rw [items, List.append_assoc]
    exact ends_append (L.isSpace_lineBreak level) (ends_cons (by decide))
  | cons j js => exact ends_cons (by decide)

theorem ends_members (level : Nat) (ms : List (String × Json)) :
    Ends (L.members level ms ++ rest) := by
  cases ms with
  | nil =>
    rw [members, List.append_assoc]
    exact ends_append (L.isSpace_lineBreak level) (ends_cons (by decide))
  | cons m ms => exact ends_cons (by decide)

theorem length_items_pos (level : Nat) (js : List Json) : 0 < (L.items level js).length := by
  cases js <;> simp [items]

theorem length_members_pos (level : Nat) (ms : List (String × Json)) :
    0 < (L.members level ms).length := by
  cases ms <;> simp [members]

/-- A printed array is read if its first item is read and then what stands behind that. -/
theorem value_chars_array {j : Json} {js : List Json} {depth fuel k level : Nat}
    (hd : depth + (k + 1) ≤ 128)
    (hj : value (depth + 1) fuel (L.chars (level + 1) j ++ (L.items level js ++ rest)) =
      some (j.readAs Number.reread, L.items level js ++ rest))
    (hjs : itemsBehind (depth + 1) fuel (j.readAs Number.reread) (L.items level js ++ rest) =
      some (j.readAs Number.reread :: readAsItems Number.reread js, rest)) :
    value depth (fuel + 2) (L.chars level (.array (j :: js)) ++ rest) =
      some ((Json.array (j :: js)).readAs Number.reread, rest) := by
  have hitems : Parser.items (depth + 1) (fuel + 1)
      (L.lineBreak (level + 1) ++ (L.chars (level + 1) j ++ (L.items level js ++ rest))) =
        some (readAsItems Number.reread (j :: js), rest) := by
    rw [items_append (L.isSpace_lineBreak _), items_succ, hj, Option.bind_some, hjs]
    rfl
  rw [chars, List.cons_append, List.append_assoc, List.append_assoc, value_of_items hitems,
    nested_of_le hd]
  rfl

/-- So is a printed object, whose names are read as they are. -/
theorem value_chars_object {name : String} {j : Json} {ms : List (String × Json)}
    {depth fuel k level : Nat} (hd : depth + (k + 1) ≤ 128)
    (hj : value (depth + 1) fuel (L.chars (level + 1) j ++ (L.members level ms ++ rest)) =
      some (j.readAs Number.reread, L.members level ms ++ rest))
    (hms : membersBehind (depth + 1) fuel (some name, j.readAs Number.reread)
        (L.members level ms ++ rest) =
      some ((some name, j.readAs Number.reread) ::
        (readAsMembers Number.reread ms).map fun m => (some m.1, m.2), rest)) :
    value depth (fuel + 2) (L.chars level (.object ((name, j) :: ms)) ++ rest) =
      some ((Json.object ((name, j) :: ms)).readAs Number.reread, rest) := by
  have hmembers : Parser.members (depth + 1) (fuel + 1)
      (L.lineBreak (level + 1) ++ (quoted name ++ (':' :: (L.gap ++
        (L.chars (level + 1) j ++ (L.members level ms ++ rest)))))) =
        some ((readAsMembers Number.reread ((name, j) :: ms)).map fun m => (some m.1, m.2),
          rest) := by
    rw [members_append (L.isSpace_lineBreak _), members_succ, value_append L.isSpace_gap, hj,
      Option.bind_some, hms]
    rfl
  rw [chars]
  simp only [List.cons_append, List.append_assoc]
  rw [value_of_members hmembers, ofMembers_some, nested_of_le hd]
  rfl

-- A value needs more fuel than its text is long, and what stands behind one as much. The depth grows
-- as the limit that the value keeps to falls, so their sum stays.
mutual

/-- A printed value is read, whatever it stands in. -/
theorem value_chars (j : Json) {depth fuel k level : Nat} {rest : List Char}
    (hj : j.Within k) (hd : depth + k ≤ 128) (hf : (L.chars level j).length < fuel)
    (hrest : Ends rest) :
    value depth fuel (L.chars level j ++ rest) = some (j.readAs Number.reread, rest) := by
  obtain ⟨fuel, rfl⟩ := Nat.exists_eq_add_of_le' (Nat.one_le_of_lt hf)
  match j with
  | .null => rfl
  | .bool true => rfl
  | .bool false => rfl
  | .number n => exact value_chars_number (within_number_iff.1 hj) depth _ hrest
  | .string s => exact value_quoted depth fuel s rest
  | .array [] =>
    obtain ⟨k, rfl, -⟩ := within_array_iff.1 hj
    have hvalue : value depth (fuel + 1) ('[' :: ']' :: rest) =
        some (nested depth (.array []), rest) := rfl
    rw [nested_of_le hd] at hvalue
    exact hvalue
  | .object [] =>
    obtain ⟨k, rfl, -⟩ := within_object_iff.1 hj
    have hvalue : value depth (fuel + 1) ('\x7b' :: '\x7d' :: rest) =
        some (nested depth (.object []), rest) := rfl
    rw [nested_of_le hd] at hvalue
    exact hvalue
  | .array (j :: js) =>
    obtain ⟨k, rfl, hjs⟩ := within_array_iff.1 hj
    obtain ⟨hj, hjs⟩ := List.forall_mem_cons.1 hjs
    simp only [chars, List.length_cons, List.length_append] at hf
    have hpos := length_items_pos (L := L) level js
    obtain ⟨fuel, rfl⟩ := Nat.exists_eq_add_of_le' (show 1 ≤ fuel by omega)
    exact value_chars_array hd (value_chars j hj (by omega) (by omega) (ends_items level js))
      (itemsBehind_items js hjs (by omega) (by omega) _)
  | .object ((name, j) :: ms) =>
    obtain ⟨k, rfl, hms⟩ := within_object_iff.1 hj
    obtain ⟨hj, hms⟩ := List.forall_mem_cons.1 hms
    simp only [chars, List.length_cons, List.length_append] at hf
    have hpos := length_members_pos (L := L) level ms
    obtain ⟨fuel, rfl⟩ := Nat.exists_eq_add_of_le' (show 1 ≤ fuel by omega)
    exact value_chars_object hd (value_chars j hj (by omega) (by omega) (ends_members level ms))
      (membersBehind_members ms hms (by omega) (by omega) _)

theorem itemsBehind_items (js : List Json) {depth fuel k level : Nat} {rest : List Char}
    (hjs : ∀ j ∈ js, j.Within k) (hd : depth + k ≤ 128) (hf : (L.items level js).length ≤ fuel)
    (w : Written) :
    itemsBehind depth fuel w (L.items level js ++ rest) =
      some (w :: readAsItems Number.reread js, rest) := by
  match js with
  | [] =>
    rw [items, List.append_assoc, List.singleton_append,
      itemsBehind_end (L.isSpace_lineBreak level)]
    rfl
  | j :: js =>
    obtain ⟨hj, hjs⟩ := List.forall_mem_cons.1 hjs
    simp only [items, List.length_cons, List.length_append] at hf
    have hpos := length_items_pos (L := L) level js
    obtain ⟨fuel, rfl⟩ := Nat.exists_eq_add_of_le' (show 1 ≤ fuel by omega)
    rw [items, List.cons_append, List.append_assoc, List.append_assoc, itemsBehind_comma,
      items_append (L.isSpace_lineBreak _), items_succ,
      value_chars j hj hd (by omega) (ends_items level js), Option.bind_some,
      itemsBehind_items js hjs hd (by omega)]
    rfl

theorem membersBehind_members (ms : List (String × Json)) {depth fuel k level : Nat}
    {rest : List Char} (hms : ∀ m ∈ ms, m.2.Within k) (hd : depth + k ≤ 128)
    (hf : (L.members level ms).length ≤ fuel) (m : Option String × Written) :
    membersBehind depth fuel m (L.members level ms ++ rest) =
      some (m :: (readAsMembers Number.reread ms).map fun m => (some m.1, m.2), rest) := by
  match ms with
  | [] =>
    rw [members, List.append_assoc, List.singleton_append,
      membersBehind_end (L.isSpace_lineBreak level)]
    rfl
  | (name, j) :: ms =>
    obtain ⟨hj, hms⟩ := List.forall_mem_cons.1 hms
    simp only [members, List.length_cons, List.length_append] at hf
    have hpos := length_members_pos (L := L) level ms
    obtain ⟨fuel, rfl⟩ := Nat.exists_eq_add_of_le' (show 1 ≤ fuel by omega)
    rw [members]
    simp only [List.cons_append, List.append_assoc]
    rw [membersBehind_comma, members_append (L.isSpace_lineBreak _), members_succ,
      value_append L.isSpace_gap, value_chars j hj hd (by omega) (ends_members level ms),
      Option.bind_some, membersBehind_members ms hms hd (by omega)]
    rfl

end

/-- The text of a value within limits is read as the value, each of its numbers as its own text. -/
theorem parse_chars {j : Json} (hj : j.Within maxDepth) :
    Written.parse (String.ofList (L.chars 0 j)) = some (j.readAs Number.reread) := by
  have hvalue : value 1 (2 * (L.chars 0 j).length + 2) (L.chars 0 j ++ []) = _ :=
    value_chars j hj (by decide) (by omega) ends_nil
  rw [List.append_nil] at hvalue
  rw [Written.parse, String.toList_ofList, hvalue]
  rfl

end Layout

/-- Every binary64 number in the value is read from its own text. -/
def RereadsFloats (j : Json) : Prop :=
  ∀ bits, Number.float bits ∈ j.numbers →
    Written.parse (Json.number (.float bits)).compact = some (.number (.float bits))

/-- The number that is written. -/
def Written.number? : Written → Option Number
  | .number n => some n
  | _ => none

theorem Written.number?_eq_some_iff {w : Written} {n : Number} :
    w.number? = some n ↔ w = .number n := by
  cases w <;> simp [Written.number?]

instance (j : Json) : Decidable j.RereadsFloats :=
  let isReread : Number → Bool
    | .int _ => true
    | .float bits => (Written.parse (Json.number (.float bits)).compact).bind Written.number? =
        some (.float bits)
  decidable_of_iff (j.numbers.all isReread) <| by
    rw [List.all_eq_true]
    constructor
    · intro h bits hbits
      have hnumber := of_decide_eq_true (h _ hbits)
      simpa [Option.bind_eq_some_iff, Written.number?_eq_some_iff] using hnumber
    · intro h n hn
      cases n with
      | int i => rfl
      | float bits => simp [isReread, h bits hn, Written.number?]

theorem reread_eq_number_iff {n : Number} :
    n.reread = .number n ↔ Written.parse (Json.number n).compact = some (.number n) := by
  change (Written.parse (Json.number n).compact).getD .unreadable = .number n ↔ _
  cases Written.parse (Json.number n).compact <;> simp

theorem fixed_reread_iff {j : Json} {k : Nat} (hj : j.Within k) :
    j.Fixed Number.reread ↔ j.RereadsFloats := by
  constructor
  · exact fun h bits hbits => reread_eq_number_iff.1 (h _ hbits)
  · intro h n hn
    cases n with
    | int i => exact Parser.reread_int (hj.fits hn)
    | float bits => exact reread_eq_number_iff.2 (h bits hn)

theorem parse_compact {j : Json} (hj : j.Within Parser.maxDepth) :
    Written.parse j.compact = some (j.readAs Number.reread) := by
  rw [compact, ← Layout.chars_compact 0]
  exact Layout.parse_chars hj

theorem parse_indented {j : Json} (hj : j.Within Parser.maxDepth) :
    Written.parse j.indented = some (j.readAs Number.reread) := by
  rw [indented, ← Layout.chars_indented 0]
  exact Layout.parse_chars hj

end ContractModel.Json

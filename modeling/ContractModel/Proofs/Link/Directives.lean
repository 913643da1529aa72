import ContractModel.Link.Directive
import ContractModel.Proofs.Text.Parts
import Mathlib.Data.List.DropRight

/-! # Directives as text

A directive is accepted where its text has a contract, a reference and a destination, none of them
blank. They stand around the first equals sign and the first colon in front of it, so their text is
cut at the same places again.
-/

namespace ContractModel

namespace Text

variable {cs : List Char} {c : Char} {s : String}

theorem trimChars_isPrefix (cs : List Char) : trimChars cs <+: cs.dropWhile isBlank :=
  List.rdropWhile_prefix isBlank (cs.dropWhile isBlank)

theorem mem_of_mem_trimChars (h : c ∈ trimChars cs) : c ∈ cs :=
  (List.dropWhile_suffix isBlank).subset ((trimChars_isPrefix cs).subset h)

/-- What is left without the blanks in front has none in front. -/
theorem dropWhile_trimChars (cs : List Char) :
    (trimChars cs).dropWhile isBlank = trimChars cs := by
  rw [List.dropWhile_eq_self_iff]
  intro hpos
  obtain ⟨rest, hrest⟩ := trimChars_isPrefix cs
  have hlength : 0 < (cs.dropWhile isBlank).length := by
    rw [← hrest, List.length_append]
    omega
  have hfirst := List.dropWhile_get_zero_not isBlank cs hlength
  simp only [List.get_eq_getElem, ← hrest, List.getElem_append_left hpos] at hfirst
  exact hfirst

theorem trimChars_trimChars (cs : List Char) : trimChars (trimChars cs) = trimChars cs := by
  have hend : dropEndWhile isBlank (trimChars cs) = trimChars cs :=
    List.rdropWhile_idempotent isBlank (cs.dropWhile isBlank)
  conv_lhs => rw [trimChars, dropWhile_trimChars, hend]

theorem trim_trim (s : String) : trim (trim s) = trim s := by
  rw [trim, trim, String.toList_ofList, trimChars_trimChars]

theorem mem_of_mem_trim (h : c ∈ (trim s).toList) : c ∈ s.toList := by
  rw [trim, String.toList_ofList] at h
  exact mem_of_mem_trimChars h

end Text

namespace LinkDirective

/-- The text is cut at its first equals sign, and what stands in front of that at its first
colon. -/
structure Splits (s contract reference destination : String) : Prop where
  text : s = contract ++ ":" ++ reference ++ "=" ++ destination
  colon : ':' ∉ contract.toList
  equals : '=' ∉ (contract ++ ":" ++ reference).toList

/-- The parts are those of a text, without the blanks around them, and none is empty. -/
structure IsProper (d : LinkDirective) : Prop where
  trimmed : Text.trim d.contract = d.contract ∧ Text.trim d.reference = d.reference ∧
    Text.trim d.destination = d.destination
  notEmpty : d.contract ≠ "" ∧ d.reference ≠ "" ∧ d.destination ≠ ""
  colon : ':' ∉ d.contract.toList
  equals : '=' ∉ d.contract.toList ∧ '=' ∉ d.reference.toList

variable {s : String} {d : LinkDirective}

theorem parse_eq_ok_iff_parse? : parse s = .ok d ↔ parse? s = some d := by
  unfold parse
  cases parse? s <;> simp

/-- A text is read as a directive exactly if its parts, without the blanks around them, are not
empty, and then these are the directive's. -/
theorem parse_eq_ok_iff : parse s = .ok d ↔ ∃ contract reference destination,
    Splits s contract reference destination ∧
    d = ⟨Text.trim contract, Text.trim reference, Text.trim destination⟩ ∧
    d.contract ≠ "" ∧ d.reference ≠ "" ∧ d.destination ≠ "" := by
  rw [parse_eq_ok_iff_parse?, parse?]
  simp only [Option.bind_eq_bind, Option.bind_eq_some_iff, Prod.exists,
    Text.splitOnce_eq_some_iff (show "=".toList = ['='] from rfl),
    Text.splitOnce_eq_some_iff (show ":".toList = [':'] from rfl)]
  constructor
  · rintro ⟨source, destination, ⟨rfl, hequals⟩, contract, reference, ⟨rfl, hcolon⟩, hd⟩
    rw [ite_eq_iff] at hd
    obtain ⟨-, ⟨⟩⟩ | ⟨hne, hd⟩ := hd
    cases hd
    simp only [Bool.or_eq_true, String.isEmpty_iff, not_or] at hne
    exact ⟨contract, reference, destination, ⟨rfl, hcolon, hequals⟩, rfl, hne.1.1, hne.1.2, hne.2⟩
  · rintro ⟨contract, reference, destination, ⟨rfl, hcolon, hequals⟩, rfl, hne⟩
    refine ⟨_, destination, ⟨rfl, hequals⟩, contract, reference, ⟨rfl, hcolon⟩, ?_⟩
    rw [if_neg]
    simp only [Bool.or_eq_true, String.isEmpty_iff, not_or]
    exact ⟨⟨hne.1, hne.2.1⟩, hne.2.2⟩

theorem isProper_of_parse (h : parse s = .ok d) : d.IsProper := by
  obtain ⟨contract, reference, destination, hsplits, rfl, hne⟩ := parse_eq_ok_iff.1 h
  have hequals := hsplits.equals
  simp only [String.toList_append, List.mem_append, not_or] at hequals
  exact {
    trimmed := ⟨Text.trim_trim _, Text.trim_trim _, Text.trim_trim _⟩
    notEmpty := hne
    colon := fun hc => hsplits.colon (Text.mem_of_mem_trim hc)
    equals := ⟨fun hc => hequals.1.1 (Text.mem_of_mem_trim hc),
      fun hc => hequals.2 (Text.mem_of_mem_trim hc)⟩ }

/-- The text of proper parts is cut between them. -/
theorem IsProper.splits (h : d.IsProper) :
    Splits d.text d.contract d.reference d.destination where
  text := rfl
  colon := h.colon
  equals := by
    have hcolon : '=' ∉ ":".toList := by decide
    simp only [String.toList_append, List.mem_append, not_or]
    exact ⟨⟨h.equals.1, hcolon⟩, h.equals.2⟩

theorem IsProper.parse_text (h : d.IsProper) : parse d.text = .ok d := by
  refine parse_eq_ok_iff.2 ⟨_, _, _, h.splits, ?_, h.notEmpty⟩
  rw [h.trimmed.1, h.trimmed.2.1, h.trimmed.2.2]

/-- A directive that was read is read again from its own text, the directives that are read are the
proper ones, and a text is accepted exactly if it is cut into parts of which none is blank. Only the
contract is kept from both signs, and the reference from the equals sign. -/
theorem parse_acceptsAndReturns :
    (∀ s d, parse s = .ok d → parse d.text = .ok d) ∧
    (∀ d, (∃ s, parse s = .ok d) ↔ d.IsProper) ∧
    (∀ s, (∃ d, parse s = .ok d) ↔ ∃ contract reference destination,
      Splits s contract reference destination ∧ Text.trim contract ≠ "" ∧
      Text.trim reference ≠ "" ∧ Text.trim destination ≠ "") := by
  refine ⟨fun s d h => (isProper_of_parse h).parse_text, fun d => ?_, fun s => ?_⟩
  · exact ⟨fun ⟨s, h⟩ => isProper_of_parse h, fun h => ⟨d.text, h.parse_text⟩⟩
  · simp only [parse_eq_ok_iff]
    constructor
    · rintro ⟨_, contract, reference, destination, hsplits, rfl, hne⟩
      exact ⟨contract, reference, destination, hsplits, hne⟩
    · rintro ⟨contract, reference, destination, hsplits, hne⟩
      exact ⟨_, contract, reference, destination, hsplits, rfl, hne⟩

/-- With a colon in the reference and both signs in the destination. -/
theorem parse_acceptsAndReturns_signs :
    parse " Vault : slots:0 = a=b:c\t" = .ok ⟨"Vault", "slots:0", "a=b:c"⟩ ∧
    parse (LinkDirective.text ⟨"Vault", "slots:0", "a=b:c"⟩) =
      .ok ⟨"Vault", "slots:0", "a=b:c"⟩ := by
  have hread : parse " Vault : slots:0 = a=b:c\t" = .ok ⟨"Vault", "slots:0", "a=b:c"⟩ := by
    decide +kernel
  exact ⟨hread, parse_acceptsAndReturns.1 _ _ hread⟩

end LinkDirective

end ContractModel

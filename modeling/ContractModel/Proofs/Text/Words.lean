import ContractModel.Text.Words

/-! # Words of texts put together

Where a text leaves the reader decides what becomes of a word behind it: the word stands for itself
exactly if the text ends in no comment and in no backslash that waits for a character.
-/

namespace ContractModel.Text.Words

/-- The state behind a text, and the words completed inside it. -/
def run : State → List Char → State × List (List Char)
  | st, [] => (st, [])
  | st, c :: cs =>
    ((run (step st c).1 cs).1, (step st c).2.toList ++ (run (step st c).1 cs).2)

variable {st : State} {cs ds word : List Char} {s t : String} {words : List String}

theorem scan_append (st : State) (cs ds : List Char) :
    scan st (cs ++ ds) = (scan (run st cs).1 ds).map ((run st cs).2 ++ ·) := by
  induction cs generalizing st with
  | nil => simp [run]
  | cons c cs ih => simp [scan, run, ih, Function.comp_def]

theorem scan_eq (st : State) (cs : List Char) :
    scan st cs = (finish (run st cs).1).map ((run st cs).2 ++ ·) := by
  simpa [scan] using scan_append st cs []

theorem run_append (st : State) (cs ds : List Char) :
    run st (cs ++ ds) = ((run (run st cs).1 ds).1, (run st cs).2 ++ (run (run st cs).1 ds).2) := by
  induction cs generalizing st with
  | nil => rfl
  | cons c cs ih => simp [run, ih]

/-- A character that stands for itself wherever it is outside of quotes. -/
def IsPlain (c : Char) : Prop := c ∉ [' ', '\t', '\n', '\x27', '"', '\\', '#']

instance : DecidablePred IsPlain := fun c =>
  inferInstanceAs (Decidable (c ∉ [' ', '\t', '\n', '\x27', '"', '\\', '#']))

theorem begin_of_isPlain {c : Char} (hc : IsPlain c) (word : List Char) :
    begin word c = .bare (c :: word) := by
  simp only [IsPlain, List.mem_cons, not_or] at hc
  simp [begin, hc]

theorem step_bare {c : Char} (hc : IsPlain c) (word : List Char) :
    step (.bare word) c = (.bare (c :: word), none) := by
  have hbegin := begin_of_isPlain hc word
  simp only [IsPlain, List.mem_cons, not_or] at hc
  simp [step, isSeparator, hc, hbegin]

theorem step_between {c : Char} (hc : IsPlain c) : step .between c = (.bare [c], none) := by
  have hbegin := begin_of_isPlain hc []
  simp only [IsPlain, List.mem_cons, not_or] at hc
  simp [step, isSeparator, hc, hbegin]

theorem run_bare (h : ∀ c ∈ cs, IsPlain c) (word : List Char) :
    run (.bare word) cs = (.bare (cs.reverse ++ word), []) := by
  induction cs generalizing word with
  | nil => rfl
  | cons c cs ih =>
    obtain ⟨hc, hcs⟩ := List.forall_mem_cons.1 h
    simp [run, step_bare hc, ih hcs]

theorem run_comment (h : '\n' ∉ cs) : run .comment cs = (.comment, []) := by
  induction cs with
  | nil => rfl
  | cons c cs ih =>
    simp only [List.mem_cons, not_or] at h
    simp [run, step, ih h.2, Ne.symm h.1]

/-- A text that may be followed by further words. -/
def State.isOpen : State → Bool
  | .between | .bare _ => true
  | _ => false

/-- A text behind which a blank begins a new word. -/
def IsOpen (s : String) : Prop := (run .between s.toList).1.isOpen

instance : DecidablePred IsOpen := fun s =>
  inferInstanceAs (Decidable ((run .between s.toList).1.isOpen = true))

/-- A word of its own, whatever is in front of the blank before it. -/
structure IsWord (w : String) : Prop where
  ne_empty : w.toList ≠ []
  plain : ∀ c ∈ w.toList, IsPlain c

variable {w : String}

theorem run_word (hst : st.isOpen) (hw : IsWord w) :
    run st (' ' :: w.toList) = (.bare w.toList.reverse, (finish st).getD []) := by
  obtain ⟨hne, hplain⟩ := hw
  cases hchars : w.toList with
  | nil => exact absurd hchars hne
  | cons c cs =>
    rw [hchars] at hplain
    obtain ⟨hc, hcs⟩ := List.forall_mem_cons.1 hplain
    have hbetween : run .between (c :: cs) = (.bare (c :: cs).reverse, []) := by
      simp [run, step_between hc, run_bare hcs]
    cases st with
    | between => simpa [run, step, isSeparator, finish] using hbetween
    | bare word => simpa [run, step, isSeparator, finish] using hbetween
    | comment | escapedStart | escaped _ | single _ | double _ | doubleEscaped _ => cases hst

/-- Behind an open text a word stands for itself, and the text with it is open again. -/
theorem split_append_word (hs : IsOpen s) (hsplit : split s = some words) (hw : IsWord w) :
    split (s ++ " " ++ w) = some (words ++ [w]) ∧ IsOpen (s ++ " " ++ w) := by
  have hlist : (s ++ " " ++ w).toList = s.toList ++ ' ' :: w.toList := by simp
  rw [split, scan_eq] at hsplit
  rw [IsOpen, split, hlist, scan_append, scan_eq, run_append, run_word hs hw]
  cases hend : (run .between s.toList).1 with
  | between =>
    simp only [hend, finish, Option.map_some, Option.some.injEq] at hsplit
    subst hsplit
    simp [finish, State.isOpen]
  | bare word =>
    simp only [hend, finish, Option.map_some, Option.some.injEq] at hsplit
    subst hsplit
    simp [finish, State.isOpen]
  | comment | escapedStart | escaped _ | single _ | double _ | doubleEscaped _ =>
    rw [IsOpen, hend] at hs
    cases hs

/-- Behind a comment a word is lost, and behind a backslash it continues the last word. -/
theorem split_append_of_not_isOpen (hs : ¬ IsOpen s) (hsplit : split s = some words)
    (hw : IsWord w) : split (s ++ " " ++ w) = some words ∨
      ∃ front last, words = front ++ [last ++ "\\"] ∧
        split (s ++ " " ++ w) = some (front ++ [last ++ (" " ++ w)]) := by
  have hlist : (s ++ " " ++ w).toList = s.toList ++ ' ' :: w.toList := by simp
  rw [split, scan_eq] at hsplit
  rw [split, hlist, scan_append, scan_eq]
  cases hend : (run .between s.toList).1 with
  | between | bare _ => simp [IsOpen, hend, State.isOpen] at hs
  | single _ | double _ | doubleEscaped _ => simp [hend, finish] at hsplit
  | comment =>
    have hnewline : '\n' ∉ ' ' :: w.toList := by
      simp only [List.mem_cons, not_or]
      refine ⟨by decide, fun hmem => ?_⟩
      have := hw.plain _ hmem
      simp [IsPlain] at this
    left
    simp_all [run_comment, finish]
  | escapedStart =>
    have hrun : run .escapedStart (' ' :: w.toList) = (.bare (w.toList.reverse ++ [' ']), []) := by
      simp [run, step, run_bare hw.plain]
    right
    refine ⟨(run .between s.toList).2.map fun w => String.ofList w.reverse, "", ?_, ?_⟩
    · simp_all [finish]
    · rw [hrun]
      simp [finish]
  | escaped word =>
    have hrun : run (.escaped word) (' ' :: w.toList) =
        (.bare (w.toList.reverse ++ ' ' :: word), []) := by
      simp [run, step, run_bare hw.plain]
    right
    refine ⟨(run .between s.toList).2.map fun w => String.ofList w.reverse,
      String.ofList word.reverse, ?_, ?_⟩
    · simp_all [finish]
    · rw [hrun]
      simp [finish]

end ContractModel.Text.Words

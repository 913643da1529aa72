import ContractModel.Config
import ContractModel.Proofs.Compilation.Flags
import ContractModel.Proofs.Text.Words

/-! # Recorded optimization flags

The flags recorded for a file are read back as the optimizer that the file is compiled with. They
also say whether the compiler goes through its intermediate representation, unless the compiler
arguments are left out of them and are alone in asking for it, or end so that nothing can stand
behind them.
-/

namespace ContractModel

namespace Settings

/-- What is read of no flags. -/
def noFlags : Flags := ⟨none, false, none, false⟩

def optimizerOf (f : Flags) : Option Optimizer :=
  if f.optimize then some (.withRuns f.runs) else none

variable {lang : Language} {remappings words : List String} {s : Settings} {f : Flags}

theorem ofArguments_eq_ok_iff : ofArguments lang remappings words = .ok s ↔
    ∃ f, Reads noFlags words f ∧
      s = standard lang remappings f.evmVersion (optimizerOf f) f.viaIR := by
  rw [ofArguments, Run.except_bind_eq_ok_iff]
  refine exists_congr fun f => and_congr readFlags_eq_ok_iff ?_
  constructor
  · rintro ⟨⟩
    rfl
  · rintro rfl
    rfl

theorem reads_viaIR (f : Flags) : Reads f ["--via-ir"] { f with viaIR := true } :=
  .alone (.viaIR (by decide)) (.nil _)

theorem reads_runs {n : Nat} (hn : n ≤ Text.maxWord) :
    Reads noFlags ["--optimize", "--optimize-runs", Text.decimal n] ⟨none, true, some n, false⟩ := by
  have hstore : store { noFlags with optimize := true } "--optimize-runs" (Text.decimal n) =
      .ok ⟨none, true, some n, false⟩ := by
    simp [store, Text.readWord_decimal hn, noFlags]
  exact .alone (.optimize (by decide)) (.withValue (by decide) (.inr rfl) hstore (.nil _))

end Settings

namespace Config

open Text.Words Settings

/-- The compiler arguments themselves ask for the intermediate representation. -/
def ArgumentsAskViaIR (c : Config) : Prop :=
  ∃ words f, c.extraArguments = .ok words ∧ readFlags noFlags words = .ok f ∧ f.viaIR = true

/-- The flags of a file say that it is compiled via the intermediate representation, if it is. -/
structure RecordsViaIR (c : Config) (file : String) : Prop where
  /-- Where a number of runs stands in the place of the arguments. -/
  ofRuns : (c.optimizeRuns file).isSome → c.ArgumentsAskViaIR → c.viaIR = true
  /-- Where the flag stands behind the arguments. -/
  ofArguments : c.optimizeRuns file = none → c.viaIR = true → ¬ c.ArgumentsAskViaIR →
    ∀ text ∈ c.compilerArguments, IsOpen text

variable {c : Config} {file : String} {lang : Language} {s : Settings} {n : Nat} {f : Flags}
  {words : List String} {text : String}

theorem settings_eq_ok (h : c.settings file lang = .ok s) :
    ∃ words f, c.extraArguments = .ok words ∧ Reads noFlags words f ∧
      s.optimizer =
        ((c.optimizeRuns file).map fun runs => Optimizer.withRuns (some runs)).or (optimizerOf f) ∧
      s.viaIR = if c.viaIR || f.viaIR then some true else none := by
  obtain ⟨words, hwords, h⟩ := Run.except_bind_eq_ok_iff.1 h
  obtain ⟨t, ht, h⟩ := Run.except_bind_eq_ok_iff.1 h
  obtain ⟨f, hreads, rfl⟩ := ofArguments_eq_ok_iff.1 ht
  cases h
  refine ⟨words, f, hwords, hreads, rfl, ?_⟩
  cases c.viaIR <;> rfl

theorem argumentsAskViaIR_iff (hwords : c.extraArguments = .ok words)
    (hreads : Reads noFlags words f) : c.ArgumentsAskViaIR ↔ f.viaIR = true := by
  constructor
  · rintro ⟨words', f', hwords', hread, hviaIR⟩
    cases hwords.symm.trans hwords'
    cases (readFlags_of_reads hreads).symm.trans hread
    exact hviaIR
  · intro hviaIR
    exact ⟨words, f, hwords, readFlags_of_reads hreads, hviaIR⟩

theorem isWord_decimal (n : Nat) : IsWord (Text.decimal n) := by
  have hplain : ∀ d < 10, IsPlain (Text.digitChar d) := by decide
  refine ⟨by simp [Text.decimal, Text.digits_ne_nil], fun c hc => ?_⟩
  rw [Text.decimal, String.toList_ofList] at hc
  obtain ⟨d, hd, rfl⟩ := Text.exists_of_mem_digits (by decide) hc
  exact hplain d hd

theorem isWord_viaIR : IsWord "--via-ir" := ⟨by decide, by simp [IsPlain]⟩

/-- A text with `--via-ir` behind it, or not, asks for the same optimizer. -/
theorem exists_reads_flags (hsplit : split text = some words) (hreads : Reads noFlags words f)
    (viaIR : Bool) :
    ∃ words' f', split (if viaIR then text ++ " " ++ "--via-ir" else text) = some words' ∧
      Reads noFlags words' f' ∧ optimizerOf f' = optimizerOf f ∧
      (f'.viaIR = true ↔ viaIR = true ∧ IsOpen text ∨ f.viaIR = true) := by
  cases viaIR with
  | false => exact ⟨words, f, hsplit, hreads, rfl, by simp⟩
  | true =>
    by_cases hopen : IsOpen text
    · obtain ⟨happend, -⟩ := split_append_word hopen hsplit isWord_viaIR
      exact ⟨_, _, happend, hreads.append (reads_viaIR f), rfl, by simp [hopen]⟩
    · rcases split_append_of_not_isOpen hopen hsplit isWord_viaIR with
        happend | ⟨front, last, rfl, happend⟩
      · exact ⟨words, f, happend, hreads, rfl, by simp [hopen]⟩
      · have hblank : ' ' ∈ (" " ++ "--via-ir").toList := by decide
        have hequals : '=' ∉ (" " ++ "--via-ir").toList := by decide
        obtain ⟨f', hreads', hsame⟩ := hreads.backslash hblank hequals
        refine ⟨_, f', happend, hreads', ?_, by simp [hopen, hsame.viaIR]⟩
        rw [optimizerOf, optimizerOf, hsame.optimize, hsame.runs]

theorem optimizationFlags_of_runs (h : c.optimizeRuns file = some n) :
    c.optimizationFlags file =
      if c.viaIR then "--optimize --optimize-runs " ++ Text.decimal n ++ " " ++ "--via-ir"
      else "--optimize --optimize-runs " ++ Text.decimal n := by
  rw [optimizationFlags, h]
  cases c.viaIR <;> simp [String.append_assoc]

theorem optimizationFlags_of_arguments (h : c.optimizeRuns file = none)
    (htext : c.compilerArguments = some text) :
    c.optimizationFlags file = if c.viaIR then text ++ " " ++ "--via-ir" else text := by
  rw [optimizationFlags, h, htext]
  cases c.viaIR <;> simp [String.append_assoc]

theorem optimizationFlags_of_none (h : c.optimizeRuns file = none)
    (htext : c.compilerArguments = none) :
    c.optimizationFlags file = if c.viaIR then "--via-ir" else "" := by
  rw [optimizationFlags, h, htext]
  cases c.viaIR <;> simp

theorem split_runs (n : Nat) :
    split ("--optimize --optimize-runs " ++ Text.decimal n) =
      some ["--optimize", "--optimize-runs", Text.decimal n] ∧
    IsOpen ("--optimize --optimize-runs " ++ Text.decimal n) := by
  have hopen : IsOpen "--optimize --optimize-runs" := by decide +kernel
  have hsplit : split "--optimize --optimize-runs" = some ["--optimize", "--optimize-runs"] := by
    decide +kernel
  simpa using split_append_word hopen hsplit (isWord_decimal n)

theorem describe_of_runs (h : c.settings file lang = .ok s)
    (hruns : c.optimizeRuns file = some n) (hn : n ≤ Text.maxWord) :
    ∃ words f, split (c.optimizationFlags file) = some words ∧ Reads noFlags words f ∧
      optimizerOf f = s.optimizer ∧ f.viaIR = c.viaIR := by
  obtain ⟨-, f, -, -, hoptimizer, -⟩ := settings_eq_ok h
  obtain ⟨hsplit, hopen⟩ := split_runs n
  obtain ⟨words, f', hsplit, hreads, hsame, hviaIR⟩ :=
    exists_reads_flags hsplit (reads_runs hn) c.viaIR
  refine ⟨words, f', by rwa [optimizationFlags_of_runs hruns], hreads, ?_, ?_⟩
  · rw [hsame, hoptimizer, hruns]
    rfl
  · rw [Bool.eq_iff_iff, hviaIR]
    simp [hopen]

theorem describe_of_arguments (h : c.settings file lang = .ok s)
    (hruns : c.optimizeRuns file = none) :
    ∃ words f, split (c.optimizationFlags file) = some words ∧ Reads noFlags words f ∧
      optimizerOf f = s.optimizer ∧
      (f.viaIR = true ↔
        c.viaIR = true ∧ (∀ text ∈ c.compilerArguments, IsOpen text) ∨ c.ArgumentsAskViaIR) := by
  obtain ⟨words, f, hwords, hreads, hoptimizer, -⟩ := settings_eq_ok h
  rw [argumentsAskViaIR_iff hwords hreads]
  have hoptimizer : optimizerOf f = s.optimizer := by simpa [hruns] using hoptimizer.symm
  rw [extraArguments] at hwords
  cases htext : c.compilerArguments with
  | none =>
    rw [htext] at hwords
    cases hwords
    cases hreads
    rw [optimizationFlags_of_none hruns htext]
    cases hflag : c.viaIR with
    | false => exact ⟨[], noFlags, by decide +kernel, .nil _, hoptimizer, by simp [noFlags]⟩
    | true =>
      exact ⟨["--via-ir"], _, by decide +kernel, reads_viaIR noFlags, hoptimizer, by simp⟩
  | some text =>
    rw [htext] at hwords
    cases hsplit : split text with
    | none => simp [hsplit] at hwords
    | some words' =>
      simp only [hsplit, Except.ok.injEq] at hwords
      subst hwords
      obtain ⟨words, f', hflags, hreads', hsame, hviaIR⟩ :=
        exists_reads_flags hsplit hreads c.viaIR
      refine ⟨words, f', by rwa [optimizationFlags_of_arguments hruns htext], hreads',
        hsame.trans hoptimizer, ?_⟩
      rw [hviaIR]
      simp

/-- Flags that are read with the optimizer of a file tell how it is compiled if they ask for the
intermediate representation where the configuration or its arguments do. -/
theorem exists_ofArguments (h : c.settings file lang = .ok s) (hreads : Reads noFlags words f)
    (hoptimizer : optimizerOf f = s.optimizer) :
    ∃ s', Settings.ofArguments lang c.remappings words = .ok s' ∧ s'.optimizer = s.optimizer ∧
      (s'.viaIR = s.viaIR ↔ (f.viaIR = true ↔ c.viaIR = true ∨ c.ArgumentsAskViaIR)) := by
  obtain ⟨words', f', hwords, hreads', -, hviaIR⟩ := settings_eq_ok h
  refine ⟨_, ofArguments_eq_ok_iff.2 ⟨f, hreads, rfl⟩, hoptimizer, ?_⟩
  rw [argumentsAskViaIR_iff hwords hreads', hviaIR, ← Bool.or_eq_true]
  change (if f.viaIR then some true else none) = _ ↔ _
  cases f.viaIR <;> cases (c.viaIR || f'.viaIR) <;> simp

/-- The flags of a file are read back as its optimizer, where the number of runs is a 64-bit word,
and as its way through the compiler exactly if they record it. -/
theorem optimizationFlags_describe_iff (h : c.settings file lang = .ok s)
    (hword : ∀ n ∈ c.optimizeRuns file, n ≤ Text.maxWord) :
    ∃ words s', split (c.optimizationFlags file) = some words ∧
      Settings.ofArguments lang c.remappings words = .ok s' ∧ s'.optimizer = s.optimizer ∧
      (s'.viaIR = s.viaIR ↔ c.RecordsViaIR file) := by
  cases hruns : c.optimizeRuns file with
  | some n =>
    obtain ⟨words, f, hsplit, hreads, hoptimizer, hviaIR⟩ :=
      describe_of_runs h hruns (hword n hruns)
    obtain ⟨s', hread, hsame, hiff⟩ := exists_ofArguments h hreads hoptimizer
    refine ⟨words, s', hsplit, hread, hsame, hiff.trans ?_⟩
    rw [hviaIR]
    constructor
    · intro hasks
      exact ⟨fun _ hask => hasks.2 (.inr hask), fun hnone => by simp [hruns] at hnone⟩
    · intro hrecords
      have := hrecords.ofRuns (by simp [hruns])
      tauto
  | none =>
    obtain ⟨words, f, hsplit, hreads, hoptimizer, hviaIR⟩ := describe_of_arguments h hruns
    obtain ⟨s', hread, hsame, hiff⟩ := exists_ofArguments h hreads hoptimizer
    refine ⟨words, s', hsplit, hread, hsame, hiff.trans ?_⟩
    rw [hviaIR]
    constructor
    · intro hasks
      refine ⟨fun hsome => by simp [hruns] at hsome, fun _ hflag hnot => ?_⟩
      exact ((hasks.2 (.inl hflag)).resolve_right hnot).2
    · intro hrecords
      by_cases hask : c.ArgumentsAskViaIR
      · simp [hask]
      · have hopen := fun hflag => hrecords.ofArguments hruns hflag hask
        simpa [hask] using hopen

/-- A configuration with compiler arguments, which the flags repeat. -/
def london : Config :=
  { compilerArguments := some "--optimize-runs 200 --evm-version london", viaIR := true }

theorem optimizationFlags_describe_london : london.RecordsViaIR "/vroot/Vault.sol" ∧
    ∃ s words s', london.settings "/vroot/Vault.sol" .solidity = .ok s ∧
      split (london.optimizationFlags "/vroot/Vault.sol") = some words ∧
      Settings.ofArguments .solidity [] words = .ok s' ∧
      s'.optimizer = s.optimizer ∧ s'.viaIR = s.viaIR := by
  have hrecords : london.RecordsViaIR "/vroot/Vault.sol" := by
    refine ⟨fun _ _ => rfl, fun _ _ _ text htext => ?_⟩
    cases htext
    decide +kernel
  have hok : (london.settings "/vroot/Vault.sol" .solidity).toOption.isSome := by decide +kernel
  obtain ⟨s, hs⟩ := Option.isSome_iff_exists.1 hok
  have hs := Run.toOption_eq_some_iff.1 hs
  have hruns : london.optimizeRuns "/vroot/Vault.sol" = none := by decide +kernel
  obtain ⟨words, s', hsplit, hread, hoptimizer, hviaIR⟩ :=
    optimizationFlags_describe_iff hs (by simp [hruns])
  exact ⟨hrecords, s, words, s', hs, hsplit, hread, hoptimizer, hviaIR.2 hrecords⟩

/-- A configuration with a number of runs, which the flags show in the place of the arguments. -/
def replaced : Config := { compilerArguments := some "--via-ir", optimize := some 200 }

/-- What only the replaced arguments ask for is not recorded. -/
theorem optimizationFlags_not_describe_replaced : ∃ s words s',
    replaced.settings "/vroot/Vault.sol" .solidity = .ok s ∧
    split (replaced.optimizationFlags "/vroot/Vault.sol") = some words ∧
    Settings.ofArguments .solidity [] words = .ok s' ∧ s.viaIR = some true ∧ s'.viaIR = none := by
  have hsettings : (replaced.settings "/vroot/Vault.sol" .solidity).toOption.map Settings.viaIR =
      some (some true) := by
    decide +kernel
  have hread : ((split (replaced.optimizationFlags "/vroot/Vault.sol")).bind fun words =>
      (Settings.ofArguments .solidity [] words).toOption.map Settings.viaIR) = some none := by
    decide +kernel
  obtain ⟨s, hs, hviaIR⟩ := Option.map_eq_some_iff.1 hsettings
  obtain ⟨words, hsplit, hread⟩ := Option.bind_eq_some_iff.1 hread
  obtain ⟨s', hs', hviaIR'⟩ := Option.map_eq_some_iff.1 hread
  exact ⟨s, words, s', Run.toOption_eq_some_iff.1 hs, hsplit, Run.toOption_eq_some_iff.1 hs',
    hviaIR, hviaIR'⟩

end Config

end ContractModel

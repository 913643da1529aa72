import ContractModel.Compilation.Settings
import ContractModel.Proofs.Run
import ContractModel.Proofs.Text.Numerals
import ContractModel.Proofs.Text.Parts

/-! # Reading compiler flags

What a successful reading of flags went through, argument by argument. Further arguments are read as
if they stood alone, and a backslash at the end of the last argument says nothing about the
optimization.
-/

namespace ContractModel.Settings

/-- The flag in an argument, and the value behind the equals sign. -/
def flagOf (argument : String) : String × Option String :=
  match Text.splitOnce "=" argument with
  | some (flag, value) => (flag, some value)
  | none => (argument, none)

/-- The flags that say something; all others are passed over. -/
def knownFlags : List String := ["--optimize", "--via-ir", "--evm-version", "--optimize-runs"]

/-- A flag that takes a value. -/
def TakesValue (flag : String) : Prop := flag = "--evm-version" ∨ flag = "--optimize-runs"

instance : DecidablePred TakesValue := fun flag =>
  inferInstanceAs (Decidable (flag = "--evm-version" ∨ flag = "--optimize-runs"))

/-- Keeps the value of a flag that takes one. -/
def store (f : Flags) (flag value : String) : Except ToolFault Flags :=
  if flag = "--evm-version" then .ok { f with evmVersion := some value }
  else
    match Text.readWord value with
    | .ok n => .ok { f with optimize := true, runs := some n }
    | .error fault => .error (.optimizeRuns value fault)

/-- What an argument says that takes no value from the next one. -/
inductive Alone : Flags → String → Flags → Prop
  | optimize {f argument} (h : (flagOf argument).1 = "--optimize") :
    Alone f argument { f with optimize := true }
  | viaIR {f argument} (h : (flagOf argument).1 = "--via-ir") :
    Alone f argument { f with viaIR := true }
  | inline {f f' argument flag value} (h : flagOf argument = (flag, some value))
    (hflag : TakesValue flag) (hvalue : store f flag value = .ok f') : Alone f argument f'
  | other {f argument} (h : (flagOf argument).1 ∉ knownFlags) : Alone f argument f

/-- A successful reading of arguments. -/
inductive Reads : Flags → List String → Flags → Prop
  | nil (f) : Reads f [] f
  | alone {f f' g argument rest} (h : Alone f argument f') (hrest : Reads f' rest g) :
    Reads f (argument :: rest) g
  | withValue {f f' g argument flag value rest} (h : flagOf argument = (flag, none))
    (hflag : TakesValue flag) (hvalue : store f flag value = .ok f') (hrest : Reads f' rest g) :
    Reads f (argument :: value :: rest) g

variable {f f' g : Flags} {argument flag value : String} {ws vs : List String}

/-- Reading an argument, with its flag and its value named. -/
theorem readFlags_cons (f : Flags) (argument : String) (rest : List String) :
    readFlags f (argument :: rest) =
      if (flagOf argument).1 = "--optimize" then readFlags { f with optimize := true } rest
      else if (flagOf argument).1 = "--via-ir" then readFlags { f with viaIR := true } rest
      else if TakesValue (flagOf argument).1 then
        match (flagOf argument).2, rest with
        | some value, rest => do readFlags (← store f (flagOf argument).1 value) rest
        | none, value :: rest => do readFlags (← store f (flagOf argument).1 value) rest
        | none, [] => .error (.flagWithoutValue (flagOf argument).1)
      else readFlags f rest := by
  rw [readFlags.eq_def]
  rfl

theorem TakesValue.ne (h : TakesValue flag) : flag ≠ "--optimize" ∧ flag ≠ "--via-ir" := by
  rcases h with rfl | rfl <;> decide

theorem readFlags_of_alone (h : Alone f argument f') (rest : List String) :
    readFlags f (argument :: rest) = readFlags f' rest := by
  cases h with
  | optimize h => rw [readFlags_cons, if_pos h]
  | viaIR h => rw [readFlags_cons, h, if_neg (by decide), if_pos rfl]
  | inline h hflag hvalue =>
    rw [readFlags_cons, h, if_neg hflag.ne.1, if_neg hflag.ne.2, if_pos hflag]
    simp only [hvalue]
    rfl
  | other h =>
    simp only [knownFlags, List.mem_cons, List.not_mem_nil, or_false, not_or] at h
    simp [readFlags_cons, TakesValue, h]

theorem readFlags_of_reads (h : Reads f ws g) : readFlags f ws = .ok g := by
  induction h with
  | nil f => rfl
  | alone h _ ih => rw [readFlags_of_alone h, ih]
  | withValue h hflag hvalue _ ih =>
    rw [readFlags_cons, h, if_neg hflag.ne.1, if_neg hflag.ne.2, if_pos hflag]
    exact Run.except_bind_eq_ok_iff.2 ⟨_, hvalue, ih⟩

theorem reads_of_readFlags (h : readFlags f ws = .ok g) : Reads f ws g := by
  fun_induction readFlags f ws with
  | case1 f =>
    cases h
    exact .nil _
  | case2 f argument rest inline? heq ih => exact .alone (.optimize (congrArg Prod.fst heq)) (ih h)
  | case3 f argument rest inline? heq _ ih => exact .alone (.viaIR (congrArg Prod.fst heq)) (ih h)
  | case4 f argument flag _ _ hflag _ value rest heq ih =>
    obtain ⟨f', hvalue, h⟩ := Run.except_bind_eq_ok_iff.1 h
    exact .alone (.inline heq hflag hvalue) (ih f' h)
  | case5 f argument flag _ _ hflag _ value rest heq ih =>
    obtain ⟨f', hvalue, h⟩ := Run.except_bind_eq_ok_iff.1 h
    exact .withValue heq hflag hvalue (ih f' h)
  | case6 => cases h
  | case7 f argument rest flag inline? heq hoptimize hviaIR hflag ih =>
    obtain rfl : (flagOf argument).1 = flag := congrArg Prod.fst heq
    refine .alone (.other ?_) (ih h)
    simpa [knownFlags, hoptimize, hviaIR] using hflag

theorem readFlags_eq_ok_iff : readFlags f ws = .ok g ↔ Reads f ws g :=
  ⟨reads_of_readFlags, readFlags_of_reads⟩

theorem Reads.append {k : Flags} (hws : Reads f ws g) (hvs : Reads g vs k) :
    Reads f (ws ++ vs) k := by
  induction hws with
  | nil f => exact hvs
  | alone h _ ih => exact .alone h (ih hvs)
  | withValue h hflag hvalue _ ih => exact .withValue h hflag hvalue (ih hvs)

/-- Flags that ask for the same optimization. -/
structure SameOptimization (f g : Flags) : Prop where
  optimize : f.optimize = g.optimize
  runs : f.runs = g.runs
  viaIR : f.viaIR = g.viaIR

theorem SameOptimization.refl (f : Flags) : SameOptimization f f := ⟨rfl, rfl, rfl⟩

section Backslash

variable {last ending : String} {front : List String}

theorem flagOf_append (s : String) :
    (∃ flag value, ∀ t, '=' ∉ t.toList → flagOf (s ++ t) = (flag, some (value ++ t))) ∨
      ∀ t, '=' ∉ t.toList → flagOf (s ++ t) = (s ++ t, none) := by
  cases hsplit : Text.splitOnce "=" s with
  | none =>
    right
    intro t ht
    rw [flagOf, Text.splitOnce_append_of_notMem rfl hsplit ht]
  | some parts =>
    left
    refine ⟨parts.1, parts.2, fun t _ => ?_⟩
    rw [flagOf, Text.splitOnce_append rfl hsplit]

/-- No flag has a backslash or a blank in it. -/
theorem notMem_knownFlags {c : Char} {s : String} (h : c ∈ s.toList) (hc : c = '\\' ∨ c = ' ') :
    s ∉ knownFlags := by
  have hflags : ∀ flag ∈ knownFlags, '\\' ∉ flag.toList ∧ ' ' ∉ flag.toList := by decide
  intro hs
  rcases hc with rfl | rfl
  · exact (hflags s hs).1 h
  · exact (hflags s hs).2 h

/-- A value with a backslash is no number of runs. -/
theorem store_backslash (hflag : TakesValue flag) (h : store f flag (value ++ "\\") = .ok f')
    (ending : String) :
    ∃ f'', store f flag (value ++ ending) = .ok f'' ∧ SameOptimization f' f'' := by
  rcases hflag with rfl | rfl
  · cases h
    exact ⟨_, rfl, rfl, rfl, rfl⟩
  · cases hread : Text.readWord (value ++ "\\") with
    | error fault => simp [store, hread] at h
    | ok n =>
      have hbackslash : '\\' ∈ (value ++ "\\").toList := by simp
      rcases Text.isSome_digitValue_of_readWord hread hbackslash with hplus | hdigit
      · cases hplus
      · cases hdigit

theorem Alone.backslash (h : Alone f (last ++ "\\") f') (hblank : ' ' ∈ ending.toList)
    (hequals : '=' ∉ ending.toList) :
    ∃ f'', Alone f (last ++ ending) f'' ∧ SameOptimization f' f'' := by
  rcases flagOf_append last with ⟨flag, value, hinline⟩ | hwhole
  · have hback := hinline "\\" (by decide)
    have hend := hinline ending hequals
    have hflag : (flagOf (last ++ ending)).1 = (flagOf (last ++ "\\")).1 := by rw [hback, hend]
    cases h with
    | optimize h => exact ⟨_, .optimize (hflag.trans h), .refl _⟩
    | viaIR h => exact ⟨_, .viaIR (hflag.trans h), .refl _⟩
    | other h => exact ⟨_, .other (hflag ▸ h), .refl _⟩
    | inline h hflag hvalue =>
      cases hback.symm.trans h
      obtain ⟨f'', hvalue, hsame⟩ := store_backslash hflag hvalue ending
      exact ⟨f'', .inline hend hflag hvalue, hsame⟩
  · have hback := hwhole "\\" (by decide)
    have hend := hwhole ending hequals
    have hunknown : (flagOf (last ++ "\\")).1 ∉ knownFlags := by
      rw [hback]
      exact notMem_knownFlags (by simp) (.inl rfl)
    have hunknown' : (flagOf (last ++ ending)).1 ∉ knownFlags := by
      rw [hend]
      exact notMem_knownFlags (by simp [hblank]) (.inr rfl)
    cases h with
    | optimize h => exact absurd (h ▸ by decide) hunknown
    | viaIR h => exact absurd (h ▸ by decide) hunknown
    | inline h _ _ => cases hback.symm.trans h
    | other _ => exact ⟨_, .other hunknown', .refl _⟩

/-- In the place of a backslash at the end of the last argument something else may stand. -/
theorem Reads.backslash (h : Reads f (front ++ [last ++ "\\"]) g) (hblank : ' ' ∈ ending.toList)
    (hequals : '=' ∉ ending.toList) :
    ∃ g', Reads f (front ++ [last ++ ending]) g' ∧ SameOptimization g g' := by
  generalize hws : front ++ [last ++ "\\"] = ws at h
  induction h generalizing front with
  | nil f => simp at hws
  | alone h hrest ih =>
    cases front with
    | nil =>
      cases hws
      cases hrest
      obtain ⟨g', halone, hsame⟩ := h.backslash hblank hequals
      exact ⟨g', .alone halone (.nil g'), hsame⟩
    | cons argument front =>
      cases hws
      obtain ⟨g', hreads, hsame⟩ := ih rfl
      exact ⟨g', .alone h hreads, hsame⟩
  | withValue h hflag hvalue hrest ih =>
    cases front with
    | nil => cases hws
    | cons argument front =>
      cases front with
      | nil =>
        cases hws
        cases hrest
        obtain ⟨g', hvalue, hsame⟩ := store_backslash hflag hvalue ending
        exact ⟨g', .withValue h hflag hvalue (.nil g'), hsame⟩
      | cons value front =>
        cases hws
        obtain ⟨g', hreads, hsame⟩ := ih rfl
        exact ⟨g', .withValue h hflag hvalue hreads, hsame⟩

end Backslash

end ContractModel.Settings

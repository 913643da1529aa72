import ContractModel.Compilation.Program
import ContractModel.Proofs.Build.Units
import ContractModel.Proofs.Compilation.OutputCodec
import ContractModel.Proofs.ConfigCodec
import ContractModel.Proofs.Json.Texts
import ContractModel.Proofs.Places

/-! # Reading saved outputs and configurations

What the compiler answered is read again from what is saved of it, up to the binary64 numbers where
any value may stand: their texts are shortest, but the reader does not always round to nearest. A
configuration holds no such number.
-/

namespace ContractModel

open Json Run

namespace FileTree

theorem toList_byteArray (bs : ByteArray) : bs.toList = bs.data.toList := by
  have hloop : ∀ i r, ByteArray.toList.loop bs i r = r.reverse ++ bs.data.toList.drop i := by
    intro i r
    fun_induction ByteArray.toList.loop bs i r with
    | case1 i r hi ih =>
      have hi' : i < bs.data.toList.length := by simpa using hi
      have hget : bs.get! i = bs.data.toList[i] := by
        simp only [ByteArray.get!, Array.getElem_toList]
        exact getElem!_pos bs.data i hi
      rw [ih, List.reverse_cons, List.append_assoc, List.drop_eq_getElem_cons hi', hget]
      rfl
    | case2 i r hi =>
      rw [List.drop_eq_nil_of_le (Nat.le_of_not_lt hi), List.append_nil]
  simpa [ByteArray.toList] using hloop 0 []

theorem bytesText?_textBytes (s : String) : bytesText? (textBytes s) = some s := by
  have hbytes : (⟨(textBytes s).toArray⟩ : ByteArray) = s.toByteArray := by
    rw [textBytes, toList_byteArray]
    rfl
  rw [bytesText?, hbytes, String.fromUTF8?, dif_pos s.isValidUTF8]
  rfl

end FileTree

/-! ## Outputs -/

namespace CompilerOutput

variable {w : Written} {o : CompilerOutput} {text : String}

/-- An output is read again from the value that it is written as. -/
theorem read_written (h : CompilerOutput.read w = some o) :
    CompilerOutput.read o.json.written = some o := by
  rw [← readAs_number]
  exact (codec.readAs_iff h .number).2 (fixed_number _)

theorem within_of_parse (htext : Written.parse text = some w) (h : CompilerOutput.read w = some o) :
    o.json.Within Parser.maxDepth :=
  codec.within h (by decide) (Parser.within_of_parse htext)

/-- An output is read again from its text exactly if all its binary64 numbers are. -/
theorem read_text_iff (htext : Written.parse text = some w) (h : CompilerOutput.read w = some o) :
    ∀ saved ∈ [o.json.compact, o.json.indented],
      (Written.parse saved).bind CompilerOutput.read = some o ↔ o.json.RereadsFloats := by
  have hwithin := within_of_parse htext h
  have hread : CompilerOutput.read (o.json.readAs Number.reread) = some o ↔
      o.json.RereadsFloats :=
    (codec.readAs_iff h _).trans (fixed_reread_iff hwithin)
  simp only [List.forall_mem_cons, parse_compact hwithin, parse_indented hwithin,
    Option.bind_some, hread, List.not_mem_nil, false_implies, implies_true, and_self]

end CompilerOutput

theorem Collect.read_of_saveOutput {setting : BuildSetting} {unitName : String}
    {o : CompilerOutput} {s s' : BuildState} {u : Unit}
    (h : (saveOutput setting unitName o).run.run s = (.ok u, s')) :
    s'.files.read (Path.append setting.config.configDir (unitName ++ ".standard.json")) =
      .ok (FileTree.textBytes o.json.indented) := by
  obtain ⟨_, t, -, h⟩ := bind_eq_ok_iff.1 h
  obtain ⟨_, t, hwrite, h⟩ := bind_eq_ok_iff.1 h
  obtain ⟨files, hfiles, rfl⟩ := Build.onFiles_eq_ok_iff.1 hwrite
  cases h
  exact FileTree.read_of_write hfiles

/-! ## Configurations -/

namespace Config

theorem float_notMem_numbers (c : Config) (bits : UInt64) : .float bits ∉ c.json.numbers := by
  have hfixed : c.json.Fixed fun n => if n = .float bits then .unreadable else .number n := by
    simp [Config.json]
  exact fun hbits => absurd (hfixed _ hbits) (by simp)

/-- A configuration is read again from the text that the model keeps of it. -/
theorem read_generatedWith {w : Written} {c : Config} (h : Config.read w = some c) :
    (Written.parse c.generatedWith).bind Config.read = some c := by
  have hwithin : c.json.Within Parser.maxDepth := (Config.within_of_read h).mono (by decide)
  rw [Config.generatedWith, parse_compact hwithin, Option.bind_some, Config.codec.readAs_iff h,
    fixed_reread_iff hwithin]
  exact fun bits hbits => absurd hbits (c.float_notMem_numbers bits)

end Config

/-! ## What is saved -/

/-- An output is read again from its value, and from what is saved of it exactly if the binary64
numbers in it are read from their own texts; a configuration is read again in any case. -/
theorem outputs_and_configurations_reread :
    (∀ w o, CompilerOutput.read w = some o → CompilerOutput.read o.json.written = some o) ∧
    (∀ text w o, Written.parse text = some w → CompilerOutput.read w = some o →
      (∀ saved ∈ [o.json.compact, o.json.indented],
        (Written.parse saved).bind CompilerOutput.read = some o ↔ o.json.RereadsFloats) ∧
      ∀ setting unitName s s',
        (Collect.saveOutput setting unitName o).run.run s = (.ok (), s') → ∃ bytes,
          s'.files.read (Path.append setting.config.configDir (unitName ++ ".standard.json")) =
            .ok bytes ∧
          ∀ code stderr, (RunResult.mk code bytes stderr).compilerOutput? = some o ↔
            o.json.RereadsFloats) ∧
    ∀ w c, Config.read w = some c → (Written.parse c.generatedWith).bind Config.read = some c := by
  refine ⟨fun w o h => CompilerOutput.read_written h, fun text w o htext h => ?_,
    fun w c h => Config.read_generatedWith h⟩
  have htexts := CompilerOutput.read_text_iff htext h
  refine ⟨htexts, fun setting unitName s s' hsave => ?_⟩
  refine ⟨_, Collect.read_of_saveOutput hsave, fun code stderr => ?_⟩
  have hindented := htexts o.json.indented (by simp)
  rwa [RunResult.compilerOutput?, FileTree.bytesText?_textBytes]

section Storage

/-! Outputs with one number, given as the storage layout of a contract. -/

def storageText (number : String) : String :=
  "\x7b\"contracts\":\x7b\"A.sol\":\x7b\"A\":\x7b\"storageLayout\":" ++ number ++
    "\x7d\x7d\x7d\x7d"

def storageSetting : BuildSetting := ⟨{ configDir := "/p/out" }, .ofOutputs [], ∅⟩

def storageState : BuildState := .start (.ofEntries "/p" [("/p/A.sol", .file [])])

theorem half_reread :
    (∃ w o s', Written.parse (storageText "0.5") = some w ∧ CompilerOutput.read w = some o ∧
      (Collect.saveOutput storageSetting "A.sol_0" o).run.run storageState = (.ok (), s') ∧
      CompilerOutput.read o.json.written = some o ∧
      (∀ saved ∈ [o.json.compact, o.json.indented],
        (Written.parse saved).bind CompilerOutput.read = some o) ∧
      ∃ bytes, s'.files.read "/p/out/A.sol_0.standard.json" = .ok bytes ∧
        (RunResult.mk 0 bytes []).compilerOutput? = some o) ∧
    ∃ w c, Written.parse "\x7b\"files\":[\"A.sol\"],\"optimize\":200\x7d" = some w ∧
      Config.read w = some c ∧ (Written.parse c.generatedWith).bind Config.read = some c := by
  obtain ⟨hvalue, htext, hconfig⟩ := outputs_and_configurations_reread
  constructor
  · have hrun : ((Written.parse (storageText "0.5")).bind CompilerOutput.read).map (fun o =>
        (decide o.json.RereadsFloats,
          ((Collect.saveOutput storageSetting "A.sol_0" o).run.run storageState).1.isOk)) =
        some (true, true) := by decide +kernel
    obtain ⟨o, ho, hrun⟩ := Option.map_eq_some_iff.1 hrun
    obtain ⟨w, hw, ho⟩ := Option.bind_eq_some_iff.1 ho
    obtain ⟨hfloats, hsaved⟩ := Prod.mk.inj hrun
    have hfloats := of_decide_eq_true hfloats
    obtain ⟨htexts, hfile⟩ := htext _ w o hw ho
    rcases hsave : (Collect.saveOutput storageSetting "A.sol_0" o).run.run storageState with
      ⟨_ | _, s'⟩
    · rw [hsave] at hsaved
      cases hsaved
    · obtain ⟨bytes, hbytes, hrerun⟩ := hfile _ _ _ _ hsave
      exact ⟨w, o, s', hw, ho, hsave, hvalue w o ho, fun saved h => (htexts saved h).2 hfloats,
        bytes, hbytes, (hrerun 0 []).2 hfloats⟩
  · have hrun : ((Written.parse "\x7b\"files\":[\"A.sol\"],\"optimize\":200\x7d").bind
        Config.read).isSome := by decide +kernel
    obtain ⟨c, hc⟩ := Option.isSome_iff_exists.1 hrun
    obtain ⟨w, hw, hc⟩ := Option.bind_eq_some_iff.1 hc
    exact ⟨w, c, hw, hc, hconfig w c hc⟩

/-- The number is read too low twice, in the output and in what is saved of it. -/
theorem rounded_not_reread :
    ∃ w o, Written.parse (storageText "3e49") = some w ∧ CompilerOutput.read w = some o ∧
      o.json.compact = "\x7b\"contracts\":\x7b\"A.sol\":\x7b\"A\":\x7b\"abi\":[]," ++
        "\"storageLayout\":2.9999999999999997e+49\x7d\x7d\x7d\x7d" ∧
      (Written.parse o.json.indented).bind CompilerOutput.read ≠ some o := by
  have hrun : ((Written.parse (storageText "3e49")).bind CompilerOutput.read).map (fun o =>
      (decide o.json.RereadsFloats, o.json.compact)) = some (false,
        "\x7b\"contracts\":\x7b\"A.sol\":\x7b\"A\":\x7b\"abi\":[]," ++
          "\"storageLayout\":2.9999999999999997e+49\x7d\x7d\x7d\x7d") := by decide +kernel
  obtain ⟨o, ho, hrun⟩ := Option.map_eq_some_iff.1 hrun
  obtain ⟨w, hw, ho⟩ := Option.bind_eq_some_iff.1 ho
  obtain ⟨hfloats, hcompact⟩ := Prod.mk.inj hrun
  refine ⟨w, o, hw, ho, hcompact, fun hreread => of_decide_eq_false hfloats ?_⟩
  exact (CompilerOutput.read_text_iff hw ho _ (by simp)).1 hreread

end Storage

end ContractModel

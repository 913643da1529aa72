import ContractModel.Proofs.Json.NumberTexts

/-! # Limits of what is read

A text is read within limits: an array or object that is nested too deeply has no value, and an
integer that fits no 64-bit type is read as a binary64 number.
-/

namespace ContractModel.Json.Parser

variable {depth fuel : Nat} {cs rest : List Char} {w : Written}

theorem within_of_word {s : String} {v : Written} (hv : ∀ k, v.Within k)
    (h : word s v cs = some (w, rest)) (k : Nat) : w.Within k := by
  obtain ⟨_, -, ⟨⟩⟩ := Option.map_eq_some_iff.1 h
  exact hv k

theorem within_float (negative : Bool) (whole fraction : List Nat)
    (exponent : Option (Bool × List Nat)) (k : Nat) :
    (Parser.float negative whole fraction exponent).Within k := by
  unfold Parser.float
  split
  dsimp only
  split
  · exact .unreadable
  · exact .number trivial

theorem within_ofParts (negative : Bool) (whole : List Nat) (fraction : Option (List Nat))
    (power : Option (Bool × List Nat)) (k : Nat) :
    (ofParts negative whole fraction power).Within k := by
  unfold ofParts
  dsimp only
  generalize whole.foldl (fun n d => n * 10 + d) 0 = n
  split
  · split
    · next hn =>
      rw [Text.maxWord] at hn
      exact .number ⟨by omega, by omega⟩
    · split
      · next hn =>
        rw [Text.maxInt] at hn
        exact .number ⟨by omega, by omega⟩
      · exact within_float _ _ _ _ k
  · exact within_float _ _ _ _ k

theorem within_of_number (h : number cs = some (w, rest)) (k : Nat) : w.Within k := by
  rw [number_eq] at h
  split at h
  · cases h
  · obtain ⟨_, -, h⟩ := Option.bind_eq_some_iff.1 h
    obtain ⟨_, -, ⟨⟩⟩ := Option.bind_eq_some_iff.1 h
    exact within_ofParts _ _ _ _ k

theorem within_nested_array {ws : List Written} (h : ∀ w ∈ ws, w.Within (127 - depth)) :
    (nested depth (.array ws)).Within (128 - depth) := by
  unfold nested
  split
  · next hdepth =>
    rw [maxDepth] at hdepth
    rw [show 128 - depth = 127 - depth + 1 by omega]
    exact .array h
  · exact .unreadable

theorem within_nested_members {ms : List (Option String × Written)}
    (h : ∀ m ∈ ms, m.2.Within (127 - depth)) :
    (nested depth (.ofMembers ms)).Within (128 - depth) := by
  unfold nested
  split
  · next hdepth =>
    rw [maxDepth] at hdepth
    unfold Written.ofMembers
    split
    · next ms' hms =>
      rw [show 128 - depth = 127 - depth + 1 by omega]
      refine .object fun m hm => ?_
      obtain ⟨m', hm', heq⟩ := exists_of_mem_mapM hms hm
      obtain ⟨name, -, rfl⟩ := Option.map_eq_some_iff.1 heq
      exact h m' hm'
    · exact .unreadable
  · exact .unreadable

/-- With some fuel, everything that is read at a depth has the limits that are left there. -/
structure ReadsWithin (fuel : Nat) : Prop where
  value : ∀ {depth cs w rest}, value depth fuel cs = some (w, rest) → w.Within (128 - depth)
  items : ∀ {depth cs ws rest}, items depth fuel cs = some (ws, rest) →
    ∀ w ∈ ws, w.Within (128 - depth)
  members : ∀ {depth cs ms rest}, members depth fuel cs = some (ms, rest) →
    ∀ m ∈ ms, m.2.Within (128 - depth)

namespace ReadsWithin

variable {ws : List Written} {ms : List (Option String × Written)}

theorem value_succ (ih : ReadsWithin fuel)
    (h : Parser.value depth (fuel + 1) cs = some (w, rest)) : w.Within (128 - depth) := by
  unfold Parser.value at h
  split at h
  · cases h
  · exact within_of_word (fun _ => .null) h _
  · exact within_of_word (fun _ => .bool) h _
  · exact within_of_word (fun _ => .bool) h _
  · obtain ⟨⟨s?, _⟩, -, ⟨⟩⟩ := Option.map_eq_some_iff.1 h
    cases s? with
    | none => exact .unreadable
    | some s => exact .string
  · split at h
    · cases h
      exact within_nested_array fun _ h => nomatch h
    · obtain ⟨⟨ws, _⟩, hws, ⟨⟩⟩ := Option.map_eq_some_iff.1 h
      exact within_nested_array (by simpa using ih.items hws)
  · split at h
    · cases h
      exact within_nested_members (List.forall_mem_nil _)
    · obtain ⟨⟨ms, _⟩, hms, ⟨⟩⟩ := Option.map_eq_some_iff.1 h
      exact within_nested_members (by simpa using ih.members hms)
  · exact within_of_number h _

theorem items_succ (ih : ReadsWithin fuel)
    (h : Parser.items depth (fuel + 1) cs = some (ws, rest)) :
    ∀ w ∈ ws, w.Within (128 - depth) := by
  unfold Parser.items at h
  obtain ⟨⟨w, cs'⟩, hw, h⟩ := Option.bind_eq_some_iff.1 h
  have hfirst := ih.value hw
  dsimp only at h
  split at h
  · obtain ⟨⟨ws, _⟩, hws, ⟨⟩⟩ := Option.map_eq_some_iff.1 h
    exact List.forall_mem_cons.2 ⟨hfirst, ih.items hws⟩
  · cases h
    exact List.forall_mem_singleton.2 hfirst
  · cases h

theorem members_succ (ih : ReadsWithin fuel)
    (h : Parser.members depth (fuel + 1) cs = some (ms, rest)) :
    ∀ m ∈ ms, m.2.Within (128 - depth) := by
  unfold Parser.members at h
  split at h
  · obtain ⟨⟨name, cs'⟩, -, h⟩ := Option.bind_eq_some_iff.1 h
    dsimp only at h
    split at h
    · obtain ⟨⟨w, cs'⟩, hw, h⟩ := Option.bind_eq_some_iff.1 h
      have hfirst := ih.value hw
      dsimp only at h
      split at h
      · obtain ⟨⟨ms, _⟩, hms, ⟨⟩⟩ := Option.map_eq_some_iff.1 h
        exact List.forall_mem_cons.2 ⟨hfirst, ih.members hms⟩
      · cases h
        exact List.forall_mem_singleton.2 hfirst
      · cases h
    · cases h
  · cases h

end ReadsWithin

theorem readsWithin (fuel : Nat) : ReadsWithin fuel := by
  induction fuel with
  | zero => exact ⟨nofun, nofun, nofun⟩
  | succ fuel ih => exact ⟨ih.value_succ, ih.items_succ, ih.members_succ⟩

/-- A text is read within limits. -/
theorem within_of_parse {s : String} (h : Written.parse s = some w) : w.Within 127 := by
  unfold Written.parse at h
  dsimp only at h
  split at h
  · next w' rest hvalue =>
    rw [Option.ite_none_right_eq_some] at h
    obtain ⟨-, ⟨⟩⟩ := h
    exact (readsWithin _).value hvalue
  · cases h

end ContractModel.Json.Parser

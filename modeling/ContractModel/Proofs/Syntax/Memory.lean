import ContractModel.Proofs.RecentCache
import ContractModel.Proofs.Run
import ContractModel.Types.Reachable

/-! # What an index remembers

Questions about contracts and imported files are answered from memory where possible, and trees that
are added later change nothing in it. So an answer is the one that was found when the question was
last missing from memory, and the one that is found now as long as the trees give the same.
-/

namespace ContractModel.SyntaxIndex

/-- A question whose answer is remembered. The types of a file are collected from the trees. -/
inductive Question where
  | reference (root compiled contract : String)
  | types (root compiled : String) (collect : Trees → Except Error (List SourceType))

inductive Answer where
  | reference (id : Option Int)
  | types (types : List SourceType)
  deriving BEq

/-- What an index is given and asked in the course of time. -/
inductive Request where
  | insert (root : String) (sources : SortedMap String CompiledSource) (lang : Language)
  | ask (question : Question)

namespace Question

def query : Question → Query Answer
  | reference root compiled contract =>
    Answer.reference <$> Query.contractReference root compiled contract
  | types root compiled collect =>
    Answer.types <$> Query.importedTypes root compiled do Query.ofExcept (collect (← Query.trees))

/-- What the index answers. -/
def answer (q : Question) (ix : SyntaxIndex) : Except Error Answer := (q.query.run.run ix).1

/-- What is found in the trees. -/
def fresh (ts : Trees) : Question → Except Error Answer
  | reference root compiled contract => .ok (.reference (ts.findContract root compiled contract))
  | types _ _ collect => Answer.types <$> collect ts

/-- What an answer is remembered under: types regardless of how they are collected. -/
def key : Question → (String × String × String) ⊕ (String × String)
  | reference root compiled contract => .inl (root, compiled, contract)
  | types root compiled _ => .inr (root, compiled)

/-- The index has an answer to the question in its memory. -/
def IsRemembered (ix : SyntaxIndex) : Question → Prop
  | reference root compiled contract => ix.contractDefinitions.peek? (root, compiled, contract) ≠ none
  | types root compiled _ => ix.importedTypes.peek? (root, compiled) ≠ none

end Question

/-- The index after a request. Sources that lack a tree are not added. -/
def step (ix : SyntaxIndex) : Request → SyntaxIndex
  | .insert root sources lang => (ix.insert root sources lang).toOption.getD ix
  | .ask q => (q.query.run.run ix).2

/-- A new index after requests. -/
def after (rs : List Request) : SyntaxIndex := rs.foldl step .empty

/-- The trees after a request, of an index that remembers nothing else. -/
def grow (ts : Trees) : Request → Trees
  | .insert root sources lang =>
    match Trees.unitsOfSources root lang sources.entries with
    | .ok units => ts.insert root (SortedMap.ofList units)
    | .error _ => ts
  | .ask _ => ts

def treesOf (rs : List Request) : Trees := rs.foldl grow ∅

open Question RecentCache

variable {ix : SyntaxIndex}

theorem run_reference (root compiled contract : String) (ix : SyntaxIndex) :
    (reference root compiled contract).query.run.run ix =
      let consulted : Except Error (Option Int) × _ := ix.contractDefinitions.consult
        (root, compiled, contract) (.ok (ix.trees.findContract root compiled contract))
      (Answer.reference <$> consulted.1, { ix with contractDefinitions := consulted.2 }) := by
  unfold query Query.contractReference consult
  rw [ExceptT.run_map, StateT.run_map, Run.run_get_bind]
  dsimp only
  rcases ix.contractDefinitions.get? (root, compiled, contract) with ⟨_ | found, cache⟩ <;> rfl

theorem run_types (root compiled : String) (collect : Trees → Except Error (List SourceType))
    (ix : SyntaxIndex) : (types root compiled collect).query.run.run ix =
      let consulted := ix.importedTypes.consult (root, compiled) (collect ix.trees)
      (Answer.types <$> consulted.1, { ix with importedTypes := consulted.2 }) := by
  have hcollect : (do Query.ofExcept (collect (← Query.trees)) : Query _).run.run ix =
      (collect ix.trees, ix) := by
    change (Query.ofExcept (collect ix.trees)).run.run ix = _
    cases collect ix.trees <;> rfl
  unfold query Query.importedTypes consult
  rw [ExceptT.run_map, StateT.run_map, Run.run_get_bind]
  dsimp only
  rcases ix.importedTypes.get? (root, compiled) with ⟨_ | types, cache⟩
  · dsimp only
    rw [Run.run_bind, hcollect]
    cases collect ix.trees <;> rfl
  · rfl

theorem step_insert (root : String) (sources : SortedMap String CompiledSource) (lang : Language)
    (ix : SyntaxIndex) : step ix (.insert root sources lang) =
      { ix with trees := grow ix.trees (.insert root sources lang) } := by
  simp only [step, grow, SyntaxIndex.insert]
  cases Trees.unitsOfSources root lang sources.entries <;> rfl

/-- Questions leave the trees alone. -/
theorem trees_step (ix : SyntaxIndex) (r : Request) : (step ix r).trees = grow ix.trees r := by
  rcases r with ⟨root, sources, lang⟩ | ⟨root, compiled, contract⟩ | ⟨root, compiled, collect⟩
  · rw [step_insert]
  · exact congrArg (fun run => run.2.trees) (run_reference root compiled contract ix)
  · exact congrArg (fun run => run.2.trees) (run_types root compiled collect ix)

theorem trees_after (rs : List Request) : (after rs).trees = treesOf rs := by
  unfold after treesOf
  exact (List.foldl_hom SyntaxIndex.trees fun ix r => (trees_step ix r).symm).symm

/-- The key of a request about a contract, and what is found for it now. -/
def referenceAsked (r : Request) (ix : SyntaxIndex) :
    Option ((String × String × String) × Except Error (Option Int)) :=
  match r with
  | .ask (reference root compiled contract) =>
    some ((root, compiled, contract), .ok (ix.trees.findContract root compiled contract))
  | _ => none

/-- The key of a request about an imported file, and what is found for it now. -/
def typesAsked (r : Request) (ix : SyntaxIndex) :
    Option ((String × String) × Except Error (List SourceType)) :=
  match r with
  | .ask (types root compiled collect) => some ((root, compiled), collect ix.trees)
  | _ => none

theorem memoizes_references :
    Memoizes step SyntaxIndex.contractDefinitions referenceAsked where
  asks ix r k found h := by
    rcases r with ⟨root, sources, lang⟩ | ⟨root, compiled, contract⟩ | ⟨root, compiled, collect⟩
    · cases h
    · cases h
      exact congrArg (fun run => run.2.contractDefinitions) (run_reference root compiled contract ix)
    · cases h
  leaves ix r h := by
    rcases r with ⟨root, sources, lang⟩ | ⟨root, compiled, contract⟩ | ⟨root, compiled, collect⟩
    · rw [step_insert]
    · cases h
    · exact congrArg (fun run => run.2.contractDefinitions) (run_types root compiled collect ix)

theorem memoizes_types : Memoizes step SyntaxIndex.importedTypes typesAsked where
  asks ix r k found h := by
    rcases r with ⟨root, sources, lang⟩ | ⟨root, compiled, contract⟩ | ⟨root, compiled, collect⟩
    · cases h
    · cases h
    · cases h
      exact congrArg (fun run => run.2.importedTypes) (run_types root compiled collect ix)
  leaves ix r h := by
    rcases r with ⟨root, sources, lang⟩ | ⟨root, compiled, contract⟩ | ⟨root, compiled, collect⟩
    · rw [step_insert]
    · exact congrArg (fun run => run.2.importedTypes) (run_reference root compiled contract ix)
    · cases h

theorem eq_of_referenceAsked {r : Request} {root compiled contract : String}
    {found : Except Error (Option Int)}
    (h : referenceAsked r ix = some ((root, compiled, contract), found)) :
    r = .ask (reference root compiled contract) ∧
      found = .ok (ix.trees.findContract root compiled contract) := by
  rcases r with _ | _ | _
  · cases h
  · cases h
    exact ⟨rfl, rfl⟩
  · cases h

theorem exists_of_typesAsked {r : Request} {root compiled : String}
    {found : Except Error (List SourceType)}
    (h : typesAsked r ix = some ((root, compiled), found)) :
    ∃ collect, r = .ask (types root compiled collect) ∧ found = collect ix.trees := by
  rcases r with _ | _ | ⟨_, _, collect⟩
  · cases h
  · cases h
  · cases h
    exact ⟨collect, rfl, rfl⟩

theorem exists_answer_eq_fresh (rs : List Request) (q : Question) : ∃ front q' back,
    rs ++ [.ask q] = front ++ .ask q' :: back ∧ q'.key = q.key ∧ ¬ q.IsRemembered (after front) ∧
    (∀ mid, mid <+: back → mid ≠ back → q.IsRemembered (after (front ++ .ask q' :: mid))) ∧
    q.answer (after rs) = q'.fresh (treesOf front) := by
  rcases q with ⟨root, compiled, contract⟩ | ⟨root, compiled, collect⟩
  · obtain ⟨front, r, back, found, hcut, hasked, hmissing, hsince, hanswer⟩ :=
      memoizes_references.exists_answer (s := .empty) rfl rs
        (r := .ask (reference root compiled contract)) rfl
    obtain ⟨rfl, rfl⟩ := eq_of_referenceAsked hasked
    refine ⟨front, _, back, hcut, rfl, not_not.2 hmissing, hsince, ?_⟩
    rw [← trees_after]
    exact (congrArg Prod.fst (run_reference root compiled contract (after rs))).trans
      (congrArg (Answer.reference <$> ·) hanswer)
  · obtain ⟨front, r, back, found, hcut, hasked, hmissing, hsince, hanswer⟩ :=
      memoizes_types.exists_answer (s := .empty) rfl rs (r := .ask (types root compiled collect)) rfl
    obtain ⟨collect', rfl, rfl⟩ := exists_of_typesAsked hasked
    refine ⟨front, _, back, hcut, rfl, not_not.2 hmissing, hsince, ?_⟩
    rw [← trees_after]
    exact (congrArg Prod.fst (run_types root compiled collect (after rs))).trans
      (congrArg (Answer.types <$> ·) hanswer)

/-- Whatever is added and asked in whatever order, a question is answered with what was found in the
trees when its answer was last missing from memory. So it is answered with what is found now if all
earlier questions of its key would have been. -/
theorem answer_of_last_miss (rs : List Request) (q : Question) :
    (∃ front q' back, rs ++ [.ask q] = front ++ .ask q' :: back ∧ q'.key = q.key ∧
      ¬ q.IsRemembered (after front) ∧
      (∀ mid, mid <+: back → mid ≠ back → q.IsRemembered (after (front ++ .ask q' :: mid))) ∧
      q.answer (after rs) = q'.fresh (treesOf front)) ∧
    ((∀ front q' back, rs = front ++ .ask q' :: back → q'.key = q.key →
        q'.fresh (treesOf front) = q.fresh (treesOf rs)) →
      q.answer (after rs) = q.fresh (treesOf rs)) := by
  refine ⟨exists_answer_eq_fresh rs q, fun hsame => ?_⟩
  obtain ⟨front, q', back, hcut, hkey, -, -, hanswer⟩ := exists_answer_eq_fresh rs q
  rw [hanswer]
  rcases back.eq_nil_or_concat with rfl | ⟨back, r, rfl⟩
  · obtain ⟨rfl, hlast⟩ := List.append_inj' hcut rfl
    cases hlast
    rfl
  · rw [List.concat_eq_append, ← List.cons_append, ← List.append_assoc] at hcut
    obtain ⟨rfl, -⟩ := List.append_inj' hcut rfl
    exact hsame front q' back rfl hkey

section Recompiled

/-! A contract that is compiled twice and gets another identifier the second time. -/

def vaultSources (id : Nat) : SortedMap String CompiledSource :=
  .ofList [("Vault.sol", ⟨0, some (.object [("id", .ofNat id), ("nodeType", "ContractDefinition"),
    ("name", "Vault")])⟩)]

def vaultReference : Question := .reference "Vault.sol" "Vault.sol" "Vault"

/-- A question between the compilation of a file and that of another one, or of the same again. -/
def compilations (second : String) : List Request :=
  [.insert "Vault.sol" (vaultSources 2) .solidity, .ask vaultReference,
    .insert second (vaultSources 3) .solidity]

theorem answer_of_last_miss_other :
    (∀ front q' back, compilations "Market.sol" = front ++ .ask q' :: back →
      q'.key = vaultReference.key →
      q'.fresh (treesOf front) = vaultReference.fresh (treesOf (compilations "Market.sol"))) ∧
    vaultReference.answer (after (compilations "Market.sol")) =
      vaultReference.fresh (treesOf (compilations "Market.sol")) := by
  have hsame : ∀ front q' back, compilations "Market.sol" = front ++ .ask q' :: back →
      q'.key = vaultReference.key →
      q'.fresh (treesOf front) = vaultReference.fresh (treesOf (compilations "Market.sol")) := by
    rintro front q' back hcut -
    unfold compilations at hcut
    rcases front with _ | ⟨_, _ | ⟨_, _ | ⟨_, front⟩⟩⟩
    · cases hcut
    · cases hcut
      exact congrArg (fun id => Except.ok (Answer.reference id)) (by decide +kernel)
    · cases hcut
    · simp at hcut
  exact ⟨hsame, (answer_of_last_miss _ vaultReference).2 hsame⟩

/-- The answer from before the second compilation is kept. -/
theorem answer_recompiled :
    vaultReference.answer (after (compilations "Vault.sol")) = .ok (.reference (some 2)) ∧
    vaultReference.fresh (treesOf (compilations "Vault.sol")) = .ok (.reference (some 3)) := by
  constructor
  · refine (congrArg Prod.fst (run_reference _ _ _ _)).trans ?_
    exact congrArg (Answer.reference <$> ·) (Run.toOption_eq_some_iff.1 (by decide +kernel))
  · refine congrArg (fun id => Except.ok (Answer.reference id)) ?_
    decide +kernel

end Recompiled

end ContractModel.SyntaxIndex

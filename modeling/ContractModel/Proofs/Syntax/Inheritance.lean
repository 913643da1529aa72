import ContractModel.Proofs.Run
import ContractModel.Syntax.Inheritance
import Mathlib.Data.List.Perm.Subperm
import Mathlib.Logic.Relation

/-! # The order of the base list

The contracts of a compilation with their direct bases are a graph, and the base list is a
breadth-first search in it. A contract is listed once. Where every contract is one level above its
direct bases, the levels ascend along the list, so no contract stands in front of its heirs. A base
that is inherited both directly and through another base breaks this.
-/

namespace ContractModel.Inheritance

/-- A node of the base's file that defines it. -/
structure Defines (ts : Trees) (root : String) (c : BaseContract) (n : Node) : Prop where
  mem : n ∈ ts.nodesOf root c.file
  name : n.name = c.name
  isLibrary : n.isLibrary = c.isLibrary

def DirectBase (ts : Trees) (root : String) (heir base : BaseContract) : Prop :=
  ∃ n, Defines ts root heir n ∧ ∃ bs, directBases ts root n = .ok bs ∧ base ∈ bs.map Prod.fst

/-- The first contract inherits from the second, directly or transitively. -/
def Inherits (ts : Trees) (root : String) : BaseContract → BaseContract → Prop :=
  Relation.TransGen (DirectBase ts root)

def Acyclic (ts : Trees) (root : String) : Prop := ∀ c, ¬ Inherits ts root c c

variable {ts : Trees} {root : String}

section Depth

variable {depth : BaseContract → Nat}

theorem lt_of_inherits
    (hdepth : ∀ heir base, DirectBase ts root heir base → depth heir < depth base)
    {heir base : BaseContract} (h : Inherits ts root heir base) : depth heir < depth base := by
  induction h with
  | single h => exact hdepth _ _ h
  | tail _ h ih => exact Nat.lt_trans ih (hdepth _ _ h)

theorem acyclic_of_depth
    (hdepth : ∀ heir base, DirectBase ts root heir base → depth heir < depth base) :
    Acyclic ts root :=
  fun _ h => Nat.lt_irrefl _ (lt_of_inherits hdepth h)

end Depth

section Links

/-- The contracts of a compilation, each with one of its direct bases. -/
def links (ts : Trees) (root : String) : List (BaseContract × BaseContract) :=
  (ts.unitsOf root).entries.flatMap fun e => e.2.nodes.flatMap fun n =>
    ((directBases ts root n).toOption.getD []).map fun b => (⟨e.1, n.name, n.isLibrary⟩, b.1)

theorem mem_nodesOf_iff {file : String} {n : Node} :
    n ∈ ts.nodesOf root file ↔ ∃ t, (file, t) ∈ (ts.unitsOf root).entries ∧ n ∈ t.nodes := by
  simp only [← SortedMap.get?_eq_some_iff, Trees.nodesOf, Trees.unit?]
  cases (ts.unitsOf root).get? file <;> simp

theorem nodup_id_nodesOf (ts : Trees) (root file : String) :
    ((ts.nodesOf root file).map Node.id).Nodup := by
  unfold Trees.nodesOf
  cases ts.unit? root file with
  | none => exact .nil
  | some t => exact t.nodup

theorem mem_links_iff {heir base : BaseContract} :
    (heir, base) ∈ links ts root ↔ DirectBase ts root heir base := by
  simp only [links, List.mem_flatMap, List.mem_map, Prod.mk.injEq]
  constructor
  · rintro ⟨⟨file, t⟩, ht, n, hn, ⟨_, m⟩, hb, rfl, rfl⟩
    refine ⟨n, ⟨mem_nodesOf_iff.2 ⟨t, ht, hn⟩, rfl, rfl⟩, ?_⟩
    cases hbs : directBases ts root n with
    | error e =>
      rw [hbs] at hb
      cases hb
    | ok bs =>
      rw [hbs] at hb
      exact ⟨bs, rfl, List.mem_map.2 ⟨_, hb, rfl⟩⟩
  · rintro ⟨n, ⟨hn, hname, hlibrary⟩, bs, hbs, hbase⟩
    obtain ⟨t, ht, hn⟩ := mem_nodesOf_iff.1 hn
    obtain ⟨b, hb, rfl⟩ := List.mem_map.1 hbase
    refine ⟨(heir.file, t), ht, n, hn, b, ?_, ?_, rfl⟩
    · rw [hbs]
      exact hb
    · rw [hname, hlibrary]

instance : DecidableRel (DirectBase ts root) := fun _ _ => decidable_of_iff _ mem_links_iff

end Links

/-- The declaration that a reference finds is a node of the file that it finds. -/
theorem mem_nodesOf_of_definition {id : Int} {file : String} {n : Node}
    (hfile : ts.fileOf root id = .ok file) (hn : ts.definition root id = .ok n) :
    n ∈ ts.nodesOf root file := by
  cases hholder : ts.holder? root id with
  | none =>
    rw [Trees.fileOf, hholder] at hfile
    cases hfile
  | some e =>
    rw [Trees.fileOf, hholder] at hfile
    cases hfile
    rw [Trees.definition, Trees.node?, hholder, Option.bind_some] at hn
    split at hn
    · next n hnode =>
      cases hn
      exact mem_nodesOf_iff.2 ⟨e.2, List.mem_of_find?_eq_some hholder,
        List.mem_of_find?_eq_some hnode⟩
    · cases hn

theorem defines_of_ofSpecifier {heir : Int} {specifier : Json} {b : BaseContract × Node}
    (h : ofSpecifier ts root heir specifier = .ok b) : Defines ts root b.1 b.2 := by
  simp only [ofSpecifier] at h
  split at h
  · cases h
  · obtain ⟨file, hfile, h⟩ := Run.except_bind_eq_ok_iff.1 h
    obtain ⟨base, hbase, h⟩ := Run.except_bind_eq_ok_iff.1 h
    cases h
    exact ⟨mem_nodesOf_of_definition hfile hbase, rfl, rfl⟩

theorem defines_of_directBases {n : Node} {bs : List (BaseContract × Node)}
    {b : BaseContract × Node} (h : directBases ts root n = .ok bs) (hb : b ∈ bs) :
    Defines ts root b.1 b.2 := by
  unfold directBases at h
  split at h
  · cases h
  · obtain ⟨specifier, -, hspecifier⟩ := Run.exists_of_mem_mapM h hb
    exact defines_of_ofSpecifier hspecifier

section Visit

variable {found bases : List BaseContract} {bs new queue : List (BaseContract × Node)} {steps : Nat}

/-- Of the direct bases of a contract, those that were not met before. -/
structure Fresh (found : List BaseContract) (bs new : List (BaseContract × Node)) : Prop where
  sublist : new.Sublist bs
  nodup : (new.map Prod.fst).Nodup
  notMem : ∀ b ∈ new, b.1 ∉ found

theorem exists_fresh (bs : List (BaseContract × Node)) (found : List BaseContract)
    (added : List Node) :
    ∃ new, Fresh found bs new ∧
      bs.foldl addBase (found, added) = (found ++ new.map Prod.fst, added ++ new.map Prod.snd) := by
  induction bs generalizing found added with
  | nil => exact ⟨[], ⟨.slnil, .nil, fun _ h => nomatch h⟩, by simp⟩
  | cons b bs ih =>
    by_cases hb : b.1 ∈ found
    · obtain ⟨new, hnew, heq⟩ := ih found added
      refine ⟨new, ⟨hnew.sublist.cons b, hnew.nodup, hnew.notMem⟩, ?_⟩
      rw [List.foldl_cons, addBase, if_pos (by simpa using hb), heq]
    · obtain ⟨new, hnew, heq⟩ := ih (found ++ [b.1]) (added ++ [b.2])
      have hnotMem : ∀ b' ∈ new, b'.1 ∉ found ∧ b'.1 ≠ b.1 := fun b' hb' => by
        simpa [not_or] using hnew.notMem b' hb'
      refine ⟨b :: new, ⟨hnew.sublist.cons_cons b, ?_, ?_⟩, ?_⟩
      · refine List.nodup_cons.2 ⟨fun hmem => ?_, hnew.nodup⟩
        obtain ⟨b', hb', heq⟩ := List.mem_map.1 hmem
        exact (hnotMem b' hb').2 heq
      · rintro b' (_ | ⟨_, hb'⟩)
        · exact hb
        · exact (hnotMem b' hb').1
      · rw [List.foldl_cons, addBase, if_neg (by simpa using hb), heq]
        simp

theorem Fresh.nodup_append (hnew : Fresh found bs new) (h : found.Nodup) :
    (found ++ new.map Prod.fst).Nodup := by
  refine List.nodup_append.2 ⟨h, hnew.nodup, ?_⟩
  rintro c hc _ hmem rfl
  obtain ⟨b, hb, rfl⟩ := List.mem_map.1 hmem
  exact hnew.notMem b hb hc

theorem Fresh.defines (hnew : Fresh found bs new) {n : Node}
    (hbs : directBases ts root n = .ok bs) {b : BaseContract × Node} (hb : b ∈ new) :
    Defines ts root b.1 b.2 :=
  defines_of_directBases hbs (hnew.sublist.subset hb)

theorem Fresh.exists_defines (hnew : Fresh found bs new) {n : Node}
    (hbs : directBases ts root n = .ok bs) {first : BaseContract}
    (h : ∀ c ∈ found, c = first ∨ ∃ n, Defines ts root c n) :
    ∀ c ∈ found ++ new.map Prod.fst, c = first ∨ ∃ n, Defines ts root c n := by
  intro c hc
  rcases List.mem_append.1 hc with hc | hc
  · exact h c hc
  · obtain ⟨b, hb, rfl⟩ := List.mem_map.1 hc
    exact .inr ⟨b.2, hnew.defines hbs hb⟩

/-- What holds of the first contract, and is kept when the direct bases of the first waiting
contract are found, holds of the base list. -/
theorem visit_invariant (I : List BaseContract → List (BaseContract × Node) → Prop)
    (hstep : ∀ found c queue bs new, directBases ts root c.2 = .ok bs → Fresh found bs new →
      I found (c :: queue) → I (found ++ new.map Prod.fst) (queue ++ new))
    (hI : I found queue) (h : visit ts root steps found (queue.map Prod.snd) = .ok bases) :
    ∃ queue, I bases queue := by
  -- the search forgets which contract a waiting node defines, the queue of the invariant does not
  induction steps generalizing found queue with
  | zero =>
    cases h
    exact ⟨queue, hI⟩
  | succ steps ih =>
    cases queue with
    | nil =>
      cases h
      exact ⟨[], hI⟩
    | cons c queue =>
      obtain ⟨bs, hbs, h⟩ := Run.except_bind_eq_ok_iff.1 h
      obtain ⟨new, hnew, heq⟩ := exists_fresh bs found []
      rw [heq] at h
      change visit ts root steps _ (queue.map Prod.snd ++ new.map Prod.snd) = .ok bases at h
      rw [← List.map_append] at h
      exact ih (hstep found c queue bs new hbs hnew hI) h

theorem basesOf_invariant {first : BaseContract} {n : Node}
    (I : List BaseContract → List (BaseContract × Node) → Prop)
    (hstep : ∀ found c queue bs new, directBases ts root c.2 = .ok bs → Fresh found bs new →
      I found (c :: queue) → I (found ++ new.map Prod.fst) (queue ++ new))
    (hI : I [first] [(first, n)]) (h : basesOf ts root first n = .ok bases) :
    ∃ queue, I bases queue := by
  unfold basesOf at h
  split at h
  · cases h
    exact ⟨[(first, n)], hI⟩
  · exact visit_invariant I hstep hI h

/-- The base list starts with the contract itself and lists no contract twice. -/
theorem exists_basesOf_eq_cons {first : BaseContract} {n : Node}
    (h : basesOf ts root first n = .ok bases) : ∃ rest, bases = first :: rest ∧ bases.Nodup := by
  have hkept := basesOf_invariant (fun found _ => ∃ rest, found = first :: rest ∧ found.Nodup)
    (fun found c queue bs new _ hnew => ?_) ⟨[], rfl, List.pairwise_singleton _ _⟩ h
  · exact hkept.elim fun _ h => h
  · rintro ⟨rest, rfl, hnodup⟩
    exact ⟨rest ++ new.map Prod.fst, rfl, hnew.nodup_append hnodup⟩

/-- Behind the contract itself the base list has only contracts that a node defines. -/
theorem exists_defines_of_mem_basesOf {first c : BaseContract} {n : Node}
    (h : basesOf ts root first n = .ok bases) (hc : c ∈ bases) :
    c = first ∨ ∃ n, Defines ts root c n := by
  have hkept := basesOf_invariant
    (fun found _ => ∀ c ∈ found, c = first ∨ ∃ n, Defines ts root c n)
    (fun _ _ _ _ _ hbs hnew hfound => hnew.exists_defines hbs hfound)
    (fun c hc => .inl (List.mem_singleton.1 hc)) h
  exact hkept.elim fun _ hbases => hbases c hc

/-- What each node of a compilation defines, if it defines a contract. -/
def definable (ts : Trees) (root : String) : List BaseContract :=
  (ts.unitsOf root).entries.flatMap fun e => e.2.nodes.map fun n => ⟨e.1, n.name, n.isLibrary⟩

theorem length_definable (ts : Trees) (root : String) :
    (definable ts root).length = ts.nodeCount root := by
  simp only [definable, SortedMap.length_flatMap_entries, List.length_map, Trees.nodeCount]

theorem Defines.mem_definable {c : BaseContract} {n : Node} (h : Defines ts root c n) :
    c ∈ definable ts root := by
  obtain ⟨t, ht, hn⟩ := mem_nodesOf_iff.1 h.mem
  refine List.mem_flatMap.2 ⟨_, ht, List.mem_map.2 ⟨n, hn, ?_⟩⟩
  rw [h.name, h.isLibrary]

/-- There are no more contracts than nodes. -/
theorem length_le_of_defined {first : BaseContract} {found : List BaseContract}
    (hnodup : found.Nodup) (hfound : ∀ c ∈ found, c = first ∨ ∃ n, Defines ts root c n) :
    found.length ≤ ts.nodeCount root + 1 := by
  have hsubset : found ⊆ first :: definable ts root := by
    intro c hc
    rcases hfound c hc with rfl | ⟨n, hn⟩
    · exact List.mem_cons_self
    · exact List.mem_cons_of_mem _ hn.mem_definable
  have hlength := (hnodup.subperm hsubset).length_le
  rwa [List.length_cons, length_definable] at hlength

/-- A contract has no more bases than there are nodes. -/
theorem length_basesOf_le {first : BaseContract} {n : Node}
    (h : basesOf ts root first n = .ok bases) : bases.length ≤ ts.nodeCount root + 1 := by
  obtain ⟨rest, hrest, hnodup⟩ := exists_basesOf_eq_cons h
  exact length_le_of_defined hnodup fun _ => exists_defines_of_mem_basesOf h

/-- The levels of what a search has visited and of what waits ascend, and none is more than one above
a level that waits. -/
structure Levels (visited waiting : List Nat) : Prop where
  sorted : (visited ++ waiting).Pairwise (· ≤ ·)
  near : ∀ k ∈ visited ++ waiting, ∀ l ∈ waiting, k ≤ l + 1

/-- What is found from the first that waits goes behind all others. -/
theorem Levels.step {visited waiting added : List Nat} {k : Nat}
    (h : Levels visited (k :: waiting)) (hadded : ∀ l ∈ added, l = k + 1) :
    Levels (visited ++ [k]) (waiting ++ added) := by
  have hsplit : (visited ++ [k]) ++ (waiting ++ added) = (visited ++ k :: waiting) ++ added := by
    simp
  have hnearest : ∀ l ∈ visited ++ k :: waiting, l ≤ k + 1 :=
    fun l hl => h.near l hl k List.mem_cons_self
  -- what waits was found in order, so the level that is visited is the least one of it
  have hleast : ∀ l ∈ waiting, k ≤ l :=
    (List.pairwise_cons.1 (List.pairwise_append.1 h.sorted).2.1).1
  constructor
  case sorted =>
    rw [hsplit]
    refine List.pairwise_append.2 ⟨h.sorted, ?_, ?_⟩
    · exact List.pairwise_of_forall_mem_list fun l hl l' hl' =>
        Nat.le_of_eq ((hadded l hl).trans (hadded l' hl').symm)
    · intro l hl l' hl'
      rw [hadded l' hl']
      exact hnearest l hl
  case near =>
    rw [hsplit]
    intro l hl l' hl'
    have hle : l ≤ k + 1 := by
      rcases List.mem_append.1 hl with hl | hl
      · exact hnearest l hl
      · exact Nat.le_of_eq (hadded l hl)
    have hge : k ≤ l' := by
      rcases List.mem_append.1 hl' with hl' | hl'
      · exact hleast l' hl'
      · rw [hadded l' hl']
        exact Nat.le_succ k
    exact Nat.le_trans hle (Nat.succ_le_succ hge)

/-- The levels of what was found ascend, and what waits was found last. -/
structure Ascending (ts : Trees) (root : String) (depth : BaseContract → Nat)
    (found : List BaseContract) (queue : List (BaseContract × Node)) : Prop where
  defines : ∀ c ∈ queue, Defines ts root c.1 c.2
  last : queue.map Prod.fst <:+ found
  sorted : found.Pairwise fun x y => depth x ≤ depth y
  near : ∀ c ∈ queue, ∀ x ∈ found, depth x ≤ depth c.1 + 1

theorem Ascending.levels {depth : BaseContract → Nat} {front : List BaseContract}
    (h : Ascending ts root depth (front ++ queue.map Prod.fst) queue) :
    Levels (front.map depth) ((queue.map Prod.fst).map depth) := by
  constructor
  case sorted =>
    rw [← List.map_append]
    exact List.pairwise_map.2 h.sorted
  case near =>
    rw [← List.map_append]
    simp only [List.forall_mem_map]
    exact fun x hx c hc => h.near c hc x hx

theorem ascending_of_levels {depth : BaseContract → Nat} {front : List BaseContract}
    (hdefines : ∀ c ∈ queue, Defines ts root c.1 c.2)
    (h : Levels (front.map depth) ((queue.map Prod.fst).map depth)) :
    Ascending ts root depth (front ++ queue.map Prod.fst) queue := by
  obtain ⟨hsorted, hnear⟩ := h
  rw [← List.map_append] at hsorted hnear
  simp only [List.forall_mem_map] at hnear
  exact ⟨hdefines, ⟨front, rfl⟩, List.pairwise_map.1 hsorted, fun c hc x hx => hnear x hx c hc⟩

theorem Ascending.step {depth : BaseContract → Nat} {c : BaseContract × Node}
    (hdepth : ∀ heir base, DirectBase ts root heir base → depth base = depth heir + 1)
    (hbs : directBases ts root c.2 = .ok bs) (hnew : Fresh found bs new)
    (h : Ascending ts root depth found (c :: queue)) :
    Ascending ts root depth (found ++ new.map Prod.fst) (queue ++ new) := by
  obtain ⟨front, rfl⟩ := h.last
  have hlevel : ∀ l ∈ (new.map Prod.fst).map depth, l = depth c.1 + 1 := by
    simp only [List.forall_mem_map]
    exact fun b hb => hdepth c.1 b.1 ⟨c.2, h.defines c List.mem_cons_self, bs, hbs,
      List.mem_map_of_mem (hnew.sublist.subset hb)⟩
  have hdefines : ∀ c' ∈ queue ++ new, Defines ts root c'.1 c'.2 :=
    List.forall_mem_append.2
      ⟨fun c' hc' => h.defines c' (List.mem_cons_of_mem c hc'), fun _ => hnew.defines hbs⟩
  have hfound : front ++ (c :: queue).map Prod.fst ++ new.map Prod.fst =
      (front ++ [c.1]) ++ (queue ++ new).map Prod.fst := by simp
  rw [hfound]
  refine ascending_of_levels hdefines ?_
  simpa using h.levels.step hlevel

/-- If every contract is one level above its direct bases, none stands in front of its heirs. -/
theorem pairwise_not_inherits_basesOf {depth : BaseContract → Nat} {first : BaseContract} {n : Node}
    (hdepth : ∀ heir base, DirectBase ts root heir base → depth base = depth heir + 1)
    (hfirst : Defines ts root first n) (h : basesOf ts root first n = .ok bases) :
    bases.Pairwise fun x y => ¬ Inherits ts root y x := by
  have hstart : Ascending ts root depth [first] [(first, n)] := by
    refine ⟨?_, ⟨[], rfl⟩, List.pairwise_singleton _ _, ?_⟩
    · rintro _ (_ | ⟨_, ⟨⟩⟩)
      exact hfirst
    · rintro _ (_ | ⟨_, ⟨⟩⟩) x hx
      rw [List.mem_singleton.1 hx]
      exact Nat.le_succ _
  obtain ⟨_, hbases⟩ := basesOf_invariant (Ascending ts root depth)
    (fun _ _ _ _ _ => Ascending.step hdepth) hstart h
  have hascends : ∀ heir base, DirectBase ts root heir base → depth heir < depth base := by
    intro heir base hbase
    rw [hdepth heir base hbase]
    exact Nat.lt_succ_self _
  exact hbases.sorted.imp fun hle hinherits =>
    Nat.not_lt.2 hle (lt_of_inherits hascends hinherits)

end Visit

theorem trees_contractReference {compiled contract : String} {ix ix' : SyntaxIndex}
    {r : Option Int}
    (h : (Query.contractReference root compiled contract).run.run ix = (.ok r, ix')) :
    ix'.trees = ix.trees := by
  obtain ⟨_, _, hget, h⟩ := Run.bind_eq_ok_iff.1 h
  cases hget
  simp only at h
  split at h
  · cases h
    rfl
  · cases h
    rfl

theorem trees_contractDefinition {compiled contract : String} {ix ix' : SyntaxIndex} {n : Node}
    (h : (Query.contractDefinition root compiled contract).run.run ix = (.ok n, ix')) :
    ix'.trees = ix.trees := by
  obtain ⟨r, _, hr, h⟩ := Run.bind_eq_ok_iff.1 h
  obtain ⟨_, _, htrees, h⟩ := Run.bind_eq_ok_iff.1 h
  cases htrees
  rw [← trees_contractReference hr]
  simp only at h
  split at h
  · cases h
    rfl
  · cases h

theorem trees_baseContracts {compiled contract : String} {ix ix' : SyntaxIndex}
    {bases : List BaseContract}
    (h : (Query.baseContracts root compiled contract).run.run ix = (.ok bases, ix')) :
    ix'.trees = ix.trees := by
  obtain ⟨n, _, hn, h⟩ := Run.bind_eq_ok_iff.1 h
  obtain ⟨_, _, htrees, h⟩ := Run.bind_eq_ok_iff.1 h
  cases htrees
  obtain ⟨-, rfl⟩ := Run.ofExcept_eq_ok_iff.1 h
  exact trees_contractDefinition hn

/-- A base list is the one of a definition in the compiled file. -/
theorem exists_basesOf_of_baseContracts {compiled contract : String} {ix ix' : SyntaxIndex}
    {bases : List BaseContract}
    (h : (Query.baseContracts root compiled contract).run.run ix = (.ok bases, ix')) :
    ∃ n, basesOf ix'.trees root ⟨compiled, contract, n.isLibrary⟩ n = .ok bases := by
  obtain ⟨n, t, -, h⟩ := Run.bind_eq_ok_iff.1 h
  obtain ⟨ts, t', hts, h⟩ := Run.bind_eq_ok_iff.1 h
  obtain ⟨hbases, rfl⟩ := Run.ofExcept_eq_ok_iff.1 h
  cases hts
  exact ⟨n, hbases⟩

end ContractModel.Inheritance

namespace ContractModel

/-! Trees of a compilation of one file, written down. -/

/-- The definition of a contract with the given direct bases. -/
def Node.ofContract (id : Nat) (name : String) (bases : List Nat) : Node where
  id := id
  kind := "ContractDefinition"
  contract := none
  lang := .solidity
  fields := [("id", .ofNat id), ("name", name), ("contractKind", "contract"),
    ("baseContracts", .array (bases.map fun reference =>
      .object [("baseName", .object [("referencedDeclaration", .ofNat reference)])]))]

def Node.ofLibrary (id : Nat) (name : String) : Node :=
  { ofContract id name [] with
    fields := ("contractKind", "library") :: (ofContract id name []).fields }

/-- The definition of a function; a constructor has no name. -/
def Node.ofFunction (id : Nat) (contract name visibility : String) (fields : Json.Members) :
    Node where
  id := id
  kind := "FunctionDefinition"
  contract := contract
  lang := .solidity
  fields := ("id", .ofNat id) :: ("name", name) :: ("visibility", visibility) ::
    ("kind", .string (if name.isEmpty then "constructor" else "function")) :: fields

/-- An import directive at the start of its file. -/
def Node.ofImport (id : Nat) (path : String) : Node where
  id := id
  kind := "ImportDirective"
  contract := none
  lang := .solidity
  fields := [("id", .ofNat id), ("absolutePath", path), ("src", "0:1:0")]

def SyntaxIndex.ofNodes (file : String) (nodes : List Node) : SyntaxIndex :=
  { empty with
    trees := (∅ : Trees).insert file ((∅ : Units).insert file (nodes.foldl FlatTree.insert ∅)) }

theorem SyntaxIndex.nodesOf_ofNodes (file : String) (nodes : List Node) :
    (ofNodes file nodes).trees.nodesOf file file = (nodes.foldl FlatTree.insert ∅).nodes := by
  simp [ofNodes, Trees.nodesOf, Trees.unit?, Trees.unitsOf, SortedMap.getD, SortedMap.get?_insert]

end ContractModel

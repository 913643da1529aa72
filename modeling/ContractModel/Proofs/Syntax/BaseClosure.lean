import ContractModel.Proofs.Syntax.Memory
import ContractModel.Proofs.Syntax.References
import Mathlib.Data.List.Perm.Subperm
import Mathlib.Logic.Relation

/-! # The closure of the bases

The search for the bases of a contract ends, whatever the graph is. Where contracts can be told apart
it finds each contract once that is reached through inheritance specifiers, those that are nearer
before those that are farther away, and it fails only at a reached contract that is broken.
-/

namespace ContractModel.Inheritance

open Relation

variable {ts : Trees} {root : String} {n m : Node} {b : BaseContract × Node} {e : Error}
  {bs : List (BaseContract × Node)}

section Graph

/-- The declaration that an inheritance specifier refers to. -/
def referenceOf (specifier : Json) : Option Int := do
  (← (← specifier.get? "baseName").get? "referencedDeclaration").asId?

/-- The second node is the one that an inheritance specifier of the first refers to. -/
def HasBase (ts : Trees) (root : String) (heir base : Node) : Prop :=
  ∃ specifier ∈ heir.items "baseContracts", ∃ reference,
    referenceOf specifier = some reference ∧ ts.definition root reference = .ok base

/-- What is wrong with a contract whose bases cannot be found. -/
inductive Broken (ts : Trees) (root : String) (n : Node) : Error → Prop
  | noBaseList (h : n.fields.lookup "baseContracts" = none) :
    Broken ts root n (.inconsistency (.noBaseList n.id))
  | noBaseReference {specifier : Json} (hmem : specifier ∈ n.items "baseContracts")
    (h : referenceOf specifier = none) : Broken ts root n (.inconsistency (.noBaseReference n.id))
  | danglingReference {specifier : Json} {reference : Int}
    (hmem : specifier ∈ n.items "baseContracts") (href : referenceOf specifier = some reference)
    (h : ∀ file, ∀ m ∈ ts.nodesOf root file, m.id ≠ reference) :
    Broken ts root n (.danglingReference reference root)

theorem ofSpecifier_eq (heir : Int) (specifier : Json) :
    ofSpecifier ts root heir specifier =
      match referenceOf specifier with
      | none => .error (.inconsistency (.noBaseReference heir))
      | some reference => do
        let file ← ts.fileOf root reference
        let base ← ts.definition root reference
        return (⟨file, base.name, base.isLibrary⟩, base) := rfl

theorem ofSpecifier_eq_ok {heir : Int} {specifier : Json}
    (h : ofSpecifier ts root heir specifier = .ok b) : ∃ reference,
      referenceOf specifier = some reference ∧ ts.definition root reference = .ok b.2 := by
  rw [ofSpecifier_eq] at h
  split at h
  · cases h
  · next reference href =>
    obtain ⟨file, -, h⟩ := Run.except_bind_eq_ok_iff.1 h
    obtain ⟨base, hbase, h⟩ := Run.except_bind_eq_ok_iff.1 h
    cases h
    exact ⟨reference, href, hbase⟩

theorem directBases_eq_ok (h : directBases ts root n = .ok bs) :
    (∀ b ∈ bs, HasBase ts root n b.2) ∧ ∀ m, HasBase ts root n m → ∃ b ∈ bs, b.2 = m := by
  unfold directBases at h
  split at h
  · cases h
  · have hall := Run.forall₂_of_mapM_eq_ok h
    constructor
    · intro b hb
      obtain ⟨specifier, hmem, hb⟩ := Run.exists_of_mem_mapM h hb
      obtain ⟨reference, href, hbase⟩ := ofSpecifier_eq_ok hb
      exact ⟨specifier, hmem, reference, href, hbase⟩
    · rintro m ⟨specifier, hmem, reference, href, hm⟩
      obtain ⟨b, hb, hspecifier⟩ := Run.exists_of_mem_forall₂ hall hmem
      obtain ⟨reference', href', hbase⟩ := ofSpecifier_eq_ok hspecifier
      rw [href] at href'
      cases href'
      rw [hm] at hbase
      exact ⟨b, hb, (Except.ok.inj hbase).symm⟩

theorem broken_of_directBases (h : directBases ts root n = .error e) : Broken ts root n e := by
  unfold directBases at h
  split at h
  · next hlist =>
    cases h
    exact .noBaseList (Option.isNone_iff_eq_none.1 hlist)
  · obtain ⟨specifier, hmem, h⟩ := Run.exists_of_mapM_eq_error h
    rw [ofSpecifier_eq] at h
    split at h
    · next href =>
      cases h
      exact .noBaseReference hmem href
    · next reference href =>
      cases hfile : ts.fileOf root reference with
      | error e' =>
        rw [hfile] at h
        cases h
        obtain ⟨rfl, hno⟩ := Trees.fileOf_eq_error hfile
        exact .danglingReference hmem href hno
      | ok file =>
        cases hbase : ts.definition root reference with
        | error e' =>
          rw [hfile, hbase] at h
          cases h
          obtain ⟨rfl, hno⟩ := Trees.definition_eq_error hbase
          exact .danglingReference hmem href hno
        | ok base =>
          rw [hfile, hbase] at h
          cases h

/-- The second node is reached from the first in the given number of steps. -/
inductive ReachesIn (ts : Trees) (root : String) (n : Node) : Nat → Node → Prop
  | zero : ReachesIn ts root n 0 n
  | succ {k : Nat} {m base : Node} (h : ReachesIn ts root n k m) (hbase : HasBase ts root m base) :
    ReachesIn ts root n (k + 1) base

theorem reflTransGen_iff_exists_reachesIn :
    ReflTransGen (HasBase ts root) n m ↔ ∃ k, ReachesIn ts root n k m := by
  constructor
  · intro h
    induction h with
    | refl => exact ⟨0, .zero⟩
    | tail _ hbase ih =>
      obtain ⟨k, hk⟩ := ih
      exact ⟨k + 1, hk.succ hbase⟩
  · rintro ⟨k, h⟩
    induction h with
    | zero => exact .refl
    | succ _ hbase ih => exact ih.tail hbase

/-- The least number of steps from the first node to the second. -/
structure IsDistance (ts : Trees) (root : String) (n m : Node) (k : Nat) : Prop where
  reaches : ReachesIn ts root n k m
  least : ∀ j, ReachesIn ts root n j m → k ≤ j

/-- The contracts of a compilation can be told apart, and they inherit from contracts only. -/
structure Distinguished (ts : Trees) (root : String) : Prop where
  ids : ∀ file file', ∀ n ∈ ts.nodesOf root file, ∀ n' ∈ ts.nodesOf root file',
    n.id = n'.id → file = file'
  names : ∀ file, ∀ n ∈ ts.nodesOf root file, ∀ n' ∈ ts.nodesOf root file,
    n.isContractDefinition → n'.isContractDefinition → n.name = n'.name → n = n'
  bases : ∀ file, ∀ n ∈ ts.nodesOf root file, n.isContractDefinition →
    ∀ base, HasBase ts root n base → base.isContractDefinition

theorem Distinguished.eq_of_defines (h : Distinguished ts root) {c c' : BaseContract}
    (hc : Defines ts root c n) (hc' : Defines ts root c' n) : c = c' := by
  obtain ⟨file, name, isLibrary⟩ := c
  obtain ⟨file', name', isLibrary'⟩ := c'
  obtain ⟨hmem, rfl, rfl⟩ := hc
  obtain ⟨hmem', rfl, rfl⟩ := hc'
  rw [h.ids file file' n hmem n hmem' rfl]

theorem Distinguished.node_eq (h : Distinguished ts root) {c : BaseContract}
    (hn : Defines ts root c n) (hm : Defines ts root c m) (hn' : n.isContractDefinition)
    (hm' : m.isContractDefinition) : n = m :=
  h.names c.file n hn.mem m hm.mem hn' hm' (hn.name.trans hm.name.symm)

theorem Distinguished.isContractDefinition_of_reachesIn (h : Distinguished ts root) {k : Nat}
    {file : String} (hmem : n ∈ ts.nodesOf root file) (hn : n.isContractDefinition)
    (hreach : ReachesIn ts root n k m) :
    m.isContractDefinition ∧ ∃ file, m ∈ ts.nodesOf root file := by
  induction hreach with
  | zero => exact ⟨hn, file, hmem⟩
  | succ _ hbase ih =>
    obtain ⟨hm, file', hmem'⟩ := ih
    refine ⟨h.bases file' _ hmem' hm _ hbase, ?_⟩
    obtain ⟨_, -, _, -, hbase⟩ := hbase
    obtain ⟨-, file, -, hmem⟩ := Trees.definition_eq_ok hbase
    exact ⟨file, hmem⟩

end Graph

section Search

variable {found : List BaseContract} {queue : List Node} {steps : Nat}
  {r : Except Error (List BaseContract)}

/-- Visiting the waiting nodes until none is left, however long that takes. -/
inductive Visits (ts : Trees) (root : String) :
    List BaseContract → List Node → Except Error (List BaseContract) → Prop
  | done {found : List BaseContract} : Visits ts root found [] (.ok found)
  | failed {found : List BaseContract} {n : Node} {waiting : List Node} {e : Error}
    (h : directBases ts root n = .error e) : Visits ts root found (n :: waiting) (.error e)
  | step {found : List BaseContract} {n : Node} {waiting : List Node}
    {bs : List (BaseContract × Node)} {r : Except Error (List BaseContract)}
    (h : directBases ts root n = .ok bs)
    (hrest : Visits ts root (bs.foldl addBase (found, [])).1
      (waiting ++ (bs.foldl addBase (found, [])).2) r) : Visits ts root found (n :: waiting) r

/-- As no contract is found twice, the steps suffice for all that come to wait. -/
theorem visits_visit {first : BaseContract} (hnodup : found.Nodup)
    (hfound : ∀ c ∈ found, c = first ∨ ∃ n, Defines ts root c n)
    (hsteps : ts.nodeCount root + queue.length + 1 < steps + found.length) :
    Visits ts root found queue (visit ts root steps found queue) := by
  induction steps generalizing found queue with
  | zero =>
    have hlength := length_le_of_defined hnodup hfound
    omega
  | succ steps ih =>
    cases queue with
    | nil => exact .done
    | cons n queue =>
      unfold visit
      cases hbs : directBases ts root n with
      | error e => exact .failed hbs
      | ok bs =>
        refine .step hbs ?_
        obtain ⟨new, hnew, heq⟩ := exists_fresh bs found []
        change Visits ts root _ _ (visit ts root steps (bs.foldl addBase (found, [])).1
          (queue ++ (bs.foldl addBase (found, [])).2))
        rw [heq]
        refine ih (hnew.nodup_append hnodup) (hnew.exists_defines hbs hfound) ?_
        simp only [List.length_append, List.length_map, List.length_nil, List.length_cons,
          Nat.zero_add] at hsteps ⊢
        omega

end Search

section Progress

variable {first : BaseContract} {found : List BaseContract} {waiting : List Node}
  {r : Except Error (List BaseContract)}

/-- A contract that was found, with its definition and how many steps it is away from the first. -/
structure Finding where
  contract : BaseContract
  node : Node
  level : Nat

variable {done queue : List Finding} {v w : Finding}

/-- The finding of a base, one step farther away. -/
def Finding.below (v : Finding) (b : BaseContract × Node) : Finding := ⟨b.1, b.2, v.level + 1⟩

/-- A search from a contract: what was visited and what waits, as it was found. The levels ascend,
and the bases of a visited contract are at most one level below it. -/
structure Progress (ts : Trees) (root : String) (first : BaseContract) (n : Node)
    (done queue : List Finding) : Prop where
  starts : ∃ rest, done ++ queue = ⟨first, n, 0⟩ :: rest
  nodup : ((done ++ queue).map Finding.contract).Nodup
  defines : ∀ v ∈ done ++ queue, Defines ts root v.contract v.node
  reached : ∀ v ∈ done ++ queue, ReachesIn ts root n v.level v.node
  visited : ∀ v ∈ done, ∃ bs, directBases ts root v.node = .ok bs ∧
    ∀ b ∈ bs, ∃ w ∈ done ++ queue, w.contract = b.1 ∧ w.level ≤ v.level + 1
  sorted : ((done ++ queue).map Finding.level).Pairwise (· ≤ ·)
  near : ∀ v ∈ done ++ queue, ∀ w ∈ queue, v.level ≤ w.level + 1

theorem Progress.start (h : Defines ts root first n) :
    Progress ts root first n [] [⟨first, n, 0⟩] where
  starts := ⟨[], rfl⟩
  nodup := List.nodup_singleton _
  defines v hv := List.mem_singleton.1 hv ▸ h
  reached v hv := List.mem_singleton.1 hv ▸ .zero
  visited := nofun
  sorted := List.pairwise_singleton _ _
  near v hv w _ := by
    rw [List.mem_singleton.1 hv]
    exact Nat.zero_le _

/-- Every direct base was found before or is new. -/
theorem mem_foldl_addBase (bs : List (BaseContract × Node)) (found : List BaseContract)
    (added : List Node) :
    (∀ c ∈ found, c ∈ (bs.foldl addBase (found, added)).1) ∧
      ∀ b ∈ bs, b.1 ∈ (bs.foldl addBase (found, added)).1 := by
  induction bs generalizing found added with
  | nil => exact ⟨fun _ h => h, nofun⟩
  | cons b bs ih =>
    obtain ⟨hkept, hadded⟩ := ih (addBase (found, added) b).1 (addBase (found, added) b).2
    have hstep : (∀ c ∈ found, c ∈ (addBase (found, added) b).1) ∧
        b.1 ∈ (addBase (found, added) b).1 := by
      unfold addBase
      split
      · next hmem => exact ⟨fun _ h => h, List.contains_iff_mem.1 hmem⟩
      · exact ⟨fun _ h => List.mem_append_left _ h, List.mem_append_right _ List.mem_cons_self⟩
    exact ⟨fun c hc => hkept c (hstep.1 c hc),
      List.forall_mem_cons.2 ⟨hkept b.1 hstep.2, hadded⟩⟩

theorem Progress.levels (h : Progress ts root first n done queue) :
    Levels (done.map Finding.level) (queue.map Finding.level) := by
  constructor
  case sorted =>
    rw [← List.map_append]
    exact h.sorted
  case near =>
    rw [← List.map_append]
    simp only [List.forall_mem_map]
    exact h.near

/-- What holds of all that was found holds after a visit, if it holds of what the visit finds. -/
theorem forall_mem_visited {P : Finding → Prop} {new : List (BaseContract × Node)}
    (h : ∀ w ∈ done ++ v :: queue, P w) (hnew : ∀ b ∈ new, P (v.below b)) :
    ∀ w ∈ (done ++ [v]) ++ (queue ++ new.map v.below), P w := by
  simp only [List.forall_mem_append, List.forall_mem_cons, List.forall_mem_map] at h ⊢
  exact ⟨⟨h.1, h.2.1, nofun⟩, h.2.2, hnew⟩

theorem Progress.step (h : Progress ts root first n done (v :: queue))
    (hbs : directBases ts root v.node = .ok bs) {new : List (BaseContract × Node)}
    (hnew : Fresh ((done ++ v :: queue).map Finding.contract) bs new)
    (hall : ∀ b ∈ bs, b.1 ∈ (done ++ v :: queue).map Finding.contract ++ new.map Prod.fst) :
    Progress ts root first n (done ++ [v]) (queue ++ new.map v.below) := by
  have hsplit : (done ++ [v]) ++ (queue ++ new.map v.below) =
      (done ++ v :: queue) ++ new.map v.below := by simp
  have hv : v ∈ done ++ v :: queue := List.mem_append_right _ List.mem_cons_self
  have hlevel : ∀ l ∈ new.map (Finding.level ∘ v.below), l = v.level + 1 :=
    List.forall_mem_map.2 fun _ _ => rfl
  have hlevels := h.levels.step hlevel
  simp only [← List.map_map, ← List.map_append, ← List.map_singleton] at hlevels
  constructor
  case starts =>
    obtain ⟨rest, hrest⟩ := h.starts
    exact ⟨rest ++ new.map v.below, by rw [hsplit, hrest, List.cons_append]⟩
  case nodup =>
    have hcontracts : (new.map v.below).map Finding.contract = new.map Prod.fst := List.map_map
    rw [hsplit, List.map_append, hcontracts]
    exact hnew.nodup_append h.nodup
  case defines => exact forall_mem_visited h.defines fun b hb => hnew.defines hbs hb
  case reached =>
    refine forall_mem_visited h.reached fun b hb => ?_
    exact (h.reached v hv).succ ((directBases_eq_ok hbs).1 b (hnew.sublist.subset hb))
  case visited =>
    rw [hsplit]
    refine List.forall_mem_append.2 ⟨fun w hw => ?_, List.forall_mem_singleton.2 ⟨bs, hbs, ?_⟩⟩
    · obtain ⟨bs', hbs', hfound⟩ := h.visited w hw
      refine ⟨bs', hbs', fun b hb => ?_⟩
      obtain ⟨x, hx, hb⟩ := hfound b hb
      exact ⟨x, List.mem_append_left _ hx, hb⟩
    · intro b hb
      rcases List.mem_append.1 (hall b hb) with hmem | hmem
      · obtain ⟨x, hx, heq⟩ := List.mem_map.1 hmem
        exact ⟨x, List.mem_append_left _ hx, heq, h.near x hx v List.mem_cons_self⟩
      · obtain ⟨b', hb', heq⟩ := List.mem_map.1 hmem
        exact ⟨v.below b', List.mem_append_right _ (List.mem_map_of_mem hb'), heq, Nat.le_refl _⟩
  case sorted =>
    rw [List.map_append]
    exact hlevels.sorted
  case near =>
    have hnear := hlevels.near
    rw [← List.map_append] at hnear
    simpa only [List.forall_mem_map] using hnear

/-- A search that has ended found the bases, or it met a broken contract. -/
theorem Visits.progress (h : Visits ts root found waiting r)
    (hfound : found = (done ++ queue).map Finding.contract)
    (hwaiting : waiting = queue.map Finding.node) (hprogress : Progress ts root first n done queue) :
    (∀ bases, r = .ok bases →
      ∃ done, Progress ts root first n done [] ∧ bases = done.map Finding.contract) ∧
    ∀ e, r = .error e → ∃ m, ReflTransGen (HasBase ts root) n m ∧ Broken ts root m e := by
  induction h generalizing done queue with
  | done =>
    have hqueue : queue = [] := List.map_eq_nil_iff.1 hwaiting.symm
    subst hqueue
    refine ⟨?_, nofun⟩
    rintro _ ⟨⟩
    exact ⟨done, hprogress, by rw [hfound, List.append_nil]⟩
  | failed hbs =>
    obtain ⟨v, queue, rfl, rfl, -⟩ := List.map_eq_cons_iff.1 hwaiting.symm
    refine ⟨nofun, ?_⟩
    rintro _ ⟨⟩
    have hv := hprogress.reached v (List.mem_append_right _ List.mem_cons_self)
    exact ⟨v.node, reflTransGen_iff_exists_reachesIn.2 ⟨_, hv⟩, broken_of_directBases hbs⟩
  | @step found _ waiting bs r hbs _ ih =>
    obtain ⟨v, queue, rfl, rfl, rfl⟩ := List.map_eq_cons_iff.1 hwaiting.symm
    subst hfound
    obtain ⟨new, hnew, heq⟩ := exists_fresh bs ((done ++ v :: queue).map Finding.contract) []
    have hall := (mem_foldl_addBase bs ((done ++ v :: queue).map Finding.contract) []).2
    rw [heq] at ih hall
    refine ih ?_ ?_ (hprogress.step hbs hnew hall)
    · simp [Finding.below, Function.comp_def]
    · simp [Finding.below, Function.comp_def]

/-- The bases of a contract: itself first, each contract that is reached once, and those that are
nearer before those that are farther away. -/
structure ListsBases (ts : Trees) (root : String) (first : BaseContract) (n : Node)
    (bases : List BaseContract) : Prop where
  starts : ∃ rest, bases = first :: rest
  nodup : bases.Nodup
  mem_iff : ∀ c, c ∈ bases ↔ ∃ m, ReflTransGen (HasBase ts root) n m ∧ Defines ts root c m
  ascending : ∃ levels : List Nat, List.Forall₂
    (fun c k => ∃ m, Defines ts root c m ∧ IsDistance ts root n m k) bases levels ∧
    levels.Pairwise (· ≤ ·)

section Ended

variable {file : String} (hdist : Distinguished ts root) (hmem : n ∈ ts.nodesOf root file)
  (hn : n.isContractDefinition) (h : Progress ts root first n done [])
include hdist hmem hn h

/-- Whatever is reached was visited, and no later than its distance. -/
theorem Progress.exists_of_reachesIn {k : Nat} (hreach : ReachesIn ts root n k m) :
    ∃ v ∈ done, v.node = m ∧ v.level ≤ k := by
  have hdefines := h.defines
  have hreached := h.reached
  have hvisited := h.visited
  have hstarts := h.starts
  rw [List.append_nil] at hdefines hreached hvisited hstarts
  induction hreach with
  | zero =>
    obtain ⟨rest, rfl⟩ := hstarts
    exact ⟨_, List.mem_cons_self, rfl, Nat.le_refl _⟩
  | @succ k m base hreach hbase ih =>
    obtain ⟨v, hv, rfl, hlevel⟩ := ih
    obtain ⟨bs, hbs, hfound⟩ := hvisited v hv
    obtain ⟨b, hb, rfl⟩ := (directBases_eq_ok hbs).2 base hbase
    obtain ⟨w, hw, hcontract, hle⟩ := hfound b hb
    refine ⟨w, hw, ?_, by omega⟩
    -- two definitions of one contract are the same node, as names are distinct
    have hwcontract := hdist.isContractDefinition_of_reachesIn hmem hn (hreached w hw)
    have hbcontract := hdist.isContractDefinition_of_reachesIn hmem hn (hreach.succ hbase)
    exact hdist.node_eq (hcontract ▸ hdefines w hw) (defines_of_directBases hbs hb) hwcontract.1
      hbcontract.1

theorem Progress.isDistance (hv : v ∈ done) : IsDistance ts root n v.node v.level := by
  have hdefines := h.defines
  have hreached := h.reached
  have hnodup := h.nodup
  rw [List.append_nil] at hdefines hreached hnodup
  refine ⟨hreached v hv, fun j hj => ?_⟩
  obtain ⟨w, hw, hnode, hlevel⟩ := h.exists_of_reachesIn hdist hmem hn hj
  have hcontract : w.contract = v.contract :=
    hdist.eq_of_defines (hdefines w hw) (hnode ▸ hdefines v hv)
  rwa [List.inj_on_of_nodup_map hnodup hw hv hcontract] at hlevel

theorem Progress.listsBases : ListsBases ts root first n (done.map Finding.contract) := by
  have hdefines := h.defines
  have hreached := h.reached
  have hnodup := h.nodup
  have hsorted := h.sorted
  have hstarts := h.starts
  rw [List.append_nil] at hdefines hreached hnodup hsorted hstarts
  constructor
  case starts =>
    obtain ⟨rest, rfl⟩ := hstarts
    exact ⟨rest.map Finding.contract, rfl⟩
  case nodup => exact hnodup
  case mem_iff =>
    intro c
    constructor
    · intro hc
      obtain ⟨v, hv, rfl⟩ := List.mem_map.1 hc
      exact ⟨v.node, reflTransGen_iff_exists_reachesIn.2 ⟨_, hreached v hv⟩, hdefines v hv⟩
    · rintro ⟨m, hm, hc⟩
      obtain ⟨k, hk⟩ := reflTransGen_iff_exists_reachesIn.1 hm
      obtain ⟨v, hv, rfl, -⟩ := h.exists_of_reachesIn hdist hmem hn hk
      rw [hdist.eq_of_defines hc (hdefines v hv)]
      exact List.mem_map_of_mem hv
  case ascending =>
    refine ⟨done.map Finding.level, ?_, hsorted⟩
    rw [List.forall₂_map_left_iff, List.forall₂_map_right_iff, List.forall₂_same]
    exact fun v hv => ⟨v.node, hdefines v hv, h.isDistance hdist hmem hn hv⟩

end Ended

end Progress

section Query

variable {ix ix' : SyntaxIndex} {compiled contract : String}
  {r : Except Error (List BaseContract)}

/-- What the index remembers of the definition of a contract, if anything, is what its trees have. -/
def UpToDate (ix : SyntaxIndex) (root compiled contract : String) : Prop :=
  ∀ found, ix.contractDefinitions.peek? (root, compiled, contract) = some found →
    found = ix.trees.findContract root compiled contract

/-- The definition that the trees have of a contract. -/
def definitionOf (ts : Trees) (root compiled contract : String) : Option Node :=
  (ts.findContract root compiled contract).bind fun id =>
    (ts.unit? root compiled).bind fun u => u.get? id

theorem run_ofExcept {α : Type} (x : Except Error α) (ix : SyntaxIndex) :
    (Query.ofExcept x).run.run ix = (x, ix) := by
  cases x <;> rfl

theorem run_contractReference (h : UpToDate ix root compiled contract) :
    ∃ ix', (Query.contractReference root compiled contract).run.run ix =
      (.ok (ix.trees.findContract root compiled contract), ix') ∧ ix'.trees = ix.trees := by
  unfold Query.contractReference
  rw [Run.run_get_bind]
  dsimp only
  have hpeek := RecentCache.fst_get? ix.contractDefinitions (root, compiled, contract)
  rcases hget : ix.contractDefinitions.get? (root, compiled, contract) with ⟨_ | found, cache⟩
  · exact ⟨_, rfl, rfl⟩
  · rw [hget] at hpeek
    rw [← h found hpeek.symm]
    exact ⟨_, rfl, rfl⟩

theorem run_contractDefinition (h : UpToDate ix root compiled contract) :
    ∃ ix', (Query.contractDefinition root compiled contract).run.run ix =
      (match definitionOf ix.trees root compiled contract with
        | some n => .ok n
        | none => .error (.inconsistency (.noContractDefinition contract compiled root)), ix') ∧
      ix'.trees = ix.trees := by
  obtain ⟨ix', hrun, htrees⟩ := run_contractReference h
  refine ⟨ix', ?_, htrees⟩
  rw [Query.contractDefinition, Run.run_bind, hrun, ← htrees]
  change (match definitionOf ix'.trees root compiled contract with
    | some n => (pure n : Query Node)
    | none => throw (Error.inconsistency (.noContractDefinition contract compiled root))).run.run
      ix' = _
  cases definitionOf ix'.trees root compiled contract <;> rfl

theorem run_baseContracts (h : UpToDate ix root compiled contract) : ∃ ix',
    (Query.baseContracts root compiled contract).run.run ix =
      (match definitionOf ix.trees root compiled contract with
        | some n => basesOf ix.trees root ⟨compiled, contract, n.isLibrary⟩ n
        | none => .error (.inconsistency (.noContractDefinition contract compiled root)), ix') := by
  obtain ⟨ix', hrun, htrees⟩ := run_contractDefinition h
  refine ⟨ix', ?_⟩
  rw [Query.baseContracts, Run.run_bind, hrun, ← htrees]
  cases definitionOf ix'.trees root compiled contract with
  | none => rfl
  | some n => exact run_ofExcept _ ix'

theorem findContract_eq_some (hdist : Distinguished ts root)
    (hsolidity : ∀ m ∈ ts.nodesOf root compiled, m.lang = .solidity)
    (hmem : n ∈ ts.nodesOf root compiled) (hn : n.isContractDefinition)
    (hname : n.name? = some contract) : ts.findContract root compiled contract = some n.id := by
  unfold Trees.findContract
  cases hfound : (ts.nodesOf root compiled).find? fun n =>
      n.isContractDefinition && (n.lang == .vyper || n.name? == some contract) with
  | none =>
    have hno := List.find?_eq_none.1 hfound n hmem
    rw [hn, hname] at hno
    simp at hno
  | some m =>
    have hm := List.mem_of_find?_eq_some hfound
    have hp := List.find?_some hfound
    rw [hsolidity m hm, Bool.and_eq_true] at hp
    obtain ⟨hmcontract, hmname⟩ := hp
    have hmname : m.name? = some contract := by simpa using hmname
    have hnames : m.name = n.name := by rw [Node.name, Node.name, hmname, hname]
    rw [hdist.names compiled m hm n hmem hmcontract hn hnames]
    rfl

theorem findContract_eq_none (hsolidity : ∀ m ∈ ts.nodesOf root compiled, m.lang = .solidity)
    (h : ∀ n ∈ ts.nodesOf root compiled, n.isContractDefinition → n.name? ≠ some contract) :
    ts.findContract root compiled contract = none := by
  rw [Trees.findContract, Option.map_eq_none_iff, List.find?_eq_none]
  intro n hn
  rw [hsolidity n hn]
  simpa using h n hn

/-- Asking for the bases of a contract always ends. Where contracts can be told apart and the index
has not remembered another definition, the answer lists the bases; it is a fault only if there is no
such contract or one that is reached is broken. -/
theorem baseContracts_closure (hdist : Distinguished ix.trees root)
    (hsolidity : ∀ n ∈ ix.trees.nodesOf root compiled, n.lang = .solidity)
    (hdate : UpToDate ix root compiled contract)
    (hrun : (Query.baseContracts root compiled contract).run.run ix = (r, ix')) :
    (∀ n ∈ ix.trees.nodesOf root compiled, n.isContractDefinition → n.name? = some contract →
      Visits ix.trees root [⟨compiled, contract, n.isLibrary⟩] [n] r ∧
      (∀ bases, r = .ok bases →
        ListsBases ix.trees root ⟨compiled, contract, n.isLibrary⟩ n bases) ∧
      ∀ e, r = .error e →
        ∃ m, ReflTransGen (HasBase ix.trees root) n m ∧ Broken ix.trees root m e) ∧
    ((∀ n ∈ ix.trees.nodesOf root compiled, n.isContractDefinition → n.name? ≠ some contract) →
      r = .error (.inconsistency (.noContractDefinition contract compiled root))) := by
  obtain ⟨_, hrun'⟩ := run_baseContracts hdate
  rw [hrun] at hrun'
  have hr := (Prod.ext_iff.1 hrun').1
  dsimp only at hr
  constructor
  · intro n hmem hn hname
    obtain ⟨t, ht, hnode⟩ := mem_nodesOf_iff.1 hmem
    have hunit : ix.trees.unit? root compiled = some t := SortedMap.get?_eq_some_iff.2 ht
    rw [definitionOf, findContract_eq_some hdist hsolidity hmem hn hname, Option.bind_some, hunit,
      Option.bind_some, FlatTree.get?_of_mem hnode] at hr
    dsimp only at hr
    have hfirst : Defines ix.trees root ⟨compiled, contract, n.isLibrary⟩ n :=
      ⟨hmem, by rw [Node.name, hname]; rfl, rfl⟩
    have hvisits : Visits ix.trees root [⟨compiled, contract, n.isLibrary⟩] [n] r := by
      rw [hr, basesOf, if_neg (by rw [hsolidity n hmem]; decide)]
      refine visits_visit (List.nodup_singleton _) (fun c hc => .inl (List.mem_singleton.1 hc)) ?_
      rw [List.length_singleton, List.length_singleton]
      omega
    have hend := hvisits.progress rfl rfl (Progress.start hfirst)
    refine ⟨hvisits, fun bases hbases => ?_, hend.2⟩
    obtain ⟨done, hdone, rfl⟩ := hend.1 bases hbases
    exact hdone.listsBases hdist hmem hn
  · intro hno
    rw [definitionOf, findContract_eq_none hsolidity hno, Option.bind_none] at hr
    exact hr

end Query

section Decision

theorem mem_keys_of_mem_nodesOf {file : String} (h : n ∈ ts.nodesOf root file) :
    file ∈ (ts.unitsOf root).keys := by
  obtain ⟨t, ht, -⟩ := mem_nodesOf_iff.1 h
  exact SortedMap.mem_keys_iff.2 ⟨t, SortedMap.get?_eq_some_iff.2 ht⟩

/-- Only the sources of the compilation have to be looked at. -/
theorem distinguished_iff : Distinguished ts root ↔
    (∀ file ∈ (ts.unitsOf root).keys, ∀ file' ∈ (ts.unitsOf root).keys,
      ∀ n ∈ ts.nodesOf root file, ∀ n' ∈ ts.nodesOf root file', n.id = n'.id → file = file') ∧
    (∀ file ∈ (ts.unitsOf root).keys, ∀ n ∈ ts.nodesOf root file, ∀ n' ∈ ts.nodesOf root file,
      n.isContractDefinition → n'.isContractDefinition → n.name = n'.name → n.id = n'.id) ∧
    ∀ file ∈ (ts.unitsOf root).keys, ∀ n ∈ ts.nodesOf root file, n.isContractDefinition →
      ∀ specifier ∈ n.items "baseContracts", ∀ reference ∈ referenceOf specifier,
        ∀ base, ts.definition root reference = .ok base → base.isContractDefinition := by
  constructor
  · rintro ⟨hids, hnames, hbases⟩
    refine ⟨fun file _ file' _ => hids file file', fun file _ n hn n' hn' hc hc' hname => ?_, ?_⟩
    · rw [hnames file n hn n' hn' hc hc' hname]
    · intro file _ n hn hc specifier hmem reference href base hbase
      exact hbases file n hn hc base ⟨specifier, hmem, reference, href, hbase⟩
  · rintro ⟨hids, hnames, hbases⟩
    refine ⟨fun file file' n hn n' hn' => ?_, fun file n hn n' hn' hc hc' hname => ?_, ?_⟩
    · exact hids file (mem_keys_of_mem_nodesOf hn) file' (mem_keys_of_mem_nodesOf hn') n hn n' hn'
    · exact List.inj_on_of_nodup_map (nodup_id_nodesOf ts root file) hn hn'
        (hnames file (mem_keys_of_mem_nodesOf hn) n hn n' hn' hc hc' hname)
    · rintro file n hn hc base ⟨specifier, hmem, reference, href, hbase⟩
      exact hbases file (mem_keys_of_mem_nodesOf hn) n hn hc specifier hmem reference href base hbase

instance : Decidable (Distinguished ts root) := decidable_of_iff _ distinguished_iff.symm

end Decision

section Witnesses

/-- Two sources with a contract that inherits from another one twice, and with two circles. -/
def diamond : SyntaxIndex :=
  { SyntaxIndex.empty with
    trees := (∅ : Trees).insert "Vault.sol" (((∅ : Units).insert "Vault.sol"
      (FlatTree.empty.insert (.ofContract 1 "Vault" [2, 3]))).insert "bases.sol"
        ([.ofContract 2 "Left" [4], .ofContract 3 "Right" [4, 1], .ofContract 4 "Owned" [2]].foldl
          FlatTree.insert ∅)) }

theorem baseContracts_closure_diamond : Distinguished diamond.trees "Vault.sol" ∧
    (∀ n ∈ diamond.trees.nodesOf "Vault.sol" "Vault.sol", n.lang = .solidity) ∧
    UpToDate diamond "Vault.sol" "Vault.sol" "Vault" ∧
    ∃ n ∈ diamond.trees.nodesOf "Vault.sol" "Vault.sol",
      ListsBases diamond.trees "Vault.sol" ⟨"Vault.sol", "Vault", n.isLibrary⟩ n
        [⟨"Vault.sol", "Vault", false⟩, ⟨"bases.sol", "Left", false⟩, ⟨"bases.sol", "Right", false⟩,
          ⟨"bases.sol", "Owned", false⟩] := by
  have hdist : Distinguished diamond.trees "Vault.sol" := by decide +kernel
  have hsolidity : ∀ n ∈ diamond.trees.nodesOf "Vault.sol" "Vault.sol", n.lang = .solidity := by
    decide +kernel
  have hdate : UpToDate diamond "Vault.sol" "Vault.sol" "Vault" := nofun
  obtain ⟨n, hmem, hn, hname⟩ : ∃ n ∈ diamond.trees.nodesOf "Vault.sol" "Vault.sol",
      n.isContractDefinition ∧ n.name? = some "Vault" := by decide +kernel
  refine ⟨hdist, hsolidity, hdate, n, hmem, ?_⟩
  refine (((baseContracts_closure hdist hsolidity hdate rfl).1 n hmem hn hname).2.1 _ ?_)
  exact Run.toOption_eq_some_iff.1 (by decide +kernel)

/-- The tree of a source with contracts. -/
def treeOfContracts (contracts : List Node) : Json :=
  .object [("id", .ofNat 1), ("nodeType", "SourceUnit"), ("nodes", .array (contracts.map fun n =>
    .object (("nodeType", n.kind) :: n.fields)))]

/-- The second compilation of a source in which a contract has got a base. -/
def recompiled : SyntaxIndex := .after
  [.insert "Vault.sol" (.ofList [("Vault.sol", ⟨0, treeOfContracts [.ofContract 2 "Vault" []]⟩)])
      .solidity,
    .ask (.reference "Vault.sol" "Vault.sol" "Vault"),
    .insert "Vault.sol" (.ofList [("Vault.sol",
      ⟨0, treeOfContracts [.ofContract 2 "Owned" [], .ofContract 3 "Vault" [2]]⟩)]) .solidity]

/-- The base is missing, as the definition from before the second compilation is remembered. -/
theorem not_listsBases_recompiled : Distinguished recompiled.trees "Vault.sol" ∧
    (∀ n ∈ recompiled.trees.nodesOf "Vault.sol" "Vault.sol", n.lang = .solidity) ∧
    ∃ n ∈ recompiled.trees.nodesOf "Vault.sol" "Vault.sol",
      n.isContractDefinition ∧ n.name? = some "Vault" ∧ ∃ bases ix',
        (Query.baseContracts "Vault.sol" "Vault.sol" "Vault").run.run recompiled =
          (.ok bases, ix') ∧
        ¬ ListsBases recompiled.trees "Vault.sol" ⟨"Vault.sol", "Vault", n.isLibrary⟩ n bases := by
  refine ⟨by decide +kernel, by decide +kernel, ?_⟩
  obtain ⟨n, hmem, hn, hname, specifier, hspecifier, href⟩ :
      ∃ n ∈ recompiled.trees.nodesOf "Vault.sol" "Vault.sol",
        n.isContractDefinition ∧ n.name? = some "Vault" ∧
          ∃ specifier ∈ n.items "baseContracts", referenceOf specifier = some 2 := by
    decide +kernel
  have hbases : ((Query.baseContracts "Vault.sol" "Vault.sol" "Vault").run.run recompiled).1 =
      .ok [⟨"Vault.sol", "Vault", false⟩] := Run.toOption_eq_some_iff.1 (by decide +kernel)
  have hfile : recompiled.trees.fileOf "Vault.sol" 2 = .ok "Vault.sol" :=
    Run.toOption_eq_some_iff.1 (by decide +kernel)
  obtain ⟨owned, howned, hname', hlibrary⟩ : ∃ owned,
      recompiled.trees.definition "Vault.sol" 2 = .ok owned ∧ owned.name = "Owned" ∧
        owned.isLibrary = false := by
    have hread : (recompiled.trees.definition "Vault.sol" 2).toOption.map
        (fun m => (m.name, m.isLibrary)) = some ("Owned", false) := by decide +kernel
    obtain ⟨owned, howned, hread⟩ := Option.map_eq_some_iff.1 hread
    exact ⟨owned, Run.toOption_eq_some_iff.1 howned, congrArg Prod.fst hread,
      congrArg Prod.snd hread⟩
  refine ⟨n, hmem, hn, hname, _, _, Prod.ext hbases rfl, fun hlists => ?_⟩
  have hlisted : (⟨"Vault.sol", "Owned", false⟩ : BaseContract) ∈
      [(⟨"Vault.sol", "Vault", false⟩ : BaseContract)] :=
    (hlists.mem_iff _).2 ⟨owned, .single ⟨specifier, hspecifier, 2, href, howned⟩,
      mem_nodesOf_of_definition hfile howned, hname', hlibrary⟩
  exact absurd hlisted (by decide)

end Witnesses

end ContractModel.Inheritance

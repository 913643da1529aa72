import ContractModel.Link.Bytecode
import ContractModel.Proofs.Run
import Mathlib.Data.List.Perm.Basic

/-! # Linking as a substitution

Where the places of libraries are apart and their addresses fill them, linking puts each address in
its place, marks the pushes in front of the places, and changes no other digit. The order in which
the places are filled does not show, because a place only looks at the digits in front of it, and
those are filled later.
-/

namespace ContractModel

namespace ByteRange

/-- A digit of the bytecode belongs to the range; two digits are a byte. -/
def Covers (r : ByteRange) (i : Nat) : Prop := 2 * r.start ≤ i ∧ i < 2 * (r.start + r.length)

/-- The ranges have no byte in common. -/
def Apart (r r' : ByteRange) : Prop :=
  r.start + r.length ≤ r'.start ∨ r'.start + r'.length ≤ r.start

theorem Apart.symm {r r' : ByteRange} (h : r.Apart r') : r'.Apart r := Or.symm h

end ByteRange

namespace Linking

variable {ε : Type} {resolve resolve' : String → String → Except ε String}
  {references references' : LinkReferences} {code out : List Char} {start i : Nat}
  {r : Replacement} {fills : List (ByteRange × String)}

/-- The place of each reference, with what its library resolves to. -/
def answers (resolve : String → String → Except ε String) (references : LinkReferences) :
    List (ByteRange × Except ε String) :=
  (places references).map fun p => (p.2.2, resolve p.1 p.2.1)

/-- The answer for a place whose library has the address. -/
def resolved (a : ByteRange × String) : ByteRange × Except ε String := (a.1, .ok a.2)

theorem resolved_injective : Function.Injective (resolved : _ → ByteRange × Except ε String) :=
  fun a a' h => by
    rw [resolved, resolved, Prod.mk.injEq, Except.ok.injEq] at h
    exact Prod.ext h.1 h.2

/-- Places that have digits and no byte in common, and addresses that fill them. -/
structure WellPlaced (as : List (ByteRange × Except ε String)) : Prop where
  positive : ∀ a ∈ as, 0 < a.1.length
  apart : as.Pairwise fun a a' => a.1.Apart a'.1
  fits : ∀ a ∈ as, ∀ address, a.2 = .ok address → address.length = 2 * a.1.length

/-- A push of twenty bytes stands in front of the place. -/
def PushAt (code : List Char) (start : Nat) : Prop :=
  1 ≤ start ∧ (code.drop (2 * start - 2)).take 2 = push20

/-- The addresses stand in their places, the pushes in front of the places are marked unless they
are inside another place, and all other digits are as they were. -/
structure Substituted (code out : List Char) (fills : List (ByteRange × String)) : Prop where
  length : out.length = code.length
  address : ∀ a ∈ fills, (out.drop (2 * a.1.start)).take (2 * a.1.length) = a.2.toList
  marker : ∀ a ∈ fills, PushAt code a.1.start →
    (∀ a' ∈ fills, ¬ a'.1.Covers (2 * a.1.start - 2)) →
      (out.drop (2 * a.1.start - 2)).take 2 = linkMarker
  kept : ∀ i, (∀ a ∈ fills, ¬ a.1.Covers i) →
    (∀ a ∈ fills, PushAt code a.1.start → i ≠ 2 * a.1.start - 2 ∧ i ≠ 2 * a.1.start - 1) →
      out[i]? = code[i]?

section Fill

/-- In one-byte characters a cut is made if there are enough of them. -/
theorem cutAt_eq {n : Nat} {cs : List Char} (h : ∀ c ∈ cs.take n, c.utf8Size = 1) :
    cutAt n cs = if n ≤ cs.length then some (cs.take n, cs.drop n) else none := by
  induction n generalizing cs with
  | zero => simp [cutAt]
  | succ n ih =>
    cases cs with
    | nil => simp [cutAt]
    | cons c cs =>
      rw [List.take_succ_cons, List.forall_mem_cons] at h
      simp only [cutAt, h.1, Nat.le_add_left, if_true, Nat.add_sub_cancel, ih h.2]
      by_cases hn : n ≤ cs.length
      · simp [hn]
      · simp [hn]

/-- The text with one place filled. -/
def filled (code : List Char) (start : Nat) (r : Replacement) : List Char :=
  markPush (code.take (2 * start)) ++ r.address.toList ++ code.drop (2 * (start + r.length))

theorem fill_eq (h : ∀ c ∈ code.take (2 * (start + r.length)), c.utf8Size = 1) :
    (fill code start r : Except (Fault ε) _) =
      if 2 * (start + r.length) ≤ code.length then .ok (filled code start r)
      else .error (.outOfBounds start r.length) := by
  have hend : 2 * (start + r.length) = 2 * start + 2 * r.length := Nat.mul_add 2 start r.length
  have hfront : ∀ c ∈ code.take (2 * start), c.utf8Size = 1 := fun c hc =>
    h c (List.take_subset_take_left code (by omega) hc)
  have hplace : ∀ c ∈ (code.drop (2 * start)).take (2 * r.length), c.utf8Size = 1 := by
    intro c hc
    rw [List.take_drop, ← hend] at hc
    exact h c (List.mem_of_mem_drop hc)
  rw [fill, cutAt_eq hfront]
  by_cases hstart : 2 * start ≤ code.length
  · rw [if_pos hstart]
    simp only
    rw [cutAt_eq hplace, List.length_drop]
    by_cases hinside : 2 * (start + r.length) ≤ code.length
    · rw [if_pos hinside, if_pos (by omega)]
      simp only [filled, List.drop_drop, hend]
    · rw [if_neg hinside, if_neg (by omega)]
  · rw [if_neg hstart, if_neg (by omega)]

theorem length_markPush (front : List Char) : (markPush front).length = front.length := by
  unfold markPush
  split
  · next before h =>
    rw [← List.isSuffixOf?_eq_some_iff_append_eq.1 h, List.length_append, List.length_append]
    rfl
  · rfl

theorem length_markPush_take (hstart : 2 * start ≤ code.length) :
    (markPush (code.take (2 * start))).length = 2 * start := by
  rw [length_markPush, List.length_take_of_le hstart]

theorem mem_markPush {front : List Char} {c : Char} (h : c ∈ markPush front) :
    c ∈ front ∨ c ∈ linkMarker := by
  unfold markPush at h
  split at h
  · next before hbefore =>
    rw [← List.isSuffixOf?_eq_some_iff_append_eq.1 hbefore]
    rcases List.mem_append.1 h with h | h
    · exact .inl (List.mem_append_left _ h)
    · exact .inr h
  · exact .inl h

theorem markPush_of_push (h : PushAt code start) :
    markPush (code.take (2 * start)) = code.take (2 * start - 2) ++ linkMarker := by
  obtain ⟨hstart, hpush⟩ := h
  have hsplit : code.take (2 * start) = code.take (2 * start - 2) ++ push20 := by
    rw [← hpush, ← List.take_add]
    congr 1
    omega
  rw [markPush, List.isSuffixOf?_eq_some_iff_append_eq.2 hsplit.symm]

theorem markPush_of_not_push (hstart : 2 * start ≤ code.length) (h : ¬ PushAt code start) :
    markPush (code.take (2 * start)) = code.take (2 * start) := by
  unfold markPush
  split
  · next before hbefore =>
    have hsplit := List.isSuffixOf?_eq_some_iff_append_eq.1 hbefore
    have hlength : before.length + 2 = 2 * start := by
      have := congrArg List.length hsplit
      rwa [List.length_append, List.length_take_of_le hstart] at this
    refine absurd ⟨by omega, ?_⟩ h
    rw [List.take_drop, show 2 * start - 2 + 2 = 2 * start by omega, ← hsplit]
    exact List.drop_left' (by omega)
  · rfl

/-- Behind the place that is filled the code is as it was. -/
theorem getElem?_filled_of_le (hinside : 2 * (start + r.length) ≤ code.length)
    (hfit : r.address.toList.length = 2 * r.length) (hi : 2 * (start + r.length) ≤ i) :
    (filled code start r)[i]? = code[i]? := by
  have hleft : (markPush (code.take (2 * start)) ++ r.address.toList).length =
      2 * (start + r.length) := by
    rw [List.length_append, length_markPush_take (by omega), hfit, Nat.mul_add]
  rw [filled, List.getElem?_append_right (hleft ▸ hi), List.getElem?_drop, hleft,
    Nat.add_sub_cancel' hi]

/-- In front of the place only a push is marked. -/
theorem getElem?_filled_of_lt (hstart : 2 * start ≤ code.length) (hi : i < 2 * start)
    (hmarker : PushAt code start → i ≠ 2 * start - 2 ∧ i ≠ 2 * start - 1) :
    (filled code start r)[i]? = code[i]? := by
  have hfront := length_markPush_take hstart
  rw [filled, List.append_assoc, List.getElem?_append_left (by omega)]
  by_cases hpush : PushAt code start
  · have hlength := List.length_take_of_le (show 2 * start - 2 ≤ code.length by omega)
    have := hmarker hpush
    rw [markPush_of_push hpush, List.getElem?_append_left (by omega),
      List.getElem?_take_of_lt (by omega)]
  · rw [markPush_of_not_push hstart hpush, List.getElem?_take_of_lt (by omega)]

variable {place : ByteRange} {address : String}

/-- One step of linking substitutes at its place. -/
theorem substituted_filled (hinside : 2 * (place.start + place.length) ≤ code.length)
    (hfit : address.length = 2 * place.length) :
    Substituted code (filled code place.start ⟨place.length, address⟩) [(place, address)] := by
  have hstart : 2 * place.start ≤ code.length := by omega
  have hfront := length_markPush_take hstart
  have haddress : address.toList.length = 2 * place.length := by
    rw [String.length_toList, hfit]
  constructor
  case length =>
    simp only [filled, List.length_append, hfront, haddress, List.length_drop]
    omega
  case address =>
    rintro _ (_ | ⟨_, ⟨⟩⟩)
    rw [filled, List.append_assoc, List.drop_left' hfront, List.take_left' haddress]
  case marker =>
    rintro _ (_ | ⟨_, ⟨⟩⟩) hpush -
    have hbefore : (code.take (2 * place.start - 2)).length = 2 * place.start - 2 :=
      List.length_take_of_le (by omega)
    rw [filled, markPush_of_push hpush, List.append_assoc, List.append_assoc,
      List.drop_left' hbefore]
    rfl
  case kept =>
    intro i hi hmarker
    rw [List.forall_mem_singleton] at hi hmarker
    rcases Nat.lt_or_ge i (2 * place.start) with hbefore | hbehind
    · exact getElem?_filled_of_lt hstart hbefore hmarker
    · exact getElem?_filled_of_le hinside haddress (Nat.not_lt.1 fun hlt => hi ⟨hbehind, hlt⟩)

end Fill

section Run

variable {code' : List Char} {fill : ByteRange × String} {fills : List (ByteRange × String)}

theorem slice_congr {cs cs' : List Char} {n m : Nat}
    (h : ∀ i, n ≤ i → i < n + m → cs[i]? = cs'[i]?) :
    (cs.drop n).take m = (cs'.drop n).take m := by
  refine List.ext_getElem? fun i => ?_
  rw [List.getElem?_take, List.getElem?_take, List.getElem?_drop, List.getElem?_drop]
  split
  · exact h (n + i) (by omega) (by omega)
  · rfl

/-- Places in front of one that is filled find their pushes as they were. -/
theorem Substituted.pushAt_iff (h : Substituted code code' [fill])
    (hstart : start < fill.1.start) : PushAt code' start ↔ PushAt code start := by
  refine and_congr_right fun hpos => ?_
  have hsame : (code'.drop (2 * start - 2)).take 2 = (code.drop (2 * start - 2)).take 2 := by
    refine slice_congr fun i hle hlt => h.kept i ?_ ?_
    · rintro a (_ | ⟨_, ⟨⟩⟩) hcovers
      have := hcovers.1
      omega
    · rintro a (_ | ⟨_, ⟨⟩⟩) -
      omega
  rw [hsame]

/-- A place that is filled is followed by places in front of it only. -/
theorem Substituted.cons (h : Substituted code code' [fill])
    (hrest : Substituted code' out fills)
    (hfills : ∀ a ∈ fills, 0 < a.1.length ∧ a.1.start + a.1.length ≤ fill.1.start) :
    Substituted code out (fill :: fills) := by
  -- what is behind the place in front of `fill` is left alone by the rest of the run
  have hbehind : ∀ i, 2 * fill.1.start - 2 ≤ i → (∀ a ∈ fills, ¬ a.1.Covers i) →
      out[i]? = code'[i]? := by
    intro i hi hcovers
    refine hrest.kept i hcovers fun a ha hpush => ?_
    have := hfills a ha
    have := hpush.1
    omega
  have hfree : ∀ i, 2 * fill.1.start ≤ i → ∀ a ∈ fills, ¬ a.1.Covers i := by
    intro i hi a ha hcovers
    have := hcovers.2
    have := hfills a ha
    omega
  constructor
  case length => exact hrest.length.trans h.length
  case address =>
    rintro a (_ | ⟨_, ha⟩)
    · rw [← h.address fill List.mem_cons_self]
      exact slice_congr fun i hi _ => hbehind i (by omega) (hfree i hi)
    · exact hrest.address a ha
  case marker =>
    rintro a (_ | ⟨_, ha⟩) hpush hcovers
    · rw [List.forall_mem_cons] at hcovers
      rw [← h.marker fill List.mem_cons_self hpush (List.forall_mem_singleton.2 hcovers.1)]
      refine slice_congr fun i hi hi' => hbehind i hi fun a' ha' hin => hcovers.2 a' ha' ?_
      obtain ⟨hlo, hhi⟩ := hin
      have := hpush.1
      have := hfills a' ha'
      exact ⟨by omega, by omega⟩
    · have := hfills a ha
      exact hrest.marker a ha ((h.pushAt_iff (by omega)).2 hpush)
        (List.forall_mem_cons.1 hcovers).2
  case kept =>
    intro i hcovers hmarker
    rw [List.forall_mem_cons] at hcovers hmarker
    have hout : out[i]? = code'[i]? := by
      refine hrest.kept i hcovers.2 fun a ha hpush => ?_
      have := hfills a ha
      exact hmarker.2 a ha ((h.pushAt_iff (by omega)).1 hpush)
    rw [hout]
    exact h.kept i (List.forall_mem_singleton.2 hcovers.1) (List.forall_mem_singleton.2 hmarker.1)

theorem Substituted.nil (code : List Char) : Substituted code code [] :=
  ⟨rfl, nofun, nofun, fun _ _ _ => rfl⟩

theorem Substituted.perm {fills' : List (ByteRange × String)} (h : Substituted code out fills)
    (hperm : fills.Perm fills') : Substituted code out fills' := by
  constructor
  · exact h.length
  · simpa only [hperm.mem_iff] using h.address
  · simpa only [hperm.mem_iff] using h.marker
  · simpa only [hperm.mem_iff] using h.kept

/-- What goes to a place, by its start. -/
def replacement (a : ByteRange × String) : Nat × Replacement := (a.1.start, ⟨a.1.length, a.2⟩)

def placed (e : Nat × Replacement) : ByteRange × String := (⟨e.1, e.2.length⟩, e.2.address)

/-- Places from the back to the front, and addresses that fill them. -/
structure Descending (fills : List (ByteRange × String)) : Prop where
  positive : ∀ a ∈ fills, 0 < a.1.length
  ordered : fills.Pairwise fun a a' => a'.1.start + a'.1.length ≤ a.1.start
  fits : ∀ a ∈ fills, a.2.length = 2 * a.1.length

theorem Descending.tail (h : Descending (fill :: fills)) : Descending fills :=
  ⟨fun a ha => h.positive a (List.mem_cons_of_mem _ ha), (List.pairwise_cons.1 h.ordered).2,
    fun a ha => h.fits a (List.mem_cons_of_mem _ ha)⟩

/-- In front of the place that is filled the characters still take up one byte each. -/
theorem utf8Size_filled (hstart : 2 * start ≤ code.length)
    (h : ∀ c ∈ code.take (2 * start), c.utf8Size = 1) :
    ∀ c ∈ (filled code start r).take (2 * start), c.utf8Size = 1 := by
  intro c hc
  rw [filled, List.append_assoc, List.take_left' (length_markPush_take hstart)] at hc
  rcases mem_markPush hc with hc | hc
  · exact h c hc
  · rcases hc with _ | ⟨_, _ | ⟨_, ⟨⟩⟩⟩ <;> rfl

/-- A run from the back to the front goes well if all places are inside, and then substitutes. -/
theorem fillAll_eq (h : Descending fills)
    (hcode : ∀ a ∈ fills, ∀ c ∈ code.take (2 * (a.1.start + a.1.length)), c.utf8Size = 1) :
    (∀ a ∈ fills, 2 * (a.1.start + a.1.length) ≤ code.length) ∧
        (∃ out, (fillAll code (fills.map replacement) : Except (Fault ε) _) = .ok out ∧
          Substituted code out fills) ∨
      (∃ a ∈ fills, code.length < 2 * (a.1.start + a.1.length)) ∧
        ∃ n m, (fillAll code (fills.map replacement) : Except (Fault ε) _) =
          .error (.outOfBounds n m) := by
  induction fills generalizing code with
  | nil => exact .inl ⟨nofun, code, rfl, .nil code⟩
  | cons a fills ih =>
    obtain ⟨place, address⟩ := a
    have hfront : ∀ a ∈ fills, a.1.start + a.1.length ≤ place.start :=
      (List.pairwise_cons.1 h.ordered).1
    have hplace := hcode (place, address) List.mem_cons_self
    have hfill : (fill code place.start ⟨place.length, address⟩ : Except (Fault ε) _) = _ :=
      fill_eq hplace
    rw [List.map_cons, replacement, fillAll, hfill]
    by_cases hinside : 2 * (place.start + place.length) ≤ code.length
    · rw [if_pos hinside]
      have hstep := substituted_filled hinside (h.fits _ List.mem_cons_self)
      have hsize := utf8Size_filled (r := ⟨place.length, address⟩)
        (show 2 * place.start ≤ code.length by omega)
        fun c hc => hplace c (List.take_subset_take_left code (by simp only; omega) hc)
      have hrest := ih h.tail fun a ha c hc =>
        hsize c (List.take_subset_take_left _ (by have := hfront a ha; omega) hc)
      rw [hstep.length] at hrest
      rcases hrest with ⟨hall, out, hout, hsub⟩ | ⟨⟨a, ha, hlt⟩, n, m, herror⟩
      · refine .inl ⟨List.forall_mem_cons.2 ⟨hinside, hall⟩, out, hout, ?_⟩
        exact hstep.cons hsub fun a ha => ⟨h.tail.positive a ha, hfront a ha⟩
      · exact .inr ⟨⟨a, List.mem_cons_of_mem _ ha, hlt⟩, n, m, herror⟩
    · rw [if_neg hinside]
      exact .inr ⟨⟨_, List.mem_cons_self, Nat.not_le.1 hinside⟩, _, _, rfl⟩

end Run

section Order

variable {as as' : List (ByteRange × String)}

/-- All libraries have addresses, or the run stops at one that has none. -/
theorem replacements_eq (resolve : String → String → Except ε String)
    (references : LinkReferences) :
    (∃ as : List (ByteRange × String), answers resolve references = as.map resolved ∧
        replacements resolve references = .ok (SortedMap.ofList (as.map replacement))) ∨
      ∃ p ∈ places references, ∃ e, resolve p.1 p.2.1 = .error e ∧
        replacements resolve references = .error (.unresolved e) := by
  simp only [answers, replacements, SortedMap.ofList]
  generalize (∅ : SortedMap Nat Replacement) = m
  induction places references generalizing m with
  | nil => exact .inl ⟨[], rfl, rfl⟩
  | cons p ps ih =>
    rw [List.map_cons, List.foldlM_cons]
    cases hp : resolve p.1 p.2.1 with
    | error e => exact .inr ⟨p, List.mem_cons_self, e, hp, rfl⟩
    | ok address =>
      rcases ih (m.insert p.2.2.start ⟨p.2.2.length, address⟩) with
        ⟨as, has, hm⟩ | ⟨q, hq, e, he, hm⟩
      · refine .inl ⟨(p.2.2, address) :: as, ?_, hm⟩
        rw [has, List.map_cons]
        rfl
      · exact .inr ⟨q, List.mem_cons_of_mem _ hq, e, he, hm⟩

variable (hplaced : WellPlaced (as.map resolved : List (ByteRange × Except ε String)))

include hplaced

theorem WellPlaced.positive_of_mem {a : ByteRange × String} (ha : a ∈ as) : 0 < a.1.length :=
  hplaced.positive _ (List.mem_map_of_mem ha)

theorem WellPlaced.apart_resolved : as.Pairwise fun a a' => a.1.Apart a'.1 :=
  (List.pairwise_map (f := resolved) (R := fun a a' => a.1.Apart a'.1)).1 hplaced.apart

/-- Places that are apart have different starts. -/
theorem WellPlaced.nodup_start : ((as.map replacement).map Prod.fst).Nodup := by
  rw [List.Nodup, List.map_map, List.pairwise_map]
  refine hplaced.apart_resolved.imp_of_mem fun {a a'} ha ha' hapart heq => ?_
  have hlength := hplaced.positive_of_mem ha
  have hlength' := hplaced.positive_of_mem ha'
  have heq : a.1.start = a'.1.start := heq
  rcases hapart with h | h <;> omega

/-- The order in which places are filled. -/
theorem WellPlaced.order :
    ∃ fills, (SortedMap.ofList (as.map replacement)).entries.reverse = fills.map replacement ∧
      fills.Perm as ∧ Descending fills := by
  have hperm : (SortedMap.ofList (as.map replacement)).entries.Perm (as.map replacement) :=
    SortedMap.perm_ofList hplaced.nodup_start
  have hsorted := (SortedMap.ofList (as.map replacement)).sorted
  generalize (SortedMap.ofList (as.map replacement)).entries = es at hperm hsorted
  have hfills : (es.reverse.map placed).Perm as := by
    have := ((es.reverse_perm.trans hperm).map placed)
    rwa [List.map_map, show placed ∘ replacement = id from rfl, List.map_id] at this
  refine ⟨es.reverse.map placed, ?_, hfills, ?_, ?_, ?_⟩
  · rw [List.map_map, show replacement ∘ placed = id from rfl, List.map_id]
  · exact fun a ha => hplaced.positive_of_mem (hfills.mem_iff.1 ha)
  · have hapart : (es.reverse.map placed).Pairwise fun a a' => a.1.Apart a'.1 :=
      (hfills.pairwise_iff fun h => h.symm).2 hplaced.apart_resolved
    have hdescending : (es.reverse.map placed).Pairwise fun a a' => a'.1.start < a.1.start := by
      rw [List.pairwise_map, List.pairwise_reverse]
      exact List.pairwise_map.1 hsorted
    refine (hapart.and hdescending).imp fun {a a'} ⟨h, hlt⟩ => ?_
    rcases h with h | h
    · omega
    · exact h
  · intro a ha
    exact hplaced.fits _ (List.mem_map_of_mem (hfills.mem_iff.1 ha)) a.2 rfl

theorem WellPlaced.replacements_perm (hperm : as'.Perm as) :
    SortedMap.ofList (as'.map replacement) = SortedMap.ofList (as.map replacement) := by
  have hstarts := hplaced.nodup_start
  have hstarts' : ((as'.map replacement).map Prod.fst).Nodup :=
    ((hperm.map replacement).map Prod.fst).nodup_iff.2 hstarts
  have hentries := ((SortedMap.perm_ofList hstarts').trans (hperm.map replacement)).trans
    (SortedMap.perm_ofList hstarts).symm
  refine SortedMap.ext (hentries.eq_of_pairwise (fun e e' _ _ h h' => ?_)
    (List.pairwise_map.1 (SortedMap.sorted _)) (List.pairwise_map.1 (SortedMap.sorted _)))
  exact absurd h' (Nat.lt_asymm h)

end Order

section Link

variable {bytecode : String}

/-- Filling the places fails on places outside only. -/
theorem fillAll_ne_unresolved {e : ε} (order : List (Nat × Replacement)) :
    fillAll code order ≠ .error (.unresolved e) := by
  induction order generalizing code with
  | nil => exact nofun
  | cons p order ih =>
    rw [fillAll]
    cases hfill : (fill code p.1 p.2 : Except (Fault ε) _) with
    | ok code' => exact ih
    | error fault =>
      rintro ⟨⟩
      unfold fill at hfill
      split at hfill
      · cases hfill
      · split at hfill <;> cases hfill

/-- With the replacements at hand, linking fills them from the back. -/
theorem link_eq {m : SortedMap Nat Replacement} (h : replacements resolve references = .ok m) :
    link resolve bytecode references = (do
      let code ← fillAll bytecode.toList m.entries.reverse
      return ⟨String.ofList code, m.entries.reverse.map fun r => r.2.address⟩) := by
  rw [link, h]
  rfl

theorem unresolved_of_link {e : ε}
    (h : link resolve bytecode references = .error (.unresolved e)) :
    ∃ p ∈ places references, resolve p.1 p.2.1 = .error e := by
  rcases replacements_eq resolve references with ⟨as, -, hok⟩ | ⟨p, hp, e', he, herror⟩
  · rw [link_eq hok] at h
    cases hcode : (fillAll bytecode.toList
        (SortedMap.ofList (as.map replacement)).entries.reverse : Except (Fault ε) _) with
    | ok code =>
      rw [hcode] at h
      cases h
    | error fault =>
      rw [hcode] at h
      cases h
      exact absurd hcode (fillAll_ne_unresolved _)
  · rw [link, herror] at h
    cases h
    exact ⟨p, hp, he⟩

/-- A bytecode whose libraries all have addresses is linked if all their places are inside. -/
theorem link_resolved {as : List (ByteRange × String)}
    (hcode : ∀ c ∈ bytecode.toList, c.toNat < 128)
    (hplaced : WellPlaced (as.map resolved : List (ByteRange × Except ε String)))
    (hreplacements : replacements resolve references = .ok (.ofList (as.map replacement))) :
    (∀ a ∈ as, 2 * (a.1.start + a.1.length) ≤ bytecode.length) ∧
        (∃ linked, link resolve bytecode references = .ok linked ∧
          Substituted bytecode.toList linked.bytecode.toList as ∧
          linked.libraryAddresses.Perm (as.map Prod.snd)) ∨
      (∃ a ∈ as, bytecode.length < 2 * (a.1.start + a.1.length)) ∧
        ∃ n m, link resolve bytecode references = .error (.outOfBounds n m) := by
  obtain ⟨fills, horder, hperm, hdescending⟩ := hplaced.order
  have hsize : ∀ c ∈ bytecode.toList, c.utf8Size = 1 := fun c hc =>
    Char.utf8Size_eq_one_iff.2 (Nat.le_of_lt_succ (hcode c hc))
  have hfilled := @fillAll_eq ε bytecode.toList fills hdescending
    fun a _ c hc => hsize c (List.mem_of_mem_take hc)
  rw [String.length_toList] at hfilled
  rw [link_eq hreplacements, horder]
  rcases hfilled with ⟨hinside, out, hout, hsub⟩ | ⟨⟨a, ha, hlt⟩, n, m, herror⟩
  · refine .inl ⟨fun a ha => hinside a (hperm.mem_iff.2 ha), ?_⟩
    refine ⟨⟨String.ofList out, fills.map Prod.snd⟩, ?_, ?_, hperm.map _⟩
    · rw [hout, List.map_map]
      rfl
    · rw [String.toList_ofList]
      exact hsub.perm hperm
  · refine .inr ⟨⟨a, hperm.mem_iff.1 ha, hlt⟩, n, m, ?_⟩
    rw [herror]
    rfl

/-- What comes of linking: the substitution, or a place outside, or a library without address. -/
theorem link_cases (hcode : ∀ c ∈ bytecode.toList, c.toNat < 128)
    (hplaced : WellPlaced (answers resolve references)) :
    (∃ as linked, answers resolve references = as.map resolved ∧
        (∀ a ∈ as, 2 * (a.1.start + a.1.length) ≤ bytecode.length) ∧
        link resolve bytecode references = .ok linked ∧
        Substituted bytecode.toList linked.bytecode.toList as ∧
        linked.libraryAddresses.Perm (as.map Prod.snd)) ∨
      (∃ a ∈ answers resolve references, bytecode.length < 2 * (a.1.start + a.1.length) ∧
        ∃ n m, link resolve bytecode references = .error (.outOfBounds n m)) ∨
      ∃ a ∈ answers resolve references, ∃ e, a.2 = .error e ∧
        link resolve bytecode references = .error (.unresolved e) := by
  rcases replacements_eq resolve references with ⟨as, has, hok⟩ | ⟨p, hp, e, he, herror⟩
  · rw [has] at hplaced ⊢
    rcases link_resolved hcode hplaced hok with
      ⟨hinside, linked, hlinked, hsub, hperm⟩ | ⟨⟨a, ha, hlt⟩, hlink⟩
    · exact .inl ⟨as, linked, rfl, hinside, hlinked, hsub, hperm⟩
    · exact .inr (.inl ⟨resolved a, List.mem_map_of_mem ha, hlt, hlink⟩)
  · exact .inr (.inr ⟨_, List.mem_map_of_mem hp, e, he, by rw [link, herror]; rfl⟩)

theorem link_ok_iff (hcode : ∀ c ∈ bytecode.toList, c.toNat < 128)
    (hplaced : WellPlaced (answers resolve references)) :
    (∃ linked, link resolve bytecode references = .ok linked) ↔
      ∀ a ∈ answers resolve references,
        (∃ address, a.2 = .ok address) ∧ 2 * (a.1.start + a.1.length) ≤ bytecode.length := by
  rcases link_cases hcode hplaced with
    ⟨as, linked, has, hinside, hlinked, -⟩ | ⟨a, ha, hlt, n, m, hlink⟩ | ⟨a, ha, e, he, hlink⟩
  · rw [has]
    refine iff_of_true ⟨linked, hlinked⟩ fun _ hmem => ?_
    obtain ⟨a, ha, rfl⟩ := List.mem_map.1 hmem
    exact ⟨⟨a.2, rfl⟩, hinside a ha⟩
  · rw [hlink]
    exact iff_of_false nofun fun h => Nat.not_le.2 hlt (h a ha).2
  · rw [hlink]
    refine iff_of_false nofun fun h => ?_
    obtain ⟨address, haddress⟩ := (h a ha).1
    rw [he] at haddress
    cases haddress

theorem substituted_of_link (hcode : ∀ c ∈ bytecode.toList, c.toNat < 128)
    (hplaced : WellPlaced (answers resolve references)) {linked : Linked}
    (h : link resolve bytecode references = .ok linked) :
    ∃ as, answers resolve references = as.map resolved ∧
      Substituted bytecode.toList linked.bytecode.toList as ∧
      linked.libraryAddresses.Perm (as.map Prod.snd) := by
  rcases link_cases hcode hplaced with
    ⟨as, linked', has, -, hlinked, hsub, hperm⟩ | ⟨_, -, -, n, m, hlink⟩ | ⟨_, -, e, -, hlink⟩
  · rw [hlinked] at h
    cases h
    exact ⟨as, has, hsub, hperm⟩
  · rw [hlink] at h
    cases h
  · rw [hlink] at h
    cases h

/-- An answer that is an error is not among resolved ones. -/
theorem not_resolved_of_error {as : List (ByteRange × String)} {p : String × String × ByteRange}
    {e : ε} (hp : p ∈ places references) (he : resolve p.1 p.2.1 = .error e) :
    ¬ (answers resolve references).Perm (as.map resolved) := by
  intro hperm
  have hmem : (p.2.2, .error e) ∈ answers resolve references :=
    List.mem_map.2 ⟨p, hp, he ▸ rfl⟩
  obtain ⟨a, -, ha⟩ := List.mem_map.1 (hperm.mem_iff.1 hmem)
  cases (Prod.mk.inj ha).2

/-- Which library a place is for does not matter, only what it resolves to. -/
theorem link_perm (hplaced : WellPlaced (answers resolve references))
    (hperm : (answers resolve' references').Perm (answers resolve references)) :
    link resolve' bytecode references' = link resolve bytecode references ∨
      ∃ e e', link resolve bytecode references = .error (.unresolved e) ∧
        link resolve' bytecode references' = .error (.unresolved e') := by
  rcases replacements_eq resolve references with ⟨as, has, hok⟩ | ⟨p, hp, e, he, herror⟩
  · rcases replacements_eq resolve' references' with ⟨as', has', hok'⟩ | ⟨p, hp, e, he, -⟩
    · rw [has, has'] at hperm
      rw [has] at hplaced
      have hsame := hplaced.replacements_perm ((List.map_perm_map_iff resolved_injective).1 hperm)
      rw [link, link, hok, hok', hsame]
      exact .inl rfl
    · exact absurd (has ▸ hperm) (not_resolved_of_error hp he)
  · rcases replacements_eq resolve' references' with ⟨as', has', -⟩ | ⟨-, -, e', -, herror'⟩
    · exact absurd (has' ▸ hperm.symm) (not_resolved_of_error hp he)
    · rw [link, link, herror, herror']
      exact .inr ⟨e, e', rfl, rfl⟩

/-- Three places in a row, where the push in front of the last is inside the second. -/
def adjacentReferences : LinkReferences :=
  ⟨[("L.sol", ⟨[("L", [⟨1, 1⟩, ⟨3, 1⟩]), ("M", [⟨2, 1⟩])], by decide⟩)], by decide⟩

def shortAddress (_file library : String) : Except Unit String :=
  .ok (if library = "L" then "11" else "22")

theorem answers_adjacentReferences : answers shortAddress adjacentReferences =
    [(⟨1, 1⟩, "11"), (⟨3, 1⟩, "11"), (⟨2, 1⟩, "22")].map resolved := by
  rfl

theorem wellPlaced_adjacentReferences :
    WellPlaced (answers shortAddress adjacentReferences) := by
  rw [answers_adjacentReferences]
  constructor
  · decide
  · simp [resolved, ByteRange.Apart]
  · simp +decide

end Link

end Linking

end ContractModel

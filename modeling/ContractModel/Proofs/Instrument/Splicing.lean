import ContractModel.Instrument.Edit

/-! # Splicing edits

Rendering applies all edits of a source in one pass. It gives the same text as splices that are
made one at a time, from the highest offset to the lowest, each at the offset it has in the source.
It fails at the lowest edit that stands in a replaced range or does not find its byte.
-/

namespace ContractModel

namespace EditKind

/-- How many bytes of the source the payload stands for. -/
def replaced : EditKind → Nat
  | replace length => max length 1
  | _ => 0

def isInsertion : EditKind → Bool
  | replace _ => false
  | _ => true

/-- The text with a payload spliced in; what is replaced ends with the source at the latest. -/
def splice (size : Nat) (text : Bytes) (offset : Nat) (payload : Bytes) : EditKind → Bytes
  | insertBefore => text.take offset ++ (payload ++ text.drop offset)
  | insertAfter => text.take (offset + 1) ++ (payload ++ text.drop (offset + 1))
  | replace length => text.take offset ++ (payload ++ text.drop (min (offset + max length 1) size))

/-- Where the payload of an insertion starts. -/
def payloadStart (offset : Nat) : EditKind → Nat
  | insertAfter => offset + 1
  | _ => offset

end EditKind

namespace EditScript

/-- An offset inside the range of the source that an edit at a lower offset replaces. -/
def Covers (size : Nat) (x : Nat × Edit) (offset : Nat) : Prop :=
  x.1 < offset ∧ offset < min (x.1 + x.2.kind.replaced) size

instance (size : Nat) (x : Nat × Edit) (offset : Nat) : Decidable (Covers size x offset) :=
  inferInstanceAs (Decidable (_ ∧ _))

def Covered (size : Nat) (es : List (Nat × Edit)) (offset : Nat) : Prop :=
  ∃ x ∈ es, Covers size x offset

instance (size : Nat) (es : List (Nat × Edit)) (offset : Nat) :
    Decidable (Covered size es offset) :=
  inferInstanceAs (Decidable (∃ x ∈ es, _))

/-- An edit that stands in a replaced range, or does not find the byte it expects. -/
def Offends (source : Bytes) (es : List (Nat × Edit)) (x : Nat × Edit) : Prop :=
  Covered source.length es x.1 ∨ source[x.1]? ≠ some x.2.expected

instance (source : Bytes) (es : List (Nat × Edit)) (x : Nat × Edit) :
    Decidable (Offends source es x) :=
  inferInstanceAs (Decidable (_ ∨ _))

/-- The failure that an offending edit causes. -/
def faultOf (file : String) (source : Bytes) (es : List (Nat × Edit)) (x : Nat × Edit) :
    InstrumentError :=
  if Covered source.length es x.1 then .conflict file x.1
  else .byteMismatch file x.1 x.2.expected source[x.1]?

/-- The splice of one edit. -/
def splice (size : Nat) (x : Nat × Edit) (text : Bytes) : Bytes :=
  x.2.kind.splice size text x.1 (FileTree.textBytes x.2.payload)

/-- The source with the edits spliced in one by one, the highest first. -/
def splices (source : Bytes) (es : List (Nat × Edit)) : Bytes :=
  es.foldr (splice source.length) source

/-- Takes the payload of an insertion out of a text, if it stands where the edit puts it. -/
def withoutPayload (text : Bytes) (x : Nat × Edit) : Option Bytes :=
  let start := x.2.kind.payloadStart x.1
  let payload := FileTree.textBytes x.2.payload
  if payload.isPrefixOf (text.drop start) then
    some (text.take start ++ (text.drop start).drop payload.length)
  else none

/-- Takes the payloads of all insertions out of a text, the lowest first. -/
def withoutPayloads (text : Bytes) (es : List (Nat × Edit)) : Option Bytes :=
  es.foldlM withoutPayload text

section Cursor

variable {size cursor offset : Nat} {before : List (Nat × Edit)} {e : Edit}

/-- The cursor ends the ranges that the edits so far replace. -/
structure Reached (size : Nat) (before : List (Nat × Edit)) (cursor : Nat) : Prop where
  le_size : cursor ≤ size
  lt_iff : ∀ p, (∀ x ∈ before, x.1 < p) → (p < cursor ↔ Covered size before p)

theorem reached_nil : Reached size [] 0 :=
  ⟨Nat.zero_le _, fun p _ => by simp [Covered]⟩

theorem covers_iff_lt_next (hlt : offset < size) {p : Nat} (hp : offset < p) :
    Covers size (offset, e) p ↔ p < min (offset + 1 + e.kind.skipped) size := by
  unfold Covers
  cases e.kind <;> simp only [EditKind.replaced, EditKind.skipped] <;> omega

theorem Reached.snoc (h : Reached size before cursor) (hle : cursor ≤ offset)
    (hlt : offset < size) :
    Reached size (before ++ [(offset, e)]) (min (offset + 1 + e.kind.skipped) size) := by
  refine ⟨Nat.min_le_right _ _, fun p hp => ?_⟩
  have hop : offset < p := hp (offset, e) (by simp)
  have hbefore : ¬ Covered size before p := by
    rw [← h.lt_iff p fun x hx => hp x (List.mem_append_left _ hx)]
    omega
  rw [← covers_iff_lt_next hlt hop]
  constructor
  · intro hc
    exact ⟨(offset, e), by simp, hc⟩
  · rintro ⟨x, hx, hc⟩
    rcases List.mem_append.1 hx with hx | hx
    · exact absurd ⟨x, hx, hc⟩ hbefore
    · rwa [List.mem_singleton.1 hx] at hc

end Cursor

section Pass

variable {file : String} {source : Bytes} {cursor : Nat} {x : Nat × Edit}
  {all before es : List (Nat × Edit)}

theorem covered_append_iff (h : ((before ++ x :: es).map Prod.fst).Pairwise (· < ·)) (size : Nat) :
    Covered size (before ++ x :: es) x.1 ↔ Covered size before x.1 := by
  rw [List.map_append, List.pairwise_append, List.map_cons, List.pairwise_cons] at h
  constructor
  · rintro ⟨y, hy, hc⟩
    rcases List.mem_append.1 hy with hy | hy
    · exact ⟨y, hy, hc⟩
    · rcases List.mem_cons.1 hy with rfl | hy
      · exact absurd hc.1 (Nat.lt_irrefl _)
      · have hxy : x.1 < y.1 := h.2.1.1 y.1 (List.mem_map_of_mem hy)
        exact absurd hc.1 (Nat.lt_asymm hxy)
  · rintro ⟨y, hy, hc⟩
    exact ⟨y, List.mem_append_left _ hy, hc⟩

theorem lt_of_mem_before (h : ((before ++ x :: es).map Prod.fst).Pairwise (· < ·)) :
    ∀ y ∈ before, y.1 < x.1 := by
  intro y hy
  rw [List.map_append, List.pairwise_append] at h
  exact h.2.2 y.1 (List.mem_map_of_mem hy) x.1 (by simp)

theorem Reached.lt_cursor_iff (h : Reached source.length before cursor)
    (hs : ((before ++ x :: es).map Prod.fst).Pairwise (· < ·)) :
    x.1 < cursor ↔ Covered source.length (before ++ x :: es) x.1 := by
  rw [covered_append_iff hs, h.lt_iff x.1 (lt_of_mem_before hs)]

theorem drop_eq_cons {offset : Nat} {b : UInt8} (h : source[offset]? = some b) :
    source.drop offset = b :: source.drop (offset + 1) := by
  obtain ⟨hlt, rfl⟩ := List.getElem?_eq_some_iff.1 h
  exact List.drop_eq_getElem_cons hlt

theorem drop_min (n : Nat) : source.drop (min n source.length) = source.drop n := by
  rcases Nat.le_total n source.length with h | h
  · rw [Nat.min_eq_left h]
  · rw [Nat.min_eq_right h, List.drop_length, List.drop_eq_nil_of_le h]

/-- One step of the pass: the text up to the edit, what stands for it, and the rest. -/
theorem renderFrom_cons (hc : cursor ≤ x.1) (hb : source[x.1]? = some x.2.expected) :
    renderFrom file source.length cursor (source.drop cursor) (x :: es) =
      (renderFrom file source.length (min (x.1 + 1 + x.2.kind.skipped) source.length)
        (source.drop (min (x.1 + 1 + x.2.kind.skipped) source.length)) es).map fun more =>
          (source.drop cursor).take (x.1 - cursor) ++
            (x.2.kind.output (FileTree.textBytes x.2.payload) x.2.expected ++ more) := by
  have hd : (source.drop cursor).drop (x.1 - cursor) =
      x.2.expected :: source.drop (x.1 + 1) := by
    rw [List.drop_drop, Nat.add_sub_cancel' hc, drop_eq_cons hb]
  rw [renderFrom, if_neg (Nat.not_lt.2 hc), hd]
  simp only [ne_eq, not_true_eq_false, if_false, List.drop_drop]
  rw [drop_min]
  cases renderFrom file source.length _ (source.drop (x.1 + 1 + x.2.kind.skipped)) es <;> rfl

theorem renderFrom_cons_of_covered (hc : x.1 < cursor) (rest : Bytes) :
    renderFrom file source.length cursor rest (x :: es) = .error (.conflict file x.1) := by
  rw [renderFrom, if_pos hc]

theorem renderFrom_cons_of_mismatch (hc : cursor ≤ x.1) (hb : source[x.1]? ≠ some x.2.expected) :
    renderFrom file source.length cursor (source.drop cursor) (x :: es) =
      .error (.byteMismatch file x.1 x.2.expected source[x.1]?) := by
  rw [renderFrom, if_neg (Nat.not_lt.2 hc), List.drop_drop, Nat.add_sub_cancel' hc]
  cases hs : source[x.1]? with
  | none => rw [List.drop_eq_nil_of_le (List.getElem?_eq_none_iff.1 hs)]
  | some b =>
    rw [drop_eq_cons hs]
    have hne : b ≠ x.2.expected := fun h => hb (by rw [hs, h])
    simp only [hne, ne_eq, not_false_eq_true, if_true]

/-- What stands for an edit in the pass is its splice into the text behind it. -/
theorem splice_take_append (hc : cursor ≤ x.1) (hb : source[x.1]? = some x.2.expected)
    (more : Bytes) :
    splice source.length x
        (source.take (min (x.1 + 1 + x.2.kind.skipped) source.length) ++ more) =
      source.take cursor ++ ((source.drop cursor).take (x.1 - cursor) ++
        (x.2.kind.output (FileTree.textBytes x.2.payload) x.2.expected ++ more)) := by
  have hlt : x.1 < source.length := (List.getElem?_eq_some_iff.1 hb).1
  have hfront : source.take cursor ++ (source.drop cursor).take (x.1 - cursor) =
      source.take x.1 := by
    rw [← List.take_add, Nat.add_sub_cancel' hc]
  have hnext : source.take (x.1 + 1) = source.take x.1 ++ [x.2.expected] := by
    rw [List.take_add_one, hb, Option.toList_some]
  have hlen : (source.take x.1).length = x.1 := List.length_take_of_le (Nat.le_of_lt hlt)
  rw [← List.append_assoc, hfront]
  unfold splice
  cases hk : x.2.kind with
  | insertBefore =>
    simp only [EditKind.splice, EditKind.skipped, EditKind.output, Nat.add_zero]
    rw [Nat.min_eq_left hlt, hnext, List.append_assoc, List.take_left' hlen,
      List.drop_left' hlen, List.append_assoc]
  | insertAfter =>
    have hlen' : (source.take (x.1 + 1)).length = x.1 + 1 := List.length_take_of_le hlt
    simp only [EditKind.splice, EditKind.skipped, EditKind.output, Nat.add_zero]
    rw [Nat.min_eq_left hlt, List.take_left' hlen', List.drop_left' hlen', hnext]
    simp
  | replace length =>
    have hmax : x.1 + max length 1 = x.1 + 1 + (length - 1) := by omega
    simp only [EditKind.splice, EditKind.skipped, EditKind.output, hmax]
    generalize hn : min (x.1 + 1 + (length - 1)) source.length = next
    have hlen' : (source.take next).length = next := List.length_take_of_le (by omega)
    rw [List.drop_left' hlen', List.take_append_of_le_length (by omega), List.take_take,
      Nat.min_eq_left (by omega)]

/-- The pass fails at the first edit that offends, and else leaves the splices. -/
theorem renderFrom_eq (hall : all = before ++ es) (hs : (all.map Prod.fst).Pairwise (· < ·))
    (hr : Reached source.length before cursor) :
    match es.find? fun x => Offends source all x with
    | some x => renderFrom file source.length cursor (source.drop cursor) es =
        .error (faultOf file source all x)
    | none => ∃ more, renderFrom file source.length cursor (source.drop cursor) es = .ok more ∧
        source.take cursor ++ more = splices source es := by
  induction es generalizing before cursor with
  | nil => exact ⟨source.drop cursor, rfl, List.take_append_drop _ _⟩
  | cons x es ih =>
    subst hall
    have hcov := hr.lt_cursor_iff hs
    by_cases hc : x.1 < cursor
    · rw [List.find?_cons_of_pos (by simpa using .inl (hcov.1 hc))]
      show _ = _
      rw [renderFrom_cons_of_covered hc, faultOf, if_pos (hcov.1 hc)]
    · have hc' : cursor ≤ x.1 := Nat.not_lt.1 hc
      by_cases hb : source[x.1]? = some x.2.expected
      · have hlt : x.1 < source.length := (List.getElem?_eq_some_iff.1 hb).1
        have hnot : ¬ Offends source (before ++ x :: es) x := by
          rintro (h | h)
          · exact hc (hcov.2 h)
          · exact h hb
        rw [List.find?_cons_of_neg (by simpa using hnot)]
        have happ : before ++ x :: es = (before ++ [x]) ++ es := by simp
        have hnext := ih happ (hr.snoc hc' hlt)
        split at hnext
        · next y hy => rw [renderFrom_cons hc' hb, hnext]; rfl
        · next hy =>
          obtain ⟨more, hmore, heq⟩ := hnext
          refine ⟨_, by rw [renderFrom_cons hc' hb, hmore]; rfl, ?_⟩
          rw [← splice_take_append hc' hb, heq]
          rfl
      · rw [List.find?_cons_of_pos (by simpa using .inr hb)]
        show _ = _
        rw [renderFrom_cons_of_mismatch hc' hb, faultOf, if_neg fun h => hc (hcov.2 h)]

end Pass

section Insertions

variable {size : Nat} {source : Bytes} {x : Nat × Edit} {es : List (Nat × Edit)}

theorem withoutPayload_of_eq {text output : Bytes}
    (h : output = text.take (x.2.kind.payloadStart x.1) ++
      (FileTree.textBytes x.2.payload ++ text.drop (x.2.kind.payloadStart x.1)))
    (hlen : x.2.kind.payloadStart x.1 ≤ text.length) : withoutPayload output x = some text := by
  have hstart : (text.take (x.2.kind.payloadStart x.1)).length = x.2.kind.payloadStart x.1 :=
    List.length_take_of_le hlen
  subst h
  simp only [withoutPayload]
  rw [List.drop_left' hstart, List.take_left' hstart, List.drop_left,
    if_pos (List.isPrefixOf_iff_prefix.2 (List.prefix_append _ _)), List.take_append_drop]

theorem withoutPayload_splice (hx : x.2.kind.isInsertion) {text : Bytes} (hlt : x.1 < text.length) :
    withoutPayload (splice size x text) x = some text := by
  cases hk : x.2.kind with
  | insertBefore =>
    apply withoutPayload_of_eq
    · simp only [splice, hk, EditKind.splice, EditKind.payloadStart]
    · simp only [hk, EditKind.payloadStart]
      exact Nat.le_of_lt hlt
  | insertAfter =>
    apply withoutPayload_of_eq
    · simp only [splice, hk, EditKind.splice, EditKind.payloadStart]
    · simp only [hk, EditKind.payloadStart]
      exact hlt
  | replace length => simp [hk, EditKind.isInsertion] at hx

theorem length_le_splice (hx : x.2.kind.isInsertion) (text : Bytes) :
    text.length ≤ (splice size x text).length := by
  cases hk : x.2.kind with
  | insertBefore => simp only [splice, hk, EditKind.splice, List.length_append, List.length_take,
      List.length_drop]; omega
  | insertAfter => simp only [splice, hk, EditKind.splice, List.length_append, List.length_take,
      List.length_drop]; omega
  | replace length => simp [hk, EditKind.isInsertion] at hx

theorem length_le_splices (hi : ∀ x ∈ es, x.2.kind.isInsertion) :
    source.length ≤ (splices source es).length := by
  induction es with
  | nil => exact Nat.le_refl _
  | cons x es ih =>
    have hrest := ih fun y hy => hi y (List.mem_cons_of_mem _ hy)
    exact Nat.le_trans hrest (length_le_splice (hi x List.mem_cons_self) _)

/-- The payloads of insertions come out again. -/
theorem withoutPayloads_splices (hi : ∀ x ∈ es, x.2.kind.isInsertion)
    (hlt : ∀ x ∈ es, x.1 < source.length) :
    withoutPayloads (splices source es) es = some source := by
  induction es with
  | nil => rfl
  | cons x es ih =>
    have hi' : ∀ y ∈ es, y.2.kind.isInsertion := fun y hy => hi y (List.mem_cons_of_mem _ hy)
    have hx : x.1 < (splices source es).length :=
      Nat.lt_of_lt_of_le (hlt x List.mem_cons_self) (length_le_splices hi')
    have hout : withoutPayload (splices source (x :: es)) x = some (splices source es) :=
      withoutPayload_splice (hi x List.mem_cons_self) hx
    rw [withoutPayloads, List.foldlM_cons, hout]
    exact ih hi' fun y hy => hlt y (List.mem_cons_of_mem _ hy)

end Insertions

section Render

variable (file : String) (source : Bytes) (edits : EditScript)

theorem render_eq :
    match edits.entries.find? fun x => Offends source edits.entries x with
    | some x => edits.render file source = .error (faultOf file source edits.entries x)
    | none => edits.render file source = .ok (splices source edits.entries) := by
  have hr : Reached source.length [] 0 := reached_nil
  have h := @renderFrom_eq file source 0 edits.entries [] edits.entries rfl edits.sorted hr
  split at h
  · exact h
  · obtain ⟨more, hmore, heq⟩ := h
    rw [List.take_zero, List.nil_append] at heq
    rw [← heq]
    exact hmore

variable {file source edits}

/-- The edit that `find?` meets first stands lowest. -/
theorem not_offends_of_lt {x : Nat × Edit}
    (h : edits.entries.find? (fun x => Offends source edits.entries x) = some x) :
    ∀ y ∈ edits.entries, y.1 < x.1 → ¬ Offends source edits.entries y := by
  obtain ⟨-, before, after, heq, hbefore⟩ := List.find?_eq_some_iff_append.1 h
  have hs := edits.sorted
  rw [heq, List.map_append, List.map_cons, List.pairwise_append, List.pairwise_cons] at hs
  intro y hy hlt ho
  rw [heq] at hy
  rcases List.mem_append.1 hy with hy | hy
  · have hno := hbefore y hy
    simp [ho] at hno
  · rcases List.mem_cons.1 hy with rfl | hy
    · exact Nat.lt_irrefl _ hlt
    · exact Nat.lt_asymm hlt (hs.2.1.1 y.1 (List.mem_map_of_mem hy))

end Render

end EditScript

end ContractModel

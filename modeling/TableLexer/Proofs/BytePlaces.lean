import TableLexer.Proofs.LineBreaks

/-!
# Places in bytes

Callers of a pattern count bytes. A byte count names at most one place, so what is sliced, read and
matched in bytes is what is sliced, read and matched between the places the counts name.
-/
namespace TableLexer

namespace Text

variable {text : List Char} {i j n pos : Nat}

@[simp] theorem bytesBefore_zero (text : List Char) : bytesBefore text 0 = 0 := rfl

theorem bytesBefore_cons (c : Char) (cs : List Char) (i : Nat) :
    bytesBefore (c :: cs) (i + 1) = c.utf8Size + bytesBefore cs i := rfl

theorem bytesBefore_add (text : List Char) (i n : Nat) :
    bytesBefore text (i + n) = bytesBefore text i + byteLength (slice text i (i + n)) := by
  rw [bytesBefore, take_add_slice, byteLength_append, bytesBefore]

theorem placeAt?_eq_some_iff :
    placeAt? text pos = some i ↔ i ≤ text.length ∧ bytesBefore text i = pos := by
  constructor
  · intro h
    induction text, pos using placeAt?.induct generalizing i with
    | case1 text =>
      obtain rfl : 0 = i := by simpa [placeAt?] using h
      exact ⟨Nat.zero_le _, rfl⟩
    | case2 pos => simp [placeAt?] at h
    | case3 c cs b hb hle ih =>
      rw [placeAt?.eq_3 _ _ _ hb, if_pos hle, Option.map_eq_some_iff] at h
      obtain ⟨j, hj, rfl⟩ := h
      obtain ⟨hlen, hbytes⟩ := ih hj
      refine ⟨Nat.succ_le_succ hlen, ?_⟩
      rw [bytesBefore_cons, hbytes]
      omega
    | case4 c cs b hb hlt =>
      rw [placeAt?.eq_3 _ _ _ hb, if_neg hlt] at h
      cases h
  · rintro ⟨hi, rfl⟩
    exact placeAt?_bytesBefore text i hi

theorem bytesBefore_mono (text : List Char) (h : i ≤ j) :
    bytesBefore text i ≤ bytesBefore text j := by
  obtain ⟨n, rfl⟩ := Nat.exists_eq_add_of_le h
  rw [bytesBefore_add]
  exact Nat.le_add_right _ _

theorem byteLength_pos {s : List Char} (h : s ≠ []) : 0 < byteLength s := by
  cases s with
  | nil => exact absurd rfl h
  | cons c s =>
    have := c.utf8Size_pos
    rw [byteLength]
    omega

theorem byteLength_slice_pos (hn : 0 < n) (h : i + n ≤ text.length) :
    0 < byteLength (slice text i (i + n)) := by
  apply byteLength_pos
  rw [← List.length_pos_iff, length_slice_add h]
  exact hn

/-- Bytes are left exactly where characters are left. -/
theorem byteLength_le_bytesBefore_iff (h : i ≤ text.length) :
    byteLength text ≤ bytesBefore text i ↔ text.length ≤ i := by
  have hall : byteLength text = bytesBefore text text.length := by
    rw [bytesBefore, List.take_length]
  obtain ⟨n, hn⟩ := Nat.exists_eq_add_of_le h
  rw [hall, hn, bytesBefore_add]
  cases n with
  | zero => simp [slice, byteLength]
  | succ n =>
    have hmore : 0 < byteLength (slice text i (i + (n + 1))) :=
      byteLength_slice_pos (Nat.succ_pos n) (Nat.le_of_eq hn.symm)
    omega

theorem sliceBytes?_places (hij : i ≤ j) (hj : j ≤ text.length) :
    sliceBytes? text (bytesBefore text i) (bytesBefore text j) = some (slice text i j) := by
  rw [sliceBytes?, if_pos (bytesBefore_mono text hij), placeAt?_bytesBefore text i (by omega),
    placeAt?_bytesBefore text j hj]

theorem charAtByte?_place (h : i ≤ text.length) :
    charAtByte? text (bytesBefore text i) = text[i]? := by
  rw [charAtByte?, placeAt?_bytesBefore text i h, Option.bind_some]

theorem bytesBefore_slice (text : List Char) (i : Nat) (h : j ≤ n) :
    bytesBefore text i + bytesBefore (slice text i (i + n)) j = bytesBefore text (i + j) := by
  rw [bytesBefore_add, slice_add, slice_add]
  simp only [bytesBefore, List.take_take, Nat.min_eq_left h]

end Text

namespace Pattern

open Text

variable {p : Pattern} {text : List Char} {i n pos bytes : Nat}

theorem matchBytesAt?_eq_some_iff :
    p.matchBytesAt? text pos = some bytes ↔
      ∃ i n, placeAt? text pos = some i ∧ p.matchAt? text i = some n ∧
        placeAt? text (pos + bytes) = some (i + n) := by
  have hends : ∀ i n, placeAt? text pos = some i → p.matchAt? text i = some n →
      (placeAt? text (pos + bytes) = some (i + n) ↔
        byteLength (slice text i (i + n)) = bytes) := by
    intro i n hi hn
    have hwithin := matchAt?_within hn
    have hpos := (placeAt?_eq_some_iff.mp hi).2
    rw [placeAt?_eq_some_iff, bytesBefore_add, hpos]
    omega
  constructor
  · intro h
    cases hi : placeAt? text pos with
    | none => simp [matchBytesAt?, hi] at h
    | some i =>
      simp only [matchBytesAt?, hi, Option.map_eq_some_iff] at h
      obtain ⟨n, hn, hbytes⟩ := h
      exact ⟨i, n, rfl, hn, (hends i n hi hn).mpr hbytes⟩
  · rintro ⟨i, n, hi, hn, hstop⟩
    simp only [matchBytesAt?, hi, hn, Option.map_some, (hends i n hi hn).mp hstop]

theorem matchBytesAt?_eq_zero_iff :
    p.matchBytesAt? text pos = some 0 ↔
      ∃ i, placeAt? text pos = some i ∧ p.matchAt? text i = some 0 := by
  rw [matchBytesAt?_eq_some_iff]
  constructor
  · rintro ⟨i, n, hi, hn, hstop⟩
    rw [Nat.add_zero, hi, Option.some.injEq] at hstop
    obtain rfl : n = 0 := by omega
    exact ⟨i, hi, hn⟩
  · rintro ⟨i, hi, hn⟩
    exact ⟨i, 0, hi, hn, hi⟩

theorem matchBytesAt?_place (h : i ≤ text.length) :
    p.matchBytesAt? text (bytesBefore text i) =
      (p.matchAt? text i).map fun n => byteLength (slice text i (i + n)) := by
  rw [matchBytesAt?, placeAt?_bytesBefore text i h]

theorem consumedBytesAt?_place (h : i ≤ text.length) :
    p.consumedBytesAt? text (bytesBefore text i) =
      (p.consumedAt? text i).map fun n => byteLength (slice text i (i + n)) := by
  rw [consumedBytesAt?, consumedAt?, matchBytesAt?_place h]
  cases hm : p.matchAt? text i with
  | none => rfl
  | some n =>
    have hin := matchAt?_within hm
    cases n with
    | zero => simp [slice, byteLength, Option.filter]
    | succ n => simp [Option.filter, byteLength_slice_pos (Nat.succ_pos n) hin]

end Pattern
end TableLexer

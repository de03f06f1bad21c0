import TableLexer.Pattern

/-!
# What a match reads

A match hands on a cursor of the same text behind what it has read, and what it has read is in the
language of the expression. So a pattern never consumes more characters than are left.
-/
namespace TableLexer

namespace Regex

structure Cursor.Reads (cur : Cursor) (text : List Char) (next : Cursor) : Prop where
  rest : cur.rest = text ++ next.rest
  offset : next.offset = cur.offset + text.length

namespace Cursor.Reads

variable {a b c : Cursor} {x y : List Char}

theorem nil (a : Cursor) : a.Reads [] a := ⟨rfl, rfl⟩

theorem append (h : a.Reads x b) (k : b.Reads y c) : a.Reads (x ++ y) c := by
  constructor
  · rw [h.rest, k.rest, List.append_assoc]
  · rw [k.offset, h.offset, List.length_append, Nat.add_assoc]

theorem forward (h : a.Reads x b) : a.offset ≤ b.offset := h.offset ▸ Nat.le_add_right _ _

end Cursor.Reads

/-- A step that succeeds has read a text of the language and handed on the cursor behind it. -/
def Reads {β : Type} (L : List Char → Prop) (step : Step β) : Prop :=
  ∀ k cur b, step k cur = some b →
    ∃ text next, L text ∧ cur.Reads text next ∧ k next = some b

def Pieces (L : List Char → Prop) (n : Nat) (text : List Char) : Prop :=
  ∃ pieces : List (List Char),
    pieces.length = n ∧ (∀ piece ∈ pieces, L piece) ∧ pieces.flatten = text

/-- The texts that an expression can read somewhere. Conditions on the place are left out. -/
def Language : Regex → List Char → Prop
  | empty, text => text = []
  | set s, text => ∃ c, s.mem c = true ∧ text = [c]
  | look _, text => text = []
  | seq r s, text => ∃ x y, r.Language x ∧ s.Language y ∧ text = x ++ y
  | alt r s, text => r.Language text ∨ s.Language text
  | rep least most _ body, text =>
    ∃ n, least ≤ n ∧ (∀ m ∈ most, n ≤ max least m) ∧ Pieces body.Language n text

variable {β : Type} {step : Step β} {L : List Char → Prop}

theorem Pieces.nil : Pieces L 0 [] := ⟨[], rfl, by simp, rfl⟩

theorem Pieces.cons {n : Nat} {x y : List Char} (hx : L x) (hy : Pieces L n y) :
    Pieces L (n + 1) (x ++ y) := by
  obtain ⟨pieces, rfl, hall, rfl⟩ := hy
  exact ⟨x :: pieces, rfl, List.forall_mem_cons.mpr ⟨hx, hall⟩, rfl⟩

theorem Pieces.append {m n : Nat} {x y : List Char} (hx : Pieces L m x) (hy : Pieces L n y) :
    Pieces L (m + n) (x ++ y) := by
  obtain ⟨xs, rfl, hxs, rfl⟩ := hx
  obtain ⟨ys, rfl, hys, rfl⟩ := hy
  exact ⟨xs ++ ys, List.length_append, List.forall_mem_append.mpr ⟨hxs, hys⟩, List.flatten_append⟩

theorem choose_cases {greedy : Bool} {more stop : Unit → Option β} {b : β}
    (h : choose greedy more stop = some b) : more () = some b ∨ stop () = some b := by
  cases greedy with
  | true =>
    simp only [choose, ↓reduceIte, Option.orElse_eq_or, Option.or_eq_some_iff] at h
    exact h.imp_right And.right
  | false =>
    simp only [choose, Bool.false_eq_true, ↓reduceIte, Option.orElse_eq_or,
      Option.or_eq_some_iff] at h
    exact h.symm.imp_left And.right

theorem times_reads (hs : Reads L step) (n : Nat) : Reads (Pieces L n) (times step n) := by
  induction n with
  | zero => intro k cur b h; exact ⟨[], cur, .nil, .nil cur, h⟩
  | succ n ih =>
    intro k cur b h
    obtain ⟨x, mid, hx, hmid, h⟩ := hs _ _ _ h
    obtain ⟨y, next, hy, hnext, h⟩ := ih _ _ _ h
    exact ⟨x ++ y, next, hy.cons hx, hmid.append hnext, h⟩

theorem upTo_reads (hs : Reads L step) (greedy : Bool) (n : Nat) :
    Reads (fun text => ∃ m ≤ n, Pieces L m text) (upTo step greedy n) := by
  induction n with
  | zero => intro k cur b h; exact ⟨[], cur, ⟨0, Nat.le_refl 0, .nil⟩, .nil cur, h⟩
  | succ n ih =>
    intro k cur b h
    rcases choose_cases h with h | h
    · obtain ⟨x, mid, hx, hmid, h⟩ := hs _ _ _ h
      obtain ⟨y, next, ⟨m, hm, hy⟩, hnext, h⟩ := ih _ _ _ h
      exact ⟨x ++ y, next, ⟨m + 1, Nat.succ_le_succ hm, hy.cons hx⟩, hmid.append hnext, h⟩
    · exact ⟨[], cur, ⟨0, Nat.zero_le _, .nil⟩, .nil cur, h⟩

theorem again_reads (hs : Reads L step) (greedy : Bool) (k : Cursor → Option β)
    (room : Nat) (cur : Cursor) (b : β) (h : again step greedy k room cur = some b) :
    ∃ text next, (∃ m, Pieces L m text) ∧ cur.Reads text next ∧ k next = some b := by
  induction room generalizing cur with
  | zero => exact ⟨[], cur, ⟨0, .nil⟩, .nil cur, h⟩
  | succ room ih =>
    rcases choose_cases h with h | h
    · obtain ⟨x, mid, hx, hmid, h⟩ := hs _ _ _ h
      split at h
      · cases h
      · obtain ⟨y, next, ⟨m, hy⟩, hnext, h⟩ := ih mid h
        exact ⟨x ++ y, next, ⟨m + 1, hy.cons hx⟩, hmid.append hnext, h⟩
    · exact ⟨[], cur, ⟨0, .nil⟩, .nil cur, h⟩

theorem plus_reads (hs : Reads L step) (greedy : Bool) :
    Reads (fun text => ∃ m, Pieces L (m + 1) text) (plus step greedy) := by
  intro k cur b h
  obtain ⟨x, mid, hx, hmid, h⟩ := hs _ _ _ h
  split at h
  · exact ⟨x, mid, ⟨0, by simpa using Pieces.nil.cons hx⟩, hmid, h⟩
  · obtain ⟨y, next, ⟨m, hy⟩, hnext, h⟩ := again_reads hs greedy k _ mid b h
    exact ⟨x ++ y, next, ⟨m, hy.cons hx⟩, hmid.append hnext, h⟩

theorem star_reads (hs : Reads L step) (greedy : Bool) :
    Reads (fun text => ∃ m, Pieces L m text) (star step greedy) := by
  intro k cur b h
  rcases choose_cases h with h | h
  · obtain ⟨x, next, ⟨m, hx⟩, hnext, h⟩ := plus_reads hs greedy k cur b h
    exact ⟨x, next, ⟨m + 1, hx⟩, hnext, h⟩
  · exact ⟨[], cur, ⟨0, .nil⟩, .nil cur, h⟩

theorem repeated_reads (hs : Reads L step) (greedy : Bool) (least : Nat) (most : Option Nat) :
    Reads (fun text => ∃ n, least ≤ n ∧ (∀ m ∈ most, n ≤ max least m) ∧ Pieces L n text)
      (repeated step greedy least most) := by
  intro k cur b h
  cases most with
  | some most =>
    obtain ⟨x, mid, hx, hmid, h⟩ := times_reads hs least _ _ _ h
    obtain ⟨y, next, ⟨m, hm, hy⟩, hnext, h⟩ := upTo_reads hs greedy _ _ _ _ h
    refine ⟨x ++ y, next, ⟨least + m, Nat.le_add_right _ _, ?_, hx.append hy⟩,
      hmid.append hnext, h⟩
    rintro _ ⟨⟩
    omega
  | none =>
    cases least with
    | zero =>
      obtain ⟨x, next, ⟨m, hx⟩, hnext, h⟩ := star_reads hs greedy k cur b h
      exact ⟨x, next, ⟨m, Nat.zero_le m, by simp, hx⟩, hnext, h⟩
    | succ n =>
      obtain ⟨x, mid, hx, hmid, h⟩ := times_reads hs n _ _ _ h
      obtain ⟨y, next, ⟨m, hy⟩, hnext, h⟩ := plus_reads hs greedy _ _ _ h
      exact ⟨x ++ y, next, ⟨n + (m + 1), by omega, by simp, hx.append hy⟩, hmid.append hnext, h⟩

theorem run_reads (r : Regex) : Reads r.Language (run (β := β) r) := by
  induction r with
  | empty => intro k cur b h; exact ⟨[], cur, rfl, .nil cur, h⟩
  | set s =>
    intro k cur b h
    cases hr : cur.rest with
    | nil => simp [run, hr] at h
    | cons c rest =>
      simp only [run, hr, Option.ite_none_right_eq_some] at h
      exact ⟨[c], cur.advance c rest, ⟨c, h.1, rfl⟩, ⟨hr, rfl⟩, h.2⟩
  | look l =>
    intro k cur b h
    simp only [run, Option.ite_none_right_eq_some] at h
    exact ⟨[], cur, rfl, .nil cur, h.2⟩
  | seq r s ihr ihs =>
    intro k cur b h
    obtain ⟨x, mid, hx, hmid, h⟩ := ihr _ _ _ h
    obtain ⟨y, next, hy, hnext, h⟩ := ihs _ _ _ h
    exact ⟨x ++ y, next, ⟨x, y, hx, hy, rfl⟩, hmid.append hnext, h⟩
  | alt r s ihr ihs =>
    intro k cur b h
    simp only [run, Option.orElse_eq_or, Option.or_eq_some_iff] at h
    rcases h with h | ⟨-, h⟩
    · obtain ⟨x, next, hx, hnext, h⟩ := ihr k cur b h
      exact ⟨x, next, .inl hx, hnext, h⟩
    · obtain ⟨x, next, hx, hnext, h⟩ := ihs k cur b h
      exact ⟨x, next, .inr hx, hnext, h⟩
  | rep least most greedy body ih => exact repeated_reads ih greedy least most

/-- A match is a piece of the text, and in the language of the expression. -/
theorem matchAt?_reads {r : Regex} {text : List Char} {i n : Nat}
    (h : r.matchAt? text i = some n) :
    ∃ x rest, text.drop i = x ++ rest ∧ x.length = n ∧ r.Language x := by
  obtain ⟨x, next, hx, hnext, h⟩ := run_reads r _ _ _ h
  refine ⟨x, next.rest, hnext.rest, ?_, hx⟩
  rw [Option.some.injEq, hnext.offset] at h
  simp only [Cursor.ofText] at h
  omega

theorem matchAt?_within {r : Regex} {text : List Char} {i n : Nat}
    (h : r.matchAt? text i = some n) (hi : i ≤ text.length) : i + n ≤ text.length := by
  obtain ⟨x, rest, hdrop, rfl, -⟩ := matchAt?_reads h
  have hlen := congrArg List.length hdrop
  rw [List.length_drop, List.length_append] at hlen
  omega

theorem language_optional {greedy : Bool} {r : Regex} {text : List Char} :
    (rep 0 (some 1) greedy r).Language text ↔ text = [] ∨ r.Language text := by
  constructor
  · rintro ⟨n, -, hn, pieces, rfl, hall, rfl⟩
    have hle : pieces.length ≤ 1 := hn 1 rfl
    match pieces with
    | [] => exact .inl rfl
    | [x] => exact .inr (by simpa using hall)
  · rintro (rfl | h)
    · exact ⟨0, Nat.le_refl 0, by simp, .nil⟩
    · exact ⟨1, by omega, by simp, by simpa using Pieces.nil.cons h⟩

theorem language_run {least : Nat} {greedy : Bool} {s : CharSet} {text : List Char} :
    (rep least none greedy (set s)).Language text ↔
      least ≤ text.length ∧ ∀ c ∈ text, s.mem c = true := by
  constructor
  · rintro ⟨n, hn, -, pieces, rfl, hall, rfl⟩
    have hpieces : ∀ piece ∈ pieces, ∃ c, s.mem c = true ∧ piece = [c] := hall
    refine ⟨?_, ?_⟩
    · have hone : pieces.map List.length = pieces.map fun _ => 1 := by
        apply List.map_congr_left
        intro piece hmem
        obtain ⟨c, -, rfl⟩ := hpieces piece hmem
        rfl
      rwa [List.length_flatten, hone, List.map_const', List.sum_replicate_nat, Nat.mul_one]
    · intro c hc
      obtain ⟨piece, hmem, hc⟩ := List.mem_flatten.mp hc
      obtain ⟨d, hd, rfl⟩ := hpieces piece hmem
      exact List.mem_singleton.mp hc ▸ hd
  · rintro ⟨hle, hall⟩
    refine ⟨text.length, hle, by simp, text.map fun c => [c], by simp, ?_,
      (List.flatMap_def ..).symm.trans (List.flatMap_singleton' text)⟩
    intro piece hmem
    obtain ⟨c, hc, rfl⟩ := List.mem_map.mp hmem
    exact ⟨c, hall c hc, rfl⟩

end Regex

namespace Pattern

theorem matchAt?_within {p : Pattern} {text : List Char} {i n : Nat}
    (h : p.matchAt? text i = some n) : i + n ≤ text.length := by
  unfold matchAt? at h
  split at h
  · cases h
  · next hi =>
    have hi : i ≤ text.length := by omega
    cases p with
    | char c =>
      simp only [Option.ite_none_right_eq_some, Option.some.injEq] at h
      obtain ⟨hc, rfl⟩ := h
      have hne : text.drop i ≠ [] := by
        intro he
        simp [he] at hc
      have := List.length_pos_iff.mpr hne
      simp only [List.length_drop] at this
      omega
    | literal lit =>
      simp only [Option.ite_none_right_eq_some, Option.some.injEq] at h
      obtain ⟨hp, rfl⟩ := h
      have := (List.isPrefixOf_iff_prefix.mp hp).length_le
      simp only [List.length_drop] at this
      omega
    | regex r => exact Regex.matchAt?_within h hi

theorem consumedAt?_eq_some {p : Pattern} {text : List Char} {i n : Nat} :
    p.consumedAt? text i = some n ↔ p.matchAt? text i = some n ∧ 0 < n := by
  simp [consumedAt?, Option.filter_eq_some_iff]

theorem consumedAt?_within {p : Pattern} {text : List Char} {i n : Nat}
    (h : p.consumedAt? text i = some n) : 0 < n ∧ i + n ≤ text.length := by
  obtain ⟨hm, hn⟩ := consumedAt?_eq_some.mp h
  exact ⟨hn, matchAt?_within hm⟩

end Pattern
end TableLexer

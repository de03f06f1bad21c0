import TableLexer.Regex.Basic

/-!
# Greedy repetition

When a text splits into pieces that the body of a repetition takes one by one, and the body does
not match what stands after the last piece, a greedy repetition takes exactly these pieces.
-/
namespace TableLexer.Regex

variable {β : Type} {step : Step β}

/-- The step takes the text, whatever stands after it, and goes on behind it. -/
def Takes (step : Step β) (text : List Char) : Prop :=
  ∀ k cur rest b, cur.rest = text ++ rest →
    (∀ next, next.offset = cur.offset + text.length → next.rest = rest → k next = some b) →
    step k cur = some b

def Refuses (step : Step β) (text : List Char) : Prop :=
  ∀ k cur, cur.rest = text → step k cur = none

theorem Refuses.matchAt? {r : Regex} {text : List Char} {i : Nat}
    (h : Refuses (β := Nat) r.run (text.drop i)) : r.matchAt? text i = none :=
  h _ (Cursor.ofText text i) rfl

theorem takes_set {s : CharSet} {c : Char} (h : s.mem c = true) :
    Takes (β := β) (run (set s)) [c] := by
  intro k cur rest b hrest hk
  have hrest : cur.rest = c :: rest := hrest
  simp only [run, hrest, h, ↓reduceIte]
  exact hk _ rfl rfl

theorem refuses_set {s : CharSet} {c : Char} {rest : List Char} (h : s.mem c = false) :
    Refuses (β := β) (run (set s)) (c :: rest) := by
  intro k cur hrest
  simp [run, hrest, h]

theorem takes_seq {r s : Regex} {x y : List Char} (hr : Takes (β := β) r.run x)
    (hs : Takes (β := β) s.run y) : Takes (β := β) (run (seq r s)) (x ++ y) := by
  intro k cur rest b hrest hk
  rw [List.append_assoc] at hrest
  apply hr _ cur (y ++ rest) b hrest
  intro mid hoff hmid
  apply hs _ mid rest b hmid
  intro next hoff' hnext
  apply hk next _ hnext
  rw [hoff', hoff, List.length_append, Nat.add_assoc]

theorem refuses_seq {r s : Regex} {text : List Char} (h : Refuses (β := β) r.run text) :
    Refuses (β := β) (run (seq r s)) text := fun k cur hrest => h (s.run k) cur hrest

theorem takes_alt_left {r s : Regex} {text : List Char} (h : Takes (β := β) r.run text) :
    Takes (β := β) (run (alt r s)) text := by
  intro k cur rest b hrest hk
  simp [run, h k cur rest b hrest hk]

theorem takes_alt_right {r s : Regex} {text : List Char}
    (hr : ∀ rest, Refuses (β := β) r.run (text ++ rest)) (hs : Takes (β := β) s.run text) :
    Takes (β := β) (run (alt r s)) text := by
  intro k cur rest b hrest hk
  simp [run, hr rest k cur hrest, hs k cur rest b hrest hk]

theorem refuses_alt {r s : Regex} {text : List Char} (hr : Refuses (β := β) r.run text)
    (hs : Refuses (β := β) s.run text) : Refuses (β := β) (run (alt r s)) text := by
  intro k cur hrest
  simp [run, hr k cur hrest, hs k cur hrest]

theorem refuses_plus {r : Regex} {greedy : Bool} {text : List Char}
    (h : Refuses (β := β) r.run text) :
    Refuses (β := β) (run (rep 1 none greedy r)) text := fun _ cur hrest => h _ cur hrest

theorem takes_times {pieces : List (List Char)} (h : ∀ p ∈ pieces, Takes step p) :
    Takes (times step pieces.length) pieces.flatten := by
  induction pieces with
  | nil =>
    intro k cur rest b hrest hk
    exact hk cur rfl hrest
  | cons p pieces ih =>
    rw [List.forall_mem_cons] at h
    intro k cur rest b hrest hk
    rw [List.flatten_cons, List.append_assoc] at hrest
    apply h.1 _ cur (pieces.flatten ++ rest) b hrest
    intro mid hoff hmid
    apply ih h.2 k mid rest b hmid
    intro next hoff' hnext
    apply hk next _ hnext
    rw [hoff', hoff, List.flatten_cons, List.length_append, Nat.add_assoc]

theorem takes_exactly {r : Regex} {pieces : List (List Char)} {greedy : Bool}
    (h : ∀ p ∈ pieces, Takes (β := β) r.run p) :
    Takes (β := β) (run (rep pieces.length (some pieces.length) greedy r)) pieces.flatten := by
  intro k cur rest b hrest hk
  simp only [run, repeated, Nat.sub_self]
  exact takes_times h (upTo r.run greedy 0 k) cur rest b hrest hk

theorem again_takes {pieces : List (List Char)} {rest : List Char}
    (h : ∀ p ∈ pieces, p ≠ [] ∧ Takes step p) (hr : Refuses step rest) {k : Cursor → Option β}
    {cur : Cursor} {b : β} {room : Nat} (hroom : pieces.flatten.length ≤ room)
    (hrest : cur.rest = pieces.flatten ++ rest)
    (hk : ∀ next, next.offset = cur.offset + pieces.flatten.length → next.rest = rest →
      k next = some b) : again step true k room cur = some b := by
  induction pieces generalizing cur room with
  | nil =>
    have hend : k cur = some b := hk cur rfl hrest
    cases room with
    | zero => exact hend
    | succ room => simp [again, choose, hr _ cur hrest, hend]
  | cons p pieces ih =>
    rw [List.forall_mem_cons] at h
    rw [List.flatten_cons, List.append_assoc] at hrest
    have hp : 0 < p.length := List.length_pos_iff.mpr h.1.1
    rw [List.flatten_cons, List.length_append] at hroom
    obtain ⟨room, rfl⟩ : ∃ n, room = n + 1 := ⟨room - 1, by omega⟩
    have hround : step (fun next =>
        if next.offset = cur.offset then none else again step true k room next) cur = some b := by
      apply h.1.2 _ cur (pieces.flatten ++ rest) b hrest
      intro next hoff hnext
      rw [if_neg (by omega)]
      apply ih h.2 (by omega) hnext
      intro last hoff' hlast
      apply hk last _ hlast
      rw [hoff', hoff, List.flatten_cons, List.length_append, Nat.add_assoc]
    simp [again, choose, hround]

theorem plus_takes {p : List Char} {pieces : List (List Char)} {rest : List Char}
    (hp : p ≠ [] ∧ Takes step p) (h : ∀ p ∈ pieces, p ≠ [] ∧ Takes step p)
    (hr : Refuses step rest) {k : Cursor → Option β} {cur : Cursor} {b : β}
    (hrest : cur.rest = p ++ (pieces.flatten ++ rest))
    (hk : ∀ next, next.offset = cur.offset + (p.length + pieces.flatten.length) →
      next.rest = rest → k next = some b) : plus step true k cur = some b := by
  have hpos : 0 < p.length := List.length_pos_iff.mpr hp.1
  apply hp.2 _ cur (pieces.flatten ++ rest) b hrest
  intro next hoff hnext
  rw [if_neg (by omega)]
  apply again_takes h hr _ hnext
  · intro last hoff' hlast
    apply hk last _ hlast
    omega
  · rw [hnext, List.length_append]
    omega

theorem star_takes {pieces : List (List Char)} {rest : List Char}
    (h : ∀ p ∈ pieces, p ≠ [] ∧ Takes step p) (hr : Refuses step rest) {k : Cursor → Option β}
    {cur : Cursor} {b : β} (hrest : cur.rest = pieces.flatten ++ rest)
    (hk : ∀ next, next.offset = cur.offset + pieces.flatten.length → next.rest = rest →
      k next = some b) : star step true k cur = some b := by
  cases pieces with
  | nil =>
    have hend : k cur = some b := hk cur rfl hrest
    simp [star, choose, plus, hr _ cur hrest, hend]
  | cons p pieces =>
    rw [List.forall_mem_cons] at h
    rw [List.flatten_cons, List.append_assoc] at hrest
    have hplus := plus_takes h.1 h.2 hr hrest (by simpa using hk)
    simp [star, choose, hplus]

end TableLexer.Regex

import TableLexer.Proofs.LineBreaks

/-!
# Matches see only what they consume

An expression without conditions on places finds in two texts the same match as long as neither
match leaves the part that the texts share: the ways to match are tried in the same order, and
what stands behind the shared part plays no role.
-/
namespace TableLexer

namespace Regex

def LookFree : Regex → Prop
  | empty | set _ => True
  | look _ => False
  | seq r s | alt r s => r.LookFree ∧ s.LookFree
  | rep _ _ _ body => body.LookFree

instance decidableLookFree : (r : Regex) → Decidable r.LookFree
  | empty | set _ => isTrue trivial
  | look _ => isFalse id
  | seq r s | alt r s =>
    have := decidableLookFree r
    have := decidableLookFree s
    inferInstanceAs (Decidable (r.LookFree ∧ s.LookFree))
  | rep _ _ _ body => decidableLookFree body

/-- The cursors have the same part of their texts ahead up to the places `stop` and `stop'`,
where `s` and `s'` follow. -/
def Beside (s s' : List Char) (stop stop' : Nat) (cur cur' : Cursor) : Prop :=
  ∃ v, cur.rest = v ++ s ∧ cur'.rest = v ++ s' ∧
    cur.offset + v.length = stop ∧ cur'.offset + v.length = stop'

def Agree {β : Type} (far : β → Prop) (o o' : Option β) : Prop :=
  o = o' ∨ (∃ b, o = some b ∧ far b) ∨ ∃ b, o' = some b ∧ far b

variable {β : Type} {L : List Char → Prop} {far : β → Prop} {s s' : List Char}
  {stop stop' low : Nat}
variable {cur cur' : Cursor} {k k' : Cursor → Option β} {step : Step β} {o o' p p' : Option β}

theorem Agree.of_far (h : ∀ b, o = some b → far b) (h' : ∀ b, o' = some b → far b) :
    Agree far o o' := by
  cases o with
  | some b => exact .inr (.inl ⟨b, rfl, h b rfl⟩)
  | none =>
    cases o' with
    | some b => exact .inr (.inr ⟨b, rfl, h' b rfl⟩)
    | none => exact .inl rfl

theorem Agree.orElse (h : Agree far o o') (k : Agree far p p') :
    Agree far (o.orElse fun _ => p) (o'.orElse fun _ => p') := by
  rcases h with rfl | ⟨b, rfl, hb⟩ | ⟨b, rfl, hb⟩
  · cases o with
    | some b => exact .inl rfl
    | none => exact k
  · exact .inr (.inl ⟨b, rfl, hb⟩)
  · exact .inr (.inr ⟨b, rfl, hb⟩)

theorem Agree.choose {greedy : Bool} (h : Agree far o o') (k : Agree far p p') :
    Agree far (choose greedy (fun _ => o) fun _ => p)
      (Regex.choose greedy (fun _ => o') fun _ => p') := by
  cases greedy with
  | true => exact h.orElse k
  | false => exact k.orElse h

theorem Beside.offset_eq_iff (h : Beside s s' stop stop' cur cur') {next next' : Cursor}
    (hn : Beside s s' stop stop' next next') :
    next.offset = cur.offset ↔ next'.offset = cur'.offset := by
  obtain ⟨v, -, -, h, h'⟩ := h
  obtain ⟨w, -, -, hn, hn'⟩ := hn
  omega

/-- From the place `low` on the two ways to go on agree; what they find beyond the shared part is
far. -/
structure Paired (far : β → Prop) (s s' : List Char) (stop stop' low : Nat)
    (k k' : Cursor → Option β) : Prop where
  beside : ∀ cur cur', Beside s s' stop stop' cur cur' → low ≤ cur.offset →
    Agree far (k cur) (k' cur')
  beyond : ∀ cur b, stop < cur.offset → k cur = some b → far b
  beyond' : ∀ cur b, stop' < cur.offset → k' cur = some b → far b

theorem Paired.later (h : Paired far s s' stop stop' low k k') {low' : Nat} (hl : low ≤ low') :
    Paired far s s' stop stop' low' k k' where
  beside cur cur' hb hc := h.beside cur cur' hb (Nat.le_trans hl hc)
  beyond := h.beyond
  beyond' := h.beyond'

def Local (far : β → Prop) (s s' : List Char) (stop stop' : Nat) (step : Step β) : Prop :=
  ∀ cur cur', Beside s s' stop stop' cur cur' → ∀ k k',
    Paired far s s' stop stop' cur.offset k k' → Agree far (step k cur) (step k' cur')

theorem Reads.beyond (ha : Reads L step) {limit : Nat}
    (hk : ∀ cur b, limit < cur.offset → k cur = some b → far b) {b : β}
    (hcur : limit < cur.offset) (hb : step k cur = some b) : far b := by
  obtain ⟨_, next, -, hn, hnext⟩ := ha _ _ _ hb
  exact hk next b (Nat.lt_of_lt_of_le hcur hn.forward) hnext

theorem Local.paired (hl : Local far s s' stop stop' step) (ha : Reads L step)
    (h : Paired far s s' stop stop' low k k') :
    Paired far s s' stop stop' low (step k) (step k') where
  beside cur cur' hb hlow := hl cur cur' hb k k' (h.later hlow)
  beyond _ _ hcur hk := ha.beyond h.beyond hcur hk
  beyond' _ _ hcur hk := ha.beyond h.beyond' hcur hk

theorem times_local (hl : Local far s s' stop stop' step) (ha : Reads L step) (n : Nat) :
    Local far s s' stop stop' (times step n) := by
  induction n with
  | zero =>
    intro cur cur' hb k k' hk
    exact hk.beside cur cur' hb (Nat.le_refl _)
  | succ n ih =>
    intro cur cur' hb k k' hk
    exact hl cur cur' hb _ _ (ih.paired (times_reads ha n) hk)

theorem upTo_local (hl : Local far s s' stop stop' step) (ha : Reads L step) (greedy : Bool)
    (n : Nat) : Local far s s' stop stop' (upTo step greedy n) := by
  induction n with
  | zero =>
    intro cur cur' hb k k' hk
    exact hk.beside cur cur' hb (Nat.le_refl _)
  | succ n ih =>
    intro cur cur' hb k k' hk
    exact Agree.choose (hl cur cur' hb _ _ (ih.paired (upTo_reads ha greedy n) hk))
      (hk.beside cur cur' hb (Nat.le_refl _))

theorem again_beyond (ha : Reads L step) {greedy : Bool} {limit room : Nat}
    (hk : ∀ cur b, limit < cur.offset → k cur = some b → far b) {b : β}
    (hcur : limit < cur.offset) (hb : again step greedy k room cur = some b) : far b := by
  obtain ⟨_, next, -, hn, hnext⟩ := again_reads ha greedy k room cur b hb
  exact hk next b (Nat.lt_of_lt_of_le hcur hn.forward) hnext

/-- A further round that starts where the shared part ends finds nothing that is not far. -/
theorem round_at_stop (ha : Reads L step) {greedy : Bool} {limit room : Nat}
    (hk : ∀ cur b, limit < cur.offset → k cur = some b → far b) {b : β}
    (hcur : limit ≤ cur.offset)
    (hb : step (fun next => if next.offset = cur.offset then none
      else again step greedy k room next) cur = some b) : far b := by
  obtain ⟨_, next, -, hn, hnext⟩ := ha _ _ _ hb
  have hforward := hn.forward
  split at hnext
  · cases hnext
  · exact again_beyond ha hk (by omega) hnext

theorem again_zero (step : Step β) (greedy : Bool) (k : Cursor → Option β) (cur : Cursor) :
    again step greedy k 0 cur = choose greedy (fun _ => none) fun _ => k cur := by
  cases greedy <;> cases h : k cur <;> simp [again, choose, h]

/-- The induction is on the room of the first loop; where either has none left, the shared part
is used up. -/
theorem again_local (hl : Local far s s' stop stop' step) (ha : Reads L step) {greedy : Bool}
    (hk : Paired far s s' stop stop' low k k') {room room' : Nat}
    (hb : Beside s s' stop stop' cur cur') (hlow : low ≤ cur.offset)
    (hroom : stop ≤ cur.offset + room) (hroom' : stop ≤ cur.offset + room') :
    Agree far (again step greedy k room cur) (again step greedy k' room' cur') := by
  induction room generalizing room' cur cur' with
  | zero =>
    have hstop : stop' ≤ cur'.offset := by
      obtain ⟨v, -, -, h, h'⟩ := hb
      omega
    cases room' with
    | zero => exact hk.beside cur cur' hb hlow
    | succ room' =>
      have hmore : Agree far none (step (fun next => if next.offset = cur'.offset then none
          else again step greedy k' room' next) cur') :=
        .of_far (by simp) fun b hb => round_at_stop ha hk.beyond' hstop hb
      rw [again_zero]
      exact hmore.choose (hk.beside cur cur' hb hlow)
  | succ room ih =>
    cases room' with
    | zero =>
      have hmore : Agree far (step (fun next => if next.offset = cur.offset then none
          else again step greedy k room next) cur) none :=
        .of_far (fun b hb => round_at_stop ha hk.beyond (by omega) hb) (by simp)
      rw [again_zero]
      exact hmore.choose (hk.beside cur cur' hb hlow)
    | succ room' =>
      refine Agree.choose (hl cur cur' hb _ _ ⟨?_, ?_, ?_⟩) (hk.beside cur cur' hb hlow)
      · intro next next' hnext hle
        have hoff := hb.offset_eq_iff hnext
        by_cases he : next.offset = cur.offset
        · rw [if_pos he, if_pos (hoff.mp he)]
          exact .inl rfl
        · rw [if_neg he, if_neg (mt hoff.mpr he)]
          exact ih hnext (by omega) (by omega) (by omega)
      · intro next b hnext hb
        split at hb
        · cases hb
        · exact again_beyond ha hk.beyond hnext hb
      · intro next b hnext hb
        split at hb
        · cases hb
        · exact again_beyond ha hk.beyond' hnext hb

theorem plus_local (hl : Local far s s' stop stop' step) (ha : Reads L step) (greedy : Bool) :
    Local far s s' stop stop' (plus step greedy) := by
  intro cur cur' hb k k' hk
  refine hl cur cur' hb _ _ ⟨?_, ?_, ?_⟩
  · intro next next' hnext hle
    have hoff := hb.offset_eq_iff hnext
    by_cases he : next.offset = cur.offset
    · rw [if_pos he, if_pos (hoff.mp he)]
      exact hk.beside next next' hnext hle
    · rw [if_neg he, if_neg (mt hoff.mpr he)]
      obtain ⟨v, hr, hr', h, h'⟩ := hnext
      have hlen : next.rest.length = v.length + s.length := by rw [hr, List.length_append]
      have hlen' : next'.rest.length = v.length + s'.length := by rw [hr', List.length_append]
      exact again_local hl ha hk ⟨v, hr, hr', h, h'⟩ hle (by omega) (by omega)
  · intro next b hnext hb
    split at hb
    · exact hk.beyond next b hnext hb
    · exact again_beyond ha hk.beyond hnext hb
  · intro next b hnext hb
    split at hb
    · exact hk.beyond' next b hnext hb
    · exact again_beyond ha hk.beyond' hnext hb

theorem star_local (hl : Local far s s' stop stop' step) (ha : Reads L step) (greedy : Bool) :
    Local far s s' stop stop' (star step greedy) := by
  intro cur cur' hb k k' hk
  exact Agree.choose (plus_local hl ha greedy cur cur' hb k k' hk)
    (hk.beside cur cur' hb (Nat.le_refl _))

theorem repeated_local (hl : Local far s s' stop stop' step) (ha : Reads L step) (greedy : Bool)
    (least : Nat) (most : Option Nat) :
    Local far s s' stop stop' (repeated step greedy least most) := by
  intro cur cur' hb k k' hk
  cases most with
  | some most =>
    exact times_local hl ha least cur cur' hb _ _
      ((upTo_local hl ha greedy (most - least)).paired (upTo_reads ha greedy _) hk)
  | none =>
    cases least with
    | zero => exact star_local hl ha greedy cur cur' hb k k' hk
    | succ n =>
      exact times_local hl ha n cur cur' hb _ _
        ((plus_local hl ha greedy).paired (plus_reads ha greedy) hk)

/-- What a set takes where the shared part ends lies beyond it. -/
theorem set_far {chars : CharSet} {limit : Nat}
    (hk : ∀ cur b, limit < cur.offset → k cur = some b → far b) {b : β}
    (hcur : limit ≤ cur.offset) (hb : run (set chars) k cur = some b) : far b := by
  cases hrest : cur.rest with
  | nil => simp [run, hrest] at hb
  | cons c rest =>
    simp only [run, hrest, Option.ite_none_right_eq_some] at hb
    exact hk _ b (Nat.lt_succ_of_le hcur) hb.2

theorem run_local {r : Regex} (hr : r.LookFree) :
    Local far s s' stop stop' (run (β := β) r) := by
  induction r with
  | empty =>
    intro cur cur' hb k k' hk
    exact hk.beside cur cur' hb (Nat.le_refl _)
  | look l => exact hr.elim
  | set chars =>
    intro cur cur' hb k k' hk
    obtain ⟨v, hrest, hrest', hoff, hoff'⟩ := hb
    cases v with
    | cons c v =>
      have hrest : cur.rest = c :: (v ++ s) := hrest
      have hrest' : cur'.rest = c :: (v ++ s') := hrest'
      rw [List.length_cons] at hoff hoff'
      simp only [run, hrest, hrest']
      split
      · refine hk.beside _ _ ⟨v, rfl, rfl, ?_, ?_⟩ (Nat.le_succ _)
        · simp only [Cursor.advance]
          omega
        · simp only [Cursor.advance]
          omega
      · exact .inl rfl
    | nil =>
      rw [List.length_nil, Nat.add_zero] at hoff hoff'
      exact .of_far (fun b => set_far hk.beyond (Nat.le_of_eq hoff.symm))
        (fun b => set_far hk.beyond' (Nat.le_of_eq hoff'.symm))
  | seq r t ihr iht =>
    intro cur cur' hb k k' hk
    exact ihr hr.1 cur cur' hb _ _ ((iht hr.2).paired (run_reads t) hk)
  | alt r t ihr iht =>
    intro cur cur' hb k k' hk
    exact (ihr hr.1 cur cur' hb k k' hk).orElse (iht hr.2 cur cur' hb k k' hk)
  | rep least most greedy body ih =>
    exact repeated_local (ih hr) (run_reads body) greedy least most

/-- In two texts that go on with the same part, the matches are the same unless one of them is
longer than that part. -/
theorem matchAt?_agree {r : Regex} (hr : r.LookFree) {text text' u : List Char} {i i' : Nat}
    (h : text.drop i = u ++ s) (h' : text'.drop i' = u ++ s') :
    Agree (u.length < ·) (r.matchAt? text i) (r.matchAt? text' i') := by
  have hbeside : Beside s s' (i + u.length) (i' + u.length) (.ofText text i)
      (.ofText text' i') := ⟨u, h, h', rfl, rfl⟩
  refine run_local hr _ _ hbeside _ _ ⟨?_, ?_, ?_⟩
  · rintro cur cur' ⟨v, -, -, hoff, hoff'⟩ hle
    have hle : i ≤ cur.offset := hle
    left
    rw [Option.some.injEq]
    omega
  · rintro cur b hcur hb
    cases hb
    omega
  · rintro cur b hcur hb
    cases hb
    omega

end Regex

def Text.AtBreak (text : List Char) : Prop := ∀ c ∈ text.head?, Text.isBreak c = true

namespace Pattern

def LookFree : Pattern → Prop
  | char _ | literal _ => True
  | regex p => p.regex.LookFree

instance : DecidablePred LookFree
  | char _ | literal _ => isTrue trivial
  | regex p => inferInstanceAs (Decidable p.regex.LookFree)

theorem matchAt?_agree {p : Pattern} (hp : p.LookFree) {text text' u s s' : List Char}
    {i i' : Nat} (hi : i ≤ text.length) (hi' : i' ≤ text'.length) (h : text.drop i = u ++ s)
    (h' : text'.drop i' = u ++ s') :
    Regex.Agree (u.length < ·) (p.matchAt? text i) (p.matchAt? text' i') := by
  unfold matchAt?
  rw [if_neg (by omega), if_neg (by omega), h, h']
  cases p with
  | regex r => exact Regex.matchAt?_agree hp h h'
  | char c =>
    cases u with
    | cons d u => exact .inl rfl
    | nil =>
      refine .of_far ?_ ?_ <;> intro n hn <;> dsimp only at hn <;> split at hn <;> cases hn <;>
        exact Nat.one_pos
  | literal lit =>
    by_cases hlen : lit.toList.length ≤ u.length
    · left
      have hshared : ∀ t, lit.toList.isPrefixOf (u ++ t) = lit.toList.isPrefixOf u := by
        intro t
        rw [Bool.eq_iff_iff, List.isPrefixOf_iff_prefix, List.isPrefixOf_iff_prefix]
        exact ⟨fun h => List.prefix_of_prefix_length_le h (List.prefix_append u t) hlen,
          fun h => h.trans (List.prefix_append u t)⟩
      simp only [hshared]
    · refine .of_far ?_ ?_ <;> intro n hn <;> dsimp only at hn <;> split at hn <;> cases hn <;>
        omega

theorem Plain.match_le {p : Pattern} (hp : p.Plain) {text u s : List Char} {i n : Nat}
    (h : text.drop i = u ++ s) (hs : Text.AtBreak s) (hn : p.matchAt? text i = some n) :
    n ≤ u.length := by
  apply Nat.le_of_not_lt
  intro hlt
  have hplain := hp text i n (consumedAt?_eq_some.mpr ⟨hn, by omega⟩)
  have hwithin := matchAt?_within hn
  have hlen := congrArg List.length h
  rw [List.length_drop, List.length_append] at hlen
  obtain ⟨c, t, rfl⟩ : ∃ c t, s = c :: t := List.exists_cons_of_length_pos (by omega)
  have hmem : c ∈ Text.slice text i (i + n) := by
    rw [Text.slice_add, h]
    exact List.mem_take_iff_getElem.mpr ⟨u.length, by simp; omega, by simp⟩
  rw [Text.hasLineBreak, List.any_eq_false] at hplain
  exact hplain c hmem (hs c rfl)

theorem Plain.matchAt?_eq {p : Pattern} (hp : p.Plain) (hfree : p.LookFree)
    {text text' u s s' : List Char} {i i' : Nat} (hi : i ≤ text.length) (hi' : i' ≤ text'.length)
    (h : text.drop i = u ++ s) (h' : text'.drop i' = u ++ s') (hs : Text.AtBreak s)
    (hs' : Text.AtBreak s') : p.matchAt? text i = p.matchAt? text' i' := by
  rcases matchAt?_agree hfree hi hi' h h' with heq | ⟨n, hn, hfar⟩ | ⟨n, hn, hfar⟩
  · exact heq
  · have := hp.match_le h hs hn
    omega
  · have := hp.match_le h' hs' hn
    omega

end Pattern
end TableLexer

import TableLexer.Proofs.CrlfText
import TableLexer.Proofs.Lexer.Tabular

/-!
# A tabular lexer partitions its text

What a tabular lexer delivers accounts for every character of the text: nothing is lost, nothing
comes twice, and nothing comes out of order. And it delivers until the text has ended.
-/
namespace TableLexer

namespace Token

def start (t : Token) : Nat := t.position.offset

def stop (t : Token) : Nat := t.start + t.lexeme.toList.length

structure Cut (text : List Char) (t : Token) : Prop where
  lexeme : t.lexeme.toList = Text.slice text t.start t.stop
  within : t.stop ≤ text.length

variable {text : List Char} {i n : Nat} {t : Token}

theorem Covers.stop_eq (h : t.Covers text i n) : t.stop = i + n := by
  have hlength : t.lexeme.toList.length = n := by
    rw [h.lexeme, Text.slice, List.length_drop, List.length_take, Nat.min_eq_left h.within]
    omega
  rw [stop, hlength, start, h.place]

theorem Covers.cut (h : t.Covers text i n) : t.Cut text := by
  have hstart : t.start = i := h.place
  constructor
  · rw [hstart, h.stop_eq, h.lexeme]
  · rw [h.stop_eq]
    exact h.within

end Token

def Entry.tokens (entries : List Entry) : List Token :=
  entries.filterMap fun
    | .token _ t => some t
    | _ => none

theorem Entry.tokens_append (entries more : List Entry) :
    tokens (entries ++ more) = tokens entries ++ tokens more := List.filterMap_append

def Entry.proper (entries : List Entry) : List Entry := entries.filter fun e => !e.isEnd

theorem Entry.proper_append (entries more : List Entry) :
    proper (entries ++ more) = proper entries ++ proper more := List.filter_append ..

namespace LayoutPattern

open Regex

variable {β : Type} {line s : List Char}

theorem blanks_refused (hs : LineOver s) (h : piece? line = none) :
    Refuses (β := β) (run (.rep 1 none true (.alt (char ' ') (char '\t')))) (line ++ s) := by
  refine refuses_plus ?_
  cases line with
  | nil => exact refuses_alt (char_refuses_over (by decide) hs) (char_refuses_over (by decide) hs)
  | cons c rest =>
    have hspace : c ≠ ' ' := by
      rintro rfl
      simp [piece?] at h
    have htab : c ≠ '\t' := by
      rintro rfl
      simp [piece?] at h
    exact refuses_alt (char_refuses hspace _) (char_refuses htab _)

end LayoutPattern

open LayoutPattern in
theorem EngineConfig.default_settles : ({} : EngineConfig).NoiseSettles := by
  intro text i n h
  have hwithin := (Pattern.consumedAt?_within h).2
  obtain ⟨s, hsplit, hs, hline⟩ := Text.lineAt_split text i
  rw [noise_consumed (by omega) hline hs hsplit] at h
  split at h
  · cases h
  rw [Option.some.injEq] at h
  obtain ⟨hle, hnone⟩ := noise_drop (Text.lineAt text i)
  rw [h] at hle hnone
  obtain ⟨s', hsplit', hs', hline'⟩ := Text.lineAt_split text (i + n)
  rw [Text.lineAt_add hle] at hsplit' hline'
  constructor
  · rw [noise_consumed hwithin hline' hs' hsplit', noise_none hnone]
    rfl
  · rintro p ⟨rfl⟩
    have hnone := (hsplit' ▸ blanks_refused hs' hnone).matchAt?
    rw [Pattern.consumedAt?, spacesAndTabs]
    simp [Pattern.matchAt?, Nat.not_lt.mpr hwithin, hnone]

namespace Lexer

open Entry (tokens tokens_append proper proper_append)

/-- What became of a character that the steps passed: it is in a token, in noise or in a line
separator that a step met, or it is the character at which an error was found. -/
inductive Assigned (config : EngineConfig) (text : List Char) (steps : List Lexer)
    (entries : List Entry) (i : Nat) : Prop where
  | token {t : Token} (ht : t ∈ tokens entries) (hi : t.start ≤ i ∧ i < t.stop)
  | noise {a : Lexer} {n : Nat} (ha : a ∈ steps) (hnone : a.engine.opened.indentation? = none)
      (hn : config.noise.consumedAt? text a.opening = some n)
      (hi : a.opening ≤ i ∧ i < a.opening + n)
  | separator {a : Lexer} {n : Nat} (ha : a ∈ steps) (hnone : a.engine.opened.indentation? = none)
      (hn : config.eol.consumedAt? text a.body = some n) (hi : a.body ≤ i ∧ i < a.body + n)
  | error {e : LexError} {p : Position} (he : .error e ∈ entries) (hp : e.position = some p)
      (hi : p.offset = i)

/-- The entries account for the text up to the place `reach`. -/
structure Laid (config : EngineConfig) (text : List Char) (steps : List Lexer)
    (entries : List Entry) (reach : Nat) : Prop where
  cut : ∀ t ∈ tokens entries, t.Cut text
  behind : ∀ t ∈ tokens entries, t.start < reach ∧ t.stop ≤ reach
  ordered : (tokens entries).Pairwise fun s t => s.start < t.start ∧ s.stop ≤ t.start
  assigned : ∀ i < reach, Assigned config text steps entries i
  within : reach ≤ text.length
  few : (proper entries).length ≤ 2 * reach
  ended : (∃ e ∈ entries, e.isEnd = true) → text.length ≤ reach

variable {config : EngineConfig} {text : List Char} {steps : List Lexer}
  {entries added : List Entry} {reach place i n : Nat} {l a b : Lexer}

theorem Assigned.mono {steps' : List Lexer} {entries' : List Entry}
    (h : Assigned config text steps entries i) (hs : ∀ a ∈ steps, a ∈ steps')
    (he : ∀ e ∈ entries, e ∈ entries') : Assigned config text steps' entries' i := by
  cases h with
  | token ht hi =>
    obtain ⟨entry, hentry, hmap⟩ := List.mem_filterMap.mp ht
    exact .token (List.mem_filterMap.mpr ⟨entry, he entry hentry, hmap⟩) hi
  | noise ha hnone hn hi => exact .noise (hs _ ha) hnone hn hi
  | separator ha hnone hn hi => exact .separator (hs _ ha) hnone hn hi
  | error hmem hp hi => exact .error (he _ hmem) hp hi

structure Adds (config : EngineConfig) (text : List Char) (a : Lexer) (added : List Entry)
    (place : Nat) : Prop where
  onward : a.opening ≤ place
  cut : ∀ t ∈ tokens added, t.Cut text
  between : ∀ t ∈ tokens added, a.opening ≤ t.start ∧ t.start < place ∧ t.stop ≤ place
  single : tokens added = [] ∨ ∃ t, tokens added = [t]
  assigned : ∀ i, a.opening ≤ i → i < place → Assigned config text [a] added i
  within : a.opening ≤ text.length → place ≤ text.length
  few : (proper added).length ≤ 2 * (place - a.opening)
  ended : (∃ e ∈ added, e.isEnd = true) → text.length ≤ place

theorem Laid.add (h : Laid config text steps entries a.opening)
    (k : Adds config text a added place) :
    Laid config text (steps ++ [a]) (entries ++ added) place := by
  constructor
  · rw [tokens_append, List.forall_mem_append]
    exact ⟨h.cut, k.cut⟩
  · rw [tokens_append, List.forall_mem_append]
    constructor
    · intro t ht
      have := h.behind t ht
      have := k.onward
      omega
    · intro t ht
      exact (k.between t ht).2
  · rw [tokens_append, List.pairwise_append]
    refine ⟨h.ordered, ?_, ?_⟩
    · rcases k.single with hnil | ⟨t, ht⟩
      · simp [hnil]
      · simp [ht]
    · intro s hs t ht
      have := h.behind s hs
      have := k.between t ht
      omega
  · intro i hi
    by_cases hlt : i < a.opening
    · exact (h.assigned i hlt).mono (by simp +contextual) (by simp +contextual)
    · exact (k.assigned i (by omega) hi).mono (by simp) (by simp +contextual)
  · exact k.within h.within
  · rw [proper_append, List.length_append]
    have := h.few
    have := k.few
    have := k.onward
    omega
  · rintro ⟨e, he, hend⟩
    rcases List.mem_append.mp he with he | he
    · have := h.ended ⟨e, he, hend⟩
      have := k.onward
      omega
    · exact k.ended ⟨e, he, hend⟩

theorem body_within (h : a.opening ≤ a.engine.input.length) :
    a.body ≤ a.engine.input.length := by
  rw [body_eq]
  cases hn : a.engine.config.noise.consumedAt? a.engine.input a.opening with
  | none => exact h
  | some n => exact (Pattern.consumedAt?_within hn).2

theorem assigned_noise (hnone : a.engine.opened.indentation? = none) (ho : a.opening ≤ i)
    (hb : i < a.body) : Assigned a.engine.config a.engine.input [a] added i := by
  rw [body_eq] at hb
  cases hn : a.engine.config.noise.consumedAt? a.engine.input a.opening with
  | none =>
    rw [hn, Option.getD_none] at hb
    omega
  | some n =>
    rw [hn, Option.getD_some] at hb
    exact .noise (List.mem_singleton_self a) hnone hn ⟨ho, hb⟩

theorem assigned_token {t : Token} (hmem : t ∈ tokens added)
    (ht : t.Covers text place n) (hp : place ≤ i) (hi : i < place + n) :
    Assigned config text [a] added i := by
  have hstart : t.start = place := ht.place
  have hstop := ht.stop_eq
  exact .token hmem (by omega)

/-- A step that gets to the body of the line skips noise and goes on from there. -/
theorem Adds.of_body (hnone : a.engine.opened.indentation? = none) (hplace : a.body ≤ place)
    (htokens : tokens added = [] ∨ ∃ t k, tokens added = [t] ∧
      t.Covers a.engine.input a.body k ∧ a.body < place ∧ a.body + k ≤ place)
    (hassigned : ∀ i, a.body ≤ i → i < place →
      Assigned a.engine.config a.engine.input [a] added i)
    (hwithin : a.body ≤ a.engine.input.length → place ≤ a.engine.input.length)
    (hfew : (proper added).length ≤ 2 * (place - a.body))
    (hended : (∃ e ∈ added, e.isEnd = true) → a.engine.input.length ≤ place) :
    Adds a.engine.config a.engine.input a added place := by
  have hbody := body_eq a
  have hone : ∀ t ∈ tokens added, ∃ k, t.Covers a.engine.input a.body k ∧ a.body < place ∧
      a.body + k ≤ place := by
    intro t ht
    rcases htokens with hnil | ⟨s, k, hs, h⟩
    · simp [hnil] at ht
    · rw [hs, List.mem_singleton] at ht
      exact ⟨k, ht ▸ h⟩
  constructor
  · omega
  · intro t ht
    obtain ⟨k, hk, -⟩ := hone t ht
    exact hk.cut
  · intro t ht
    obtain ⟨k, hk, hlt, hle⟩ := hone t ht
    have hstart : t.start = a.body := hk.place
    have hstop := hk.stop_eq
    omega
  · exact htokens.imp_right fun ⟨t, _, ht, _⟩ => ⟨t, ht⟩
  · intro i ho hi
    by_cases hlt : i < a.body
    · exact assigned_noise hnone ho hlt
    · exact hassigned i (by omega) hi
  · exact fun ho => hwithin (body_within ho)
  · omega
  · exact hended

theorem Takes.adds (h : Takes a added place) :
    Adds a.engine.config a.engine.input a added place := by
  cases h with
  | @indentation type t k hi ht =>
    have hk := (Engine.indentation?_eq_some hi).2.1
    have hstart : t.start = a.opening := ht.place
    have hstop := ht.stop_eq
    constructor
    · omega
    · simpa [tokens] using ht.cut
    · simp only [tokens, List.filterMap_cons, List.filterMap_nil, List.mem_singleton, forall_eq]
      omega
    · exact .inr ⟨t, rfl⟩
    · intro i ho hlt
      exact assigned_token (List.mem_singleton_self t) ht ho hlt
    · exact fun _ => ht.within
    · have hone : (proper [.token type t]).length = 1 := rfl
      omega
    · simp [Entry.isEnd]
  | endOfStream hi he =>
    refine .of_body hi (Nat.le_refl _) (.inl rfl) (fun i ho hi => ?_) id ?_ fun _ => he
    · omega
    · simp [proper, Entry.isEnd]
  | lineEnd hi hs =>
    have hk := Pattern.consumedAt?_within hs
    refine .of_body hi (by omega) (.inl rfl) (fun i ho hlt => ?_) (fun _ => hk.2) ?_ (by simp)
    · exact .separator (List.mem_singleton_self a) hi hs ⟨ho, hlt⟩
    · simp [proper]
  | @lineToken type t k hi hs ht =>
    have hk := Pattern.consumedAt?_within hs
    refine .of_body hi (by omega) (.inr ⟨t, k, rfl, ht, by omega, by omega⟩) (fun i ho hlt => ?_)
      (fun _ => hk.2) ?_ (by simp [Entry.isEnd])
    · exact .separator (List.mem_singleton_self a) hi hs ⟨ho, hlt⟩
    · have hone : (proper [.token type t]).length = 1 := rfl
      omega
  | @token type t k hi hk ht =>
    refine .of_body hi (by omega) (.inr ⟨t, k, rfl, ht, by omega, by omega⟩) (fun i ho hlt => ?_)
      (fun _ => ht.within) ?_ (by simp [Entry.isEnd])
    · exact assigned_token (List.mem_singleton_self t) ht ho hlt
    · have hone : (proper [.token type t]).length = 1 := rfl
      omega
  | @stalled type t e p hi hin ht he hp =>
    refine .of_body hi (by omega) (.inr ⟨t, 0, rfl, ht, by omega, by omega⟩) (fun i ho hlt => ?_)
      (fun _ => hin) ?_ (by simp [Entry.isEnd])
    · exact .error (e := e) (by simp) he (by omega)
    · simp [proper, Entry.isEnd]
  | @unknown e p hi hin he hp =>
    refine .of_body hi (by omega) (.inl rfl) (fun i ho hlt => ?_) (fun _ => hin) ?_
      (by simp [Entry.isEnd])
    · exact .error (e := e) (by simp) he (by omega)
    · simp [proper, Entry.isEnd]

/-- After the end of the text nothing is scanned any more. -/
theorem fillStep_ends (hstep : fillStep n l = .ok () b)
    (hnone : l.engine.opened.indentation? = none) (hend : l.engine.input.length ≤ l.body) :
    ¬ b.engine.Scannable := by
  have hatEnd : l.engine.opened.skipNoise.atEnd = true := by
    simpa [Engine.atEnd] using show l.engine.input.length ≤ l.engine.opened.skipNoise.pos from hend
  have hlay := Engine.scanLayout_eq_ok_iff.mpr
    ⟨fillStep_scannable hstep, .endOfStream hnone hatEnd⟩
  rw [fillStep_eq n hlay] at hstep
  cases hstep
  exact Engine.ended_not_scannable _

/-- The end of the stream is the last of the entries. Before it the lexer scans on, and after it no
more. -/
def EndsLast (entries : List Entry) (l : Lexer) : Prop :=
  (∀ e ∈ entries, e.isEnd = false) ∧ l.engine.Scannable ∨
    l.engine.recognition = .done ∧ ∃ before token, entries = before ++ [.endOfStream token] ∧
      ∀ e ∈ before, e.isEnd = false

structure Partitions (r : Rule) (config : EngineConfig) (text : List Char) (steps : List Lexer)
    (entries : List Entry) (l : Lexer) : Prop where
  tabular : l.Tabular r
  patterns : l.engine.config = config
  reads : l.engine.input = text
  laid : Laid config text steps (entries ++ l.queue.toList) l.opening
  ends : EndsLast (entries ++ l.queue.toList) l

variable {r : Rule}

theorem Takes.endsLast (h : Takes l added place) (hnoend : ∀ e ∈ entries, e.isEnd = false)
    (hs : b.engine.Scannable ∨ b.engine.recognition = .done ∧ ∃ e ∈ added, e.isEnd = true)
    (hstep : fillStep n l = .ok () b) : EndsLast (entries ++ added) b := by
  have plain : (∀ e ∈ added, e.isEnd = false) → EndsLast (entries ++ added) b := by
    intro hadded
    refine .inl ⟨List.forall_mem_append.mpr ⟨hnoend, hadded⟩, hs.resolve_right ?_⟩
    rintro ⟨-, e, he, hend⟩
    simp [hadded e he] at hend
  cases h with
  | endOfStream hi he =>
    exact .inr ⟨(hs.resolve_left (fillStep_ends hstep hi he)).1, _, _, rfl, hnoend⟩
  | indentation | lineEnd | lineToken | token | stalled | unknown =>
    exact plain (by simp [Entry.isEnd])

theorem Partitions.fill (h : Partitions r config text steps entries a)
    (hq : a.queue.toList = []) (hstep : fillStep n a = .ok () b) :
    Partitions r config text (steps ++ [a]) entries b := by
  have hframe : SameFrame a b := by simpa [hstep] using fillStep_frame n h.tabular.operations
  have hscannable := fillStep_scannable hstep
  have hlaid := h.laid
  have hends := h.ends
  rw [hq, List.append_nil] at hlaid hends
  have hnoend : ∀ e ∈ entries, e.isEnd = false := by
    rcases hends with ⟨hnoend, -⟩ | ⟨hdone, -⟩
    · exact hnoend
    · simp [Engine.Scannable, hdone] at hscannable
  have hresult := h.tabular.fill hq hscannable n
  rw [hstep] at hresult
  cases hresult with
  | took htabular htakes hscans =>
    have hadds := htakes.adds
    rw [h.patterns, h.reads] at hadds
    exact ⟨htabular, hframe.text.config.trans h.patterns, hframe.text.input.trans h.reads,
      hlaid.add hadds, htakes.endsLast hnoend hscans hstep⟩

theorem Partitions.deliver (h : Partitions r config text steps entries a) {entry : Entry}
    {queue : Queue} (hq : a.queue.dequeue = .ok (entry, queue)) :
    Partitions r config text steps (entries ++ [entry]) { a with queue } := by
  obtain ⟨hlist, htransforms⟩ := Queue.dequeue_eq_ok hq
  have hsame : entries ++ [entry] ++ queue.toList = entries ++ a.queue.toList := by simp [hlist]
  have ht := h.tabular
  refine ⟨⟨ht.operations, htransforms.trans ht.transforms, ht.rule, ht.table, ht.settles, ht.rests,
    ht.idle⟩, h.patterns, h.reads, ?_, ?_⟩
  · rw [hsame]
    exact h.laid
  · rw [hsame]
    exact h.ends

theorem Partitions.runs (hl : Partitions r config text steps entries l)
    (h : Runs n l steps' entries' a) :
    Partitions r config text (steps ++ steps') (entries ++ entries') a := by
  induction h with
  | start => simpa using hl
  | fill _ hq hstep ih => simpa using ih.fill hq hstep
  | deliver _ hq ih => simpa using ih.deliver hq

/-- When the end has been delivered, the entries that were delivered account for the text. -/
theorem Partitions.assigned (h : Partitions r config text steps entries a)
    (hend : ∃ e ∈ entries, e.isEnd = true) :
    ∀ i < text.length, Assigned config text steps entries i := by
  obtain ⟨e, he, hend⟩ := hend
  have hqueue : a.queue.toList = [] := by
    by_cases hne : a.queue.toList = []
    · exact hne
    · rcases h.ends with ⟨hnoend, -⟩ | ⟨-, before, token, hlast, hnoend⟩
      · simp [hnoend e (List.mem_append_left _ he)] at hend
      · have hbefore := congrArg List.dropLast hlast
        rw [List.dropLast_append_of_ne_nil hne, List.dropLast_concat] at hbefore
        simp [hnoend e (hbefore ▸ List.mem_append_left _ he)] at hend
  have hlaid := h.laid
  rw [hqueue, List.append_nil] at hlaid
  intro i hi
  exact hlaid.assigned i (Nat.lt_of_lt_of_le hi (hlaid.ended ⟨e, he, hend⟩))

/-- Only a line end that is not reported queues nothing, and then the text gets shorter. -/
theorem Takes.silent (h : Takes l [] place) :
    l.opening < place ∧ place ≤ l.engine.input.length := by
  have hbody := body_eq l
  cases h with
  | lineEnd hi hs =>
    have hk := Pattern.consumedAt?_within hs
    omega

theorem Tabular.fillStep_succeeds (h : l.Tabular r) (hnames : r.NamesTokens l.options)
    (hq : l.queue.toList = []) (hs : l.engine.Scannable) (n : Nat) :
    ∃ b, fillStep n l = .ok () b := by
  have hresult := h.fill hq hs n
  generalize fillStep n l = result at hresult ⊢
  cases hresult with
  | took => exact ⟨_, rfl⟩
  | nameless hn => exact absurd hnames hn

theorem Partitions.scannable (h : Partitions r config text steps entries l)
    (hnoend : ∀ e ∈ entries, e.isEnd = false) (hq : l.queue.toList = []) :
    l.engine.Scannable := by
  rcases h.ends with ⟨-, hs⟩ | ⟨-, before, token, hlast, -⟩
  · exact hs
  · rw [hq, List.append_nil] at hlast
    have hend := hnoend (.endOfStream token) (hlast ▸ List.mem_concat_self)
    cases hend

/-- The rounds that queue nothing use up the text. -/
theorem Partitions.fillQueue_succeeds {rounds : Nat}
    (h : Partitions r config text steps entries l) (hnames : r.NamesTokens l.options)
    (hnoend : ∀ e ∈ entries, e.isEnd = false) (hq : l.queue.toList = [])
    (hr : text.length - l.opening + 1 < rounds) : ∃ b, fillQueue n rounds l = .ok () b := by
  induction rounds generalizing l steps with
  | zero => omega
  | succ rounds ih =>
    have hs := h.scannable hnoend hq
    obtain ⟨b, hstep⟩ := h.tabular.fillStep_succeeds hnames hq hs n
    rw [fillQueue_empty hq, hstep]
    by_cases hbq : b.queue.toList = []
    · have hframe : SameFrame l b := by simpa [hstep] using fillStep_frame n h.tabular.operations
      have hresult := h.tabular.fill hq hs n
      rw [hstep] at hresult
      cases hresult with
      | took _ htakes =>
        rw [hbq] at htakes
        have hsilent := htakes.silent
        rw [h.reads] at hsilent
        exact ih (h.fill hq hstep) (hframe.options ▸ hnames) hbq (by omega)
    · exact ⟨b, fillQueue_full hbq n (by omega)⟩

theorem Partitions.call_delivers (h : Partitions r config text steps entries l)
    (hnames : r.NamesTokens l.options) (hnoend : ∀ e ∈ entries, e.isEnd = false)
    (hn : text.length + 1 < n) : ∃ entry b, nextToken n l = .ok entry b := by
  by_cases hq : l.queue.toList = []
  · have hready : l.engine.recognition = .ready ∨ l.engine.recognition = .recognized :=
      (h.scannable hnoend hq).imp_right fun k => k.resolve_left h.tabular.rests
    have hrounds : text.length - l.opening + 1 < n := by omega
    obtain ⟨b, hfill⟩ := h.fillQueue_succeeds (n := n) hnames hnoend hq hrounds
    obtain ⟨-, -, hne⟩ := fillQueue_runs hfill
    obtain ⟨entry, rest, hbq⟩ := List.exists_cons_of_ne_nil hne
    obtain ⟨q, hdeq, -⟩ := Queue.dequeue_of_toList hbq
    rw [nextToken_fills hq hready, hfill]
    exact ⟨entry, { b with queue := q }, by simp [onQueue_dequeue, hdeq]⟩
  · obtain ⟨entry, rest, hcons⟩ := List.exists_cons_of_ne_nil hq
    have hw : l.engine.recognition ≠ .waitingForInput := by
      rcases h.ends with ⟨-, hs⟩ | ⟨hdone, -⟩
      · rintro hw
        simp [Engine.Scannable, hw] at hs
      · simp [hdone]
    obtain ⟨q, -, -, hnext⟩ := nextToken_queued hw hcons
    exact ⟨entry, _, hnext n⟩

/-- Every entry but the end uses up half a character, so calls get to the end. -/
theorem Partitions.delivers_end {d : Nat} (h : Partitions r config text steps entries l)
    (hnames : r.NamesTokens l.options) (hnoend : ∀ e ∈ entries, e.isEnd = false)
    (hn : text.length + 1 < n) (hd : 2 * text.length < entries.length + d) :
    ∃ k, ∃ more : List Entry, answers n k l = more.map .ok ∧ ∃ e ∈ more, e.isEnd = true := by
  induction d generalizing l steps entries with
  | zero =>
    have hproper : proper entries = entries := List.filter_eq_self.mpr (by simpa using hnoend)
    have hfew := h.laid.few
    have hwithin := h.laid.within
    rw [proper_append, List.length_append, hproper] at hfew
    omega
  | succ d ih =>
    obtain ⟨entry, b, hcall⟩ := h.call_delivers hnames hnoend hn
    obtain ⟨steps', hrun⟩ := nextToken_runs hcall
    have hb := h.runs hrun
    have hoptions := (hrun.frame h.tabular.operations).options
    cases hend : entry.isEnd with
    | true => exact ⟨1, [entry], by simp [answers, hcall, answer], entry, by simp, hend⟩
    | false =>
      have hmore : ∀ e ∈ entries ++ [entry], e.isEnd = false :=
        List.forall_mem_append.mpr ⟨hnoend, by simpa using hend⟩
      have hleft : 2 * text.length < (entries ++ [entry]).length + d := by
        rw [List.length_append, List.length_singleton]
        omega
      obtain ⟨k, more, hanswers, e, he, hlast⟩ := ih hb (hoptions ▸ hnames) hmore hleft
      exact ⟨k + 1, entry :: more, by simp [answers, hcall, answer, hanswers], e,
        List.mem_cons_of_mem _ he, hlast⟩

theorem restarted_partitions {r : Rule} {text : String} (hops : l.operations = [])
    (htransforms : l.queue.transforms = []) (hsettles : l.engine.config.NoiseSettles)
    (hrule : (l.restarted text).modeRule? = some r) (htabular : r.Tabular) :
    Partitions r l.engine.config text.toList [] [] (l.restarted text) := by
  have hqueue : (l.restarted text).queue.toList = [] := rfl
  have hline : (l.restarted text).engine.lineState ≠ .atLineEnd := by
    simp [restarted, Scan.initial, Mark.origin]
  have hopening : (l.restarted text).opening = 0 := opening_eq_pos hline
  constructor
  · exact ⟨hops, htransforms, hrule, htabular, hsettles, by simp [restarted, Scan.initial],
      fun _ hne => absurd rfl hne⟩
  · rfl
  · rfl
  · rw [hopening, hqueue]
    constructor <;> simp [tokens, proper]
  · exact .inl ⟨by simp [hqueue], .inl rfl⟩

/-- A tabular lexer partitions its text. Let a lexer without transforms and operations, whose noise
settles, be given a text, and let the rule of its mode be tabular; for a new lexer that is the main
rule. Then the lexeme of every token that calls deliver is the text at the position of the token,
and each token starts behind the tokens delivered before it. If the end of the stream has been
delivered, every character of the text is in a token, in noise or a line separator that a driver
step met, or stands at the position of an error entry. And the end is delivered at last, unless
there is a token whose type has no name. -/
theorem text_partitioned {l₀ l : Lexer} {text : String} {r : Rule} (hops : l₀.operations = [])
    (htransforms : l₀.queue.transforms = []) (hsettles : l₀.engine.config.NoiseSettles)
    (hset : setInput text l₀ = .ok () l) (hrule : l.modeRule? = some r) (htabular : r.Tabular)
    (n : Nat) :
    (∀ k entries, answers n k l = entries.map .ok →
      ∃ steps, Runs n l steps entries (afterCalls n k l) ∧
        (∀ t ∈ tokens entries, t.Cut text.toList) ∧
        (tokens entries).Pairwise (fun s t => s.start < t.start ∧ s.stop ≤ t.start) ∧
        ((∃ e ∈ entries, e.isEnd = true) → ∀ i < text.toList.length,
          Assigned l₀.engine.config text.toList steps entries i)) ∧
    (r.NamesTokens l₀.options → text.toList.length + 1 < n →
      ∃ k, ∃ entries : List Entry, answers n k l = entries.map .ok ∧
        ∃ e ∈ entries, e.isEnd = true) := by
  rw [setInput_eq] at hset
  split at hset
  · cases hset
  cases hset
  have hstart := restarted_partitions hops htransforms hsettles hrule htabular
  constructor
  · intro k entries hcalls
    obtain ⟨steps, hrun⟩ := calls_run hcalls
    have h := hstart.runs hrun
    have hcut := h.laid.cut
    have hordered := h.laid.ordered
    simp only [List.nil_append, tokens_append, List.forall_mem_append] at hcut
    simp only [List.nil_append, tokens_append, List.pairwise_append] at hordered
    exact ⟨steps, hrun, hcut.1, hordered.1, h.assigned⟩
  · intro hnames hn
    have hd : 2 * text.toList.length < ([] : List Entry).length + (2 * text.toList.length + 1) := by
      rw [List.length_nil]
      omega
    exact hstart.delivers_end hnames (by simp) hn hd

def startRule : Rule :=
  { name := "main"
    kind := .lookahead
    handlers := [⟨.char 'a', .enqueue (.symbol "A")⟩,
      ⟨.regex ⟨"^", .look .textStart, false⟩, .enqueue (.symbol "START")⟩] }

def startLexer : Lexer :=
  { engine := .new {}
    queue := ⟨[], [], []⟩
    ruleset :=
      { types := some [(.symbol "A", "a letter"), (.symbol "START", "the start")]
        rules := [startRule] }
    options := { indentTokens := true, eolTokens := true } }

/-- A token without characters, a comment, a line end, indentation and two characters that do not
belong to any token make up a text. -/
theorem start_and_layout_partitioned :
    ∃ l k, ∃ entries : List Entry, new startLexer.ruleset startLexer.options = .ok startLexer ∧
      setInput "?a #c\n \t?a" startLexer = .ok () l ∧
      answers 12 k l = entries.map .ok ∧ (∃ e ∈ entries, e.isEnd = true) ∧
      ∃ steps, Runs 12 l steps entries (afterCalls 12 k l) ∧
        (∀ t ∈ tokens entries, t.Cut "?a #c\n \t?a".toList) ∧
        (tokens entries).Pairwise (fun s t => s.start < t.start ∧ s.stop ≤ t.start) ∧
        ∀ i < 10, Assigned {} "?a #c\n \t?a".toList steps entries i := by
  have hset := setInput_eq "?a #c\n \t?a" startLexer
  rw [if_neg (by decide)] at hset
  have htabular : startRule.Tabular := by
    refine ⟨rfl, rfl, ?_, rfl⟩
    simp [startRule]
  have hnames : startRule.NamesTokens startLexer.options := by
    refine ⟨rfl, rfl, ?_⟩
    simp [startRule, TokenType.isBlankSymbol]
  obtain ⟨hpartitioned, hends⟩ := text_partitioned rfl rfl EngineConfig.default_settles hset rfl
    htabular 12
  obtain ⟨k, entries, hcalls, hend⟩ := hends hnames (by decide)
  obtain ⟨steps, hrun, hcut, hordered, hassigned⟩ := hpartitioned k entries hcalls
  exact ⟨_, k, entries, rfl, hset, hcalls, hend, steps, hrun, hcut, hordered, hassigned hend⟩

end Lexer
end TableLexer

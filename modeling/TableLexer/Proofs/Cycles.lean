import Mathlib.Data.List.Chain
import Mathlib.Data.List.Nodup
import Mathlib.Data.List.Perm.Subperm
import Mathlib.Data.List.TakeWhile
import Mathlib.Logic.Relation
import TableLexer.Ruleset

/-!
# The search for cycles

The search runs within a bound on its depth. `Searches` describes it without one, and the bound is
never reached. If the search closes no cycle, the names it has done are in layers: what a name leads
to was done before the name, so each name has a rank and every edge leads to a smaller one. If it
stops, the path it was on closes: what it reports is a cycle.

The rules of a set are the names of a graph, with an edge from a rule to each name it may enter
unguarded, so the check of a rule set is exact. Names without a rule have no edges, and the check
does not depend on whether all subrules exist.
-/
namespace TableLexer.Cycle

def Graph.Edge (graph : Graph) (name next : String) : Prop := next ∈ graph name

/-- The search from the names that are left to do, with the names on the path to them and those
that are done. It goes on behind a name that is done, stops at a name on the path, and enters any
other name: first what the name leads to, with the name on the path, then the rest. -/
inductive Searches (graph : Graph) :
    List String → List String → List String → Except (List String) (List String) → Prop where
  | finished (path done) : Searches graph path done [] (.ok done)
  | known {path done name rest answer} : name ∈ done → Searches graph path done rest answer →
      Searches graph path done (name :: rest) answer
  | closes {path done name rest} : name ∉ done → name ∈ path →
      Searches graph path done (name :: rest) (.error (closing name path))
  | enters {path done done' name rest answer} : name ∉ done → name ∉ path →
      Searches graph (name :: path) done (graph name) (.ok done') →
      Searches graph path (name :: done') rest answer →
      Searches graph path done (name :: rest) answer
  | stops {path done name rest cycle} : name ∉ done → name ∉ path →
      Searches graph (name :: path) done (graph name) (.error cycle) →
      Searches graph path done (name :: rest) (.error cycle)

variable {graph : Graph} {name next : String} {done done' path todo names cycle : List String}
  {answer answer' : Except (List String) (List String)}

def Layered (graph : Graph) : List String → Prop
  | [] => True
  | name :: rest => (∀ next ∈ graph name, next ∈ rest) ∧ Layered graph rest

def rank : List String → String → Nat
  | [], _ => 0
  | x :: rest, name =>
    if name ∈ rest then rank rest name else if name = x then rest.length + 1 else 0

theorem rank_le (done : List String) (name : String) : rank done name ≤ done.length := by
  induction done with
  | nil => exact Nat.le_refl 0
  | cons x rest ih =>
    rw [rank, List.length_cons]
    split
    · omega
    · split <;> omega

theorem rank_lt (h : Layered graph done) (hname : name ∈ done) (hnext : next ∈ graph name) :
    next ∈ done ∧ rank done next < rank done name := by
  induction done with
  | nil => cases hname
  | cons x rest ih =>
    obtain ⟨hx, hrest⟩ := h
    by_cases hr : name ∈ rest
    · obtain ⟨hmem, hlt⟩ := ih hrest hr
      refine ⟨List.mem_cons_of_mem x hmem, ?_⟩
      rwa [rank, rank, if_pos hmem, if_pos hr]
    · obtain rfl : name = x := (List.mem_cons.mp hname).resolve_right hr
      have hmem := hx next hnext
      have hle := rank_le rest next
      refine ⟨List.mem_cons_of_mem name hmem, ?_⟩
      rw [rank, rank, if_pos hmem, if_neg hr, if_pos rfl]
      omega

namespace Searches

/-- The rules leave no choice: there is one answer. -/
theorem unique (h : Searches graph path done todo answer)
    (h' : Searches graph path done todo answer') : answer = answer' := by
  induction h generalizing answer' with
  | finished => cases h'; rfl
  | known hdone _ ih =>
    cases h' with
    | known _ hrest => exact ih hrest
    | closes hnew => exact absurd hdone hnew
    | enters hnew => exact absurd hdone hnew
    | stops hnew => exact absurd hdone hnew
  | closes hnew hpath =>
    cases h' with
    | known hdone => exact absurd hdone hnew
    | closes => rfl
    | enters _ hoff => exact absurd hpath hoff
    | stops _ hoff => exact absurd hpath hoff
  | enters hnew hoff _ _ ihbelow ihrest =>
    cases h' with
    | known hdone => exact absurd hdone hnew
    | closes _ hpath => exact absurd hpath hoff
    | enters _ _ hbelow hrest =>
      cases ihbelow hbelow
      exact ihrest hrest
    | stops _ _ hbelow => cases ihbelow hbelow
  | stops hnew hoff _ ihbelow =>
    cases h' with
    | known hdone => exact absurd hdone hnew
    | closes _ hpath => exact absurd hpath hoff
    | enters _ _ hbelow => cases ihbelow hbelow
    | stops _ _ hbelow => exact ihbelow hbelow

/-- A search that comes to its end keeps the layers, adds to them and leaves what was to do in
them. -/
theorem layered (h : Searches graph path done todo (.ok done')) (hdone : Layered graph done) :
    Layered graph done' ∧ done ⊆ done' ∧ todo ⊆ done' := by
  generalize hanswer : Except.ok done' = answer at h
  induction h generalizing done' with
  | finished path done =>
    cases hanswer
    exact ⟨hdone, List.Subset.refl done, List.nil_subset done⟩
  | known hname _ ih =>
    obtain ⟨hlayered, hgrows, hrest⟩ := ih hdone hanswer
    exact ⟨hlayered, hgrows, List.cons_subset.mpr ⟨hgrows hname, hrest⟩⟩
  | closes => cases hanswer
  | @enters path done done₁ name rest answer _ _ _ _ ihbelow ihrest =>
    obtain ⟨hlayered₁, hgrows₁, hnexts⟩ := ihbelow hdone rfl
    have hname : Layered graph (name :: done₁) := ⟨fun next hnext => hnexts hnext, hlayered₁⟩
    obtain ⟨hlayered, hgrows, hrest⟩ := ihrest hname hanswer
    refine ⟨hlayered, ?_, List.cons_subset.mpr ⟨hgrows List.mem_cons_self, hrest⟩⟩
    intro x hx
    exact hgrows (List.mem_cons_of_mem name (hgrows₁ hx))
  | stops => cases hanswer

end Searches

/-- A way along the edges that ends where it began and passes every other name once. -/
structure IsCycle (edge : String → String → Prop) (names : List String) : Prop where
  moves : 2 ≤ names.length
  returns : names.head? = names.getLast?
  once : names.dropLast.Nodup
  edges : names.IsChain edge

theorem IsCycle.transGen {edge : String → String → Prop} (h : IsCycle edge names) :
    ∃ name, Relation.TransGen edge name name := by
  obtain ⟨hmoves, hreturns, -, hedges⟩ := h
  match names, hmoves with
  | name :: next :: rest, _ =>
    obtain ⟨hedge, hrest⟩ := List.isChain_cons_cons.mp hedges
    have hlast : (next :: rest).getLast (List.cons_ne_nil next rest) = name := by
      rw [List.head?_cons, List.getLast?_cons_cons,
        List.getLast?_eq_some_getLast (List.cons_ne_nil next rest), Option.some.injEq] at hreturns
      exact hreturns.symm
    have hway := List.relationReflTransGen_of_exists_isChain_cons rest hrest hlast
    exact ⟨name, Relation.TransGen.head' hedge hway⟩

/-- The path of the search, newest name first, follows the edges and holds each name once. -/
structure Trail (graph : Graph) (path : List String) : Prop where
  edges : path.IsChain fun next name => graph.Edge name next
  once : path.Nodup

theorem Trail.cons (h : Trail graph path) (hname : name ∉ path)
    (hedge : ∀ last ∈ path.head?, graph.Edge last name) : Trail graph (name :: path) :=
  ⟨List.isChain_cons.mpr ⟨hedge, h.edges⟩, List.nodup_cons.mpr ⟨hname, h.once⟩⟩

theorem closing_append {newer older : List String} (hname : name ∉ older) :
    closing name (newer ++ name :: older) = name :: newer.reverse ++ [name] := by
  have hdrop : older.reverse.dropWhile (· != name) = [] := by
    rw [List.dropWhile_eq_nil_iff]
    intro x hx
    have hne : x ≠ name := fun heq => hname (heq ▸ List.mem_reverse.mp hx)
    simpa using hne
  rw [closing, List.reverse_append, List.reverse_cons, List.append_assoc, List.dropWhile_append,
    hdrop]
  simp

/-- An edge from the end of the path back to a name on it closes a cycle. -/
theorem Trail.isCycle (h : Trail graph path) (hname : name ∈ path)
    (hedge : ∀ last ∈ path.head?, graph.Edge last name) :
    IsCycle graph.Edge (closing name path) := by
  obtain ⟨newer, older, rfl⟩ := List.mem_iff_append.mp hname
  have honce := h.once
  rw [List.nodup_append, List.nodup_cons] at honce
  obtain ⟨hnewer, ⟨holder, -⟩, hapart⟩ := honce
  have hnotin : name ∉ newer := fun hmem => hapart name hmem name List.mem_cons_self rfl
  have hway : (newer ++ [name]).IsChain fun next name => graph.Edge name next :=
    h.edges.prefix ⟨older, by simp⟩
  rw [closing_append holder]
  refine ⟨?_, ?_, ?_, ?_⟩
  · simp
  · rw [List.getLast?_concat, List.cons_append, List.head?_cons]
  · rw [List.dropLast_concat, List.nodup_cons, List.mem_reverse, List.nodup_reverse]
    exact ⟨hnotin, hnewer⟩
  · have hreverse : name :: newer.reverse ++ [name] = (name :: (newer ++ [name])).reverse := by
      simp
    rw [hreverse, List.isChain_reverse]
    refine List.isChain_cons.mpr ⟨?_, hway⟩
    intro last hlast
    refine hedge last ?_
    cases newer with
    | nil => exact hlast
    | cons x newer => exact hlast

/-- A search that stops reports a cycle, if its path leads to what was left to do. -/
theorem Searches.isCycle (h : Searches graph path done todo (.error cycle))
    (htrail : Trail graph path)
    (htodo : ∀ name ∈ todo, ∀ last ∈ path.head?, graph.Edge last name) :
    IsCycle graph.Edge cycle := by
  generalize hanswer : Except.error cycle = answer at h
  induction h with
  | finished => cases hanswer
  | known _ _ ih => exact ih htrail (List.forall_mem_cons.mp htodo).2 hanswer
  | closes _ hpath =>
    cases hanswer
    exact htrail.isCycle hpath (List.forall_mem_cons.mp htodo).1
  | enters _ _ _ _ _ ihrest => exact ihrest htrail (List.forall_mem_cons.mp htodo).2 hanswer
  | stops _ hoff _ ih =>
    refine ih (htrail.cons hoff (List.forall_mem_cons.mp htodo).1) ?_ hanswer
    intro next hnext last hlast
    obtain rfl := Option.some.inj hlast
    exact hnext

/-- The path holds each name once, so the depth does not run out before the names do. Only names
with edges are entered from, so names without any may be missing from the list. -/
theorem foldlM_searches (hleaf : ∀ name ∉ names, graph name = []) {depth : Nat}
    (hdepth : names.length < path.length + depth) (hpath : path.Nodup) (hsub : path ⊆ names) :
    Searches graph path done todo (todo.foldlM (visit graph depth path) done) := by
  induction depth generalizing path done todo with
  | zero =>
    have hle := (List.subperm_of_subset hpath hsub).length_le
    omega
  | succ depth ih =>
    induction todo generalizing done with
    | nil => exact .finished path done
    | cons name rest ihrest =>
      rw [List.foldlM_cons, visit]
      by_cases hdone : name ∈ done
      · rw [if_pos (List.contains_iff_mem.mpr hdone)]
        exact .known hdone ihrest
      rw [if_neg (mt List.contains_iff_mem.mp hdone)]
      by_cases hon : name ∈ path
      · rw [if_pos (List.contains_iff_mem.mpr hon)]
        exact .closes hdone hon
      rw [if_neg (mt List.contains_iff_mem.mp hon)]
      have hbelow : Searches graph (name :: path) done (graph name)
          ((graph name).foldlM (visit graph depth (name :: path)) done) := by
        by_cases hname : name ∈ names
        · refine ih ?_ (List.nodup_cons.mpr ⟨hon, hpath⟩) (List.cons_subset.mpr ⟨hname, hsub⟩)
          rw [List.length_cons]
          omega
        · rw [hleaf name hname]
          exact .finished _ _
      cases hresult : (graph name).foldlM (visit graph depth (name :: path)) done with
      | ok done₁ =>
        rw [hresult] at hbelow
        exact .enters hdone hon hbelow ihrest
      | error cycle =>
        rw [hresult] at hbelow
        exact .stops hdone hon hbelow

/-- The search comes to an end, and its answer is what is reported. -/
theorem exists_searches (hleaf : ∀ name ∉ names, graph name = []) :
    ∃ answer, Searches graph [] [] names answer ∧
      find? graph names = match answer with
        | .ok _ => none
        | .error cycle => some cycle :=
  ⟨_, foldlM_searches hleaf (by simp) List.nodup_nil (List.nil_subset names), rfl⟩

theorem find?_isCycle (hleaf : ∀ name ∉ names, graph name = [])
    (hfind : find? graph names = some cycle) : IsCycle graph.Edge cycle := by
  obtain ⟨answer, hsearch, hanswer⟩ := exists_searches hleaf
  rw [hfind] at hanswer
  cases answer with
  | ok done => cases hanswer
  | error cycle' =>
    obtain rfl := Option.some.inj hanswer
    exact hsearch.isCycle ⟨.nil, List.nodup_nil⟩ fun _ _ last hlast => absurd hlast (by simp)

/-- A graph in which the search finds no cycle has a rank that falls along every edge. -/
theorem exists_rank (hleaf : ∀ name ∉ names, graph name = []) (hfind : find? graph names = none) :
    ∃ (rank : String → Nat) (top : Nat), ∀ name ∈ names,
      rank name ≤ top ∧ ∀ next ∈ graph name, rank next < rank name := by
  obtain ⟨answer, hsearch, hanswer⟩ := exists_searches hleaf
  rw [hfind] at hanswer
  cases answer with
  | error cycle => cases hanswer
  | ok done =>
    obtain ⟨hlayered, -, hnames⟩ := hsearch.layered trivial
    refine ⟨rank done, done.length, fun name hname => ⟨rank_le done name, ?_⟩⟩
    intro next hnext
    exact (rank_lt hlayered (hnames hname) hnext).2

/-- The search finds a cycle if and only if there is one. -/
theorem find?_eq_none_iff (hleaf : ∀ name ∉ names, graph name = []) :
    find? graph names = none ↔ ∀ name, ¬Relation.TransGen graph.Edge name name := by
  constructor
  · intro hfind
    obtain ⟨rank, top, hrank⟩ := exists_rank hleaf hfind
    have hedge : ∀ name next, graph.Edge name next → rank next < rank name := by
      intro name next hnext
      by_cases hname : name ∈ names
      · exact (hrank name hname).2 next hnext
      · rw [Graph.Edge, hleaf name hname] at hnext
        cases hnext
    have hfalls : ∀ name next, Relation.TransGen graph.Edge name next → rank next < rank name := by
      intro name next hway
      induction hway with
      | single h => exact hedge _ _ h
      | tail _ h ih => exact lt_trans (hedge _ _ h) ih
    intro name hway
    exact lt_irrefl _ (hfalls name name hway)
  · intro hacyclic
    cases hfind : find? graph names with
    | none => rfl
    | some cycle =>
      obtain ⟨name, hway⟩ := (find?_isCycle hleaf hfind).transGen
      exact absurd hway (hacyclic name)

end TableLexer.Cycle

namespace TableLexer.Ruleset

variable {rs : Ruleset} {name caller callee : String}

def MayEnter (rs : Ruleset) (caller callee : String) : Prop :=
  ∃ r, rs.rule? caller = some r ∧ callee ∈ r.unguardedSubrules

theorem entryGraph_edge : rs.entryGraph.Edge = rs.MayEnter := by
  funext caller callee
  rw [Cycle.Graph.Edge, entryGraph, MayEnter]
  cases rs.rule? caller with
  | none => simp
  | some r => simp

theorem entryGraph_eq_nil (h : name ∉ rs.rules.map Rule.name) : rs.entryGraph name = [] := by
  have hnone : rs.rule? name = none := by
    refine List.find?_eq_none.mpr ?_
    intro r hr hname
    exact h (List.mem_map.mpr ⟨r, hr, by simpa using hname⟩)
  rw [entryGraph, hnone]

theorem checkCycles_eq_ok_iff :
    rs.checkCycles = .ok () ↔ Cycle.find? rs.entryGraph (rs.rules.map Rule.name) = none := by
  unfold checkCycles
  split <;> simp [*]

theorem checkCycles_eq_error {e : LexError} (h : rs.checkCycles = .error e) :
    ∃ cycle, e = .plain (.cycle cycle) ∧
      Cycle.find? rs.entryGraph (rs.rules.map Rule.name) = some cycle := by
  unfold checkCycles at h
  split at h
  · next cycle hfind =>
    cases h
    exact ⟨cycle, rfl, hfind⟩
  · cases h

/-- The check accepts a rule set if and only if no rule can reach itself along unguarded calls.
Otherwise it reports names that lead from one to the next and back to the first, with no name twice
in between. The search behind it comes to an end without a bound on its depth, with one possible
answer, which is the one reported. -/
theorem checkCycles_exact (rs : Ruleset) :
    (rs.checkCycles = .ok () ↔ ∀ name, ¬Relation.TransGen rs.MayEnter name name) ∧
      (∀ e, rs.checkCycles = .error e →
        ∃ cycle, e = .plain (.cycle cycle) ∧ Cycle.IsCycle rs.MayEnter cycle) ∧
      ∃ answer, Cycle.Searches rs.entryGraph [] [] (rs.rules.map Rule.name) answer ∧
        (∀ other, Cycle.Searches rs.entryGraph [] [] (rs.rules.map Rule.name) other →
          other = answer) ∧
        rs.checkCycles = match answer with
          | .ok _ => .ok ()
          | .error cycle => .error (.plain (.cycle cycle)) := by
  have hleaf : ∀ name ∉ rs.rules.map Rule.name, rs.entryGraph name = [] :=
    fun _ => entryGraph_eq_nil
  refine ⟨?_, ?_, ?_⟩
  · rw [checkCycles_eq_ok_iff, Cycle.find?_eq_none_iff hleaf, entryGraph_edge]
  · intro e he
    obtain ⟨cycle, rfl, hfind⟩ := checkCycles_eq_error he
    have hcycle := Cycle.find?_isCycle hleaf hfind
    rw [entryGraph_edge] at hcycle
    exact ⟨cycle, rfl, hcycle⟩
  · obtain ⟨answer, hsearch, hfind⟩ := Cycle.exists_searches hleaf
    refine ⟨answer, hsearch, fun _ hother => hother.unique hsearch, ?_⟩
    rw [checkCycles, hfind]
    cases answer with
    | ok done => rfl
    | error cycle => rfl

/-- Two rules call for each other unguarded, and a third for one of them. -/
example :
    ({ rules := [
        { name := "a", kind := .lookahead, otherwise := .subrule "b" },
        { name := "b", kind := .lookahead, before := some (.subrule "c") },
        { name := "c", kind := .lookahead, otherwise := .subrule "b" }] } : Ruleset).checkCycles =
      .error (.plain (.cycle ["b", "c", "b"])) := by
  decide +kernel

end TableLexer.Ruleset

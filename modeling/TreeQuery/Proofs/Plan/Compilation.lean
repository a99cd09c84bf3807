import TreeQuery.Plan.Statement
import TreeQuery.Proofs.Compiler
import TreeQuery.Proofs.Pattern.Naming

/-!
Compiling a plan keeps its meaning. In a finished plan every entry refers to earlier ones, so its
statements can be made unless a query is refused. Run one after the other, they bind the name of
each entry to the set that the entry denotes.
-/

set_option autoImplicit false
set_option relaxedAutoImplicit false

namespace TreeQuery

open Pattern (entryName)

private theorem Catalog.index_lt_size {α : Type} {c : Catalog α} {e : Handle × α}
    (he : e ∈ c.toList) :
    e.1.index < c.size := by
  obtain ⟨⟨a, n⟩, ha, rfl⟩ := List.mem_map.1 he
  rw [List.mk_mem_zipIdx_iff_getElem?] at ha
  obtain ⟨hlt, -⟩ := List.getElem?_eq_some_iff.1 ha
  exact hlt

/-- A plan is grounded if its entries refer to earlier ones and its goal is one of them. -/
structure Plan.Grounded (p : Plan) : Prop where
  operands_lt : ∀ e ∈ p.entries.toList, ∀ h ∈ e.2.operands, h.index < e.1.index
  goal_lt : p.goal.index < p.entries.size

namespace PlanDraft

variable {d : PlanDraft}

private theorem index_lt_of_mem_handles {keep : Handle × PlanEntry → Bool} {h : Handle}
    (hh : h ∈ (d.entries.toList.filter keep).map Prod.fst) : h.index < d.entries.size := by
  obtain ⟨e, he, rfl⟩ := List.mem_map.1 hh
  exact Catalog.index_lt_size (List.mem_filter.1 he).1

private theorem index_defaultGoal_lt {first : Handle} {others : List Handle}
    (h : d.queryHandles = first :: others) :
    (defaultGoal first others d.operationHandles).index < d.entries.size := by
  have hmem : first ∈ d.queryHandles := by simp [h]
  have hfirst := index_lt_of_mem_handles hmem
  unfold defaultGoal
  split
  · exact hfirst
  · cases hlast : d.operationHandles.getLast? with
    | none => exact hfirst
    | some g => exact index_lt_of_mem_handles (List.mem_of_getLast? hlast)

private theorem operands_lt_of_dangling?_eq_none (h : d.dangling? = none) :
    ∀ e ∈ d.entries.toList, ∀ g ∈ e.2.operands, g.index < e.1.index := by
  intro e he g hg
  have hnone := List.findSome?_eq_none_iff.1 h e he
  have hle := List.find?_eq_none.1 hnone g hg
  rw [decide_eq_true_eq] at hle
  omega

private theorem grounded_of_build {p : Plan} (h : d.build = .ok p) : p.Grounded := by
  unfold build at h
  split at h
  · cases h
  rename_i first others hqueries
  split at h
  · cases h
  rename_i hdangling
  have hoperands := operands_lt_of_dangling?_eq_none hdangling
  split at h
  · cases h
    exact ⟨hoperands, index_defaultGoal_lt hqueries⟩
  · rename_i goal _
    split at h
    · cases h
    · rename_i hgoal
      cases h
      refine ⟨hoperands, ?_⟩
      rw [Option.isNone_iff_eq_none, Catalog.get?, Array.getElem?_eq_none_iff] at hgoal
      exact Nat.lt_of_not_le hgoal

end PlanDraft

namespace Plan

variable {o : Options} {p : Plan}

def numbered (n : Nat) (entries : List PlanEntry) : List (Handle × PlanEntry) :=
  (entries.zipIdx n).map fun e => (⟨e.2⟩, e.1)

private theorem numbered_cons (n : Nat) (e : PlanEntry) (entries : List PlanEntry) :
    numbered n (e :: entries) = (⟨n⟩, e) :: numbered (n + 1) entries := rfl

private theorem statementOf_operation {op : SetOperator} {l r h : Handle} (hl : l.index < h.index)
    (hr : r.index < h.index) :
    statementOf o h (.operation op l r) =
      .ok (.combine (entryName h.index) op (entryName l.index) (entryName r.index)) := by
  simp only [statementOf, nameOf, if_pos hl, if_pos hr]
  rfl

private theorem mapM_statementOf_eq_error_iff {entries : List (Handle × PlanEntry)}
    (h : ∀ e ∈ entries, ∀ g ∈ e.2.operands, g.index < e.1.index) {err : CompileError} :
    (entries.mapM fun e => statementOf o e.1 e.2) = .error err ↔
      ((entries.filterMap fun e => e.2.query?).mapM fun q => q.compile o) = .error err := by
  induction entries with
  | nil =>
    constructor
    · intro hnil
      cases hnil
    · intro hnil
      cases hnil
  | cons e entries ih =>
    obtain ⟨he, hrest⟩ := List.forall_mem_cons.1 h
    have htail := ih hrest
    obtain ⟨g, entry⟩ := e
    cases entry with
    | query q =>
      have hquery : statementOf o g (.query q) = (do
          let pattern ← q.compile o
          return .search (entryName g.index) pattern) := rfl
      show _ ↔ ((q :: entries.filterMap fun e => e.2.query?).mapM fun q => q.compile o) = .error err
      rw [Sequence.mapM_cons_eq_error_iff, Sequence.mapM_cons_eq_error_iff, htail, hquery]
      cases q.compile o <;> simp [bind, Except.bind, pure, Except.pure]
    | operation op l r =>
      obtain ⟨hl, hr⟩ : l.index < g.index ∧ r.index < g.index := by
        simpa [PlanEntry.operands] using he
      show _ ↔ ((entries.filterMap fun e => e.2.query?).mapM fun q => q.compile o) = .error err
      rw [← htail, Sequence.mapM_cons_eq_error_iff, statementOf_operation hl hr]
      simp

section Run

variable {α : Type} {search : String → Matches α} {meaning : Query → Matches α}
  {bindings : Statement.Bindings α} {earlier : List (Matches α)}

/-- The names of the first entries are bound to the sets that these denote, and no other name of an
entry is bound. -/
def Binds (bindings : Statement.Bindings α) (sets : List (Matches α)) : Prop :=
  ∀ n, bindings.lookup (entryName n) = sets[n]?

private theorem Binds.push (h : Binds bindings earlier) (s : Matches α) :
    Binds ((entryName earlier.length, s) :: bindings) (earlier ++ [s]) := by
  intro n
  by_cases hn : n = earlier.length
  · subst hn
    simp
  · have hname : (entryName n == entryName earlier.length) = false := by
      rw [beq_eq_false_iff_ne]
      intro hname
      exact hn (Pattern.entryName_injective hname)
    simp only [List.lookup_cons, hname]
    rw [h n]
    by_cases hlt : n < earlier.length
    · rw [List.getElem?_append_left hlt]
    · have hlong : (earlier ++ [s]).length ≤ n := by
        rw [List.length_append, List.length_singleton]
        omega
      rw [List.getElem?_eq_none hlong, List.getElem?_eq_none (by omega)]

private theorem run_statementOf (hb : Binds bindings earlier) {e : PlanEntry} {st : Statement}
    (hst : statementOf o ⟨earlier.length⟩ e = .ok st)
    (hoperands : ∀ g ∈ e.operands, g.index < earlier.length)
    (hmeaning : ∀ q ∈ e.query?, ∀ pattern, q.compile o = .ok pattern →
      meaning q = search pattern) :
    ∃ s, e.denote meaning earlier = some s ∧ ∀ printed rest,
      Statement.run search bindings printed (st :: rest) =
        Statement.run search ((entryName earlier.length, s) :: bindings) printed rest := by
  cases e with
  | query q =>
    obtain ⟨pattern, hpattern, hst⟩ := Sequence.bind_eq_ok hst
    cases hst
    refine ⟨meaning q, rfl, ?_⟩
    intro printed rest
    rw [Statement.run, hmeaning q rfl pattern hpattern]
  | operation op l r =>
    obtain ⟨hl, hr⟩ : l.index < earlier.length ∧ r.index < earlier.length := by
      simpa [PlanEntry.operands] using hoperands
    rw [statementOf_operation hl hr] at hst
    cases hst
    have hleft : earlier[l.index]? = some earlier[l.index] := List.getElem?_eq_getElem hl
    have hright : earlier[r.index]? = some earlier[r.index] := List.getElem?_eq_getElem hr
    refine ⟨op.apply earlier[l.index] earlier[r.index], ?_, ?_⟩
    · rw [PlanEntry.denote, hleft, hright]
      rfl
    · intro printed rest
      rw [Statement.run, hb, hb, hleft, hright]
      rfl

/-- The statements of entries bind their names to the sets that they denote. -/
theorem run_statements {entries : List PlanEntry} {sts : List Statement}
    (hb : Binds bindings earlier)
    (hsts : ((numbered earlier.length entries).mapM fun e => statementOf o e.1 e.2) = .ok sts)
    (hoperands : ∀ e ∈ numbered earlier.length entries, ∀ g ∈ e.2.operands,
      g.index < e.1.index)
    (hmeaning : ∀ e ∈ entries, ∀ q ∈ e.query?, ∀ pattern, q.compile o = .ok pattern →
      meaning q = search pattern) :
    ∃ sets bound, denoteFrom meaning earlier entries = some sets ∧
      sets.length = earlier.length + entries.length ∧ Binds bound sets ∧
      ∀ printed rest, Statement.run search bindings printed (sts ++ rest) =
        Statement.run search bound printed rest := by
  induction entries generalizing earlier bindings sts with
  | nil =>
    cases hsts
    exact ⟨earlier, bindings, rfl, rfl, hb, fun _ _ => rfl⟩
  | cons e entries ih =>
    rw [numbered_cons] at hsts hoperands
    obtain ⟨he, hrest⟩ := List.forall_mem_cons.1 hoperands
    obtain ⟨hm, hms⟩ := List.forall_mem_cons.1 hmeaning
    obtain ⟨st, later, hst, hlater, rfl⟩ :=
      List.forall₂_cons_left_iff.1 (Sequence.mapM_eq_ok_iff.1 hsts)
    obtain ⟨s, hs, hrun⟩ := run_statementOf hb hst he hm
    have hlength : (earlier ++ [s]).length = earlier.length + 1 := by simp
    obtain ⟨sets, bound, hsets, hlen, hbound, hrest⟩ := ih (hb.push s)
      (by rw [hlength]; exact Sequence.mapM_eq_ok_iff.2 hlater)
      (by rw [hlength]; exact hrest) hms
    refine ⟨sets, bound, ?_, ?_, hbound, ?_⟩
    · rw [denoteFrom, hs]
      exact hsets
    · rw [hlen, hlength, List.length_cons]
      omega
    · intro printed rest
      rw [List.cons_append, hrun, hrest]

end Run

section Compile

private theorem queries_of_single?_eq_some {q : Query} (h : p.single? = some q) :
    p.queries = [q] := by
  unfold single? at h
  split at h
  · rename_i hsize
    obtain ⟨e, he, hq⟩ := Option.bind_eq_some_iff.1 h
    have hlist : p.entries.entries.toList.length = 1 := hsize
    obtain ⟨e', he'⟩ := List.length_eq_one_iff.1 hlist
    have hmem : e ∈ p.entries.entries.toList := by
      rw [Catalog.get?, ← Array.getElem?_toList] at he
      exact List.mem_of_getElem? he
    rw [he', List.mem_singleton] at hmem
    subst hmem
    simp [queries, Catalog.toList, he', hq]
  · cases h

private theorem statements_eq (hp : p.Grounded) (o : Options) :
    p.statements o = (do
      let named ← (numbered 0 p.entries.entries.toList).mapM fun e => statementOf o e.1 e.2
      return named ++ [.print (entryName p.goal.index)]) := by
  simp only [statements, nameOf, if_pos hp.goal_lt]
  rfl

private theorem compile_eq_error_iff (hp : p.Grounded) {e : CompileError} :
    p.compile o = .error e ↔ (p.queries.mapM fun q => q.compile o) = .error e := by
  cases hsingle : p.single? with
  | some q =>
    have hcompile : p.compile o = q.compile o := by simp only [compile, hsingle]
    rw [hcompile, queries_of_single?_eq_some hsingle, Sequence.mapM_cons_eq_error_iff]
    constructor
    · exact .inl
    · rintro (h | ⟨-, h⟩)
      · exact h
      · cases h
  | none =>
    have hcompile : p.compile o = (do
        let sts ← p.statements o
        return "\n".intercalate (sts.map Statement.text)) := by
      simp only [compile, hsingle]
    rw [hcompile, Sequence.bind_pure_eq_error_iff, statements_eq hp,
      Sequence.bind_pure_eq_error_iff]
    exact mapM_statementOf_eq_error_iff hp.operands_lt

private theorem run_of_statements_eq_ok (hp : p.Grounded) {named : List Statement}
    (h : ((numbered 0 p.entries.entries.toList).mapM fun e => statementOf o e.1 e.2) = .ok named)
    {α : Type} {search : String → Matches α} {meaning : Query → Matches α}
    (hmeaning : ∀ q ∈ p.queries, ∀ pattern, q.compile o = .ok pattern →
      meaning q = search pattern) :
    ∃ s, Statement.run search [] none (named ++ [.print (entryName p.goal.index)]) = some s ∧
      p.denote meaning = some s := by
  have hentries : p.entries.toList.map Prod.snd = p.entries.entries.toList := by
    rw [Catalog.toList, List.map_map]
    exact List.zipIdx_map_fst 0 p.entries.entries.toList
  have hm : ∀ e ∈ p.entries.entries.toList, ∀ q ∈ e.query?, ∀ pattern,
      q.compile o = .ok pattern → meaning q = search pattern := by
    intro e he q hq
    rw [← hentries] at he
    obtain ⟨x, hx, rfl⟩ := List.mem_map.1 he
    exact hmeaning q (List.mem_filterMap.2 ⟨x, hx, hq⟩)
  have hnil : Binds ([] : Statement.Bindings α) [] := fun _ => rfl
  obtain ⟨sets, bound, hsets, hlen, hbound, hrun⟩ := run_statements hnil h hp.operands_lt hm
  have hgoal : p.goal.index < sets.length := by
    rw [hlen, List.length_nil, Nat.zero_add]
    exact hp.goal_lt
  have hget : sets[p.goal.index]? = some sets[p.goal.index] := List.getElem?_eq_getElem hgoal
  refine ⟨sets[p.goal.index], ?_, ?_⟩
  · rw [hrun, Statement.run, hbound, hget]
    rfl
  · rw [denote, hentries, hsets]
    exact hget

/-- Compiling a finished plan fails if and only if one of its queries is refused, and then with the
cause of the first of them. The text of a plan with several entries is that of statements which
name the set of each entry and print the one that the goal denotes. -/
theorem compile_prints_goal (d : PlanDraft) (p : Plan) (o : Options) (h : d.build = .ok p) :
    ((∃ e, p.compile o = .error e) ↔ ∃ q ∈ p.queries, ∃ e, q.compile o = .error e) ∧
      (∀ e, p.compile o = .error e →
        (∃ before q after, p.queries = before ++ q :: after ∧
          (∀ q' ∈ before, ∃ text, q'.compile o = .ok text) ∧ q.compile o = .error e) ∧
        ∀ g, e ≠ .unknownPlanEntry g) ∧
      ∀ text, 1 < p.entries.size → p.compile o = .ok text →
        ∃ named name, p.statements o = .ok (named ++ [.print name]) ∧
          named.length = p.entries.size ∧
          text = "\n".intercalate ((named ++ [.print name]).map Statement.text) ∧
          ∀ (α : Type) (search : String → Matches α) (meaning : Query → Matches α),
            (∀ q ∈ p.queries, ∀ pattern, q.compile o = .ok pattern →
              meaning q = search pattern) →
            ∃ s, Statement.run search [] none (named ++ [.print name]) = some s ∧
              p.denote meaning = some s := by
  have hp := PlanDraft.grounded_of_build h
  refine ⟨?_, ?_, ?_⟩
  · rw [← Sequence.exists_mapM_eq_error_iff]
    exact exists_congr fun e => compile_eq_error_iff hp
  · intro e he
    rw [compile_eq_error_iff hp] at he
    obtain ⟨before, q, after, hsplit, hbefore, hqe⟩ := Sequence.mapM_eq_error_iff.1 he
    refine ⟨⟨before, q, after, hsplit, hbefore, hqe⟩, ?_⟩
    rintro g rfl
    cases Query.refusesQuery_of_compile hqe
  · intro text hsize htext
    have hsingle : p.single? = none := by
      rw [single?, if_neg (by omega)]
    simp only [compile, hsingle] at htext
    obtain ⟨sts, hsts, htext⟩ := Sequence.bind_eq_ok htext
    cases htext
    rw [statements_eq hp] at hsts ⊢
    obtain ⟨named, hnamed, hsts⟩ := Sequence.bind_eq_ok hsts
    cases hsts
    refine ⟨named, entryName p.goal.index, by rw [hnamed]; rfl, ?_, rfl, ?_⟩
    · have hlength := (Sequence.mapM_eq_ok_iff.1 hnamed).length_eq
      rw [← hlength, numbered, List.length_map, List.length_zipIdx]
      rfl
    · intro α search meaning hmeaning
      exact run_of_statements_eq_ok hp hnamed hmeaning

def carrying (name : String) : Query where
  tokens := [⟨⟨0⟩, some (.presence ⟨none, name⟩)⟩]
  dependencies := []
  predicates := []
  constraints := []

/-- A plan that takes the matches of its first query from those of its second, and asks for the
result although another operation follows. -/
def remainder : PlanDraft where
  entries := ⟨#[.query (carrying "case"), .query (carrying "tense"),
    .operation .difference ⟨1⟩ ⟨0⟩, .operation .union ⟨0⟩ ⟨2⟩]⟩
  goal := some ⟨2⟩

theorem compile_remainder :
    ∃ p sts s, remainder.build = .ok p ∧
      p.compile {} = .ok "A = [case];\nB = [tense];\nC = diff B A;\nD = union A C;\ncat C;" ∧
      p.statements {} = .ok sts ∧
      Statement.run (fun pattern x => x = pattern) [] none sts = some s ∧
      ∀ x, s x ↔ x = "[tense]" := by
  have hcase : (carrying "case").compile {} = .ok "[case]" := by
    rw [Query.compile_eq]
    decide +kernel
  have htense : (carrying "tense").compile {} = .ok "[tense]" := by
    rw [Query.compile_eq]
    decide +kernel
  let p : Plan := ⟨remainder.entries, ⟨2⟩⟩
  let meaning (q : Query) : Matches String :=
    if q = carrying "case" then (· = "[case]") else (· = "[tense]")
  have hqueries : p.queries = [carrying "case", carrying "tense"] := by decide
  have hentries : p.entries.toList = [(⟨0⟩, .query (carrying "case")),
    (⟨1⟩, .query (carrying "tense")), (⟨2⟩, .operation .difference ⟨1⟩ ⟨0⟩),
    (⟨3⟩, .operation .union ⟨0⟩ ⟨2⟩)] := rfl
  have hcompile : p.compile {} =
      .ok "A = [case];\nB = [tense];\nC = diff B A;\nD = union A C;\ncat C;" := by
    have hsingle : p.single? = none := rfl
    simp only [compile, hsingle, statements, hentries, List.mapM_cons, List.mapM_nil, statementOf,
      hcase, htense]
    decide +kernel
  obtain ⟨named, name, hsts, -, -, hrun⟩ :=
    (compile_prints_goal remainder p {} rfl).2.2 _ (by decide) hcompile
  obtain ⟨s, hs, hdenote⟩ := hrun String (fun pattern x => x = pattern) meaning (by
    intro q hq pattern hpattern
    rw [hqueries, List.mem_pair] at hq
    rcases hq with rfl | rfl
    · rw [hcase] at hpattern
      cases hpattern
      rfl
    · rw [htense] at hpattern
      cases hpattern
      rfl)
  have hgoal : p.denote meaning = some (SetOperator.difference.apply (meaning (carrying "tense"))
    (meaning (carrying "case"))) := rfl
  rw [hgoal] at hdenote
  cases hdenote
  refine ⟨p, _, _, rfl, hcompile, hsts, hs, ?_⟩
  intro x
  show x = "[tense]" ∧ ¬ x = "[case]" ↔ x = "[tense]"
  constructor
  · exact And.left
  · rintro rfl
    exact ⟨rfl, by decide⟩

end Compile

end Plan

end TreeQuery

import TreeQuery.Document.Meaning
import TreeQuery.Proofs.Sequence

/-!
Registries after any sequence of registrations. The names stay distinct, so that looking a
front-end up by its name finds the one that a scan of all front-ends meets; guessing therefore
agrees with asking for every name in turn.
-/

set_option autoImplicit false
set_option relaxedAutoImplicit false

namespace TreeQuery.Registry

variable {r start : Registry} {f : Frontend} {input : String}

section Registration

def afterCall (r : Registry) (f : Frontend) : Registry :=
  match r.register f with
  | .ok later => later
  | .error _ => r

def afterCalls (r : Registry) (fs : List Frontend) : Registry := fs.foldl afterCall r

private theorem get?_isSome_iff {name : String} : (r.get? name).isSome = true ↔ name ∈ r.names := by
  simp [get?, names]

private theorem register_of_mem (h : f.name ∈ r.names) :
    r.register f = .error (.duplicateFrontend f.name) := by
  rw [register, if_pos (get?_isSome_iff.2 h)]

private theorem register_of_not_mem (h : f.name ∉ r.names) :
    r.register f = .ok ⟨r.frontends ++ [f]⟩ := by
  rw [register, if_neg (mt get?_isSome_iff.1 h)]

private theorem afterCall_of_mem (h : f.name ∈ r.names) : r.afterCall f = r := by
  rw [afterCall, register_of_mem h]

private theorem afterCall_of_not_mem (h : f.name ∉ r.names) :
    r.afterCall f = ⟨r.frontends ++ [f]⟩ := by
  rw [afterCall, register_of_not_mem h]

private theorem afterCalls_concat (r : Registry) (fs : List Frontend) (f : Frontend) :
    r.afterCalls (fs ++ [f]) = (r.afterCalls fs).afterCall f := by
  rw [afterCalls, List.foldl_append]
  rfl

private theorem names_afterCalls (h : start.names.Nodup) (fs : List Frontend) :
    (start.afterCalls fs).names = ((start.frontends ++ fs).map Frontend.name).eraseDups := by
  induction fs using List.reverseRecOn with
  | nil =>
    rw [List.append_nil]
    exact (Sequence.eraseDups_eq_self h).symm
  | append_singleton fs f ih =>
    rw [afterCalls_concat, ← List.append_assoc, List.map_append, List.map_singleton,
      Sequence.eraseDups_concat, ← ih]
    have hmem : f.name ∈ (start.afterCalls fs).names ↔
        f.name ∈ (start.frontends ++ fs).map Frontend.name := by
      rw [ih, List.mem_eraseDups]
    by_cases hf : f.name ∈ (start.afterCalls fs).names
    · rw [afterCall_of_mem hf, if_pos (hmem.1 hf)]
    · rw [afterCall_of_not_mem hf, if_neg (mt hmem.2 hf)]
      simp [names]

private theorem get?_afterCalls (start : Registry) (fs : List Frontend) (name : String) :
    (start.afterCalls fs).get? name =
      (start.frontends ++ fs).find? fun f => f.name = name := by
  induction fs using List.reverseRecOn with
  | nil =>
    rw [List.append_nil]
    rfl
  | append_singleton fs f ih =>
    rw [afterCalls_concat, ← List.append_assoc, List.find?_append, ← ih]
    by_cases hf : f.name ∈ (start.afterCalls fs).names
    · -- the name is taken, so a search for it ends before the new front-end
      rw [afterCall_of_mem hf]
      by_cases hname : f.name = name
      · obtain ⟨g, hg⟩ := Option.isSome_iff_exists.1 (get?_isSome_iff.2 (hname ▸ hf))
        rw [hg, Option.some_or]
      · simp [hname]
    · rw [afterCall_of_not_mem hf, get?, List.find?_append]
      rfl

end Registration

section Guessing

private theorem get?_name_of_mem (h : r.names.Nodup) (hf : f ∈ r.frontends) :
    r.get? f.name = some f := by
  cases hg : r.get? f.name with
  | none => simpa using List.find?_eq_none.1 hg f hf
  | some g =>
    have hname : g.name = f.name := by simpa using List.find?_some hg
    rw [List.inj_on_of_nodup_map h (List.mem_of_find?_eq_some hg) hf hname]

private theorem accepting_eq (h : r.names.Nodup) (input : String) :
    r.accepting input =
      r.names.filterMap fun name => (r.plan input (some name)).toOption.map fun p => (name, p) := by
  rw [accepting, names, List.filterMap_map]
  apply List.filterMap_congr
  intro f hf
  simp only [Function.comp_apply, plan, get?_name_of_mem h hf]
  cases f.read input <;> rfl

def accepts (r : Registry) (input name : String) : Bool := (r.plan input (some name)).isOk

private theorem accepts_iff {name : String} :
    r.accepts input name = true ↔ ∃ p, r.plan input (some name) = .ok p := by
  rw [accepts]
  cases r.plan input (some name) with
  | error e => simp [Except.isOk, Except.toBool]
  | ok p => simp [Except.isOk, Except.toBool]

private theorem mem_accepting (h : r.names.Nodup) {name : String} {p : Plan} :
    (name, p) ∈ r.accepting input ↔ name ∈ r.names ∧ r.plan input (some name) = .ok p := by
  rw [accepting_eq h, List.mem_filterMap]
  constructor
  · intro ⟨m, hm, hp⟩
    obtain ⟨p', hp', he⟩ := Option.map_eq_some_iff.1 hp
    obtain ⟨rfl, rfl⟩ := Prod.mk.inj he
    exact ⟨hm, Sequence.toOption_eq_some_iff.1 hp'⟩
  · intro ⟨hm, hp⟩
    rw [← Sequence.toOption_eq_some_iff] at hp
    exact ⟨name, hm, Option.map_eq_some_iff.2 ⟨p, hp, rfl⟩⟩

private theorem map_fst_accepting (h : r.names.Nodup) (input : String) :
    (r.accepting input).map Prod.fst = r.names.filter (r.accepts input) := by
  rw [accepting_eq h, List.map_filterMap, ← List.filterMap_eq_filter]
  apply List.filterMap_congr
  intro name _
  rw [Option.guard, accepts]
  cases r.plan input (some name) <;> rfl

private theorem plan_none_eq_ok_iff {p : Plan} :
    r.plan input none = .ok p ↔ ∃ name, r.accepting input = [(name, p)] := by
  rw [plan]
  split
  · rename_i name p' hone
    simp [hone]
  · rename_i hmany
    constructor
    · intro h
      cases h
    · intro ⟨name, hone⟩
      exact absurd hone (hmany name p)

private theorem eq_of_plan_none_eq_error {e : SelectionError} (h : r.plan input none = .error e) :
    e = .unableToGuess ((r.accepting input).map Prod.fst) := by
  rw [plan] at h
  split at h
  · cases h
  · exact (Except.error.inj h).symm

private theorem accepting_eq_singleton_iff (h : r.names.Nodup) {name : String} {p : Plan} :
    r.accepting input = [(name, p)] ↔
      name ∈ r.names ∧ r.plan input (some name) = .ok p ∧
        ∀ other ∈ r.names, r.accepts input other = true → other = name := by
  constructor
  · intro hone
    have hname : (name, p) ∈ r.accepting input := hone ▸ List.mem_cons_self
    obtain ⟨hmem, hplan⟩ := (mem_accepting h).1 hname
    refine ⟨hmem, hplan, ?_⟩
    intro other hother haccepts
    obtain ⟨p', hp'⟩ := accepts_iff.1 haccepts
    have hpair : (other, p') ∈ r.accepting input := (mem_accepting h).2 ⟨hother, hp'⟩
    rw [hone, List.mem_singleton] at hpair
    exact (Prod.mk.inj hpair).1
  · intro ⟨hmem, hplan, honly⟩
    -- the names are distinct, so those that are accepted are this one, and it once
    have hfilter : r.names.filter (r.accepts input) = [name] := by
      rw [← List.perm_singleton, List.perm_ext_iff_of_nodup (h.filter _) (List.nodup_singleton _)]
      intro other
      rw [List.mem_filter, List.mem_singleton]
      constructor
      · intro ⟨hother, haccepts⟩
        exact honly other hother haccepts
      · rintro rfl
        exact ⟨hmem, accepts_iff.2 ⟨p, hplan⟩⟩
    rw [← map_fst_accepting h] at hfilter
    obtain ⟨⟨name', p'⟩, hone, rfl⟩ := List.map_eq_singleton_iff.1 hfilter
    have hpair : (name', p') ∈ r.accepting input := hone ▸ List.mem_cons_self
    rw [((mem_accepting h).1 hpair).2] at hplan
    rw [hone, Except.ok.inj hplan]

end Guessing

/-- The registry holds the first front-end of every name among the given ones, and refuses another
of a name that it holds. -/
structure Keeps (r : Registry) (given : List Frontend) : Prop where
  nodup : r.names.Nodup
  names_eq : r.names = (given.map Frontend.name).eraseDups
  get?_eq : ∀ name, r.get? name = given.find? fun f => f.name = name
  refuses : ∀ f, f.name ∈ r.names →
    r.register f = .error (.duplicateFrontend f.name) ∧ r.afterCall f = r
  admits : ∀ f, f.name ∉ r.names → r.register f = .ok ⟨r.frontends ++ [f]⟩

/-- Without a name, the registry gives the plan of the only name that has one, or else lists the
names that have one. -/
structure Guesses (r : Registry) (input : String) : Prop where
  ok_iff : ∀ p, r.plan input none = .ok p ↔
    ∃ name ∈ r.names, r.plan input (some name) = .ok p ∧
      ∀ other ∈ r.names, r.accepts input other = true → other = name
  error_eq : ∀ e, r.plan input none = .error e →
    e = .unableToGuess (r.names.filter (r.accepts input))

/-- Whatever front-ends are registered, names stay distinct and in order, a refused front-end
changes nothing, and guessing agrees with asking for every name. -/
theorem calls_keep_first_of_name (start : Registry)
    (hstart : start = .empty ∨ start = .standard) (fs : List Frontend) :
    (start.afterCalls fs).Keeps (start.frontends ++ fs) ∧
      ∀ input, (start.afterCalls fs).Guesses input := by
  have hnodup : start.names.Nodup := by
    rcases hstart with rfl | rfl
    · exact List.nodup_nil
    · exact List.nodup_singleton _
  have hnames := names_afterCalls hnodup fs
  have hdistinct : (start.afterCalls fs).names.Nodup := hnames ▸ Sequence.nodup_eraseDups _
  refine ⟨?_, fun input => ?_⟩
  · constructor
    case nodup => exact hdistinct
    case names_eq => exact hnames
    case get?_eq => exact get?_afterCalls start fs
    case refuses =>
      intro f hf
      exact ⟨register_of_mem hf, afterCall_of_mem hf⟩
    case admits =>
      intro f hf
      exact register_of_not_mem hf
  · constructor
    case ok_iff =>
      intro p
      rw [plan_none_eq_ok_iff]
      exact exists_congr fun name => accepting_eq_singleton_iff hdistinct
    case error_eq =>
      intro e he
      rw [eq_of_plan_none_eq_error he, map_fst_accepting hdistinct]

def reader (name : String) (texts : List String) : Frontend where
  name := name
  read input :=
    if input ∈ texts then .ok (.ofQuery ⟨[⟨⟨0⟩, none⟩], [], [], []⟩)
    else .error (.notSupported ("not " ++ name))

/-- The third reader comes too late for its name. -/
def rivals : List Frontend :=
  [reader "ab" ["one", "two"], reader "a" ["two"], reader "ab" ["three"]]

theorem rivals_keep_first_of_name :
    (Registry.empty.afterCalls rivals).names = ["ab", "a"] ∧
      (Registry.empty.afterCalls rivals).accepts "one" "ab" = true ∧
      (Registry.empty.afterCalls rivals).plan "two" none = .error (.unableToGuess ["ab", "a"]) ∧
      (Registry.empty.afterCalls rivals).plan "three" none = .error (.unableToGuess []) ∧
      (Registry.empty.afterCalls rivals).Keeps rivals ∧
      ∀ input, (Registry.empty.afterCalls rivals).Guesses input :=
  ⟨by decide +kernel, by decide +kernel, by decide +kernel, by decide +kernel,
    calls_keep_first_of_name .empty (.inl rfl) rivals⟩

end TreeQuery.Registry

import TreeQuery.Document.Meaning
import TreeQuery.Proofs.Document.Image

/-!
How names get their handles. A roll lists the names met so far in the order of their first mention,
and a step of a translation adds the new names among those it mentions at the end. Handles given out
before keep their meaning, so what a step has done is read with the handles of all later steps.
-/

set_option autoImplicit false
set_option relaxedAutoImplicit false

namespace TreeQuery.Document

open scoped List

variable {α β : Type} {f : String → Identifier} {names mentions : List String}

private theorem idxOf_append_singleton {n : String} (h : n ∉ names) :
    (names ++ [n]).idxOf n = names.length := by
  rw [List.idxOf_append_of_notMem h, List.idxOf_cons_self, Nat.add_zero]

private theorem nodup_append_singleton {n : String} (h : names.Nodup) (hn : n ∉ names) :
    (names ++ [n]).Nodup :=
  (List.perm_append_singleton n names).nodup_iff.2 (List.nodup_cons.2 ⟨hn, h⟩)

def enroll (names mentions : List String) : List String :=
  mentions.foldl (fun names n => if n ∈ names then names else names ++ [n]) names

private theorem enroll_append (names s t : List String) :
    enroll names (s ++ t) = enroll (enroll names s) t :=
  List.foldl_append

private theorem enroll_cons_of_mem {n : String} (h : n ∈ names) :
    enroll names (n :: mentions) = enroll names mentions := by
  rw [enroll, List.foldl_cons, if_pos h, enroll]

private theorem enroll_cons_of_not_mem {n : String} (h : n ∉ names) :
    enroll names (n :: mentions) = enroll (names ++ [n]) mentions := by
  rw [enroll, List.foldl_cons, if_neg h, enroll]

private theorem prefix_enroll (names mentions : List String) : names <+: enroll names mentions := by
  induction mentions generalizing names with
  | nil => exact List.prefix_rfl
  | cons n mentions ih =>
    by_cases hn : n ∈ names
    · rw [enroll_cons_of_mem hn]
      exact ih names
    · rw [enroll_cons_of_not_mem hn]
      exact (List.prefix_append names [n]).trans (ih _)

theorem mem_enroll {n : String} : n ∈ enroll names mentions ↔ n ∈ names ∨ n ∈ mentions := by
  induction mentions generalizing names with
  | nil => simp [enroll]
  | cons m mentions ih =>
    by_cases hm : m ∈ names
    · rw [enroll_cons_of_mem hm, ih, List.mem_cons]
      constructor
      · exact Or.imp_right .inr
      · rintro (hn | rfl | hn)
        · exact .inl hn
        · exact .inl hm
        · exact .inr hn
    · rw [enroll_cons_of_not_mem hm, ih, List.mem_append, List.mem_singleton, List.mem_cons,
        or_assoc]

private theorem nodup_enroll (h : names.Nodup) : (enroll names mentions).Nodup := by
  induction mentions generalizing names with
  | nil => exact h
  | cons m mentions ih =>
    by_cases hm : m ∈ names
    · rw [enroll_cons_of_mem hm]
      exact ih h
    · rw [enroll_cons_of_not_mem hm]
      exact ih (nodup_append_singleton h hm)

/-- The handle of a listed name is its place in the list. -/
def Numbers (f : String → Identifier) (names : List String) : Prop :=
  ∀ n ∈ names, f n = ⟨names.idxOf n⟩

private theorem Numbers.of_isPrefix {names' : List String} (h : Numbers f names')
    (hpre : names <+: names') : Numbers f names := by
  obtain ⟨t, rfl⟩ := hpre
  intro n hn
  rw [h n (List.mem_append_left t hn), List.idxOf_append_of_mem hn]

theorem numbers_idxOf (names : List String) : Numbers (fun n => ⟨names.idxOf n⟩) names :=
  fun _ _ => rfl

theorem Numbers.injOn (h : Numbers f names) : Set.InjOn f {n | n ∈ names} := by
  intro m hm n hn heq
  rw [h m hm, h n hn] at heq
  exact (List.idxOf_inj hm).1 (congrArg Identifier.index heq)

theorem Numbers.byFirstMention (h : Numbers f (enroll [] mentions)) :
    NumbersByFirstMention f mentions := by
  rintro s n t rfl hn
  have hfirst : n ∉ enroll [] s := by
    rw [mem_enroll]
    rintro (hnil | hmem)
    · exact List.not_mem_nil hnil
    · exact hn hmem
  rw [enroll_append, enroll_cons_of_not_mem hfirst] at h
  have hlast := h.of_isPrefix (prefix_enroll _ t) n (by simp)
  rw [hlast]
  show (enroll [] s ++ [n]).idxOf n = s.toFinset.card
  rw [idxOf_append_singleton hfirst, ← List.toFinset_card_of_nodup (nodup_enroll List.nodup_nil)]
  congr 1
  ext m
  simp [mem_enroll]

structure Roll.Lists (roll : Roll) (names : List String) : Prop where
  nodup : names.Nodup
  issued_eq : roll.draft.issued = names.length
  lookup_eq : ∀ n, roll.handles.lookup n = if n ∈ names then some ⟨names.idxOf n⟩ else none

theorem Roll.lists_empty : Roll.Lists {} [] :=
  ⟨List.nodup_nil, rfl, fun _ => rfl⟩

private theorem Roll.Lists.issue {roll : Roll} (h : roll.Lists names) {n : String}
    (hn : n ∉ names) :
    Roll.Lists ⟨roll.draft.identifier.2, (n, roll.draft.identifier.1) :: roll.handles⟩
      (names ++ [n]) := by
  refine ⟨nodup_append_singleton h.nodup hn, ?_, ?_⟩
  · show roll.draft.issued + 1 = (names ++ [n]).length
    rw [h.issued_eq, List.length_append, List.length_singleton]
  · intro m
    rw [List.lookup_cons]
    by_cases hmn : m = n
    · subst hmn
      rw [beq_self_eq_true, if_pos (by simp), idxOf_append_singleton hn, ← h.issued_eq]
      rfl
    · rw [beq_false_of_ne hmn, h.lookup_eq m]
      by_cases hm : m ∈ names
      · rw [if_pos hm, if_pos (List.mem_append_left _ hm), List.idxOf_append_of_mem hm]
      · rw [if_neg hm, if_neg (by simp [hm, hmn])]

private theorem run_handle_of_mem {roll : Roll} (h : roll.Lists names) {n : String}
    (hn : n ∈ names) :
    (handle n).run roll = .ok (⟨names.idxOf n⟩, roll) := by
  have hlookup : roll.handles.lookup n = some ⟨names.idxOf n⟩ := by rw [h.lookup_eq, if_pos hn]
  simp only [handle, StateT.run_bind, StateT.run_get, pure_bind, hlookup]
  rfl

private theorem run_handle_of_not_mem {roll : Roll} (h : roll.Lists names) {n : String}
    (hn : n ∉ names) :
    (handle n).run roll = .ok (roll.draft.identifier.1,
      ⟨roll.draft.identifier.2, (n, roll.draft.identifier.1) :: roll.handles⟩) := by
  have hlookup : roll.handles.lookup n = none := by rw [h.lookup_eq, if_neg hn]
  simp only [handle, StateT.run_bind, StateT.run_get, pure_bind, hlookup]
  rfl

/-- What a step of a translation does. It succeeds if and only if it accepts, and otherwise refuses
with a reason. If it succeeds, it lists the names it mentions, and its result and the parts of the
query before and after are related however later names are numbered. -/
structure Does (x : Translation α) (accepts : Prop) (mentions : List String)
    (result : (String → Identifier) → Query → α → Query → Prop) : Prop where
  succeeds : accepts → ∀ roll names, roll.Lists names →
    ∃ a roll', x.run roll = .ok (a, roll') ∧ roll'.Lists (enroll names mentions) ∧
      ∀ f, Numbers f (enroll names mentions) → result f roll.draft.parts a roll'.draft.parts
  refuses : ¬ accepts → ∀ roll names, roll.Lists names →
    ∃ reason, x.run roll = .error (.notSupported reason)

namespace Does

variable {x : Translation α} {accepts accepts' : Prop} {mentions' : List String}
  {result result' : (String → Identifier) → Query → α → Query → Prop}

theorem mono (h : Does x accepts mentions result) (haccepts : accepts ↔ accepts')
    (hmentions : mentions = mentions')
    (hresult : ∀ f q a q', result f q a q' → result' f q a q') :
    Does x accepts' mentions' result' := by
  subst hmentions
  constructor
  · intro hacc roll names hroll
    obtain ⟨a, roll', hrun, hroll', hres⟩ := h.succeeds (haccepts.2 hacc) roll names hroll
    exact ⟨a, roll', hrun, hroll', fun f hf => hresult _ _ _ _ (hres f hf)⟩
  · intro hacc
    exact h.refuses fun hacc' => hacc (haccepts.1 hacc')

theorem pure (a : α) :
    Does (Pure.pure a) True [] fun _ q b q' => b = a ∧ q' = q := by
  constructor
  · intro _ roll names hroll
    exact ⟨a, roll, rfl, hroll, fun _ _ => ⟨rfl, rfl⟩⟩
  · intro hacc
    exact absurd trivial hacc

theorem throw (reason : String) :
    Does (MonadExcept.throw (.notSupported reason) : Translation α) False mentions result := by
  constructor
  · exact False.elim
  · intro _ roll names _
    exact ⟨reason, rfl⟩

/-- Two steps after each other. The second may rely on the result of the first. -/
theorem bind {g : α → Translation β}
    {result₂ : α → (String → Identifier) → Query → β → Query → Prop}
    (h : Does x accepts mentions result)
    (hg : ∀ f q a q', result f q a q' → Does (g a) accepts' mentions' (result₂ a)) :
    Does (x >>= g) (accepts ∧ accepts') (mentions ++ mentions')
      fun f q b q'' => ∃ a q', result f q a q' ∧ result₂ a f q' b q'' := by
  constructor
  · rintro ⟨hacc, hacc'⟩ roll names hroll
    obtain ⟨a, roll', hrun, hroll', hres⟩ := h.succeeds hacc roll names hroll
    have hnext := hg _ _ _ _ (hres _ (numbers_idxOf _))
    obtain ⟨b, roll'', hrun', hroll'', hres'⟩ := hnext.succeeds hacc' roll' _ hroll'
    refine ⟨b, roll'', ?_, enroll_append names mentions mentions' ▸ hroll'', ?_⟩
    · rw [StateT.run_bind, hrun]
      exact hrun'
    · -- the names that the second step adds do not change the numbers of the others
      intro f hf
      rw [enroll_append] at hf
      exact ⟨a, _, hres f (hf.of_isPrefix (prefix_enroll _ _)), hres' f hf⟩
  · intro hacc roll names hroll
    by_cases hfirst : accepts
    · obtain ⟨a, roll', hrun, hroll', hres⟩ := h.succeeds hfirst roll names hroll
      have hnext := hg _ _ _ _ (hres _ (numbers_idxOf _))
      obtain ⟨reason, hrun'⟩ := hnext.refuses (fun hacc' => hacc ⟨hfirst, hacc'⟩) roll' _ hroll'
      refine ⟨reason, ?_⟩
      rw [StateT.run_bind, hrun]
      exact hrun'
    · obtain ⟨reason, hrun⟩ := h.refuses hfirst roll names hroll
      refine ⟨reason, ?_⟩
      rw [StateT.run_bind, hrun]
      rfl

theorem map {g : α → β} (h : Does x accepts mentions result) :
    Does (x >>= fun a => Pure.pure (g a)) accepts mentions fun f q b q' =>
      ∃ a, result f q a q' ∧ b = g a := by
  refine (h.bind fun _ _ a _ _ => pure (g a)).mono (by simp) (List.append_nil _) ?_
  rintro f q b _ ⟨a, q', ha, rfl, rfl⟩
  exact ⟨a, ha, rfl⟩

theorem handle (n : String) :
    Does (Document.handle n) True [n] fun f q i q' => i = f n ∧ q' = q := by
  constructor
  · intro _ roll names hroll
    by_cases hn : n ∈ names
    · rw [enroll_cons_of_mem hn]
      exact ⟨_, roll, run_handle_of_mem hroll hn, hroll, fun f hf => ⟨(hf n hn).symm, rfl⟩⟩
    · rw [enroll_cons_of_not_mem hn]
      refine ⟨_, _, run_handle_of_not_mem hroll hn, hroll.issue hn, fun f hf => ⟨?_, rfl⟩⟩
      have hlast : f n = ⟨(names ++ [n]).idxOf n⟩ := hf n (List.mem_append_right names (by simp))
      rw [hlast, idxOf_append_singleton hn]
      exact congrArg Identifier.mk hroll.issued_eq
  · intro hacc
    exact absurd trivial hacc

theorem revise {g : Draft → Draft} {h : Query → Query} (hissued : ∀ d, (g d).issued = d.issued)
    (hparts : ∀ d, (g d).parts = h d.parts) :
    Does (Document.revise g) True [] fun _ q _ q' => q' = h q := by
  constructor
  · intro _ roll names hroll
    refine ⟨(), { roll with draft := g roll.draft }, rfl, ⟨hroll.nodup, ?_, hroll.lookup_eq⟩, ?_⟩
    · exact (hissued roll.draft).trans hroll.issued_eq
    · exact fun _ _ => hparts roll.draft
  · intro hacc
    exact absurd trivial hacc

theorem forM {step : α → Translation Unit} {accepts : α → Prop} {mentions : α → List String}
    {made : (String → Identifier) → α → β → Prop} (add : List β → Query → Query)
    (hnil : ∀ q, add [] q = q) (hcons : ∀ b bs q, add bs (add [b] q) = add (b :: bs) q)
    (h : ∀ a, Does (step a) (accepts a) (mentions a) fun f q _ q' =>
      ∃ b, made f a b ∧ q' = add [b] q) (l : List α) :
    Does (l.forM step) (∀ a ∈ l, accepts a) (l.flatMap mentions) fun f q _ q' =>
      ∃ bs, List.Forall₂ (made f) l bs ∧ q' = add bs q := by
  induction l with
  | nil =>
    refine (pure ()).mono (by simp) rfl ?_
    rintro f q _ q' ⟨-, rfl⟩
    exact ⟨[], .nil, (hnil q').symm⟩
  | cons a l ih =>
    show Does (step a >>= fun _ => l.forM step) _ _ _
    refine ((h a).bind fun _ _ _ _ _ => ih).mono (by simp) List.flatMap_cons.symm ?_
    rintro f q _ _ ⟨_, q', ⟨b, hb, rfl⟩, bs, hbs, rfl⟩
    exact ⟨b :: bs, .cons hb hbs, hcons b bs q⟩

end Does

end TreeQuery.Document

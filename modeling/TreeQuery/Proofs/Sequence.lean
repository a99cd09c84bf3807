import Mathlib.Data.List.Nodup
import Mathlib.Data.List.ProdSigma
import Mathlib.Data.List.Forall2
import Mathlib.Data.List.Infix
import Mathlib.Data.List.Perm.Basic
import Mathlib.Logic.Function.Iterate
import Mathlib.Tactic.ByContra
import TreeQuery.Enumeration

/-!
Sequences whose members differ. Where a member stands is told by the pairs that the sequence
holds: an earlier and a later member form a sublist, two neighbours form an infix. Also here: what
a traversal that may fail has done when it ends, and what repeated calls draw from an enumeration.
-/

set_option autoImplicit false
set_option relaxedAutoImplicit false

namespace TreeQuery.Sequence

open scoped List

variable {α β ε : Type}

theorem nodup_eraseDups [BEq α] [LawfulBEq α] (l : List α) : l.eraseDups.Nodup := by
  induction h : l.length using Nat.strong_induction_on generalizing l with
  | _ n ih =>
    cases l with
    | nil => simp
    | cons a l =>
      rw [List.eraseDups_cons, List.nodup_cons]
      refine ⟨by simp, ih _ ?_ _ rfl⟩
      have := List.length_filter_le (fun b => !b == a) l
      simp only [List.length_cons] at h
      omega

theorem eraseDups_eq_self [BEq α] [LawfulBEq α] {l : List α} (h : l.Nodup) : l.eraseDups = l := by
  induction l with
  | nil => rfl
  | cons a l ih =>
    obtain ⟨ha, hl⟩ := List.nodup_cons.1 h
    have hfilter : (l.filter fun b => !b == a) = l := by
      rw [List.filter_eq_self]
      intro b hb
      have hne : b ≠ a := fun hba => ha (hba ▸ hb)
      simp [hne]
    rw [List.eraseDups_cons, hfilter, ih hl]

theorem filter_append_filter_not {l : List α} {p : α → Bool}
    (h : l.Pairwise fun a b => p b = true → p a = true) :
    l.filter p ++ l.filter (fun a => !p a) = l := by
  induction l with
  | nil => rfl
  | cons a l ih =>
    obtain ⟨ha, hl⟩ := List.pairwise_cons.1 h
    by_cases hp : p a = true
    · simp [hp, ih hl]
    · have hfail (b : α) (hb : b ∈ l) : p b = false := by
        cases hpb : p b with
        | false => rfl
        | true => exact absurd (ha b hb hpb) hp
      have hnone : l.filter p = [] := by
        rw [List.filter_eq_nil_iff]
        intro b hb
        simp [hfail b hb]
      have hrest : l.filter (fun a => !p a) = l := by
        rw [List.filter_eq_self]
        intro b hb
        simp [hfail b hb]
      simp [hp, hnone, hrest]

theorem eraseDups_concat [DecidableEq α] (l : List α) (a : α) :
    (l ++ [a]).eraseDups = if a ∈ l then l.eraseDups else l.eraseDups ++ [a] := by
  rw [List.eraseDups_append, List.cons_removeAll]
  by_cases ha : a ∈ l
  · simp [ha]
  · simp [ha, List.eraseDups_cons]

theorem pairwise_idxOf_eraseDups [DecidableEq α] (l : List α) :
    l.eraseDups.Pairwise fun a b => l.idxOf a < l.idxOf b := by
  induction l using List.reverseRecOn with
  | nil => simp
  | append_singleton l a ih =>
    have hkept {b : α} (hb : b ∈ l.eraseDups) : (l ++ [a]).idxOf b = l.idxOf b :=
      List.idxOf_append_of_mem (List.mem_eraseDups.1 hb)
    have hold : l.eraseDups.Pairwise fun b c => (l ++ [a]).idxOf b < (l ++ [a]).idxOf c := by
      refine ih.imp_of_mem ?_
      intro b c hb hc hlt
      rw [hkept hb, hkept hc]
      exact hlt
    rw [eraseDups_concat]
    split
    · exact hold
    · rename_i ha
      refine List.pairwise_append.2 ⟨hold, List.pairwise_singleton _ a, ?_⟩
      intro b hb c hc
      obtain rfl := List.mem_singleton.1 hc
      rw [hkept hb, List.idxOf_append_of_notMem ha]
      have hlt := List.idxOf_lt_length_of_mem (List.mem_eraseDups.1 hb)
      omega

theorem lookup_of_mem [BEq α] [LawfulBEq α] {l : List (α × β)} (h : (l.map Prod.fst).Nodup)
    {a : α} {b : β} (hab : (a, b) ∈ l) : l.lookup a = some b := by
  induction l with
  | nil => simp at hab
  | cons e l ih =>
    obtain ⟨c, d⟩ := e
    rw [List.map_cons, List.nodup_cons] at h
    rcases List.mem_cons.1 hab with he | hl
    · obtain ⟨rfl, rfl⟩ := Prod.mk.inj he
      exact List.lookup_cons_self
    · have hne : a ≠ c := by
        rintro rfl
        exact h.1 (List.mem_map.2 ⟨(a, b), hl, rfl⟩)
      rw [List.lookup_cons, beq_eq_false_iff_ne.2 hne]
      exact ih h.2 hl

theorem pairwise_snd_lt_zipIdx (l : List α) (n : Nat) :
    (l.zipIdx n).Pairwise fun e e' => e.2 < e'.2 := by
  induction l generalizing n with
  | nil => simp
  | cons a l ih =>
    rw [List.zipIdx_cons, List.pairwise_cons]
    refine ⟨fun e he => ?_, ih (n + 1)⟩
    have := List.le_snd_of_mem_zipIdx he
    simp only
    omega

theorem lookup_zipIdx_reverse [DecidableEq α] {l : List α} (h : l.Nodup) (f : Nat → β) (a : α) :
    (l.zipIdx.map fun e => (e.1, f e.2)).reverse.lookup a =
      if a ∈ l then some (f (l.idxOf a)) else none := by
  have hkeys : ((l.zipIdx.map fun e => (e.1, f e.2)).reverse.map Prod.fst) = l.reverse := by
    rw [List.map_reverse, List.map_map]
    exact congrArg List.reverse (List.zipIdx_map_fst 0 l)
  split
  · rename_i ha
    have hkey : (a, l.idxOf a) ∈ l.zipIdx := by
      have hlt := List.idxOf_lt_length_of_mem ha
      rw [List.mk_mem_zipIdx_iff_getElem?, List.getElem?_eq_getElem hlt]
      simp
    refine lookup_of_mem (hkeys ▸ List.nodup_reverse.2 h) ?_
    rw [List.mem_reverse]
    exact List.mem_map.2 ⟨_, hkey, rfl⟩
  · rename_i ha
    rw [List.lookup_eq_none_iff]
    intro e he
    have hmem : e.1 ∈ l := by
      rw [← List.mem_reverse, ← hkeys]
      exact List.mem_map_of_mem he
    rw [bne_iff_ne]
    intro hae
    exact ha (hae ▸ hmem)

theorem filter_map_eq {f : α → β} {p : β → Bool} {q : α → Bool} (h : ∀ a, p (f a) = q a)
    (l : List α) : (l.map f).filter p = (l.filter q).map f := by
  have hcomp : p ∘ f = q := funext h
  rw [List.filter_map, hcomp]

section Injection

variable [DecidableEq α] [DecidableEq β] {f : α → β}

theorem eraseDups_map (hf : f.Injective) (l : List α) :
    (l.map f).eraseDups = l.eraseDups.map f := by
  induction h : l.length using Nat.strong_induction_on generalizing l with
  | _ n ih =>
    cases l with
    | nil => rfl
    | cons a l =>
      have hkept : ((l.map f).filter fun b => !b == f a) = (l.filter fun b => !b == a).map f :=
        filter_map_eq (fun b => by simp [hf.eq_iff]) l
      have hlen := List.length_filter_le (fun b => !b == a) l
      rw [List.length_cons] at h
      rw [List.map_cons, List.eraseDups_cons, List.eraseDups_cons, List.map_cons, hkept,
        ih _ (by omega) _ rfl]

theorem idxOf_map (hf : f.Injective) (l : List α) (a : α) :
    (l.map f).idxOf (f a) = l.idxOf a := by
  induction l with
  | nil => rfl
  | cons b l ih =>
    by_cases hb : b = a
    · subst hb
      rw [List.map_cons, List.idxOf_cons_self, List.idxOf_cons_self]
    · rw [List.map_cons, List.idxOf_cons_ne _ hb, List.idxOf_cons_ne _ (hf.ne hb), ih]

theorem lookup_map {γ δ : Type} (hf : f.Injective) (g : γ → δ) (l : List (α × γ)) (a : α) :
    (l.map (Prod.map f g)).lookup (f a) = (l.lookup a).map g := by
  induction l with
  | nil => rfl
  | cons e l ih =>
    obtain ⟨b, c⟩ := e
    by_cases hb : a = b
    · subst hb
      simp
    · have hfb : f a ≠ f b := hf.ne hb
      simp only [List.map_cons, Prod.map, List.lookup_cons, beq_eq_false_iff_ne.2 hb,
        beq_eq_false_iff_ne.2 hfb]
      exact ih

end Injection

section Position

variable [DecidableEq α] {l : List α} {a b : α}

theorem idxOf_lt_idxOf_iff (h : l.Nodup) (hb : b ∈ l) :
    l.idxOf a < l.idxOf b ↔ [a, b] <+ l := by
  induction l with
  | nil => simp at hb
  | cons x l ih =>
    rw [List.nodup_cons] at h
    by_cases hax : a = x
    · subst hax
      rw [List.idxOf_cons_self, List.cons_sublist_cons, List.singleton_sublist]
      by_cases hba : b = a
      · subst hba
        simp [h.1]
      · simp [List.idxOf_cons_ne _ (Ne.symm hba), (List.mem_cons.1 hb).resolve_left hba]
    · rw [List.idxOf_cons_ne _ (Ne.symm hax), List.sublist_cons_iff]
      have hno : ¬ ∃ r, [a, b] = x :: r ∧ r <+ l := by
        rintro ⟨r, hr, -⟩
        exact hax (List.cons.inj hr).1
      rw [or_iff_left hno]
      by_cases hbx : b = x
      · subst hbx
        simp only [List.idxOf_cons_self, Nat.not_lt_zero, false_iff]
        intro hsub
        exact h.1 (hsub.subset (by simp))
      · rw [List.idxOf_cons_ne _ (Ne.symm hbx), Nat.succ_lt_succ_iff]
        exact ih h.2 ((List.mem_cons.1 hb).resolve_left hbx)

/-- Members that a relation puts in an order come in that order if and only if no member is
related to itself or to an earlier one. -/
theorem forall_idxOf_lt_iff (h : l.Nodup) {r : α → α → Prop} :
    (∀ a ∈ l, ∀ b ∈ l, r a b → l.idxOf a < l.idxOf b) ↔
      (∀ a ∈ l, ¬ r a a) ∧ l.Pairwise fun a b => ¬ r b a := by
  constructor
  · intro hlt
    refine ⟨fun a ha haa => Nat.lt_irrefl _ (hlt a ha a ha haa), ?_⟩
    rw [List.pairwise_iff_forall_sublist]
    intro a b hab hba
    have ha : a ∈ l := hab.subset (by simp)
    have hb : b ∈ l := hab.subset (by simp)
    exact Nat.lt_asymm (hlt b hb a ha hba) ((idxOf_lt_idxOf_iff h hb).2 hab)
  · intro ⟨hself, hpair⟩ a ha b hb hab
    have hne : l.idxOf a ≠ l.idxOf b := by
      intro heq
      obtain rfl := (List.idxOf_inj ha).1 heq
      exact hself a ha hab
    by_contra hge
    have hba : [b, a] <+ l := (idxOf_lt_idxOf_iff h ha).1 (by omega)
    exact List.pairwise_iff_forall_sublist.1 hpair hba hab

theorem idxOf_eq_idxOf_succ_iff (h : l.Nodup) (hb : b ∈ l) :
    l.idxOf b = l.idxOf a + 1 ↔ [a, b] <:+: l := by
  induction l with
  | nil => simp at hb
  | cons x l ih =>
    rw [List.nodup_cons] at h
    rw [List.infix_cons_iff, List.cons_prefix_cons]
    by_cases hbx : b = x
    · subst hbx
      have hnl : ¬ [a, b] <:+: l := fun hi => h.1 (hi.subset (by simp))
      have hnp : ¬ [b] <+: l := fun hp => h.1 (hp.subset (by simp))
      simp [hnl, hnp]
    · have hbl := (List.mem_cons.1 hb).resolve_left hbx
      rw [List.idxOf_cons_ne _ (Ne.symm hbx)]
      by_cases hax : a = x
      · subst hax
        have hnl : ¬ [a, b] <:+: l := fun hi => h.1 (hi.subset (by simp))
        rw [List.idxOf_cons_self, Nat.succ_eq_add_one, Nat.add_right_cancel_iff]
        cases l with
        | nil => simp at hbl
        | cons y l =>
          by_cases hby : b = y
          · subst hby
            simp
          · simp [List.idxOf_cons_ne _ (Ne.symm hby), hby, hnl]
      · rw [List.idxOf_cons_ne _ (Ne.symm hax), Nat.succ_eq_add_one, Nat.succ_eq_add_one,
          Nat.add_right_cancel_iff, ih h.2 hbl]
        simp [hax]

theorem idxOf_of_find?_eq_some (h : l.Nodup) {p : α → Bool} (ha : l.find? p = some a) :
    l.idxOf a = l.findIdx p := by
  obtain ⟨hpa, n, hn, rfl, hbefore⟩ := List.find?_eq_some_iff_getElem.1 ha
  rw [h.idxOf_getElem n hn, eq_comm, List.findIdx_eq hn]
  refine ⟨hpa, ?_⟩
  intro m hm
  simpa using hbefore m hm

private theorem idxOf_append_cons {s t : List α} (h : (s ++ a :: t).Nodup) :
    (s ++ a :: t).idxOf a = s.length := by
  have ha : a ∉ s := fun ha => (List.nodup_append.1 h).2.2 a ha a List.mem_cons_self rfl
  rw [List.idxOf_append, if_neg ha, List.idxOf_cons_self]
  omega

theorem idxOf_lt_iff_mem_left {s t : List α} (h : (s ++ a :: t).Nodup) :
    (s ++ a :: t).idxOf b < (s ++ a :: t).idxOf a ↔ b ∈ s := by
  rw [idxOf_append_cons h, List.idxOf_append]
  by_cases hb : b ∈ s
  · have hlt := List.idxOf_lt_length_of_mem hb
    rw [if_pos hb]
    exact iff_of_true hlt hb
  · rw [if_neg hb]
    exact iff_of_false (by omega) hb

theorem idxOf_lt_iff_mem_right {s t : List α} (h : (s ++ a :: t).Nodup)
    (hb : b ∈ s ++ a :: t) : (s ++ a :: t).idxOf a < (s ++ a :: t).idxOf b ↔ b ∈ t := by
  have hleft := idxOf_lt_iff_mem_left (b := b) h
  have hne : (s ++ a :: t).idxOf a = (s ++ a :: t).idxOf b ↔ a = b := List.idxOf_inj (by simp)
  obtain ⟨hs, hat, hdisjoint⟩ := List.nodup_append.1 h
  rw [List.mem_append, List.mem_cons] at hb
  constructor
  · intro hlt
    rcases hb with hb | rfl | hb
    · have := hleft.2 hb
      omega
    · omega
    · exact hb
  · intro hbt
    have hbs : b ∉ s := fun hbs => hdisjoint b hbs b (List.mem_cons_of_mem a hbt) rfl
    have hab : a ≠ b := fun hab => (List.nodup_cons.1 hat).1 (hab ▸ hbt)
    have := mt hleft.1 hbs
    have := mt hne.1 hab
    omega

end Position

theorem mem_zip_tail_iff {l : List α} {a b : α} : (a, b) ∈ l.zip l.tail ↔ [a, b] <:+: l := by
  induction l with
  | nil => simp
  | cons x l ih =>
    cases l with
    | nil => simp [List.infix_cons_iff]
    | cons y l =>
      rw [List.tail_cons, List.zip_cons_cons, List.mem_cons, List.infix_cons_iff,
        List.cons_prefix_cons, List.cons_prefix_cons, ← ih, Prod.mk.injEq]
      simp

theorem nodup_flatMap_map {γ : Type} {l : List α} {l' : List β} {f : α → β → γ} (h : l.Nodup)
    (h' : l'.Nodup)
    (hf : ∀ a ∈ l, ∀ b ∈ l', ∀ c ∈ l, ∀ d ∈ l', f a b = f c d → a = c ∧ b = d) :
    (l.flatMap fun a => l'.map (f a)).Nodup := by
  have hproduct : (l.flatMap fun a => l'.map (f a)) =
      (l ×ˢ l').map fun e : α × β => f e.1 e.2 := by
    simp only [SProd.sprod, List.product, List.map_flatMap, List.map_map, Function.comp_def]
  rw [hproduct]
  refine (h.product h').map_on ?_
  intro x hx y hy hxy
  obtain ⟨hx₁, hx₂⟩ := List.mem_product.1 hx
  obtain ⟨hy₁, hy₂⟩ := List.mem_product.1 hy
  obtain ⟨h₁, h₂⟩ := hf _ hx₁ _ hx₂ _ hy₁ _ hy₂ hxy
  exact Prod.ext h₁ h₂

section Traversal

variable {f : α → Except ε β}

theorem forall₂_filterMap {γ : Type} {r : β → γ → Prop} {f : α → Option β} {g : α → Option γ}
    {l : List α} (h : ∀ a ∈ l, Option.Rel r (f a) (g a)) :
    List.Forall₂ r (l.filterMap f) (l.filterMap g) := by
  have hl : List.Forall₂ (fun a b => a ∈ l ∧ a = b) l l :=
    List.forall₂_same.2 fun a ha => ⟨ha, rfl⟩
  refine List.rel_filterMap ?_ hl
  rintro a _ ⟨ha, rfl⟩
  exact h a ha

theorem exists_of_mem_right {r : α → β → Prop} {l : List α} {l' : List β}
    (h : List.Forall₂ r l l') {b : β} (hb : b ∈ l') : ∃ a ∈ l, r a b := by
  induction h with
  | nil => simp at hb
  | cons hab _ ih =>
    rcases List.mem_cons.1 hb with rfl | hb
    · exact ⟨_, List.mem_cons_self, hab⟩
    · obtain ⟨a, ha, hr⟩ := ih hb
      exact ⟨a, List.mem_cons_of_mem _ ha, hr⟩

theorem forall_mem_iff_of_forall₂ {r : α → β → Prop} {p : α → Prop} {q : β → Prop} {l : List α}
    {l' : List β} (h : List.Forall₂ r l l') (hpq : ∀ a ∈ l, ∀ b, r a b → (p a ↔ q b)) :
    (∀ a ∈ l, p a) ↔ ∀ b ∈ l', q b := by
  induction h with
  | nil => simp
  | cons hab _ ih =>
    have htail := ih fun a ha => hpq a (List.mem_cons_of_mem _ ha)
    rw [List.forall_mem_cons, List.forall_mem_cons, hpq _ List.mem_cons_self _ hab, htail]

theorem forall₂_iff_forall_mem {r p : α → β → Prop} {q : β → Prop} {l : List α} {l' : List β}
    (h : List.Forall₂ r l l') (hpq : ∀ a, ∀ b ∈ l', r a b → (p a b ↔ q b)) :
    List.Forall₂ p l l' ↔ ∀ b ∈ l', q b := by
  induction h with
  | nil => simp
  | cons hab _ ih =>
    have htail := ih fun a b hb => hpq a b (List.mem_cons_of_mem _ hb)
    rw [List.forall₂_cons, List.forall_mem_cons, hpq _ _ List.mem_cons_self hab, htail]

theorem mapM_eq_ok_iff {l : List α} {r : List β} :
    l.mapM f = .ok r ↔ List.Forall₂ (fun a b => f a = .ok b) l r := by
  induction l generalizing r with
  | nil =>
    rw [List.mapM_nil, List.forall₂_nil_left_iff]
    exact ⟨fun h => (Except.ok.inj h).symm, fun h => h ▸ rfl⟩
  | cons a l ih =>
    rw [List.mapM_cons, List.forall₂_cons_left_iff]
    cases ha : f a with
    | error e =>
      constructor
      · intro h
        cases h
      · rintro ⟨b, r', hb, -, -⟩
        cases hb
    | ok b =>
      cases hl : l.mapM f with
      | error e =>
        constructor
        · intro h
          cases h
        · rintro ⟨b', r', -, hr, -⟩
          rw [ih.2 hr] at hl
          cases hl
      | ok r' =>
        constructor
        · intro h
          cases h
          exact ⟨b, r', rfl, ih.1 hl, rfl⟩
        · rintro ⟨b', r'', hb, hr, rfl⟩
          cases hb
          rw [ih.2 hr] at hl
          cases hl
          rfl

theorem exists_mapM_eq_ok_of_perm {l l' : List α} {r : List β} (hl : l ~ l')
    (h : l.mapM f = .ok r) : ∃ r', l'.mapM f = .ok r' ∧ r ~ r' := by
  obtain ⟨r', hr', hperm⟩ := List.perm_comp_forall₂ hl.symm (mapM_eq_ok_iff.1 h)
  exact ⟨r', mapM_eq_ok_iff.2 hr', hperm.symm⟩

theorem bind_eq_ok {x : Except ε α} {b : β} (h : (x >>= f) = .ok b) :
    ∃ a, x = .ok a ∧ f a = .ok b := by
  cases x with
  | error e => cases h
  | ok a => exact ⟨a, rfl, h⟩

theorem bind_eq_error {x : Except ε α} {e : ε} (h : (x >>= f) = .error e) :
    x = .error e ∨ ∃ a, x = .ok a ∧ f a = .error e := by
  cases x with
  | error e' => exact .inl (congrArg Except.error (Except.error.inj h))
  | ok a => exact .inr ⟨a, rfl, h⟩

theorem toOption_eq_some_iff {x : Except ε α} {a : α} : x.toOption = some a ↔ x = .ok a := by
  cases x <;> simp [Except.toOption]

theorem map_eq_ok_iff {x : Except ε α} {g : α → β} {b : β} :
    x.map g = .ok b ↔ ∃ a, x = .ok a ∧ g a = b := by
  cases x <;> simp [Except.map]

theorem map_eq_error_iff {x : Except ε α} {g : α → β} {e : ε} :
    x.map g = .error e ↔ x = .error e := by
  cases x <;> simp [Except.map]

theorem bind_pure_eq_error_iff {x : Except ε α} {g : α → β} {e : ε} :
    (x >>= fun a => pure (g a)) = .error e ↔ x = .error e := by
  cases x <;> simp [bind, Except.bind, pure, Except.pure]

theorem mapM_cons_eq_error_iff {a : α} {l : List α} {e : ε} :
    (a :: l).mapM f = .error e ↔ f a = .error e ∨ (∃ b, f a = .ok b) ∧ l.mapM f = .error e := by
  rw [List.mapM_cons]
  constructor
  · intro h
    rcases bind_eq_error h with ha | ⟨b, hb, h⟩
    · exact .inl ha
    rcases bind_eq_error h with hl | ⟨r, -, h⟩
    · exact .inr ⟨⟨b, hb⟩, hl⟩
    · cases h
  · rintro (ha | ⟨⟨b, hb⟩, hl⟩)
    · rw [ha]
      rfl
    · rw [hb, hl]
      rfl

theorem mapM_eq_error_iff {l : List α} {e : ε} :
    l.mapM f = .error e ↔
      ∃ s a t, l = s ++ a :: t ∧ (∀ b ∈ s, ∃ c, f b = .ok c) ∧ f a = .error e := by
  induction l with
  | nil =>
    constructor
    · intro h
      cases h
    · rintro ⟨s, a, t, hl, -⟩
      simp at hl
  | cons x l ih =>
    rw [mapM_cons_eq_error_iff]
    constructor
    · rintro (hx | ⟨hx, hl⟩)
      · exact ⟨[], x, l, rfl, by simp, hx⟩
      · obtain ⟨s, a, t, rfl, hs, ha⟩ := ih.1 hl
        exact ⟨x :: s, a, t, rfl, List.forall_mem_cons.2 ⟨hx, hs⟩, ha⟩
    · rintro ⟨s, a, t, hl, hs, ha⟩
      cases s with
      | nil =>
        obtain ⟨rfl, rfl⟩ := List.cons.inj hl
        exact .inl ha
      | cons y s =>
        obtain ⟨rfl, rfl⟩ := List.cons.inj hl
        obtain ⟨hx, hs⟩ := List.forall_mem_cons.1 hs
        exact .inr ⟨hx, ih.2 ⟨s, a, t, rfl, hs, ha⟩⟩

theorem exists_error_of_mapM_eq_error {l : List α} {e : ε} (h : l.mapM f = .error e) :
    ∃ a ∈ l, f a = .error e := by
  obtain ⟨s, a, t, rfl, -, ha⟩ := mapM_eq_error_iff.1 h
  exact ⟨a, by simp, ha⟩

theorem exists_mapM_eq_error_iff {l : List α} :
    (∃ e, l.mapM f = .error e) ↔ ∃ a ∈ l, ∃ e, f a = .error e := by
  constructor
  · intro ⟨e, he⟩
    obtain ⟨a, ha, hae⟩ := exists_error_of_mapM_eq_error he
    exact ⟨a, ha, e, hae⟩
  · intro ⟨a, ha, e, hae⟩
    cases hall : l.mapM f with
    | error e' => exact ⟨e', rfl⟩
    | ok r =>
      obtain ⟨b, -, hb⟩ := exists_of_mem_right (mapM_eq_ok_iff.1 hall).flip ha
      have hok : f a = .ok b := hb
      rw [hae] at hok
      cases hok

end Traversal

section Calls

variable {σ : Type} {next : σ → Option α × σ} {ahead : σ → List α}

/-- A call gives the first of what is ahead of a state, if anything, and leaves the rest. -/
def Draws (next : σ → Option α × σ) (ahead : σ → List α) : Prop :=
  ∀ s, (next s).1 = (ahead s).head? ∧ ahead (next s).2 = (ahead s).tail

/-- The call after `n` calls answers the value at place `n`, and nothing once all are passed. -/
theorem Draws.iterate (h : Draws next ahead) (n : Nat) (s : σ) :
    (next ((fun t => (next t).2)^[n] s)).1 = (ahead s)[n]? := by
  induction n generalizing s with
  | zero => rw [Function.iterate_zero_apply, (h s).1, List.head?_eq_getElem?]
  | succ n ih => rw [Function.iterate_succ_apply, ih, (h s).2, List.getElem?_tail]

theorem Draws.ahead_of_none (h : Draws next ahead) {s later : σ} (hs : next s = (none, later)) :
    ahead s = [] := by
  have hhead := (h s).1
  rw [hs] at hhead
  exact List.head?_eq_none_iff.1 hhead.symm

theorem Draws.ahead_of_some (h : Draws next ahead) {s later : σ} {a : α}
    (hs : next s = (some a, later)) : ahead s = a :: ahead later := by
  obtain ⟨hhead, htail⟩ := h s
  rw [hs] at hhead htail
  rw [htail]
  exact (List.cons_head?_tail hhead.symm).symm

end Calls

end TreeQuery.Sequence

namespace TreeQuery.Enumeration

variable {α : Type}

theorem isEmpty_iff (e : Enumeration α) : e.isEmpty = true ↔ e.toList = [] := by
  cases e <;> simp [isEmpty]

theorem draws_toList : Sequence.Draws (next (α := α)) toList := by
  intro e
  cases e <;> exact ⟨rfl, rfl⟩

theorem exists_next_of_ne_nil {e : Enumeration α} (h : e.toList ≠ []) :
    ∃ a, e.next.1 = some a := by
  cases e with
  | nil => exact absurd rfl h
  | cons a rest => exact ⟨a, rfl⟩

end TreeQuery.Enumeration

import Mathlib.Data.List.Forall2
import Mathlib.Data.List.Perm.Lattice
import TreeQuery.Arrangement.Candidate
import TreeQuery.Proofs.Arrangement.BlockOrder
import TreeQuery.Proofs.Arrangement.Interleaving

/-!
Weaving the queues of several components. A sequence of blocks is woven from exactly one
interleaving and one queue per component: the owners of its blocks, and for each component the
blocks that it owns. The woven sequences are therefore the arrangements of all blocks.
-/

set_option autoImplicit false
set_option relaxedAutoImplicit false

namespace TreeQuery.Arrangement

open scoped List

def queueOf {α : Type} (queues : List (List α)) (c : Nat) : List α := queues[c]?.getD []

/-- Every block of a queue is owned by the component of the queue. -/
def Owns {α : Type} (owner : α → Nat) (queues : List (List α)) : Prop :=
  ∀ c, ∀ x ∈ queueOf queues c, owner x = c

section Queue

variable {α : Type} {queues : List (List α)}

private theorem queueOf_set {c : Nat} (hc : c < queues.length) (q : List α) (d : Nat) :
    queueOf (queues.set c q) d = if d = c then q else queueOf queues d := by
  rw [queueOf, List.getElem?_set]
  by_cases hd : c = d
  · subst hd
    simp [hc]
  · rw [if_neg hd, if_neg (Ne.symm hd), queueOf]

private theorem exists_of_queueOf_eq_cons {c : Nat} {x : α} {q : List α}
    (h : queueOf queues c = x :: q) : c < queues.length ∧ queues[c]? = some (x :: q) := by
  rw [queueOf] at h
  cases hq : queues[c]? with
  | none => simp [hq] at h
  | some r =>
    rw [hq, Option.getD_some] at h
    exact ⟨(List.getElem?_eq_some_iff.1 hq).1, h ▸ rfl⟩

private theorem mem_flatten_iff_queueOf {x : α} :
    x ∈ queues.flatten ↔ ∃ c, x ∈ queueOf queues c := by
  rw [List.mem_flatten]
  constructor
  · rintro ⟨q, hq, hx⟩
    obtain ⟨c, hc, rfl⟩ := List.getElem_of_mem hq
    exact ⟨c, by simpa [queueOf, hc] using hx⟩
  · rintro ⟨c, hx⟩
    cases hq : queues[c]? with
    | none => simp [queueOf, hq] at hx
    | some q =>
      rw [queueOf, hq] at hx
      exact ⟨q, List.mem_of_getElem? hq, hx⟩

theorem exists_owns [DecidableEq α] (h : queues.flatten.Nodup) : ∃ owner, Owns owner queues := by
  induction queues with
  | nil => exact ⟨fun _ => 0, by simp [Owns, queueOf]⟩
  | cons q queues ih =>
    rw [List.flatten_cons, List.nodup_append] at h
    obtain ⟨owner, howns⟩ := ih h.2.1
    refine ⟨fun x => if x ∈ q then 0 else owner x + 1, ?_⟩
    intro c x hx
    cases c with
    | zero =>
      have hq : x ∈ q := hx
      simp [hq]
    | succ c =>
      have hxc : x ∈ queueOf queues c := hx
      have hnot : x ∉ q := fun hq => h.2.2 x hq x (mem_flatten_iff_queueOf.2 ⟨c, hxc⟩) rfl
      simp [hnot, howns c x hxc]

theorem eq_of_queueOf_eq {queues' : List (List α)} (hlen : queues.length = queues'.length)
    (h : ∀ c, queueOf queues c = queueOf queues' c) : queues = queues' := by
  apply List.ext_getElem hlen
  intro c h₁ h₂
  have := h c
  simpa [queueOf, h₁, h₂] using this

theorem pairwise_iff_filter_owner {r : α → α → Prop} (owner : α → Nat) {bs : List α}
    (hr : ∀ x ∈ bs, ∀ y ∈ bs, owner x ≠ owner y → r x y) :
    bs.Pairwise r ↔ ∀ c, (bs.filter fun x => owner x = c).Pairwise r := by
  refine ⟨fun h c => h.sublist List.filter_sublist, fun h => ?_⟩
  rw [List.pairwise_iff_forall_sublist]
  intro x y hxy
  by_cases ho : owner x = owner y
  · refine List.pairwise_iff_forall_sublist.1 (h (owner y)) ?_
    have hsub := hxy.filter fun x => decide (owner x = owner y)
    simpa [ho] using hsub
  · exact hr x (hxy.subset (by simp)) y (hxy.subset (by simp)) ho

end Queue

section Weaving

variable {owner : List Identifier → Nat} {queues : List (List (List Identifier))} {w : List Nat}

private theorem weave_cons {c : Nat} {x : List Identifier} {q : List (List Identifier)}
    (h : queueOf queues c = x :: q) (w : List Nat) :
    weave (c :: w) queues = x :: weave w (queues.set c q) := by
  rw [weave, (exists_of_queueOf_eq_cons h).2]

private theorem Owns.set (h : Owns owner queues) {c : Nat} {x : List Identifier}
    {q : List (List Identifier)} (hq : queueOf queues c = x :: q) :
    Owns owner (queues.set c q) := by
  intro d y hy
  rw [queueOf_set (exists_of_queueOf_eq_cons hq).1] at hy
  split at hy
  · rename_i hd
    exact hd ▸ h c y (hq ▸ List.mem_cons_of_mem x hy)
  · exact h d y hy

private theorem count_eq_length_set {c : Nat} {x : List Identifier} {q : List (List Identifier)}
    (hq : queueOf queues c = x :: q) (hw : ∀ d, (c :: w).count d = (queueOf queues d).length)
    (d : Nat) : w.count d = (queueOf (queues.set c q) d).length := by
  have hd := hw d
  rw [queueOf_set (exists_of_queueOf_eq_cons hq).1]
  by_cases hdc : d = c
  · subst hdc
    rw [List.count_cons_self, hq, List.length_cons] at hd
    rw [if_pos rfl]
    omega
  · rw [List.count_cons_of_ne (Ne.symm hdc)] at hd
    rw [if_neg hdc, hd]

/-- Weaving keeps the interleaving as the owners of the blocks and each queue as the blocks of its
owner. -/
theorem weave_spec (howns : Owns owner queues) (hw : ∀ c, w.count c = (queueOf queues c).length) :
    (weave w queues).map owner = w ∧
      ∀ c, (weave w queues).filter (fun x => owner x = c) = queueOf queues c := by
  induction w generalizing queues with
  | nil =>
    refine ⟨rfl, fun c => ?_⟩
    have hlen : (queueOf queues c).length = 0 := (hw c).symm
    rw [List.eq_nil_of_length_eq_zero hlen]
    rfl
  | cons c w ih =>
    have hpos : 0 < (queueOf queues c).length := by
      rw [← hw c, List.count_cons_self]
      omega
    obtain ⟨x, q, hq⟩ := List.exists_cons_of_length_pos hpos
    have hx : owner x = c := howns c x (hq ▸ List.mem_cons_self)
    obtain ⟨hmap, hfilter⟩ := ih (howns.set hq) (count_eq_length_set hq hw)
    rw [weave_cons hq]
    refine ⟨by rw [List.map_cons, hx, hmap], fun d => ?_⟩
    have hd := hfilter d
    rw [queueOf_set (exists_of_queueOf_eq_cons hq).1] at hd
    by_cases hdc : d = c
    · subst hdc
      rw [if_pos rfl] at hd
      rw [List.filter_cons_of_pos (by simpa using hx), hd, hq]
    · rw [if_neg hdc] at hd
      have hne : owner x ≠ d := fun h => hdc (h.symm.trans hx)
      rw [List.filter_cons_of_neg (by simpa using hne), hd]

private theorem weave_map_owner {bs : List (List Identifier)}
    (h : ∀ c, queueOf queues c = bs.filter fun x => owner x = c) :
    weave (bs.map owner) queues = bs := by
  induction bs generalizing queues with
  | nil => rfl
  | cons x bs ih =>
    have hq : queueOf queues (owner x) = x :: bs.filter fun y => owner y = owner x := by
      rw [h, List.filter_cons_of_pos (by simp)]
    rw [List.map_cons, weave_cons hq, ih]
    intro d
    rw [queueOf_set (exists_of_queueOf_eq_cons hq).1]
    by_cases hd : d = owner x
    · subst hd
      rw [if_pos rfl]
    · rw [if_neg hd, h, List.filter_cons_of_neg (by simpa using Ne.symm hd)]

end Weaving

section Owners

theorem count_blockOwners_aux (sizes : List Nat) (n c : Nat) :
    ((sizes.zipIdx n).flatMap fun e => List.replicate e.1 e.2).count c =
      if n ≤ c then sizes[c - n]?.getD 0 else 0 := by
  induction sizes generalizing n with
  | nil => simp
  | cons k sizes ih =>
    rw [List.zipIdx_cons, List.flatMap_cons, List.count_append, ih, List.count_replicate]
    rcases Nat.lt_trichotomy n c with hlt | rfl | hgt
    · have hsub : c - n = (c - (n + 1)) + 1 := by omega
      have hne : ¬ n = c := by omega
      simp [hne, hsub, Nat.succ_le_of_lt hlt, hlt.le]
    · simp
    · have hne : ¬ n = c := by omega
      have hle : ¬ n ≤ c := by omega
      have hle' : ¬ n + 1 ≤ c := by omega
      simp [hne, hle, hle']

theorem perm_blockOwners_iff_count {sizes w : List Nat} :
    w ~ blockOwners sizes ↔ ∀ c, w.count c = sizes[c]?.getD 0 := by
  rw [List.perm_iff_count]
  refine forall_congr' fun c => ?_
  rw [blockOwners, count_blockOwners_aux, if_pos (Nat.zero_le c), Nat.sub_zero]

private theorem perm_blockOwners_iff {α : Type} {queues : List (List α)} {w : List Nat} :
    w ~ blockOwners (queues.map List.length) ↔ ∀ c, w.count c = (queueOf queues c).length := by
  rw [perm_blockOwners_iff_count]
  refine forall_congr' fun c => ?_
  rw [List.getElem?_map, queueOf]
  cases queues[c]? <;> simp

end Owners

section Arrangements

variable {owner : List Identifier → Nat} {blocks queues : List (List (List Identifier))}
  {w : List Nat} {bs : List (List Identifier)}

private theorem queueOf_perm (h : List.Forall₂ (· ~ ·) queues blocks) (c : Nat) :
    queueOf queues c ~ queueOf blocks c := by
  induction h generalizing c with
  | nil => rfl
  | cons h _ ih =>
    cases c with
    | zero => exact h
    | succ c => exact ih c

private theorem owns_of_perm (howns : Owns owner blocks) (h : List.Forall₂ (· ~ ·) queues blocks) :
    Owns owner queues := by
  intro c x hx
  exact howns c x ((queueOf_perm h c).subset hx)

theorem mem_flatten_iff_owner (howns : Owns owner blocks) {x : List Identifier} :
    x ∈ blocks.flatten ↔ x ∈ queueOf blocks (owner x) := by
  rw [mem_flatten_iff_queueOf]
  constructor
  · intro ⟨c, hx⟩
    exact (howns c x hx).symm ▸ hx
  · intro hx
    exact ⟨_, hx⟩

private theorem nodup_queueOf (h : blocks.flatten.Nodup) (c : Nat) : (queueOf blocks c).Nodup := by
  rw [queueOf]
  cases hq : blocks[c]? with
  | none => exact List.nodup_nil
  | some q => exact (List.nodup_flatten.1 h).1 q (List.mem_of_getElem? hq)

theorem weave_perm (hnodup : blocks.flatten.Nodup) (howns : Owns owner blocks)
    (hq : List.Forall₂ (· ~ ·) queues blocks)
    (hw : w ~ blockOwners (blocks.map List.length)) :
    weave w queues ~ blocks.flatten ∧ (weave w queues).map owner = w ∧
      ∀ c, (weave w queues).filter (fun x => owner x = c) = queueOf queues c := by
  have hcount : ∀ c, w.count c = (queueOf queues c).length := by
    intro c
    rw [(queueOf_perm hq c).length_eq]
    exact perm_blockOwners_iff.1 hw c
  obtain ⟨hmap, hfilter⟩ := weave_spec (owns_of_perm howns hq) hcount
  refine ⟨?_, hmap, hfilter⟩
  have hmem : ∀ x, x ∈ weave w queues ↔ x ∈ queueOf blocks (owner x) := by
    intro x
    rw [← (queueOf_perm hq (owner x)).mem_iff, ← hfilter (owner x)]
    simp [List.mem_filter]
  have hwnodup : (weave w queues).Nodup := by
    rw [List.Nodup, pairwise_iff_filter_owner owner]
    · intro c
      rw [hfilter c]
      exact (queueOf_perm hq c).nodup_iff.2 (nodup_queueOf hnodup c)
    · intro x _ y _ hne hxy
      exact hne (congrArg owner hxy)
  rw [List.perm_ext_iff_of_nodup hwnodup hnodup]
  intro x
  rw [hmem, mem_flatten_iff_owner howns]

theorem exists_weave_eq (hnodup : blocks.flatten.Nodup) (howns : Owns owner blocks)
    (h : bs ~ blocks.flatten) :
    ∃ queues w, List.Forall₂ (· ~ ·) queues blocks ∧ w ~ blockOwners (blocks.map List.length) ∧
      weave w queues = bs ∧ ∀ c, queueOf queues c = bs.filter fun x => owner x = c := by
  have hperm : ∀ c, bs.filter (fun x => owner x = c) ~ queueOf blocks c := by
    intro c
    have hbs : (bs.filter fun x => owner x = c).Nodup := (h.nodup_iff.2 hnodup).filter _
    rw [List.perm_ext_iff_of_nodup hbs (nodup_queueOf hnodup c)]
    intro x
    rw [List.mem_filter, decide_eq_true_eq, h.mem_iff, mem_flatten_iff_owner howns]
    constructor
    · intro ⟨hx, hc⟩
      exact hc ▸ hx
    · intro hx
      have hc := howns c x hx
      exact ⟨hc.symm ▸ hx, hc⟩
  let queues := (List.range blocks.length).map fun c => bs.filter fun x => owner x = c
  have hqueue : ∀ c, queueOf queues c = bs.filter fun x => owner x = c := by
    intro c
    by_cases hc : c < blocks.length
    · simp [queues, queueOf, hc]
    · have hempty : queueOf blocks c = [] := by simp [queueOf, Nat.not_lt.1 hc]
      have hfilter := hperm c
      rw [hempty] at hfilter
      rw [hfilter.eq_nil]
      simp [queues, queueOf, Nat.not_lt.1 hc]
  refine ⟨queues, bs.map owner, ?_, ?_, weave_map_owner hqueue, hqueue⟩
  · rw [List.forall₂_iff_get]
    refine ⟨by simp [queues], ?_⟩
    intro c h₁ h₂
    have hc := hperm c
    simpa [queues, queueOf, h₂] using hc
  · rw [perm_blockOwners_iff]
    intro c
    rw [← (hperm c).length_eq, List.count, List.countP_map, List.countP_eq_length_filter]
    congr 1

end Arrangements

end TreeQuery.Arrangement

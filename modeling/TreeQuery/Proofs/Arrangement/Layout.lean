import Mathlib.Data.List.Chain
import TreeQuery.Arrangement.Layout
import TreeQuery.Proofs.Arrangement.Block
import TreeQuery.Proofs.Order.Precedence

/-!
The blocks of a component. The maximal chains of immediate successors hold every token exactly
once, two tokens being neighbours in a chain if and only if the second is the successor of the
first. The blocks made of them present the constraints of the component, and what is required of
their order is what chains of constraints ask for.
-/

set_option autoImplicit false
set_option relaxedAutoImplicit false

namespace TreeQuery.Arrangement

open scoped List
open OrderConstraint (Chain Adjoins)
open TreeQuery.Order (Component Table)

variable {c : Component}

section Walk

private theorem chain_eq_cons (n a : Nat) : ∃ l, chain c n a = a :: l := by
  cases n with
  | zero => exact ⟨[], rfl⟩
  | succ n => exact ⟨_, rfl⟩

private theorem mem_chain_self (n a : Nat) : a ∈ chain c n a := by
  obtain ⟨l, hl⟩ := chain_eq_cons (c := c) n a
  rw [hl]
  exact List.mem_cons_self

private theorem isChain_chain (n a : Nat) :
    (chain c n a).IsChain fun x y => c.successor? x = some y := by
  induction n generalizing a with
  | zero => simp [chain]
  | succ n ih =>
    rw [chain]
    cases hs : c.successor? a with
    | none => simp
    | some b =>
      obtain ⟨l, hl⟩ := chain_eq_cons (c := c) n b
      have htail := ih b
      simp only [hl] at htail ⊢
      exact List.isChain_cons_cons.2 ⟨hs, htail⟩

private theorem pairwise_chain (hc : c.Faithful) (n a : Nat) :
    (chain c n a).Pairwise fun x y => c.precedes x y = true := by
  have : Trans (fun x y => c.precedes x y = true) (fun x y => c.precedes x y = true)
      (fun x y => c.precedes x y = true) := ⟨hc.precedes_trans⟩
  exact ((isChain_chain n a).imp fun _ _ h => hc.precedes_of_successor? h).pairwise

private theorem nodup_chain (hc : c.Faithful) (n a : Nat) : (chain c n a).Nodup := by
  refine (pairwise_chain hc n a).imp ?_
  rintro x y hxy rfl
  exact hc.not_precedes_self x hxy

private theorem lt_of_mem_chain (hc : c.Faithful) {n a x : Nat} (ha : a < c.size)
    (hx : x ∈ chain c n a) : x < c.size := by
  induction n generalizing a with
  | zero =>
    rw [chain, List.mem_singleton] at hx
    exact hx ▸ ha
  | succ n ih =>
    rw [chain] at hx
    rcases List.mem_cons.1 hx with rfl | hx
    · exact ha
    · cases hs : c.successor? a with
      | none => simp [hs] at hx
      | some b =>
        rw [hs] at hx
        exact ih (hc.lt_of_successor? hs).2 hx

theorem length_chain_le (hc : c.Faithful) {n a : Nat} (ha : a < c.size) :
    (chain c n a).length ≤ c.size := by
  have hsub : chain c n a ⊆ List.range c.size := fun x hx =>
    List.mem_range.2 (lt_of_mem_chain hc ha hx)
  have := ((nodup_chain hc n a).subperm hsub).length_le
  rwa [List.length_range] at this

private theorem infix_chain_of_successor? {n a x y : Nat} (hlen : (chain c n a).length ≤ n)
    (hx : x ∈ chain c n a) (hs : c.successor? x = some y) : [x, y] <:+: chain c n a := by
  induction n generalizing a with
  | zero => simp [chain] at hlen
  | succ n ih =>
    rw [chain] at hlen hx ⊢
    rcases List.mem_cons.1 hx with rfl | hx
    · obtain ⟨l, hl⟩ := chain_eq_cons (c := c) n y
      simp only [hs, hl]
      exact ⟨[], l, by simp⟩
    · cases ha : c.successor? a with
      | none => simp [ha] at hx
      | some b =>
        simp only [ha, List.length_cons] at hlen hx ⊢
        exact List.infix_cons (ih (by omega) hx)

private theorem eq_or_exists_of_mem_chain {n a x : Nat} (hx : x ∈ chain c n a) :
    x = a ∨ ∃ y ∈ chain c n a, c.successor? y = some x := by
  induction n generalizing a with
  | zero => exact .inl (List.mem_singleton.1 hx)
  | succ n ih =>
    rw [chain] at hx ⊢
    rcases List.mem_cons.1 hx with rfl | hx
    · exact .inl rfl
    · cases ha : c.successor? a with
      | none => simp [ha] at hx
      | some b =>
        simp only [ha] at hx ⊢
        rcases ih hx with rfl | ⟨y, hy, hs⟩
        · exact .inr ⟨a, List.mem_cons_self, ha⟩
        · exact .inr ⟨y, List.mem_cons_of_mem a hy, hs⟩

end Walk

section Chains

private theorem mem_chains_iff {l : List Nat} :
    l ∈ chains c ↔ ∃ a < c.size, (∀ b, c.successor? b ≠ some a) ∧ chain c c.size a = l := by
  simp only [chains, List.mem_map, List.mem_filter, List.mem_range, Bool.not_eq_true',
    ← Bool.not_eq_true, Component.hasPredecessor_iff, not_exists, ne_eq, and_assoc]

private theorem exists_mem_chains (hc : c.Faithful) {b : Nat} (hb : b < c.size) :
    ∃ l ∈ chains c, b ∈ l := by
  refine hc.precedes_induction (motive := fun b => b < c.size → ∃ l ∈ chains c, b ∈ l) ?_ b hb
  intro b ih hb
  by_cases hpred : ∃ a, c.successor? a = some b
  · obtain ⟨a, hab⟩ := hpred
    have ha := (hc.lt_of_successor? hab).1
    obtain ⟨l, hl, hal⟩ := ih a (hc.precedes_of_successor? hab) ha
    obtain ⟨h, hh, -, rfl⟩ := mem_chains_iff.1 hl
    have hnext := infix_chain_of_successor? (length_chain_le hc hh) hal hab
    exact ⟨_, hl, hnext.subset (by simp)⟩
  · exact ⟨chain c c.size b, mem_chains_iff.2 ⟨b, hb, not_exists.1 hpred, rfl⟩,
      mem_chain_self c.size b⟩

private theorem head_eq_of_mem_chain (hc : c.Faithful) {n a b x : Nat}
    (ha : ∀ y, c.successor? y ≠ some a) (hb : ∀ y, c.successor? y ≠ some b)
    (hxa : x ∈ chain c n a) (hxb : x ∈ chain c n b) : a = b := by
  refine hc.precedes_induction
    (motive := fun x => x ∈ chain c n a → x ∈ chain c n b → a = b) ?_ x hxa hxb
  intro x ih hxa hxb
  rcases eq_or_exists_of_mem_chain hxa with rfl | ⟨y, hya, hy⟩
  · rcases eq_or_exists_of_mem_chain hxb with rfl | ⟨z, -, hz⟩
    · rfl
    · exact absurd hz (ha z)
  · rcases eq_or_exists_of_mem_chain hxb with rfl | ⟨z, hzb, hz⟩
    · exact absurd hy (hb y)
    · obtain rfl := hc.eq_of_successor?_eq hy hz
      exact ih y (hc.precedes_of_successor? hy) hya hzb

private theorem nodup_flatten_chains (hc : c.Faithful) : (chains c).flatten.Nodup := by
  rw [List.nodup_flatten]
  constructor
  · intro l hl
    obtain ⟨a, -, -, rfl⟩ := mem_chains_iff.1 hl
    exact nodup_chain hc _ a
  · rw [chains, List.pairwise_map, List.pairwise_filter]
    refine List.nodup_range.imp ?_
    intro a b hne ha hb x hxa hxb
    simp only [Bool.not_eq_true', ← Bool.not_eq_true, Component.hasPredecessor_iff,
      not_exists] at ha hb
    exact hne (head_eq_of_mem_chain hc ha hb hxa hxb)

private theorem mem_flatten_chains (hc : c.Faithful) {a : Nat} :
    a ∈ (chains c).flatten ↔ a < c.size := by
  rw [List.mem_flatten]
  constructor
  · rintro ⟨l, hl, hal⟩
    obtain ⟨h, hh, -, rfl⟩ := mem_chains_iff.1 hl
    exact lt_of_mem_chain hc hh hal
  · exact exists_mem_chains hc

private theorem exists_infix_chains_iff (hc : c.Faithful) {a b : Nat} :
    (∃ l ∈ chains c, [a, b] <:+: l) ↔ c.successor? a = some b := by
  constructor
  · rintro ⟨l, hl, hab⟩
    obtain ⟨h, -, -, rfl⟩ := mem_chains_iff.1 hl
    have hpair := List.IsChain.infix (isChain_chain c.size h) hab
    exact (List.isChain_cons_cons.1 hpair).1
  · intro hab
    obtain ⟨l, hl, hal⟩ := exists_mem_chains hc (hc.lt_of_successor? hab).1
    obtain ⟨h, hh, -, rfl⟩ := mem_chains_iff.1 hl
    exact ⟨_, hl, infix_chain_of_successor? (length_chain_le hc hh) hal hab⟩

end Chains

section Blocks

def tokensAt (c : Component) (l : List Nat) : List Identifier := l.filterMap fun a => c.tokens[a]?

private theorem map_idxOf_tokensAt (hc : c.Faithful) {l : List Nat} (hl : l ∈ chains c) :
    (tokensAt c l).map (fun i => c.tokens.idxOf i) = l := by
  have hlt : ∀ a ∈ l, a < c.tokens.length := fun a ha =>
    (mem_flatten_chains hc).1 (List.mem_flatten.2 ⟨l, hl, ha⟩)
  clear hl
  induction l with
  | nil => rfl
  | cons a l ih =>
    have ha := hlt a List.mem_cons_self
    have hidx : c.tokens.idxOf c.tokens[a] = a := hc.nodup.idxOf_getElem a ha
    have hrest := ih fun b hb => hlt b (List.mem_cons_of_mem a hb)
    rw [tokensAt, List.filterMap_cons, List.getElem?_eq_getElem ha]
    simp only [List.map_cons, hidx]
    exact congrArg (a :: ·) hrest

private theorem mem_tokensAt {l : List Nat} {i : Identifier} :
    i ∈ tokensAt c l ↔ ∃ a ∈ l, c.tokens[a]? = some i := by
  simp [tokensAt]

private theorem blocks_ofComponent :
    (Layout.ofComponent c).blocks = (chains c).map (tokensAt c) := rfl

theorem flatten_blocks_perm (hc : c.Faithful) :
    (Layout.ofComponent c).blocks.flatten ~ c.tokens := by
  rw [blocks_ofComponent]
  have hflat : ((chains c).map (tokensAt c)).flatten = tokensAt c (chains c).flatten := by
    rw [tokensAt, List.filterMap_flatten]
    rfl
  rw [hflat]
  have hnodup : (tokensAt c (chains c).flatten).Nodup := by
    refine (nodup_flatten_chains hc).filterMap ?_
    intro a a' i ha ha'
    have hpos := (Order.getElem?_eq_some_iff_idxOf hc.nodup).1 ha
    exact hpos.2.symm.trans ((Order.getElem?_eq_some_iff_idxOf hc.nodup).1 ha').2
  rw [List.perm_ext_iff_of_nodup hnodup hc.nodup]
  intro i
  rw [mem_tokensAt]
  constructor
  · rintro ⟨a, -, hi⟩
    exact List.mem_of_getElem? hi
  · intro hi
    have hpos := List.idxOf_lt_length_of_mem hi
    exact ⟨c.tokens.idxOf i, (mem_flatten_chains hc).2 hpos,
      (Order.getElem?_eq_some_iff_idxOf hc.nodup).2 ⟨hi, rfl⟩⟩

private theorem adjoins_iff_exists_infix (hc : c.Faithful) (i j : Identifier) :
    Adjoins c.constraints i j ↔ ∃ x ∈ (Layout.ofComponent c).blocks, [i, j] <:+: x := by
  constructor
  · intro hij
    have hi := (Order.getElem?_eq_some_iff_idxOf hc.nodup).2 ⟨(hc.closed _ hij).1, rfl⟩
    have hj := (Order.getElem?_eq_some_iff_idxOf hc.nodup).2 ⟨(hc.closed _ hij).2, rfl⟩
    have hs := (hc.successor?_iff _ _).2 ⟨i, j, hi, hj, hij⟩
    obtain ⟨l, hl, hinf⟩ := (exists_infix_chains_iff hc).2 hs
    refine ⟨tokensAt c l, List.mem_map.2 ⟨l, hl, rfl⟩, ?_⟩
    have hmapped := hinf.filterMap fun a => c.tokens[a]?
    have hpair : [c.tokens.idxOf i, c.tokens.idxOf j].filterMap (fun a => c.tokens[a]?) =
        [i, j] := by
      rw [List.filterMap_cons_some hi, List.filterMap_cons_some hj, List.filterMap_nil]
    rwa [hpair] at hmapped
  · rintro ⟨x, hx, hij⟩
    rw [blocks_ofComponent] at hx
    obtain ⟨l, hl, rfl⟩ := List.mem_map.1 hx
    have hmapped := hij.map fun i => c.tokens.idxOf i
    rw [map_idxOf_tokensAt hc hl] at hmapped
    have hs := (exists_infix_chains_iff hc).1 ⟨l, hl, hmapped⟩
    obtain ⟨i', j', hi', hj', hadj⟩ := (hc.successor?_iff _ _).1 hs
    have hmem {k : Identifier} (hk : k ∈ [i, j]) : c.tokens[c.tokens.idxOf k]? = some k := by
      obtain ⟨a, -, ha⟩ := mem_tokensAt.1 (hij.subset hk)
      exact (Order.getElem?_eq_some_iff_idxOf hc.nodup).2 ⟨List.mem_of_getElem? ha, rfl⟩
    obtain rfl := Option.some.inj ((hmem (by simp)).symm.trans hi')
    obtain rfl := Option.some.inj ((hmem (by simp)).symm.trans hj')
    exact hadj

theorem presents_ofComponent (hc : c.Faithful) :
    Presents (Layout.ofComponent c).blocks c.constraints where
  nodup := (flatten_blocks_perm hc).nodup_iff.2 hc.nodup
  nonempty := by
    intro x hx
    rw [blocks_ofComponent] at hx
    obtain ⟨l, hl, rfl⟩ := List.mem_map.1 hx
    obtain ⟨h, hh, -, rfl⟩ := mem_chains_iff.1 hl
    have hfirst : c.tokens[h]? = some c.tokens[h] := List.getElem?_eq_getElem hh
    exact List.ne_nil_of_mem (mem_tokensAt.2 ⟨h, mem_chain_self c.size h, hfirst⟩)
  closed := by
    intro k hk
    rw [(flatten_blocks_perm hc).mem_iff, (flatten_blocks_perm hc).mem_iff]
    exact hc.closed k hk
  adjoins_iff := adjoins_iff_exists_infix hc
  acyclic := hc.acyclic

theorem holds_required_iff (hc : c.Faithful) {x y : Nat} :
    (Layout.ofComponent c).required.holds x y = true ↔
      x ≠ y ∧ ∃ u v, (Layout.ofComponent c).blocks[x]? = some u ∧
        (Layout.ofComponent c).blocks[y]? = some v ∧ Leads c.constraints u v := by
  have hleads (l m : List Nat) : (∃ a ∈ l, ∃ b ∈ m, c.precedes a b = true) ↔
      Leads c.constraints (tokensAt c l) (tokensAt c m) := by
    simp only [Leads, mem_tokensAt, hc.precedes_iff]
    constructor
    · rintro ⟨a, ha, b, hb, i, j, hi, hj, hij⟩
      exact ⟨i, ⟨a, ha, hi⟩, j, ⟨b, hb, hj⟩, hij⟩
    · rintro ⟨i, ⟨a, ha, hi⟩, j, ⟨b, hb, hj⟩, hij⟩
      exact ⟨a, ha, b, hb, i, j, hi, hj, hij⟩
  have hreq : (Layout.ofComponent c).required.holds x y = true ↔
      x < (chains c).length ∧ y < (chains c).length ∧ x ≠ y ∧
        ∃ a ∈ (chains c)[x]?.getD [], ∃ b ∈ (chains c)[y]?.getD [], c.precedes a b = true := by
    simp only [Layout.ofComponent, requirement, Table.holds_tabulate, Bool.and_eq_true,
      bne_iff_ne, List.any_eq_true, Array.getD_eq_getD_getElem?, List.getElem?_toArray]
  rw [hreq, blocks_ofComponent, List.getElem?_map, List.getElem?_map]
  constructor
  · rintro ⟨hx, hy, hne, hab⟩
    rw [List.getElem?_eq_getElem hx, List.getElem?_eq_getElem hy] at hab ⊢
    exact ⟨hne, _, _, rfl, rfl, (hleads _ _).1 hab⟩
  · rintro ⟨hne, u, v, hu, hv, huv⟩
    obtain ⟨l, hl, rfl⟩ := Option.map_eq_some_iff.1 hu
    obtain ⟨m, hm, rfl⟩ := Option.map_eq_some_iff.1 hv
    obtain ⟨hx, rfl⟩ := List.getElem?_eq_some_iff.1 hl
    obtain ⟨hy, rfl⟩ := List.getElem?_eq_some_iff.1 hm
    refine ⟨hx, hy, hne, ?_⟩
    rw [hl, hm]
    exact (hleads _ _).2 huv

end Blocks

end TreeQuery.Arrangement

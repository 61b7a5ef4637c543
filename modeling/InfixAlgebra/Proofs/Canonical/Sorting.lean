import Mathlib
import InfixAlgebra.Expr.Term

namespace InfixAlgebra

namespace SortKey

theorem le_of_not_le {k l : SortKey} (h : ¬le k l) : le l k := by
  simp only [le, Bool.or_eq_true, Bool.and_eq_true, beq_iff_eq, decide_eq_true_eq,
    Bool.not_eq_true', decide_eq_false_iff_not, not_or, not_and, not_not] at h ⊢
  cases Nat.lt_or_ge l.rank k.rank with
  | inl hlt => exact .inl hlt
  | inr hge =>
    have heq : k.rank = l.rank := Nat.le_antisymm hge (Nat.le_of_not_lt h.1)
    exact .inr ⟨heq.symm, String.lt_asymm (h.2 heq)⟩

theorem le_iff {k l : SortKey} :
    le k l ↔ k.rank < l.rank ∨ k.rank = l.rank ∧ k.text ≤ l.text := by
  simp only [le, Bool.or_eq_true, Bool.and_eq_true, beq_iff_eq, decide_eq_true_eq,
    Bool.not_eq_true', decide_eq_false_iff_not, String.not_lt]

theorem le_trans {k l m : SortKey} (hkl : le k l) (hlm : le l m) : le k m := by
  rw [le_iff] at *
  rcases hkl with hkl | ⟨hkl, hkl'⟩ <;> rcases hlm with hlm | ⟨hlm, hlm'⟩
  · exact .inl (hkl.trans hlm)
  · exact .inl (hlm ▸ hkl)
  · exact .inl (hkl ▸ hlm)
  · exact .inr ⟨hkl.trans hlm, String.le_trans hkl' hlm'⟩

theorem le_antisymm {k l : SortKey} (hkl : le k l) (hlk : le l k) : k = l := by
  obtain ⟨r, s⟩ := k
  obtain ⟨r', s'⟩ := l
  simp only [le_iff] at hkl hlk
  have hrank : r = r' := by omega
  have htext : s = s' := by
    refine String.le_antisymm (hkl.resolve_left ?_).2 (hlk.resolve_left ?_).2 <;> omega
  rw [hrank, htext]

variable {β : Type} {key : β → SortKey} {x : SortKey × β} {xs : List β}
  {ps : List (SortKey × β)} {ys : List β}

def Ordered (key : β → SortKey) (xs : List β) : Prop :=
  xs.IsChain fun x y => le (key x) (key y)

theorem perm_insert : (sort.insert x ps).Perm (x :: ps) := by
  induction ps with
  | nil => exact .refl _
  | cons p ps ih =>
    rw [sort.insert]
    split
    case isTrue  => exact .refl _
    case isFalse => exact (ih.cons p).trans (.swap ..)

theorem perm_foldr_insert : (ps.foldr sort.insert []).Perm ps := by
  induction ps with
  | nil          => exact .refl _
  | cons p ps ih => exact perm_insert.trans (ih.cons p)

-- Sorting keeps what is sorted.
theorem perm_sort (key : β → SortKey) (xs : List β) : (sort key xs).Perm xs := by
  have h := (@perm_foldr_insert _ (xs.map fun x => (key x, x))).map Prod.snd
  rwa [List.map_map, show Prod.snd ∘ (fun x : β => (key x, x)) = id from rfl, List.map_id] at h

-- An insertion goes before the first key that is not less, so its neighbours stay in order.
theorem ordered_insert (h : Ordered Prod.fst ps) : Ordered Prod.fst (sort.insert x ps) := by
  induction ps with
  | nil => exact .singleton _
  | cons p ps ih =>
    rw [sort.insert]
    split
    case isTrue hle   => exact .cons_cons hle h
    case isFalse hnle =>
      have hp : le p.1 x.1 := le_of_not_le hnle
      cases ps with
      | nil => exact .cons_cons hp (.singleton _)
      | cons q qs =>
        cases h with
        | cons_cons hpq hqs =>
          have hrest := ih hqs
          rw [sort.insert] at hrest ⊢
          split
          case isTrue hxq =>
            rw [if_pos hxq] at hrest
            exact .cons_cons hp hrest
          case isFalse hxq =>
            rw [if_neg hxq] at hrest
            exact .cons_cons hpq hrest

theorem ordered_sort (key : β → SortKey) (xs : List β) : Ordered key (sort key xs) := by
  have hall (ps : List (SortKey × β)) : Ordered Prod.fst (ps.foldr sort.insert []) := by
    induction ps with
    | nil          => exact .nil
    | cons p ps ih => exact ordered_insert ih
  have hkeys : ∀ p ∈ (xs.map fun x => (key x, x)).foldr sort.insert [], p.1 = key p.2 := by
    intro p hp
    have ⟨x, _, hx⟩ := List.mem_map.mp (perm_foldr_insert.mem_iff.mp hp)
    rw [← hx]
  refine (List.isChain_map _).mpr ((hall _).imp_of_mem_imp fun p q hp hq hle => ?_)
  rwa [← hkeys p hp, ← hkeys q hq]

theorem sort_eq_self (h : Ordered key xs) : sort key xs = xs := by
  have hpairs : (xs.map fun x => (key x, x)).foldr sort.insert [] =
      xs.map fun x => (key x, x) := by
    induction xs with
    | nil => rfl
    | cons x xs ih =>
      rw [List.map_cons, List.foldr_cons, ih h.of_cons]
      cases h with
      | singleton        => rfl
      | cons_cons hle hs => exact if_pos hle
  rw [sort, hpairs, List.map_map]
  exact List.map_id xs

-- Where no two elements have the same key, there is one order only.

theorem Ordered.eq_of_perm (hx : Ordered key xs) (hy : Ordered key ys) (hp : xs.Perm ys)
    (hkey : ∀ x ∈ xs, ∀ y ∈ xs, key x = key y → x = y) : xs = ys := by
  have htrans : IsTrans β fun x y => le (key x) (key y) := ⟨fun _ _ _ => le_trans⟩
  refine hp.eq_of_pairwise (fun x y hx hy hxy hyx => ?_) hx.pairwise hy.pairwise
  exact hkey x hx y (hp.mem_iff.mpr hy) (le_antisymm hxy hyx)

theorem sort_eq_sort_of_perm (hp : xs.Perm ys)
    (hkey : ∀ x ∈ xs, ∀ y ∈ xs, key x = key y → x = y) : sort key xs = sort key ys := by
  have hx := perm_sort key xs
  refine (ordered_sort key xs).eq_of_perm (ordered_sort key ys) ?_ fun x hx' y hy' => ?_
  · exact (hx.trans hp).trans (perm_sort key ys).symm
  · exact hkey x (hx.mem_iff.mp hx') y (hx.mem_iff.mp hy')

end SortKey

end InfixAlgebra

import InfixAlgebra.Proofs.Canonical.Merging

namespace InfixAlgebra

variable {β ι M : Type} [DecidableEq ι] [AddCommMonoid M] {key : β → ι} {value : β → M}
  {xs ys : List β} {x : β} {i : ι}

def sumAt (key : β → ι) (value : β → M) (xs : List β) (i : ι) : M :=
  (xs.map fun x => if key x = i then value x else 0).sum

theorem exists_of_sumAt_ne_zero (h : sumAt key value xs i ≠ 0) : ∃ x ∈ xs, key x = i := by
  by_contra hne
  refine h (List.sum_eq_zero fun m hm => ?_)
  have ⟨x, hx, hm⟩ := List.mem_map.mp hm
  rw [← hm, if_neg fun hi => hne ⟨x, hx, hi⟩]

theorem sumAt_eq_of_mem (value : β → M) (hd : xs.Pairwise fun x y => key x ≠ key y)
    (hx : x ∈ xs) : sumAt key value xs (key x) = value x := by
  induction xs with
  | nil => cases hx
  | cons y ys ih =>
    have ⟨hy, hys⟩ := List.pairwise_cons.mp hd
    rw [sumAt, List.map_cons, List.sum_cons]
    cases List.mem_cons.mp hx with
    | inl hxy =>
      subst hxy
      have hrest : sumAt key value ys (key x) = 0 := by
        by_contra hne
        have ⟨z, hz, hzx⟩ := exists_of_sumAt_ne_zero hne
        exact hy z hz hzx.symm
      rw [if_pos rfl]
      exact (congrArg (value x + ·) hrest).trans (add_zero _)
    | inr hx =>
      rw [if_neg (hy x hx), zero_add]
      exact ih hys hx

theorem mem_of_sumAt (hxs : xs.Pairwise fun x y => key x ≠ key y)
    (hys : ys.Pairwise fun x y => key x ≠ key y) (hne : value x ≠ 0)
    (hinj : ∀ y ∈ ys, key x = key y → value x = value y → x = y)
    (h : ∀ i, sumAt key value xs i = sumAt key value ys i) (hx : x ∈ xs) : x ∈ ys := by
  have hvalue := (sumAt_eq_of_mem value hxs hx).symm.trans (h (key x))
  have ⟨y, hy, hyx⟩ := exists_of_sumAt_ne_zero (hvalue ▸ hne)
  rw [← hyx, sumAt_eq_of_mem value hys hy] at hvalue
  exact hinj y hy hyx.symm hvalue ▸ hy

-- Elements of different keys, none of them without a value, can be told from the sums.
theorem perm_of_sumAt (hxs : xs.Pairwise fun x y => key x ≠ key y)
    (hys : ys.Pairwise fun x y => key x ≠ key y) (hx : ∀ x ∈ xs, value x ≠ 0)
    (hy : ∀ y ∈ ys, value y ≠ 0)
    (hinj : ∀ x ∈ xs, ∀ y ∈ ys, key x = key y → value x = value y → x = y)
    (h : ∀ i, sumAt key value xs i = sumAt key value ys i) : xs.Perm ys := by
  have hnodup {zs : List β} (hzs : zs.Pairwise fun x y => key x ≠ key y) : zs.Nodup :=
    hzs.imp fun hne hxy => hne (congrArg key hxy)
  refine (List.perm_ext_iff_of_nodup (hnodup hxs) (hnodup hys)).mpr fun z => ⟨?_, fun hz => ?_⟩
  · intro hz
    exact mem_of_sumAt hxs hys (hx z hz) (hinj z hz) h hz
  · refine mem_of_sumAt hys hxs (hy z hz) (fun x hx hkey hvalue => ?_) (fun i => (h i).symm) hz
    exact (hinj x hx z hz hkey.symm hvalue.symm).symm

-- The sums do not depend on the order of the elements.

theorem sumAt_cons (key : β → ι) (value : β → M) (x : β) (xs : List β) (i : ι) :
    sumAt key value (x :: xs) i = (if key x = i then value x else 0) + sumAt key value xs i :=
  List.sum_cons

theorem sumAt_append (key : β → ι) (value : β → M) (xs ys : List β) (i : ι) :
    sumAt key value (xs ++ ys) i = sumAt key value xs i + sumAt key value ys i := by
  rw [sumAt, List.map_append, List.sum_append]
  rfl

theorem sumAt_perm (h : xs.Perm ys) (i : ι) : sumAt key value xs i = sumAt key value ys i :=
  (h.map _).sum_eq

-- What has no value does not count.
theorem sumAt_filter {p : β → Bool} (hp : ∀ x, p x ↔ value x ≠ 0) (xs : List β) (i : ι) :
    sumAt key value (xs.filter p) i = sumAt key value xs i := by
  induction xs with
  | nil => rfl
  | cons x xs ih =>
    rw [List.filter_cons, sumAt_cons]
    split
    case isTrue => rw [sumAt_cons, ih]
    case isFalse hx =>
      have hzero : value x = 0 := by
        by_contra hne
        exact hx ((hp x).mpr hne)
      rw [hzero, ite_self, zero_add, ih]

theorem perm_filter_of_sumAt {p : β → Bool} (hp : ∀ x, p x ↔ value x ≠ 0)
    (hxs : xs.Pairwise fun x y => key x ≠ key y) (hys : ys.Pairwise fun x y => key x ≠ key y)
    (hinj : ∀ x y, key x = key y → value x = value y → x = y)
    (h : ∀ i, sumAt key value xs i = sumAt key value ys i) :
    (xs.filter p).Perm (ys.filter p) := by
  refine perm_of_sumAt (hxs.filter p) (hys.filter p) (fun x hx => ?_) (fun y hy => ?_)
    (fun x _ y _ => hinj x y) fun i => ?_
  · exact (hp x).mp (List.mem_filter.mp hx).2
  · exact (hp y).mp (List.mem_filter.mp hy).2
  · rw [sumAt_filter hp, sumAt_filter hp, h]

namespace Merging

structure Adds (m : Merging β) (key : β → ι) (value : β → M) : Prop where
  alike {y x : β} : m.alike y x ↔ key y = key x
  key_join {y x : β} : key (m.join y x) = key y
  value_join {y x : β} : value (m.join y x) = value y + value x

namespace Adds

variable {m : Merging β} {xs' ys' : List β}

omit [DecidableEq ι] in
theorem stable (hm : m.Adds key value) : m.Stable := by
  intro y x z
  constructor <;> rw [Bool.eq_iff_iff, hm.alike, hm.alike, hm.key_join]

omit [DecidableEq ι] in
theorem pairwise_key (hm : m.Adds key value) (h : m.Distinct xs) :
    xs.Pairwise fun x y => key x ≠ key y :=
  h.imp fun hne hkey => hne (hm.alike.mpr hkey)

theorem sumAt_add (hm : m.Adds key value) (x : β) (xs : List β) (i : ι) :
    sumAt key value (m.add x xs) i =
      sumAt key value xs i + if key x = i then value x else 0 := by
  induction xs with
  | nil => exact add_comm ..
  | cons y ys ih =>
    rw [add, sumAt_cons]
    split
    case isTrue h =>
      rw [sumAt_cons, hm.key_join, hm.value_join, ← hm.alike.mp h]
      split
      case isTrue  => rw [add_right_comm]
      case isFalse => rw [add_zero]
    case isFalse => rw [sumAt_cons, ih, add_assoc]

theorem sumAt_addAll (hm : m.Adds key value) (xs news : List β) (i : ι) :
    sumAt key value (m.addAll xs news) i = sumAt key value xs i + sumAt key value news i := by
  induction news generalizing xs with
  | nil => exact (add_zero _).symm
  | cons x news ih =>
    have hadd : m.addAll xs (x :: news) = m.addAll (m.add x xs) news := rfl
    rw [hadd, ih, hm.sumAt_add, sumAt_cons, add_assoc]

-- In which order elements come makes no difference for what they are joined to.
theorem perm_filter_addAll {p : β → Bool} (hm : m.Adds key value) (hp : ∀ x, p x ↔ value x ≠ 0)
    (hinj : ∀ x y, key x = key y → value x = value y → x = y) (hxs : m.Distinct xs)
    (hys : m.Distinct ys) (h : (xs ++ xs').Perm (ys ++ ys')) :
    ((m.addAll xs xs').filter p).Perm ((m.addAll ys ys').filter p) := by
  refine perm_filter_of_sumAt hp (hm.pairwise_key (distinct_addAll hm.stable hxs))
    (hm.pairwise_key (distinct_addAll hm.stable hys)) hinj fun i => ?_
  rw [hm.sumAt_addAll, hm.sumAt_addAll, ← sumAt_append, ← sumAt_append, sumAt_perm h]

end Adds

end Merging

end InfixAlgebra

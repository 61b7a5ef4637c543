import InfixAlgebra.Proofs.Canonical.Steps

namespace InfixAlgebra

-- How lists are kept free of alike elements: what is alike is joined. Sums do so with their terms,
-- and products with the powers in them.
structure Merging (β : Type) where
  alike : β → β → Bool
  join : β → β → β

namespace Merging

variable {β : Type} {m : Merging β} {w : β → Nat} {x : β} {xs news : List β}

def add (m : Merging β) (x : β) : List β → List β
  | []      => [x]
  | y :: ys => if m.alike y x then m.join y x :: ys else y :: m.add x ys

def addAll (m : Merging β) (xs news : List β) : List β :=
  news.foldl (fun ys x => m.add x ys) xs

theorem addAll_append_cons (before after : List β) :
    m.addAll xs (before ++ x :: after) = m.addAll (m.add x (m.addAll xs before)) after := by
  rw [addAll, List.foldl_append]
  rfl

def Distinct (m : Merging β) (xs : List β) : Prop :=
  xs.Pairwise fun y x => ¬m.alike y x

theorem add_eq_append (h : ∀ y ∈ xs, ¬m.alike y x) : m.add x xs = xs ++ [x] := by
  induction xs with
  | nil => rfl
  | cons y ys ih =>
    have ⟨hy, hys⟩ := List.forall_mem_cons.mp h
    rw [add, if_neg hy, ih hys]
    rfl

-- Elements of which no two are alike are left alone.
theorem addAll_eq_append (h : m.Distinct (xs ++ news)) : m.addAll xs news = xs ++ news := by
  induction news generalizing xs with
  | nil => exact (List.append_nil xs).symm
  | cons x news ih =>
    rw [List.append_cons] at h
    have hx : ∀ y ∈ xs, ¬m.alike y x := by
      intro y hy
      have hsub := List.pairwise_append.mp (List.pairwise_append.mp h).1
      exact hsub.2.2 y hy x (List.mem_singleton_self x)
    rw [List.append_cons, ← ih h, ← add_eq_append hx]
    rfl

theorem addAll_nil (h : m.Distinct news) : m.addAll [] news = news :=
  addAll_eq_append h

-- What joining preserves holds of whatever comes in.

theorem forall_add {P Q : β → Prop} (hjoin : ∀ y, m.alike y x → P y → Q (m.join y x))
    (hPQ : ∀ y, P y → Q y) (hxs : ∀ y ∈ xs, P y) (hx : Q x) : ∀ y ∈ m.add x xs, Q y := by
  induction xs with
  | nil => exact List.forall_mem_singleton.mpr hx
  | cons y ys ih =>
    have ⟨hy, hys⟩ := List.forall_mem_cons.mp hxs
    rw [add]
    split
    case isTrue h => exact List.forall_mem_cons.mpr ⟨hjoin y h hy, fun y hy => hPQ y (hys y hy)⟩
    case isFalse  => exact List.forall_mem_cons.mpr ⟨hPQ y hy, ih hys⟩

theorem forall_addAll_of_mem {P : β → Prop}
    (hjoin : ∀ x ∈ news, ∀ y, m.alike y x → P y → P (m.join y x)) (hxs : ∀ y ∈ xs, P y)
    (hnews : ∀ x ∈ news, P x) : ∀ y ∈ m.addAll xs news, P y := by
  induction news generalizing xs with
  | nil => exact hxs
  | cons x news ih =>
    have ⟨hx, hnews⟩ := List.forall_mem_cons.mp hnews
    have ⟨hjoinx, hjoin⟩ := List.forall_mem_cons.mp hjoin
    exact ih hjoin (forall_add hjoinx (fun _ => id) hxs hx) hnews

theorem forall_addAll {P : β → Prop} (hjoin : ∀ y x, m.alike y x → P y → P x → P (m.join y x))
    (hxs : ∀ y ∈ xs, P y) (hnews : ∀ x ∈ news, P x) : ∀ y ∈ m.addAll xs news, P y :=
  forall_addAll_of_mem (fun x hx y h hy => hjoin y x h hy (hnews x hx)) hxs hnews

-- Where what is joined is alike to whatever it was alike to before, nothing alike is left.

def Stable (m : Merging β) : Prop :=
  ∀ y x z, m.alike (m.join y x) z = m.alike y z ∧ m.alike z (m.join y x) = m.alike z y

theorem distinct_add (hm : m.Stable) (hxs : m.Distinct xs) : m.Distinct (m.add x xs) := by
  induction xs with
  | nil => exact List.pairwise_singleton _ _
  | cons y ys ih =>
    have ⟨hy, hys⟩ := List.pairwise_cons.mp hxs
    rw [add]
    split
    case isTrue =>
      refine List.pairwise_cons.mpr ⟨fun z hz => ?_, hys⟩
      rw [(hm y x z).1]
      exact hy z hz
    case isFalse h =>
      refine List.pairwise_cons.mpr ⟨?_, ih hys⟩
      exact forall_add (fun z _ hz => (hm z x y).2 ▸ hz) (fun _ => id) hy h

theorem distinct_addAll (hm : m.Stable) (hxs : m.Distinct xs) : m.Distinct (m.addAll xs news) := by
  induction news generalizing xs with
  | nil           => exact hxs
  | cons x news ih => exact ih (distinct_add hm hxs)

def Lightens (m : Merging β) (w : β → Nat) : Prop :=
  ∀ y x, m.alike y x → w (m.join y x) < w y + w x

def total (w : β → Nat) (xs : List β) : Nat :=
  (xs.map w).sum

@[simp]
theorem total_nil : total w [] = 0 :=
  rfl

@[simp]
theorem total_cons : total w (x :: xs) = w x + total w xs :=
  List.sum_cons

@[simp]
theorem total_append : total w (xs ++ news) = total w xs + total w news := by
  rw [total, List.map_append, List.sum_append]
  rfl

theorem total_perm (h : xs.Perm news) : total w xs = total w news :=
  (h.map w).sum_nat

theorem total_le_of_forall {v : β → Nat} (h : ∀ x ∈ xs, v x ≤ w x) : total v xs ≤ total w xs := by
  induction xs with
  | nil => exact Nat.le_refl _
  | cons x xs ih =>
    have ⟨hx, hxs⟩ := List.forall_mem_cons.mp h
    rw [total_cons, total_cons]
    exact Nat.add_le_add hx (ih hxs)

theorem total_filter_le (p : β → Bool) (xs : List β) : total w (xs.filter p) ≤ total w xs := by
  induction xs with
  | nil => exact Nat.le_refl _
  | cons x xs ih =>
    rw [List.filter_cons, total_cons]
    split
    case isTrue  => exact Nat.add_le_add_left ih _
    case isFalse => exact Nat.le_add_left_of_le ih

theorem total_add_le (hm : m.Lightens w) : total w (m.add x xs) ≤ total w xs + w x := by
  induction xs with
  | nil => simp [add]
  | cons y ys ih =>
    rw [add]
    split
    case isTrue h =>
      have := hm y x h
      simp only [total_cons]
      omega
    case isFalse =>
      simp only [total_cons]
      omega

-- Nothing was joined if nothing was lost.
theorem not_alike_of_total_add (hm : m.Lightens w)
    (h : total w xs + w x ≤ total w (m.add x xs)) : ∀ y ∈ xs, ¬m.alike y x := by
  induction xs with
  | nil => nofun
  | cons y ys ih =>
    rw [add] at h
    split at h
    case isTrue hy =>
      have := hm y x hy
      simp only [total_cons] at h
      omega
    case isFalse hy =>
      simp only [total_cons] at h
      exact List.forall_mem_cons.mpr ⟨hy, ih (by omega)⟩

theorem total_addAll_le (hm : m.Lightens w) :
    total w (m.addAll xs news) ≤ total w xs + total w news := by
  induction news generalizing xs with
  | nil => exact Nat.le_refl _
  | cons x news ih =>
    have hx := @total_add_le _ _ _ x xs hm
    have hnews := @ih (m.add x xs)
    rw [total_cons]
    exact Nat.le_trans hnews (by omega)

theorem distinct_of_total_addAll (hm : m.Lightens w) (hxs : m.Distinct xs)
    (h : total w xs + total w news ≤ total w (m.addAll xs news)) : m.Distinct (xs ++ news) := by
  induction news generalizing xs with
  | nil => rwa [List.append_nil]
  | cons x news ih =>
    have hx := @total_add_le _ _ _ x xs hm
    have hnews := @total_addAll_le _ _ _ (m.add x xs) news hm
    rw [total_cons] at h
    change _ ≤ total w (m.addAll (m.add x xs) news) at h
    have hnot := not_alike_of_total_add hm (by omega : total w xs + w x ≤ total w (m.add x xs))
    have hadd := add_eq_append hnot
    rw [List.append_cons, ← hadd]
    refine ih ?_ (by omega)
    rw [hadd]
    refine List.pairwise_append.mpr ⟨hxs, List.pairwise_singleton _ _, fun y hy z hz => ?_⟩
    rw [List.mem_singleton.mp hz]
    exact hnot y hy

end Merging

variable {α : Type} [Scalar α]

def Term.merging : Merging (Term α) where
  alike u t := u.factors == t.factors
  join u t  := ⟨u.coefficient + t.coefficient, u.factors⟩

theorem Term.stable_merging : (merging (α := α)).Stable :=
  fun _ _ _ => ⟨rfl, rfl⟩

theorem Term.mergeAll_eq (terms news : List (Term α)) :
    mergeAll terms news = merging.addAll terms news := by
  have hmerge (t : Term α) (ts : List (Term α)) : merge t ts = merging.add t ts := by
    induction ts with
    | nil          => rfl
    | cons u us ih => rw [merge, ih]; rfl
  simp only [mergeAll, Merging.addAll, hmerge]

def Power.merging : Merging (Power α) where
  alike q p := q.base == p.base
  join q p  := ⟨q.base, q.exponent + p.exponent⟩

theorem Power.stable_merging : (merging (α := α)).Stable :=
  fun _ _ _ => ⟨rfl, rfl⟩

theorem Power.mergeAll_eq (powers : List (Power α)) (fs : List (Expr α)) :
    mergeAll powers fs = merging.addAll powers (fs.map ofExpr) := by
  have hmerge (p : Power α) (ps : List (Power α)) : merge p ps = merging.add p ps := by
    induction ps with
    | nil          => rfl
    | cons q qs ih => rw [merge, ih]; rfl
  simp only [mergeAll, Merging.addAll, hmerge, List.foldl_map]

end InfixAlgebra

import InfixAlgebra.Proofs.Normal.Kinds

namespace InfixAlgebra

open Merging Scalar.Regular

-- The laws of the integers among the numbers. Of larger integers than those of 31 bits nothing is
-- said, as they may be rounded.
class Scalar.Counting (α : Type) [Scalar α] : Prop where
  ofNat_one : (Scalar.ofNat 1 : α) = 1
  toInt?_ofNat {n : Nat} : n < 2 ^ 31 → Scalar.toInt? (Scalar.ofNat n : α) = some (n : Int)
  ofNat_le_ofNat {m n : Nat} : 0 < m → m ≤ n → n < 2 ^ 31 →
    Scalar.le (Scalar.ofNat m : α) (Scalar.ofNat n)
  le_add {n : Nat} {x y : α} : 0 < n → n < 2 ^ 31 → Scalar.le (Scalar.ofNat n) x →
    Scalar.le (Scalar.ofNat 1) y → Scalar.le (Scalar.ofNat n) (x + y)
  two_le_add {x y : α} : Scalar.le (Scalar.ofNat 1) x → Scalar.le (Scalar.ofNat 1) y →
    Scalar.le (Scalar.ofNat 2) (x + y)
  le_of_toInt? {n : Nat} {k : Int} {x : α} : 0 < n → n < 2 ^ 31 → Scalar.le (Scalar.ofNat n) x →
    Scalar.toInt? x = some k → n ≤ k
  not_lt_zero {x : α} : Scalar.le (Scalar.ofNat 1) x → ¬Scalar.lt x 0

open Scalar.Counting

variable {α : Type} [Scalar α]

structure AtLeast (n : Nat) (x : α) : Prop where
  pos   : 0 < n
  small : n < 2 ^ 31
  le    : Scalar.le (Scalar.ofNat n) x

namespace AtLeast

variable [Scalar.Counting α] {m n : Nat} {x y : α}

theorem ofNat (hm : 0 < m) (hmn : m ≤ n) (hn : n < 2 ^ 31) : AtLeast m (Scalar.ofNat n : α) :=
  ⟨hm, Nat.lt_of_le_of_lt hmn hn, ofNat_le_ofNat hm hmn hn⟩

theorem one : AtLeast 1 (1 : α) := by
  have h : AtLeast 1 (Scalar.ofNat 1 : α) := .ofNat (by decide) (Nat.le_refl 1) (by decide)
  rwa [ofNat_one] at h

theorem add (hx : AtLeast n x) (hy : AtLeast 1 y) : AtLeast n (x + y) :=
  ⟨hx.pos, hx.small, le_add hx.pos hx.small hx.le hy.le⟩

theorem two_le_add (hx : AtLeast 1 x) (hy : AtLeast 1 y) : AtLeast 2 (x + y) :=
  ⟨by decide, by decide, Scalar.Counting.two_le_add hx.le hy.le⟩

theorem le_of_toInt? {k : Int} (hx : AtLeast n x) (hk : Scalar.toInt? x = some k) : n ≤ k :=
  Scalar.Counting.le_of_toInt? hx.pos hx.small hx.le hk

theorem not_beq_one [Scalar.Regular α] (hx : AtLeast 2 x) : ¬x == 1 := by
  intro h
  have hone : Scalar.toInt? (1 : α) = some 1 := ofNat_one (α := α) ▸ toInt?_ofNat (by decide)
  have hle := hx.le_of_toInt? (eq_one h ▸ hone)
  omega

end AtLeast

namespace Expr

-- Sums of products of powers: no product has a sum among its factors, and powers have only those
-- exponents that `Admits` grants their base. Calls are not looked into.
inductive MultipliedOut (Admits : Expr α → α → Prop) : Expr α → Prop
  | number (x : α) : MultipliedOut Admits (.number x)
  | constant (c : Constant) : MultipliedOut Admits (.constant c)
  | var (name : String) : MultipliedOut Admits (.var name)
  | call (f : Elementary) (args : List (Expr α)) : MultipliedOut Admits (.call f args)
  | neg {a : Expr α} : MultipliedOut Admits a → (∀ f ∈ a.factors, ¬f.isSum) →
    MultipliedOut Admits (.neg a)
  | sum {op : Operator} {a b : Expr α} : op = .add ∨ op = .sub → MultipliedOut Admits a →
    MultipliedOut Admits b → MultipliedOut Admits (.binary op a b)
  | mul {a b : Expr α} : MultipliedOut Admits a → MultipliedOut Admits b →
    (∀ f ∈ (Expr.mul a b).factors, ¬f.isSum) → MultipliedOut Admits (.mul a b)
  | pow {a : Expr α} {x : α} : MultipliedOut Admits a → Admits a x →
    MultipliedOut Admits (.pow a (.number x))

omit [Scalar α] in
theorem not_isSum_of_factors {t : Expr α} (h : ∀ f ∈ t.factors, ¬f.isSum) : ¬t.isSum := by
  intro hs
  refine h t ?_ hs
  rw [factors_of_isSum hs]
  exact List.mem_singleton_self t

namespace MultipliedOut

variable {P Q : Expr α → α → Prop} {t f a b : Expr α} {fs : List (Expr α)}

omit [Scalar α] in
theorem mono (h : t.MultipliedOut P) (hPQ : ∀ a x, P a x → Q a x) : t.MultipliedOut Q := by
  induction h with
  | number x          => exact .number x
  | constant c        => exact .constant c
  | var name          => exact .var name
  | call f args       => exact .call f args
  | neg _ hf ih       => exact .neg ih hf
  | sum ho _ _ ih ih' => exact .sum ho ih ih'
  | mul _ _ hf ih ih' => exact .mul ih ih' hf
  | pow _ hx ih       => exact .pow ih (hPQ _ _ hx)

omit [Scalar α] in
theorem of_mem_factors (h : t.MultipliedOut P) (hf : f ∈ t.factors) : f.MultipliedOut P := by
  induction h with
  | number       => cases hf
  | neg _ _ ih   => exact ih hf
  | mul _ _ _ ih ih' => exact (List.mem_append.mp hf).elim ih ih'
  | @sum op a b ho ha hb =>
    have hfactors : (binary op a b).factors = [binary op a b] := by
      rcases ho with rfl | rfl <;> rfl
    rw [hfactors] at hf
    exact List.mem_singleton.mp hf ▸ .sum ho ha hb
  | constant c  => exact List.mem_singleton.mp hf ▸ .constant c
  | var name    => exact List.mem_singleton.mp hf ▸ .var name
  | call g args => exact List.mem_singleton.mp hf ▸ .call g args
  | pow ha hx   => exact List.mem_singleton.mp hf ▸ .pow ha hx

omit [Scalar α] in
-- What is not a sum has none among its factors.
theorem not_isSum_of_mem_factors (h : t.MultipliedOut P) (ht : ¬t.isSum) (hf : f ∈ t.factors) :
    ¬f.isSum := by
  cases h with
  | number      => cases hf
  | neg _ hsum  => exact hsum f hf
  | mul _ _ hsum => exact hsum f hf
  | sum ho      => rcases ho with rfl | rfl <;> exact absurd rfl ht
  | _           => exact List.mem_singleton.mp hf ▸ ht

omit [Scalar α] in
theorem foldl_mul (h : t.MultipliedOut P) (ht : ∀ f ∈ t.factors, ¬f.isSum)
    (hfs : ∀ f ∈ fs, f.isAtom ∧ ¬f.isSum ∧ f.MultipliedOut P) :
    (fs.foldl .mul t).MultipliedOut P ∧ ∀ f ∈ (fs.foldl .mul t).factors, ¬f.isSum := by
  induction fs generalizing t with
  | nil => exact ⟨h, ht⟩
  | cons g fs ih =>
    have ⟨⟨hatom, hsum, hg⟩, hfs⟩ := List.forall_mem_cons.mp hfs
    have hfactors : ∀ f ∈ (Expr.mul t g).factors, ¬f.isSum := by
      rw [factors, factors_of_isAtom hatom]
      exact List.forall_mem_append.mpr ⟨ht, List.forall_mem_singleton.mpr hsum⟩
    exact ih (.mul h hg hfactors) hfactors hfs

end MultipliedOut

end Expr

-- Exponents that stay above `maxPower` over sums, whatever they are added to. An exponent one stands
-- for the base itself, which is a factor then.
structure Power.Solid (maxPower : Nat) (a : Expr α) (x : α) : Prop where
  positive : AtLeast 1 x
  factor   : x == 1 → a.isAtom ∧ ¬a.isSum
  beyond   : a.isSum → AtLeast (maxPower + 1) x

variable {maxPower : Nat}

def Term.Kind.multipliedOut (α : Type) [Scalar α] (maxPower : Nat) : Kind α where
  Number _    := True
  Product fs  := ∀ f ∈ fs, f.isAtom ∧ ¬f.isSum ∧ f.MultipliedOut (Power.Solid maxPower)
  zero        := trivial
  one         := trivial
  neg _       := trivial
  add _ _     := trivial
  mul _ _     := trivial
  nil         := nofun
  atoms h f hf := ⟨(h f hf).1, (h f hf).2.1⟩

namespace Expr

variable {t a b : Expr α} {u : Term α}

theorem MultipliedOut.has (h : t.MultipliedOut (Power.Solid maxPower)) (ht : ¬t.isSum) :
    (Term.ofExpr t).Has (.multipliedOut α maxPower) where
  number      := trivial
  product _ hf :=
    ⟨isAtom_of_mem_factors hf, h.not_isSum_of_mem_factors ht hf, h.of_mem_factors hf⟩

theorem MultipliedOut.has_neg (ha : a.MultipliedOut (Power.Solid maxPower)) (hs : ¬a.isSum) :
    (Term.ofExpr (.neg a)).Has (.multipliedOut α maxPower) :=
  ⟨trivial, (ha.has hs).product⟩

theorem MultipliedOut.has_mul (ha : a.MultipliedOut (Power.Solid maxPower)) (hs : ¬a.isSum)
    (hb : b.MultipliedOut (Power.Solid maxPower)) (hs' : ¬b.isSum) :
    (Term.ofExpr (.mul a b)).Has (.multipliedOut α maxPower) :=
  ⟨trivial, List.forall_mem_append.mpr ⟨(ha.has hs).product, (hb.has hs').product⟩⟩

theorem MultipliedOut.hasTerms (h : t.MultipliedOut (Power.Solid maxPower)) :
    t.HasTerms (.multipliedOut α maxPower) := by
  induction h with
  | sum ho _ _ iha ihb => exact .sum ho iha ihb
  | number x      => exact hasTerms_of_has ((number x).has nofun)
  | constant c    => exact hasTerms_of_has ((constant c).has nofun)
  | var name      => exact hasTerms_of_has ((var name).has nofun)
  | call f args   => exact hasTerms_of_has ((call f args).has nofun)
  | neg ha hf     => exact hasTerms_of_has ((ha.neg hf).has nofun)
  | mul ha hb hf  => exact hasTerms_of_has ((ha.mul hb hf).has nofun)
  | pow ha hx     => exact hasTerms_of_has ((ha.pow hx).has nofun)

variable [Scalar.Regular α]

theorem multipliedOut_toExpr (hu : u.Has (.multipliedOut α maxPower)) (hne : ¬u.coefficient == 0) :
    u.toExpr.MultipliedOut (Power.Solid maxPower) ∧ ¬u.toExpr.isSum := by
  suffices u.toExpr.MultipliedOut (Power.Solid maxPower) ∧ ∀ f ∈ u.toExpr.factors, ¬f.isSum from
    ⟨this.1, not_isSum_of_factors this.2⟩
  have hfs : ∀ f ∈ u.factors, f.isAtom ∧ ¬f.isSum ∧ f.MultipliedOut (Power.Solid maxPower) :=
    hu.product
  have hwritten := Term.written_toExpr hne
  generalize u.toExpr = t at hwritten
  clear hu hne
  cases hwritten with
  | alone x => exact ⟨.number x, nofun⟩
  | one f fs =>
    have ⟨⟨hatom, hsum, hf⟩, hfs⟩ := List.forall_mem_cons.mp hfs
    refine hf.foldl_mul ?_ hfs
    rwa [factors_of_isAtom hatom, List.forall_mem_singleton]
  | neg_one f fs =>
    have ⟨⟨hatom, hsum, hf⟩, hfs⟩ := List.forall_mem_cons.mp hfs
    have ⟨ht, hfactors⟩ := hf.foldl_mul (by rwa [factors_of_isAtom hatom,
      List.forall_mem_singleton]) hfs
    exact ⟨.neg ht hfactors, hfactors⟩
  | @number x f fs =>
    have ⟨⟨hatom, hsum, hf⟩, hfs⟩ := List.forall_mem_cons.mp hfs
    have hfactors : ∀ g ∈ (mul (number x) f).factors, ¬g.isSum := by
      rwa [factors, factors_of_isAtom hatom, factors, List.nil_append, List.forall_mem_singleton]
    exact MultipliedOut.foldl_mul (.mul (.number x) hf hfactors) hfactors hfs

theorem SumsUp.multipliedOut [NumberText α] (h : t.SumsUp (.multipliedOut α maxPower)) :
    t.MultipliedOut (Power.Solid maxPower) := by
  refine h.induct ?zero ?term ?sum
  case zero => exact .number 0
  case term => exact fun u hu hne => (multipliedOut_toExpr hu hne).1
  case sum  => exact fun op a u ho ha hu hne => .sum ho ha (multipliedOut_toExpr hu hne).1

end Expr

-- Powers over equal bases are put together.

namespace Power

variable [Scalar.Regular α] [Scalar.Counting α] {p q : Power α} {f : Expr α} {fs : List (Expr α)}

structure MultipliedOut (maxPower : Nat) (p : Power α) : Prop where
  base     : p.base.MultipliedOut (Solid maxPower)
  exponent : Solid maxPower p.base p.exponent

theorem MultipliedOut.join (hq : q.MultipliedOut maxPower) (hp : p.MultipliedOut maxPower) :
    (merging.join q p).MultipliedOut maxPower where
  base := hq.base
  exponent :=
    have hpositive := hq.exponent.positive
    { positive  := hpositive.add hp.exponent.positive
      factor h  := absurd h (hpositive.two_le_add hp.exponent.positive).not_beq_one
      beyond hs := (hq.exponent.beyond hs).add hp.exponent.positive }

omit [Scalar.Regular α] in
theorem multipliedOut_ofExpr (hatom : f.isAtom) (hsum : ¬f.isSum)
    (hf : f.MultipliedOut (Solid maxPower)) : (ofExpr f).MultipliedOut maxPower := by
  unfold ofExpr
  split
  case h_1 =>
    cases hf with
    | sum ho    => rcases ho with ho | ho <;> cases ho
    | pow ha hx => exact ⟨ha, hx⟩
  case h_2 => exact ⟨hf, .one, fun _ => ⟨hatom, hsum⟩, fun hs => absurd hs hsum⟩

omit [Scalar.Regular α] [Scalar.Counting α] in
theorem MultipliedOut.toExpr (h : p.MultipliedOut maxPower) :
    p.toExpr.isAtom ∧ ¬p.toExpr.isSum ∧ p.toExpr.MultipliedOut (Solid maxPower) := by
  unfold Power.toExpr
  split
  case isTrue hone =>
    have ⟨hatom, hsum⟩ := h.exponent.factor hone
    exact ⟨hatom, hsum, h.base⟩
  case isFalse => exact ⟨rfl, nofun, .pow h.base h.exponent⟩

variable [NumberText α]

theorem product_group (hfs : (Term.Kind.multipliedOut α maxPower).Product fs) :
    (Term.Kind.multipliedOut α maxPower).Product (group fs) := by
  have hpowers : ∀ p ∈ mergeAll [] fs, p.MultipliedOut maxPower := by
    rw [mergeAll_eq]
    refine forall_addAll (fun q p _ hq hp => hq.join hp) nofun fun p hp => ?_
    have ⟨f, hf, hp⟩ := List.mem_map.mp hp
    have ⟨hatom, hsum, hf⟩ := hfs f hf
    exact hp ▸ multipliedOut_ofExpr hatom hsum hf
  intro f hf
  rw [group_eq, (SortKey.perm_sort _ _).mem_iff] at hf
  have ⟨p, hp, hf⟩ := List.mem_map.mp hf
  exact hf ▸ (hpowers p (List.mem_of_mem_filter hp)).toExpr

end Power

end InfixAlgebra

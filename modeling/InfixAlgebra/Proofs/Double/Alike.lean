import InfixAlgebra.Proofs.Double.Finite

namespace InfixAlgebra

namespace Double

open Float.Model Float.Model.UnpackedFloat

variable {u u' v v' : UnpackedFloat} {x x' y y' z : Float}

-- The same but for the sign of a zero.
inductive Alike : UnpackedFloat → UnpackedFloat → Prop
  | refl (u : UnpackedFloat) : Alike u u
  | zero (s s' : Sign) : Alike (.zero s) (.zero s')

namespace Alike

theorem trans {w : UnpackedFloat} (h : Alike u v) (h' : Alike v w) : Alike u w := by
  cases h with
  | refl => exact h'
  | zero s t =>
    cases h' with
    | refl      => exact .zero s t
    | zero t s' => exact .zero s s'

theorem isFinite_eq (h : Alike u v) : u.isFinite = v.isFinite := by
  cases h <;> rfl

theorem neg (h : Alike u v) : Alike u.neg v.neg := by
  cases h with
  | refl      => exact .refl _
  | zero s s' => exact .zero _ _

-- A sum with a zero is the other operand, and zeros add up to a zero.
theorem add (hu : Alike u u') (hv : Alike v v') : Alike (u.add format v) (u'.add format v') := by
  have zeros (s t : Sign) : ∃ s', (UnpackedFloat.zero s).add format (.zero t) = .zero s' := by
    cases s <;> cases t <;> exact ⟨_, rfl⟩
  have left (s s' : Sign) (v : UnpackedFloat) :
      Alike ((UnpackedFloat.zero s).add format v) ((UnpackedFloat.zero s').add format v) := by
    cases v with
    | zero t =>
      have ⟨r, hr⟩ := zeros s t
      have ⟨r', hr'⟩ := zeros s' t
      exact hr ▸ hr' ▸ .zero r r'
    | _ => exact .refl _
  have right (s s' : Sign) (u : UnpackedFloat) :
      Alike (u.add format (.zero s)) (u.add format (.zero s')) := by
    cases u with
    | zero t =>
      have ⟨r, hr⟩ := zeros t s
      have ⟨r', hr'⟩ := zeros t s'
      exact hr ▸ hr' ▸ .zero r r'
    | _ => exact .refl _
  cases hu with
  | refl =>
    cases hv with
    | refl      => exact .refl _
    | zero s s' => exact right s s' u
  | zero s s' =>
    cases hv with
    | refl      => exact left s s' v
    | zero t t' => exact (left s s' _).trans (right t t' _)

theorem mul (hu : Alike u u') (hv : Alike v v') : Alike (u.mul format v) (u'.mul format v') := by
  have left (s s' : Sign) (v : UnpackedFloat) :
      Alike ((UnpackedFloat.zero s).mul format v) ((UnpackedFloat.zero s').mul format v) := by
    cases v with
    | zero   => exact .zero _ _
    | finite => exact .zero _ _
    | _      => exact .refl _
  have right (s s' : Sign) (u : UnpackedFloat) :
      Alike (u.mul format (.zero s)) (u.mul format (.zero s')) := by
    cases u with
    | zero   => exact .zero _ _
    | finite => exact .zero _ _
    | _      => exact .refl _
  cases hu with
  | refl =>
    cases hv with
    | refl      => exact .refl _
    | zero s s' => exact right s s' u
  | zero s s' =>
    cases hv with
    | refl      => exact left s s' v
    | zero t t' => exact (left s s' _).trans (right t t' _)

theorem sqrt (h : Alike u v) : Alike (u.sqrt format) (v.sqrt format) := by
  cases h with
  | refl      => exact .refl _
  | zero s s' => exact .zero s s'

-- A quotient by zero is not finite.
theorem div (hu : Alike u u') (hv : Alike v v') (h : (u.div format v).isFinite) :
    Alike (u.div format v) (u'.div format v') := by
  cases hv with
  | zero =>
    cases u <;> cases h
  | refl =>
    cases hu with
    | refl => exact .refl _
    | zero s s' =>
      cases v with
      | infinity => exact .zero _ _
      | finite   => exact .zero _ _
      | _        => exact .refl _

end Alike

theorem neg_one_mul_eq (x : Float) : -1 * x = -x := by
  have hneg := neg_one_mul_neg (-x)
  rwa [neg_neg] at hneg

theorem sub_eq_add_neg (x y : Float) : x - y = x + -y := by
  have hsub (u v : UnpackedFloat) : u.sub format v = u.add format v.neg := by
    have happly (s : Sign) (n : Int) : (-s).apply n = -s.apply n := by
      cases s with
      | negative => exact (Int.neg_neg n).symm
      | positive => rfl
    cases u <;> cases v <;>
      first | rfl | simp only [UnpackedFloat.sub, UnpackedFloat.add, UnpackedFloat.neg, happly,
        Int.sub_eq_add_neg]
  refine congrArg (fun u => Float.ofModel (.pack u)) ((hsub (unpacked x) (unpacked y)).trans ?_)
  exact congrArg ((unpacked x).add format) (unpacked_neg y).symm

theorem unpacked_ofModel_pack (h : Alike u v) :
    Alike (unpacked (.ofModel (.pack u))) (unpacked (.ofModel (.pack v))) := by
  have hzero (s : Sign) : unpacked (.ofModel (.pack (.zero s))) = .zero s := by
    cases s <;> rfl
  cases h with
  | refl      => exact .refl _
  | zero s s' =>
    rw [hzero, hzero]
    exact .zero s s'

theorem isFinite_of_pack (h : (Float.ofModel (.pack u)).isFinite) : u.isFinite := by
  cases u with
  | zero       => rfl
  | finite     => rfl
  | infinity s => cases s <;> cases h
  | notANumber => cases h

theorem alike_of_beq (h : x == y) : Alike (unpacked x) (unpacked y) := by
  rw [beq_eq, UnpackedFloat.beq, beq_iff_eq] at h
  rcases eq_or_zero_of_compare h with h | ⟨s, s', hx, hy⟩
  case inl => exact h ▸ .refl _
  case inr => exact hx ▸ hy ▸ .zero s s'

-- Numbers are equal if they are alike, unless they are not a number at all.
theorem beq_of_alike (hx : x.isFinite) (h : Alike (unpacked x) (unpacked y)) : x == y := by
  rw [beq_eq, UnpackedFloat.beq, beq_iff_eq]
  generalize unpacked y = v at h
  rcases zero_or_finite hx with ⟨s, hu⟩ | ⟨s, m, e, hm, hu⟩ <;> rw [hu] at h ⊢
  case inl => cases h <;> rfl
  case inr =>
    cases h
    cases s <;> simp [UnpackedFloat.compare]

theorem beq_self (hx : x.isFinite) : x == x :=
  beq_of_alike hx (.refl _)

theorem beq_trans (hx : x.isFinite) (h : x == y) (h' : y == z) : x == z :=
  beq_of_alike hx ((alike_of_beq h).trans (alike_of_beq h'))

theorem beq_congr (h : x == y) (z : Float) : (x == z) = (y == z) := by
  have hbeq {u v : UnpackedFloat} (h : Alike u v) (w : UnpackedFloat) : u.beq w = v.beq w := by
    cases h with
    | refl => rfl
    | zero =>
      cases w with
      | infinity t => cases t <;> rfl
      | finite t   => cases t <;> rfl
      | _          => rfl
  exact hbeq (alike_of_beq h) (unpacked z)

theorem isFinite_of_beq (hx : x.isFinite) (h : x == y) : y.isFinite := by
  show (unpacked y).isFinite
  rwa [← (alike_of_beq h).isFinite_eq]

theorem neg_beq_neg (h : (-x).isFinite) (hx : x == x') : -x == -x' := by
  refine beq_of_alike h ?_
  rw [unpacked_neg, unpacked_neg]
  exact (alike_of_beq hx).neg

theorem add_beq_add (h : (x + y).isFinite) (hx : x == x') (hy : y == y') : x + y == x' + y' :=
  beq_of_alike h (unpacked_ofModel_pack ((alike_of_beq hx).add (alike_of_beq hy)))

theorem sub_beq_sub (h : (x - y).isFinite) (hx : x == x') (hy : y == y') : x - y == x' - y' := by
  have hneg : Alike (unpacked (-y)) (unpacked (-y')) := by
    rw [unpacked_neg, unpacked_neg]
    exact (alike_of_beq hy).neg
  rw [sub_eq_add_neg] at h ⊢
  rw [sub_eq_add_neg]
  exact beq_of_alike h (unpacked_ofModel_pack ((alike_of_beq hx).add hneg))

theorem sqrt_beq_sqrt (h : x.sqrt.isFinite) (hx : x == x') : x.sqrt == x'.sqrt :=
  beq_of_alike h (unpacked_ofModel_pack (alike_of_beq hx).sqrt)

theorem mul_beq_mul (h : (x * y).isFinite) (hx : x == x') (hy : y == y') : x * y == x' * y' :=
  beq_of_alike h (unpacked_ofModel_pack ((alike_of_beq hx).mul (alike_of_beq hy)))

theorem div_beq_div (h : (x / y).isFinite) (hx : x == x') (hy : y == y') : x / y == x' / y' := by
  refine beq_of_alike h (unpacked_ofModel_pack ((alike_of_beq hx).div (alike_of_beq hy) ?_))
  exact isFinite_of_pack h

end Double

end InfixAlgebra

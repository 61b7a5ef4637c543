import Mathlib
import InfixAlgebra.Budget

namespace InfixAlgebra

variable {α β γ δ γ' δ' : Type}

instance : LE Limits :=
  ⟨fun l l' => l.maxDepth ≤ l'.maxDepth ∧ l.maxOperations ≤ l'.maxOperations⟩

theorem Limits.le_refl (l : Limits) : l ≤ l :=
  ⟨Nat.le_refl _, Nat.le_refl _⟩

-- What a computation comes to over two kinds of numbers, the second time under limits `l`. The
-- second result is the image of the first one, unless it is up against `l`. Apart from limits,
-- only what is unsupported is an error, whatever the numbers are.
inductive Mirrored (l : Limits) (f : γ → δ) : Except (Error α) γ → Except (Error β) δ → Prop
  | tooDeep (x : Except (Error α) γ) : Mirrored l f x (.error (.tooDeep l.maxDepth))
  | outOfOperations (x : Except (Error α) γ) :
    Mirrored l f x (.error (.outOfOperations l.maxOperations))
  | unsupported (u : Unsupported) : Mirrored l f (.error (.unsupported u)) (.error (.unsupported u))
  | ok (c : γ) : Mirrored l f (.ok c) (.ok (f c))

namespace Mirrored

variable {l : Limits} {f : γ → δ} {x : Except (Error α) γ} {y : Except (Error β) δ}

theorem bind {g : γ' → δ'} {k : γ → Except (Error α) γ'} {m : δ → Except (Error β) δ'}
    (h : Mirrored l f x y) (hk : ∀ c, Mirrored l g (k c) (m (f c))) :
    Mirrored l g (x >>= k) (y >>= m) := by
  cases h with
  | tooDeep x         => exact .tooDeep _
  | outOfOperations x => exact .outOfOperations _
  | unsupported u     => exact .unsupported u
  | ok c              => exact hk c

theorem fst {σ : Type} {x : Except (Error α) (γ × σ)} {y : Except (Error β) (δ × σ)}
    (h : Mirrored l (Prod.map f id) x y) : Mirrored l f ((·.1) <$> x) ((·.1) <$> y) := by
  cases h with
  | tooDeep x         => exact .tooDeep _
  | outOfOperations x => exact .outOfOperations _
  | unsupported u     => exact .unsupported u
  | ok c              => exact .ok c.1

-- What the second computation gives comes from what the first one gives.
theorem exists_of_ok {d : δ} (h : Mirrored l f x y) (hy : y = .ok d) : ∃ c, x = .ok c ∧ f c = d := by
  subst hy
  cases h with
  | ok c => exact ⟨c, rfl, rfl⟩

end Mirrored

namespace Metered

theorem run_checkChain (length used : Nat) (l : Limits) :
    (ReaderT.run (checkChain length : Metered α Unit) l).run used =
      if length > l.maxDepth then .error (.tooDeep l.maxDepth) else .ok ((), used) := by
  show (ReaderT.run (if length > l.maxDepth then throw (.tooDeep l.maxDepth) else pure () :
    Metered α Unit) l).run used = _
  split <;> rfl

theorem run_charge (count used : Nat) (l : Limits) :
    (ReaderT.run (charge count : Metered α Unit) l).run used =
      if used + count > l.maxOperations then .error (.outOfOperations l.maxOperations)
      else .ok ((), used + count) := by
  show (ReaderT.run (if used + count > l.maxOperations then throw (.outOfOperations l.maxOperations)
    else set (used + count) : Metered α Unit) l).run used = _
  split <;> rfl

-- Computations that pay alike and give corresponding results, the second one under limits that may
-- be narrower.
def Mirrors (f : γ → δ) (x : Metered α γ) (y : Metered β δ) : Prop :=
  ∀ ⦃l l' : Limits⦄, l ≤ l' → ∀ used, Mirrored l (Prod.map f id) ((ReaderT.run x l').run used)
    ((ReaderT.run y l).run used)

namespace Mirrors

variable {f : γ → δ} {g : γ' → δ'} {x : Metered α γ} {y : Metered β δ}

theorem pure (c : γ) : Mirrors (α := α) (β := β) f (pure c) (pure (f c)) :=
  fun _ _ _ used => .ok (c, used)

theorem of_eq {c : γ} {d : δ} (h : d = f c) :
    Mirrors (α := α) (β := β) f (Pure.pure c) (Pure.pure d) :=
  h ▸ pure c

theorem unsupported (u : Unsupported) :
    Mirrors (α := α) (β := β) f (throw (.unsupported u)) (throw (.unsupported u)) :=
  fun _ _ _ _ => .unsupported u

theorem bind {k : γ → Metered α γ'} {m : δ → Metered β δ'} (h : Mirrors f x y)
    (hk : ∀ c, Mirrors g (k c) (m (f c))) : Mirrors g (x >>= k) (y >>= m) :=
  fun _ _ hl used => (h hl used).bind fun r => hk r.1 hl r.2

theorem lift {k : γ → γ'} {m : δ → δ'} (h : Mirrors f x y) (hk : ∀ c, m (f c) = g (k c)) :
    Mirrors g (do return k (← x)) (do return m (← y)) :=
  h.bind fun c => .of_eq (hk c)

theorem lift₂ {x' : Metered α γ} {y' : Metered β δ} {k : γ → γ → γ'} {m : δ → δ → δ'}
    (h : Mirrors f x y) (h' : Mirrors f x' y') (hk : ∀ c c', m (f c) (f c') = g (k c c')) :
    Mirrors g (do let c ← x; let c' ← x'; return k c c')
      (do let d ← y; let d' ← y'; return m d d') :=
  h.bind fun c => h'.lift (hk c)

theorem read_bind {k : Limits → Metered α γ'} {m : Limits → Metered β δ'}
    (hk : ∀ {l l' : Limits}, l ≤ l' → Mirrors g (k l') (m l)) :
    Mirrors g (read >>= k) (read >>= m) :=
  fun _ _ hl used => hk hl hl used

theorem mapM {k : γ → Metered α γ'} {m : δ → Metered β δ'} (hk : ∀ c, Mirrors g (k c) (m (f c)))
    (cs : List γ) : Mirrors (List.map g) (cs.mapM k) ((cs.map f).mapM m) := by
  induction cs with
  | nil => exact .pure []
  | cons c cs ih =>
    rw [List.map_cons, List.mapM_cons, List.mapM_cons]
    exact (hk c).bind fun d => ih.bind fun ds => .pure (d :: ds)

theorem foldlM {k : γ' → γ → Metered α γ'} {m : δ' → δ → Metered β δ'}
    (hk : ∀ c d, Mirrors g (k c d) (m (g c) (f d))) (ds : List γ) (c : γ') :
    Mirrors g (ds.foldlM k c) ((ds.map f).foldlM m (g c)) := by
  induction ds generalizing c with
  | nil          => exact .pure c
  | cons d ds ih =>
    rw [List.map_cons, List.foldlM_cons, List.foldlM_cons]
    exact (hk c d).bind ih

-- Whoever has no more rounds to go has no more operations either.
theorem exhausted (x : Metered α γ) : Mirrors (β := β) f x exhausted :=
  fun _ _ _ _ => .outOfOperations _

theorem checkChain (length : Nat) :
    Mirrors (α := α) (β := β) id (checkChain length) (checkChain length) := by
  intro l l' hl used
  rw [run_checkChain, run_checkChain]
  by_cases hlength : length > l.maxDepth
  case pos =>
    rw [if_pos hlength]
    exact .tooDeep _
  case neg =>
    have hlength' : ¬length > l'.maxDepth := fun hgt => hlength (Nat.lt_of_le_of_lt hl.1 hgt)
    rw [if_neg hlength, if_neg hlength']
    exact .ok _

theorem charge (count : Nat) : Mirrors (α := α) (β := β) id (charge count) (charge count) := by
  intro l l' hl used
  rw [run_charge, run_charge]
  by_cases hused : used + count > l.maxOperations
  case pos =>
    rw [if_pos hused]
    exact .outOfOperations _
  case neg =>
    have hused' : ¬used + count > l'.maxOperations := fun hgt => hused (Nat.lt_of_le_of_lt hl.2 hgt)
    rw [if_neg hused, if_neg hused']
    exact .ok _

theorem step (depth : Nat) : Mirrors (α := α) (β := β) id (step depth) (step depth) :=
  (checkChain depth).bind fun _ => charge 1

theorem run {l l' : Limits} (h : Mirrors f x y) (hl : l ≤ l') :
    Mirrored l f (Metered.run x l') (Metered.run y l) :=
  (h hl 0).fst

end Mirrors

end Metered

end InfixAlgebra

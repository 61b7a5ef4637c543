import InfixAlgebra.Proofs.Transport.Running

namespace InfixAlgebra

variable {α β γ : Type}

-- Errors that another choice of limits may avoid.
def Error.isLimit : Error α → Bool
  | tooDeep _ | outOfOperations _ => true
  | _                             => false

-- Limits only cut off: a result under `l` next to the result under wider limits. They are the same,
-- unless the first one says that it is up against `l`.
inductive Limits.Below (l : Limits) : Except (Error α) β → Except (Error α) β → Prop
  | tooDeep (y : Except (Error α) β) : Below l (.error (.tooDeep l.maxDepth)) y
  | outOfOperations (y : Except (Error α) β) :
    Below l (.error (.outOfOperations l.maxOperations)) y
  | error {x : Error α} (h : x.isLimit = false) : Below l (.error x) (.error x)
  | ok (b : β) : Below l (.ok b) (.ok b)

namespace Limits.Below

variable {l l' : Limits} {x y : Except (Error α) β}

theorem bind {f g : β → Except (Error α) γ} (h : l.Below x y) (hf : ∀ b, l.Below (f b) (g b)) :
    l.Below (x >>= f) (y >>= g) := by
  cases h with
  | tooDeep y         => exact .tooDeep _
  | outOfOperations y => exact .outOfOperations _
  | error h           => exact .error h
  | ok b              => exact hf b

theorem map (f : β → γ) (h : l.Below x y) : l.Below (f <$> x) (f <$> y) := by
  cases h with
  | tooDeep y         => exact .tooDeep _
  | outOfOperations y => exact .outOfOperations _
  | error h           => exact .error h
  | ok b              => exact .ok (f b)

theorem of_mirrored {f : β → β} (h : Mirrored l f y x) (hf : f = id) : l.Below x y := by
  subst hf
  cases h with
  | tooDeep y         => exact .tooDeep y
  | outOfOperations y => exact .outOfOperations y
  | unsupported u     => exact .error rfl
  | ok c              => exact .ok c

theorem eq_of_not_isLimit (h : l.Below x y) (hx : ∀ e, x = .error e → e.isLimit = false) :
    y = x := by
  cases h with
  | tooDeep y         => cases hx _ rfl
  | outOfOperations y => cases hx _ rfl
  | error h           => rfl
  | ok b              => rfl

theorem eq_maxDepth {k : Nat} (h : l.Below x y) (hx : x = .error (.tooDeep k)) :
    k = l.maxDepth := by
  subst hx
  cases h with
  | tooDeep y => rfl
  | error h   => cases h

theorem eq_maxOperations {k : Nat} (h : l.Below x y) (hx : x = .error (.outOfOperations k)) :
    k = l.maxOperations := by
  subst hx
  cases h with
  | outOfOperations y => rfl
  | error h           => cases h

end Limits.Below

namespace Metered

def Below (l l' : Limits) (x y : Metered α β) : Prop :=
  ∀ used, l.Below ((ReaderT.run x l).run used) ((ReaderT.run y l').run used)

variable {l l' : Limits} {x y : Metered α β}

namespace Below

theorem pure (b : β) : Below (α := α) l l' (pure b) (pure b) :=
  fun used => .ok (b, used)

theorem throw {e : Error α} (h : e.isLimit = false) :
    Below (β := β) l l' (throw e) (throw e) :=
  fun _ => .error h

theorem bind {f g : β → Metered α γ} (h : Below l l' x y) (hf : ∀ b, Below l l' (f b) (g b)) :
    Below l l' (x >>= f) (y >>= g) :=
  fun used => (h used).bind fun r => hf r.1 r.2

theorem lift {z : Except (Error α) β} (h : l.Below z z) :
    Below l l' (liftM z : Metered α β) (liftM z) :=
  fun used => h.bind fun b => .ok (b, used)

theorem run (h : Below l l' x y) : l.Below (Metered.run x l) (Metered.run y l') :=
  (h 0).map fun r : β × Nat => r.1

-- What corresponds for the same numbers is the same.
theorem of_mirrors (h : Mirrors id y x) (hl : l ≤ l') : Below l l' x y :=
  fun used => .of_mirrored (h hl used) Prod.map_id

theorem step (hl : l ≤ l') (depth : Nat) : Below (α := α) l l' (step depth) (step depth) :=
  .of_mirrors (Mirrors.step depth) hl

end Below

end Metered

end InfixAlgebra

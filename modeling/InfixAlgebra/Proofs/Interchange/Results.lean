import InfixAlgebra.Interchange.Envelope
import InfixAlgebra.Proofs.Interchange.Matrices

namespace InfixAlgebra

namespace Json

variable {items : List Json} {fields : List (List Char × Json)}

inductive HasNull : Json → Prop
  | null : HasNull null
  | array {items : List Json} {v : Json} (hv : v ∈ items) (h : HasNull v) : HasNull (array items)
  | object {fields : List (List Char × Json)} {f : List Char × Json} (hf : f ∈ fields)
      (h : HasNull f.2) : HasNull (object fields)

theorem hasNull_array : (array items).HasNull ↔ ∃ v ∈ items, v.HasNull where
  mp h := by
    cases h with
    | array hv h => exact ⟨_, hv, h⟩
  mpr := fun ⟨_, hv, h⟩ => .array hv h

theorem hasNull_object : (object fields).HasNull ↔ ∃ f ∈ fields, f.2.HasNull where
  mp h := by
    cases h with
    | object hf h => exact ⟨_, hf, h⟩
  mpr := fun ⟨_, hf, h⟩ => .object hf h

theorem not_hasNull_ofNumber (x : Float) : ¬(ofNumber x).HasNull := by
  intro h
  by_cases hx : x.isFinite
  case pos => rw [ofNumber_of_finite hx] at h; cases h
  case neg =>
    have ⟨s, hs⟩ := exists_ofNumber_eq_string hx
    rw [hs] at h
    cases h

theorem hasNull_ofPlainNumber (x : Float) : (ofPlainNumber x).HasNull ↔ ¬x.isFinite := by
  by_cases hx : x.isFinite
  case pos =>
    rw [ofPlainNumber_of_finite hx]
    exact ⟨nofun, fun h => absurd hx h⟩
  case neg =>
    rw [ofPlainNumber_of_not_finite hx]
    exact ⟨fun _ => hx, fun _ => .null⟩

end Json

-- Numbers that have the same data, where those that are not finite are left out or kept.
def Alike (plain : Bool) (x y : Float) : Prop :=
  x = y ∨ plain ∧ ¬x.isFinite ∧ ¬y.isFinite

theorem forall₂_alike_false {xs ys : List Float} : List.Forall₂ (Alike false) xs ys ↔ xs = ys := by
  have halike : Alike false = Eq := by
    ext x y
    simp [Alike]
  rw [halike, List.forall₂_eq_eq_eq]

theorem forall₂_alike_true {xs ys : List Float} :
    List.Forall₂ (Alike true) xs ys ↔ xs.map Json.ofPlainNumber = ys.map Json.ofPlainNumber := by
  have halike : Alike true = fun x y => Json.ofPlainNumber x = Json.ofPlainNumber y := by
    ext x y
    simp [Alike, Json.ofPlainNumber_eq_iff]
  rw [halike, ← List.forall₂_eq_eq_eq, List.forall₂_map_left_iff, List.forall₂_map_right_iff]

theorem map_ofNumber_injective :
    Function.Injective (List.map Json.ofNumber : List Float → List Json) :=
  List.map_injective_iff.mpr fun _ _ => Json.ofNumber_inj

namespace Matrix

variable {m m' : Matrix Float}

theorem not_hasNull_toJson (m : Matrix Float) : ¬m.toJson.HasNull := by
  unfold toJson
  split <;> simp [Json.hasNull_array, Json.not_hasNull_ofNumber]

theorem toJson_eq_iff (hm : m.WellFormed) (hm' : m'.WellFormed) (hshape : m.shape = m'.shape) :
    m.toJson = m'.toJson ↔ m.data.toList = m'.data.toList := by
  simp only [shape, Shape.mk.injEq] at hshape
  obtain ⟨hrows, hcols, hvector⟩ := hshape
  constructor
  case mp =>
    intro h
    unfold toJson at h
    rw [hvector] at h
    split at h
    case isTrue  => exact map_ofNumber_injective (Json.array.inj h)
    case isFalse =>
      have hinjective : Function.Injective fun row : List Float => Json.array (row.map .ofNumber) :=
        fun _ _ hrow => map_ofNumber_injective (Json.array.inj hrow)
      have htable : m.toRows = m'.toRows := hinjective.list_map (Json.array.inj h)
      rw [← flatten_toRows hm, htable, flatten_toRows hm']
  case mpr =>
    intro h
    have heq : m = m' := by
      cases m
      cases m'
      simp_all [Array.toList_inj]
    rw [heq]

end Matrix

namespace Value

variable {v v' : Value Float}

def numbers : Value Float → List Float
  | scalar x => [x]
  | matrix m => m.data.toList

theorem not_hasNull_toJson (v : Value Float) : ¬v.toJson.HasNull := by
  cases v with
  | scalar x => exact Json.not_hasNull_ofNumber x
  | matrix m => exact m.not_hasNull_toJson

theorem wellSpelled_toJson (v : Value Float) : v.toJson.WellSpelled := by
  cases v with
  | scalar x => exact Json.wellSpelled_ofNumber x
  | matrix m => exact m.wellSpelled_toJson

theorem toJson_eq_iff (hv : v.WellFormed) (hv' : v'.WellFormed) (hshape : v.shape = v'.shape) :
    v.toJson = v'.toJson ↔ v.numbers = v'.numbers := by
  cases v with
  | scalar x =>
    cases v' with
    | matrix m' => cases hshape
    | scalar y =>
      rw [toJson, toJson, numbers, numbers, List.singleton_inj]
      exact ⟨Json.ofNumber_inj, congrArg _⟩
  | matrix m =>
    cases v' with
    | scalar y  => cases hshape
    | matrix m' => exact Matrix.toJson_eq_iff hv hv' (ValueShape.matrix.inj hshape)

end Value

namespace Solution

variable {s s' : Solution Float}

inductive Form
  | values (count : Nat)
  | named (names : List String)

def form : Solution Float → Form
  | values xs => .values xs.length
  | named xs  => .named (xs.entries.map (·.1))

theorem hasNull_toJson : s.toJson.HasNull ↔ ∃ x ∈ s.toList, ¬x.isFinite := by
  cases s with
  | values xs => simp [toJson, toList, Json.hasNull_array, Json.hasNull_ofPlainNumber]
  | named xs  =>
    simp only [toJson, toList, Json.ofFields, NameMap.values, Json.hasNull_object, List.map_map,
      List.mem_map, exists_exists_and_eq_and, Function.comp_apply, Json.hasNull_ofPlainNumber]

theorem wellSpelled_toJson (s : Solution Float) : s.toJson.WellSpelled := by
  cases s with
  | values xs =>
    refine .array fun v hv => ?_
    have ⟨x, _, hx⟩ := List.mem_map.mp hv
    exact hx ▸ Json.wellSpelled_ofPlainNumber x
  | named xs =>
    refine .object (fun f hf => ?_) fun f hf => ?_
    all_goals
      simp only [List.map_map, List.mem_map] at hf
      obtain ⟨⟨name, x⟩, _, rfl⟩ := hf
    · exact ⟨name, rfl⟩
    · exact Json.wellSpelled_ofPlainNumber x

theorem map_entries_eq_iff {es es' : List (String × Float)}
    (hnames : es.map (·.1) = es'.map (·.1)) :
    es.map (fun e => (Json.escape e.1, Json.ofPlainNumber e.2)) =
        es'.map (fun e => (Json.escape e.1, Json.ofPlainNumber e.2)) ↔
      (es.map (·.2)).map Json.ofPlainNumber = (es'.map (·.2)).map Json.ofPlainNumber := by
  induction es generalizing es' with
  | nil          => cases es' <;> simp_all
  | cons e es ih => cases es' <;> simp_all

theorem toJson_eq_iff (hform : s.form = s'.form) :
    s.toJson = s'.toJson ↔ List.Forall₂ (Alike true) s.toList s'.toList := by
  rw [forall₂_alike_true]
  cases s with
  | values xs =>
    cases s' with
    | named ys  => cases hform
    | values ys => exact Json.array.injEq .. ▸ Iff.rfl
  | named xs =>
    cases s' with
    | values ys => cases hform
    | named ys  =>
      simp only [toJson, Json.ofFields, List.map_map, Json.object.injEq]
      exact map_entries_eq_iff (Form.named.inj hform)

end Solution

inductive Payload
  | value (v : Value Float)
  | matrix (m : Matrix Float)
  | solution (s : Solution Float)
  | number (x : Float)

namespace Payload

variable {p p' : Payload}

def toJson : Payload → Json
  | value v    => v.toJson
  | matrix m   => m.toJson
  | solution s => s.toJson
  | number x   => .ofPlainNumber x

def numbers : Payload → List Float
  | value v    => v.numbers
  | matrix m   => m.data.toList
  | solution s => s.toList
  | number x   => [x]

def WellFormed : Payload → Prop
  | value v  => v.WellFormed
  | matrix m => m.WellFormed
  | _        => True

inductive Form
  | value (s : ValueShape)
  | matrix (s : Shape)
  | solution (s : Solution.Form)
  | number

def form : Payload → Form
  | value v    => .value v.shape
  | matrix m   => .matrix m.shape
  | solution s => .solution s.form
  | number _   => .number

def isPlain : Payload → Bool
  | solution _ | number _ => true
  | value _ | matrix _    => false

theorem wellSpelled_toJson (p : Payload) : p.toJson.WellSpelled := by
  cases p with
  | value v    => exact v.wellSpelled_toJson
  | matrix m   => exact m.wellSpelled_toJson
  | solution s => exact s.wellSpelled_toJson
  | number x   => exact Json.wellSpelled_ofPlainNumber x

theorem hasNull_toJson : p.toJson.HasNull ↔ p.isPlain ∧ ∃ x ∈ p.numbers, ¬x.isFinite := by
  cases p with
  | value v    => simp [toJson, isPlain, v.not_hasNull_toJson]
  | matrix m   => simp [toJson, isPlain, m.not_hasNull_toJson]
  | solution s => simpa [toJson, isPlain, numbers] using Solution.hasNull_toJson
  | number x   => simp [toJson, isPlain, numbers, Json.hasNull_ofPlainNumber]

theorem toJson_eq_iff (hp : p.WellFormed) (hp' : p'.WellFormed) (hform : p.form = p'.form) :
    p.toJson = p'.toJson ↔ List.Forall₂ (Alike p.isPlain) p.numbers p'.numbers := by
  cases p with
  | value v =>
    cases p' with
    | value v' =>
      refine (Value.toJson_eq_iff hp hp' (Form.value.inj hform)).trans ?_
      exact forall₂_alike_false.symm
    | _        => cases hform
  | matrix m =>
    cases p' with
    | matrix m' =>
      refine (Matrix.toJson_eq_iff hp hp' (Form.matrix.inj hform)).trans ?_
      exact forall₂_alike_false.symm
    | _         => cases hform
  | solution s =>
    cases p' with
    | solution s' => exact Solution.toJson_eq_iff (Form.solution.inj hform)
    | _           => cases hform
  | number x =>
    cases p' with
    | number y => simp [toJson, isPlain, numbers, Alike, Json.ofPlainNumber_eq_iff]
    | _        => cases hform

end Payload

namespace Envelope

variable {e : Envelope} {label : String} {p p' : Payload}

def dataOf? (text : String) : Option Json := do
  match Json.allAt "data" (← (← Json.parse? text).fields?) with
  | [data] => some data
  | _      => none

theorem wellSpelled_toJson (h : e.data.WellSpelled) : e.toJson.WellSpelled := by
  refine .object ?_ ?_
  · simp only [List.map_cons, List.map_nil, List.forall_mem_cons]
    exact ⟨⟨_, rfl⟩, ⟨_, rfl⟩, ⟨_, rfl⟩, nofun⟩
  · simp only [List.map_cons, List.map_nil, List.forall_mem_cons]
    exact ⟨.bool _, .string _, h, nofun⟩

theorem dataOf?_render (h : e.data.WellSpelled) : dataOf? e.render = some e.data := by
  have hfields : e.toJson.fields? =
      some [("success", .bool e.success), ("message", .ofText e.message), ("data", e.data)] :=
    rfl
  have hdata : Json.allAt "data" [("success", .bool e.success), ("message", .ofText e.message),
      ("data", e.data)] = [e.data] :=
    rfl
  simp [dataOf?, render, Json.parse?_pretty (wellSpelled_toJson h), hfields, hdata]

def textOf (label : String) (p : Payload) : String :=
  (ofResult label (.ok p.toJson : Except (Error Float) Json)).render

-- The data of a result has a null just where a number that is not finite stands in a solution or
-- on its own. But for these numbers, results of one form are told apart.
theorem data_of_results (hp : p.WellFormed) (hp' : p'.WellFormed) (hform : p.form = p'.form)
    (label label' : String) :
    ∃ d d', dataOf? (textOf label p) = some d ∧ dataOf? (textOf label' p') = some d' ∧
      (d.HasNull ↔ p.isPlain ∧ ∃ x ∈ p.numbers, ¬x.isFinite) ∧
      (d = d' ↔ List.Forall₂ (Alike p.isPlain) p.numbers p'.numbers) :=
  ⟨p.toJson, p'.toJson, dataOf?_render p.wellSpelled_toJson, dataOf?_render p'.wellSpelled_toJson,
    Payload.hasNull_toJson, Payload.toJson_eq_iff hp hp' hform⟩

-- Infinities of two signs, as entries of a matrix and as numbers of a solution.
theorem data_of_results_with_infinities :
    let p : Payload := .matrix ⟨1, 2, #[0 / 0, 1 / 0], false⟩
    let p' : Payload := .matrix ⟨1, 2, #[0 / 0, -(1 / 0)], false⟩
    let q : Payload := .solution (.values [0.5, 1 / 0])
    let q' : Payload := .solution (.values [0.5, -(1 / 0)])
    (∃ d d', dataOf? (textOf "Product" p) = some d ∧ dataOf? (textOf "Product" p') = some d' ∧
      ¬d.HasNull ∧ d ≠ d') ∧
      ∃ d d', dataOf? (textOf "Solved" q) = some d ∧ dataOf? (textOf "Solved" q') = some d' ∧
        d.HasNull ∧ d = d' := by
  intro p p' q q'
  have hp : p.WellFormed := ⟨rfl, by simp⟩
  have hp' : p'.WellFormed := ⟨rfl, by simp⟩
  have hinfinite : ¬(1 / 0 : Float).isFinite ∧ ¬(-(1 / 0) : Float).isFinite := by decide +kernel
  have ⟨d, d', hd, hd', hnull, heq⟩ := data_of_results hp hp' rfl "Product" "Product"
  have hq : q.WellFormed := trivial
  have hq' : q'.WellFormed := trivial
  have ⟨e, e', he, he', hnull', heq'⟩ := data_of_results hq hq' rfl "Solved" "Solved"
  refine ⟨⟨d, d', hd, hd', ?_, ?_⟩, e, e', he, he', ?_, ?_⟩
  · exact fun h => absurd (hnull.mp h).1 (by decide)
  · intro h
    have hnumbers := forall₂_alike_false.mp (heq.mp h)
    revert hnumbers
    decide +kernel
  · exact hnull'.mpr ⟨rfl, 1 / 0, by simp [q, Payload.numbers, Solution.toList], hinfinite.1⟩
  · exact heq'.mpr (.cons (.inl rfl) (.cons (.inr ⟨rfl, hinfinite⟩) .nil))

-- Two products that are too large, one of either sign, are reported by the same null.
theorem forgets_overflow :
    let data (x : Float) : Option Json := dataOf? (textOf "calculated" (.number x))
    Operation.multiply.calculate (1e308 : Float) 10 = .ok (1 / 0) ∧
      Operation.multiply.calculate (1e308 : Float) (-10) = .ok (-(1 / 0)) ∧
      (1 / 0 : Float) ≠ -(1 / 0) ∧ data (1 / 0) = some .null ∧ data (-(1 / 0)) = some .null := by
  intro data
  have hnull (x : Float) (hx : ¬x.isFinite) : data x = some .null := by
    refine (dataOf?_render (Json.wellSpelled_ofPlainNumber x)).trans (congrArg some ?_)
    exact Json.ofPlainNumber_of_not_finite hx
  exact ⟨by decide +kernel, by decide +kernel, by decide +kernel, hnull _ (by decide +kernel),
    hnull _ (by decide +kernel)⟩

end Envelope

end InfixAlgebra

import Mathlib
import InfixAlgebra.Scalar.Double
import InfixAlgebra.LinearSystem.Solution
import InfixAlgebra.Proofs.LinearSystem.Factorization

namespace InfixAlgebra

namespace NameMap

variable {β : Type} {m : NameMap β} {bindings : List (String × β)} {name key : String} {value : β}

def Ordered (m : NameMap β) : Prop :=
  m.entries.Pairwise (·.1 < ·.1)

theorem mem_insert {entry : String × β} (h : entry ∈ (m.insert key value).entries) :
    entry = (key, value) ∨ entry ∈ m.entries := by
  obtain ⟨entries⟩ := m
  induction entries with
  | nil => simpa [NameMap.insert, insert.go] using h
  | cons head rest ih =>
    simp only [NameMap.insert, insert.go] at h
    split at h
    case isTrue =>
      rcases List.mem_cons.mp h with h | h
      case inl => exact .inr (h ▸ List.mem_cons_self)
      case inr => exact (ih h).imp_right (List.mem_cons_of_mem _)
    case isFalse => split at h <;> grind

theorem Ordered.insert (h : m.Ordered) : (m.insert key value).Ordered := by
  obtain ⟨entries⟩ := m
  induction entries with
  | nil => simp [Ordered, NameMap.insert, insert.go]
  | cons head rest ih =>
    have ⟨hhead, hrest⟩ := List.pairwise_cons.mp h
    simp only [Ordered, NameMap.insert, insert.go]
    split
    case isTrue hlt =>
      refine List.pairwise_cons.mpr ⟨fun entry hentry => ?_, ih hrest⟩
      rcases mem_insert (m := ⟨rest⟩) hentry with h | h
      case inl => exact h ▸ hlt
      case inr => exact hhead entry h
    case isFalse hlt =>
      split
      case isTrue heq => exact List.pairwise_cons.mpr ⟨heq ▸ hhead, hrest⟩
      case isFalse hne =>
        have hkey : key < head.1 := (lt_or_gt_of_ne hne).resolve_left hlt
        refine List.pairwise_cons.mpr ⟨fun entry hentry => ?_, h⟩
        rcases List.mem_cons.mp hentry with h | h
        case inl => exact h ▸ hkey
        case inr => exact hkey.trans (hhead entry h)

theorem find?_insert :
    (m.insert key value).find? name = if name = key then some value else m.find? name := by
  obtain ⟨entries⟩ := m
  induction entries with
  | nil => grind [find?, NameMap.insert, insert.go]
  | cons head rest ih =>
    simp only [find?, NameMap.insert, insert.go] at ih ⊢
    split <;> grind

theorem ofList_append :
    ofList (bindings ++ [(key, value)]) = (ofList bindings).insert key value := by
  simp [ofList, List.foldl_append]

theorem ordered_ofList (bindings : List (String × β)) : (ofList bindings).Ordered := by
  induction bindings using List.reverseRecOn with
  | nil => exact .nil
  | append_singleton bindings b ih => exact ofList_append ▸ ih.insert

-- The last binding of a name counts.
theorem find?_ofList (bindings : List (String × β)) (name : String) :
    (ofList bindings).find? name = bindings.reverse.lookup name := by
  induction bindings using List.reverseRecOn with
  | nil => rfl
  | append_singleton bindings b ih => grind [ofList_append, find?_insert]

theorem Ordered.nodup (h : m.Ordered) : (m.entries.map (·.1)).Nodup :=
  (List.pairwise_map.mpr h).imp fun hlt => hlt.ne

theorem lookup_ne_none_iff {entries : List (String × β)} :
    entries.lookup name ≠ none ↔ name ∈ entries.map (·.1) := by
  rw [ne_eq, List.lookup_eq_none_iff]
  grind

-- There are as many entries as there are different names.
theorem size_ofList (bindings : List (String × β)) :
    (ofList bindings).size = (bindings.map (·.1)).dedup.length := by
  have hperm : ((ofList bindings).entries.map (·.1)).Perm (bindings.map (·.1)).dedup := by
    refine (List.perm_ext_iff_of_nodup (ordered_ofList bindings).nodup (List.nodup_dedup _)).mpr ?_
    intro name
    rw [← lookup_ne_none_iff, ← find?, find?_ofList, lookup_ne_none_iff, List.map_reverse,
      List.mem_reverse, List.mem_dedup]
  simpa [size] using hperm.length_eq

structure Pairs (m : NameMap β) (names : List String) (xs : List β) : Prop where
  size  : m.size = xs.length
  find? : ∀ i (h : i < names.length), m.find? names[i] = xs[i]?

theorem pairs_ofList_zip_iff {names : List String} {xs : List β} (h : names.length = xs.length) :
    (ofList (names.zip xs)).Pairs names xs ↔ names.Nodup := by
  have hnames : (names.zip xs).map (·.1) = names := List.map_fst_zip h.le
  have hsize : (ofList (names.zip xs)).size = names.dedup.length := by
    rw [size_ofList, hnames]
  constructor
  case mp =>
    intro hpairs
    have hlength : names.dedup.length = names.length := by rw [← hsize, hpairs.size, h]
    exact List.dedup_eq_self.mp ((List.dedup_sublist names).eq_of_length hlength)
  case mpr =>
    intro hnodup
    refine ⟨by rw [hsize, hnodup.dedup, h], fun i hi => ?_⟩
    have hmem : (names[i], xs[i]) ∈ (names.zip xs).reverse := by
      rw [List.mem_reverse, ← List.getElem_zip (h := by simp; omega)]
      exact List.getElem_mem _
    have ⟨before, after, heq⟩ := List.append_of_mem hmem
    rw [find?_ofList, List.getElem?_eq_getElem (h ▸ hi), List.lookup_eq_some_iff]
    refine ⟨before, after, heq, fun entry hentry => ?_⟩
    have hkeys : ((before ++ (names[i], xs[i]) :: after).map (·.1)).Nodup := by
      rw [← heq, List.map_reverse, hnames]
      exact List.nodup_reverse.mpr hnodup
    grind

end NameMap

namespace EquationSystem

variable {α : Type} [Scalar α] {s : EquationSystem α} {config : Config α} {names : List String}
  {xs : List α}

-- A solution under names, one for each number, has the last number of each name. This is all of it
-- if no name occurs twice, and only then.
theorem solve_under_names (hnames : names ≠ []) (h : s.solve config [] = .ok (.values xs)) :
    (names.length ≠ xs.length →
      s.solve config names = .error (.shape (.nameCount xs.length names.length))) ∧
    (names.length = xs.length →
      ∃ m, s.solve config names = .ok (.named m) ∧
        (∀ name, m.find? name = (names.zip xs).reverse.lookup name) ∧
        m.size = names.dedup.length ∧ (m.Pairs names xs ↔ names.Nodup)) := by
  have hsolve : s.solve config names = Solution.ofValues xs names := by
    cases s with
    | textual => cases h
    | linear coefficients constants =>
      have ⟨a, ha, h⟩ := exists_of_bind_eq_ok h
      have ⟨x, hx, h⟩ := exists_of_bind_eq_ok h
      cases h
      rw [solve, ha]
      change a.solve config constants >>= _ = _
      rw [hx]
      rfl
  rw [hsolve]
  constructor
  case left =>
    intro hlength
    simp [Solution.ofValues, hnames, hlength]
    rfl
  case right =>
    intro hlength
    have hpairs := NameMap.pairs_ofList_zip_iff hlength
    refine ⟨.ofList (names.zip xs), ?_, NameMap.find?_ofList _, ?_, hpairs⟩
    · simp [Solution.ofValues, hnames, hlength]
      rfl
    · rw [NameMap.size_ofList, List.map_fst_zip hlength.le]

-- Two names for two numbers, and one name that is not enough for both.
theorem solve_under_names_of_two :
    let s : EquationSystem Float := .linear [[2, 1], [1, 3]] [5, 7]
    let config : Config Float := .standard
    s.solve config [] = .ok (.values [1.6, 1.8]) ∧
      (∃ m, s.solve config ["y", "x"] = .ok (.named m) ∧ m.Pairs ["y", "x"] [1.6, 1.8]) ∧
      s.solve config ["y"] = .error (.shape (.nameCount 2 1)) := by
  intro s config
  have h : s.solve config [] = .ok (.values [1.6, 1.8]) := by decide +kernel
  have htwo : ["y", "x"] ≠ [] := nofun
  have hone : ["y"] ≠ [] := nofun
  have ⟨m, hm, _, _, hpairs⟩ := (solve_under_names htwo h).2 rfl
  exact ⟨h, ⟨m, hm, hpairs.mpr (by decide)⟩, (solve_under_names hone h).1 (by decide)⟩

-- Where a name occurs twice, the first of its numbers is forgotten.
theorem solve_forgets_of_repeated_name :
    let s : EquationSystem Float := .linear [[2, 1], [1, 3]] [5, 7]
    let config : Config Float := .standard
    s.solve config [] = .ok (.values [1.6, 1.8]) ∧
      s.solve config ["x", "x"] = .ok (.named ⟨[("x", 1.8)]⟩) ∧
      ¬NameMap.Pairs ⟨[("x", 1.8)]⟩ ["x", "x"] [(1.6 : Float), 1.8] := by
  intro s config
  exact ⟨by decide +kernel, by decide +kernel, fun h => absurd h.size (by decide)⟩

end EquationSystem

end InfixAlgebra

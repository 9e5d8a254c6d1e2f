import Mathlib.Data.List.Forall2
import Mathlib.Data.List.Perm.Subperm
import TypedPipeline.Json
import TypedPipeline.Proofs.Binary64.Whole
import TypedPipeline.Proofs.Keyed

/-!
# Proofs.Json.Agreement: values that are equal as numbers are

This file fixes:

* the values that there are (`Json.Proper`): a whole number has at most 64 bits, a double-precision
  number is finite, and the names of an object ascend;
* what a proper number is in units, and when it is whole (`Number.isIntegral_iff`);
* agreement of scalars (`agrees_refl`, `agrees_symm`);
* agreement at any depth, member by member (`agrees_array_iff`, `agrees_object_iff`), and that it is
  transitive, and symmetric for proper values (`agrees_trans`, `Proper.agrees_symm`);
* literal equality of a proper value with itself (`same_refl`).
-/

namespace TypedPipeline

open Binary64

/-! ## 1. Proper values -/

/-- A number that a value can hold. -/
def Number.Proper : Number → Prop
  | .int i => -2 ^ 63 ≤ i ∧ i < 2 ^ 64
  | .float x => x.isFinite = true

namespace Json

mutual

/-- A value that there is: numbers are proper, and objects list their names in ascending order. -/
def Proper : Json → Prop
  | .number n => n.Proper
  | .array items => ProperItems items
  | .object members => Keyed.Ascending members ∧ ProperMembers members
  | _ => True

def ProperItems : List Json → Prop
  | [] => True
  | item :: rest => item.Proper ∧ ProperItems rest

def ProperMembers : List (String × Json) → Prop
  | [] => True
  | (_, value) :: rest => value.Proper ∧ ProperMembers rest

end

theorem properItems_iff {items : List Json} : ProperItems items ↔ ∀ item ∈ items, item.Proper := by
  induction items with
  | nil => simp [ProperItems]
  | cons item rest ih => simp [ProperItems, ih]

theorem properMembers_iff {members : List (String × Json)} :
    ProperMembers members ↔ ∀ m ∈ members, m.2.Proper := by
  induction members with
  | nil => simp [ProperMembers]
  | cons m rest ih => obtain ⟨name, value⟩ := m; simp [ProperMembers, ih]

end Json

/-! ## 2. Numbers -/

namespace Number

variable {x y : Number}

theorem isFinite_toBinary64 (h : x.Proper) : x.toBinary64.isFinite = true := by
  cases x with
  | int i =>
      simp only [Proper] at h
      exact isFinite_ofInt (by omega)
  | float x => exact h

theorem isNaN_toBinary64 (h : x.Proper) : x.toBinary64.isNaN = false :=
  isNaN_of_isFinite (isFinite_toBinary64 h)

/-- Whatever an integer is rounded to is whole. -/
theorem units_ofInt_whole (i : Int) : ∃ m : Int, (ofInt i).units = m * unitsPerOne := by
  by_cases small : i.natAbs ≤ 2 ^ 53
  · exact ⟨i, units_ofInt small⟩
  · have large : 2 ^ 53 * unitsPerOne ≤ weight (ofInt i).magnitude := by
      have mono := weight_le_weight (roundedMagnitude_mono
        (Nat.mul_le_mul_right unitsPerOne (show 2 ^ 53 ≤ i.natAbs by omega)))
      obtain ⟨m, hm, e⟩ := exists_weight_ofInt (n := 2 ^ 53) (by decide)
      have size : (2 ^ 53 : Int).natAbs = 2 ^ 53 := by decide
      rw [size] at e
      rw [← e, roundedMagnitude_weight (Nat.le_of_lt hm), e] at mono
      rw [magnitude_ofInt]
      exact mono
    have whole : (unitsPerOne : Int) ∣ (ofInt i).units := by
      rw [Int.ofNat_dvd_left, natAbs_units]
      exact unitsPerOne_dvd_weight large
    obtain ⟨m, hm⟩ := whole
    exact ⟨m, by rw [hm, Int.mul_comm]⟩

/-- A proper number is whole if its units make up ones. -/
theorem isIntegral_iff (h : x.Proper) :
    x.isIntegral = true ↔ ∃ m : Int, x.toBinary64.units = m * unitsPerOne := by
  cases x with
  | int i => exact ⟨fun _ => units_ofInt_whole i, fun _ => rfl⟩
  | float x =>
      rw [isIntegral, isInteger_iff, toBinary64]
      exact ⟨fun h => h.2, fun whole => ⟨h, whole⟩⟩

theorem agrees_iff (hx : x.Proper) (hy : y.Proper) :
    x.agrees y = true ↔ x.toBinary64.units = y.toBinary64.units := by
  rw [agrees, equals_iff]
  exact ⟨fun h => h.2.2, fun h => ⟨isNaN_toBinary64 hx, isNaN_toBinary64 hy, h⟩⟩

end Number

/-! ## 3. Scalars -/

namespace Json

/-- Neither an array nor an object. -/
def isScalar : Json → Bool
  | .array _ | .object _ => false
  | _ => true

variable {u v w : Json}

/-- Scalars that agree are equal, or are numbers that agree. -/
theorem agrees_cases (hv : v.isScalar = true) (h : u.agrees v = true) :
    u = v ∨ ∃ x y, u = .number x ∧ v = .number y ∧ x.agrees y = true := by
  cases v with
  | array items => simp [isScalar] at hv
  | object members => simp [isScalar] at hv
  | number y =>
      cases u with
      | number x => exact Or.inr ⟨x, y, rfl, rfl, by simpa [agrees] using h⟩
      | _ => simp [agrees] at h
  | null => cases u <;> simp_all [agrees]
  | bool b => cases u <;> simp_all [agrees]
  | text s => cases u <;> simp_all [agrees]

theorem isScalar_of_agrees (hv : v.isScalar = true) (h : u.agrees v = true) :
    u.isScalar = true := by
  rcases agrees_cases hv h with rfl | ⟨x, y, rfl, rfl, _⟩
  · exact hv
  · rfl

theorem agrees_refl (hv : v.isScalar = true) (proper : v.Proper) : v.agrees v = true := by
  cases v with
  | array items => simp [isScalar] at hv
  | object members => simp [isScalar] at hv
  | number x => rw [agrees, Number.agrees_iff proper proper]
  | _ => simp [agrees]

theorem agrees_symm (hv : v.isScalar = true) (h : u.agrees v = true) : v.agrees u = true := by
  rcases agrees_cases hv h with rfl | ⟨x, y, rfl, rfl, e⟩
  · exact h
  · rw [agrees, Number.agrees, equals_iff] at *
    exact ⟨e.2.1, e.1, e.2.2.symm⟩

theorem agrees_trans_scalar (hw : w.isScalar = true) (h : u.agrees v = true)
    (h' : v.agrees w = true) : u.agrees w = true := by
  rcases agrees_cases hw h' with rfl | ⟨y, z, rfl, rfl, e'⟩
  · exact h
  · rcases agrees_cases rfl h with rfl | ⟨x, _, rfl, e, e''⟩
    · exact h'
    · cases e
      rw [Number.agrees, equals_iff] at e' e''
      rw [agrees, Number.agrees, equals_iff]
      exact ⟨e''.1, e'.2.1, e''.2.2.trans e'.2.2⟩

end Json

/-! ## 4. Values at any depth -/

namespace Json

theorem size_le_of_mem_members {m : String × Json} {members : List (String × Json)}
    (h : m ∈ members) : m.2.size ≤ sizeMembers members := by
  induction members with
  | nil => simp at h
  | cons first rest ih =>
      obtain ⟨name, value⟩ := first
      rcases List.mem_cons.1 h with rfl | h
      · simp [sizeMembers]
      · have := ih h
        simp only [sizeMembers]; omega

/-- **Induction over values.** -/
@[elab_as_elim]
theorem induction {P : Json → Prop} (scalar : ∀ v : Json, v.isScalar = true → P v)
    (array : ∀ items, (∀ item ∈ items, P item) → P (.array items))
    (object : ∀ members : List (String × Json), (∀ m ∈ members, P m.2) → P (.object members))
    (v : Json) : P v := by
  induction hn : v.size using Nat.strongRecOn generalizing v with
  | ind n ih =>
      subst hn
      cases v with
      | array items =>
          refine array _ fun item hi => ih item.size ?_ item rfl
          have := size_le_of_mem hi
          simp only [size]; omega
      | object members =>
          refine object _ fun m hm => ih m.2.size ?_ m.2 rfl
          have := size_le_of_mem_members hm
          simp only [size]; omega
      | _ => exact scalar _ rfl

variable {u v w : Json} {xs ys : List Json}

/-- Arrays agree if they are of one length and their items agree one by one. -/
theorem agrees_array_iff :
    (Json.array xs).agrees (.array ys) = true ↔ List.Forall₂ (fun x y => x.agrees y = true) xs ys := by
  rw [agrees, Bool.and_eq_true, beq_iff_eq]
  induction xs generalizing ys with
  | nil => cases ys <;> simp [agreeItems]
  | cons x xs ih =>
      cases ys with
      | nil => simp
      | cons y ys =>
          rw [agreeItems, Bool.and_eq_true, List.forall₂_cons, ← ih, List.length_cons,
            List.length_cons, Nat.add_right_cancel_iff]
          tauto

theorem agreeMembers_iff {xs : List (String × Json)} {ys : Keyed Json} :
    agreeMembers xs ys = true ↔
      ∀ m ∈ xs, ∃ y, ys.find? m.1 = some y ∧ m.2.agrees y = true := by
  induction xs with
  | nil => simp [agreeMembers]
  | cons m rest ih =>
      obtain ⟨name, x⟩ := m
      rw [agreeMembers, Bool.and_eq_true, ih, List.forall_mem_cons]
      refine and_congr_left fun _ => ?_
      cases ys.find? name <;> simp

theorem agrees_object_iff {xs ys : Keyed Json} :
    (Json.object xs).agrees (.object ys) = true ↔ xs.length = ys.length ∧
      ∀ m ∈ xs, ∃ y, ys.find? m.1 = some y ∧ m.2.agrees y = true := by
  rw [agrees, Bool.and_eq_true, beq_iff_eq, agreeMembers_iff]

/-- What agrees with an array is an array, and what agrees with an object is an object. -/
theorem form_of_agrees (h : u.agrees v = true) :
    (u.isScalar = true ∧ v.isScalar = true) ∨ (∃ xs ys, u = .array xs ∧ v = .array ys) ∨
      ∃ xs ys, u = .object xs ∧ v = .object ys := by
  cases u with
  | array xs => cases v <;> simp_all [agrees]
  | object xs => cases v <;> simp_all [agrees]
  | _ => cases v <;> simp_all [agrees, isScalar]

/-- Agreement carries on from one value to the next, at any depth. -/
theorem agrees_trans (h : u.agrees v = true) (h' : v.agrees w = true) : u.agrees w = true := by
  induction u using Json.induction generalizing v w with
  | scalar u hu =>
      rcases form_of_agrees h with ⟨_, hv⟩ | ⟨_, _, rfl, _⟩ | ⟨_, _, rfl, _⟩
      · rcases form_of_agrees h' with ⟨_, hw⟩ | ⟨_, _, rfl, _⟩ | ⟨_, _, rfl, _⟩
        · exact agrees_trans_scalar hw h h'
        · cases hv
        · cases hv
      · cases hu
      · cases hu
  | array xs ih =>
      rcases form_of_agrees h with ⟨hu, _⟩ | ⟨_, ys, e, rfl⟩ | ⟨_, _, e, _⟩
      · cases hu
      · rcases form_of_agrees h' with ⟨hv, _⟩ | ⟨_, zs, e', rfl⟩ | ⟨_, _, e', _⟩
        · cases hv
        · rw [agrees_array_iff] at h h' ⊢
          have both := (List.forall₂_and_left _ _).2 ⟨ih, h⟩
          clear ih h e e'
          induction both generalizing zs with
          | nil => exact h'
          | cons first _ later =>
              cases h' with
              | cons next rest => exact .cons (first.1 first.2 next) (later _ rest)
        · cases e'
      · cases e
  | object xs ih =>
      rcases form_of_agrees h with ⟨hu, _⟩ | ⟨_, _, e, _⟩ | ⟨_, ys, e, rfl⟩
      · cases hu
      · cases e
      · rcases form_of_agrees h' with ⟨hv, _⟩ | ⟨_, _, e', _⟩ | ⟨_, zs, e', rfl⟩
        · cases hv
        · cases e'
        · rw [agrees_object_iff] at h h' ⊢
          refine ⟨h.1.trans h'.1, fun m hm => ?_⟩
          obtain ⟨y, hy, first⟩ := h.2 m hm
          obtain ⟨z, hz, next⟩ := h'.2 _ (Keyed.mem_of_find? hy)
          exact ⟨z, hz, ih m hm first next⟩

/-- Proper objects that agree have the same names. -/
theorem names_eq_of_agrees {xs ys : Keyed Json} (hx : Keyed.Ascending xs) (hy : Keyed.Ascending ys)
    (h : (Json.object xs).agrees (.object ys) = true) : Keyed.names xs = Keyed.names ys := by
  obtain ⟨count, each⟩ := agrees_object_iff.1 h
  have sub : xs.names ⊆ ys.names := by
    intro name hn
    obtain ⟨m, hm, rfl⟩ := List.mem_map.1 hn
    obtain ⟨y, found, _⟩ := each m hm
    exact List.mem_map.2 ⟨_, Keyed.mem_of_find? found, rfl⟩
  have perm := (List.subperm_of_subset (Keyed.nodup_of_ascending hx) sub).perm_of_length_le
    (by simp [Keyed.names, count])
  exact perm.eq_of_pairwise (fun a b _ _ lt gt => absurd (String.lt_trans lt gt) (String.lt_irrefl _))
    hx hy

/-- Proper objects that agree have under each name nothing, or values that agree. -/
theorem find?_of_agrees {xs ys : Keyed Json} (hx : Keyed.Ascending xs) (hy : Keyed.Ascending ys)
    (h : (Json.object xs).agrees (.object ys) = true) (name : String) :
    (xs.find? name = none ∧ ys.find? name = none) ∨
      ∃ x y, xs.find? name = some x ∧ ys.find? name = some y ∧ x.agrees y = true := by
  have names := names_eq_of_agrees hx hy h
  cases found : xs.find? name with
  | none =>
      refine .inl ⟨rfl, Keyed.find?_eq_none_iff.2 ?_⟩
      rw [← names]
      exact Keyed.find?_eq_none_iff.1 found
  | some x =>
      obtain ⟨y, hy, a⟩ := (agrees_object_iff.1 h).2 _ (Keyed.mem_of_find? found)
      exact .inr ⟨x, y, rfl, hy, a⟩

/-- Agreement of proper values goes both ways. -/
theorem Proper.agrees_symm (pv : v.Proper) (pw : w.Proper) (h : v.agrees w = true) :
    w.agrees v = true := by
  induction v using Json.induction generalizing w with
  | scalar v hv =>
      rcases form_of_agrees h with ⟨_, hw⟩ | ⟨_, _, rfl, _⟩ | ⟨_, _, rfl, _⟩
      · exact Json.agrees_symm hw h
      · cases hv
      · cases hv
  | array xs ih =>
      rcases form_of_agrees h with ⟨hv, _⟩ | ⟨_, ys, e, rfl⟩ | ⟨_, _, e, _⟩
      · cases hv
      · replace pv : ProperItems xs := pv
        replace pw : ProperItems ys := pw
        rw [agrees_array_iff] at h ⊢
        clear e
        induction h with
        | nil => exact .nil
        | cons first _ later =>
            obtain ⟨own, others⟩ := List.forall_mem_cons.1 ih
            exact .cons (own pv.1 pw.1 first) (later others pv.2 pw.2)
      · cases e
  | object xs ih =>
      rcases form_of_agrees h with ⟨hv, _⟩ | ⟨_, _, e, _⟩ | ⟨_, ys, e, rfl⟩
      · cases hv
      · cases e
      · have there := find?_of_agrees pv.1 pw.1 h
        rw [agrees_object_iff] at h ⊢
        refine ⟨h.1.symm, fun m hm => ?_⟩
        have found := Keyed.find?_of_mem (Keyed.nodup_of_ascending pw.1) hm
        rcases there m.1 with ⟨_, absent⟩ | ⟨x, y, hx, hy, a⟩
        · rw [found] at absent
          cases absent
        · rw [found] at hy
          cases hy
          have hx' := Keyed.mem_of_find? hx
          exact ⟨x, hx, ih _ hx' (properMembers_iff.1 pv.2 _ hx') (properMembers_iff.1 pw.2 _ hm) a⟩

end Json

/-! ## 5. Literal equality -/

theorem Number.same_refl {x : Number} (h : x.Proper) : x.same x = true := by
  cases x with
  | int i => simp [same]
  | float x => exact equals_refl (isNaN_of_isFinite h)

namespace Json

mutual

/-- A proper value is literally equal to itself. -/
theorem same_refl : ∀ v : Json, v.Proper → v.same v = true
  | .null, _ => rfl
  | .bool _, _ => by simp [same]
  | .number _, h => Number.same_refl h
  | .text _, _ => by simp [same]
  | .array items, h => sameItems_refl items h
  | .object members, h => sameMembers_refl members h.2

theorem sameItems_refl : ∀ items : List Json, ProperItems items → sameItems items items = true
  | [], _ => rfl
  | item :: rest, h => by simp [sameItems, same_refl item h.1, sameItems_refl rest h.2]

theorem sameMembers_refl : ∀ members : List (String × Json), ProperMembers members →
    sameMembers members members = true
  | [], _ => rfl
  | (name, value) :: rest, h => by
      simp [sameMembers, same_refl value h.1, sameMembers_refl rest h.2]

end

end Json

end TypedPipeline

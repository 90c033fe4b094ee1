import Mathlib
import Scriptlet.Value.Equality

/-!
# Laws of equality

Equality of values compares numbers as floats, what has an identity by identity, and two arrays first by identity and
then element by element.

* `Number.kernel?` — what a float is compared by; NaN has no kernel.
* `Value.Matches same a b` — the values are equal, or they are arrays that `same` relates.
* `Heap.SameWithin h depth i j` — the arrays are one array, or equal element by element at the given depth.
* `Heap.Founded h` — arrays only hold arrays from before them.

Principal results: `Number.beq_iff` — floats are equal exactly if they have the same kernel; `Heap.equalWithin_iff` —
equality as a relation; `Heap.equal_array` — in a founded heap equality of arrays goes all the way down;
`Heap.equal_laws` — equality is a partial equivalence, which only NaN keeps from being one.
-/

set_option autoImplicit false

namespace Scriptlet

/-! ## Numbers -/

namespace Number

open Float.Model

/-- What a float is compared by: itself, but for the sign of a zero.  NaN is equal to nothing. -/
def kernel? : UnpackedFloat → Option UnpackedFloat
  | .notANumber => none
  | .zero _ => some (.zero .positive)
  | x => some x

theorem compare_sign (s s' : UnpackedFloat.Sign) : compare s s' = .eq ↔ s = s' := by
  cases s <;> cases s' <;> simp <;> rfl

theorem compare_magnitude (e e' : Int) (m m' : Nat) :
    (compare e e').then (compare m m') = .eq ↔ m = m' ∧ e = e' := by
  rw [Ordering.then_eq_eq, compare_eq_iff_eq, compare_eq_iff_eq, and_comm]

theorem compare_eq_iff (x y : UnpackedFloat) :
    x.compare y = some .eq ↔ ∃ k, kernel? x = some k ∧ kernel? y = some k := by
  cases x with
  | notANumber => simp [UnpackedFloat.compare, kernel?]
  | infinity s =>
      cases y with
      | infinity s' => simp [UnpackedFloat.compare, kernel?, compare_sign, @eq_comm _ s]
      | notANumber | zero | finite => cases s <;> simp [UnpackedFloat.compare, kernel?]
  | zero s =>
      cases y with
      | infinity s' | finite s' => cases s' <;> simp [UnpackedFloat.compare, kernel?]
      | notANumber | zero => simp [UnpackedFloat.compare, kernel?]
  | finite s m e hm =>
      cases y with
      | infinity s' => cases s <;> cases s' <;> simp [UnpackedFloat.compare, kernel?]
      | notANumber | zero => cases s <;> simp [UnpackedFloat.compare, kernel?]
      | finite s' m' e' hm' =>
          cases s <;> cases s' <;>
            simp [UnpackedFloat.compare, kernel?, -Ordering.then_eq_eq, compare_magnitude, @eq_comm _ m, @eq_comm _ e]

variable {x y z : Float}

/-- **Floats are equal exactly if they have the same kernel.** -/
theorem beq_iff : (x == y) = true ↔ ∃ k, kernel? x.toModel.unpack = some k ∧ kernel? y.toModel.unpack = some k := by
  rw [← compare_eq_iff]
  exact beq_iff_eq (a := x.toModel.unpack.compare y.toModel.unpack) (b := some Ordering.eq)

theorem beq_symm (h : (x == y) = true) : (y == x) = true := by
  obtain ⟨k, hx, hy⟩ := beq_iff.mp h
  exact beq_iff.mpr ⟨k, hy, hx⟩

theorem beq_trans (h : (x == y) = true) (h' : (y == z) = true) : (x == z) = true := by
  obtain ⟨k, hx, hy⟩ := beq_iff.mp h
  obtain ⟨k', hy', hz⟩ := beq_iff.mp h'
  rw [hy] at hy'
  cases hy'
  exact beq_iff.mpr ⟨k, hx, hz⟩

/-- Only NaN has no kernel. -/
theorem kernel?_eq_none (x : UnpackedFloat) : kernel? x = none ↔ x.isNaN = true := by
  cases x <;> simp [kernel?, UnpackedFloat.isNaN]

theorem beq_self_iff (x : Float) : (x == x) = true ↔ x.isNaN = false := by
  have hnan : x.isNaN = true ↔ kernel? x.toModel.unpack = none := (kernel?_eq_none _).symm
  rw [beq_iff, ← Bool.not_eq_true, hnan]
  cases kernel? x.toModel.unpack <;> simp

end Number

/-! ## Values -/

/-- Whether a value is the number NaN. -/
def Value.isNaN : Value → Bool
  | .number x => x.isNaN
  | _ => false

/-- The values are equal by themselves, or they are arrays that `same` relates. -/
inductive Value.Matches (same : ArrayId → ArrayId → Prop) : Value → Value → Prop
  | null : Matches same .null .null
  | bool (b : Bool) : Matches same (.bool b) (.bool b)
  | number {x y : Float} : (x == y) = true → Matches same (.number x) (.number y)
  | string (s : String) : Matches same (.string s) (.string s)
  | array {i j : ArrayId} : same i j → Matches same (.array i) (.array j)
  | function (i : FunctionId) : Matches same (.function i) (.function i)
  | native (i : NativeId) : Matches same (.native i) (.native i)
  | classRef (i : ClassId) : Matches same (.classRef i) (.classRef i)
  | object (i : ObjectId) : Matches same (.object i) (.object i)

namespace Value.Matches

variable {same : ArrayId → ArrayId → Prop} {a b c : Value}

theorem symm (hsame : ∀ {i j}, same i j → same j i) (h : Matches same a b) : Matches same b a := by
  cases h with
  | number hxy => exact .number (Number.beq_symm hxy)
  | array hij => exact .array (hsame hij)
  | null | bool | string | function | native | classRef | object => constructor

theorem trans (hsame : ∀ {i j k}, same i j → same j k → same i k) (h : Matches same a b) (h' : Matches same b c) :
    Matches same a c := by
  cases h with
  | number hxy =>
      cases h' with
      | number hyz => exact .number (Number.beq_trans hxy hyz)
  | array hij =>
      cases h' with
      | array hjk => exact .array (hsame hij hjk)
  | null | bool | string | function | native | classRef | object => exact h'

theorem self_iff (hsame : ∀ i, same i i) : Matches same a a ↔ a.isNaN = false := by
  cases a with
  | number x =>
      refine ⟨?_, fun h => .number ((Number.beq_self_iff x).mpr h)⟩
      intro h
      cases h with
      | number hself => exact (Number.beq_self_iff x).mp hself
  | array i => exact ⟨fun _ => rfl, fun _ => .array (hsame i)⟩
  | null | bool | string | function | native | classRef | object => exact ⟨fun _ => rfl, fun _ => by constructor⟩

end Value.Matches

namespace Heap

/-! ## Elements -/

section Elements

variable {test test' : Value → Value → Bool} {as bs cs : List Value}

theorem pairwise_symm (htest : ∀ {a b}, test a b = true → test b a = true) (h : pairwise test as bs = true) :
    pairwise test bs as = true := by
  induction as generalizing bs with
  | nil =>
      cases bs with
      | nil => rfl
      | cons b bs => cases h
  | cons a as ih =>
      cases bs with
      | nil => cases h
      | cons b bs =>
          simp only [pairwise, Bool.and_eq_true] at h ⊢
          exact ⟨htest h.1, ih h.2⟩

theorem pairwise_trans (htest : ∀ {a b c}, test a b = true → test b c = true → test a c = true)
    (h : pairwise test as bs = true) (h' : pairwise test bs cs = true) : pairwise test as cs = true := by
  induction as generalizing bs cs with
  | nil =>
      cases bs with
      | nil => exact h'
      | cons b bs => cases h
  | cons a as ih =>
      cases bs with
      | nil => cases h
      | cons b bs =>
          cases cs with
          | nil => cases h'
          | cons c cs =>
              simp only [pairwise, Bool.and_eq_true] at h h' ⊢
              exact ⟨htest h.1 h'.1, ih h.2 h'.2⟩

/-- Tests that agree on the elements of the first list. -/
theorem pairwise_congr (htest : ∀ a ∈ as, ∀ b, test a b = test' a b) : pairwise test as bs = pairwise test' as bs := by
  induction as generalizing bs with
  | nil => cases bs <;> rfl
  | cons a as ih =>
      cases bs with
      | nil => rfl
      | cons b bs =>
          rw [pairwise, pairwise, htest a List.mem_cons_self b, ih fun a' ha' => htest a' (List.mem_cons_of_mem _ ha')]

end Elements

/-! ## Depth -/

/-- One array, or two that are equal element by element; at depth zero elements are not looked at. -/
def SameWithin (h : Heap) : Nat → ArrayId → ArrayId → Prop
  | 0, i, j => i = j
  | depth + 1, i, j => i = j ∨ pairwise (h.equalWithin depth) (h.array i) (h.array j) = true

/-- **Equality as a relation.** -/
theorem equalWithin_iff (h : Heap) (depth : Nat) (a b : Value) :
    h.equalWithin depth a b = true ↔ Value.Matches (h.SameWithin depth) a b := by
  constructor
  · intro heq
    unfold equalWithin at heq
    split at heq
    case h_1 => exact .null
    case h_3 => exact .number heq
    case h_5 => exact .array (eq_of_beq heq)
    case h_6 =>
      rw [Bool.or_eq_true, beq_iff_eq] at heq
      exact .array heq
    case h_11 => cases heq
    all_goals
      rw [eq_of_beq heq]
      constructor
  · intro hmatch
    cases hmatch with
    | number hxy => simpa [equalWithin] using hxy
    | array hij =>
        cases depth with
        | zero => simpa [equalWithin, SameWithin] using hij
        | succ depth => simpa [equalWithin, SameWithin] using hij
    | null | bool | string | function | native | classRef | object => simp [equalWithin]

section Laws

variable {h : Heap} {depth : Nat} {a b c : Value}

theorem equalWithin_symm (heq : h.equalWithin depth a b = true) : h.equalWithin depth b a = true := by
  induction depth generalizing a b with
  | zero =>
      rw [equalWithin_iff] at heq ⊢
      exact heq.symm Eq.symm
  | succ depth ih =>
      rw [equalWithin_iff] at heq ⊢
      refine heq.symm fun hij => ?_
      exact hij.imp Eq.symm (pairwise_symm ih)

/-- The identity of arrays may be what makes one pair equal and their elements what makes the other pair equal, at any
level. -/
theorem equalWithin_trans (heq : h.equalWithin depth a b = true) (heq' : h.equalWithin depth b c = true) :
    h.equalWithin depth a c = true := by
  induction depth generalizing a b c with
  | zero =>
      rw [equalWithin_iff] at heq heq' ⊢
      exact heq.trans Eq.trans heq'
  | succ depth ih =>
      rw [equalWithin_iff] at heq heq' ⊢
      refine heq.trans (fun hij hjk => ?_) heq'
      rcases hij with rfl | hij
      · exact hjk
      · rcases hjk with rfl | hjk
        · exact .inr hij
        · exact .inr (pairwise_trans ih hij hjk)

theorem equalWithin_self : h.equalWithin depth a a = true ↔ a.isNaN = false := by
  rw [equalWithin_iff]
  refine Value.Matches.self_iff fun i => ?_
  cases depth with
  | zero => exact rfl
  | succ depth => exact .inl rfl

end Laws

/-! ## All the way down -/

/-- Arrays only hold arrays from before them. -/
def Founded (h : Heap) : Prop := ∀ i j, .array j ∈ h.array i → j < i

/-- In a founded heap any depth greater than the position of an array is deep enough for it. -/
theorem Founded.equalWithin_eq {h : Heap} (hh : h.Founded) {depth depth' : Nat} {a b : Value}
    (ha : ∀ i, a = .array i → i < depth ∧ i < depth') : h.equalWithin depth a b = h.equalWithin depth' a b := by
  induction depth generalizing depth' a b with
  | zero =>
      cases a with
      | array i => exact absurd (ha i rfl).1 (Nat.not_lt_zero i)
      | null | bool | number | string | function | native | classRef | object => cases b <;> simp [equalWithin]
  | succ depth ih =>
      cases a with
      | array i =>
          obtain ⟨hi, hi'⟩ := ha i rfl
          obtain ⟨depth', rfl⟩ := Nat.exists_eq_succ_of_ne_zero (Nat.ne_zero_of_lt hi')
          cases b with
          | array j =>
              have helements : pairwise (h.equalWithin depth) (h.array i) (h.array j) =
                  pairwise (h.equalWithin depth') (h.array i) (h.array j) := by
                refine pairwise_congr fun v hv b => ih fun k hk => ?_
                have hki : k < i := hh i k (hk ▸ hv)
                exact ⟨Nat.lt_of_lt_of_le hki (Nat.lt_succ_iff.mp hi), Nat.lt_of_lt_of_le hki (Nat.lt_succ_iff.mp hi')⟩
              rw [equalWithin, equalWithin, helements]
          | null | bool | number | string | function | native | classRef | object => simp [equalWithin]
      | null | bool | number | string | function | native | classRef | object => cases b <;> simp [equalWithin]

/-- In a founded heap equality of arrays is identity or equality of their elements. -/
theorem Founded.equal_array {h : Heap} (hh : h.Founded) {i : ArrayId} (hi : i < h.arrays.size) (j : ArrayId) :
    h.equal (.array i) (.array j) = (i == j || pairwise h.equal (h.array i) (h.array j)) := by
  have hdeeper : h.equal (.array i) (.array j) = h.equalWithin (h.arrays.size + 1) (.array i) (.array j) := by
    refine hh.equalWithin_eq fun k hk => ?_
    cases hk
    exact ⟨hi, Nat.lt_succ_of_lt hi⟩
  rw [hdeeper]
  rfl

/-- **Equality is a partial equivalence.**  In any heap it is symmetric and transitive, and everything is equal to
itself but the number NaN; an array is, whatever it holds.  Where arrays only hold arrays from before them, arrays are
equal exactly if they are one array or equal element by element, however deep they are nested. -/
theorem equal_laws (h : Heap) :
    (∀ a b, h.equal a b = true → h.equal b a = true) ∧
    (∀ a b c, h.equal a b = true → h.equal b c = true → h.equal a c = true) ∧
    (∀ a, h.equal a a = true ↔ a.isNaN = false) ∧
    (h.Founded → ∀ i j, i < h.arrays.size →
      h.equal (.array i) (.array j) = (i == j || pairwise h.equal (h.array i) (h.array j))) :=
  ⟨fun _ _ => equalWithin_symm, fun _ _ _ => equalWithin_trans, fun _ => equalWithin_self,
    fun hh _ j hi => hh.equal_array hi j⟩

/-- Two arrays that share an array of NaN, and a copy of the latter. -/
def sharedNaN : Heap :=
  { Heap.empty with arrays := #[[.number Number.nan], [.array 0], [.array 0], [.number Number.nan]] }

theorem sharedNaN_founded : sharedNaN.Founded := by
  intro i j hj
  rcases i with _ | _ | _ | i
  · exact absurd hj (by simp [array, sharedNaN])
  · have hzero : j = 0 := by simpa [array, sharedNaN] using hj
    rw [hzero]
    decide
  · have hzero : j = 0 := by simpa [array, sharedNaN] using hj
    rw [hzero]
    decide
  · refine absurd hj ?_
    cases i <;> simp [array, sharedNaN]

/-- The two arrays are equal through the array they share, which is not equal to its copy. -/
theorem equal_laws_sharedNaN :
    sharedNaN.equal (.array 1) (.array 2) = true ∧ sharedNaN.equal (.array 2) (.array 1) = true ∧
    sharedNaN.equal (.array 1) (.array 1) = true ∧ sharedNaN.equal (.array 0) (.array 3) = false ∧
    sharedNaN.equal (.number Number.nan) (.number Number.nan) = false := by
  obtain ⟨hsymm, htrans, hself, hdown⟩ := equal_laws sharedNaN
  have hshared : sharedNaN.equal (.array 1) (.array 2) = true := by decide
  have hcopy := hdown sharedNaN_founded 0 3 (by decide)
  exact ⟨hshared, hsymm _ _ hshared, htrans _ _ _ hshared (hsymm _ _ hshared), hcopy.trans (by decide), by decide⟩

end Heap

end Scriptlet

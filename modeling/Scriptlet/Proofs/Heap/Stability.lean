import Scriptlet.Proofs.Heap.Lasting
import Scriptlet.Value.Text

/-!
# Printing and comparing

The functions that print and compare values are given a depth, and look no further into arrays than that.  Here the two
are relations without a bound: a value has a text, and two values a result, if printing and comparing them comes to an
end.  In an ordered heap they always do, the depth is always enough, and the outcome lasts.

* `Heap.Prints h v t` — printing the value, and the elements of arrays in it, ends with the text `t`.
* `Heap.Compares h a b r` — comparing the values, and the elements of arrays in them pair by pair, ends with `r`.

Principal results: `Founded.prints`, `Founded.compares` — both come to an end where arrays only hold arrays from before
them; `Ordered.prints_iff`, `Ordered.compares_iff` — in every heap in which an ordered one lasts, a value of the ordered
heap has the text that it has there, and two values compare as they do there.  `Prints.not_mem_self` — an array that
holds itself would have no text.
-/

set_option autoImplicit false

namespace Scriptlet

theorem Value.exists_array_or (v : Value) : (∃ i, v = .array i) ∨ ∀ i, v ≠ .array i := by
  cases v <;> simp

theorem Value.exists_arrays_or (a b : Value) :
    (∃ i j, a = .array i ∧ b = .array j) ∨ ∀ i j, a = .array i → b ≠ .array j := by
  rcases a.exists_array_or with ⟨i, hi⟩ | ha
  · rcases b.exists_array_or with ⟨j, hj⟩ | hb
    · exact .inl ⟨i, j, hi, hj⟩
    · exact .inr fun _ j _ => hb j
  · exact .inr fun i _ hi => absurd hi (ha i)

namespace Heap

/-- Printing a value comes to an end with a text. -/
inductive Prints (h : Heap) : Value → String → Prop
  | null : Prints h .null "null"
  | bool (b : Bool) : Prints h (.bool b) (if b then "true" else "false")
  | number (x : Float) : Prints h (.number x) (Number.valueStyle.text x)
  | string (s : String) : Prints h (.string s) s
  /-- All elements are printed, and every element has its own text. -/
  | array {i : ArrayId} (texts : Value → String) : (∀ v ∈ h.array i, Prints h v (texts v)) →
      Prints h (.array i) ("[" ++ ", ".intercalate ((h.array i).map texts) ++ "]")
  | function (i : FunctionId) : Prints h (.function i) ("<fn " ++ (h.function i).name ++ ">")
  | native (i : NativeId) : Prints h (.native i) "<native fn>"
  | classRef (i : ClassId) : Prints h (.classRef i) (h.cls i).name
  | object (i : ObjectId) : Prints h (.object i) ((h.cls (h.object i).cls).name ++ " instance")

/-- Comparing two values comes to an end with a result. -/
inductive Compares (h : Heap) : Value → Value → Bool → Prop
  /-- Values that are not both arrays are compared at once. -/
  | atOnce {a b : Value} {r : Bool} : (∀ i j, a = .array i → b ≠ .array j) →
      (r = true ↔ Value.Matches (fun _ _ => False) a b) → Compares h a b r
  | same (i : ArrayId) : Compares h (.array i) (.array i) true
  /-- Of two arrays the elements in the same places are compared. -/
  | elements {i j : ArrayId} (test : Value → Value → Bool) : i ≠ j →
      (∀ pair ∈ (h.array i).zip (h.array j), Compares h pair.1 pair.2 (test pair.1 pair.2)) →
      Compares h (.array i) (.array j) (pairwise test (h.array i) (h.array j))

/-! ## One outcome -/

section Unique

variable {h : Heap} {a b v : Value}

theorem Prints.unique {t t' : String} (ht : h.Prints v t) (ht' : h.Prints v t') : t = t' := by
  induction ht generalizing t' with
  | array texts _ ih =>
      cases ht' with
      | array texts' hparts' => rw [List.map_congr_left fun w hw => ih w hw (hparts' w hw)]
  | null | bool | number | string | function | native | classRef | object =>
      cases ht'
      rfl

/-- An array that holds itself has no text. -/
theorem Prints.not_mem_self {i : ArrayId} {t : String} (ht : h.Prints (.array i) t) : .array i ∉ h.array i := by
  generalize hv : Value.array i = v at ht
  induction ht generalizing i with
  | array texts _ ih =>
      cases hv
      exact fun hmem => ih _ hmem rfl hmem
  | null | bool | number | string | function | native | classRef | object => cases hv

/-- Tests that agree on the elements in the same places. -/
theorem pairwise_congr_zip {test test' : Value → Value → Bool} {as bs : List Value}
    (htest : ∀ pair ∈ as.zip bs, test pair.1 pair.2 = test' pair.1 pair.2) :
    pairwise test as bs = pairwise test' as bs := by
  induction as generalizing bs with
  | nil => cases bs <;> rfl
  | cons a as ih =>
      cases bs with
      | nil => rfl
      | cons b bs =>
          have hfirst := htest (a, b) List.mem_cons_self
          rw [pairwise, pairwise, hfirst, ih fun pair hpair => htest pair (List.mem_cons_of_mem _ hpair)]

theorem Compares.unique {r r' : Bool} (hr : h.Compares a b r) (hr' : h.Compares a b r') : r = r' := by
  induction hr generalizing r' with
  | atOnce hflat hmatch =>
      cases hr' with
      | atOnce _ hmatch' => exact Bool.eq_iff_iff.mpr (hmatch.trans hmatch'.symm)
      | same i | elements => exact absurd rfl (hflat _ _ rfl)
  | same i =>
      cases hr' with
      | atOnce hflat => exact absurd rfl (hflat i i rfl)
      | same => rfl
      | elements _ hne => exact absurd rfl hne
  | elements test hne _ ih =>
      cases hr' with
      | atOnce hflat => exact absurd rfl (hflat _ _ rfl)
      | same => exact absurd rfl hne
      | elements test' _ hparts' => exact pairwise_congr_zip fun pair hpair => ih pair hpair (hparts' pair hpair)

end Unique

/-! ## An outcome -/

section Founded

variable {h : Heap} {a b v : Value} {depth : Nat}

/-- Any depth is enough for what is not an array. -/
theorem prints_atOnce (h : Heap) (depth : Nat) (hv : ∀ i, v ≠ .array i) : h.Prints v (h.textWithin depth v) := by
  cases v with
  | array i => exact absurd rfl (hv i)
  | null | bool | number | string | function | native | classRef | object =>
      rw [textWithin]
      constructor

/-- **Printing comes to an end** with what is printed at any depth greater than the position of the array. -/
theorem Founded.prints (hh : h.Founded) (hv : ∀ i, v = .array i → i < depth) : h.Prints v (h.textWithin depth v) := by
  induction depth generalizing v with
  | zero => exact h.prints_atOnce 0 fun i hi => Nat.not_lt_zero i (hv i hi)
  | succ depth ih =>
      rcases v.exists_array_or with ⟨i, rfl⟩ | hflat
      · rw [textWithin]
        refine .array (h.textWithin depth) fun w hw => ih fun j hj => ?_
        exact Nat.lt_of_lt_of_le (hh i j (hj ▸ hw)) (Nat.le_of_lt_succ (hv i rfl))
      · exact h.prints_atOnce _ hflat

/-- Values that are not both arrays match by themselves or not at all. -/
theorem equalWithin_atOnce (h : Heap) (depth : Nat) (hflat : ∀ i j, a = .array i → b ≠ .array j) :
    h.equalWithin depth a b = true ↔ Value.Matches (fun _ _ => False) a b := by
  rw [equalWithin_iff]
  constructor
  · intro hmatch
    cases hmatch with
    | array => exact absurd rfl (hflat _ _ rfl)
    | number hxy => exact .number hxy
    | null | bool | string | function | native | classRef | object => constructor
  · intro hmatch
    cases hmatch with
    | array hfalse => exact hfalse.elim
    | number hxy => exact .number hxy
    | null | bool | string | function | native | classRef | object => constructor

/-- **Comparing comes to an end** with the result of any depth greater than the position of the first array. -/
theorem Founded.compares (hh : h.Founded) (ha : ∀ i, a = .array i → i < depth) :
    h.Compares a b (h.equalWithin depth a b) := by
  induction depth generalizing a b with
  | zero =>
      have hflat : ∀ i j, a = .array i → b ≠ .array j := fun i j hi => absurd (ha i hi) (Nat.not_lt_zero i)
      exact .atOnce hflat (h.equalWithin_atOnce 0 hflat)
  | succ depth ih =>
      rcases a.exists_arrays_or b with ⟨i, j, rfl, rfl⟩ | hflat
      · rw [equalWithin]
        by_cases hij : i = j
        · rw [hij, beq_self_eq_true, Bool.true_or]
          exact .same j
        · rw [beq_false_of_ne hij, Bool.false_or]
          refine .elements (h.equalWithin depth) hij fun pair hpair => ih fun k hk => ?_
          have hmem : .array k ∈ h.array i := hk ▸ (List.of_mem_zip hpair).1
          exact Nat.lt_of_lt_of_le (hh i k hmem) (Nat.le_of_lt_succ (ha i rfl))
      · exact .atOnce hflat (h.equalWithin_atOnce _ hflat)

end Founded

/-! ## A lasting outcome -/

section Lasts

variable {h h' : Heap} {a b v : Value}

/-- Only arrays of the heap are among the values it holds. -/
theorem Holds.lt {i : ArrayId} (hv : h.Holds v) (hi : v = .array i) : i < h.arrays.size := by
  subst hi
  exact hv (.array i) rfl

theorem Ordered.prints_lasts (hh : h.Ordered) (g : h.Lasts h') (hv : h.Holds v) {t : String} (ht : h.Prints v t) :
    h'.Prints v t := by
  induction ht with
  | @array i texts _ ih =>
      rw [← g.arrays i (hv.lt rfl)] at ih ⊢
      exact .array texts fun w hw => ih w hw (hh.element hv (g.arrays i (hv.lt rfl) ▸ hw))
  | function i =>
      rw [← g.functions i (hv _ rfl)]
      exact .function i
  | classRef i =>
      rw [← g.classes i (hv _ rfl)]
      exact .classRef i
  | object i =>
      have hcls := hh.cls hv
      rw [← g.classes _ (hcls _ rfl), ← g.instances i (hv _ rfl)]
      exact .object i
  | null | bool | number | string | native => constructor

theorem Ordered.compares_lasts (hh : h.Ordered) (g : h.Lasts h') (ha : h.Holds a) (hb : h.Holds b) {r : Bool}
    (hr : h.Compares a b r) : h'.Compares a b r := by
  induction hr with
  | atOnce hflat hmatch => exact .atOnce hflat hmatch
  | same i => exact .same i
  | @elements i j test hne _ ih =>
      have hi := g.arrays i (ha.lt rfl)
      have hj := g.arrays j (hb.lt rfl)
      rw [← hi, ← hj] at ih ⊢
      refine .elements test hne fun pair hpair => ih pair hpair ?_ ?_
      · exact hh.element ha (hi ▸ (List.of_mem_zip hpair).1)
      · exact hh.element hb (hj ▸ (List.of_mem_zip hpair).2)

/-- Printing looks the same way into arrays that last. -/
theorem Ordered.textWithin_lasts (hh : h.Ordered) (g : h.Lasts h') (hv : h.Holds v) (depth : Nat) :
    h'.textWithin depth v = h.textWithin depth v := by
  induction depth generalizing v with
  | zero =>
      rcases v.exists_array_or with ⟨i, rfl⟩ | hflat
      · rw [textWithin, textWithin]
      · exact (h'.prints_atOnce 0 hflat).unique (hh.prints_lasts g hv (h.prints_atOnce 0 hflat))
  | succ depth ih =>
      rcases v.exists_array_or with ⟨i, rfl⟩ | hflat
      · have helements : (h.array i).map (h'.textWithin depth) = (h.array i).map (h.textWithin depth) :=
          List.map_congr_left fun w hw => ih (hh.element hv hw)
        rw [textWithin, textWithin, g.arrays i (hv.lt rfl), helements]
      · exact (h'.prints_atOnce _ hflat).unique (hh.prints_lasts g hv (h.prints_atOnce _ hflat))

theorem Ordered.equalWithin_lasts (hh : h.Ordered) (g : h.Lasts h') (ha : h.Holds a) (hb : h.Holds b) (depth : Nat) :
    h'.equalWithin depth a b = h.equalWithin depth a b := by
  induction depth generalizing a b with
  | zero =>
      rcases a.exists_arrays_or b with ⟨i, j, rfl, rfl⟩ | hflat
      · rw [equalWithin, equalWithin]
      · exact Bool.eq_iff_iff.mpr ((h'.equalWithin_atOnce 0 hflat).trans (h.equalWithin_atOnce 0 hflat).symm)
  | succ depth ih =>
      rcases a.exists_arrays_or b with ⟨i, j, rfl, rfl⟩ | hflat
      · have helements : pairwise (h'.equalWithin depth) (h.array i) (h.array j) =
            pairwise (h.equalWithin depth) (h.array i) (h.array j) := by
          refine pairwise_congr_zip fun pair hpair => ih ?_ ?_
          · exact hh.element ha (List.of_mem_zip hpair).1
          · exact hh.element hb (List.of_mem_zip hpair).2
        rw [equalWithin, equalWithin, g.arrays i (ha.lt rfl), g.arrays j (hb.lt rfl), helements]
      · exact Bool.eq_iff_iff.mpr ((h'.equalWithin_atOnce _ hflat).trans (h.equalWithin_atOnce _ hflat).symm)

/-- **The text of a value lasts.** -/
theorem Ordered.text_lasts (hh : h.Ordered) (g : h.Lasts h') (hv : h.Holds v) : h'.text v = h.text v := by
  -- There may be more arrays now, and so a greater depth; the former one was enough.
  have hdepth : h.textWithin h'.arrays.size v = h.textWithin h.arrays.size v :=
    (hh.founded.prints fun _ hi => (hv.lasts g).lt hi).unique (hh.founded.prints fun _ hi => hv.lt hi)
  exact (hh.textWithin_lasts g hv _).trans hdepth

/-- **The result of a comparison lasts.** -/
theorem Ordered.equal_lasts (hh : h.Ordered) (g : h.Lasts h') (ha : h.Holds a) (hb : h.Holds b) :
    h'.equal a b = h.equal a b := by
  have hdepth : h.equalWithin h'.arrays.size a b = h.equalWithin h.arrays.size a b :=
    (hh.founded.compares fun _ hi => (ha.lasts g).lt hi).unique (hh.founded.compares fun _ hi => ha.lt hi)
  exact (hh.equalWithin_lasts g ha hb _).trans hdepth

/-- **Printing a value of an ordered heap comes to an end**, then and later, with the text that the value has. -/
theorem Ordered.prints_iff (hh : h.Ordered) (g : h.Lasts h') (hv : h.Holds v) {t : String} :
    h'.Prints v t ↔ t = h.text v := by
  have ht : h'.Prints v (h.text v) := hh.prints_lasts g hv (hh.founded.prints fun _ hi => hv.lt hi)
  constructor
  · exact fun ht' => ht'.unique ht
  · rintro rfl
    exact ht

/-- **Comparing two values of an ordered heap comes to an end**, then and later, with the result that they have. -/
theorem Ordered.compares_iff (hh : h.Ordered) (g : h.Lasts h') (ha : h.Holds a) (hb : h.Holds b) {r : Bool} :
    h'.Compares a b r ↔ r = h.equal a b := by
  have hr : h'.Compares a b (h.equal a b) := hh.compares_lasts g ha hb (hh.founded.compares fun _ hi => ha.lt hi)
  constructor
  · exact fun hr' => hr'.unique hr
  · rintro rfl
    exact hr

end Lasts

end Heap

end Scriptlet

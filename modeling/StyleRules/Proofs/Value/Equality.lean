import StyleRules.Proofs.Entries
import StyleRules.Value

/-!
# Equality of values up to the order of fields

* `Value.induction`: induction over the items and the fields of a value;
* `Value.hasDistinctKeys`: no object of a value has a key twice;
* `Value.eqv_object_iff`: equal objects agree key by key;
* **`Value.eqv_refl`**, **`Value.eqv_symm`**, **`Value.eqv_trans`**: equality of values without
  double keys is reflexive, symmetric and transitive.
-/

namespace StyleRules

namespace Value

/-- Induction over the items and the fields of a value. -/
@[elab_as_elim]
theorem induction {motive : Value → Prop} (null : motive null) (bool : ∀ b, motive (bool b))
    (number : ∀ n, motive (number n)) (string : ∀ s, motive (string s))
    (array : ∀ items, (∀ v ∈ items, motive v) → motive (array items))
    (object : ∀ fields : Entries Value, (∀ entry ∈ fields, motive entry.2) → motive (object fields))
    (v : Value) : motive v := by
  refine @Value.rec motive (fun items => ∀ v ∈ items, motive v)
    (fun fields => ∀ entry ∈ fields, motive entry.2) (fun entry => motive entry.2)
    null bool number string array object ?_ ?_ ?_ ?_ (fun _ _ h => h) v
  · exact fun _ h => absurd h List.not_mem_nil
  · exact fun _ _ hv hrest => List.forall_mem_cons.mpr ⟨hv, hrest⟩
  · exact fun _ h => absurd h List.not_mem_nil
  · exact fun _ _ hentry hrest => List.forall_mem_cons.mpr ⟨hentry, hrest⟩

theorem exists_object_of_isObject {v : Value} (h : v.isObject = true) :
    ∃ fields : Entries Value, v = object fields := by
  cases v <;> simp_all [isObject, object?]

/-! ## Distinct keys -/

mutual

/-- Whether no object of a value has a key twice. -/
def hasDistinctKeys : Value → Bool
  | array items => itemsHaveDistinctKeys items
  | object fields => decide (Entries.Distinct fields) && fieldsHaveDistinctKeys fields
  | _ => true

/-- Whether no object of some items has a key twice. -/
def itemsHaveDistinctKeys : List Value → Bool
  | [] => true
  | v :: rest => v.hasDistinctKeys && itemsHaveDistinctKeys rest

/-- Whether no object below some fields has a key twice. -/
def fieldsHaveDistinctKeys : List (Text × Value) → Bool
  | [] => true
  | (_, v) :: rest => v.hasDistinctKeys && fieldsHaveDistinctKeys rest

end

theorem hasDistinctKeys_array {items : List Value} :
    (array items).hasDistinctKeys = true ↔ ∀ v ∈ items, v.hasDistinctKeys = true := by
  rw [hasDistinctKeys]
  induction items with
  | nil => simp [itemsHaveDistinctKeys]
  | cons v rest ih => simp [itemsHaveDistinctKeys, ih]

theorem hasDistinctKeys_object {fields : Entries Value} :
    (object fields).hasDistinctKeys = true ↔
      fields.Distinct ∧ ∀ entry ∈ fields, entry.2.hasDistinctKeys = true := by
  have hfields : fieldsHaveDistinctKeys fields = true ↔
      ∀ entry ∈ fields, entry.2.hasDistinctKeys = true := by
    induction fields with
    | nil => simp [fieldsHaveDistinctKeys]
    | cons entry rest ih => simp [fieldsHaveDistinctKeys, ih]
  rw [hasDistinctKeys, Bool.and_eq_true, decide_eq_true_iff, hfields]

/-- The same read off key by key. -/
theorem hasDistinctKeys_object_iff_get? {fields : Entries Value} :
    (object fields).hasDistinctKeys = true ↔
      fields.Distinct ∧ ∀ key, ∀ v ∈ fields.get? key, v.hasDistinctKeys = true := by
  rw [hasDistinctKeys_object]
  refine and_congr_right fun hd => ⟨fun h key v hv => ?_, fun h entry he => ?_⟩
  · exact h (key, v) (Entries.mem_of_get? hv)
  · exact h entry.1 entry.2 ((Entries.mem_iff_get? hd).mp he)

theorem distinct_of_hasDistinctKeys {fields : Entries Value}
    (h : (object fields).hasDistinctKeys = true) : fields.Distinct :=
  (hasDistinctKeys_object.mp h).1

theorem hasDistinctKeys_of_get? {fields : Entries Value}
    (h : (object fields).hasDistinctKeys = true) (key : Text) :
    ∀ v ∈ fields.get? key, v.hasDistinctKeys = true :=
  (hasDistinctKeys_object_iff_get?.mp h).2 key

/-! ## Equality -/

/-- Equal values are built alike. -/
theorem eqv_cases {v w : Value} (h : v.eqv w = true) :
    (v = null ∧ w = null) ∨ (∃ b, v = bool b ∧ w = bool b) ∨
      (∃ m n : Number, v = number m ∧ w = number n ∧ m.eqv n = true) ∨
      (∃ s, v = string s ∧ w = string s) ∨ (∃ a b, v = array a ∧ w = array b) ∨
      ∃ a b : Entries Value, v = object a ∧ w = object b := by
  cases v <;> cases w <;> simp_all [eqv]

theorem eqv_array_iff {a b : List Value} :
    (array a).eqv (array b) = true ↔ List.Forall₂ (fun v w => v.eqv w = true) a b := by
  show eqvItems a b = true ↔ _
  induction a generalizing b with
  | nil => cases b <;> simp [eqvItems]
  | cons v a ih => cases b <;> simp [eqvItems, ih]

theorem eachFieldIn_iff {a b : Entries Value} :
    eachFieldIn a b = true ↔
      ∀ entry ∈ a, ∃ w, b.get? entry.1 = some w ∧ entry.2.eqv w = true := by
  induction a with
  | nil => simp [eachFieldIn]
  | cons entry a ih =>
    obtain ⟨k, v⟩ := entry
    rw [eachFieldIn, Bool.and_eq_true, ih, List.forall_mem_cons]
    refine and_congr_left fun _ => ?_
    rcases b.get? k with _ | w <;> simp

/-- Equal objects agree key by key. -/
theorem eqv_object_iff {a b : Entries Value} (ha : a.Distinct) (hb : b.Distinct) :
    (object a).eqv (object b) = true ↔ Entries.Agree (fun v w => v.eqv w = true) a b := by
  have heqv : (object a).eqv (object b) = (a.length == b.length && eachFieldIn a b) := rfl
  rw [Entries.agree_iff ha hb, heqv, Bool.and_eq_true, beq_iff_eq, eachFieldIn_iff]

/-- **Equality is reflexive.** -/
theorem eqv_refl {v : Value} (h : v.hasDistinctKeys = true) : v.eqv v = true := by
  induction v using Value.induction with
  | null => rfl
  | bool b => exact beq_self_eq_true b
  | number n => exact Number.eqv_refl n
  | string s => exact beq_self_eq_true s
  | array items ih =>
    rw [eqv_array_iff, List.forall₂_same]
    intro v hv
    exact ih v hv (hasDistinctKeys_array.mp h v hv)
  | object fields ih =>
    obtain ⟨hd, hfields⟩ := hasDistinctKeys_object.mp h
    rw [eqv_object_iff hd hd]
    intro key
    rcases hget : fields.get? key with _ | v
    · exact .none
    · have hmem := Entries.mem_of_get? hget
      exact .some (ih _ hmem (hfields _ hmem))

theorem exists_array_of_eqv {a : List Value} {w : Value} (h : (array a).eqv w = true) :
    ∃ b, w = array b := by
  simpa using eqv_cases h

theorem exists_object_of_eqv {a : Entries Value} {w : Value} (h : (object a).eqv w = true) :
    ∃ b : Entries Value, w = object b := by
  simpa using eqv_cases h

theorem exists_object_of_eqv_object {v : Value} {b : Entries Value}
    (h : v.eqv (object b) = true) : ∃ a : Entries Value, v = object a := by
  simpa using eqv_cases h

/-- **Equality is symmetric.** -/
theorem eqv_symm {v w : Value} (hv : v.hasDistinctKeys = true) (hw : w.hasDistinctKeys = true)
    (h : v.eqv w = true) : w.eqv v = true := by
  induction v using Value.induction generalizing w with
  | null =>
    obtain rfl : w = null := by simpa using eqv_cases h
    exact h
  | bool b =>
    obtain rfl : w = bool b := by simpa using eqv_cases h
    exact h
  | number m =>
    obtain ⟨n, rfl, hmn⟩ : ∃ n, w = number n ∧ m.eqv n = true := by simpa using eqv_cases h
    exact Number.eqv_symm hmn
  | string s =>
    obtain rfl : w = string s := by simpa using eqv_cases h
    exact h
  | array items ih =>
    obtain ⟨b, rfl⟩ := exists_array_of_eqv h
    rw [hasDistinctKeys_array] at hv hw
    rw [eqv_array_iff, List.forall₂_iff_get] at h ⊢
    refine ⟨h.1.symm, fun i hi hi' => ?_⟩
    have hmem := List.get_mem items ⟨i, hi'⟩
    exact ih _ hmem (hv _ hmem) (hw _ (List.get_mem b ⟨i, hi⟩)) (h.2 i hi' hi)
  | object fields ih =>
    obtain ⟨b, rfl⟩ := exists_object_of_eqv h
    rw [hasDistinctKeys_object] at hv
    rw [hasDistinctKeys_object_iff_get?] at hw
    rw [eqv_object_iff hv.1 hw.1] at h
    rw [eqv_object_iff hw.1 hv.1]
    refine h.symm fun key u u' hu hu' huu' => ?_
    have hmem := Entries.mem_of_get? hu
    exact ih _ hmem (hv.2 _ hmem) (hw.2 key u' hu') huu'

/-- **Equality is transitive.** -/
theorem eqv_trans {u v w : Value} (hu : u.hasDistinctKeys = true) (hv : v.hasDistinctKeys = true)
    (hw : w.hasDistinctKeys = true) (huv : u.eqv v = true) (hvw : v.eqv w = true) :
    u.eqv w = true := by
  induction u using Value.induction generalizing v w with
  | null =>
    obtain rfl : v = null := by simpa using eqv_cases huv
    exact hvw
  | bool b =>
    obtain rfl : v = bool b := by simpa using eqv_cases huv
    exact hvw
  | number l =>
    obtain ⟨m, rfl, hlm⟩ : ∃ m, v = number m ∧ l.eqv m = true := by simpa using eqv_cases huv
    obtain ⟨n, rfl, hmn⟩ : ∃ n, w = number n ∧ m.eqv n = true := by simpa using eqv_cases hvw
    exact Number.eqv_trans hlm hmn
  | string s =>
    obtain rfl : v = string s := by simpa using eqv_cases huv
    exact hvw
  | array items ih =>
    obtain ⟨b, rfl⟩ := exists_array_of_eqv huv
    obtain ⟨c, rfl⟩ := exists_array_of_eqv hvw
    rw [hasDistinctKeys_array] at hu hv hw
    rw [eqv_array_iff, List.forall₂_iff_get] at huv hvw ⊢
    refine ⟨huv.1.trans hvw.1, fun i hi hi' => ?_⟩
    have hib : i < b.length := huv.1 ▸ hi
    have hmem := List.get_mem items ⟨i, hi⟩
    exact ih _ hmem (hu _ hmem) (hv _ (List.get_mem b ⟨i, hib⟩)) (hw _ (List.get_mem c ⟨i, hi'⟩))
      (huv.2 i hi hib) (hvw.2 i hib hi')
  | object fields ih =>
    obtain ⟨b, rfl⟩ := exists_object_of_eqv huv
    obtain ⟨c, rfl⟩ := exists_object_of_eqv hvw
    rw [hasDistinctKeys_object] at hu
    rw [hasDistinctKeys_object_iff_get?] at hv hw
    rw [eqv_object_iff hu.1 hv.1] at huv
    rw [eqv_object_iff hv.1 hw.1] at hvw
    rw [eqv_object_iff hu.1 hw.1]
    refine huv.trans hvw fun key u v w hu' hv' hw' h1 h2 => ?_
    have hmem := Entries.mem_of_get? hu'
    exact ih _ hmem (hu.2 _ hmem) (hv.2 key v hv') (hw.2 key w hw') h1 h2

end Value

end StyleRules

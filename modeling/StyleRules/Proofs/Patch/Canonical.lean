import StyleRules.Proofs.Patch.Pointwise

/-!
# Change sets of objects

The change set of an object says the same as the object: a field that is a non-empty object becomes
a nested change set, every other field is written as it is. The change sets that come about in this
way are the canonical ones.

* `Value.hasFields`: whether a value is an object that is not empty;
* `ChangeSet.ofValue_eq_ok_iff`: the change set of such an object has the changes of its fields;
* `Change.toValue?_ofValue`, `ChangeSet.toFields_ofFields`: where nothing is there, the value itself
  is written;
* `Change.isCanonical`, `ChangeSet.isCanonical`: no removals, no empty nested sets, and no object
  with fields that is written as a whole;
* `Change.isCanonical_ofValue`, `Change.ofValue_of_isCanonical`: the changes of values are the
  canonical ones;
* **`ChangeSet.ofValue_canonical`**: objects with fields and canonical change sets are in bijection.
-/

namespace StyleRules

/-- Whether a value is an object that is not empty. -/
def Value.hasFields : Value → Bool
  | .object fields => !fields.isEmpty
  | _ => false

theorem Value.hasFields_object {fields : Entries Value} :
    (object fields).hasFields = true ↔ fields ≠ [] := by
  simp [hasFields]

/-! ## The change of a value -/

theorem ChangeSet.ofFields_eq_map (fields : Entries Value) :
    ofFields fields = fields.map fun entry => (entry.1, Change.ofValue entry.2) := by
  induction fields with
  | nil => rfl
  | cons entry rest ih => rw [ofFields, ih, List.map_cons]

theorem Change.ofValue_of_ne_nil {fields : Entries Value} (h : fields ≠ []) :
    ofValue (.object fields) = nested (ChangeSet.ofFields fields) := by
  rw [ofValue, if_neg (by simpa using h)]

theorem Change.ofValue_of_not_hasFields {v : Value} (h : v.hasFields = false) :
    ofValue v = set v := by
  cases v with
  | object fields =>
    rw [ofValue, if_pos (by simpa [Value.hasFields] using h)]
  | _ => rfl

theorem ChangeSet.ofValue_of_ne_nil {fields : Entries Value} (h : fields ≠ []) :
    ofValue (.object fields) = .ok (ofFields fields) := by
  rw [ofValue, if_neg (by simpa using h)]

/-- There is a change set for an object that is not empty, and for no other value. -/
theorem ChangeSet.ofValue_eq_ok_iff {v : Value} {changes : ChangeSet} :
    ofValue v = .ok changes ↔
      ∃ fields : Entries Value, fields ≠ [] ∧ v = .object fields ∧ ofFields fields = changes := by
  constructor
  · intro h
    cases v with
    | object fields =>
      by_cases hne : fields = []
      · subst hne
        cases h
      · rw [ofValue_of_ne_nil hne] at h
        exact ⟨fields, hne, rfl, Except.ok.inj h⟩
    | _ => cases h
  · rintro ⟨fields, hne, rfl, rfl⟩
    exact ofValue_of_ne_nil hne

theorem ChangeSet.exists_ofValue_iff {v : Value} :
    (∃ changes, ofValue v = .ok changes) ↔ v.hasFields = true := by
  simp only [ofValue_eq_ok_iff]
  constructor
  · rintro ⟨changes, fields, hne, rfl, -⟩
    exact Value.hasFields_object.mpr hne
  · intro h
    cases v with
    | object fields => exact ⟨_, fields, Value.hasFields_object.mp h, rfl, rfl⟩
    | _ => cases h

/-! ## From values to changes and back -/

theorem ChangeSet.toFields_ofFields_of {fields : Entries Value}
    (h : ∀ entry ∈ fields, (Change.ofValue entry.2).toValue? = some entry.2) :
    toFields (ofFields fields) = fields := by
  induction fields with
  | nil => rfl
  | cons entry rest ih =>
    obtain ⟨hentry, hrest⟩ := List.forall_mem_cons.mp h
    rw [ofFields, toFields, hentry, ih hrest]

/-- Where nothing is there to merge with, the value itself is written. -/
theorem Change.toValue?_ofValue (v : Value) : (ofValue v).toValue? = some v := by
  induction v using Value.induction with
  | object fields ih =>
    by_cases hne : fields = []
    · subst hne
      rfl
    · rw [ofValue_of_ne_nil hne, toValue?, ChangeSet.toFields_ofFields_of ih]
  | _ => rfl

theorem ChangeSet.toFields_ofFields (fields : Entries Value) :
    toFields (ofFields fields) = fields :=
  toFields_ofFields_of fun entry _ => Change.toValue?_ofValue entry.2

theorem Change.hasDistinctKeys_ofValue (v : Value) :
    (ofValue v).hasDistinctKeys = v.hasDistinctKeys := by
  induction v using Value.induction with
  | object fields ih =>
    by_cases hne : fields = []
    · subst hne
      rfl
    · rw [ofValue_of_ne_nil hne, Bool.eq_iff_iff, Value.hasDistinctKeys_object]
      refine ChangeSet.hasDistinctKeys_iff.trans ?_
      rw [ChangeSet.ofFields_eq_map, Entries.Distinct, Entries.keys_map, List.forall_mem_map]
      exact and_congr_right fun _ => forall₂_congr fun entry he => by rw [ih entry he]
  | _ => rfl

/-! ## Canonical changes -/

mutual

/-- Whether a change is the change of a value: it is no removal, nested changes are not empty, and
no object with fields is written as a whole. -/
def Change.isCanonical : Change → Bool
  | .set value => !value.hasFields
  | .nested changes => !changes.isEmpty && ChangeSet.isCanonical changes
  | .remove => false

/-- Whether some changes are canonical, at any depth. -/
def ChangeSet.isCanonical : ChangeSet → Bool
  | [] => true
  | (_, c) :: rest => c.isCanonical && ChangeSet.isCanonical rest

end

theorem ChangeSet.isCanonical_iff {changes : ChangeSet} :
    changes.isCanonical = true ↔ ∀ entry ∈ changes, entry.2.isCanonical = true := by
  induction changes with
  | nil => simp [isCanonical]
  | cons entry rest ih => simp [isCanonical, ih]

theorem Change.isCanonical_nested {changes : ChangeSet} :
    (nested changes).isCanonical = true ↔ changes ≠ [] ∧ changes.isCanonical = true := by
  simp [isCanonical]

theorem ChangeSet.isCanonical_ofFields_of {fields : Entries Value}
    (h : ∀ entry ∈ fields, (Change.ofValue entry.2).isCanonical = true) :
    isCanonical (ofFields fields) = true := by
  rw [isCanonical_iff, ofFields_eq_map, List.forall_mem_map]
  exact h

theorem ChangeSet.ofFields_ne_nil {fields : Entries Value} (h : fields ≠ []) :
    ofFields fields ≠ [] := by
  rw [ofFields_eq_map]
  simpa using h

/-- The change of a value is canonical. -/
theorem Change.isCanonical_ofValue (v : Value) : (ofValue v).isCanonical = true := by
  induction v using Value.induction with
  | object fields ih =>
    by_cases hne : fields = []
    · subst hne
      rfl
    · rw [ofValue_of_ne_nil hne, isCanonical_nested]
      exact ⟨ChangeSet.ofFields_ne_nil hne, ChangeSet.isCanonical_ofFields_of ih⟩
  | _ => rfl

theorem ChangeSet.ofFields_toFields_of {changes : ChangeSet}
    (h : ∀ entry ∈ changes, ∃ v, entry.2.toValue? = some v ∧ Change.ofValue v = entry.2) :
    ofFields (toFields changes) = changes := by
  induction changes with
  | nil => rfl
  | cons entry rest ih =>
    obtain ⟨⟨v, hv, hback⟩, hrest⟩ := List.forall_mem_cons.mp h
    rw [toFields, hv, ofFields, hback, ih hrest]

/-- A canonical change writes a value, and is the change of that value. -/
theorem Change.ofValue_of_isCanonical {c : Change} (h : c.isCanonical = true) :
    ∃ v, c.toValue? = some v ∧ ofValue v = c := by
  induction c using Change.induction with
  | step c ih =>
    cases c with
    | set value =>
      exact ⟨value, rfl, ofValue_of_not_hasFields (by simpa [isCanonical] using h)⟩
    | nested changes =>
      obtain ⟨hne, hchanges⟩ := isCanonical_nested.mp h
      have hback : ChangeSet.ofFields (ChangeSet.toFields changes) = changes :=
        ChangeSet.ofFields_toFields_of fun entry he =>
          ih changes rfl entry he (ChangeSet.isCanonical_iff.mp hchanges entry he)
      -- a set without fields would come back empty
      have hfields : ChangeSet.toFields changes ≠ [] := by
        intro hnil
        rw [hnil] at hback
        exact hne hback.symm
      exact ⟨_, rfl, by rw [ofValue_of_ne_nil hfields, hback]⟩
    | remove => cases h

theorem ChangeSet.ofFields_toFields {changes : ChangeSet} (h : changes.isCanonical = true) :
    ofFields (toFields changes) = changes :=
  ofFields_toFields_of fun entry he =>
    Change.ofValue_of_isCanonical (isCanonical_iff.mp h entry he)

/-! ## The bijection -/

/-- **Objects with fields and canonical change sets are in bijection.** A value has a change set if
and only if it is an object that is not empty, and the change set then writes that very value, with
the order of keys at every level. A canonical change set that is not empty is the change set of what
it writes, and there are no change sets of values but these. -/
theorem ChangeSet.ofValue_canonical :
    (∀ v : Value, (∃ changes, ofValue v = .ok changes) ↔ v.hasFields = true) ∧
    (∀ v changes, ofValue v = .ok changes →
      changes.toValue = v ∧ changes.hasDistinctKeys = v.hasDistinctKeys) ∧
    (∀ changes : ChangeSet, changes ≠ [] → changes.isCanonical = true →
      ofValue changes.toValue = .ok changes) ∧
    ∀ changes : ChangeSet, (∃ v, ofValue v = .ok changes) ↔
      changes ≠ [] ∧ changes.isCanonical = true := by
  have hback : ∀ changes : ChangeSet, changes ≠ [] → changes.isCanonical = true →
      ofValue changes.toValue = .ok changes := by
    intro changes hne hc
    have heq := ofFields_toFields hc
    refine ofValue_eq_ok_iff.mpr ⟨toFields changes, fun hnil => hne ?_, rfl, heq⟩
    rw [← heq, hnil, ofFields]
  refine ⟨fun v => exists_ofValue_iff, fun v changes h => ?_, hback, fun changes => ⟨?_, ?_⟩⟩
  · obtain ⟨fields, hne, rfl, rfl⟩ := ofValue_eq_ok_iff.mp h
    refine ⟨congrArg Value.object (toFields_ofFields fields), ?_⟩
    rw [← Change.hasDistinctKeys_ofValue, Change.ofValue_of_ne_nil hne]
    rfl
  · rintro ⟨v, h⟩
    obtain ⟨fields, hne, -, rfl⟩ := ofValue_eq_ok_iff.mp h
    exact ⟨ofFields_ne_nil hne,
      isCanonical_ofFields_of fun entry _ => Change.isCanonical_ofValue entry.2⟩
  · rintro ⟨hne, hc⟩
    exact ⟨_, hback changes hne hc⟩

/-- Changes that write an empty object, an array with an object in it, and a field of a field. -/
def sampleCanonical : ChangeSet :=
  [("a".toList, .set (.object [])),
    ("b".toList, .set (.array [.object [("x".toList, .null)]])),
    ("c".toList, .nested [("d".toList, .nested [("e".toList, .set (.string "f".toList))])])]

theorem ChangeSet.ofValue_canonical_sampleCanonical :
    sampleCanonical ≠ [] ∧ sampleCanonical.isCanonical = true ∧
      ofValue sampleCanonical.toValue = .ok sampleCanonical ∧
      ¬ ∃ v, ofValue v = .ok [("c".toList, .nested [])] := by
  obtain ⟨-, -, hback, himage⟩ := ofValue_canonical
  have hne : sampleCanonical ≠ [] := List.cons_ne_nil _ _
  refine ⟨hne, by decide, hback sampleCanonical hne (by decide), ?_⟩
  rw [himage]
  rintro ⟨-, h⟩
  cases h

end StyleRules

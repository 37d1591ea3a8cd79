import StyleRules.Proofs.Patch.Canonical
import StyleRules.Proofs.Patch.Order
import StyleRules.Proofs.Query.Values

/-!
# Merged objects are found

A setter and a filter can be made of the same JSON object. After the setter has merged the object
into a target, the filter accepts the target.

* `Change.Establishes`, `Change.establishes`: what a value makes of any other fits its shape;
* **`Filter.accepts_of_merge`**: the filter of an object accepts what it has been merged into.
-/

namespace StyleRules

/-! ## Merging -/

namespace Change

theorem applies_ofValue (v : Value) (isPresent : Bool) :
    (ofValue v).applies .both isPresent = true := by
  cases h : ofValue v with
  | remove =>
    have hv := toValue?_ofValue v
    rw [h] at hv
    cases hv
  | _ => cases isPresent <;> rfl

/-- What is under a key after a value has been brought in fits the shape of the value, whatever was
there. -/
def Establishes (s : Switches) (v : Value) : Prop :=
  ∀ old : Option Value, (∀ w ∈ old, w.hasDistinctKeys = true) →
    ∃ w, ((ofValue v).outcome .both old).1 = some w ∧
      (Shape.ofValue v).accepts s (some w) = true

end Change

section Establishing

variable {s : Switches}

/-- An object with the fields of another brought in fits the shape of the latter, if each field
does its part. -/
theorem ChangeSet.accepts_applyTo_of {fields inner : Entries Value} (hne : fields ≠ [])
    (hf : fields.Distinct) (hi : (Value.object inner).hasDistinctKeys = true)
    (h : ∀ entry ∈ fields, Change.Establishes s entry.2) :
    (Shape.ofValue (.object fields)).accepts s
      (some (.object (applyTo .both inner (ofFields fields)).1)) = true := by
  obtain ⟨hid, hinner⟩ := Value.hasDistinctKeys_object_iff_get?.mp hi
  have hchanges : Entries.Distinct (ofFields fields) := by
    rw [ofFields_eq_map, Entries.Distinct, Entries.keys_map]
    exact hf
  refine Shape.accepts_ofFields hne fun entry he => ?_
  rw [get?_applyTo hid hchanges, ofFields_eq_map, Entries.get?_map,
    (Entries.mem_iff_get? hf).mp he]
  exact h entry he _ (hinner entry.1)

/-- A value replaces what was there, or it is an object and goes into another one field by
field. -/
theorem Change.establishes {v : Value} (h : v.hasDistinctKeys = true) : Establishes s v := by
  induction v using Value.induction with
  | object fields ih =>
    intro old hold
    obtain ⟨hd, hfields⟩ := Value.hasDistinctKeys_object.mp h
    by_cases hmerge : fields ≠ [] ∧ ∃ inner : Entries Value, old = some (.object inner)
    · obtain ⟨hne, inner, rfl⟩ := hmerge
      refine ⟨_, ?_, ChangeSet.accepts_applyTo_of hne hd (hold _ rfl) fun entry he =>
        ih entry he (hfields entry he)⟩
      rw [ofValue_of_ne_nil hne, outcome_of_object rfl]
    · refine ⟨.object fields, ?_, Shape.accepts_ofValue_self h⟩
      rw [outcome_of_not_object (applies_ofValue _ _), toValue?_ofValue]
      rintro ⟨⟨changes, hchanges⟩, hinner⟩
      refine hmerge ⟨?_, hinner⟩
      rintro rfl
      cases hchanges
  | _ =>
    intro old hold
    refine ⟨_, ?_, Shape.accepts_ofValue_self h⟩
    rw [outcome_of_not_object (applies_ofValue _ _), toValue?_ofValue]
    rintro ⟨⟨changes, hchanges⟩, -⟩
    cases hchanges

end Establishing

/-! ## Setters and filters of one object -/

theorem Setter.exists_ofValue {fields : Entries Value} (hne : fields ≠ []) (mode : Mode) :
    ∃ setter, ofValue (.object fields) mode = .ok setter ∧ setter.mode = mode ∧
      setter.changes = ChangeSet.ofFields fields := by
  have hempty : (ChangeSet.ofFields fields).isEmpty = false := by
    simpa using ChangeSet.ofFields_ne_nil hne
  refine ⟨⟨ChangeSet.ofFields fields, mode, hempty⟩, ?_, rfl, rfl⟩
  rw [ofValue, ChangeSet.ofValue_of_ne_nil hne]
  exact dif_pos hempty

namespace Filter

/-- **A setter establishes what the same object queries.** The setter of a non-empty object applies
to every object. The filter of the object exists unless its texts are searched for and one of them
cannot be, and then it accepts what the setter has made of the target. -/
theorem accepts_of_merge {fields inner : Entries Value} (hne : fields ≠ [])
    (hf : (Value.object fields).hasDistinctKeys = true)
    (hi : (Value.object inner).hasDistinctKeys = true) (s : Switches) :
    ∃ setter changed patch, Setter.ofValue (.object fields) .both = .ok setter ∧
      setter.apply (.object inner) = .ok (changed, patch) ∧
      ((∃ f, compile s (.ofValue (.object fields)) = .ok f) ↔
        (s.stringToRegex = true → ∀ t ∈ (Shape.ofValue (.object fields)).texts,
          Pattern.isSearchable t = true)) ∧
      ∀ f, compile s (.ofValue (.object fields)) = .ok f → f.accepts changed = true := by
  obtain ⟨hd, hfields⟩ := Value.hasDistinctKeys_object.mp hf
  obtain ⟨setter, hsetter, hmode, hchanges⟩ := Setter.exists_ofValue hne .both
  refine ⟨setter, _, _, hsetter, Setter.apply_object setter inner,
    exists_compile_iff_of_toShape rfl, ?_⟩
  intro f hcompile
  -- with all switches off the shape is not compiled, and every other filter is more relaxed
  have hoff : ((Shape.ofValue (.object fields)).compiled .off).accepts .off
      (some (.object (ChangeSet.applyTo setter.mode inner setter.changes).1)) = true := by
    rw [Shape.compiled_of_not rfl, hmode, hchanges]
    exact ChangeSet.accepts_applyTo_of hne hd hi fun entry he =>
      Change.establishes (hfields entry he)
  obtain ⟨-, rfl⟩ := (compile_eq_ok_iff_of_toShape rfl).mp hcompile
  exact Shape.accepts_compiled_mono (Switches.off_le s) _ hoff

/-- An object with a text, a null, an empty object and a field to merge. -/
def sampleMerged : Entries Value :=
  [("a".toList, .string "x  y".toList), ("b".toList, .null), ("c".toList, .object []),
    ("d".toList, .object [("e".toList, .array [.string "z".toList])])]

/-- A target that has some fields of the object already. -/
def sampleReceiver : Entries Value :=
  [("d".toList, .object [("f".toList, .bool true), ("e".toList, .null)]),
    ("c".toList, .object [("g".toList, .null)])]

theorem accepts_of_merge_sampleMerged : ∃ setter changed patch f,
    Setter.ofValue (.object sampleMerged) .both = .ok setter ∧
      setter.apply (.object sampleReceiver) = .ok (changed, patch) ∧
      compile {} (.ofValue (.object sampleMerged)) = .ok f ∧ f.accepts changed = true := by
  obtain ⟨setter, changed, patch, hsetter, happly, hiff, hall⟩ :=
    accepts_of_merge (show sampleMerged ≠ [] by decide) (by decide)
      (show (Value.object sampleReceiver).hasDistinctKeys = true by decide) {}
  have hsearch : ∀ t ∈ (Shape.ofValue (.object sampleMerged)).texts,
      Pattern.isSearchable t = true := by
    intro t ht
    rw [show Shape.texts _ = ["x  y".toList] from rfl, List.mem_singleton] at ht
    rw [ht]
    exact Pattern.isSearchable_of_utf8Size_le (by decide)
  obtain ⟨f, hf⟩ := hiff.mpr fun _ => hsearch
  exact ⟨setter, changed, patch, f, hsetter, happly, hf, hall f hf⟩

theorem not_accepts_of_merge_sampleLongText : sampleLongText ≠ [] ∧
    (Value.object sampleLongText).hasDistinctKeys = true ∧ ∃ setter changed patch,
      Setter.ofValue (.object sampleLongText) .both = .ok setter ∧
      setter.apply (.object []) = .ok (changed, patch) ∧
      ¬ ∃ f, compile {} (.ofValue (.object sampleLongText)) = .ok f ∧ f.accepts changed = true := by
  have hne : sampleLongText ≠ [] := List.cons_ne_nil _ _
  obtain ⟨setter, hsetter, -, -⟩ := Setter.exists_ofValue hne .both
  refine ⟨hne, rfl, setter, _, _, hsetter, Setter.apply_object setter [], ?_⟩
  rintro ⟨f, hf, -⟩
  have htexts := (exists_compile_iff_of_toShape rfl).mp ⟨f, hf⟩ rfl
  have hsearch := Shape.forall_texts_string.mp (Shape.forall_texts_object.mp htexts
    (textKey, .literal (.string (Pattern.sampleCrowd 40000))) List.mem_cons_self)
  rw [Pattern.isSearchable_sampleCrowd] at hsearch
  cases hsearch

end Filter

end StyleRules

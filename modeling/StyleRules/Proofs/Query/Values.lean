import StyleRules.Proofs.Pattern.Sizes
import StyleRules.Proofs.Query.Relaxing
import StyleRules.Proofs.Rule.Json
import StyleRules.Proofs.Value.Equality

/-!
# Shapes of values

* `Shape.compiled_of_not`: nothing is compiled if strings are no patterns;
* `Shape.accepts_ofFields`: an object fits if it has fitting fields;
* **`Shape.accepts_ofValue_self`**: every value fits its own shape;
* `Shape.forall_texts_object`, `Shape.forall_texts_string`: the texts of a shape;
* `Shape.ofTree_eq`: the shape of a rule tree is that of its JSON form;
* `Filter.exists_compile_iff_of_toShape`: when a shape has a filter;
* `Filter.isSearchable_of_compile`: what this says of the texts in an object.
-/

namespace StyleRules

open Pattern (isSearchable isSearchable_of_utf8Size_le)

namespace Shape

theorem ofFields_eq_map (fields : Entries Value) :
    ofFields fields = fields.map fun entry => (entry.1, ofValue entry.2) := by
  induction fields with
  | nil => rfl
  | cons entry rest ih => rw [ofFields, ih, List.map_cons]

theorem compiled_of_not {s : Switches} (h : s.stringToRegex = false) (shape : Shape) :
    shape.compiled s = shape := by
  induction shape using Shape.induction with
  | undefined => rw [compiled] <;> simp
  | null => rw [compiled] <;> simp
  | pattern p => rw [compiled] <;> simp
  | literal value => cases value <;> simp [compiled, h]
  | object entries ih =>
    have hentries : entries.map (fun entry => (entry.1, entry.2.compiled s)) = entries := by
      conv_rhs => rw [← List.map_id entries]
      refine List.map_congr_left fun entry he => ?_
      rw [ih entry he]
      rfl
    rw [compiled, compiledEntries_eq_map, hentries]

/-- An object fits if every entry of the shape finds a fitting field. -/
theorem accepts_ofFields {s : Switches} {fields found : Entries Value} (hne : fields ≠ [])
    (h : ∀ entry ∈ fields, ∃ v, found.get? entry.1 = some v ∧
      (ofValue entry.2).accepts s (some v) = true) :
    (ofValue (.object fields)).accepts s (some (.object found)) = true := by
  rw [ofValue, accepts, ofFields_eq_map, List.isEmpty_map, if_neg (by simpa using hne),
    acceptsEach_iff, List.forall_mem_map]
  intro entry he
  obtain ⟨v, hv, ha⟩ := h entry he
  show acceptsFound s _ (found.get? entry.1) = true
  rw [hv]
  exact ha

/-- **Every value fits its own shape.** -/
theorem accepts_ofValue_self {s : Switches} {v : Value} (h : v.hasDistinctKeys = true) :
    (ofValue v).accepts s (some v) = true := by
  induction v using Value.induction with
  | null => simp [ofValue, accepts, Value.isNull]
  | object fields ih =>
    obtain ⟨hd, hfields⟩ := Value.hasDistinctKeys_object.mp h
    by_cases hne : fields = []
    · subst hne
      rfl
    · refine accepts_ofFields hne fun entry he => ?_
      exact ⟨entry.2, (Entries.mem_iff_get? hd).mp he, ih entry he (hfields entry he)⟩
  | _ =>
    rw [ofValue, accepts]
    · exact Value.eqv_refl h
    all_goals simp

/-! ## Texts -/

theorem forall_texts_object {entries : Entries Shape} {P : Text → Prop} :
    (∀ t ∈ (object entries).texts, P t) ↔ ∀ entry ∈ entries, ∀ t ∈ entry.2.texts, P t := by
  rw [texts]
  induction entries with
  | nil => simp [textsOf]
  | cons entry rest ih =>
    rw [textsOf, List.forall_mem_append, ih, List.forall_mem_cons]

/-- The empty text can always be searched for. -/
theorem forall_texts_string {text : Text} :
    (∀ t ∈ (literal (.string text)).texts, isSearchable t = true) ↔ isSearchable text = true := by
  rw [texts]
  split_ifs with h
  · have hnil : isSearchable [] = true := isSearchable_of_utf8Size_le (by decide)
    rw [List.isEmpty_iff.mp h, hnil]
    simp
  · rw [List.forall_mem_singleton]

/-! ## Rule trees -/

theorem ofEntries_eq_map (t : RuleTree) :
    ofEntries t = t.map fun entry => (entry.1, ofRuleValue entry.2) := by
  induction t with
  | nil => rfl
  | cons entry rest ih => rw [ofEntries, ih, List.map_cons]

mutual

theorem ofRuleValue_eq (value : RuleValue) : ofRuleValue value = ofValue value.toValue := by
  cases value with
  | leaf text => rfl
  | absent => rfl
  | node body => rw [ofRuleValue, RuleValue.toValue, ofValue, ofEntries_eq body]

theorem ofEntries_eq (t : RuleTree) : ofEntries t = ofFields (RuleTree.toFields t) := by
  match t with
  | [] => rfl
  | (key, value) :: rest =>
    rw [ofEntries, RuleTree.toFields, ofFields, ofRuleValue_eq value, ofEntries_eq rest]

end

/-- The shape of a rule tree is that of its JSON form. -/
theorem ofTree_eq (t : RuleTree) : ofTree t = ofValue t.toValue := by
  rw [ofTree, RuleTree.toValue, ofValue, ofEntries_eq]

end Shape

/-! ## Filters of shapes -/

namespace Filter

variable {s : Switches} {spec : Spec} {target : Shape}

theorem compile_eq_ok_iff_of_toShape (h : spec.toShape = .ok target) {f : Filter} :
    compile s spec = .ok f ↔
      target.isCompilable s = true ∧ f = shape (target.compiled s) s := by
  rw [compile_of_toShape h]
  split_ifs with hc
  · rw [Except.ok.injEq, eq_comm, and_iff_right hc]
  · simp [hc]

/-- A shape has a filter unless a text must be searched for and cannot be. -/
theorem exists_compile_iff_of_toShape (h : spec.toShape = .ok target) :
    (∃ f, compile s spec = .ok f) ↔
      (s.stringToRegex = true → ∀ t ∈ target.texts, isSearchable t = true) := by
  rw [← Shape.isCompilable_iff]
  constructor
  · rintro ⟨f, hf⟩
    exact ((compile_eq_ok_iff_of_toShape h).mp hf).1
  · intro hc
    exact ⟨_, (compile_eq_ok_iff_of_toShape h).mpr ⟨hc, rfl⟩⟩

/-- If strings are searched for, the text fields of an object that has a filter can be. -/
theorem isSearchable_of_compile (hs : s.stringToRegex = true) {fields : Entries Value} {f : Filter}
    (h : compile s (.ofValue (.object fields)) = .ok f) {key text : Text}
    (hm : (key, .string text) ∈ fields) : isSearchable text = true := by
  have htexts := (exists_compile_iff_of_toShape rfl).mp ⟨f, h⟩ hs
  rw [Shape.ofValue, Shape.forall_texts_object, Shape.ofFields_eq_map,
    List.forall_mem_map] at htexts
  exact Shape.forall_texts_string.mp (htexts (key, .string text) hm)

/-- An object with a text of many words. -/
def sampleLongText : Entries Value := [(textKey, .string (Pattern.sampleCrowd 40000))]

end Filter

end StyleRules

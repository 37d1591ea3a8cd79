import StyleRules.Proofs.Query.Values

/-!
# Filters of objects look for contained objects

* `Value.Contains`: one value has all that another one has, at every level;
* `Value.contains_object_iff`, `Value.contains_empty_iff`, `Value.contains_iff_eqv`: what contains
  an object, the empty object, and what is no object;
* `Value.contains_self`: every value contains itself;
* `Shape.accepts_ofValue_iff`: with all switches off, the shape of a value fits what contains it;
* **`Filter.accepts_of_contains`**: the filter of an object accepts what contains the object, and
  with all switches off nothing else.
-/

namespace StyleRules

namespace Value

/-- One value has all that another one has: the keys of an object that is not empty, with values
that contain its values. Only the empty object contains the empty object, and what is no object is
contained in what is equal to it. -/
inductive Contains : Value → Value → Prop
  | fields {found fields : Entries Value} : fields ≠ [] → fields.keys ⊆ found.keys →
      (∀ key v w, found.get? key = some v → fields.get? key = some w → Contains v w) →
      Contains (.object found) (.object fields)
  | empty : Contains (.object []) (.object [])
  | equal {v w : Value} : w.isObject = false → v.eqv w = true → Contains v w

theorem contains_iff_eqv {v w : Value} (h : w.isObject = false) :
    v.Contains w ↔ v.eqv w = true := by
  refine ⟨fun hc => ?_, .equal h⟩
  cases hc with
  | equal _ heqv => exact heqv
  | _ => cases h

theorem contains_empty_iff {v : Value} : v.Contains (.object []) ↔ v = .object [] := by
  constructor
  · intro hc
    cases hc with
    | fields hne => exact absurd rfl hne
    | empty => rfl
    | equal h => cases h
  · rintro rfl
    exact .empty

theorem contains_object_iff {v : Value} {fields : Entries Value} (hne : fields ≠ [])
    (hd : fields.Distinct) :
    v.Contains (.object fields) ↔ ∃ found : Entries Value, v = .object found ∧
      ∀ entry ∈ fields, ∃ u, found.get? entry.1 = some u ∧ u.Contains entry.2 := by
  constructor
  · intro hc
    cases hc with
    | @fields found _ _ hkeys hsub =>
      refine ⟨found, rfl, fun entry he => ?_⟩
      have hkey : entry.1 ∈ found.keys := hkeys (List.mem_map.mpr ⟨entry, he, rfl⟩)
      obtain ⟨u, hu⟩ := Option.isSome_iff_exists.mp (Entries.mem_keys_iff.mp hkey)
      exact ⟨u, hu, hsub _ _ _ hu ((Entries.mem_iff_get? hd).mp he)⟩
    | empty => exact absurd rfl hne
    | equal h => cases h
  · rintro ⟨found, rfl, h⟩
    refine .fields hne (fun key hkey => ?_) fun key v w hv hw => ?_
    · obtain ⟨entry, he, rfl⟩ := List.mem_map.mp hkey
      obtain ⟨u, hu, -⟩ := h entry he
      rw [Entries.mem_keys_iff, hu]
      rfl
    · obtain ⟨u, hu, hc⟩ := h (key, w) (Entries.mem_of_get? hw)
      obtain rfl := Option.some.inj (hu.symm.trans hv)
      exact hc

theorem contains_self {v : Value} (h : v.hasDistinctKeys = true) : v.Contains v := by
  induction v using Value.induction with
  | object fields ih =>
    obtain ⟨hd, hfields⟩ := hasDistinctKeys_object.mp h
    by_cases hne : fields = []
    · subst hne
      exact .empty
    · refine (contains_object_iff hne hd).mpr ⟨fields, rfl, fun entry he => ?_⟩
      exact ⟨entry.2, (Entries.mem_iff_get? hd).mp he, ih entry he (hfields entry he)⟩
  | _ => exact .equal rfl (eqv_refl h)

end Value

namespace Shape

/-- With all switches off, a target fits an object that is not empty if it is an object with fitting
fields under all its keys. -/
theorem accepts_ofFields_iff {fields : Entries Value} (hne : fields ≠ []) {t : Value} :
    (ofValue (.object fields)).accepts .off (some t) = true ↔
      ∃ found : Entries Value, t = .object found ∧ ∀ entry ∈ fields,
        ∃ v, found.get? entry.1 = some v ∧ (ofValue entry.2).accepts .off (some v) = true := by
  constructor
  · intro h
    rw [ofValue, accepts, ofFields_eq_map, List.isEmpty_map, if_neg (by simpa using hne),
      acceptsEach_iff, List.forall_mem_map] at h
    have hfound : ∀ entry ∈ fields, ∃ v, t.field? entry.1 = some v ∧
        (ofValue entry.2).accepts .off (some v) = true := by
      intro entry he
      have hentry : acceptsFound .off (ofValue entry.2) (t.field? entry.1) = true := h entry he
      rcases hv : t.field? entry.1 with _ | v
      · rw [hv] at hentry
        cases hentry
      · rw [hv] at hentry
        exact ⟨v, rfl, hentry⟩
    cases t with
    | object found => exact ⟨found, rfl, hfound⟩
    | _ =>
      -- nothing is found in a target that is no object, but the shape asks for some key
      obtain ⟨entry, he⟩ := List.exists_mem_of_ne_nil fields hne
      obtain ⟨v, hv, -⟩ := hfound entry he
      cases hv
  · rintro ⟨found, rfl, h⟩
    exact accepts_ofFields hne h

/-- With all switches off, the shape of a value fits what contains the value. -/
theorem accepts_ofValue_iff {q t : Value} (h : q.hasDistinctKeys = true) :
    (ofValue q).accepts .off (some t) = true ↔ t.Contains q := by
  induction q using Value.induction generalizing t with
  | null =>
    rw [Value.contains_iff_eqv rfl]
    cases t <;> simp [ofValue, accepts, Switches.off, Value.isNull, Value.eqv]
  | object fields ih =>
    obtain ⟨hd, hfields⟩ := Value.hasDistinctKeys_object.mp h
    by_cases hne : fields = []
    · subst hne
      rw [Value.contains_empty_iff]
      show isEmptyObject (some t) = true ↔ t = .object []
      unfold isEmptyObject
      split <;> simp_all
    · rw [accepts_ofFields_iff hne, Value.contains_object_iff hne hd]
      refine exists_congr fun found => and_congr_right fun _ => forall₂_congr fun entry he => ?_
      exact exists_congr fun v => and_congr_right fun _ => ih entry he (hfields entry he)
  | _ =>
    rw [Value.contains_iff_eqv rfl, ofValue, accepts]
    all_goals simp

end Shape

namespace Filter

/-- **The filter of an object accepts what contains the object.** It exists unless the texts of the
object are searched for and one of them cannot be. With all switches off it always exists, and it
accepts nothing else. -/
theorem accepts_of_contains {fields : Entries Value}
    (h : (Value.object fields).hasDistinctKeys = true) :
    (∀ s, (∃ f, compile s (.ofValue (.object fields)) = .ok f) ↔
      (s.stringToRegex = true → ∀ text ∈ (Shape.ofValue (.object fields)).texts,
        Pattern.isSearchable text = true)) ∧
    (∀ s f, compile s (.ofValue (.object fields)) = .ok f →
      f.accepts (.object fields) = true ∧
        ∀ t : Value, t.Contains (.object fields) → f.accepts t = true) ∧
    ∃ f, compile .off (.ofValue (.object fields)) = .ok f ∧
      ∀ t, f.accepts t = true ↔ t.Contains (.object fields) := by
  have hoff : ∀ t : Value, ((Shape.ofValue (.object fields)).compiled .off).accepts .off (some t) =
      true ↔ t.Contains (.object fields) := by
    intro t
    rw [Shape.compiled_of_not rfl, Shape.accepts_ofValue_iff h]
  refine ⟨fun s => exists_compile_iff_of_toShape rfl, fun s f hf => ?_, ?_⟩
  · obtain ⟨-, rfl⟩ := (compile_eq_ok_iff_of_toShape rfl).mp hf
    have haccepts : ∀ t : Value, t.Contains (.object fields) →
        ((Shape.ofValue (.object fields)).compiled s).accepts s (some t) = true :=
      fun t ht => Shape.accepts_compiled_mono (Switches.off_le s) _ ((hoff t).mpr ht)
    exact ⟨haccepts _ (Value.contains_self h), haccepts⟩
  · have hexists : ∃ f, compile .off (.ofValue (.object fields)) = .ok f :=
      (exists_compile_iff_of_toShape rfl).mpr fun hs => absurd hs (by decide)
    obtain ⟨f, hf⟩ := hexists
    obtain ⟨-, rfl⟩ := (compile_eq_ok_iff_of_toShape rfl).mp hf
    exact ⟨_, hf, hoff⟩

/-- A target that has the fields of the query among others, in another order. -/
def sampleHolder : Value :=
  .object [("b".toList, .object [("d".toList, .bool true), ("c".toList, .null)]),
    ("a".toList, .string "x y".toList)]

theorem accepts_of_contains_sampleHolder : sampleQuery.hasDistinctKeys = true ∧
    sampleHolder.Contains sampleQuery ∧
    ∃ f, compile {} (.ofValue sampleQuery) = .ok f ∧ f.accepts sampleHolder = true := by
  have hd : sampleQuery.hasDistinctKeys = true := by decide
  have hcontains : sampleHolder.Contains sampleQuery :=
    (Shape.accepts_ofValue_iff hd).mp (by decide)
  obtain ⟨hiff, hall, -⟩ := accepts_of_contains hd
  have hsearch : ∀ text ∈ (Shape.ofValue sampleQuery).texts, Pattern.isSearchable text = true := by
    intro text htext
    rw [show Shape.texts _ = ["x y".toList] from rfl, List.mem_singleton] at htext
    rw [htext]
    exact Pattern.isSearchable_of_utf8Size_le (by decide)
  obtain ⟨f, hf⟩ := (hiff {}).mpr fun _ => hsearch
  exact ⟨hd, hcontains, f, hf, (hall {} f hf).2 _ hcontains⟩

theorem not_accepts_of_contains_sampleLongText :
    (Value.object sampleLongText).hasDistinctKeys = true ∧
    (Value.object sampleLongText).Contains (.object sampleLongText) ∧
    ¬ ∃ f, compile {} (.ofValue (.object sampleLongText)) = .ok f ∧
      f.accepts (.object sampleLongText) = true := by
  have hd : (Value.object sampleLongText).hasDistinctKeys = true := rfl
  refine ⟨hd, Value.contains_self hd, ?_⟩
  rintro ⟨f, hf, -⟩
  have hm : (textKey, Value.string (Pattern.sampleCrowd 40000)) ∈ sampleLongText :=
    List.mem_cons_self
  have hsearch := isSearchable_of_compile rfl hf hm
  rw [Pattern.isSearchable_sampleCrowd] at hsearch
  cases hsearch

end Filter

end StyleRules

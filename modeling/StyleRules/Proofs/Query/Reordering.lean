import StyleRules.Proofs.Query.Values

/-!
# Filters ignore the order of keys

Neither the order of the entries of a shape nor that of the fields of a target can be seen from what
a filter accepts.

* `Value.Alike`: equal values without double keys; `Value.Alike.eqv_congr`, `Value.Alike.field?`;
* `Shape.Reordered`: the same shape up to order, at every level;
* `Shape.Reordered.forall_texts`: reordered shapes have the same texts;
* `Shape.Reordered.compiled`: reordered shapes stay so when they are compiled;
* `Shape.Reordered.accepts_congr`: equal values fit reordered shapes alike;
* **`Filter.accepts_reordered`**: the filters of reordered shapes answer alike on equal targets.
-/

namespace StyleRules

/-! ## Equal values -/

namespace Value

theorem isNull_eq_eqv (v : Value) : v.isNull = v.eqv null := by
  cases v <;> rfl

theorem eq_string_iff {v : Value} {t : Text} : v = string t ↔ v.eqv (string t) = true := by
  cases v <;> simp [eqv]

/-- Two values without double keys that are equal up to the order of fields. -/
structure Alike (v w : Value) : Prop where
  left : v.hasDistinctKeys = true
  right : w.hasDistinctKeys = true
  eqv : v.eqv w = true

namespace Alike

variable {v w : Value}

theorem refl (h : v.hasDistinctKeys = true) : v.Alike v := ⟨h, h, eqv_refl h⟩

theorem symm (h : v.Alike w) : w.Alike v := ⟨h.right, h.left, eqv_symm h.left h.right h.eqv⟩

theorem trans {u : Value} (huv : u.Alike v) (hvw : v.Alike w) : u.Alike w :=
  ⟨huv.left, hvw.right, eqv_trans huv.left huv.right hvw.right huv.eqv hvw.eqv⟩

/-- Comparing depends only on what the values are equal to. -/
theorem eqv_congr {t t' : Value} (ht : t.Alike t') (h : v.Alike w) : t.eqv v = t'.eqv w := by
  rw [Bool.eq_iff_iff]
  constructor
  · intro heqv
    exact (ht.symm.trans (trans ⟨ht.left, h.left, heqv⟩ h)).eqv
  · intro heqv
    exact (ht.trans (trans ⟨ht.right, h.right, heqv⟩ h.symm)).eqv

/-- Equal values have equal fields. -/
theorem field? (h : v.Alike w) (key : Text) : Option.Rel Alike (v.field? key) (w.field? key) := by
  rcases eqv_cases h.eqv with ⟨rfl, rfl⟩ | ⟨b, rfl, rfl⟩ | ⟨m, n, rfl, rfl, -⟩ | ⟨s, rfl, rfl⟩ |
    ⟨a, b, rfl, rfl⟩ | ⟨a, b, rfl, rfl⟩
  case inr.inr.inr.inr.inr =>
    obtain ⟨ha, hva⟩ := hasDistinctKeys_object_iff_get?.mp h.left
    obtain ⟨hb, hvb⟩ := hasDistinctKeys_object_iff_get?.mp h.right
    have hagree := (eqv_object_iff ha hb).mp h.eqv
    exact hagree.imp (fun key u u' hu hu' heqv => ⟨hva key u hu, hvb key u' hu', heqv⟩) key
  all_goals exact .none

end Alike

end Value

/-! ## Reordered shapes -/

namespace Shape

theorem isEmptyObject_eq_eqv (v : Value) : isEmptyObject (some v) = v.eqv (.object []) := by
  cases v with
  | object fields => cases fields <;> rfl
  | _ => rfl

/-- The same shape up to the order of the entries of objects, at every level, with equal values for
its literals. -/
inductive Reordered : Shape → Shape → Prop
  | undefined : Reordered undefined undefined
  | null : Reordered null null
  | pattern (p : Pattern) : Reordered (pattern p) (pattern p)
  | literal {v w : Value} : v.Alike w → Reordered (literal v) (literal w)
  | object {a b : Entries Shape} : a.Distinct → a.keys.Perm b.keys →
      (∀ key x y, a.get? key = some x → b.get? key = some y → Reordered x y) →
      Reordered (object a) (object b)

namespace Reordered

variable {x y : Shape}

theorem isObject_eq (h : x.Reordered y) : x.isObject = y.isObject := by
  cases h <;> rfl

/-- Reordered shapes have the same texts. -/
theorem forall_texts (h : x.Reordered y) {P : Text → Prop} :
    (∀ t ∈ x.texts, P t) ↔ ∀ t ∈ y.texts, P t := by
  induction h with
  | undefined | null | pattern => rfl
  | literal h =>
    rcases Value.eqv_cases h.eqv with ⟨rfl, rfl⟩ | ⟨b, rfl, rfl⟩ | ⟨m, n, rfl, rfl, -⟩ |
      ⟨s, rfl, rfl⟩ | ⟨a, b, rfl, rfl⟩ | ⟨a, b, rfl, rfl⟩
    all_goals rfl
  | object hd hkeys _ ih =>
    rw [forall_texts_object, forall_texts_object]
    exact Entries.forall_mem_congr (p := fun _ x => ∀ t ∈ x.texts, P t)
      (q := fun _ y => ∀ t ∈ y.texts, P t) hd hkeys ih

theorem isCompilable_eq (h : x.Reordered y) (s : Switches) :
    x.isCompilable s = y.isCompilable s := by
  rw [Bool.eq_iff_iff, isCompilable_iff, isCompilable_iff, h.forall_texts]

/-- Reordered shapes stay so when they are compiled. -/
theorem compiled (h : x.Reordered y) (s : Switches) :
    (x.compiled s).Reordered (y.compiled s) := by
  induction h with
  | undefined => exact .undefined
  | null => exact .null
  | pattern p => exact .pattern p
  | literal h =>
    rcases Value.eqv_cases h.eqv with ⟨rfl, rfl⟩ | ⟨b, rfl, rfl⟩ | ⟨m, n, rfl, rfl, -⟩ |
      ⟨t, rfl, rfl⟩ | ⟨a, b, rfl, rfl⟩ | ⟨a, b, rfl, rfl⟩
    case inr.inr.inr.inl =>
      rw [Shape.compiled]
      split_ifs
      · exact .pattern _
      · exact .literal h
    all_goals exact .literal h
  | @object a b hd hkeys _ ih =>
    rw [Shape.compiled, Shape.compiled, compiledEntries_eq_map, compiledEntries_eq_map]
    have hdc : Entries.Distinct (a.map fun entry => (entry.1, entry.2.compiled s)) := by
      rw [Entries.Distinct, Entries.keys_map]
      exact hd
    refine .object hdc (by rwa [Entries.keys_map, Entries.keys_map]) fun key x' y' hx hy => ?_
    rw [Entries.get?_map, Option.map_eq_some_iff] at hx hy
    obtain ⟨x, hx, rfl⟩ := hx
    obtain ⟨y, hy, rfl⟩ := hy
    exact ih key x y hx hy

/-- **Equal values fit reordered shapes alike.** -/
theorem accepts_congr (h : x.Reordered y) {s : Switches} {t t' : Value} (ht : t.Alike t') :
    x.accepts s (some t) = y.accepts s (some t') := by
  induction h generalizing t t' with
  | undefined => rfl
  | null =>
    rw [accepts, accepts, Option.any_some, Option.any_some, Value.isNull_eq_eqv,
      Value.isNull_eq_eqv, ht.eqv_congr (.refl rfl)]
  | pattern p =>
    rw [Bool.eq_iff_iff, accepts_pattern, accepts_pattern]
    refine exists_congr fun text => and_congr_left fun _ => ?_
    rw [Option.some_inj, Option.some_inj, Value.eq_string_iff, Value.eq_string_iff,
      ht.eqv_congr (.refl rfl)]
  | literal h => exact ht.eqv_congr h
  | @object a b hd hkeys _ ih =>
    have hempty : a.isEmpty = b.isEmpty := by
      have hlength := hkeys.length_eq
      rw [Entries.length_keys, Entries.length_keys] at hlength
      cases a <;> cases b <;> simp_all
    have hfound : ∀ key x y, a.get? key = some x → b.get? key = some y →
        (x.acceptsFound s (t.field? key) = true ↔ y.acceptsFound s (t'.field? key) = true) := by
      intro key x y hx hy
      have hfield := ht.field? key
      generalize t.field? key = found at hfield
      generalize t'.field? key = found' at hfield
      cases hfield with
      | none => rfl
      | some hfields => rw [acceptsFound, acceptsFound, ih key x y hx hy hfields]
    rw [Bool.eq_iff_iff, accepts, accepts, hempty]
    split_ifs
    · rw [isEmptyObject_eq_eqv, isEmptyObject_eq_eqv, ht.eqv_congr (.refl rfl)]
    · rw [acceptsEach_iff, acceptsEach_iff]
      exact Entries.forall_mem_congr
        (p := fun key x => x.acceptsFound s (t.field? key) = true)
        (q := fun key y => y.acceptsFound s (t'.field? key) = true) hd hkeys hfound

end Reordered

end Shape

namespace Filter

theorem compile_shape_eq (s : Switches) (q : Shape) : compile s (.shape q) =
    if q.isObject then
      if q.isCompilable s then .ok (shape (q.compiled s) s) else .error .badPattern
    else .error .queryNotObject := by
  by_cases hobject : q.isObject = true
  · rw [if_pos hobject]
    exact compile_of_toShape (if_pos hobject)
  · simp [compile, Spec.toShape, hobject]

/-- **Filters ignore the order of keys.** Reordered shapes have filters alike, or fail to have one
for the same cause, and their filters answer alike on equal targets. -/
theorem accepts_reordered {q q' : Shape} (h : q.Reordered q') {t t' : Value} (ht : t.Alike t')
    (s : Switches) :
    (compile s (.shape q)).map (fun f => f.accepts t) =
      (compile s (.shape q')).map fun f => f.accepts t' := by
  rw [compile_shape_eq, compile_shape_eq, h.isObject_eq, h.isCompilable_eq]
  split_ifs
  · exact congrArg Except.ok ((h.compiled s).accepts_congr ht)
  · rfl
  · rfl

/-- A shape with a text, a null and a literal object. -/
def sampleOrder : Shape :=
  .object [("a".toList, .literal (.string "x y".toList)),
    ("b".toList, .object [("c".toList, .null),
      ("d".toList, .literal (.object [("k".toList, .bool true), ("l".toList, .null)]))])]

/-- The same shape with all objects written backwards. -/
def sampleOtherOrder : Shape :=
  .object [("b".toList, .object [
      ("d".toList, .literal (.object [("l".toList, .null), ("k".toList, .bool true)])),
      ("c".toList, .null)]),
    ("a".toList, .literal (.string "x y".toList))]

/-- A target that fits, though its fields stand in a third order. -/
def sampleTarget : Value :=
  .object [("b".toList, .object [
      ("d".toList, .object [("l".toList, .null), ("k".toList, .bool true)]),
      ("c".toList, .bool false)]),
    ("e".toList, .null), ("a".toList, .string "say x  y".toList)]

/-- The target written backwards. -/
def sampleOtherTarget : Value :=
  .object [("a".toList, .string "say x  y".toList), ("e".toList, .null),
    ("b".toList, .object [("c".toList, .bool false),
      ("d".toList, .object [("k".toList, .bool true), ("l".toList, .null)])])]

theorem accepts_reordered_sampleOrder : sampleOrder.Reordered sampleOtherOrder ∧
    sampleTarget.Alike sampleOtherTarget ∧
    (compile {} (.shape sampleOtherOrder)).map (fun f => f.accepts sampleOtherTarget) =
      .ok true := by
  have ht : sampleTarget.Alike sampleOtherTarget := ⟨by decide, by decide, by decide⟩
  have h : sampleOrder.Reordered sampleOtherOrder := by
    refine .object (by decide) (by decide) fun key x y hx hy => ?_
    rcases List.mem_cons.mp (Entries.mem_of_get? hx) with hx | hx
    · obtain ⟨rfl, rfl⟩ := Prod.mk.inj hx
      obtain rfl := Option.some.inj hy
      exact .literal (.refl rfl)
    · obtain ⟨rfl, rfl⟩ := Prod.mk.inj (List.mem_singleton.mp hx)
      obtain rfl := Option.some.inj hy
      refine .object (by decide) (by decide) fun key x y hx hy => ?_
      rcases List.mem_cons.mp (Entries.mem_of_get? hx) with hx | hx
      · obtain ⟨rfl, rfl⟩ := Prod.mk.inj hx
        obtain rfl := Option.some.inj hy
        exact .null
      · obtain ⟨rfl, rfl⟩ := Prod.mk.inj (List.mem_singleton.mp hx)
        obtain rfl := Option.some.inj hy
        exact .literal ⟨by decide, by decide, by decide⟩
  refine ⟨h, ht, ?_⟩
  rw [← accepts_reordered h ht]
  rfl

end Filter

end StyleRules

import StyleRules.Proofs.Patch.Pointwise

/-!
# Changes up to the order of keys

What a change set makes of an object, and the patch that it leaves, do not depend on the order of
keys, neither in the changes nor in the object.

* `ChangeSet.eqv_iff_agree`: equal change sets agree key by key;
* `Change.sameField_toValue?`: equal changes write equal values;
* `Change.ActAlike`: two changes have equal outcomes on equal values;
* **`ChangeSet.agree_applyTo`**: equal changes of equal objects, key by key;
* **`ChangeSet.eqv_applyTo_of_eqv`**: the same for whole objects and patches.
-/

namespace StyleRules

/-- Equality of what may be under a key, up to the order of fields. -/
abbrev Value.SameField : Option Value → Option Value → Prop :=
  Option.Rel fun v w => v.eqv w = true

theorem Value.sameField_refl {o : Option Value} (h : ∀ v ∈ o, v.hasDistinctKeys = true) :
    SameField o o := by
  rcases o with _ | v
  · exact .none
  · exact .some (eqv_refl (h v rfl))

theorem Value.exists_object_iff_of_sameField {o o' : Option Value} (h : SameField o o') :
    (∃ a : Entries Value, o = some (.object a)) ↔ ∃ b : Entries Value, o' = some (.object b) := by
  cases h with
  | none => simp
  | some h =>
    constructor
    · rintro ⟨a, ⟨⟩⟩
      obtain ⟨b, rfl⟩ := exists_object_of_eqv h
      exact ⟨b, rfl⟩
    · rintro ⟨b, ⟨⟩⟩
      obtain ⟨a, rfl⟩ := exists_object_of_eqv_object h
      exact ⟨a, rfl⟩

/-! ## Equal change sets -/

/-- Equality of what a patch may have under a key, up to the order of keys. -/
abbrev Change.SameEntry : Option Change → Option Change → Prop :=
  Option.Rel fun c d => c.eqv d = true

namespace ChangeSet

theorem eachIn_iff {a b : ChangeSet} : eachIn a b = true ↔
    ∀ entry ∈ a, ∃ d, b.get? entry.1 = some d ∧ entry.2.eqv d = true := by
  induction a with
  | nil => simp [eachIn]
  | cons entry a ih =>
    obtain ⟨k, c⟩ := entry
    rw [eachIn, Bool.and_eq_true, ih, List.forall_mem_cons]
    refine and_congr_left fun _ => ?_
    rcases b.get? k with _ | d <;> simp

theorem eqv_iff_agree {a b : ChangeSet} (ha : a.Distinct) (hb : b.Distinct) :
    eqv a b = true ↔ Entries.Agree (fun c d => c.eqv d = true) a b := by
  rw [Entries.agree_iff ha hb, eqv, Bool.and_eq_true, beq_iff_eq, eachIn_iff]

theorem isEmpty_of_eqv {a b : ChangeSet} (h : eqv a b = true) : a.isEmpty = b.isEmpty := by
  cases a <;> cases b <;> simp_all [eqv]

theorem get?_toFields {changes : ChangeSet} (h : changes.Distinct) (key : Text) :
    Entries.get? (toFields changes) key = (changes.get? key).bind Change.toValue? := by
  induction changes with
  | nil => rfl
  | cons entry rest ih =>
    obtain ⟨k, c⟩ := entry
    have hrest := ih h.tail
    rw [toFields, Entries.get?_cons]
    by_cases hk : k = key
    · subst hk
      rw [Entries.get?_eq_none_of_not_mem h.head_not_mem] at hrest
      rcases hv : c.toValue? with _ | v <;> simp [hv, hrest, Entries.get?_cons]
    · rcases c.toValue? with _ | v <;> simp [hk, hrest, Entries.get?_cons]

end ChangeSet

namespace Change

theorem eqv_nested {a b : ChangeSet} : (nested a).eqv (nested b) = ChangeSet.eqv a b := rfl

/-- Equal changes are of one kind. -/
theorem eqv_cases {c d : Change} (h : c.eqv d = true) :
    (∃ v w, c = set v ∧ d = set w ∧ v.eqv w = true) ∨
      (∃ a b : ChangeSet, c = nested a ∧ d = nested b) ∨ (c = remove ∧ d = remove) := by
  cases c <;> cases d <;> simp_all [eqv]

theorem eqv_refl {c : Change} (h : c.hasDistinctKeys = true) : c.eqv c = true := by
  induction c using Change.induction with
  | step c ih =>
    cases c with
    | set value => exact Value.eqv_refl h
    | remove => rfl
    | nested changes =>
      have hd := ChangeSet.distinct_of_hasDistinctKeys h
      rw [eqv_nested, ChangeSet.eqv, beq_self_eq_true, Bool.true_and, ChangeSet.eachIn_iff]
      intro entry he
      exact ⟨entry.2, (Entries.mem_iff_get? hd).mp he,
        ih changes rfl entry he (ChangeSet.hasDistinctKeys_of_mem h he)⟩

theorem exists_nested_of_eqv {a : ChangeSet} {d : Change} (h : (nested a).eqv d = true) :
    ∃ b : ChangeSet, d = nested b := by
  simpa using eqv_cases h

theorem applies_of_eqv {c d : Change} (h : c.eqv d = true) (mode : Mode) (isPresent : Bool) :
    d.applies mode isPresent = c.applies mode isPresent := by
  obtain ⟨v, w, rfl, rfl, -⟩ | ⟨a, b, rfl, rfl⟩ | ⟨rfl, rfl⟩ := eqv_cases h <;> rfl

/-- Equal changes write equal values. -/
theorem sameField_toValue? {c d : Change} (hc : c.hasDistinctKeys = true)
    (hd : d.hasDistinctKeys = true) (h : c.eqv d = true) :
    Value.SameField c.toValue? d.toValue? := by
  induction c using Change.induction generalizing d with
  | step c ih =>
    obtain ⟨v, w, rfl, rfl, hvw⟩ | ⟨a, b, rfl, rfl⟩ | ⟨rfl, rfl⟩ := eqv_cases h
    · exact .some hvw
    · have had := ChangeSet.distinct_of_hasDistinctKeys hc
      have hbd := ChangeSet.distinct_of_hasDistinctKeys hd
      rw [eqv_nested, ChangeSet.eqv_iff_agree had hbd] at h
      refine .some ((Value.eqv_object_iff (ChangeSet.distinct_toFields had)
        (ChangeSet.distinct_toFields hbd)).mpr fun key => ?_)
      rw [ChangeSet.get?_toFields had, ChangeSet.get?_toFields hbd]
      have hvalues :
          Entries.Agree (fun c d : Change => Value.SameField c.toValue? d.toValue?) a b :=
        h.imp fun key c d hca hcb hcd => ih a rfl _ (Entries.mem_of_get? hca)
          (ChangeSet.hasDistinctKeys_of_get? hc hca) (ChangeSet.hasDistinctKeys_of_get? hd hcb) hcd
      have hkey := hvalues key
      generalize Entries.get? a key = c at hkey ⊢
      generalize Entries.get? b key = d at hkey ⊢
      cases hkey with
      | none => exact .none
      | some h => exact h
    · exact .none

theorem eqv_bringingBack {o o' : Option Value} (h : Value.SameField o o') :
    (bringingBack o).eqv (bringingBack o') = true := by
  cases h with
  | none => rfl
  | some h => exact h

/-! ## Equal outcomes -/

/-- The two changes make equal values of equal values, and leave equal patches. -/
def ActAlike (mode : Mode) (c d : Change) : Prop :=
  ∀ o o' : Option Value, (∀ v ∈ o, v.hasDistinctKeys = true) →
    (∀ v ∈ o', v.hasDistinctKeys = true) → Value.SameField o o' →
    Value.SameField (c.outcome mode o).1 (d.outcome mode o').1 ∧
      SameEntry (c.outcome mode o).2 (d.outcome mode o').2

end Change

theorem ChangeSet.agree_applyTo_of {mode : Mode} {a b : Entries Value} {p q : ChangeSet}
    (ha : (Value.object a).hasDistinctKeys = true) (hb : (Value.object b).hasDistinctKeys = true)
    (hp : p.Distinct) (hq : q.Distinct) (hab : Entries.Agree (fun v w => v.eqv w = true) a b)
    (hpq : Entries.Agree (Change.ActAlike mode) p q) :
    Entries.Agree (fun v w => v.eqv w = true) (applyTo mode a p).1 (applyTo mode b q).1 ∧
      Entries.Agree (fun c d => c.eqv d = true) (applyTo mode a p).2 (applyTo mode b q).2 := by
  have had := Value.distinct_of_hasDistinctKeys ha
  have hbd := Value.distinct_of_hasDistinctKeys hb
  rw [Entries.Agree, Entries.Agree, ← forall_and]
  intro key
  rw [get?_applyTo had hp, get?_applyTo hbd hq, get?_patch had hp, get?_patch hbd hq]
  have hkey := hpq key
  generalize p.get? key = c at hkey ⊢
  generalize q.get? key = d at hkey ⊢
  cases hkey with
  | none => exact ⟨hab key, .none⟩
  | some h =>
    exact h _ _ (Value.hasDistinctKeys_of_get? ha key) (Value.hasDistinctKeys_of_get? hb key)
      (hab key)

/-- Nested changes that act alike key by key make equal objects of equal objects. -/
theorem Change.outcome_nested_alike {mode : Mode} {p q : ChangeSet} {a b : Entries Value}
    (hp : p.Distinct) (hq : q.Distinct) (ha : (Value.object a).hasDistinctKeys = true)
    (hb : (Value.object b).hasDistinctKeys = true)
    (hab : (Value.object a).eqv (.object b) = true) (hpq : Entries.Agree (ActAlike mode) p q)
    (happ : (nested p).applies mode true = true) (happ' : (nested q).applies mode true = true) :
    Value.SameField ((nested p).outcome mode (some (.object a))).1
        ((nested q).outcome mode (some (.object b))).1 ∧
      SameEntry ((nested p).outcome mode (some (.object a))).2
        ((nested q).outcome mode (some (.object b))).2 := by
  have had := Value.distinct_of_hasDistinctKeys ha
  have hbd := Value.distinct_of_hasDistinctKeys hb
  rw [Value.eqv_object_iff had hbd] at hab
  obtain ⟨hfields, hpatch⟩ := ChangeSet.agree_applyTo_of ha hb hp hq hab hpq
  have heqv := (ChangeSet.eqv_iff_agree (ChangeSet.distinct_patch hp)
    (ChangeSet.distinct_patch hq)).mpr hpatch
  rw [outcome_of_object happ, outcome_of_object happ']
  refine ⟨.some ((Value.eqv_object_iff (ChangeSet.distinct_applyTo had)
    (ChangeSet.distinct_applyTo hbd)).mpr hfields), ?_⟩
  show SameEntry (if _ then _ else _) (if _ then _ else _)
  rw [ChangeSet.isEmpty_of_eqv heqv]
  split_ifs
  · exact .none
  · exact .some heqv

/-- Equal changes act alike. -/
theorem Change.actAlike_of_eqv {c d : Change} (hc : c.hasDistinctKeys = true)
    (hd : d.hasDistinctKeys = true) (h : c.eqv d = true) (mode : Mode) : ActAlike mode c d := by
  induction c using Change.induction generalizing d with
  | step c ih =>
    intro o o' ho ho' hsame
    have hsome : o'.isSome = o.isSome := by
      cases hsame <;> rfl
    have happlies : d.applies mode o'.isSome = c.applies mode o.isSome := by
      rw [hsome, applies_of_eqv h]
    by_cases ha : c.applies mode o.isSome = true
    · have ha' : d.applies mode o'.isSome = true := happlies.trans ha
      have hobj := Value.exists_object_iff_of_sameField hsame
      by_cases hmerge : (∃ changes : ChangeSet, c = .nested changes) ∧
          ∃ a : Entries Value, o = some (.object a)
      · obtain ⟨⟨p, rfl⟩, a, rfl⟩ := hmerge
        obtain ⟨b, rfl⟩ := hobj.mp ⟨a, rfl⟩
        obtain ⟨q, rfl⟩ := exists_nested_of_eqv h
        have hpd := ChangeSet.distinct_of_hasDistinctKeys hc
        have hqd := ChangeSet.distinct_of_hasDistinctKeys hd
        have hab : (Value.object a).eqv (.object b) = true := by
          cases hsame with
          | some h => exact h
        rw [eqv_nested, ChangeSet.eqv_iff_agree hpd hqd] at h
        -- the changes of each key act alike by the induction hypothesis
        have hact : Entries.Agree (ActAlike mode) p q :=
          h.imp fun key c d hcp hcq hcd => ih p rfl _ (Entries.mem_of_get? hcp)
            (ChangeSet.hasDistinctKeys_of_get? hc hcp) (ChangeSet.hasDistinctKeys_of_get? hd hcq)
            hcd
        exact outcome_nested_alike hpd hqd (ho _ rfl) (ho' _ rfl) hab hact ha ha'
      · rw [outcome_of_not_object ha hmerge, outcome_of_not_object ha' ?_]
        · exact ⟨sameField_toValue? hc hd h, .some (eqv_bringingBack hsame)⟩
        · rintro ⟨⟨q, rfl⟩, hb⟩
          exact hmerge ⟨by simpa using eqv_cases h, hobj.mpr hb⟩
    · have ha' : ¬ d.applies mode o'.isSome = true := by rwa [happlies]
      rw [outcome_of_not_applies ha, outcome_of_not_applies ha']
      exact ⟨hsame, .none⟩

namespace ChangeSet

theorem agree_self {changes : ChangeSet} (h : changes.hasDistinctKeys = true) :
    Entries.Agree (fun c d => c.eqv d = true) changes changes := by
  intro key
  rcases hget : changes.get? key with _ | c
  · exact .none
  · exact .some (Change.eqv_refl (hasDistinctKeys_of_get? h hget))

/-- **Equal changes of equal objects** give objects and patches that agree key by key. -/
theorem agree_applyTo {a b : Entries Value} {p q : ChangeSet}
    (ha : (Value.object a).hasDistinctKeys = true) (hb : (Value.object b).hasDistinctKeys = true)
    (hp : p.hasDistinctKeys = true) (hq : q.hasDistinctKeys = true)
    (hab : Entries.Agree (fun v w => v.eqv w = true) a b)
    (hpq : Entries.Agree (fun c d => c.eqv d = true) p q) (mode : Mode) :
    Entries.Agree (fun v w => v.eqv w = true) (applyTo mode a p).1 (applyTo mode b q).1 ∧
      Entries.Agree (fun c d => c.eqv d = true) (applyTo mode a p).2 (applyTo mode b q).2 := by
  refine agree_applyTo_of ha hb (distinct_of_hasDistinctKeys hp) (distinct_of_hasDistinctKeys hq)
    hab (hpq.imp fun key c d hcp hcq hcd => ?_)
  exact Change.actAlike_of_eqv (hasDistinctKeys_of_get? hp hcp) (hasDistinctKeys_of_get? hq hcq)
    hcd mode

/-- **Patching does not depend on the order of keys.** Equal change sets, applied to equal objects
in the same mode, give equal objects and equal patches, all up to the order of keys at every level.
As in every object and every change set, no key stands twice. -/
theorem eqv_applyTo_of_eqv {a b : Entries Value} {p q : ChangeSet}
    (ha : (Value.object a).hasDistinctKeys = true) (hb : (Value.object b).hasDistinctKeys = true)
    (hp : p.hasDistinctKeys = true) (hq : q.hasDistinctKeys = true)
    (hab : (Value.object a).eqv (.object b) = true) (hpq : p.eqv q = true) (mode : Mode) :
    (Value.object (applyTo mode a p).1).eqv (.object (applyTo mode b q).1) = true ∧
      eqv (applyTo mode a p).2 (applyTo mode b q).2 = true := by
  have had := Value.distinct_of_hasDistinctKeys ha
  have hbd := Value.distinct_of_hasDistinctKeys hb
  have hpd := distinct_of_hasDistinctKeys hp
  have hqd := distinct_of_hasDistinctKeys hq
  rw [Value.eqv_object_iff had hbd] at hab
  rw [eqv_iff_agree hpd hqd] at hpq
  obtain ⟨hfields, hpatch⟩ := agree_applyTo ha hb hp hq hab hpq mode
  exact ⟨(Value.eqv_object_iff (distinct_applyTo had) (distinct_applyTo hbd)).mpr hfields,
    (eqv_iff_agree (distinct_patch hpd) (distinct_patch hqd)).mpr hpatch⟩

/-- An object in two orders, with the two zeros. -/
def sampleObjects : Entries Value × Entries Value :=
  ([("a".toList, .object [("b".toList, .number (.int 1)), ("c".toList, .null)]),
      ("z".toList, .number (.float ⟨true, 0, -1074, by decide⟩))],
    [("z".toList, .number (.float ⟨false, 0, -1074, by decide⟩)),
      ("a".toList, .object [("c".toList, .null), ("b".toList, .number (.int 1))])])

/-- Changes in two orders: inside an object, and over a number. -/
def sampleOrders : ChangeSet × ChangeSet :=
  ([("z".toList, .nested [("y".toList, .set .null), ("x".toList, .remove)]),
      ("a".toList, .nested [("b".toList, .remove), ("d".toList, .set (.bool true))])],
    [("a".toList, .nested [("d".toList, .set (.bool true)), ("b".toList, .remove)]),
      ("z".toList, .nested [("x".toList, .remove), ("y".toList, .set .null)])])

theorem eqv_applyTo_of_eqv_sampleOrders :
    (Value.object sampleObjects.1).eqv (.object sampleObjects.2) = true ∧
      sampleOrders.1.eqv sampleOrders.2 = true ∧
      eqv (applyTo .both sampleObjects.1 sampleOrders.1).2
        (applyTo .both sampleObjects.2 sampleOrders.2).2 = true :=
  ⟨by decide, by decide, (eqv_applyTo_of_eqv (a := sampleObjects.1) (b := sampleObjects.2)
    (p := sampleOrders.1) (q := sampleOrders.2) (by decide) (by decide) (by decide) (by decide)
    (by decide) (by decide) .both).2⟩

end ChangeSet

end StyleRules

import StyleRules.Proofs.Rule.Wording
import StyleRules.Proofs.Value.Equality
import StyleRules.Rule.Json

/-!
# Rule trees and JSON values

Rule trees are the JSON objects of strings, nulls and such objects, with the order of their keys.

* `RuleValue.induction`: induction over the entries of a value;
* `Value.IsRuleForm`: a string, null, or an object of such values;
* `RuleValue.ofValue?_eq_some_iff`: what is read is what has this JSON form;
* `RuleValue.exists_toValue_iff`: which values are JSON forms;
* `RuleValue.hasDistinctKeys_toValue`: a form has double keys if its tree has;
* `RuleValue.serialize_eq`: both ways of writing a value agree;
* **`RuleTree.ofValue?_bijective`**: trees and their JSON forms are in bijection.
-/

namespace StyleRules

/-- Induction over the entries of a value. -/
@[elab_as_elim]
theorem RuleValue.induction {motive : RuleValue → Prop} (leaf : ∀ text, motive (leaf text))
    (absent : motive absent)
    (node : ∀ body : RuleTree, (∀ entry ∈ body, motive entry.2) → motive (node body))
    (value : RuleValue) : motive value := by
  refine @RuleValue.rec motive (fun body => ∀ entry ∈ body, motive entry.2)
    (fun entry => motive entry.2) leaf node absent ?_ ?_ (fun _ _ h => h) value
  · exact fun _ h => absurd h List.not_mem_nil
  · exact fun _ _ hentry hrest => List.forall_mem_cons.mpr ⟨hentry, hrest⟩

/-- A string, null, or an object of such values. -/
inductive Value.IsRuleForm : Value → Prop
  | string (s : Text) : IsRuleForm (.string s)
  | null : IsRuleForm .null
  | object {fields : Entries Value} : (∀ entry ∈ fields, IsRuleForm entry.2) →
      IsRuleForm (.object fields)

theorem RuleTree.toFields_eq_map (t : RuleTree) :
    toFields t = t.map fun entry => (entry.1, entry.2.toValue) := by
  induction t with
  | nil => rfl
  | cons entry rest ih => rw [toFields, ih, List.map_cons]

/-! ## Reading -/

/-- Fields are read as the entries that have these JSON forms, if this is so for each of them. -/
theorem RuleTree.ofFields?_eq_some_iff {fields : Entries Value}
    (h : ∀ entry ∈ fields, ∀ w, RuleValue.ofValue? entry.2 = some w ↔ w.toValue = entry.2)
    (body : RuleTree) : ofFields? fields = some body ↔ toFields body = fields := by
  induction fields generalizing body with
  | nil =>
    cases body with
    | nil => simp [ofFields?, toFields]
    | cons entry body => simp [ofFields?, toFields]
  | cons field fields ih =>
    obtain ⟨key, v⟩ := field
    obtain ⟨hv, hfields⟩ := List.forall_mem_cons.mp h
    have hcons : ofFields? ((key, v) :: fields) = some body ↔
        ∃ w rest, RuleValue.ofValue? v = some w ∧ ofFields? fields = some rest ∧
          (key, w) :: rest = body := by
      rw [ofFields?]
      rcases RuleValue.ofValue? v with _ | w <;> rcases ofFields? fields with _ | rest <;> simp
    rw [hcons]
    constructor
    · rintro ⟨w, rest, hw, hrest, rfl⟩
      rw [toFields, (hv w).mp hw, (ih hfields rest).mp hrest]
    · intro hbody
      cases body with
      | nil => cases hbody
      | cons entry rest =>
        obtain ⟨hentry, hrest⟩ := List.cons.inj hbody
        obtain ⟨rfl, hw⟩ := Prod.mk.inj hentry
        exact ⟨entry.2, rest, (hv _).mpr hw, (ih hfields rest).mpr hrest, rfl⟩

/-- What is read is what has this JSON form. -/
theorem RuleValue.ofValue?_eq_some_iff {v : Value} {w : RuleValue} :
    ofValue? v = some w ↔ w.toValue = v := by
  induction v using Value.induction generalizing w with
  | object fields ih =>
    have hfields := RuleTree.ofFields?_eq_some_iff fun entry he _ => ih entry he
    have hread : ofValue? (.object fields) = (RuleTree.ofFields? fields).map node := by
      rw [ofValue?]
      rcases RuleTree.ofFields? fields with _ | body <;> rfl
    rw [hread, Option.map_eq_some_iff]
    cases w <;> simp [toValue, hfields]
  | _ => cases w <;> simp [ofValue?, toValue, eq_comm]

theorem RuleTree.ofValue?_eq_some_iff {v : Value} {t : RuleTree} :
    ofValue? v = some t ↔ t.toValue = v := by
  cases v with
  | object fields =>
    have hfields := ofFields?_eq_some_iff
      fun entry (_ : entry ∈ fields) _ => RuleValue.ofValue?_eq_some_iff
    simpa [ofValue?, toValue] using hfields t
  | _ => simp [ofValue?, toValue]

/-! ## Which values are read -/

theorem RuleValue.isRuleForm_toValue (w : RuleValue) : w.toValue.IsRuleForm := by
  induction w using RuleValue.induction with
  | leaf text => exact .string text
  | absent => exact .null
  | node body ih =>
    refine .object ?_
    rw [RuleTree.toFields_eq_map, List.forall_mem_map]
    exact ih

theorem RuleTree.exists_toFields_eq {fields : Entries Value}
    (h : ∀ entry ∈ fields, ∃ w : RuleValue, w.toValue = entry.2) :
    ∃ body, toFields body = fields := by
  induction fields with
  | nil => exact ⟨[], rfl⟩
  | cons field fields ih =>
    obtain ⟨⟨w, hw⟩, hfields⟩ := List.forall_mem_cons.mp h
    obtain ⟨rest, hrest⟩ := ih hfields
    exact ⟨(field.1, w) :: rest, by rw [toFields, hw, hrest]⟩

theorem RuleValue.exists_toValue_iff {v : Value} :
    (∃ w : RuleValue, w.toValue = v) ↔ v.IsRuleForm := by
  constructor
  · rintro ⟨w, rfl⟩
    exact w.isRuleForm_toValue
  · intro h
    induction h with
    | string s => exact ⟨.leaf s, rfl⟩
    | null => exact ⟨.absent, rfl⟩
    | object _ ih =>
      obtain ⟨body, hbody⟩ := RuleTree.exists_toFields_eq ih
      exact ⟨.node body, by rw [toValue, hbody]⟩

/-! ## Distinct keys -/

theorem RuleValue.hasDistinctKeys_toValue (w : RuleValue) :
    w.toValue.hasDistinctKeys = w.hasDistinctKeys := by
  induction w using RuleValue.induction with
  | leaf text => rfl
  | absent => rfl
  | node body ih =>
    rw [Bool.eq_iff_iff, toValue, RuleTree.toFields_eq_map, Value.hasDistinctKeys_object,
      Entries.Distinct, Entries.keys_map, List.forall_mem_map]
    refine Iff.trans ?_ (RuleTree.hasDistinctKeys_iff (t := body)).symm
    exact and_congr_right fun _ => forall₂_congr fun entry he => by rw [ih entry he]

/-! ## Writing field by field -/

/-- Entries with new keys go behind the fields that are there. -/
theorem RuleTree.serializeOnto_eq {t : RuleTree}
    (h : ∀ entry ∈ t, entry.2.serialize = entry.2.toValue) (written : Entries Value)
    (hd : (written.keys ++ Entries.keys t).Nodup) :
    serializeOnto written t = written ++ toFields t := by
  induction t generalizing written with
  | nil => rw [serializeOnto, toFields, List.append_nil]
  | cons entry rest ih =>
    obtain ⟨key, value⟩ := entry
    obtain ⟨hvalue, hrest⟩ := List.forall_mem_cons.mp h
    have hkeys : Entries.keys ((key, value) :: rest) = [key] ++ Entries.keys rest := rfl
    have hkey : key ∉ written.keys := fun hk =>
      (List.nodup_append.mp hd).2.2 key hk key (by rw [hkeys]; exact List.mem_cons_self) rfl
    rw [serializeOnto, hvalue, Entries.insert_of_not_mem hkey, ih hrest, toFields,
      List.append_assoc, List.singleton_append]
    rw [hkeys, ← List.append_assoc] at hd
    rwa [Entries.keys, List.map_append]

theorem RuleValue.serialize_eq {w : RuleValue} (h : w.hasDistinctKeys = true) :
    w.serialize = w.toValue := by
  induction w using RuleValue.induction with
  | leaf text => rfl
  | absent => rfl
  | node body ih =>
    obtain ⟨hd, hvalues⟩ := RuleTree.hasDistinctKeys_iff.mp h
    have hfields := RuleTree.serializeOnto_eq
      (fun entry he => ih entry he (hvalues entry he)) [] hd
    rw [serialize, hfields, toValue, List.nil_append]

/-! ## The bijection -/

/-- **Rule trees and their JSON forms are in bijection.** A value is read as a tree if and only if
it is an object of strings, nulls and such objects. Both ways of writing the tree then give the
value back, and every tree is read from its form; keys keep their order at every level. -/
theorem RuleTree.ofValue?_bijective :
    (∀ v : Value, (∃ t, ofValue? v = some t) ↔ v.isObject = true ∧ v.IsRuleForm) ∧
    (∀ v t, v.hasDistinctKeys = true → ofValue? v = some t →
      t.hasDistinctKeys = true ∧ t.toValue = v ∧ t.serialize = v) ∧
    ∀ t : RuleTree, ofValue? t.toValue = some t ∧
      t.toValue.hasDistinctKeys = t.hasDistinctKeys := by
  have hkeys : ∀ t : RuleTree, t.toValue.hasDistinctKeys = t.hasDistinctKeys :=
    fun t => RuleValue.hasDistinctKeys_toValue (.node t)
  refine ⟨fun v => ?_, fun v t hv ht => ?_, fun t => ⟨ofValue?_eq_some_iff.mpr rfl, hkeys t⟩⟩
  · simp only [ofValue?_eq_some_iff, ← RuleValue.exists_toValue_iff]
    constructor
    · rintro ⟨t, rfl⟩
      exact ⟨rfl, .node t, rfl⟩
    · rintro ⟨hobject, w, rfl⟩
      cases w with
      | node body => exact ⟨body, rfl⟩
      | _ => cases hobject
  · obtain rfl := ofValue?_eq_some_iff.mp ht
    rw [hkeys] at hv
    exact ⟨hv, rfl, RuleValue.serialize_eq (w := .node t) hv⟩

/-- The JSON form of a rule with an empty block in it, and of a statement. -/
def sampleForm : Value :=
  .object [(".foo".toList, .object [("width".toList, .string "1rem".toList),
    ("x".toList, .object [])]), ("@import a.css".toList, .null)]

theorem RuleTree.ofValue?_bijective_sampleForm :
    (∃ t, ofValue? sampleForm = some t ∧ t.toValue = sampleForm ∧ t.serialize = sampleForm) ∧
      ¬ ∃ t, ofValue? (.object [("a".toList, sampleForm), ("b".toList, .bool true)]) = some t := by
  obtain ⟨hiff, hback, -⟩ := ofValue?_bijective
  constructor
  · have hform : sampleForm.IsRuleForm := by
      refine .object (List.forall_mem_cons.mpr ⟨.object ?_, List.forall_mem_singleton.mpr .null⟩)
      exact List.forall_mem_cons.mpr
        ⟨.string _, List.forall_mem_singleton.mpr (.object (by simp))⟩
    obtain ⟨t, ht⟩ := (hiff sampleForm).mpr ⟨rfl, hform⟩
    exact ⟨t, ht, (hback _ t (by decide) ht).2⟩
  · -- a boolean has no place in a rule tree
    rw [hiff]
    rintro ⟨-, hform⟩
    cases hform with
    | object hfields => cases hfields ("b".toList, .bool true) (by simp)

end StyleRules

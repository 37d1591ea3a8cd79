import StyleRules.Proofs.Patch.Effect
import StyleRules.Proofs.Patch.Order

/-!
# Repeated changes

A change set that is applied twice takes different ways: where it wrote an object over nothing or
over a plain value, the second time it goes into that object. There it finds what it has written.

* `ChangeSet.applyTo_eq_self`: changes that make nothing new of any key leave the object alone;
* `Change.outcome_toValue?`: a change makes nothing new of the value that it writes;
* `ChangeSet.applyTo_applyTo`: a change set does all that it does the first time;
* **`Setter.apply_apply`**: the same for setters, in every mode.
-/

namespace StyleRules

namespace ChangeSet

variable {mode : Mode} {fields : Entries Value} {changes : ChangeSet}

theorem applyTo_eq_self (hf : fields.Distinct) (hc : changes.Distinct)
    (h : ∀ entry ∈ changes, (entry.2.outcome mode (fields.get? entry.1)).1 = fields.get? entry.1) :
    (applyTo mode fields changes).1 = fields := by
  have hget : ∀ key, (applyTo mode fields changes).1.get? key = fields.get? key := by
    intro key
    rw [get?_applyTo hf hc]
    rcases hkey : changes.get? key with _ | c
    · rfl
    · exact h (key, c) (Entries.mem_of_get? hkey)
  have horder : fields.KeepsOrder changes.keys (applyTo mode fields changes).1 :=
    keepsOrder_applyTo hf hc
  have hkeys : Entries.keys (applyTo mode fields changes).1 = fields.keys := by
    apply (Entries.keepsOrder_self fields []).keys_eq horder
    · exact fun key => Entries.contains_congr (hget key)
    · exact fun _ hk => hk
  exact Entries.eq_of_get?_eq (distinct_applyTo hf) hkeys hget

end ChangeSet

/-! ## The second time -/

namespace Change

theorem outcome_toValue? {c : Change} (hc : c.hasDistinctKeys = true) (mode : Mode) :
    (c.outcome mode c.toValue?).1 = c.toValue? := by
  induction c using Change.induction with
  | step c ih =>
    cases c with
    | set value =>
      by_cases ha : (set value).applies mode true = true
      · exact congrArg Prod.fst (outcome_of_not_object ha (by simp))
      · exact congrArg Prod.fst (outcome_of_not_applies ha)
    | nested changes =>
      by_cases ha : (nested changes).applies mode true = true
      · have hd := ChangeSet.distinct_of_hasDistinctKeys hc
        -- each change finds its own value in the object that was written
        have hsame : (ChangeSet.applyTo mode (ChangeSet.toFields changes) changes).1 =
            ChangeSet.toFields changes := by
          apply ChangeSet.applyTo_eq_self (ChangeSet.distinct_toFields hd) hd
          intro entry he
          rw [ChangeSet.get?_toFields hd, (Entries.mem_iff_get? hd).mp he]
          exact ih changes rfl entry he (ChangeSet.hasDistinctKeys_of_mem hc he)
        rw [toValue?, outcome_of_object ha, hsame]
      · exact congrArg Prod.fst (outcome_of_not_applies ha)
    | remove => rfl

/-- The second outcome of the change is the first one. -/
def Settles (mode : Mode) (c : Change) : Prop :=
  ∀ old : Option Value, (∀ v ∈ old, v.hasDistinctKeys = true) →
    (c.outcome mode (c.outcome mode old).1).1 = (c.outcome mode old).1

end Change

theorem ChangeSet.applyTo_applyTo_of {mode : Mode} {fields : Entries Value} {changes : ChangeSet}
    (hf : (Value.object fields).hasDistinctKeys = true) (hc : changes.Distinct)
    (h : ∀ entry ∈ changes, entry.2.Settles mode) :
    (applyTo mode (applyTo mode fields changes).1 changes).1 = (applyTo mode fields changes).1 := by
  have hfd := Value.distinct_of_hasDistinctKeys hf
  apply applyTo_eq_self (distinct_applyTo hfd) hc
  intro entry he
  rw [get?_applyTo hfd hc, (Entries.mem_iff_get? hc).mp he]
  exact h entry he _ (Value.hasDistinctKeys_of_get? hf entry.1)

theorem Change.settles {c : Change} (hc : c.hasDistinctKeys = true) (mode : Mode) :
    c.Settles mode := by
  induction c using Change.induction with
  | step c ih =>
    intro old hold
    by_cases ha : c.applies mode old.isSome = true
    · by_cases hmerge : (∃ changes : ChangeSet, c = .nested changes) ∧
          ∃ inner : Entries Value, old = some (.object inner)
      · obtain ⟨⟨changes, rfl⟩, inner, rfl⟩ := hmerge
        rw [outcome_of_object ha, outcome_of_object ha,
          ChangeSet.applyTo_applyTo_of (hold _ rfl) (ChangeSet.distinct_of_hasDistinctKeys hc)]
        exact fun entry he => ih changes rfl entry he (ChangeSet.hasDistinctKeys_of_mem hc he)
      · rw [outcome_of_not_object ha hmerge]
        exact outcome_toValue? hc mode
    · rw [outcome_of_not_applies ha, outcome_of_not_applies ha]

theorem ChangeSet.applyTo_applyTo {fields : Entries Value} {changes : ChangeSet}
    (hf : (Value.object fields).hasDistinctKeys = true) (hc : changes.hasDistinctKeys = true)
    (mode : Mode) :
    (applyTo mode (applyTo mode fields changes).1 changes).1 = (applyTo mode fields changes).1 :=
  applyTo_applyTo_of hf (distinct_of_hasDistinctKeys hc) fun _ he =>
    Change.settles (hasDistinctKeys_of_mem hc he) mode

/-- **A setter is idempotent in every mode.** Applied to an object it succeeds, and applied once
more it leaves that very object, with the order of fields at every level. As in every object and
every change set, no key stands twice. -/
theorem Setter.apply_apply (s : Setter) {target : Value} (hobject : target.isObject = true)
    (ht : target.hasDistinctKeys = true) (hs : s.changes.hasDistinctKeys = true) :
    ∃ changed patch again, s.apply target = .ok (changed, patch) ∧
      s.apply changed = .ok (changed, again) := by
  obtain ⟨fields, rfl⟩ := Value.exists_object_of_isObject hobject
  have hagain := s.apply_object (ChangeSet.applyTo s.mode fields s.changes).1
  rw [ChangeSet.applyTo_applyTo ht hs] at hagain
  exact ⟨_, _, _, s.apply_object fields, hagain⟩

/-- Writes objects over nothing and over a text, with removals and an empty object inside, and goes
into another one. -/
def Setter.sampleRepeated : Setter where
  changes := [("new".toList, .nested [("x".toList, .remove), ("y".toList, .nested [])]),
    ("flat".toList, .nested [("x".toList, .set .null), ("y".toList, .remove)]),
    ("box".toList, .nested [("a".toList, .remove), ("b".toList, .set .null)])]
  mode := .both
  nonempty := rfl

theorem Setter.apply_apply_sampleRepeated :
    ∃ changed patch again, sampleRepeated.apply (.object sampleFields) = .ok (changed, patch) ∧
      patch.length = 3 ∧ sampleRepeated.apply changed = .ok (changed, again) := by
  have hobject : (Value.object sampleFields).isObject = true := rfl
  obtain ⟨changed, patch, again, happly, hagain⟩ :=
    sampleRepeated.apply_apply hobject (by decide) (by decide)
  refine ⟨changed, patch, again, happly, ?_, hagain⟩
  cases happly
  rfl

end StyleRules

import StyleRules.Patch.Setter
import StyleRules.Proofs.Value.Equality

/-!
# Changes key by key

A change set acts on every key for itself: what is under a key afterwards, and what the patch has
there, depends on the change and the value of that key alone.

* `Change.induction`: induction over the nested changes;
* **`Change.outcome`**: what a change makes of a value, and what the patch has under its key;
* **`ChangeSet.get?_applyTo`**, **`ChangeSet.get?_patch`**: a change set has the outcome of its
  change under every key;
* `ChangeSet.hasDistinctKeys_applyTo`: neither the object nor the patch gets a key twice.
-/

namespace StyleRules

/-- Induction over the nested changes. -/
theorem Change.induction {motive : Change → Prop}
    (step : ∀ c, (∀ changes : ChangeSet, c = .nested changes → ∀ entry ∈ changes, motive entry.2) →
      motive c) (c : Change) : motive c := by
  refine @Change.rec motive (fun changes => ∀ entry ∈ changes, motive entry.2)
    (fun entry => motive entry.2) ?_ ?_ ?_ ?_ ?_ (fun _ _ h => h) c
  · exact fun _ => step _ fun _ h => nomatch h
  · rintro changes h
    refine step _ fun changes' heq => ?_
    obtain rfl := Change.nested.inj heq
    exact h
  · exact step _ fun _ h => nomatch h
  · exact fun _ h => absurd h List.not_mem_nil
  · exact fun _ _ hentry hrest => List.forall_mem_cons.mpr ⟨hentry, hrest⟩

/-! ## The outcome of a change -/

/-- The change that brings back what was under a key. -/
def Change.bringingBack : Option Value → Change
  | some prior => .set prior
  | none => .remove

/-- **What a change makes of the value under its key**, and what the patch has there: a change that
the mode does not admit leaves all as it is, nested changes go into an object, and every other
change replaces the value. -/
def Change.outcome (mode : Mode) (c : Change) (old : Option Value) :
    Option Value × Option Change :=
  if c.applies mode old.isSome then
    match c, old with
    | .nested changes, some (.object inner) =>
      let result := ChangeSet.applyTo mode inner changes
      (some (.object result.1), if result.2.isEmpty then none else some (.nested result.2))
    | c, old => (c.toValue?, some (bringingBack old))
  else (old, none)

namespace Change

theorem outcome_of_not_applies {mode : Mode} {c : Change} {old : Option Value}
    (ha : ¬ c.applies mode old.isSome = true) : c.outcome mode old = (old, none) := if_neg ha

theorem outcome_of_object {mode : Mode} {changes : ChangeSet} {inner : Entries Value}
    (ha : (nested changes).applies mode true = true) :
    (nested changes).outcome mode (some (.object inner)) =
      (some (.object (ChangeSet.applyTo mode inner changes).1),
        if (ChangeSet.applyTo mode inner changes).2.isEmpty then none
        else some (.nested (ChangeSet.applyTo mode inner changes).2)) := by
  unfold outcome
  rw [if_pos (show (nested changes).applies mode (some (Value.object inner)).isSome = true from ha)]

theorem outcome_of_not_object {mode : Mode} {c : Change} {old : Option Value}
    (ha : c.applies mode old.isSome = true)
    (h : ¬ ((∃ changes : ChangeSet, c = .nested changes) ∧
      ∃ a : Entries Value, old = some (.object a))) :
    c.outcome mode old = (c.toValue?, some (bringingBack old)) := by
  unfold outcome
  rw [if_pos ha]
  split
  · exact absurd ⟨⟨_, rfl⟩, _, rfl⟩ h
  · rfl

/-- The three ways a change can go. -/
theorem outcome_cases (mode : Mode) (c : Change) (old : Option Value) :
    (c.outcome mode old = (old, none)) ∨
    (∃ (changes : ChangeSet) (inner : Entries Value),
      c = .nested changes ∧ old = some (.object inner) ∧
      c.outcome mode old = (some (.object (ChangeSet.applyTo mode inner changes).1),
        if (ChangeSet.applyTo mode inner changes).2.isEmpty then none
        else some (.nested (ChangeSet.applyTo mode inner changes).2))) ∨
    (c.applies mode old.isSome = true ∧
      c.outcome mode old = (c.toValue?, some (bringingBack old))) := by
  by_cases ha : c.applies mode old.isSome = true
  · by_cases hmerge : (∃ changes : ChangeSet, c = .nested changes) ∧
        ∃ a : Entries Value, old = some (.object a)
    · obtain ⟨⟨changes, rfl⟩, inner, rfl⟩ := hmerge
      exact .inr (.inl ⟨changes, inner, rfl, rfl, outcome_of_object ha⟩)
    · exact .inr (.inr ⟨ha, outcome_of_not_object ha hmerge⟩)
  · exact .inl (outcome_of_not_applies ha)

end Change

/-! ## One key -/

/-- The entries hold a value, or nothing, under a key and are otherwise as before. -/
def Entries.IsUpdate {α : Type} (before after : Entries α) (key : Text) (value : Option α) : Prop :=
  after.Distinct ∧ ∀ other, after.get? other = if key = other then value else before.get? other

namespace Entries

variable {α : Type} {e : Entries α}

theorem isUpdate_self (he : e.Distinct) (key : Text) : e.IsUpdate e key (e.get? key) := by
  refine ⟨he, fun other => ?_⟩
  split_ifs with h
  · rw [h]
  · rfl

theorem isUpdate_insert (he : e.Distinct) (key : Text) (value : α) :
    e.IsUpdate (e.insert key value) key (some value) :=
  ⟨he.insert key value, get?_insert e key value⟩

theorem isUpdate_erase (he : e.Distinct) (key : Text) : e.IsUpdate (e.erase key) key none :=
  ⟨he.erase key, get?_erase he key⟩

end Entries

theorem Entries.setField_snd (fields : Entries Value) (key : Text) (value : Value) :
    (fields.setField key value).2 = some (Change.bringingBack (fields.get? key)) := by
  unfold setField
  rcases fields.get? key <;> rfl

/-- One change has its outcome under its key and touches no other. -/
theorem Change.applyTo_outcome {mode : Mode} {c : Change} {key : Text} {fields : Entries Value}
    (hf : fields.Distinct) (ha : c.applies mode (fields.contains key) = true) :
    fields.IsUpdate (c.applyTo mode key fields).1 key (c.outcome mode (fields.get? key)).1 ∧
      (c.applyTo mode key fields).2 = (c.outcome mode (fields.get? key)).2 := by
  have ha' : c.applies mode (fields.get? key).isSome = true := ha
  unfold outcome
  rw [if_pos ha']
  rcases c with value | changes | _
  · rw [Change.applyTo]
    exact ⟨Entries.isUpdate_insert hf key value, Entries.setField_snd fields key value⟩
  · rw [Change.applyTo]
    split
    · rename_i inner hget
      rw [hget]
      exact ⟨Entries.isUpdate_insert hf key _, rfl⟩
    · rename_i hget
      split
      · rename_i hget'
        exact absurd hget' (hget _)
      · exact ⟨Entries.isUpdate_insert hf key _, Entries.setField_snd fields key _⟩
  · rw [Change.applyTo, Entries.removeField]
    obtain ⟨prior, hprior⟩ := Option.isSome_iff_exists.mp ha'
    rw [hprior]
    exact ⟨Entries.isUpdate_erase hf key, rfl⟩

/-! ## All keys -/

namespace ChangeSet

/-- The fields after the first of some changes, and what the patch has under its key. -/
def first (mode : Mode) (fields : Entries Value) (key : Text) (c : Change) :
    Entries Value × Option Change :=
  if c.applies mode (fields.contains key) then c.applyTo mode key fields else (fields, none)

theorem applyTo_cons (mode : Mode) (fields : Entries Value) (key : Text) (c : Change)
    (rest : ChangeSet) :
    applyTo mode fields ((key, c) :: rest) =
      ((applyTo mode (first mode fields key c).1 rest).1,
        ((first mode fields key c).2.map fun inverse => (key, inverse)).toList ++
          (applyTo mode (first mode fields key c).1 rest).2) := by
  unfold first
  rw [applyTo]
  split_ifs with ha
  · rcases hundo : (c.applyTo mode key fields).2 <;> simp [hundo]
  · simp

theorem first_outcome {fields : Entries Value} (hf : fields.Distinct) (mode : Mode) (key : Text)
    (c : Change) :
    fields.IsUpdate (first mode fields key c).1 key (c.outcome mode (fields.get? key)).1 ∧
      (first mode fields key c).2 = (c.outcome mode (fields.get? key)).2 := by
  unfold first
  split_ifs with ha
  · exact Change.applyTo_outcome hf ha
  · rw [Change.outcome_of_not_applies ha]
    exact ⟨Entries.isUpdate_self hf key, rfl⟩

variable {mode : Mode} {fields : Entries Value} {changes : ChangeSet}

theorem distinct_applyTo (hf : fields.Distinct) : (applyTo mode fields changes).1.Distinct := by
  induction changes generalizing fields with
  | nil => exact hf
  | cons entry rest ih =>
    rw [applyTo_cons]
    exact ih (first_outcome hf mode entry.1 entry.2).1.1

/-- **Under every key the object has the outcome of the change of that key.** -/
theorem get?_applyTo (hf : fields.Distinct) (hc : changes.Distinct) (key : Text) :
    (applyTo mode fields changes).1.get? key =
      (changes.get? key).elim (fields.get? key) fun c => (c.outcome mode (fields.get? key)).1 := by
  induction changes generalizing fields with
  | nil => rfl
  | cons entry rest ih =>
    obtain ⟨k, c⟩ := entry
    obtain ⟨⟨hfirst, hget⟩, -⟩ := first_outcome hf mode k c
    rw [applyTo_cons, ih hfirst hc.tail, hget, Entries.get?_cons]
    split_ifs with hk
    · subst hk
      rw [Entries.get?_eq_none_of_not_mem hc.head_not_mem]
      rfl
    · rfl

theorem keys_patch_sublist :
    (Entries.keys (applyTo mode fields changes).2).Sublist (Entries.keys changes) := by
  induction changes generalizing fields with
  | nil => exact .slnil
  | cons entry rest ih =>
    rw [applyTo_cons]
    rcases (first mode fields entry.1 entry.2).2 with _ | inverse
    · exact ih.cons _
    · exact ih.cons_cons _

theorem distinct_patch (hc : changes.Distinct) :
    Entries.Distinct (applyTo mode fields changes).2 :=
  List.Nodup.sublist keys_patch_sublist hc

/-- **Under every key the patch has what the outcome of the change of that key says.** -/
theorem get?_patch (hf : fields.Distinct) (hc : changes.Distinct) (key : Text) :
    Entries.get? (applyTo mode fields changes).2 key =
      (changes.get? key).bind fun c => (c.outcome mode (fields.get? key)).2 := by
  induction changes generalizing fields with
  | nil => rfl
  | cons entry rest ih =>
    obtain ⟨k, c⟩ := entry
    obtain ⟨⟨hfirst, hget⟩, hundo⟩ := first_outcome hf mode k c
    have hrest := ih hfirst hc.tail
    rw [hget] at hrest
    rw [applyTo_cons, hundo, Entries.get?_cons]
    by_cases hk : k = key
    · subst hk
      rw [if_pos rfl, Entries.get?_eq_none_of_not_mem hc.head_not_mem] at hrest
      rcases hout : (c.outcome mode (fields.get? k)).2 with _ | inverse <;>
        simp [hout, hrest, Entries.get?_cons]
    · rw [if_neg hk] at hrest
      rcases (c.outcome mode (fields.get? k)).2 with _ | inverse <;>
        simp [hrest, hk, Entries.get?_cons]

end ChangeSet

/-! ## Distinct keys -/

mutual

/-- Whether no object and no nested change set of a change has a key twice. -/
def Change.hasDistinctKeys : Change → Bool
  | .set value => value.hasDistinctKeys
  | .nested changes => decide (Entries.Distinct changes) && ChangeSet.haveDistinctKeys changes
  | .remove => true

/-- Whether no object and no change set below some changes has a key twice. -/
def ChangeSet.haveDistinctKeys : List (Text × Change) → Bool
  | [] => true
  | (_, c) :: rest => c.hasDistinctKeys && ChangeSet.haveDistinctKeys rest

end

/-- Whether no object and no change set of some changes has a key twice, at any level. -/
def ChangeSet.hasDistinctKeys (changes : ChangeSet) : Bool :=
  Change.hasDistinctKeys (.nested changes)

namespace ChangeSet

variable {mode : Mode} {fields : Entries Value} {changes : ChangeSet}

theorem hasDistinctKeys_iff : changes.hasDistinctKeys = true ↔
    changes.Distinct ∧ ∀ entry ∈ changes, entry.2.hasDistinctKeys = true := by
  have hall : haveDistinctKeys changes = true ↔
      ∀ entry ∈ changes, entry.2.hasDistinctKeys = true := by
    induction changes with
    | nil => simp [haveDistinctKeys]
    | cons entry rest ih => simp [haveDistinctKeys, ih]
  rw [hasDistinctKeys, Change.hasDistinctKeys, Bool.and_eq_true, decide_eq_true_iff, hall]

theorem distinct_of_hasDistinctKeys (h : changes.hasDistinctKeys = true) : changes.Distinct :=
  (hasDistinctKeys_iff.mp h).1

theorem hasDistinctKeys_of_mem (h : changes.hasDistinctKeys = true) {entry : Text × Change}
    (he : entry ∈ changes) : entry.2.hasDistinctKeys = true :=
  (hasDistinctKeys_iff.mp h).2 entry he

theorem hasDistinctKeys_of_get? (h : changes.hasDistinctKeys = true) {key : Text} {c : Change}
    (hget : changes.get? key = some c) : c.hasDistinctKeys = true :=
  hasDistinctKeys_of_mem h (Entries.mem_of_get? hget)

theorem keys_toFields_sublist (changes : ChangeSet) :
    (Entries.keys (toFields changes)).Sublist (Entries.keys changes) := by
  induction changes with
  | nil => exact .slnil
  | cons entry rest ih =>
    rw [toFields]
    rcases entry.2.toValue? with _ | value
    · exact ih.cons _
    · exact ih.cons_cons _

theorem distinct_toFields (h : changes.Distinct) : Entries.Distinct (toFields changes) :=
  List.Nodup.sublist (keys_toFields_sublist changes) h

theorem mem_toFields {entry : Text × Value} (h : entry ∈ toFields changes) :
    ∃ c, (entry.1, c) ∈ changes ∧ c.toValue? = some entry.2 := by
  induction changes with
  | nil => cases h
  | cons first rest ih =>
    rw [toFields] at h
    rcases hv : first.2.toValue? with _ | value <;> rw [hv] at h
    · obtain ⟨c, hc, hval⟩ := ih h
      exact ⟨c, List.mem_cons_of_mem _ hc, hval⟩
    · rcases List.mem_cons.mp h with rfl | h
      · exact ⟨first.2, List.mem_cons_self, hv⟩
      · obtain ⟨c, hc, hval⟩ := ih h
        exact ⟨c, List.mem_cons_of_mem _ hc, hval⟩

end ChangeSet

theorem Change.hasDistinctKeys_toValue? {c : Change} (h : c.hasDistinctKeys = true) :
    ∀ v ∈ c.toValue?, v.hasDistinctKeys = true := by
  induction c using Change.induction with
  | step c ih =>
    rcases c with value | changes | _
    · rintro v ⟨⟩
      exact h
    · rintro v ⟨⟩
      have hd := ChangeSet.distinct_of_hasDistinctKeys h
      rw [Value.hasDistinctKeys_object]
      refine ⟨ChangeSet.distinct_toFields hd, fun entry he => ?_⟩
      obtain ⟨c, hc, hval⟩ := ChangeSet.mem_toFields he
      exact ih changes rfl _ hc (ChangeSet.hasDistinctKeys_of_mem h hc) _ hval
    · rintro v ⟨⟩

/-- No outcome of the change has a key twice where the value before had none. -/
def Change.KeepsDistinct (mode : Mode) (c : Change) : Prop :=
  ∀ old : Option Value, (∀ v ∈ old, v.hasDistinctKeys = true) →
    (∀ v ∈ (c.outcome mode old).1, v.hasDistinctKeys = true) ∧
      ∀ p ∈ (c.outcome mode old).2, p.hasDistinctKeys = true

theorem ChangeSet.hasDistinctKeys_applyTo_of {mode : Mode} {fields : Entries Value}
    {changes : ChangeSet} (hf : (Value.object fields).hasDistinctKeys = true)
    (hc : changes.hasDistinctKeys = true) (h : ∀ entry ∈ changes, entry.2.KeepsDistinct mode) :
    (Value.object (applyTo mode fields changes).1).hasDistinctKeys = true ∧
      hasDistinctKeys (applyTo mode fields changes).2 = true := by
  have hfd := Value.distinct_of_hasDistinctKeys hf
  have hfields := Value.hasDistinctKeys_of_get? hf
  have hcd := distinct_of_hasDistinctKeys hc
  rw [Value.hasDistinctKeys_object_iff_get?, hasDistinctKeys_iff]
  refine ⟨⟨distinct_applyTo hfd, fun key v hv => ?_⟩, distinct_patch hcd, fun entry he => ?_⟩
  · rw [get?_applyTo hfd hcd] at hv
    rcases hget : changes.get? key with _ | c <;> rw [hget] at hv
    · exact hfields key v hv
    · exact (h _ (Entries.mem_of_get? hget) _ (hfields key)).1 v hv
  · have hp := (Entries.mem_iff_get? (distinct_patch hcd)).mp he
    rw [get?_patch hfd hcd] at hp
    obtain ⟨c, hget, hp⟩ := Option.bind_eq_some_iff.mp hp
    exact (h _ (Entries.mem_of_get? hget) _ (hfields _)).2 _ hp

theorem Change.keepsDistinct {c : Change} (hc : c.hasDistinctKeys = true) (mode : Mode) :
    c.KeepsDistinct mode := by
  induction c using Change.induction with
  | step c ih =>
    intro old hold
    obtain hout | ⟨changes, inner, rfl, rfl, hout⟩ | ⟨-, hout⟩ := outcome_cases mode c old <;>
      rw [hout]
    · exact ⟨hold, fun p hp => nomatch hp⟩
    · have hinner := ChangeSet.hasDistinctKeys_applyTo_of (hold _ rfl) hc fun entry he =>
        ih changes rfl entry he (ChangeSet.hasDistinctKeys_of_mem hc he)
      refine ⟨?_, ?_⟩
      · rintro v ⟨⟩
        exact hinner.1
      · intro p hp
        split_ifs at hp
        · cases hp
        · cases hp
          exact hinner.2
    · refine ⟨hasDistinctKeys_toValue? hc, ?_⟩
      rintro p ⟨⟩
      rcases old with _ | prior
      · rfl
      · exact hold prior rfl

/-- Neither the object nor the patch gets a key twice. -/
theorem ChangeSet.hasDistinctKeys_applyTo {fields : Entries Value} {changes : ChangeSet}
    (hf : (Value.object fields).hasDistinctKeys = true) (hc : changes.hasDistinctKeys = true)
    (mode : Mode) :
    (Value.object (applyTo mode fields changes).1).hasDistinctKeys = true ∧
      hasDistinctKeys (applyTo mode fields changes).2 = true :=
  hasDistinctKeys_applyTo_of hf hc fun _ he =>
    Change.keepsDistinct (hasDistinctKeys_of_mem hc he) mode

end StyleRules

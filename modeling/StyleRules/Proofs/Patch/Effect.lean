import StyleRules.Proofs.Patch.Pointwise

/-!
# The effect of a change set

What becomes of each key of an object, what the patch has there, and where the keys stand. The
pointwise view says what is found under a key; together with the order of keys it leaves no choice.

* `ChangeSet.keepsOrder_applyTo`: the keys that stay keep their order, the new ones follow in the
  order of the changes;
* `ChangeSet.eq_of_patch_eq_nil`: where the patch is empty, nothing has changed;
* `Change.Writes`: the plain value of a change, without its removals;
* `ChangeSet.Effect`: the meaning of a change set, one clause for each kind of change;
* `ChangeSet.effect_applyTo`, `ChangeSet.Effect.unique`: a change set has its effect, and only one
  outcome is that effect;
* **`Setter.apply_effect`**: the same for setters.
-/

namespace StyleRules

/-! ## Order of keys -/

theorem Change.keepsOrder_applyTo {fields : Entries Value} (hf : fields.Distinct) (mode : Mode)
    (key : Text) (c : Change) : fields.KeepsOrder [key] (c.applyTo mode key fields).1 := by
  cases c with
  | set value =>
    rw [Change.applyTo]
    exact Entries.keepsOrder_insert fields key value
  | nested changes =>
    rw [Change.applyTo]
    split
    · exact Entries.keepsOrder_insert fields key _
    · exact Entries.keepsOrder_insert fields key _
  | remove =>
    rw [Change.applyTo, Entries.removeField]
    split
    · exact Entries.keepsOrder_erase hf key
    · exact Entries.keepsOrder_self fields [key]

namespace ChangeSet

variable {mode : Mode} {fields : Entries Value} {changes : ChangeSet}

theorem keepsOrder_first (hf : fields.Distinct) (key : Text) (c : Change) :
    fields.KeepsOrder [key] (first mode fields key c).1 := by
  unfold first
  split_ifs
  · exact c.keepsOrder_applyTo hf mode key
  · exact Entries.keepsOrder_self fields [key]

theorem get?_applyTo_of_not_mem (hf : fields.Distinct) (hc : changes.Distinct) {key : Text}
    (hk : key ∉ changes.keys) : (applyTo mode fields changes).1.get? key = fields.get? key := by
  rw [get?_applyTo hf hc, Entries.get?_eq_none_of_not_mem hk]
  rfl

theorem keepsOrder_applyTo (hf : fields.Distinct) (hc : changes.Distinct) :
    fields.KeepsOrder changes.keys (applyTo mode fields changes).1 := by
  induction changes generalizing fields with
  | nil => exact Entries.keepsOrder_self fields []
  | cons entry rest ih =>
    obtain ⟨k, c⟩ := entry
    obtain ⟨⟨hfirst, hget⟩, -⟩ := first_outcome hf mode k c
    rw [applyTo_cons]
    apply (keepsOrder_first hf k c).trans (ih hfirst hc.tail)
    · intro key hk
      rw [hget, if_neg fun h => hk (List.mem_singleton.mpr h.symm)]
    · intro key hk
      exact get?_applyTo_of_not_mem hfirst hc.tail hk
    · exact List.singleton_disjoint.mpr hc.head_not_mem

end ChangeSet

/-! ## Empty patches -/

/-- Whatever the change does to an object leaves a trace in the patch. -/
def Change.LeavesTrace (mode : Mode) (c : Change) : Prop :=
  ∀ (fields : Entries Value) (key : Text), (ChangeSet.first mode fields key c).2 = none →
    (ChangeSet.first mode fields key c).1 = fields

theorem ChangeSet.eq_of_patch_eq_nil_of {mode : Mode} {fields : Entries Value}
    {changes : ChangeSet} (h : ∀ entry ∈ changes, entry.2.LeavesTrace mode)
    (hp : (applyTo mode fields changes).2 = []) : (applyTo mode fields changes).1 = fields := by
  induction changes generalizing fields with
  | nil => rfl
  | cons entry rest ih =>
    obtain ⟨k, c⟩ := entry
    obtain ⟨hc, hrest⟩ := List.forall_mem_cons.mp h
    rw [applyTo_cons, List.append_eq_nil_iff, Option.toList_eq_nil_iff,
      Option.map_eq_none_iff] at hp
    have hfirst : (first mode fields k c).1 = fields := hc fields k hp.1
    rw [hfirst] at hp
    rw [applyTo_cons, hfirst, ih hrest hp.2]

theorem Change.leavesTrace (mode : Mode) (c : Change) : c.LeavesTrace mode := by
  induction c using Change.induction with
  | step c ih =>
    intro fields key hp
    unfold ChangeSet.first at hp ⊢
    split_ifs at hp ⊢ with ha
    · cases c with
      | set value =>
        rw [Change.applyTo, Entries.setField_snd] at hp
        cases hp
      | nested changes =>
        rw [Change.applyTo] at hp ⊢
        split at hp
        · rename_i inner hget
          -- the object is written back as it was
          have hpatch : (ChangeSet.applyTo mode inner changes).2 = [] := by simpa using hp
          simp only [ChangeSet.eq_of_patch_eq_nil_of (ih changes rfl) hpatch]
          exact Entries.insert_of_get? hget
        · rw [Entries.setField_snd] at hp
          cases hp
      | remove =>
        rw [Change.applyTo, Entries.removeField] at hp ⊢
        split at hp
        · cases hp
        · rfl
    · rfl

theorem ChangeSet.eq_of_patch_eq_nil {mode : Mode} {fields : Entries Value} {changes : ChangeSet}
    (h : (applyTo mode fields changes).2 = []) : (applyTo mode fields changes).1 = fields :=
  eq_of_patch_eq_nil_of (fun entry _ => entry.2.leavesTrace mode) h

/-! ## Plain values -/

mutual

/-- The value is that of the change, with the removals at every depth left out. -/
inductive Change.Writes : Change → Value → Prop
  | set (value : Value) : Change.Writes (.set value) value
  | nested {changes : ChangeSet} {fields : Entries Value} :
      ChangeSet.Writes changes fields → Change.Writes (.nested changes) (.object fields)

/-- The fields are those of the changes, in their order and without the removals. -/
inductive ChangeSet.Writes : ChangeSet → Entries Value → Prop
  | nil : ChangeSet.Writes [] []
  | kept {key : Text} {c : Change} {value : Value} {rest : ChangeSet} {fields : Entries Value} :
      Change.Writes c value → ChangeSet.Writes rest fields →
        ChangeSet.Writes ((key, c) :: rest) ((key, value) :: fields)
  | dropped {key : Text} {rest : ChangeSet} {fields : Entries Value} :
      ChangeSet.Writes rest fields → ChangeSet.Writes ((key, .remove) :: rest) fields

end

mutual

theorem Change.writes_iff : ∀ {c : Change} {value : Value},
    c.Writes value ↔ c.toValue? = some value
  | .set v, value => by
    rw [Change.toValue?, Option.some_inj]
    constructor
    · rintro ⟨⟩
      rfl
    · rintro rfl
      exact .set v
  | .nested changes, value => by
    rw [Change.toValue?, Option.some_inj]
    constructor
    · intro h
      cases h with
      | nested hfields => rw [ChangeSet.writes_iff.mp hfields]
    · rintro rfl
      exact .nested (ChangeSet.writes_iff.mpr rfl)
  | .remove, value => by
    constructor <;> rintro ⟨⟩

theorem ChangeSet.writes_iff : ∀ {changes : ChangeSet} {fields : Entries Value},
    ChangeSet.Writes changes fields ↔ ChangeSet.toFields changes = fields
  | [], fields => by
    constructor
    · rintro ⟨⟩
      rfl
    · rintro rfl
      exact .nil
  | (key, c) :: rest, fields => by
    rw [ChangeSet.toFields]
    constructor
    · intro h
      cases h with
      | kept hc hrest => rw [Change.writes_iff.mp hc, ChangeSet.writes_iff.mp hrest]
      | dropped hrest => exact ChangeSet.writes_iff.mp hrest
    · rintro rfl
      have hrest : ChangeSet.Writes rest (ChangeSet.toFields rest) := ChangeSet.writes_iff.mpr rfl
      cases hc : c.toValue? with
      | some value => exact .kept (Change.writes_iff.mpr hc) hrest
      | none =>
        cases c with
        | set v => cases hc
        | nested changes => cases hc
        | remove => exact .dropped hrest

end

/-! ## The effect -/

/-- Whether the change neither removes the key nor goes into an object, so that it replaces the
value under the key if the mode lets it. -/
def Change.Replaces (mode : Mode) (old : Option Value) (c : Change) : Prop :=
  c ≠ .remove ∧ ¬ (mode.changes = true ∧ (∃ nested : ChangeSet, c = .nested nested) ∧
    ∃ inner : Entries Value, old = some (.object inner))

namespace ChangeSet

/-- **The effect of a change set** on an object: what is under each key afterwards, what the patch
has there, and the order of the keys of both. -/
structure Effect (mode : Mode) (changes : ChangeSet) (before after : Entries Value)
    (patch : ChangeSet) : Prop where
  untouched : ∀ key, changes.get? key = none →
    after.get? key = before.get? key ∧ patch.get? key = none
  /-- A removal takes the key away in every mode; the patch has the value that was there. -/
  removed : ∀ key, changes.get? key = some .remove →
    after.get? key = none ∧ patch.get? key = (before.get? key).map .set
  /-- Nested changes go into an object that may be changed, and so does their patch. -/
  merged : ∀ (key : Text) (nested : ChangeSet) (inner : Entries Value),
    changes.get? key = some (.nested nested) → before.get? key = some (.object inner) →
    mode.changes = true →
      after.get? key = some (.object (applyTo mode inner nested).1) ∧
      patch.get? key = if (applyTo mode inner nested).2 = [] then none
        else some (.nested (applyTo mode inner nested).2)
  /-- Any other change writes its plain value if the mode admits it; the patch has the value that
  was there, or a removal. -/
  written : ∀ key c, changes.get? key = some c → c.Replaces mode (before.get? key) →
    (if before.contains key then mode.changes else mode.adds) = true →
      (∃ value, c.Writes value ∧ after.get? key = some value) ∧
      patch.get? key = some ((before.get? key).elim .remove .set)
  skipped : ∀ key c, changes.get? key = some c → c.Replaces mode (before.get? key) →
    (if before.contains key then mode.changes else mode.adds) = false →
      after.get? key = before.get? key ∧ patch.get? key = none
  patch_order : patch.keys.Sublist changes.keys
  /-- The keys that stay keep their order, the new ones follow in the order of the changes. -/
  order : before.KeepsOrder changes.keys after
  unchanged : patch = [] → after = before

end ChangeSet

namespace Change

theorem outcome_remove (mode : Mode) (old : Option Value) :
    remove.outcome mode old = (none, old.map .set) := by
  cases old <;> rfl

theorem bringingBack_eq (old : Option Value) : bringingBack old = old.elim .remove .set := by
  cases old <;> rfl

theorem applies_of_ne_remove {c : Change} (h : c ≠ .remove) (mode : Mode) (isPresent : Bool) :
    c.applies mode isPresent = if isPresent then mode.changes else mode.adds := by
  cases c with
  | set value => rfl
  | nested changes => rfl
  | remove => exact absurd rfl h

theorem exists_writes_iff {c : Change} (h : c ≠ .remove) {v : Option Value} :
    (∃ value, c.Writes value ∧ v = some value) ↔ v = c.toValue? := by
  obtain ⟨value, hvalue⟩ : ∃ value, c.toValue? = some value := by
    cases c with
    | set value => exact ⟨_, rfl⟩
    | nested changes => exact ⟨_, rfl⟩
    | remove => exact absurd rfl h
  simp only [writes_iff, hvalue, Option.some_inj, exists_eq_left']

theorem Replaces.outcome_eq {mode : Mode} {old : Option Value} {c : Change}
    (h : c.Replaces mode old) (ha : c.applies mode old.isSome = true) :
    c.outcome mode old = (c.toValue?, some (bringingBack old)) := by
  apply outcome_of_not_object ha
  rintro ⟨hnested, inner, rfl⟩
  rw [applies_of_ne_remove h.1] at ha
  exact h.2 ⟨ha, hnested, inner, rfl⟩

end Change

namespace ChangeSet

variable {mode : Mode} {fields : Entries Value} {changes : ChangeSet}

theorem get?_of_outcome (hf : fields.Distinct) (hc : changes.Distinct) {key : Text} {c : Change}
    {v : Option Value} {inverse : Option Change} (hkey : changes.get? key = some c)
    (h : c.outcome mode (fields.get? key) = (v, inverse)) :
    (applyTo mode fields changes).1.get? key = v ∧
      Entries.get? (applyTo mode fields changes).2 key = inverse := by
  rw [get?_applyTo hf hc, get?_patch hf hc, hkey, Option.elim_some, Option.bind_some, h]
  exact ⟨rfl, rfl⟩

theorem effect_applyTo (hf : fields.Distinct) (hc : changes.Distinct) :
    changes.Effect mode fields (applyTo mode fields changes).1 (applyTo mode fields changes).2 where
  untouched key hkey := by
    rw [get?_applyTo hf hc, get?_patch hf hc, hkey]
    exact ⟨rfl, rfl⟩
  removed key hkey := get?_of_outcome hf hc hkey (Change.outcome_remove mode _)
  merged key nested inner hkey hget hmode := by
    apply get?_of_outcome hf hc hkey
    rw [hget, Change.outcome_of_object hmode]
    simp only [List.isEmpty_iff]
  written key c hkey hreplaces hmode := by
    have ha : c.applies mode (fields.get? key).isSome = true :=
      (Change.applies_of_ne_remove hreplaces.1 mode _).trans hmode
    rw [Change.exists_writes_iff hreplaces.1, ← Change.bringingBack_eq]
    exact get?_of_outcome hf hc hkey (hreplaces.outcome_eq ha)
  skipped key c hkey hreplaces hmode := by
    have ha : ¬ c.applies mode (fields.get? key).isSome = true := by
      rw [Change.applies_of_ne_remove hreplaces.1]
      exact Bool.not_eq_true _ ▸ hmode
    exact get?_of_outcome hf hc hkey (Change.outcome_of_not_applies ha)
  patch_order := keys_patch_sublist
  order := keepsOrder_applyTo hf hc
  unchanged := eq_of_patch_eq_nil

namespace Effect

variable {before after after' : Entries Value} {patch patch' : ChangeSet}

/-- The clauses on single keys leave no choice. -/
theorem get?_eq (h : changes.Effect mode before after patch)
    (h' : changes.Effect mode before after' patch') (key : Text) :
    after.get? key = after'.get? key ∧ patch.get? key = patch'.get? key := by
  have hsame : ∀ {v : Option Value} {p : Option Change},
      after.get? key = v ∧ patch.get? key = p → after'.get? key = v ∧ patch'.get? key = p →
        after.get? key = after'.get? key ∧ patch.get? key = patch'.get? key :=
    fun hv hv' => ⟨hv.1.trans hv'.1.symm, hv.2.trans hv'.2.symm⟩
  rcases hkey : changes.get? key with _ | c
  · exact hsame (h.untouched key hkey) (h'.untouched key hkey)
  by_cases hremove : c = .remove
  · rw [hremove] at hkey
    exact hsame (h.removed key hkey) (h'.removed key hkey)
  by_cases hreplaces : c.Replaces mode (before.get? key)
  · by_cases hmode : (if before.contains key then mode.changes else mode.adds) = true
    · have hw := h.written key c hkey hreplaces hmode
      have hw' := h'.written key c hkey hreplaces hmode
      rw [Change.exists_writes_iff hremove] at hw hw'
      exact hsame hw hw'
    · rw [Bool.not_eq_true] at hmode
      exact hsame (h.skipped key c hkey hreplaces hmode) (h'.skipped key c hkey hreplaces hmode)
  · obtain ⟨hmode, ⟨nested, rfl⟩, inner, hget⟩ := not_not.mp fun hn => hreplaces ⟨hremove, hn⟩
    exact hsame (h.merged key nested inner hkey hget hmode)
      (h'.merged key nested inner hkey hget hmode)

theorem unique (hb : before.Distinct) (hc : changes.Distinct)
    (h : changes.Effect mode before after patch)
    (h' : changes.Effect mode before after' patch') : after = after' ∧ patch = patch' := by
  have hget := fun key => (h.get?_eq h' key).1
  have hpatch := fun key => (h.get?_eq h' key).2
  have hcontains : after.contains = after'.contains := by
    funext key
    exact Entries.contains_congr (hget key)
  have horder := h.order
  have horder' := h'.order
  rw [Entries.KeepsOrder] at horder horder'
  have hkeys : after.keys = after'.keys := by rw [horder, horder', hcontains]
  exact ⟨Entries.eq_of_get?_eq (h.order.distinct hb hc) hkeys hget,
    Entries.eq_of_keys_sublist hc h.patch_order h'.patch_order hpatch⟩

end Effect

end ChangeSet

/-- **The pointwise meaning of a setter.** Applied to an object, a setter succeeds; the new object
and the patch are the effect of its changes, and nothing else is. As in every object and every
change set, no key stands twice. -/
theorem Setter.apply_effect (s : Setter) {fields : Entries Value} (hf : fields.Distinct)
    (hs : s.changes.Distinct) :
    ∃ after patch, s.apply (.object fields) = .ok (.object after, patch) ∧
      s.changes.Effect s.mode fields after patch ∧
      ∀ after' patch', s.changes.Effect s.mode fields after' patch' →
        after' = after ∧ patch' = patch := by
  refine ⟨_, _, s.apply_object fields, ChangeSet.effect_applyTo hf hs, ?_⟩
  intro after' patch' h'
  exact h'.unique hf hs (ChangeSet.effect_applyTo hf hs)

/-- An object with something to remove, an object and a text. -/
def Setter.sampleFields : Entries Value :=
  [("gone".toList, .null),
    ("box".toList, .object [("a".toList, .number (.int 1)), ("c".toList, .bool true)]),
    ("flat".toList, .string "s".toList)]

/-- Changes of every kind: a new key, removals, changes inside an object and over a text. -/
def Setter.sampleEdit : Setter where
  changes := [("new".toList, .set (.bool false)), ("gone".toList, .remove),
    ("none".toList, .remove),
    ("box".toList, .nested [("a".toList, .remove), ("b".toList, .set .null)]),
    ("flat".toList, .nested [("x".toList, .set .null), ("y".toList, .remove)])]
  mode := .both
  nonempty := rfl

theorem Setter.apply_effect_sampleEdit : sampleEdit.changes.Effect .both sampleFields
    [("box".toList, .object [("c".toList, .bool true), ("b".toList, .null)]),
      ("flat".toList, .object [("x".toList, .null)]), ("new".toList, .bool false)]
    [("new".toList, .remove), ("gone".toList, .set .null),
      ("box".toList, .nested [("a".toList, .set (.number (.int 1))), ("b".toList, .remove)]),
      ("flat".toList, .set (.string "s".toList))] := by
  have hf : sampleFields.Distinct := by decide
  obtain ⟨after, patch, happly, heffect, -⟩ := sampleEdit.apply_effect hf (by decide)
  cases happly
  exact heffect

end StyleRules

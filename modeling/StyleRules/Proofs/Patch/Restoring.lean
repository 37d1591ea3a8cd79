import StyleRules.Proofs.Patch.Effect
import StyleRules.Proofs.Patch.Undo

/-!
# Restoring an object exactly

A patch brings an object back up to the order of fields: a removed key comes back at the end. Where
nothing is removed, at any depth, the order comes back as well, since new keys stand after the old
ones and are the ones that the patch takes away.

* `Change.isRemovalFree`, `ChangeSet.isRemovalFree`: changes without removals;
* `Change.Restores`: the patch of a change brings back the very value that was there;
* `ChangeSet.undo_eq`: a change set without removals is undone exactly;
* **`Setter.restore_of_isRemovalFree`**: the same for setters; those made from an object are of this
  kind.
-/

namespace StyleRules

/-! ## Changes without removals -/

mutual

/-- Whether a change removes nothing, at any depth. -/
def Change.isRemovalFree : Change → Bool
  | .set _ => true
  | .nested changes => ChangeSet.isRemovalFree changes
  | .remove => false

/-- Whether some changes remove nothing, at any depth. -/
def ChangeSet.isRemovalFree : ChangeSet → Bool
  | [] => true
  | (_, c) :: rest => c.isRemovalFree && ChangeSet.isRemovalFree rest

end

theorem ChangeSet.isRemovalFree_iff {changes : ChangeSet} :
    changes.isRemovalFree = true ↔ ∀ entry ∈ changes, entry.2.isRemovalFree = true := by
  induction changes with
  | nil => simp [isRemovalFree]
  | cons entry rest ih => simp [isRemovalFree, ih]

mutual

theorem Change.isRemovalFree_ofValue : ∀ v : Value, (Change.ofValue v).isRemovalFree = true
  | .object fields => by
    rw [Change.ofValue]
    split_ifs
    · rfl
    · exact ChangeSet.isRemovalFree_ofFields fields
  | .null | .bool _ | .number _ | .string _ | .array _ => rfl

theorem ChangeSet.isRemovalFree_ofFields : ∀ fields : List (Text × Value),
    ChangeSet.isRemovalFree (ChangeSet.ofFields fields) = true
  | [] => rfl
  | (_, v) :: rest => by
    rw [ChangeSet.ofFields, ChangeSet.isRemovalFree, Change.isRemovalFree_ofValue v,
      ChangeSet.isRemovalFree_ofFields rest]
    rfl

end

/-- No key is lost. -/
theorem Change.isSome_outcome {c : Change} (h : c.isRemovalFree = true) (mode : Mode) (v : Value) :
    (c.outcome mode (some v)).1.isSome = true := by
  obtain hout | ⟨changes, inner, -, -, hout⟩ | ⟨-, hout⟩ := outcome_cases mode c (some v)
  · rw [hout]
    rfl
  · rw [hout]
    rfl
  · rw [hout]
    cases c with
    | set value => rfl
    | nested changes => rfl
    | remove => cases h

theorem ChangeSet.contains_applyTo {mode : Mode} {fields : Entries Value} {changes : ChangeSet}
    (hf : fields.Distinct) (hc : changes.Distinct) (hfree : changes.isRemovalFree = true)
    {key : Text} (hk : fields.contains key = true) :
    (applyTo mode fields changes).1.contains key = true := by
  obtain ⟨v, hv⟩ := Option.isSome_iff_exists.mp hk
  rw [Entries.contains, get?_applyTo hf hc, hv]
  rcases hget : changes.get? key with _ | c
  · rfl
  · exact Change.isSome_outcome (isRemovalFree_iff.mp hfree _ (Entries.mem_of_get? hget)) mode v

/-! ## The patch brings back the same -/

/-- The patch of every outcome of the change brings back the very value that was there. -/
def Change.Restores (mode : Mode) (c : Change) : Prop :=
  ∀ old : Option Value, (∀ v ∈ old, v.hasDistinctKeys = true) →
    restored (c.outcome mode old) = old

theorem ChangeSet.undo_eq_of {mode : Mode} {fields : Entries Value} {changes : ChangeSet}
    (hf : (Value.object fields).hasDistinctKeys = true) (hc : changes.hasDistinctKeys = true)
    (hfree : changes.isRemovalFree = true) (h : ∀ entry ∈ changes, entry.2.Restores mode) :
    (applyTo .both (applyTo mode fields changes).1 (applyTo mode fields changes).2).1 = fields := by
  have hfd := Value.distinct_of_hasDistinctKeys hf
  have hcd := distinct_of_hasDistinctKeys hc
  have hget : ∀ key, (applyTo .both (applyTo mode fields changes).1
      (applyTo mode fields changes).2).1.get? key = fields.get? key := by
    intro key
    rw [get?_undo hfd hcd]
    rcases hget : changes.get? key with _ | c
    · rfl
    · exact h _ (Entries.mem_of_get? hget) _ (Value.hasDistinctKeys_of_get? hf key)
  apply Entries.eq_of_get?_eq (distinct_applyTo (distinct_applyTo hfd)) _ hget
  apply (keepsOrder_applyTo hfd hcd).keys_eq
    (keepsOrder_applyTo (distinct_applyTo hfd) (distinct_patch hcd))
  · intro key
    exact Entries.contains_congr (hget key)
  · intro key hk
    exact contains_applyTo hfd hcd hfree hk

theorem Change.restores {c : Change} (hc : c.hasDistinctKeys = true)
    (hfree : c.isRemovalFree = true) (mode : Mode) : c.Restores mode := by
  induction c using Change.induction with
  | step c ih =>
    intro old hold
    obtain hout | ⟨changes, inner, rfl, rfl, hout⟩ | ⟨ha, hout⟩ := outcome_cases mode c old <;>
      rw [hout]
    · rfl
    · have hback : (ChangeSet.applyTo .both (ChangeSet.applyTo mode inner changes).1
          (ChangeSet.applyTo mode inner changes).2).1 = inner :=
        ChangeSet.undo_eq_of (hold _ rfl) hc hfree fun entry he =>
          ih changes rfl entry he (ChangeSet.hasDistinctKeys_of_mem hc he)
            (ChangeSet.isRemovalFree_iff.mp hfree entry he)
      -- an empty patch is left out, and then nothing has changed
      by_cases hempty : (ChangeSet.applyTo mode inner changes).2 = []
      · rw [if_pos (List.isEmpty_iff.mpr hempty), ChangeSet.eq_of_patch_eq_nil hempty]
        rfl
      · rw [if_neg (by simpa using hempty)]
        exact congrArg (fun fields => some (Value.object fields)) hback
    · exact outcome_bringingBack (isSome_or_isSome_of_applies ha)

theorem ChangeSet.undo_eq {fields : Entries Value} {changes : ChangeSet}
    (hf : (Value.object fields).hasDistinctKeys = true) (hc : changes.hasDistinctKeys = true)
    (hfree : changes.isRemovalFree = true) (mode : Mode) :
    (applyTo .both (applyTo mode fields changes).1 (applyTo mode fields changes).2).1 = fields :=
  undo_eq_of hf hc hfree fun entry he =>
    Change.restores (hasDistinctKeys_of_mem hc he) (isRemovalFree_iff.mp hfree entry he) mode

/-- **Exact restoration.** A setter without removals, at any depth, applies to every object, and
restoring its patch gives back that very object, with the order of fields at every level. The
changes made from an object are of this kind. As in every object and every change set, no key
stands twice. -/
theorem Setter.restore_of_isRemovalFree :
    (∀ (s : Setter) (target : Value), target.isObject = true → target.hasDistinctKeys = true →
      s.changes.hasDistinctKeys = true → s.changes.isRemovalFree = true →
        ∃ changed patch redo, s.apply target = .ok (changed, patch) ∧
          Setter.restore patch changed = .ok (target, redo)) ∧
    ∀ v changes, ChangeSet.ofValue v = .ok changes → changes.isRemovalFree = true := by
  constructor
  · intro s target hobject ht hs hfree
    obtain ⟨fields, rfl⟩ := Value.exists_object_of_isObject hobject
    have hback := Setter.restore_object (ChangeSet.applyTo s.mode fields s.changes).2
      (ChangeSet.applyTo s.mode fields s.changes).1
    rw [ChangeSet.undo_eq ht hs hfree] at hback
    exact ⟨_, _, _, s.apply_object fields, hback⟩
  · intro v changes hv
    unfold ChangeSet.ofValue at hv
    split at hv
    · split_ifs at hv
      obtain rfl := Except.ok.inj hv
      exact ChangeSet.isRemovalFree_ofFields _
    · cases hv

/-- A rule with a style. -/
def Setter.sampleStyled : Value :=
  .object [("style".toList, .object [("width".toList, .string "1rem".toList),
      ("margin".toList, .string "0".toList)]),
    ("text".toList, .string "p".toList)]

/-- Changes one property of a style and adds another, writes over a text and adds a key. -/
def Setter.sampleStyler : Setter where
  changes := [("name".toList, .set .null), ("text".toList, .nested [("x".toList, .set .null)]),
    ("style".toList, .nested [("color".toList, .set (.string "red".toList)),
      ("width".toList, .set (.string "2rem".toList))])]
  mode := .both
  nonempty := rfl

theorem Setter.restore_of_isRemovalFree_sampleStyled :
    sampleStyler.changes.isRemovalFree = true ∧
      ∃ changed patch redo, sampleStyler.apply sampleStyled = .ok (changed, patch) ∧
        changed.eqv sampleStyled = false ∧
        Setter.restore patch changed = .ok (sampleStyled, redo) := by
  obtain ⟨changed, patch, redo, happly, hrestore⟩ := restore_of_isRemovalFree.1 sampleStyler
    sampleStyled rfl (by decide) (by decide) (by decide)
  refine ⟨by decide, changed, patch, redo, happly, ?_, hrestore⟩
  cases happly
  rfl

end StyleRules

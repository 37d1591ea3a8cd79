import Mathlib.Data.List.Permutation
import StyleRules.Proofs.Patch.Effect
import StyleRules.Proofs.Patch.Undo

/-!
# Independent changes

Change sets without a common key neither see nor touch what the other one does: they may be applied
in either order, and undone in either order.

* `ChangeSet.patch_congr`: a patch depends only on what is under the changed keys;
* `ChangeSet.get?_comm`: the order in which two sets are applied does not matter under any key;
* `History.SameObject.undo_both`, `History.SameObject.undo_both_swapped`: both patches bring the
  object back, in either order;
* **`Setter.apply_comm`**: the same for setters.
-/

namespace StyleRules

namespace ChangeSet

variable {m n : Mode} {fields a b : Entries Value} {p q : ChangeSet}

theorem patch_congr (ha : a.Distinct) (hb : b.Distinct) (hp : p.Distinct)
    (h : ∀ key ∈ p.keys, a.get? key = b.get? key) : (applyTo m a p).2 = (applyTo m b p).2 := by
  apply Entries.eq_of_keys_sublist hp keys_patch_sublist keys_patch_sublist
  intro key
  rw [get?_patch ha hp, get?_patch hb hp]
  by_cases hk : key ∈ p.keys
  · rw [h key hk]
  · rw [Entries.get?_eq_none_of_not_mem hk]
    rfl

section Independent

variable (hf : fields.Distinct) (hp : p.Distinct) (hq : q.Distinct)
  (hpq : p.keys.Disjoint q.keys)

include hf hp hq hpq

theorem patch_applyTo : (applyTo n (applyTo m fields p).1 q).2 = (applyTo n fields q).2 := by
  apply patch_congr (distinct_applyTo hf) hf hq
  intro key hk
  exact get?_applyTo_of_not_mem hf hp fun hkp => hpq hkp hk

theorem get?_comm (key : Text) : (applyTo n (applyTo m fields p).1 q).1.get? key =
    (applyTo m (applyTo n fields q).1 p).1.get? key := by
  by_cases hk : key ∈ p.keys
  · have hkq : key ∉ q.keys := hpq hk
    rw [get?_applyTo_of_not_mem (distinct_applyTo hf) hq hkq, get?_applyTo hf hp,
      get?_applyTo (distinct_applyTo hf) hp, get?_applyTo_of_not_mem hf hq hkq]
  · rw [get?_applyTo_of_not_mem (distinct_applyTo hf) hp hk, get?_applyTo hf hq,
      get?_applyTo (distinct_applyTo hf) hq, get?_applyTo_of_not_mem hf hp hk]

end Independent

end ChangeSet

/-! ## Undoing in either order -/

namespace History

namespace SameObject

section Independent

variable {fields : Entries Value} {p q : ChangeSet}
  (hf : (Value.object fields).hasDistinctKeys = true) (hp : p.hasDistinctKeys = true)
  (hq : q.hasDistinctKeys = true) (hpq : p.keys.Disjoint q.keys)

include hf hp hq hpq

theorem comm (m n : Mode) : SameObject (ChangeSet.applyTo n (ChangeSet.applyTo m fields p).1 q).1
    (ChangeSet.applyTo m (ChangeSet.applyTo n fields q).1 p).1 := by
  have hleft := (ChangeSet.hasDistinctKeys_applyTo
    (ChangeSet.hasDistinctKeys_applyTo hf hp m).1 hq n).1
  have hright := (ChangeSet.hasDistinctKeys_applyTo
    (ChangeSet.hasDistinctKeys_applyTo hf hq n).1 hp m).1
  refine ⟨hleft, hright, fun key => ?_⟩
  rw [ChangeSet.get?_comm (Value.distinct_of_hasDistinctKeys hf)
    (ChangeSet.distinct_of_hasDistinctKeys hp) (ChangeSet.distinct_of_hasDistinctKeys hq) hpq]
  exact Value.sameField_refl (Value.hasDistinctKeys_of_get? hright key)

/-- Both patches bring the object back, that of the last changes first. -/
theorem undo_both {m n : Mode} {both : Entries Value}
    (h : SameObject both (ChangeSet.applyTo n (ChangeSet.applyTo m fields p).1 q).1) :
    SameObject (ChangeSet.applyTo .both
      (ChangeSet.applyTo .both both (ChangeSet.applyTo n fields q).2).1
      (ChangeSet.applyTo m fields p).2).1 fields := by
  obtain ⟨hfirst, hpatch⟩ := ChangeSet.hasDistinctKeys_applyTo hf hp m
  have hlast : SameObject (ChangeSet.applyTo .both both (ChangeSet.applyTo n fields q).2).1
      (ChangeSet.applyTo m fields p).1 := by
    rw [← ChangeSet.patch_applyTo (m := m) (Value.distinct_of_hasDistinctKeys hf)
      (ChangeSet.distinct_of_hasDistinctKeys hp) (ChangeSet.distinct_of_hasDistinctKeys hq) hpq]
    have hpatch' := (ChangeSet.hasDistinctKeys_applyTo hfirst hq n).2
    exact (h.applyTo hpatch' .both).trans (SameObject.undo hfirst hq n)
  exact (hlast.applyTo hpatch .both).trans (SameObject.undo hf hp m)

/-- Both patches bring the object back, that of the first changes first. -/
theorem undo_both_swapped {m n : Mode} {both : Entries Value}
    (h : SameObject both (ChangeSet.applyTo n (ChangeSet.applyTo m fields p).1 q).1) :
    SameObject (ChangeSet.applyTo .both
      (ChangeSet.applyTo .both both (ChangeSet.applyTo m fields p).2).1
      (ChangeSet.applyTo n fields q).2).1 fields := by
  have hp' := (ChangeSet.hasDistinctKeys_applyTo hf hp m).2
  have hq' := (ChangeSet.hasDistinctKeys_applyTo hf hq n).2
  -- a patch names no key but those of its changes, so the patches are independent too
  have hpq' : (Entries.keys (ChangeSet.applyTo m fields p).2).Disjoint
      (Entries.keys (ChangeSet.applyTo n fields q).2) := by
    intro key hkp hkq
    exact hpq (ChangeSet.keys_patch_sublist.subset hkp) (ChangeSet.keys_patch_sublist.subset hkq)
  exact (comm h.left hp' hq' hpq' .both .both).trans (undo_both hf hp hq hpq h)

end Independent

end SameObject

theorem undo_pair (x y : Setter × ChangeSet) (fields : Entries Value) :
    undo [x, y] (.object fields) = .ok (.object
      (ChangeSet.applyTo .both (ChangeSet.applyTo .both fields y.2).1 x.2).1) := by
  rw [show [x, y] = [x] ++ [(y.1, y.2)] from rfl, undo_concat]
  exact undo_cons rfl x

/-- The patches of independent setters, restored in any order. -/
theorem undo_of_perm {fields both : Entries Value} {s u : Setter} {log : List (Setter × ChangeSet)}
    (hf : (Value.object fields).hasDistinctKeys = true) (hs : s.changes.hasDistinctKeys = true)
    (hu : u.changes.hasDistinctKeys = true) (hsu : s.changes.keys.Disjoint u.changes.keys)
    (h : SameObject both
      (ChangeSet.applyTo u.mode (ChangeSet.applyTo s.mode fields s.changes).1 u.changes).1)
    (hlog : log.Perm [(s, (ChangeSet.applyTo s.mode fields s.changes).2),
      (u, (ChangeSet.applyTo u.mode fields u.changes).2)]) :
    ∃ v, undo log (.object both) = .ok v ∧ v.eqv (.object fields) = true := by
  rcases List.perm_pair.mp hlog with rfl | rfl
  · exact ⟨_, undo_pair _ _ _, (SameObject.undo_both hf hs hu hsu h).eqv⟩
  · exact ⟨_, undo_pair _ _ _, (SameObject.undo_both_swapped hf hs hu hsu h).eqv⟩

end History

/-- **Independent setters commute and can be undone in any order.** Where two setters have no key in
common, applying one and then the other gives equal objects in both orders, up to the order of
fields, and each setter leaves the same patch in both. From either of these objects, restoring the
two patches in either order gives an object equal to the one at the start. As in every object and
every change set, no key stands twice. -/
theorem Setter.apply_comm {target : Value} (hobject : target.isObject = true)
    (ht : target.hasDistinctKeys = true) {s u : Setter} (hs : s.changes.hasDistinctKeys = true)
    (hu : u.changes.hasDistinctKeys = true)
    (hdisjoint : s.changes.keys.Disjoint u.changes.keys) :
    ∃ a b ab ba p q, s.apply target = .ok (a, p) ∧ u.apply a = .ok (ab, q) ∧
      u.apply target = .ok (b, q) ∧ s.apply b = .ok (ba, p) ∧ ab.eqv ba = true ∧
      ∀ both ∈ [ab, ba], ∀ log : List (Setter × ChangeSet), log.Perm [(s, p), (u, q)] →
        ∃ v, History.undo log both = .ok v ∧ v.eqv target = true := by
  obtain ⟨fields, rfl⟩ := Value.exists_object_of_isObject hobject
  have hdisjoint' : u.changes.keys.Disjoint s.changes.keys := fun _ hku hks => hdisjoint hks hku
  have hf := Value.distinct_of_hasDistinctKeys ht
  have hsd := ChangeSet.distinct_of_hasDistinctKeys hs
  have hud := ChangeSet.distinct_of_hasDistinctKeys hu
  have hab := History.SameObject.comm ht hs hu hdisjoint s.mode u.mode
  have hba := History.SameObject.comm ht hu hs hdisjoint' u.mode s.mode
  -- neither setter sees what the other one has done
  have hq := u.apply_object (ChangeSet.applyTo s.mode fields s.changes).1
  rw [ChangeSet.patch_applyTo hf hsd hud hdisjoint] at hq
  have hp := s.apply_object (ChangeSet.applyTo u.mode fields u.changes).1
  rw [ChangeSet.patch_applyTo hf hud hsd hdisjoint'] at hp
  refine ⟨_, _, _, _, _, _, s.apply_object fields, hq, u.apply_object fields, hp, hab.eqv, ?_⟩
  intro both hboth log hlog
  rcases List.mem_pair.mp hboth with rfl | rfl
  · exact History.undo_of_perm ht hs hu hdisjoint (.refl hab.left) hlog
  · exact History.undo_of_perm ht hs hu hdisjoint hba hlog

/-- Two setters without a common key: one removes and merges, the other adds. -/
def Setter.samplePair : Setter × Setter :=
  (⟨[("a".toList, .nested [("b".toList, .remove), ("d".toList, .set .null)]),
      ("x".toList, .remove)], .change, rfl⟩,
    ⟨[("z".toList, .set (.bool true)), ("y".toList, .set .null)], .add, rfl⟩)

theorem Setter.apply_comm_samplePair :
    samplePair.1.changes.keys.Disjoint samplePair.2.changes.keys ∧
      ∃ b ba p q, samplePair.2.apply History.sampleTarget = .ok (b, q) ∧
        samplePair.1.apply b = .ok (ba, p) ∧
        ∃ v, History.undo [(samplePair.1, p), (samplePair.2, q)] ba = .ok v ∧
          v.eqv History.sampleTarget = true := by
  have hdisjoint : samplePair.1.changes.keys.Disjoint samplePair.2.changes.keys := by
    rw [List.disjoint_left]
    decide
  have hobject : History.sampleTarget.isObject = true := rfl
  obtain ⟨_, b, _, ba, p, q, -, -, hb, hba, -, hundo⟩ :=
    apply_comm hobject (by decide) (by decide) (by decide) hdisjoint
  exact ⟨hdisjoint, b, ba, p, q, hb, hba, hundo ba (by simp) _ (.refl _)⟩

end StyleRules

import StyleRules.Proofs.Rule.Wording

/-!
# Equality of trees up to the order of entries

* `RuleTree.eachIn_iff`, `RuleTree.eqv_iff_agree`: equal trees agree key by key;
* `RuleValue.eqv_refl`: a value without double keys is equal to itself;
* **`RuleTree.eqv_of_get?_eq`**: trees that are looked up alike are equal.
-/

namespace StyleRules

namespace RuleTree

theorem eachIn_iff {a b : RuleTree} : eachIn a b = true ↔
    ∀ entry ∈ a, ∃ value, Entries.get? b entry.1 = some value ∧ entry.2.eqv value = true := by
  induction a with
  | nil => simp [eachIn]
  | cons entry a ih =>
    obtain ⟨key, value⟩ := entry
    rw [eachIn, Bool.and_eq_true, ih, List.forall_mem_cons]
    refine and_congr_left fun _ => ?_
    rcases Entries.get? b key with _ | w <;> simp

theorem eqv_iff_agree {a b : RuleTree} (ha : Entries.Distinct a) (hb : Entries.Distinct b) :
    eqv a b = true ↔ Entries.Agree (fun v w => v.eqv w = true) a b := by
  rw [Entries.agree_iff ha hb, eqv, Bool.and_eq_true, beq_iff_eq, eachIn_iff]

end RuleTree

mutual

theorem RuleValue.eqv_refl (v : RuleValue) (h : v.hasDistinctKeys = true) : v.eqv v = true := by
  match v with
  | .leaf text => exact beq_self_eq_true text
  | .absent => rfl
  | .node body =>
    obtain ⟨hd, hvalues⟩ := RuleTree.hasDistinctKeys_iff.mp h
    have hself := RuleTree.forall_eqv_refl body hvalues
    have heach : RuleTree.eachIn body body = true := RuleTree.eachIn_iff.mpr fun entry he =>
      ⟨entry.2, (Entries.mem_iff_get? hd).mp he, hself entry he⟩
    rw [RuleValue.eqv, heach, beq_self_eq_true, Bool.and_self]

theorem RuleTree.forall_eqv_refl (t : RuleTree)
    (h : ∀ entry ∈ t, entry.2.hasDistinctKeys = true) :
    ∀ entry ∈ t, entry.2.eqv entry.2 = true := by
  match t with
  | [] => exact fun _ he => absurd he List.not_mem_nil
  | (key, value) :: rest =>
    obtain ⟨hvalue, hrest⟩ := List.forall_mem_cons.mp h
    exact List.forall_mem_cons.mpr
      ⟨RuleValue.eqv_refl value hvalue, RuleTree.forall_eqv_refl rest hrest⟩

end

/-- **Trees that are looked up alike are equal**, if they have no double keys. -/
theorem RuleTree.eqv_of_get?_eq {a b : RuleTree} (ha : a.hasDistinctKeys = true)
    (hb : b.hasDistinctKeys = true) (h : ∀ key, Entries.get? a key = Entries.get? b key) :
    eqv a b = true := by
  obtain ⟨hda, hvalues⟩ := hasDistinctKeys_iff.mp ha
  refine (eqv_iff_agree hda (hasDistinctKeys_iff.mp hb).1).mpr fun key => ?_
  rw [← h key]
  rcases hget : Entries.get? a key with _ | value
  · exact .none
  · exact .some (RuleValue.eqv_refl value (hvalues _ (Entries.mem_of_get? hget)))

end StyleRules

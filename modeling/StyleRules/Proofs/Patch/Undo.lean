import StyleRules.Patch.History
import StyleRules.Proofs.Patch.Order

/-!
# Undoing a history

* `ChangeSet.agree_undo`: the patch of a change set brings the object back;
* `History.Reaches`: the histories that start at a target and take steps of any kind;
* `History.undo`: all patches of the log restored, the last one first;
* **`History.undo_of_reaches`**: undoing a history brings the first target back.
-/

namespace StyleRules

/-! ## The patch brings back -/

/-- What is under a key after an outcome and its patch. -/
def Change.restored (result : Option Value × Option Change) : Option Value :=
  result.2.elim result.1 fun p => (p.outcome .both result.1).1

/-- The patch of every outcome of the change brings the value before back. -/
def Change.Undoes (mode : Mode) (c : Change) : Prop :=
  ∀ old : Option Value, (∀ v ∈ old, v.hasDistinctKeys = true) →
    Value.SameField (restored (c.outcome mode old)) old

theorem ChangeSet.get?_undo {mode : Mode} {fields : Entries Value} {changes : ChangeSet}
    (hf : fields.Distinct) (hc : changes.Distinct) (key : Text) :
    (applyTo .both (applyTo mode fields changes).1 (applyTo mode fields changes).2).1.get? key =
      (changes.get? key).elim (fields.get? key)
        fun c => Change.restored (c.outcome mode (fields.get? key)) := by
  rw [get?_applyTo (distinct_applyTo hf) (distinct_patch hc), get?_applyTo hf hc, get?_patch hf hc]
  rcases changes.get? key with _ | c <;> rfl

theorem ChangeSet.agree_undo_of {mode : Mode} {fields : Entries Value} {changes : ChangeSet}
    (hf : (Value.object fields).hasDistinctKeys = true) (hc : changes.hasDistinctKeys = true)
    (h : ∀ entry ∈ changes, entry.2.Undoes mode) :
    Entries.Agree (fun v w => v.eqv w = true)
      (applyTo .both (applyTo mode fields changes).1 (applyTo mode fields changes).2).1 fields := by
  obtain ⟨hfd, hfields⟩ := Value.hasDistinctKeys_object_iff_get?.mp hf
  have hcd := (hasDistinctKeys_iff.mp hc).1
  intro key
  rw [get?_undo hfd hcd]
  rcases hget : changes.get? key with _ | c
  · exact Value.sameField_refl (hfields key)
  · exact h _ (Entries.mem_of_get? hget) _ (hfields key)

/-- Replacing a value is taken back by writing the old one, or by removing the new one. -/
theorem Change.outcome_bringingBack {old new : Option Value} (hsome : old.isSome ∨ new.isSome) :
    ((bringingBack old).outcome .both new).1 = old := by
  rcases old with _ | prior
  · obtain ⟨v, rfl⟩ := Option.isSome_iff_exists.mp (hsome.resolve_left (by simp))
    rfl
  · rcases new <;> rfl

/-- A change that takes effect finds a value or leaves one. -/
theorem Change.isSome_or_isSome_of_applies {mode : Mode} {c : Change} {old : Option Value}
    (ha : c.applies mode old.isSome = true) : old.isSome ∨ c.toValue?.isSome := by
  cases c with
  | set value => exact .inr rfl
  | nested changes => exact .inr rfl
  | remove => exact .inl ha

theorem Change.undoes {c : Change} (hc : c.hasDistinctKeys = true) (mode : Mode) :
    c.Undoes mode := by
  induction c using Change.induction with
  | step c ih =>
    intro old hold
    obtain hout | ⟨changes, inner, rfl, rfl, hout⟩ | ⟨ha, hout⟩ := outcome_cases mode c old <;>
      rw [hout]
    · exact Value.sameField_refl hold
    · have hd := ChangeSet.hasDistinctKeys_applyTo (hold _ rfl) hc mode
      have hback := ChangeSet.hasDistinctKeys_applyTo hd.1 hd.2 .both
      have hagree := ChangeSet.agree_undo_of (hold _ rfl) hc fun entry he =>
        ih changes rfl entry he ((ChangeSet.hasDistinctKeys_iff.mp hc).2 entry he)
      rw [← Value.eqv_object_iff (Value.hasDistinctKeys_object.mp hback.1).1
        (Value.hasDistinctKeys_object.mp (hold _ rfl)).1] at hagree
      -- an empty patch is left out, and restoring it changes nothing
      by_cases hempty : (ChangeSet.applyTo mode inner changes).2 = []
      · rw [hempty] at hagree
        rw [if_pos (List.isEmpty_iff.mpr hempty)]
        exact .some hagree
      · rw [if_neg (by simpa using hempty)]
        exact .some hagree
    · show Value.SameField ((bringingBack old).outcome .both c.toValue?).1 old
      rw [outcome_bringingBack (isSome_or_isSome_of_applies ha)]
      exact Value.sameField_refl hold

/-- The patch of a change set brings the object back. -/
theorem ChangeSet.agree_undo {fields : Entries Value} {changes : ChangeSet}
    (hf : (Value.object fields).hasDistinctKeys = true) (hc : changes.hasDistinctKeys = true)
    (mode : Mode) :
    Entries.Agree (fun v w => v.eqv w = true)
      (applyTo .both (applyTo mode fields changes).1 (applyTo mode fields changes).2).1 fields :=
  agree_undo_of hf hc fun entry he => Change.undoes ((hasDistinctKeys_iff.mp hc).2 entry he) mode

/-! ## Histories -/

/-- An empty patch is restored as any other. -/
theorem Setter.restore_object (patch : ChangeSet) (fields : Entries Value) :
    Setter.restore patch (.object fields) =
      .ok (.object (ChangeSet.applyTo .both fields patch).1,
        (ChangeSet.applyTo .both fields patch).2) := by
  unfold restore
  split_ifs with h
  · rfl
  · rw [Bool.not_eq_false, List.isEmpty_iff] at h
    subst h
    rfl

namespace History

/-- All patches of a log restored, the last one first. -/
def undo (log : List (Setter × ChangeSet)) (target : Value) : Except Error Value :=
  log.foldrM (fun entry v => (Setter.restore entry.2 v).map Prod.fst) target

/-- The histories that start at a target: every step applies a setter, whose changes have no key
twice, or restores a patch of the log. -/
inductive Reaches (start : Value) : History → Prop
  | refl : Reaches start ⟨start, []⟩
  | apply {h next : History} {patch : ChangeSet} (s : Setter) : Reaches start h →
      s.changes.hasDistinctKeys = true → h.apply s = .ok (patch, next) → Reaches start next
  | restore {h next : History} {patch : ChangeSet} (entry : Setter × ChangeSet) : Reaches start h →
      entry ∈ h.log → h.restore entry.1 entry.2 = .ok (patch, next) → Reaches start next

theorem undo_concat (log : List (Setter × ChangeSet)) (s : Setter) (patch : ChangeSet)
    (fields : Entries Value) :
    undo (log ++ [(s, patch)]) (.object fields) =
      undo log (.object (ChangeSet.applyTo .both fields patch).1) := by
  unfold undo
  rw [List.foldrM_append, List.foldrM_cons, List.foldrM_nil, pure_bind, Setter.restore_object]
  rfl

theorem undo_cons {log : List (Setter × ChangeSet)} {target : Value} {fields : Entries Value}
    (h : undo log target = .ok (.object fields)) (entry : Setter × ChangeSet) :
    undo (entry :: log) target = .ok (.object (ChangeSet.applyTo .both fields entry.2).1) := by
  unfold undo at h ⊢
  rw [List.foldrM_cons, h]
  show (Setter.restore entry.2 (.object fields)).map Prod.fst = _
  rw [Setter.restore_object]
  rfl

/-- Objects without double keys that are equal up to the order of fields. -/
structure SameObject (a b : Entries Value) : Prop where
  left : (Value.object a).hasDistinctKeys = true
  right : (Value.object b).hasDistinctKeys = true
  agree : Entries.Agree (fun v w => v.eqv w = true) a b

namespace SameObject

theorem eqv {a b : Entries Value} (h : SameObject a b) :
    (Value.object a).eqv (.object b) = true :=
  (Value.eqv_object_iff (Value.hasDistinctKeys_object.mp h.left).1
    (Value.hasDistinctKeys_object.mp h.right).1).mpr h.agree

theorem refl {a : Entries Value} (h : (Value.object a).hasDistinctKeys = true) : SameObject a a :=
  ⟨h, h, fun key => Value.sameField_refl ((Value.hasDistinctKeys_object_iff_get?.mp h).2 key)⟩

theorem trans {a b c : Entries Value} (hab : SameObject a b) (hbc : SameObject b c) :
    SameObject a c := by
  refine ⟨hab.left, hbc.right, ?_⟩
  have ha := (Value.hasDistinctKeys_object_iff_get?.mp hab.left).2
  have hb := (Value.hasDistinctKeys_object_iff_get?.mp hab.right).2
  have hc := (Value.hasDistinctKeys_object_iff_get?.mp hbc.right).2
  refine hab.agree.trans hbc.agree fun key u v w hu hv hw huv hvw => ?_
  exact Value.eqv_trans (ha key u hu) (hb key v hv) (hc key w hw) huv hvw

/-- Equal objects are equal again after the same changes. -/
theorem applyTo {a b : Entries Value} (h : SameObject a b) {changes : ChangeSet}
    (hc : changes.hasDistinctKeys = true) (mode : Mode) :
    SameObject (ChangeSet.applyTo mode a changes).1 (ChangeSet.applyTo mode b changes).1 :=
  ⟨(ChangeSet.hasDistinctKeys_applyTo h.left hc mode).1,
    (ChangeSet.hasDistinctKeys_applyTo h.right hc mode).1,
    (ChangeSet.agree_applyTo h.left h.right hc hc h.agree (ChangeSet.agree_self hc) mode).1⟩

/-- A change set and its patch bring an equal object back. -/
theorem undo {fields : Entries Value} {changes : ChangeSet}
    (hf : (Value.object fields).hasDistinctKeys = true) (hc : changes.hasDistinctKeys = true)
    (mode : Mode) :
    SameObject (ChangeSet.applyTo .both (ChangeSet.applyTo mode fields changes).1
      (ChangeSet.applyTo mode fields changes).2).1 fields := by
  have hd := ChangeSet.hasDistinctKeys_applyTo hf hc mode
  exact ⟨(ChangeSet.hasDistinctKeys_applyTo hd.1 hd.2 .both).1, hf,
    ChangeSet.agree_undo hf hc mode⟩

end SameObject

/-- Equal objects are equal again after the same log is undone. -/
theorem undo_congr {log : List (Setter × ChangeSet)}
    (hlog : ∀ entry ∈ log, entry.2.hasDistinctKeys = true) {a b : Entries Value}
    (h : SameObject a b) :
    ∃ a' b', undo log (.object a) = .ok (.object a') ∧ undo log (.object b) = .ok (.object b') ∧
      SameObject a' b' := by
  induction log with
  | nil => exact ⟨a, b, rfl, rfl, h⟩
  | cons entry log ih =>
    obtain ⟨hentry, hlog⟩ := List.forall_mem_cons.mp hlog
    obtain ⟨a', b', ha', hb', h'⟩ := ih hlog
    exact ⟨_, _, undo_cons ha' entry, undo_cons hb' entry, h'.applyTo hentry .both⟩

/-- What every reachable history keeps: the target is an object, nothing has a key twice, and
undoing the log brings an object equal to the first one back. -/
def IsUndoable (start : Entries Value) (h : History) : Prop :=
  ∃ fields final : Entries Value, h.target = .object fields ∧
    (Value.object fields).hasDistinctKeys = true ∧
    (∀ entry ∈ h.log, entry.2.hasDistinctKeys = true) ∧
    undo h.log (.object fields) = .ok (.object final) ∧ SameObject final start

/-- One step, of a setter or of a patch, keeps a history undoable. -/
theorem IsUndoable.step {start fields : Entries Value} {log : List (Setter × ChangeSet)}
    (h : IsUndoable start ⟨.object fields, log⟩) {changes : ChangeSet}
    (hc : changes.hasDistinctKeys = true) (mode : Mode) (s : Setter) :
    IsUndoable start ⟨.object (ChangeSet.applyTo mode fields changes).1,
      log ++ [(s, (ChangeSet.applyTo mode fields changes).2)]⟩ := by
  obtain ⟨_, final, ⟨⟩, hf, hlog, hundo, hfinal⟩ := h
  have hd := ChangeSet.hasDistinctKeys_applyTo hf hc mode
  -- the last patch leads back to an object equal to the one before the step
  obtain ⟨final', final'', hundo', hundo'', hsame⟩ := undo_congr hlog (SameObject.undo hf hc mode)
  obtain rfl : final'' = final := by
    rw [hundo] at hundo''
    cases hundo''
    rfl
  refine ⟨_, final', rfl, hd.1, ?_, ?_, hsame.trans hfinal⟩
  · intro entry he
    rcases List.mem_append.mp he with he | he
    · exact hlog entry he
    · rw [List.mem_singleton.mp he]
      exact hd.2
  · rw [undo_concat, hundo']

/-- Every reachable history is undoable. -/
theorem isUndoable_of_reaches {start : Entries Value}
    (hstart : (Value.object start).hasDistinctKeys = true) {h : History}
    (hr : Reaches (.object start) h) : IsUndoable start h := by
  induction hr with
  | refl =>
    have hnil : ∀ entry ∈ ([] : List (Setter × ChangeSet)), entry.2.hasDistinctKeys = true :=
      fun _ he => absurd he List.not_mem_nil
    exact ⟨start, start, rfl, hstart, hnil, rfl, .refl hstart⟩
  | @apply h next patch s _ hs hstep ih =>
    obtain ⟨target, log⟩ := h
    obtain ⟨fields, final, rfl, hrest⟩ := id ih
    obtain ⟨⟩ := hstep
    exact ih.step hs s.mode s
  | @restore h next patch entry _ hentry hstep ih =>
    obtain ⟨target, log⟩ := h
    obtain ⟨fields, final, rfl, hf, hlog, hrest⟩ := id ih
    unfold History.restore at hstep
    rw [Setter.restore_object] at hstep
    obtain ⟨⟩ := hstep
    exact ih.step (hlog entry hentry) .both entry.1

/-- **Undoing a history brings the first target back.** From an object, every step succeeds and
leaves an object; restoring all patches, the last one first, gives a value equal to the object at
the start, up to the order of fields at every level. As in every object, no key stands twice. -/
theorem undo_of_reaches {start : Value} (hobject : start.isObject = true)
    (hstart : start.hasDistinctKeys = true) {h : History} (hr : Reaches start h) :
    h.target.isObject = true ∧
      (∀ s : Setter, ∃ patch next, h.apply s = .ok (patch, next)) ∧
      (∀ entry ∈ h.log, ∃ patch next, h.restore entry.1 entry.2 = .ok (patch, next)) ∧
      ∃ v, undo h.log h.target = .ok v ∧ v.eqv start = true := by
  obtain ⟨start, rfl⟩ := Value.exists_object_of_isObject hobject
  obtain ⟨target, log⟩ := h
  obtain ⟨fields, final, rfl, -, -, hundo, hfinal⟩ := isUndoable_of_reaches hstart hr
  refine ⟨rfl, fun s => ⟨_, _, rfl⟩, fun entry _ => ?_, _, hundo, hfinal.eqv⟩
  unfold History.restore
  rw [Setter.restore_object]
  exact ⟨_, _, rfl⟩

/-- An object with an object and a boolean. -/
def sampleTarget : Value :=
  .object [("a".toList, .object [("b".toList, .number (.int 1)), ("c".toList, .number (.int 2))]),
    ("z".toList, .bool true)]

/-- Removes one field and adds another in an object, writes an object over a boolean. -/
def sampleSetter : Setter where
  changes := [("a".toList, .nested [("b".toList, .remove), ("d".toList, .set .null)]),
    ("z".toList, .nested [("y".toList, .set (.bool false))])]
  mode := .both
  nonempty := rfl

theorem undo_of_reaches_sampleTarget :
    ∃ h : History, Reaches sampleTarget h ∧ h.log.length = 3 ∧
      h.target.eqv sampleTarget = false ∧
      ∃ v, undo h.log h.target = .ok v ∧ v.eqv sampleTarget = true := by
  have h1 := Reaches.apply sampleSetter (.refl : Reaches sampleTarget _) (by decide) rfl
  have h2 := Reaches.restore _ h1 List.mem_cons_self rfl
  have h3 := Reaches.restore _ h2 (List.mem_cons_of_mem _ List.mem_cons_self) rfl
  exact ⟨_, h3, rfl, rfl, (undo_of_reaches rfl (by decide) h3).2.2.2⟩

end History

end StyleRules

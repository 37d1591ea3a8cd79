import StyleRules.Proofs.Entries
import StyleRules.Proofs.Source.Cutting

/-!
# The shape of flattened trees

A flattened tree has properties, statements and blocks at its root, selectors with properties in
an at-rule, and only properties in a selector. Which texts may stand where is a parameter.

* `Wording`, `Wording.admits`: the trees of that shape with the given texts;
* `Wording.Entails`: two wordings on the same tree give a third;
* `Wording.forall_mem_of_admits`: what holds of every entry of a flattened tree;
* `RuleTree.hasDistinctKeys`: no key occurs twice at any level;
* `Entries.insert_of_not_mem`, `RuleTree.modifyNode_last`: writing at the end of a tree.
-/

namespace StyleRules

/-- Which texts may stand where in a flattened tree. -/
structure Wording where
  /-- A property name and its value. -/
  property : Text → Text → Bool
  statement : Text → Bool
  atRule : Text → Bool
  selector : Text → Bool

namespace Wording

/-- Whether an entry may stand in a selector: it is a property. -/
def inRule (w : Wording) (entry : Text × RuleValue) : Bool :=
  match entry.2 with
  | .leaf value => w.property entry.1 value
  | _ => false

/-- Whether a block holds properties only. -/
def isRule (w : Wording) (body : RuleTree) : Bool := body.all w.inRule

/-- Whether an entry may stand in an at-rule: it is a property, or a selector that holds
properties only. -/
def inGroup (w : Wording) (entry : Text × RuleValue) : Bool :=
  match entry.2 with
  | .leaf value => w.property entry.1 value
  | .node inner => w.selector entry.1 && w.isRule inner
  | .absent => false

/-- Whether a block holds properties, and selectors that hold properties only. -/
def isGroup (w : Wording) (body : RuleTree) : Bool := body.all w.inGroup

/-- Whether a block may stand under a key of the root. -/
def isBlock (w : Wording) (key : Text) (body : RuleTree) : Bool :=
  if Source.isAtRule key then w.atRule key && w.isGroup body else w.selector key && w.isRule body

/-- Whether an entry may stand in the root: it is a property, a statement that is an at-rule, or a
block. -/
def inRoot (w : Wording) (entry : Text × RuleValue) : Bool :=
  match entry.2 with
  | .leaf value => w.property entry.1 value
  | .absent => Source.isAtRule entry.1 && w.statement entry.1
  | .node body => w.isBlock entry.1 body

/-- **Whether a tree is flattened, with the given texts**, and has no empty block at its root. -/
def admits (w : Wording) (t : RuleTree) : Bool :=
  t.all fun entry => !entry.2.isEmptyNode && w.inRoot entry

/-- What two wordings admit is a text of the third. -/
structure Entails (w v u : Wording) : Prop where
  property : ∀ {key value}, w.property key value = true → v.property key value = true →
    u.property key value = true
  statement : ∀ {text}, Source.isAtRule text = true → w.statement text = true →
    v.statement text = true → u.statement text = true
  atRule : ∀ {header}, Source.isAtRule header = true → w.atRule header = true →
    v.atRule header = true → u.atRule header = true
  selector : ∀ {text}, w.selector text = true → v.selector text = true → u.selector text = true

variable {w v u : Wording}

theorem isRule_iff {body : RuleTree} : w.isRule body = true ↔
    ∀ entry ∈ body, ∃ value, entry.2 = .leaf value ∧ w.property entry.1 value = true := by
  rw [isRule, List.all_eq_true]
  refine forall₂_congr fun entry _ => ?_
  unfold inRule
  rcases entry.2 with value | inner | _ <;> simp

theorem admits_iff {t : RuleTree} : w.admits t = true ↔
    ∀ entry ∈ t, entry.2.isEmptyNode = false ∧ w.inRoot entry = true := by
  simp [admits]

theorem isRule_cons {entry : Text × RuleValue} {body : RuleTree} :
    w.isRule (entry :: body) = true ↔ w.inRule entry = true ∧ w.isRule body = true := by
  simp [isRule]

theorem isGroup_cons {entry : Text × RuleValue} {body : RuleTree} :
    w.isGroup (entry :: body) = true ↔ w.inGroup entry = true ∧ w.isGroup body = true := by
  simp [isGroup]

theorem admits_cons {entry : Text × RuleValue} {t : RuleTree} :
    w.admits (entry :: t) = true ↔
      entry.2.isEmptyNode = false ∧ w.inRoot entry = true ∧ w.admits t = true := by
  simp [admits, and_assoc]

theorem Entails.isRule (h : w.Entails v u) {body : RuleTree} (hw : w.isRule body = true)
    (hv : v.isRule body = true) : u.isRule body = true := by
  rw [isRule_iff] at hw hv ⊢
  intro entry he
  obtain ⟨value, hval, hp⟩ := hw entry he
  obtain ⟨value', hval', hp'⟩ := hv entry he
  obtain rfl : value = value' := by rw [hval] at hval'; exact RuleValue.leaf.inj hval'
  exact ⟨value, hval, h.property hp hp'⟩

theorem Entails.isGroup (h : w.Entails v u) {body : RuleTree} (hw : w.isGroup body = true)
    (hv : v.isGroup body = true) : u.isGroup body = true := by
  rw [Wording.isGroup, List.all_eq_true] at hw hv ⊢
  intro entry he
  have h1 := hw entry he
  have h2 := hv entry he
  unfold inGroup at h1 h2 ⊢
  rcases hval : entry.2 with value | inner | _ <;> simp only [hval, Bool.and_eq_true] at h1 h2 ⊢
  · exact h.property h1 h2
  · exact ⟨h.selector h1.1 h2.1, h.isRule h1.2 h2.2⟩
  · cases h1

theorem Entails.isBlock (h : w.Entails v u) {key : Text} {body : RuleTree}
    (hw : w.isBlock key body = true) (hv : v.isBlock key body = true) :
    u.isBlock key body = true := by
  unfold Wording.isBlock at hw hv ⊢
  split_ifs at hw hv ⊢ with hat <;> rw [Bool.and_eq_true] at hw hv ⊢
  · exact ⟨h.atRule hat hw.1 hv.1, h.isGroup hw.2 hv.2⟩
  · exact ⟨h.selector hw.1 hv.1, h.isRule hw.2 hv.2⟩

/-- A tree of two wordings is one of the wording that they entail. -/
theorem Entails.admits (h : w.Entails v u) {t : RuleTree} (hw : w.admits t = true)
    (hv : v.admits t = true) : u.admits t = true := by
  rw [admits_iff] at hw hv ⊢
  intro entry he
  obtain ⟨hne, h1⟩ := hw entry he
  obtain ⟨-, h2⟩ := hv entry he
  refine ⟨hne, ?_⟩
  unfold inRoot at h1 h2 ⊢
  rcases hval : entry.2 with value | body | _ <;> simp only [hval, Bool.and_eq_true] at h1 h2 ⊢
  · exact h.property h1 h2
  · exact h.isBlock h1 h2
  · exact ⟨h1.1, h.statement h1.1 h1.2 h2.2⟩

/-- What holds of properties, statements and blocks, given that it holds of what they hold, holds
of every entry of a flattened tree. -/
theorem forall_mem_of_admits {P : Text → RuleValue → Prop}
    (property : ∀ key value, w.property key value = true → P key (.leaf value))
    (statement : ∀ key, Source.isAtRule key = true → w.statement key = true → P key .absent)
    (selector : ∀ (key : Text) (body : RuleTree), w.selector key = true →
      (∀ entry ∈ body, P entry.1 entry.2) → P key (.node body))
    (atRule : ∀ (key : Text) (body : RuleTree), Source.isAtRule key = true → w.atRule key = true →
      (∀ entry ∈ body, P entry.1 entry.2) → P key (.node body))
    {t : RuleTree} (ht : w.admits t = true) : ∀ entry ∈ t, P entry.1 entry.2 := by
  have hrule : ∀ {key : Text} {body : RuleTree}, w.selector key = true → w.isRule body = true →
      P key (.node body) := by
    intro key body hk hb
    refine selector key body hk fun entry he => ?_
    obtain ⟨value, hv, hp⟩ := isRule_iff.mp hb entry he
    rw [hv]
    exact property _ _ hp
  intro entry he
  obtain ⟨-, hentry⟩ := admits_iff.mp ht entry he
  unfold inRoot at hentry
  rcases hv : entry.2 with value | body | _ <;> simp only [hv, Bool.and_eq_true] at hentry
  · exact property _ _ hentry
  · rw [Wording.isBlock] at hentry
    split_ifs at hentry with hat <;> rw [Bool.and_eq_true] at hentry
    · refine atRule _ _ hat hentry.1 fun inner hi => ?_
      have hinner := List.all_eq_true.mp hentry.2 inner hi
      unfold inGroup at hinner
      rcases hiv : inner.2 with value | rule | _ <;> simp only [hiv, Bool.and_eq_true] at hinner
      · exact property _ _ hinner
      · exact hrule hinner.1 hinner.2
      · cases hinner
    · exact hrule hentry.1 hentry.2
  · exact statement _ hentry.1 hentry.2

end Wording

/-! ## Distinct keys -/

mutual

/-- Whether no key of a value occurs twice at any level. -/
def RuleValue.hasDistinctKeys : RuleValue → Bool
  | .node body => decide (Entries.Distinct body) && RuleTree.haveDistinctKeys body
  | _ => true

/-- Whether no key of the values of a tree occurs twice at any level. -/
def RuleTree.haveDistinctKeys : RuleTree → Bool
  | [] => true
  | (_, value) :: rest => value.hasDistinctKeys && RuleTree.haveDistinctKeys rest

end

/-- Whether no key of a tree occurs twice at any level. -/
def RuleTree.hasDistinctKeys (t : RuleTree) : Bool := RuleValue.hasDistinctKeys (.node t)

theorem RuleTree.haveDistinctKeys_iff {t : RuleTree} :
    haveDistinctKeys t = true ↔ ∀ entry ∈ t, entry.2.hasDistinctKeys = true := by
  induction t with
  | nil => simp [haveDistinctKeys]
  | cons entry rest ih => simp [haveDistinctKeys, ih]

theorem RuleTree.hasDistinctKeys_iff {t : RuleTree} :
    t.hasDistinctKeys = true ↔
      Entries.Distinct t ∧ ∀ entry ∈ t, entry.2.hasDistinctKeys = true := by
  simp [hasDistinctKeys, RuleValue.hasDistinctKeys, haveDistinctKeys_iff]

theorem RuleTree.hasDistinctKeys_insert {t : RuleTree} (h : t.hasDistinctKeys = true) {key : Text}
    {value : RuleValue} (hv : value.hasDistinctKeys = true) :
    hasDistinctKeys (t.insert key value) = true := by
  obtain ⟨hdist, hvalues⟩ := hasDistinctKeys_iff.mp h
  refine hasDistinctKeys_iff.mpr ⟨hdist.insert key value, fun entry he => ?_⟩
  rcases Entries.mem_insert he with rfl | he
  · exact hv
  · exact hvalues entry he

theorem RuleTree.hasDistinctKeys_pruneEmpty {t : RuleTree} (h : t.hasDistinctKeys = true) :
    t.pruneEmpty.hasDistinctKeys = true := by
  obtain ⟨hdist, hvalues⟩ := hasDistinctKeys_iff.mp h
  exact hasDistinctKeys_iff.mpr ⟨List.Nodup.sublist (List.filter_sublist.map Prod.fst) hdist,
    fun entry he => hvalues entry (List.mem_of_mem_filter he)⟩

theorem RuleTree.hasDistinctKeys_node? {t : RuleTree} (h : t.hasDistinctKeys = true) (key : Text) :
    hasDistinctKeys ((t.node? key).getD []) = true := by
  rcases hget : Entries.get? t key with _ | value
  · rw [node?, hget]
    rfl
  · rw [node?, hget]
    cases value with
    | node body => exact (hasDistinctKeys_iff.mp h).2 _ (Entries.mem_of_get? hget)
    | _ => rfl

/-! ## Writing at the end -/

theorem RuleTree.modifyNode_of_not_mem {t : RuleTree} {key : Text} (h : key ∉ Entries.keys t)
    (change : RuleTree → RuleTree) : t.modifyNode key change = t ++ [(key, .node (change []))] := by
  rw [modifyNode, node?, Entries.get?_eq_none_of_not_mem h, Entries.insert_of_not_mem h]
  rfl

theorem RuleTree.modifyNode_last {t : RuleTree} {key : Text} (h : key ∉ Entries.keys t)
    (body : RuleTree) (change : RuleTree → RuleTree) :
    modifyNode (t ++ [(key, .node body)]) key change = t ++ [(key, .node (change body))] := by
  rw [modifyNode, node?, Entries.get?_last h, Entries.insert_last h]
  rfl

end StyleRules

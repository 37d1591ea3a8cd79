import Mathlib.Data.List.Perm.Subperm
import StyleRules.Proofs.Rule.Equality

/-!
# The facts of a tree

What a tree says is a list of facts: a path of keys, and what stands there. Evaluating items writes
no fact that none of them mentions, so that a tree has at most the facts of its text.

* `Fact`, `RuleTree.facts`;
* `RuleTree.nodup_factsAt`: with distinct keys no fact stands twice;
* `RuleTree.facts_perm_of_eqv`: equal trees have the same facts;
* `Item.mentions`, `Item.allMentions`: the facts that items speak of;
* **`facts_evaluate_subset`**, **`facts_subperm`**: a tree that is read has only facts that are
  mentioned.
-/

namespace StyleRules

open Source Text

/-- A path of keys and what stands there; of a block only that it is one. -/
structure Fact where
  path : List Text
  value : RuleValue

mutual

/-- The facts of a value that stands at a path. -/
def RuleValue.facts (path : List Text) : RuleValue → List Fact
  | .leaf value => [⟨path, .leaf value⟩]
  | .node body => ⟨path, .node []⟩ :: RuleTree.factsAt path body
  | .absent => [⟨path, .absent⟩]

/-- The facts of a tree that stands at a path. -/
def RuleTree.factsAt (path : List Text) : RuleTree → List Fact
  | [] => []
  | (key, value) :: rest => value.facts (path ++ [key]) ++ RuleTree.factsAt path rest

end

namespace RuleTree

/-- The facts of a tree. -/
def facts (t : RuleTree) : List Fact := t.factsAt []

theorem mem_factsAt {path : List Text} {t : RuleTree} {fact : Fact} :
    fact ∈ t.factsAt path ↔ ∃ entry ∈ t, fact ∈ entry.2.facts (path ++ [entry.1]) := by
  induction t with
  | nil => simp [factsAt]
  | cons entry t ih => simp [factsAt, ih]

/-! ## Distinct facts -/

mutual

/-- The facts of a value stand at its path or below. -/
theorem isPrefix_of_mem_facts {path : List Text} (value : RuleValue) {fact : Fact}
    (h : fact ∈ value.facts path) : path <+: fact.path := by
  match value with
  | .leaf value =>
    obtain rfl := List.mem_singleton.mp h
    exact List.prefix_rfl
  | .absent =>
    obtain rfl := List.mem_singleton.mp h
    exact List.prefix_rfl
  | .node body =>
    rcases List.mem_cons.mp h with rfl | h
    · exact List.prefix_rfl
    · obtain ⟨key, -, hpre⟩ := exists_isPrefix_of_mem_factsAt body h
      exact (List.prefix_append _ _).trans hpre

/-- A fact of a tree stands at one of its keys or below. -/
theorem exists_isPrefix_of_mem_factsAt {path : List Text} (t : RuleTree) {fact : Fact}
    (h : fact ∈ t.factsAt path) : ∃ key ∈ Entries.keys t, path ++ [key] <+: fact.path := by
  match t with
  | [] => exact absurd h List.not_mem_nil
  | (key, value) :: rest =>
    rw [factsAt, List.mem_append] at h
    rcases h with h | h
    · exact ⟨key, List.mem_cons_self, isPrefix_of_mem_facts value h⟩
    · obtain ⟨other, hmem, hpre⟩ := exists_isPrefix_of_mem_factsAt rest h
      exact ⟨other, List.mem_cons_of_mem _ hmem, hpre⟩

end

/-- The block of a tree is none of the facts in it. -/
theorem not_mem_factsAt_self (path : List Text) (t : RuleTree) (value : RuleValue) :
    (⟨path, value⟩ : Fact) ∉ t.factsAt path := by
  intro h
  obtain ⟨key, -, hpre⟩ := exists_isPrefix_of_mem_factsAt t h
  have hlen : (path ++ [key]).length ≤ path.length := hpre.length_le
  rw [List.length_append, List.length_singleton] at hlen
  omega

/-- **With distinct keys no fact stands twice.** -/
theorem nodup_factsAt (path : List Text) (t : RuleTree) (h : t.hasDistinctKeys = true) :
    (t.factsAt path).Nodup := by
  match t with
  | [] => exact List.nodup_nil
  | (key, value) :: rest =>
    obtain ⟨hd, hvalues⟩ := hasDistinctKeys_iff.mp h
    obtain ⟨hvalue, hothers⟩ := List.forall_mem_cons.mp hvalues
    have hrest := nodup_factsAt path rest (hasDistinctKeys_iff.mpr ⟨hd.tail, hothers⟩)
    have hfirst : (value.facts (path ++ [key])).Nodup := by
      cases value with
      | leaf value => exact List.nodup_singleton _
      | absent => exact List.nodup_singleton _
      | node body =>
        exact List.nodup_cons.mpr ⟨not_mem_factsAt_self _ body _, nodup_factsAt _ body hvalue⟩
    refine List.nodup_append.mpr ⟨hfirst, hrest, ?_⟩
    rintro fact hf other ho rfl
    obtain ⟨key', hmem, hpre'⟩ := exists_isPrefix_of_mem_factsAt rest ho
    have hpre := List.prefix_of_prefix_length_le (isPrefix_of_mem_facts value hf) hpre' (by simp)
    have heq := hpre.eq_of_length (by simp)
    obtain rfl : key = key' := by simpa using heq
    exact hd.head_not_mem hmem

/-! ## Equal trees -/

theorem factsAt_perm_erase {path : List Text} {t : RuleTree} {key : Text} {value : RuleValue}
    (h : Entries.get? t key = some value) :
    (t.factsAt path).Perm (value.facts (path ++ [key]) ++ factsAt path (t.erase key)) := by
  induction t with
  | nil => cases h
  | cons entry t ih =>
    obtain ⟨k, v⟩ := entry
    rw [Entries.get?_cons] at h
    rw [Entries.erase]
    split_ifs at h ⊢ with hk
    · obtain rfl := Option.some.inj h
      rw [factsAt, hk]
    · rw [factsAt, factsAt]
      exact ((ih h).append_left _).trans (List.perm_append_comm_assoc _ _ _)

theorem length_erase {t : RuleTree} {key : Text} {value : RuleValue}
    (h : Entries.get? t key = some value) : t.length = (t.erase key).length + 1 := by
  induction t with
  | nil => cases h
  | cons entry t ih =>
    obtain ⟨k, v⟩ := entry
    rw [Entries.get?_cons] at h
    rw [Entries.erase]
    split_ifs at h ⊢ with hk
    · rfl
    · rw [List.length_cons, List.length_cons, ih h]

theorem hasDistinctKeys_erase {t : RuleTree} (h : t.hasDistinctKeys = true) (key : Text) :
    hasDistinctKeys (t.erase key) = true := by
  obtain ⟨hd, hvalues⟩ := hasDistinctKeys_iff.mp h
  exact hasDistinctKeys_iff.mpr ⟨hd.erase key,
    fun entry he => hvalues entry ((Entries.erase_sublist t key).subset he)⟩

/-- The first entry of a tree is found in an equal one, and the rest is equal to the rest. -/
theorem eqv_cons {key : Text} {value : RuleValue} {rest b : RuleTree}
    (ha : hasDistinctKeys ((key, value) :: rest) = true) (hb : b.hasDistinctKeys = true)
    (h : eqv ((key, value) :: rest) b = true) :
    rest.hasDistinctKeys = true ∧ eqv rest (b.erase key) = true ∧
      ∃ other, Entries.get? b key = some other ∧ value.eqv other = true := by
  obtain ⟨hd, hvalues⟩ := hasDistinctKeys_iff.mp ha
  rw [eqv, Bool.and_eq_true, beq_iff_eq, eachIn_iff, List.forall_mem_cons] at h
  obtain ⟨hlen, ⟨other, hget, heq⟩, hrest⟩ := h
  refine ⟨hasDistinctKeys_iff.mpr ⟨hd.tail, fun e he => hvalues e (List.mem_cons_of_mem _ he)⟩, ?_,
    other, hget, heq⟩
  rw [eqv, Bool.and_eq_true, beq_iff_eq, eachIn_iff]
  have hb' : b.length = (b.erase key).length + 1 := length_erase hget
  refine ⟨by rw [List.length_cons] at hlen; omega, fun entry he => ?_⟩
  have hne : key ≠ entry.1 := by
    intro hk
    exact hd.head_not_mem (List.mem_map.mpr ⟨entry, he, hk.symm⟩)
  rw [Entries.get?_erase (hasDistinctKeys_iff.mp hb).1, if_neg hne]
  exact hrest entry he

/-- **Equal trees have the same facts.** -/
theorem facts_perm_of_eqv (path : List Text) (a b : RuleTree) (ha : a.hasDistinctKeys = true)
    (hb : b.hasDistinctKeys = true) (h : eqv a b = true) :
    (a.factsAt path).Perm (b.factsAt path) := by
  match a with
  | [] =>
    have hlen : b.length = 0 := by
      rw [eqv, Bool.and_eq_true, beq_iff_eq] at h
      exact h.1.symm
    rw [List.eq_nil_of_length_eq_zero hlen]
  | (key, value) :: rest =>
    obtain ⟨hd, hrest, other, hget, heq⟩ := eqv_cons ha hb h
    have hperm := facts_perm_of_eqv path rest (b.erase key) hd (hasDistinctKeys_erase hb key) hrest
    refine List.Perm.trans (List.Perm.append ?_ hperm) (factsAt_perm_erase hget).symm
    cases value with
    | leaf text =>
      obtain rfl : other = .leaf text := by cases other <;> simp_all [RuleValue.eqv]
      exact List.Perm.refl _
    | absent =>
      obtain rfl : other = .absent := by cases other <;> simp_all [RuleValue.eqv]
      exact List.Perm.refl _
    | node body =>
      obtain ⟨body', rfl⟩ : ∃ body', other = .node body' := by
        cases other <;> simp_all [RuleValue.eqv]
      exact (facts_perm_of_eqv _ body body' ((hasDistinctKeys_iff.mp ha).2 _ List.mem_cons_self)
        ((hasDistinctKeys_iff.mp hb).2 _ (Entries.mem_of_get? hget)) heq).cons _

/-! ## Writing -/

section Writing

variable {path : List Text} {t : RuleTree} {known : List Fact}

theorem factsAt_insert_subset (ht : t.factsAt path ⊆ known) {key : Text} {value : RuleValue}
    (hv : value.facts (path ++ [key]) ⊆ known) : factsAt path (t.insert key value) ⊆ known := by
  intro fact hf
  obtain ⟨entry, he, hf⟩ := mem_factsAt.mp hf
  rcases Entries.mem_insert he with rfl | he
  · exact hv hf
  · exact ht (mem_factsAt.mpr ⟨entry, he, hf⟩)

/-- A change of a block that writes known facts writes known facts in the tree around it. -/
theorem factsAt_modifyNode_subset (ht : t.factsAt path ⊆ known) {key : Text}
    (hk : (⟨path ++ [key], .node []⟩ : Fact) ∈ known) {change : RuleTree → RuleTree}
    (hc : ∀ body : RuleTree, body.factsAt (path ++ [key]) ⊆ known →
      factsAt (path ++ [key]) (change body) ⊆ known) :
    factsAt path (t.modifyNode key change) ⊆ known := by
  refine factsAt_insert_subset ht (List.cons_subset.mpr ⟨hk, hc _ ?_⟩)
  rcases hget : Entries.get? t key with _ | value
  · rw [node?, hget]
    exact List.nil_subset _
  · rw [node?, hget]
    cases value with
    | leaf text => exact List.nil_subset _
    | absent => exact List.nil_subset _
    | node body =>
      intro fact hf
      exact ht (mem_factsAt.mpr ⟨_, Entries.mem_of_get? hget, List.mem_cons_of_mem _ hf⟩)

theorem facts_pruneEmpty_subset (t : RuleTree) : t.pruneEmpty.facts ⊆ t.facts := by
  intro fact hf
  obtain ⟨entry, he, hf⟩ := mem_factsAt.mp hf
  exact mem_factsAt.mpr ⟨entry, List.mem_of_mem_filter he, hf⟩

end Writing

end RuleTree

/-! ## Mentioned facts -/

namespace Source

/-- The keys of a target's block. -/
def Target.path : Target → List Text
  | .root => []
  | .group name => [name]
  | .rule none selector => [selector]
  | .rule (some name) selector => [name, selector]

/-- The blocks that a target's block stands in, itself included. -/
def Target.blocks : Target → List Fact
  | .root => []
  | .group name => [⟨[name], .node []⟩]
  | .rule none selector => [⟨[selector], .node []⟩]
  | .rule (some name) selector => [⟨[name], .node []⟩, ⟨[name, selector], .node []⟩]

/-- What a property says, unless its value is empty. -/
def Scope.written (s : Scope) (d : Declaration) : List Fact :=
  if d.value.isEmpty then []
  else [⟨s.target.path ++ [Text.join ['-'] (s.names ++ [d.key])], .leaf d.value⟩]

/-- What a statement says. -/
def Scope.stated (s : Scope) (text : Text) : List Fact :=
  if isAtRule text then [⟨[text], .absent⟩]
  else match Declaration.find? text with
    | some d => s.written d
    | none => []

/-- What the header of a block says. -/
def Scope.opened (s : Scope) (header : Text) : List Fact :=
  if isAtRule header then [⟨[header], .node []⟩]
  else if Selector.isValid header then
    [⟨(Target.ofGroup s.group).path ++ [s.selector header], .node []⟩]
  else s.written (Scope.declaration header)

mutual

/-- The facts that an item speaks of. -/
def Item.mentions (s : Scope) : Item → List Fact
  | .statement text => s.stated text
  | .block header body => s.opened header ++ Item.allMentions (s.enter header) body

/-- The facts that items speak of. -/
def Item.allMentions (s : Scope) : List Item → List Fact
  | [] => []
  | item :: items => item.mentions s ++ Item.allMentions s items

end

theorem Item.allMentions_append (s : Scope) (items others : List Item) :
    allMentions s (items ++ others) = allMentions s items ++ allMentions s others := by
  induction items with
  | nil => rfl
  | cons item items ih => rw [List.cons_append, allMentions, allMentions, ih, List.append_assoc]

end Source

section Evaluating

variable {known : List Fact} {t : RuleTree}

theorem facts_modify_subset {target : Target} (ht : t.facts ⊆ known) (hb : target.blocks ⊆ known)
    {change : RuleTree → RuleTree} (hc : ∀ body : RuleTree, body.factsAt target.path ⊆ known →
      RuleTree.factsAt target.path (change body) ⊆ known) :
    (target.modify change t).facts ⊆ known := by
  rcases target with _ | name | ⟨_ | name, selector⟩
  · exact hc t ht
  · exact RuleTree.factsAt_modifyNode_subset ht (hb List.mem_cons_self) hc
  · exact RuleTree.factsAt_modifyNode_subset ht (hb List.mem_cons_self) hc
  · have hinner : ∀ body : RuleTree, body.factsAt [name] ⊆ known →
        RuleTree.factsAt [name] (body.modifyNode selector change) ⊆ known := fun body hbody =>
      RuleTree.factsAt_modifyNode_subset hbody (hb (by simp [Target.blocks])) hc
    exact RuleTree.factsAt_modifyNode_subset ht (hb List.mem_cons_self) hinner

theorem facts_write_subset {s : Scope} (ht : t.facts ⊆ known) (hb : s.target.blocks ⊆ known)
    {d : Declaration} (hd : s.written d ⊆ known) : (s.write d t).facts ⊆ known := by
  unfold Scope.write
  unfold Scope.written at hd
  split_ifs at hd ⊢
  · exact ht
  · exact facts_modify_subset ht hb fun body hbody => RuleTree.factsAt_insert_subset hbody hd

theorem facts_statement_subset {s : Scope} (ht : t.facts ⊆ known) (hb : s.target.blocks ⊆ known)
    {text : Text} (hm : s.stated text ⊆ known) : (s.statement text t).facts ⊆ known := by
  unfold Scope.statement
  unfold Scope.stated at hm
  split_ifs at hm ⊢
  · exact RuleTree.factsAt_insert_subset ht hm
  · rcases hd : Declaration.find? text with _ | d
    · exact ht
    · rw [hd] at hm
      exact facts_write_subset ht hb hm

theorem facts_openBlock_subset {s : Scope} (ht : t.facts ⊆ known) (hb : s.target.blocks ⊆ known)
    (hg : (Target.ofGroup s.group).blocks ⊆ known) {header : Text} (hm : s.opened header ⊆ known) :
    (s.openBlock header t).facts ⊆ known := by
  unfold Scope.openBlock
  unfold Scope.opened at hm
  split_ifs at hm ⊢
  · exact RuleTree.factsAt_insert_subset ht hm
  · exact facts_modify_subset ht hg fun body hbody =>
      RuleTree.factsAt_modifyNode_subset hbody (hm List.mem_cons_self) fun _ h => h
  · exact facts_write_subset ht hb hm

/-- The blocks around the body of a block are known when its header is. -/
theorem blocks_enter_subset {s : Scope} (hb : s.target.blocks ⊆ known)
    (hg : (Target.ofGroup s.group).blocks ⊆ known) {header : Text} (hm : s.opened header ⊆ known) :
    (s.enter header).target.blocks ⊆ known ∧
      (Target.ofGroup (s.enter header).group).blocks ⊆ known := by
  unfold Scope.enter
  unfold Scope.opened at hm
  split_ifs at hm ⊢
  · exact ⟨hm, hm⟩
  · refine ⟨?_, hg⟩
    rcases hgroup : s.group with _ | name <;> rw [hgroup] at hg hm
    · exact hm
    · exact List.cons_subset.mpr ⟨hg List.mem_cons_self, hm⟩
  · exact ⟨hb, hg⟩

/-- Evaluating items writes no fact that is not known, if all that they mention is. -/
theorem facts_evalAll_subset (items : List Item) {s : Scope} (hb : s.target.blocks ⊆ known)
    (hg : (Target.ofGroup s.group).blocks ⊆ known) (hm : Item.allMentions s items ⊆ known)
    {t : RuleTree} (ht : t.facts ⊆ known) : (Item.evalAll s items t).facts ⊆ known := by
  match items with
  | [] => exact ht
  | .statement text :: items =>
    obtain ⟨htext, hrest⟩ := List.append_subset.mp hm
    exact facts_evalAll_subset items hb hg hrest (facts_statement_subset ht hb htext)
  | .block header body :: items =>
    obtain ⟨hblock, hrest⟩ := List.append_subset.mp hm
    obtain ⟨hheader, hbody⟩ := List.append_subset.mp hblock
    obtain ⟨hb', hg'⟩ := blocks_enter_subset hb hg hheader
    have hinner := facts_evalAll_subset body hb' hg' hbody (facts_openBlock_subset ht hb hg hheader)
    exact facts_evalAll_subset items hb hg hrest hinner

end Evaluating

/-- **Every fact of the tree of items is mentioned by one of them.** -/
theorem facts_evaluate_subset (items : List Item) :
    (evaluate items).facts ⊆ Item.allMentions {} items :=
  facts_evalAll_subset items (List.nil_subset _) (List.nil_subset _) (List.Subset.refl _)
    (List.nil_subset _)

/-- **A tree that is equal to the tree of items has only facts that they mention**, and each of
them as often as it is mentioned at most. -/
theorem facts_subperm {items : List Item} {t : RuleTree} (hk : t.hasDistinctKeys = true)
    (hk' : (evaluate items).pruneEmpty.hasDistinctKeys = true)
    (h : (evaluate items).pruneEmpty.eqv t = true) :
    t.facts.Subperm (Item.allMentions {} items) := by
  have hperm := RuleTree.facts_perm_of_eqv [] _ t hk' hk h
  refine List.subperm_of_subset (RuleTree.nodup_factsAt [] t hk) ?_
  exact List.Subset.trans hperm.symm.subset
    (List.Subset.trans (RuleTree.facts_pruneEmpty_subset _) (facts_evaluate_subset items))

end StyleRules

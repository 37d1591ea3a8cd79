import StyleRules.Proofs.Entries
import StyleRules.Proofs.Source.Stacks

/-!
# What a token touches

A property goes to a block that is found by its path in the tree, and the blocks on the way are made
if they are not there. All of this happens under one key of the root, so that a token leaves every
other entry of the root alone.

* `Entries.WritesOne`: at most one value is written;
* `Entries.WritesOne.frame`: then the keys stay, or one key is added behind them, and nothing
  changes under any other key;
* `Target.writesOne_modify`: a change of one entry of a block changes one entry of the root;
* `Builder.writesOne_feed`: so does every token that is accepted;
* `Builder.keys_isPrefix_of_run`, `Builder.distinct_of_run`: the keys of the root stay in the order
  in which they were first written;
* **`Builder.root_of_feed`**: a token that is accepted touches at most one entry of the root.
-/

namespace StyleRules

/-! ## Writing one value -/

namespace Entries

variable {α : Type} {before after : Entries α}

/-- Nothing is written, or one value under one key. -/
def WritesOne (before after : Entries α) : Prop :=
  after = before ∨ ∃ key value, after = before.insert key value

theorem WritesOne.distinct (h : before.WritesOne after) (hd : before.Distinct) :
    after.Distinct := by
  rcases h with rfl | ⟨key, value, rfl⟩
  · exact hd
  · exact hd.insert key value

/-- The keys stay, or the key that is written stands behind them, and under all other keys nothing
changes. -/
theorem WritesOne.frame (h : before.WritesOne after) :
    ∃ key, (after.keys = before.keys ∨ after.keys = before.keys ++ [key]) ∧
      ∀ other, other ≠ key → after.get? other = before.get? other := by
  rcases h with rfl | ⟨key, value, rfl⟩
  · exact ⟨[], .inl rfl, fun _ _ => rfl⟩
  · refine ⟨key, ?_, fun other ho => ?_⟩
    · rw [keys_insert]
      split_ifs
      · exact .inl rfl
      · exact .inr rfl
    · rw [get?_insert, if_neg (Ne.symm ho)]

theorem WritesOne.isPrefix (h : before.WritesOne after) : before.keys <+: after.keys := by
  obtain ⟨key, hkeys | hkeys, -⟩ := h.frame
  · rw [hkeys]
  · rw [hkeys]
    exact List.prefix_append _ _

theorem WritesOne.length_le (h : before.WritesOne after) : after.length ≤ before.length + 1 := by
  obtain ⟨key, hkeys | hkeys, -⟩ := h.frame <;>
    have hlength := congrArg List.length hkeys <;>
    simp only [length_keys, List.length_append, List.length_singleton] at hlength <;>
    omega

end Entries

namespace Source

/-! ## One token -/

/-- Whatever block a change of one entry is made in, it changes one entry of the root: that entry
itself, or the one in which the block stands. -/
theorem Target.writesOne_modify (target : Target) (change : RuleTree → RuleTree) {t : RuleTree}
    (h : Entries.WritesOne t (change t)) : Entries.WritesOne t (target.modify change t) := by
  match target with
  | .root => exact h
  | .group name => exact .inr ⟨name, _, rfl⟩
  | .rule none selector => exact .inr ⟨selector, _, rfl⟩
  | .rule (some name) selector => exact .inr ⟨name, _, rfl⟩

namespace Builder

variable {b next : Builder}

theorem writesOne_writeNonEmpty (b : Builder) (key value : Text) :
    b.tree.WritesOne (b.writeNonEmpty key value).tree := by
  unfold writeNonEmpty
  split_ifs
  · exact .inl rfl
  · exact Target.writesOne_modify _ (·.insert key (.leaf value)) (.inr ⟨key, .leaf value, rfl⟩)

theorem writesOne_statement (b : Builder) (text : Text) :
    b.tree.WritesOne (b.statement text).tree := by
  unfold statement
  split_ifs
  · exact .inr ⟨text, _, rfl⟩
  · split
    · exact b.writesOne_writeNonEmpty _ _
    · exact .inl rfl

theorem writesOne_openSelector {header : Text} (h : b.openSelector header = .ok next) :
    b.tree.WritesOne next.tree := by
  unfold openSelector at h
  split at h
  · cases h
  · rename_i selector _
    obtain rfl := Except.ok.inj h
    exact Target.writesOne_modify _ (·.modifyNode selector id) (.inr ⟨selector, _, rfl⟩)

theorem writesOne_openProperties {header : Text} (h : b.openProperties header = .ok next) :
    b.tree.WritesOne next.tree := by
  unfold openProperties at h
  split at h
  · cases h
  · obtain rfl := Except.ok.inj h
    exact b.writesOne_writeNonEmpty _ _

theorem tree_of_closeBlock {offset : Nat} (h : b.closeBlock offset = .ok next) :
    next.tree = b.tree := by
  unfold closeBlock at h
  split at h
  · cases h
  · rename_i kind _ _
    obtain rfl := Except.ok.inj h
    cases kind <;> rfl

/-- **A token that is accepted writes at most one entry of the root.** -/
theorem writesOne_feed {token : Token} (h : b.feed token = .ok next) :
    b.tree.WritesOne next.tree := by
  unfold feed at h
  split at h
  · rcases openBlock_cases h with rfl | ho | ho
    · exact .inr ⟨token.text, _, rfl⟩
    · exact writesOne_openSelector ho
    · exact writesOne_openProperties ho
  · exact .inl (tree_of_closeBlock h)
  all_goals
    obtain rfl := Except.ok.inj h
    exact b.writesOne_statement token.text

/-! ## Runs -/

theorem distinct_of_run {last : Builder} {tokens : List Token} (hd : b.tree.Distinct)
    (h : b.run tokens = .ok last) : last.tree.Distinct :=
  invariant_of_run (P := fun b => b.tree.Distinct)
    (fun _ _ _ hb hf => (writesOne_feed hf).distinct hb) hd h

/-- A run adds keys behind those of the root, at most one for each token. -/
theorem keys_isPrefix_of_run {last : Builder} {tokens : List Token}
    (h : b.run tokens = .ok last) : b.tree.keys <+: last.tree.keys ∧
      last.tree.length ≤ b.tree.length + tokens.length := by
  induction tokens generalizing b with
  | nil =>
    obtain rfl := Except.ok.inj h
    exact ⟨List.prefix_rfl, Nat.le_refl _⟩
  | cons token tokens ih =>
    obtain ⟨next, hf, hr⟩ := exists_feed_of_run h
    obtain ⟨hkeys, hlength⟩ := ih hr
    have hnext := (writesOne_feed hf).length_le
    refine ⟨(writesOne_feed hf).isPrefix.trans hkeys, ?_⟩
    rw [List.length_cons]
    omega

/-- **Each token touches at most one entry of the root.** After a run that is accepted no key stands
twice in the root. A further token that is accepted leaves the keys as they are, or adds one behind
them, and there is one key under which alone the root can change: the added one, or one that was
there. So over any further run the keys of the root stay where they are, and at most one is added
for each token. -/
theorem root_of_feed {tokens : List Token} (hr : run {} tokens = .ok b) :
    b.tree.Distinct ∧
    (∀ token next, b.feed token = .ok next →
      b.tree.keys <+: next.tree.keys ∧ ∃ key,
        (next.tree.keys = b.tree.keys ∨
          next.tree.keys = b.tree.keys ++ [key]) ∧
        ∀ other, other ≠ key → next.tree.get? other = b.tree.get? other) ∧
    ∀ more last, b.run more = .ok last →
      b.tree.keys <+: last.tree.keys ∧
        last.tree.length ≤ b.tree.length + more.length := by
  have hinit : Entries.Distinct ({} : Builder).tree := List.nodup_nil
  refine ⟨distinct_of_run hinit hr, fun token next hf => ?_, fun more last hm => ?_⟩
  · have hone := writesOne_feed hf
    exact ⟨hone.isPrefix, hone.frame⟩
  · exact keys_isPrefix_of_run hm

/-- An at-rule that is open and has been replaced by a statement, beside a rule. -/
def sampleReplaced : List Token :=
  [⟨"p".toList, .openBrace, 0⟩, ⟨"top: 1px".toList, .semicolon, 0⟩, ⟨[], .closeBrace, 0⟩,
    ⟨"@media print".toList, .openBrace, 0⟩, ⟨"@media print".toList, .semicolon, 0⟩]

theorem root_of_feed_sampleReplaced : ∃ b next : Builder, run {} sampleReplaced = .ok b ∧
    b.feed ⟨"a: b".toList, .semicolon, 0⟩ = .ok next ∧
    next.tree.get? "@media print".toList ≠ b.tree.get? "@media print".toList ∧
    next.tree.get? "p".toList = b.tree.get? "p".toList := by
  have hrun : ∃ b, run {} sampleReplaced = .ok b ∧
      b.tree.get? "@media print".toList = some .absent ∧
      ∃ next, b.feed ⟨"a: b".toList, .semicolon, 0⟩ = .ok next ∧
        next.tree.get? "@media print".toList = some (.node [("a".toList, .leaf "b".toList)]) :=
    ⟨_, rfl, rfl, _, rfl, rfl⟩
  obtain ⟨b, hb, hbefore, next, hf, hafter⟩ := hrun
  obtain ⟨-, hfeed, -⟩ := root_of_feed hb
  obtain ⟨-, key, -, hframe⟩ := hfeed _ next hf
  have hchanged : next.tree.get? "@media print".toList ≠ b.tree.get? "@media print".toList := by
    rw [hbefore, hafter]
    simp
  -- the block that is made anew is the one entry that changes
  have hkey : "@media print".toList = key := by
    by_contra hne
    exact hchanged (hframe _ hne)
  refine ⟨b, next, hb, hf, hchanged, hframe _ ?_⟩
  rw [← hkey]
  decide

end Builder

end Source

end StyleRules

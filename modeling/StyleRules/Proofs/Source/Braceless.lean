import StyleRules.Proofs.Entries
import StyleRules.Proofs.Source.Faults

/-!
# Texts without braces

A text without braces opens no block and closes none. Whatever else stands in it, it is read, and
nothing in its tree is a block.

* `stripBlockCommentsFrom_sublist`, `stripLineCommentsFrom_sublist`: comments only leave;
* `mem_of_mem_normalForm`: the normal form has no characters of its own but spaces;
* `mem_of_mem_tokens`: the delimiter of a token stands in the text;
* `Builder.isFlat_feed`, `Builder.isFlat_run`: statements outside of all blocks keep a tree flat;
* **`exists_parse_of_no_braces`**: a text without braces has a flat tree that is not empty, or none.
-/

namespace StyleRules

namespace Source

/-! ## Characters of the normal form -/

theorem stripBlockCommentsFrom_sublist (inside : Bool) (t : Text) :
    (stripBlockCommentsFrom inside t).Sublist t := by
  fun_induction stripBlockCommentsFrom inside t with
  | case1 => exact .slnil
  | case2 t ih => exact (ih.cons _).cons _
  | case3 c t _ ih => exact ih.cons _
  | case4 t _ ih => exact (ih.cons _).cons _
  | case5 t _ => exact List.Sublist.refl _
  | case6 c t _ ih => exact ih.cons_cons _

theorem stripLineCommentsFrom_sublist (place : LinePlace) (t : Text) :
    (stripLineCommentsFrom place t).Sublist t := by
  fun_induction stripLineCommentsFrom place t with
  | case1 => exact .slnil
  | case2 c t ih => exact ih.cons _
  | case3 before t _ ih => exact (ih.cons_cons _).cons_cons _
  | case4 before t _ _ ih => exact (ih.cons _).cons _
  | case5 before t _ _ => exact List.Sublist.refl _
  | case6 before c t _ ih => exact ih.cons_cons _

theorem mem_of_mem_normalForm {t : Text} {c : Char} (hc : Text.isBlank c = false)
    (h : c ∈ normalForm t) : c ∈ t := by
  have hcollapse := (tightenCommas_sublist _).subset h
  have hlines := Text.mem_of_mem_collapse hc hcollapse
  exact (stripBlockCommentsFrom_sublist false t).subset
    ((stripLineCommentsFrom_sublist _ _).subset hlines)

/-- The delimiter of a token stands in the text. -/
theorem mem_of_mem_tokens {t : Text} {token : Token} (h : token ∈ tokens t) :
    ∀ c ∈ token.delimiter.text, c ∈ t := by
  intro c hc
  obtain ⟨before, after, hsplit⟩ := List.append_of_mem h
  obtain ⟨init, rest, rfl, -⟩ := exists_init_of_tokens hsplit
  simp [hc]

/-- Where no brace stands, tokens end with a semicolon or with the text. -/
theorem delimiter_of_no_braces {text : Text} (ho : '{' ∉ text) (hc : '}' ∉ text) {token : Token}
    (h : token ∈ textTokens text) :
    token.delimiter = .semicolon ∨ token.delimiter = .endOfText := by
  have hmem : ∀ c ∈ token.delimiter.text, Text.isBlank c = false → c ∈ text :=
    fun c hd hblank => mem_of_mem_normalForm hblank (mem_of_mem_tokens h c hd)
  rcases hd : token.delimiter with _ | _ | _ | _ <;> rw [hd] at hmem
  · exact absurd (hmem '{' List.mem_cons_self (by decide)) ho
  · exact absurd (hmem '}' List.mem_cons_self (by decide)) hc
  · exact .inl rfl
  · exact .inr rfl

end Source

/-! ## Flat trees -/

namespace RuleTree

theorem isFlat_iff {t : RuleTree} : t.isFlat = true ↔ ∀ entry ∈ t, entry.2.isNode = false := by
  simp [isFlat]

theorem isFlat_insert {t : RuleTree} (h : t.isFlat = true) (key : Text) {value : RuleValue}
    (hv : value.isNode = false) : isFlat (t.insert key value) = true := by
  refine isFlat_iff.mpr fun entry he => ?_
  rcases Entries.mem_insert he with rfl | he
  · exact hv
  · exact isFlat_iff.mp h entry he

theorem isFlat_pruneEmpty {t : RuleTree} (h : t.isFlat = true) : t.pruneEmpty.isFlat = true :=
  isFlat_iff.mpr fun entry he => isFlat_iff.mp h entry (List.mem_of_mem_filter he)

end RuleTree

namespace Source.Builder

/-- A statement outside of all blocks opens none and keeps the tree flat. -/
theorem isFlat_feed {t : RuleTree} (ht : t.isFlat = true) {token : Token}
    (h : token.delimiter = .semicolon ∨ token.delimiter = .endOfText) :
    ∃ next : RuleTree, next.isFlat = true ∧
      feed { tree := t } token = .ok { tree := next } := by
  refine ⟨Scope.statement {} token.text t, ?_, ?_⟩
  · unfold Scope.statement
    split_ifs
    · exact RuleTree.isFlat_insert ht _ rfl
    · rcases Declaration.find? token.text with _ | d
      · exact ht
      · show (Scope.write {} d t).isFlat = true
        unfold Scope.write
        split_ifs
        · exact ht
        · exact RuleTree.isFlat_insert ht _ rfl
  · rcases h with h | h <;> simp only [feed, h, statement_eq] <;> rfl

theorem isFlat_run {tokens : List Token}
    (h : ∀ token ∈ tokens, token.delimiter = .semicolon ∨ token.delimiter = .endOfText)
    {t : RuleTree} (ht : t.isFlat = true) :
    ∃ last : RuleTree, last.isFlat = true ∧ run { tree := t } tokens = .ok { tree := last } := by
  induction tokens generalizing t with
  | nil => exact ⟨t, ht, rfl⟩
  | cons token tokens ih =>
    obtain ⟨htoken, hrest⟩ := List.forall_mem_cons.mp h
    obtain ⟨next, hnext, hfeed⟩ := isFlat_feed ht htoken
    obtain ⟨last, hlast, hrun⟩ := ih hrest hnext
    refine ⟨last, hlast, ?_⟩
    rw [run_cons, hfeed]
    exact hrun

end Source.Builder

/-- **A text without braces is always read**, and what it gives is flat and not empty. -/
theorem exists_parse_of_no_braces {text : Text} (ho : '{' ∉ text) (hc : '}' ∉ text) :
    ∃ result, parse text = .ok result ∧ ∀ t ∈ result, t ≠ [] ∧ t.isFlat = true := by
  by_cases hne : text = []
  · subst hne
    exact ⟨none, rfl, fun t ht => by cases ht⟩
  obtain ⟨last, hlast, hrun⟩ := Source.Builder.isFlat_run
    (fun token ht => Source.delimiter_of_no_braces ho hc ht) (t := []) rfl
  refine ⟨if last.pruneEmpty.isEmpty then none else some last.pruneEmpty, ?_, fun t ht => ?_⟩
  · rw [parse_of_run hne hrun]
    rfl
  · split_ifs at ht with hempty
    · cases ht
    · obtain rfl := Option.some.inj ht
      exact ⟨by simpa using hempty, RuleTree.isFlat_pruneEmpty hlast⟩

end StyleRules

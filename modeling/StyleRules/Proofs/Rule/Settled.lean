import Mathlib.Algebra.Ring.Nat
import StyleRules.Proofs.Rule.Facts
import StyleRules.Proofs.Rule.Parsed
import StyleRules.Proofs.Rule.Reading

/-!
# Settled trees

The texts of a rendered tree can only get shorter on their way into tokens, and what the tokens
mention can only be less than what the tree says. A tree that is read back with all its facts has
therefore lost nothing.

* `Fact.size`, `factsSize`: the number of characters in facts;
* `AtMost`: a bound that is reached in one case only;
* `settled`: the texts that tokens keep, the selectors being valid;
* `size_rule`, `size_selector`, `size_group`: what the tokens of a block mention;
* **`size_mentions`**: a rendered tree mentions at most the facts of the tree, and if it mentions
  all of them then the tree is settled.
-/

namespace StyleRules

open Source Text

/-! ## The size of facts -/

/-- The number of characters in the keys of a path, and one more for each. -/
def pathSize (path : List Text) : Nat := (path.map fun key => key.length + 1).sum

/-- The number of characters in a fact, and one more for each key. -/
def Fact.size (fact : Fact) : Nat :=
  pathSize fact.path + match fact.value with
    | .leaf value => value.length
    | _ => 0

/-- The size of several facts. -/
def factsSize (facts : List Fact) : Nat := (facts.map Fact.size).sum

@[simp] theorem pathSize_nil : pathSize [] = 0 := rfl

@[simp] theorem pathSize_append (path more : List Text) :
    pathSize (path ++ more) = pathSize path + pathSize more := by
  simp [pathSize]

@[simp] theorem pathSize_singleton (key : Text) : pathSize [key] = key.length + 1 := by
  simp [pathSize]

@[simp] theorem factsSize_nil : factsSize [] = 0 := rfl

@[simp] theorem factsSize_cons (fact : Fact) (facts : List Fact) :
    factsSize (fact :: facts) = fact.size + factsSize facts := by
  simp [factsSize]

@[simp] theorem factsSize_append (facts more : List Fact) :
    factsSize (facts ++ more) = factsSize facts + factsSize more := by
  simp [factsSize]

@[simp] theorem size_leaf (path : List Text) (value : Text) :
    Fact.size ⟨path, .leaf value⟩ = pathSize path + value.length := rfl

@[simp] theorem size_node (path : List Text) (body : RuleTree) :
    Fact.size ⟨path, .node body⟩ = pathSize path := rfl

@[simp] theorem size_absent (path : List Text) : Fact.size ⟨path, .absent⟩ = pathSize path := rfl

theorem factsSize_le_of_subperm {facts others : List Fact} (h : facts.Subperm others) :
    factsSize facts ≤ factsSize others := by
  obtain ⟨middle, hperm, hsub⟩ := h
  have hsum : factsSize middle = factsSize facts := (hperm.map Fact.size).sum_nat
  rw [← hsum]
  clear hsum hperm
  induction hsub with
  | slnil => exact le_rfl
  | cons fact _ ih =>
    rw [factsSize_cons]
    omega
  | cons_cons fact _ ih =>
    rw [factsSize_cons, factsSize_cons]
    omega

/-! ## Sizes that are not exceeded -/

/-- A number is at most another one, and `p` holds where the two are equal. -/
structure AtMost (n m : Nat) (p : Prop) : Prop where
  le : n ≤ m
  of_eq : n = m → p

theorem AtMost.imp {n m : Nat} {p q : Prop} (h : AtMost n m p) (hpq : p → q) : AtMost n m q :=
  ⟨h.le, fun heq => hpq (h.of_eq heq)⟩

/-- A sum reaches its bound only where both parts reach theirs. -/
theorem AtMost.add {n m n' m' : Nat} {p q : Prop} (h : AtMost n m p) (h' : AtMost n' m' q) :
    AtMost (n + n') (m + m') (p ∧ q) := by
  have hle := h.le
  have hle' := h'.le
  exact ⟨by omega, fun hsum => ⟨h.of_eq (by omega), h'.of_eq (by omega)⟩⟩

/-! ## Settled texts -/

theorem tokenText_sublist_of_collapse_eq {text : Text} (h : Text.collapse text = text) :
    (tokenText text).Sublist text :=
  tokenText_sublist (single_of_collapse_eq h).1

theorem tokenText_eq_of_length {text : Text} (h : Text.collapse text = text)
    (hlen : text.length ≤ (tokenText text).length) : tokenText text = text :=
  (tokenText_sublist_of_collapse_eq h).eq_of_length_le hlen

/-- The texts that tokens keep, the selectors being valid. -/
def settled : Wording where
  property _ value := tokenText value == value
  statement text := tokenText text == text
  atRule header := tokenText header == header
  selector text := tokenText text == text && Selector.isValid text && !isAtRule text

/-! ## Properties -/

/-- The size of what a scope puts before the name of a property. -/
def Source.Scope.width (s : Scope) : Nat := pathSize s.target.path + pathSize s.names

theorem length_join (names : List Text) (key : Text) :
    (Text.join ['-'] (names ++ [key])).length = pathSize names + key.length := by
  induction names with
  | nil => simp
  | cons name names ih =>
    obtain ⟨next, rest, hsplit⟩ : ∃ next rest, names ++ [key] = next :: rest :=
      List.exists_cons_of_ne_nil (by simp)
    rw [List.cons_append, hsplit, Text.join_cons_cons, ← hsplit, List.length_append,
      List.length_append, ih]
    simp [pathSize]
    omega

theorem size_written (s : Scope) (d : Declaration) : factsSize (s.written d) =
    if d.value.isEmpty then 0 else s.width + d.key.length + 1 + d.value.length := by
  unfold Scope.written Scope.width
  split_ifs
  · rfl
  · simp [length_join]
    omega

section Blocks

variable {s : Scope} {path : List Text} {key : Text}

/-! ## Entries -/

/-- What an item mentions, and what further items do. -/
theorem size_cons {value : RuleValue} {t : RuleTree} {p q : Prop}
    (h : AtMost (factsSize (Item.mentions s (value.item key)))
      (factsSize (value.facts (path ++ [key]))) p)
    (ht : AtMost (factsSize (Item.allMentions s t.items)) (factsSize (t.factsAt path)) q) :
    AtMost (factsSize (Item.allMentions s (RuleTree.items ((key, value) :: t))))
      (factsSize (RuleTree.factsAt path ((key, value) :: t))) (p ∧ q) := by
  rw [RuleTree.items, Item.allMentions, RuleTree.factsAt, factsSize_append, factsSize_append]
  exact h.add ht

/-- What the header of a block mentions, and what its body does. -/
theorem size_block {body : RuleTree} {p q : Prop}
    (h : AtMost (factsSize (s.opened (tokenText key))) (pathSize (path ++ [key])) p)
    (hbody : AtMost (factsSize (Item.allMentions (s.enter (tokenText key)) body.items))
      (factsSize (body.factsAt (path ++ [key]))) q) :
    AtMost (factsSize (Item.mentions s (RuleValue.item key (.node body))))
      (factsSize (RuleValue.facts (path ++ [key]) (.node body))) (p ∧ q) := by
  rw [RuleValue.item, Item.mentions, RuleValue.facts, factsSize_append, factsSize_cons, size_node]
  exact h.add hbody

theorem size_property {value : Text} (hd : IsDeclared key value) (hs : s.width ≤ pathSize path) :
    AtMost (factsSize (Item.mentions s (RuleValue.item key (.leaf value))))
      (factsSize (RuleValue.facts (path ++ [key]) (.leaf value))) (tokenText value = value) := by
  have hmentions : Item.mentions s (RuleValue.item key (.leaf value)) =
      s.written ⟨key, tokenText value⟩ := by
    rw [RuleValue.item, Item.mentions, Scope.stated, isAtRule_declarationText hd.key_ne hd.key_name,
      if_neg (by simp), find?_declarationText hd.key_ne hd.key_name hd.no_colon]
  have hlen := (tokenText_sublist_of_collapse_eq hd.neat.collapse_eq).length_le
  have hsame := tokenText_eq_of_length hd.neat.collapse_eq
  have hfacts : factsSize (RuleValue.facts (path ++ [key]) (.leaf value)) =
      pathSize path + key.length + 1 + value.length := by
    simp [RuleValue.facts, Nat.add_assoc]
  rw [hmentions, size_written, hfacts]
  split_ifs
  · exact ⟨by omega, fun h => by omega⟩
  · dsimp only
    exact ⟨by omega, fun h => hsame (by omega)⟩

theorem size_statement (hat : isAtRule key = true) (hlegible : Legible key) :
    AtMost (factsSize (Item.mentions s (RuleValue.item key .absent)))
      (factsSize (RuleValue.facts ([] ++ [key]) .absent)) (tokenText key = key) := by
  have hcollapse := hlegible.spaced.collapse_eq
  have hlen := (tokenText_sublist_of_collapse_eq hcollapse).length_le
  have hmentions : factsSize (Item.mentions s (RuleValue.item key .absent)) =
      (tokenText key).length + 1 := by
    simp [RuleValue.item, Item.mentions, Scope.stated, isAtRule_tokenText hat]
  have hfacts : factsSize (RuleValue.facts ([] ++ [key]) .absent) = key.length + 1 := by
    simp [RuleValue.facts]
  rw [hmentions, hfacts]
  exact ⟨by omega, fun h => tokenText_eq_of_length hcollapse (by omega)⟩

/-! ## Selectors -/

theorem size_rule (path : List Text) {t : RuleTree} (ht : parsed.isRule t = true)
    (hs : s.width ≤ pathSize path) :
    AtMost (factsSize (Item.allMentions s t.items)) (factsSize (t.factsAt path))
      (settled.isRule t = true) := by
  induction t with
  | nil => exact ⟨le_rfl, fun _ => rfl⟩
  | cons entry t ih =>
    obtain ⟨key, value⟩ := entry
    rw [Wording.isRule_cons] at ht
    cases value with
    | leaf value =>
      have hd : IsDeclared key value := of_decide_eq_true ht.1
      refine (size_cons (size_property hd hs) (ih ht.2)).imp ?_
      rintro ⟨hvalue, hrest⟩
      exact Wording.isRule_cons.mpr ⟨by simpa [Wording.inRule, settled] using hvalue, hrest⟩
    | _ => cases ht.1

theorem path_rule (around : Option Text) (selector : Text) :
    (Target.rule around selector).path = (Target.ofGroup around).path ++ [selector] := by
  cases around <;> rfl

/-- What the header of a selector mentions, and the width of the block that it opens. A header that
is read as a property block, or as an at-rule within another, mentions less. -/
theorem size_header (hflush : Flush key) (hh : s.headers = []) (hn : s.names = [])
    (hs : s.width ≤ pathSize path) (hg : pathSize (Target.ofGroup s.group).path ≤ pathSize path)
    (hl : isLegalHeader (tokenText key) = true) :
    (s.enter (tokenText key)).width ≤ pathSize (path ++ [key]) ∧
      AtMost (factsSize (s.opened (tokenText key))) (pathSize (path ++ [key]))
        (tokenText key = key ∧ (isAtRule key = true → pathSize path = 0) ∧
          (isAtRule key = false → Selector.isValid key = true)) := by
  have hlen := (tokenText_sublist_of_collapse_eq hflush.collapse_eq).length_le
  have hsame := tokenText_eq_of_length hflush.collapse_eq
  have hspaced := spaced_tokenText key
  have hpath : pathSize (path ++ [key]) = pathSize path + key.length + 1 := by
    simp [Nat.add_assoc]
  have hnames : pathSize s.names = 0 := by rw [hn]; rfl
  rw [hpath]
  generalize hheader : tokenText key = header at *
  by_cases hat : isAtRule header = true
  · have hopened : factsSize (s.opened header) = header.length + 1 := by
      simp [Scope.opened, hat]
    have hwidth : (s.enter header).width = header.length + 1 := by
      simp [Scope.enter, hat, Scope.width, Target.path, hnames]
    refine ⟨by omega, by omega, fun hsum => ?_⟩
    obtain rfl := hsame (by omega)
    exact ⟨rfl, fun _ => by omega, fun h => absurd hat (by simp [h])⟩
  by_cases hv : Selector.isValid header = true
  · have hsel : s.selector header = header := by
      rw [Scope.selector, hh]
      exact normalize_of_spaced hspaced
    have hopened : factsSize (s.opened header) =
        pathSize (Target.ofGroup s.group).path + header.length + 1 := by
      simp [Scope.opened, hat, hv, hsel, Nat.add_assoc]
    have hwidth : (s.enter header).width =
        pathSize (Target.ofGroup s.group).path + header.length + 1 := by
      simp [Scope.enter, hat, hv, hsel, Scope.width, path_rule, hnames, Nat.add_assoc]
    refine ⟨by omega, by omega, fun hsum => ?_⟩
    obtain rfl := hsame (by omega)
    exact ⟨rfl, fun h => absurd h hat, fun _ => hv⟩
  · -- a property block puts its own name in place of the header, which is longer
    have hopens : opensProperties header = true := by
      simpa [isLegalHeader, hat, hv] using hl
    obtain ⟨d, hd⟩ := Option.isSome_iff_exists.mp (isSome_find?_of_opensProperties hopens)
    have hdecl : Scope.declaration header = d := by rw [Scope.declaration, hd, Option.getD_some]
    have hfound := length_of_find? hd
    have hopened : factsSize (s.opened header) ≤ s.width + header.length := by
      have hwritten := size_written s d
      simp only [Scope.opened, hat, hv, hdecl, Bool.false_eq_true, if_false]
      split_ifs at hwritten <;> omega
    have hwidth : (s.enter header).width = s.width + d.key.length + 1 := by
      simp [Scope.enter, hat, hv, hdecl, Scope.width, hnames, Nat.add_assoc]
    exact ⟨by omega, by omega, fun hsum => by omega⟩

theorem size_selector {body : RuleTree} (hflush : Flush key) (hrule : parsed.isRule body = true)
    (hh : s.headers = []) (hn : s.names = []) (hs : s.width ≤ pathSize path)
    (hg : pathSize (Target.ofGroup s.group).path ≤ pathSize path)
    (hl : isLegalHeader (tokenText key) = true) :
    AtMost (factsSize (Item.mentions s (RuleValue.item key (.node body))))
      (factsSize (RuleValue.facts (path ++ [key]) (.node body)))
      ((tokenText key = key ∧ (isAtRule key = true → pathSize path = 0) ∧
        (isAtRule key = false → Selector.isValid key = true)) ∧ settled.isRule body = true) := by
  obtain ⟨hwidth, hopened⟩ := size_header hflush hh hn hs hg hl
  exact size_block hopened (size_rule _ hrule hwidth)

/-! ## At-rules -/

theorem size_group (path : List Text) {t : RuleTree} (ht : parsed.isGroup t = true)
    (hh : s.headers = []) (hn : s.names = []) (hs : s.width ≤ pathSize path)
    (hg : pathSize (Target.ofGroup s.group).path ≤ pathSize path) (hpath : path ≠ [])
    (hl : Item.areLegal t.items = true) :
    AtMost (factsSize (Item.allMentions s t.items)) (factsSize (t.factsAt path))
      (settled.isGroup t = true) := by
  induction t with
  | nil => exact ⟨le_rfl, fun _ => rfl⟩
  | cons entry t ih =>
    obtain ⟨key, value⟩ := entry
    rw [Wording.isGroup_cons] at ht
    rw [RuleTree.items, Item.areLegal, Bool.and_eq_true] at hl
    have hrest := ih ht.2 hl.2
    cases value with
    | leaf value =>
      have hd : IsDeclared key value := of_decide_eq_true ht.1
      refine (size_cons (size_property hd hs) hrest).imp ?_
      rintro ⟨hvalue, hsettled⟩
      exact Wording.isGroup_cons.mpr ⟨by simpa [Wording.inGroup, settled] using hvalue, hsettled⟩
    | absent => cases ht.1
    | node body =>
      rw [RuleValue.item, Item.isLegal, Bool.and_eq_true] at hl
      obtain ⟨hsel, hrule⟩ := Bool.and_eq_true_iff.mp ht.1
      have hflush : Flush key := of_decide_eq_true hsel
      refine (size_cons (size_selector hflush hrule hh hn hs hg hl.1.1) hrest).imp ?_
      rintro ⟨⟨⟨htoken, hroot, hvalid⟩, hbody⟩, hsettled⟩
      have hat : isAtRule key = false := by
        rw [← Bool.not_eq_true]
        intro hat
        obtain ⟨first, others, rfl⟩ := List.exists_cons_of_ne_nil hpath
        have := hroot hat
        simp [pathSize] at this
      have hselector : settled.selector key = true := by
        simp [settled, htoken, hvalid hat, hat]
      exact Wording.isGroup_cons.mpr ⟨Bool.and_eq_true_iff.mpr ⟨hselector, hbody⟩, hsettled⟩

theorem size_atRule {body : RuleTree} (hflush : Flush key) (hat : isAtRule key = true)
    (hgroup : parsed.isGroup body = true) (hl : Item.areLegal body.items = true) :
    AtMost (factsSize (Item.mentions {} (RuleValue.item key (.node body))))
      (factsSize (RuleValue.facts ([] ++ [key]) (.node body)))
      (tokenText key = key ∧ settled.isGroup body = true) := by
  have hlen := (tokenText_sublist_of_collapse_eq hflush.collapse_eq).length_le
  have hheader := isAtRule_tokenText hat
  have hopened : factsSize (Scope.opened {} (tokenText key)) = (tokenText key).length + 1 := by
    simp [Scope.opened, hheader]
  have hwidth : (Scope.enter {} (tokenText key)).width ≤ pathSize [key] := by
    simpa [Scope.enter, hheader, Scope.width, Target.path] using hlen
  have hgroupPath : pathSize (Target.ofGroup (Scope.enter {} (tokenText key)).group).path ≤
      pathSize [key] := by
    simpa [Scope.enter, hheader, Target.ofGroup, Target.path] using hlen
  have hbody := size_group [key] hgroup (by simp [Scope.enter, hheader])
    (by simp [Scope.enter, hheader]) hwidth hgroupPath (List.cons_ne_nil _ _) hl
  refine size_block ?_ hbody
  rw [hopened, List.nil_append, pathSize_singleton]
  exact ⟨by omega, fun h => tokenText_eq_of_length hflush.collapse_eq (by omega)⟩

end Blocks

/-! ## Trees -/

/-- **A rendered tree mentions at most the facts of the tree**, and if it mentions all of them then
the tree is settled. -/
theorem size_mentions {t : RuleTree} (ht : parsed.admits t = true)
    (hl : Item.areLegal t.items = true) :
    AtMost (factsSize (Item.allMentions {} t.items)) (factsSize t.facts)
      (settled.admits t = true) := by
  unfold RuleTree.facts
  have hwidth : Scope.width {} ≤ pathSize [] := le_rfl
  induction t with
  | nil => exact ⟨le_rfl, fun _ => rfl⟩
  | cons entry t ih =>
    obtain ⟨key, value⟩ := entry
    rw [Wording.admits_cons] at ht
    rw [RuleTree.items, Item.areLegal, Bool.and_eq_true] at hl
    obtain ⟨hempty, hroot, hrest⟩ := ht
    have hothers := ih hrest hl.2
    cases value with
    | leaf value =>
      have hd : IsDeclared key value := of_decide_eq_true hroot
      refine (size_cons (size_property hd hwidth) hothers).imp ?_
      rintro ⟨hvalue, hsettled⟩
      exact Wording.admits_cons.mpr
        ⟨hempty, by simpa [Wording.inRoot, settled] using hvalue, hsettled⟩
    | absent =>
      obtain ⟨hat, hstatement⟩ := Bool.and_eq_true_iff.mp hroot
      refine (size_cons (size_statement hat (of_decide_eq_true hstatement)) hothers).imp ?_
      rintro ⟨htoken, hsettled⟩
      exact Wording.admits_cons.mpr
        ⟨hempty, by simpa [Wording.inRoot, settled, hat] using htoken, hsettled⟩
    | node body =>
      rw [RuleValue.item, Item.isLegal, Bool.and_eq_true] at hl
      replace hroot : parsed.isBlock key body = true := hroot
      rw [Wording.isBlock] at hroot
      split_ifs at hroot with hkey <;> obtain ⟨hheader, hbody⟩ := Bool.and_eq_true_iff.mp hroot
      · have hblock := size_atRule (of_decide_eq_true hheader) hkey hbody hl.1.2
        refine (size_cons hblock hothers).imp ?_
        rintro ⟨⟨htoken, hgroup⟩, hsettled⟩
        have hin : settled.isBlock key body = true := by
          simpa [Wording.isBlock, hkey, settled, htoken] using hgroup
        exact Wording.admits_cons.mpr ⟨hempty, hin, hsettled⟩
      · have hblock := size_selector (of_decide_eq_true hheader) hbody rfl rfl hwidth le_rfl hl.1.1
        refine (size_cons hblock hothers).imp ?_
        rintro ⟨⟨⟨htoken, -, hvalid⟩, hrule⟩, hsettled⟩
        rw [Bool.not_eq_true] at hkey
        have hin : settled.isBlock key body = true := by
          simpa [Wording.isBlock, hkey, settled, htoken, hvalid hkey] using hrule
        exact Wording.admits_cons.mpr ⟨hempty, hin, hsettled⟩

end StyleRules

import StyleRules.Proofs.Rule.Wording
import StyleRules.Proofs.Source.Declared

/-!
# The shape of parsed trees

* `parsed`: the texts of trees that are read from a text;
* `Kept`: every entry is of a kind and no key stands twice; kept by writing;
* `Scope.Proper`: the texts of a scope; kept on entering a block;
* `kept_evalAll`: evaluating items of legible texts keeps the shape;
* **`parsed_of_parse`**: a parsed tree is flattened and not empty, no key stands twice, and its
  texts are those of `parsed`.
-/

namespace StyleRules

open Source Text

/-- The texts of trees that are read from a text: declared properties, legible statements, and
headers without leading blanks and with single spaces. -/
def parsed : Wording where
  property key value := decide (IsDeclared key value)
  statement text := decide (Legible text)
  atRule header := decide (Flush header)
  selector text := decide (Flush text)

/-! ## Writing -/

/-- Every entry is of a kind, and no key stands twice at any level. -/
structure Kept (p : Text × RuleValue → Bool) (t : RuleTree) : Prop where
  all : t.all p = true
  distinct : t.hasDistinctKeys = true

theorem kept_nil (p : Text × RuleValue → Bool) : Kept p [] := ⟨rfl, rfl⟩

theorem Kept.insert {p : Text × RuleValue → Bool} {t : RuleTree} (h : Kept p t) {key : Text}
    {value : RuleValue} (hp : p (key, value) = true) (hd : value.hasDistinctKeys = true) :
    Kept p (t.insert key value) := by
  refine ⟨List.all_eq_true.mpr fun entry he => ?_, RuleTree.hasDistinctKeys_insert h.distinct hd⟩
  rcases Entries.mem_insert he with rfl | he
  · exact hp
  · exact List.all_eq_true.mp h.all entry he

/-- A change of a block that keeps what is in it keeps what is around it. -/
theorem Kept.modifyNode {p q : Text × RuleValue → Bool} {t : RuleTree} (h : Kept p t) {key : Text}
    (hpq : ∀ body : RuleTree, p (key, .node body) = body.all q) {change : RuleTree → RuleTree}
    (hc : ∀ body, Kept q body → Kept q (change body)) : Kept p (t.modifyNode key change) := by
  have hbody : Kept q ((t.node? key).getD []) := by
    refine ⟨?_, RuleTree.hasDistinctKeys_node? h.distinct key⟩
    rcases hget : Entries.get? t key with _ | value
    · rw [RuleTree.node?, hget]
      rfl
    · rw [RuleTree.node?, hget]
      cases value with
      | node body =>
        exact (hpq body).symm.trans (List.all_eq_true.mp h.all _ (Entries.mem_of_get? hget))
      | _ => rfl
  have hchanged := hc _ hbody
  exact h.insert ((hpq _).trans hchanged.all) hchanged.distinct

theorem Kept.pruneEmpty {w : Wording} {t : RuleTree} (h : Kept w.inRoot t) :
    w.admits t.pruneEmpty = true ∧ t.pruneEmpty.hasDistinctKeys = true := by
  refine ⟨Wording.admits_iff.mpr fun entry he => ?_,
    RuleTree.hasDistinctKeys_pruneEmpty h.distinct⟩
  exact ⟨RuleTree.not_isEmptyNode_of_mem_pruneEmpty he,
    List.all_eq_true.mp h.all entry (List.mem_of_mem_filter he)⟩

/-! ## Targets -/

/-- A text that an at-rule of a parsed tree has. -/
def IsProperGroup (name : Text) : Prop := isAtRule name = true ∧ Flush name

/-- The texts of a target are those of a parsed tree. -/
def Source.Target.Proper : Target → Prop
  | .root => True
  | .group name => IsProperGroup name
  | .rule around selector =>
    (∀ name ∈ around, IsProperGroup name) ∧ parsed.selector selector = true

theorem inRoot_group {name : Text} (h : IsProperGroup name) (body : RuleTree) :
    parsed.inRoot (name, .node body) = body.all parsed.inGroup := by
  show parsed.isBlock name body = _
  rw [Wording.isBlock, if_pos h.1, show parsed.atRule name = true from decide_eq_true h.2]
  rfl

theorem inGroup_selector {selector : Text} (h : parsed.selector selector = true)
    (body : RuleTree) : parsed.inGroup (selector, .node body) = body.all parsed.inRule := by
  show (parsed.selector selector && parsed.isRule body) = _
  rw [h]
  rfl

/-- A selector in the root may start as an at-rule does. -/
theorem inRoot_selector {selector : Text} (h : parsed.selector selector = true)
    (body : RuleTree) : parsed.inRoot (selector, .node body) =
      body.all (if isAtRule selector then parsed.inGroup else parsed.inRule) := by
  show parsed.isBlock selector body = _
  rw [Wording.isBlock]
  have hflush : parsed.atRule selector = true := h
  split_ifs
  · rw [hflush]
    rfl
  · rw [h]
    rfl

/-- A change that may be made in every block may be made in the block of a target. -/
theorem Source.Target.Proper.kept_modify {target : Target} (ht : target.Proper)
    {change : RuleTree → RuleTree}
    (hroot : ∀ t, Kept parsed.inRoot t → Kept parsed.inRoot (change t))
    (hgroup : ∀ t, Kept parsed.inGroup t → Kept parsed.inGroup (change t))
    (hrule : ∀ t, Kept parsed.inRule t → Kept parsed.inRule (change t)) {t : RuleTree}
    (h : Kept parsed.inRoot t) : Kept parsed.inRoot (target.modify change t) := by
  rcases target with _ | name | ⟨_ | name, selector⟩
  · exact hroot t h
  · exact h.modifyNode (inRoot_group ht) hgroup
  · refine h.modifyNode (inRoot_selector ht.2) fun body hb => ?_
    split_ifs at hb ⊢
    · exact hgroup body hb
    · exact hrule body hb
  · have hbody : ∀ body, Kept parsed.inGroup body →
        Kept parsed.inGroup (RuleTree.modifyNode body selector change) :=
      fun body hb => hb.modifyNode (inGroup_selector ht.2) hrule
    exact h.modifyNode (inRoot_group (ht.1 name rfl)) hbody

theorem kept_insert_leaf {p : Text × RuleValue → Bool} {t : RuleTree} (h : Kept p t)
    {key value : Text} (hp : p (key, .leaf value) = true) : Kept p (t.insert key (.leaf value)) :=
  h.insert hp rfl

/-! ## Scopes -/

/-- A text of name characters. -/
def IsName (t : Text) : Prop := t ≠ [] ∧ ∀ c ∈ t, Selector.isNameChar c = true

instance (t : Text) : Decidable (IsName t) :=
  decidable_of_iff (t ≠ [] ∧ t.all Selector.isNameChar = true) (and_congr Iff.rfl List.all_eq_true)

/-- The texts of a scope are those of a parsed tree. -/
structure Source.Scope.Proper (s : Scope) : Prop where
  group : ∀ name ∈ s.group, IsProperGroup name
  names : ∀ name ∈ s.names, IsName name
  target : s.target.Proper

theorem proper_init : Scope.Proper {} where
  group _ h := by cases h
  names _ h := absurd h List.not_mem_nil
  target := trivial

theorem isName_join {names : List Text} (hne : names ≠ []) (h : ∀ name ∈ names, IsName name) :
    IsName (Text.join ['-'] names) := by
  induction names with
  | nil => exact absurd rfl hne
  | cons name names ih =>
    obtain ⟨hname, hrest⟩ := List.forall_mem_cons.mp h
    cases names with
    | nil => simpa using hname
    | cons next names =>
      obtain ⟨-, hchars⟩ := ih (List.cons_ne_nil _ _) hrest
      rw [Text.join_cons_cons]
      refine ⟨by simp, fun c hc => ?_⟩
      rcases List.mem_append.mp hc with hc | hc
      · rcases List.mem_append.mp hc with hc | hc
        · exact hname.2 c hc
        · rw [List.mem_singleton.mp hc]
          decide
      · exact hchars c hc

/-- A declaration of a legible text is written under its names. -/
theorem Source.Scope.Proper.kept_write {s : Scope} (hs : s.Proper) {text : Text}
    (ht : Legible text) {d : Declaration} (hd : Declaration.find? text = some d) {t : RuleTree}
    (h : Kept parsed.inRoot t) : Kept parsed.inRoot (s.write d t) := by
  unfold Scope.write
  split_ifs with hv
  · exact h
  have hdecl := isDeclared_of_find? ht hd (by simpa using hv)
  have hkey : IsName (Text.join ['-'] (s.names ++ [d.key])) := by
    refine isName_join (by simp) fun name hm => ?_
    rcases List.mem_append.mp hm with hm | hm
    · exact hs.names name hm
    · rw [List.mem_singleton.mp hm]
      exact ⟨hdecl.key_ne, hdecl.key_name⟩
  have hprop : parsed.property (Text.join ['-'] (s.names ++ [d.key])) d.value = true :=
    decide_eq_true ⟨hkey.1, hkey.2, hdecl.value_ne, hdecl.no_colon, hdecl.starts, hdecl.neat,
      hdecl.cutFree⟩
  exact hs.target.kept_modify (fun t h => kept_insert_leaf h hprop)
    (fun t h => kept_insert_leaf h hprop) (fun t h => kept_insert_leaf h hprop) h

/-- The flattened selector of a block is one of a parsed tree. -/
theorem parsed_selector (s : Scope) (header : Text) :
    parsed.selector (s.selector header) = true := by
  have hsome : (Selector.combine (s.headers ++ [header])).isSome :=
    Selector.isSome_combine (by simp)
  obtain ⟨selector, hsel⟩ := Option.isSome_iff_exists.mp hsome
  rw [Scope.selector, hsel]
  exact decide_eq_true (Selector.flush_combine hsel)

/-- The texts of a scope stay proper on entering a block. -/
theorem Source.Scope.Proper.enter {s : Scope} (hs : s.Proper) {header : Text}
    (hh : Legible header) (hl : isLegalHeader header = true) : (s.enter header).Proper := by
  unfold Scope.enter
  split_ifs with hat hv
  · have hgroup : IsProperGroup header := ⟨hat, hh.spaced.toFlush⟩
    refine ⟨?_, hs.names, hgroup⟩
    rintro name ⟨⟩
    exact hgroup
  · exact ⟨hs.group, hs.names, hs.group, parsed_selector s header⟩
  · -- neither an at-rule nor a selector, so it opens a property block
    have hopens : opensProperties header = true := by
      simpa [isLegalHeader, hat, hv] using hl
    obtain ⟨d, hd⟩ := Option.isSome_iff_exists.mp (isSome_find?_of_opensProperties hopens)
    obtain ⟨hne, hname, -⟩ := find?_spec hd
    refine ⟨hs.group, fun name hm => ?_, hs.target⟩
    rcases List.mem_append.mp hm with hm | hm
    · exact hs.names name hm
    · rw [List.mem_singleton.mp hm, Scope.declaration, hd]
      exact ⟨hne, hname⟩

/-! ## Evaluating -/

/-- Opening a block keeps the shape. -/
theorem Source.Scope.Proper.kept_openBlock {s : Scope} (hs : s.Proper) {header : Text}
    (hh : Legible header) (hl : isLegalHeader header = true) {t : RuleTree}
    (h : Kept parsed.inRoot t) : Kept parsed.inRoot (s.openBlock header t) := by
  unfold Scope.openBlock
  split_ifs with hat hv
  · exact h.insert (inRoot_group ⟨hat, hh.spaced.toFlush⟩ []) rfl
  · have hsel := parsed_selector s header
    rcases hg : s.group with _ | name
    · exact h.modifyNode (inRoot_selector hsel) fun _ hb => hb
    · have hgroup := hs.group name hg
      have hbody : ∀ body, Kept parsed.inGroup body →
          Kept parsed.inGroup (RuleTree.modifyNode body (s.selector header) id) :=
        fun body hb => hb.modifyNode (inGroup_selector hsel) fun _ hr => hr
      exact h.modifyNode (inRoot_group hgroup) hbody
  · have hopens : opensProperties header = true := by
      simpa [isLegalHeader, hat, hv] using hl
    obtain ⟨d, hd⟩ := Option.isSome_iff_exists.mp (isSome_find?_of_opensProperties hopens)
    rw [Scope.declaration, hd]
    exact hs.kept_write hh hd h

theorem Source.Scope.Proper.kept_statement {s : Scope} (hs : s.Proper) {text : Text}
    (ht : Legible text) {t : RuleTree} (h : Kept parsed.inRoot t) :
    Kept parsed.inRoot (s.statement text t) := by
  unfold Scope.statement
  split_ifs with hat
  · refine h.insert ?_ rfl
    show (isAtRule text && parsed.statement text) = true
    rw [hat]
    exact decide_eq_true ht
  · rcases hd : Declaration.find? text with _ | d
    · exact h
    · exact hs.kept_write ht hd h

mutual

/-- The texts of an item: of a statement, or the headers and statements of a block. -/
def Source.Item.texts : Item → List Text
  | .statement text => [text]
  | .block header body => header :: Item.allTexts body

/-- The texts of items. -/
def Source.Item.allTexts : List Item → List Text
  | [] => []
  | item :: items => item.texts ++ Item.allTexts items

end

/-- **Evaluating items of legible texts keeps the shape.** -/
theorem kept_evalAll (items : List Item) {s : Scope} (hs : s.Proper)
    (ht : ∀ text ∈ Item.allTexts items, Legible text) (hl : Item.areLegal items = true)
    {t : RuleTree} (h : Kept parsed.inRoot t) : Kept parsed.inRoot (Item.evalAll s items t) := by
  match items with
  | [] => exact h
  | .statement text :: items =>
    rw [Item.areLegal, Bool.and_eq_true] at hl
    rw [Item.allTexts, Item.texts, List.singleton_append, List.forall_mem_cons] at ht
    exact kept_evalAll items hs ht.2 hl.2 (hs.kept_statement ht.1 h)
  | .block header body :: items =>
    rw [Item.areLegal, Item.isLegal, Bool.and_eq_true, Bool.and_eq_true] at hl
    rw [Item.allTexts, Item.texts, List.cons_append, List.forall_mem_cons,
      List.forall_mem_append] at ht
    obtain ⟨⟨hheader, hbody⟩, hrest⟩ := hl
    obtain ⟨hh, htbody, htrest⟩ := ht
    have hinner := kept_evalAll body (hs.enter hh hheader) htbody hbody
      (hs.kept_openBlock hh hheader h)
    exact kept_evalAll items hs htrest hrest hinner

/-! ## Parsed trees -/

/-- The texts of laid out items are those of the tokens. -/
theorem Source.Laid.legible {tokens : List Token} {items : List Item} (h : Laid tokens items)
    (ht : ∀ token ∈ tokens, Legible token.text) : ∀ text ∈ Item.allTexts items, Legible text := by
  induction h with
  | nil => exact fun _ hm => absurd hm List.not_mem_nil
  | statement _ _ ih =>
    obtain ⟨htoken, hrest⟩ := List.forall_mem_cons.mp ht
    exact List.forall_mem_cons.mpr ⟨htoken, ih hrest⟩
  | block _ _ _ _ ihBody ih =>
    obtain ⟨hopening, htail⟩ := List.forall_mem_cons.mp ht
    obtain ⟨hinner, htail⟩ := List.forall_mem_append.mp htail
    rw [Item.allTexts, Item.texts, List.cons_append]
    exact List.forall_mem_cons.mpr ⟨hopening, List.forall_mem_append.mpr
      ⟨ihBody hinner, ih (List.forall_mem_cons.mp htail).2⟩⟩

/-- What is read from a text is the tree of a builder at its end, without its empty rules. -/
theorem exists_build_of_parse {text : Text} {t : RuleTree} (h : parse text = .ok (some t)) :
    t ≠ [] ∧ ∃ b, build (normalForm text) = .ok b ∧ b.blocks = [] ∧ b.tree.pruneEmpty = t := by
  by_cases hempty : text.isEmpty = true
  · rw [parse, if_pos hempty] at h
    cases h
  rw [parse, if_neg hempty] at h
  replace h : (build (normalForm text)).bind (fun b => b.finish (normalForm text).utf8Size) =
      .ok (some t) := h
  rcases hr : build (normalForm text) with e | b
  · rw [hr] at h
    cases h
  · rw [hr] at h
    replace h : b.finish (normalForm text).utf8Size = .ok (some t) := h
    unfold Builder.finish at h
    split_ifs at h with hb
    by_cases he : b.tree.pruneEmpty = []
    · simp [he] at h
    · obtain rfl : b.tree.pruneEmpty = t := by simpa [he] using h
      exact ⟨he, b, rfl, List.isEmpty_iff.mp hb, rfl⟩

/-- What is read from a text is the tree of the items that its tokens lay out. -/
theorem evaluate_of_parse {text : Text} {t : RuleTree} (h : parse text = .ok (some t))
    {items : List Item} (hlaid : Laid (tokens (normalForm text)) items) :
    Item.areLegal items = true ∧ (evaluate items).pruneEmpty = t := by
  obtain ⟨-, b, hb, -, rfl⟩ := exists_build_of_parse h
  have hl := Builder.legal_of_run hlaid {} b Builder.aligned_init hb
  refine ⟨hl, ?_⟩
  have hrun := Builder.run_laid hlaid {} Builder.aligned_init hl
  obtain rfl := Except.ok.inj (hrun.symm.trans hb)
  rfl

/-- **A parsed tree is flattened and not empty, and no key stands twice.** -/
theorem parsed_of_parse {text : Text} {t : RuleTree} (h : parse text = .ok (some t)) :
    t ≠ [] ∧ parsed.admits t = true ∧ t.hasDistinctKeys = true := by
  obtain ⟨hne, b, hb, hclosed, rfl⟩ := exists_build_of_parse h
  obtain ⟨items, hlaid, hl, hev⟩ := Builder.exists_laid_of_run hb hclosed
  have htexts := hlaid.legible fun token ht => legible_of_mem_tokens ht
  have hkept := kept_evalAll items proper_init htexts hl (kept_nil parsed.inRoot)
  rw [← hev]
  exact ⟨hev ▸ hne, Kept.pruneEmpty hkept⟩

end StyleRules

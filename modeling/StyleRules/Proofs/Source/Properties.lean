import StyleRules.Proofs.Rule.Parsed
import StyleRules.Proofs.Selector.Runs

/-!
# Nested properties

A property block is another way to write the properties in it, under names that start with its own.

* `Heading`, `Property`: properties with blocks of properties under their names;
* `Property.items`: their nested form, as statements and blocks;
* `Property.allDeclared`: their flat form, one declaration for each value;
* `Heading.isValid_text`, `Heading.opensProperties_text`: a heading opens a property block;
* `Property.evalAll_items`: in every scope the nested form writes the declarations of the flat one;
* **`Builder.run_nested`**: from every reachable builder both forms lead to the same one.
-/

namespace StyleRules.Source

open Text Selector

/-! ## Properties -/

/-- The name of a property, and its value if it has one, which is neither empty nor cut at a colon
and has no blanks around it. -/
structure Heading where
  key : Text
  value : Option Text
  isName : IsName key := by decide
  value_ne : ∀ v ∈ value, v ≠ [] := by decide
  value_colon : ∀ v ∈ value, ':' ∉ v := by decide
  value_trim : ∀ v ∈ value, v.trim = v := by decide

/-- A property as it is written; without a value it ends with the colon. -/
def Heading.text (h : Heading) : Text :=
  match h.value with
  | none => h.key ++ [':']
  | some value => declarationText h.key value

/-- A property that stands on its own, or one with a block of properties, whose name must not end
with a dash. -/
inductive Property where
  | plain (heading : Heading)
  | block (heading : Heading) (ends : heading.key.getLast? ≠ some '-') (body : List Property)

mutual

/-- The nested form of a property. -/
def Property.item : Property → Item
  | .plain heading => .statement heading.text
  | .block heading _ body => .block heading.text (Property.items body)

/-- The nested form of properties. -/
def Property.items : List Property → List Item
  | [] => []
  | property :: rest => property.item :: Property.items rest

end

/-- The value of a heading under its full name, `names` being those of the blocks around it. -/
def Heading.declared (names : List Text) (h : Heading) : List Declaration :=
  h.value.toList.map fun value => ⟨Text.join ['-'] (names ++ [h.key]), value⟩

mutual

/-- The flat form of a property in blocks with the given names. -/
def Property.declared (names : List Text) : Property → List Declaration
  | .plain heading => heading.declared names
  | .block heading _ body =>
    heading.declared names ++ Property.allDeclared (names ++ [heading.key]) body

/-- The flat form of properties in blocks with the given names: those that have a value, each
before what is in its block. -/
def Property.allDeclared (names : List Text) : List Property → List Declaration
  | [] => []
  | property :: rest => property.declared names ++ Property.allDeclared names rest

end

/-! ## Headings -/

namespace Heading

variable (h : Heading)

theorem exists_text_eq : ∃ rest, h.text = h.key ++ ':' :: rest ∧ isOpenColon (':' :: rest) = true ∧
    valueAfterColon rest = h.value.getD [] := by
  rcases hv : h.value with _ | value
  · exact ⟨[], by rw [text, hv], rfl, rfl⟩
  · have hstarts : startsBlank value = false := h.value_trim value hv ▸ startsBlank_trim value
    refine ⟨' ' :: value, by rw [text, hv]; rfl, isBlank_space, ?_⟩
    have htrim : trimLeft (' ' :: value) = value :=
      (List.dropWhile_cons_of_pos isBlank_space).trans (trimLeft_of_not_startsBlank hstarts)
    rw [valueAfterColon, htrim, Option.getD_some]
    exact takeWhile_of_not_mem_colon (h.value_colon value hv)

theorem find?_text : Declaration.find? h.text = some ⟨h.key, h.value.getD []⟩ := by
  obtain ⟨rest, htext, -, hvalue⟩ := h.exists_text_eq
  rw [htext, find?_of_isNameChar h.isName.1 h.isName.2, hvalue]

theorem startsWithAt_text : startsWithAt h.text = false := by
  obtain ⟨rest, htext, -, -⟩ := h.exists_text_eq
  obtain ⟨c, name, hkey⟩ := List.exists_cons_of_ne_nil h.isName.1
  have hc := h.isName.2 c (hkey ▸ List.mem_cons_self)
  have hat : c ≠ '@' := ne_of_isNameChar hc (by decide)
  rw [htext, hkey, List.cons_append, startsWithAt_cons, isBlank_of_isNameChar hc]
  simpa using hat

theorem isAtRule_text : isAtRule h.text = false := isAtRule_of_startsWithAt h.startsWithAt_text

/-- The colon of a heading is a run of its own, and no accepted name. -/
theorem isValid_text : isValid h.text = false := by
  obtain ⟨rest, htext, hopen, -⟩ := h.exists_text_eq
  have hcolon : ':' ∉ h.key := fun hm => ne_of_isNameChar (h.isName.2 _ hm) (by decide) rfl
  have hrun : [':'] ∈ pseudoRuns h.text := by
    rw [htext, pseudoRuns_append_of_not_mem hcolon]
    cases rest with
    | nil => exact List.mem_cons_self
    | cons c rest =>
      have hbreak := pseudoRuns_append_of_break (isRunChar_of_isBlank hopen) [':'] rest
      exact hbreak ▸ List.mem_append_left _ List.mem_cons_self
  rw [← Bool.not_eq_true, isValid_iff_forall_pseudoRuns h.startsWithAt_text]
  exact fun hknown => absurd (hknown _ hrun) (by decide +kernel)

theorem opensProperties_text (hends : h.key.getLast? ≠ some '-') :
    opensProperties h.text = true := by
  obtain ⟨rest, htext, hopen, -⟩ := h.exists_text_eq
  have happend : ∀ s t, opensProperties t = true → opensProperties (s ++ t) = true := by
    intro s t ht
    induction s with
    | nil => exact ht
    | cons c s ih => rw [List.cons_append, opensProperties, ih, Bool.or_true]
  obtain ⟨init, c, hkey⟩ := (List.eq_nil_or_concat h.key).resolve_left h.isName.1
  have hc : (c.isAlphanum || c == '_') = true := by
    have hname := h.isName.2 c (by simp [hkey])
    have hdash : c ≠ '-' := by
      rintro rfl
      exact hends (by rw [hkey]; simp)
    simpa [isNameChar, hdash] using hname
  rw [htext, hkey, List.concat_eq_append, List.append_assoc]
  exact happend init _ (by rw [List.singleton_append, opensProperties, hc, hopen]; rfl)

end Heading

/-! ## Scopes -/

theorem join_append_join (separator : Text) (a : List Text) {b : List Text} (hb : b ≠ []) :
    Text.join separator (a ++ [Text.join separator b]) = Text.join separator (a ++ b) := by
  obtain ⟨first, rest, rfl⟩ := List.exists_cons_of_ne_nil hb
  induction a with
  | nil => simp
  | cons piece a ih =>
    cases a with
    | nil => simp [Text.join_cons_cons]
    | cons next a => simpa [Text.join_cons_cons] using ih

namespace Scope

/-- The scope within property blocks of the given names. -/
def within (s : Scope) (names : List Text) : Scope := { s with names := s.names ++ names }

/-- The tree after several declarations. -/
def writeAll (s : Scope) (declarations : List Declaration) (t : RuleTree) : RuleTree :=
  declarations.foldl (fun t d => s.write d t) t

theorem writeAll_append (s : Scope) (ds es : List Declaration) (t : RuleTree) :
    s.writeAll (ds ++ es) t = s.writeAll es (s.writeAll ds t) := List.foldl_append

variable (s : Scope) (names : List Text) (h : Heading) (t : RuleTree)

theorem statement_text : s.statement h.text t = s.write ⟨h.key, h.value.getD []⟩ t := by
  rw [statement, h.isAtRule_text, if_neg (by simp), h.find?_text]

theorem declaration_text : declaration h.text = ⟨h.key, h.value.getD []⟩ := by
  rw [declaration, h.find?_text, Option.getD_some]

theorem enter_text : (s.within names).enter h.text = s.within (names ++ [h.key]) := by
  rw [enter, h.isAtRule_text, if_neg (by simp), h.isValid_text, if_neg (by simp),
    declaration_text, within, within, List.append_assoc]

theorem openBlock_text : s.openBlock h.text t = s.write ⟨h.key, h.value.getD []⟩ t := by
  rw [openBlock, h.isAtRule_text, if_neg (by simp), h.isValid_text, if_neg (by simp),
    declaration_text]

/-- What a heading writes in its blocks is what its declaration writes outside of them. -/
theorem write_within : (s.within names).write ⟨h.key, h.value.getD []⟩ t =
    s.writeAll (h.declared names) t := by
  rcases hv : h.value with _ | value
  · rw [Heading.declared, hv]
    rfl
  · have hjoin := join_append_join ['-'] s.names (List.concat_ne_nil h.key names)
    have hne : value ≠ [] := h.value_ne value hv
    rw [Heading.declared, hv]
    simp [writeAll, write, within, hne, hjoin]

end Scope

/-! ## The two forms -/

namespace Property

mutual

theorem eval_item (property : Property) (s : Scope) (names : List Text) (t : RuleTree) :
    Item.eval (s.within names) property.item t = s.writeAll (property.declared names) t := by
  match property with
  | .plain heading => rw [item, Item.eval, Scope.statement_text, Scope.write_within, declared]
  | .block heading ends body =>
    rw [item, Item.eval, Scope.enter_text, Scope.openBlock_text, Scope.write_within,
      evalAll_items body, declared, Scope.writeAll_append]

/-- **In every scope the nested form writes the declarations of the flat one.** -/
theorem evalAll_items (properties : List Property) (s : Scope) (names : List Text) (t : RuleTree) :
    Item.evalAll (s.within names) (items properties) t =
      s.writeAll (allDeclared names properties) t := by
  match properties with
  | [] => rfl
  | property :: rest =>
    rw [items, Item.evalAll, eval_item property, evalAll_items rest, allDeclared,
      Scope.writeAll_append]

end

mutual

theorem isLegal_item (property : Property) : property.item.isLegal = true := by
  match property with
  | .plain heading => rfl
  | .block heading ends body =>
    rw [item, Item.isLegal, isLegalHeader, heading.opensProperties_text ends, areLegal_items body,
      Bool.or_true]
    rfl

theorem areLegal_items (properties : List Property) : Item.areLegal (items properties) = true := by
  match properties with
  | [] => rfl
  | property :: rest =>
    rw [items, Item.areLegal, isLegal_item property, areLegal_items rest]
    rfl

end

mutual

theorem exists_heading_of_declared (property : Property) {names : List Text}
    (hnames : ∀ name ∈ names, IsName name) : ∀ d ∈ property.declared names,
      ∃ h : Heading, h.key = d.key ∧ h.value = some d.value := by
  have hdeclared : ∀ heading : Heading, ∀ d ∈ heading.declared names,
      ∃ h : Heading, h.key = d.key ∧ h.value = some d.value := by
    intro heading d hd
    obtain ⟨value, hv, rfl⟩ := List.mem_map.mp hd
    have hvalue : heading.value = some value := Option.mem_toList.mp hv
    have hkey : IsName (Text.join ['-'] (names ++ [heading.key])) :=
      isName_join (by simp) (List.forall_mem_append.mpr
        ⟨hnames, List.forall_mem_singleton.mpr heading.isName⟩)
    exact ⟨{ heading with
      key := Text.join ['-'] (names ++ [heading.key])
      isName := hkey }, rfl, hvalue⟩
  match property with
  | .plain heading => exact hdeclared heading
  | .block heading ends body =>
    refine List.forall_mem_append.mpr ⟨hdeclared heading, ?_⟩
    exact exists_heading_of_allDeclared body (List.forall_mem_append.mpr
      ⟨hnames, List.forall_mem_singleton.mpr heading.isName⟩)

/-- A declaration of the flat form is a heading. -/
theorem exists_heading_of_allDeclared (properties : List Property) {names : List Text}
    (hnames : ∀ name ∈ names, IsName name) : ∀ d ∈ allDeclared names properties,
      ∃ h : Heading, h.key = d.key ∧ h.value = some d.value := by
  match properties with
  | [] => exact fun d hd => absurd hd List.not_mem_nil
  | property :: rest =>
    exact List.forall_mem_append.mpr ⟨exists_heading_of_declared property hnames,
      exists_heading_of_allDeclared rest hnames⟩

end

end Property

/-- The statement that writes a declaration. -/
def Declaration.item (d : Declaration) : Item := .statement (declarationText d.key d.value)

section Flat

variable (declarations : List Declaration)

theorem allCuts_map_item : Item.allCuts (declarations.map Declaration.item) =
    declarations.map fun d => (declarationText d.key d.value, .semicolon) := by
  induction declarations with
  | nil => rfl
  | cons d declarations ih =>
    rw [List.map_cons, List.map_cons, Item.allCuts, ih]
    rfl

theorem areLegal_map_item : Item.areLegal (declarations.map Declaration.item) = true := by
  induction declarations with
  | nil => rfl
  | cons d declarations ih => exact ih

theorem evalAll_map_item (s : Scope)
    (hd : ∀ d ∈ declarations, ∃ h : Heading, h.key = d.key ∧ h.value = some d.value)
    (t : RuleTree) :
    Item.evalAll s (declarations.map Declaration.item) t = s.writeAll declarations t := by
  induction declarations generalizing t with
  | nil => rfl
  | cons d declarations ih =>
    obtain ⟨⟨h, hkey, hvalue⟩, hrest⟩ := List.forall_mem_cons.mp hd
    have htext : h.text = declarationText d.key d.value := by rw [Heading.text, hvalue, hkey]
    have hstatement := s.statement_text h t
    rw [htext, hkey, hvalue] at hstatement
    rw [List.map_cons, Item.evalAll, Declaration.item, Item.eval, hstatement]
    exact ih hrest _

end Flat

namespace Builder

/-- Tokens that lay out items have the effect of the items. -/
theorem run_of_cuts {b : Builder} (hb : b.Aligned) {tokens : List Token} {items : List Item}
    (hl : Item.areLegal items = true) (h : tokens.map Token.cut = Item.allCuts items) :
    b.run tokens = .ok { b with tree := Item.evalAll b.scope items b.tree } := by
  have hlaid := laid_of_cuts items h .nil
  rw [List.append_nil, List.append_nil] at hlaid
  exact run_laid hlaid b hb hl

/-- **Nested properties are only notation.** From every reachable builder, tokens of the nested form
of properties and tokens of their flat form, a statement for each value under its full name, are
accepted and lead to the same builder. -/
theorem run_nested {before : List Token} {b : Builder} (hb : run {} before = .ok b)
    (properties : List Property) {nested flat : List Token}
    (hn : nested.map Token.cut = Item.allCuts (Property.items properties))
    (hf : flat.map Token.cut = (Property.allDeclared [] properties).map fun d =>
      (declarationText d.key d.value, .semicolon)) :
    ∃ last, b.run nested = .ok last ∧ b.run flat = .ok last := by
  have haligned := (spread_of_run hb).1
  have hnames : ∀ name ∈ ([] : List Text), IsName name := fun _ h => absurd h List.not_mem_nil
  have heval := Property.evalAll_items properties b.scope [] b.tree
  rw [show b.scope.within [] = b.scope by rw [Scope.within, List.append_nil]] at heval
  rw [← allCuts_map_item] at hf
  refine ⟨_, run_of_cuts haligned (Property.areLegal_items properties) hn, ?_⟩
  rw [run_of_cuts haligned (areLegal_map_item _) hf, heval,
    evalAll_map_item _ _ (Property.exists_heading_of_allDeclared properties hnames)]

/-- Blocks with and without a value, in one another, and values that hold delimiters. -/
def sampleProperties : List Property :=
  [.block { key := "font".toList, value := some "12px".toList } (by decide)
    [.plain { key := "-a-".toList, value := some "@b  ;".toList },
      .block { key := "c_".toList, value := none } (by decide)
        [.plain { key := "d".toList, value := some "e;".toList }]],
    .plain { key := "f".toList, value := none }]

/-- An at-rule, a selector in it and a property block in that, all open. -/
def sampleBlocks : List Token :=
  [⟨"@media print".toList, .openBrace, 0⟩, ⟨"p".toList, .openBrace, 0⟩,
    ⟨"q: r".toList, .openBrace, 0⟩]

/-- The nested form. -/
def sampleNested : List Token :=
  [⟨"font: 12px".toList, .openBrace, 0⟩, ⟨"-a-: @b  ;".toList, .semicolon, 0⟩,
    ⟨"c_:".toList, .openBrace, 0⟩, ⟨"d: e;".toList, .semicolon, 0⟩, ⟨[], .closeBrace, 0⟩,
    ⟨[], .closeBrace, 0⟩, ⟨"f:".toList, .semicolon, 0⟩]

/-- The flat form. -/
def sampleFlat : List Token :=
  [⟨"font: 12px".toList, .semicolon, 0⟩, ⟨"font--a-: @b  ;".toList, .semicolon, 0⟩,
    ⟨"font-c_-d: e;".toList, .semicolon, 0⟩]

theorem run_nested_sampleProperties : ∃ b last : Builder, run {} sampleBlocks = .ok b ∧
    b.run sampleNested = .ok last ∧ b.run sampleFlat = .ok last := by
  have hblocks : ∃ b, run {} sampleBlocks = .ok b := ⟨_, rfl⟩
  obtain ⟨b, hb⟩ := hblocks
  have hn : sampleNested.map Token.cut = Item.allCuts (Property.items sampleProperties) := by
    decide
  have hf : sampleFlat.map Token.cut = (Property.allDeclared [] sampleProperties).map fun d =>
      (declarationText d.key d.value, .semicolon) := by
    decide
  obtain ⟨last, hnested, hflat⟩ := run_nested hb sampleProperties hn hf
  exact ⟨b, last, hb, hnested, hflat⟩

end Builder

end StyleRules.Source

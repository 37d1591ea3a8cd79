import StyleRules.Proofs.Rule.Wording
import StyleRules.Proofs.Source.Declared
import StyleRules.Rule.Render

/-!
# Reading a rendered tree

* `RuleTree.items`: the statements and blocks that a rendered tree is read as;
* `RuleTree.Fenced`: the delimiters of a rendering, and no others, end its tokens;
* **`cuts_render`**: the tokens of a rendered tree are those of its items, at every indentation;
* `Holds`, **`evaluate_items`**: the items of a readable tree evaluate to the tree;
* `written`, `readable`, **`parse_render_of_readable`**: a tree of readable texts is read back from
  its rendering.
-/

namespace StyleRules

open Source Text

/-! ## Rendered entries -/

mutual

/-- The statement or block that a rendered entry is read as. -/
def RuleValue.item (key : Text) : RuleValue → Item
  | .leaf value => .statement (tokenText (declarationText key value))
  | .absent => .statement (tokenText key)
  | .node body => .block (tokenText key) (RuleTree.items body)

/-- The statements and blocks that a rendered tree is read as. -/
def RuleTree.items : RuleTree → List Item
  | [] => []
  | (key, value) :: rest => value.item key :: RuleTree.items rest

end

/-- A text that is one token where a delimiter follows it. -/
def IsPiece (t : Text) : Prop :=
  isCutFree (squeeze t) = true ∧ endsEscaped (squeeze t) = false

mutual

/-- The delimiters of a rendered entry, and no others, end its tokens. -/
def RuleValue.Fenced (key : Text) : RuleValue → Prop
  | .leaf value => IsPiece (declarationText key value)
  | .absent => IsPiece key
  | .node body => isCutFree (squeeze key) = true ∧ RuleTree.Fenced body

/-- The delimiters of a rendered tree, and no others, end its tokens. -/
def RuleTree.Fenced : RuleTree → Prop
  | [] => True
  | (key, value) :: rest => value.Fenced key ∧ RuleTree.Fenced rest

end

theorem RuleTree.fenced_iff {t : RuleTree} :
    t.Fenced ↔ ∀ entry ∈ t, entry.2.Fenced entry.1 := by
  induction t with
  | nil => simp [RuleTree.Fenced]
  | cons entry t ih => simp [RuleTree.Fenced, ih]

section Rendering

variable (indentation : Nat)

theorem isBlank_lineEnd :
    ∀ c ∈ [RuleTree.lineEnd indentation], isBlank c = true := by
  intro c hc
  rw [List.mem_singleton.mp hc, RuleTree.lineEnd]
  split_ifs <;> decide

theorem isBlank_append_margin {lead : Text} (hl : ∀ c ∈ lead, isBlank c = true) (depth : Nat) :
    ∀ c ∈ lead ++ RuleTree.margin indentation depth, isBlank c = true := by
  intro c hc
  rcases List.mem_append.mp hc with hc | hc
  · exact hl c hc
  · rw [List.eq_of_mem_replicate hc]
    rfl

mutual

/-- The tokens of a rendered entry are those of its item. Blanks before it are no text, and the
line end goes to what follows. -/
theorem cuts_renderEntry {key : Text} (value : RuleValue) (h : value.Fenced key) (depth : Nat)
    {lead : Text} (hl : ∀ c ∈ lead, isBlank c = true) (rest : Text) :
    cuts (squeeze (lead ++ RuleTree.renderEntry indentation depth key value ++ rest)) =
      (value.item key).cuts ++ cuts (squeeze (RuleTree.lineEnd indentation :: rest)) := by
  have hlead := isBlank_append_margin indentation hl depth
  match value with
  | .leaf text =>
    have heq : lead ++ RuleTree.renderEntry indentation depth key (.leaf text) ++ rest =
        (lead ++ RuleTree.margin indentation depth) ++ declarationText key text ++
          ';' :: RuleTree.lineEnd indentation :: rest := by
      simp [RuleTree.renderEntry, declarationText]
    rw [heq, cuts_piece hlead h.1 h.2 rfl]
    rfl
  | .absent =>
    have heq : lead ++ RuleTree.renderEntry indentation depth key .absent ++ rest =
        (lead ++ RuleTree.margin indentation depth) ++ key ++
          ';' :: RuleTree.lineEnd indentation :: rest := by
      simp [RuleTree.renderEntry]
    rw [heq, cuts_piece hlead h.1 h.2 rfl]
    rfl
  | .node body =>
    have heq : lead ++ RuleTree.renderEntry indentation depth key (.node body) ++ rest =
        (lead ++ RuleTree.margin indentation depth) ++ key ++ ' ' :: '{' ::
          ([RuleTree.lineEnd indentation] ++
            RuleTree.renderEntries indentation (depth + 1) body ++
            (RuleTree.margin indentation depth ++
              '}' :: RuleTree.lineEnd indentation :: rest)) := by
      simp [RuleTree.renderEntry]
    obtain ⟨lead', hl', hbody⟩ := cuts_renderEntries body h.2 (depth + 1)
      (isBlank_lineEnd indentation)
      (RuleTree.margin indentation depth ++ '}' :: RuleTree.lineEnd indentation :: rest)
    rw [heq, cuts_header hlead h.1, hbody, ← List.append_assoc lead',
      cuts_close (isBlank_append_margin indentation hl' depth)]
    simp [RuleValue.item, Item.cuts]

/-- The tokens of rendered entries are those of their items; what follows keeps some blanks in
front of it. -/
theorem cuts_renderEntries (t : RuleTree) (h : t.Fenced) (depth : Nat) {lead : Text}
    (hl : ∀ c ∈ lead, isBlank c = true) (rest : Text) :
    ∃ lead', (∀ c ∈ lead', isBlank c = true) ∧
      cuts (squeeze (lead ++ RuleTree.renderEntries indentation depth t ++ rest)) =
        Item.allCuts t.items ++ cuts (squeeze (lead' ++ rest)) := by
  match t with
  | [] => exact ⟨lead, hl, by simp [RuleTree.renderEntries, RuleTree.items, Item.allCuts]⟩
  | (key, value) :: t =>
    have hentry := cuts_renderEntry value h.1 depth hl
      (RuleTree.renderEntries indentation depth t ++ rest)
    obtain ⟨lead', hl', heq⟩ := cuts_renderEntries t h.2 depth (isBlank_lineEnd indentation) rest
    refine ⟨lead', hl', ?_⟩
    rw [RuleTree.renderEntries, ← List.append_assoc lead, List.append_assoc _ _ rest, hentry,
      RuleTree.items, Item.allCuts, List.append_assoc, ← heq]
    rfl

end

/-- **The tokens of a rendered tree are those of its items.** -/
theorem cuts_render {t : RuleTree} (ht : t.Fenced) :
    cuts (squeeze (t.render indentation)) = Item.allCuts t.items ++ [([], .endOfText)] := by
  have hnil : ∀ c ∈ ([] : Text), isBlank c = true := fun _ hc => absurd hc List.not_mem_nil
  obtain ⟨lead, hl, heq⟩ := cuts_renderEntries indentation t ht 0 hnil []
  rw [RuleTree.render_eq_renderEntries]
  simpa [cuts_end hl] using heq

end Rendering

/-! ## Readable texts -/

/-- The texts that the delimiters of a rendering keep apart: none holds a delimiter that ends a
token, and none hides the delimiter behind it. -/
def written : Wording where
  property key value := decide (IsDeclared key value) && !endsEscaped value
  statement text := decide (Legible text) && !endsEscaped text
  atRule header := decide (Flush header) && isCutFree header
  selector text := decide (Flush text) && isCutFree text

/-- The texts that are read back as they are written. -/
def readable : Wording where
  property key value := decide (IsDeclared key value) && !endsBlank value && !endsEscaped value
  statement text := decide (Legible text) && !endsEscaped text
  atRule header := decide (Legible header)
  selector text := decide (Legible text) && Selector.isValid text && !isAtRule text

theorem readable_property {key value : Text} (h : readable.property key value = true) :
    IsDeclared key value ∧ endsBlank value = false ∧ endsEscaped value = false := by
  simpa [readable, and_assoc] using h

/-- What is known of a readable selector. -/
theorem readable_selector {key : Text} (h : readable.selector key = true) :
    Legible key ∧ Selector.isValid key = true ∧ isAtRule key = false := by
  simpa [readable, and_assoc] using h

/-- Readable texts are kept apart. -/
theorem readable_entails_written : readable.Entails readable written where
  property h _ := by
    obtain ⟨hd, -, he⟩ := readable_property h
    simp [written, hd, he]
  statement _ h _ := h
  atRule _ h _ := by
    have hl : Legible _ := of_decide_eq_true h
    simp [written, hl.spaced.toFlush, hl.cutFree]
  selector h _ := by
    have hl := (readable_selector h).1
    simp [written, hl.spaced.toFlush, hl.cutFree]

/-- Texts that are kept apart are fenced in a rendering. -/
theorem fenced_of_written {t : RuleTree} (ht : written.admits t = true) : t.Fenced := by
  have hheader : ∀ {key : Text} {body : RuleTree}, written.selector key = true →
      (∀ entry ∈ body, entry.2.Fenced entry.1) → RuleValue.Fenced key (.node body) := by
    intro key body hk hb
    obtain ⟨hflush, hcut⟩ : Flush key ∧ isCutFree key = true := by simpa [written] using hk
    exact ⟨(isCutFree_squeeze hflush.collapse_eq).trans hcut, RuleTree.fenced_iff.mpr hb⟩
  refine RuleTree.fenced_iff.mpr (Wording.forall_mem_of_admits (P := fun key value =>
    value.Fenced key) ?_ ?_ (fun _ _ => hheader) (fun _ _ _ => hheader) ht)
  · intro key value h
    obtain ⟨hd, he⟩ : IsDeclared key value ∧ endsEscaped value = false := by
      simpa [written] using h
    obtain ⟨h1, h2⟩ := isCutFree_declarationText hd.key_name value
    have hsqueeze : squeeze value = value := by
      rw [squeeze, hd.neat.collapse_eq, hd.neat.tighten_eq]
    rw [hsqueeze] at h1 h2
    exact ⟨h1.trans hd.cutFree, h2.trans he⟩
  · intro key _ h
    obtain ⟨hk, he⟩ : Legible key ∧ endsEscaped key = false := by simpa [written] using h
    show IsPiece key
    rw [IsPiece, hk.squeeze_eq]
    exact ⟨hk.cutFree, he⟩

/-! ## Evaluated items -/

/-- A place in a tree: what the target's block becomes, the tree around it kept. -/
def Holds (target : Target) (place : RuleTree → RuleTree) : Prop :=
  ∀ (change : RuleTree → RuleTree) (body : RuleTree),
    target.modify change (place body) = place (change body)

theorem holds_group {t : RuleTree} {name : Text} (h : name ∉ Entries.keys t) :
    Holds (.group name) fun body => t ++ [(name, .node body)] :=
  fun change body => RuleTree.modifyNode_last h body change

theorem holds_rule {t : RuleTree} {selector : Text} (h : selector ∉ Entries.keys t) :
    Holds (.rule none selector) fun body => t ++ [(selector, .node body)] :=
  fun change body => RuleTree.modifyNode_last h body change

theorem holds_groupRule {t done : RuleTree} {name selector : Text} (h : name ∉ Entries.keys t)
    (hs : selector ∉ Entries.keys done) :
    Holds (.rule (some name) selector)
      fun body => t ++ [(name, .node (done ++ [(selector, .node body)]))] := by
  intro change body
  rw [Target.modify, RuleTree.modifyNode_last h, RuleTree.modifyNode_last hs]

theorem not_mem_keys_of_append {done rest : RuleTree} {key : Text} {value : RuleValue}
    (h : Entries.Distinct (done ++ (key, value) :: rest)) : key ∉ Entries.keys done := by
  rw [Entries.Distinct, Entries.keys, List.map_append, List.nodup_append] at h
  exact fun hm => h.2.2 key hm key (by simp) rfl

/-- A property that stands in no property block is written at the end of its place. -/
theorem eval_leaf {s : Scope} (hs : s.names = []) (place : RuleTree → RuleTree)
    (hp : Holds s.target place) {key value : Text} (h : readable.property key value = true)
    {done : RuleTree} (hd : key ∉ Entries.keys done) :
    Item.eval s (RuleValue.item key (.leaf value)) (place done) =
      place (done ++ [(key, .leaf value)]) := by
  obtain ⟨h, he, -⟩ := readable_property h
  have hne : value.isEmpty = false := by simpa using h.value_ne
  rw [RuleValue.item, Item.eval, Scope.statement, isAtRule_declarationText h.key_ne h.key_name,
    if_neg (by simp), find?_declarationText h.key_ne h.key_name h.no_colon, h.tokenText_eq he]
  simp only [Scope.write, hne, hs, List.nil_append, Text.join_singleton]
  rw [if_neg (by simp), hp, Entries.insert_of_not_mem hd]

/-- The properties of a selector are written one after the other. -/
theorem evalAll_rule {s : Scope} (hs : s.names = []) (place : RuleTree → RuleTree)
    (hp : Holds s.target place) {body : RuleTree} (hb : readable.isRule body = true) :
    ∀ done : RuleTree, Entries.Distinct (done ++ body) →
      Item.evalAll s body.items (place done) = place (done ++ body) := by
  induction body with
  | nil => intro done _; simp [RuleTree.items, Item.evalAll]
  | cons entry body ih =>
    intro done hd
    obtain ⟨key, value⟩ := entry
    rw [Wording.isRule_iff] at hb ih
    obtain ⟨text, rfl, hprop⟩ := hb (key, value) List.mem_cons_self
    rw [RuleTree.items, Item.evalAll,
      eval_leaf hs place hp hprop (not_mem_keys_of_append hd),
      ih (fun e he => hb e (List.mem_cons_of_mem _ he)) _ (by simpa using hd)]
    simp

/-- A selector that stands in no selector is written at the end of its group. -/
theorem eval_selector {s : Scope} (hs : s.names = []) (hh : s.headers = [])
    (place : RuleTree → RuleTree) (hg : Holds (.ofGroup s.group) place) {key : Text}
    (hk : readable.selector key = true) {done : RuleTree} (hd : key ∉ Entries.keys done)
    (hr : Holds (.rule s.group key) fun body => place (done ++ [(key, .node body)]))
    {body : RuleTree} (hb : readable.isRule body = true) (hdist : Entries.Distinct body) :
    Item.eval s (RuleValue.item key (.node body)) (place done) =
      place (done ++ [(key, .node body)]) := by
  obtain ⟨hlegible, hv, hat⟩ := readable_selector hk
  have hsel : s.selector key = key := by
    rw [Scope.selector, hh]
    exact normalize_of_spaced hlegible.spaced
  have hopen : s.openBlock key (place done) = place (done ++ [(key, .node [])]) := by
    rw [Scope.openBlock, hat, if_neg (by simp), if_pos hv, hg, hsel,
      RuleTree.modifyNode_of_not_mem hd]
    rfl
  have henter : s.enter key = { s with headers := [key], target := .rule s.group key } := by
    rw [Scope.enter, hat, if_neg (by simp), if_pos hv, hsel, hh]
    rfl
  rw [RuleValue.item, Item.eval, hlegible.tokenText_eq, hopen, henter]
  exact evalAll_rule (s := { s with headers := [key], target := .rule s.group key }) hs _ hr hb []
    hdist

/-- The entries of an at-rule are written one after the other. -/
theorem evalAll_group {s : Scope} (hs : s.names = []) (hh : s.headers = []) {name : Text}
    (hg : s.group = some name) (ht : s.target = .group name) {t : RuleTree}
    (hn : name ∉ Entries.keys t) {body : RuleTree} (hb : readable.isGroup body = true)
    (hk : RuleTree.haveDistinctKeys body = true) :
    ∀ done : RuleTree, Entries.Distinct (done ++ body) →
      Item.evalAll s body.items (t ++ [(name, .node done)]) =
        t ++ [(name, .node (done ++ body))] := by
  induction body with
  | nil => intro done _; simp [RuleTree.items, Item.evalAll]
  | cons entry body ih =>
    intro done hd
    obtain ⟨key, value⟩ := entry
    have hkey := not_mem_keys_of_append hd
    have hplace : Holds (.group name) fun body => t ++ [(name, .node body)] := holds_group hn
    rw [Wording.isGroup, List.all_cons, Bool.and_eq_true] at hb
    rw [RuleTree.haveDistinctKeys, Bool.and_eq_true] at hk
    have hstep : Item.eval s (value.item key) (t ++ [(name, .node done)]) =
        t ++ [(name, .node (done ++ [(key, value)]))] := by
      rcases value with text | inner | _
      · exact eval_leaf hs (fun body => t ++ [(name, .node body)]) (by rwa [ht])
          hb.1 hkey
      · have hsel := Bool.and_eq_true_iff.mp hb.1
        have hinner : RuleTree.hasDistinctKeys inner = true := hk.1
        exact eval_selector hs hh (fun body => t ++ [(name, .node body)])
          (by rwa [hg]) hsel.1 hkey (by rw [hg]; exact holds_groupRule hn hkey) hsel.2
          (RuleTree.hasDistinctKeys_iff.mp hinner).1
      · cases hb.1
    rw [RuleTree.items, Item.evalAll, hstep, ih hb.2 hk.2 _ (by simpa using hd)]
    simp

/-- An at-rule is written at the end of the root, with what stands in it. -/
theorem eval_atRule {key : Text} (hat : isAtRule key = true) (hlegible : Legible key)
    {done : RuleTree} (hd : key ∉ Entries.keys done) {body : RuleTree}
    (hb : readable.isGroup body = true) (hk : RuleTree.haveDistinctKeys body = true)
    (hdist : Entries.Distinct body) :
    Item.eval {} (RuleValue.item key (.node body)) done = done ++ [(key, .node body)] := by
  have hopen : Scope.openBlock {} key done = done ++ [(key, .node [])] := by
    rw [Scope.openBlock, if_pos hat, Entries.insert_of_not_mem hd]
  have henter : Scope.enter {} key = { group := some key, target := .group key } := by
    rw [Scope.enter, if_pos hat]
  rw [RuleValue.item, Item.eval, hlegible.tokenText_eq, hopen, henter]
  exact evalAll_group rfl rfl rfl rfl hd hb hk [] hdist

/-- The entries of the root are written one after the other. -/
theorem evalAll_root {t : RuleTree} (ht : readable.admits t = true)
    (hk : RuleTree.haveDistinctKeys t = true) :
    ∀ done : RuleTree, Entries.Distinct (done ++ t) → Item.evalAll {} t.items done = done ++ t := by
  induction t with
  | nil => intro done _; simp [RuleTree.items, Item.evalAll]
  | cons entry t ih =>
    intro done hd
    obtain ⟨key, value⟩ := entry
    have hkey := not_mem_keys_of_append hd
    have hroot : Holds .root fun body => body := fun _ _ => rfl
    rw [Wording.admits, List.all_cons, Bool.and_eq_true] at ht
    rw [RuleTree.haveDistinctKeys, Bool.and_eq_true] at hk
    have hentry := (Bool.and_eq_true_iff.mp ht.1).2
    have hstep : Item.eval {} (value.item key) done = done ++ [(key, value)] := by
      rcases value with text | body | _
      · exact eval_leaf rfl (fun body => body) hroot hentry hkey
      · have hblock : readable.isBlock key body = true := hentry
        obtain ⟨hdist, hinner⟩ := Bool.and_eq_true_iff.mp hk.1
        rw [Wording.isBlock] at hblock
        split_ifs at hblock with hat
        · obtain ⟨hheader, hgroup⟩ := Bool.and_eq_true_iff.mp hblock
          exact eval_atRule hat (of_decide_eq_true hheader) hkey hgroup hinner
            (of_decide_eq_true hdist)
        · obtain ⟨hsel, hrule⟩ := Bool.and_eq_true_iff.mp hblock
          exact eval_selector (s := {}) rfl rfl (fun body => body) hroot hsel hkey
            (holds_rule hkey) hrule (of_decide_eq_true hdist)
      · obtain ⟨hat, hstatement⟩ := Bool.and_eq_true_iff.mp hentry
        have hlegible : Legible key := of_decide_eq_true (Bool.and_eq_true_iff.mp hstatement).1
        rw [RuleValue.item, Item.eval, hlegible.tokenText_eq, Scope.statement, if_pos hat,
          Entries.insert_of_not_mem hkey]
    rw [RuleTree.items, Item.evalAll, hstep, ih ht.2 hk.2 _ (by simpa using hd)]
    simp

/-- **The items of a flattened tree evaluate to the tree.** -/
theorem evaluate_items {t : RuleTree} (ht : readable.admits t = true)
    (hk : t.hasDistinctKeys = true) : evaluate t.items = t := by
  obtain ⟨hd, hrest⟩ := Bool.and_eq_true_iff.mp hk
  exact evalAll_root ht hrest [] (of_decide_eq_true hd)

/-! ## Reading back -/

theorem areLegal_of_forall {t : RuleTree} (h : ∀ entry ∈ t, (entry.2.item entry.1).isLegal = true) :
    Item.areLegal t.items = true := by
  induction t with
  | nil => rfl
  | cons entry t ih =>
    obtain ⟨key, value⟩ := entry
    rw [RuleTree.items, Item.areLegal, h (key, value) List.mem_cons_self,
      ih fun e he => h e (List.mem_cons_of_mem _ he)]
    rfl

/-- The headers of a readable tree are legal. -/
theorem areLegal_of_readable {t : RuleTree} (ht : readable.admits t = true) :
    Item.areLegal t.items = true := by
  refine areLegal_of_forall (Wording.forall_mem_of_admits (P := fun key value =>
    (value.item key).isLegal = true) (fun _ _ _ => rfl) (fun _ _ _ => rfl) ?_ ?_ ht)
  · intro key body hk hb
    obtain ⟨hlegible, hv, -⟩ := readable_selector hk
    rw [RuleValue.item, Item.isLegal, areLegal_of_forall hb, isLegalHeader, hlegible.tokenText_eq,
      hv]
    simp
  · intro key body hat _ hb
    rw [RuleValue.item, Item.isLegal, areLegal_of_forall hb, isLegalHeader,
      isAtRule_tokenText hat]
    rfl

/-- A tree of readable texts has no empty blocks at its root. -/
theorem pruneEmpty_of_readable {t : RuleTree} (ht : readable.admits t = true) :
    t.pruneEmpty = t := by
  rw [RuleTree.pruneEmpty, List.filter_eq_self]
  intro entry he
  rw [(Wording.admits_iff.mp ht entry he).1]
  rfl

theorem renderEntries_ne_nil (indentation depth : Nat) {t : RuleTree} (ht : t ≠ []) :
    RuleTree.renderEntries indentation depth t ≠ [] := by
  obtain ⟨⟨key, value⟩, rest, rfl⟩ := List.exists_cons_of_ne_nil ht
  rw [RuleTree.renderEntries]
  cases value <;> simp [RuleTree.renderEntry]

/-- Cuts that are those of items lay them out, with an empty statement at the end. -/
theorem laid_of_cuts_eq {t : Text} {items : List Item}
    (hc : cuts t = Item.allCuts items ++ [([], .endOfText)]) :
    Laid (tokens t) (items ++ [.statement []]) := by
  obtain ⟨ts, last, hts, hitems, hlast⟩ := List.map_eq_append_iff.mp hc
  obtain ⟨token, rfl, hcut⟩ := List.map_eq_singleton_iff.mp hlast
  obtain ⟨htext, hd⟩ := Prod.mk.inj hcut
  rw [hts]
  have hstmt : Laid [token] [.statement token.text] := .statement (.inr hd) .nil
  rw [htext] at hstmt
  exact laid_of_cuts items hitems hstmt

/-- Reading starts with items whose cuts are known: the tree is theirs, pruned. -/
theorem parse_of_cuts {text : Text} (hne : text ≠ []) {items : List Item}
    (hl : Item.areLegal items = true)
    (hc : cuts (normalForm text) = Item.allCuts items ++ [([], .endOfText)]) :
    parse text = .ok (if (evaluate items).pruneEmpty.isEmpty then none
      else some (evaluate items).pruneEmpty) := by
  have hlaid := laid_of_cuts_eq hc
  have hlegal : Item.areLegal (items ++ [.statement []]) = true := by
    rw [Item.areLegal_append, hl]
    rfl
  have hrun := Builder.run_laid hlaid {} Builder.aligned_init hlegal
  have heval : Item.evalAll {} (items ++ [.statement []]) [] = evaluate items := by
    rw [Item.evalAll_append]
    rfl
  have hfalse : text.isEmpty = false := by simpa using hne
  rw [parse, hfalse, if_neg (by simp)]
  simp only [build, hrun, Except.bind, Builder.finish]
  have hscope : Item.evalAll (Builder.scope {}) (items ++ [.statement []]) [] = evaluate items :=
    heval
  rw [hscope]
  rfl

theorem normalForm_of_strip_eq {text : Text}
    (h : stripLineComments (stripBlockComments text) = text) : normalForm text = squeeze text := by
  rw [normalForm, h]
  rfl

/-- A tree of readable texts is read back from its entries, rendered at any depth and after any
blanks, if these hold no comments. -/
theorem parse_renderEntries_of_readable {t : RuleTree} (hne : t ≠ [])
    (hk : t.hasDistinctKeys = true) (ht : readable.admits t = true) {indentation depth : Nat}
    {lead : Text} (hl : ∀ c ∈ lead, isBlank c = true)
    (hc : stripLineComments (stripBlockComments (lead ++ t.renderEntries indentation depth)) =
      lead ++ t.renderEntries indentation depth) :
    parse (lead ++ t.renderEntries indentation depth) = .ok (some t) := by
  obtain ⟨lead', hl', hcuts⟩ := cuts_renderEntries indentation t
    (fenced_of_written (readable_entails_written.admits ht ht)) depth hl []
  rw [List.append_nil, List.append_nil, cuts_end hl', ← normalForm_of_strip_eq hc] at hcuts
  have htext : lead ++ t.renderEntries indentation depth ≠ [] := by
    have := renderEntries_ne_nil indentation depth hne
    simp [this]
  have hte : t.isEmpty = false := by simpa using hne
  rw [parse_of_cuts htext (areLegal_of_readable ht) hcuts, evaluate_items ht hk,
    pruneEmpty_of_readable ht, hte]
  rfl

/-- **A tree of readable texts is read back from its rendering**, if this has no comments. -/
theorem parse_render_of_readable {t : RuleTree} (hne : t ≠ []) (hk : t.hasDistinctKeys = true)
    (ht : readable.admits t = true) {indentation : Nat}
    (hc : stripLineComments (stripBlockComments (t.render indentation)) = t.render indentation) :
    parse (t.render indentation) = .ok (some t) := by
  rw [RuleTree.render_eq_renderEntries] at hc ⊢
  exact parse_renderEntries_of_readable hne hk ht (fun c hc => absurd hc List.not_mem_nil) hc

end StyleRules

import StyleRules.Proofs.Pattern.States
import StyleRules.Proofs.Pattern.Words
import StyleRules.Proofs.Text.Spacing

/-!
# Sizes of texts that can be searched for

The automata of a text take 32 bytes for each byte of its words, and between 720 and 1064 bytes for
the blanks between two words.

* `Tally.Takes`: bounds of the bytes of a part of an automaton, from both sides;
* `Form.form_ofWords`: the normal form of some words;
* **`isSearchable_of_le`**, **`le_of_isSearchable`**: the sizes of searchable texts;
* **`isSearchable_of_utf8Size_le`**: every text of 16 kibibytes at most can be searched for;
* **`isSearchable_eq_false`**: no text of 14000 words can.
-/

namespace StyleRules.Pattern

/-! ## Bounds from both sides -/

/-- What is built after the tally `t` takes at least `low` bytes, and it exists and takes at most
`high` bytes if the limit permits them. -/
structure Tally.Takes {β : Type} (t : Tally) (tally : β → Tally) (low high : Nat)
    (result : Option β) : Prop where
  least : ∀ b, result = some b → t.bytes + low ≤ (tally b).bytes
  most : t.Affords tally high result

namespace Tally.Takes

variable {β γ : Type} {t : Tally} {tally : β → Tally} {low high : Nat} {result : Option β}

theorem add? (t : Tally) (n bytes : Nat) :
    t.Takes id (32 * n + bytes) (32 * n + bytes) (t.add? n bytes) := by
  refine ⟨fun u hu => ?_, .add? t n bytes⟩
  rw [Tally.add?] at hu
  split_ifs at hu
  obtain rfl := Option.some.inj hu
  exact (bytes_add t n bytes).ge

theorem mono {low' high' : Nat} (h : t.Takes tally low high result) (hl : low' ≤ low)
    (hh : high ≤ high') : t.Takes tally low' high' result := by
  refine ⟨fun b hb => ?_, fun hlimit => ?_⟩
  · have := h.least b hb
    omega
  · obtain ⟨b, hb, hle⟩ := h.most (by omega)
    exact ⟨b, hb, by omega⟩

theorem bind {tally' : γ → Tally} {low' high' : Nat} {next : β → Option γ}
    (h : t.Takes tally low high result)
    (hnext : ∀ b, (tally b).Takes tally' low' high' (next b)) :
    t.Takes tally' (low + low') (high + high') (result.bind next) := by
  refine ⟨fun c hc => ?_, h.most.bind fun b => (hnext b).most⟩
  obtain ⟨b, hb, hc⟩ := Option.bind_eq_some_iff.mp hc
  have h1 := h.least b hb
  have h2 := (hnext b).least c hc
  omega

theorem map {tally' : γ → Tally} {f : β → γ} (h : t.Takes tally low high result) (n : Nat)
    (hf : ∀ b, (tally' (f b)).bytes = (tally b).bytes + n) :
    t.Takes tally' (low + n) (high + n) (result.map f) := by
  refine ⟨fun c hc => ?_, h.most.map n fun b => (hf b).le⟩
  obtain ⟨b, hb, rfl⟩ := Option.map_eq_some_iff.mp hc
  have h1 := h.least b hb
  have h2 := hf b
  omega

end Tally.Takes

/-! ## The form of some words -/

namespace Form

/-- The form of one blank or more. -/
def gap : Form := times 1 none false (set Text.blankRanges)

/-- The forms of some words and of the blanks between them. -/
def wordForms : List Text → List Form
  | [] => []
  | [w] => [literal w]
  | w :: v :: ws => literal w :: gap :: wordForms (v :: ws)

/-- Some parts in a row. -/
def row : List Form → Form
  | [] => empty
  | [part] => part
  | parts => sequence parts

theorem joined_eq_row (parts : List Form) : joined parts = row (parts.foldr glue []) := by
  rw [joined]
  split <;> simp_all [row]

theorem foldr_glue_chars {w : Text} (hw : w ≠ []) {rest : List Form}
    (hrest : ∀ t others, rest ≠ literal t :: others) :
    (w.map fun c => literal [c]).foldr glue rest = literal w :: rest := by
  induction w with
  | nil => exact absurd rfl hw
  | cons c w ih =>
    rw [List.map_cons, List.foldr_cons]
    rcases w with _ | ⟨d, w⟩
    · show glue (literal [c]) rest = _
      rcases rest with _ | ⟨part, rest⟩
      · rfl
      · cases part with
        | literal t => exact absurd rfl (hrest t rest)
        | _ => rfl
    · rw [ih (List.cons_ne_nil _ _)]
      rfl

theorem form_char (c : Char) : (Regex.char c).form = literal [c] := by
  show ofSpans [(c.toNat, c.toNat)] = _
  rw [ofSpans, if_pos rfl, Char.ofNat_toNat]

theorem forms_eq (rs : List Regex) (fs : List Form) :
    Regex.forms rs fs = fs.reverse ++ rs.map Regex.form := by
  induction rs generalizing fs with
  | nil => simp [Regex.forms]
  | cons r rs ih => simp [Regex.forms, ih]

theorem foldr_glue_wordParts {ws : List Text} (h : ∀ w ∈ ws, w ≠ []) :
    ((Regex.wordParts ws).map Regex.form).foldr glue [] = wordForms ws := by
  induction ws with
  | nil => rfl
  | cons w ws ih =>
    obtain ⟨hw, hws⟩ := List.forall_mem_cons.mp h
    have hchars : (w.map Regex.char).map Regex.form = w.map fun c => literal [c] := by
      rw [List.map_map]
      exact List.map_congr_left fun c _ => form_char c
    rcases ws with _ | ⟨v, ws⟩
    · rw [Regex.wordParts, hchars, foldr_glue_chars hw (by simp), wordForms]
    · have hgap : glue Regex.blanks.form (wordForms (v :: ws)) = gap :: wordForms (v :: ws) := rfl
      rw [Regex.wordParts, List.map_append, hchars, List.foldr_append, List.map_cons,
        List.foldr_cons, ih hws, hgap, foldr_glue_chars hw (by simp [gap]), wordForms]

/-- The form of some words: their literals with blanks between them. -/
theorem form_ofWords {ws : List Text} (h : ∀ w ∈ ws, w ≠ []) :
    (Regex.ofWords ws).form = row (wordForms ws) := by
  have hpart : ∀ part ∈ Regex.wordParts ws, glue part.form [] = [part.form] :=
    Regex.forall_mem_wordParts (P := fun part => glue part.form [] = [part.form])
      (fun c => by rw [form_char]; rfl) rfl ws
  have hseq : ∀ parts : List Regex, (∀ part ∈ parts, glue part.form [] = [part.form]) →
      (Regex.ofParts parts).form = joined (parts.map Regex.form) := by
    intro parts hparts
    rcases parts with _ | ⟨part, _ | ⟨part', parts⟩⟩
    · rfl
    · rw [joined_eq_row, List.map_singleton, List.foldr_cons, List.foldr_nil,
        hparts part List.mem_cons_self]
      rfl
    · rw [Regex.ofParts, Regex.form, forms_eq]
      · rfl
      · intro single
        simp
  rw [Regex.ofWords, hseq _ hpart, joined_eq_row, foldr_glue_wordParts h]

/-! ## The states of some words -/

/-- The bytes of a word, or of the blanks between two words. -/
def partBytes (gapBytes : Nat) : Form → Nat
  | literal w => 32 * w.utf8Size
  | _ => gapBytes

theorem sum_partBytes (gapBytes : Nat) (ws : List Text) :
    ((wordForms ws).map (partBytes gapBytes)).sum =
      32 * (ws.map Text.utf8Size).sum + gapBytes * (ws.length - 1) := by
  induction ws with
  | nil => rfl
  | cons w ws ih =>
    rcases ws with _ | ⟨v, ws⟩
    · simp [wordForms, partBytes]
    · rw [wordForms, List.map_cons, List.map_cons, List.sum_cons, List.sum_cons, ih]
      simp only [partBytes, gap, List.map_cons, List.sum_cons, List.length_cons,
        Nat.add_sub_cancel, Nat.mul_add, Nat.mul_one]
      omega

variable {d : Direction} {low high : Nat}

theorem takes_literal (w : Text) (t : Tally) :
    t.Takes Built.linked (32 * w.utf8Size) (32 * w.utf8Size) ((literal w).build? d t) := by
  rw [build?]
  exact (Tally.Takes.add? t w.utf8Size 0).map 0 fun _ => rfl

theorem takes_gap (h : ∀ t, Tally.Takes t id low high (d.addSet? Text.blankRanges t)) (t : Tally) :
    t.Takes Built.linked (low + 40) (high + 40) (gap.build? d t) := by
  have hbuild : gap.build? d t = (d.addSet? Text.blankRanges t).bind fun t =>
      (t.add? 1 4).map fun t => ⟨t, true⟩ := by
    have hlinked : Built.linked ⟨t, false⟩ = t := rfl
    rw [gap, build?, buildTimes?, Built.exactly?, build?, hlinked]
    rcases d.addSet? Text.blankRanges t with _ | u <;> rfl
  rw [hbuild]
  exact (h t).bind fun u => (Tally.Takes.add? u 1 4).map 4 fun u => Tally.bytes_widen u 4

theorem mem_wordForms {ws : List Text} {part : Form} (h : part ∈ wordForms ws) :
    (∃ w, part = literal w) ∨ part = gap := by
  induction ws with
  | nil => cases h
  | cons w ws ih =>
    rcases ws with _ | ⟨v, ws⟩
    · exact .inl ⟨w, List.mem_singleton.mp h⟩
    · rcases List.mem_cons.mp h with rfl | h
      · exact .inl ⟨w, rfl⟩
      · rcases List.mem_cons.mp h with rfl | h
        · exact .inr rfl
        · exact ih h

theorem takes_part (h : ∀ t, Tally.Takes t id low high (d.addSet? Text.blankRanges t))
    {ws : List Text} {part : Form} (hpart : part ∈ wordForms ws) (t : Tally) :
    t.Takes Built.linked (part.partBytes (low + 40)) (part.partBytes (high + 40))
      (part.build? d t) := by
  obtain ⟨w, rfl⟩ | rfl := mem_wordForms hpart
  · exact takes_literal w t
  · exact takes_gap h t

theorem takes_buildAll? {parts : List Form}
    (h : ∀ part ∈ parts, ∀ t, Tally.Takes t Built.linked (part.partBytes low)
      (part.partBytes high) (part.build? d t)) (b : Built) :
    b.linked.Takes Built.linked (parts.map (partBytes low)).sum (parts.map (partBytes high)).sum
      (buildAll? d parts b) := by
  induction parts generalizing b with
  | nil => exact ⟨by rintro _ ⟨⟩; exact Nat.le_refl _, .of_le (Nat.le_refl _)⟩
  | cons part parts ih =>
    obtain ⟨hpart, hparts⟩ := List.forall_mem_cons.mp h
    have hall := (hpart b.linked).bind (ih hparts)
    rw [buildAll?, List.map_cons, List.sum_cons, List.map_cons, List.sum_cons]
    rcases hbuild : part.build? d b.linked with _ | b' <;> rwa [hbuild] at hall

theorem takes_row {parts : List Form}
    (h : ∀ part ∈ parts, ∀ t, Tally.Takes t Built.linked (part.partBytes low)
      (part.partBytes high) (part.build? d t)) (t : Tally) :
    t.Takes Built.linked (parts.map (partBytes low)).sum (32 + (parts.map (partBytes high)).sum)
      ((row parts).build? d t) := by
  have hall := (takes_buildAll? h ⟨t, false⟩).mono (Nat.le_refl _) (Nat.le_add_left _ 32)
  rcases parts with _ | ⟨part, _ | ⟨part', parts⟩⟩
  · rw [row, build?]
    exact ((Tally.Takes.add? t 1 0).map 0 fun _ => by rfl).mono (by simp) (by simp)
  · rw [buildAll?] at hall
    show t.Takes _ _ _ (part.build? d t)
    have hlinked : Built.linked ⟨t, false⟩ = t := rfl
    rw [hlinked] at hall
    rcases hbuild : part.build? d t with _ | b <;> rw [hbuild] at hall
    · exact hall
    · exact hall
  · exact hall

theorem takes_group {f : Form} {low high : Nat}
    (h : ∀ t, Tally.Takes t Built.linked low high (f.build? d t)) (number : Nat) (t : Tally) :
    t.Takes Built.linked low (high + 64) ((group number f).build? d t) := by
  cases d with
  | forward =>
    rw [build?]
    have hlast : ∀ b : Built, b.linked.Takes Built.linked 32 32 (b.add? 1) := fun b =>
      (Tally.Takes.add? b.linked 1 0).map 0 fun _ => rfl
    exact ((Tally.Takes.add? t 1 0).bind fun u => (h u).bind hlast).mono (by omega) (by omega)
  | backward =>
    rw [build?]
    exact (h t).mono (Nat.le_refl _) (by omega)

/-- The form as it is read. -/
def arranged (d : Direction) (f : Form) : Form :=
  match d with
  | .forward => f
  | .backward => f.reversed

/-- The states of a whole automaton, in the order in which they are built. -/
theorem exists_automaton?_eq (d : Direction) (f : Form) : ∃ isAnchored : Bool, f.automaton? d =
    (if isAnchored then ({} : Tally).add? 1 else ({} : Tally).add? 3 16).bind fun t =>
      ((group 0 (f.arranged d)).build? d t).bind fun b => (b.add? 1).map Built.tally := by
  unfold automaton? arranged
  cases d with
  | forward =>
    refine ⟨f.startsAnchored, ?_⟩
    dsimp only
    rcases (if f.startsAnchored then ({} : Tally).add? 1 else ({} : Tally).add? 3 16) with _ | t
    · rfl
    · dsimp only [Option.bind_some]
      rcases (group 0 f).build? .forward t with _ | b <;> rfl
  | backward =>
    refine ⟨f.endsAnchored, ?_⟩
    dsimp only
    rcases (if f.endsAnchored then ({} : Tally).add? 1 else ({} : Tally).add? 3 16) with _ | t
    · rfl
    · dsimp only [Option.bind_some]
      rcases (group 0 f.reversed).build? .backward t with _ | b <;> rfl

/-- A whole automaton has a few states more than its form, and keeps within the limit. -/
theorem takes_automaton? {f : Form} {low high : Nat}
    (h : ∀ t, Tally.Takes t Built.linked low high ((f.arranged d).build? d t)) :
    Tally.Takes {} id (low + 64) (high + 208) (f.automaton? d) := by
  have hend : ∀ b : Built, b.linked.Takes id 32 32 ((b.add? 1).map Built.tally) := by
    intro b
    rw [Built.add?, Option.map_map]
    exact (Tally.Takes.add? b.linked 1 0).map 0 fun _ => rfl
  obtain ⟨isAnchored, heq⟩ := exists_automaton?_eq d f
  have hstart : Tally.Takes {} id 32 112
      (if isAnchored then ({} : Tally).add? 1 else ({} : Tally).add? 3 16) := by
    cases isAnchored
    · exact (Tally.Takes.add? {} 3 16).mono (by omega) (by omega)
    · exact (Tally.Takes.add? {} 1 0).mono (by omega) (by omega)
  rw [heq]
  exact (hstart.bind fun t => (takes_group h 0 t).bind hend).mono (by omega) (by omega)

theorem bytes_le_of_automaton? {f : Form} {u : Tally} (h : f.automaton? d = some u) :
    u.bytes ≤ Tally.limit := by
  obtain ⟨isAnchored, heq⟩ := exists_automaton?_eq d f
  rw [heq] at h
  obtain ⟨t, -, h⟩ := Option.bind_eq_some_iff.mp h
  obtain ⟨b, -, h⟩ := Option.bind_eq_some_iff.mp h
  rw [Built.add?, Option.map_map] at h
  obtain ⟨u', hu', rfl⟩ := Option.map_eq_some_iff.mp h
  exact Tally.bytes_le_of_add? hu'

theorem reversedAll_eq (parts fs : List Form) :
    reversedAll parts fs = (parts.map reversed).reverse ++ fs := by
  induction parts generalizing fs with
  | nil => rfl
  | cons part parts ih => simp [reversedAll, ih]

theorem row_eq_sequence {parts : List Form} (h : 2 ≤ parts.length) :
    row parts = sequence parts := by
  rcases parts with _ | ⟨part, _ | ⟨part', parts⟩⟩
  · simp at h
  · simp at h
  · rfl

theorem reversed_row {parts : List Form} (h : ∀ part ∈ parts, part.reversed = part) :
    (row parts).reversed = row parts.reverse := by
  have hmap : parts.map reversed = parts := by
    conv_rhs => rw [← List.map_id parts]
    exact List.map_congr_left h
  rcases parts with _ | ⟨part, _ | ⟨part', parts⟩⟩
  · rfl
  · exact h part List.mem_cons_self
  · rw [row_eq_sequence (by simp), row_eq_sequence (by simp), reversed, reversedAll_eq, hmap,
      List.append_nil]

theorem takes_wordForms (h : ∀ t, Tally.Takes t id low high (d.addSet? Text.blankRanges t))
    (ws : List Text) (t : Tally) :
    t.Takes Built.linked (32 * (ws.map Text.utf8Size).sum + (low + 40) * (ws.length - 1))
      (32 + (32 * (ws.map Text.utf8Size).sum + (high + 40) * (ws.length - 1)))
      (((row (wordForms ws)).arranged d).build? d t) := by
  rw [← sum_partBytes, ← sum_partBytes]
  cases d with
  | forward => exact takes_row (fun part hpart => takes_part h hpart) t
  | backward =>
    have hreversed : ∀ part ∈ wordForms ws, part.reversed = part := by
      intro part hpart
      obtain ⟨w, rfl⟩ | rfl := mem_wordForms hpart <;> rfl
    have hparts : ∀ part ∈ (wordForms ws).reverse, ∀ t, Tally.Takes t Built.linked
        (part.partBytes (low + 40)) (part.partBytes (high + 40)) (part.build? .backward t) :=
      fun part hpart => takes_part h (List.mem_reverse.mp hpart)
    have hrow := takes_row hparts t
    rw [List.map_reverse, List.sum_reverse, List.map_reverse, List.sum_reverse] at hrow
    rw [arranged, reversed_row hreversed]
    exact hrow

end Form

/-! ## Searchable texts -/

theorem isAscii_blankRanges : Spans.isAscii Text.blankRanges = false := by decide

/-- There are ten sequences of bytes that make a blank. -/
theorem sequences_blankRanges : Spans.total (Spans.sequences Text.blankRanges) = 24 ∧
    (Spans.sequences Text.blankRanges).length = 10 ∧
    Spans.beginnings (Spans.sequences Text.blankRanges) = 18 := by decide

/-- The bytes that the states of a blank take at least. -/
def leastBlank : Direction → Nat
  | .forward => 0
  | .backward => 680

theorem takes_blank (d : Direction) (t : Tally) :
    t.Takes id (leastBlank d) 1024 (d.addSet? Text.blankRanges t) := by
  obtain ⟨htotal, hlength, hbeginnings⟩ := sequences_blankRanges
  cases d with
  | forward =>
    have hmost := Spans.affords_addForward? isAscii_blankRanges t
    rw [htotal] at hmost
    exact ⟨fun u hu => Spans.bytes_le_of_addForward? isAscii_blankRanges hu, hmost⟩
  | backward =>
    refine ⟨fun u hu => ?_, fun hlimit => ?_⟩
    · have hleast := Spans.bytes_addBackward?_ge isAscii_blankRanges hu
      rw [hlength, hbeginnings] at hleast
      exact hleast
    · have hmost := Spans.affords_addBackward? isAscii_blankRanges t
      rw [htotal, hlength] at hmost
      obtain ⟨u, hu, hle⟩ := hmost (by omega)
      exact ⟨u, hu, by omega⟩

theorem takes_words (d : Direction) (t : Text) :
    Tally.Takes {} id
      (32 * (t.words.map Text.utf8Size).sum + (leastBlank d + 40) * (t.words.length - 1) + 64)
      (32 + (32 * (t.words.map Text.utf8Size).sum + 1064 * (t.words.length - 1)) + 208)
      ((Regex.ofWords t.words).form.automaton? d) := by
  rw [Form.form_ofWords fun w => Text.ne_nil_of_mem_words]
  exact Form.takes_automaton? (Form.takes_wordForms (takes_blank d) t.words)

/-- **A text with few words and few bytes can be searched for.** -/
theorem isSearchable_of_le {t : Text}
    (h : 240 + 32 * (t.words.map Text.utf8Size).sum + 1064 * (t.words.length - 1) ≤ Tally.limit) :
    isSearchable t = true := by
  have hsome : ∀ d, ((Regex.ofWords t.words).form.automaton? d).isSome = true := by
    intro d
    have hzero : Tally.bytes {} = 0 := rfl
    obtain ⟨u, hu, -⟩ := (takes_words d t).most (by omega)
    rw [hu]
    rfl
  rw [isSearchable, Form.fits, hsome, hsome]
  rfl

/-- **A text that can be searched for has few words and few bytes.** -/
theorem le_of_isSearchable {t : Text} (h : isSearchable t = true) :
    64 + 32 * (t.words.map Text.utf8Size).sum + 720 * (t.words.length - 1) ≤ Tally.limit := by
  rw [isSearchable, Form.fits, Bool.and_eq_true] at h
  obtain ⟨u, hu⟩ := Option.isSome_iff_exists.mp h.2
  have hleast := (takes_words .backward t).least u hu
  have hmost := Form.bytes_le_of_automaton? hu
  have hzero : Tally.bytes {} = 0 := rfl
  simp only [id, leastBlank] at hleast
  omega

end StyleRules.Pattern

/-! ## Bytes and words -/

namespace StyleRules.Text

theorem one_le_utf8Size {w : Text} (h : w ≠ []) : 1 ≤ utf8Size w := by
  cases w with
  | nil => exact absurd rfl h
  | cons c w =>
    have := c.utf8Size_pos
    rw [utf8Size_cons]
    omega

/-- Words take their bytes, and a blank stands before each of them but the first. -/
theorem sum_utf8Size_words (t : Text) :
    (t.words.map utf8Size).sum + t.words.length ≤ t.utf8Size + 1 ∧
      (t = [] ∨ startsBlank t = true →
        (t.words.map utf8Size).sum + t.words.length ≤ t.utf8Size) := by
  induction t with
  | nil => simp
  | cons c t ih =>
    have hpos := c.utf8Size_pos
    rw [utf8Size_cons]
    have hstart : isBlank c = false → ¬ (c :: t = [] ∨ startsBlank (c :: t) = true) := by
      simp [startsBlank]
    obtain ⟨-, hw⟩ | ⟨hc, ht, hw⟩ | ⟨hc, -, w, ws, hrest, hw⟩ := words_cons_cases c t
    · rw [hw]
      exact ⟨by omega, fun _ => by omega⟩
    · refine ⟨?_, fun h => absurd h (hstart hc)⟩
      have hle := ih.2 ht
      rw [hw]
      simp only [List.map_cons, List.sum_cons, List.length_cons, utf8Size_cons, utf8Size_nil]
      omega
    · refine ⟨?_, fun h => absurd h (hstart hc)⟩
      have hle := ih.1
      rw [hrest] at hle
      rw [hw]
      simp only [List.map_cons, List.sum_cons, List.length_cons, utf8Size_cons] at hle ⊢
      omega

theorem length_words_le (t : Text) : t.words.length ≤ (t.words.map utf8Size).sum := by
  have h : ∀ ws : List Text, (∀ w ∈ ws, w ≠ []) → ws.length ≤ (ws.map utf8Size).sum := by
    intro ws hws
    induction ws with
    | nil => exact Nat.le_refl _
    | cons w ws ih =>
      obtain ⟨hw, hws⟩ := List.forall_mem_cons.mp hws
      have := one_le_utf8Size hw
      have := ih hws
      rw [List.length_cons, List.map_cons, List.sum_cons]
      omega
  exact h _ fun w => ne_nil_of_mem_words

end StyleRules.Text

namespace StyleRules.Pattern

/-- **Every text of 16 kibibytes at most can be searched for.** -/
theorem isSearchable_of_utf8Size_le {t : Text} (h : t.utf8Size ≤ 16384) :
    isSearchable t = true := by
  have h1 := (Text.sum_utf8Size_words t).1
  have h2 := Text.length_words_le t
  have hlimit : Tally.limit = 10485760 := rfl
  refine isSearchable_of_le ?_
  omega

/-- **No text of 14000 words can be searched for.** -/
theorem isSearchable_eq_false {t : Text} (h : 14000 ≤ t.words.length) : isSearchable t = false := by
  rw [Bool.eq_false_iff]
  intro hsearchable
  have hle := le_of_isSearchable hsearchable
  have hbytes := Text.length_words_le t
  have hlimit : Tally.limit = 10485760 := rfl
  omega

/-- A text of many short words. -/
def sampleCrowd (n : Nat) : Text := Text.join [' '] (List.replicate n ['a'])

theorem sampleCrowd_succ_succ (n : Nat) :
    sampleCrowd (n + 2) = 'a' :: ' ' :: sampleCrowd (n + 1) :=
  Text.join_cons_cons [' '] ['a'] ['a'] (List.replicate n ['a'])

theorem words_sampleCrowd (n : Nat) : (sampleCrowd n).words = List.replicate n ['a'] := by
  induction n with
  | zero => rfl
  | succ n ih =>
    rcases n with _ | n
    · rfl
    · rw [sampleCrowd_succ_succ, Text.words_cons_of_boundary (by decide) (.inr rfl),
        Text.words_cons_of_blank (by decide), ih, ← List.replicate_succ]

theorem mem_sampleCrowd {n : Nat} {c : Char} (h : c ∈ sampleCrowd n) : c = 'a' ∨ c = ' ' := by
  induction n with
  | zero => cases h
  | succ n ih =>
    rcases n with _ | n
    · exact .inl (List.mem_singleton.mp h)
    · rw [sampleCrowd_succ_succ, List.mem_cons, List.mem_cons] at h
      rcases h with rfl | rfl | h
      · exact .inl rfl
      · exact .inr rfl
      · exact ih h

theorem isSearchable_sampleCrowd : isSearchable (sampleCrowd 40000) = false :=
  isSearchable_eq_false (by rw [words_sampleCrowd, List.length_replicate]; omega)

end StyleRules.Pattern

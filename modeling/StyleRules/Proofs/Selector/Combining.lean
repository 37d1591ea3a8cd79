import StyleRules.Proofs.Text.Respacing
import StyleRules.Selector.Pseudo

/-!
# The texts of combined selectors

* `toNat_of_isNameChar`: the name characters, by code point;
* `forall_mem_product`: what nesting keeps holds of all selectors of a path, being normalized in
  particular (`normalize_of_mem_product`);
* **`flush_combine`**: a combined selector has no leading blank, and its blanks are single spaces.
-/

namespace StyleRules.Selector

open Text (isBlank startsBlank endsBlank Flush Spaced)

/-! ## Name characters -/

theorem toNat_of_isNameChar {c : Char} (h : isNameChar c = true) :
    c.toNat = 45 ∨ (48 ≤ c.toNat ∧ c.toNat ≤ 57) ∨ (65 ≤ c.toNat ∧ c.toNat ≤ 90) ∨
      c.toNat = 95 ∨ (97 ≤ c.toNat ∧ c.toNat ≤ 122) := by
  rw [isNameChar] at h
  delta Char.isAlphanum Char.isAlpha Char.isUpper Char.isLower Char.isDigit at h
  simp only [Bool.or_eq_true, Bool.and_eq_true, decide_eq_true_eq, beq_iff_eq,
    UInt32.le_iff_toNat_le, ge_iff_le] at h
  have hval : c.val.toNat = c.toNat := rfl
  rcases h with ((h | h) | rfl) | rfl
  · rcases h with h | h <;> simp [hval] at h <;> omega
  · simp [hval] at h
    omega
  · exact .inr (.inr (.inr (.inl rfl)))
  · exact .inl rfl

theorem isBlank_of_isNameChar {c : Char} (h : isNameChar c = true) :
    isBlank c = false := by
  have hn := toNat_of_isNameChar h
  simp only [isBlank, Text.inRanges, Text.blankRanges, List.any_cons, List.any_nil, Bool.or_false,
    Bool.or_eq_false_iff, Bool.and_eq_false_iff, decide_eq_false_iff_not]
  omega

/-- A name character is none of the others that matter. -/
theorem ne_of_isNameChar {c d : Char} (h : isNameChar c = true)
    (hd : isNameChar d = false) : c ≠ d := by
  rintro rfl
  rw [h] at hd
  cases hd

/-! ## Combined selectors -/

theorem forall_mem_product {p : Text → Prop} {first : Text} {rest : List Text}
    (hfirst : ∀ piece ∈ alternatives first, p (normalize piece))
    (hrest : ∀ segment ∈ rest, ∀ inner ∈ alternatives segment, ∀ outer, p outer →
      p (nest outer inner)) : ∀ s ∈ product first rest, p s := by
  have hstart : ∀ s ∈ (alternatives first).map normalize, p s := List.forall_mem_map.mpr hfirst
  unfold product
  generalize (alternatives first).map normalize = outers at hstart
  induction rest generalizing outers with
  | nil => exact hstart
  | cons segment rest ih =>
    obtain ⟨hsegment, hrest⟩ := List.forall_mem_cons.mp hrest
    refine ih hrest (nestAll outers segment) fun s hs => ?_
    obtain ⟨outer, ho, hs⟩ := List.mem_flatMap.mp hs
    obtain ⟨inner, hi, rfl⟩ := List.mem_map.mp hs
    exact hsegment inner hi outer (hstart outer ho)

theorem normalize_of_mem_product {first : Text} {rest : List Text} :
    ∀ s ∈ product first rest, normalize s = s :=
  forall_mem_product (fun piece _ => normalize_normalize piece)
    fun _ _ _ _ _ _ => normalize_normalize _

/-- Selectors with single spaces, listed, have no leading blank and single spaces. -/
theorem flush_join {pieces : List Text} (h : ∀ piece ∈ pieces, Spaced piece) :
    Flush (Text.join [',', ' '] pieces) := by
  induction pieces with
  | nil => exact ⟨rfl, rfl⟩
  | cons piece pieces ih =>
    obtain ⟨hspaced, hrest⟩ := List.forall_mem_cons.mp h
    cases pieces with
    | nil => simpa using hspaced.toFlush
    | cons next pieces =>
      have hflush := ih hrest
      rw [Text.join_cons_cons]
      refine ⟨?_, ?_⟩
      · by_cases hp : piece = []
        · subst hp
          show isBlank ',' = false
          decide
        · rw [List.append_assoc, Text.startsBlank_append hp, hspaced.starts]
      · rw [Text.collapse_append (.inr hflush.starts), Text.collapse_append (.inr (by decide)),
          hspaced.collapse_eq, hflush.collapse_eq]
        rfl

/-- **A combined selector has no leading blank, and its blanks are single spaces.** -/
theorem flush_combine {path : List Text} {selector : Text} (hs : combine path = some selector) :
    Flush selector := by
  match path with
  | [] => cases hs
  | [segment] =>
    obtain rfl := Option.some.inj hs
    exact (spaced_normalize segment).toFlush
  | first :: second :: rest =>
    obtain rfl := Option.some.inj hs
    exact flush_join fun piece hp =>
      spaced_of_normalize_eq (normalize_of_mem_product piece (List.mem_eraseDups.mp hp))

end StyleRules.Selector

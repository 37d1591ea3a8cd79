import StyleRules.Proofs.Source.Cutting
import StyleRules.Proofs.Text.Bytes

/-!
# Scanning bytes

The scan for delimiters can go by bytes: it passes over a backslash and the byte behind it, even if
that byte is only the first of a character. What is left of such a character holds no byte below
128, so the scan passes over it too and comes out where the character ends. All that it reads off
the text therefore starts and ends between characters.

* `Delimiter.ofByte?`, `scanFrom`, `scan`: the scan over the bytes of a text;
* `IsPlain`, `scanFrom_of_isPlain`: bytes that the scan passes over one by one;
* `scanFrom_plain`, `scanFrom_hidden`, `scanFrom_last`, `scanFrom_delimiter`: what the scan does at
  the start of a character;
* `scanFrom_append`: it goes from character to character;
* **`scan_eq_tokens`**: it finds the tokens of the text.
-/

namespace StyleRules.Source

/-! ## The scan -/

/-- The delimiter that a byte is. -/
def Delimiter.ofByte? (b : UInt8) : Option Delimiter := Delimiter.ofChar? (Char.ofUInt8 b)

/-- The tokens of a text from byte `i` on, if the first of them starts at byte `start`. A backslash
takes the next byte with it. -/
def scanFrom (t : Text) (start i : Nat) : List Token :=
  if h : i < t.bytes.length then
    if t.bytes[i] = '\\'.toUInt8 then scanFrom t start (i + 2)
    else
      match Delimiter.ofByte? t.bytes[i] with
      | some delimiter => ⟨(t.slice start i).trim, delimiter, i⟩ :: scanFrom t (i + 1) (i + 1)
      | none => scanFrom t start (i + 1)
  else [⟨(t.slice start t.bytes.length).trim, .endOfText, t.bytes.length⟩]
termination_by t.bytes.length - i
decreasing_by all_goals omega

/-- **The tokens of a text, found by a scan over its bytes.** -/
def scan (t : Text) : List Token := scanFrom t 0 0

section Steps

variable {t : Text} {start i : Nat}

theorem scanFrom_of_le (h : t.utf8Size ≤ i) :
    scanFrom t start i = [⟨(t.slice start t.utf8Size).trim, .endOfText, t.utf8Size⟩] := by
  rw [← Text.length_bytes] at h ⊢
  rw [scanFrom, dif_neg (Nat.not_lt.mpr h)]

theorem scanFrom_of_backslash (h : t.bytes[i]? = some '\\'.toUInt8) :
    scanFrom t start i = scanFrom t start (i + 2) := by
  obtain ⟨hlt, hb⟩ := List.getElem?_eq_some_iff.mp h
  rw [scanFrom, dif_pos hlt, if_pos hb]

theorem scanFrom_of_ne {b : UInt8} (h : t.bytes[i]? = some b) (hne : b ≠ '\\'.toUInt8) :
    scanFrom t start i = match Delimiter.ofByte? b with
      | some delimiter => ⟨(t.slice start i).trim, delimiter, i⟩ :: scanFrom t (i + 1) (i + 1)
      | none => scanFrom t start (i + 1) := by
  obtain ⟨hlt, rfl⟩ := List.getElem?_eq_some_iff.mp h
  rw [scanFrom, dif_pos hlt, if_neg hne]

end Steps

/-! ## Bytes that are passed over -/

/-- The scan passes over the byte: it is neither a backslash nor a delimiter. -/
def IsPlain (b : UInt8) : Prop := b ≠ '\\'.toUInt8 ∧ Delimiter.ofByte? b = none

theorem scanFrom_of_isPlain {t : Text} {start i : Nat} {passed rest : List UInt8}
    (h : t.bytes.drop i = passed ++ rest) (hplain : ∀ b ∈ passed, IsPlain b) :
    scanFrom t start i = scanFrom t start (i + passed.length) := by
  induction passed generalizing i with
  | nil => rfl
  | cons b passed ih =>
    have hhere : t.bytes[i]? = some b := by rw [← List.head?_drop, h]; rfl
    have hnext : t.bytes.drop (i + 1) = passed ++ rest := by rw [← List.tail_drop, h]; rfl
    obtain ⟨hb, hd⟩ := hplain b List.mem_cons_self
    have hrest := ih hnext fun b hmem => hplain b (List.mem_cons_of_mem _ hmem)
    rw [scanFrom_of_ne hhere hb, hd, hrest, List.length_cons, Nat.add_right_comm, Nat.add_assoc]

theorem isPlain_of_le {b : UInt8} (h : 128 ≤ b.toNat) : IsPlain b := by
  have hne : ∀ c : Char, c.toNat < 128 → Char.ofUInt8 b ≠ c := by
    rintro c hc rfl
    rw [Text.toNat_ofUInt8] at hc
    omega
  refine ⟨?_, ?_⟩
  · rintro rfl
    exact absurd h (by decide)
  · rw [Delimiter.ofByte?, Delimiter.ofChar?, if_neg (hne _ (by decide)),
      if_neg (hne _ (by decide)), if_neg (hne _ (by decide))]

/-- All bytes of a character but the first are passed over. -/
theorem isPlain_of_mem_tail {c : Char} : ∀ b ∈ (String.utf8EncodeChar c).tail, IsPlain b := by
  intro b hb
  rcases Nat.lt_or_ge c.toNat 128 with hlt | hle
  · rw [Text.utf8EncodeChar_of_lt hlt] at hb
    cases hb
  · exact isPlain_of_le (Text.le_of_mem_utf8EncodeChar hle b (List.mem_of_mem_tail hb))

/-- So are those of a character that is neither a backslash nor a delimiter. -/
theorem isPlain_of_mem {c : Char} (hc : c ≠ '\\') (hd : Delimiter.ofChar? c = none) :
    ∀ b ∈ String.utf8EncodeChar c, IsPlain b := by
  intro b hb
  rcases Nat.lt_or_ge c.toNat 128 with hlt | hle
  · rw [Text.utf8EncodeChar_of_lt hlt, List.mem_singleton] at hb
    subst hb
    have hback := Text.ofUInt8_toUInt8 hlt
    refine ⟨fun h => hc ?_, by rw [Delimiter.ofByte?, hback, hd]⟩
    rw [← hback, h]
    rfl
  · exact isPlain_of_le (Text.le_of_mem_utf8EncodeChar hle b hb)

/-! ## From character to character -/

section Characters

variable {t before after : Text} {c : Char} {start : Nat}

theorem getElem?_bytes (h : t = before ++ c :: after) (hc : c.toNat < 128) :
    t.bytes[before.utf8Size]? = some c.toUInt8 := by
  rw [← List.head?_drop, h, Text.drop_bytes_append, Text.bytes_cons, Text.utf8EncodeChar_of_lt hc]
  rfl

theorem scanFrom_plain (h : t = before ++ c :: after) (hc : c ≠ '\\')
    (hd : Delimiter.ofChar? c = none) :
    scanFrom t start before.utf8Size = scanFrom t start (before.utf8Size + c.utf8Size) := by
  have hdrop : t.bytes.drop before.utf8Size = String.utf8EncodeChar c ++ after.bytes := by
    rw [h, Text.drop_bytes_append, Text.bytes_cons]
  rw [scanFrom_of_isPlain hdrop (isPlain_of_mem hc hd), String.length_utf8EncodeChar]

/-- The scan goes on in the middle of a character behind a backslash, and leaves it at its end. -/
theorem scanFrom_hidden (h : t = before ++ '\\' :: c :: after) :
    scanFrom t start before.utf8Size =
      scanFrom t start (before.utf8Size + '\\'.utf8Size + c.utf8Size) := by
  have hdrop : t.bytes.drop (before.utf8Size + 2) =
      (String.utf8EncodeChar c).tail ++ after.bytes := by
    rw [← List.drop_drop, h, Text.drop_bytes_append, Text.bytes_cons, Text.bytes_cons,
      Text.utf8EncodeChar_of_lt (c := '\\') (by decide),
      ← List.tail_append_of_ne_nil String.utf8EncodeChar_ne_nil]
    exact List.drop_one
  have hpos := c.utf8Size_pos
  have hone : '\\'.utf8Size = 1 := rfl
  rw [scanFrom_of_backslash (getElem?_bytes h (by decide)),
    scanFrom_of_isPlain hdrop isPlain_of_mem_tail, List.length_tail, String.length_utf8EncodeChar]
  congr 1
  omega

/-- A backslash at the end of the text takes the scan beyond it. -/
theorem scanFrom_last (h : t = before ++ ['\\']) :
    scanFrom t start before.utf8Size = scanFrom t start (before.utf8Size + '\\'.utf8Size) := by
  have hsize : t.utf8Size = before.utf8Size + '\\'.utf8Size := by rw [h, Text.utf8Size_append]; rfl
  have hone : '\\'.utf8Size = 1 := rfl
  rw [scanFrom_of_backslash (getElem?_bytes h (by decide)), scanFrom_of_le (by omega),
    scanFrom_of_le hsize.le]

theorem scanFrom_delimiter {delimiter : Delimiter} (h : t = before ++ c :: after)
    (hd : Delimiter.ofChar? c = some delimiter) :
    scanFrom t start before.utf8Size =
      ⟨(t.slice start before.utf8Size).trim, delimiter, before.utf8Size⟩ ::
        scanFrom t (before.utf8Size + c.utf8Size) (before.utf8Size + c.utf8Size) := by
  have hc : c.toNat < 128 ∧ c.toUInt8 ≠ '\\'.toUInt8 ∧ c.utf8Size = 1 := by
    rcases delimiter_cases hd with rfl | rfl | rfl <;> decide
  obtain ⟨hlt, hne, hone⟩ := hc
  rw [scanFrom_of_ne (getElem?_bytes h hlt) hne, Delimiter.ofByte?, Text.ofUInt8_toUInt8 hlt, hd,
    hone]

end Characters

/-! ## Tokens -/

theorem modifyHead_prepend_nil (pieces : List Token) :
    pieces.modifyHead (.prepend []) = pieces := by
  cases pieces <;> rfl

theorem modifyHead_prepend_prepend (s front : Text) (pieces : List Token) :
    (pieces.modifyHead (.prepend front)).modifyHead (.prepend s) =
      pieces.modifyHead (.prepend (s ++ front)) := by
  cases pieces <;> simp [Token.prepend]

/-- A scan that started at the end of `before` and has passed over `piece` goes on with the pieces
behind it. -/
theorem scanFrom_append {t after : Text} {offset : Nat} (before piece : Text)
    (ht : t = before ++ piece ++ after) (hoffset : offset = (before ++ piece).utf8Size) :
    scanFrom t before.utf8Size offset =
      ((piecesFrom offset after).modifyHead (.prepend piece)).map Token.trim := by
  fun_induction piecesFrom offset after generalizing before piece with
  | case1 offset =>
    have hslice := Text.slice_append before piece []
    rw [← ht, ← hoffset] at hslice
    have hend : t.utf8Size = offset := by rw [ht, List.append_nil, hoffset]
    rw [scanFrom_of_le hend.le, hend, hslice]
    simp [Token.prepend, Token.trim]
  | case2 offset c after ih =>
    rw [modifyHead_prepend_prepend, ← ih before (piece ++ ['\\', c]) (by simp [ht])
      (by simp [hoffset, Nat.add_assoc]), hoffset]
    exact scanFrom_hidden ht
  | case3 offset c after hne delimiter hd ih =>
    have hslice := Text.slice_append before piece (c :: after)
    rw [← ht] at hslice
    have hrest := ih (before ++ piece ++ [c]) [] (by simp [ht]) (by simp [hoffset, Nat.add_assoc])
    rw [modifyHead_prepend_nil, Text.utf8Size_append, Text.utf8Size_cons, Text.utf8Size_nil,
      Nat.add_zero, ← hoffset] at hrest
    rw [hoffset, scanFrom_delimiter ht hd, hslice, ← hoffset, hrest]
    simp [Token.prepend, Token.trim]
  | case4 offset c after hne hd ih =>
    rw [modifyHead_prepend_prepend, ← ih before (piece ++ [c]) (by simp [ht])
      (by simp [hoffset, Nat.add_assoc]), hoffset]
    -- a backslash that hides nothing stands at the end of the text
    by_cases hc : c = '\\'
    · subst hc
      have hafter : after = [] := by
        cases after with
        | nil => rfl
        | cons d rest => exact absurd rfl (hne d rest rfl)
      subst hafter
      exact scanFrom_last ht
    · exact scanFrom_plain ht hc hd

/-- **A scan over its bytes finds the tokens of a text.** -/
theorem scan_eq_tokens (t : Text) : scan t = tokens t := by
  have hscan := scanFrom_append [] [] (show t = [] ++ [] ++ t from rfl) rfl
  rw [modifyHead_prepend_nil] at hscan
  exact hscan

end StyleRules.Source

import StyleRules.Text.Basic

/-!
# Texts as bytes

* `Text.bytes`: the UTF-8 form of a text;
* `Text.utf8EncodeChar_of_lt`, `Text.le_of_mem_utf8EncodeChar`: a character below 128 is one byte,
  and the bytes of the others are not below 128;
* `Text.takeBytes`, `Text.dropBytes`, `Text.slice`: the part of a text between two byte offsets.
-/

namespace StyleRules.Text

/-! ## Bytes -/

/-- The bytes of a text in UTF-8. -/
def bytes (t : Text) : List UInt8 := t.flatMap String.utf8EncodeChar

@[simp] theorem bytes_cons (c : Char) (t : Text) :
    bytes (c :: t) = String.utf8EncodeChar c ++ bytes t := rfl

@[simp] theorem bytes_append (s t : Text) : bytes (s ++ t) = bytes s ++ bytes t :=
  List.flatMap_append

@[simp] theorem length_bytes (t : Text) : t.bytes.length = t.utf8Size := by
  induction t with
  | nil => rfl
  | cons c t ih =>
    rw [bytes_cons, List.length_append, String.length_utf8EncodeChar, ih, utf8Size_cons]

theorem drop_bytes_append (s t : Text) : (s ++ t).bytes.drop s.utf8Size = t.bytes := by
  rw [bytes_append, ← length_bytes, List.drop_left]

theorem toNat_ofUInt8 (b : UInt8) : (Char.ofUInt8 b).toNat = b.toNat := UInt8.toNat_toUInt32 b

theorem ofUInt8_toUInt8 {c : Char} (h : c.toNat < 128) : Char.ofUInt8 c.toUInt8 = c := by
  have hbyte : c.toUInt8.toNat = c.toNat % 256 := UInt32.toNat_toUInt8 c.val
  rw [← Char.toNat_inj, toNat_ofUInt8, hbyte]
  omega

theorem utf8EncodeChar_of_lt {c : Char} (h : c.toNat < 128) :
    String.utf8EncodeChar c = [c.toUInt8] := by
  fun_cases String.utf8EncodeChar c with
  | case1 v hv => rfl
  | case2 v hv | case3 v hv | case4 v hv =>
    change v < 128 at h
    omega

/-- No byte of a character of several bytes can be taken for a character of its own. -/
theorem le_of_mem_utf8EncodeChar {c : Char} (h : 128 ≤ c.toNat) :
    ∀ b ∈ String.utf8EncodeChar c, 128 ≤ b.toNat := by
  fun_cases String.utf8EncodeChar c with
  | case1 v hv =>
    change 128 ≤ v at h
    omega
  | case2 v hv | case3 v hv | case4 v hv =>
    simp only [List.forall_mem_cons, UInt8.toNat_ofNat', List.not_mem_nil, false_implies,
      implies_true, and_true]
    omega

/-! ## Slices -/

/-- The characters of a text that start before byte `n`. -/
def takeBytes : Nat → Text → Text
  | _, [] => []
  | n, c :: t => if n = 0 then [] else c :: takeBytes (n - c.utf8Size) t

/-- The characters of a text that start at byte `n` or later. -/
def dropBytes : Nat → Text → Text
  | _, [] => []
  | n, c :: t => if n = 0 then c :: t else dropBytes (n - c.utf8Size) t

/-- The part of a text from byte `start` up to byte `stop`. -/
def slice (start stop : Nat) (t : Text) : Text := takeBytes (stop - start) (dropBytes start t)

theorem takeBytes_append (s t : Text) : takeBytes s.utf8Size (s ++ t) = s := by
  induction s with
  | nil => cases t <;> rfl
  | cons c s ih =>
    have hpos := c.utf8Size_pos
    rw [List.cons_append, takeBytes, utf8Size_cons, if_neg (by omega), Nat.add_sub_cancel_left, ih]

theorem dropBytes_append (s t : Text) : dropBytes s.utf8Size (s ++ t) = t := by
  induction s with
  | nil => cases t <;> rfl
  | cons c s ih =>
    have hpos := c.utf8Size_pos
    rw [List.cons_append, dropBytes, utf8Size_cons, if_neg (by omega), Nat.add_sub_cancel_left, ih]

theorem slice_append (before piece after : Text) :
    slice before.utf8Size (before ++ piece).utf8Size (before ++ piece ++ after) = piece := by
  rw [slice, utf8Size_append, Nat.add_sub_cancel_left, List.append_assoc, dropBytes_append,
    takeBytes_append]

end StyleRules.Text

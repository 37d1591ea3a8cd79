import Std.Data.TreeMap
import StyleRules.Pattern.Spans
import StyleRules.Pattern.Utf8

/-!
# Sizes of automata

A pattern is searched by two automata over bytes, one that reads forward and one that reads
backward, each of which may take ten mebibytes. The size of an automaton is counted state by state.

* `Tally`: the states and bytes counted so far, within `Tally.limit`;
* `Shared`: a table of states that may be used again; it has few slots, and a later state takes the
  slot of an earlier one;
* `Spans.addForward?`: the states that read a character of a set, equal endings shared;
* `Spans.addBackward?`: the same backward, equal beginnings shared.
-/

namespace StyleRules.Pattern

/-! ## Counting -/

/-- The states of an automaton so far. A state takes 32 bytes, and more for a list of
successors. -/
structure Tally where
  /-- The number of states; the next state has it as its number. -/
  states : Nat := 0
  /-- The bytes of lists of successors. -/
  lists : Nat := 0
  deriving DecidableEq, Repr

namespace Tally

/-- The bytes that an automaton may take. -/
def limit : Nat := 10485760

/-- The bytes of an automaton. -/
def bytes (t : Tally) : Nat := 32 * t.states + t.lists

/-- The tally with `bytes` more for lists. -/
def widen (t : Tally) (bytes : Nat) : Tally := { t with lists := t.lists + bytes }

/-- The tally with `n` more states that have `bytes` of lists in all, if the limit permits. -/
def add? (t : Tally) (n : Nat) (bytes : Nat := 0) : Option Tally :=
  let t : Tally := ⟨t.states + n, t.lists + bytes⟩
  if t.bytes ≤ limit then some t else none

theorem bytes_le_of_add? {t u : Tally} {n bytes : Nat} (h : t.add? n bytes = some u) :
    u.bytes ≤ limit := by
  simp only [add?] at h
  split at h
  · cases h
    assumption
  · simp at h

end Tally

/-! ## Shared states -/

/-- A link of a state: a range of bytes and the number of the next state. -/
structure Link where
  low : Nat
  high : Nat
  next : Nat
  deriving DecidableEq, Repr

/-- A hash of some numbers: beginning with a fixed number, each is mixed in and the result
multiplied by a prime, modulo `2 ^ 64`. -/
def slotHash (numbers : List Nat) : Nat :=
  let mix (h : UInt64) (n : Nat) : UInt64 := (h ^^^ n.toUInt64) * 1099511628211
  (numbers.foldl mix 14695981039346656037).toNat

/-- A tally with a table of states that may be used again: in each slot the key of a state and its
number. -/
structure Shared (κ : Type) where
  tally : Tally
  slots : Std.TreeMap Nat (κ × Nat) compare := ∅

/-- The number of the state with the given key: the one in its slot, or a new one with `bytes` of
lists, which then takes the slot. -/
def Shared.state? {κ : Type} [DecidableEq κ] (s : Shared κ) (slot : Nat) (key : κ)
    (bytes : Nat) : Option (Nat × Shared κ) :=
  let fresh := (s.tally.add? 1 bytes).map fun tally =>
    (s.tally.states, ⟨tally, s.slots.insert slot (key, s.tally.states)⟩)
  match s.slots[slot]? with
  | some (found, number) => if found = key then some (number, s) else fresh
  | none => fresh

/-! ## Sets of characters -/

namespace Spans

/-- Whether all characters are ASCII characters. -/
def isAscii (s : Spans) : Bool := s.all fun r => r.2 < 0x80

/-- The byte sequences of the characters, in increasing order. -/
def sequences (s : Spans) : List Utf8.ByteSequence := s.flatMap fun r => Utf8.sequences r.1 r.2

/-- The state from which some byte sequences of at most `n` bytes lead to the state `last`. Those
with the same first byte range, which stand side by side, go on together. -/
def addNode? (last : Nat) :
    Nat → List Utf8.ByteSequence → Shared (List Link) → Option (Nat × Shared (List Link))
  | 0, _, s => some (last, s)
  | n + 1, seqs, s =>
    match seqs with
    | [] | [] :: _ => some (last, s)
    | _ =>
      let groups := seqs.splitBy fun a b => a.head? == b.head?
      let step (links : List Link × Shared (List Link)) (group : List Utf8.ByteSequence) :
          Option (List Link × Shared (List Link)) :=
        match group with
        | ((low, high) :: _) :: _ =>
          (addNode? last n (group.map List.tail) links.2).map fun r =>
            (⟨low, high, r.1⟩ :: links.1, r.2)
        | _ => some links
      match groups.foldlM step ([], s) with
      | none => none
      | some (links, s) =>
        let key := links.reverse
        let slot := slotHash (key.flatMap fun l => [l.low, l.high, l.next]) % 10000
        s.state? slot key (8 * key.length)

/-- The tally with the states that read a character forward. ASCII characters need one list
only. -/
def addForward? (s : Spans) (t : Tally) : Option Tally :=
  if s.isAscii then t.add? 2 (8 * s.length)
  else
    match t.add? 1 with
    | none => none
    | some tally => (addNode? t.states 4 s.sequences { tally }).map fun r => r.2.tally

/-- The state before `next` that reads a byte of the range. -/
def addByte? (next : Nat) (range : Nat × Nat) (s : Shared Link) : Option (Nat × Shared Link) :=
  s.state? (slotHash [next, range.1, range.2] % 1000) ⟨range.1, range.2, next⟩ 0

/-- The states that read a byte sequence backward, up to the state `next`, and one more way of the
fork. -/
def addSequence? (next : Nat) (s : Shared Link) (seq : Utf8.ByteSequence) :
    Option (Shared Link) :=
  (seq.foldlM (fun (r : Nat × Shared Link) range => addByte? r.1 range r.2) (next, s)).map
    fun r => { r.2 with tally := r.2.tally.widen 4 }

/-- The tally with the states that read a character backward: its last byte first. A fork leads to
each byte sequence. -/
def addBackward? (s : Spans) (t : Tally) : Option Tally :=
  if s.isAscii then t.add? 2 (8 * s.length)
  else
    match t.add? 2 with
    | none => none
    | some tally =>
      (s.sequences.foldlM (addSequence? (t.states + 1)) { tally }).map Shared.tally

end Spans

end StyleRules.Pattern

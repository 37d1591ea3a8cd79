import Mathlib.Algebra.BigOperators.Ring.List
import Mathlib.Algebra.Ring.Nat
import Mathlib.Data.Finset.Card
import Mathlib.Data.List.SplitBy
import Mathlib.Order.Interval.Finset.Nat
import Mathlib.Tactic.Common
import StyleRules.Pattern.Tally

/-!
# Bytes of the states of a set

* `Tally.Affords`: a part of an automaton that exists if the limit permits a number of bytes;
* `Spans.affords_addForward?`, `Spans.affords_addBackward?`: the states that read a character of a
  set take 40 bytes for each byte of its sequences, and a few more;
* `Shared.Traces`: what the states of a table stand for;
* **`Spans.bytes_addBackward?_ge`**: read backward, different beginnings of sequences share no
  state.
-/

namespace StyleRules.Pattern

/-! ## Bounds from above -/

namespace Tally

@[simp] theorem bytes_widen (t : Tally) (n : Nat) : (t.widen n).bytes = t.bytes + n := by
  simp only [bytes, widen]
  omega

theorem bytes_add (t : Tally) (n bytes : Nat) :
    Tally.bytes ⟨t.states + n, t.lists + bytes⟩ = t.bytes + (32 * n + bytes) := by
  simp only [Tally.bytes]
  omega

theorem eq_of_add? {t u : Tally} {n bytes : Nat} (h : t.add? n bytes = some u) :
    u = ⟨t.states + n, t.lists + bytes⟩ := by
  rw [add?] at h
  split_ifs at h
  exact (Option.some.inj h).symm

theorem bytes_of_add? {t u : Tally} {n bytes : Nat} (h : t.add? n bytes = some u) :
    u.bytes = t.bytes + (32 * n + bytes) := by
  rw [eq_of_add? h, bytes_add]

/-- What is built after the tally `t` exists if the limit permits `n` more bytes, and takes no
more. -/
def Affords {β : Type} (t : Tally) (tally : β → Tally) (n : Nat) (result : Option β) : Prop :=
  t.bytes + n ≤ limit → ∃ b, result = some b ∧ (tally b).bytes ≤ t.bytes + n

namespace Affords

variable {α β γ : Type} {t : Tally} {tally : β → Tally} {n : Nat} {result : Option β}

theorem add? (t : Tally) (n bytes : Nat) : t.Affords id (32 * n + bytes) (t.add? n bytes) := by
  intro hlimit
  rw [Tally.add?, bytes_add, if_pos hlimit]
  exact ⟨_, rfl, (bytes_add t n bytes).le⟩

theorem of_le {b : β} (h : (tally b).bytes ≤ t.bytes + n) : t.Affords tally n (some b) :=
  fun _ => ⟨b, rfl, h⟩

theorem bind {tally' : γ → Tally} {m : Nat} {next : β → Option γ} (h : t.Affords tally n result)
    (hnext : ∀ b, (tally b).Affords tally' m (next b)) :
    t.Affords tally' (n + m) (result.bind next) := by
  intro hlimit
  obtain ⟨b, hb, hle⟩ := h (by omega)
  obtain ⟨c, hc, hle'⟩ := hnext b (by omega)
  exact ⟨c, by rw [hb, Option.bind_some, hc], by omega⟩

/-- What is built later may count some more bytes. -/
theorem map {tally' : γ → Tally} {f : β → γ} (h : t.Affords tally n result) (m : Nat)
    (hf : ∀ b, (tally' (f b)).bytes ≤ (tally b).bytes + m) :
    t.Affords tally' (n + m) (result.map f) := by
  intro hlimit
  obtain ⟨b, hb, hle⟩ := h (by omega)
  have := hf b
  exact ⟨f b, by rw [hb, Option.map_some], by omega⟩

/-- One step for each item of a list. -/
theorem foldlM {step : β → α → Option β} (cost : α → Nat)
    (h : ∀ b a, (tally b).Affords tally (cost a) (step b a)) (items : List α) (b : β) :
    (tally b).Affords tally (items.map cost).sum (items.foldlM step b) := by
  induction items generalizing b with
  | nil => exact .of_le (Nat.le_refl _)
  | cons a items ih =>
    rw [List.map_cons, List.sum_cons, List.foldlM_cons]
    exact (h b a).bind ih

end Affords

end Tally

theorem le_of_foldlM {α β : Type} (measure : β → Nat) {step : β → α → Option β}
    (h : ∀ b a b', step b a = some b' → measure b ≤ measure b') {items : List α} {b b' : β}
    (hfold : items.foldlM step b = some b') : measure b ≤ measure b' := by
  induction items generalizing b with
  | nil => rw [Option.some.inj hfold]
  | cons a items ih =>
    obtain ⟨b₁, hstep, hrest⟩ := Option.bind_eq_some_iff.mp hfold
    exact (h b a b₁ hstep).trans (ih hrest)

/-! ## Shared states -/

/-- A state is found in its slot, or it is new. -/
theorem Shared.state?_cases {κ : Type} [DecidableEq κ] {s s' : Shared κ} {slot : Nat} {key : κ}
    {bytes n : Nat} (h : s.state? slot key bytes = some (n, s')) :
    (s' = s ∧ s.slots[slot]? = some (key, n)) ∨
      (n = s.tally.states ∧ s'.tally = ⟨s.tally.states + 1, s.tally.lists + bytes⟩ ∧
        s'.slots = s.slots.insert slot (key, n)) := by
  have hfresh : ((s.tally.add? 1 bytes).map fun tally =>
      (s.tally.states, (⟨tally, s.slots.insert slot (key, s.tally.states)⟩ : Shared κ))) =
        some (n, s') → n = s.tally.states ∧
          s'.tally = ⟨s.tally.states + 1, s.tally.lists + bytes⟩ ∧
          s'.slots = s.slots.insert slot (key, n) := by
    intro hmap
    obtain ⟨tally, htally, heq⟩ := Option.map_eq_some_iff.mp hmap
    obtain ⟨rfl, rfl⟩ := Prod.mk.inj heq
    exact ⟨rfl, Tally.eq_of_add? htally, rfl⟩
  rw [Shared.state?] at h
  split at h
  · rename_i found number hfound
    split_ifs at h with hkey
    · obtain ⟨rfl, rfl⟩ := Prod.mk.inj (Option.some.inj h)
      exact .inl ⟨rfl, hkey ▸ hfound⟩
    · exact .inr (hfresh h)
  · exact .inr (hfresh h)

theorem Shared.bytes_le_of_state? {κ : Type} [DecidableEq κ] {s : Shared κ} {slot : Nat} {key : κ}
    {bytes : Nat} {r : Nat × Shared κ} (h : s.state? slot key bytes = some r) :
    s.tally.bytes ≤ r.2.tally.bytes := by
  obtain ⟨n, s'⟩ := r
  obtain ⟨rfl, -⟩ | ⟨-, htally, -⟩ := Shared.state?_cases h
  · exact Nat.le_refl _
  · rw [htally, Tally.bytes_add]
    exact Nat.le_add_right _ _

theorem Shared.affords_state? {κ : Type} [DecidableEq κ] (s : Shared κ) (slot : Nat) (key : κ)
    (bytes : Nat) :
    s.tally.Affords (fun r => r.2.tally) (32 + bytes) (s.state? slot key bytes) := by
  have hfresh : s.tally.Affords (fun r : Nat × Shared κ => r.2.tally) (32 + bytes)
      ((s.tally.add? 1 bytes).map fun tally =>
        (s.tally.states, ⟨tally, s.slots.insert slot (key, s.tally.states)⟩)) :=
    (Tally.Affords.add? s.tally 1 bytes).map 0 fun _ => Nat.le_refl _
  rw [Shared.state?]
  split
  · split_ifs
    · exact .of_le (Nat.le_add_right _ _)
    · exact hfresh
  · exact hfresh

namespace Spans

/-- The number of bytes of some byte sequences. -/
def total (seqs : List Utf8.ByteSequence) : Nat := (seqs.map List.length).sum

/-! ## Reading forward -/

theorem total_tails_le (seqs : List Utf8.ByteSequence) :
    total (seqs.map List.tail) ≤ total seqs := by
  induction seqs with
  | nil => exact Nat.le_refl _
  | cons seq seqs ih =>
    simp only [total, List.map_cons, List.sum_cons, List.length_tail] at ih ⊢
    omega

theorem sum_total_splitBy (r : Utf8.ByteSequence → Utf8.ByteSequence → Bool)
    (seqs : List Utf8.ByteSequence) : ((seqs.splitBy r).map total).sum = total seqs := by
  conv_rhs => rw [← List.flatten_splitBy r seqs]
  rw [total, List.map_flatten, List.sum_flatten, List.map_map]
  rfl

/-- The links of a state to come, with that of one more group of byte sequences. -/
def addGroup? (last n : Nat) (links : List Link × Shared (List Link))
    (group : List Utf8.ByteSequence) : Option (List Link × Shared (List Link)) :=
  match group with
  | ((low, high) :: _) :: _ =>
    (addNode? last n (group.map List.tail) links.2).map fun r =>
      (⟨low, high, r.1⟩ :: links.1, r.2)
  | _ => some links

theorem addNode?_of_last {last n : Nat} {seqs : List Utf8.ByteSequence} {s : Shared (List Link)}
    (hseqs : seqs = [] ∨ seqs.head? = some []) :
    addNode? last (n + 1) seqs s = some (last, s) := by
  rcases seqs with _ | ⟨_ | ⟨range, seq⟩, rest⟩ <;> simp_all [addNode?]

theorem addNode?_succ {last n : Nat} {seqs : List Utf8.ByteSequence} {s : Shared (List Link)}
    (hseqs : ¬ (seqs = [] ∨ seqs.head? = some [])) :
    addNode? last (n + 1) seqs s =
      ((seqs.splitBy fun a b => a.head? == b.head?).foldlM (addGroup? last n) ([], s)).bind
        fun r => r.2.state?
          (slotHash (r.1.reverse.flatMap fun l => [l.low, l.high, l.next]) % 10000)
          r.1.reverse (8 * r.1.length) := by
  rw [addNode?.eq_def]
  dsimp only
  split
  · exact absurd (.inl rfl) hseqs
  · exact absurd (.inr rfl) hseqs
  · generalize hr : List.foldlM (m := Option) _ ([], s) (List.splitBy _ seqs) = r
    have hr' : (seqs.splitBy fun a b => a.head? == b.head?).foldlM (addGroup? last n) ([], s) = r :=
      hr
    rw [hr']
    rcases r with _ | ⟨links, s'⟩
    · rfl
    · simp only [Option.bind_some, List.length_reverse]

/-- The tally as if a state had the links already. -/
def pending (links : List Link × Shared (List Link)) : Tally :=
  links.2.tally.widen (8 * links.1.length)

theorem affords_addGroup? {last n : Nat}
    (ih : ∀ seqs s, Tally.Affords s.tally (fun r => r.2.tally) (32 + 40 * total seqs)
      (addNode? last n seqs s)) (links : List Link × Shared (List Link))
    (group : List Utf8.ByteSequence) :
    (pending links).Affords pending (40 * total group) (addGroup? last n links group) := by
  rcases group with _ | ⟨_ | ⟨⟨low, high⟩, seq⟩, rest⟩
  · exact .of_le (Nat.le_add_right _ _)
  · exact .of_le (Nat.le_add_right _ _)
  · intro hlimit
    have htotal : total (((low, high) :: seq) :: rest) = seq.length + 1 + total rest := rfl
    have htails : total ((((low, high) :: seq) :: rest).map List.tail) =
        seq.length + total (rest.map List.tail) := rfl
    have hrest := total_tails_le rest
    simp only [pending, Tally.bytes_widen] at hlimit ⊢
    obtain ⟨r, hr, (hle : r.2.tally.bytes ≤ _)⟩ :=
      ih ((((low, high) :: seq) :: rest).map List.tail) links.2 (by omega)
    refine ⟨_, by rw [addGroup?, hr, Option.map_some], ?_⟩
    simp only [List.length_cons]
    omega

theorem affords_addNode? (last n : Nat) (seqs : List Utf8.ByteSequence) (s : Shared (List Link)) :
    s.tally.Affords (fun r => r.2.tally) (32 + 40 * total seqs) (addNode? last n seqs s) := by
  induction n generalizing seqs s with
  | zero =>
    rw [addNode?]
    exact .of_le (Nat.le_add_right _ _)
  | succ n ih =>
    by_cases hseqs : seqs = [] ∨ seqs.head? = some []
    · rw [addNode?_of_last hseqs]
      exact .of_le (Nat.le_add_right _ _)
    · have hlinks := Tally.Affords.foldlM (fun group => 40 * total group) (affords_addGroup? ih)
        (seqs.splitBy fun a b => a.head? == b.head?) ([], s)
      rw [List.sum_map_mul_left (r := 40) (f := total), sum_total_splitBy] at hlinks
      rw [addNode?_succ hseqs, Nat.add_comm]
      refine Tally.Affords.bind hlinks fun r hlimit => ?_
      simp only [pending, Tally.bytes_widen] at hlimit ⊢
      obtain ⟨r', hr', (hle : r'.2.tally.bytes ≤ _)⟩ := r.2.affords_state? (slotHash
        (r.1.reverse.flatMap fun l => [l.low, l.high, l.next]) % 10000) r.1.reverse
        (8 * r.1.length) (by omega)
      exact ⟨r', hr', by omega⟩

theorem bytes_le_of_addGroup? {last n : Nat} {links links' : List Link × Shared (List Link)}
    {group : List Utf8.ByteSequence}
    (ih : ∀ {seqs s r}, addNode? last n seqs s = some r → s.tally.bytes ≤ r.2.tally.bytes)
    (h : addGroup? last n links group = some links') :
    links.2.tally.bytes ≤ links'.2.tally.bytes := by
  rcases group with _ | ⟨_ | ⟨⟨low, high⟩, seq⟩, rest⟩
  · rw [Option.some.inj h]
  · rw [Option.some.inj h]
  · obtain ⟨r, hr, rfl⟩ := Option.map_eq_some_iff.mp h
    exact ih hr

theorem bytes_le_of_addNode? {last n : Nat} {seqs : List Utf8.ByteSequence}
    {s : Shared (List Link)} {r : Nat × Shared (List Link)} (h : addNode? last n seqs s = some r) :
    s.tally.bytes ≤ r.2.tally.bytes := by
  induction n generalizing seqs s r with
  | zero =>
    obtain rfl := Option.some.inj h
    exact Nat.le_refl _
  | succ n ih =>
    by_cases hseqs : seqs = [] ∨ seqs.head? = some []
    · rw [addNode?_of_last hseqs] at h
      obtain rfl := Option.some.inj h
      exact Nat.le_refl _
    · rw [addNode?_succ hseqs] at h
      obtain ⟨links, hlinks, hstate⟩ := Option.bind_eq_some_iff.mp h
      refine Nat.le_trans ?_ (Shared.bytes_le_of_state? hstate)
      exact le_of_foldlM (fun links => links.2.tally.bytes)
        (fun _ _ _ => bytes_le_of_addGroup? ih) hlinks

theorem bytes_le_of_addForward? {s : Spans} (hs : s.isAscii = false) {t u : Tally}
    (h : s.addForward? t = some u) : t.bytes ≤ u.bytes := by
  rw [addForward?, if_neg (by simp [hs])] at h
  rcases hadd : t.add? 1 with _ | tally <;> rw [hadd] at h
  · cases h
  · obtain ⟨r, hr, rfl⟩ := Option.map_eq_some_iff.mp h
    have hnodes : tally.bytes ≤ r.2.tally.bytes := bytes_le_of_addNode? hr
    have hone := Tally.bytes_of_add? hadd
    omega

theorem affords_addForward? {s : Spans} (hs : s.isAscii = false) (t : Tally) :
    t.Affords id (64 + 40 * total s.sequences) (s.addForward? t) := by
  have hnodes : ∀ tally : Tally, tally.Affords id (32 + 40 * total s.sequences)
      ((addNode? t.states 4 s.sequences { tally }).map fun r => r.2.tally) := fun tally =>
    (affords_addNode? t.states 4 s.sequences { tally }).map 0 fun _ => Nat.le_refl _
  have hall := (Tally.Affords.add? t 1 0).bind hnodes
  rw [← Nat.add_assoc] at hall
  rw [addForward?, if_neg (by simp [hs])]
  rcases hadd : t.add? 1 with _ | tally <;> rwa [hadd] at hall

/-! ## Reading backward -/

theorem affords_addByte? (r : Nat × Shared Link) (range : Nat × Nat) :
    r.2.tally.Affords (fun r => r.2.tally) 32 (addByte? r.1 range r.2) :=
  r.2.affords_state? _ _ 0

theorem affords_addSequence? (next : Nat) (s : Shared Link) (seq : Utf8.ByteSequence) :
    s.tally.Affords Shared.tally (32 * seq.length + 4) (addSequence? next s seq) := by
  have hbytes := Tally.Affords.foldlM (fun _ => 32) affords_addByte? seq (next, s)
  rw [List.map_const', List.sum_replicate_nat, Nat.mul_comm] at hbytes
  exact hbytes.map 4 fun r => (Tally.bytes_widen r.2.tally 4).le

theorem affords_addBackward? {s : Spans} (hs : s.isAscii = false) (t : Tally) :
    t.Affords id (64 + (32 * total s.sequences + 4 * s.sequences.length)) (s.addBackward? t) := by
  have hsum : (s.sequences.map fun seq => 32 * seq.length + 4).sum =
      32 * total s.sequences + 4 * s.sequences.length := by
    rw [total, List.sum_map_add, List.sum_map_mul_left, List.map_const', List.sum_replicate_nat,
      Nat.mul_comm 4]
  have hseqs : ∀ tally : Tally, tally.Affords id
      (32 * total s.sequences + 4 * s.sequences.length)
      ((s.sequences.foldlM (addSequence? (t.states + 1)) { tally }).map Shared.tally) := by
    intro tally
    rw [← hsum]
    exact (Tally.Affords.foldlM _ (affords_addSequence? (t.states + 1)) _ { tally }).map 0
      fun _ => Nat.le_refl _
  have hall := (Tally.Affords.add? t 2 0).bind hseqs
  rw [addBackward?, if_neg (by simp [hs])]
  rcases hadd : t.add? 2 with _ | tally <;> rwa [hadd] at hall

end Spans

/-! ## Beginnings of byte sequences -/

namespace Shared

/-- The state of every slot stands for a beginning of a byte sequence, its last range first: the
beginning for which the state after it stands, and its own range. -/
def Traces (s : Shared Link) (path : Nat → Utf8.ByteSequence) : Prop :=
  ∀ (slot : Nat) (key : Link) (n : Nat), s.slots[slot]? = some (key, n) →
    n < s.tally.states ∧ key.next < s.tally.states ∧
      path n = (key.low, key.high) :: path key.next

/-- There are more states, and the old ones stand for what they stood for. -/
structure Grows (s s' : Shared Link) (path path' : Nat → Utf8.ByteSequence) : Prop where
  states_le : s.tally.states ≤ s'.tally.states
  path_eq : ∀ n < s.tally.states, path' n = path n

theorem Grows.refl (s : Shared Link) (path : Nat → Utf8.ByteSequence) : Grows s s path path :=
  ⟨Nat.le_refl _, fun _ _ => rfl⟩

theorem Grows.trans {s s' s'' : Shared Link} {path path' path'' : Nat → Utf8.ByteSequence}
    (h : Grows s s' path path') (h' : Grows s' s'' path' path'') : Grows s s'' path path'' := by
  refine ⟨h.states_le.trans h'.states_le, fun n hn => ?_⟩
  rw [h'.path_eq n (hn.trans_le h.states_le), h.path_eq n hn]

end Shared

namespace Spans

open Shared (Traces Grows)

/-- One more byte is read in a state that stands for one more range. -/
theorem traces_addByte? {s s' : Shared Link} {path : Nat → Utf8.ByteSequence} {n n' : Nat}
    {range : Nat × Nat} (h : s.Traces path) (hn : n < s.tally.states)
    (hadd : addByte? n range s = some (n', s')) :
    ∃ path', s'.Traces path' ∧ s.Grows s' path path' ∧ s'.tally.lists = s.tally.lists ∧
      n' < s'.tally.states ∧ path' n' = range :: path n := by
  obtain ⟨rfl, hslot⟩ | ⟨rfl, htally, hslots⟩ := Shared.state?_cases hadd
  · obtain ⟨hlt, -, hpath⟩ := h _ _ _ hslot
    exact ⟨path, h, .refl _ _, rfl, hlt, hpath⟩
  · have hold : ∀ m < s.tally.states,
        Function.update path s.tally.states (range :: path n) m = path m :=
      fun m hm => Function.update_of_ne (Nat.ne_of_lt hm) _ _
    have hstates : s'.tally.states = s.tally.states + 1 := by rw [htally]
    refine ⟨Function.update path s.tally.states (range :: path n), ?_, ⟨by omega, hold⟩,
      by rw [htally]; rfl, by omega, Function.update_self ..⟩
    intro slot key m hm
    rw [hslots, Std.TreeMap.getElem?_insert] at hm
    split_ifs at hm
    · obtain ⟨rfl, rfl⟩ := Prod.mk.inj (Option.some.inj hm)
      rw [Function.update_self, hold n hn]
      exact ⟨by omega, show n < _ by omega, rfl⟩
    · obtain ⟨h1, h2, h3⟩ := h slot key m hm
      rw [hold m h1, hold _ h2]
      exact ⟨by omega, by omega, h3⟩

theorem traces_foldlM_addByte? {seq : Utf8.ByteSequence} {s s' : Shared Link}
    {path : Nat → Utf8.ByteSequence} {n n' : Nat} (h : s.Traces path) (hn : n < s.tally.states)
    (hadd : seq.foldlM (fun (r : Nat × Shared Link) range => addByte? r.1 range r.2) (n, s) =
      some (n', s')) :
    ∃ path', s'.Traces path' ∧ s.Grows s' path path' ∧ s'.tally.lists = s.tally.lists ∧
      ∀ q, q <+: seq → ∃ m < s'.tally.states, path' m = q.reverse ++ path n := by
  induction seq generalizing s path n with
  | nil =>
    obtain ⟨rfl, rfl⟩ := Prod.mk.inj (Option.some.inj hadd)
    refine ⟨path, h, .refl _ _, rfl, fun q hq => ⟨n, hn, ?_⟩⟩
    rw [List.prefix_nil.mp hq, List.reverse_nil, List.nil_append]
  | cons range seq ih =>
    obtain ⟨⟨n₁, s₁⟩, hbyte, hrest⟩ := Option.bind_eq_some_iff.mp hadd
    obtain ⟨path₁, h₁, hgrows, hlists, hn₁, hpath⟩ := traces_addByte? h hn hbyte
    obtain ⟨path', h', hgrows', hlists', hall⟩ := ih h₁ hn₁ hrest
    refine ⟨path', h', hgrows.trans hgrows', hlists'.trans hlists, fun q hq => ?_⟩
    rcases q with _ | ⟨first, q⟩
    · exact ⟨n, hn.trans_le (hgrows.trans hgrows').states_le, (hgrows.trans hgrows').path_eq n hn⟩
    · obtain ⟨rfl, hrest⟩ := List.cons_prefix_cons.mp hq
      obtain ⟨m, hm, hpath'⟩ := hall q hrest
      refine ⟨m, hm, ?_⟩
      rw [hpath', hpath, List.reverse_cons, List.append_assoc, List.singleton_append]

theorem traces_foldlM_addSequence? {seqs : List Utf8.ByteSequence} {s s' : Shared Link}
    {path : Nat → Utf8.ByteSequence} {next : Nat} (h : s.Traces path)
    (hnext : next < s.tally.states) (hadd : seqs.foldlM (addSequence? next) s = some s') :
    ∃ path', s'.Traces path' ∧ s.Grows s' path path' ∧
      s'.tally.lists = s.tally.lists + 4 * seqs.length ∧
      ∀ seq ∈ seqs, ∀ q, q <+: seq → ∃ m < s'.tally.states, path' m = q.reverse ++ path next := by
  induction seqs generalizing s path with
  | nil =>
    obtain rfl := Option.some.inj hadd
    exact ⟨path, h, .refl _ _, rfl, fun seq hseq => absurd hseq List.not_mem_nil⟩
  | cons seq seqs ih =>
    obtain ⟨s₁, hseq, hrest⟩ := Option.bind_eq_some_iff.mp hadd
    obtain ⟨⟨n, s₀⟩, hbytes, rfl⟩ := Option.map_eq_some_iff.mp hseq
    obtain ⟨path₁, h₁, hgrows, hlists, hall⟩ := traces_foldlM_addByte? h hnext hbytes
    have hgrows₁ : s.Grows { s₀ with tally := s₀.tally.widen 4 } path path₁ := ⟨hgrows.1, hgrows.2⟩
    obtain ⟨path', h', hgrows', hlists', hall'⟩ :=
      ih (s := { s₀ with tally := s₀.tally.widen 4 }) h₁ (hnext.trans_le hgrows.states_le) hrest
    refine ⟨path', h', hgrows₁.trans hgrows', ?_, ?_⟩
    · rw [hlists', List.length_cons]
      show s₀.tally.lists + 4 + _ = _
      omega
    · rintro seq' hseq' q hq
      rcases List.mem_cons.mp hseq' with rfl | hseq'
      · obtain ⟨m, hm, hpath⟩ := hall q hq
        exact ⟨m, hm.trans_le hgrows'.states_le, by rw [hgrows'.path_eq m hm, hpath]⟩
      · obtain ⟨m, hm, hpath⟩ := hall' seq' hseq' q hq
        exact ⟨m, hm, by rw [hpath, hgrows₁.path_eq next hnext]⟩

/-- The number of beginnings of some byte sequences, without the empty one. -/
def beginnings (seqs : List Utf8.ByteSequence) : Nat :=
  ((seqs.flatMap List.inits).toFinset.erase []).card

/-- **Different beginnings share no state**: each takes one of its own. -/
theorem bytes_addBackward?_ge {s : Spans} (hs : s.isAscii = false) {t u : Tally}
    (h : s.addBackward? t = some u) :
    t.bytes + (64 + (32 * beginnings s.sequences + 4 * s.sequences.length)) ≤ u.bytes := by
  rw [addBackward?, if_neg (by simp [hs])] at h
  rcases hadd : t.add? 2 with _ | tally <;> rw [hadd] at h
  · cases h
  obtain rfl := Tally.eq_of_add? hadd
  obtain ⟨s', hfold, rfl⟩ := Option.map_eq_some_iff.mp h
  have hempty : Shared.Traces { tally := ⟨t.states + 2, t.lists⟩ } fun _ => [] := by
    intro slot key n hslot
    simp at hslot
  obtain ⟨path, -, hgrows, hlists, hall⟩ :=
    traces_foldlM_addSequence? hempty (Nat.lt_succ_self _) hfold
  -- each beginning has a state of its own, none of them older than the sequences
  have hsurj : Set.SurjOn (fun m => (path m).reverse) (Finset.Ico (t.states + 2) s'.tally.states)
      ((s.sequences.flatMap List.inits).toFinset.erase []) := by
    intro q hq
    simp only [Finset.coe_erase, List.coe_toFinset, Set.mem_sdiff, Set.mem_ofPred_eq,
      List.mem_flatMap, List.mem_inits, Set.mem_singleton_iff] at hq
    obtain ⟨⟨seq, hseq, hbegins⟩, hne⟩ := hq
    obtain ⟨m, hm, hpath⟩ := hall seq hseq q hbegins
    refine ⟨m, ?_, by simp [hpath]⟩
    rw [Finset.coe_Ico, Set.mem_Ico]
    refine ⟨?_, hm⟩
    by_contra hlt
    have hold := hgrows.path_eq m (by simpa using hlt)
    rw [hpath, List.append_nil, List.reverse_eq_nil_iff] at hold
    exact hne hold
  have hcard := Finset.card_le_card_of_surjOn _ hsurj
  rw [Nat.card_Ico] at hcard
  have hle : t.states + 2 ≤ s'.tally.states := hgrows.states_le
  have hlists' : s'.tally.lists = t.lists + 4 * s.sequences.length := hlists
  simp only [Tally.bytes, beginnings]
  omega

end Spans

end StyleRules.Pattern

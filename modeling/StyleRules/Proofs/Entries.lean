import Mathlib.Data.List.Nodup
import Mathlib.Data.List.Perm.Subperm
import Mathlib.Tactic.Common
import StyleRules.Entries

/-!
# Entries up to order

* `Entries.mem_iff_get?`: with distinct keys, an entry is what is found under its key;
* `Entries.forall_mem_congr`: two lists of entries with the same keys;
* `Entries.get?_map`, `Entries.keys_map`: all values changed alike;
* `Entries.insert_of_not_mem`, `Entries.insert_last`: a new key, and the key at the end;
* `Entries.insert_of_get?`: writing what is there changes nothing;
* `Entries.eq_of_get?_eq`, `Entries.eq_of_keys_sublist`: entries are given by the order of their
  keys and by what is found there;
* `Entries.KeepsOrder`, `Entries.KeepsOrder.trans`: the keys that stay keep their order, the new
  ones follow;
* `Entries.Agree`: the same keys, with related values;
* **`Entries.agree_iff`**: agreement is seen from one side, if the numbers of entries are equal.
-/

namespace StyleRules.Entries

variable {α : Type}

instance (e : Entries α) : Decidable e.Distinct := inferInstanceAs (Decidable e.keys.Nodup)

theorem Distinct.tail {entry : Text × α} {e : Entries α} (h : Distinct (entry :: e)) :
    Distinct e := (List.nodup_cons.mp h).2

theorem Distinct.head_not_mem {entry : Text × α} {e : Entries α} (h : Distinct (entry :: e)) :
    entry.1 ∉ e.keys := (List.nodup_cons.mp h).1

theorem get?_eq_none_of_not_mem {e : Entries α} {key : Text} (h : key ∉ e.keys) :
    e.get? key = none := by
  rw [mem_keys_iff] at h
  simpa using h

theorem mem_of_get? {e : Entries α} {key : Text} {value : α} (h : e.get? key = some value) :
    (key, value) ∈ e := by
  induction e with
  | nil => cases h
  | cons entry e ih =>
    obtain ⟨k, v⟩ := entry
    rw [get?_cons] at h
    split_ifs at h with hk
    · obtain rfl := Option.some.inj h
      rw [hk]
      exact List.mem_cons_self
    · exact List.mem_cons_of_mem _ (ih h)

/-- With distinct keys, an entry is what is found under its key. -/
theorem mem_iff_get? {e : Entries α} (h : e.Distinct) {key : Text} {value : α} :
    (key, value) ∈ e ↔ e.get? key = some value := by
  refine ⟨fun hm => ?_, mem_of_get?⟩
  induction e with
  | nil => cases hm
  | cons entry e ih =>
    obtain ⟨k, v⟩ := entry
    rw [get?_cons]
    rcases List.mem_cons.mp hm with heq | hm
    · obtain ⟨rfl, rfl⟩ := Prod.mk.inj heq
      rw [if_pos rfl]
    · have hne : k ≠ key := by
        rintro rfl
        exact h.head_not_mem (List.mem_map.mpr ⟨(k, value), hm, rfl⟩)
      rw [if_neg hne, ih h.tail hm]

/-- What is said of all entries of one list and of another one with the same keys is equivalent if
it is under each key. -/
theorem forall_mem_congr {β : Type} {a : Entries α} {b : Entries β} (ha : a.Distinct)
    (hkeys : a.keys.Perm b.keys) {p : Text → α → Prop} {q : Text → β → Prop}
    (h : ∀ key u v, a.get? key = some u → b.get? key = some v → (p key u ↔ q key v)) :
    (∀ entry ∈ a, p entry.1 entry.2) ↔ ∀ entry ∈ b, q entry.1 entry.2 := by
  have hb : b.Distinct := hkeys.nodup ha
  constructor
  · intro hall entry he
    have hkey : entry.1 ∈ a.keys := hkeys.mem_iff.mpr (List.mem_map.mpr ⟨entry, he, rfl⟩)
    obtain ⟨u, hu⟩ := Option.isSome_iff_exists.mp (mem_keys_iff.mp hkey)
    exact (h _ u _ hu ((mem_iff_get? hb).mp he)).mp (hall _ (mem_of_get? hu))
  · intro hall entry he
    have hkey : entry.1 ∈ b.keys := hkeys.mem_iff.mp (List.mem_map.mpr ⟨entry, he, rfl⟩)
    obtain ⟨v, hv⟩ := Option.isSome_iff_exists.mp (mem_keys_iff.mp hkey)
    exact (h _ _ v ((mem_iff_get? ha).mp he) hv).mpr (hall _ (mem_of_get? hv))

theorem mem_insert {e : Entries α} {key : Text} {value : α} {entry : Text × α}
    (h : entry ∈ e.insert key value) : entry = (key, value) ∨ entry ∈ e := by
  induction e with
  | nil => exact .inl (List.mem_singleton.mp h)
  | cons first e ih =>
    obtain ⟨k, v⟩ := first
    rw [insert] at h
    split_ifs at h with hk
    · rcases List.mem_cons.mp h with rfl | h
      · exact .inl (by rw [hk])
      · exact .inr (List.mem_cons_of_mem _ h)
    · rcases List.mem_cons.mp h with rfl | h
      · exact .inr List.mem_cons_self
      · exact (ih h).imp_right (List.mem_cons_of_mem _)

/-! ## Changing the values -/

theorem get?_map {β : Type} (f : α → β) (e : Entries α) (key : Text) :
    get? (e.map fun entry => (entry.1, f entry.2)) key = (e.get? key).map f := by
  induction e with
  | nil => rfl
  | cons entry rest ih =>
    rw [List.map_cons, get?_cons, get?_cons, ih]
    split_ifs <;> rfl

theorem keys_map {β : Type} (f : α → β) (e : Entries α) :
    keys (e.map fun entry => (entry.1, f entry.2)) = e.keys := by
  rw [keys, keys, List.map_map]
  rfl

/-! ## Writing at the end -/

theorem insert_of_not_mem {e : Entries α} {key : Text} (h : key ∉ e.keys) (value : α) :
    e.insert key value = e ++ [(key, value)] := by
  induction e with
  | nil => rfl
  | cons entry rest ih =>
    obtain ⟨k, v⟩ := entry
    obtain ⟨hk, hrest⟩ : key ≠ k ∧ key ∉ keys rest := by simpa [keys] using h
    rw [insert, if_neg (Ne.symm hk), ih hrest]
    rfl

theorem insert_last {e : Entries α} {key : Text} (h : key ∉ e.keys) (old value : α) :
    insert (e ++ [(key, old)]) key value = e ++ [(key, value)] := by
  induction e with
  | nil => simp [insert]
  | cons entry rest ih =>
    obtain ⟨k, v⟩ := entry
    obtain ⟨hk, hrest⟩ : key ≠ k ∧ key ∉ keys rest := by simpa [keys] using h
    rw [List.cons_append, insert, if_neg (Ne.symm hk), ih hrest]
    rfl

theorem get?_last {e : Entries α} {key : Text} (h : key ∉ e.keys) (value : α) :
    get? (e ++ [(key, value)]) key = some value := by
  rw [← insert_of_not_mem h, get?_insert_self]

theorem insert_of_get? {e : Entries α} {key : Text} {value : α} (h : e.get? key = some value) :
    e.insert key value = e := by
  induction e with
  | nil => cases h
  | cons entry rest ih =>
    obtain ⟨k, v⟩ := entry
    rw [get?_cons] at h
    rw [insert]
    split_ifs at h ⊢ with hk
    · rw [Option.some.inj h]
    · rw [ih h]

/-! ## Order of keys -/

/-- With distinct keys, entries are given by the order of their keys and by what is found there. -/
theorem eq_of_get?_eq {a b : Entries α} (ha : a.Distinct) (hkeys : a.keys = b.keys)
    (h : ∀ key, a.get? key = b.get? key) : a = b := by
  induction a generalizing b with
  | nil => exact (List.map_eq_nil_iff.mp hkeys.symm).symm
  | cons entry a ih =>
    obtain ⟨k, v⟩ := entry
    rcases b with _ | ⟨⟨k', w⟩, b⟩
    · cases hkeys
    obtain ⟨rfl, hrest⟩ : k = k' ∧ keys a = keys b := List.cons.inj hkeys
    have hvw : v = w := by simpa [get?_cons] using h k
    have hab : a = b := by
      refine ih ha.tail hrest fun key => ?_
      by_cases hk : k = key
      · have hka := ha.head_not_mem
        have hkb : k ∉ keys b := hrest ▸ hka
        rw [← hk, get?_eq_none_of_not_mem hka, get?_eq_none_of_not_mem hkb]
      · simpa [get?_cons, hk] using h key
    rw [hvw, hab]

/-- The same where both have their keys in the order of one list. -/
theorem eq_of_keys_sublist {a b : Entries α} {order : List Text} (hd : order.Nodup)
    (ha : a.keys.Sublist order) (hb : b.keys.Sublist order)
    (h : ∀ key, a.get? key = b.get? key) : a = b := by
  have hperm : a.keys.Perm b.keys := by
    rw [List.perm_ext_iff_of_nodup (ha.nodup hd) (hb.nodup hd)]
    intro key
    rw [mem_keys_iff, mem_keys_iff, h]
  exact eq_of_get?_eq (ha.nodup hd) ((hd.perm_iff_eq_of_sublist ha hb).mp hperm) h

theorem contains_of_mem_keys {e : Entries α} {key : Text} (h : key ∈ e.keys) :
    e.contains key = true := mem_keys_iff.mp h

theorem contains_congr {a b : Entries α} {key : Text} (h : a.get? key = b.get? key) :
    a.contains key = b.contains key := by
  rw [contains, contains, h]

theorem keys_erase (e : Entries α) (key : Text) : (e.erase key).keys = e.keys.erase key := by
  induction e with
  | nil => rfl
  | cons entry rest ih =>
    obtain ⟨k, v⟩ := entry
    have hkeys : keys ((k, v) :: rest) = k :: keys rest := rfl
    rw [erase, hkeys]
    by_cases hk : k = key
    · rw [if_pos hk, hk, List.erase_cons_head]
    · rw [if_neg hk, List.erase_cons_tail (by simpa using hk), ← ih]
      rfl

/-- The keys after a change: those from before that are still there, in their order, and then the
new ones among some keys, in theirs. -/
def KeepsOrder (before : Entries α) (written : List Text) (after : Entries α) : Prop :=
  after.keys = before.keys.filter after.contains ++
    written.filter fun key => !before.contains key && after.contains key

theorem KeepsOrder.distinct {before after : Entries α} {written : List Text}
    (h : before.KeepsOrder written after) (hb : before.Distinct) (hw : written.Nodup) :
    after.Distinct := by
  rw [Distinct, h]
  refine List.nodup_append.mpr ⟨List.Nodup.filter _ hb, hw.filter _, ?_⟩
  rintro a ha b hb rfl
  have hold := contains_of_mem_keys (List.mem_of_mem_filter ha)
  have hnew := (List.mem_filter.mp hb).2
  rw [hold] at hnew
  cases hnew

theorem keepsOrder_self (e : Entries α) (written : List Text) : e.KeepsOrder written e := by
  have hold : e.keys.filter e.contains = e.keys :=
    List.filter_eq_self.mpr fun _ => contains_of_mem_keys
  have hnew : (written.filter fun key => !e.contains key && e.contains key) = [] := by simp
  rw [KeepsOrder, hold, hnew, List.append_nil]

theorem keepsOrder_insert (e : Entries α) (key : Text) (value : α) :
    e.KeepsOrder [key] (e.insert key value) := by
  have hself : (e.insert key value).contains key = true := by simp [contains]
  have hold : e.keys.filter (e.insert key value).contains = e.keys := by
    refine List.filter_eq_self.mpr fun other ho => ?_
    rw [contains, get?_insert]
    split_ifs
    · rfl
    · exact contains_of_mem_keys ho
  rw [KeepsOrder, hold, keys_insert, List.filter_singleton, hself]
  cases e.contains key <;> simp

theorem keepsOrder_erase {e : Entries α} (he : e.Distinct) (key : Text) :
    e.KeepsOrder [key] (e.erase key) := by
  have hget := get?_erase he key
  have hself : (e.erase key).contains key = false := by simp [contains, hget]
  have hold : e.keys.filter (e.erase key).contains = e.keys.erase key := by
    rw [List.Nodup.erase_eq_filter he]
    refine List.filter_congr fun other ho => ?_
    rw [contains, hget]
    split_ifs with hk
    · simp [hk]
    · rw [show (e.get? other).isSome = true from contains_of_mem_keys ho]
      simpa using Ne.symm hk
  rw [KeepsOrder, hold, keys_erase, List.filter_singleton, hself]
  simp

/-- Two changes of different keys, one after the other. -/
theorem KeepsOrder.trans {before middle after : Entries α} {first second : List Text}
    (h₁ : before.KeepsOrder first middle) (h₂ : middle.KeepsOrder second after)
    (hfirst : ∀ key, key ∉ first → middle.get? key = before.get? key)
    (hsecond : ∀ key, key ∉ second → after.get? key = middle.get? key)
    (hdisjoint : first.Disjoint second) : before.KeepsOrder (first ++ second) after := by
  have hm : ∀ key, key ∉ first → middle.contains key = before.contains key :=
    fun key hk => contains_congr (hfirst key hk)
  have ha : ∀ key, key ∉ second → after.contains key = middle.contains key :=
    fun key hk => contains_congr (hsecond key hk)
  -- what is gone after the first change does not come back
  have hold : (before.keys.filter middle.contains).filter after.contains =
      before.keys.filter after.contains := by
    rw [List.filter_filter]
    refine List.filter_congr fun key hk => ?_
    by_cases hf : key ∈ first
    · rw [ha key (hdisjoint hf), Bool.and_self]
    · rw [hm key hf, contains_of_mem_keys hk, Bool.and_true]
  have hnew₁ : ((first.filter fun key => !before.contains key && middle.contains key).filter
      after.contains) = first.filter fun key => !before.contains key && after.contains key := by
    rw [List.filter_filter]
    refine List.filter_congr fun key hk => ?_
    rw [ha key (hdisjoint hk)]
    cases before.contains key <;> simp
  have hnew₂ : (second.filter fun key => !middle.contains key && after.contains key) =
      second.filter fun key => !before.contains key && after.contains key :=
    List.filter_congr fun key hk => by rw [hm key fun hf => hdisjoint hf hk]
  rw [KeepsOrder] at h₁ h₂ ⊢
  rw [h₂, h₁, List.filter_append, List.filter_append, hold, hnew₁, hnew₂, List.append_assoc]

/-- Where a first change loses no key and a second one leaves just the old ones, these stand as they
stood. -/
theorem KeepsOrder.keys_eq {before middle after : Entries α} {first second : List Text}
    (h₁ : before.KeepsOrder first middle) (h₂ : middle.KeepsOrder second after)
    (hback : ∀ key, after.contains key = before.contains key)
    (hkept : ∀ key, before.contains key = true → middle.contains key = true) :
    after.keys = before.keys := by
  have hcontains : after.contains = before.contains := funext hback
  have hold : (before.keys.filter middle.contains).filter before.contains = before.keys := by
    rw [List.filter_filter, List.filter_eq_self]
    intro key hk
    rw [hkept key (contains_of_mem_keys hk), contains_of_mem_keys hk]
    rfl
  have hfirst : (first.filter fun key => !before.contains key && middle.contains key).filter
      before.contains = [] := by
    rw [List.filter_filter, List.filter_eq_nil_iff]
    intro key _
    cases before.contains key <;> simp
  have hsecond : (second.filter fun key => !middle.contains key && before.contains key) = [] := by
    rw [List.filter_eq_nil_iff]
    intro key _ h
    rw [Bool.and_eq_true] at h
    rw [hkept key h.2] at h
    cases h.1
  rw [KeepsOrder] at h₁ h₂
  rw [h₂, h₁, hcontains, List.filter_append, hold, hfirst, hsecond, List.append_nil,
    List.append_nil]

/-! ## Agreement -/

/-- The same keys, with related values. -/
def Agree (r : α → α → Prop) (a b : Entries α) : Prop :=
  ∀ key, Option.Rel r (a.get? key) (b.get? key)

theorem length_keys (e : Entries α) : e.keys.length = e.length := List.length_map _

theorem Agree.mem_keys_iff {r : α → α → Prop} {a b : Entries α} (h : Agree r a b) (key : Text) :
    key ∈ a.keys ↔ key ∈ b.keys := by
  rw [Entries.mem_keys_iff, Entries.mem_keys_iff]
  have hkey := h key
  generalize a.get? key = x at hkey ⊢
  generalize b.get? key = y at hkey ⊢
  cases hkey <;> simp

theorem Agree.imp {r s : α → α → Prop} {a b : Entries α} (hab : Agree r a b)
    (h : ∀ key u v, a.get? key = some u → b.get? key = some v → r u v → s u v) : Agree s a b := by
  intro key
  have hkey := hab key
  have himp := h key
  generalize a.get? key = x at hkey himp ⊢
  generalize b.get? key = y at hkey himp ⊢
  cases hkey with
  | none => exact .none
  | some hr => exact .some (himp _ _ rfl rfl hr)

theorem Agree.symm {r s : α → α → Prop} {a b : Entries α} (hab : Agree r a b)
    (h : ∀ key u v, a.get? key = some u → b.get? key = some v → r u v → s v u) : Agree s b a := by
  intro key
  have hkey := hab key
  have hsymm := h key
  generalize a.get? key = x at hkey hsymm ⊢
  generalize b.get? key = y at hkey hsymm ⊢
  cases hkey with
  | none => exact .none
  | some hr => exact .some (hsymm _ _ rfl rfl hr)

theorem Agree.trans {r s q : α → α → Prop} {a b c : Entries α} (hab : Agree r a b)
    (hbc : Agree s b c)
    (h : ∀ key u v w, a.get? key = some u → b.get? key = some v → c.get? key = some w →
      r u v → s v w → q u w) : Agree q a c := by
  intro key
  have h1 := hab key
  have h2 := hbc key
  have h3 := h key
  generalize a.get? key = x at h1 h3 ⊢
  generalize b.get? key = y at h1 h2 h3
  generalize c.get? key = z at h2 h3 ⊢
  cases h1 with
  | none =>
    cases h2
    exact .none
  | some h1 =>
    cases h2 with
    | some h2 => exact .some (h3 _ _ _ rfl rfl rfl h1 h2)

/-- **Agreement is seen from one side**, if the numbers of entries are equal. -/
theorem agree_iff {r : α → α → Prop} {a b : Entries α} (ha : a.Distinct) (hb : b.Distinct) :
    Agree r a b ↔ a.length = b.length ∧
      ∀ entry ∈ a, ∃ value, b.get? entry.1 = some value ∧ r entry.2 value := by
  constructor
  · intro h
    have hperm := (List.perm_ext_iff_of_nodup ha hb).mpr h.mem_keys_iff
    refine ⟨by simpa only [length_keys] using hperm.length_eq, fun entry he => ?_⟩
    have hget := (mem_iff_get? ha).mp he
    have hrel := h entry.1
    rw [hget] at hrel
    rcases hb' : b.get? entry.1 with _ | value
    · rw [hb'] at hrel
      cases hrel
    · rw [hb'] at hrel
      cases hrel with
      | some hr => exact ⟨value, rfl, hr⟩
  · rintro ⟨hlen, hall⟩ key
    -- the keys of the first are keys of the second, and these are not more
    have hsub : a.keys ⊆ b.keys := by
      intro k hk
      obtain ⟨entry, he, rfl⟩ := List.mem_map.mp hk
      obtain ⟨value, hv, -⟩ := hall entry he
      rw [Entries.mem_keys_iff, hv]
      rfl
    have hperm : a.keys.Perm b.keys := (List.Nodup.subperm ha hsub).perm_of_length_le
      (by simp [length_keys, hlen])
    rcases hka : a.get? key with _ | value
    · have hnot : key ∉ a.keys := by rw [Entries.mem_keys_iff, hka]; simp
      rw [get?_eq_none_of_not_mem fun hm => hnot (hperm.mem_iff.mpr hm)]
      exact .none
    · obtain ⟨value', hv', hr⟩ := hall (key, value) (mem_of_get? hka)
      rw [hv']
      exact .some hr

end StyleRules.Entries

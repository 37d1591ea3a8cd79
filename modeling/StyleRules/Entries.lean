import StyleRules.Text.Basic

/-!
# Ordered entries

Key and value pairs in a fixed order, the carrier of rule trees, objects and change sets. Writing
an existing key keeps its place, a new key goes to the end.

* `Entries`, `Entries.keys`, `Entries.get?`, `Entries.contains`;
* `Entries.insert`, `Entries.erase`, `Entries.ofList`;
* `Entries.Distinct`: no key occurs twice; kept by every operation.
-/

namespace StyleRules

/-- Pairs of a key and a value, in order. -/
abbrev Entries (α : Type) := List (Text × α)

namespace Entries

variable {α : Type}

/-- The keys in order. -/
def keys (e : Entries α) : List Text := e.map Prod.fst

/-- The value of the first entry with the given key. -/
def get? : Entries α → Text → Option α
  | [], _ => none
  | (k, v) :: rest, key => if k = key then some v else get? rest key

/-- Whether some entry has the given key. -/
def contains (e : Entries α) (key : Text) : Bool := (e.get? key).isSome

/-- Writes `value` under `key`: in place of the old value, or at the end for a new key. -/
def insert : Entries α → Text → α → Entries α
  | [], key, value => [(key, value)]
  | (k, v) :: rest, key, value =>
    if k = key then (k, value) :: rest else (k, v) :: insert rest key value

/-- Drops the first entry with the given key; the others keep their order. -/
def erase : Entries α → Text → Entries α
  | [], _ => []
  | (k, v) :: rest, key => if k = key then rest else (k, v) :: erase rest key

/-- Writes the pairs one after the other: the last value of a key wins, at the key's first
place. -/
def ofList (pairs : List (Text × α)) : Entries α :=
  pairs.foldl (fun e p => e.insert p.1 p.2) []

/-- No key occurs twice. -/
def Distinct (e : Entries α) : Prop := e.keys.Nodup

/-! ## Looking up after a change -/

@[simp] theorem get?_nil (key : Text) : get? ([] : Entries α) key = none := rfl

theorem get?_cons (k : Text) (v : α) (rest : Entries α) (key : Text) :
    get? ((k, v) :: rest) key = if k = key then some v else get? rest key := rfl

theorem get?_insert (e : Entries α) (key : Text) (value : α) (other : Text) :
    (e.insert key value).get? other = if key = other then some value else e.get? other := by
  induction e with
  | nil => rfl
  | cons p rest ih =>
    obtain ⟨k, v⟩ := p
    by_cases hk : k = key
    · subst hk
      by_cases ho : k = other <;> simp [insert, get?_cons, ho]
    · by_cases ho : k = other
      · subst ho
        simp [insert, get?_cons, hk, Ne.symm hk]
      · simp [insert, get?_cons, hk, ho, ih]

@[simp] theorem get?_insert_self (e : Entries α) (key : Text) (value : α) :
    (e.insert key value).get? key = some value := by
  simp [get?_insert]

theorem mem_keys_iff {e : Entries α} {key : Text} : key ∈ e.keys ↔ (e.get? key).isSome := by
  induction e with
  | nil => simp [keys]
  | cons p rest ih =>
    obtain ⟨k, v⟩ := p
    by_cases hk : k = key
    · simp [keys, get?_cons, hk]
    · have hk' : ¬ key = k := fun h => hk h.symm
      simpa [keys, get?_cons, hk, hk'] using ih

/-! ## Keys after a change -/

theorem keys_insert (e : Entries α) (key : Text) (value : α) :
    (e.insert key value).keys = if e.contains key then e.keys else e.keys ++ [key] := by
  induction e with
  | nil => rfl
  | cons p rest ih =>
    obtain ⟨k, v⟩ := p
    by_cases hk : k = key
    · simp [insert, keys, contains, get?_cons, hk]
    · simp only [keys, contains, insert, get?_cons, hk, if_false, List.map_cons] at ih ⊢
      rw [ih]
      split <;> rename_i h <;> simp [h]

theorem Distinct.insert {e : Entries α} (h : e.Distinct) (key : Text) (value : α) :
    (e.insert key value).Distinct := by
  rw [Distinct, keys_insert]
  split
  · exact h
  · rename_i hk
    refine List.nodup_append.2 ⟨h, by simp, fun a ha b hb hab => hk ?_⟩
    rw [List.mem_singleton] at hb
    subst hb hab
    exact mem_keys_iff.1 ha

theorem erase_sublist (e : Entries α) (key : Text) : (e.erase key).Sublist e := by
  induction e with
  | nil => exact .slnil
  | cons p rest ih =>
    obtain ⟨k, v⟩ := p
    rw [erase]
    split
    · exact List.sublist_cons_self _ _
    · exact ih.cons_cons _

theorem Distinct.erase {e : Entries α} (h : e.Distinct) (key : Text) : (e.erase key).Distinct :=
  List.Nodup.sublist ((erase_sublist e key).map Prod.fst) h

theorem Distinct.ofList (pairs : List (Text × α)) : (ofList pairs).Distinct := by
  have h : ∀ e : Entries α, e.Distinct →
      (pairs.foldl (fun e p => e.insert p.1 p.2) e).Distinct := by
    induction pairs with
    | nil => exact fun _ h => h
    | cons p rest ih => exact fun e h => ih _ (h.insert _ _)
  exact h [] List.nodup_nil

theorem get?_erase {e : Entries α} (h : e.Distinct) (key other : Text) :
    (e.erase key).get? other = if key = other then none else e.get? other := by
  induction e with
  | nil => simp [erase]
  | cons p rest ih =>
    obtain ⟨k, v⟩ := p
    have hrest : Distinct rest := (List.nodup_cons.1 h).2
    have hk : k ∉ keys rest := (List.nodup_cons.1 h).1
    rw [mem_keys_iff, Bool.not_eq_true, Option.isSome_eq_false_iff, Option.isNone_iff_eq_none] at hk
    by_cases hkk : k = key
    · subst hkk
      by_cases ho : k = other
      · subst ho
        simp [erase, hk]
      · simp [erase, get?_cons, ho]
    · by_cases ho : k = other
      · subst ho
        simp [erase, get?_cons, hkk, Ne.symm hkk]
      · simp [erase, get?_cons, hkk, ho, ih hrest]

end Entries

end StyleRules

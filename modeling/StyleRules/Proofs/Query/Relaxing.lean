import StyleRules.Proofs.Pattern.Search
import StyleRules.Query.Filter

/-!
# Switches relax filters

* `Shape.texts`, `Shape.compiled`, **`Shape.compile_eq`**: the compiled form of a shape, and the
  texts that must be searchable for it to exist;
* `Shape.accepts_literal`, `Shape.accepts_pattern`, `Shape.accepts_object_compiled`: what fits a
  shape, part by part;
* the order of `Switches`: every switch that is on stays on;
* `Shape.accepts_compiled_mono`: what fits a shape still fits it with more switches on;
* `Filter.compile_of_toShape`, `Filter.compile_eq_ok_iff`: the filter of a shape, and of any
  specification;
* **`Filter.compile_relaxes`**: with more switches on, filters accept what they accepted.
-/

namespace StyleRules

open Pattern (isSearchable)

namespace Shape

/-- Induction over the entries of a shape. -/
@[elab_as_elim]
theorem induction {motive : Shape → Prop} (undefined : motive undefined) (null : motive null)
    (pattern : ∀ p, motive (pattern p)) (literal : ∀ value, motive (literal value))
    (object : ∀ entries : Entries Shape, (∀ entry ∈ entries, motive entry.2) →
      motive (object entries)) (shape : Shape) : motive shape := by
  refine @Shape.rec motive (fun entries => ∀ entry ∈ entries, motive entry.2)
    (fun entry => motive entry.2) undefined null pattern literal object ?_ ?_ (fun _ _ h => h) shape
  · exact fun _ h => absurd h List.not_mem_nil
  · exact fun _ _ hentry hrest => List.forall_mem_cons.mpr ⟨hentry, hrest⟩

/-! ## Compiled shapes -/

mutual

/-- The texts of a shape that are searched for if strings become patterns. -/
def texts : Shape → List Text
  | .literal (.string t) => if t.isEmpty then [] else [t]
  | .object entries => textsOf entries
  | _ => []

/-- The texts of entries that are searched for if strings become patterns. -/
def textsOf : List (Text × Shape) → List Text
  | [] => []
  | (_, shape) :: rest => shape.texts ++ textsOf rest

end

mutual

/-- The shape with its texts replaced by their patterns, if the switches say so. -/
def compiled (s : Switches) : Shape → Shape
  | .literal (.string t) =>
    if s.stringToRegex && !t.isEmpty then .pattern ⟨Pattern.textSource t, .ofWords t.words⟩
    else .literal (.string t)
  | .object entries => .object (compiledEntries s entries)
  | shape => shape

/-- The entries with their texts replaced by patterns. -/
def compiledEntries (s : Switches) : List (Text × Shape) → List (Text × Shape)
  | [] => []
  | (k, shape) :: rest => (k, shape.compiled s) :: compiledEntries s rest

end

/-- Whether a shape can be compiled: what has to be searched for can be. -/
def isCompilable (s : Switches) (shape : Shape) : Bool :=
  !s.stringToRegex || shape.texts.all isSearchable

theorem isCompilable_iff {s : Switches} {shape : Shape} : shape.isCompilable s = true ↔
    (s.stringToRegex = true → ∀ t ∈ shape.texts, isSearchable t = true) := by
  rw [isCompilable]
  cases s.stringToRegex <;> simp

theorem isCompilable_cons (s : Switches) (k : Text) (shape : Shape) (rest : Entries Shape) :
    (object ((k, shape) :: rest)).isCompilable s =
      (shape.isCompilable s && (object rest).isCompilable s) := by
  simp only [isCompilable, texts, textsOf, List.all_append, Bool.or_and_distrib_left]

theorem compileEntries_eq {s : Switches} {entries : Entries Shape}
    (h : ∀ entry ∈ entries, entry.2.compile s =
      if entry.2.isCompilable s then .ok (entry.2.compiled s) else .error .badPattern) :
    compileEntries s entries =
      if (object entries).isCompilable s then .ok (compiledEntries s entries)
      else .error .badPattern := by
  induction entries with
  | nil => simp [compileEntries, compiledEntries, isCompilable, texts, textsOf]
  | cons entry rest ih =>
    obtain ⟨k, shape⟩ := entry
    obtain ⟨hshape, hrest⟩ := List.forall_mem_cons.mp h
    rw [compileEntries, hshape, ih hrest, isCompilable_cons, compiledEntries]
    cases shape.isCompilable s <;> cases (object rest).isCompilable s <;> simp

/-- **The compiled form of a shape.** It exists unless a text must be searched for and cannot be. -/
theorem compile_eq (s : Switches) (shape : Shape) : shape.compile s =
    if shape.isCompilable s then .ok (shape.compiled s) else .error .badPattern := by
  induction shape using Shape.induction with
  | undefined => simp [compile, compiled, isCompilable, texts]
  | null => simp [compile, compiled, isCompilable, texts]
  | pattern p => simp [compile, compiled, isCompilable, texts]
  | literal value =>
    rw [compile]
    cases value with
    | string t =>
      rw [compileLiteral, compiled, isCompilable, texts, Pattern.ofText_eq]
      cases s.stringToRegex <;> cases t.isEmpty <;> cases hs : isSearchable t <;>
        simp [Except.map, hs]
    | _ => simp [compileLiteral, compiled, isCompilable, texts]
  | object entries ih =>
    rw [compile, compileEntries_eq ih, compiled]
    split_ifs <;> rfl

/-! ## Part by part -/

theorem accepts_literal (s : Switches) (value : Value) (target : Option Value) :
    accepts s (.literal value) target = target.any fun found => found.eqv value := by
  cases target <;> simp [accepts]

theorem accepts_pattern (s : Switches) (p : Pattern) (target : Option Value) :
    accepts s (.pattern p) target = true ↔
      ∃ t, target = some (.string t) ∧ p.isMatch t = true := by
  rcases target with _ | value
  · simp [accepts]
  · cases value <;> simp [accepts]

/-- Whether what is found under a key of a target fits; a missing field gives what the switches
say. -/
def acceptsFound (s : Switches) (shape : Shape) : Option Value → Bool
  | some found => shape.accepts s (some found)
  | none => s.resultIfNoTarget

theorem acceptsEach_iff {s : Switches} {fields : Option (Entries Value)} {entries : Entries Shape} :
    acceptsEach s fields entries = true ↔ ∀ entry ∈ entries,
      entry.2.acceptsFound s (fields.bind fun found => found.get? entry.1) = true := by
  induction entries with
  | nil => simp [acceptsEach]
  | cons entry rest ih =>
    obtain ⟨k, shape⟩ := entry
    rw [acceptsEach, Bool.and_eq_true, ih, List.forall_mem_cons]
    refine and_congr_left fun _ => ?_
    rcases fields.bind fun found => found.get? k with _ | found <;> rfl

theorem compiledEntries_eq_map (s : Switches) (entries : Entries Shape) :
    compiledEntries s entries = entries.map fun entry => (entry.1, entry.2.compiled s) := by
  induction entries with
  | nil => rfl
  | cons entry rest ih => rw [compiledEntries, ih, List.map_cons]

theorem accepts_object_compiled {s : Switches} {entries : Entries Shape} (target : Option Value) :
    ((object entries).compiled s).accepts s target = true ↔
      if entries.isEmpty then isEmptyObject target = true else ∀ entry ∈ entries,
        (entry.2.compiled s).acceptsFound s
          ((target.bind Value.object?).bind fun found => found.get? entry.1) = true := by
  rw [compiled, accepts, compiledEntries_eq_map, List.isEmpty_map]
  split_ifs
  · rfl
  · rw [acceptsEach_iff, List.forall_mem_map]

end Shape

/-! ## The order of switches -/

/-- Every switch that is on stays on. -/
instance : LE Switches := ⟨fun s s' => ∀ switch, s.get switch = true → s'.get switch = true⟩

instance (s s' : Switches) : Decidable (s ≤ s') :=
  decidable_of_iff (∀ switch ∈ Switch.all, s.get switch = true → s'.get switch = true)
    ⟨fun h switch => h switch (by cases switch <;> decide), fun h switch _ => h switch⟩

/-- All switches off. -/
def Switches.off : Switches := ⟨false, false, false, false⟩

theorem Switches.off_le (s : Switches) : off ≤ s := by
  intro switch h
  cases switch <;> cases h

namespace Shape

theorem accepts_literal_mono {s s' : Switches} (h : s ≤ s') {value : Value}
    {target : Option Value} (ha : ((literal value).compiled s).accepts s target = true) :
    ((literal value).compiled s').accepts s' target = true := by
  cases value with
  | string t =>
    rw [compiled] at ha ⊢
    by_cases hs : s.stringToRegex = true
    · have hs' : s'.stringToRegex = true := h .stringToRegex hs
      rw [hs] at ha
      rw [hs']
      split_ifs at ha ⊢
      · rwa [accepts_pattern] at ha ⊢
      · rwa [accepts_literal] at ha ⊢
    · rw [if_neg (by simp [hs]), accepts_literal] at ha
      split_ifs
      · -- the target is the text itself, in which its pattern is found
        obtain ⟨found, rfl, hfound⟩ := (Option.any_eq_true _ _).mp ha
        cases found <;> simp only [Value.eqv, Bool.false_eq_true, beq_iff_eq] at hfound
        subst hfound
        exact (accepts_pattern ..).mpr
          ⟨_, rfl, Pattern.Regex.search_of_isInfix (List.infix_refl _)⟩
      · rwa [accepts_literal]
  | _ =>
    simp only [compiled] at ha ⊢
    rwa [accepts_literal] at ha ⊢

/-- What fits a shape still fits it with more switches on. -/
theorem accepts_compiled_mono {s s' : Switches} (h : s ≤ s') (shape : Shape)
    {target : Option Value} (ha : (shape.compiled s).accepts s target = true) :
    (shape.compiled s').accepts s' target = true := by
  induction shape using Shape.induction generalizing target with
  | undefined =>
    simp only [compiled, accepts, Bool.or_eq_true] at ha ⊢
    exact ha.imp_left (h .ignoreUndefined)
  | null =>
    simp only [compiled, accepts, Bool.or_eq_true] at ha ⊢
    exact ha.imp_left (h .ignoreNull)
  | pattern p =>
    simp only [compiled] at ha ⊢
    rwa [accepts_pattern] at ha ⊢
  | literal value => exact accepts_literal_mono h ha
  | object entries ih =>
    rw [accepts_object_compiled] at ha ⊢
    split_ifs at ha ⊢
    · exact ha
    · intro entry he
      have hfound := ha entry he
      rcases hf : (target.bind Value.object?).bind fun found => found.get? entry.1 with _ | found
      · rw [hf] at hfound
        exact h .resultIfNoTarget hfound
      · rw [hf] at hfound
        exact ih entry he hfound

end Shape

/-! ## Filters -/

namespace Filter

/-- The filter of a specification with a shape is that of the compiled shape. -/
theorem compile_of_toShape {s : Switches} {spec : Spec} {target : Shape}
    (h : spec.toShape = .ok target) :
    compile s spec =
      if target.isCompilable s then .ok (shape (target.compiled s) s) else .error .badPattern := by
  cases spec with
  | predicate test => cases h
  | _ =>
    simp only [compile, h, Shape.compile_eq]
    split_ifs <;> rfl

/-- The filter of a specification: a predicate as it is, or the compiled shape. -/
theorem compile_eq_ok_iff {s : Switches} {spec : Spec} {f : Filter} :
    compile s spec = .ok f ↔ (∃ test, spec = .predicate test ∧ f = predicate test) ∨
      ∃ target, spec.toShape = .ok target ∧ target.isCompilable s = true ∧
        f = shape (target.compiled s) s := by
  constructor
  · intro h
    rcases ht : spec.toShape with e | target
    · cases spec with
      | predicate test => exact .inl ⟨test, rfl, (Except.ok.inj h).symm⟩
      | _ => simp [compile, ht] at h
    · rw [compile_of_toShape ht] at h
      split_ifs at h with hc
      exact .inr ⟨target, rfl, hc, (Except.ok.inj h).symm⟩
  · rintro (⟨test, rfl, rfl⟩ | ⟨target, ht, hc, rfl⟩)
    · rfl
    · rw [compile_of_toShape ht, if_pos hc]

/-- **Every switch only relaxes.** With more switches on, a specification has a filter as before, as
long as its texts can be searched for, and the filter accepts every target that it accepted
before. -/
theorem compile_relaxes {s s' : Switches} (h : s ≤ s') (spec : Spec) :
    ((∀ target, spec.toShape = .ok target → ∀ t ∈ target.texts, isSearchable t = true) →
      ((∃ f, compile s spec = .ok f) ↔ ∃ f, compile s' spec = .ok f)) ∧
    ∀ f f', compile s spec = .ok f → compile s' spec = .ok f' →
      ∀ target, f.accepts target = true → f'.accepts target = true := by
  constructor
  · intro hsearch
    have hcompilable : ∀ (s : Switches) target, spec.toShape = .ok target →
        target.isCompilable s = true := fun s target ht =>
      Shape.isCompilable_iff.mpr fun _ => hsearch target ht
    simp only [compile_eq_ok_iff]
    constructor
    · rintro ⟨f, ⟨test, hspec, -⟩ | ⟨target, ht, -, -⟩⟩
      · exact ⟨_, .inl ⟨test, hspec, rfl⟩⟩
      · exact ⟨_, .inr ⟨target, ht, hcompilable s' target ht, rfl⟩⟩
    · rintro ⟨f, ⟨test, hspec, -⟩ | ⟨target, ht, -, -⟩⟩
      · exact ⟨_, .inl ⟨test, hspec, rfl⟩⟩
      · exact ⟨_, .inr ⟨target, ht, hcompilable s target ht, rfl⟩⟩
  · intro f f' hf hf' value ha
    rcases compile_eq_ok_iff.mp hf with ⟨test, rfl, rfl⟩ | ⟨target, ht, -, rfl⟩
    · obtain rfl : f' = predicate test := (Except.ok.inj hf').symm
      exact ha
    · rcases compile_eq_ok_iff.mp hf' with ⟨test, rfl, -⟩ | ⟨target', ht', -, rfl⟩
      · cases ht
      · obtain rfl : target = target' := Except.ok.inj (ht.symm.trans ht')
        exact Shape.accepts_compiled_mono h target ha

/-- An object with a text and a null in an object. -/
def sampleQuery : Value :=
  .object [("a".toList, .string "x y".toList), ("b".toList, .object [("c".toList, .null)])]

theorem compile_relaxes_sampleQuery : Switches.off ≤ ({} : Switches) ∧
    ∃ f, compile {} (.ofValue sampleQuery) = .ok f ∧ f.accepts sampleQuery = true := by
  have hle : Switches.off ≤ ({} : Switches) := by decide
  have hsearch : ∀ target, (Spec.ofValue sampleQuery).toShape = .ok target →
      ∀ t ∈ target.texts, isSearchable t = true := by
    rintro _ ⟨⟩ t ht
    rw [show Shape.texts _ = ["x y".toList] from rfl, List.mem_singleton] at ht
    rw [ht]
    decide +kernel
  obtain ⟨hiff, hrelax⟩ := compile_relaxes hle (.ofValue sampleQuery)
  obtain ⟨f, hf⟩ := (hiff hsearch).mp ⟨_, rfl⟩
  exact ⟨hle, f, hf, hrelax _ f rfl hf sampleQuery (by decide)⟩

end Filter

end StyleRules

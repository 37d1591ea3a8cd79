import Mathlib.Data.List.Forall2
import StyleRules.Proofs.Selector.Combining
import StyleRules.Proofs.Selector.Splitting

/-!
# Flattened paths as products

The selectors of a path come from all ways to choose one alternative of each segment. Flattening
goes from segment to segment, with alternatives as they are written; the choices are made at once,
among normalized alternatives.

* `respaced_substitute`, `respaced_alternativesFrom`: substituting and splitting go along with a
  change of blanks;
* `nest_normalize`, `normalAlternatives_normalize`: both depend on normal forms only;
* `choices`, `chain`: the choices in lexicographic order, and the selector of a choice;
* `product_eq_choices`: the selectors of a path are those of its choices;
* **`combine_eq_choices`**: a flattened path lists them once each.
-/

namespace StyleRules.Selector

open Text (isBlank ne_of_isBlank Respaced)

/-! ## Blanks -/

theorem substitute_cons (outer : Text) (c : Char) (t : Text) :
    substitute outer (c :: t) =
      (if c = placeholder then outer else [c]) ++ substitute outer t := List.flatMap_cons

theorem substitute_cons_of_blank {c : Char} (hc : isBlank c = true) (outer t : Text) :
    substitute outer (c :: t) = c :: substitute outer t := by
  rw [substitute_cons, if_neg (ne_of_isBlank hc (by decide))]
  rfl

theorem respaced_substitute (outer : Text) {t u : Text} (h : Respaced t u) :
    Respaced (substitute outer t) (substitute outer u) := by
  induction h with
  | nil => exact .nil
  | cons c _ ih =>
    rw [substitute_cons, substitute_cons]
    exact ih.append_left _
  | blank hb hc _ ih =>
    rw [substitute_cons_of_blank hb, substitute_cons_of_blank hc]
    exact .blank hb hc ih
  | trail hb _ ih =>
    rw [substitute_cons_of_blank hb]
    exact .trail hb ih
  | extra hb hc _ ih =>
    rw [substitute_cons_of_blank hc] at ih ⊢
    rw [substitute_cons_of_blank hb]
    exact .extra hb hc ih

theorem alternativesFrom_cons_of_blank {c : Char} (hc : isBlank c = true) (depth : Nat) (t : Text) :
    alternativesFrom depth (c :: t) = (alternativesFrom depth t).modifyHead (c :: ·) := by
  have hdepth : depthAfter depth c = depth := by
    rw [depthAfter, if_neg (ne_of_isBlank hc (by decide)), if_neg (ne_of_isBlank hc (by decide))]
  rw [alternativesFrom, if_neg fun h => ne_of_isBlank hc (by decide) h.1, hdepth]

theorem forall₂_modifyHead {r : Text → Text → Prop} {f g : Text → Text} {a b : List Text}
    (h : List.Forall₂ r a b) (hf : ∀ {t u}, r t u → r (f t) (g u)) :
    List.Forall₂ r (a.modifyHead f) (b.modifyHead g) := by
  cases h with
  | nil => exact .nil
  | cons hhead htail => exact .cons (hf hhead) htail

theorem forall₂_modifyHead_left {r : Text → Text → Prop} {f : Text → Text} {t : Text}
    {a b : List Text} (h : List.Forall₂ r a (t :: b)) (hf : ∀ {s}, r s t → r (f s) t) :
    List.Forall₂ r (a.modifyHead f) (t :: b) := by
  cases h with
  | cons hhead htail => exact .cons (hf hhead) htail

theorem respaced_alternativesFrom {t u : Text} (h : Respaced t u) (depth : Nat) :
    List.Forall₂ Respaced (alternativesFrom depth t) (alternativesFrom depth u) := by
  induction h generalizing depth with
  | nil => exact .cons .nil .nil
  | cons c _ ih =>
    rw [alternativesFrom, alternativesFrom]
    split_ifs
    · exact .cons .nil (ih 0)
    · exact forall₂_modifyHead (ih _) (.cons c)
  | blank hb hc _ ih =>
    rw [alternativesFrom_cons_of_blank hb, alternativesFrom_cons_of_blank hc]
    exact forall₂_modifyHead (ih depth) (.blank hb hc)
  | trail hb _ ih =>
    rw [alternativesFrom_cons_of_blank hb]
    exact forall₂_modifyHead_left (ih depth) (.trail hb)
  | @extra b c t u hb hc _ ih =>
    have hrest := ih depth
    rw [alternativesFrom_cons_of_blank hc] at hrest ⊢
    rw [alternativesFrom_cons_of_blank hb]
    obtain ⟨piece, pieces, hu⟩ := List.exists_cons_of_ne_nil (alternativesFrom_ne_nil depth u)
    rw [hu, List.modifyHead_cons] at hrest ⊢
    exact forall₂_modifyHead_left hrest (.extra hb hc)

/-! ## Normal forms -/

theorem nest_normalize (outer inner : Text) : nest outer (normalize inner) = nest outer inner := by
  have hplaceholder : placeholder ∈ normalize inner ↔ placeholder ∈ inner :=
    mem_normalize (by decide) inner
  unfold nest
  simp only [hplaceholder]
  split_ifs
  · refine apply_normalize (f := fun t => normalize (substitute outer t)) ?_ ?_ inner
    · exact fun h => normalize_eq_of_respaced (respaced_substitute outer h)
    · intro t
      rw [substitute_cons_of_blank Text.isBlank_space, normalize_cons_of_blank Text.isBlank_space]
  · rw [normalize, Text.words_append_of_blank Text.isBlank_space, words_normalize,
      ← Text.words_append_of_blank Text.isBlank_space]
    rfl

/-- The alternatives of a segment, normalized. -/
def normalAlternatives (segment : Text) : List Text := (alternatives segment).map normalize

theorem normalAlternatives_normalize (t : Text) :
    normalAlternatives (normalize t) = normalAlternatives t := by
  refine apply_normalize (f := normalAlternatives) (fun {t u} h => ?_) (fun t => ?_) t
  · have hpieces := respaced_alternativesFrom h 0
    rw [normalAlternatives, normalAlternatives, ← List.forall₂_eq_eq_eq, List.forall₂_map_left_iff,
      List.forall₂_map_right_iff]
    exact hpieces.imp fun _ _ => normalize_eq_of_respaced
  · rw [normalAlternatives, normalAlternatives, alternatives,
      alternativesFrom_cons_of_blank Text.isBlank_space]
    rcases halt : alternativesFrom 0 t with _ | ⟨piece, pieces⟩
    · exact absurd halt (alternativesFrom_ne_nil 0 t)
    · rw [alternatives, halt, List.modifyHead_cons, List.map_cons, List.map_cons,
        normalize_cons_of_blank Text.isBlank_space]

theorem nestAll_eq (outers : List Text) (segment : Text) :
    nestAll outers segment =
      outers.flatMap fun outer => (normalAlternatives segment).map (nest outer) := by
  have hnest : ∀ outer, nest outer ∘ normalize = nest outer :=
    fun outer => funext (nest_normalize outer)
  simp only [nestAll, normalAlternatives, List.map_map, hnest]

theorem combine_map_normalize (path : List Text) : combine (path.map normalize) = combine path := by
  have hnest : ∀ outers segment, nestAll outers (normalize segment) = nestAll outers segment := by
    intro outers segment
    rw [nestAll_eq, nestAll_eq, normalAlternatives_normalize]
  match path with
  | [] => rfl
  | [segment] => exact congrArg some (normalize_normalize segment)
  | first :: second :: rest =>
    have hfirst : (alternatives (normalize first)).map normalize =
        (alternatives first).map normalize := normalAlternatives_normalize first
    have hproduct : product (normalize first) ((second :: rest).map normalize) =
        product first (second :: rest) := by
      rw [product, product, hfirst, List.foldl_map]
      simp only [hnest]
    exact congrArg (fun selectors => some (Text.join [',', ' '] selectors.eraseDups)) hproduct

/-! ## Choices -/

/-- Every way to choose one text of each list, the choice in the first varying slowest. -/
def choices : List (List Text) → List (List Text)
  | [] => [[]]
  | texts :: rest => texts.flatMap fun t => (choices rest).map (t :: ·)

/-- The selector of one alternative of each segment, each nested in those before. -/
def chain : List Text → Text
  | [] => []
  | first :: rest => rest.foldl nest first

theorem foldl_nestAll (outers rest : List Text) :
    rest.foldl nestAll outers = outers.flatMap fun outer =>
      (choices (rest.map normalAlternatives)).map fun choice => choice.foldl nest outer := by
  induction rest generalizing outers with
  | nil => simp [choices]
  | cons segment rest ih =>
    rw [List.foldl_cons, ih, nestAll_eq, List.flatMap_assoc]
    simp only [List.map_cons, choices, List.flatMap_map, List.map_flatMap, List.map_map,
      Function.comp_def, List.foldl_cons]

theorem product_eq_choices (first : Text) (rest : List Text) :
    product first rest = (choices ((first :: rest).map normalAlternatives)).map chain := by
  rw [product, foldl_nestAll]
  simp only [List.map_cons, choices, List.map_flatMap, List.map_map, Function.comp_def, chain,
    normalAlternatives]

theorem nodup_eraseDups (l : List Text) : l.eraseDups.Nodup := by
  match l with
  | [] => exact List.nodup_nil
  | a :: l =>
    rw [List.eraseDups_cons, List.nodup_cons]
    refine ⟨fun ha => ?_, nodup_eraseDups _⟩
    simpa using (List.mem_filter.mp (List.mem_eraseDups.mp ha)).2
termination_by l.length
decreasing_by exact Nat.lt_succ_of_le (List.length_filter_le _ _)

/-- **A flattened path is a product.** Flattening two segments or more lists the selectors of all
choices of one normalized alternative of each segment, in lexicographic order and each at its first
occurrence. They are normalized, no two are equal, and all depends on the normalized segments
only. -/
theorem combine_eq_choices {path : List Text} (hpath : 2 ≤ path.length) :
    ∃ selectors, combine path = some (Text.join [',', ' '] selectors) ∧
      selectors = ((choices (path.map normalAlternatives)).map chain).eraseDups ∧
      (∀ selector ∈ selectors, normalize selector = selector) ∧ selectors.Nodup ∧
      ∀ other : List Text, other.map normalize = path.map normalize →
        combine other = combine path := by
  match path with
  | first :: second :: rest =>
    refine ⟨(product first (second :: rest)).eraseDups, rfl, ?_, ?_, nodup_eraseDups _, ?_⟩
    · rw [product_eq_choices]
    · intro selector hs
      exact normalize_of_mem_product selector (List.mem_eraseDups.mp hs)
    · intro other hother
      rw [← combine_map_normalize other, hother, combine_map_normalize]

/-- A path with repetitions, a placeholder and blanks of several kinds. -/
def samplePath : List Text := ["a,\t b".toList, "i , & > j,i".toList, "&:hover".toList]

theorem combine_eq_choices_samplePath :
    combine samplePath = some "a i:hover, a > j:hover, b i:hover, b > j:hover".toList ∧
      combine ["a, b".toList, "i , & > j,i".toList, "&:hover".toList] = combine samplePath := by
  have hlength : 2 ≤ samplePath.length := by decide
  obtain ⟨selectors, hcombine, hselectors, -, -, hother⟩ := combine_eq_choices hlength
  refine ⟨?_, hother _ (by decide)⟩
  rw [hcombine, hselectors]
  decide

end StyleRules.Selector

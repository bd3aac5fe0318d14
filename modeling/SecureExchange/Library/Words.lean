import Mathlib.Data.List.TakeWhile
import Mathlib.Data.Nat.Init

namespace Words

universe u
variable {α : Type u}

/-- The maximal parts of a text that have no separators. -/
def words (sep : α → Bool) (text : List α) : List (List α) := (text.splitOnP sep).filter fun word => !word.isEmpty

/-- How a text spells words: separators stand where they like, but between
two words there is one at least. -/
inductive Spells (sep : α → Bool) : List α → List (List α) → Prop
  | nil : Spells sep [] []
  | skip {c text ws} (blank : sep c = true) (rest : Spells sep text ws) : Spells sep (c :: text) ws
  | word {word text ws} (some : word ≠ []) (solid : ∀ c ∈ word, sep c = false)
      (ends : ∀ c ∈ text.head?, sep c = true) (rest : Spells sep text ws) : Spells sep (word ++ text) (word :: ws)

variable {sep : α → Bool} {text word pad : List α} {ws : List (List α)}

@[simp] theorem words_nil : words sep [] = [] := by simp [words]

theorem words_skip {c : α} (blank : sep c = true) : words sep (c :: text) = words sep text := by
  simp [words, List.splitOnP_cons_eq_if_modifyHead, blank]

theorem words_solid (some : word ≠ []) (solid : ∀ c ∈ word, sep c = false) : words sep word = [word] := by
  simp [words, List.splitOnP_eq_singleton solid, some]

theorem words_word (some : word ≠ []) (solid : ∀ c ∈ word, sep c = false) (ends : ∀ c ∈ text.head?, sep c = true) :
    words sep (word ++ text) = word :: words sep text := by
  cases text with
  | nil => rw [List.append_nil, words_nil, words_solid some solid]
  | cons c rest =>
    have blank : sep c = true := ends c rfl
    rw [words_skip blank, words, List.splitOnP_append_cons _ _ blank, List.filter_append, List.splitOnP_eq_singleton solid]
    simp [words, some]

theorem Spells.words_eq (spells : Spells sep text ws) : words sep text = ws := by
  induction spells with
  | nil => exact words_nil
  | skip blank _ ih => rw [words_skip blank, ih]
  | word some solid ends _ ih => rw [words_word some solid ends, ih]

theorem spells_words (sep : α → Bool) (text : List α) : Spells sep text (words sep text) := by
  induction size : text.length using Nat.strong_induction_on generalizing text with
  | _ k ih =>
    cases text with
    | nil =>
      rw [words_nil]
      exact .nil
    | cons c rest =>
      by_cases blank : sep c = true
      · rw [words_skip blank]
        exact .skip blank (ih rest.length (by rw [← size, List.length_cons]; omega) rest rfl)
      · -- the text starts with a word, up to the next separator
        have split := List.takeWhile_append_dropWhile (p := fun d => !sep d) (l := c :: rest)
        have some : (c :: rest).takeWhile (fun d => !sep d) ≠ [] := by simp [blank]
        have solid : ∀ d ∈ (c :: rest).takeWhile (fun d => !sep d), sep d = false := by
          intro d member
          simpa using List.mem_takeWhile_imp member
        have ends : ∀ d ∈ ((c :: rest).dropWhile fun d => !sep d).head?, sep d = true := by
          intro d member
          have stops := List.head?_dropWhile_not (fun d => !sep d) (c :: rest)
          rw [Option.mem_def.mp member] at stops
          simpa using stops
        have shorter : ((c :: rest).dropWhile fun d => !sep d).length < k := by
          have lengths := congrArg List.length split
          have positive := List.length_pos_iff.mpr some
          rw [List.length_append] at lengths
          omega
        rw [← split, words_word some solid ends]
        exact .word some solid ends (ih _ shorter _ rfl)

/-- A text has just the words that it spells. -/
theorem words_eq_iff : words sep text = ws ↔ Spells sep text ws :=
  ⟨fun same => same ▸ spells_words sep text, Spells.words_eq⟩

theorem spells_blank (blank : ∀ c ∈ pad, sep c = true) : Spells sep pad [] := by
  induction pad with
  | nil => exact .nil
  | cons c rest ih =>
    exact .skip (blank c List.mem_cons_self) (ih fun d member => blank d (List.mem_cons_of_mem _ member))

theorem Spells.append_blank (spells : Spells sep text ws) (blank : ∀ c ∈ pad, sep c = true) :
    Spells sep (text ++ pad) ws := by
  induction spells with
  | nil => exact spells_blank blank
  | skip first _ ih => exact .skip first ih
  | @word word text ws some solid ends _ ih =>
    rw [List.append_assoc]
    refine .word some solid ?_ ih
    intro c member
    cases text with
    | nil => exact blank c (List.mem_of_mem_head? member)
    | cons d rest => exact ends c member

theorem words_dropWhile (sep : α → Bool) (text : List α) : words sep (text.dropWhile sep) = words sep text := by
  induction text with
  | nil => rfl
  | cons c rest ih =>
    by_cases blank : sep c = true
    · rw [List.dropWhile_cons_of_pos blank, ih, words_skip blank]
    · rw [List.dropWhile_cons_of_neg blank]

/-- Separators at either end do not matter. -/
theorem words_trim (sep : α → Bool) (text : List α) :
    words sep ((text.dropWhile sep).reverse.dropWhile sep).reverse = words sep text := by
  have split := congrArg List.reverse (List.takeWhile_append_dropWhile (p := sep) (l := (text.dropWhile sep).reverse))
  rw [List.reverse_append, List.reverse_reverse] at split
  have blank : ∀ c ∈ ((text.dropWhile sep).reverse.takeWhile sep).reverse, sep c = true :=
    fun c member => List.mem_takeWhile_imp (List.mem_reverse.mp member)
  have more := ((spells_words sep ((text.dropWhile sep).reverse.dropWhile sep).reverse).append_blank blank).words_eq
  rw [← more, split, words_dropWhile]

end Words

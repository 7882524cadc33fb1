/-!
# Searching a text

Searches on lists of characters: the longest stretch that a character machine accepts
(`stretch`), the text before the first occurrence of a pattern (`before?`), and the parts of
a text between separators (`split`). The first two run in constant stack space; `stretch_cons`
and `before?_cons` are the recursion equations to reason with.

* `stretch_isPrefix`: a stretch is taken from the start of the text;
* `before?_append`: the text found is followed by the pattern.
-/

namespace LuaChecker.Text

/-! ## Stretches -/

variable {σ β : Type}

/-- The loop of `stretch`, with the marked characters so far, the last one first. -/
def stretchOnto (step : σ → Char → Option (σ × β)) (acc : List (Char × β)) :
    σ → List Char → List (Char × β)
  | _, [] => acc.reverse
  | s, c :: cs =>
    match step s c with
    | none => acc.reverse
    | some (s', mark) => stretchOnto step ((c, mark) :: acc) s' cs

/-- The longest stretch at the start of a text that a character machine accepts, each
character with the mark that the machine gives it. -/
def stretch (step : σ → Char → Option (σ × β)) (s : σ) (cs : List Char) : List (Char × β) :=
  stretchOnto step [] s cs

theorem stretchOnto_eq (step : σ → Char → Option (σ × β)) (acc : List (Char × β)) (s : σ)
    (cs : List Char) : stretchOnto step acc s cs = acc.reverse ++ stretch step s cs := by
  induction cs generalizing acc s with
  | nil => simp [stretch, stretchOnto]
  | cons c cs ih =>
    simp only [stretch, stretchOnto]
    cases h : step s c with
    | none => simp
    | some r => simp only; rw [ih, ih [(c, r.2)]]; simp

@[simp] theorem stretch_nil (step : σ → Char → Option (σ × β)) (s : σ) :
    stretch step s [] = [] := rfl

theorem stretch_cons (step : σ → Char → Option (σ × β)) (s : σ) (c : Char) (cs : List Char) :
    stretch step s (c :: cs) =
      match step s c with
      | none => []
      | some (s', mark) => (c, mark) :: stretch step s' cs := by
  simp only [stretch, stretchOnto]
  cases h : step s c with
  | none => rfl
  | some r => simp only; rw [stretchOnto_eq]; simp [stretch]

theorem stretch_isPrefix (step : σ → Char → Option (σ × β)) (s : σ) (cs : List Char) :
    (stretch step s cs).map Prod.fst <+: cs := by
  induction cs generalizing s with
  | nil => simp
  | cons c cs ih =>
    rw [stretch_cons]
    cases h : step s c with
    | none => simp
    | some r => simpa [List.cons_prefix_cons] using ih r.1

/-! ## Patterns -/

/-- The loop of `before?`, with the characters passed so far, the last one first. -/
def beforeOnto? (pattern acc : List Char) : List Char → Option (List Char)
  | [] => if pattern.isEmpty then some acc.reverse else none
  | c :: cs =>
    if pattern.isPrefixOf (c :: cs) then some acc.reverse
    else beforeOnto? pattern (c :: acc) cs

/-- The text before the first occurrence of `pattern`, if there is one. -/
def before? (pattern text : List Char) : Option (List Char) :=
  beforeOnto? pattern [] text

theorem beforeOnto?_eq (pattern acc text : List Char) :
    beforeOnto? pattern acc text = (before? pattern text).map (acc.reverse ++ ·) := by
  induction text generalizing acc with
  | nil =>
    simp only [before?, beforeOnto?]
    split <;> simp
  | cons c cs ih =>
    simp only [before?, beforeOnto?]
    split
    · simp
    · rw [ih, ih [c]]
      cases before? pattern cs <;> simp

theorem before?_nil (pattern : List Char) :
    before? pattern [] = if pattern.isEmpty then some [] else none := by
  simp [before?, beforeOnto?]

theorem before?_cons (pattern : List Char) (c : Char) (cs : List Char) :
    before? pattern (c :: cs) =
      if pattern.isPrefixOf (c :: cs) then some []
      else (before? pattern cs).map (c :: ·) := by
  simp only [before?, beforeOnto?]
  split
  · simp
  · rw [beforeOnto?_eq]
    rfl

theorem before?_append {pattern text inner : List Char} (h : before? pattern text = some inner) :
    inner ++ pattern <+: text := by
  induction text generalizing inner with
  | nil =>
    rw [before?_nil] at h
    split at h
    · rename_i he
      simp only [List.isEmpty_iff] at he
      cases h
      simp [he]
    · cases h
  | cons c cs ih =>
    rw [before?_cons] at h
    split at h
    · rename_i hp
      cases h
      simpa using List.isPrefixOf_iff_prefix.mp hp
    · obtain ⟨inner', h', rfl⟩ := Option.map_eq_some_iff.mp h
      simpa [List.cons_prefix_cons] using ih h'

/-! ## Separators -/

/-- The parts of a text between separators; one more than there are separators. -/
def split (separator : Char) : List Char → List (List Char)
  | [] => [[]]
  | c :: cs =>
    if c = separator then [] :: split separator cs
    else
      match split separator cs with
      | [] => [[c]]
      | part :: parts => (c :: part) :: parts

theorem split_ne_nil (separator : Char) (text : List Char) : split separator text ≠ [] := by
  cases text with
  | nil => simp [split]
  | cons c cs =>
    simp only [split]
    split
    · simp
    · split <;> simp

end LuaChecker.Text

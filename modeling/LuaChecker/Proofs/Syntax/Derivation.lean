import LuaChecker.Proofs.Syntax.Form
import LuaChecker.Proofs.Syntax.Lexical

/-!
# Derivations

What a derivation is made of, and what can be told from its form alone: whether functions or
chunks are in it, and with which texts its rows start.

* `Derives.suffix`: a derivation leaves the end of the list;
* `Derives.exists_front`: it does so whatever follows, as long as that goes on with no index
  and no call;
* `Form.isFlat`, `Form.isNullable`, `Form.avoids`: what a form tells.
-/

namespace LuaChecker.Grammar

variable {n : Nat} {f g : Form} {ts us vs : List Token} {hs is : List Header}

theorem Derives.suffix (h : Derives n f ts us hs) : us <:+ ts := by
  induction h with
  | empty | manyNil => exact List.suffix_rfl
  | word | oneOf | ofKind => exact List.suffix_cons _ _
  | andThen _ _ ihf ihg | manyCons _ _ ihf ihg => exact ihg.trans ihf
  | left _ ih | right _ ih | whole _ _ ih | exp _ ih | chunk _ ih => exact ih
  | @header n name path opening inside closing rest =>
    exact ⟨path ++ opening :: (inside ++ [closing]), by simp⟩

theorem Derives.lexical (h : Derives n f ts us hs) (hts : Lexical ts) : Lexical us :=
  hts.of_suffix h.suffix

/-- Whether an index or a call comes next depends on the tokens in front, if there are
some. -/
theorem startsSuffix_append (front : List Token)
    (h : startsSuffix us.head? = false → startsSuffix vs.head? = false) :
    startsSuffix (front ++ us).head? = false → startsSuffix (front ++ vs).head? = false := by
  cases front with
  | nil => exact h
  | cons t front => exact id

/-- A row has its form whatever follows it, as long as no index or call does where none
did. -/
theorem Derives.exists_front (h : Derives n f ts us hs) :
    ∃ front, ts = front ++ us ∧ ∀ {vs},
      (startsSuffix us.head? = false → startsSuffix vs.head? = false) →
      Derives n f (front ++ vs) vs hs := by
  induction h with
  | empty => exact ⟨[], rfl, fun _ => .empty⟩
  | @word _ _ t _ h => exact ⟨[t], rfl, fun _ => .word h⟩
  | @oneOf _ _ t _ h => exact ⟨[t], rfl, fun _ => .oneOf h⟩
  | @ofKind _ _ t _ h => exact ⟨[t], rfl, fun _ => .ofKind h⟩
  | andThen _ _ ihf ihg =>
    obtain ⟨front, rfl, hf⟩ := ihf
    obtain ⟨front', rfl, hg⟩ := ihg
    refine ⟨front ++ front', by simp, fun hvs => ?_⟩
    rw [List.append_assoc]
    exact .andThen (hf (startsSuffix_append _ hvs)) (hg hvs)
  | left _ ih =>
    obtain ⟨front, rfl, h⟩ := ih
    exact ⟨front, rfl, fun hvs => .left (h hvs)⟩
  | right _ ih =>
    obtain ⟨front, rfl, h⟩ := ih
    exact ⟨front, rfl, fun hvs => .right (h hvs)⟩
  | manyNil => exact ⟨[], rfl, fun _ => .manyNil⟩
  | manyCons _ _ ihf ihg =>
    obtain ⟨front, rfl, hf⟩ := ihf
    obtain ⟨front', rfl, hg⟩ := ihg
    refine ⟨front ++ front', by simp, fun hvs => ?_⟩
    rw [List.append_assoc]
    exact .manyCons (hf (startsSuffix_append _ hvs)) (hg hvs)
  | whole _ hend ih =>
    obtain ⟨front, rfl, h⟩ := ih
    exact ⟨front, rfl, fun hvs => .whole (h hvs) (hvs hend)⟩
  | @header _ _ path opening inside closing rest _ hopening _ hclosing ihname ihinside =>
    obtain ⟨front, heq, hname⟩ := ihname
    obtain rfl := List.append_cancel_right heq
    obtain ⟨front', heq', hinside⟩ := ihinside
    obtain rfl := List.append_cancel_right heq'
    refine ⟨path ++ opening :: (inside ++ [closing]), by simp, fun {vs} _ => ?_⟩
    have hvs : path ++ opening :: (inside ++ [closing]) ++ vs =
        path ++ opening :: (inside ++ closing :: vs) := by simp
    rw [hvs]
    exact .header (hname id) hopening (hinside id) hclosing
  | exp _ ih =>
    obtain ⟨front, rfl, h⟩ := ih
    exact ⟨front, rfl, fun hvs => .exp (h hvs)⟩
  | chunk _ ih =>
    obtain ⟨front, rfl, h⟩ := ih
    exact ⟨front, rfl, fun hvs => .chunk (h hvs)⟩

/-! ## Derivations by form -/

theorem derives_empty : Derives n .empty ts us hs ↔ us = ts ∧ hs = [] := by
  constructor
  · intro h
    cases h
    exact ⟨rfl, rfl⟩
  · rintro ⟨rfl, rfl⟩
    exact .empty

theorem derives_andThen :
    Derives n (.andThen f g) ts vs hs ↔
      ∃ us is js, Derives n f ts us is ∧ Derives n g us vs js ∧ hs = is ++ js := by
  constructor
  · intro h
    cases h with
    | andThen hf hg => exact ⟨_, _, _, hf, hg, rfl⟩
  · rintro ⟨us, is, js, hf, hg, rfl⟩
    exact .andThen hf hg

theorem derives_either :
    Derives n (.either f g) ts us hs ↔ Derives n f ts us hs ∨ Derives n g ts us hs := by
  constructor
  · intro h
    cases h with
    | left h => exact .inl h
    | right h => exact .inr h
  · rintro (h | h)
    · exact .left h
    · exact .right h

theorem derives_whole :
    Derives n (.whole f) ts us hs ↔ Derives n f ts us hs ∧ startsSuffix us.head? = false := by
  constructor
  · intro h
    cases h with
    | whole h hend => exact ⟨h, hend⟩
  · rintro ⟨h, hend⟩
    exact .whole h hend

/-! ## Repetitions -/

theorem Derives.many_induction {motive : List Token → List Header → Prop}
    (h : Derives n (.many f) ts us hs) (nil : motive us [])
    (cons : ∀ {ts mid is js}, Derives n f ts mid is → Derives n (.many f) mid us js →
      motive mid js → motive ts (is ++ js)) : motive ts hs := by
  generalize hm : Form.many f = m at h
  induction h with
  | manyNil => exact nil
  | manyCons hf hg _ ih =>
    cases hm
    exact cons hf hg (ih nil cons rfl)
  | _ => cases hm

theorem Derives.many_concat (h : Derives n (.many f) ts us hs) (hf : Derives n f us vs is) :
    Derives n (.many f) ts vs (hs ++ is) := by
  refine h.many_induction (motive := fun ts hs => Derives n (.many f) ts vs (hs ++ is)) ?_ ?_
  · simpa using Derives.manyCons hf .manyNil
  · intro ts mid js ks hderives _ ih
    rw [List.append_assoc]
    exact .manyCons hderives ih

/-! ## What the form alone tells -/

namespace Form

/-- Whether no functions, expressions or chunks are in a row of the form. -/
def isFlat : Form → Bool
  | empty | word _ | oneOf _ | ofKind _ => true
  | andThen f g | either f g => f.isFlat && g.isFlat
  | many f | whole f => f.isFlat
  | header _ | exp | chunk => false

/-- Whether the row without tokens may be of the form. -/
def isNullable : Form → Bool
  | empty | many _ | chunk => true
  | word _ | oneOf _ | ofKind _ | header _ | exp => false
  | andThen f g => f.isNullable && g.isNullable
  | either f g => f.isNullable || g.isNullable
  | whole f => f.isNullable

/-- The texts that an expression can start with, names, numbers and strings apart. -/
def operandStarts : List String := unaryOperators ++ literals ++ ["function", "\x7b", "("]

/-- Whether no row of the form starts with one of these fixed texts. Nothing is said about
chunks. -/
def avoids (texts : List String) : Form → Bool
  | empty => true
  | word text => !texts.contains text
  | oneOf others => others.all (!texts.contains ·)
  | ofKind kind => kind.isFree
  | andThen f g => f.avoids texts && (!f.isNullable || g.avoids texts)
  | either f g => f.avoids texts && g.avoids texts
  | many f | whole f => f.avoids texts
  | header name => name.avoids texts && (!name.isNullable || !texts.contains "(")
  | exp => operandStarts.all (!texts.contains ·)
  | chunk => false

/-- Whether every row of the form starts with a token that has none of these texts, which
are fixed. -/
def startsOutside (texts : List String) (f : Form) : Bool :=
  !f.isNullable && f.avoids texts && texts.all (fixedTexts.contains ·)

theorem avoids_operands {texts : List String} (h : exp.avoids texts = true) :
    operands.avoids texts = true := by
  simp only [avoids, operandStarts, List.all_append, List.all_cons, List.all_nil,
    Bool.and_true, Bool.and_eq_true] at h
  obtain ⟨⟨hunary, hliteral⟩, hfunction, hbrace, hparenthesis⟩ := h
  have hvalue : value.avoids texts = true := by
    simp only [value, table, prefixExp, primary, name, row, choice, avoids, isNullable,
      Kind.isFree, hliteral, hfunction, hbrace, hparenthesis]
    rfl
  simp only [operands, operand, row, avoids, hunary, hvalue]
  rfl

end Form

theorem Derives.eq_nil_of_isFlat (h : Derives n f ts us hs) (hf : f.isFlat = true) : hs = [] := by
  induction h with
  | empty | word | oneOf | ofKind | manyNil => rfl
  | andThen _ _ ihf ihg =>
    simp only [Form.isFlat, Bool.and_eq_true] at hf
    rw [ihf hf.1, ihg hf.2, List.append_nil]
  | left _ ih =>
    simp only [Form.isFlat, Bool.and_eq_true] at hf
    exact ih hf.1
  | right _ ih =>
    simp only [Form.isFlat, Bool.and_eq_true] at hf
    exact ih hf.2
  | manyCons _ _ ihf ihg => rw [ihf hf, ihg hf, List.append_nil]
  | whole _ _ ih => exact ih hf
  | header | exp | chunk => cases hf

end LuaChecker.Grammar

import LuaChecker.Piece.Scan

/-!
# Tokens as the lexer yields them

The kind of a token and its text belong together: keywords are the reserved words, symbols
are those of the language, and no name, number or string has the text of either. So a
fixed text tells the kind of its token, which is what the grammar relies on.

* `Token.IsLexical.text_notMem`: names, numbers and strings have no fixed text;
* `Avoids`: what a list of tokens does not start with.
-/

namespace LuaChecker

def symbols : List String :=
  Piece.singleSymbols.map String.singleton ++ Piece.longSymbols.map String.ofList

/-- The texts that belong to one kind of token only. -/
def fixedTexts : List String := reservedWords ++ symbols

/-- Whether a text is made like a name; a reserved word is, too. -/
def isIdentifier (text : String) : Bool :=
  match text.toList with
  | c :: cs => Piece.isNameStart c && cs.all Piece.isNamePart
  | [] => false

/-- Whether a token of the kind can have any text that is not fixed. -/
def Kind.isFree : Kind → Bool
  | .name | .number | .string => true
  | .keyword | .symbol | .invalid => false

/-- The kind and the text of a token belong together. -/
structure Token.IsLexical (t : Token) : Prop where
  valid : t.kind ≠ .invalid
  keyword : t.kind = .keyword → t.text ∈ reservedWords
  symbol : t.kind = .symbol → t.text ∈ symbols
  name : t.kind = .name → isIdentifier t.text = true
  free : t.kind.isFree = true → t.text ∉ reservedWords ∧ t.text ∉ symbols

instance (t : Token) : Decidable t.IsLexical :=
  decidable_of_iff
    (t.kind ≠ .invalid ∧ (t.kind = .keyword → t.text ∈ reservedWords) ∧
      (t.kind = .symbol → t.text ∈ symbols) ∧ (t.kind = .name → isIdentifier t.text = true) ∧
      (t.kind.isFree = true → t.text ∉ reservedWords ∧ t.text ∉ symbols))
    ⟨fun ⟨valid, keyword, symbol, name, free⟩ => ⟨valid, keyword, symbol, name, free⟩,
      fun h => ⟨h.valid, h.keyword, h.symbol, h.name, h.free⟩⟩

theorem Token.IsLexical.text_notMem {t : Token} (ht : t.IsLexical)
    (hfree : t.kind.isFree = true) : t.text ∉ fixedTexts := by
  obtain ⟨hreserved, hsymbol⟩ := ht.free hfree
  simp [fixedTexts, hreserved, hsymbol]

theorem Token.IsLexical.notMem_of_kind {t : Token} {kind : Kind} (ht : t.IsLexical)
    (hkind : t.kind = kind) (hfree : kind.isFree = true) : t.text ∉ fixedTexts :=
  ht.text_notMem (hkind ▸ hfree)

theorem Token.IsLexical.text_ne {t : Token} {kind : Kind} {text : String} (ht : t.IsLexical)
    (hkind : t.kind = kind) (hfree : kind.isFree = true) (hfixed : text ∈ fixedTexts) :
    t.text ≠ text :=
  fun htext => ht.notMem_of_kind hkind hfree (htext ▸ hfixed)

theorem Token.IsLexical.kind_ne {t : Token} {kind : Kind} {text : String} (ht : t.IsLexical)
    (htext : t.text = text) (hfixed : text ∈ fixedTexts) (hfree : kind.isFree = true) :
    t.kind ≠ kind :=
  fun hkind => ht.text_ne hkind hfree hfixed htext

def Lexical (ts : List Token) : Prop := ∀ t ∈ ts, t.IsLexical

instance (ts : List Token) : Decidable (Lexical ts) :=
  inferInstanceAs (Decidable (∀ t ∈ ts, t.IsLexical))

theorem Lexical.head {t : Token} {ts : List Token} (h : Lexical (t :: ts)) : t.IsLexical :=
  h t List.mem_cons_self

theorem Lexical.tail {t : Token} {ts : List Token} (h : Lexical (t :: ts)) : Lexical ts :=
  fun u hu => h u (List.mem_cons_of_mem t hu)

theorem Lexical.of_suffix {ts us : List Token} (h : Lexical ts) (hs : us <:+ ts) : Lexical us :=
  fun t ht => h t (hs.subset ht)

/-! ## What a list does not start with -/

/-- The first token, if there is one, has none of these texts. -/
def Avoids (texts : List String) (ts : List Token) : Prop :=
  ∀ t ∈ ts.head?, t.text ∉ texts

/-- The first token, if there is one, is not of this kind. -/
def AvoidsKind (kind : Kind) (ts : List Token) : Prop :=
  ∀ t ∈ ts.head?, t.kind ≠ kind

variable {texts : List String} {t : Token} {ts : List Token}

theorem Avoids.nil : Avoids texts [] := by
  intro t ht
  cases ht

theorem avoids_cons : Avoids texts (t :: ts) ↔ t.text ∉ texts := by
  simp [Avoids]

theorem Avoids.mono {fewer : List String} (h : Avoids texts ts) (hsub : ∀ s ∈ fewer, s ∈ texts) :
    Avoids fewer ts :=
  fun t ht hmem => h t ht (hsub _ hmem)

theorem avoids_of_text {text : String} (ht : t.text = text) (hnot : text ∉ texts) :
    Avoids texts (t :: ts) := by
  rw [avoids_cons, ht]
  exact hnot

theorem avoids_of_kind {kind : Kind} (ht : t.IsLexical) (hkind : t.kind = kind)
    (hfree : kind.isFree = true) (hfixed : ∀ s ∈ texts, s ∈ fixedTexts) :
    Avoids texts (t :: ts) :=
  avoids_cons.mpr fun hmem => ht.notMem_of_kind hkind hfree (hfixed _ hmem)

theorem avoidsKind_of_text {kind : Kind} {text : String} (ht : t.IsLexical)
    (htext : t.text = text) (hfixed : text ∈ fixedTexts) (hfree : kind.isFree = true) :
    AvoidsKind kind (t :: ts) := by
  intro u hu
  cases hu
  exact ht.kind_ne htext hfixed hfree

theorem avoidsKind_of_kind {kind other : Kind} (ht : t.kind = kind)
    (hne : kind ≠ other) : AvoidsKind other (t :: ts) := by
  intro u hu
  cases hu
  rw [ht]
  exact hne

end LuaChecker

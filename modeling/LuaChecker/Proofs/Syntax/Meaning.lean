import LuaChecker.Proofs.Syntax.Derivation

/-!
# Derivations through misspelt words

A row of tokens may be meant to have a form that it does not have: where a statement could
begin, a name that makes none may stand for a word that starts a statement or closes the
block; and where a word separates the parts of a statement, a name may stand for that word.
Such a row means what the row with that word in the place of the name means.

`Means` is `Derives` with these two more ways to read on. It keeps the events that a parse is
to record, the misspelt words among them, and it knows the words that can close a chunk,
from what stands behind it in the form.

* `Derives.means`: what has a derivation means what it says;
* `means_word`, `means_row` and the lemmas near them: meanings by form;
* `means_separated`: the two parts of a statement that a word separates;
* `Means.many_induction`, `Means.statements_induction`: induction on a repetition;
* `Means.avoids_first`: a row meant to have a form does not start with certain texts.
-/

namespace LuaChecker

/-- The candidate that a word is read as a misspelling of. -/
def Speller.best {α : Type} (speller : Speller) (text : α → String) (candidates : List α)
    (found : String) : Option α :=
  (speller.closest found (candidates.map text)).bind (candidates[·]?)

theorem Speller.mem_of_best {α : Type} {speller : Speller} {text : α → String}
    {candidates : List α} {found : String} {a : α}
    (h : speller.best text candidates found = some a) : a ∈ candidates := by
  obtain ⟨i, -, hi⟩ := Option.bind_eq_some_iff.mp h
  exact List.mem_of_getElem? hi

namespace Grammar

/-! ## The events of a derivation -/

def parameterEvents (names : List String) (variadic : Bool) : List Event :=
  if names.isEmpty && !variadic then [] else [.parameters names variadic]

def Header.events (h : Header) : List Event :=
  .header (some h.line) (String.join h.path) :: parameterEvents h.names h.variadic

def headerEvents (hs : List Header) : List Event := hs.flatMap Header.events

@[simp] theorem headerEvents_nil : headerEvents [] = [] := rfl

@[simp] theorem headerEvents_append (hs is : List Header) :
    headerEvents (hs ++ is) = headerEvents hs ++ headerEvents is :=
  List.flatMap_append

theorem headerEvents_cons (h : Header) (hs : List Header) :
    headerEvents (h :: hs) = h.events ++ headerEvents hs :=
  List.flatMap_cons

/-- That the token `found` is read as the word of the token `meant`. -/
def typoEvent (found meant : Token) : Event :=
  .finding (some found.line) (.typo found.text meant.text)

/-! ## The words that close a chunk -/

def Closer.all : List Closer := [.endWord, .untilWord, .elseifWord, .elseWord]

namespace Form

/-- The closing words that a row of the form can start with. -/
def closers : Form → List Closer
  | word text => Closer.all.filter (·.text = text)
  | andThen f g => f.closers ++ if f.isNullable then g.closers else []
  | either f g => f.closers ++ g.closers
  | many f | whole f => f.closers
  | empty | oneOf _ | ofKind _ | header _ | exp | chunk => []

/-- The closing words that can come next in front of a row of the form, with these words
behind it. -/
def before (f : Form) (behind : List Closer) : List Closer :=
  f.closers ++ if f.isNullable then behind else []

/-- A statement of a block, with the semicolon that may follow it. -/
def statementRow : Form := row [statement, maybe (word ";")]

end Form

/-! ## Misspelt words -/

/-- In a block with these closing words the name `found` is a misspelling of the word of the
token `meant`. With the tokens `ts` behind it, it makes no statement. It is like one of the
closing words, or if it is like none, like one of the words that start a statement; the word
that it is most like is the one of `meant`. -/
structure Misspelling (speller : Speller) (closers : List Closer) (found meant : Token)
    (ts : List Token) : Prop where
  kind : found.kind = .name
  lexical : meant.IsLexical
  noSuffix : startsSuffix ts.head? = false
  noTarget : Avoids [",", "="] ts
  word :
    (∃ closer, speller.best Closer.text closers found.text = some closer ∧
      meant.text = closer.text) ∨
    (speller.best Closer.text closers found.text = none ∧
      ∃ opener, speller.best Opener.text Opener.all found.text = some opener ∧
        meant.text = opener.text)

/-! ## Misspelt separators -/

namespace Form

/-- What a `for` statement runs through. -/
def forRange : Form :=
  choice [row [name, word "=", exp, word ",", exp, maybe (row [word ",", exp])],
    row [commaList name, word "in", commaList exp]]

/-- An `if` statement behind its first `then`. -/
def branches : Form :=
  row [chunk, many (row [word "elseif", exp, word "then", chunk]),
    maybe (row [word "else", chunk]), word "end"]

/-- The words that separate the parts of a statement. -/
def separators : List String := ["then", "do", "in"]

/-- Whether a row of the form starts with a word that may separate two parts. -/
def startsWithSeparator : Form → Bool
  | andThen (word text) _ => separators.contains text
  | _ => false

end Form

/-- A word between two parts of a statement. -/
inductive Separator
  | ifThen
  | elseifThen
  | whileDo
  | forDo
  | forIn
  deriving DecidableEq, Repr

namespace Separator

def text : Separator → String
  | ifThen | elseifThen => "then"
  | whileDo | forDo => "do"
  | forIn => "in"

/-- How a diagnostic tells where the word has to stand. -/
def place : Separator → Place
  | ifThen => .after "if"
  | elseifThen => .after "elseif"
  | whileDo => .after "while"
  | forDo | forIn => .forLoop

/-- The form of the part in front of the word. -/
def front : Separator → Form
  | ifThen | elseifThen | whileDo => .exp
  | forDo => .forRange
  | forIn => .commaList .name

/-- The form of the part behind the word. -/
def back : Separator → Form
  | ifThen => .branches
  | elseifThen => .chunk
  | whileDo | forDo => .row [.chunk, .word "end"]
  | forIn => .commaList .exp

/-- The form of the two parts with the word between them. -/
def form (s : Separator) : Form := .andThen s.front (.andThen (.word s.text) s.back)

end Separator

/-- The name `found` is a misspelling of the separator. -/
structure SeparatorTypo (speller : Speller) (s : Separator) (found : Token) : Prop where
  kind : found.kind = .name
  resembles : speller.resembles found.text s.text = true

/-- That the token `found` stands where the separator has to stand. -/
def missingEvent (s : Separator) (found : Token) : Event :=
  .finding (some found.line) (.missing found.text s.text s.place)

/-- The token is read as the separator, and the events are what is recorded of it. -/
inductive ReadAs (speller : Speller) (s : Separator) : Token → List Event → Prop
  | itself {t} (h : t.text = s.text) : ReadAs speller s t []
  | misspelt {t} (h : SeparatorTypo speller s t) : ReadAs speller s t [missingEvent s t]

/-- `Means speller n b f ts rest es`: the list `ts` starts with a row of tokens that is
meant to have the form `f`, in front of the closing words `b`; `rest` is what follows it, no
more than `n` expressions and chunks are inside one another, and `es` are the events.

If a closing word is misspelt behind the row, `rest` starts with that word. -/
inductive Means (speller : Speller) :
    Nat → List Closer → Form → List Token → List Token → List Event → Prop
  | empty {n b ts} : Means speller n b .empty ts ts []
  | word {n b text t ts} (h : t.text = text) : Means speller n b (.word text) (t :: ts) ts []
  | oneOf {n b texts t ts} (h : t.text ∈ texts) :
      Means speller n b (.oneOf texts) (t :: ts) ts []
  | ofKind {n b kind t ts} (h : t.kind = kind) :
      Means speller n b (.ofKind kind) (t :: ts) ts []
  | andThen {n b f g ts us vs es is} (hf : Means speller n (g.before b) f ts us es)
      (hg : Means speller n b g us vs is) : Means speller n b (.andThen f g) ts vs (es ++ is)
  | left {n b f g ts us es} (h : Means speller n b f ts us es) :
      Means speller n b (.either f g) ts us es
  | right {n b f g ts us es} (h : Means speller n b g ts us es) :
      Means speller n b (.either f g) ts us es
  | manyNil {n b f ts} : Means speller n b (.many f) ts ts []
  | manyCons {n b f ts us vs es is} (hf : Means speller n ((Form.many f).before b) f ts us es)
      (hg : Means speller n b (.many f) us vs is) : Means speller n b (.many f) ts vs (es ++ is)
  | misspelt {n b found meant ts us es} (hm : Misspelling speller b found meant ts)
      (h : Means speller n b (.many .statementRow) (meant :: ts) us es) :
      Means speller n b (.many .statementRow) (found :: ts) us (typoEvent found meant :: es)
  | separated {n b found ts us vs es is} (s : Separator) (hfound : SeparatorTypo speller s found)
      (hf : Means speller n ((Form.andThen (.word s.text) s.back).before b) s.front ts
        (found :: us) es)
      (hg : Means speller n b s.back us vs is) :
      Means speller n b (.andThen s.front (.andThen (.word s.text) s.back)) ts vs
        (es ++ missingEvent s found :: is)
  | whole {n b f ts us es} (h : Means speller n b f ts us es)
      (hend : startsSuffix us.head? = false) : Means speller n b (.whole f) ts us es
  | header {n b name path opening inside closing rest}
      (hname : Means speller n [] name (path ++ opening :: (inside ++ closing :: rest))
        (opening :: (inside ++ closing :: rest)) [])
      (hopening : opening.text = "(")
      (hinside : Means speller n [] .parameters (inside ++ closing :: rest) (closing :: rest) [])
      (hclosing : closing.text = ")") :
      Means speller n b (.header name) (path ++ opening :: (inside ++ closing :: rest)) rest
        (Header.events ⟨path.map (·.text), opening.line, namesOf inside, hasDots inside⟩)
  | exp {n b ts us es} (h : Means speller n [] .operands ts us es) :
      Means speller (n + 1) b .exp ts us es
  | chunk {n b ts us es} (h : Means speller n b .statements ts us es) :
      Means speller (n + 1) b .chunk ts us es

variable {speller : Speller} {n : Nat} {b : List Closer} {f g : Form} {ts us vs : List Token}
  {es is : List Event} {hs : List Header}

/-- Where nothing is misspelt, a row means what it says. -/
theorem Derives.means (speller : Speller) (b : List Closer) (h : Derives n f ts us hs) :
    Means speller n b f ts us (headerEvents hs) := by
  induction h generalizing b with
  | empty => exact .empty
  | word h => exact .word h
  | oneOf h => exact .oneOf h
  | ofKind h => exact .ofKind h
  | andThen _ _ ihf ihg =>
    rw [headerEvents_append]
    exact .andThen (ihf _) (ihg b)
  | left _ ih => exact .left (ih b)
  | right _ ih => exact .right (ih b)
  | manyNil => exact .manyNil
  | manyCons _ _ ihf ihg =>
    rw [headerEvents_append]
    exact .manyCons (ihf _) (ihg b)
  | whole _ hend ih => exact .whole (ih b) hend
  | header _ hopening _ hclosing ihname ihinside =>
    rw [headerEvents_cons, headerEvents_nil, List.append_nil]
    exact .header (ihname []) hopening (ihinside []) hclosing
  | exp _ ih => exact .exp (ih [])
  | chunk _ ih => exact .chunk (ih b)

/-! ## Meanings by form -/

theorem means_empty (h : Means speller n b .empty ts us es) : us = ts ∧ es = [] := by
  cases h with
  | empty => exact ⟨rfl, rfl⟩

theorem means_word {text : String} (h : Means speller n b (.word text) ts us es) :
    ∃ t, ts = t :: us ∧ t.text = text ∧ es = [] := by
  cases h with
  | word h => exact ⟨_, rfl, h, rfl⟩

theorem means_oneOf {texts : List String} (h : Means speller n b (.oneOf texts) ts us es) :
    ∃ t, ts = t :: us ∧ t.text ∈ texts ∧ es = [] := by
  cases h with
  | oneOf h => exact ⟨_, rfl, h, rfl⟩

theorem means_ofKind {kind : Kind} (h : Means speller n b (.ofKind kind) ts us es) :
    ∃ t, ts = t :: us ∧ t.kind = kind ∧ es = [] := by
  cases h with
  | ofKind h => exact ⟨_, rfl, h, rfl⟩

theorem means_either (h : Means speller n b (.either f g) ts us es) :
    Means speller n b f ts us es ∨ Means speller n b g ts us es := by
  cases h with
  | left h => exact .inl h
  | right h => exact .inr h

theorem means_maybe (h : Means speller n b f.maybe ts us es) :
    Means speller n b f ts us es ∨ (us = ts ∧ es = []) := by
  exact (means_either h).imp_right means_empty

theorem means_many (h : Means speller n b (.many f) ts vs es) (hf : f ≠ .statementRow) :
    (vs = ts ∧ es = []) ∨ ∃ us is js, Means speller n ((Form.many f).before b) f ts us is ∧
      Means speller n b (.many f) us vs js ∧ es = is ++ js := by
  cases h with
  | manyNil => exact .inl ⟨rfl, rfl⟩
  | manyCons hf hg => exact .inr ⟨_, _, _, hf, hg, rfl⟩
  | misspelt => exact absurd rfl hf

theorem means_whole (h : Means speller n b (.whole f) ts us es) :
    Means speller n b f ts us es ∧ startsSuffix us.head? = false := by
  cases h with
  | whole h hend => exact ⟨h, hend⟩

theorem means_header {name : Form} (h : Means speller n b (.header name) ts us es) :
    ∃ path opening inside closing, ts = path ++ opening :: (inside ++ closing :: us) ∧
      Means speller n [] name ts (opening :: (inside ++ closing :: us)) [] ∧
      opening.text = "(" ∧
      Means speller n [] .parameters (inside ++ closing :: us) (closing :: us) [] ∧
      closing.text = ")" ∧
      es = Header.events ⟨path.map (·.text), opening.line, namesOf inside, hasDots inside⟩ := by
  cases h with
  | header hname hopening hinside hclosing =>
    exact ⟨_, _, _, _, rfl, hname, hopening, hinside, hclosing, rfl⟩

theorem means_exp (h : Means speller (n + 1) b .exp ts us es) :
    Means speller n [] .operands ts us es := by
  cases h with
  | exp h => exact h

theorem means_chunk (h : Means speller (n + 1) b .chunk ts us es) :
    Means speller n b .statements ts us es := by
  cases h with
  | chunk h => exact h

/-! ### Rows -/

variable {fs : List Form}

/-- One part after another, where no separator stands between two parts of a statement. -/
theorem means_andThen (h : Means speller n b (.andThen f g) ts vs es)
    (hnot : ∀ s : Separator, f = s.front → g = .andThen (.word s.text) s.back → False) :
    ∃ us is js, Means speller n (g.before b) f ts us is ∧ Means speller n b g us vs js ∧
      es = is ++ js := by
  cases h with
  | andThen hf hg => exact ⟨_, _, _, hf, hg, rfl⟩
  | separated s => exact (hnot s rfl rfl).elim

theorem Separator.text_mem (s : Separator) : s.text ∈ Form.separators := by
  cases s <;> decide

theorem means_row (h : Means speller n b (.row (f :: g :: fs)) ts vs es)
    (hfirst : (Form.row (g :: fs)).startsWithSeparator = false) :
    ∃ us is js, Means speller n ((Form.row (g :: fs)).before b) f ts us is ∧
      Means speller n b (.row (g :: fs)) us vs js ∧ es = is ++ js := by
  refine means_andThen h fun s _ heq => ?_
  rw [heq] at hfirst
  exact Bool.false_ne_true (hfirst.symm.trans (List.contains_iff_mem.mpr s.text_mem))

/-- The part in front of a separator is made of more than one token. -/
theorem Separator.front_ne (s : Separator) :
    (∀ text, .word text ≠ s.front) ∧ (∀ kind, .ofKind kind ≠ s.front) ∧
      ∀ texts, .oneOf texts ≠ s.front := by
  cases s <;> exact ⟨nofun, nofun, nofun⟩

theorem means_row_word {text : String}
    (h : Means speller n b (.row (.word text :: f :: fs)) ts vs es) :
    ∃ t us, ts = t :: us ∧ t.text = text ∧ Means speller n b (.row (f :: fs)) us vs es := by
  obtain ⟨us, is, js, hword, hrest, rfl⟩ := means_andThen h fun s heq _ => s.front_ne.1 _ heq
  obtain ⟨t, rfl, ht, rfl⟩ := means_word hword
  exact ⟨t, us, rfl, ht, hrest⟩

theorem means_row_kind {kind : Kind}
    (h : Means speller n b (.row (.ofKind kind :: f :: fs)) ts vs es) :
    ∃ t us, ts = t :: us ∧ t.kind = kind ∧ Means speller n b (.row (f :: fs)) us vs es := by
  obtain ⟨us, is, js, hkind, hrest, rfl⟩ := means_andThen h fun s heq _ => s.front_ne.2.1 _ heq
  obtain ⟨t, rfl, ht, rfl⟩ := means_ofKind hkind
  exact ⟨t, us, rfl, ht, hrest⟩

theorem means_row_oneOf {texts : List String}
    (h : Means speller n b (.row (.oneOf texts :: f :: fs)) ts vs es) :
    ∃ t us, ts = t :: us ∧ t.text ∈ texts ∧ Means speller n b (.row (f :: fs)) us vs es := by
  obtain ⟨us, is, js, hword, hrest, rfl⟩ := means_andThen h fun s heq _ => s.front_ne.2.2 _ heq
  obtain ⟨t, rfl, ht, rfl⟩ := means_oneOf hword
  exact ⟨t, us, rfl, ht, hrest⟩

theorem means_before_word {text : String} (h : Means speller n b (.row [f, .word text]) ts vs es) :
    ∃ t, Means speller n ((Form.word text).before b) f ts (t :: vs) es ∧ t.text = text := by
  obtain ⟨us, is, js, hf, hword, rfl⟩ := means_row h rfl
  obtain ⟨t, rfl, ht, rfl⟩ := means_word hword
  rw [List.append_nil]
  exact ⟨t, hf, ht⟩

/-! ### Parts with a separator between them -/

theorem Separator.form_inj {s s' : Separator} (h : s.form = s'.form) : s = s' := by
  injection h with hfront hrest
  injection hrest with hword hback
  injection hword with htext
  cases s <;> cases s' <;>
    first
    | rfl
    | exact absurd htext (by decide)
    | exact Form.noConfusion hback
    | exact Form.noConfusion hfront

theorem means_separated (s : Separator) (h : Means speller n b s.form ts vs es) :
    ∃ c t us is js ks, Means speller n c s.front ts (t :: us) is ∧ ReadAs speller s t js ∧
      Means speller n b s.back us vs ks ∧ es = is ++ (js ++ ks) := by
  generalize hform : s.form = form at h
  cases h with
  | andThen hf hg =>
    injection hform with hfront hrest
    subst hfront hrest
    obtain ⟨us, is, js, hword, hback, rfl⟩ :=
      means_andThen hg fun s' heq _ => s'.front_ne.1 _ heq
    obtain ⟨t, rfl, ht, rfl⟩ := means_word hword
    exact ⟨_, t, us, _, [], js, hf, .itself ht, hback, rfl⟩
  | separated s' hfound hf hg =>
    obtain rfl := Separator.form_inj hform
    exact ⟨_, _, _, _, _, _, hf, .misspelt hfound, hg, rfl⟩
  | _ => cases hform

/-! ### Repetitions -/

theorem Means.many_induction {motive : List Token → List Event → Prop}
    (h : Means speller n b (.many f) ts us es) (hf : f ≠ .statementRow) (nil : motive us [])
    (cons : ∀ {ts mid is js}, Means speller n ((Form.many f).before b) f ts mid is →
      Means speller n b (.many f) mid us js → motive mid js → motive ts (is ++ js)) :
    motive ts es := by
  generalize hm : Form.many f = m at h
  induction h with
  | manyNil => exact nil
  | manyCons hmember hmore _ ih =>
    cases hm
    exact cons hmember hmore (ih nil cons rfl)
  | misspelt =>
    cases hm
    exact absurd rfl hf
  | _ => cases hm

theorem Means.statements_induction {motive : List Token → List Event → Prop}
    (h : Means speller n b (.many .statementRow) ts us es) (nil : motive us [])
    (cons : ∀ {ts mid is js},
      Means speller n ((Form.many .statementRow).before b) .statementRow ts mid is →
      motive mid js → motive ts (is ++ js))
    (misspelt : ∀ {found meant ts is}, Misspelling speller b found meant ts →
      motive (meant :: ts) is → motive (found :: ts) (typoEvent found meant :: is)) :
    motive ts es := by
  generalize hm : Form.many .statementRow = m at h
  induction h with
  | manyNil => exact nil
  | manyCons hmember _ _ ih =>
    cases hm
    exact cons hmember (ih nil cons misspelt rfl)
  | misspelt hfound _ ih => exact misspelt hfound (ih nil cons misspelt rfl)
  | _ => cases hm

/-! ## What the form alone tells -/

theorem Misspelling.lexical_cons {found meant : Token} (h : Misspelling speller b found meant ts)
    (hts : Lexical ts) : Lexical (meant :: ts) :=
  List.forall_mem_cons.mpr ⟨h.lexical, hts⟩

theorem Means.lexical (h : Means speller n b f ts us es) (hts : Lexical ts) : Lexical us := by
  induction h with
  | empty | manyNil => exact hts
  | word | oneOf | ofKind => exact hts.tail
  | andThen _ _ ihf ihg | manyCons _ _ ihf ihg => exact ihg (ihf hts)
  | left _ ih | right _ ih | whole _ _ ih | exp _ ih | chunk _ ih => exact ih hts
  | misspelt hfound _ ih => exact ih (hfound.lexical_cons hts.tail)
  | separated _ _ _ _ ihf ihg => exact ihg (ihf hts).tail
  | header _ _ _ _ ihname ihinside => exact (ihinside (ihname hts).tail).tail

theorem Separator.not_isFlat_back (s : Separator) : s.back.isFlat = false := by
  cases s <;> rfl

theorem Means.eq_nil_of_isFlat (h : Means speller n b f ts us es) (hf : f.isFlat = true) :
    es = [] := by
  induction h with
  | empty | word | oneOf | ofKind | manyNil => rfl
  | andThen _ _ ihf ihg =>
    simp only [Form.isFlat, Bool.and_eq_true] at hf
    rw [ihf hf.1, ihg hf.2, List.append_nil]
  | left _ ih =>
    simp only [Form.isFlat, Bool.and_eq_true] at hf
    exact ih hf.1
  | right _ ih =>
    simp only [Form.isFlat, Bool.and_eq_true] at hf
    exact ih hf.2
  | manyCons _ _ ihf ihg => rw [ihf hf, ihg hf, List.append_nil]
  | whole _ _ ih => exact ih hf
  | separated s =>
    simp only [Form.isFlat, Bool.and_eq_true, s.not_isFlat_back] at hf
    cases hf.2.2
  | misspelt | header | exp | chunk => cases hf

theorem Means.length_le (h : Means speller n b f ts us es) : us.length ≤ ts.length := by
  induction h with
  | empty | manyNil => exact Nat.le_refl _
  | word | oneOf | ofKind => exact Nat.le_succ _
  | andThen _ _ ihf ihg | manyCons _ _ ihf ihg => exact Nat.le_trans ihg ihf
  | left _ ih | right _ ih | whole _ _ ih | exp _ ih | chunk _ ih => exact ih
  | misspelt _ _ ih => exact ih
  | separated _ _ _ _ ihf ihg => exact Nat.le_trans ihg (Nat.le_of_succ_le ihf)
  | header =>
    simp only [List.length_append, List.length_cons]
    omega

theorem Means.length_lt (h : Means speller n b f ts us es) (hf : f.isNullable = false) :
    us.length < ts.length := by
  induction h with
  | empty | manyNil | manyCons | misspelt | chunk => cases hf
  | word | oneOf | ofKind => exact Nat.lt_succ_self _
  | andThen hleft hright ihf ihg =>
    have hle := hleft.length_le
    have hle' := hright.length_le
    rcases Bool.and_eq_false_iff.mp hf with hf | hf
    · have := ihf hf
      omega
    · have := ihg hf
      omega
  | separated _ _ hfront hback => exact Nat.lt_of_le_of_lt hback.length_le hfront.length_le
  | left _ ih => exact ih (Bool.or_eq_false_iff.mp hf).1
  | right _ ih => exact ih (Bool.or_eq_false_iff.mp hf).2
  | whole _ _ ih => exact ih hf
  | header =>
    simp only [List.length_append, List.length_cons]
    omega
  | exp _ ih => exact ih rfl

theorem Means.ne_nil (h : Means speller n b f ts us es) (hf : f.isNullable = false) : ts ≠ [] :=
  List.ne_nil_of_length_pos (Nat.zero_lt_of_lt (h.length_lt hf))

theorem Means.avoids {texts : List String} (h : Means speller n b f ts us es) (hts : Lexical ts)
    (hfixed : ∀ s ∈ texts, s ∈ fixedTexts) (hf : f.avoids texts = true)
    (hrest : f.isNullable = true → Avoids texts us) : Avoids texts ts := by
  induction h with
  | empty | manyNil => exact hrest rfl
  | word h =>
    rw [avoids_cons, h]
    simpa [Form.avoids] using hf
  | oneOf h =>
    rw [avoids_cons]
    intro hmem
    simpa [hmem] using List.all_eq_true.mp hf _ h
  | ofKind h =>
    rw [avoids_cons]
    intro hmem
    exact hts.head.text_notMem (h ▸ hf) (hfixed _ hmem)
  | andThen hmeans _ ihf ihg =>
    simp only [Form.avoids, Bool.and_eq_true, Bool.or_eq_true, Bool.not_eq_true'] at hf
    refine ihf hts hf.1 fun hnull => ihg (hmeans.lexical hts) ?_ fun hnull' => hrest ?_
    · simpa [hnull] using hf.2
    · simp [Form.isNullable, hnull, hnull']
  | left _ ih =>
    simp only [Form.avoids, Bool.and_eq_true] at hf
    exact ih hts hf.1 fun hnull => hrest (by simp [Form.isNullable, hnull])
  | right _ ih =>
    simp only [Form.avoids, Bool.and_eq_true] at hf
    exact ih hts hf.2 fun hnull => hrest (by simp [Form.isNullable, hnull])
  | manyCons hmeans _ ihf ihg =>
    exact ihf hts hf fun _ => ihg (hmeans.lexical hts) hf hrest
  | misspelt hfound =>
    exact avoids_of_kind hts.head hfound.kind rfl hfixed
  | separated _ hfound hfront _ ihf =>
    simp only [Form.avoids, Bool.and_eq_true] at hf
    exact ihf hts hf.1 fun _ =>
      avoids_of_kind (hfront.lexical hts).head hfound.kind rfl hfixed
  | whole _ _ ih => exact ih hts hf hrest
  | header _ hopening _ _ ih =>
    simp only [Form.avoids, Bool.and_eq_true, Bool.or_eq_true, Bool.not_eq_true'] at hf
    refine ih hts hf.1 fun hnull => ?_
    rw [avoids_cons, hopening]
    simpa [hnull] using hf.2
  | exp _ ih => exact ih hts (Form.avoids_operands hf) fun hnull => by cases hnull
  | chunk => cases hf

theorem Means.avoids_first {texts : List String} (h : Means speller n b f ts us es)
    (hts : Lexical ts) (hf : f.startsOutside texts = true) : Avoids texts ts := by
  simp only [Form.startsOutside, Bool.and_eq_true, Bool.not_eq_true', List.all_eq_true,
    List.contains_iff_mem] at hf
  obtain ⟨⟨hnull, havoids⟩, hfixed⟩ := hf
  refine h.avoids hts hfixed havoids fun htrue => ?_
  rw [hnull] at htrue
  cases htrue

end Grammar

end LuaChecker

import LuaChecker.Proofs.Syntax.Meaning

/-!
# Rows that break off

A program may be cut off inside a block, behind whole statements of it or in front of the
first one. What is in front of the cut begins a row of tokens and does not end it.

* `CutAt`: derivations that go through such a place;
* `BreaksOff`: the rows that are left in front of one;
* `CutAt.breaksOff`: in front of a place, a row breaks off;
* `breaksOff_row` and the lemmas near it: the rows by form;
* `BreaksOff.many_induction`: induction on a repetition whose last member breaks off;
* `BreaksOff.avoids`: a row that breaks off does not start with certain texts.
-/

namespace LuaChecker.Grammar

/-- `BreaksOff n b f ts hs`: in front of the closing words `b`, the tokens `ts` begin a row of
the form `f` and break off in a chunk that a word has to close, behind whole statements. No
more than `n` expressions and chunks are inside one another, and `hs` are the headers of the
functions, whether their bodies are whole or not. -/
inductive BreaksOff : Nat → List Closer → Form → List Token → List Header → Prop
  | inside {n b ts hs} (hb : b ≠ []) (h : Derives n .statements ts [] hs) :
      BreaksOff (n + 1) b .chunk ts hs
  | first {n b f g ts hs} (hf : BreaksOff n (g.before b) f ts hs) :
      BreaksOff n b (.andThen f g) ts hs
  | second {n b f g ts us hs is} (hf : Derives n f ts us hs) (hg : BreaksOff n b g us is) :
      BreaksOff n b (.andThen f g) ts (hs ++ is)
  | left {n b f g ts hs} (h : BreaksOff n b f ts hs) : BreaksOff n b (.either f g) ts hs
  | right {n b f g ts hs} (h : BreaksOff n b g ts hs) : BreaksOff n b (.either f g) ts hs
  | member {n b f ts hs} (hf : BreaksOff n ((Form.many f).before b) f ts hs) :
      BreaksOff n b (.many f) ts hs
  | later {n b f ts us hs is} (hf : Derives n f ts us hs) (hg : BreaksOff n b (.many f) us is) :
      BreaksOff n b (.many f) ts (hs ++ is)
  | whole {n b f ts hs} (h : BreaksOff n b f ts hs) : BreaksOff n b (.whole f) ts hs
  | exp {n b ts hs} (h : BreaksOff n [] .operands ts hs) : BreaksOff (n + 1) b .exp ts hs
  | chunk {n b ts hs} (h : BreaksOff n b .statements ts hs) : BreaksOff (n + 1) b .chunk ts hs

/-- `CutAt post n b f ts rest hs`: a derivation of the form `f` from `ts` to `rest`, in front of
the closing words `b`, goes into a chunk that a word has to close, and there past whole
statements up to the tokens `post`. The headers `hs` are those in front of `post`. -/
inductive CutAt (post : List Token) :
    Nat → List Closer → Form → List Token → List Token → List Header → Prop
  | inside {n b ts us hs is} (hb : b ≠ []) (hbefore : Derives n .statements ts post hs)
      (hall : Derives n .statements ts us (hs ++ is)) : CutAt post (n + 1) b .chunk ts us hs
  | first {n b f g ts us vs hs is} (hf : CutAt post n (g.before b) f ts us hs)
      (hg : Derives n g us vs is) : CutAt post n b (.andThen f g) ts vs hs
  | second {n b f g ts us vs hs is} (hf : Derives n f ts us hs)
      (hg : CutAt post n b g us vs is) : CutAt post n b (.andThen f g) ts vs (hs ++ is)
  | left {n b f g ts us hs} (h : CutAt post n b f ts us hs) :
      CutAt post n b (.either f g) ts us hs
  | right {n b f g ts us hs} (h : CutAt post n b g ts us hs) :
      CutAt post n b (.either f g) ts us hs
  | member {n b f ts us vs hs is} (hf : CutAt post n ((Form.many f).before b) f ts us hs)
      (hg : Derives n (.many f) us vs is) : CutAt post n b (.many f) ts vs hs
  | later {n b f ts us vs hs is} (hf : Derives n f ts us hs)
      (hg : CutAt post n b (.many f) us vs is) : CutAt post n b (.many f) ts vs (hs ++ is)
  | whole {n b f ts us hs} (h : CutAt post n b f ts us hs)
      (hend : startsSuffix us.head? = false) : CutAt post n b (.whole f) ts us hs
  | exp {n b ts us hs} (h : CutAt post n [] .operands ts us hs) :
      CutAt post (n + 1) b .exp ts us hs
  | chunk {n b ts us hs} (h : CutAt post n b .statements ts us hs) :
      CutAt post (n + 1) b .chunk ts us hs

variable {n : Nat} {b : List Closer} {f g : Form} {fs : List Form} {ts us post : List Token}
  {hs : List Header}

/-! ## In front of a place -/

/-- What is derived in front of a place is derived where the tokens end there. -/
theorem Derives.before_end {front : List Token} (h : Derives n f ts (front ++ post) hs) :
    ∃ front', ts = front' ++ post ∧ Derives n f front' front hs := by
  obtain ⟨before, rfl, hbefore⟩ := h.exists_front
  have hnone : startsSuffix (front ++ post).head? = false →
      startsSuffix (front ++ []).head? = false := startsSuffix_append front fun _ => rfl
  rw [List.append_nil] at hnone
  refine ⟨before ++ front, ?_, hbefore hnone⟩
  rw [List.append_assoc]

theorem CutAt.breaksOff (h : CutAt post n b f ts us hs) :
    ∃ front is, ts = front ++ post ∧ Derives n f ts us (hs ++ is) ∧ BreaksOff n b f front hs := by
  induction h with
  | @inside _ _ _ _ _ is hb hbefore hall =>
    rw [← List.nil_append post] at hbefore
    obtain ⟨front, rfl, hfront⟩ := hbefore.before_end
    exact ⟨front, is, rfl, .chunk hall, .inside hb hfront⟩
  | @first _ _ _ _ _ _ _ _ js _ hg ih =>
    obtain ⟨front, is, rfl, hderives, hbreaks⟩ := ih
    refine ⟨front, is ++ js, rfl, ?_, .first hbreaks⟩
    rw [← List.append_assoc]
    exact .andThen hderives hg
  | second hf _ ih =>
    obtain ⟨front, is, rfl, hderives, hbreaks⟩ := ih
    obtain ⟨front', rfl, hf'⟩ := hf.before_end
    refine ⟨front', is, rfl, ?_, .second hf' hbreaks⟩
    rw [List.append_assoc]
    exact .andThen hf hderives
  | left _ ih =>
    obtain ⟨front, is, rfl, hderives, hbreaks⟩ := ih
    exact ⟨front, is, rfl, .left hderives, .left hbreaks⟩
  | right _ ih =>
    obtain ⟨front, is, rfl, hderives, hbreaks⟩ := ih
    exact ⟨front, is, rfl, .right hderives, .right hbreaks⟩
  | @member _ _ _ _ _ _ _ js _ hg ih =>
    obtain ⟨front, is, rfl, hderives, hbreaks⟩ := ih
    refine ⟨front, is ++ js, rfl, ?_, .member hbreaks⟩
    rw [← List.append_assoc]
    exact .manyCons hderives hg
  | later hf _ ih =>
    obtain ⟨front, is, rfl, hderives, hbreaks⟩ := ih
    obtain ⟨front', rfl, hf'⟩ := hf.before_end
    refine ⟨front', is, rfl, ?_, .later hf' hbreaks⟩
    rw [List.append_assoc]
    exact .manyCons hf hderives
  | whole _ hend ih =>
    obtain ⟨front, is, rfl, hderives, hbreaks⟩ := ih
    exact ⟨front, is, rfl, .whole hderives hend, .whole hbreaks⟩
  | exp _ ih =>
    obtain ⟨front, is, rfl, hderives, hbreaks⟩ := ih
    exact ⟨front, is, rfl, .exp hderives, .exp hbreaks⟩
  | chunk _ ih =>
    obtain ⟨front, is, rfl, hderives, hbreaks⟩ := ih
    exact ⟨front, is, rfl, .chunk hderives, .chunk hbreaks⟩

/-! ## Rows that break off, by form -/

/-- Where there are no chunks, no row breaks off. -/
theorem not_breaksOff_of_isFlat (hf : f.isFlat = true) : ¬ BreaksOff n b f ts hs := by
  intro h
  induction h with
  | inside | exp | chunk => cases hf
  | first _ ih | left _ ih =>
    simp only [Form.isFlat, Bool.and_eq_true] at hf
    exact ih hf.1
  | second _ _ ih | right _ ih =>
    simp only [Form.isFlat, Bool.and_eq_true] at hf
    exact ih hf.2
  | member _ ih | later _ _ ih | whole _ ih => exact ih hf

theorem breaksOff_either (h : BreaksOff n b (.either f g) ts hs) :
    BreaksOff n b f ts hs ∨ BreaksOff n b g ts hs := by
  cases h with
  | left h => exact .inl h
  | right h => exact .inr h

/-- Of two alternatives the one without chunks does not break off. -/
theorem breaksOff_right (hf : f.isFlat = true) (h : BreaksOff n b (.either f g) ts hs) :
    BreaksOff n b g ts hs := by
  rcases breaksOff_either h with h | h
  · exact absurd h (not_breaksOff_of_isFlat hf)
  · exact h

theorem breaksOff_maybe (h : BreaksOff n b f.maybe ts hs) : BreaksOff n b f ts hs := by
  rcases breaksOff_either h with h | h
  · exact h
  · exact absurd h (not_breaksOff_of_isFlat rfl)

theorem breaksOff_whole (h : BreaksOff n b (.whole f) ts hs) : BreaksOff n b f ts hs := by
  cases h with
  | whole h => exact h

theorem breaksOff_exp (h : BreaksOff (n + 1) b .exp ts hs) : BreaksOff n [] .operands ts hs := by
  cases h with
  | exp h => exact h

theorem breaksOff_chunk (h : BreaksOff (n + 1) b .chunk ts hs) :
    (b ≠ [] ∧ Derives n .statements ts [] hs) ∨ BreaksOff n b .statements ts hs := by
  cases h with
  | inside hb h => exact .inl ⟨hb, h⟩
  | chunk h => exact .inr h

/-! ### Sequences -/

theorem breaksOff_row (h : BreaksOff n b (.row (f :: g :: fs)) ts hs) :
    BreaksOff n ((Form.row (g :: fs)).before b) f ts hs ∨
      ∃ us is js, Derives n f ts us is ∧ BreaksOff n b (.row (g :: fs)) us js ∧ hs = is ++ js := by
  cases h with
  | first hf => exact .inl hf
  | second hf hg => exact .inr ⟨_, _, _, hf, hg, rfl⟩

theorem breaksOff_row_flat (hf : f.isFlat = true) (h : BreaksOff n b (.row (f :: g :: fs)) ts hs) :
    ∃ us, Derives n f ts us [] ∧ BreaksOff n b (.row (g :: fs)) us hs := by
  rcases breaksOff_row h with h | ⟨us, is, js, hfirst, hrest, rfl⟩
  · exact absurd h (not_breaksOff_of_isFlat hf)
  · obtain rfl := hfirst.eq_nil_of_isFlat hf
    exact ⟨us, hfirst, hrest⟩

theorem breaksOff_row_word {text : String}
    (h : BreaksOff n b (.row (.word text :: g :: fs)) ts hs) :
    ∃ t us, ts = t :: us ∧ t.text = text ∧ BreaksOff n b (.row (g :: fs)) us hs := by
  obtain ⟨us, hword, hrest⟩ := breaksOff_row_flat rfl h
  cases hword with
  | word ht => exact ⟨_, us, rfl, ht, hrest⟩

theorem breaksOff_row_kind {kind : Kind}
    (h : BreaksOff n b (.row (.ofKind kind :: g :: fs)) ts hs) :
    ∃ t us, ts = t :: us ∧ t.kind = kind ∧ BreaksOff n b (.row (g :: fs)) us hs := by
  obtain ⟨us, hkind, hrest⟩ := breaksOff_row_flat rfl h
  cases hkind with
  | ofKind ht => exact ⟨_, us, rfl, ht, hrest⟩

theorem breaksOff_row_oneOf {texts : List String}
    (h : BreaksOff n b (.row (.oneOf texts :: g :: fs)) ts hs) :
    ∃ t us, ts = t :: us ∧ t.text ∈ texts ∧ BreaksOff n b (.row (g :: fs)) us hs := by
  obtain ⟨us, hword, hrest⟩ := breaksOff_row_flat rfl h
  cases hword with
  | oneOf ht => exact ⟨_, us, rfl, ht, hrest⟩

/-- In front of something without chunks, the row breaks off before it. -/
theorem breaksOff_before_flat (hg : g.isFlat = true) (h : BreaksOff n b (.row [f, g]) ts hs) :
    BreaksOff n (g.before b) f ts hs := by
  rcases breaksOff_row h with h | ⟨us, is, js, -, hrest, -⟩
  · exact h
  · exact absurd hrest (not_breaksOff_of_isFlat hg)

/-- A function breaks off in its body. -/
theorem breaksOff_functionBody {name : Form} (h : BreaksOff n b (.functionBody name) ts hs) :
    ∃ path opening inside closing mid is,
      ts = path ++ opening :: (inside ++ closing :: mid) ∧
      Derives n name ts (opening :: (inside ++ closing :: mid)) [] ∧ opening.text = "(" ∧
      Derives n .parameters (inside ++ closing :: mid) (closing :: mid) [] ∧ closing.text = ")" ∧
      BreaksOff n b (.row [.chunk, .word "end"]) mid is ∧
      hs = ⟨path.map (·.text), opening.line, namesOf inside, hasDots inside⟩ :: is := by
  rcases breaksOff_row h with h | ⟨mid, is, js, hheader, hbody, rfl⟩
  · cases h
  · cases hheader with
    | header hname hopening hinside hclosing =>
      exact ⟨_, _, _, _, mid, js, rfl, hname, hopening, hinside, hclosing, hbody, rfl⟩

theorem breaksOff_index (h : BreaksOff n b .index ts hs) :
    ∃ t us, ts = t :: us ∧ t.text = "[" ∧ BreaksOff n ((Form.word "]").before b) .exp us hs := by
  obtain ⟨t, us, rfl, ht, hrest⟩ := breaksOff_row_word (breaksOff_right rfl h)
  exact ⟨t, us, rfl, ht, breaksOff_before_flat rfl hrest⟩

theorem breaksOff_primary (h : BreaksOff n b .primary ts hs) :
    ∃ t us, ts = t :: us ∧ t.text = "(" ∧ BreaksOff n ((Form.word ")").before b) .exp us hs := by
  obtain ⟨t, us, rfl, ht, hrest⟩ := breaksOff_row_word (breaksOff_right rfl h)
  exact ⟨t, us, rfl, ht, breaksOff_before_flat rfl hrest⟩

/-- A value that breaks off is a function or a table, or it starts with a name or a
parenthesis. -/
theorem breaksOff_value (h : BreaksOff n b .value ts hs) :
    BreaksOff n b (.row [.word "function", .functionBody .empty]) ts hs ∨
      BreaksOff n b .table ts hs ∨ BreaksOff n b .prefixExp ts hs := by
  have h := breaksOff_right rfl (breaksOff_right rfl (breaksOff_right rfl h))
  rcases breaksOff_either h with hfunction | h
  · exact .inl hfunction
  rcases breaksOff_either h with htable | h
  · exact .inr (.inl htable)
  · exact .inr (.inr (breaksOff_whole h))

/-! ### Repetitions -/

theorem BreaksOff.many_induction {motive : List Token → List Header → Prop}
    (h : BreaksOff n b (.many f) ts hs)
    (member : ∀ {ts hs}, BreaksOff n ((Form.many f).before b) f ts hs → motive ts hs)
    (later : ∀ {ts us is js}, Derives n f ts us is → BreaksOff n b (.many f) us js →
      motive us js → motive ts (is ++ js)) : motive ts hs := by
  generalize hm : Form.many f = m at h
  induction h with
  | member h =>
    cases hm
    exact member h
  | later hf hg ih =>
    cases hm
    exact later hf hg (ih member later rfl)
  | _ => cases hm

/-- Behind whole members, one breaks off. -/
theorem breaksOff_many (h : BreaksOff n b (.many f) ts hs) :
    ∃ us is js, Derives n (.many f) ts us is ∧ BreaksOff n ((Form.many f).before b) f us js ∧
      hs = is ++ js := by
  refine h.many_induction (motive := fun ts hs => ∃ us is js, Derives n (.many f) ts us is ∧
    BreaksOff n ((Form.many f).before b) f us js ∧ hs = is ++ js) ?_ ?_
  · intro ts hs hmember
    exact ⟨ts, [], hs, .manyNil, hmember, rfl⟩
  · rintro ts mid ks ls hfirst - ⟨us, is, js, hmany, hmember, rfl⟩
    refine ⟨us, ks ++ is, js, .manyCons hfirst hmany, hmember, ?_⟩
    rw [List.append_assoc]

/-! ## What the form alone tells -/

/-- What is said of a row by `Means.avoids`, for derivations. Nothing is misspelt in them, so
any speller will do. -/
theorem Derives.avoids {texts : List String} (h : Derives n f ts us hs) (hts : Lexical ts)
    (hfixed : ∀ s ∈ texts, s ∈ fixedTexts) (hf : f.avoids texts = true)
    (hrest : f.isNullable = true → Avoids texts us) : Avoids texts ts :=
  (h.means (.ofThreshold 1) []).avoids hts hfixed hf hrest

theorem BreaksOff.avoids {texts : List String} (h : BreaksOff n b f ts hs) (hts : Lexical ts)
    (hfixed : ∀ s ∈ texts, s ∈ fixedTexts) (hf : f.avoids texts = true) : Avoids texts ts := by
  induction h with
  | inside | chunk => cases hf
  | first _ ih =>
    simp only [Form.avoids, Bool.and_eq_true] at hf
    exact ih hts hf.1
  | second hfirst _ ih =>
    simp only [Form.avoids, Bool.and_eq_true, Bool.or_eq_true, Bool.not_eq_true'] at hf
    refine hfirst.avoids hts hfixed hf.1 fun hnull => ih (hfirst.lexical hts) ?_
    simpa [hnull] using hf.2
  | left _ ih =>
    simp only [Form.avoids, Bool.and_eq_true] at hf
    exact ih hts hf.1
  | right _ ih =>
    simp only [Form.avoids, Bool.and_eq_true] at hf
    exact ih hts hf.2
  | member _ ih | whole _ ih => exact ih hts hf
  | later hfirst _ ih =>
    exact hfirst.avoids hts hfixed hf fun _ => ih (hfirst.lexical hts) hf
  | exp _ ih => exact ih hts (Form.avoids_operands hf)

/-- What breaks off behind something other than a chunk has begun. -/
theorem BreaksOff.ne_nil (h : BreaksOff n b f ts hs) (hf : f.avoids [] = true) : ts ≠ [] := by
  induction h with
  | inside | chunk => cases hf
  | first _ ih =>
    simp only [Form.avoids, Bool.and_eq_true] at hf
    exact ih hf.1
  | @second _ _ f _ _ _ _ _ hfirst _ ih =>
    simp only [Form.avoids, Bool.and_eq_true, Bool.or_eq_true, Bool.not_eq_true'] at hf
    rintro rfl
    obtain rfl := List.suffix_nil.mp hfirst.suffix
    rcases hf.2 with hnull | hrest
    · cases (hfirst.means (.ofThreshold 1) []).length_lt hnull
    · exact ih hrest rfl
  | left _ ih =>
    simp only [Form.avoids, Bool.and_eq_true] at hf
    exact ih hf.1
  | right _ ih =>
    simp only [Form.avoids, Bool.and_eq_true] at hf
    exact ih hf.2
  | member _ ih | whole _ ih => exact ih hf
  | later hfirst _ ih =>
    rintro rfl
    exact ih hf (List.suffix_nil.mp hfirst.suffix)
  | exp _ ih => exact ih (Form.avoids_operands hf)

end LuaChecker.Grammar

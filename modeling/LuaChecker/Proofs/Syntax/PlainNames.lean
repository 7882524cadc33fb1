import LuaChecker.Proofs.Parsing.Quoting
import LuaChecker.Proofs.Syntax.Declarations

/-!
# The names of a program are on one line

The functions of a program that is accepted are called by names, or by labels, and so are
their parameters. No string is among the tokens from which they are made, so each of them is
on one line.

* `Derives.plain_row`: the rows from which names are made;
* `Derives.plain_headers`: the headers of a derivation;
* `plain_entries`: the function table of an accepted program.
-/

namespace LuaChecker

namespace Grammar

/-! ## Headers -/

namespace Form

/-- Whether no string, and no other text that crosses lines, can be in a row of the form. -/
def isPlain : Form → Bool
  | empty => true
  | word text => decide ¬ CrossesLines text
  | ofKind kind => kind != .string
  | andThen f g | either f g => f.isPlain && g.isPlain
  | many f => f.isPlain
  | oneOf _ | whole _ | header _ | exp | chunk => false

/-- Whether the names of the functions in a row of the form are plain. -/
def plainlyNamed : Form → Bool
  | header name => name.isPlain
  | andThen f g | either f g => f.plainlyNamed && g.plainlyNamed
  | many f | whole f => f.plainlyNamed
  | empty | word _ | oneOf _ | ofKind _ | exp | chunk => true

end Form

/-- The name and the parameters of a function are on one line. -/
structure Header.IsPlain (h : Header) : Prop where
  path : ∀ part ∈ h.path, ¬ CrossesLines part
  names : ∀ name ∈ h.names, ¬ CrossesLines name

/-- All tokens but strings are on one line. -/
def Plain (ts : List Token) : Prop :=
  ∀ t ∈ ts, t.kind ≠ .string → ¬ CrossesLines t.text

theorem Plain.of_suffix {ts us : List Token} (h : Plain ts) (hsuffix : us <:+ ts) : Plain us :=
  fun t ht => h t (hsuffix.subset ht)

variable {n : Nat} {f : Form} {ts us : List Token} {hs : List Header}

theorem Derives.plain_row (h : Derives n f ts us hs) (hf : f.isPlain = true) (hts : Plain ts) :
    ∃ row, ts = row ++ us ∧ ∀ t ∈ row, ¬ CrossesLines t.text := by
  induction h with
  | empty | manyNil => exact ⟨[], rfl, by simp⟩
  | @word _ _ t _ h =>
    refine ⟨[t], rfl, List.forall_mem_singleton.mpr ?_⟩
    rw [h]
    exact of_decide_eq_true hf
  | @ofKind _ _ t _ h =>
    refine ⟨[t], rfl, List.forall_mem_singleton.mpr (hts t List.mem_cons_self ?_)⟩
    rw [h]
    exact bne_iff_ne.mp hf
  | andThen hleft _ ihf ihg =>
    simp only [Form.isPlain, Bool.and_eq_true] at hf
    obtain ⟨row, rfl, hrow⟩ := ihf hf.1 hts
    obtain ⟨row', rfl, hrow'⟩ := ihg hf.2 (hts.of_suffix hleft.suffix)
    exact ⟨row ++ row', by simp, List.forall_mem_append.mpr ⟨hrow, hrow'⟩⟩
  | manyCons hleft _ ihf ihg =>
    obtain ⟨row, rfl, hrow⟩ := ihf hf hts
    obtain ⟨row', rfl, hrow'⟩ := ihg hf (hts.of_suffix hleft.suffix)
    exact ⟨row ++ row', by simp, List.forall_mem_append.mpr ⟨hrow, hrow'⟩⟩
  | left _ ih =>
    simp only [Form.isPlain, Bool.and_eq_true] at hf
    exact ih hf.1 hts
  | right _ ih =>
    simp only [Form.isPlain, Bool.and_eq_true] at hf
    exact ih hf.2 hts
  | oneOf | whole | header | exp | chunk => cases hf

theorem Derives.plain_headers (h : Derives n f ts us hs) (hf : f.plainlyNamed = true)
    (hts : Plain ts) : ∀ header ∈ hs, header.IsPlain := by
  induction h with
  | empty | word | oneOf | ofKind | manyNil => simp
  | andThen hleft _ ihf ihg =>
    simp only [Form.plainlyNamed, Bool.and_eq_true] at hf
    exact List.forall_mem_append.mpr ⟨ihf hf.1 hts, ihg hf.2 (hts.of_suffix hleft.suffix)⟩
  | manyCons hleft _ ihf ihg =>
    exact List.forall_mem_append.mpr ⟨ihf hf hts, ihg hf (hts.of_suffix hleft.suffix)⟩
  | left _ ih =>
    simp only [Form.plainlyNamed, Bool.and_eq_true] at hf
    exact ih hf.1 hts
  | right _ ih =>
    simp only [Form.plainlyNamed, Bool.and_eq_true] at hf
    exact ih hf.2 hts
  | whole _ _ ih => exact ih hf hts
  | @header n name path opening inside closing rest hname =>
    obtain ⟨row, heq, hrow⟩ := hname.plain_row hf hts
    obtain rfl := List.append_cancel_right heq
    refine List.forall_mem_singleton.mpr ⟨fun part hpart => ?_, fun name hname => ?_⟩
    · obtain ⟨t, ht, rfl⟩ := List.mem_map.mp hpart
      exact hrow t ht
    · obtain ⟨t, ht, rfl⟩ := List.mem_map.mp hname
      obtain ⟨hinside, hkind⟩ := List.mem_filter.mp ht
      refine hts t (by simp [hinside]) ?_
      rw [of_decide_eq_true hkind]
      exact Kind.noConfusion
  | exp _ ih => exact ih rfl hts
  | chunk _ ih => exact ih rfl hts

/-! ## Tables -/

theorem Header.IsPlain.key {h : Header} (hplain : h.IsPlain) (earlier : List Header) :
    ¬ CrossesLines (h.key earlier) := by
  unfold Header.key
  split
  · exact Ledger.not_crossesLines_anonymousLabel _ _
  · unfold CrossesLines
    rw [String.toList_join, List.mem_flatMap]
    rintro ⟨part, hpart, hcross⟩
    exact hplain.path part hpart hcross

theorem Header.IsPlain.parameters {h : Header} (hplain : h.IsPlain) :
    ∀ p ∈ h.parameters, ¬ CrossesLines p := by
  unfold Header.parameters
  refine List.forall_mem_append.mpr ⟨hplain.names, ?_⟩
  cases h.variadic with
  | true => exact List.forall_mem_singleton.mpr (by decide)
  | false => simp

theorem of_mem_keyed {earlier hs : List Header} {e : String × Header}
    (h : e ∈ keyed earlier hs) : e.2 ∈ hs ∧ ∃ before, e.1 = e.2.key before := by
  induction hs generalizing earlier with
  | nil => cases h
  | cons first hs ih =>
    rcases List.mem_cons.mp h with rfl | h
    · exact ⟨List.mem_cons_self, earlier, rfl⟩
    · obtain ⟨hmem, hkey⟩ := ih h
      exact ⟨List.mem_cons_of_mem first hmem, hkey⟩

/-- The functions of an accepted program and their parameters are on one line each. -/
theorem plain_entries {threshold : Float} (hts : ∀ t ∈ ts, t.IsLexed)
    (hclean : (checkTokens threshold ts).diagnostics = []) :
    ∀ e ∈ (checkTokens threshold ts).functions.entries,
      ¬ CrossesLines e.1 ∧ ∀ p ∈ e.2, ¬ CrossesLines p := by
  have hlexical : Lexical ts := fun t ht => (hts t ht).toIsLexical
  have hfaultless := (redefinitions_only_iff threshold ts).mp (by simp [hclean])
  obtain ⟨hs, hderives⟩ := exists_derives_of_faultless hlexical hfaultless
  have hplain := hderives.plain_headers rfl fun t ht => (hts t ht).not_crossesLines
  have htells := tells_of_derives (.ofThreshold threshold) hlexical hderives
  intro e he
  have hentry := htells.params e.1
  rw [FunctionTable.IsOrdered.params?_of_mem htells.ordered he] at hentry
  obtain ⟨header, hlookup, hvalue⟩ := Option.map_eq_some_iff.mp hentry.symm
  obtain ⟨front, back, heq, -⟩ := List.lookup_eq_some_iff.mp hlookup
  have hkeyed : (e.1, header) ∈ keyed [] hs := by
    rw [← List.mem_reverse, heq]
    exact List.mem_append_right front List.mem_cons_self
  obtain ⟨hheader, before, hkey⟩ := of_mem_keyed hkeyed
  exact ⟨hkey ▸ (hplain header hheader).key before, hvalue ▸ (hplain header hheader).parameters⟩

end Grammar

end LuaChecker

import LuaChecker.Proofs.Syntax.Acceptance

/-!
# A name in the place of a word

Where a word is misspelt, a name stands in its place. If the name is read as the word, nothing
else changes: what is around the place is read as before, and one finding is recorded there.

* `Recovered`: rows with such a place;
* `Recovered.andThen_first` and the lemmas near it: the rows around a place;
* `Ledger.ofEvents_insert`: a finding changes nothing but the diagnostics;
* `Recovered.checkTokens_eq`: the check of a program with such a place.
-/

namespace LuaChecker.Grammar

variable {speller : Speller} {n : Nat} {b : List Closer} {f g : Form}
  {ts us vs post : List Token} {word found : Token} {e : Event} {hs js : List Header}

/-! ## In front of the place -/

theorem startsSuffix_of_name (hfound : found.IsLexical) (hname : found.kind = .name) :
    startsSuffix (some found) = false := by
  have hindex : found.text ∉ indexStarts := fun hmem =>
    hfound.notMem_of_kind hname rfl ((by decide : ∀ s ∈ indexStarts, s ∈ fixedTexts) _ hmem)
  have hcall : found.text ∉ callStarts := fun hmem =>
    hfound.notMem_of_kind hname rfl ((by decide : ∀ s ∈ callStarts, s ∈ fixedTexts) _ hmem)
  simp [startsSuffix, hname, hindex, hcall]

/-- What is derived in front of a place is derived in front of a name there. -/
theorem Derives.before_name {front : List Token} (h : Derives n f ts (front ++ word :: post) hs)
    (hfound : found.IsLexical) (hname : found.kind = .name) :
    ∃ front', ts = front' ++ word :: post ∧
      Derives n f (front' ++ found :: post) (front ++ found :: post) hs := by
  obtain ⟨before, rfl, hbefore⟩ := h.exists_front
  refine ⟨before ++ front, by simp, ?_⟩
  rw [List.append_assoc]
  exact hbefore (startsSuffix_append front fun _ => startsSuffix_of_name hfound hname)

/-! ## Rows around the place -/

/-- The tokens `ts` up to `us` have the form `f`, and `word` stands among them, in front of
`post`. With `found` in its place they are meant to have this form, with the closing words `b`
behind them; between the headers in front of the place and those behind it, `e` is recorded. -/
def Recovered (speller : Speller) (word found : Token) (post : List Token) (e : Event) (n : Nat)
    (b : List Closer) (f : Form) (ts us : List Token) : Prop :=
  ∃ front hs is, ts = front ++ word :: post ∧ Derives n f ts us (hs ++ is) ∧
    Means speller n b f (front ++ found :: post) us
      (headerEvents hs ++ e :: headerEvents is)

theorem Recovered.andThen_first (h : Recovered speller word found post e n (g.before b) f ts us)
    (hg : Derives n g us vs js) :
    Recovered speller word found post e n b (.andThen f g) ts vs := by
  obtain ⟨front, hs, is, rfl, hderives, hmeans⟩ := h
  refine ⟨front, hs, is ++ js, rfl, ?_, ?_⟩
  · rw [← List.append_assoc]
    exact .andThen hderives hg
  · simpa using Means.andThen hmeans (hg.means speller b)

theorem Recovered.andThen_second (h : Recovered speller word found post e n b g us vs)
    (hf : Derives n f ts us js) (hfound : found.IsLexical) (hname : found.kind = .name) :
    Recovered speller word found post e n b (.andThen f g) ts vs := by
  obtain ⟨front, hs, is, rfl, hderives, hmeans⟩ := h
  obtain ⟨front', rfl, hf'⟩ := hf.before_name hfound hname
  refine ⟨front', js ++ hs, is, rfl, ?_, ?_⟩
  · rw [List.append_assoc]
    exact .andThen hf hderives
  · simpa using Means.andThen (hf'.means speller _) hmeans

theorem Recovered.left (h : Recovered speller word found post e n b f ts us) :
    Recovered speller word found post e n b (.either f g) ts us := by
  obtain ⟨front, hs, is, rfl, hderives, hmeans⟩ := h
  exact ⟨front, hs, is, rfl, .left hderives, .left hmeans⟩

theorem Recovered.right (h : Recovered speller word found post e n b g ts us) :
    Recovered speller word found post e n b (.either f g) ts us := by
  obtain ⟨front, hs, is, rfl, hderives, hmeans⟩ := h
  exact ⟨front, hs, is, rfl, .right hderives, .right hmeans⟩

theorem Recovered.many_first
    (h : Recovered speller word found post e n ((Form.many f).before b) f ts us)
    (hg : Derives n (.many f) us vs js) :
    Recovered speller word found post e n b (.many f) ts vs := by
  obtain ⟨front, hs, is, rfl, hderives, hmeans⟩ := h
  refine ⟨front, hs, is ++ js, rfl, ?_, ?_⟩
  · rw [← List.append_assoc]
    exact .manyCons hderives hg
  · simpa using Means.manyCons hmeans (hg.means speller b)

theorem Recovered.many_later (h : Recovered speller word found post e n b (.many f) us vs)
    (hf : Derives n f ts us js) (hfound : found.IsLexical) (hname : found.kind = .name) :
    Recovered speller word found post e n b (.many f) ts vs := by
  obtain ⟨front, hs, is, rfl, hderives, hmeans⟩ := h
  obtain ⟨front', rfl, hf'⟩ := hf.before_name hfound hname
  refine ⟨front', js ++ hs, is, rfl, ?_, ?_⟩
  · rw [List.append_assoc]
    exact .manyCons hf hderives
  · simpa using Means.manyCons (hf'.means speller _) hmeans

theorem Recovered.whole (h : Recovered speller word found post e n b f ts us)
    (hend : startsSuffix us.head? = false) :
    Recovered speller word found post e n b (.whole f) ts us := by
  obtain ⟨front, hs, is, rfl, hderives, hmeans⟩ := h
  exact ⟨front, hs, is, rfl, .whole hderives hend, .whole hmeans hend⟩

theorem Recovered.exp (h : Recovered speller word found post e n [] .operands ts us) :
    Recovered speller word found post e (n + 1) b .exp ts us := by
  obtain ⟨front, hs, is, rfl, hderives, hmeans⟩ := h
  exact ⟨front, hs, is, rfl, .exp hderives, .exp hmeans⟩

theorem Recovered.chunk (h : Recovered speller word found post e n b .statements ts us) :
    Recovered speller word found post e (n + 1) b .chunk ts us := by
  obtain ⟨front, hs, is, rfl, hderives, hmeans⟩ := h
  exact ⟨front, hs, is, rfl, .chunk hderives, .chunk hmeans⟩

/-! ## One more finding -/

/-- The diagnostics so far have no influence on what comes of an event. -/
theorem Ledger.record_behind (l : Ledger) (e : Event) (ds : List Diagnostic) :
    { l with findings := l.findings ++ ds }.record e =
      { l.record e with findings := (l.record e).findings ++ ds } := by
  cases e with
  | finding | headerLacks | parameters => rfl
  | header line name =>
    simp only [Ledger.record]
    split
    · simp only [Ledger.declare]
      split <;> rfl
    · simp only [Ledger.declare]
      split <;> rfl

theorem Ledger.foldl_record_behind (l : Ledger) (es : List Event) (ds : List Diagnostic) :
    es.foldl Ledger.record { l with findings := l.findings ++ ds } =
      { es.foldl Ledger.record l with
        findings := (es.foldl Ledger.record l).findings ++ ds } := by
  induction es generalizing l with
  | nil => rfl
  | cons e es ih =>
    rw [List.foldl_cons, Ledger.record_behind, ih]
    rfl

/-- A finding among events that lead to no diagnostics is the only one. -/
theorem Ledger.ofEvents_insert {es fs : List Event} (line : Option Nat) (cause : Cause)
    (h : (Ledger.ofEvents (es ++ fs)).diagnostics = []) :
    Ledger.ofEvents (es ++ .finding line cause :: fs) =
      { Ledger.ofEvents (es ++ fs) with findings := [⟨line, cause.message⟩] } := by
  have hall : (fs.foldl Ledger.record (Ledger.ofEvents es)).findings = [] := by
    rw [← Ledger.ofEvents_append]
    exact List.reverse_eq_nil_iff.mp h
  have hfirst : (Ledger.ofEvents es).findings = [] :=
    List.reverse_eq_nil_iff.mp (List.prefix_nil.mp (h ▸ Ledger.diagnostics_prefix es fs))
  have hmore := Ledger.foldl_record_behind (Ledger.ofEvents es) fs [⟨line, cause.message⟩]
  rw [hfirst, hall] at hmore
  rw [Ledger.ofEvents_append, Ledger.ofEvents_append, List.foldl_cons, Ledger.record_finding,
    hfirst]
  exact hmore

/-! ## Programs with such a place -/

/-- A program about which the check says nothing has a name in the place of a word, and it is
recovered there. Then the finding is all that the check says, and it knows the same
functions. -/
theorem Recovered.checkTokens_eq {threshold : Float} {front : List Token} {line : Option Nat}
    {cause : Cause}
    (h : Recovered (.ofThreshold threshold) word found post (.finding line cause) 200 [] .chunk
      (front ++ word :: post) [])
    (hts : Lexical (front ++ word :: post)) (hfound : found.IsLexical)
    (hclean : (checkTokens threshold (front ++ word :: post)).diagnostics = []) :
    checkTokens threshold (front ++ found :: post) =
      ⟨[⟨line, cause.message⟩], (checkTokens threshold (front ++ word :: post)).functions⟩ := by
  obtain ⟨front', hs, is, heq, hderives, hmeans⟩ := h
  obtain rfl := List.append_cancel_right heq
  have hchanged : Lexical (front ++ found :: post) := by
    obtain ⟨hfront, hback⟩ := List.forall_mem_append.mp hts
    have hpost := (List.forall_mem_cons.mp hback).2
    exact List.forall_mem_append.mpr ⟨hfront, List.forall_mem_cons.mpr ⟨hfound, hpost⟩⟩
  have hbefore : parse (.ofThreshold threshold) (front ++ word :: post) =
      Ledger.ofEvents (headerEvents hs ++ headerEvents is) := by
    rw [parse_eq, (program_reads_of_derives _ hts hderives).eq, headerEvents_append]
  have hafter : parse (.ofThreshold threshold) (front ++ found :: post) =
      Ledger.ofEvents (headerEvents hs ++ .finding line cause :: headerEvents is) := by
    rw [parse_eq, (program_yields_of_means hchanged hmeans).eq]
  have hclean' : (Ledger.ofEvents (headerEvents hs ++ headerEvents is)).diagnostics = [] := by
    rw [← hbefore]
    exact hclean
  rw [checkTokens, checkTokens, hbefore, hafter, Ledger.ofEvents_insert line cause hclean']
  rfl

end LuaChecker.Grammar

import LuaChecker.Proofs.Syntax.Exchange

/-!
# Between two statements

Between two statements of a block, in front of the first one, and behind the last one of a
block without `return` and `break`, a further statement could begin. What stands there is a
word that starts a statement, a word that closes the block, or a name that starts an
assignment or a call.

* `Boundary`: derivations with such a place;
* `Boundary.recovered`: a word that is misspelt at the place is recovered.
-/

namespace LuaChecker.Grammar

/-- `Boundary closers here n b f ts rest`: a derivation of the form `f` from `ts` to `rest`, in
front of the closing words `b`, goes through a place where a statement could begin, in a
block with the closing words `closers`; the tokens from there on are `here`. -/
inductive Boundary (closers : List Closer) (here : List Token) :
    Nat → List Closer → Form → List Token → List Token → Prop
  | here {n us hs} (h : Derives n (.many .statementRow) here us hs) :
      Boundary closers here n closers (.many .statementRow) here us
  | first {n b f g ts us vs hs} (hf : Boundary closers here n (g.before b) f ts us)
      (hg : Derives n g us vs hs) : Boundary closers here n b (.andThen f g) ts vs
  | second {n b f g ts us vs hs} (hf : Derives n f ts us hs)
      (hg : Boundary closers here n b g us vs) : Boundary closers here n b (.andThen f g) ts vs
  | left {n b f g ts us} (h : Boundary closers here n b f ts us) :
      Boundary closers here n b (.either f g) ts us
  | right {n b f g ts us} (h : Boundary closers here n b g ts us) :
      Boundary closers here n b (.either f g) ts us
  | member {n b f ts us vs hs} (hf : Boundary closers here n ((Form.many f).before b) f ts us)
      (hg : Derives n (.many f) us vs hs) : Boundary closers here n b (.many f) ts vs
  | later {n b f ts us vs hs} (hf : Derives n f ts us hs)
      (hg : Boundary closers here n b (.many f) us vs) : Boundary closers here n b (.many f) ts vs
  | whole {n b f ts us} (h : Boundary closers here n b f ts us)
      (hend : startsSuffix us.head? = false) : Boundary closers here n b (.whole f) ts us
  | exp {n b ts us} (h : Boundary closers here n [] .operands ts us) :
      Boundary closers here (n + 1) b .exp ts us
  | chunk {n b ts us} (h : Boundary closers here n b .statements ts us) :
      Boundary closers here (n + 1) b .chunk ts us

variable {speller : Speller} {n : Nat} {b closers : List Closer} {f : Form}
  {ts us post : List Token} {word found : Token}

theorem Boundary.recovered (h : Boundary closers (word :: post) n b f ts us)
    (hfound : found.IsLexical) (hmisspelt : Misspelling speller closers found word post) :
    Recovered speller word found post (typoEvent found word) n b f ts us := by
  induction h with
  | here h => exact ⟨[], [], _, rfl, h, .misspelt hmisspelt (h.means speller closers)⟩
  | first _ hg ih => exact ih.andThen_first hg
  | second hf _ ih => exact ih.andThen_second hf hfound hmisspelt.kind
  | left _ ih => exact ih.left
  | right _ ih => exact ih.right
  | member _ hg ih => exact ih.many_first hg
  | later hf _ ih => exact ih.many_later hf hfound hmisspelt.kind
  | whole _ hend ih => exact ih.whole hend
  | exp _ ih => exact ih.exp
  | chunk _ ih => exact ih.chunk

end LuaChecker.Grammar

import Munch.Definition
import Munch.Proofs.Pattern.ClassGrammar
import Munch.Proofs.TokenName
import Munch.Text.Blank

/-!
# The grammar of patterns

A pattern compiles if and only if the grammar derives it once its blanks are left out.
The readers take as much as they can; that they find a derivation whenever there is one
rests on the characters that may follow an expression of each category.

Main results:

- Theorem {lit}`Pattern.yields_choices_derived`: what is read is in the grammar.
- Theorem {lit}`Pattern.reads_of_derives`: what is in the grammar is read.
- Theorem {lit}`Pattern.dropBlanks_eq_withoutBlanks`: which blanks are left out.
- Theorem {lit}`exists_compilePattern_iff`: the patterns that compile.
-/

namespace Munch
namespace Pattern
namespace Grammar

/-! ## The grammar -/

/-- A name that is known, or known with a low line in front. -/
def IsKnown (known : String → Prop) (name : List Char) : Prop :=
  isNameList name = true ∧ (known (String.ofList name) ∨ known (String.ofList ('_' :: name)))

/-- The characters that are no code of their own outside classes. -/
def reserved : List Char := ['(', ')', '[', '\x7b', '$', '^', '*', '+', '?', '|']

/-- What a part of a pattern is. -/
inductive Category where
  | choice
  | sequence
  | repeated
  | atom

/-- A text starts with an expression of a category, before a rest.  In the strict grammar
a class has a code. -/
inductive Derives (strict : Bool) (known : String → Prop) :
    Category → List Char → List Char → Prop
  | sequence {s rest : List Char} (h : Derives strict known .sequence s rest) :
      Derives strict known .choice s rest
  | choice {s mid rest : List Char} (hfirst : Derives strict known .sequence s ('|' :: mid))
      (hsecond : Derives strict known .choice mid rest) : Derives strict known .choice s rest
  | repeated {s rest : List Char} (h : Derives strict known .repeated s rest) :
      Derives strict known .sequence s rest
  | append {s mid rest : List Char} (hfirst : Derives strict known .repeated s mid)
      (hsecond : Derives strict known .sequence mid rest) : Derives strict known .sequence s rest
  | once {s rest : List Char} (h : Derives strict known .atom s rest) :
      Derives strict known .repeated s rest
  | marked {c : Char} {s rest : List Char} (hc : c ∈ ['*', '+', '?'])
      (h : Derives strict known .atom s (c :: rest)) : Derives strict known .repeated s rest
  | group {s rest : List Char} (h : Derives strict known .choice s (')' :: rest)) :
      Derives strict known .atom ('(' :: s) rest
  | complement {s rest : List Char} (h : Derives strict known .atom s rest) :
      Derives strict known .atom ('^' :: s) rest
  | braced {s name rest : List Char} (hs : s = name ++ '\x7d' :: rest)
      (hname : IsKnown known name) : Derives strict known .atom ('\x7b' :: s) rest
  | bare {s name rest : List Char} (hs : s = name ++ rest) (hname : IsKnown known name)
      (hrest : ∀ c, rest.head? = some c → isNameChar c = false) :
      Derives strict known .atom ('$' :: s) rest
  | bracketed {s rest : List Char} {codes : Int → Prop} (h : Class strict s codes (']' :: rest))
      (hcodes : strict = true → ∃ code, codes code) : Derives strict known .atom ('[' :: s) rest
  | code {c : Char} {s : List Char} {set : CodeSet} {rest : List Char} (hc : c ∉ reserved)
      (h : Single false (c :: s) set rest) : Derives strict known .atom (c :: s) rest

end Grammar

open Grammar

section Readers

variable {ρ : Type} {resolve : String → Option ρ}

/-- The names that resolve to something. -/
def Resolved (resolve : String → Option ρ) (name : String) : Prop := (resolve name).isSome = true

/-! ## References -/

/-- A name that is resolved is known. -/
theorem yields_resolveName_derived (name rest : List Char) :
    Yields (fun _ => IsKnown (Resolved resolve) name) (resolveName resolve name rest) := by
  unfold resolveName
  split
  · rename_i hname
    split
    · rename_i r hr
      refine yields_ok ⟨hname, ?_⟩
      have hsome := congrArg Option.isSome hr
      simpa [Resolved] using hsome
    · exact yields_error _
  · exact yields_error _

/-- A name that is known is resolved. -/
theorem returns_resolveName {name : List Char} (h : IsKnown (Resolved resolve) name)
    (rest : List Char) : Returns (fun _ => True) (resolveName resolve name rest) := by
  obtain ⟨hname, hknown⟩ := h
  have hsome : (resolve (String.ofList name) <|> resolve (String.ofList ('_' :: name))).isSome := by
    simpa [Resolved] using hknown
  obtain ⟨r, hr⟩ := Option.isSome_iff_exists.mp hsome
  rw [resolveName, if_pos hname, hr]
  exact returns_ok trivial

/-- What is read as a name in braces is one. -/
theorem yields_bracedName_derived (s : List Char) :
    Yields (fun r => ∃ name, s = name ++ '\x7d' :: r.rest ∧ IsKnown (Resolved resolve) name)
      (bracedName resolve s) := by
  unfold bracedName
  split
  · exact yields_error _
  · rename_i c rest hrest
    refine yields_bind (yields_resolveName_derived _ _) fun r hr => yields_pure ⟨_, ?_, hr⟩
    have hc : c = '\x7d' := by
      have hhead := List.head?_dropWhile_not (· != '\x7d') s
      rw [hrest] at hhead
      simpa using hhead
    have hs := List.takeWhile_append_dropWhile (p := (· != '\x7d')) (l := s)
    rw [hrest, hc] at hs
    exact hs.symm

/-- A name in braces is read. -/
theorem returns_bracedName {name : List Char} (h : IsKnown (Resolved resolve) name)
    (rest : List Char) :
    Returns (fun r => r.rest = rest) (bracedName resolve (name ++ '\x7d' :: rest)) := by
  have hname : ∀ c ∈ name, (c != '\x7d') = true := by
    intro c hc
    by_contra hbrace
    have hchar := forall_isNameChar h.1 c hc
    simp only [bne_iff_ne, ne_eq, not_not] at hbrace
    rw [hbrace] at hchar
    exact absurd hchar (by decide)
  obtain ⟨htake, hdrop⟩ : (name ++ '\x7d' :: rest).takeWhile (· != '\x7d') = name ∧
      (name ++ '\x7d' :: rest).dropWhile (· != '\x7d') = '\x7d' :: rest := by
    apply span_append hname
    intro c hc
    cases hc
    rfl
  unfold bracedName
  split
  · rename_i hnil
    rw [hdrop] at hnil
    cases hnil
  · rename_i c rest' hrest
    rw [hdrop] at hrest
    obtain rfl : rest = rest' := (List.cons.inj hrest).2
    rw [htake]
    exact returns_bind (returns_resolveName h rest) fun r _ => returns_pure rfl

/-- What is read as a name without braces is one, and as long as possible. -/
theorem yields_bareName_derived (s : List Char) :
    Yields (fun r => ∃ name, s = name ++ r.rest ∧ IsKnown (Resolved resolve) name ∧
      ∀ c, r.rest.head? = some c → isNameChar c = false) (bareName resolve s) := by
  unfold bareName
  refine yields_bind (yields_resolveName_derived _ _) fun r hr => yields_pure ⟨_, ?_, hr, ?_⟩
  · exact List.takeWhile_append_dropWhile.symm
  · intro c hc
    have hhead := List.head?_dropWhile_not isNameChar s
    rw [hc] at hhead
    simpa using hhead

/-- A name without braces is read up to its end. -/
theorem returns_bareName {name rest : List Char} (h : IsKnown (Resolved resolve) name)
    (hrest : ∀ c, rest.head? = some c → isNameChar c = false) :
    Returns (fun r => r.rest = rest) (bareName resolve (name ++ rest)) := by
  obtain ⟨htake, hdrop⟩ := span_append (forall_isNameChar h.1) hrest
  unfold bareName
  rw [htake]
  exact returns_bind (returns_resolveName h _) fun r _ => returns_pure hdrop

/-! ## What is read is in the grammar -/

/-- The marks of repetition. -/
theorem mem_of_repetition? {c : Char} {how : Repetition} (h : repetition? c = some how) :
    c ∈ ['*', '+', '?'] := by
  unfold repetition? at h
  split at h
  · decide
  · decide
  · decide
  · cases h

mutual

/-- What is read as a choice is one. -/
theorem yields_choices_derived (resolve : String → Option ρ) (s : List Char) :
    Yields (fun r => Derives true (Resolved resolve) .choice s r.rest) (choices resolve s) := by
  rw [choices]
  refine yields_bind (yields_sequenceOf_derived resolve s) fun first hfirst => ?_
  have hshorter := first.shorter
  split
  · rename_i rest hrest
    have hlength : first.rest.length = rest.length + 1 := by rw [hrest, List.length_cons]
    rw [hrest] at hfirst
    exact yields_bind (yields_choices_derived resolve rest)
      fun second hsecond => yields_pure (.choice hfirst hsecond)
  · exact yields_pure (.sequence hfirst)
termination_by 4 * s.length + 3

/-- What is read as a sequence is one. -/
theorem yields_sequenceOf_derived (resolve : String → Option ρ) (s : List Char) :
    Yields (fun r => Derives true (Resolved resolve) .sequence s r.rest)
      (sequenceOf resolve s) := by
  rw [sequenceOf]
  refine yields_bind (yields_repeatedAtom_derived resolve s) fun first hfirst => ?_
  have hshorter := first.shorter
  refine yields_bind (yields_sequenceFrom_derived resolve first.value first.rest) ?_
  rintro r (hrest | hsequence)
  · refine yields_pure (.repeated ?_)
    rw [Read.rest_weaken, hrest]
    exact hfirst
  · exact yields_pure (.append hfirst hsequence)
termination_by 4 * s.length + 2

/-- Behind a part of a sequence comes nothing more of it, or another sequence. -/
theorem yields_sequenceFrom_derived (resolve : String → Option ρ) (p : Pattern ρ)
    (s : List Char) :
    Yields (fun r => r.rest = s ∨ Derives true (Resolved resolve) .sequence s r.rest)
      (sequenceFrom resolve p s) := by
  rw [sequenceFrom]
  split
  · exact yields_ok (.inl rfl)
  · refine yields_bind (yields_repeatedAtom_derived resolve s) fun next hnext => ?_
    have hshorter := next.shorter
    refine yields_bind
      (yields_sequenceFrom_derived resolve (.sequence p next.value) next.rest) ?_
    rintro r (hrest | hsequence)
    · refine yields_pure (.inr (.repeated ?_))
      rw [Read.rest_weaken, hrest]
      exact hnext
    · exact yields_pure (.inr (.append hnext hsequence))
termination_by 4 * s.length + 2

/-- What is read as a repetition is one. -/
theorem yields_repeatedAtom_derived (resolve : String → Option ρ) (s : List Char) :
    Yields (fun r => Derives true (Resolved resolve) .repeated s r.rest)
      (repeatedAtom resolve s) := by
  rw [repeatedAtom]
  refine yields_bind (yields_atom_derived resolve s) fun p hp => ?_
  split
  · rename_i c rest hrest
    split
    · rename_i how hhow
      rw [hrest] at hp
      exact yields_pure (.marked (mem_of_repetition? hhow) hp)
    · exact yields_pure (.once hp)
  · exact yields_pure (.once hp)
termination_by 4 * s.length + 1

/-- What is read as an atom is one. -/
theorem yields_atom_derived (resolve : String → Option ρ) (s : List Char) :
    Yields (fun r => Derives true (Resolved resolve) .atom s r.rest) (atom resolve s) := by
  rw [atom.eq_def]
  split
  · exact yields_error _
  · rename_i s
    refine yields_bind (yields_choices_derived resolve s) fun inner hinner => ?_
    split
    · rename_i rest hrest
      rw [hrest] at hinner
      exact yields_pure (.group hinner)
    · exact yields_error _
    · exact yields_error _
  · rename_i s
    exact yields_bind (yields_atom_derived resolve s)
      fun inner hinner => yields_pure (.complement hinner)
  · rename_i s
    refine yields_bind (yields_bracedName_derived s) ?_
    rintro r ⟨name, hs, hname⟩
    exact yields_pure (.braced hs hname)
  · rename_i s
    refine yields_bind (yields_bareName_derived s) ?_
    rintro r ⟨name, hs, hname, hrest⟩
    exact yields_pure (.bare hs hname hrest)
  · rename_i s
    refine yields_bind (yields_class_derived s) ?_
    rintro r ⟨codes, hclass, -, hcodes⟩
    exact yields_pure (.bracketed hclass fun _ => hcodes)
  · rename_i c s hgroup hcomplement hbrace hdollar hbracket
    -- The characters with a reader of their own and the operators are the reserved ones.
    split
    · exact yields_error _
    · rename_i hoperator
      refine yields_bind (yields_code_derived false (c :: s)) fun r hr => yields_pure ?_
      refine .code ?_ hr
      simp only [isOperator, List.contains_eq_mem, decide_eq_true_eq] at hoperator
      simp only [reserved, List.mem_cons, not_or] at hoperator ⊢
      tauto
termination_by 4 * s.length

end

/-! ## What is in the grammar is read -/

/-- No expression starts with an operator. -/
theorem exists_head?_of_derives {strict : Bool} {known : String → Prop} {category : Category}
    {s rest : List Char} (h : Derives strict known category s rest) :
    ∃ c, s.head? = some c ∧ isOperator c = false := by
  induction h with
  | sequence _ ih => exact ih
  | choice _ _ ih => exact ih
  | repeated _ ih => exact ih
  | append _ _ ih => exact ih
  | once _ ih => exact ih
  | marked _ _ ih => exact ih
  | group => exact ⟨'(', rfl, rfl⟩
  | complement => exact ⟨'^', rfl, rfl⟩
  | braced => exact ⟨'\x7b', rfl, rfl⟩
  | bare => exact ⟨'$', rfl, rfl⟩
  | bracketed => exact ⟨'[', rfl, rfl⟩
  | @code c _ _ _ hc =>
    refine ⟨c, rfl, ?_⟩
    simp only [reserved, List.mem_cons, not_or] at hc
    simp [isOperator, hc]

/-- The characters that an expression of a category ends before, if it is read as far
as it goes. -/
def Grammar.Category.Follow : Category → Char → Prop
  | .choice, c => c = ')'
  | .sequence, c => c = '|' ∨ c = ')'
  | .repeated, c => repetition? c = none
  | .atom, _ => True

/-- A rest that an expression of a category may end before. -/
def Grammar.Category.Ends (category : Category) (rest : List Char) : Prop :=
  ∀ c, rest.head? = some c → category.Follow c

/-- Less may come behind more. -/
theorem Grammar.Category.Ends.mono {category category' : Category} {rest : List Char}
    (h : category.Ends rest) (hfollow : ∀ c, category.Follow c → category'.Follow c) :
    category'.Ends rest :=
  fun c hc => hfollow c (h c hc)

theorem ends_cons {category : Category} {c : Char} (h : category.Follow c) (rest : List Char) :
    category.Ends (c :: rest) := by
  intro c' hc'
  cases hc'
  exact h

theorem follow_bar : Category.sequence.Follow '|' :=
  .inl rfl

theorem follow_closing : Category.choice.Follow ')' :=
  rfl

theorem follow_sequence {c : Char} (h : Category.choice.Follow c) :
    Category.sequence.Follow c :=
  .inr h

theorem follow_repeated {c : Char} (h : Category.sequence.Follow c) :
    Category.repeated.Follow c := by
  rcases h with rfl | rfl <;> rfl

/-- A repeated atom ends where another one begins. -/
theorem ends_repeated_of_derives {strict : Bool} {known : String → Prop} {category : Category}
    {mid rest : List Char} (h : Derives strict known category mid rest) :
    Category.repeated.Ends mid := by
  obtain ⟨c, hhead, hc⟩ := exists_head?_of_derives h
  intro c' hc'
  obtain rfl : c = c' := Option.some.inj (hhead.symm.trans hc')
  cases how : repetition? c with
  | none => exact how
  | some r =>
    have hmem := mem_of_repetition? how
    simp only [List.mem_cons, List.not_mem_nil, or_false] at hmem
    rcases hmem with rfl | rfl | rfl <;> cases hc

/-- The reader of a category takes the front of a text and leaves the rest.  A sequence is
also read behind a part of it. -/
def Grammar.Category.Reads (resolve : String → Option ρ) (s rest : List Char) : Category → Prop
  | .choice => Returns (fun r => r.rest = rest) (choices resolve s)
  | .sequence => Returns (fun r => r.rest = rest) (sequenceOf resolve s) ∧
      ∀ p, Returns (fun r => r.rest = rest) (sequenceFrom resolve p s)
  | .repeated => Returns (fun r => r.rest = rest) (repeatedAtom resolve s)
  | .atom => Returns (fun r => r.rest = rest) (Pattern.atom resolve s)

/-- A sequence is read if its parts are. -/
theorem returns_sequence {s mid rest : List Char}
    (hrepeated : Returns (fun r => r.rest = mid) (repeatedAtom resolve s))
    (hmid : ∀ p, Returns (fun r => r.rest = rest) (sequenceFrom resolve p mid)) :
    Returns (fun r => r.rest = rest) (sequenceOf resolve s) := by
  rw [sequenceOf]
  refine returns_bind hrepeated ?_
  rintro ⟨first, mid, hshorter⟩ rfl
  exact returns_bind (hmid first) fun r hr => returns_pure hr

/-- A sequence goes on unless an operator stands next. -/
theorem returns_sequenceFrom {s mid rest : List Char} (p : Pattern ρ)
    (hs : ∃ c, s.head? = some c ∧ isOperator c = false)
    (hrepeated : Returns (fun r => r.rest = mid) (repeatedAtom resolve s))
    (hmid : ∀ p, Returns (fun r => r.rest = rest) (sequenceFrom resolve p mid)) :
    Returns (fun r => r.rest = rest) (sequenceFrom resolve p s) := by
  obtain ⟨c, hhead, hc⟩ := hs
  have hgoes : ¬s.head?.all (fun c => c = '|' ∨ c = ')') = true := by
    rw [hhead]
    simp only [Option.all_some, decide_eq_true_eq]
    rintro (rfl | rfl) <;> cases hc
  rw [sequenceFrom, if_neg hgoes]
  refine returns_bind hrepeated ?_
  rintro ⟨next, mid, hshorter⟩ rfl
  exact returns_bind (hmid _) fun r hr => returns_pure hr

/-- A sequence ends in front of what may follow it. -/
theorem returns_sequenceFrom_end {rest : List Char} (hrest : Category.sequence.Ends rest)
    (p : Pattern ρ) : Returns (fun r => r.rest = rest) (sequenceFrom resolve p rest) := by
  have hstops : rest.head?.all (fun c => c = '|' ∨ c = ')') = true := by
    rw [Option.all_eq_true]
    intro c hc
    exact decide_eq_true (hrest c hc)
  rw [sequenceFrom, if_pos hstops]
  exact returns_ok rfl

/-- A choice with one branch is read if the branch is. -/
theorem returns_choices_last {s rest : List Char} (hrest : Category.choice.Ends rest)
    (hsequence : Returns (fun r => r.rest = rest) (sequenceOf resolve s)) :
    Returns (fun r => r.rest = rest) (choices resolve s) := by
  rw [choices]
  refine returns_bind hsequence fun first hfirst => ?_
  split
  · rename_i hbar
    rw [← hfirst, hbar] at hrest
    have hfollow : '|' = ')' := hrest '|' rfl
    exact absurd hfollow (by decide)
  · exact returns_pure hfirst

/-- A choice with several branches is read if the first and the others are. -/
theorem returns_choices_bar {s mid rest : List Char}
    (hsequence : Returns (fun r => r.rest = '|' :: mid) (sequenceOf resolve s))
    (hmid : Returns (fun r => r.rest = rest) (choices resolve mid)) :
    Returns (fun r => r.rest = rest) (choices resolve s) := by
  rw [choices]
  refine returns_bind hsequence fun first hfirst => ?_
  split
  · rename_i mid' hbar
    obtain rfl : mid = mid' := (List.cons.inj (hfirst.symm.trans hbar)).2
    exact returns_bind hmid fun r hr => returns_pure hr
  · rename_i hbar
    exact absurd hfirst (hbar mid)

/-- An atom without a mark of repetition is read if the atom is. -/
theorem returns_repeatedAtom_once {s rest : List Char} (hrest : Category.repeated.Ends rest)
    (hatom : Returns (fun r => r.rest = rest) (atom resolve s)) :
    Returns (fun r => r.rest = rest) (repeatedAtom resolve s) := by
  rw [repeatedAtom]
  refine returns_bind hatom fun p hp => ?_
  split
  · rename_i c rest' hcons
    have hnone : repetition? c = none := hrest c (by rw [← hp, hcons]; rfl)
    split
    · rename_i hsome
      rw [hnone] at hsome
      cases hsome
    · exact returns_pure hp
  · exact returns_pure hp

/-- An atom with a mark of repetition is read with the mark. -/
theorem returns_repeatedAtom_marked {c : Char} {s rest : List Char} (hc : c ∈ ['*', '+', '?'])
    (hatom : Returns (fun r => r.rest = c :: rest) (atom resolve s)) :
    Returns (fun r => r.rest = rest) (repeatedAtom resolve s) := by
  rw [repeatedAtom]
  refine returns_bind hatom fun p hp => ?_
  split
  · rename_i c' rest' hcons
    obtain ⟨rfl, rfl⟩ := List.cons.inj (hp.symm.trans hcons)
    split
    · exact returns_pure rfl
    · rename_i hnone
      simp only [List.mem_cons, List.not_mem_nil, or_false] at hc
      rcases hc with rfl | rfl | rfl <;> cases hnone
  · rename_i hnil
    rw [hp] at hnil
    cases hnil

/-- A group is read if the choice in it is. -/
theorem returns_atom_group {s rest : List Char}
    (hinner : Returns (fun r => r.rest = ')' :: rest) (choices resolve s)) :
    Returns (fun r => r.rest = rest) (atom resolve ('(' :: s)) := by
  rw [atom.eq_def]
  refine returns_bind hinner fun inner hrest => ?_
  split
  · rename_i rest' hcons
    exact returns_pure (List.cons.inj (hcons.symm.trans hrest)).2
  · rename_i c rest' hother hcons
    obtain rfl : c = ')' := (List.cons.inj (hcons.symm.trans hrest)).1
    exact absurd rfl hother
  · rename_i hnil
    rw [hrest] at hnil
    cases hnil

/-- A code that is not reserved is read as an atom. -/
theorem returns_atom_code {c : Char} {s rest : List Char} {set : CodeSet} (hc : c ∉ reserved)
    (h : Single false (c :: s) set rest) :
    Returns (fun r => r.rest = rest) (atom resolve (c :: s)) := by
  simp only [reserved, List.mem_cons, not_or] at hc
  have hoperator : ¬isOperator c = true := by simp [isOperator, hc]
  rw [atom]
  · rw [if_neg hoperator]
    exact returns_bind (returns_code h) fun r hr => returns_pure hr.2
  · exact hc.1
  · exact hc.2.2.2.2.2.1
  · exact hc.2.2.2.1
  · exact hc.2.2.2.2.1
  · exact hc.2.2.1

/-- Before what may follow it, an expression of the grammar is read. -/
theorem reads_of_derives {category : Category} {s rest : List Char}
    (h : Derives true (Resolved resolve) category s rest) (hrest : category.Ends rest) :
    category.Reads resolve s rest := by
  induction h with
  | sequence _ ih =>
    exact returns_choices_last hrest (ih (hrest.mono fun _ => follow_sequence)).1
  | choice _ _ ihfirst ihsecond =>
    exact returns_choices_bar (ihfirst (ends_cons follow_bar _)).1 (ihsecond hrest)
  | @repeated _ rest h ih =>
    have hread := ih (hrest.mono fun _ => follow_repeated)
    have hend : ∀ p, Returns (fun r => r.rest = rest) (sequenceFrom resolve p rest) :=
      returns_sequenceFrom_end hrest
    refine ⟨returns_sequence hread hend, fun p => ?_⟩
    exact returns_sequenceFrom p (exists_head?_of_derives h) hread hend
  | append hfirst hsecond ihfirst ihsecond =>
    -- The first atom is read with all the marks that it can have, which is none more than
    -- the grammar gives it, since the rest of the sequence starts with no operator.
    have hread := ihfirst (ends_repeated_of_derives hsecond)
    have hend := (ihsecond hrest).2
    refine ⟨returns_sequence hread hend, fun p => ?_⟩
    exact returns_sequenceFrom p (exists_head?_of_derives hfirst) hread hend
  | once _ ih => exact returns_repeatedAtom_once hrest (ih fun _ _ => trivial)
  | marked hc _ ih => exact returns_repeatedAtom_marked hc (ih fun _ _ => trivial)
  | group _ ih => exact returns_atom_group (ih (ends_cons follow_closing _))
  | complement _ ih =>
    rw [Category.Reads, atom.eq_def]
    exact returns_bind (ih fun _ _ => trivial) fun r hr => returns_pure hr
  | braced hs hname =>
    subst hs
    rw [Category.Reads, atom.eq_def]
    exact returns_bind (returns_bracedName hname _) fun r hr => returns_pure hr
  | bare hs hname hstop =>
    subst hs
    rw [Category.Reads, atom.eq_def]
    exact returns_bind (returns_bareName hname hstop) fun r hr => returns_pure hr
  | bracketed hclass hcodes =>
    rw [Category.Reads, atom.eq_def]
    exact returns_bind (returns_class hclass (hcodes rfl)) fun r hr => returns_pure hr.2
  | code hc h => exact returns_atom_code hc h

/-- A text is read as one pattern if and only if the grammar derives it. -/
theorem exists_readAll_iff (text : List Char) :
    (∃ p, readAll resolve text = .ok p) ↔ Derives true (Resolved resolve) .choice text [] := by
  constructor
  · rintro ⟨p, hp⟩
    have hall : Yields (fun _ => Derives true (Resolved resolve) .choice text [])
        (readAll resolve text) := by
      refine yields_bind (yields_choices_derived resolve text) fun r hr => ?_
      split
      · rename_i hrest
        rw [hrest] at hr
        exact yields_pure hr
      · exact yields_error _
    exact hall p hp
  · intro h
    have hread : Returns (fun _ => True) (readAll resolve text) := by
      refine returns_bind (reads_of_derives h fun c hc => by cases hc) fun r hr => ?_
      rw [hr]
      exact returns_pure trivial
    obtain ⟨p, hp, -⟩ := hread
    exact ⟨p, hp⟩

end Readers

/-! ## Blanks -/

/-- A text without the spaces and tabs that come after an even number of backslashes. -/
def withoutBlanks (s : List Char) : List Char :=
  (s.zipIdx.filter fun p =>
    ¬((p.1 = ' ' ∨ p.1 = '\t') ∧ backslashes (s.take p.2) % 2 = 0)).map Prod.fst

/-- Behind the start of a text, a blank is escaped if the start ends with an odd number
of backslashes. -/
theorem dropBlanks_eq (start s : List Char) :
    dropBlanks (backslashes start % 2 = 1) s =
      ((s.zipIdx start.length).filter fun p => ¬((p.1 = ' ' ∨ p.1 = '\t') ∧
        backslashes ((start ++ s).take p.2) % 2 = 0)).map Prod.fst := by
  induction s generalizing start with
  | nil => rfl
  | cons c s ih =>
    have htail := ih (start ++ [c])
    rw [backslashes_concat, List.append_assoc, List.singleton_append, List.length_append,
      List.length_singleton] at htail
    have hnext : decide ((if c = '\\' then backslashes start + 1 else 0) % 2 = 1) =
        (decide (c = '\\') && !decide (backslashes start % 2 = 1)) := by
      by_cases hslash : c = '\\'
      · simp only [hslash, if_true, decide_true, Bool.true_and, ← decide_not, decide_eq_decide]
        omega
      · simp [hslash]
    rw [hnext] at htail
    rw [dropBlanks, List.zipIdx_cons, List.filter_cons, List.take_left]
    by_cases hdropped : (c = ' ' ∨ c = '\t') ∧ backslashes start % 2 = 0
    · have hslash : c ≠ '\\' := by
        rcases hdropped.1 with rfl | rfl <;> decide
      simpa [hdropped, hslash] using htail
    · have hkept : ¬((c = ' ' ∨ c = '\t') ∧ decide (backslashes start % 2 = 1) = false) := by
        simpa using hdropped
      rw [if_neg hkept, if_pos (decide_eq_true hdropped), htail, List.map_cons]

/-- The blanks left out are those that an even number of backslashes stand before. -/
theorem dropBlanks_eq_withoutBlanks (s : List Char) : dropBlanks false s = withoutBlanks s :=
  dropBlanks_eq [] s

end Pattern

/-! ## Patterns that compile -/

/-- A name is looked up successfully if and only if the table has it. -/
theorem FragmentTable.isSome_lookup_iff (table : FragmentTable) (name : String) :
    (table.lookup name).isSome = true ↔ name ∈ table.map Prod.fst := by
  simp [lookup]

/-- A pattern compiles if and only if the grammar derives it without its blanks. -/
theorem exists_compilePattern_iff (table : FragmentTable) (pattern : String) :
    (∃ f, compilePattern table pattern = .ok f) ↔
      Pattern.Grammar.Derives true (· ∈ table.map Prod.fst) .choice
        (Pattern.withoutBlanks pattern.toList) [] := by
  have hknown : Pattern.Resolved table.lookup = (· ∈ table.map Prod.fst) :=
    funext fun name => propext (table.isSome_lookup_iff name)
  rw [← hknown, ← Pattern.exists_readAll_iff, ← Pattern.dropBlanks_eq_withoutBlanks,
    compilePattern, Pattern.read]
  cases Pattern.readAll table.lookup (Pattern.dropBlanks false pattern.toList) with
  | error e => simp [Except.map, Except.mapError]
  | ok p => simp [Except.map, Except.mapError]

/-- A pattern that is not read does not compile. -/
theorem not_exists_compilePattern {table : FragmentTable} {pattern : String} {e : SyntaxError}
    (h : Pattern.read table.lookup pattern = .error e) :
    ¬∃ f, compilePattern table pattern = .ok f := by
  rintro ⟨f, hf⟩
  rw [compilePattern, h] at hf
  cases hf

/-- A class that excludes everything it names is refused. -/
theorem read_emptyClass : Pattern.read (FragmentTable.lookup []) "[a^a]" =
    .error ⟨.emptyClass, "a^a !!! ]", none⟩ := by
  decide +kernel

/-- A bracket closes a class behind its first member. -/
theorem read_lateBracket : Pattern.read (FragmentTable.lookup []) "[a])]" =
    .error ⟨.unexpectedChar ')', "[a] !!! )]", none⟩ := by
  decide +kernel

section Lenient

open Pattern Pattern.Grammar

/-- A literal character that is one member of a class. -/
theorem members_literal {strict expected : Bool} {c : Char} {s rest : List Char}
    {ms : List CodeSet} (hslash : c ≠ '\\') (hcontrol : isControlChar c = false)
    (hcaret : c ≠ '^') (hhyphen : s.head? ≠ some '-')
    (hclosing : strict = true → expected = true ∨ c ≠ ']') (hms : Members strict false s ms rest) :
    Members strict expected (c :: s) (codeOfChar c :: ms) rest := by
  refine .cons (.one (.literal hslash hcontrol (fun _ => hcaret) s) hhyphen) ?_ hms
  simpa using hclosing

/-- In the lenient grammar a class may lose every code to the members behind its caret,
and a closing bracket may be any of its members. -/
theorem derives_not_compilePattern :
    (Derives false (· ∈ []) .choice (withoutBlanks "[a^a]".toList) [] ∧
        ¬∃ f, compilePattern [] "[a^a]" = .ok f) ∧
      Derives false (· ∈ []) .choice (withoutBlanks "[a])]".toList) [] ∧
        ¬∃ f, compilePattern [] "[a])]" = .ok f := by
  have hletter : ∀ s, s.head? ≠ some '-' →
      Members false true ('a' :: s) [codeOfChar 'a'] s := fun s hs =>
    members_literal (by decide) (by decide) (by decide) hs (by decide) (.nil s)
  have hlate : Members false true ['a', ']', ')', ']'] (['a', ']', ')'].map codeOfChar) [']'] := by
    refine members_literal (by decide) (by decide) (by decide) (by decide) (by decide) ?_
    refine members_literal (by decide) (by decide) (by decide) (by decide) (by decide) ?_
    exact members_literal (by decide) (by decide) (by decide) (by decide) (by decide) (.nil _)
  refine ⟨⟨?_, not_exists_compilePattern read_emptyClass⟩, ?_,
    not_exists_compilePattern read_lateBracket⟩
  · have hclass := Class.without (hletter ['^', 'a', ']'] (by decide)) (hletter [']'] (by decide))
    exact .sequence (.repeated (.once (.bracketed hclass nofun)))
  · exact .sequence (.repeated (.once (.bracketed (.plain hlate) nofun)))

end Lenient

end Munch

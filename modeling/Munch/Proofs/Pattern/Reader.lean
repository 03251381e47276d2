import Munch.Pattern.Reader
import Munch.Proofs.CodeSet.Canonical
import Munch.Proofs.Pattern.Denotation

/-!
# What readers return

Every label that is read holds characters only, and every reference is one that was
resolved.

Main results:

- Theorem {lit}`Pattern.yields_classMembers`: the codes of a class are characters.
- Theorem {lit}`Pattern.throughout_read`: what holds of the labels that are read and of the names
  that are resolved holds throughout a pattern read.
- Theorem {lit}`Pattern.over_read`: the labels and references of a pattern read.
-/

namespace Munch

/-- Whatever a computation returns satisfies a predicate. -/
def Yields {ε α : Type} (P : α → Prop) (x : Except ε α) : Prop :=
  ∀ a, x = .ok a → P a

section Yields

variable {ε α β : Type} {P : α → Prop} {Q : β → Prop}

/-- What was read without an error has the property if its value does. -/
theorem yields_ok {a : α} (ha : P a) : Yields P (.ok a : Except ε α) := by
  intro b hb
  cases hb
  exact ha

theorem yields_pure {a : α} (ha : P a) : Yields P (pure a : Except ε α) :=
  yields_ok ha

/-- Nothing is claimed of an error. -/
theorem yields_error (e : ε) : Yields P (.error e) := by
  intro a ha
  cases ha

/-- What a composite computation returns comes from what its parts return. -/
theorem yields_bind {x : Except ε α} {f : α → Except ε β} (hx : Yields P x)
    (hf : ∀ a, P a → Yields Q (f a)) : Yields Q (x >>= f) := by
  cases x with
  | error e => exact yields_error e
  | ok a => exact hf a (hx a rfl)

end Yields

/-- All codes of a set are characters. -/
def CodeSet.OfChars (s : CodeSet) : Prop := ∀ c ∈ s, c ∈ CodeSet.chars

namespace CodeSet

/-- One character is a character. -/
theorem ofChars_single {c : Int} (hlow : 0 ≤ c) (hhigh : c < Code.charLimit) :
    (single c).OfChars := by
  intro code hcode
  rw [mem_single] at hcode
  exact mem_chars.mpr ⟨hcode ▸ hlow, hcode ▸ hhigh⟩

/-- So are all from one character up to another. -/
theorem ofChars_range {lower upper : Int} {h : lower < upper} (hlow : 0 ≤ lower)
    (hhigh : upper ≤ Code.charLimit) : (range lower upper h).OfChars := by
  intro code hcode
  obtain ⟨hle, hlt⟩ := mem_range.mp hcode
  exact mem_chars.mpr ⟨Int.le_trans hlow hle, Int.lt_of_lt_of_le hlt hhigh⟩

/-- Characters stay characters in a union. -/
theorem OfChars.union {s t : CodeSet} (hs : s.OfChars) (ht : t.OfChars) : (s.union t).OfChars := by
  intro c hc
  rcases mem_union.mp hc with hc | hc
  · exact hs c hc
  · exact ht c hc

/-- They stay so when some are taken away. -/
theorem OfChars.diff {s : CodeSet} (hs : s.OfChars) (t : CodeSet) : (s.diff t).OfChars :=
  fun c hc => hs c (mem_diff.mp hc).1

/-- The characters outside a set of characters are characters. -/
theorem OfChars.toggleChars {s : CodeSet} (hs : s.OfChars) : s.toggleChars.OfChars := by
  intro c hc
  by_contra hnot
  have hnot' : c ∉ s := fun hmem => hnot (hs c hmem)
  rw [mem_iff, CodeSet.toggleChars, contains_symmDiff, not_mem_iff.mp hnot,
    not_mem_iff.mp hnot'] at hc
  cases hc

theorem ofChars_empty : empty.OfChars := by
  intro c hc
  exact absurd hc (not_mem_empty c)

/-- The digits are characters. -/
theorem ofChars_digits : digits.OfChars :=
  ofChars_range (by decide) (by decide)

/-- So are the letters, the digits and the low line. -/
theorem ofChars_wordChars : wordChars.OfChars :=
  ((ofChars_digits.union (ofChars_single (by decide) (by decide))).union
    (ofChars_range (by decide) (by decide))).union (ofChars_range (by decide) (by decide))

/-- The only code of a set is in the set. -/
theorem mem_of_single? {s : CodeSet} {c : Int} (h : s.single? = some c) : c ∈ s := by
  rw [single?_eq_some_iff.mp h]
  exact mem_single.mpr rfl

end CodeSet

namespace Pattern

/-! ## Single codes -/

/-- A character that is read for itself is one. -/
theorem ofChars_codeOfChar (c : Char) : (codeOfChar c).OfChars := by
  refine CodeSet.ofChars_single (Int.natCast_nonneg _) ?_
  have hlt : c.toNat < 0x110000 := by
    rcases c.valid with h | ⟨-, h⟩
    · exact Nat.lt_trans h (by decide)
    · exact h
  exact Int.ofNat_lt.mpr hlt

/-- Up to four hexadecimal digits are a character. -/
theorem ofChars_codeOfNat {n : Nat} (hn : n < 0x10000) : (codeOfNat n).OfChars := by
  refine CodeSet.ofChars_single (Int.natCast_nonneg _) ?_
  exact Int.ofNat_lt.mpr (Nat.lt_trans hn (by decide))

/-- A hexadecimal digit has less than sixteen values. -/
theorem hexDigit?_lt {c : Char} {n : Nat} (h : hexDigit? c = some n) : n < 16 := by
  have hle : ∀ {a b : Char}, a ≤ b → a.toNat ≤ b.toNat := fun h => h
  unfold hexDigit? at h
  split at h
  · rename_i hdigit
    simp only [Char.isDigit, Bool.and_eq_true, decide_eq_true_eq] at hdigit
    have hupper : c.toNat ≤ 57 := hdigit.2
    cases h
    omega
  · split at h
    · rename_i hlower
      have hupper : c.toNat ≤ 102 := hle hlower.2
      cases h
      omega
    · split at h
      · rename_i hcapital
        have hupper : c.toNat ≤ 70 := hle hcapital.2
        cases h
        omega
      · cases h

/-- Some digits after a value make a number of bounded size. -/
theorem yields_hexDigits (count value : Nat) (s : List Char) :
    Yields (fun r => r.value < (value + 1) * 16 ^ count) (hexDigits count value s) := by
  induction count generalizing value s with
  | zero =>
    refine yields_ok ?_
    simp
  | succ count ih =>
    cases s with
    | nil => exact yields_error _
    | cons c s =>
      rw [hexDigits]
      split
      · exact yields_error _
      · rename_i digit hdigit
        refine yields_bind (ih (16 * value + digit) s) fun r hr => yields_pure ?_
        have hlt := hexDigit?_lt hdigit
        calc r.value < (16 * value + digit + 1) * 16 ^ count := hr
          _ ≤ (value + 1) * 16 * 16 ^ count := Nat.mul_le_mul_right _ (by omega)
          _ = (value + 1) * 16 ^ (count + 1) := by rw [Nat.pow_succ, Nat.mul_assoc, Nat.mul_comm 16]

/-- A code in hexadecimal digits is read as a character. -/
theorem yields_hexCode {count bound : Nat} (hcount : count ≤ 4) (s : List Char)
    (hrest : ∀ r : Read Nat (s.length + 1), r.rest.length < bound) :
    Yields (fun r : Read CodeSet bound => r.value.OfChars)
      (do
        let r ← hexDigits count 0 s
        return ⟨codeOfNat r.value, r.rest, hrest r⟩) := by
  refine yields_bind (yields_hexDigits count 0 s) fun r hr => yields_pure ?_
  refine ofChars_codeOfNat (Nat.lt_of_lt_of_le hr ?_)
  calc (0 + 1) * 16 ^ count = 16 ^ count := by rw [Nat.zero_add, Nat.one_mul]
    _ ≤ 16 ^ 4 := Nat.pow_le_pow_right (by decide) hcount

/-- An escape is read as characters. -/
theorem yields_escape (s : List Char) : Yields (fun r => r.value.OfChars) (escape s) := by
  unfold escape
  split
  · exact yields_error _
  · exact yields_error _
  · split
    · exact yields_hexCode (by decide) _ _
    · exact yields_error _
  · split
    · exact yields_ok CodeSet.ofChars_digits
    · split
      · exact yields_ok CodeSet.ofChars_wordChars
      · split
        · exact yields_hexCode (by decide) _ _
        · split
          · exact yields_hexCode (by decide) _ _
          · split
            · exact yields_ok (ofChars_codeOfChar _)
            · split
              · exact yields_error _
              · exact yields_ok (ofChars_codeOfChar _)

/-- A single code is read as characters. -/
theorem yields_code (inClass : Bool) (s : List Char) :
    Yields (fun r => r.value.OfChars) (code inClass s) := by
  unfold code
  split
  · exact yields_error _
  · exact yields_bind (yields_escape _) fun r hr => yields_pure hr
  · split
    · exact yields_error _
    · split
      · exact yields_error _
      · exact yields_ok (ofChars_codeOfChar _)

/-! ## Classes -/

/-- A range of codes is read as characters. -/
theorem yields_codeRange {first last : CodeSet} (hfirst : first.OfChars) (hlast : last.OfChars)
    (s : List Char) : Yields CodeSet.OfChars (codeRange first last s) := by
  unfold codeRange
  split
  · exact yields_error _
  · rename_i upper hupper
    split
    · exact yields_error _
    · rename_i lower hlower
      split
      · have hlow := (CodeSet.mem_chars.mp (hfirst _ (CodeSet.mem_of_single? hlower))).1
        have hhigh := (CodeSet.mem_chars.mp (hlast _ (CodeSet.mem_of_single? hupper))).2
        exact yields_ok (CodeSet.ofChars_range hlow (Int.add_one_le_of_lt hhigh))
      · exact yields_error _

/-- A member of a class is read as characters. -/
theorem yields_classMember (s : List Char) :
    Yields (fun r => r.value.OfChars) (classMember s) := by
  unfold classMember
  refine yields_bind (yields_code true s) fun first hfirst => ?_
  split
  · split
    · exact yields_error _
    · refine yields_bind (yields_code true _) fun last hlast => ?_
      exact yields_bind (yields_codeRange hfirst hlast _) fun set hset => yields_pure hset
  · exact yields_pure hfirst

namespace ClassSoFar

theorem ofChars_negate {c : ClassSoFar} (hset : c.set.OfChars) : c.negate.set.OfChars :=
  hset

/-- A class of characters with another member is a class of characters. -/
theorem ofChars_add {c : ClassSoFar} (hset : c.set.OfChars) {member : CodeSet}
    (hmember : member.OfChars) : (c.add member).set.OfChars := by
  unfold add
  split
  · exact hset.diff member
  · exact hset.union hmember

/-- What a class stands for are characters. -/
theorem ofChars_result {c : ClassSoFar} (hset : c.set.OfChars) : c.result.OfChars := by
  unfold result
  split
  · exact hset.toggleChars
  · exact hset

end ClassSoFar

/-- The codes of a class are characters. -/
theorem yields_classMembers {c : ClassSoFar} (hset : c.set.OfChars) (s : List Char) :
    Yields (fun r => r.value.OfChars) (classMembers c s) := by
  unfold classMembers
  split
  · rename_i hcaret
    have hshorter := length_tail_lt hcaret.1
    exact yields_bind (yields_classMembers (ClassSoFar.ofChars_negate hset) s.tail)
      fun r hr => yields_pure hr
  · split
    · split
      · exact yields_error _
      · exact yields_ok (ClassSoFar.ofChars_result hset)
    · refine yields_bind (yields_classMember s) fun member hmember => ?_
      have hshorter := member.shorter
      exact yields_bind (yields_classMembers (ClassSoFar.ofChars_add hset hmember) member.rest)
        fun r hr => yields_pure hr
termination_by s.length

/-! ## Expressions -/

/-- Whatever names resolve to satisfies a predicate. -/
def Resolves {ρ : Type} (P : ρ → Prop) (resolve : String → Option ρ) : Prop :=
  ∀ name r, resolve name = some r → P r

section Expressions

variable {ρ : Type} {P : ρ → Prop} {Q : CodeSet → Prop} {resolve : String → Option ρ}

/-- A name that is resolved has the property of what names are resolved to. -/
theorem yields_resolveName (hresolve : Resolves P resolve) (name rest : List Char) :
    Yields P (resolveName resolve name rest) := by
  unfold resolveName
  split
  · split
    · rename_i r hr
      refine yields_ok ?_
      cases hfirst : resolve (String.ofList name) with
      | some r' =>
        rw [hfirst] at hr
        obtain rfl : r' = r := Option.some.inj hr
        exact hresolve _ r' hfirst
      | none =>
        rw [hfirst] at hr
        exact hresolve _ r hr
    · exact yields_error _
  · exact yields_error _

/-- So has a name in braces. -/
theorem yields_bracedName (hresolve : Resolves P resolve) (s : List Char) :
    Yields (fun r => P r.value) (bracedName resolve s) := by
  unfold bracedName
  split
  · exact yields_error _
  · exact yields_bind (yields_resolveName hresolve _ _) fun r hr => yields_pure hr

/-- And so has a name without braces. -/
theorem yields_bareName (hresolve : Resolves P resolve) (s : List Char) :
    Yields (fun r => P r.value) (bareName resolve s) :=
  yields_bind (yields_resolveName hresolve _ _) fun _ hr => yields_pure hr

/-- The labels of a pattern satisfy one predicate, and its references another. -/
def Throughout (Q : CodeSet → Prop) (P : ρ → Prop) : Pattern ρ → Prop
  | codes label => Q label
  | reference r => P r
  | sequence p q => p.Throughout Q P ∧ q.Throughout Q P
  | choice p q => p.Throughout Q P ∧ q.Throughout Q P
  | repeated p _ => p.Throughout Q P
  | complement p => p.Throughout Q P

/-- A predicate of every label that is read, of a class or of a single code. -/
structure Labels (Q : CodeSet → Prop) : Prop where
  yields_class : ∀ s, Yields (fun r => Q r.value) (classMembers ClassSoFar.start s)
  yields_code : ∀ s, Yields (fun r => Q r.value) (code false s)

/-- Labels made of characters can be read anywhere in a pattern. -/
theorem labels_ofChars : Labels CodeSet.OfChars where
  yields_class s := yields_classMembers CodeSet.ofChars_empty s
  yields_code s := yields_code false s

/-- A pattern over characters is one with characters throughout. -/
theorem over_iff_throughout {p : Pattern ρ} : p.Over P ↔ p.Throughout CodeSet.OfChars P := by
  induction p with
  | codes label => exact Iff.rfl
  | reference r => exact Iff.rfl
  | sequence p q ihp ihq => exact and_congr ihp ihq
  | choice p q ihp ihq => exact and_congr ihp ihq
  | repeated p how ih => exact ih
  | complement p ih => exact ih

mutual

/-- A choice that is read has the property throughout. -/
theorem yields_choices (hlabels : Labels Q) (hresolve : Resolves P resolve) (s : List Char) :
    Yields (fun r => r.value.Throughout Q P) (choices resolve s) := by
  rw [choices]
  refine yields_bind (yields_sequenceOf hlabels hresolve s) fun first hfirst => ?_
  have hshorter := first.shorter
  split
  · rename_i rest hrest
    have hlength : first.rest.length = rest.length + 1 := by rw [hrest, List.length_cons]
    exact yields_bind (yields_choices hlabels hresolve rest)
      fun second hsecond => yields_pure ⟨hfirst, hsecond⟩
  · exact yields_pure hfirst
termination_by 4 * s.length + 3

/-- So has a sequence. -/
theorem yields_sequenceOf (hlabels : Labels Q) (hresolve : Resolves P resolve) (s : List Char) :
    Yields (fun r => r.value.Throughout Q P) (sequenceOf resolve s) := by
  rw [sequenceOf]
  refine yields_bind (yields_repeatedAtom hlabels hresolve s) fun first hfirst => ?_
  have hshorter := first.shorter
  exact yields_bind (yields_sequenceFrom hlabels hresolve first.value hfirst first.rest)
    fun r hr => yields_pure hr
termination_by 4 * s.length + 2

theorem yields_sequenceFrom (hlabels : Labels Q) (hresolve : Resolves P resolve)
    (p : Pattern ρ) (hp : p.Throughout Q P) (s : List Char) :
    Yields (fun r => r.value.Throughout Q P) (sequenceFrom resolve p s) := by
  rw [sequenceFrom]
  split
  · exact yields_ok hp
  · refine yields_bind (yields_repeatedAtom hlabels hresolve s) fun next hnext => ?_
    have hshorter := next.shorter
    exact yields_bind
      (yields_sequenceFrom hlabels hresolve (.sequence p next.value) ⟨hp, hnext⟩ next.rest)
      fun r hr => yields_pure hr
termination_by 4 * s.length + 2

/-- So has an atom with its quantifier. -/
theorem yields_repeatedAtom (hlabels : Labels Q) (hresolve : Resolves P resolve) (s : List Char) :
    Yields (fun r => r.value.Throughout Q P) (repeatedAtom resolve s) := by
  rw [repeatedAtom]
  refine yields_bind (yields_atom hlabels hresolve s) fun p hp => ?_
  split
  · split
    · exact yields_pure hp
    · exact yields_pure hp
  · exact yields_pure hp
termination_by 4 * s.length + 1

theorem yields_atom (hlabels : Labels Q) (hresolve : Resolves P resolve) (s : List Char) :
    Yields (fun r => r.value.Throughout Q P) (atom resolve s) := by
  rw [atom.eq_def]
  split
  · exact yields_error _
  · rename_i s
    refine yields_bind (yields_choices hlabels hresolve s) fun inner hinner => ?_
    split
    · exact yields_pure hinner
    · exact yields_error _
    · exact yields_error _
  · rename_i s
    exact yields_bind (yields_atom hlabels hresolve s) fun inner hinner => yields_pure hinner
  · exact yields_bind (yields_bracedName hresolve _) fun r hr => yields_pure hr
  · exact yields_bind (yields_bareName hresolve _) fun r hr => yields_pure hr
  · exact yields_bind (hlabels.yields_class _) fun r hr => yields_pure hr
  · split
    · exact yields_error _
    · exact yields_bind (hlabels.yields_code _) fun r hr => yields_pure hr
termination_by 4 * s.length

end

/-- The labels and the references of a pattern read satisfy what those that are read and
resolved satisfy. -/
theorem throughout_read (hlabels : Labels Q) (hresolve : Resolves P resolve) {text : String}
    {p : Pattern ρ} (h : read resolve text = .ok p) : p.Throughout Q P := by
  have hall : Yields (fun p : Pattern ρ => p.Throughout Q P)
      (readAll resolve (dropBlanks false text.toList)) := by
    refine yields_bind (yields_choices hlabels hresolve _) fun r hr => ?_
    split
    · exact yields_pure hr
    · exact yields_error _
  rw [read] at h
  cases hread : readAll resolve (dropBlanks false text.toList) with
  | error e =>
    rw [hread] at h
    cases h
  | ok q =>
    rw [hread] at h
    obtain rfl : q = p := Except.ok.inj h
    exact hall q hread

/-- The labels of a pattern read hold characters, and its references were resolved. -/
theorem over_read (hresolve : Resolves P resolve) {text : String} {p : Pattern ρ}
    (h : read resolve text = .ok p) : p.Over P :=
  over_iff_throughout.mpr (throughout_read labels_ofChars hresolve h)

end Expressions

end Pattern
end Munch

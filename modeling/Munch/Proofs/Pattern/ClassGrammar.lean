import Munch.Proofs.Pattern.Reader

/-!
# The grammar of codes and classes

What a text starts with is derived as a relation between the text, what its front
stands for and the rest behind that front.  The readers of codes, members and classes
accept what the grammar derives and nothing else.

Main results:

- Theorem {lit}`Pattern.yields_code_derived`: a code that is read is in the grammar.
- Theorem {lit}`Pattern.returns_code`: a code of the grammar is read.
- Theorem {lit}`Pattern.yields_class_derived`: a class that is read is in the grammar.
- Theorem {lit}`Pattern.returns_class`: a class of the grammar is read.
-/

namespace Munch

/-- A computation returns something that satisfies a predicate. -/
def Returns {ε α : Type} (P : α → Prop) (x : Except ε α) : Prop :=
  ∃ a, x = .ok a ∧ P a

/-- What is yielded yields everything that follows from it. -/
theorem Yields.mono {ε α : Type} {P Q : α → Prop} {x : Except ε α} (hx : Yields P x)
    (h : ∀ a, P a → Q a) : Yields Q x :=
  fun a ha => h a (hx a ha)

section Returns

variable {ε α β : Type} {P : α → Prop} {Q : β → Prop}

/-- A value returned has what holds of it. -/
theorem returns_ok {a : α} (ha : P a) : Returns P (.ok a : Except ε α) :=
  ⟨a, rfl, ha⟩

/-- The same for the value of a do block. -/
theorem returns_pure {a : α} (ha : P a) : Returns P (pure a : Except ε α) :=
  returns_ok ha

/-- A composite computation returns something if its first part does and the second
does with whatever the first returns. -/
theorem returns_bind {x : Except ε α} {f : α → Except ε β} (hx : Returns P x)
    (hf : ∀ a, P a → Returns Q (f a)) : Returns Q (x >>= f) := by
  obtain ⟨a, rfl, ha⟩ := hx
  exact hf a ha

end Returns

namespace Pattern
namespace Grammar

/-! ## The grammar -/

/-- Some hexadecimal digits, from the first to the last, and a rest. -/
inductive HexDigits : List Char → List Nat → List Char → Prop
  | nil (s : List Char) : HexDigits s [] s
  | cons {c : Char} {n : Nat} {s : List Char} {ns : List Nat} {rest : List Char}
      (hc : hexDigit? c = some n) (h : HexDigits s ns rest) : HexDigits (c :: s) (n :: ns) rest

/-- The number that hexadecimal digits continue. -/
def hexValue (value : Nat) (digits : List Nat) : Nat :=
  digits.foldl (fun value digit => 16 * value + digit) value

/-- A number of hexadecimal digits, for the code with the number that they make. -/
def HexCode (count : Nat) (s : List Char) (set : CodeSet) (rest : List Char) : Prop :=
  ∃ ns, HexDigits s ns rest ∧ ns.length = count ∧ set = codeOfNat (hexValue 0 ns)

/-- What may follow a backslash. -/
inductive Escape : List Char → CodeSet → List Char → Prop
  | digits (s : List Char) : Escape ('d' :: s) CodeSet.digits s
  | word (s : List Char) : Escape ('w' :: s) CodeSet.wordChars s
  | named {c d : Char} (h : namedEscape? c = some d) (s : List Char) :
      Escape (c :: s) (codeOfChar d) s
  | byte {c : Char} {s : List Char} {set : CodeSet} {rest : List Char} (hc : c = 'x' ∨ c = 'X')
      (h : HexCode 2 s set rest) : Escape (c :: s) set rest
  | zeroByte {c : Char} {s : List Char} {set : CodeSet} {rest : List Char}
      (hc : c = 'x' ∨ c = 'X') (h : HexCode 2 s set rest) : Escape ('0' :: c :: s) set rest
  | unit {c : Char} {s : List Char} {set : CodeSet} {rest : List Char} (hc : c = 'u' ∨ c = 'U')
      (h : HexCode 4 s set rest) : Escape (c :: s) set rest
  | itself {c : Char} (hc : c.isAlphanum = false) (s : List Char) :
      Escape (c :: s) (codeOfChar c) s

/-- A literal character or an escape.  A caret is not literal in a class. -/
inductive Single (inClass : Bool) : List Char → CodeSet → List Char → Prop
  | escaped {s : List Char} {set : CodeSet} {rest : List Char} (h : Escape s set rest) :
      Single inClass ('\\' :: s) set rest
  | literal {c : Char} (hslash : c ≠ '\\') (hcontrol : isControlChar c = false)
      (hcaret : inClass = true → c ≠ '^') (s : List Char) : Single inClass (c :: s) (codeOfChar c) s

/-- A code without a hyphen behind it, or two codes around a hyphen, each a single one
and in order. -/
inductive Member : List Char → CodeSet → List Char → Prop
  | one {s : List Char} {set : CodeSet} {rest : List Char} (h : Single true s set rest)
      (hhyphen : rest.head? ≠ some '-') : Member s set rest
  | range {s : List Char} {lower upper : Int} {mid rest : List Char}
      (hlower : Single true s (CodeSet.single lower) ('-' :: mid))
      (hupper : Single true mid (CodeSet.single upper) rest) (hle : lower ≤ upper) :
      Member s (CodeSet.range lower (upper + 1) (Int.lt_add_one_of_le hle)) rest

/-- Members up to a rest, at least one if one is expected.  In the strict grammar a
closing bracket is a member only where one is expected. -/
inductive Members (strict : Bool) : Bool → List Char → List CodeSet → List Char → Prop
  | nil (s : List Char) : Members strict false s [] s
  | cons {expected : Bool} {s : List Char} {m : CodeSet} {mid : List Char} {ms : List CodeSet}
      {rest : List Char} (h : Member s m mid)
      (hclosing : strict = true → expected = true ∨ s.head? ≠ some ']')
      (hms : Members strict false mid ms rest) : Members strict expected s (m :: ms) rest

/-- Some of the sets has the code. -/
def Holds (ms : List CodeSet) (code : Int) : Prop := ∃ m ∈ ms, code ∈ m

/-- What may stand between square brackets: members, members of the complement behind a
caret, or members to take away behind a caret between the two. -/
inductive Class (strict : Bool) : List Char → (Int → Prop) → List Char → Prop
  | plain {s : List Char} {ms : List CodeSet} {rest : List Char}
      (h : Members strict true s ms rest) : Class strict s (Holds ms) rest
  | negated {s : List Char} {ms : List CodeSet} {rest : List Char}
      (h : Members strict true s ms rest) :
      Class strict ('^' :: s) (fun code => code ∈ CodeSet.chars ∧ ¬Holds ms code) rest
  | without {s : List Char} {ms ms' : List CodeSet} {mid rest : List Char}
      (hfirst : Members strict true s ms ('^' :: mid)) (hsecond : Members strict true mid ms' rest) :
      Class strict s (fun code => Holds ms code ∧ ¬Holds ms' code) rest

end Grammar

open Grammar

/-! ## Single codes -/

/-- Digits that are read are hexadecimal digits of the text, with their value. -/
theorem yields_hexDigits_derived (count value : Nat) (s : List Char) :
    Yields (fun r => ∃ ns, HexDigits s ns r.rest ∧ ns.length = count ∧ r.value = hexValue value ns)
      (hexDigits count value s) := by
  induction count generalizing value s with
  | zero => exact yields_ok ⟨[], .nil s, rfl, rfl⟩
  | succ count ih =>
    cases s with
    | nil => exact yields_error _
    | cons c s =>
      rw [hexDigits]
      split
      · exact yields_error _
      · rename_i n hn
        refine yields_bind (ih (16 * value + n) s) ?_
        rintro r ⟨ns, hns, hlength, hvalue⟩
        exact yields_pure ⟨n :: ns, .cons hn hns, congrArg Nat.succ hlength, hvalue⟩

/-- Digits of the text are read, with their value. -/
theorem returns_hexDigits {s : List Char} {ns : List Nat} {rest : List Char}
    (h : HexDigits s ns rest) (value : Nat) :
    Returns (fun r => r.value = hexValue value ns ∧ r.rest = rest)
      (hexDigits ns.length value s) := by
  induction h generalizing value with
  | nil s => exact returns_ok ⟨rfl, rfl⟩
  | cons hc h ih =>
    simp only [List.length_cons, hexDigits, hc]
    apply returns_bind (ih _)
    rintro r ⟨hvalue, hrest⟩
    exact returns_pure ⟨hvalue, hrest⟩

/-- A code that is read from its digits is written so in the text. -/
theorem yields_hexCode_derived {count bound : Nat} (s : List Char)
    (hrest : ∀ r : Read Nat (s.length + 1), r.rest.length < bound) :
    Yields (fun r : Read CodeSet bound => HexCode count s r.value r.rest)
      (do
        let r ← hexDigits count 0 s
        return ⟨codeOfNat r.value, r.rest, hrest r⟩) := by
  refine yields_bind (yields_hexDigits_derived count 0 s) ?_
  rintro r ⟨ns, hns, hlength, hvalue⟩
  exact yields_pure ⟨ns, hns, hlength, congrArg codeOfNat hvalue⟩

/-- A code written by its digits in the text is read. -/
theorem returns_hexCode {count bound : Nat} {s : List Char} {set : CodeSet} {rest : List Char}
    (h : HexCode count s set rest) (hrest : ∀ r : Read Nat (s.length + 1), r.rest.length < bound) :
    Returns (fun r : Read CodeSet bound => r.value = set ∧ r.rest = rest)
      (do
        let r ← hexDigits count 0 s
        return ⟨codeOfNat r.value, r.rest, hrest r⟩) := by
  obtain ⟨ns, hns, rfl, rfl⟩ := h
  refine returns_bind (returns_hexDigits hns 0) ?_
  rintro r ⟨hvalue, hrest⟩
  exact returns_pure ⟨congrArg codeOfNat hvalue, hrest⟩

/-- An escape that is read is in the grammar. -/
theorem yields_escape_derived (s : List Char) :
    Yields (fun r => Escape s r.value r.rest) (escape s) := by
  unfold escape
  split
  · exact yields_error _
  · exact yields_error _
  · split
    · rename_i hx
      exact (yields_hexCode_derived _ _).mono fun _ => .zeroByte hx
    · exact yields_error _
  · rename_i c s _ _
    simp only
    split_ifs with hd hw hx hu halphanum
    · subst hd
      exact yields_ok (.digits s)
    · subst hw
      exact yields_ok (.word s)
    · exact (yields_hexCode_derived _ _).mono fun _ => .byte hx
    · exact (yields_hexCode_derived _ _).mono fun _ => .unit hu
    · split
      · rename_i d hd
        exact yields_ok (.named hd s)
      · exact yields_error _
    · split
      · rename_i d hd
        exact yields_ok (.named hd s)
      · exact yields_ok (.itself (Bool.eq_false_iff.mpr halphanum) s)

/-- A character that is neither a letter nor a digit stands for itself. -/
theorem escape_of_not_alphanum {c : Char} (hc : c.isAlphanum = false) (s : List Char) :
    escape (c :: s) = .ok ⟨codeOfChar c, s, length_lt_succ s⟩ := by
  have hne : ∀ d : Char, d.isAlphanum = true → c ≠ d := by
    intro d hd hcd
    rw [hcd, hd] at hc
    cases hc
  have hnamed : namedEscape? c = none := by
    unfold namedEscape?
    split
    · exact absurd rfl (hne 'f' rfl)
    · exact absurd rfl (hne 'n' rfl)
    · exact absurd rfl (hne 'r' rfl)
    · exact absurd rfl (hne 't' rfl)
    · exact absurd rfl (hne 's' rfl)
    · rfl
  rw [escape]
  · simp [hne 'd' rfl, hne 'w' rfl, hne 'x' rfl, hne 'X' rfl, hne 'u' rfl, hne 'U' rfl, hnamed, hc]
  · intro h
    exact absurd h (hne '0' rfl)
  · intro _ _ h
    exact absurd h (hne '0' rfl)

/-- An escape of the grammar is read. -/
theorem returns_escape {s : List Char} {set : CodeSet} {rest : List Char} (h : Escape s set rest) :
    Returns (fun r => r.value = set ∧ r.rest = rest) (escape s) := by
  cases h with
  | digits => exact returns_ok ⟨rfl, rfl⟩
  | word => exact returns_ok ⟨rfl, rfl⟩
  | named hnamed =>
    unfold namedEscape? at hnamed
    split at hnamed <;> cases hnamed <;> exact returns_ok ⟨rfl, rfl⟩
  | byte hc hcode =>
    rcases hc with rfl | rfl
    · exact returns_hexCode hcode _
    · exact returns_hexCode hcode _
  | zeroByte hc hcode =>
    rw [escape, if_pos hc]
    exact returns_hexCode hcode _
  | unit hc hcode =>
    rcases hc with rfl | rfl
    · exact returns_hexCode hcode _
    · exact returns_hexCode hcode _
  | itself hc =>
    rw [escape_of_not_alphanum hc]
    exact returns_ok ⟨rfl, rfl⟩

/-- A code that is read is in the grammar. -/
theorem yields_code_derived (inClass : Bool) (s : List Char) :
    Yields (fun r => Single inClass s r.value r.rest) (code inClass s) := by
  unfold code
  split
  · exact yields_error _
  · exact yields_bind (yields_escape_derived _) fun r hr => yields_pure (.escaped hr)
  · rename_i c s hslash
    split
    · exact yields_error _
    · rename_i hcaret
      split
      · exact yields_error _
      · rename_i hcontrol
        refine yields_ok (.literal ?_ (Bool.eq_false_iff.mpr hcontrol) ?_ s)
        · intro h
          exact hslash h
        · intro hin h
          exact hcaret ⟨hin, h⟩

/-- A code of the grammar is read. -/
theorem returns_code {inClass : Bool} {s : List Char} {set : CodeSet} {rest : List Char}
    (h : Single inClass s set rest) :
    Returns (fun r => r.value = set ∧ r.rest = rest) (code inClass s) := by
  cases h with
  | escaped hescape =>
    exact returns_bind (returns_escape hescape) fun r hr => returns_pure hr
  | literal hslash hcontrol hcaret =>
    rw [code]
    · rw [if_neg fun h => hcaret h.1 h.2, hcontrol]
      exact returns_ok ⟨rfl, rfl⟩
    · intro h
      exact hslash h

/-! ## Members -/

/-- No code of a class starts with a caret. -/
theorem head?_ne_caret_of_single {s : List Char} {set : CodeSet} {rest : List Char}
    (h : Single true s set rest) : s.head? ≠ some '^' := by
  cases h with
  | escaped => simp
  | literal hslash hcontrol hcaret => simpa using hcaret rfl

/-- The range between two codes is a member. -/
theorem yields_codeRange_derived {s mid rest : List Char} {first last : CodeSet}
    (hfirst : Single true s first ('-' :: mid)) (hlast : Single true mid last rest)
    (unread : List Char) :
    Yields (fun set => Member s set rest) (codeRange first last unread) := by
  unfold codeRange
  split
  · exact yields_error _
  · rename_i upper hupper
    split
    · exact yields_error _
    · rename_i lower hlower
      split
      · rename_i hle
        rw [CodeSet.single?_eq_some_iff] at hlower hupper
        subst hlower hupper
        exact yields_ok (.range hfirst hlast hle)
      · exact yields_error _

/-- A member that is read is in the grammar. -/
theorem yields_classMember_derived (s : List Char) :
    Yields (fun r => Member s r.value r.rest) (classMember s) := by
  unfold classMember
  refine yields_bind (yields_code_derived true s) fun first hfirst => ?_
  split
  · rename_i rest hrest
    rw [hrest] at hfirst
    split
    · exact yields_error _
    · refine yields_bind (yields_code_derived true rest) fun last hlast => ?_
      exact yields_bind (yields_codeRange_derived hfirst hlast _) fun set hset => yields_pure hset
  · rename_i hhyphen
    refine yields_pure (.one hfirst ?_)
    intro hhead
    obtain ⟨rest, hrest⟩ := List.head?_eq_some_iff.mp hhead
    exact hhyphen rest hrest

/-- A member of the grammar is read. -/
theorem returns_classMember {s : List Char} {set : CodeSet} {rest : List Char}
    (h : Member s set rest) :
    Returns (fun r => r.value = set ∧ r.rest = rest) (classMember s) := by
  unfold classMember
  cases h with
  | one hcode hhyphen =>
    refine returns_bind (returns_code hcode) ?_
    rintro first ⟨hset, hrest⟩
    split
    · rename_i hfirst
      rw [← hrest, hfirst] at hhyphen
      exact absurd rfl hhyphen
    · exact returns_pure ⟨hset, hrest⟩
  | @range lower upper mid _ hlower hupper hle =>
    refine returns_bind (returns_code hlower) ?_
    rintro first ⟨hset, hmid⟩
    split
    · rename_i rest' hfirst
      obtain rfl : rest' = mid := by simpa [hfirst] using hmid
      have hsingle : first.value.single? = some lower := CodeSet.single?_eq_some_iff.mpr hset
      rw [hsingle]
      refine returns_bind (returns_code hupper) ?_
      rintro last ⟨hlast, hrest⟩
      have hsingle' : last.value.single? = some upper := CodeSet.single?_eq_some_iff.mpr hlast
      simp only [codeRange, hsingle, hsingle', dif_pos hle]
      exact returns_pure ⟨rfl, hrest⟩
    · rename_i hhyphen
      exact absurd hmid (hhyphen mid)

/-- No member begins with a caret. -/
theorem head?_ne_caret_of_member {s : List Char} {set : CodeSet} {rest : List Char}
    (h : Member s set rest) : s.head? ≠ some '^' := by
  cases h with
  | one hcode => exact head?_ne_caret_of_single hcode
  | range hlower => exact head?_ne_caret_of_single hlower

/-- A member has characters only. -/
theorem ofChars_of_member {s : List Char} {set : CodeSet} {rest : List Char}
    (h : Member s set rest) : set.OfChars := by
  obtain ⟨r, hr, rfl, -⟩ := returns_classMember h
  exact yields_classMember s r hr

/-- Members have characters only. -/
theorem ofChars_of_members {strict expected : Bool} {s : List Char} {ms : List CodeSet}
    {rest : List Char} (h : Members strict expected s ms rest) : ∀ m ∈ ms, m.OfChars := by
  induction h with
  | nil => simp
  | cons hmember _ _ ih => exact List.forall_mem_cons.mpr ⟨ofChars_of_member hmember, ih⟩

/-! ## Classes -/

/-- No member holds a code when there is none. -/
theorem holds_nil (code : Int) : ¬Holds [] code := by
  simp [Holds]

/-- A code is in the first member or in one of the others. -/
theorem holds_cons {m : CodeSet} {ms : List CodeSet} {code : Int} :
    Holds (m :: ms) code ↔ code ∈ m ∨ Holds ms code := by
  simp [Holds]

namespace ClassSoFar

variable {c : ClassSoFar}

/-- A class that has a member so far may be closed. -/
@[simp]
theorem expecting_add (c : ClassSoFar) (m : CodeSet) : (c.add m).expecting = false := by
  unfold add
  split <;> rfl

/-- A member does not negate a class. -/
@[simp]
theorem negated_add (c : ClassSoFar) (m : CodeSet) : (c.add m).negated = c.negated := by
  unfold add
  split <;> rfl

/-- A member before the caret is an initial one. -/
theorem hadInitial_add (c : ClassSoFar) (m : CodeSet) :
    (c.add m).hadInitial = (c.hadInitial || !c.negated) := by
  unfold add
  split
  · rename_i h
    rw [Bool.and_eq_true] at h
    simp [h.1, h.2]
  · rfl

/-- Members do not negate a class. -/
@[simp]
theorem negated_foldl_add (c : ClassSoFar) (ms : List CodeSet) :
    (ms.foldl add c).negated = c.negated := by
  induction ms generalizing c with
  | nil => rfl
  | cons m ms ih => rw [List.foldl_cons, ih, negated_add]

/-- Members after the caret are not initial ones. -/
theorem hadInitial_foldl_add (hnegated : c.negated = true) (ms : List CodeSet) :
    (ms.foldl add c).hadInitial = c.hadInitial := by
  induction ms generalizing c with
  | nil => rfl
  | cons m ms ih =>
    rw [List.foldl_cons, ih (by simpa using hnegated), hadInitial_add, hnegated]
    simp

/-- The first member in front of a caret is the initial one. -/
theorem hadInitial_foldl_add_cons (hnegated : c.negated = false) (m : CodeSet)
    (ms : List CodeSet) : ((m :: ms).foldl add c).hadInitial = true := by
  induction ms generalizing c m with
  | nil => simp [hadInitial_add, hnegated]
  | cons m' ms ih => exact ih (by simpa using hnegated) m'

/-- Members are collected unless they are taken away from earlier ones. -/
theorem mem_foldl_add {ms : List CodeSet} {code : Int} (h : (c.negated && c.hadInitial) = false) :
    code ∈ (ms.foldl add c).set ↔ code ∈ c.set ∨ Holds ms code := by
  induction ms generalizing c with
  | nil => simp [holds_nil]
  | cons m ms ih =>
    have hnext : ((c.add m).negated && (c.add m).hadInitial) = false := by
      rw [negated_add, hadInitial_add]
      cases hn : c.negated <;> simp_all
    have hset : code ∈ (c.add m).set ↔ code ∈ c.set ∨ code ∈ m := by
      simp only [add, h, Bool.false_eq_true, if_false, CodeSet.mem_union]
    rw [List.foldl_cons, ih hnext, hset, holds_cons, or_assoc]

/-- Members after a caret with members before it are taken away. -/
theorem mem_foldl_add_of_taken {ms : List CodeSet} {code : Int}
    (h : (c.negated && c.hadInitial) = true) :
    code ∈ (ms.foldl add c).set ↔ code ∈ c.set ∧ ¬Holds ms code := by
  induction ms generalizing c with
  | nil => simp [holds_nil]
  | cons m ms ih =>
    have hnext : ((c.add m).negated && (c.add m).hadInitial) = true := by
      rw [negated_add, hadInitial_add]
      simp_all
    have hset : code ∈ (c.add m).set ↔ code ∈ c.set ∧ code ∉ m := by
      simp only [add, h, if_true, CodeSet.mem_diff]
    rw [List.foldl_cons, ih hnext, hset, holds_cons, not_or, and_assoc]

end ClassSoFar

/-- From a class that has been read in part, a text goes on to the closing bracket. -/
inductive Finishes (c : ClassSoFar) : List Char → ClassSoFar → List Char → Prop
  | close {s : List Char} {ms : List CodeSet} {rest : List Char}
      (h : Members true c.expecting s ms (']' :: rest)) :
      Finishes c s (ms.foldl ClassSoFar.add c) rest
  | turn {s : List Char} {ms ms' : List CodeSet} {mid rest : List Char}
      (hnegated : c.negated = false)
      (hfirst : ms = [] ∧ s = '^' :: mid ∨ Members true c.expecting s ms ('^' :: mid))
      (hsecond : Members true true mid ms' (']' :: rest)) :
      Finishes c s (ms'.foldl ClassSoFar.add (ms.foldl ClassSoFar.add c).negate) rest

/-- A member in front leaves the end of the class as it is. -/
theorem Finishes.cons {c d : ClassSoFar} {s mid rest : List Char} {m : CodeSet}
    (hmember : Member s m mid) (hclosing : c.expecting = true ∨ s.head? ≠ some ']')
    (h : Finishes (c.add m) mid d rest) : Finishes c s d rest := by
  cases h with
  | close hms =>
    rw [ClassSoFar.expecting_add] at hms
    exact .close (.cons hmember (fun _ => hclosing) hms)
  | turn hnegated hfirst hsecond =>
    rw [ClassSoFar.negated_add] at hnegated
    rw [ClassSoFar.expecting_add] at hfirst
    rcases hfirst with ⟨rfl, rfl⟩ | hms
    · exact .turn hnegated (.inr (.cons hmember (fun _ => hclosing) (.nil _))) hsecond
    · exact .turn hnegated (.inr (.cons hmember (fun _ => hclosing) hms)) hsecond

/-- Members that are read go on to the closing bracket, and the class has a code. -/
theorem yields_classMembers_derived (c : ClassSoFar) (s : List Char) :
    Yields (fun r => ∃ d, Finishes c s d r.rest ∧ r.value = d.result ∧ d.result.isEmpty = false)
      (classMembers c s) := by
  rw [classMembers]
  split
  · rename_i hcaret
    have hshorter := length_tail_lt hcaret.1
    refine yields_bind (yields_classMembers_derived c.negate s.tail) ?_
    rintro r ⟨d, hfinishes, hvalue⟩
    refine yields_pure ⟨d, ?_, hvalue⟩
    rw [Read.rest_weaken]
    cases hfinishes with
    | close hms =>
      have hs : s = '^' :: s.tail := (List.cons_head?_tail hcaret.1).symm
      exact .turn hcaret.2 (.inl ⟨rfl, hs⟩) hms
    | turn hnegated => cases hnegated
  · split
    · rename_i hend
      split
      · exact yields_error _
      · rename_i hempty
        refine yields_ok ⟨c, ?_, rfl, Bool.eq_false_iff.mpr hempty⟩
        have hs : s = ']' :: s.tail := (List.cons_head?_tail hend.1).symm
        have hms : Members true c.expecting s [] (']' :: s.tail) := by
          rw [hend.2, ← hs]
          exact .nil s
        exact .close hms
    · rename_i hend
      refine yields_bind (yields_classMember_derived s) fun member hmember => ?_
      have hshorter := member.shorter
      refine yields_bind (yields_classMembers_derived (c.add member.value) member.rest) ?_
      rintro r ⟨d, hfinishes, hvalue⟩
      refine yields_pure ⟨d, hfinishes.cons hmember ?_, hvalue⟩
      cases hexpecting : c.expecting with
      | true => exact .inl rfl
      | false => exact .inr fun hhead => hend ⟨hhead, hexpecting⟩
termination_by s.length

/-- Members of the grammar are read one after the other. -/
theorem returns_classMembers_of_members {expected : Bool} {s : List Char} {ms : List CodeSet}
    {mid rest : List Char} {set : CodeSet} (h : Members true expected s ms mid) {c : ClassSoFar}
    (hexpecting : c.expecting = expected)
    (hmid : Returns (fun r => r.value = set ∧ r.rest = rest)
      (classMembers (ms.foldl ClassSoFar.add c) mid)) :
    Returns (fun r => r.value = set ∧ r.rest = rest) (classMembers c s) := by
  induction h generalizing c with
  | nil => exact hmid
  | @cons expected s m mid' ms mid hmember hclosing hms ih =>
    -- Neither of the two characters that are no members can come next.
    have hcaret : ¬(s.head? = some '^' ∧ c.negated = false) := by
      intro h
      exact head?_ne_caret_of_member hmember h.1
    have hend : ¬(s.head? = some ']' ∧ c.expecting = false) := by
      rintro ⟨hhead, hfalse⟩
      rcases hclosing rfl with htrue | hother
      · rw [hexpecting, htrue] at hfalse
        cases hfalse
      · exact hother hhead
    rw [classMembers, dif_neg hcaret, dif_neg hend]
    refine returns_bind (returns_classMember hmember) ?_
    rintro ⟨value, rest', hshorter⟩ ⟨rfl, rfl⟩
    exact returns_bind (ih (ClassSoFar.expecting_add c _) hmid) fun r hr => returns_pure hr

/-- Behind the members of the grammar none is expected. -/
theorem expecting_foldl_add {expected : Bool} {s : List Char} {ms : List CodeSet}
    {rest : List Char} (h : Members true expected s ms rest) {c : ClassSoFar}
    (hexpecting : c.expecting = expected) : (ms.foldl ClassSoFar.add c).expecting = false := by
  induction h generalizing c with
  | nil => exact hexpecting
  | cons _ _ _ ih => exact ih (ClassSoFar.expecting_add c _)

/-- A bracket closes a class that has a member and a character. -/
theorem returns_classMembers_closing {c : ClassSoFar} (hexpecting : c.expecting = false)
    (hset : c.result.isEmpty = false) (rest : List Char) :
    Returns (fun r => r.value = c.result ∧ r.rest = rest) (classMembers c (']' :: rest)) := by
  have hcaret : ¬((']' :: rest).head? = some '^' ∧ c.negated = false) := by simp
  rw [classMembers, dif_neg hcaret, dif_pos ⟨rfl, hexpecting⟩, if_neg (Bool.eq_false_iff.mp hset)]
  exact returns_ok ⟨rfl, rfl⟩

/-- The caret negates a class not yet negated. -/
theorem returns_classMembers_caret {c : ClassSoFar} {mid rest : List Char} {set : CodeSet}
    (hnegated : c.negated = false)
    (hmid : Returns (fun r => r.value = set ∧ r.rest = rest) (classMembers c.negate mid)) :
    Returns (fun r => r.value = set ∧ r.rest = rest) (classMembers c ('^' :: mid)) := by
  rw [classMembers, dif_pos ⟨rfl, hnegated⟩]
  exact returns_bind hmid fun r hr => returns_pure hr

/-- A class that has a code is read from any part of it on. -/
theorem returns_classMembers {c d : ClassSoFar} {s rest : List Char} (h : Finishes c s d rest)
    (hset : d.result.isEmpty = false) :
    Returns (fun r => r.value = d.result ∧ r.rest = rest) (classMembers c s) := by
  cases h with
  | close hms =>
    apply returns_classMembers_of_members hms rfl
    exact returns_classMembers_closing (expecting_foldl_add hms rfl) hset rest
  | @turn ms ms' mid _ hnegated hfirst hsecond =>
    have hmid : Returns (fun r => r.value =
          (ms'.foldl ClassSoFar.add (ms.foldl ClassSoFar.add c).negate).result ∧ r.rest = rest)
        (classMembers (ms.foldl ClassSoFar.add c) ('^' :: mid)) := by
      apply returns_classMembers_caret (by simpa using hnegated)
      apply returns_classMembers_of_members hsecond rfl
      exact returns_classMembers_closing (expecting_foldl_add hsecond rfl) hset rest
    rcases hfirst with ⟨rfl, rfl⟩ | hms
    · exact hmid
    · exact returns_classMembers_of_members hms rfl hmid

/-! ## Whole classes -/

/-- Toggling within the characters leaves the characters that were not members. -/
theorem mem_toggleChars {s : CodeSet} (hs : s.OfChars) {code : Int} :
    code ∈ s.toggleChars ↔ code ∈ CodeSet.chars ∧ code ∉ s := by
  rw [CodeSet.mem_iff, CodeSet.toggleChars, CodeSet.contains_symmDiff]
  by_cases hmem : code ∈ s
  · have hchar := hs code hmem
    rw [CodeSet.mem_iff] at hmem hchar
    simp [CodeSet.mem_iff, hmem, hchar]
  · rw [CodeSet.not_mem_iff] at hmem
    simp [CodeSet.mem_iff, hmem]

/-- The codes of members alone. -/
theorem mem_result_plain {ms : List CodeSet} {code : Int} :
    code ∈ (ms.foldl ClassSoFar.add ClassSoFar.start).result ↔ Holds ms code := by
  have hnegated : (ms.foldl ClassSoFar.add ClassSoFar.start).negated = false :=
    ClassSoFar.negated_foldl_add _ ms
  rw [ClassSoFar.result, hnegated, Bool.false_and, if_neg Bool.false_ne_true,
    ClassSoFar.mem_foldl_add rfl]
  exact or_iff_right (CodeSet.not_mem_empty code)

/-- The codes of members behind a caret in front. -/
theorem mem_result_negated {ms : List CodeSet} (hms : ∀ m ∈ ms, m.OfChars) {code : Int} :
    code ∈ (ms.foldl ClassSoFar.add ClassSoFar.start.negate).result ↔
      code ∈ CodeSet.chars ∧ ¬Holds ms code := by
  have hnegated : (ms.foldl ClassSoFar.add ClassSoFar.start.negate).negated = true :=
    ClassSoFar.negated_foldl_add _ ms
  have hinitial : (ms.foldl ClassSoFar.add ClassSoFar.start.negate).hadInitial = false :=
    ClassSoFar.hadInitial_foldl_add rfl ms
  have hset : ∀ code, code ∈ (ms.foldl ClassSoFar.add ClassSoFar.start.negate).set ↔
      Holds ms code := by
    intro code
    rw [ClassSoFar.mem_foldl_add rfl]
    exact or_iff_right (CodeSet.not_mem_empty code)
  have hchars : (ms.foldl ClassSoFar.add ClassSoFar.start.negate).set.OfChars := by
    intro code hcode
    obtain ⟨m, hm, hmem⟩ := (hset code).mp hcode
    exact hms m hm code hmem
  rw [ClassSoFar.result, hnegated, hinitial, Bool.not_false, Bool.and_true, if_pos rfl,
    mem_toggleChars hchars, hset]

/-- The codes of members that others are taken away from. -/
theorem mem_result_without {m : CodeSet} {ms ms' : List CodeSet} {code : Int} :
    code ∈ (ms'.foldl ClassSoFar.add
        ((m :: ms).foldl ClassSoFar.add ClassSoFar.start).negate).result ↔
      Holds (m :: ms) code ∧ ¬Holds ms' code := by
  generalize hd : ((m :: ms).foldl ClassSoFar.add ClassSoFar.start).negate = d
  have hnegated : d.negated = true := by
    rw [← hd]
    rfl
  have hinitial : d.hadInitial = true := by
    rw [← hd]
    exact ClassSoFar.hadInitial_foldl_add_cons rfl m ms
  have hset : code ∈ d.set ↔ Holds (m :: ms) code := by
    rw [← hd]
    exact (ClassSoFar.mem_foldl_add rfl).trans (or_iff_right (CodeSet.not_mem_empty code))
  have htaken : (d.negated && d.hadInitial) = true := by
    rw [hnegated, hinitial, Bool.and_true]
  rw [ClassSoFar.result, ClassSoFar.hadInitial_foldl_add hnegated, hinitial, Bool.not_true,
    Bool.and_false, if_neg Bool.false_ne_true, ClassSoFar.mem_foldl_add_of_taken htaken, hset]

/-- The reader finishes every class of the grammar. -/
theorem exists_finishes_of_class {s rest : List Char} {codes : Int → Prop}
    (h : Class true s codes (']' :: rest)) :
    ∃ d, Finishes ClassSoFar.start s d rest ∧ ∀ code, code ∈ d.result ↔ codes code := by
  cases h with
  | plain hms => exact ⟨_, .close hms, fun _ => mem_result_plain⟩
  | negated hms =>
    refine ⟨_, .turn rfl (.inl ⟨rfl, rfl⟩) hms, fun _ => ?_⟩
    exact mem_result_negated (ofChars_of_members hms)
  | without hfirst hsecond =>
    refine ⟨_, .turn rfl (.inr hfirst) hsecond, fun _ => ?_⟩
    cases hfirst with
    | cons => exact mem_result_without

/-- A class that the reader finishes is one of the grammar. -/
theorem exists_class_of_finishes {s rest : List Char} {d : ClassSoFar}
    (h : Finishes ClassSoFar.start s d rest) :
    ∃ codes, Class true s codes (']' :: rest) ∧ ∀ code, code ∈ d.result ↔ codes code := by
  cases h with
  | close hms => exact ⟨_, .plain hms, fun _ => mem_result_plain⟩
  | turn _ hfirst hsecond =>
    rcases hfirst with ⟨rfl, rfl⟩ | hfirst
    · exact ⟨_, .negated hsecond, fun _ => mem_result_negated (ofChars_of_members hsecond)⟩
    · refine ⟨_, .without hfirst hsecond, fun _ => ?_⟩
      cases hfirst with
      | cons => exact mem_result_without

/-- A class that is read is in the grammar, and it has a code. -/
theorem yields_class_derived (s : List Char) :
    Yields (fun r => ∃ codes, Class true s codes (']' :: r.rest) ∧
      (∀ code, code ∈ r.value ↔ codes code) ∧ ∃ code, codes code)
      (classMembers ClassSoFar.start s) := by
  intro r hr
  obtain ⟨d, hfinishes, hvalue, hempty⟩ := yields_classMembers_derived _ s r hr
  obtain ⟨codes, hclass, hcodes⟩ := exists_class_of_finishes hfinishes
  obtain ⟨code, hcode⟩ := CodeSet.isEmpty_eq_false_iff.mp hempty
  rw [hvalue]
  exact ⟨codes, hclass, hcodes, code, (hcodes code).mp hcode⟩

/-- A class of the grammar that has a code is read, with the codes that it stands for. -/
theorem returns_class {s rest : List Char} {codes : Int → Prop}
    (h : Class true s codes (']' :: rest)) (hcodes : ∃ code, codes code) :
    Returns (fun r => (∀ code, code ∈ r.value ↔ codes code) ∧ r.rest = rest)
      (classMembers ClassSoFar.start s) := by
  obtain ⟨d, hfinishes, hset⟩ := exists_finishes_of_class h
  obtain ⟨code, hcode⟩ := hcodes
  have hempty : d.result.isEmpty = false :=
    CodeSet.isEmpty_eq_false_iff.mpr ⟨code, (hset code).mpr hcode⟩
  obtain ⟨r, hr, hvalue, hrest⟩ := returns_classMembers hfinishes hempty
  rw [← hvalue] at hset
  exact ⟨r, hr, hset, hrest⟩

end Pattern
end Munch

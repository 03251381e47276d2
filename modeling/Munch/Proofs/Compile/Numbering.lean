import Munch.Proofs.Compile.Combined

/-!
# Numbers of tokens

The definitions of a script have different names, and those that are not anonymous are
numbered from zero.  So the check of the names finds nothing wrong unless there are no
tokens or too many, and it lists the names of the tokens by their numbers.

Main results:

- Theorem {lit}`Numbered.of_definitionsOf`: how the definitions of entries are numbered.
- Theorem {lit}`Numbered.exists_tokenNames_eq_ok`: when the check succeeds.
- Theorem {lit}`exists_definition_of_lt`: every number below that of the names has a
  definition.
-/

namespace Munch

/-! ## Errors -/

section Except

variable {ε δ α β : Type}

theorem bind_eq_error_iff {x : Except ε α} {f : α → Except ε β} {e : ε} :
    x >>= f = .error e ↔ x = .error e ∨ ∃ a, x = .ok a ∧ f a = .error e := by
  cases x with
  | error e => simp [bind, Except.bind]
  | ok a => simp [bind, Except.bind]

theorem mapError_eq_error_iff {x : Except ε α} {f : ε → δ} {d : δ} :
    x.mapError f = .error d ↔ ∃ e, x = .error e ∧ f e = d := by
  cases x with
  | error e => simp [Except.mapError]
  | ok a => simp [Except.mapError]

end Except

variable {entries : List ScriptEntry} {definitions rest : List TokenDefinition}
  {d : TokenDefinition} {names : Array String} {id : Int}

/-- While definitions are made, names that occur twice are the only errors that are not
errors of the text. -/
theorem exists_eq_duplicateToken_of_definitionsFrom {table : FragmentTable} {nextId : Int}
    {error : BuildError} (h : definitionsFrom table nextId entries = .error (.build error)) :
    ∃ name, error = .duplicateToken name := by
  induction entries generalizing table nextId with
  | nil => cases h
  | cons entry entries ih =>
    rw [definitionsFrom] at h
    rcases bind_eq_error_iff.mp h with hentry | ⟨f, -, hrest⟩
    · unfold compileEntry at hentry
      split at hentry
      · cases hentry
      · split at hentry
        · cases hentry
          exact ⟨entry.name, rfl⟩
        · obtain ⟨_, -, herror⟩ := mapError_eq_error_iff.mp hentry
          cases herror
    · simp only at hrest
      split at hrest
      · rcases bind_eq_error_iff.mp hrest with hrest | ⟨_, -, hrest⟩
        · exact ih hrest
        · cases hrest
      · rcases bind_eq_error_iff.mp hrest with hrest | ⟨_, -, hrest⟩
        · exact ih hrest
        · cases hrest

/-- What the check of names can report. -/
def BuildError.IsNaming : BuildError → Prop
  | .noTokens | .duplicateToken _ | .invalidTokenId _ _ _ => True
  | _ => False

theorem isNaming_of_namesFrom {seen names : List String} {error : BuildError}
    (h : namesFrom seen names definitions = .error error) : error.IsNaming := by
  induction definitions generalizing seen names with
  | nil =>
    rw [namesFrom] at h
    split at h
    · cases h
      exact trivial
    · cases h
  | cons d rest ih =>
    rw [namesFrom] at h
    split at h
    · cases h
      exact trivial
    · split at h
      · exact ih h
      · split at h
        · exact ih h
        · cases h
          exact trivial

/-! ## Numbering -/

/-- The number of definitions that are not anonymous. -/
def tokenCount (definitions : List TokenDefinition) : Nat :=
  definitions.countP fun d => d.id.isSome

/-- The ids of definitions count up from a number. -/
def CountUp : Int → List TokenDefinition → Prop
  | _, [] => True
  | next, d :: rest =>
    match d.id with
    | none => CountUp next rest
    | some id => id = next ∧ CountUp (next + 1) rest

/-- Names are different, and ids count up from zero. -/
structure Numbered (definitions : List TokenDefinition) : Prop where
  nodup : (definitions.map TokenDefinition.name).Nodup
  countUp : CountUp 0 definitions

theorem countUp_cons_of_none {next : Int} (hd : d.id = none) :
    CountUp next (d :: rest) ↔ CountUp next rest := by
  rw [CountUp, hd]

theorem countUp_cons_of_some {next : Int} (hd : d.id = some id) :
    CountUp next (d :: rest) ↔ id = next ∧ CountUp (next + 1) rest := by
  rw [CountUp, hd]

theorem tokenCount_cons_of_none (hd : d.id = none) :
    tokenCount (d :: rest) = tokenCount rest := by
  simp [tokenCount, hd]

theorem tokenCount_cons_of_some (hd : d.id = some id) :
    tokenCount (d :: rest) = tokenCount rest + 1 := by
  simp [tokenCount, hd]

/-- What is not in the table after adding a name is a different name, and was not there
before. -/
theorem FragmentTable.lookup_insert_eq_none_iff {table : FragmentTable} {name other : String}
    {f : Fragment} :
    (table.insert name f).lookup other = none ↔ name ≠ other ∧ table.lookup other = none := by
  by_cases hname : name = other
  · subst hname
    simp
  · rw [lookup_insert_of_ne table f hname]
    exact (and_iff_right hname).symm

/-- Definitions are numbered from the next id on, and their names are new and different. -/
theorem numbered_of_definitionsFrom {table : FragmentTable} {nextId : Int}
    (h : definitionsFrom table nextId entries = .ok definitions) :
    CountUp nextId definitions ∧ (definitions.map TokenDefinition.name).Nodup ∧
      ∀ d ∈ definitions, table.lookup d.name = none := by
  induction entries generalizing table nextId definitions with
  | nil =>
    cases h
    refine ⟨trivial, List.nodup_nil, fun d hd => ?_⟩
    cases hd
  | cons entry entries ih =>
    rw [definitionsFrom] at h
    obtain ⟨f, hf, hrest⟩ := bind_eq_ok_iff.mp h
    have hnew := (compilePattern_of_compileEntry hf).1
    -- Whatever id the definition has, its name is not in the table, and those of the others
    -- are not in the table with it.
    have hcons : ∀ {nextId others id}, definitionsFrom (table.insert entry.name f) nextId entries =
        .ok others → CountUp nextId others ∧
          ((⟨entry.name, id, f⟩ :: others).map TokenDefinition.name).Nodup ∧
            ∀ d ∈ (⟨entry.name, id, f⟩ :: others : List TokenDefinition),
              table.lookup d.name = none := by
      intro nextId others id hothers
      obtain ⟨hcount, hnodup, hfresh⟩ := ih hothers
      simp only [FragmentTable.lookup_insert_eq_none_iff] at hfresh
      refine ⟨hcount, List.nodup_cons.mpr ⟨fun hmem => ?_, hnodup⟩,
        List.forall_mem_cons.mpr ⟨hnew, fun d hd => (hfresh d hd).2⟩⟩
      obtain ⟨d, hd, hname⟩ := List.mem_map.mp hmem
      exact (hfresh d hd).1 hname.symm
    simp only at hrest
    split at hrest
    · obtain ⟨others, hothers, hdefinitions⟩ := bind_eq_ok_iff.mp hrest
      cases hdefinitions
      exact hcons hothers
    · obtain ⟨others, hothers, hdefinitions⟩ := bind_eq_ok_iff.mp hrest
      cases hdefinitions
      obtain ⟨hcount, hnames⟩ := hcons hothers
      exact ⟨⟨rfl, hcount⟩, hnames⟩

/-- How the definitions of entries are numbered. -/
theorem Numbered.of_definitionsOf (h : definitionsOf entries = .ok definitions) :
    Numbered definitions := by
  obtain ⟨hcount, hnodup, -⟩ := numbered_of_definitionsFrom h
  exact ⟨hnodup, hcount⟩

/-! ## The check of names -/

/-- The check succeeds when ids count up from the number of names found before, there are
some names and not too many. -/
theorem exists_namesFrom_eq_ok {seen names : List String} (hcount : CountUp names.length definitions)
    (hfresh : ∀ d ∈ definitions, d.name ∉ seen)
    (hnodup : (definitions.map TokenDefinition.name).Nodup)
    (hsome : 0 < names.length + tokenCount definitions)
    (hmany : (names.length : Int) + tokenCount definitions ≤ maxTokenId + 1) :
    ∃ result, namesFrom seen names definitions = .ok result := by
  induction definitions generalizing seen names with
  | nil =>
    have hne : names.isEmpty = false := List.isEmpty_eq_false_iff.mpr (List.length_pos_iff.mp hsome)
    simp [namesFrom, hne]
  | cons d rest ih =>
    obtain ⟨hd, hrest⟩ := List.forall_mem_cons.mp hfresh
    obtain ⟨hname, hnodup⟩ := List.nodup_cons.mp hnodup
    have hfresh' : ∀ e ∈ rest, e.name ∉ d.name :: seen := by
      intro e he hmem
      rcases List.mem_cons.mp hmem with heq | hmem
      · exact hname (heq ▸ List.mem_map_of_mem he)
      · exact hrest e he hmem
    have hseen : seen.contains d.name = false := by simpa using hd
    rw [namesFrom, hseen]
    simp only [Bool.false_eq_true, if_false]
    cases hid : d.id with
    | none =>
      rw [tokenCount_cons_of_none hid] at hsome hmany
      exact ih ((countUp_cons_of_none hid).mp hcount) hfresh' hnodup hsome hmany
    | some id =>
      obtain ⟨rfl, hcount⟩ := (countUp_cons_of_some hid).mp hcount
      rw [tokenCount_cons_of_some hid] at hmany
      have hmax : (names.length : Int) ≤ maxTokenId := by omega
      simp only [hmax, and_self, if_true]
      refine ih ?_ hfresh' hnodup ?_ ?_
      · rwa [List.length_cons, Int.natCast_add, Int.natCast_one]
      · rw [List.length_cons]
        omega
      · rw [List.length_cons]
        omega

/-- The check succeeds when there are some tokens and not too many. -/
theorem Numbered.exists_tokenNames_eq_ok (hnumbered : Numbered definitions)
    (hsome : 0 < tokenCount definitions)
    (hmany : (tokenCount definitions : Int) ≤ maxTokenId + 1) :
    ∃ names, tokenNames definitions = .ok names :=
  exists_namesFrom_eq_ok hnumbered.countUp (fun _ _ => List.not_mem_nil) hnumbered.nodup
    (by simpa using hsome) (by simpa using hmany)

/-- The names found are those of the definitions that are not anonymous, in order. -/
theorem toList_of_namesFrom {seen names : List String} {result : Array String}
    (h : namesFrom seen names definitions = .ok result) :
    result.toList = names.reverse ++
      (definitions.filter fun d => d.id.isSome).map TokenDefinition.name := by
  induction definitions generalizing seen names with
  | nil =>
    rw [namesFrom] at h
    split at h
    · cases h
    · cases h
      simp
  | cons d rest ih =>
    rw [namesFrom] at h
    split at h
    · cases h
    · split at h
      · rename_i hid
        rw [ih h]
        simp [hid]
      · rename_i id hid
        split at h
        · rw [ih h]
          simp [hid]
        · cases h

section TokenNames

variable (hnames : tokenNames definitions = .ok names)
include hnames

/-- Every number below that of the names has a definition. -/
theorem exists_definition_of_lt {n : Nat} (hn : n < names.size) :
    ∃ d ∈ definitions, d.id = some (n : Int) := by
  have hare := NamesAre.of_tokenNames hnames
  have hn' : n < names.toList.length := hn
  obtain ⟨name, hname⟩ : ∃ name, names.toList[n]? = some name := ⟨_, List.getElem?_eq_getElem hn'⟩
  have hmem := List.mem_of_getElem? hname
  rw [toList_of_namesFrom hnames, List.reverse_nil, List.nil_append, List.mem_map] at hmem
  obtain ⟨d, hd, rfl⟩ := hmem
  obtain ⟨hd, hsome⟩ := List.mem_filter.mp hd
  obtain ⟨id, hid⟩ := Option.isSome_iff_exists.mp hsome
  exact ⟨d, hd, hare.id_eq_of_getElem? hd hid hname ▸ hid⟩

/-- All tokens have markers. -/
theorem size_le_of_tokenNames : (names.size : Int) ≤ maxTokenId + 1 := by
  by_cases hzero : names.size = 0
  · rw [hzero]
    decide
  · obtain ⟨d, hd, hid⟩ := exists_definition_of_lt hnames (Nat.sub_one_lt hzero)
    obtain ⟨n, hn, hle, -⟩ := (NamesAre.of_tokenNames hnames).getElem? d hd _ hid
    omega

theorem lt_size_of_id (hd : d ∈ definitions) (hid : d.id = some id) :
    ∃ n < names.size, id = (n : Nat) := by
  obtain ⟨n, rfl, -, hn⟩ := (NamesAre.of_tokenNames hnames).getElem? d hd id hid
  obtain ⟨hlt, -⟩ := List.getElem?_eq_some_iff.mp hn
  exact ⟨n, hlt, rfl⟩

/-- An error about a token gives the name of its definition. -/
theorem nameForError_eq (hd : d ∈ definitions) (hid : d.id = some id) :
    nameForError names id = d.name := by
  obtain ⟨n, rfl, -, hn⟩ := (NamesAre.of_tokenNames hnames).getElem? d hd id hid
  have hnonneg : ¬(n : Int) < 0 := by omega
  simp only [nameForError, hnonneg, if_false, Int.toNat_natCast]
  rw [← Array.getElem?_toList, hn]
  rfl

end TokenNames
end Munch

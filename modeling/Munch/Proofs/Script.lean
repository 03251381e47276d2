import Mathlib.Algebra.Group.Nat.Even
import Mathlib.Data.List.Induction
import Mathlib.Data.List.TakeWhile
import Munch.Proofs.TokenName
import Munch.Proofs.Traversal
import Munch.Script

/-!
# Scripts that are written and read

There are many ways to write the same definitions: with blanks around a name, with a pattern on
several lines, with comments between.  A pattern may be cut wherever an even number of backslashes
stands before the cut, also inside a run of them, and the backslash that says that the line goes on
is then the odd one of its line.  All of these ways are read alike.

Main results:

- Theorem {lit}`Script.MadeOf.lines_eq`: the lines of a text, however they end.
- Theorem {lit}`Script.even_backslashes_append_iff`: a cut behind an even number of backslashes
  leaves the parity of later runs as it was.
- Theorem {lit}`Script.WritesPattern.joinLines_append`: the lines of a pattern are put together.
- Theorem {lit}`Script.entries_of_writes`: what is written is read.
-/

namespace Munch
namespace Script

/-! ## Lines of a text -/

/-- A text is made of lines, each with an end: a line feed, or a carriage return and a line feed.
No line has a line feed in it, and one that ends in a carriage return needs both for its end. -/
inductive MadeOf : List (List Char) → List Char → Prop where
  | nil : MadeOf [] []
  | feed {line s : List Char} {rest : List (List Char)} (hline : '\n' ∉ line)
      (hlast : line.getLast? ≠ some '\r') (hrest : MadeOf rest s) :
      MadeOf (line :: rest) (line ++ '\n' :: s)
  | returnFeed {line s : List Char} {rest : List (List Char)} (hline : '\n' ∉ line)
      (hrest : MadeOf rest s) : MadeOf (line :: rest) (line ++ '\r' :: '\n' :: s)

variable {line s : List Char} {rest : List (List Char)}

/-- A character goes to the first line unless it begins the end of a line. -/
theorem lines_cons {c : Char} (hfeed : c ≠ '\n') (hreturn : c = '\r' → s.head? ≠ some '\n')
    (hs : lines s = line :: rest) : lines (c :: s) = (c :: line) :: rest := by
  rw [lines, hs]
  · exact hfeed
  · rintro s' rfl rfl
    exact hreturn rfl rfl

/-- A text without line feeds is a line by itself when an end comes behind it. -/
theorem lines_append (hline : '\n' ∉ line)
    (hlast : line.getLast? = some '\r' → s.head? ≠ some '\n') (hs : lines s = [] :: rest) :
    lines (line ++ s) = line :: rest := by
  induction line with
  | nil => exact hs
  | cons c line ih =>
    obtain ⟨hc, hline⟩ := List.ne_and_not_mem_of_not_mem_cons hline
    cases line with
    | nil => exact lines_cons hc.symm (fun hreturn => hlast (by rw [hreturn]; rfl)) hs
    | cons d line =>
      rw [List.getLast?_cons_cons] at hlast
      refine lines_cons hc.symm (fun _ hd => ?_) (ih hline hlast)
      obtain rfl : d = '\n' := Option.some.inj hd
      exact hline List.mem_cons_self

/-- The lines of a text are those it is made of. -/
theorem MadeOf.lines_eq (h : MadeOf rest s) : lines s = rest := by
  induction h with
  | nil => rfl
  | @feed line s rest hline hlast hrest ih =>
    have hs : lines ('\n' :: s) = [] :: rest := by rw [lines, ih]
    exact lines_append hline (fun hreturn => absurd hreturn hlast) hs
  | @returnFeed line s rest hline hrest ih =>
    have hs : lines ('\r' :: '\n' :: s) = [] :: rest := by rw [lines, ih]
    refine lines_append hline (fun _ hhead => ?_) hs
    cases hhead

/-! ## Backslashes at the end of a line -/

/-- A text without backslashes does not end in any. -/
theorem backslashes_eq_zero (hs : '\\' ∉ s) : backslashes s = 0 := by
  cases s using List.reverseRecOn with
  | nil => rfl
  | append_singleton s c =>
    rw [backslashes_concat, if_neg]
    rintro rfl
    exact hs (List.mem_append_right _ List.mem_cons_self)

/-- Where a text is cut behind an even number of backslashes, the parity of the run at its end does
not depend on what stands before the cut. -/
theorem even_backslashes_append_iff {before part : List Char}
    (hbefore : Even (backslashes before)) :
    Even (backslashes (before ++ part)) ↔ Even (backslashes part) := by
  have hsplit := @List.takeWhile_append _ (· = '\\') part.reverse before.reverse
  unfold backslashes at hbefore ⊢
  rw [List.reverse_append, hsplit]
  split
  · rename_i hall
    rw [List.length_append, hall, Nat.even_add]
    exact iff_true_right hbefore
  · rfl

/-- A line is not continued iff it ends in an even number of backslashes. -/
theorem isContinued_eq_false_iff : isContinued line = false ↔ Even (backslashes line) := by
  rw [isContinued, decide_eq_false_iff_not, Nat.even_iff]
  omega

/-- One backslash more after an even number of them continues the line. -/
theorem isContinued_append_backslash (hline : Even (backslashes line)) :
    isContinued (line ++ ['\\']) = true := by
  rw [← Bool.not_eq_false, isContinued_eq_false_iff, backslashes_concat, if_pos rfl,
    Nat.even_add_one]
  exact not_not.mpr hline

/-! ## Ways to write definitions -/

/-- The lines on which a pattern can be written.  `front` stands before it on the first of them, and
`written` is what earlier lines have of it.  A line that is not the last ends in a backslash that
is not of the pattern, at a place where the pattern has an even number of backslashes before it. -/
inductive WritesPattern : List Char → List Char → List Char → List (List Char) → Prop where
  | last {front written pattern : List Char} :
      WritesPattern front written pattern [front ++ pattern]
  | cut {front written part pattern : List Char} {rest : List (List Char)}
      (heven : Even (backslashes (written ++ part)))
      (hrest : WritesPattern [] (written ++ part) pattern rest) :
      WritesPattern front written (part ++ pattern) ((front ++ part ++ ['\\']) :: rest)

/-- Characters that are all blank. -/
def AreBlank (s : List Char) : Prop := ∀ c ∈ s, isBlank c = true

instance (s : List Char) : Decidable (AreBlank s) :=
  decidable_of_iff (s.all isBlank = true) List.all_eq_true

/-- A line that defines nothing: it is blank, or a number sign is the first character that is not,
and it does not go on in the next line. -/
inductive SaysNothing : List Char → Prop where
  | blank {line : List Char} (hline : AreBlank line) : SaysNothing line
  | comment {indent text : List Char} (hindent : AreBlank indent)
      (heven : Even (backslashes (indent ++ '#' :: text))) : SaysNothing (indent ++ '#' :: text)

/-- The lines on which definitions can be written.  The first line has the number `number`, and each
definition has the number of the line on which it starts. -/
inductive Writes : Nat → List ScriptEntry → List (List Char) → Prop where
  | nil {number : Nat} : Writes number [] []
  | nothing {number : Nat} {found : List ScriptEntry} {line : List Char} {rest : List (List Char)}
      (hline : SaysNothing line) (hrest : Writes (number + 1) found rest) :
      Writes number found (line :: rest)
  | definition {number : Nat} {name pattern : String} {indent gap : List Char}
      {found : List ScriptEntry} {own rest : List (List Char)} (hname : isTokenName name = true)
      (hindent : AreBlank indent) (hgap : AreBlank gap)
      (heven : Even (backslashes pattern.toList))
      (hown : WritesPattern (indent ++ name.toList ++ gap ++ [':']) [] pattern.toList own)
      (hrest : Writes (number + own.length) found rest) :
      Writes number (⟨name, pattern, some number⟩ :: found) (own ++ rest)

/-! ## Putting lines together -/

variable {number : Nat} {held : Option LogicalLine}

/-- A line that is not continued is joined to what was held before it. -/
theorem joinLines_of_even (hline : Even (backslashes line)) :
    joinLines number held (line :: rest) =
      (let start := held.getD ⟨number, []⟩
       { start with text := start.text ++ line } :: (joinLines (number + 1) none rest).1,
        (joinLines (number + 1) none rest).2) := by
  rw [joinLines, isContinued_eq_false_iff.mpr hline]
  rfl

/-- A continued line is held without its last backslash. -/
theorem joinLines_append_backslash (hline : Even (backslashes line)) :
    joinLines number held ((line ++ ['\\']) :: rest) =
      (let start := held.getD ⟨number, []⟩
       joinLines (number + 1) (some { start with text := start.text ++ line }) rest) := by
  rw [joinLines, isContinued_append_backslash hline, List.dropLast_concat]
  rfl

/-- The lines of a pattern are put together to what stands before it and the pattern. -/
theorem WritesPattern.joinLines_append {front written pattern : List Char}
    {own : List (List Char)} (hown : WritesPattern front written pattern own)
    (hfront : Even (backslashes front)) (hwritten : Even (backslashes written))
    (hend : Even (backslashes (written ++ pattern))) (held : Option LogicalLine)
    (rest : List (List Char)) :
    joinLines number held (own ++ rest) =
      (let start := held.getD ⟨number, []⟩
       { start with text := start.text ++ (front ++ pattern) } ::
          (joinLines (number + own.length) none rest).1,
        (joinLines (number + own.length) none rest).2) := by
  induction hown generalizing number held with
  | @last front written pattern =>
    have hpattern : Even (backslashes pattern) := (even_backslashes_append_iff hwritten).mp hend
    exact joinLines_of_even ((even_backslashes_append_iff hfront).mpr hpattern)
  | @cut front written part pattern more heven hmore ih =>
    have hpart : Even (backslashes part) := (even_backslashes_append_iff hwritten).mp heven
    rw [List.append_assoc] at ih
    have hbefore := (even_backslashes_append_iff hfront).mpr hpart
    rw [List.cons_append, joinLines_append_backslash hbefore, ih ⟨0, rfl⟩ heven hend,
      List.length_cons]
    simp only [Option.getD_some, List.nil_append, List.append_assoc, Nat.add_assoc, Nat.add_comm 1]

/-! ## Definitions -/

/-- The start of a name stays in front when blanks are dropped. -/
theorem dropBlank_append_name {indent name : List Char} (hindent : AreBlank indent)
    (hname : isNameList name = true) (s : List Char) :
    dropBlank (indent ++ (name ++ s)) = name ++ s := by
  rw [dropBlank, List.dropWhile_append_of_pos hindent]
  cases name with
  | nil => cases hname
  | cons c name =>
    have hc := isBlank_eq_false_of_isNameChar (forall_isNameChar hname c List.mem_cons_self)
    exact List.dropWhile_cons_of_neg (by simp [hc])

/-- Blanks behind a name are dropped. -/
theorem dropBlankEnd_name_append {name gap : List Char} (hname : isNameList name = true)
    (hgap : AreBlank gap) : dropBlankEnd (name ++ gap) = name := by
  have hblank : ∀ c ∈ gap.reverse, isBlank c = true := fun c hc => hgap c (List.mem_reverse.mp hc)
  have hstop : ∀ c, name.reverse.head? = some c → isBlank c = false := by
    intro c hc
    have hmem : c ∈ name := List.mem_reverse.mp (List.mem_of_head? hc)
    exact isBlank_eq_false_of_isNameChar (forall_isNameChar hname c hmem)
  rw [dropBlankEnd, List.reverse_append, (span_append hblank hstop).2, List.reverse_reverse]

/-- A name with blanks behind it goes up to the first colon of its line. -/
theorem splitLine_eq_ok {name gap pattern : List Char} (hname : isNameList name = true)
    (hgap : AreBlank gap) :
    splitLine ⟨number, name ++ (gap ++ ':' :: pattern)⟩ =
      .ok ⟨String.ofList name, String.ofList pattern, some number⟩ := by
  have hcolon : ∀ c ∈ name ++ gap, (c != ':') = true := by
    refine List.forall_mem_append.mpr ⟨fun c hc => ?_, fun c hc => ?_⟩
    · have hchar := forall_isNameChar hname c hc
      rw [bne_iff_ne]
      rintro rfl
      exact absurd hchar (by decide)
    · have hblank := hgap c hc
      rw [bne_iff_ne]
      rintro rfl
      exact absurd hblank (by decide)
  obtain ⟨htake, hdrop⟩ : (name ++ gap ++ ':' :: pattern).takeWhile (· != ':') = name ++ gap ∧
      (name ++ gap ++ ':' :: pattern).dropWhile (· != ':') = ':' :: pattern := by
    refine span_append hcolon fun c hc => ?_
    cases hc
    rfl
  rw [← List.append_assoc, splitLine]
  simp only [htake, hdrop, dropBlankEnd_name_append hname hgap, hname, if_true]

/-! ## Reading what is written -/

/-- A line that says nothing is not continued. -/
theorem SaysNothing.even_backslashes (hline : SaysNothing line) : Even (backslashes line) := by
  cases hline with
  | blank hblank =>
    have hnone : '\\' ∉ line := fun hmem => absurd (hblank _ hmem) (by decide)
    rw [backslashes_eq_zero hnone]
    exact ⟨0, rfl⟩
  | comment hindent heven => exact heven

/-- A line that says nothing defines nothing. -/
theorem SaysNothing.isDefinition_eq_false (hline : SaysNothing line) :
    isDefinition (dropBlank line) = false := by
  cases hline with
  | blank hblank =>
    rw [dropBlank, List.dropWhile_eq_nil_iff.mpr hblank]
    rfl
  | comment hindent heven =>
    rw [dropBlank, List.dropWhile_append_of_pos hindent]
    rfl

/-- The definitions that lines say after they were put together. -/
def Defines (joined : List LogicalLine) (found : List ScriptEntry) : Prop :=
  ((joined.map fun l => { l with text := dropBlank l.text }).filter
    fun l => isDefinition l.text).mapM splitLine = .ok found

variable {joined : List LogicalLine} {found : List ScriptEntry}

/-- A line that says nothing adds nothing to the others. -/
theorem Defines.nothing (hdefines : Defines joined found) (hline : SaysNothing line)
    (number : Nat) : Defines (⟨number, line⟩ :: joined) found := by
  rw [Defines, List.map_cons, List.filter_cons_of_neg]
  · exact hdefines
  · simp [hline.isDefinition_eq_false]

/-- A line with a definition adds it in front of the others. -/
theorem Defines.definition (hdefines : Defines joined found) {name indent gap pattern : List Char}
    (hname : isNameList name = true) (hindent : AreBlank indent) (hgap : AreBlank gap)
    (number : Nat) :
    Defines (⟨number, indent ++ (name ++ (gap ++ ':' :: pattern))⟩ :: joined)
      (⟨String.ofList name, String.ofList pattern, some number⟩ :: found) := by
  have hstarts : isDefinition (name ++ (gap ++ ':' :: pattern)) = true := by
    cases name with
    | nil => cases hname
    | cons c name =>
      have hchar := forall_isNameChar hname c List.mem_cons_self
      have hc : c ≠ '#' := by
        rintro rfl
        exact absurd hchar (by decide)
      simp [isDefinition, hc]
  rw [Defines, List.map_cons, dropBlank_append_name hindent hname, List.filter_cons_of_pos]
  · exact mapM_eq_ok_iff.mpr
      (List.Forall₂.cons (splitLine_eq_ok hname hgap) (mapM_eq_ok_iff.mp hdefines))
  · exact hstarts

/-- Lines on which definitions are written are put together so that no line is left, and say
these definitions. -/
theorem Writes.exists_defines (hwrites : Writes number found rest) :
    ∃ joined, joinLines number none rest = (joined, none) ∧ Defines joined found := by
  induction hwrites with
  | nil => exact ⟨[], rfl, rfl⟩
  | @nothing number found line rest hline hrest ih =>
    obtain ⟨joined, hjoined, hdefines⟩ := ih
    refine ⟨_, ?_, hdefines.nothing hline number⟩
    rw [joinLines_of_even hline.even_backslashes, hjoined]
    rfl
  | @definition number name pattern indent gap found own rest hname hindent hgap heven hown hrest
      ih =>
    obtain ⟨joined, hjoined, hdefines⟩ := ih
    have hfront : Even (backslashes (indent ++ name.toList ++ gap ++ [':'])) := by
      rw [backslashes_concat, if_neg (by decide)]
      exact ⟨0, rfl⟩
    have hfound :
        Defines (⟨number, indent ++ (name.toList ++ (gap ++ ':' :: pattern.toList))⟩ :: joined)
          (⟨String.ofList name.toList, String.ofList pattern.toList, some number⟩ :: found) :=
      hdefines.definition hname hindent hgap number
    rw [String.ofList_toList, String.ofList_toList] at hfound
    refine ⟨_, ?_, hfound⟩
    rw [hown.joinLines_append hfront ⟨0, rfl⟩ heven none rest, hjoined]
    simp only [Option.getD_none, List.nil_append, List.append_assoc, List.singleton_append]

/-- What is written on the lines of a script is read. -/
theorem entries_of_writes {script : String} {own : List (List Char)}
    (hlines : MadeOf own script.toList) (hwrites : Writes 1 found own) :
    entries script = .ok found := by
  obtain ⟨joined, hjoined, hdefines⟩ := hwrites.exists_defines
  rw [entries, hlines.lines_eq, hjoined]
  exact bind_eq_ok_iff.mpr ⟨found, hdefines, rfl⟩

/-- The lines of a script with one definition, on two lines.  The second of them looks like a
comment, but is a part of the pattern; the comment in front ends in two backslashes. -/
def remarked : List (List Char) :=
  ["# words \\\\".toList, "  ".toList, "\tWORD :[a-z]\\".toList, "# \\\\".toList]

/-- The script is made of these lines and defines the one token. -/
theorem entries_remarked :
    MadeOf remarked "# words \\\\\r\n  \n\tWORD :[a-z]\\\n# \\\\\r\n".toList ∧
      Writes 1 [⟨"WORD", "[a-z]# \\\\", some 3⟩] remarked ∧
        entries "# words \\\\\r\n  \n\tWORD :[a-z]\\\n# \\\\\r\n" =
          .ok [⟨"WORD", "[a-z]# \\\\", some 3⟩] := by
  have hlines : MadeOf remarked "# words \\\\\r\n  \n\tWORD :[a-z]\\\n# \\\\\r\n".toList := by
    change MadeOf _ ("# words \\\\".toList ++ '\r' :: '\n' :: ("  ".toList ++ '\n' ::
      ("\tWORD :[a-z]\\".toList ++ '\n' :: ("# \\\\".toList ++ '\r' :: '\n' :: []))))
    have hlast := MadeOf.returnFeed (by decide : '\n' ∉ "# \\\\".toList) MadeOf.nil
    exact (((hlast.feed (by decide) (by decide)).feed (by decide) (by decide)).returnFeed
      (by decide))
  have hfirst : SaysNothing ([] ++ '#' :: " words \\\\".toList) :=
    SaysNothing.comment (by decide) (by decide)
  have hpattern : WritesPattern (['\t'] ++ "WORD".toList ++ [' '] ++ [':']) []
      ("[a-z]".toList ++ "# \\\\".toList) ["\tWORD :[a-z]\\".toList, "# \\\\".toList] :=
    WritesPattern.cut (by decide) WritesPattern.last
  have hdefinition : Writes 3 [⟨"WORD", "[a-z]# \\\\", some 3⟩]
      (["\tWORD :[a-z]\\".toList, "# \\\\".toList] ++ []) :=
    Writes.definition (by decide) (by decide) (by decide) (by decide) hpattern Writes.nil
  have hwrites : Writes 1 [⟨"WORD", "[a-z]# \\\\", some 3⟩] remarked :=
    Writes.nothing hfirst (Writes.nothing (SaysNothing.blank (by decide)) hdefinition)
  exact ⟨hlines, hwrites, entries_of_writes hlines hwrites⟩

end Script
end Munch

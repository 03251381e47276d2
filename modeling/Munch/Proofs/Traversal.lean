import Mathlib.Data.List.Forall2

/-!
# Computations that may fail

A computation that is made of several ones succeeds when all of them do.  Folds and traversals of
lists are such computations.

Main results:

- Theorem {lit}`bind_eq_ok_iff`: one computation after another.
- Theorem {lit}`mapM_eq_ok_iff`: a traversal succeeds if every step does.
- Theorem {lit}`exists_step_of_foldlM`: a fold that succeeds has taken every step.
-/

namespace Munch

variable {ε α β γ : Type}

theorem bind_eq_ok_iff {x : Except ε α} {f : α → Except ε β} {b : β} :
    x >>= f = .ok b ↔ ∃ a, x = .ok a ∧ f a = .ok b := by
  cases x with
  | error e => simp [bind, Except.bind]
  | ok a => simp [bind, Except.bind]

/-- Changing the error changes no result. -/
theorem mapError_eq_ok_iff {x : Except ε α} {f : ε → β} {a : α} :
    x.mapError f = .ok a ↔ x = .ok a := by
  cases x with
  | error e => simp [Except.mapError]
  | ok b => simp [Except.mapError]

/-- A function of the result changes no error. -/
theorem map_eq_ok_iff {x : Except ε α} {f : α → β} {b : β} :
    x.map f = .ok b ↔ ∃ a, x = .ok a ∧ f a = b := by
  cases x with
  | error e => simp [Except.map]
  | ok a => simp [Except.map]

/-! ## Folds -/

/-- A fold succeeds if every step of it does. -/
theorem exists_foldlM_eq_ok {f : β → α → Except ε β} {as : List α}
    (hstep : ∀ b, ∀ a ∈ as, ∃ next, f b a = .ok next) (b : β) :
    ∃ last, as.foldlM f b = .ok last := by
  induction as generalizing b with
  | nil => exact ⟨b, rfl⟩
  | cons a as ih =>
    obtain ⟨hfirst, hrest⟩ := forall_and.mp fun b => List.forall_mem_cons.mp (hstep b)
    obtain ⟨next, hnext⟩ := hfirst b
    obtain ⟨last, hlast⟩ := ih hrest next
    exact ⟨last, bind_eq_ok_iff.mpr ⟨next, hnext, hlast⟩⟩

/-- A fold that succeeds has taken every step. -/
theorem exists_step_of_foldlM {f : β → α → Except ε β} {as : List α} {b last : β}
    (h : as.foldlM f b = .ok last) : ∀ a ∈ as, ∃ c next, f c a = .ok next := by
  induction as generalizing b with
  | nil =>
    intro a ha
    cases ha
  | cons a as ih =>
    obtain ⟨next, hnext, hrest⟩ := bind_eq_ok_iff.mp h
    exact List.forall_mem_cons.mpr ⟨⟨b, next, hnext⟩, ih hrest⟩

/-! ## Traversals -/

/-- A traversal succeeds if every step does. -/
theorem mapM_eq_ok_iff {f : α → Except ε β} {as : List α} {bs : List β} :
    as.mapM f = .ok bs ↔ List.Forall₂ (fun a b => f a = .ok b) as bs := by
  induction as generalizing bs with
  | nil =>
    rw [List.mapM_nil, List.forall₂_nil_left_iff]
    change Except.ok [] = Except.ok bs ↔ bs = []
    rw [Except.ok.injEq, eq_comm]
  | cons a as ih =>
    rw [List.mapM_cons, bind_eq_ok_iff, List.forall₂_cons_left_iff]
    constructor
    · rintro ⟨b, hb, hbind⟩
      obtain ⟨rest, hrest, hbs⟩ := bind_eq_ok_iff.mp hbind
      cases hbs
      exact ⟨b, rest, hb, ih.mp hrest, rfl⟩
    · rintro ⟨b, rest, hb, hrest, rfl⟩
      exact ⟨b, hb, bind_eq_ok_iff.mpr ⟨rest, ih.mpr hrest, rfl⟩⟩

theorem exists_mapM_eq_ok {f : α → Except ε β} {as : List α}
    (hstep : ∀ a ∈ as, ∃ b, f a = .ok b) : ∃ bs, as.mapM f = .ok bs := by
  induction as with
  | nil => exact ⟨[], rfl⟩
  | cons a as ih =>
    obtain ⟨hfirst, hrest⟩ := List.forall_mem_cons.mp hstep
    obtain ⟨b, hb⟩ := hfirst
    obtain ⟨bs, hbs⟩ := ih hrest
    exact ⟨b :: bs, mapM_eq_ok_iff.mpr (List.Forall₂.cons hb (mapM_eq_ok_iff.mp hbs))⟩

/-- A traversal of values that are all read succeeds. -/
theorem mapM_map_eq_some {f : β → Option γ} {g : α → β} {h : α → γ} {as : List α}
    (hf : ∀ a ∈ as, f (g a) = some (h a)) : (as.map g).mapM f = some (as.map h) := by
  induction as with
  | nil => rfl
  | cons a as ih =>
    obtain ⟨ha, has⟩ := List.forall_mem_cons.mp hf
    rw [List.map_cons, List.mapM_cons, ha, ih has]
    rfl

/-- What a traversal returns comes from its values. -/
theorem exists_of_mapM_eq_some {f : α → Option β} {as : List α} {bs : List β}
    (h : as.mapM f = some bs) : ∀ b ∈ bs, ∃ a ∈ as, f a = some b := by
  induction as generalizing bs with
  | nil =>
    cases h
    intro b hb
    cases hb
  | cons a as ih =>
    rw [List.mapM_cons] at h
    obtain ⟨b, hb, hrest⟩ := Option.bind_eq_some_iff.mp h
    obtain ⟨rest, hbs, hcons⟩ := Option.bind_eq_some_iff.mp hrest
    cases hcons
    refine List.forall_mem_cons.mpr ⟨⟨a, List.mem_cons_self, hb⟩, fun c hc => ?_⟩
    obtain ⟨d, hd, hfound⟩ := ih hbs c hc
    exact ⟨d, List.mem_cons_of_mem a hd, hfound⟩

theorem exists_of_mapM_eq_ok {f : α → Except ε β} {as : List α} {bs : List β}
    (h : as.mapM f = .ok bs) : ∀ b ∈ bs, ∃ a ∈ as, f a = .ok b := by
  have hall := mapM_eq_ok_iff.mp h
  clear h
  induction hall with
  | nil =>
    intro b hb
    cases hb
  | @cons a b as bs hab _ ih =>
    refine List.forall_mem_cons.mpr ⟨⟨a, List.mem_cons_self, hab⟩, fun c hc => ?_⟩
    obtain ⟨d, hd, hfound⟩ := ih c hc
    exact ⟨d, List.mem_cons_of_mem a hd, hfound⟩

/-- Checks that all succeed succeed one after the other. -/
theorem forM_eq_ok {f : α → Except ε Unit} {as : List α} (hf : ∀ a ∈ as, f a = .ok ()) :
    as.forM f = .ok () := by
  induction as with
  | nil => rfl
  | cons a as ih =>
    obtain ⟨ha, has⟩ := List.forall_mem_cons.mp hf
    exact bind_eq_ok_iff.mpr ⟨(), ha, ih has⟩

end Munch

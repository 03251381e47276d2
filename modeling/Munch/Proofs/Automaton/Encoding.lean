import Munch.Automaton.Json
import Munch.Proofs.CodeSet.Operations
import Munch.Proofs.Compile.Build
import Munch.Proofs.Json.RoundTrip

/-!
# Automata that are written and read

The reader of automata checks more than the maker of automata does: the form of labels, the
targets and the markers.  What the writer writes passes all of it, unless an edge has a label
without codes.

Main results:

- Theorem {lit}`Automaton.decodeRaw?_encode`: the value of an automaton says what it consists of.
- Theorem {lit}`Automaton.ofJson?_toJson_of_labels`: an automaton without empty labels is read as
  it was written.
- Theorem {lit}`Automaton.fits_of_ofJson?`: no other automaton is read.
- Theorem {lit}`Automaton.ofJson?_toJson`: which automata are read as they were written.
-/

namespace Munch

/-- The boundaries of a set are those of a set. -/
theorem CodeSet.ofBoundaries?_boundaries (s : CodeSet) : ofBoundaries? s.boundaries = some s :=
  dif_pos ⟨isIncreasing_of_pairwise s.increasing, s.paired⟩

theorem CodeSet.boundaries_of_ofBoundaries? {bs : List Int} {s : CodeSet}
    (h : ofBoundaries? bs = some s) : s.boundaries = bs := by
  unfold ofBoundaries? at h
  split at h
  · cases h
    rfl
  · cases h

/-- A set of codes has no boundary but codes and the limits of codes. -/
theorem CodeSet.bounds_of_mem_boundaries {s : CodeSet} (hs : ∀ c ∈ s, c ∈ all) {b : Int}
    (hb : b ∈ s.boundaries) : Code.least ≤ b ∧ b ≤ Code.charLimit := by
  obtain ⟨r, hr, hend⟩ := exists_mem_pairUp s.paired hb
  have hlt := lt_of_mem_ranges hr
  have hfirst := mem_all.mp (hs r.1 (mem_iff_exists_range.mpr ⟨r, hr, by omega, by omega⟩))
  have hlast := mem_all.mp (hs (r.2 - 1) (mem_iff_exists_range.mpr ⟨r, hr, by omega, by omega⟩))
  omega

namespace Automaton

variable {a : Automaton} {i count : Nat} {e : Edge} {s : State} {raw : RawState}

/-- What holds of the edges between states holds of the edges of each state. -/
theorem forall_edges_iff {g : Graph} {p : Edge → Prop} :
    (∀ i, ∀ e ∈ g.edges i, p e) ↔ ∀ s ∈ g.states.toList, ∀ e ∈ s.edges, p e := by
  constructor
  · intro hp s hs e he
    obtain ⟨i, hi, rfl⟩ := List.mem_iff_getElem.mp hs
    refine hp i e ?_
    rw [Graph.edges, Array.getElem?_eq_getElem hi]
    exact he
  · intro hp i e he
    have hi : i < g.states.size := Graph.lt_size_of_mem_edges he
    rw [Graph.edges, Array.getElem?_eq_getElem hi] at he
    exact hp g.states[i] (Array.getElem_mem_toList hi) e he

/-! ## Writing -/

/-- An edge as it is written. -/
def plainEdge (e : Edge) : RawEdge := ⟨e.label.boundaries, e.target⟩

/-- A state as it is written. -/
def plainState (s : State) : RawState := ⟨s.isFinal, s.edges.map plainEdge⟩

/-- The boundaries of an edge are integers of 32 bits, and its target is one of 64 bits. -/
def RawEdge.Fits (e : RawEdge) : Prop :=
  (∀ b ∈ e.boundaries, -2147483648 ≤ b ∧ b < 2147483648) ∧ e.target < 18446744073709551616

instance (e : RawEdge) : Decidable e.Fits :=
  inferInstanceAs (Decidable ((∀ b ∈ e.boundaries, _) ∧ _))

/-- All numbers of an automaton are as large as the format allows. -/
def IsEncodable (a : Automaton) : Prop := ∀ i, ∀ e ∈ a.graph.edges i, (plainEdge e).Fits

/-- No edge of an automaton has a label without codes. -/
def Labelled (a : Automaton) : Prop := ∀ i, ∀ e ∈ a.graph.edges i, e.label.isEmpty = false

theorem isWritable_int (n : Int) : (Json.int n).IsWritable := by
  intro d hd
  cases hd

theorem isWritable_encodeState (s : State) : (encodeState s).IsWritable := by
  refine ⟨trivial, Json.areWritable_iff.mpr fun v hv => ?_, trivial⟩
  obtain ⟨e, -, rfl⟩ := List.mem_map.mp hv
  refine ⟨Json.areWritable_iff.mpr fun b hb => ?_, isWritable_int _, trivial⟩
  obtain ⟨n, -, rfl⟩ := List.mem_map.mp hb
  exact isWritable_int n

theorem isWritable_encode (a : Automaton) : a.encode.IsWritable := by
  refine ⟨rfl, (by decide : ∀ n ∈ [0], n < 10), rfl, Json.areWritable_iff.mpr fun v hv => ?_, rfl,
    Json.areWritable_iff.mpr fun v hv => ?_, trivial⟩
  · obtain ⟨name, -, rfl⟩ := List.mem_map.mp hv
    exact rfl
  · obtain ⟨s, -, rfl⟩ := List.mem_map.mp hv
    exact isWritable_encodeState s

/-- The text of an automaton is the text of its value. -/
theorem parse?_toJson (a : Automaton) : Json.parse? a.toJson.toList = some a.encode := by
  rw [toJson, Json.compactText, String.toList_ofList]
  exact Json.parse?_compact a.isWritable_encode

/-! ## The form -/

theorem decodeBoundary?_int {b : Int} (hb : -2147483648 ≤ b ∧ b < 2147483648) :
    decodeBoundary? (Json.int b) = some b := by
  have hint : (Json.int b).int? = some b := Json.Decimal.toInt?_ofInt b
  rw [decodeBoundary?, hint]
  exact if_pos hb

theorem decodeTarget?_int {n : Nat} (hn : n < 18446744073709551616) :
    decodeTarget? (Json.int n) = some n := by
  have hint : (Json.int n).int? = some (n : Int) := Json.Decimal.toInt?_ofInt n
  have hbounds : (0 : Int) ≤ n ∧ (n : Int) < 18446744073709551616 := by omega
  rw [decodeTarget?, hint, Option.bind_eq_bind, Option.bind_some, if_pos hbounds,
    Int.toNat_natCast]

theorem decodeEdge?_encodeEdge (he : (plainEdge e).Fits) :
    decodeEdge? (encodeEdge e) = some (plainEdge e) := by
  have hboundaries : (e.label.boundaries.map Json.int).mapM decodeBoundary? =
      some e.label.boundaries := by
    have hall := mapM_map_eq_some fun b hb => decodeBoundary?_int (he.1 b hb)
    rwa [List.map_id'] at hall
  have htarget : decodeTarget? (Json.int e.target) = some e.target := decodeTarget?_int he.2
  refine Option.bind_eq_some_iff.mpr ⟨_, hboundaries, ?_⟩
  exact Option.bind_eq_some_iff.mpr ⟨_, htarget, rfl⟩

theorem decodeState?_encodeState (hs : ∀ e ∈ s.edges, (plainEdge e).Fits) :
    decodeState? (encodeState s) = some (plainState s) := by
  have hedges : (s.edges.map encodeEdge).mapM decodeEdge? = some (s.edges.map plainEdge) :=
    mapM_map_eq_some fun e he => decodeEdge?_encodeEdge (hs e he)
  exact Option.bind_eq_some_iff.mpr ⟨_, hedges, rfl⟩

/-- The version that is written. -/
theorem exists_decodeVersion? : ∃ version : Binary64,
    decodeVersion? (.number ⟨false, formatVersion, [0], none⟩) = some version ∧
      version.floor = (formatVersion : Int) := by
  refine ⟨⟨false, 4503599627370496, -51⟩, ?_, ?_⟩
  · decide +kernel
  · decide +kernel

/-- The value of an automaton says what it consists of. -/
theorem decodeRaw?_encode (hfits : a.IsEncodable) : ∃ version : Binary64,
    version.floor = (formatVersion : Int) ∧
      decodeRaw? a.encode =
        some ⟨version, a.names.toList, a.graph.states.toList.map plainState⟩ := by
  obtain ⟨version, hversion, hfloor⟩ := exists_decodeVersion?
  have hnames : (a.names.toList.map Json.string).mapM Json.string? = some a.names.toList := by
    have hname : ∀ name ∈ a.names.toList, (Json.string name).string? = some name := fun _ _ => rfl
    have hall := mapM_map_eq_some hname
    rwa [List.map_id'] at hall
  have hstates : (a.graph.states.toList.map encodeState).mapM decodeState? =
      some (a.graph.states.toList.map plainState) := by
    have hedges := forall_edges_iff.mp hfits
    exact mapM_map_eq_some fun s hs => decodeState?_encodeState (hedges s hs)
  refine ⟨version, hfloor, ?_⟩
  change decodeParts? _ _ _ = _
  refine Option.bind_eq_some_iff.mpr ⟨_, hversion, ?_⟩
  refine Option.bind_eq_some_iff.mpr ⟨_, rfl, ?_⟩
  refine Option.bind_eq_some_iff.mpr ⟨_, hnames, ?_⟩
  refine Option.bind_eq_some_iff.mpr ⟨_, rfl, ?_⟩
  exact Option.bind_eq_some_iff.mpr ⟨_, hstates, rfl⟩

/-! ## The checks -/

theorem checkEdge_plainEdge (htarget : e.target < count) (hlabel : e.label.isEmpty = false)
    (i : Nat) : checkEdge count i (plainEdge e) = .ok e := by
  have hle : ¬count ≤ e.target := Nat.not_le.mpr htarget
  simp only [checkEdge, plainEdge, hle, if_false, CodeSet.ofBoundaries?_boundaries, hlabel,
    Bool.false_eq_true]

/-- A state passes the check if its edges lead somewhere on some code. -/
theorem checkState_plainState
    (hs : ∀ e ∈ s.edges, e.target < count ∧ e.label.isEmpty = false) (i : Nat) :
    checkState count (plainState s, i) = .ok s := by
  have hedges : (s.edges.map plainEdge).mapM (checkEdge count i) = .ok s.edges := by
    refine mapM_eq_ok_iff.mpr (List.forall₂_map_left_iff.mpr (List.forall₂_same.mpr fun e he => ?_))
    exact checkEdge_plainEdge (hs e he).1 (hs e he).2 i
  exact bind_eq_ok_iff.mpr ⟨s.edges, hedges, rfl⟩

theorem mapM_checkState {states : List State}
    (hstates : ∀ s ∈ states, ∀ e ∈ s.edges, e.target < count ∧ e.label.isEmpty = false) (k : Nat) :
    ((states.map plainState).zipIdx k).mapM (checkState count) = .ok states := by
  induction states generalizing k with
  | nil => rfl
  | cons s states ih =>
    obtain ⟨hs, hrest⟩ := List.forall_mem_cons.mp hstates
    rw [List.map_cons, List.zipIdx_cons, List.mapM_cons]
    refine bind_eq_ok_iff.mpr ⟨s, checkState_plainState hs k, ?_⟩
    exact bind_eq_ok_iff.mpr ⟨states, ih hrest (k + 1), rfl⟩

/-- The markers of an automaton pass the check. -/
theorem checkMarkers_eq_ok (a : Automaton) : checkMarkers a.graph a.names.size = .ok () := by
  refine forM_eq_ok fun i _ => forM_eq_ok fun e he => ?_
  unfold checkMarker
  split
  · rfl
  · rename_i code hcode
    cases hfinal : a.graph.isFinal e.target with
    | false => rfl
    | true =>
      obtain ⟨token, htoken⟩ := (a.target_of_mem_edges he).2 hfinal
      obtain ⟨hfirst, hmarker, hrange, -⟩ := Row.markedToken_eq_ok htoken
      obtain rfl : code = Code.marker token := Option.some.inj (hcode.symm.trans hfirst)
      simp [hmarker, hrange]

/-- A text is an automaton if all checks of what it says succeed. -/
theorem ofRaw?_eq_ok_iff {raw : Raw} : ofRaw? raw = .ok a ↔
    raw.version.floor = (formatVersion : Int) ∧ raw.states.isEmpty = false ∧
      ∃ states, raw.states.zipIdx.mapM (checkState raw.states.length) = .ok states ∧
        checkMarkers ⟨states.toArray⟩ raw.names.toArray.size = .ok () ∧
          ofGraph? ⟨states.toArray⟩ raw.names.toArray = .ok a := by
  by_cases hversion : raw.version.floor = (formatVersion : Int)
  · cases hempty : raw.states.isEmpty with
    | true =>
      refine iff_of_false (fun h => ?_) (by simp)
      unfold ofRaw? at h
      rw [if_neg (not_not.mpr hversion), if_pos hempty] at h
      cases h
    | false =>
      have hchecks : ofRaw? raw = (do
          let states ← raw.states.zipIdx.mapM (checkState raw.states.length)
          checkMarkers ⟨states.toArray⟩ raw.names.toArray.size
          (ofGraph? ⟨states.toArray⟩ raw.names.toArray).mapError .automaton) := by
        unfold ofRaw?
        rw [if_neg (not_not.mpr hversion), if_neg (by simp [hempty])]
      rw [hchecks]
      constructor
      · intro h
        obtain ⟨states, hstates, h⟩ := bind_eq_ok_iff.mp h
        obtain ⟨⟨⟩, hmarkers, hgraph⟩ := bind_eq_ok_iff.mp h
        exact ⟨hversion, rfl, states, hstates, hmarkers, mapError_eq_ok_iff.mp hgraph⟩
      · rintro ⟨-, -, states, hstates, hmarkers, hgraph⟩
        refine bind_eq_ok_iff.mpr ⟨states, hstates, ?_⟩
        exact bind_eq_ok_iff.mpr ⟨(), hmarkers, mapError_eq_ok_iff.mpr hgraph⟩
  · refine iff_of_false (fun h => ?_) (fun h => hversion h.1)
    unfold ofRaw? at h
    rw [if_pos hversion] at h
    cases h

/-- What an automaton without empty labels says passes all checks. -/
theorem ofRaw?_eq_ok (hlabelled : a.Labelled) {version : Binary64}
    (hversion : version.floor = (formatVersion : Int)) :
    ofRaw? ⟨version, a.names.toList, a.graph.states.toList.map plainState⟩ = .ok a := by
  have hstates : (a.graph.states.toList.map plainState).zipIdx.mapM
      (checkState (a.graph.states.toList.map plainState).length) = .ok a.graph.states.toList := by
    refine mapM_checkState (forall_edges_iff.mp fun i e he => ?_) 0
    rw [List.length_map]
    exact ⟨(a.target_of_mem_edges he).1, hlabelled i e he⟩
  have hsome : (a.graph.states.toList.map plainState).isEmpty = false := by
    rw [List.isEmpty_eq_false_iff, Ne, List.map_eq_nil_iff, Array.toList_eq_nil_iff]
    rintro hnil
    have hpos := a.rows_spec.1
    rw [Graph.size, hnil] at hpos
    exact absurd hpos (by decide)
  exact ofRaw?_eq_ok_iff.mpr
    ⟨hversion, hsome, a.graph.states.toList, hstates, a.checkMarkers_eq_ok, a.ofGraph?_self⟩

/-- An automaton without empty labels is read as it was written. -/
theorem ofJson?_toJson_of_labels (hfits : a.IsEncodable) (hlabelled : a.Labelled) :
    ofJson? a.toJson = .ok a := by
  obtain ⟨version, hversion, hraw⟩ := decodeRaw?_encode hfits
  rw [ofJson?, parse?_toJson, Option.bind_some, hraw]
  exact ofRaw?_eq_ok hlabelled hversion

/-! ## What is read -/

/-- Edges that are read have numbers that the format allows. -/
theorem fits_of_decodeEdge? {v : Json} {raw : RawEdge} (h : decodeEdge? v = some raw) :
    raw.Fits := by
  unfold decodeEdge? at h
  split at h
  · rename_i label target
    obtain ⟨items, hitems, h⟩ := Option.bind_eq_some_iff.mp h
    obtain ⟨boundaries, hboundaries, h⟩ := Option.bind_eq_some_iff.mp h
    obtain ⟨n, hn, h⟩ := Option.bind_eq_some_iff.mp h
    cases h
    refine ⟨fun b hb => ?_, ?_⟩
    · obtain ⟨w, -, hw⟩ := exists_of_mapM_eq_some hboundaries b hb
      obtain ⟨m, -, hm⟩ := Option.bind_eq_some_iff.mp hw
      split at hm
      · rename_i hrange
        cases hm
        exact hrange
      · cases hm
    · obtain ⟨m, -, hm⟩ := Option.bind_eq_some_iff.mp hn
      split at hm
      · rename_i hrange
        cases hm
        change m.toNat < 18446744073709551616
        omega
      · cases hm
  · cases h

theorem fits_of_decodeRaw? {v : Json} {raw : Raw} (h : decodeRaw? v = some raw) :
    ∀ s ∈ raw.states, ∀ e ∈ s.edges, e.Fits := by
  have hparts : ∃ version tokens states, decodeParts? version tokens states = some raw := by
    unfold decodeRaw? at h
    split at h
    · split at h
      · obtain ⟨version, -, h⟩ := Option.bind_eq_some_iff.mp h
        obtain ⟨tokens, -, h⟩ := Option.bind_eq_some_iff.mp h
        obtain ⟨states, -, h⟩ := Option.bind_eq_some_iff.mp h
        exact ⟨version, tokens, states, h⟩
      · cases h
    · exact ⟨_, _, _, h⟩
    · cases h
  obtain ⟨version, tokens, states, h⟩ := hparts
  obtain ⟨_, -, h⟩ := Option.bind_eq_some_iff.mp h
  obtain ⟨_, -, h⟩ := Option.bind_eq_some_iff.mp h
  obtain ⟨_, -, h⟩ := Option.bind_eq_some_iff.mp h
  obtain ⟨items, -, h⟩ := Option.bind_eq_some_iff.mp h
  obtain ⟨read, hread, h⟩ := Option.bind_eq_some_iff.mp h
  cases h
  intro s hs e he
  obtain ⟨w, -, hw⟩ := exists_of_mapM_eq_some hread s hs
  unfold decodeState? at hw
  split at hw
  · obtain ⟨_, -, hw⟩ := Option.bind_eq_some_iff.mp hw
    obtain ⟨_, -, hw⟩ := Option.bind_eq_some_iff.mp hw
    obtain ⟨edges, hedges, hw⟩ := Option.bind_eq_some_iff.mp hw
    cases hw
    obtain ⟨u, -, hu⟩ := exists_of_mapM_eq_some hedges e he
    exact fits_of_decodeEdge? hu
  · cases hw

/-- Edges that pass the check are what was read, on some code. -/
theorem of_checkEdge {raw : RawEdge} (h : checkEdge count i raw = .ok e) :
    plainEdge e = raw ∧ e.label.isEmpty = false := by
  unfold checkEdge at h
  split at h
  · cases h
  · split at h
    · rename_i label hlabel
      split at h
      · cases h
      · rename_i hsome
        cases h
        rw [plainEdge, CodeSet.boundaries_of_ofBoundaries? hlabel]
        exact ⟨rfl, by simpa using hsome⟩
    · cases h

theorem of_checkState {entry : RawState × Nat} (h : checkState count entry = .ok s) :
    ∀ e ∈ s.edges, plainEdge e ∈ entry.1.edges ∧ e.label.isEmpty = false := by
  obtain ⟨edges, hedges, h⟩ := bind_eq_ok_iff.mp h
  cases h
  intro e he
  obtain ⟨raw, hraw, hcheck⟩ := exists_of_mapM_eq_ok hedges e he
  obtain ⟨rfl, hlabel⟩ := of_checkEdge hcheck
  exact ⟨hraw, hlabel⟩

/-- An automaton that was read has no empty label, and no number that the format does not
allow. -/
theorem fits_of_ofJson? {text : String} (h : ofJson? text = .ok a) : a.IsEncodable ∧ a.Labelled := by
  unfold ofJson? at h
  split at h
  · cases h
  · rename_i raw hraw
    obtain ⟨v, -, hdecode⟩ := Option.bind_eq_some_iff.mp hraw
    obtain ⟨-, -, states, hstates, -, hgraph⟩ := ofRaw?_eq_ok_iff.mp h
    obtain ⟨hstates', -⟩ := eq_of_ofGraph?_eq_ok hgraph
    have hall : ∀ i, ∀ e ∈ a.graph.edges i, (plainEdge e).Fits ∧ e.label.isEmpty = false := by
      refine forall_edges_iff.mpr fun s hs e he => ?_
      rw [hstates'] at hs
      obtain ⟨entry, hentry, hcheck⟩ := exists_of_mapM_eq_ok hstates s hs
      obtain ⟨hplain, hlabel⟩ := of_checkState hcheck e he
      have hread := List.fst_mem_of_mem_zipIdx hentry
      exact ⟨fits_of_decodeRaw? hdecode entry.1 hread _ hplain, hlabel⟩
    exact ⟨fun i e he => (hall i e he).1, fun i e he => (hall i e he).2⟩

/-! ## What is built -/

/-- The edges of an automaton in standard form have labels, and their boundaries are codes. -/
theorem fits_of_standard (hstd : a.graph.Standard) (hsize : a.graph.size ≤ 18446744073709551616) :
    a.IsEncodable ∧ a.Labelled := by
  refine ⟨fun i e he => ⟨fun b hb => ?_, ?_⟩, fun i e he => ?_⟩
  · have hbounds := CodeSet.bounds_of_mem_boundaries (hstd.inAlphabet i e he) hb
    unfold Code.least Code.charLimit at hbounds
    omega
  · exact Nat.lt_of_lt_of_le (a.target_of_mem_edges he).1 hsize
  · exact CodeSet.isEmpty_eq_false_iff.mpr (hstd.deterministic.nonempty i e he)

end Automaton

/-- A fragment whose edges and whose entry are among its states. -/
structure Fragment.IsClosed (f : Fragment) : Prop where
  closed : f.graph.Closed
  entry_lt : f.ends.entry < f.graph.size

namespace Graph

variable {g : Graph} {f : Fragment} {definitions : List TokenDefinition}

theorem closed_addToken (hf : f.IsClosed) (hclosed : g.Closed) (id : Int) :
    (addToken g id f).Closed := by
  have hmarked := closed_withMarked hf.closed hclosed id
  have hentry : (f.spliceInto g).2.entry < (f.spliceInto g).1.size :=
    copyInto_name_lt_size g (mem_reachableFrom_of_mem List.mem_cons_self hf.entry_lt)
  rw [addToken_eq]
  refine hmarked.addEdge ?_ 0 _
  rw [withMarked, size_addEdge, size_addState]
  exact Nat.lt_succ_of_lt hentry

theorem size_addToken_pos (g : Graph) (id : Int) (f : Fragment) : 0 < (addToken g id f).size := by
  rw [addToken_eq, size_addSilent, withMarked, size_addEdge, size_addState]
  exact Nat.succ_pos _

/-- The graph of some definitions has all the states that its edges lead to. -/
theorem closed_combine (hdefinitions : ∀ d ∈ definitions, d.fragment.IsClosed) :
    (combine definitions).Closed ∧ 0 < (combine definitions).size := by
  have hstart : (empty.addState false).Closed ∧ 0 < (empty.addState false).size :=
    ⟨closed_empty.addState false, by rw [size_addState]; exact Nat.succ_pos _⟩
  unfold combine
  generalize empty.addState false = g at hstart
  induction definitions generalizing g with
  | nil => exact hstart
  | cons d definitions ih =>
    obtain ⟨hd, hrest⟩ := List.forall_mem_cons.mp hdefinitions
    rw [List.foldl_cons]
    refine ih hrest _ ?_
    cases hid : d.id with
    | none => exact hstart
    | some id => exact ⟨closed_addToken hd hstart.1 id, size_addToken_pos g id d.fragment⟩

/-- A graph that is built is in standard form. -/
theorem standard_of_buildGraph {mode : PriorityMode} {names : Array String} {d : Graph}
    (hclosed : g.Closed) (hpos : 0 < g.size) (hbuild : buildGraph mode g 0 names = .ok d) :
    d.Standard := by
  cases hresolve : (g.minimal 0).resolve mode 0 with
  | error fault =>
    rw [buildGraph, hresolve] at hbuild
    cases hbuild
  | ok result =>
    obtain ⟨h, report⟩ := result
    rw [buildGraph_eq_of_resolve hresolve] at hbuild
    split at hbuild
    · cases hbuild
    · cases hbuild
      exact standard_rebuilt (standard_minimal hclosed hpos) hresolve

end Graph

theorem standard_of_compile {definitions : List TokenDefinition} {config : BuildConfig}
    {a : Automaton} (hdefinitions : ∀ d ∈ definitions, d.fragment.IsClosed)
    (hcompile : compile definitions config = .ok a) : a.graph.Standard := by
  obtain ⟨names, hnames, -⟩ := bind_eq_ok_iff.mp hcompile
  rw [compile_eq hnames] at hcompile
  obtain ⟨d, hbuild, hrest⟩ := bind_eq_ok_iff.mp hcompile
  split at hrest
  · cases hrest
  · obtain ⟨rfl, -⟩ := Automaton.eq_of_ofGraph?_eq_ok (mapError_eq_ok_iff.mp hrest)
    obtain ⟨hclosed, hpos⟩ := Graph.closed_combine hdefinitions
    exact Graph.standard_of_buildGraph hclosed hpos hbuild

namespace Automaton

/-- An automaton whose numbers are as large as the format allows is read as it was written if
and only if no edge has an empty label.  In particular every automaton that was read is read
as it was written, and so is every one that was built, as long as it does not have more states
than the format can number. -/
theorem ofJson?_toJson :
    (∀ a : Automaton, a.IsEncodable →
      (ofJson? a.toJson = .ok a ↔ ∀ i, ∀ e ∈ a.graph.edges i, e.label.isEmpty = false)) ∧
      (∀ (text : String) (a : Automaton), ofJson? text = .ok a → ofJson? a.toJson = .ok a) ∧
        ∀ (definitions : List TokenDefinition) (config : BuildConfig) (a : Automaton),
          (∀ d ∈ definitions, d.fragment.IsClosed) → compile definitions config = .ok a →
            a.graph.size ≤ 18446744073709551616 → ofJson? a.toJson = .ok a := by
  refine ⟨fun a hfits => ⟨fun hread => ?_, ?_⟩, fun text a hread => ?_, ?_⟩
  · exact (fits_of_ofJson? hread).2
  · exact ofJson?_toJson_of_labels hfits
  · obtain ⟨hfits, hlabelled⟩ := fits_of_ofJson? hread
    exact ofJson?_toJson_of_labels hfits hlabelled
  · intro definitions config a hdefinitions hcompile hsize
    obtain ⟨hfits, hlabelled⟩ := fits_of_standard (standard_of_compile hdefinitions hcompile) hsize
    exact ofJson?_toJson_of_labels hfits hlabelled

/-- An automaton for one letter, with two tokens of one name. -/
def twoOfOneName : Automaton where
  graph := ⟨#[⟨false, [⟨CodeSet.single 97, 1⟩]⟩,
    ⟨false, [⟨CodeSet.single (Code.marker 1), 2⟩]⟩, State.bare true]⟩
  names := #["\"A\"\n", "\"A\"\n"]
  rows := #[⟨[⟨97, 98, 1⟩], unknownToken⟩, ⟨[], 1⟩, Row.empty]
  rows_eq := by decide +kernel

/-- The same with an edge that is never taken. -/
def withEmptyLabel : Automaton where
  graph := ⟨#[⟨false, [⟨CodeSet.single 97, 1⟩, ⟨CodeSet.empty, 1⟩]⟩,
    ⟨false, [⟨CodeSet.single (Code.marker 1), 2⟩]⟩, State.bare true]⟩
  names := #["A", "B"]
  rows := #[⟨[⟨97, 98, 1⟩], unknownToken⟩, ⟨[], 1⟩, Row.empty]
  rows_eq := by decide +kernel

theorem ofJson?_toJson_twoOfOneName :
    ofJson? twoOfOneName.toJson = .ok twoOfOneName ∧
      ofJson? withEmptyLabel.toJson ≠ .ok withEmptyLabel := by
  have hfits : twoOfOneName.IsEncodable := forall_edges_iff.mpr (by decide)
  have hlabels : ∀ i, ∀ e ∈ twoOfOneName.graph.edges i, e.label.isEmpty = false :=
    forall_edges_iff.mpr (by decide)
  have hfits' : withEmptyLabel.IsEncodable := forall_edges_iff.mpr (by decide)
  refine ⟨(ofJson?_toJson.1 twoOfOneName hfits).mpr hlabels, fun hread => ?_⟩
  have hlabels' := (ofJson?_toJson.1 withEmptyLabel hfits').mp hread
  exact absurd (hlabels' 0 ⟨CodeSet.empty, 1⟩ (by decide)) (by decide)

end Automaton
end Munch

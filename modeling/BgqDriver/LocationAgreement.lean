import BgqDriver.LocationForms
import BgqDriver.UciRoundTrip

/-!
Where the two parsers of location strings agree.
-/

namespace BgqDriver.LocationAgreement

open FixedForms List
open HardwareLocation
open Uci (Component Number CString cstring codeOf)

/-- The member of `Location` that holds a number of the code. -/
def memberOf : Number → Member
  | .row => .rackRow
  | .col => .rackColumn
  | .midplane => .midplane
  | .bps => .bulkPowerSupply
  | .pm => .powerModule
  | .clock => .clockCard
  | .iod => .ioBoard
  | .node => .nodeBoard
  | .compute => .computeCard
  | .core => .core
  | .link => .linkModule
  | .optical => .opticalModule
  | .dca => .dca
  | .pci => .pciAdapterCard
  | .assembly => .fanAssembly
  | .fan => .fan

/-- The component of the code that a hardware type in a rack stands for. -/
def componentOf : HwType → HwType → Option Component
  | .computeRack, _ => some .computeRack
  | .ioRack, _ => some .ioRack
  | .bulkPowerSupplyOnComputeRack, _ => some .bulkPowerSupplyOnComputeRack
  | .powerModuleOnComputeRack, _ => some .powerModuleOnComputeRack
  | .bulkPowerSupplyInIoRack, _ => some .bulkPowerSupplyOnIoRack
  | .powerModuleOnIoRack, _ => some .powerModuleOnIoRack
  | .midplane, _ => some .midplane
  | .serviceCard, _ => some .serviceCard
  | .clockCardOnComputeRack, _ => some .clockCardOnComputeRack
  | .clockCardOnIoRack, _ => some .clockCardOnIoRack
  | .ioBoardOnComputeRack, _ => some .ioDrawerOnComputeRack
  | .ioBoardOnIoRack, _ => some .ioDrawerOnIoRack
  | .nodeBoard, _ => some .nodeBoard
  | .computeCardOnNodeBoard, _ => some .computeCardOnNodeBoard
  | .computeCardOnIoBoard, .ioRack => some .computeCardOnIoBoardOnIoRack
  | .computeCardOnIoBoard, .computeRack => some .computeCardOnIoBoardOnComputeRack
  | .computeCardCoreOnNodeBoard, _ => some .computeCardCoreOnNodeBoard
  | .computeCardCoreOnIoBoard, _ => some .computeCardCoreOnIoBoard
  | .dcaOnNodeBoard, _ => some .dcaOnNodeBoard
  | .pciAdapterCard, _ => some .pciAdapterCard
  | .linkModuleOnNodeBoard, _ => some .linkModuleOnNodeBoard
  | .linkModuleOnIoBoardInIoRack, _ => some .linkModuleOnIoBoard
  | .opticalModuleOnNodeBoard, _ => some .opticalModuleOnNodeBoard
  | .opticalModuleOnIoBoard, _ => some .opticalModuleOnIoBoard
  | .fanAssemblyInComputeRack, _ => some .fanAssemblyOnComputeRack
  | .fanAssemblyInIoRack, _ => some .fanAssemblyOnIoRack
  | .fanInComputeRack, _ => some .fanOnComputeRack
  | .fanInIoRack, _ => some .fanOnIoRack
  | .leakDetectorInComputeRack, _ => some .leakDetectorOnComputeRack
  | _, _ => none

/-- Both parsers accept the string or both refuse it; a string that both accept names the
same component with the same numbers. -/
structure Agree (loc : Location) (throwsSpec : ThrowsSpec) (s : CString) : Prop where
  accepts : loc.Accepts s.chars throwsSpec ↔ Uci.Accepted s
  decodes : loc.Accepts s.chars throwsSpec → Uci.Accepted s →
    ∃ c, componentOf (loc.set s.chars throwsSpec).1.type
        (loc.set s.chars throwsSpec).1.rackType = some c ∧
      Uci.bgUciGetComponent (codeOf s) = c.code ∧
      ∀ entry ∈ c.bgDecodeUci (codeOf s),
        (loc.set s.chars throwsSpec).1.numbers (memberOf entry.1) = entry.2

/-- The locations that only `Location` knows of. -/
def IsPseudo (s : CString) : Prop :=
  ∃ b ∈ [Branch.switch, .ioLinkOnNodeBoard, .allNodeBoardsOnMidplane],
    ∃ f, Reads b.form (trimCopy s.chars) f

/-- The bounds within which `Location` takes the numbers of a component, and the code holds
them, where these are not the bounds of `bg_string_to_uci`. -/
def sharedBounds : Component → List (Number × Nat × Nat)
  | .ioDrawerOnComputeRack | .fanAssemblyOnComputeRack | .fanOnComputeRack => [(.iod, 12, 15)]
  | .computeCardOnIoBoardOnComputeRack => [(.iod, 12, 15), (.compute, 0, 7)]
  | .ioDrawerOnIoRack | .fanAssemblyOnIoRack | .fanOnIoRack => [(.iod, 0, 11)]
  | .computeCardOnIoBoardOnIoRack | .computeCardCoreOnIoBoard =>
    [(.iod, 0, 11), (.compute, 0, 7)]
  | .linkModuleOnIoBoard => [(.iod, 0, 11), (.link, 0, 5)]
  | .opticalModuleOnIoBoard => [(.iod, 0, 11), (.optical, 0, 23)]
  | .pciAdapterCard => [(.iod, 0, 11), (.pci, 0, 1)]
  | .powerModuleOnIoRack => [(.pm, 0, 5)]
  | _ => []

def Shared (c : Component) (f : Number → Nat) : Prop :=
  c ≠ .dcaOnIoBoard ∧ ∀ t ∈ sharedBounds c, t.2.1 ≤ f t.1 ∧ f t.1 ≤ t.2.2

/-- The string is no location with blanks around it, no link module on an I/O board of a
compute rack, and if it is in the form of a component, then of a shared one. -/
structure Regular (s : CString) : Prop where
  shared : ∀ (c : Component) (f : Number → Nat), Reads c.form s.chars f → Shared c f
  noLink : ∀ f, ¬ Reads Branch.linkOnIoBoardInComputeRack.form s.chars f
  noBlanks : trimCopy s.chars ≠ s.chars →
    ∀ (b : Branch) (f : Member → Nat), ¬ Reads b.form (trimCopy s.chars) f

def counterpart (b : Branch) : Option Component :=
  componentOf b.type b.rackType

def numberOf : Member → Number
  | .rackRow => .row
  | .rackColumn => .col
  | .midplane => .midplane
  | .bulkPowerSupply => .bps
  | .powerModule => .pm
  | .clockCard => .clock
  | .ioBoard => .iod
  | .nodeBoard => .node
  | .computeCard => .compute
  | .core => .core
  | .linkModule => .link
  | .opticalModule => .optical
  | .dca => .dca
  | .pciAdapterCard => .pci
  | .fanAssembly => .assembly
  | .fan => .fan
  | .switchDimension => .row
  | .port => .row

theorem numberOf_memberOf (n : Number) : numberOf (memberOf n) = n := by
  cases n <;> rfl

def renamed (c : Component) : List (Piece Member) :=
  c.form.map (Piece.rename memberOf)

variable {b : Branch} {c : Component} {f : Number → Nat} {g : Member → Nat}

theorem narrower_form (h : counterpart b = some c) : Narrower b.form (renamed c) := by
  have hall : ∀ b ∈ branches, ∀ c ∈ Uci.branches, counterpart b = some c →
      Narrower b.form (renamed c) := by
    decide +kernel
  exact hall b (mem_branches b) c (Uci.mem_branches c) h

theorem sharedBounds_eq (h : counterpart b = some c) :
    sharedBounds c = (differences b.form (renamed c)).map (fun t => (numberOf t.1, t.2)) ++
      if c = .pciAdapterCard then [(.pci, 0, 1)] else [] := by
  have hall : ∀ b ∈ branches, ∀ c ∈ Uci.branches, counterpart b = some c →
      sharedBounds c = (differences b.form (renamed c)).map (fun t => (numberOf t.1, t.2)) ++
        if c = .pciAdapterCard then [(.pci, 0, 1)] else [] := by
    decide +kernel
  exact hall b (mem_branches b) c (Uci.mem_branches c) h

theorem exists_counterpart (h : c ≠ .dcaOnIoBoard) : ∃ b, counterpart b = some c := by
  have hall : ∀ c ∈ Uci.branches, c ≠ .dcaOnIoBoard →
      ∃ b ∈ branches, counterpart b = some c := by
    decide +kernel
  obtain ⟨b, -, hb⟩ := hall c (Uci.mem_branches c) h
  exact ⟨b, hb⟩

theorem counterpart_ne_dca (b : Branch) : counterpart b ≠ some .dcaOnIoBoard := by
  cases b <;> decide

theorem clash_of_counterpart_ne (h : counterpart b ≠ some c) :
    clash (shape b.form) (shape c.form) = true := by
  have hall : ∀ b ∈ branches, ∀ c ∈ Uci.branches, counterpart b ≠ some c →
      clash (shape b.form) (shape c.form) = true := by
    decide +kernel
  exact hall b (mem_branches b) c (Uci.mem_branches c) h

theorem counterpart_eq_none (h : counterpart b = none) : b = .linkOnIoBoardInComputeRack ∨
      b ∈ [Branch.switch, .ioLinkOnNodeBoard, .allNodeBoardsOnMidplane] := by
  revert h
  cases b <;> decide

theorem vars_branch (h : counterpart b = some c) : vars b.form = c.numbers.map memberOf := by
  have hall : ∀ b ∈ branches, ∀ c ∈ Uci.branches, counterpart b = some c →
      vars b.form = c.numbers.map memberOf := by
    decide +kernel
  exact hall b (mem_branches b) c (Uci.mem_branches c) h

theorem counterpart_of_reads {s : List Char} (hb : Reads b.form s g) (hc : Reads c.form s f) :
    counterpart b = some c := by
  by_contra hne
  have hclash := clash_eq_false_of_fits hb.fits hc.fits
  rw [clash_of_counterpart_ne hne] at hclash
  cases hclash

theorem reads_counterpart (h : counterpart b = some c) {s : List Char} (hreads : Reads b.form s g) :
    Reads c.form s (g ∘ memberOf) :=
  reads_rename.mp ((narrower_form h).reads_iff.mp hreads).1

theorem reads_branch_iff (h : counterpart b = some c) {s : List Char} (hreads : Reads c.form s f) :
    Reads b.form s (f ∘ numberOf) ↔
      ∀ t ∈ (differences b.form (renamed c)).map (fun t => (numberOf t.1, t.2)),
        t.2.1 ≤ f t.1 ∧ f t.1 ≤ t.2.2 := by
  have hrenamed : Reads (renamed c) s (f ∘ numberOf) := by
    apply reads_rename.mpr
    have hid : (f ∘ numberOf) ∘ memberOf = f := funext fun n => congrArg f (numberOf_memberOf n)
    rwa [hid]
  rw [(narrower_form h).reads_iff, forall_mem_map]
  exact ⟨fun hboth => hboth.2, fun hbounds => ⟨hrenamed, hbounds⟩⟩

theorem trimCopy_eq_self {s : List Char} (h : ∀ c ∈ s, RankMap.isspace c = false) :
    trimCopy s = s := by
  have hdrop : s.dropWhile RankMap.isspace = s := by
    cases s with
    | nil => rfl
    | cons c s => rw [dropWhile_cons_of_neg (by rw [h c mem_cons_self]; decide)]
  rw [trimCopy, hdrop, rdropWhile_eq_self_iff]
  intro hne
  rw [h _ (getLast_mem hne)]
  decide

def blankFree {ν : Type*} : Piece ν → Bool
  | .lit c => !RankMap.isspace c
  | _ => true

variable {ν : Type*}

theorem trimCopy_of_reads {form : List (Piece ν)} (hsound : Sound form)
    (hfree : ∀ p ∈ form, blankFree p = true) {s : List Char} {f : ν → Nat} (h : Reads form s f) :
    trimCopy s = s := by
  apply trimCopy_eq_self
  intro c hc
  rcases h.mem hsound hc with hlit | hdigit
  · exact Bool.not_eq_true' _ ▸ hfree _ hlit
  · have hall : digits.all (fun d => !RankMap.isspace d) = true := by decide
    exact Bool.not_eq_true' _ ▸ all_eq_true.mp hall c hdigit

theorem trimCopy_of_component {s : List Char} (h : Reads c.form s f) : trimCopy s = s :=
  trimCopy_of_reads (Uci.sound_form c) (by cases c <;> decide) h

section Strings

variable {loc : Location} {throwsSpec : ThrowsSpec} {s : CString}

theorem accepted_iff : Uci.Accepted s ↔ ∃ c f, Reads (Component.form c) s.chars f := by
  refine ⟨Uci.exists_reads_of_bgStringToUci, ?_⟩
  rintro ⟨c, f, h⟩
  rw [Uci.Accepted, Uci.bgStringToUci_of_reads h]

theorem decodes_iff (htrim : trimCopy s.chars = s.chars) (hb : Reads b.form s.chars g)
    (hc : Reads c.form s.chars f) : (∃ d, componentOf (loc.set s.chars throwsSpec).1.type
        (loc.set s.chars throwsSpec).1.rackType = some d ∧
      Uci.bgUciGetComponent (codeOf s) = d.code ∧
      ∀ entry ∈ d.bgDecodeUci (codeOf s),
        (loc.set s.chars throwsSpec).1.numbers (memberOf entry.1) = entry.2) ↔
      (c = .pciAdapterCard → f .pci < 2) := by
  have hcounter := counterpart_of_reads hb hc
  have hset := Location.set_of_reads (null_not_mem_trimCopy s.noNull)
    (htrim.symm ▸ hb) loc throwsSpec
  have hcode : codeOf s = c.bgEncodeUci f := by
    rw [codeOf, Uci.bgStringToUci_of_reads hc]
  have hsame := Reads.unique (Uci.sound_form c) (reads_counterpart hcounter hb) hc
  have hnumber {n : Number} (hn : n ∈ c.numbers) :
      assign (vars b.form) g loc.numbers (memberOf n) = f n := by
    have hmem : memberOf n ∈ vars b.form := by
      rw [vars_branch hcounter]
      exact mem_map_of_mem hn
    rw [Uci.vars_form] at hsame
    exact (assign_of_mem hmem _ _).trans (hsame n hn)
  rw [hset, hcode]
  constructor
  · rintro ⟨d, hd, -, hall⟩ rfl
    obtain rfl : d = .pciAdapterCard := Option.some.inj (hd.symm.trans hcounter)
    have hpci : .pci ∈ Component.pciAdapterCard.numbers := by decide
    have hcut := hall _ (mem_map_of_mem hpci)
    rw [Component.bgUciGet_bgEncodeUci hpci] at hcut
    rw [← hnumber hpci]
    exact lt_of_eq_of_lt hcut (Nat.mod_lt _ (by decide))
  · intro hsmall
    refine ⟨c, hcounter, c.bgUciGetComponent_bgEncodeUci f, ?_⟩
    intro entry hentry
    obtain ⟨n, hn, rfl⟩ := mem_map.mp hentry
    refine (hnumber hn).trans ?_
    rw [Component.bgUciGet_bgEncodeUci hn]
    refine (Uci.cut_eq hc.1 hn ?_).symm
    rintro rfl
    exact hsmall (Uci.pci_mem_numbers.mp hn)

theorem agree_of_component (hc : Reads c.form s.chars f) : Agree loc throwsSpec s ↔ Shared c f := by
  have htrim := trimCopy_of_component hc
  have haccepted : Uci.Accepted s := accepted_iff.mpr ⟨c, f, hc⟩
  have haccepts : loc.Accepts s.chars throwsSpec ↔
      ∃ b, counterpart b = some c ∧ Reads b.form s.chars (f ∘ numberOf) := by
    rw [Location.accepts_iff s.noNull, htrim]
    constructor
    · rintro ⟨b, g, hb⟩
      have hcounter := counterpart_of_reads hb hc
      have hsame := Reads.unique (Uci.sound_form c) (reads_counterpart hcounter hb) hc
      refine ⟨b, hcounter, hb.congr fun v hv => ?_⟩
      rw [vars_branch hcounter] at hv
      obtain ⟨n, hn, rfl⟩ := mem_map.mp hv
      rw [← Uci.vars_form] at hn
      exact (hsame n hn).trans (congrArg f (numberOf_memberOf n)).symm
    · rintro ⟨b, -, hb⟩
      exact ⟨b, _, hb⟩
  constructor
  · intro hagree
    obtain ⟨b, hcounter, hb⟩ := haccepts.mp (hagree.accepts.mpr haccepted)
    have hsmall := (decodes_iff htrim hb hc).mp
      (hagree.decodes (hagree.accepts.mpr haccepted) haccepted)
    refine ⟨fun hdca => counterpart_ne_dca b (hdca ▸ hcounter), ?_⟩
    rw [sharedBounds_eq hcounter, forall_mem_append]
    refine ⟨(reads_branch_iff hcounter hc).mp hb, ?_⟩
    split
    case isTrue hpci =>
      have hlt := hsmall hpci
      rw [forall_mem_singleton]
      exact ⟨Nat.zero_le _, Nat.le_of_lt_succ hlt⟩
    case isFalse => exact fun t ht => absurd ht not_mem_nil
  · rintro ⟨hdca, hshared⟩
    obtain ⟨b, hcounter⟩ := exists_counterpart hdca
    rw [sharedBounds_eq hcounter, forall_mem_append] at hshared
    have hb := (reads_branch_iff hcounter hc).mpr hshared.1
    have hacc := haccepts.mpr ⟨b, hcounter, hb⟩
    refine ⟨iff_of_true hacc haccepted, fun _ _ => (decodes_iff htrim hb hc).mpr ?_⟩
    rintro rfl
    exact Nat.lt_succ_of_le (hshared.2 (.pci, 0, 1) mem_cons_self).2

theorem agree_of_not_accepted (hs : ¬ Uci.Accepted s) : Agree loc throwsSpec s ↔
      ∀ (b : Branch) (f : Member → Nat), ¬ Reads b.form (trimCopy s.chars) f := by
  have hrejects : ¬ loc.Accepts s.chars throwsSpec ↔
      ∀ (b : Branch) (f : Member → Nat), ¬ Reads b.form (trimCopy s.chars) f := by
    rw [Location.accepts_iff s.noNull]
    push Not
    rfl
  rw [← hrejects]
  constructor
  · exact fun hagree hacc => hs (hagree.accepts.mp hacc)
  · exact fun hno => ⟨iff_of_false hno hs, fun hacc => absurd hacc hno⟩

/-- A string that is no switch, I/O link or set of node boards is parsed alike exactly when
it is regular. -/
theorem agree_iff_regular (loc : Location) (throwsSpec : ThrowsSpec) (s : CString)
    (hpseudo : ¬ IsPseudo s) : Agree loc throwsSpec s ↔ Regular s := by
  by_cases hs : Uci.Accepted s
  · obtain ⟨c, f, hc⟩ := accepted_iff.mp hs
    constructor
    · intro hagree
      refine ⟨?_, ?_, fun hblank => absurd (trimCopy_of_component hc) hblank⟩
      · exact fun d g hd => (agree_of_component hd).mp hagree
      · intro g hlink
        cases counterpart_of_reads hlink hc
    · exact fun hregular => (agree_of_component hc).mpr (hregular.shared c f hc)
  · rw [agree_of_not_accepted hs]
    have hno (c : Component) (f : Number → Nat) : ¬ Reads c.form s.chars f :=
      fun hc => hs (accepted_iff.mpr ⟨c, f, hc⟩)
    constructor
    · intro hreject
      refine ⟨fun c f hc => absurd hc (hno c f), ?_, fun _ => hreject⟩
      intro f hlink
      exact hreject _ f ((trimCopy_of_reads (sound_form _) (by decide) hlink).symm ▸ hlink)
    · intro hregular b f hb
      by_cases htrim : trimCopy s.chars = s.chars
      · rw [htrim] at hb
        cases hcounter : counterpart b with
        | some c => exact hno c _ (reads_counterpart hcounter hb)
        | none =>
          rcases counterpart_eq_none hcounter with rfl | hmem
          · exact hregular.noLink f hb
          · exact hpseudo ⟨b, hmem, f, htrim.symm ▸ hb⟩
      · exact hregular.noBlanks htrim b f hb

end Strings

def emptyLocation : Location :=
  { location := [], type := .notValid, rackType := .notValid, numbers := fun _ => 0 }

theorem not_reads_of_length {form : List (Piece ν)} {s : List Char}
    (h : (shape form).length ≠ s.length) (f : ν → Nat) : ¬ Reads form s f :=
  fun hreads => h (Forall₂.length_eq hreads.fits)

theorem not_isPseudo_of_length {s : CString} (h : (trimCopy s.chars).length < 8) :
    ¬ IsPseudo s := by
  rintro ⟨b, hb, f, hreads⟩
  have hlength : ∀ b ∈ [Branch.switch, .ioLinkOnNodeBoard, .allNodeBoardsOnMidplane],
      8 ≤ (shape b.form).length := by
    decide
  have hb8 := hlength b hb
  exact not_reads_of_length (by omega) f hreads

theorem agree_midplane : Agree emptyLocation .throwsOnBadLocation (cstring "R00-M1") := by
  refine (agree_iff_regular _ _ _ (not_isPseudo_of_length (by decide))).mpr ⟨?_, ?_, ?_⟩
  · intro c f hreads
    have hfind := (Uci.find?_branches (cstring "R00-M1").noNull c).mpr hreads.fits
    obtain rfl : Component.midplane = c := Option.some.inj hfind
    exact ⟨by decide, fun t ht => absurd ht not_mem_nil⟩
  · exact not_reads_of_length (by decide)
  · exact fun hblank => absurd (by decide) hblank

theorem not_forall_agree :
    ¬ ∀ (loc : Location) (throwsSpec : ThrowsSpec) (s : CString), ¬ IsPseudo s →
      Agree loc throwsSpec s := by
  intro h
  have hpseudo : ¬ IsPseudo (cstring "R00-I0") := not_isPseudo_of_length (by decide)
  have haccepted : Uci.Accepted (cstring "R00-I0") := by
    unfold Uci.Accepted
    decide +kernel
  have hinvalid : (emptyLocation.set (cstring "R00-I0").chars .nothrow).1.type = .notValid := by
    decide +kernel
  exact ((h emptyLocation .nothrow _ hpseudo).accepts.mpr haccepted).2 hinvalid

end BgqDriver.LocationAgreement

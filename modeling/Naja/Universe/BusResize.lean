import Naja.Universe.Objects
import Naja.Netlist.BitPairs

/-! The bits of a bus while its range is resized. `setMSB` erases places at the front and
`setLSB` at the back, so every bit stays at the place that its number has in the new
range. -/

namespace Naja.Universe
open Netlist (width bitAt rangeBits)

/-- A bus with one place for each bit of its range. -/
structure SizedBus extends Bus where
  sized : bits.length = width (some (msb, lsb))

namespace SizedBus

def create (msb lsb : Int) : SizedBus := ⟨.create msb lsb, by simp [Bus.create, rangeBits]⟩

variable (b : SizedBus)

def removeBit (bit : Int) : SizedBus := ⟨b.toBus.removeBit bit, by
  unfold Bus.removeBit
  rw [List.length_set]
  exact b.sized⟩

def getBitAtPosition (position : Nat) : Option Int := (b.bits[position]?).join

/-- The bits that go are looked at first: one that is refused ends the call, a null pointer the run. -/
def removable (refused : Int → Bool) : List (Option Int) → Option Bool
  | [] => some true
  | none :: _ => none
  | some bit :: rest => if refused bit then some false else removable refused rest

theorem placed_drop (msb : Int) (between : isBetween msb b.msb b.lsb = true) (i : Nat) (bit : Int)
    (here : (b.bits.drop (b.msb - msb).natAbs)[i]? = some (some bit)) :
    isBetween bit msb b.lsb = true ∧ (msb - bit).natAbs = i := by
  rw [List.getElem?_drop] at here
  obtain ⟨between', position⟩ := b.placed _ bit here
  simp only [isBetween, Bool.and_eq_true, decide_eq_true_eq] at between between' ⊢
  omega

theorem sized_drop (msb : Int) (between : isBetween msb b.msb b.lsb = true) :
    (b.bits.drop (b.msb - msb).natAbs).length = width (some (msb, b.lsb)) := by
  rw [List.length_drop, b.sized]
  unfold width
  simp only [isBetween, Bool.and_eq_true, decide_eq_true_eq] at between ⊢
  omega

theorem placed_take (lsb : Int) (between : isBetween lsb b.msb b.lsb = true) (i : Nat) (bit : Int)
    (here : (b.bits.take (b.bits.length - (b.lsb - lsb).natAbs))[i]? = some (some bit)) :
    isBetween bit b.msb lsb = true ∧ (b.msb - bit).natAbs = i := by
  have below : i < b.bits.length - (b.lsb - lsb).natAbs := by
    have bound := (List.getElem?_eq_some_iff.mp here).1
    rw [List.length_take] at bound
    omega
  rw [List.getElem?_take_of_lt below] at here
  rw [b.sized, width] at below
  obtain ⟨between', position⟩ := b.placed i bit here
  simp only [isBetween, Bool.and_eq_true, decide_eq_true_eq] at between between' below ⊢
  omega

theorem sized_take (lsb : Int) (between : isBetween lsb b.msb b.lsb = true) :
    (b.bits.take (b.bits.length - (b.lsb - lsb).natAbs)).length = width (some (b.msb, lsb)) := by
  rw [List.length_take, b.sized]
  unfold width
  simp only [isBetween, Bool.and_eq_true, decide_eq_true_eq] at between ⊢
  omega

/-- `setMSB`. An exception leaves the bus as it is. -/
def setMSB (refused : Int → Bool) (msb : Int) : Option SizedBus :=
  if msb = b.msb then some b
  else if between : isBetween msb b.msb b.lsb = true then
    let removeCount := (b.msb - msb).natAbs
    match removable refused (b.bits.take removeCount) with
    | none => none
    | some false => some b
    | some true => some ⟨⟨msb, b.lsb, b.bits.drop removeCount, b.placed_drop msb between⟩, b.sized_drop msb between⟩
  else some b

def setLSB (refused : Int → Bool) (lsb : Int) : Option SizedBus :=
  if lsb = b.lsb then some b
  else if between : isBetween lsb b.msb b.lsb = true then
    let staying := b.bits.length - (b.lsb - lsb).natAbs
    match removable refused (b.bits.drop staying) with
    | none => none
    | some false => some b
    | some true => some ⟨⟨b.msb, lsb, b.bits.take staying, b.placed_take lsb between⟩, b.sized_take lsb between⟩
  else some b

/-- A call of `setMSB` or `setLSB`, with the bits whose connections refuse it. -/
inductive Resize where
  | msb (refused : Int → Bool) (bit : Int)
  | lsb (refused : Int → Bool) (bit : Int)

def resize (b : SizedBus) : Resize → Option SizedBus
  | .msb refused bit => b.setMSB refused bit
  | .lsb refused bit => b.setLSB refused bit

def run (b : SizedBus) (resizes : List Resize) : Option SizedBus := resizes.foldlM resize b

/-! ### Bits at their places -/

/-- Every bit of the range is at its place. -/
def Complete : Prop := ∀ p < width (some (b.msb, b.lsb)), b.bits[p]? = some (some (bitAt (some (b.msb, b.lsb)) p))

theorem complete_create (msb lsb : Int) : (create msb lsb).Complete := by
  intro p below
  change p < width (some (msb, lsb)) at below
  change ((rangeBits (some (msb, lsb))).map some)[p]? = some (some (bitAt (some (msb, lsb)) p))
  rw [List.getElem?_map, Netlist.getElem?_rangeBits _ p below]
  rfl

/-- Lookups by number and by position find the bits of the range and nothing else. -/
structure Exact : Prop where
  byNumber : ∀ bit, b.getBit bit = if isBetween bit b.msb b.lsb then some bit else none
  byPosition : ∀ p, b.getBitAtPosition p =
    if p < width (some (b.msb, b.lsb)) then some (bitAt (some (b.msb, b.lsb)) p) else none

theorem bitAt_position (msb lsb bit : Int) (between : isBetween bit msb lsb = true) :
    (msb - bit).natAbs < width (some (msb, lsb)) ∧ bitAt (some (msb, lsb)) (msb - bit).natAbs = bit := by
  simp only [isBetween, Bool.and_eq_true, decide_eq_true_eq] at between
  unfold width bitAt
  simp only
  constructor
  · omega
  · split <;> omega

theorem exact_iff_complete : b.Exact ↔ b.Complete := by
  constructor
  · intro exact p below
    have here := exact.byPosition p
    rw [if_pos below] at here
    exact Option.join_eq_some_iff.mp here
  · intro complete
    refine ⟨?_, ?_⟩
    · intro bit
      unfold Bus.getBit
      by_cases between : isBetween bit b.msb b.lsb = true
      · obtain ⟨below, same⟩ := bitAt_position b.msb b.lsb bit between
        rw [if_pos between, if_pos between, complete _ below, same]
        rfl
      · rw [if_neg between, if_neg between]
    · intro p
      unfold getBitAtPosition
      by_cases below : p < width (some (b.msb, b.lsb))
      · rw [if_pos below, complete p below]
        rfl
      · rw [if_neg below, List.getElem?_eq_none (by rw [b.sized]; exact Nat.le_of_not_lt below)]
        rfl

theorem removable_of_complete (refused : Int → Bool) (bits : List (Option Int)) (all : ∀ entry ∈ bits, entry.isSome) :
    (removable refused bits).isSome := by
  induction bits with
  | nil => rfl
  | cons entry rest ih =>
      obtain ⟨bit, rfl⟩ := Option.isSome_iff_exists.mp (all entry List.mem_cons_self)
      unfold removable
      split
      · rfl
      · exact ih (fun other member => all other (List.mem_cons_of_mem _ member))

theorem Complete.entries (complete : b.Complete) (entry : Option Int) (member : entry ∈ b.bits) : entry.isSome := by
  obtain ⟨p, here⟩ := List.mem_iff_getElem?.mp member
  have below : p < width (some (b.msb, b.lsb)) := by
    rw [← b.sized]
    exact (List.getElem?_eq_some_iff.mp here).1
  rw [complete p below] at here
  rw [← Option.some.inj here]
  rfl

/-- What one call keeps. -/
theorem resize_complete (complete : b.Complete) (call : Resize) : ∃ b', b.resize call = some b' ∧ b'.Complete := by
  cases call with
  | msb refused msb =>
      change ∃ b', b.setMSB refused msb = some b' ∧ b'.Complete
      unfold setMSB
      split
      · exact ⟨b, rfl, complete⟩
      · split
        · next between =>
            have defined := removable_of_complete refused (b.bits.take (b.msb - msb).natAbs)
              (fun entry member => complete.entries b entry (List.mem_of_mem_take member))
            simp only
            split
            · next isNone =>
                rw [isNone] at defined
                cases defined
            · exact ⟨b, rfl, complete⟩
            · refine ⟨_, rfl, ?_⟩
              intro p below
              change p < width (some (msb, b.lsb)) at below
              change (b.bits.drop (b.msb - msb).natAbs)[p]? = some (some (bitAt (some (msb, b.lsb)) p))
              simp only [isBetween, Bool.and_eq_true, decide_eq_true_eq] at between
              rw [List.getElem?_drop, complete]
              · congr 2
                unfold width at below
                unfold bitAt
                simp only at below ⊢
                split <;> split <;> omega
              · unfold width at below ⊢
                simp only at below ⊢
                omega
        · exact ⟨b, rfl, complete⟩
  | lsb refused lsb =>
      change ∃ b', b.setLSB refused lsb = some b' ∧ b'.Complete
      unfold setLSB
      split
      · exact ⟨b, rfl, complete⟩
      · split
        · next between =>
            have defined := removable_of_complete refused (b.bits.drop (b.bits.length - (b.lsb - lsb).natAbs))
              (fun entry member => complete.entries b entry (List.mem_of_mem_drop member))
            simp only
            split
            · next isNone =>
                rw [isNone] at defined
                cases defined
            · exact ⟨b, rfl, complete⟩
            · refine ⟨_, rfl, ?_⟩
              intro p below
              change p < width (some (b.msb, lsb)) at below
              change (b.bits.take (b.bits.length - (b.lsb - lsb).natAbs))[p]? = some (some (bitAt (some (b.msb, lsb)) p))
              have length := b.sized_take lsb between
              simp only [isBetween, Bool.and_eq_true, decide_eq_true_eq] at between
              rw [List.getElem?_take_of_lt (by rw [← length, List.length_take] at below; omega), complete]
              · congr 2
                unfold width at below
                unfold bitAt
                simp only at below ⊢
                split <;> split <;> omega
              · unfold width at below ⊢
                simp only at below ⊢
                omega
        · exact ⟨b, rfl, complete⟩

/-- What a run keeps. -/
theorem run_complete (complete : b.Complete) (resizes : List Resize) : ∃ b', b.run resizes = some b' ∧ b'.Complete := by
  induction resizes generalizing b with
  | nil => exact ⟨b, rfl, complete⟩
  | cons call rest ih =>
      obtain ⟨b₁, first, complete₁⟩ := b.resize_complete complete call
      obtain ⟨b', later, complete'⟩ := ih b₁ complete₁
      refine ⟨b', ?_, complete'⟩
      unfold run
      rw [List.foldlM_cons, first]
      exact later

/-- Lookups are exact after every sequence of calls exactly when no bit of the bus is destroyed. -/
theorem exact_along_run_iff :
    (∀ resizes, ∃ b', b.run resizes = some b' ∧ b'.Exact) ↔ b.Complete := by
  constructor
  · intro all
    obtain ⟨b', same, exact⟩ := all []
    obtain rfl := Option.some.inj same
    exact b.exact_iff_complete.mp exact
  · intro complete resizes
    obtain ⟨b', ran, complete'⟩ := b.run_complete complete resizes
    exact ⟨b', ran, b'.exact_iff_complete.mpr complete'⟩

/-! ### The ranges of a netlist -/

/-- The bits of a range less those that are destroyed. -/
def ofRange (msb lsb : Int) (removed : List Int) : SizedBus where
  msb := msb
  lsb := lsb
  bits := (rangeBits (some (msb, lsb))).map (fun bit => if bit ∈ removed then none else some bit)
  placed := by
    intro i bit here
    apply Bus.placed_create
    rw [List.getElem?_map, Option.map_eq_some_iff] at here ⊢
    obtain ⟨bit', found, isBit⟩ := here
    split at isBit
    · cases isBit
    · exact ⟨bit', found, isBit⟩
  sized := by simp [rangeBits]

theorem getBit_ofRange (msb lsb : Int) (removed : List Int) (bit : Int) : (ofRange msb lsb removed).getBit bit =
    if bit ∈ (rangeBits (some (msb, lsb))).filter (fun bit => bit ∉ removed) then some bit else none := by
  have place (p : Nat) (below : p < width (some (msb, lsb))) : (ofRange msb lsb removed).bits[p]? =
      some (if bitAt (some (msb, lsb)) p ∈ removed then none else some (bitAt (some (msb, lsb)) p)) := by
    change ((rangeBits (some (msb, lsb))).map _)[p]? = _
    rw [List.getElem?_map, Netlist.getElem?_rangeBits _ p below]
    rfl
  unfold Bus.getBit
  by_cases between : isBetween bit msb lsb = true
  · obtain ⟨below, same⟩ := bitAt_position msb lsb bit between
    have member : bit ∈ rangeBits (some (msb, lsb)) := (Netlist.mem_rangeBits _ _).mpr ⟨_, below, same⟩
    change (if isBetween bit msb lsb = true then ((ofRange msb lsb removed).bits[(msb - bit).natAbs]?).join else none) = _
    rw [if_pos between, place _ below, same]
    by_cases gone : bit ∈ removed <;> simp [gone, member]
  · change (if isBetween bit msb lsb = true then _ else none) = _
    rw [if_neg between, if_neg]
    intro member
    obtain ⟨p, below, rfl⟩ := (Netlist.mem_rangeBits _ _).mp (List.mem_of_mem_filter member)
    apply between
    unfold width at below
    unfold bitAt
    simp only [isBetween, Bool.and_eq_true, decide_eq_true_eq] at below ⊢
    split <;> omega

/-- `getBit` of a term in a netlist is a lookup in the places of its bus. -/
theorem getTermBit_eq (t : Registry.Entry Netlist.TermData) (msb lsb : Int) (range : t.data.range = some (msb, lsb))
    (bit : Int) : Netlist.World.getTermBit t bit =
      ((ofRange msb lsb t.data.removed).getBit bit).map (Netlist.BitTerm.mk t.object) := by
  rw [getBit_ofRange]
  unfold Netlist.World.getTermBit Netlist.TermData.getBits
  rw [range]
  split <;> rfl

theorem getNetBit_eq (e : Registry.Entry Netlist.NetData) (msb lsb : Int) (range : e.data.range = some (msb, lsb))
    (bit : Int) : Netlist.World.getNetBit e bit =
      ((ofRange msb lsb e.data.removed).getBit bit).map (Netlist.BitNet.mk e.object) := by
  rw [getBit_ofRange]
  unfold Netlist.World.getNetBit Netlist.NetData.getBits
  rw [range]
  split <;> rfl

/-- A range that `setMSB` gives to an object of a netlist has the places that it leaves in the bus. -/
theorem bits_ofRange_drop (msb lsb msb' : Int) (removed : List Int) (between : isBetween msb' msb lsb = true) :
    (ofRange msb' lsb removed).bits = (ofRange msb lsb removed).bits.drop (msb - msb').natAbs := by
  change (rangeBits (some (msb', lsb))).map _ = ((rangeBits (some (msb, lsb))).map _).drop _
  rw [← List.map_drop]
  congr 1
  apply List.ext_getElem?
  intro p
  simp only [isBetween, Bool.and_eq_true, decide_eq_true_eq] at between
  rw [List.getElem?_drop]
  by_cases below : p < width (some (msb', lsb))
  · have below' : (msb - msb').natAbs + p < width (some (msb, lsb)) := by
      unfold width at below ⊢
      simp only at below ⊢
      omega
    rw [Netlist.getElem?_rangeBits _ _ below, Netlist.getElem?_rangeBits _ _ below']
    unfold width at below
    unfold bitAt
    simp only at below ⊢
    congr 1
    split <;> split <;> omega
  · rw [List.getElem?_eq_none, List.getElem?_eq_none]
    · simp only [rangeBits, List.length_map, List.length_range]
      unfold width at below ⊢
      simp only at below ⊢
      omega
    · simpa only [rangeBits, List.length_map, List.length_range] using Nat.le_of_not_lt below

theorem bits_ofRange_take (msb lsb lsb' : Int) (removed : List Int) (between : isBetween lsb' msb lsb = true) :
    (ofRange msb lsb' removed).bits =
      (ofRange msb lsb removed).bits.take (width (some (msb, lsb)) - (lsb - lsb').natAbs) := by
  change (rangeBits (some (msb, lsb'))).map _ = ((rangeBits (some (msb, lsb))).map _).take _
  rw [← List.map_take]
  congr 1
  apply List.ext_getElem?
  intro p
  simp only [isBetween, Bool.and_eq_true, decide_eq_true_eq] at between
  have widths : width (some (msb, lsb')) = width (some (msb, lsb)) - (lsb - lsb').natAbs := by
    unfold width
    simp only
    omega
  by_cases below : p < width (some (msb, lsb'))
  · rw [List.getElem?_take_of_lt (widths ▸ below), Netlist.getElem?_rangeBits _ _ below, Netlist.getElem?_rangeBits]
    · unfold width at below
      unfold bitAt
      simp only at below ⊢
      congr 1
      split <;> split <;> omega
    · omega
  · rw [List.getElem?_eq_none, List.getElem?_eq_none]
    · rw [List.length_take]
      omega
    · simpa only [rangeBits, List.length_map, List.length_range] using Nat.le_of_not_lt below

end SizedBus

/-! ### Pairs of bits -/

section claim
open Netlist

/-- Bits are connected by position: always by `setNet` of a bus term, for slices when the bits of the term and their
terminals are there, and for whole buses when, beyond this, both sides lack the same positions. Lookups in a bus
stay exact under `setMSB` and `setLSB` when all its bits are there. -/
theorem bits_paired (w : World) (whole : w.Sound) (k : Nat) (d : Design) (found : w.designs[k]? = some d) (net : Netlist.Address)
    (e : Registry.Entry Netlist.NetData) (foundNet : d.nets.entry net = some e) :
    (∀ term t, d.terms.entry term = some t → width t.data.range = width e.data.range →
      ∃ d', w.setBusTermNet k term (some (.bus k net)) = .done (w.setDesign k d') ∧
        PairsUp (fun bit => .bitTerm ⟨t.object, bit⟩) t e (rangeBits t.data.range) (rangeBits e.data.range) d d') ∧
    (∀ inst i m model term t, d.instances.entry inst = some i → i.data.model = m → w.designs[m]? = some model →
      model.terms.entry term = some t →
      (∀ termMSB termLSB netMSB netLSB termBits netBits, sliceOf t.data.range termMSB termLSB = some termBits →
        sliceOf e.data.range netMSB netLSB = some netBits → termBits.length = netBits.length →
        ((∃ d', w.setSliceTermNet k inst m term termMSB termLSB k net netMSB netLSB = .done (w.setDesign k d') ∧
            PairsUp (terminalOf inst t) t e termBits netBits d d') ↔
          ∀ bit ∈ termBits, bit ∈ t.data.getBits ∧ HasTerminal i t bit)) ∧
      (∀ netMSB netLSB netBits, sliceOf e.data.range netMSB netLSB = some netBits →
        netBits.length ≤ width t.data.range →
        ((∃ d', w.setTermNetSlice k inst m term k net netMSB netLSB = .done (w.setDesign k d') ∧
            PairsUp (terminalOf inst t) t e ((rangeBits t.data.range).take netBits.length) netBits d d') ↔
          ∀ bit ∈ (rangeBits t.data.range).take netBits.length, bit ∈ t.data.getBits ∧ HasTerminal i t bit)) ∧
      (width t.data.range = width e.data.range →
        ((∃ d', w.setWholeTermNet k inst m term k net = .done (w.setDesign k d') ∧
            PairsUp (terminalOf inst t) t e (rangeBits t.data.range) (rangeBits e.data.range) d d') ↔
          SameHoles t e ∧ ∀ bit ∈ t.data.getBits, HasTerminal i t bit))) ∧
    ∀ b : SizedBus, (∀ resizes, ∃ b', b.run resizes = some b' ∧ b'.Exact) ↔ b.Complete := by
  refine ⟨?_, ?_, fun b => b.exact_along_run_iff⟩
  · intro term t foundTerm widths
    exact setBusTermNet_pairs w whole k d found term t foundTerm net e foundNet widths
  · intro inst i m model term t foundInst ofModel foundModel foundTerm
    refine ⟨?_, ?_, ?_⟩
    · intro termMSB termLSB netMSB netLSB termBits netBits termSlice netSlice lengths
      exact setSliceTermNet_iff w whole k d found inst i foundInst m ofModel model foundModel term t foundTerm net e foundNet
        termMSB termLSB netMSB netLSB termBits netBits termSlice netSlice lengths
    · intro netMSB netLSB netBits netSlice fits
      exact setTermNetSlice_iff w whole k d found inst i foundInst m ofModel model foundModel term t foundTerm net e foundNet
        netMSB netLSB netBits netSlice fits
    · intro widths
      exact setWholeTermNet_iff w whole k d found inst i foundInst m ofModel model foundModel term t foundTerm net e foundNet
        widths

/-- A cell with a bus and a design with a bus net in the other direction. -/
def reversedRun : List Operation :=
  [.createDesign 0 .Standard "cell", .createTerm 0 none "a" .Input (some (3, 0)), .createDesign 0 .Standard "top",
    .createNet 1 none "n" (some (0, 3)), .createInstance 1 0 none "u"]

theorem reversedRun_admissible : ∃ w, AdmissibleRun (World.start [⟨"work", false⟩]) reversedRun w := by
  refine AdmissibleRun.exists_cons _ _ _ _ trivial rfl ?_
  refine AdmissibleRun.exists_cons _ _ _ _ ?_ rfl ?_
  · exact forall_of_all _ 0 (fun d => Room d.terms none) (by decide +kernel)
  refine AdmissibleRun.exists_cons _ _ _ _ trivial rfl ?_
  refine AdmissibleRun.exists_cons _ _ _ _ ?_ rfl ?_
  · exact forall_of_all _ 1 (fun d => Room d.nets none) (by decide +kernel)
  refine AdmissibleRun.exists_cons _ _ _ _ ?_ rfl ?_
  · exact forall_of_all _ 1 (fun d => Room d.instances none) (by decide +kernel)
  exact ⟨_, .nil _⟩

instance (i : Registry.Entry InstData) (t : Registry.Entry Netlist.TermData) (bit : Int) : Decidable (HasTerminal i t bit) :=
  decidable_of_iff ((i.data.table[t.data.flatID + position t.data.range bit]?).join.isSome) (by
    rw [Option.isSome_iff_exists]
    simp only [HasTerminal, Option.join_eq_some_iff])

instance (t : Registry.Entry Netlist.TermData) (e : Registry.Entry Netlist.NetData) : Decidable (SameHoles t e) :=
  inferInstanceAs (Decidable (∀ p < width t.data.range, _))

/-- The whole buses are connected by position. -/
theorem reversed_paired : ∃ w d t e d', AdmissibleRun (World.start [⟨"work", false⟩]) reversedRun w ∧
    w.designs[1]? = some d ∧ d.nets.entry 1 = some e ∧ e.data.range = some (0, 3) ∧ t.data.range = some (3, 0) ∧
    w.setWholeTermNet 1 2 0 0 1 1 = .done (w.setDesign 1 d') ∧
    PairsUp (terminalOf 2 t) t e (rangeBits t.data.range) (rangeBits e.data.range) d d' := by
  obtain ⟨w, ran⟩ := reversedRun_admissible
  have whole := run_sound _ w (sound_start _) reversedRun ran
  have checked : ((World.start [⟨"work", false⟩]).run reversedRun).all (fun w =>
      (w.designs[0]?).any (fun model => (w.designs[1]?).any (fun d => (model.terms.entry 0).any (fun t =>
        (d.nets.entry 1).any (fun e => (d.instances.entry 2).any (fun i =>
          decide (i.data.model = 0 ∧ e.data.range = some (0, 3) ∧ t.data.range = some (3, 0) ∧
            width t.data.range = width e.data.range ∧ SameHoles t e ∧ ∀ bit ∈ t.data.getBits, HasTerminal i t bit))))))) = true := by
    decide +kernel
  rw [ran.run_eq, Option.all_some, Option.any_eq_true] at checked
  obtain ⟨model, foundModel, inner⟩ := checked
  obtain ⟨d, found, inner⟩ := (Option.any_eq_true _ _).mp inner
  obtain ⟨t, foundTerm, inner⟩ := (Option.any_eq_true _ _).mp inner
  obtain ⟨e, foundNet, inner⟩ := (Option.any_eq_true _ _).mp inner
  obtain ⟨i, foundInst, inner⟩ := (Option.any_eq_true _ _).mp inner
  obtain ⟨ofModel, netRange, termRange, widths, ready⟩ := of_decide_eq_true inner
  obtain ⟨d', result, pairsUp⟩ := (((bits_paired w whole 1 d found 1 e foundNet).2.1 2 i 0 model 0 t foundInst ofModel
    foundModel foundTerm).2.2 widths).mpr ready
  exact ⟨w, d, t, e, d', ran, found, foundNet, netRange, termRange, result, pairsUp⟩

/-- Each bus of two bits loses one bit, the term its first and the net its last one. -/
def holesRun : List Operation :=
  [.createDesign 0 .Standard "cell", .createTerm 0 none "a" .Input (some (1, 0)), .createDesign 0 .Standard "top",
    .createNet 1 none "n" (some (1, 0)), .createInstance 1 0 none "u", .destroyTermBit 0 ⟨0, 1⟩, .destroyNetBit 1 ⟨1, 0⟩]

/-- The last bit of the term is connected to the first one of the net. -/
theorem holes_crossed : ∃ w d t e, (World.start [⟨"work", false⟩]).run holesRun = some w ∧ w.designs[1]? = some d ∧
    (w.designs[0]?).bind (fun model => model.terms.entry 0) = some t ∧ d.nets.entry 1 = some e ∧
    t.data.range = e.data.range ∧
    ¬∃ d', w.setWholeTermNet 1 2 0 0 1 1 = .done (w.setDesign 1 d') ∧
      PairsUp (terminalOf 2 t) t e (rangeBits t.data.range) (rangeBits e.data.range) d d' := by
  have checked : ((World.start [⟨"work", false⟩]).run holesRun).any (fun w =>
      (w.designs[1]?).any (fun d => ((w.designs[0]?).bind (fun model => model.terms.entry 0)).any (fun t =>
        (d.nets.entry 1).any (fun e => decide (t.data.range = e.data.range ∧ t.data.range = some ((1 : Int), (0 : Int)) ∧
          (0 : Int) ∈ t.data.getBits) &&
          match w.setWholeTermNet 1 2 0 0 1 1 with
          | .done w' => (w'.designs[1]?).all (fun d' => d'.links.netOf (terminalOf 2 t 0) != World.getNetBit e 0)
          | _ => false)))) = true := by
    decide +kernel
  obtain ⟨w, state, inner⟩ := (Option.any_eq_true _ _).mp checked
  obtain ⟨d, found, inner⟩ := (Option.any_eq_true _ _).mp inner
  obtain ⟨t, foundTerm, inner⟩ := (Option.any_eq_true _ _).mp inner
  obtain ⟨e, foundNet, inner⟩ := (Option.any_eq_true _ _).mp inner
  rw [Bool.and_eq_true, decide_eq_true_eq] at inner
  obtain ⟨⟨same, range, inside⟩, crossed⟩ := inner
  refine ⟨w, d, t, e, state, found, foundTerm, foundNet, same, ?_⟩
  intro claimed
  obtain ⟨d', result, pairsUp⟩ := claimed
  rw [result] at crossed
  simp only at crossed
  have placed : (w.setDesign 1 d').designs[1]? = some d' := List.getElem?_set_self (List.getElem?_eq_some_iff.mp found).1
  rw [placed, Option.all_some, bne_iff_ne] at crossed
  apply crossed
  apply pairsUp.paired 1 0 0
  · rw [range]
    rfl
  · rw [← same, range]
    rfl
  · exact inside

end claim

end Naja.Universe

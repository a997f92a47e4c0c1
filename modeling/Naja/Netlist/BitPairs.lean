import Naja.Netlist.Resize
import Naja.Netlist.Runs

/-! The bits of a bus term and of a bus net are connected pair by pair, from the most
significant position on. Slices go by bit number. The overload of `setTermNet` without
bit numbers pairs the bits that are left of each side instead. -/

namespace Naja.Netlist
open Naja.Registry

/-- The bits of the loop from one bit to another one; a scalar has no bit numbers. -/
def sliceOf (range : Option (Int × Int)) (msb lsb : Int) : Option (List Int) :=
  match range with
  | none => if msb = lsb then some [0] else none
  | some (busMSB, busLSB) =>
      if isBetween msb busMSB busLSB ∧ isBetween lsb busMSB busLSB then some (rangeBits (some (msb, lsb))) else none

namespace World
variable (w : World)

/-- `setTermNet` of a slice of a term and a slice of a net. -/
def setSliceTermNet (k : Nat) (inst : Address) (m : Nat) (term : Address) (termMSB termLSB : Int) (k' : Nat)
    (net : Address) (netMSB netLSB : Int) : Outcome :=
  match (w.designs[m]?).bind (fun model => model.terms.entry term), (w.designs[k']?).bind (fun d => d.nets.entry net) with
  | some t, some e =>
      match sliceOf t.data.range termMSB termLSB, sliceOf e.data.range netMSB netLSB with
      | some termBits, some netBits => w.setTermNet k inst m term termBits (some (k', net)) netBits
      | _, _ => .undefined
  | _, _ => .undefined

/-- `setTermNet` of a slice of a net, with the first bits of a term. -/
def setTermNetSlice (k : Nat) (inst : Address) (m : Nat) (term : Address) (k' : Nat) (net : Address)
    (netMSB netLSB : Int) : Outcome :=
  match (w.designs[m]?).bind (fun model => model.terms.entry term) with
  | none => .undefined
  | some t =>
      let size : Int := width (some (netMSB, netLSB))
      match t.data.range with
      | none => w.setSliceTermNet k inst m term 0 0 k' net netMSB netLSB
      | some (termMSB, lsb) =>
          let termLSB := if termMSB < lsb then termMSB + size - 1 else termMSB - size + 1
          w.setSliceTermNet k inst m term termMSB termLSB k' net netMSB netLSB

end World

/-! ### Positions -/

theorem position_bitAt (range : Option (Int × Int)) (p : Nat) (inside : p < width range) :
    position range (bitAt range p) = p := by
  cases range with
  | none =>
      have zero : p = 0 := Nat.lt_one_iff.mp inside
      exact zero.symm
  | some bus =>
      obtain ⟨msb, lsb⟩ := bus
      unfold width at inside
      unfold position bitAt
      simp only at inside ⊢
      split <;> omega

theorem mem_rangeBits (range : Option (Int × Int)) (bit : Int) :
    bit ∈ rangeBits range ↔ ∃ p < width range, bitAt range p = bit := by
  simp [rangeBits]

theorem position_injective (range : Option (Int × Int)) (bit bit' : Int) (inside : bit ∈ rangeBits range)
    (inside' : bit' ∈ rangeBits range) (same : position range bit = position range bit') : bit = bit' := by
  obtain ⟨p, below, rfl⟩ := (mem_rangeBits range bit).mp inside
  obtain ⟨p', below', rfl⟩ := (mem_rangeBits range bit').mp inside'
  rw [position_bitAt range p below, position_bitAt range p' below'] at same
  rw [same]

theorem getElem?_rangeBits (range : Option (Int × Int)) (p : Nat) (inside : p < width range) :
    (rangeBits range)[p]? = some (bitAt range p) := by
  rw [rangeBits, List.getElem?_map, List.getElem?_range inside]
  rfl

/-- A bit from one end of the loop to the other is a bit of the bus. -/
theorem mem_of_sliceOf (range : Option (Int × Int)) (msb lsb : Int) (bits : List Int)
    (slice : sliceOf range msb lsb = some bits) : bits.Nodup ∧ ∀ bit ∈ bits, bit ∈ rangeBits range := by
  unfold sliceOf at slice
  split at slice
  · split at slice
    · obtain rfl := Option.some.inj slice
      exact ⟨List.nodup_singleton 0, fun bit member => by simpa [rangeBits, width, bitAt] using member⟩
    · cases slice
  · next busMSB busLSB =>
      split at slice
      · next within =>
          obtain rfl := Option.some.inj slice
          refine ⟨rangeBits_nodup _, ?_⟩
          intro bit member
          obtain ⟨p, below, rfl⟩ := (mem_rangeBits _ _).mp member
          rw [mem_rangeBits]
          simp only [isBetween, Bool.and_eq_true, decide_eq_true_eq] at within
          unfold width at below
          unfold bitAt width
          simp only at below ⊢
          by_cases descending : busMSB > busLSB
          · refine ⟨(busMSB - (if msb > lsb then msb - p else msb + p)).natAbs, ?_, ?_⟩
            · split <;> omega
            · split <;> split <;> omega
          · refine ⟨((if msb > lsb then msb - p else msb + p) - busMSB).natAbs, ?_, ?_⟩
            · split <;> omega
            · split <;> split <;> omega
      · cases slice

/-! ### What is claimed -/

/-- The bit at each place of one list is on the bit at the same place of the other one, and nothing else is connected
in another way. -/
structure PairsUp (component : Int → Component) (t : Entry TermData) (e : Entry NetData) (termBits netBits : List Int)
    (d d' : Design) : Prop where
  frame : d' = { d with links := d'.links }
  linked : ∀ c n, c ∈ d'.links.components n ↔ d'.links.netOf c = some n
  paired : ∀ (p : Nat) (bit netBit : Int), termBits[p]? = some bit → netBits[p]? = some netBit →
    bit ∈ t.data.getBits → d'.links.netOf (component bit) = World.getNetBit e netBit
  others : ∀ c, (∀ bit ∈ termBits, bit ∈ t.data.getBits → c ≠ component bit) → d'.links.netOf c = d.links.netOf c

/-- The terminal of a bit, in the slot of its flat ID. -/
def terminalOf (inst : Address) (t : Entry TermData) (bit : Int) : Component :=
  .instTerm inst (t.data.flatID + position t.data.range bit)

section moves
variable (w : World) (component : Int → Component) (t : Entry TermData) (e : Entry NetData) (termBits netBits : List Int)

/-- The connections, in the order of the loop. -/
def pairMoves : List (Component × Option BitNet) :=
  ((termBits.zip netBits).filter (fun pair => pair.1 ∈ t.data.getBits)).map
    (fun pair => (component pair.1, World.getNetBit e pair.2))

variable (apart : ∀ bit ∈ t.data.getBits, ∀ bit' ∈ t.data.getBits, component bit = component bit' → bit = bit')
  (distinct : termBits.Nodup) (lengths : termBits.length = netBits.length)
include apart distinct lengths

theorem pairMoves_distinct : ((pairMoves component t e termBits netBits).map Prod.fst).Nodup := by
  have firsts : (((termBits.zip netBits).filter (fun pair => pair.1 ∈ t.data.getBits)).map Prod.fst).Nodup := by
    apply List.Nodup.sublist ((List.filter_sublist).map Prod.fst)
    rw [List.map_fst_zip (Nat.le_of_eq lengths)]
    exact distinct
  unfold pairMoves
  rw [List.map_map]
  have split : (Prod.fst ∘ fun pair : Int × Int => (component pair.1, World.getNetBit e pair.2)) =
      component ∘ Prod.fst := rfl
  rw [split, ← List.map_map]
  refine firsts.map_on ?_
  intro bit inBits bit' inBits' same
  obtain ⟨pair, member, rfl⟩ := List.mem_map.mp inBits
  obtain ⟨pair', member', rfl⟩ := List.mem_map.mp inBits'
  exact apart _ (by simpa using (List.mem_filter.mp member).2) _ (by simpa using (List.mem_filter.mp member').2) same

/-- The net of a bit after all the connections. -/
theorem netOf_pairMoves (d : Design) (p : Nat) (bit netBit : Int) (here : termBits[p]? = some bit)
    (there : netBits[p]? = some netBit) (inside : bit ∈ t.data.getBits) :
    (w.setNets d (pairMoves component t e termBits netBits)).links.netOf (component bit) = World.getNetBit e netBit := by
  have member : (component bit, World.getNetBit e netBit) ∈ pairMoves component t e termBits netBits := by
    refine List.mem_map.mpr ⟨(bit, netBit), List.mem_filter.mpr ⟨?_, by simpa using inside⟩, rfl⟩
    exact List.mem_of_getElem? (List.getElem?_zip_eq_some.mpr ⟨here, there⟩)
  have last := (lastNet_iff _ (pairMoves_distinct component t e termBits netBits apart distinct lengths) _ _).mpr member
  rw [netOf_setNets, last]
  rfl

theorem pairsUp_setNets (d : Design)
    (linked : (w.setNets d (pairMoves component t e termBits netBits)).links.Paired) :
    PairsUp component t e termBits netBits d (w.setNets d (pairMoves component t e termBits netBits)) := by
  refine ⟨setNets_frame w d _, linked.iff, ?_, ?_⟩
  · intro p bit netBit here there inside
    exact netOf_pairMoves w component t e termBits netBits apart distinct lengths d p bit netBit here there inside
  · intro c outside
    rw [netOf_setNets, lastNet_none]
    · rfl
    · intro member
      obtain ⟨move, inMoves, rfl⟩ := List.mem_map.mp member
      obtain ⟨pair, inPairs, rfl⟩ := List.mem_map.mp inMoves
      obtain ⟨inZip, inside⟩ := List.mem_filter.mp inPairs
      exact outside pair.1 (List.of_mem_zip inZip).1 (by simpa using inside) rfl

end moves

/-! ### Bus terms -/

theorem setBusTermNet_pairs (w : World) (whole : w.Sound) (k : Nat) (d : Design) (found : w.designs[k]? = some d)
    (term : Address) (t : Entry TermData) (foundTerm : d.terms.entry term = some t) (net : Address) (e : Entry NetData)
    (foundNet : d.nets.entry net = some e) (widths : width t.data.range = width e.data.range) :
    ∃ d', w.setBusTermNet k term (some (.bus k net)) = .done (w.setDesign k d') ∧
      PairsUp (fun bit => .bitTerm ⟨t.object, bit⟩) t e (rangeBits t.data.range) (rangeBits e.data.range) d d' := by
  have moves : ((rangeBits t.data.range).zip (rangeBits e.data.range)).filterMap (fun pair =>
      (World.getTermBit t pair.1).map (fun b => (Component.bitTerm b, World.getNetBit e pair.2))) =
      pairMoves (fun bit => .bitTerm ⟨t.object, bit⟩) t e (rangeBits t.data.range) (rangeBits e.data.range) := by
    unfold pairMoves
    rw [← List.filterMap_eq_map, List.filterMap_filter]
    refine List.filterMap_congr ?_
    intro pair _
    unfold World.getTermBit
    by_cases inside : pair.1 ∈ t.data.getBits <;> simp [inside]
  have result : w.setBusTermNet k term (some (.bus k net)) = .done (w.setDesign k (w.setNets d
      (pairMoves (fun bit => .bitTerm ⟨t.object, bit⟩) t e (rangeBits t.data.range) (rangeBits e.data.range)))) := by
    unfold World.setBusTermNet
    rw [found]
    simp only [foundTerm, World.NetArgument.design, ne_eq, not_true_eq_false, if_false, foundNet, widths]
    exact congrArg (fun pairs => Outcome.done (w.setDesign k (w.setNets d pairs))) moves
  have after := setBusTermNet_sound w whole k term (some (.bus k net))
  rw [result] at after
  refine ⟨_, result, ?_⟩
  apply pairsUp_setNets
  · intro bit _ bit' _ same
    exact congrArg BitTerm.bit (Component.bitTerm.inj same)
  · exact rangeBits_nodup _
  · simp only [rangeBits, List.length_map, List.length_range, widths]
  · exact (after k _ (List.getElem?_set_self (List.getElem?_eq_some_iff.mp found).1)).links

/-! ### Terminals of instances -/

def HasTerminal (i : Entry InstData) (t : Entry TermData) (bit : Int) : Prop :=
  ∃ b, i.data.table[t.data.flatID + position t.data.range bit]? = some (some b)

theorem object_of_entry {α : Type} (r : Index α) (object : Nat) (e : Entry α) (found : r.entry object = some e) :
    e.object = object := by simpa using List.find?_some found

section terminals
variable (w : World) (k : Nat) (inst : Address) (m : Nat) (i : Entry InstData) (ofModel : i.data.model = m)
  (model : Design) (foundModel : w.designs[m]? = some model) (term : Address) (t : Entry TermData)
  (foundTerm : model.terms.entry term = some t) (net : Address) (e : Entry NetData)
include ofModel foundModel foundTerm

/-- The loop over pairs of a term bit and a net bit. -/
theorem setTermsNets_done_iff (pairs : List (Int × Int)) (d : Design) (foundInst : d.instances.entry inst = some i)
    (foundNet : d.nets.entry net = some e) (w' : World) :
    w.setTermsNets k inst d (pairs.map (fun pair =>
        ((World.getTermBit t pair.1).map (fun b => (m, b)), (World.getNetBit e pair.2).map (fun n => (k, n))))) = .done w' ↔
      (∀ pair ∈ pairs, pair.1 ∈ t.data.getBits ∧ HasTerminal i t pair.1) ∧
        w' = w.setDesign k (w.setNets d (pairs.map (fun pair => (terminalOf inst t pair.1, World.getNetBit e pair.2)))) := by
  induction pairs generalizing d with
  | nil => simp [World.setTermsNets, World.setNets, eq_comm]
  | cons pair rest ih =>
      obtain ⟨bit, netBit⟩ := pair
      rw [List.map_cons]
      by_cases inside : bit ∈ t.data.getBits
      · have isTerm : World.getTermBit t bit = some ⟨t.object, bit⟩ := if_pos inside
        have flat : ((w.designs[m]?).bind (fun model => model.getFlatID ⟨t.object, bit⟩)) =
            some (t.data.flatID + position t.data.range bit) := by
          rw [foundModel, Option.bind_some, Design.getFlatID, object_of_entry _ _ _ foundTerm, foundTerm]
          rfl
        have sameDesign : ((World.getNetBit e netBit).map (fun n => (k, n))).any (fun n => n.1 != k) = false := by
          cases World.getNetBit e netBit <;> simp
        have held : ((World.getNetBit e netBit).map (fun n => (k, n))).all (fun n => World.holdsBitNet d n.2) = true := by
          unfold World.getNetBit
          by_cases isNet : netBit ∈ e.data.getBits
          · rw [if_pos isNet]
            simp [World.holdsBitNet, object_of_entry _ _ _ foundNet, foundNet, isNet]
          · rw [if_neg isNet]
            rfl
        have named : ((World.getNetBit e netBit).map (fun n => (k, n))).map Prod.snd = World.getNetBit e netBit := by
          rw [Option.map_map]
          exact Option.map_id_apply
        rw [isTerm]
        simp only [Option.map_some]
        unfold World.setTermsNets
        simp only [foundInst]
        rw [if_neg (not_not.mpr ofModel), sameDesign, if_neg (by decide), flat, Option.bind_some]
        by_cases filled : HasTerminal i t bit
        · obtain ⟨b, there⟩ := filled
          rw [there]
          simp only [Option.join_some, Option.map_some, held, if_true]
          rw [named]
          change w.setTermsNets k inst (w.setNet d (terminalOf inst t bit) (World.getNetBit e netBit)) _ = _ ↔ _
          rw [ih (w.setNet d (terminalOf inst t bit) (World.getNetBit e netBit)) foundInst foundNet]
          constructor
          · intro both
            refine ⟨?_, both.2⟩
            intro pair member
            rcases List.mem_cons.mp member with rfl | later
            · exact ⟨inside, b, there⟩
            · exact both.1 pair later
          · intro both
            exact ⟨fun pair later => both.1 pair (List.mem_cons_of_mem _ later), both.2⟩
        · have empty : (i.data.table[t.data.flatID + position t.data.range bit]?).join = none := by
            rw [← Option.not_isSome_iff_eq_none, Option.isSome_iff_exists]
            intro found
            obtain ⟨b, joined⟩ := found
            exact filled ⟨b, Option.join_eq_some_iff.mp joined⟩
          rw [empty]
          refine iff_of_false nofun ?_
          intro both
          exact filled (both.1 (bit, netBit) List.mem_cons_self).2
      · have isNone : World.getTermBit t bit = none := if_neg inside
        rw [isNone]
        refine iff_of_false nofun ?_
        intro both
        exact inside (both.1 (bit, netBit) List.mem_cons_self).1

/-- `setTermNet` over bits of a term and bits of a net of the design of the instance. -/
theorem setTermNet_done_iff (d : Design) (found : w.designs[k]? = some d) (foundInst : d.instances.entry inst = some i)
    (foundNet : d.nets.entry net = some e) (termBits netBits : List Int) (w' : World) :
    w.setTermNet k inst m term termBits (some (k, net)) netBits = .done w' ↔
      termBits.length = netBits.length ∧ (∀ bit ∈ termBits, bit ∈ t.data.getBits ∧ HasTerminal i t bit) ∧
        w' = w.setDesign k (w.setNets d (pairMoves (terminalOf inst t) t e termBits netBits)) := by
  unfold World.setTermNet
  rw [foundModel, Option.bind_some, foundTerm, found]
  simp only
  rw [found, Option.bind_some, foundNet]
  simp only [List.length_map]
  by_cases lengths : termBits.length = netBits.length
  · have zipped : (termBits.map (fun bit => (World.getTermBit t bit).map (fun b => (m, b)))).zip
        (netBits.map (fun bit => (World.getNetBit e bit).map (fun n => (k, n)))) = (termBits.zip netBits).map (fun pair =>
          ((World.getTermBit t pair.1).map (fun b => (m, b)), (World.getNetBit e pair.2).map (fun n => (k, n)))) :=
      List.zip_map ..
    rw [if_neg (not_not.mpr lengths), zipped, setTermsNets_done_iff w k inst m i ofModel model foundModel term t
      foundTerm net e (termBits.zip netBits) d foundInst foundNet w']
    have firsts (p : Int → Prop) : (∀ pair ∈ termBits.zip netBits, p pair.1) ↔ ∀ bit ∈ termBits, p bit := by
      constructor
      · intro all bit member
        rw [← List.map_fst_zip (Nat.le_of_eq lengths)] at member
        obtain ⟨pair, inZip, rfl⟩ := List.mem_map.mp member
        exact all pair inZip
      · intro all pair inZip
        exact all pair.1 (List.of_mem_zip inZip).1
    rw [firsts (fun bit => bit ∈ t.data.getBits ∧ HasTerminal i t bit)]
    simp only [lengths, true_and]
    refine and_congr_right ?_
    intro ready
    have all : (termBits.zip netBits).filter (fun pair => decide (pair.1 ∈ t.data.getBits)) = termBits.zip netBits := by
      rw [List.filter_eq_self]
      intro pair member
      exact decide_eq_true (ready pair.1 (List.of_mem_zip member).1).1
    unfold pairMoves
    rw [all]
  · rw [if_pos lengths]
    exact iff_of_false nofun (fun both => lengths both.1)

end terminals

theorem mem_range_of_getBits (t : TermData) (bit : Int) (inside : bit ∈ t.getBits) : bit ∈ rangeBits t.range :=
  List.mem_of_mem_filter inside

theorem terminalOf_injective (inst : Address) (t : Entry TermData) (bit : Int) (inside : bit ∈ t.data.getBits) (bit' : Int)
    (inside' : bit' ∈ t.data.getBits) (same : terminalOf inst t bit = terminalOf inst t bit') : bit = bit' := by
  have slots := (Component.instTerm.inj same).2
  exact position_injective t.data.range bit bit' (mem_range_of_getBits _ _ inside) (mem_range_of_getBits _ _ inside')
    (Nat.add_left_cancel slots)

theorem setDesign_injective (w : World) (k : Nat) (d d' d'' : Design) (found : w.designs[k]? = some d)
    (same : w.setDesign k d' = w.setDesign k d'') : d' = d'' := by
  have inside := (List.getElem?_eq_some_iff.mp found).1
  have left : (w.setDesign k d').designs[k]? = some d' := List.getElem?_set_self inside
  have right : (w.setDesign k d'').designs[k]? = some d'' := List.getElem?_set_self inside
  rw [same, right] at left
  exact (Option.some.inj left).symm

/-- The slice that `setTermNet` computes for the term has its first bits. -/
theorem sliceOf_take (msb lsb : Int) (size : Nat) (positive : 0 < size) (fits : size ≤ width (some (msb, lsb))) :
    sliceOf (some (msb, lsb)) msb (if msb < lsb then msb + size - 1 else msb - size + 1) =
      some ((rangeBits (some (msb, lsb))).take size) := by
  unfold width at fits
  simp only at fits
  have within : isBetween msb msb lsb = true ∧
      isBetween (if msb < lsb then msb + size - 1 else msb - size + 1) msb lsb = true := by
    simp only [isBetween, Bool.and_eq_true, decide_eq_true_eq]
    split <;> omega
  have length : width (some (msb, if msb < lsb then msb + size - 1 else msb - size + 1)) = size := by
    unfold width
    simp only
    split <;> omega
  unfold sliceOf
  simp only
  rw [if_pos within]
  congr 1
  apply List.ext_getElem?
  intro p
  by_cases below : p < size
  · rw [List.getElem?_take_of_lt below, getElem?_rangeBits _ _ (by rw [length]; exact below), getElem?_rangeBits]
    · unfold bitAt
      simp only
      congr 1
      by_cases ascending : msb < lsb
      · rw [if_pos ascending, if_neg (show ¬msb > lsb by omega), if_neg (by omega)]
      · rw [if_neg ascending]
        split <;> split <;> omega
    · unfold width
      simp only
      omega
  · rw [List.getElem?_eq_none, List.getElem?_eq_none]
    · rw [List.length_take]
      omega
    · rw [rangeBits, List.length_map, List.length_range, length]
      omega

theorem length_of_sliceOf (range : Option (Int × Int)) (msb lsb : Int) (bits : List Int)
    (slice : sliceOf range msb lsb = some bits) : bits.length = width (some (msb, lsb)) := by
  unfold sliceOf at slice
  split at slice
  · split at slice
    · next same =>
        obtain rfl := Option.some.inj slice
        simp [width, same]
    · cases slice
  · split at slice
    · obtain rfl := Option.some.inj slice
      simp [rangeBits]
    · cases slice

/-- The positions of the bits that are left. -/
def placesLeft (range : Option (Int × Int)) (removed : List Int) : List Nat :=
  (List.range (width range)).filter (fun p => bitAt range p ∉ removed)

theorem mem_placesLeft (range : Option (Int × Int)) (removed : List Int) (p : Nat) :
    p ∈ placesLeft range removed ↔ p < width range ∧ bitAt range p ∉ removed := by
  simp [placesLeft]

theorem getBits_eq (t : TermData) : t.getBits = (placesLeft t.range t.removed).map (bitAt t.range) := by
  rw [TermData.getBits, rangeBits, placesLeft, List.filter_map]
  rfl

theorem getBits_netEq (n : NetData) : n.getBits = (placesLeft n.range n.removed).map (bitAt n.range) := by
  rw [NetData.getBits, rangeBits, placesLeft, List.filter_map]
  rfl

/-- The bits that are destroyed have the same positions in both. -/
def SameHoles (t : Entry TermData) (e : Entry NetData) : Prop :=
  ∀ p < width t.data.range, bitAt t.data.range p ∈ t.data.getBits ↔ bitAt e.data.range p ∈ e.data.getBits

theorem sameHoles_iff (t : Entry TermData) (e : Entry NetData) (widths : width t.data.range = width e.data.range) :
    SameHoles t e ↔ placesLeft t.data.range t.data.removed = placesLeft e.data.range e.data.removed := by
  have left (p : Nat) (below : p < width t.data.range) : bitAt t.data.range p ∈ t.data.getBits ↔
      bitAt t.data.range p ∉ t.data.removed := by
    rw [TermData.getBits, List.mem_filter, decide_eq_true_eq]
    exact and_iff_right ((mem_rangeBits _ _).mpr ⟨p, below, rfl⟩)
  have right (p : Nat) (below : p < width e.data.range) : bitAt e.data.range p ∈ e.data.getBits ↔
      bitAt e.data.range p ∉ e.data.removed := by
    rw [NetData.getBits, List.mem_filter, decide_eq_true_eq]
    exact and_iff_right ((mem_rangeBits _ _).mpr ⟨p, below, rfl⟩)
  constructor
  · intro holes
    unfold placesLeft
    rw [← widths]
    refine List.filter_congr ?_
    intro p member
    have below := List.mem_range.mp member
    have same := holes p below
    rw [left p below, right p (widths ▸ below)] at same
    exact decide_eq_decide.mpr same
  · intro places p below
    have same := iff_of_eq (congrArg (p ∈ ·) places)
    rw [mem_placesLeft, mem_placesLeft, ← widths] at same
    rw [left p below, right p (widths ▸ below)]
    simpa only [below, true_and] using same

section overloads
variable (w : World) (whole : w.Sound) (k : Nat) (d : Design) (found : w.designs[k]? = some d) (inst : Address)
  (i : Entry InstData) (foundInst : d.instances.entry inst = some i) (m : Nat) (ofModel : i.data.model = m)
  (model : Design) (foundModel : w.designs[m]? = some model) (term : Address) (t : Entry TermData)
  (foundTerm : model.terms.entry term = some t) (net : Address) (e : Entry NetData)
  (foundNet : d.nets.entry net = some e)
include whole found foundInst ofModel foundModel foundTerm foundNet

/-- Bits of the term that are all there are paired with bits of the net. -/
theorem setTermNet_pairs_iff (termBits netBits : List Int) (distinct : termBits.Nodup)
    (lengths : termBits.length = netBits.length) :
    (∃ d', w.setTermNet k inst m term termBits (some (k, net)) netBits = .done (w.setDesign k d') ∧
        PairsUp (terminalOf inst t) t e termBits netBits d d') ↔
      ∀ bit ∈ termBits, bit ∈ t.data.getBits ∧ HasTerminal i t bit := by
  have exact := setTermNet_done_iff w k inst m i ofModel model foundModel term t foundTerm net e d found foundInst
    foundNet termBits netBits
  constructor
  · intro pairs
    obtain ⟨d', result, -⟩ := pairs
    exact ((exact _).mp result).2.1
  · intro ready
    have result := (exact _).mpr ⟨lengths, ready, rfl⟩
    have after := setTermNet_sound w whole k inst m term termBits (some (k, net)) netBits
    rw [result] at after
    refine ⟨_, result, ?_⟩
    apply pairsUp_setNets w (terminalOf inst t) t e termBits netBits (terminalOf_injective inst t) distinct lengths
    exact (after k _ (List.getElem?_set_self (List.getElem?_eq_some_iff.mp found).1)).links

theorem setSliceTermNet_iff (termMSB termLSB netMSB netLSB : Int) (termBits netBits : List Int)
    (termSlice : sliceOf t.data.range termMSB termLSB = some termBits)
    (netSlice : sliceOf e.data.range netMSB netLSB = some netBits) (lengths : termBits.length = netBits.length) :
    (∃ d', w.setSliceTermNet k inst m term termMSB termLSB k net netMSB netLSB = .done (w.setDesign k d') ∧
        PairsUp (terminalOf inst t) t e termBits netBits d d') ↔
      ∀ bit ∈ termBits, bit ∈ t.data.getBits ∧ HasTerminal i t bit := by
  have unfolded : w.setSliceTermNet k inst m term termMSB termLSB k net netMSB netLSB =
      w.setTermNet k inst m term termBits (some (k, net)) netBits := by
    unfold World.setSliceTermNet
    rw [foundModel, Option.bind_some, foundTerm, found, Option.bind_some, foundNet]
    simp only [termSlice, netSlice]
  rw [unfolded]
  exact setTermNet_pairs_iff w whole k d found inst i foundInst m ofModel model foundModel term t foundTerm net e foundNet
    termBits netBits (mem_of_sliceOf _ _ _ _ termSlice).1 lengths

theorem setTermNetSlice_iff (netMSB netLSB : Int) (netBits : List Int)
    (netSlice : sliceOf e.data.range netMSB netLSB = some netBits) (fits : netBits.length ≤ width t.data.range) :
    (∃ d', w.setTermNetSlice k inst m term k net netMSB netLSB = .done (w.setDesign k d') ∧
        PairsUp (terminalOf inst t) t e ((rangeBits t.data.range).take netBits.length) netBits d d') ↔
      ∀ bit ∈ (rangeBits t.data.range).take netBits.length, bit ∈ t.data.getBits ∧ HasTerminal i t bit := by
  have size := length_of_sliceOf e.data.range netMSB netLSB netBits netSlice
  have positive : 0 < netBits.length := by
    rw [size]
    exact Nat.succ_pos _
  have lengths : ((rangeBits t.data.range).take netBits.length).length = netBits.length := by
    rw [List.length_take, rangeBits, List.length_map, List.length_range]
    exact Nat.min_eq_left fits
  unfold World.setTermNetSlice
  rw [foundModel, Option.bind_some, foundTerm]
  simp only
  cases range : t.data.range with
  | none =>
      rw [range] at fits lengths
      have one : netBits.length = 1 := Nat.le_antisymm fits positive
      have slice : sliceOf t.data.range 0 0 = some ((rangeBits none).take netBits.length) := by
        rw [range, one]
        rfl
      exact setSliceTermNet_iff w whole k d found inst i foundInst m ofModel model foundModel term t foundTerm net e foundNet
        0 0 netMSB netLSB _ netBits slice netSlice lengths
  | some bus =>
      obtain ⟨msb, lsb⟩ := bus
      rw [range] at fits lengths
      have slice := sliceOf_take msb lsb netBits.length positive fits
      rw [← range] at slice
      simp only
      rw [← size]
      exact setSliceTermNet_iff w whole k d found inst i foundInst m ofModel model foundModel term t foundTerm net e foundNet
        msb _ netMSB netLSB _ netBits (by rw [slice, range]) netSlice lengths

/-- The overload for a whole term and a whole net pairs bits by position exactly when both lack the same positions. -/
theorem setWholeTermNet_iff (widths : width t.data.range = width e.data.range) :
    (∃ d', w.setWholeTermNet k inst m term k net = .done (w.setDesign k d') ∧
        PairsUp (terminalOf inst t) t e (rangeBits t.data.range) (rangeBits e.data.range) d d') ↔
      SameHoles t e ∧ ∀ bit ∈ t.data.getBits, HasTerminal i t bit := by
  have unfolded : w.setWholeTermNet k inst m term k net =
      w.setTermNet k inst m term t.data.getBits (some (k, net)) e.data.getBits := by
    unfold World.setWholeTermNet
    rw [foundModel, Option.bind_some, foundTerm, found, Option.bind_some, foundNet]
    simp only [widths, ne_eq, not_true_eq_false, if_false]
  have distinct : t.data.getBits.Nodup := (rangeBits_nodup _).filter _
  rw [unfolded, sameHoles_iff t e widths]
  constructor
  · intro pairs
    obtain ⟨d', result, pairsUp⟩ := pairs
    obtain ⟨lengths, ready, same⟩ := (setTermNet_done_iff w k inst m i ofModel model foundModel term t foundTerm net e d
      found foundInst foundNet _ _ _).mp result
    obtain rfl := setDesign_injective w k d d' _ found same
    refine ⟨?_, fun bit inside => (ready bit inside).2⟩
    rw [getBits_eq, getBits_netEq, List.length_map, List.length_map] at lengths
    apply List.ext_getElem?
    intro j
    by_cases below : j < (placesLeft t.data.range t.data.removed).length
    · obtain ⟨p, here⟩ : ∃ p, (placesLeft t.data.range t.data.removed)[j]? = some p := ⟨_, List.getElem?_eq_getElem below⟩
      obtain ⟨q, there⟩ : ∃ q, (placesLeft e.data.range e.data.removed)[j]? = some q :=
        ⟨_, List.getElem?_eq_getElem (lengths ▸ below)⟩
      obtain ⟨pBelow, pLeft⟩ := (mem_placesLeft _ _ p).mp (List.mem_of_getElem? here)
      obtain ⟨qBelow, qLeft⟩ := (mem_placesLeft _ _ q).mp (List.mem_of_getElem? there)
      have bitHere : t.data.getBits[j]? = some (bitAt t.data.range p) := by
        rw [getBits_eq, List.getElem?_map, here]
        rfl
      have bitThere : e.data.getBits[j]? = some (bitAt e.data.range q) := by
        rw [getBits_netEq, List.getElem?_map, there]
        rfl
      have inside := List.mem_of_getElem? bitHere
      have isNet := netOf_pairMoves w (terminalOf inst t) t e _ _ (terminalOf_injective inst t) distinct
        (by rw [getBits_eq, getBits_netEq, List.length_map, List.length_map, lengths]) d j _ _ bitHere bitThere inside
      have claimed := pairsUp.paired p _ _ (getElem?_rangeBits _ p pBelow) (getElem?_rangeBits _ p (widths ▸ pBelow)) inside
      rw [isNet] at claimed
      unfold World.getNetBit at claimed
      rw [if_pos (List.mem_of_getElem? bitThere)] at claimed
      split at claimed
      · have bits := congrArg BitNet.bit (Option.some.inj claimed)
        have places := bitAt_injective e.data.range q p qBelow (widths ▸ pBelow) bits
        rw [here, there, places]
      · cases claimed
    · rw [List.getElem?_eq_none (Nat.le_of_not_lt below), List.getElem?_eq_none (lengths ▸ Nat.le_of_not_lt below)]
  · intro both
    obtain ⟨places, filled⟩ := both
    have lengths : t.data.getBits.length = e.data.getBits.length := by
      rw [getBits_eq, getBits_netEq, places, List.length_map, List.length_map]
    obtain ⟨d', result, pairsUp⟩ := (setTermNet_pairs_iff w whole k d found inst i foundInst m ofModel model foundModel term t
      foundTerm net e foundNet t.data.getBits e.data.getBits distinct lengths).mpr (fun bit inside => ⟨inside, filled bit inside⟩)
    refine ⟨d', result, pairsUp.frame, pairsUp.linked, ?_, ?_⟩
    · intro p bit netBit here there inside
      have below : p < width t.data.range := by
        have bound := (List.getElem?_eq_some_iff.mp here).1
        rwa [rangeBits, List.length_map, List.length_range] at bound
      obtain rfl := Option.some.inj ((getElem?_rangeBits _ p below).symm.trans here)
      obtain rfl := Option.some.inj ((getElem?_rangeBits _ p (widths ▸ below)).symm.trans there)
      rw [getBits_eq] at inside
      obtain ⟨p', left, same⟩ := List.mem_map.mp inside
      have isPlace := bitAt_injective _ p' p ((mem_placesLeft _ _ p').mp left).1 below same
      subst isPlace
      obtain ⟨j, at_⟩ := List.mem_iff_getElem?.mp left
      apply pairsUp.paired j
      · rw [getBits_eq, List.getElem?_map, at_]
        rfl
      · rw [getBits_netEq, ← places, List.getElem?_map, at_]
        rfl
      · rw [getBits_eq]
        exact inside
    · intro c outside
      apply pairsUp.others c
      intro bit inside _
      exact outside bit (mem_range_of_getBits _ _ inside) inside

end overloads

end Naja.Netlist

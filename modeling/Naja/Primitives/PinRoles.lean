import Naja.Primitives.NLDB0

/-! Which pins a built-in truth table talks about. A table names its inputs only
through a set of order IDs, read back in increasing order: for every family but
the wide multiplexers that list is exactly the list of pins the function of the
table is defined on. -/

namespace Naja.Primitives.PinRoles
open Naja.TruthTable Naja.TruthTable.BitDependencies NLDB0

/-- The pins of output bit `o`, in the order its table reads them. Nothing documents the
layout of a table select: the `DATA` column is read from the last row, then `ADDR`. -/
def tableInputs (p : Signature) (o : BitTerm) : List BitTerm :=
  match p with
  | .assign => [(input 0 1).getBit 0]
  | .fa => [(input 0 1).getBit 0, (input 1 1).getBit 0, (input 2 1).getBit 0]
  | .nInputGate _ nbInputs => (input 1 nbInputs).getBits
  | .nOutputGate _ _ => [(input 1 1).getBit 0]
  | .mux2 width =>
      [(input 0 width).getBit o.bit, (input 1 width).getBit o.bit, (input 2 1).getBit 0]
  | .tableSelect width depth abits =>
      (input 0 (width * depth)).getBits.filter (fun t => t.bit % width = o.bit) ++
        (input 1 abits).getBits
  | .divMod width _ => (input 0 width).getBits ++ (input 1 width).getBits
  | .addSub width _ => (input 0 width).getBits ++ (input 1 width).getBits
  | .multiply width => (input 0 width).getBits ++ (input 1 width).getBits
  | .shift width countWidth _ _ => (input 0 width).getBits ++ (input 1 countWidth).getBits
  | .vectorSelect width _ abits _ => (input 0 width).getBits ++ (input 1 abits).getBits
  | .vectorUpdate width updateWidth abits _ =>
      (input 0 width).getBit o.bit ::
        ((input 1 updateWidth).getBits ++ (input 2 abits).getBits ++ [(input 3 1).getBit 0])

def gateValue : GateType → List Bool → Bool
  | .And, inputs => inputs.all id
  | .Nand, inputs => !inputs.all id
  | .Or, inputs => inputs.any id
  | .Nor, inputs => !inputs.any id
  | .Xor, inputs => inputs.foldl xor false
  | .Xnor, inputs => !inputs.foldl xor false
  | .Buf, inputs => inputs.headD false
  | .Not, inputs => !inputs.headD false

/-- What the primitive computes at `o` from pin values, for the families whose table is a
mask or a gate. -/
def primitiveValue (p : Signature) (o : BitTerm) (value : BitTerm → Bool) : Option Bool :=
  match p with
  | .assign => some (value ((input 0 1).getBit 0))
  | .fa =>
      let a := value ((input 0 1).getBit 0)
      let b := value ((input 1 1).getBit 0)
      let ci := value ((input 2 1).getBit 0)
      some (if o.id = 3 then (a ^^ b) ^^ ci else (a && b) || (ci && (a || b)))
  | .nInputGate type nbInputs => some (gateValue type ((input 1 nbInputs).getBits.map value))
  | .nOutputGate type _ => some (gateValue type [value ((input 1 1).getBit 0)])
  | .mux2 width =>
      some (if value ((input 2 1).getBit 0) then value ((input 1 width).getBit o.bit)
        else value ((input 0 width).getBit o.bit))
  | _ => none

/-- Row of an explicit table: input `j` is bit `j` of the index. -/
def rowIndex (inputs : List Bool) : Nat := inputs.foldr (fun b row => b.toNat + 2 * row) 0

/-- The value of a mask or gate table on a list of inputs. -/
def evaluate (table : SNLTruthTable) (inputs : List Bool) : Option Bool :=
  match table.genericType with
  | .NONE => some (table.bits.bit (rowIndex inputs))
  | .AND => some (gateValue .And inputs)
  | .NAND => some (gateValue .Nand inputs)
  | .OR => some (gateValue .Or inputs)
  | .NOR => some (gateValue .Nor inputs)
  | .XOR => some (gateValue .Xor inputs)
  | .XNOR => some (gateValue .Xnor inputs)
  | _ => none

/-- The table of `o` describes the right pins. -/
structure DescribesPins (p : Signature) (o : BitTerm) (table : SNLTruthTable) : Prop where
  arcs : ∀ position, position ∈ decodeBits table.dependencies ↔
    ∃ pin ∈ getBitTerms p, (pin, o) ∈ combinatorialArcs p ∧ getOrderID p pin = position
  layout : (decodeBits table.dependencies).map (fun position => (getBitTerms p)[position]?) =
    (tableInputs p o).map some
  function : ∀ value : BitTerm → Bool,
    evaluate table ((tableInputs p o).map value) = primitiveValue p o value

theorem getBitTerms_nodup (p : Signature) : (getBitTerms p).Nodup := by
  apply bitTermsOf_nodup
  cases p <;> simp [getTerms, input, output]

def outputBits (p : Signature) : List BitTerm :=
  bitTermsOf ((getTerms p).filter (fun term => term.direction = .Output))

theorem mem_outputBits (p : Signature) (o : BitTerm) (member : o ∈ getBitTerms p)
    (isOutput : o.direction = .Output) : o ∈ outputBits p := by
  obtain ⟨term, inTerms, inBits⟩ := List.mem_flatMap.mp member
  have direction : term.direction = .Output := by
    rw [((term.mem_getBits o).mp inBits).2] at isOutput
    exact isOutput
  exact List.mem_flatMap.mpr ⟨term, List.mem_filter.mpr ⟨inTerms, by simp [direction]⟩, inBits⟩

/-- The output bit of a family with one output term. -/
theorem mem_only_output (p : Signature) (o : BitTerm) (member : o ∈ getBitTerms p)
    (isOutput : o.direction = .Output) (term : Term) (only : outputBits p = term.getBits ++ []) :
    o ∈ term.getBits := by
  have out := mem_outputBits p o member isOutput
  rwa [only, List.append_nil] at out

private theorem getBit_sublist (term : Term) (bit : Nat) (bound : bit < term.width) :
    [term.getBit bit].Sublist term.getBits :=
  List.singleton_sublist.mpr (term.getBit_mem bit bound)

theorem tableInputs_sublist (p : Signature) (o : BitTerm) (member : o ∈ getBitTerms p)
    (isOutput : o.direction = .Output) : (tableInputs p o).Sublist (getBitTerms p) := by
  cases p with
  | assign => exact List.Sublist.cons_cons _ (List.nil_sublist _)
  | fa =>
      exact List.Sublist.cons_cons _ (List.Sublist.cons_cons _
        (List.Sublist.cons_cons _ (List.nil_sublist _)))
  | nInputGate type nbInputs =>
      change (input 1 nbInputs).getBits.Sublist ((output 0 1).getBits ++ ((input 1 nbInputs).getBits ++ []))
      rw [List.append_nil]
      exact List.sublist_append_right _ _
  | nOutputGate type nbOutputs =>
      change [(input 1 1).getBit 0].Sublist ((output 0 nbOutputs).getBits ++ ((input 1 1).getBits ++ []))
      exact (getBit_sublist (input 1 1) 0 (by decide)).trans
        ((List.sublist_append_left _ _).trans (List.sublist_append_right _ _))
  | mux2 width =>
      have inside : o.bit < width :=
        ((Term.mem_getBits _ _).mp (mem_only_output _ o member isOutput (output 3 width) rfl)).1
      exact (getBit_sublist (input 0 width) o.bit inside).append
        ((getBit_sublist (input 1 width) o.bit inside).append
          ((getBit_sublist (input 2 1) 0 (by decide)).append (List.nil_sublist _)))
  | tableSelect width depth abits =>
      exact List.filter_sublist.append (List.sublist_append_left _ _)
  | divMod width isSigned => exact (List.Sublist.refl _).append (List.sublist_append_left _ _)
  | addSub width subtract => exact (List.Sublist.refl _).append (List.sublist_append_left _ _)
  | multiply width => exact (List.Sublist.refl _).append (List.sublist_append_left _ _)
  | shift width countWidth right arithmetic =>
      exact (List.Sublist.refl _).append (List.sublist_append_left _ _)
  | vectorSelect width selectWidth abits isSigned =>
      exact (List.Sublist.refl _).append (List.sublist_append_left _ _)
  | vectorUpdate width updateWidth abits isSigned =>
      have inside : o.bit < width :=
        ((Term.mem_getBits _ _).mp (mem_only_output _ o member isOutput (output 4 width) rfl)).1
      have controls : ((input 1 updateWidth).getBits ++ (input 2 abits).getBits ++
          [(input 3 1).getBit 0]).Sublist ((input 1 updateWidth).getBits ++ ((input 2 abits).getBits ++
            ((input 3 1).getBits ++ ((output 4 width).getBits ++ [])))) := by
        rw [List.append_assoc]
        exact (List.Sublist.refl _).append ((List.Sublist.refl _).append
          ((getBit_sublist (input 3 1) 0 (by decide)).trans (List.sublist_append_left _ _)))
      exact (getBit_sublist (input 0 width) o.bit inside).append controls

theorem mem_addCombinatorialArcs (inputs outputs : List BitTerm) (pin o : BitTerm) :
    (pin, o) ∈ addCombinatorialArcs inputs outputs ↔ pin ∈ inputs ∧ o ∈ outputs := by
  simp [addCombinatorialArcs]

/-- Column `bit` of a row-major bus holds the bits `row * width + bit`. -/
theorem mem_column (width depth bit : Nat) (inside : bit < width) (pin : BitTerm) :
    pin ∈ (input 0 (width * depth)).getBits.filter (fun t => t.bit % width = bit) ↔
      ∃ row < depth, (input 0 (width * depth)).getBit (row * width + bit) = pin := by
  rw [List.mem_filter, Term.mem_getBits, decide_eq_true_eq]
  constructor
  · rintro ⟨⟨bound, same⟩, column⟩
    change pin.bit < width * depth at bound
    refine ⟨pin.bit / width, Nat.div_lt_of_lt_mul bound, ?_⟩
    rw [← column, Nat.div_add_mod' pin.bit width]
    exact same.symm
  · rintro ⟨row, bound, rfl⟩
    have last : (row + 1) * width ≤ depth * width := Nat.mul_le_mul_right width bound
    have commuted : width * depth = depth * width := Nat.mul_comm width depth
    refine ⟨⟨?_, rfl⟩, ?_⟩
    · change row * width + bit < width * depth
      rw [Nat.add_mul] at last
      omega
    · change (row * width + bit) % width = bit
      rw [Nat.mul_comm, Nat.mul_add_mod, Nat.mod_eq_of_lt inside]

private theorem mem_arcs_of_mem (inputs outputs : List BitTerm) (pin o : BitTerm)
    (member : o ∈ outputs) : (pin, o) ∈ addCombinatorialArcs inputs outputs ↔ pin ∈ inputs := by
  rw [mem_addCombinatorialArcs, and_iff_left member]

/-- Arcs declared bit by bit: only the group of `o` reaches `o`. -/
private theorem mem_arcs_of_bit (inputs : Nat → List BitTerm) (out : Term) (pin o : BitTerm)
    (member : o ∈ out.getBits) :
    (pin, o) ∈ (List.range out.width).flatMap (fun bit =>
      addCombinatorialArcs (inputs bit) [out.getBit bit]) ↔ pin ∈ inputs o.bit := by
  obtain ⟨bound, place⟩ := (out.mem_getBits o).mp member
  simp only [List.mem_flatMap, List.mem_range, mem_addCombinatorialArcs, List.mem_singleton]
  constructor
  · rintro ⟨bit, -, inInputs, same⟩
    have bits : o.bit = bit := congrArg BitTerm.bit same
    rwa [bits]
  · intro inInputs
    exact ⟨o.bit, bound, inInputs, place⟩

theorem mem_combinatorialArcs (p : Signature) (o pin : BitTerm) (member : o ∈ getBitTerms p)
    (isOutput : o.direction = .Output) :
    (pin, o) ∈ combinatorialArcs p ↔ pin ∈ tableInputs p o := by
  have out := mem_outputBits p o member isOutput
  cases p with
  | assign => exact mem_arcs_of_mem _ _ pin o out
  | fa => exact mem_arcs_of_mem _ _ pin o out
  | nInputGate type nbInputs => exact mem_arcs_of_mem _ _ pin o out
  | nOutputGate type nbOutputs =>
      exact mem_arcs_of_mem _ _ pin o
        (mem_only_output _ o member isOutput (output 0 nbOutputs) rfl)
  | mux2 width =>
      exact mem_arcs_of_bit
        (fun bit => [(input 0 width).getBit bit, (input 1 width).getBit bit, (input 2 1).getBit 0])
        (output 3 width) pin o (mem_only_output _ o member isOutput (output 3 width) rfl)
  | tableSelect width depth abits =>
      have last := mem_only_output _ o member isOutput (output 2 width) rfl
      have inside : o.bit < width := ((Term.mem_getBits _ _).mp last).1
      have arcs := mem_arcs_of_bit
        (fun bit => (input 1 abits).getBits ++ (List.range depth).map (fun row =>
          (input 0 (width * depth)).getBit (row * width + bit))) (output 2 width) pin o last
      refine arcs.trans ?_
      change _ ↔ pin ∈ (input 0 (width * depth)).getBits.filter (fun t => t.bit % width = o.bit) ++
        (input 1 abits).getBits
      rw [List.mem_append, List.mem_append, mem_column width depth o.bit inside, or_comm]
      simp only [List.mem_map, List.mem_range]
  | divMod width isSigned =>
      have last : o ∈ (output 2 width).getBits ++ ((output 3 width).getBits ++ []) := out
      rw [List.append_nil] at last
      exact mem_arcs_of_mem _ _ pin o last
  | addSub width subtract =>
      exact mem_arcs_of_mem _ _ pin o (mem_only_output _ o member isOutput (output 2 width) rfl)
  | multiply width =>
      exact mem_arcs_of_mem _ _ pin o (mem_only_output _ o member isOutput (output 2 width) rfl)
  | shift width countWidth right arithmetic =>
      exact mem_arcs_of_mem _ _ pin o (mem_only_output _ o member isOutput (output 2 width) rfl)
  | vectorSelect width selectWidth abits isSigned =>
      exact mem_arcs_of_mem _ _ pin o
        (mem_only_output _ o member isOutput (output 2 selectWidth) rfl)
  | vectorUpdate width updateWidth abits isSigned =>
      have last := mem_only_output _ o member isOutput (output 4 width) rfl
      simp only [combinatorialArcs, List.mem_flatMap, mem_addCombinatorialArcs, List.mem_singleton]
      constructor
      · rintro ⟨term, -, inInputs, rfl⟩
        exact inInputs
      · intro inInputs
        exact ⟨o, last, inInputs, rfl⟩

/-- Encoding any list of the same pins gives the pins back in table order. -/
theorem decode_pins (p : Signature) (o : BitTerm) (member : o ∈ getBitTerms p)
    (isOutput : o.direction = .Output) (pins : List BitTerm)
    (same : ∀ pin, pin ∈ pins ↔ pin ∈ tableInputs p o) :
    decodeBits (encodeBits (pins.map (getOrderID p))) = (tableInputs p o).map (getOrderID p) := by
  apply decodeBits_encodeBits_eq
  · exact orderID_sorted _ _ (getBitTerms_nodup p) (tableInputs_sublist p o member isOutput)
  · intro position
    simp only [List.mem_map, same]

theorem describes_of_decode (p : Signature) (o : BitTerm) (table : SNLTruthTable)
    (member : o ∈ getBitTerms p) (isOutput : o.direction = .Output)
    (decoded : decodeBits table.dependencies = (tableInputs p o).map (getOrderID p))
    (function : ∀ value : BitTerm → Bool,
      evaluate table ((tableInputs p o).map value) = primitiveValue p o value) :
    DescribesPins p o table := by
  have part := tableInputs_sublist p o member isOutput
  refine ⟨?_, ?_, function⟩
  · intro position
    rw [decoded, List.mem_map]
    constructor
    · rintro ⟨pin, inInputs, same⟩
      exact ⟨pin, part.subset inInputs,
        (mem_combinatorialArcs p o pin member isOutput).mpr inInputs, same⟩
    · rintro ⟨pin, -, arc, same⟩
      exact ⟨pin, (mem_combinatorialArcs p o pin member isOutput).mp arc, same⟩
  · rw [decoded, List.map_map]
    apply List.map_congr_left
    intro pin inInputs
    exact getElem?_orderID _ _ (part.subset inInputs)

/-- When every pin but the outputs is an input of the table, the flat input positions are
its dependencies. -/
theorem decode_inputFlatTermDependencies (p : Signature) (o : BitTerm)
    (member : o ∈ getBitTerms p) (isOutput : o.direction = .Output)
    (all : ∀ pin ∈ getBitTerms p, pin.direction ≠ .Output → pin ∈ tableInputs p o)
    (inputs : ∀ pin ∈ tableInputs p o, pin.direction ≠ .Output) :
    decodeBits (getInputFlatTermDependencies p) = (tableInputs p o).map (getOrderID p) := by
  have part := tableInputs_sublist p o member isOutput
  apply decodeBits_encodeBits_eq
  · exact orderID_sorted _ _ (getBitTerms_nodup p) part
  · intro position
    rw [mem_getInputFlatPositions, List.mem_map]
    constructor
    · rintro ⟨pin, inInputs, rfl⟩
      exact ⟨pin, getElem?_orderID _ _ (part.subset inInputs), inputs pin inInputs⟩
    · rintro ⟨pin, found, direction⟩
      obtain ⟨bound, value⟩ := List.getElem?_eq_some_iff.mp found
      refine ⟨pin, all pin (List.mem_of_getElem? found) direction, ?_⟩
      rw [← value, getOrderID, orderID, (getBitTerms_nodup p).idxOf_getElem]

theorem outputBitOf_orderID (p : Signature) (out : Term) (o : BitTerm) (inOut : o ∈ out.getBits)
    (part : ∀ t ∈ out.getBits, t ∈ getBitTerms p) :
    outputBitOf p out (getOrderID p o) = some o := by
  have inFilter : o ∈ out.getBits.filter (fun t => getOrderID p t == getOrderID p o) :=
    List.mem_filter.mpr ⟨inOut, by simp⟩
  unfold outputBitOf
  cases found : (out.getBits.filter (fun t => getOrderID p t == getOrderID p o)).getLast? with
  | none =>
      rw [List.getLast?_eq_none_iff.mp found] at inFilter
      contradiction
  | some last =>
      have inLast := List.mem_filter.mp (List.mem_of_getLast? found)
      have same : getOrderID p last = getOrderID p o := by simpa using inLast.2
      rw [orderID_injective _ last o (part last inLast.1) (part o inOut) same]

theorem isOutputTerm_orderID (p : Signature) (o : BitTerm) (member : o ∈ getBitTerms p)
    (isOutput : o.direction = .Output) :
    isOutputTerm (getBitTerms p) (getOrderID p o) = true := by
  unfold isOutputTerm getOrderID
  rw [getElem?_orderID _ _ member]
  simp [isOutput]

end Naja.Primitives.PinRoles

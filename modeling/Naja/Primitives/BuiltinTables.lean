import Naja.Primitives.PinRoles

/-! The tables returned for the database primitives, family by family, and the
exact condition under which they describe the right pins: the multiplexer table
names the positions 0, 1 and 2 whatever the width. -/

namespace Naja.Primitives.BuiltinTables
open Naja.TruthTable Naja.TruthTable.BitDependencies NLDB0 PinRoles

/-- The families whose table has no evaluation here. -/
private theorem evaluate_word (table : SNLTruthTable) (inputs : List Bool)
    (word : table.genericType = .TABLE_SELECT ∨ table.genericType = .DIVMOD ∨
      table.genericType = .ADD_SUB ∨ table.genericType = .MULTIPLY ∨ table.genericType = .SHIFT ∨
      table.genericType = .VECTOR_UPDATE ∨ table.genericType = .VECTOR_SELECT) :
    evaluate table inputs = none := by
  unfold evaluate
  rcases word with type | type | type | type | type | type | type <;> rw [type]

theorem assign_table (o : BitTerm) (table : SNLTruthTable) (member : o ∈ getBitTerms .assign)
    (isOutput : o.direction = .Output)
    (returned : getTruthTable .assign (getOrderID .assign o) = .ok table) :
    DescribesPins .assign o table := by
  have read : SNLTruthTable.ofMask 1 0b10 (getInputFlatTermDependencies .assign) = .ok table := returned
  obtain ⟨short, -, -, rfl⟩ := SNLTruthTable.ofMask_spec _ _ _ _ read
  apply describes_of_decode _ _ _ member isOutput
  · apply decode_inputFlatTermDependencies _ _ member isOutput
    · change ∀ pin ∈ getBitTerms .assign, pin.direction ≠ .Output → pin ∈ [(input 0 1).getBit 0]
      decide
    · change ∀ pin ∈ [(input 0 1).getBit 0], pin.direction ≠ .Output
      decide
  · intro value
    change some ((0b10 : Word).getLsbD (rowIndex [value ((input 0 1).getBit 0)])) =
      some (value ((input 0 1).getBit 0))
    cases value ((input 0 1).getBit 0) <;> rfl

private theorem fa_dependencies (o : BitTerm) (member : o ∈ getBitTerms .fa)
    (isOutput : o.direction = .Output) :
    decodeBits (getInputFlatTermDependencies .fa) = (tableInputs .fa o).map (getOrderID .fa) := by
  apply decode_inputFlatTermDependencies _ _ member isOutput
  · change ∀ pin ∈ getBitTerms .fa, pin.direction ≠ .Output →
      pin ∈ [(input 0 1).getBit 0, (input 1 1).getBit 0, (input 2 1).getBit 0]
    decide
  · change ∀ pin ∈ [(input 0 1).getBit 0, (input 1 1).getBit 0, (input 2 1).getBit 0],
      pin.direction ≠ .Output
    decide

theorem fa_table (o : BitTerm) (table : SNLTruthTable) (member : o ∈ getBitTerms .fa)
    (isOutput : o.direction = .Output)
    (returned : getTruthTable .fa (getOrderID .fa o) = .ok table) :
    DescribesPins .fa o table := by
  have outs : o = (output 3 1).getBit 0 ∨ o = (output 4 1).getBit 0 := by
    simpa [outputBits, getTerms, bitTermsOf, Term.getBits, input, output] using
      mem_outputBits .fa o member isOutput
  rcases outs with rfl | rfl
  · have read : SNLTruthTable.ofMask 3 0x96 (getInputFlatTermDependencies .fa) = .ok table := returned
    obtain ⟨short, -, -, rfl⟩ := SNLTruthTable.ofMask_spec _ _ _ _ read
    apply describes_of_decode _ _ _ member isOutput (fa_dependencies _ member isOutput)
    intro value
    change some ((0x96 : Word).getLsbD (rowIndex [value ((input 0 1).getBit 0),
      value ((input 1 1).getBit 0), value ((input 2 1).getBit 0)])) =
      some ((value ((input 0 1).getBit 0) ^^ value ((input 1 1).getBit 0)) ^^
        value ((input 2 1).getBit 0))
    cases value ((input 0 1).getBit 0) <;> cases value ((input 1 1).getBit 0) <;>
      cases value ((input 2 1).getBit 0) <;> rfl
  · have read : SNLTruthTable.ofMask 3 0xE8 (getInputFlatTermDependencies .fa) = .ok table := returned
    obtain ⟨short, -, -, rfl⟩ := SNLTruthTable.ofMask_spec _ _ _ _ read
    apply describes_of_decode _ _ _ member isOutput (fa_dependencies _ member isOutput)
    intro value
    change some ((0xE8 : Word).getLsbD (rowIndex [value ((input 0 1).getBit 0),
      value ((input 1 1).getBit 0), value ((input 2 1).getBit 0)])) =
      some ((value ((input 0 1).getBit 0) && value ((input 1 1).getBit 0)) ||
        (value ((input 2 1).getBit 0) &&
          (value ((input 0 1).getBit 0) || value ((input 1 1).getBit 0))))
    cases value ((input 0 1).getBit 0) <;> cases value ((input 1 1).getBit 0) <;>
      cases value ((input 2 1).getBit 0) <;> rfl

private theorem nInputGate_dependencies (type : GateType) (nbInputs : Nat) (o : BitTerm)
    (member : o ∈ getBitTerms (.nInputGate type nbInputs)) (isOutput : o.direction = .Output) :
    decodeBits (getInputFlatTermDependencies (.nInputGate type nbInputs)) =
      (tableInputs (.nInputGate type nbInputs) o).map (getOrderID (.nInputGate type nbInputs)) := by
  apply decode_inputFlatTermDependencies _ _ member isOutput
  · intro pin inTerms direction
    change pin ∈ (output 0 1).getBits ++ ((input 1 nbInputs).getBits ++ []) at inTerms
    rw [List.append_nil, List.mem_append] at inTerms
    rcases inTerms with inOutput | inInput
    · rw [((Term.mem_getBits _ _).mp inOutput).2] at direction
      exact absurd rfl direction
    · exact inInput
  · intro pin inInput
    rw [((Term.mem_getBits (input 1 nbInputs) _).mp inInput).2]
    exact nofun

theorem nInputGate_table (type : GateType) (nbInputs : Nat) (o : BitTerm) (table : SNLTruthTable)
    (member : o ∈ getBitTerms (.nInputGate type nbInputs)) (isOutput : o.direction = .Output)
    (returned : getTruthTable (.nInputGate type nbInputs)
      (getOrderID (.nInputGate type nbInputs) o) = .ok table) :
    DescribesPins (.nInputGate type nbInputs) o table := by
  unfold getTruthTable at returned
  simp only at returned
  split at returned
  · contradiction
  · have read : type.isNInput = true ∧ SNLTruthTable.ofGeneric nbInputs type.genericType
        (getInputFlatTermDependencies (.nInputGate type nbInputs)) 0 0 = .ok table := by
      cases type
      case Buf => simp [getPrimitiveTruthTable, unsupportedPrimitive] at returned
      case Not => simp [getPrimitiveTruthTable, unsupportedPrimitive] at returned
      all_goals exact ⟨rfl, returned⟩
    obtain ⟨dependencies, generic⟩ := SNLTruthTable.ofGeneric_spec _ _ _ _ _ _ read.2
    apply describes_of_decode _ _ _ member isOutput
    · rw [dependencies]
      exact nInputGate_dependencies type nbInputs o member isOutput
    · intro value
      unfold evaluate
      rw [generic]
      cases type
      case Buf => exact absurd read.1 (by decide)
      case Not => exact absurd read.1 (by decide)
      all_goals rfl

theorem nOutputGate_table (type : GateType) (nbOutputs : Nat) (o : BitTerm) (table : SNLTruthTable)
    (member : o ∈ getBitTerms (.nOutputGate type nbOutputs)) (isOutput : o.direction = .Output)
    (returned : getTruthTable (.nOutputGate type nbOutputs)
      (getOrderID (.nOutputGate type nbOutputs) o) = .ok table) :
    DescribesPins (.nOutputGate type nbOutputs) o table := by
  have dependencies : decodeBits (getInputFlatTermDependencies (.nOutputGate type nbOutputs)) =
      (tableInputs (.nOutputGate type nbOutputs) o).map
        (getOrderID (.nOutputGate type nbOutputs)) := by
    apply decode_inputFlatTermDependencies _ _ member isOutput
    · intro pin inTerms direction
      change pin ∈ (output 0 nbOutputs).getBits ++ ([(input 1 1).getBit 0] ++ []) at inTerms
      rw [List.append_nil, List.mem_append] at inTerms
      rcases inTerms with inOutput | inInput
      · rw [((Term.mem_getBits _ _).mp inOutput).2] at direction
        exact absurd rfl direction
      · exact inInput
    · change ∀ pin ∈ [(input 1 1).getBit 0], pin.direction ≠ .Output
      decide
  unfold getTruthTable getPrimitiveTruthTable at returned
  simp only at returned
  split at returned
  · contradiction
  split at returned
  · contradiction
  cases type
  case Buf =>
    obtain ⟨short, -, -, rfl⟩ := SNLTruthTable.ofMask_spec _ _ _ _ returned
    apply describes_of_decode _ _ _ member isOutput dependencies
    intro value
    change some ((0b10 : Word).getLsbD (rowIndex [value ((input 1 1).getBit 0)])) =
      some (value ((input 1 1).getBit 0))
    cases value ((input 1 1).getBit 0) <;> rfl
  case Not =>
    obtain ⟨short, -, -, rfl⟩ := SNLTruthTable.ofMask_spec _ _ _ _ returned
    apply describes_of_decode _ _ _ member isOutput dependencies
    intro value
    change some ((0b01 : Word).getLsbD (rowIndex [value ((input 1 1).getBit 0)])) =
      some (!value ((input 1 1).getBit 0))
    cases value ((input 1 1).getBit 0) <;> rfl
  all_goals simp [unsupportedPrimitive] at returned

/-- The families that encode the order IDs of a list of pins. -/
private theorem describes_of_encoded (p : Signature) (o : BitTerm) (table : SNLTruthTable)
    (member : o ∈ getBitTerms p) (isOutput : o.direction = .Output) (pins : List BitTerm)
    (same : ∀ pin, pin ∈ pins ↔ pin ∈ tableInputs p o)
    (stored : table.dependencies = encodeBits (pins.map (getOrderID p)))
    (function : ∀ value : BitTerm → Bool,
      evaluate table ((tableInputs p o).map value) = primitiveValue p o value) :
    DescribesPins p o table := by
  apply describes_of_decode p o table member isOutput _ function
  rw [stored]
  exact decode_pins p o member isOutput pins same

private theorem getElem?_getOrderID (p : Signature) (o : BitTerm) (member : o ∈ getBitTerms p) :
    (getBitTerms p)[getOrderID p o]? = some o := getElem?_orderID _ _ member

theorem tableSelect_table (width depth abits : Nat) (o : BitTerm) (table : SNLTruthTable)
    (member : o ∈ getBitTerms (.tableSelect width depth abits)) (isOutput : o.direction = .Output)
    (returned : getTruthTable (.tableSelect width depth abits)
      (getOrderID (.tableSelect width depth abits) o) = .ok table) :
    DescribesPins (.tableSelect width depth abits) o table := by
  unfold getTruthTable getTableSelectTruthTable at returned
  simp only [getElem?_getOrderID _ o member] at returned
  split at returned
  · contradiction
  split at returned
  · contradiction
  split at returned
  · contradiction
  split at returned
  · contradiction
  next inside =>
    obtain ⟨stored, generic⟩ := SNLTruthTable.ofGeneric_spec _ _ _ _ _ _ returned
    refine describes_of_encoded _ o table member isOutput _ ?_ stored ?_
    · intro pin
      change _ ↔ pin ∈ (input 0 (width * depth)).getBits.filter (fun t => t.bit % width = o.bit) ++
        (input 1 abits).getBits
      rw [List.mem_append, List.mem_append, mem_column width depth o.bit (by omega), or_comm]
      simp only [List.mem_map, List.mem_range]
    · intro value
      exact evaluate_word _ _ (Or.inl generic)

theorem divMod_table (width : Nat) (isSigned : Bool) (o : BitTerm) (table : SNLTruthTable)
    (member : o ∈ getBitTerms (.divMod width isSigned)) (isOutput : o.direction = .Output)
    (returned : getTruthTable (.divMod width isSigned)
      (getOrderID (.divMod width isSigned) o) = .ok table) :
    DescribesPins (.divMod width isSigned) o table := by
  unfold getTruthTable getDivModTruthTable at returned
  simp only [getElem?_getOrderID _ o member] at returned
  split at returned
  · contradiction
  split at returned
  · contradiction
  split at returned
  · contradiction
  split at returned
  · contradiction
  obtain ⟨stored, generic⟩ := SNLTruthTable.DivMod_spec _ _ _ _ _ _ returned
  refine describes_of_encoded _ o table member isOutput _ (fun pin => Iff.rfl) stored ?_
  intro value
  exact evaluate_word _ _ (Or.inr (Or.inl generic))

/-- Add/subtract, multiply and shift share one reader. -/
private theorem word_table (p : Signature) (o : BitTerm) (table : SNLTruthTable)
    (member : o ∈ getBitTerms p) (isOutput : o.direction = .Output) (first second : Term)
    (operands : tableInputs p o = first.getBits ++ second.getBits)
    (noValue : ∀ value, primitiveValue p o value = none)
    (type : GenericType) (isWord : type = .ADD_SUB ∨ type = .MULTIPLY ∨ type = .SHIFT)
    (metadata : Nat → WordMetadata)
    (read : getWordTruthTable p first second (getOrderID p o)
      (fun bit dependencies => SNLTruthTable.Word type (metadata bit) dependencies) = .ok table) :
    DescribesPins p o table := by
  unfold getWordTruthTable at read
  simp only [getElem?_getOrderID _ o member] at read
  split at read
  · contradiction
  split at read
  · contradiction
  obtain ⟨stored, generic⟩ := SNLTruthTable.Word_spec _ _ _ _ read
  refine describes_of_encoded _ o table member isOutput _ (fun pin => by rw [operands]) stored ?_
  intro value
  rw [noValue value]
  apply evaluate_word
  rcases isWord with rfl | rfl | rfl <;> simp [generic]

theorem addSub_table (width : Nat) (subtract : Bool) (o : BitTerm) (table : SNLTruthTable)
    (member : o ∈ getBitTerms (.addSub width subtract)) (isOutput : o.direction = .Output)
    (returned : getTruthTable (.addSub width subtract)
      (getOrderID (.addSub width subtract) o) = .ok table) :
    DescribesPins (.addSub width subtract) o table := by
  unfold getTruthTable at returned
  simp only [isOutputTerm_orderID _ o member isOutput, Bool.not_true, Bool.false_eq_true,
    if_false] at returned
  exact word_table _ o table member isOutput _ _ rfl (fun _ => rfl) .ADD_SUB (by decide) _ returned

theorem multiply_table (width : Nat) (o : BitTerm) (table : SNLTruthTable)
    (member : o ∈ getBitTerms (.multiply width)) (isOutput : o.direction = .Output)
    (returned : getTruthTable (.multiply width) (getOrderID (.multiply width) o) = .ok table) :
    DescribesPins (.multiply width) o table := by
  unfold getTruthTable at returned
  simp only [isOutputTerm_orderID _ o member isOutput, Bool.not_true, Bool.false_eq_true,
    if_false] at returned
  exact word_table _ o table member isOutput _ _ rfl (fun _ => rfl) .MULTIPLY (by decide) _ returned

theorem shift_table (width countWidth : Nat) (right arithmetic : Bool) (o : BitTerm)
    (table : SNLTruthTable) (member : o ∈ getBitTerms (.shift width countWidth right arithmetic))
    (isOutput : o.direction = .Output)
    (returned : getTruthTable (.shift width countWidth right arithmetic)
      (getOrderID (.shift width countWidth right arithmetic) o) = .ok table) :
    DescribesPins (.shift width countWidth right arithmetic) o table := by
  unfold getTruthTable at returned
  simp only [isOutputTerm_orderID _ o member isOutput, Bool.not_true, Bool.false_eq_true,
    if_false] at returned
  exact word_table _ o table member isOutput _ _ rfl (fun _ => rfl) .SHIFT (by decide) _ returned

theorem vectorSelect_table (width selectWidth abits : Nat) (isSigned : Bool) (o : BitTerm)
    (table : SNLTruthTable) (member : o ∈ getBitTerms (.vectorSelect width selectWidth abits isSigned))
    (isOutput : o.direction = .Output)
    (returned : getTruthTable (.vectorSelect width selectWidth abits isSigned)
      (getOrderID (.vectorSelect width selectWidth abits isSigned) o) = .ok table) :
    DescribesPins (.vectorSelect width selectWidth abits isSigned) o table := by
  have out := mem_only_output _ o member isOutput (output 2 selectWidth) rfl
  have part : ∀ t ∈ (output 2 selectWidth).getBits,
      t ∈ getBitTerms (.vectorSelect width selectWidth abits isSigned) := by
    intro t inOut
    exact List.mem_flatMap.mpr ⟨_, by simp [getTerms], inOut⟩
  unfold getTruthTable getVectorSelectTruthTable at returned
  simp only [outputBitOf_orderID _ _ o out part] at returned
  obtain ⟨stored, generic⟩ := SNLTruthTable.VectorSelect_spec _ _ _ returned
  refine describes_of_encoded _ o table member isOutput _ (fun pin => Iff.rfl) stored ?_
  intro value
  exact evaluate_word _ _ (by simp [generic])

theorem vectorUpdate_table (width updateWidth abits : Nat) (isSigned : Bool) (o : BitTerm)
    (table : SNLTruthTable) (member : o ∈ getBitTerms (.vectorUpdate width updateWidth abits isSigned))
    (isOutput : o.direction = .Output)
    (returned : getTruthTable (.vectorUpdate width updateWidth abits isSigned)
      (getOrderID (.vectorUpdate width updateWidth abits isSigned) o) = .ok table) :
    DescribesPins (.vectorUpdate width updateWidth abits isSigned) o table := by
  have out := mem_only_output _ o member isOutput (output 4 width) rfl
  have part : ∀ t ∈ (output 4 width).getBits,
      t ∈ getBitTerms (.vectorUpdate width updateWidth abits isSigned) := by
    intro t inOut
    exact List.mem_flatMap.mpr ⟨_, by simp [getTerms], inOut⟩
  unfold getTruthTable getVectorUpdateTruthTable at returned
  simp only [outputBitOf_orderID _ _ o out part] at returned
  obtain ⟨stored, generic⟩ := SNLTruthTable.VectorUpdate_spec _ _ _ returned
  have pins : table.dependencies = encodeBits (((input 0 width).getBit o.bit ::
      ((input 1 updateWidth).getBits ++ (input 2 abits).getBits ++ [(input 3 1).getBit 0])).map
        (getOrderID (.vectorUpdate width updateWidth abits isSigned))) := by
    rw [stored]
    simp
  refine describes_of_encoded _ o table member isOutput _ (fun pin => Iff.rfl) pins ?_
  intro value
  exact evaluate_word _ _ (by simp [generic])

theorem mux2_returned (width : Nat) (o : BitTerm) (table : SNLTruthTable)
    (member : o ∈ getBitTerms (.mux2 width)) (isOutput : o.direction = .Output)
    (returned : getTruthTable (.mux2 width) (getOrderID (.mux2 width) o) = .ok table) :
    table.genericType = .NONE ∧ table.bits.data = .mask mux2Bits ∧
      decodeBits table.dependencies = [0, 1, 2] := by
  unfold getTruthTable at returned
  simp only [isOutputTerm_orderID _ o member isOutput, Bool.not_true, Bool.false_eq_true,
    if_false] at returned
  have read : SNLTruthTable.ofMask 3 mux2Bits (SNLTruthTable.fullDependencies 3) = .ok table := returned
  obtain ⟨short, -, -, rfl⟩ := SNLTruthTable.ofMask_spec _ _ _ _ read
  refine ⟨rfl, rfl, ?_⟩
  apply decodeBits_encodeBits_eq (List.range 3)
  · decide
  · intro other
    simp only [List.mem_range, List.mem_cons, List.not_mem_nil, or_false]
    omega

theorem mux2_scalar_table (o : BitTerm) (table : SNLTruthTable)
    (member : o ∈ getBitTerms (.mux2 1)) (isOutput : o.direction = .Output)
    (returned : getTruthTable (.mux2 1) (getOrderID (.mux2 1) o) = .ok table) :
    DescribesPins (.mux2 1) o table := by
  obtain ⟨generic, mask, decoded⟩ := mux2_returned 1 o table member isOutput returned
  have out : o = (output 3 1).getBit 0 := by
    simpa [Term.getBits, output] using mem_only_output _ o member isOutput (output 3 1) rfl
  subst out
  apply describes_of_decode _ _ _ member isOutput
  · rw [decoded]
    decide
  · intro value
    unfold evaluate NLBitVecDynamic.bit
    rw [generic, mask]
    change some (mux2Bits.getLsbD (rowIndex [value ((input 0 1).getBit 0),
      value ((input 1 1).getBit 0), value ((input 2 1).getBit 0)])) =
      some (if value ((input 2 1).getBit 0) then value ((input 1 1).getBit 0)
        else value ((input 0 1).getBit 0))
    cases value ((input 0 1).getBit 0) <;> cases value ((input 1 1).getBit 0) <;>
      cases value ((input 2 1).getBit 0) <;> rfl

/-- `S` comes after both data buses. -/
theorem orderID_mux2_select (width : Nat) :
    getOrderID (.mux2 width) ((input 2 1).getBit 0) = 2 * width := by
  have outside (id : Nat) (other : id ≠ 2) : (input 2 1).getBit 0 ∉ (input id width).getBits := by
    intro inBits
    exact other ((Term.id_of_mem_getBits _ _ inBits).symm)
  change ((input 0 width).getBits ++ ((input 1 width).getBits ++
    ((input 2 1).getBits ++ ((output 3 width).getBits ++ [])))).idxOf ((input 2 1).getBit 0) = _
  rw [List.idxOf_append_of_notMem (outside 0 (by decide)),
    List.idxOf_append_of_notMem (outside 1 (by decide))]
  simp [Term.getBits, input, List.range_succ]
  omega

theorem mux2_wide_table (width : Nat) (wide : 2 ≤ width) (o : BitTerm) (table : SNLTruthTable)
    (member : o ∈ getBitTerms (.mux2 width)) (isOutput : o.direction = .Output)
    (returned : getTruthTable (.mux2 width) (getOrderID (.mux2 width) o) = .ok table) :
    ¬ DescribesPins (.mux2 width) o table := by
  intro describes
  obtain ⟨-, -, decoded⟩ := mux2_returned width o table member isOutput returned
  have select : (input 2 1).getBit 0 ∈ tableInputs (.mux2 width) o := by simp [tableInputs]
  have position := (describes.arcs (2 * width)).mpr
    ⟨_, (tableInputs_sublist _ o member isOutput).subset select,
      (mem_combinatorialArcs _ o _ member isOutput).mpr select, orderID_mux2_select width⟩
  rw [decoded] at position
  simp only [List.mem_cons, List.not_mem_nil, or_false] at position
  omega

end Naja.Primitives.BuiltinTables

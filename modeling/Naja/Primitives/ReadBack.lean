import Naja.Primitives.Names

/-! The signature is read back from a design that was made for it, and the numbers of its
library and of itself with its parameters ask for the same signature again. -/

namespace Naja.Primitives.DB0
open NLDB0 (GateType Signature boolDigit maxBit maxDesignID maxSize)

/-- A design as it was made for a request. -/
structure MadeFor (design : Design) (x : Request) : Prop where
  accepted : x.accepted = true
  fits : x.Fits
  name : design.name = x.designName
  data : design.data = x.data
  id : ∀ id, x.designID = some id → design.id = id

theorem stated_le (x : Request) (fits : x.Fits) (port : StatedPort) (stated : port ∈ x.statedPorts) :
    port.width ≤ maxBit := fits _ (List.mem_map_of_mem stated)

theorem maxSize_of_maxBit (n : Nat) (small : n ≤ maxBit) : n ≤ maxSize := by
  have bounds : maxBit ≤ maxSize := by decide
  exact small.trans bounds

theorem getDecimal_of_lookup (parameters : List (String × String)) (name : String) (n : Nat)
    (found : parameters.lookup name = some (toString n)) (small : n ≤ maxSize) : getDecimal parameters name = some n := by
  unfold getDecimal
  rw [found]
  exact stoull_toString n small

theorem getBoolean_of_lookup (parameters : List (String × String)) (name : String) (b : Bool)
    (found : parameters.lookup name = some (boolDigit b)) : getBoolean parameters name = some b := by
  unfold getBoolean
  rw [found]
  exact parseBoolean_boolDigit b

theorem startsWith_append (head rest : String) : startsWith (head ++ rest) head = true := by
  unfold startsWith
  rw [List.isPrefixOf_iff_prefix, String.toList_append]
  exact List.prefix_append _ _

/-! ### Parameters of a family -/

section parameters
variable (w d a r : Nat) (b c : Bool)

theorem width_read (x : Request) (rest : List (String × String))
    (parameters : x.parameters = ("WIDTH", toString w) :: rest) (small : w ≤ maxSize) :
    getDecimal x.parameters "WIDTH" = some w := by
  refine getDecimal_of_lookup _ _ w ?_ small
  rw [parameters]
  rfl

theorem tableSelect_read (fits : (Request.word (.tableSelect w d a)).Fits)
    (accepted : (Request.word (.tableSelect w d a)).accepted = true) :
    tableSelectSignature (Request.word (.tableSelect w d a)).parameters = some (.word (.tableSelect w d a)) := by
  have positive : 0 < w := by
    rcases Nat.eq_zero_or_pos w with rfl | positive
    · simp [Request.accepted, NLDB0.checkSignature, Except.isOk, Except.toBool] at accepted
    · exact positive
  have wide : w * d ≤ maxBit := stated_le _ fits (busIn "DATA" (w * d)) (by simp [Request.statedPorts])
  have address : a ≤ maxBit := stated_le _ fits (busIn "ADDR" a) (by simp [Request.statedPorts])
  have width : w ≤ maxBit := stated_le _ fits (busOut "Y" w) (by simp [Request.statedPorts])
  have depth : d ≤ maxBit := (Nat.le_mul_of_pos_left d positive).trans wide
  unfold tableSelectSignature
  rw [getDecimal_of_lookup _ "WIDTH" w rfl (maxSize_of_maxBit w width),
    getDecimal_of_lookup _ "DEPTH" d rfl (maxSize_of_maxBit d depth),
    getDecimal_of_lookup _ "ABITS" a rfl (maxSize_of_maxBit a address)]
  rfl

theorem shift_read (fits : (Request.word (.shift w d b c)).Fits) :
    shiftSignature (Request.word (.shift w d b c)).parameters = some (.word (.shift w d b c)) := by
  have width : w ≤ maxBit := stated_le _ fits (busIn "DATA" w) (by simp [Request.statedPorts])
  have count : d ≤ maxBit := stated_le _ fits (busIn "COUNT" d) (by simp [Request.statedPorts])
  unfold shiftSignature
  rw [getDecimal_of_lookup _ "WIDTH" w rfl (maxSize_of_maxBit w width),
    getDecimal_of_lookup _ "COUNT_WIDTH" d rfl (maxSize_of_maxBit d count),
    getBoolean_of_lookup _ "RIGHT" b rfl, getBoolean_of_lookup _ "ARITHMETIC" c rfl]
  rfl

theorem vectorSelect_read (fits : (Request.word (.vectorSelect w d a b)).Fits) :
    vectorSelectSignature (Request.word (.vectorSelect w d a b)).parameters = some (.word (.vectorSelect w d a b)) := by
  have width : w ≤ maxBit := stated_le _ fits (busIn "DATA" w) (by simp [Request.statedPorts])
  have address : a ≤ maxBit := stated_le _ fits (busIn "OFFSET" a) (by simp [Request.statedPorts])
  have select : d ≤ maxBit := stated_le _ fits (busOut "Y" d) (by simp [Request.statedPorts])
  unfold vectorSelectSignature
  rw [getDecimal_of_lookup _ "WIDTH" w rfl (maxSize_of_maxBit w width),
    getDecimal_of_lookup _ "SELECT_WIDTH" d rfl (maxSize_of_maxBit d select),
    getDecimal_of_lookup _ "ABITS" a rfl (maxSize_of_maxBit a address), getBoolean_of_lookup _ "SIGNED" b rfl]
  rfl

theorem vectorUpdate_read (fits : (Request.word (.vectorUpdate w d a b)).Fits) :
    vectorUpdateSignature (Request.word (.vectorUpdate w d a b)).parameters = some (.word (.vectorUpdate w d a b)) := by
  have width : w ≤ maxBit := stated_le _ fits (busIn "BASE" w) (by simp [Request.statedPorts])
  have update : d ≤ maxBit := stated_le _ fits (busIn "DATA" d) (by simp [Request.statedPorts])
  have address : a ≤ maxBit := stated_le _ fits (busIn "OFFSET" a) (by simp [Request.statedPorts])
  unfold vectorUpdateSignature
  rw [getDecimal_of_lookup _ "WIDTH" w rfl (maxSize_of_maxBit w width),
    getDecimal_of_lookup _ "UPDATE_WIDTH" d rfl (maxSize_of_maxBit d update),
    getDecimal_of_lookup _ "ABITS" a rfl (maxSize_of_maxBit a address), getBoolean_of_lookup _ "SIGNED" b rfl]
  rfl

end parameters

theorem getMemoryResetMode_written (mode : MemoryResetMode) :
    getMemoryResetMode (mode != .None) (mode == .AsyncLow || mode == .AsyncHigh)
      (mode == .AsyncLow || mode == .SyncLow) = mode := by
  cases mode <;> decide

theorem memory_read (m : MemorySignature) (fits : (Request.memory m).Fits) (accepted : (Request.memory m).accepted = true) :
    memorySignature (Request.memory m).parameters = some m := by
  obtain ⟨w, d, a, r, p, mode, clocks, sized⟩ := m
  simp only [Request.accepted, Request.memoryCheck, Bool.not_eq_true', Bool.or_eq_false_iff, beq_eq_false_iff_ne] at accepted
  obtain ⟨⟨⟨⟨⟨width, depth⟩, address⟩, reads⟩, -⟩, -⟩ := accepted
  have readAddress : r * a ≤ maxBit :=
    stated_le _ fits (busIn "RADDR" (r * a)) (by simp [Request.statedPorts, Request.memoryPorts])
  have readData : r * w ≤ maxBit :=
    stated_le _ fits (busOut "RDATA" (r * w)) (by simp [Request.statedPorts, Request.memoryPorts])
  have writes : p ≤ maxBit := by
    rcases Nat.eq_zero_or_pos p with rfl | positive
    · exact Nat.zero_le _
    · exact stated_le _ fits (busIn "WE" p) (by simp [Request.statedPorts, Request.memoryPorts, Nat.ne_of_gt positive])
  have bits : w ≤ maxBit := (Nat.le_mul_of_pos_left w (Nat.pos_of_ne_zero reads)).trans readData
  have abits : a ≤ maxBit := (Nat.le_mul_of_pos_left a (Nat.pos_of_ne_zero reads)).trans readAddress
  have ports : r ≤ maxBit := (Nat.le_mul_of_pos_right r (Nat.pos_of_ne_zero width)).trans readData
  unfold memorySignature
  rw [getDecimal_of_lookup _ "WIDTH" w rfl (maxSize_of_maxBit w bits), getDecimal_of_lookup _ "DEPTH" d rfl sized,
    getDecimal_of_lookup _ "ABITS" a rfl (maxSize_of_maxBit a abits),
    getDecimal_of_lookup _ "RD_PORTS" r rfl (maxSize_of_maxBit r ports),
    getDecimal_of_lookup _ "WR_PORTS" p rfl (maxSize_of_maxBit p writes), getBoolean_of_lookup _ "RST_ENABLE" _ rfl,
    getBoolean_of_lookup _ "RST_ASYNC" _ rfl, getBoolean_of_lookup _ "RST_ACTIVE_LOW" _ rfl]
  cases clocks with
  | false =>
      change (if sized : d ≤ maxSize then some _ else none) = _
      rw [dif_pos sized, getMemoryResetMode_written]
  | true =>
      change (if sized : d ≤ maxSize then some _ else none) = _
      rw [dif_pos sized, getMemoryResetMode_written]

/-! ### Designs -/

section design
variable {design : Design} {x : Request} (made : MadeFor design x)
include made

theorem MadeFor.width (w : Nat) (rest : List (String × String)) (parameters : x.parameters = ("WIDTH", toString w) :: rest)
    (small : w ≤ maxBit) : getDecimal design.data.parameters "WIDTH" = some w := by
  rw [made.data]
  exact width_read w x rest parameters (maxSize_of_maxBit w small)

theorem MadeFor.getWidth (i : Nat) (port : StatedPort) (stated : x.statedPorts[i]? = some port)
    (positive : 0 < port.width) : design.data.ports[i]?.bind Port.getWidth = some port.width := by
  rw [made.data]
  change ((x.statedPorts.map StatedPort.create)[i]?).bind Port.getWidth = some port.width
  rw [List.getElem?_map, stated]
  exact (getWidth_create port positive).mpr (stated_le x made.fits port (List.mem_of_getElem? stated))

theorem MadeFor.isWidthPrimitive (head : String) (rest : String) (name : x.designName = head ++ rest)
    (scalarName : String) : isWidthPrimitive design scalarName head = true := by
  unfold DB0.isWidthPrimitive
  rw [made.name, name, startsWith_append, Bool.or_true]

end design

theorem width_dataBits (w : Nat) : (Request.dataBits w).getD 1 = w := by
  unfold Request.dataBits
  split
  · next scalar => exact scalar.symm
  · rfl

theorem sequential_data (family : Sequential) (w : Nat) :
    (Request.sequential family w).statedPorts[1]? = some ⟨"D", .Input, Request.dataBits w⟩ := by
  cases family <;> rfl

theorem sequential_parameters (family : Sequential) (w : Nat) :
    ∃ rest, (Request.sequential family w).parameters = ("WIDTH", toString w) :: rest := by
  cases family <;> exact ⟨_, rfl⟩

theorem gate_positive (type : GateType) (n : Nat)
    (accepted : (Request.word (.nInputGate type n)).accepted = true ∨ (Request.word (.nOutputGate type n)).accepted = true) :
    0 < n := by
  rcases Nat.eq_zero_or_pos n with rfl | positive
  · rcases accepted with accepted | accepted
    · cases type <;> simp [Request.accepted, NLDB0.checkSignature, GateType.isNInput, Except.isOk, Except.toBool] at accepted
    · cases type <;> simp [Request.accepted, NLDB0.checkSignature, GateType.isNOutput, Except.isOk, Except.toBool] at accepted
  · exact positive

theorem gate_direction (type : GateType) (n : Nat) :
    ((Request.word (.nInputGate type n)).accepted = true → type.isNInput = true) ∧
      ((Request.word (.nOutputGate type n)).accepted = true → type.isNInput = false ∧ type.isNOutput = true) := by
  cases type <;>
    simp [Request.accepted, NLDB0.checkSignature, GateType.isNInput, GateType.isNOutput, Except.isOk, Except.toBool]

theorem startsWith_more (name rest head : String) (begins : startsWith name head = true) :
    startsWith (name ++ rest) head = true := by
  unfold startsWith at begins ⊢
  rw [List.isPrefixOf_iff_prefix] at begins ⊢
  rw [String.toList_append]
  exact begins.trans (List.prefix_append _ _)

theorem readSignature_sequential (design : Design) (family : Sequential) (w : Nat)
    (made : MadeFor design (.sequential family w)) : readSignature (.Sequential family) design = some (.sequential family w) := by
  have width : w ≤ maxBit := by
    have data := stated_le _ made.fits _ (List.mem_of_getElem? (sequential_data family w))
    rwa [StatedPort.width, width_dataBits] at data
  obtain ⟨rest, parameters⟩ := sequential_parameters family w
  have named : isWidthPrimitive design family.name (family.name ++ "__w") = true := by
    by_cases scalar : w = 1
    · subst scalar
      unfold isWidthPrimitive
      rw [made.name, made.id 1 rfl]
      simp [Request.designName]
    · refine made.isWidthPrimitive (family.name ++ "__w") (toString w) ?_ family.name
      exact if_neg scalar
  change (if isWidthPrimitive design family.name (family.name ++ "__w") then
    (getDecimal design.data.parameters "WIDTH").map (Request.sequential family) else none) = _
  rw [named, made.width w rest parameters width]
  rfl

theorem readSignature_made (design : Design) (x : Request) (made : MadeFor design x) :
    readSignature x.library design = some x := by
  have accepted := made.accepted
  have fits := made.fits
  cases x with
  | sequential family w => exact readSignature_sequential design family w made
  | memory m =>
      change (memorySignature design.data.parameters).map Request.memory = _
      rw [made.data]
      change (memorySignature (Request.memory m).parameters).map Request.memory = _
      rw [memory_read m fits accepted]
      rfl
  | word signature =>
      cases signature with
      | assign => exact if_pos (made.id 1 rfl)
      | fa => exact if_pos (made.id 1 rfl)
      | nInputGate type n =>
          have positive := gate_positive type n (Or.inl accepted)
          have direction := (gate_direction type n).1 accepted
          change (if type.isNInput then (design.data.ports[1]?.bind Port.getWidth).map _ else _) = _
          rw [direction, if_pos rfl, made.getWidth 1 (busIn "" n) rfl positive]
          rfl
      | nOutputGate type n =>
          have positive := gate_positive type n (Or.inr accepted)
          have direction := ((gate_direction type n).2 accepted).1
          change (if type.isNInput then _ else (design.data.ports[0]?.bind Port.getWidth).map _) = _
          rw [direction, if_neg Bool.false_ne_true, made.getWidth 0 (busOut "" n) rfl positive]
          rfl
      | mux2 w =>
          have width : w ≤ maxBit := stated_le _ fits (busIn "A" w) (by simp [Request.statedPorts])
          change (if isWidthPrimitive design "naja_mux2__w1" "naja_mux2__w" then
            (getDecimal design.data.parameters "WIDTH").map _ else none) = _
          rw [made.isWidthPrimitive "naja_mux2__w" (toString w) rfl, made.width w [] rfl width]
          rfl
      | tableSelect w d a =>
          have named : startsWith design.name "naja_table_select__" = true := by
            rw [made.name]
            exact startsWith_more _ _ _ (startsWith_more _ _ _ (startsWith_more _ _ _ (startsWith_more _ _ _
              (startsWith_more "naja_table_select__w" _ _ (by decide)))))
          change (if startsWith design.name "naja_table_select__" then tableSelectSignature design.data.parameters
            else none) = _
          rw [named, made.data]
          exact tableSelect_read w d a fits accepted
      | divMod w isSigned =>
          have width : w ≤ maxBit := stated_le _ fits (busIn "A" w) (by simp [Request.statedPorts])
          have named : startsWith design.name "naja_divmod__" = true := by
            rw [made.name]
            exact startsWith_more _ _ _ (startsWith_more _ _ _ (startsWith_append "naja_divmod__" _))
          have sign : getBoolean design.data.parameters "SIGNED" = some isSigned := by
            rw [made.data]
            exact getBoolean_of_lookup _ "SIGNED" isSigned rfl
          have read : readSignature (Request.word (.divMod w isSigned)).library design =
              if startsWith design.name "naja_divmod__" then
                (getDecimal design.data.parameters "WIDTH").bind (fun width =>
                  (getBoolean design.data.parameters "SIGNED").bind (fun isSigned =>
                    some (.word (.divMod width isSigned)))) else none := by
            cases isSigned <;> rfl
          rw [read, named, made.width w _ rfl width, sign]
          rfl
      | addSub w subtract =>
          have width : w ≤ maxBit := stated_le _ fits (busIn "A" w) (by simp [Request.statedPorts])
          have read : readSignature (Request.word (.addSub w subtract)).library design =
              (getDecimal design.data.parameters "WIDTH").map (fun width => .word (.addSub width subtract)) := by
            cases subtract <;> rfl
          rw [read, made.width w [] rfl width]
          rfl
      | multiply w =>
          have width : w ≤ maxBit := stated_le _ fits (busIn "A" w) (by simp [Request.statedPorts])
          change (getDecimal design.data.parameters "WIDTH").map _ = _
          rw [made.width w [] rfl width]
          rfl
      | shift w d b c =>
          change shiftSignature design.data.parameters = _
          rw [made.data]
          exact shift_read w d b c fits
      | vectorSelect w d a b =>
          have named : startsWith design.name "naja_vector_select__" = true := by
            rw [made.name]
            exact startsWith_more _ _ _ (startsWith_more _ _ _ (startsWith_more _ _ _ (startsWith_more _ _ _
              (startsWith_more _ _ _ (startsWith_more _ _ _ (startsWith_more "naja_vector_select__w" _ _ (by decide)))))))
          change (if startsWith design.name "naja_vector_select__" then vectorSelectSignature design.data.parameters
            else none) = _
          rw [named, made.data]
          exact vectorSelect_read w d a b fits
      | vectorUpdate w d a b =>
          have named : startsWith design.name "naja_vector_update__" = true := by
            rw [made.name]
            exact startsWith_more _ _ _ (startsWith_more _ _ _ (startsWith_more _ _ _ (startsWith_more _ _ _
              (startsWith_more _ _ _ (startsWith_more _ _ _ (startsWith_more "naja_vector_update__w" _ _ (by decide)))))))
          change (if startsWith design.name "naja_vector_update__" then vectorUpdateSignature design.data.parameters
            else none) = _
          rw [named, made.data]
          exact vectorUpdate_read w d a b fits

theorem primitiveRequest_made (design : Design) (x : Request) (made : MadeFor design x) :
    primitiveRequest x.library.id design.id design.data.parameters = some (some x) := by
  have accepted := made.accepted
  have fits := made.fits
  unfold primitiveRequest
  rw [ofID_id, made.data]
  cases x with
  | sequential family w => rw [made.id w rfl]; rfl
  | memory m =>
      change (memorySignature (Request.memory m).parameters).map _ = _
      rw [memory_read m fits accepted]
      rfl
  | word signature =>
      cases signature with
      | assign => rfl
      | fa => rw [made.id 1 rfl]; rfl
      | nInputGate type n =>
          change (if type.isNInput then _ else _) = _
          rw [(gate_direction type n).1 accepted, if_pos rfl, made.id n rfl]
      | nOutputGate type n =>
          obtain ⟨notInput, output⟩ := (gate_direction type n).2 accepted
          change (if type.isNInput then _ else if type.isNOutput then _ else _) = _
          rw [notInput, output, if_neg Bool.false_ne_true, if_pos rfl, made.id n rfl]
      | mux2 w => rw [made.id w rfl]; rfl
      | tableSelect w d a =>
          change (tableSelectSignature (Request.word (.tableSelect w d a)).parameters).map some = _
          rw [tableSelect_read w d a fits accepted]
          rfl
      | divMod w isSigned =>
          rw [made.id w rfl]
          cases isSigned <;> rfl
      | addSub w subtract =>
          rw [made.id w rfl]
          cases subtract <;> rfl
      | multiply w => rw [made.id w rfl]; rfl
      | shift w d b c =>
          change (shiftSignature (Request.word (.shift w d b c)).parameters).map some = _
          rw [shift_read w d b c fits]
          rfl
      | vectorSelect w d a b =>
          change (vectorSelectSignature (Request.word (.vectorSelect w d a b)).parameters).map some = _
          rw [vectorSelect_read w d a b fits]
          rfl
      | vectorUpdate w d a b =>
          change (vectorUpdateSignature (Request.word (.vectorUpdate w d a b)).parameters).map some = _
          rw [vectorUpdate_read w d a b fits]
          rfl

end Naja.Primitives.DB0

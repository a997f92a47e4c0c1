import Naja.Verilog.Assigns

/-! What groups and chunks of assigns stand for. The assignments of a chunk are those of
its instances, in another order; a bit that should be a constant is written as its net
where it is within a range, or has a type of supply and is beside other bits. -/

namespace Naja.Verilog
open Netlist (NetType)

/-! ### Assignments and their pairs -/

def BitNet.isSupply (net : BitNet) : Bool := net.type == .Supply0 || net.type == .Supply1

def BitNet.isConstant (net : BitNet) : Bool := net.isAssignConstant || net.isSupply

/-- The bit of a net, whatever its type. -/
def BitNet.target : BitNet → ConnectedBit Object
  | .scalar net => .wire (.net net.id)
  | .busBit b => b.selected

/-- What an assign reads: the constant of its input net, or the net. -/
def BitNet.source (net : BitNet) : ConnectedBit Object :=
  if net.isConstant0 then .constant .Assign0
  else if net.isConstant1 then .constant .Assign1
  else net.connected

def isConstantBit : ConnectedBit Object → Bool
  | .constant _ => true
  | _ => false

/-- The bits an assignment drives and what drives them. -/
def Assignment.pairs (m : Module) (a : Assignment) : Option (List (ConnectedBit Object × ConnectedBit Object)) :=
  (a.target.bits (declared m)).bind (fun targets =>
    (a.source.bits (declared m)).bind (fun sources =>
      if targets.length = sources.length ∧ targets.all (fun target => !isConstantBit target) then some (targets.zip sources)
      else none))

/-- The pair of an assign instance. -/
def pairOf (assign : BitNet × BitNet) : ConnectedBit Object × ConnectedBit Object := (assign.2.target, assign.1.source)

/-- The bit of a net of constant type: nothing drives it. -/
def Undriven (m : Module) (bit : ConnectedBit Object) : Prop :=
  ∃ net : BitNet, net.net ∈ m.nets ∧ net.isConstant = true ∧ bit = net.target

/-! ### Bits of nets -/

theorem connected_of_constant (net : BitNet) (constant : net.isAssignConstant = true) :
    net.connected = .constant net.type := if_pos constant

theorem connected_of_ordinary (net : BitNet) (ordinary : net.isAssignConstant = false) : net.connected = net.target := by
  cases net with
  | scalar net =>
      rw [BitNet.connected, ordinary]
      rfl
  | busBit b => exact connected_busBit b ordinary

theorem source_of_assignConstant (net : BitNet) (constant : net.isAssignConstant = true) : net.source = net.connected := by
  rw [connected_of_constant net constant, BitNet.source, connected_of_constant net constant]
  unfold BitNet.isAssignConstant at constant
  unfold BitNet.isConstant0 BitNet.isConstant1
  revert constant
  cases net.type <;> decide

theorem source_of_noSupply (net : BitNet) (noSupply : net.isSupply = false) : net.source = net.connected := by
  cases constant : net.isAssignConstant with
  | true => exact source_of_assignConstant net constant
  | false =>
      unfold BitNet.isAssignConstant isAssignType at constant
      unfold BitNet.isSupply at noSupply
      have no0 : net.isConstant0 = false := by
        unfold BitNet.isConstant0
        simp only [Bool.or_eq_false_iff] at constant noSupply ⊢
        exact ⟨constant.1.1.1, noSupply.1⟩
      have no1 : net.isConstant1 = false := by
        unfold BitNet.isConstant1
        simp only [Bool.or_eq_false_iff] at constant noSupply ⊢
        exact ⟨constant.1.1.2, noSupply.2⟩
      rw [BitNet.source, no0, no1]
      rfl

theorem source_of_notConstant (net : BitNet) (ordinary : net.isConstant = false) : net.source = net.target := by
  unfold BitNet.isConstant at ordinary
  rw [Bool.or_eq_false_iff] at ordinary
  rw [source_of_noSupply net ordinary.2, connected_of_ordinary net ordinary.1]

/-- What an assign should read is never the bit of a constant. -/
theorem source_not_undriven (m : Module) (net : BitNet) (mem : net.net ∈ m.nets) : ¬ Undriven m net.source := by
  rintro ⟨other, mem', constant, same⟩
  have isTarget (net' : BitNet) (c : NetType) : net'.target ≠ .constant c := by cases net' <;> exact nofun
  cases ordinary : net.isConstant with
  | false =>
      rw [source_of_notConstant net ordinary] at same
      have ids : net.net.id = other.net.id ∧ (net.net = other.net → net = other) := by
        cases net <;> cases other
        · refine ⟨by injection same with same; injection same, fun same => ?_⟩
          cases same
          rfl
        · cases same
        · cases same
        · next b b' =>
            have sameBit : b.bit = b'.bit := by
              injection same
            refine ⟨by injection same with same; injection same, fun same => ?_⟩
            have sameBus : b.bus = b'.bus := by injection same
            obtain ⟨bus, bit, inside, typed⟩ := b
            cases sameBus
            cases sameBit
            rfl
      have sameNet := ids.2 (List.inj_on_of_nodup_map m.ids mem mem' ids.1)
      rw [sameNet, constant] at ordinary
      cases ordinary
  | true =>
      have isConstant : ∃ c, net.source = .constant c := by
        unfold BitNet.source
        split
        · exact ⟨_, rfl⟩
        split
        · exact ⟨_, rfl⟩
        · next no0 no1 =>
            refine ⟨_, connected_of_constant net ?_⟩
            unfold BitNet.isConstant BitNet.isSupply at ordinary
            unfold BitNet.isConstant0 at no0
            unfold BitNet.isConstant1 at no1
            simp only [Bool.or_eq_true, not_or, Bool.not_eq_true] at no0 no1 ordinary
            rcases ordinary with constant | supply0 | supply1
            · exact constant
            · rw [no0.2] at supply0
              cases supply0
            · rw [no1.2] at supply1
              cases supply1
      obtain ⟨c, isC⟩ := isConstant
      exact isTarget other c (same.symm.trans isC)

/-! ### Expressions -/

section expressions
variable (m : Module)

theorem constant_bits (type : NetType) (constant : isAssignType type = true) :
    (Expression.literal ⟨true, 1, false, .BINARY, [typeChar type]⟩).bits (declared m) = some [.constant type] := by
  rw [Expression.bits]
  change some (((vector ⟨true, [type].length, false, .BINARY, [type].map typeChar⟩).reverse).map _) = _
  rw [vector_binary [type] (fun t mem => List.mem_singleton.mp mem ▸ constant)]
  rfl

theorem getBitNetString_bits (net : BitNet) (mem : net.net ∈ m.nets) :
    (getBitNetString (naming m) net).bits (declared m) = some [net.connected] := by
  cases constant : net.isAssignConstant with
  | true =>
      rw [connected_of_constant net constant]
      unfold getBitNetString
      rw [if_pos constant]
      exact constant_bits m net.type constant
  | false =>
      rw [connected_of_ordinary net constant]
      have isDeclared := declared_net m net.net mem (net_not_assignConstant net constant)
      unfold getBitNetString
      rw [constant, if_neg Bool.false_ne_true]
      cases net with
      | scalar net =>
          simp only [BitNet.net] at isDeclared
          simp only
          rw [Expression.bits, nameBits, isDeclared]
          rfl
      | busBit b => exact select_bits b mem constant

theorem getAssignInputString_bits (net : BitNet) (mem : net.net ∈ m.nets) :
    (getAssignInputString (naming m) net).bits (declared m) = some [net.source] := by
  unfold getAssignInputString BitNet.source
  split
  · exact constant_bits m .Assign0 rfl
  split
  · exact constant_bits m .Assign1 rfl
  · exact getBitNetString_bits m net mem

theorem getAssignConstantString_bits (bits : List BitNet) (constant : ∀ net ∈ bits, net.isAssignConstant = true) :
    (getAssignConstantString bits).bits (declared m) = some (bits.map BitNet.source) := by
  have types := vector_binary (bits.map BitNet.type) (by
    intro type mem
    obtain ⟨net, inBits, rfl⟩ := List.mem_map.mp mem
    exact constant net inBits)
  rw [List.length_map, List.map_map] at types
  rw [getAssignConstantString, Expression.bits]
  change some (((vector ⟨true, bits.length, false, .BINARY, bits.map (typeChar ∘ BitNet.type)⟩).reverse).map _) = _
  rw [types, List.map_map]
  refine congrArg some (List.map_congr_left (fun net inBits => ?_))
  rw [source_of_assignConstant net (constant net inBits), connected_of_constant net (constant net inBits)]
  rfl

theorem getBusBitRangeString_bits (bits : List BusNetBit) (bus : BusNet) (nonempty : bits ≠ [])
    (canonical : isCanonicalBusRangeOrder bits = true) (sameBus : ∀ b ∈ bits, b.bus = bus) (mem : .bus bus ∈ m.nets)
    (shown : (Net.bus bus).shown m = true) :
    (getBusBitRangeString (naming m) bits).bits (declared m) = some (bits.map BusNetBit.selected) := by
  obtain ⟨first, rest, rfl⟩ := List.exists_cons_of_ne_nil nonempty
  obtain ⟨last, isLast⟩ := Option.ne_none_iff_exists'.mp (fun nothing => nonempty (List.getLast?_eq_none_iff.mp nothing))
  have firstBus := sameBus first List.mem_cons_self
  rw [← firstBus] at mem shown
  rw [getBusBitRangeString, isLast, List.head?_cons]
  simp only
  split
  · next whole => exact name_bits m first last rest canonical isLast mem shown whole
  · exact range_bits m first last rest canonical isLast mem shown

/-- A bus that is not declared has no bits. -/
theorem getBusBitRangeString_hidden (bits : List BusNetBit) (bus : BusNet) (nonempty : bits ≠ [])
    (sameBus : ∀ b ∈ bits, b.bus = bus) (mem : .bus bus ∈ m.nets) (hidden : (Net.bus bus).shown m = false) :
    (getBusBitRangeString (naming m) bits).bits (declared m) = none := by
  obtain ⟨first, rest, rfl⟩ := List.exists_cons_of_ne_nil nonempty
  obtain ⟨last, isLast⟩ := Option.ne_none_iff_exists'.mp (fun nothing => nonempty (List.getLast?_eq_none_iff.mp nothing))
  have noName := declared_hidden m (.bus bus) mem hidden
  rw [getBusBitRangeString, isLast, List.head?_cons]
  simp only
  rw [sameBus first List.mem_cons_self]
  split
  · rw [Expression.bits, nameBits, noName]
  · rw [Expression.bits, selectRange, noName]

/-- Bits in the order of their bus are written as nets, others one by one. -/
theorem getBusAssignInputString_bits (bits : List BusNetBit) (bus : BusNet) (nonempty : bits ≠ [])
    (sameBus : ∀ b ∈ bits, b.bus = bus) (mem : .bus bus ∈ m.nets) (ordinary : (Net.bus bus).isAssignConstant = false) :
    (getBusAssignInputString (naming m) bits).bits (declared m) =
      some (bits.map (fun b => if isCanonicalBusRangeOrder bits then b.selected else (BitNet.busBit b).connected)) := by
  unfold getBusAssignInputString
  split
  · next canonical =>
      exact getBusBitRangeString_bits m bits bus nonempty canonical sameBus mem (shown_of_ordinary m _ ordinary)
  · rw [bits_concat]
    refine bitsOf_map (fun b : BusNetBit => getBitNetString (naming m) (.busBit b)) _ bits (fun b inBits => ?_)
    apply getBitNetString_bits
    change Net.bus b.bus ∈ m.nets
    rw [sameBus b inBits]
    exact mem

end expressions

/-! ### Bits that follow each other -/

theorem run_reverse (first step : Int) (n : Nat) :
    (run first step (n + 1)).reverse = run (first + step * n) (-step) (n + 1) := by
  induction n with
  | zero => simp [run]
  | succ n ih =>
      rw [run_succ_last, List.reverse_append, ih, List.reverse_singleton, List.singleton_append,
        run_succ (first + step * ((n + 1 : Nat) : Int))]
      have back : first + step * ((n + 1 : Nat) : Int) + -step = first + step * n := by
        rw [Int.natCast_succ, Int.mul_add, Int.mul_one]
        omega
      rw [back]

theorem isCanonicalFrom_of_run (bus : BusNet) (first : BusNetBit) (rest : List BusNetBit)
    (sameBus : ∀ b ∈ rest, b.bus = bus)
    (bits : (first :: rest).map BusNetBit.bit = run first.bit (getCanonicalRangeStep bus) (rest.length + 1)) :
    isCanonicalFrom bus first rest = true := by
  induction rest generalizing first with
  | nil => rfl
  | cons next rest ih =>
      rw [List.map_cons, List.length_cons, run_succ, List.cons.injEq] at bits
      have bits' := bits.2
      rw [run_succ] at bits'
      have nextBit : next.bit = first.bit + getCanonicalRangeStep bus := (List.cons.inj bits').1
      rw [isCanonicalFrom, Bool.and_eq_true, Bool.and_eq_true, beq_iff_eq, beq_iff_eq]
      refine ⟨⟨sameBus next List.mem_cons_self, by omega⟩, ?_⟩
      apply ih next (fun b mem => sameBus b (List.mem_cons_of_mem _ mem))
      rw [bits.2, nextBit]

/-- Bits of one bus in one direction; the step is known from the second bit on. -/
structure Steady (bits : List BusNetBit) (bus : BusNet) (step : Option Int) : Prop where
  sameBus : ∀ b ∈ bits, b.bus = bus
  follow : ∃ first, ∃ n, ∃ by' : Int, bits.map BusNetBit.bit = run first by' (n + 1) ∧ (by' = 1 ∨ by' = -1) ∧
    (step = some by' ∨ step = none ∧ n = 0)

theorem Steady.single (b : BusNetBit) : Steady [b] b.bus none :=
  ⟨fun _ mem => List.mem_singleton.mp mem ▸ rfl, b.bit, 0, 1, by simp [run], .inl rfl, .inr ⟨rfl, rfl⟩⟩

theorem Steady.append {bits : List BusNetBit} {bus : BusNet} {step : Option Int} (steady : Steady bits bus step)
    (previous b : BusNetBit) (isLast : bits.getLast? = some previous) (next : goesOn step previous b = true) :
    Steady (bits ++ [b]) bus (some (b.bit - previous.bit)) := by
  obtain ⟨sameBus, first, n, by', follow, unit, known⟩ := steady
  unfold goesOn at next
  simp only [Bool.and_eq_true, Bool.or_eq_true, beq_iff_eq] at next
  obtain ⟨⟨busOfB, delta⟩, goes⟩ := next
  have lastBit : previous.bit = first + by' * n := by
    have ends := congrArg List.getLast? follow
    rw [List.getLast?_map, isLast, run_succ_last, List.getLast?_concat] at ends
    exact Option.some.inj ends
  refine ⟨fun other mem => ?_, ?_⟩
  · rcases List.mem_append.mp mem with mem | mem
    · exact sameBus other mem
    · rw [List.mem_singleton.mp mem, busOfB]
      exact sameBus previous (List.mem_of_getLast? isLast)
  · rcases known with known | ⟨-, alone⟩
    · rw [known, Option.all_some, beq_iff_eq] at goes
      refine ⟨first, n + 1, by', ?_, unit, .inl (congrArg some goes)⟩
      rw [List.map_append, follow, run_succ_last first by' (n + 1), List.map_singleton]
      have bit : b.bit = first + by' * ((n + 1 : Nat) : Int) := by
        rw [Int.natCast_succ, Int.mul_add, Int.mul_one]
        omega
      rw [bit]
    · subst alone
      have start : previous.bit = first := by simpa using lastBit
      refine ⟨first, 1, b.bit - previous.bit, ?_, delta, .inl rfl⟩
      rw [List.map_append, follow, List.map_singleton, run_succ_last first _ 1]
      have bit : b.bit = first + (b.bit - previous.bit) * ((1 : Nat) : Int) := by omega
      rw [← bit]
      simp [run]

/-- Outputs in the order of their bus, or the other way round. -/
theorem normalize_spec (inputs : List BitNet) (outputs : List BusNetBit) (bus : BusNet) (step : Option Int)
    (steady : Steady outputs bus step) :
    isCanonicalBusRangeOrder (normalizeAssignGroupOutputOrder inputs outputs).2 = true ∧
      (normalizeAssignGroupOutputOrder inputs outputs = (inputs, outputs) ∨
        normalizeAssignGroupOutputOrder inputs outputs = (inputs.reverse, outputs.reverse)) := by
  obtain ⟨sameBus, first, n, by', follow, unit, -⟩ := steady
  have step_unit : getCanonicalRangeStep bus = 1 ∨ getCanonicalRangeStep bus = -1 := by
    unfold getCanonicalRangeStep
    split
    · exact .inr rfl
    · exact .inl rfl
  have canonical (bits : List BusNetBit) (inBus : ∀ b ∈ bits, b.bus = bus) (start : Int)
      (run' : bits.map BusNetBit.bit = run start (getCanonicalRangeStep bus) (n + 1)) :
      isCanonicalBusRangeOrder bits = true := by
    cases bits with
    | nil => rfl
    | cons b bits =>
        have length : bits.length = n := by
          have lengths := congrArg List.length run'
          simp only [List.length_map, List.length_cons, run, List.length_range] at lengths
          omega
        have startBit : b.bit = start := by
          rw [run_succ, List.map_cons] at run'
          exact (List.cons.inj run').1
        rw [isCanonicalBusRangeOrder, inBus b List.mem_cons_self]
        apply isCanonicalFrom_of_run bus b bits (fun b mem => inBus b (List.mem_cons_of_mem _ mem))
        rw [run', startBit, length]
  rcases outputs with _ | ⟨b, _ | ⟨b', rest⟩⟩
  · exact absurd (congrArg List.length follow) (by simp [run])
  · exact ⟨rfl, .inl rfl⟩
  · have isStep : b'.bit - b.bit = by' := by
      cases n with
      | zero => exact absurd (congrArg List.length follow) (by simp [run])
      | succ n =>
          rw [run_succ, run_succ, List.map_cons, List.map_cons] at follow
          injection follow with firstBit follow
          injection follow with secondBit
          omega
    simp only [normalizeAssignGroupOutputOrder]
    rw [sameBus b List.mem_cons_self, isStep]
    split
    · next turned =>
        refine ⟨?_, .inr rfl⟩
        apply canonical (b :: b' :: rest).reverse (fun b mem => sameBus b (List.mem_reverse.mp mem)) (first + by' * n)
        have opposite : getCanonicalRangeStep bus = -by' := by omega
        rw [List.map_reverse, follow, run_reverse, opposite]
    · next kept =>
        refine ⟨canonical (b :: b' :: rest) sameBus first ?_, .inl rfl⟩
        rw [follow, Classical.not_not.mp kept]

/-! ### Groups -/

/-- A group with the input and output nets of its instances. -/
structure AssignGroup.Of (m : Module) (group : AssignGroup) (part : List (BitNet × BitNet)) : Prop where
  inputs : part.map Prod.fst = group.inputBits_
  outputs : part.map Prod.snd = group.outputBits_.map .busBit
  attached : ∀ assign ∈ part, assign.1.net ∈ m.nets ∧ assign.2.net ∈ m.nets
  steady : ∃ bus, Steady group.outputBits_ bus group.outputStep_
  constants : group.inputMode_ = .Constant → ∀ net ∈ group.inputBits_, net.isAssignConstant = true
  bits : group.inputMode_ = .Bus → ∃ inputs : List BusNetBit, group.inputBits_ = inputs.map .busBit ∧
    ∃ bus, (Net.bus bus).isAssignConstant = false ∧ ∀ b ∈ inputs, b.bus = bus

section group
variable {m : Module}

theorem initializeAssignGroup_of (inputNet outputNet : BitNet) (group : AssignGroup)
    (isGroup : initializeAssignGroup inputNet outputNet = some group) (inputMem : inputNet.net ∈ m.nets)
    (outputMem : outputNet.net ∈ m.nets) : group.Of m [(inputNet, outputNet)] ∧ group.outputBits_.length = 1 := by
  have attached : ∀ assign ∈ [(inputNet, outputNet)], assign.1.net ∈ m.nets ∧ assign.2.net ∈ m.nets := by
    intro assign mem
    rw [List.mem_singleton.mp mem]
    exact ⟨inputMem, outputMem⟩
  unfold initializeAssignGroup at isGroup
  cases outputNet with
  | scalar net => cases isGroup
  | busBit outputBusBit =>
      simp only at isGroup
      by_cases constant : inputNet.isAssignConstant = true
      · rw [if_pos constant, Option.some.injEq] at isGroup
        rw [← isGroup]
        exact ⟨⟨rfl, rfl, attached, ⟨_, Steady.single outputBusBit⟩,
          fun _ net mem => List.mem_singleton.mp mem ▸ constant, nofun⟩, rfl⟩
      · rw [if_neg constant] at isGroup
        cases inputNet with
        | scalar net => cases isGroup
        | busBit inputBusBit =>
            rw [Option.some.injEq] at isGroup
            rw [← isGroup]
            have ordinary := net_not_assignConstant (.busBit inputBusBit) (by simpa using constant)
            exact ⟨⟨rfl, rfl, attached, ⟨_, Steady.single outputBusBit⟩, nofun,
              fun _ => ⟨[inputBusBit], rfl, inputBusBit.bus, ordinary, fun b mem => List.mem_singleton.mp mem ▸ rfl⟩⟩, rfl⟩

theorem appendAssignGroup_of (group next : AssignGroup) (part : List (BitNet × BitNet)) (inputNet outputNet : BitNet)
    (of : group.Of m part) (isNext : appendAssignGroup group inputNet outputNet = some next)
    (inputMem : inputNet.net ∈ m.nets) (outputMem : outputNet.net ∈ m.nets) :
    next.Of m (part ++ [(inputNet, outputNet)]) := by
  obtain ⟨inputs, outputs, attached, ⟨bus, steady⟩, constants, bits⟩ := of
  have attached' : ∀ assign ∈ part ++ [(inputNet, outputNet)], assign.1.net ∈ m.nets ∧ assign.2.net ∈ m.nets := by
    intro assign mem
    rcases List.mem_append.mp mem with mem | mem
    · exact attached assign mem
    · rw [List.mem_singleton.mp mem]
      exact ⟨inputMem, outputMem⟩
  unfold appendAssignGroup at isNext
  split at isNext
  · next outputBusBit previousOutputBit isLast =>
      by_cases goes : goesOn group.outputStep_ previousOutputBit outputBusBit = true
      · rw [if_pos goes] at isNext
        have inputs' : (part ++ [(inputNet, BitNet.busBit outputBusBit)]).map Prod.fst = group.inputBits_ ++ [inputNet] := by
          rw [List.map_append, inputs]
          rfl
        have outputs' : (part ++ [(inputNet, BitNet.busBit outputBusBit)]).map Prod.snd =
            (group.outputBits_ ++ [outputBusBit]).map .busBit := by
          rw [List.map_append, List.map_append, outputs]
          rfl
        have steady' := steady.append previousOutputBit outputBusBit isLast goes
        cases mode : group.inputMode_ with
        | Constant =>
            rw [mode] at isNext
            by_cases constant : inputNet.isAssignConstant = true
            · simp only [if_pos constant, Option.some.injEq] at isNext
              rw [← isNext]
              refine ⟨inputs', outputs', attached', ⟨bus, steady'⟩, fun _ net mem => ?_, nofun⟩
              rcases List.mem_append.mp mem with mem | mem
              · exact constants mode net mem
              · exact List.mem_singleton.mp mem ▸ constant
            · simp only [if_neg constant] at isNext
              cases isNext
        | Bus =>
            rw [mode] at isNext
            obtain ⟨inputBits, isBits, inputBus, ordinary, sameBus⟩ := bits mode
            simp only at isNext
            split at isNext
            · next inputBusBit previousInputBusBit isLastInput =>
                by_cases goesToo : goesOn group.inputStep_ previousInputBusBit inputBusBit = true
                · rw [if_pos goesToo, Option.some.injEq] at isNext
                  rw [← isNext]
                  refine ⟨inputs', outputs', attached', ⟨bus, steady'⟩, nofun, fun _ => ?_⟩
                  refine ⟨inputBits ++ [inputBusBit], ?_, inputBus, ordinary, fun b mem => ?_⟩
                  · rw [List.map_append, ← isBits]
                    rfl
                  · rcases List.mem_append.mp mem with mem | mem
                    · exact sameBus b mem
                    · have inInputs : BitNet.busBit previousInputBusBit ∈ inputBits.map BitNet.busBit :=
                        isBits ▸ List.mem_of_getLast? isLastInput
                      obtain ⟨p, inBits, same⟩ := List.mem_map.mp inInputs
                      cases same
                      unfold goesOn at goesToo
                      simp only [Bool.and_eq_true, beq_iff_eq] at goesToo
                      rw [List.mem_singleton.mp mem, goesToo.1.1]
                      exact sameBus _ inBits
                · rw [if_neg goesToo] at isNext
                  cases isNext
            · cases isNext
      · rw [if_neg goes] at isNext
        cases isNext
  · cases isNext

/-- The group takes the assigns of the instances it passes. -/
theorem takeGroup_of (group : AssignGroup) (part : List (BitNet × BitNet)) (instances : List Instance)
    (of : group.Of m part) (attached : ∀ assign ∈ instances.filterMap getAssignConnectivity,
      assign.1.net ∈ m.nets ∧ assign.2.net ∈ m.nets) :
    ∃ taken, (takeGroup group instances).1.Of m (part ++ taken) ∧
      taken ++ (takeGroup group instances).2.filterMap getAssignConnectivity =
        instances.filterMap getAssignConnectivity := by
  induction instances generalizing group part with
  | nil => exact ⟨[], (List.append_nil part).symm ▸ of, rfl⟩
  | cons inst rest ih =>
      unfold takeGroup
      cases isAssign : getAssignConnectivity inst with
      | none => exact ⟨[], (List.append_nil part).symm ▸ of, rfl⟩
      | some assign =>
          obtain ⟨inputNet, outputNet⟩ := assign
          rw [List.filterMap_cons_some isAssign] at attached ⊢
          obtain ⟨inputMem, outputMem⟩ := attached _ List.mem_cons_self
          simp only
          cases isNext : appendAssignGroup group inputNet outputNet with
          | none => exact ⟨[], (List.append_nil part).symm ▸ of, List.filterMap_cons_some isAssign⟩
          | some next =>
              have of' := appendAssignGroup_of group next part inputNet outputNet of isNext inputMem outputMem
              obtain ⟨taken, ofTaken, rest'⟩ := ih next _ of' (fun assign mem => attached assign (List.mem_cons_of_mem _ mem))
              rw [List.append_assoc] at ofTaken
              exact ⟨(inputNet, outputNet) :: taken, ofTaken, congrArg _ rest'⟩

end group

end Naja.Verilog

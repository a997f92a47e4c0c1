import Naja.Verilog.Expressions
import Mathlib.Data.List.Nodup
import Mathlib.Data.List.Perm.Subperm

/-! The names the dumper writes for the nets of one module, and the wires it adds
for the unconnected bits of partly connected ports. Nets with names keep them;
every other name is taken from a sequence until one is free. -/

namespace Naja.Verilog
open Netlist (NetType)

/-! ### Nets -/

structure ScalarNet where
  id : Nat
  name : Option String
  type : NetType
deriving DecidableEq, Repr

/-- `types` goes by position, from the most significant bit on. -/
structure BusNet where
  id : Nat
  name : Option String
  msb : Int
  lsb : Int
  types : List NetType
deriving DecidableEq, Repr

inductive Net where
  | scalar (net : ScalarNet)
  | bus (net : BusNet)
deriving DecidableEq, Repr

def Net.id : Net → Nat
  | .scalar net => net.id
  | .bus net => net.id

def Net.name : Net → Option String
  | .scalar net => net.name
  | .bus net => net.name

def isAssignType (type : NetType) : Bool :=
  type == .Assign0 || type == .Assign1 || type == .AssignX || type == .AssignZ

/-- `isAssignConstant`: all bits are the same constant. -/
def Net.isAssignConstant : Net → Bool
  | .scalar net => isAssignType net.type
  | .bus net => [NetType.Assign0, .Assign1, .AssignX, .AssignZ].any (fun type => net.types.all (fun t => t == type))

/-- A bit between the bounds of its bus. -/
structure BusNetBit where
  bus : BusNet
  bit : Int
  inside : bus.lsb ≤ bit ∧ bit ≤ bus.msb ∨ bus.msb ≤ bit ∧ bit ≤ bus.lsb
  typed : (bit - bus.msb).natAbs < bus.types.length
deriving DecidableEq, Repr

def BusNetBit.type (b : BusNetBit) : NetType := b.bus.types.get ⟨(b.bit - b.bus.msb).natAbs, b.typed⟩

inductive BitNet where
  | scalar (net : ScalarNet)
  | busBit (bit : BusNetBit)
deriving DecidableEq, Repr

def BitNet.type : BitNet → NetType
  | .scalar net => net.type
  | .busBit bit => bit.type

def BitNet.isAssignConstant (net : BitNet) : Bool := isAssignType net.type

def BitNet.net : BitNet → Net
  | .scalar net => .scalar net
  | .busBit bit => .bus bit.bus

/-- The net of a bit that is no constant is none either. -/
theorem net_not_assignConstant (net : BitNet) (ordinary : net.isAssignConstant = false) :
    net.net.isAssignConstant = false := by
  cases net with
  | scalar net => exact ordinary
  | busBit bit =>
      change [NetType.Assign0, .Assign1, .AssignX, .AssignZ].any (fun type => bit.bus.types.all (fun t => t == type)) = false
      rw [List.any_eq_false]
      intro type constant all
      have same := List.all_eq_true.mp all bit.type (List.get_mem _ _)
      have isType : isAssignType bit.type = true := by
        rw [beq_iff_eq.mp same]
        exact (by decide : ∀ t ∈ [NetType.Assign0, .Assign1, .AssignX, .AssignZ], isAssignType t = true) type constant
      exact absurd (ordinary.symm.trans isType) Bool.false_ne_true

/-! ### Free names -/

/-- The names tried: the base, then the base with a number. -/
def candidate (base : String) : Nat → String
  | 0 => base
  | n + 1 => base ++ "_" ++ toString n

/-- `while (taken.find(name) != taken.end())`: more names than there are taken ones need not be tried. -/
def freeNameFrom (taken : List String) (base : String) : Nat → Nat → String
  | 0, n => candidate base n
  | tries + 1, n => if candidate base n ∈ taken then freeNameFrom taken base tries (n + 1) else candidate base n

def freeName (taken : List String) (base : String) : String := freeNameFrom taken base taken.length 0

theorem toString_injective (m n : Nat) (same : toString m = toString n) : m = n := by
  rw [Nat.toString_eq_ofList_toDigits, Nat.toString_eq_ofList_toDigits] at same
  have digits := String.ofList_injective same
  rw [← Nat.ofDigitChars_ten_toDigits (n := m), ← Nat.ofDigitChars_ten_toDigits (n := n), digits]

theorem candidate_injective (base : String) : Function.Injective (candidate base) := by
  intro m n same
  have lists := congrArg String.toList same
  cases m with
  | zero =>
      cases n with
      | zero => rfl
      | succ n => simp [candidate] at lists
  | succ m =>
      cases n with
      | zero => simp [candidate] at lists
      | succ n =>
          simp only [candidate, String.toList_append, List.append_cancel_left_eq, List.append_assoc] at lists
          exact congrArg (· + 1) (toString_injective m n (String.toList_injective lists))

/-- If the loop ends on a taken name, it has tried a run of taken names. -/
theorem freeNameFrom_taken (taken : List String) (base : String) (tries n : Nat)
    (ends : freeNameFrom taken base tries n ∈ taken) :
    ∀ i ∈ List.range' n (tries + 1), candidate base i ∈ taken := by
  induction tries generalizing n with
  | zero =>
      intro i mem
      rw [List.mem_range'_1] at mem
      rw [show i = n by omega]
      exact ends
  | succ tries ih =>
      unfold freeNameFrom at ends
      split at ends
      · next first =>
          intro i mem
          rw [List.mem_range'_1] at mem
          by_cases here : i = n
          · exact here ▸ first
          · exact ih (n + 1) ends i (by rw [List.mem_range'_1]; omega)
      · next first => exact absurd ends first

/-- There are more candidates than taken names. -/
theorem freeName_not_mem (taken : List String) (base : String) : freeName taken base ∉ taken := by
  intro ends
  have tried := freeNameFrom_taken taken base taken.length 0 ends
  have sub : (List.range' 0 (taken.length + 1)).map (candidate base) ⊆ taken := by
    intro name mem
    obtain ⟨i, inRange, rfl⟩ := List.mem_map.mp mem
    exact tried i inRange
  have nodup : ((List.range' 0 (taken.length + 1)).map (candidate base)).Nodup :=
    (List.nodup_range' ..).map (candidate_injective base)
  have short := (List.subperm_of_subset nodup sub).length_le
  rw [List.length_map, List.length_range'] at short
  omega

theorem candidate_text (base : String) (text : base ≠ "") (n : Nat) : candidate base n ≠ "" := by
  cases n with
  | zero => exact text
  | succ n =>
      intro empty
      have lists := congrArg String.toList empty
      simp [candidate] at lists

theorem freeName_text (taken : List String) (base : String) (text : base ≠ "") : freeName taken base ≠ "" := by
  have isCandidate (tries n : Nat) : ∃ k, freeNameFrom taken base tries n = candidate base k := by
    induction tries generalizing n with
    | zero => exact ⟨n, rfl⟩
    | succ tries ih =>
        unfold freeNameFrom
        split
        · exact ih (n + 1)
        · exact ⟨n, rfl⟩
  obtain ⟨k, same⟩ := isCandidate taken.length 0
  rw [freeName, same]
  exact candidate_text base text k

/-! ### Naming -/

/-- An instance terminal: its instance, the flat ID of its bit term, the term, and its net. -/
structure InstTerm where
  inst : Nat
  flatID : Nat
  term : Nat
  net : Option BitNet
deriving DecidableEq, Repr

def InstTerm.key (t : InstTerm) : Nat × Nat := (t.inst, t.flatID)

/-- What the dumper distinguishes in the model of an instance. -/
inductive ModelKind where
  | assign | gate | other
deriving DecidableEq, Repr

/-- The instance terminals are in the order of their flat IDs. -/
structure Instance where
  kind : ModelKind
  instTerms : List InstTerm
deriving DecidableEq, Repr

structure Naming where
  netTermNameSet_ : List String
  netNames_ : List (Nat × String) := []
  unusedWireNames_ : List ((Nat × Nat) × String) := []
deriving DecidableEq, Repr

def createNetName (naming : Naming) (net : Net) : Naming :=
  let name := freeName naming.netTermNameSet_ ("net_" ++ toString net.id)
  { naming with netTermNameSet_ := name :: naming.netTermNameSet_, netNames_ := naming.netNames_ ++ [(net.id, name)] }

def createUnusedWireName (naming : Naming) (t : InstTerm) : Naming :=
  if (naming.unusedWireNames_.lookup t.key).isSome then naming
  else
    let name := freeName naming.netTermNameSet_ ("_naja_unused_" ++ toString t.inst ++ "_" ++ toString t.flatID)
    { naming with
      netTermNameSet_ := name :: naming.netTermNameSet_
      unusedWireNames_ := naming.unusedWireNames_ ++ [(t.key, name)] }

def getNetName (naming : Naming) (net : Net) : String := net.name.getD ((naming.netNames_.lookup net.id).getD "")

def getUnusedWireName (naming : Naming) (t : InstTerm) : String := (naming.unusedWireNames_.lookup t.key).getD ""

/-- The ports of an instance: runs of terminals of one term. -/
def ports (instTerms : List InstTerm) : List (List InstTerm) := instTerms.splitBy (fun s t => s.term == t.term)

def isUnused (t : InstTerm) : Bool := t.net.isNone

/-- The unconnected bits that get a wire: all of a gate, and those of partly connected ports. -/
def unusedInstTerms (inst : Instance) : List InstTerm :=
  match inst.kind with
  | .assign => []
  | .gate => inst.instTerms.filter isUnused
  | .other => (ports inst.instTerms).flatMap (fun port =>
      if port.any (fun t => t.net.isSome) then port.filter isUnused else [])

def collectUnusedWireNames (naming : Naming) (instances : List Instance) : Naming :=
  (instances.flatMap unusedInstTerms).foldl createUnusedWireName naming

/-- The nets that `dumpNets` names: those it declares that have no name. -/
def unnamedNets (nets : List Net) : List Net := nets.filter (fun net => net.name.isNone && !net.isAssignConstant)

/-- A module: the names of its terms, its nets and its instances. Nets have IDs of their own and, the named ones,
names of their own; a net with the name of a term is the net of that term. Terminals have keys of their own,
and their nets are nets of the module. -/
structure Module where
  termNames : List String
  nets : List Net
  instances : List Instance
  ids : (nets.map Net.id).Nodup
  names : (nets.filterMap Net.name).Nodup
  named : ∀ net ∈ nets, net.name ≠ some ""
  keys : ((instances.flatMap Instance.instTerms).map InstTerm.key).Nodup
  attached : ∀ inst ∈ instances, ∀ t ∈ inst.instTerms, ∀ net, t.net = some net → net.net ∈ nets

/-- The names after `dumpNets`. -/
def naming (m : Module) : Naming :=
  (unnamedNets m.nets).foldl createNetName
    (collectUnusedWireNames { netTermNameSet_ := m.termNames ++ m.nets.filterMap Net.name } m.instances)

/-- The created names. -/
def Naming.created (naming : Naming) : List String :=
  naming.unusedWireNames_.map Prod.snd ++ naming.netNames_.map Prod.snd

/-- Created names are their own, and none of those that were there. -/
structure Naming.Fresh (reserved : List String) (naming : Naming) : Prop where
  nodup : naming.created.Nodup
  taken : ∀ name ∈ naming.created, name ∈ naming.netTermNameSet_
  kept : ∀ name ∈ reserved, name ∈ naming.netTermNameSet_
  disjoint : ∀ name ∈ naming.created, name ∉ reserved
  nonempty : ∀ name ∈ naming.created, name ≠ ""

/-- Another name that was not taken, wherever it is recorded. -/
theorem Naming.Fresh.add {reserved : List String} {before after : Naming} {name : String}
    (fresh : before.Fresh reserved) (free : name ∉ before.netTermNameSet_) (text : name ≠ "")
    (taken : after.netTermNameSet_ = name :: before.netTermNameSet_)
    (created : after.created.Perm (name :: before.created)) : after.Fresh reserved := by
  refine ⟨?_, fun other mem => ?_, fun other mem => ?_, fun other mem => ?_, fun other mem => ?_⟩
  · rw [created.nodup_iff, List.nodup_cons]
    exact ⟨fun mem => free (fresh.taken name mem), fresh.nodup⟩
  · rw [taken]
    rcases List.mem_cons.mp (created.mem_iff.mp mem) with rfl | mem
    · exact List.mem_cons_self
    · exact List.mem_cons_of_mem _ (fresh.taken other mem)
  · rw [taken]
    exact List.mem_cons_of_mem _ (fresh.kept other mem)
  · rcases List.mem_cons.mp (created.mem_iff.mp mem) with rfl | mem
    · exact fun known => free (fresh.kept other known)
    · exact fresh.disjoint other mem
  · rcases List.mem_cons.mp (created.mem_iff.mp mem) with rfl | mem
    · exact text
    · exact fresh.nonempty other mem

theorem createNetName_fresh (reserved : List String) (before : Naming) (net : Net) (fresh : before.Fresh reserved) :
    (createNetName before net).Fresh reserved := by
  apply fresh.add (freeName_not_mem before.netTermNameSet_ ("net_" ++ toString net.id)) (freeName_text _ _ (by simp)) rfl
  rw [Naming.created, Naming.created, createNetName, List.map_append, ← List.append_assoc]
  exact List.perm_append_singleton _ _

theorem createUnusedWireName_fresh (reserved : List String) (before : Naming) (t : InstTerm)
    (fresh : before.Fresh reserved) : (createUnusedWireName before t).Fresh reserved := by
  unfold createUnusedWireName
  split
  · exact fresh
  · apply fresh.add (freeName_not_mem before.netTermNameSet_ _) (freeName_text _ _ (by simp)) rfl
    rw [Naming.created, Naming.created, List.map_append, List.append_assoc]
    exact List.perm_middle

theorem naming_fresh (m : Module) : (naming m).Fresh (m.termNames ++ m.nets.filterMap Net.name) := by
  have start : Naming.Fresh (m.termNames ++ m.nets.filterMap Net.name)
      { netTermNameSet_ := m.termNames ++ m.nets.filterMap Net.name } := ⟨List.nodup_nil, nofun, fun _ mem => mem, nofun, nofun⟩
  unfold naming collectUnusedWireNames
  refine List.foldlRecOn (motive := fun n : Naming => n.Fresh (m.termNames ++ m.nets.filterMap Net.name)) _
    createNetName ?_ (fun before fresh net _ => createNetName_fresh _ before net fresh)
  exact List.foldlRecOn (motive := fun n : Naming => n.Fresh (m.termNames ++ m.nets.filterMap Net.name)) _
    createUnusedWireName start (fun before fresh t _ => createUnusedWireName_fresh _ before t fresh)

/-! ### Lookups -/

section lookup
variable {κ υ : Type} [BEq κ] [LawfulBEq κ]

theorem lookup_of_mem (l : List (κ × υ)) (k : κ) (v : υ) (mem : (k, v) ∈ l) (only : ∀ v', (k, v') ∈ l → v' = v) :
    l.lookup k = some v := by
  induction l with
  | nil => cases mem
  | cons entry l ih =>
      obtain ⟨k', v'⟩ := entry
      rw [List.lookup_cons]
      by_cases here : k = k'
      · subst here
        rw [beq_self_eq_true, only v' List.mem_cons_self]
      · rw [beq_false_of_ne here]
        rcases List.mem_cons.mp mem with same | mem
        · exact absurd (congrArg Prod.fst same) here
        · exact ih mem (fun v' mem => only v' (List.mem_cons_of_mem _ mem))

theorem lookup_of_key (l : List (κ × υ)) (nodup : (l.map Prod.fst).Nodup) (k : κ) (key : k ∈ l.map Prod.fst) :
    ∃ v, (k, v) ∈ l ∧ l.lookup k = some v := by
  obtain ⟨⟨k', v⟩, mem, rfl⟩ := List.mem_map.mp key
  refine ⟨v, mem, lookup_of_mem l k' v mem (fun v' mem' => ?_)⟩
  exact congrArg Prod.snd (List.inj_on_of_nodup_map nodup mem' mem rfl)

theorem lookup_isSome (l : List (κ × υ)) (k : κ) : (l.lookup k).isSome = true ↔ k ∈ l.map Prod.fst := by
  induction l with
  | nil => simp
  | cons entry l ih =>
      obtain ⟨k', v'⟩ := entry
      rw [List.lookup_cons, List.map_cons, List.mem_cons, ← ih]
      by_cases here : k = k'
      · subst here
        simp
      · rw [beq_false_of_ne here]
        simp [here]

theorem mem_of_lookup (l : List (κ × υ)) (k : κ) (v : υ) (found : l.lookup k = some v) : (k, v) ∈ l := by
  induction l with
  | nil => cases found
  | cons entry l ih =>
      obtain ⟨k', v'⟩ := entry
      rw [List.lookup_cons] at found
      by_cases here : k = k'
      · subst here
        rw [beq_self_eq_true] at found
        rw [Option.some.inj found]
        exact List.mem_cons_self
      · rw [beq_false_of_ne here] at found
        exact List.mem_cons_of_mem _ (ih found)

/-- With distinct images, an image has one preimage. -/
theorem eq_of_filterMap_nodup {α β : Type} (f : α → Option β) (l : List α) (nodup : (l.filterMap f).Nodup) (a b : α)
    (mem : a ∈ l) (mem' : b ∈ l) (x : β) (fa : f a = some x) (fb : f b = some x) : a = b := by
  induction l with
  | nil => cases mem
  | cons c l ih =>
      cases fc : f c with
      | none =>
          rw [List.filterMap_cons_none fc] at nodup
          have inTail (d : α) (mem : d ∈ c :: l) (fd : f d = some x) : d ∈ l := by
            rcases List.mem_cons.mp mem with rfl | mem
            · rw [fc] at fd
              cases fd
            · exact mem
          exact ih nodup (inTail a mem fa) (inTail b mem' fb)
      | some y =>
          rw [List.filterMap_cons_some fc, List.nodup_cons] at nodup
          rcases List.mem_cons.mp mem with here | later <;> rcases List.mem_cons.mp mem' with here' | later'
          · exact here.trans here'.symm
          · rw [here, fc] at fa
            exact absurd (List.mem_filterMap.mpr ⟨b, later', fb.trans fa.symm⟩) nodup.1
          · rw [here', fc] at fb
            exact absurd (List.mem_filterMap.mpr ⟨a, later, fa.trans fb.symm⟩) nodup.1
          · exact ih nodup.2 later later'

end lookup

theorem netNames_keys (before : Naming) (nets : List Net) :
    (nets.foldl createNetName before).netNames_.map Prod.fst = before.netNames_.map Prod.fst ++ nets.map Net.id ∧
      (nets.foldl createNetName before).unusedWireNames_ = before.unusedWireNames_ := by
  induction nets generalizing before with
  | nil => exact ⟨(List.append_nil _).symm, rfl⟩
  | cons net nets ih =>
      obtain ⟨keys, unused⟩ := ih (createNetName before net)
      rw [List.foldl_cons]
      refine ⟨?_, unused⟩
      rw [keys, createNetName, List.map_append, List.append_assoc]
      rfl

theorem unused_keys (before : Naming) (instTerms : List InstTerm) (nodup : (before.unusedWireNames_.map Prod.fst).Nodup) :
    (instTerms.foldl createUnusedWireName before).netNames_ = before.netNames_ ∧
      ((instTerms.foldl createUnusedWireName before).unusedWireNames_.map Prod.fst).Nodup ∧
      ∀ key, key ∈ (instTerms.foldl createUnusedWireName before).unusedWireNames_.map Prod.fst ↔
        key ∈ before.unusedWireNames_.map Prod.fst ∨ key ∈ instTerms.map InstTerm.key := by
  induction instTerms generalizing before with
  | nil => exact ⟨rfl, nodup, fun key => by simp⟩
  | cons t instTerms ih =>
      rw [List.foldl_cons]
      by_cases known : (before.unusedWireNames_.lookup t.key).isSome
      · have same : createUnusedWireName before t = before := if_pos known
        rw [same]
        obtain ⟨netNames, nodup', keys⟩ := ih before nodup
        refine ⟨netNames, nodup', fun key => ?_⟩
        rw [keys, List.map_cons, List.mem_cons]
        have present := (lookup_isSome _ _).mp known
        constructor
        · exact fun given => given.imp id .inr
        · rintro (before | rfl | later)
          · exact .inl before
          · exact .inl present
          · exact .inr later
      · have added : (createUnusedWireName before t).unusedWireNames_.map Prod.fst =
            before.unusedWireNames_.map Prod.fst ++ [t.key] := by
          rw [createUnusedWireName, if_neg known, List.map_append]
          rfl
        have absent : t.key ∉ before.unusedWireNames_.map Prod.fst := fun mem => known ((lookup_isSome _ _).mpr mem)
        obtain ⟨netNames, nodup', keys⟩ := ih (createUnusedWireName before t) (by
          rw [added, List.nodup_append_comm]
          exact List.nodup_cons.mpr ⟨absent, nodup⟩)
        refine ⟨netNames.trans ?_, nodup', fun key => ?_⟩
        · rw [createUnusedWireName, if_neg known]
        · rw [keys, added, List.mem_append, List.mem_singleton, List.map_cons, List.mem_cons, or_assoc]

section module
variable (m : Module)

theorem naming_netNames : (naming m).netNames_.map Prod.fst = (unnamedNets m.nets).map Net.id := by
  unfold naming collectUnusedWireNames
  rw [(netNames_keys _ _).1, (unused_keys { netTermNameSet_ := m.termNames ++ m.nets.filterMap Net.name } _
    List.nodup_nil).1]
  rfl

theorem naming_unused : ((naming m).unusedWireNames_.map Prod.fst).Nodup ∧
    ∀ t ∈ m.instances.flatMap unusedInstTerms, t.key ∈ (naming m).unusedWireNames_.map Prod.fst := by
  unfold naming collectUnusedWireNames
  rw [(netNames_keys _ _).2]
  obtain ⟨-, nodup, keys⟩ := unused_keys { netTermNameSet_ := m.termNames ++ m.nets.filterMap Net.name }
    (m.instances.flatMap unusedInstTerms) List.nodup_nil
  exact ⟨nodup, fun t mem => (keys t.key).mpr (.inr (List.mem_map_of_mem mem))⟩

/-- An unnamed net that is declared has a created name. -/
theorem getNetName_created (net : Net) (mem : net ∈ m.nets) (ordinary : net.isAssignConstant = false)
    (unnamed : net.name = none) : (net.id, getNetName (naming m) net) ∈ (naming m).netNames_ := by
  have key : net.id ∈ (naming m).netNames_.map Prod.fst := by
    rw [naming_netNames]
    refine List.mem_map_of_mem (List.mem_filter.mpr ⟨mem, ?_⟩)
    rw [unnamed, ordinary]
    rfl
  have nodup : ((naming m).netNames_.map Prod.fst).Nodup := by
    rw [naming_netNames]
    exact m.ids.sublist (List.filter_sublist.map Net.id)
  obtain ⟨name, entry, found⟩ := lookup_of_key _ nodup _ key
  rw [getNetName, unnamed, Option.getD_none, found, Option.getD_some]
  exact entry

theorem getUnusedWireName_created (t : InstTerm) (mem : t ∈ m.instances.flatMap unusedInstTerms) :
    (t.key, getUnusedWireName (naming m) t) ∈ (naming m).unusedWireNames_ := by
  obtain ⟨nodup, keys⟩ := naming_unused m
  obtain ⟨name, entry, found⟩ := lookup_of_key _ nodup _ (keys t mem)
  rw [getUnusedWireName, found, Option.getD_some]
  exact entry

/-- A net is declared, as a wire or by the port of its name. -/
def Net.shown (net : Net) : Bool := !net.isAssignConstant || net.name.any (fun name => m.termNames.contains name)

theorem ordinary_of_unnamed (net : Net) (shown : net.shown m = true) (unnamed : net.name = none) :
    net.isAssignConstant = false := by
  rw [Net.shown, unnamed] at shown
  simpa using shown

theorem shown_of_ordinary (net : Net) (ordinary : net.isAssignConstant = false) : net.shown m = true := by
  rw [Net.shown, ordinary]
  rfl

/-- Different nets have different names. -/
theorem getNetName_injective (net other : Net) (mem : net ∈ m.nets) (mem' : other ∈ m.nets)
    (shown : net.shown m = true) (shown' : other.shown m = true)
    (same : getNetName (naming m) net = getNetName (naming m) other) : net = other := by
  have fresh := naming_fresh m
  have reserved (n : Net) (mem : n ∈ m.nets) (name : String) (named : n.name = some name) :
      name ∈ m.termNames ++ m.nets.filterMap Net.name :=
    List.mem_append_right _ (List.mem_filterMap.mpr ⟨n, mem, named⟩)
  have created (n : Net) (mem : n ∈ m.nets) (shown : n.shown m = true) (unnamed : n.name = none) :
      getNetName (naming m) n ∈ (naming m).created :=
    List.mem_append_right _
      (List.mem_map_of_mem (getNetName_created m n mem (ordinary_of_unnamed m n shown unnamed) unnamed))
  cases name : net.name with
  | none =>
      cases name' : other.name with
      | none =>
          have entry := getNetName_created m net mem (ordinary_of_unnamed m net shown name) name
          have entry' := getNetName_created m other mem' (ordinary_of_unnamed m other shown' name') name'
          rw [same] at entry
          have pair := List.inj_on_of_nodup_map (List.nodup_append.mp fresh.nodup).2.1 entry entry' rfl
          exact List.inj_on_of_nodup_map m.ids mem mem' (congrArg Prod.fst pair)
      | some other_name =>
          have isName : getNetName (naming m) other = other_name := by rw [getNetName, name', Option.getD_some]
          have clash := fresh.disjoint _ (created net mem shown name)
          rw [same, isName] at clash
          exact absurd (reserved other mem' other_name name') clash
  | some net_name =>
      have isName : getNetName (naming m) net = net_name := by rw [getNetName, name, Option.getD_some]
      cases name' : other.name with
      | none =>
          have clash := fresh.disjoint _ (created other mem' shown' name')
          rw [← same, isName] at clash
          exact absurd (reserved net mem net_name name) clash
      | some other_name =>
          have isName' : getNetName (naming m) other = other_name := by rw [getNetName, name', Option.getD_some]
          rw [isName, isName'] at same
          subst same
          exact eq_of_filterMap_nodup Net.name m.nets m.names net other mem mem' net_name name name'

end module

/-! ### Declarations -/

/-- What the dumper declares: nets, and wires for unconnected bits. -/
inductive Object where
  | net (id : Nat)
  | filler (key : Nat × Nat)
deriving DecidableEq, Repr

def Net.declaration : Net → Declaration Object
  | .scalar net => .wire (.net net.id)
  | .bus net => .bus (.net net.id) net.msb net.lsb

/-- The declarations of `dumpInterface` and `dumpNets` and those of `dumpUnusedWireDeclarations`. -/
def declarations (m : Module) : List (String × Declaration Object) :=
  (m.nets.filter (Net.shown m)).map (fun net => (getNetName (naming m) net, net.declaration)) ++
    (naming m).unusedWireNames_.map (fun entry => (entry.2, .wire (.filler entry.1)))

def declared (m : Module) (id : String) : Option (Declaration Object) := (declarations m).lookup id

/-- The bit an instance terminal or an assignment is about: a constant, a net, or a bit of a bus. -/
def BitNet.connected (net : BitNet) : ConnectedBit Object :=
  if net.isAssignConstant then .constant net.type
  else
    match net with
    | .scalar net => .wire (.net net.id)
    | .busBit b => .select (.net b.bus.id) b.bit

section module
variable (m : Module)

theorem created_not_name (net : Net) (mem : net ∈ m.nets) (shown : net.shown m = true)
    (entry : (Nat × Nat) × String) (used : entry ∈ (naming m).unusedWireNames_) :
    getNetName (naming m) net ≠ entry.2 := by
  intro same
  have fresh := naming_fresh m
  have isCreated : entry.2 ∈ (naming m).created := List.mem_append_left _ (List.mem_map_of_mem used)
  cases name : net.name with
  | none =>
      have created := List.mem_map_of_mem (f := Prod.snd) (getNetName_created m net mem
        (ordinary_of_unnamed m net shown name) name)
      have apart := (List.nodup_append.mp fresh.nodup).2.2 entry.2 (List.mem_map_of_mem used) _ created
      exact apart same.symm
  | some own =>
      have isName : getNetName (naming m) net = own := by rw [getNetName, name, Option.getD_some]
      have reserved : own ∈ m.termNames ++ m.nets.filterMap Net.name :=
        List.mem_append_right _ (List.mem_filterMap.mpr ⟨net, mem, name⟩)
      rw [isName] at same
      exact fresh.disjoint _ isCreated (same ▸ reserved)

theorem mem_declarations (id : String) (d : Declaration Object) : (id, d) ∈ declarations m ↔
    (∃ net ∈ m.nets, net.shown m = true ∧ getNetName (naming m) net = id ∧ net.declaration = d) ∨
      ∃ entry ∈ (naming m).unusedWireNames_, entry.2 = id ∧ Declaration.wire (Object.filler entry.1) = d := by
  rw [declarations, List.mem_append, List.mem_map, List.mem_map]
  refine or_congr ⟨?_, ?_⟩ ⟨?_, ?_⟩
  · rintro ⟨net, mem, same⟩
    obtain ⟨inNets, shown⟩ := List.mem_filter.mp mem
    exact ⟨net, inNets, shown, congrArg Prod.fst same, congrArg Prod.snd same⟩
  · rintro ⟨net, inNets, shown, rfl, rfl⟩
    exact ⟨net, List.mem_filter.mpr ⟨inNets, shown⟩, rfl⟩
  · rintro ⟨entry, mem, same⟩
    exact ⟨entry, mem, congrArg Prod.fst same, congrArg Prod.snd same⟩
  · rintro ⟨entry, mem, rfl, rfl⟩
    exact ⟨entry, mem, rfl⟩

/-- The name of a declared net is declared as that net. -/
theorem declared_shown (net : Net) (mem : net ∈ m.nets) (shown : net.shown m = true) :
    declared m (getNetName (naming m) net) = some net.declaration := by
  apply lookup_of_mem
  · exact (mem_declarations m _ _).mpr (.inl ⟨net, mem, shown, rfl, rfl⟩)
  · intro d listed
    rcases (mem_declarations m _ _).mp listed with ⟨other, mem', shown', same, rfl⟩ | ⟨entry, used, same, -⟩
    · rw [getNetName_injective m other net mem' mem shown' shown same]
    · exact absurd same.symm (created_not_name m net mem shown entry used)

theorem declared_net (net : Net) (mem : net ∈ m.nets) (ordinary : net.isAssignConstant = false) :
    declared m (getNetName (naming m) net) = some net.declaration :=
  declared_shown m net mem (shown_of_ordinary m net ordinary)

/-- A net that is not declared has its own name, or none. -/
theorem getNetName_hidden (net : Net) (mem : net ∈ m.nets) (hidden : net.shown m = false) (unnamed : net.name = none) :
    getNetName (naming m) net = "" := by
  have noKey : (naming m).netNames_.lookup net.id = none := by
    rw [← Option.not_isSome_iff_eq_none, lookup_isSome, naming_netNames]
    intro listed
    obtain ⟨other, isUnnamed, sameID⟩ := List.mem_map.mp listed
    obtain ⟨inNets, created⟩ := List.mem_filter.mp isUnnamed
    rw [List.inj_on_of_nodup_map m.ids inNets mem sameID] at created
    rw [Net.shown, Bool.or_eq_false_iff] at hidden
    rw [hidden.1, Bool.and_false] at created
    cases created
  rw [getNetName, unnamed, Option.getD_none, noKey, Option.getD_none]

theorem declared_hidden (net : Net) (mem : net ∈ m.nets) (hidden : net.shown m = false) :
    declared m (getNetName (naming m) net) = none := by
  have fresh := naming_fresh m
  have apart : ∀ name ∈ (naming m).created, name ≠ getNetName (naming m) net := by
    intro name created same
    cases own : net.name with
    | none =>
        rw [getNetName_hidden m net mem hidden own] at same
        exact fresh.nonempty name created same
    | some ownName =>
        rw [getNetName, own, Option.getD_some] at same
        have reserved : ownName ∈ m.termNames ++ m.nets.filterMap Net.name :=
          List.mem_append_right _ (List.mem_filterMap.mpr ⟨net, mem, own⟩)
        exact fresh.disjoint name created (same ▸ reserved)
  cases found : declared m (getNetName (naming m) net) with
  | none => rfl
  | some d =>
      have listed := mem_of_lookup _ _ _ found
      rcases (mem_declarations m _ _).mp listed with ⟨other, mem', shown, same, -⟩ | ⟨entry, used, same, -⟩
      · cases otherName : other.name with
        | none =>
            have ordinary := ordinary_of_unnamed m other shown otherName
            have created := List.mem_map_of_mem (f := Prod.snd) (getNetName_created m other mem' ordinary otherName)
            exact absurd same (apart _ (List.mem_append_right _ created))
        | some name =>
            rw [getNetName, otherName, Option.getD_some] at same
            cases own : net.name with
            | none =>
                rw [getNetName_hidden m net mem hidden own] at same
                exact absurd (same ▸ otherName) (m.named other mem')
            | some ownName =>
                rw [getNetName, own, Option.getD_some] at same
                have sameNet := eq_of_filterMap_nodup Net.name m.nets m.names other net mem' mem name otherName (same ▸ own)
                rw [sameNet, hidden] at shown
                cases shown
      · exact absurd same (apart _ (List.mem_append_left _ (List.mem_map_of_mem used)))

/-- The name of an unused wire is declared as the wire of that terminal. -/
theorem declared_unused (t : InstTerm) (mem : t ∈ m.instances.flatMap unusedInstTerms) :
    declared m (getUnusedWireName (naming m) t) = some (.wire (.filler t.key)) := by
  have entry := getUnusedWireName_created m t mem
  apply lookup_of_mem
  · exact (mem_declarations m _ _).mpr (.inr ⟨_, entry, rfl, rfl⟩)
  · intro d listed
    rcases (mem_declarations m _ _).mp listed with ⟨net, mem', shown, same, -⟩ | ⟨other, used, same, rfl⟩
    · exact absurd same (created_not_name m net mem' shown _ entry)
    · have names := (List.nodup_append.mp (naming_fresh m).nodup).1
      rw [List.inj_on_of_nodup_map names used entry same]

end module

end Naja.Verilog

import Naja.Vhdl.AnalyzerSound
import Naja.Registry.Index
import Mathlib.Data.List.Nodup
import Mathlib.Data.List.Induction

/-! Generic maps: which actual each generic of an instance gets, when nothing is
reported. The positional actuals go to the generics that have no named one, in order,
so that they are where they were written only if those come after them. -/

namespace Naja.Vhdl.Analyzer
open Report

/-! ### What is claimed -/

def namedActuals (instantiation : EntityInstantiation) (name : String) : List GenericAssociation :=
  instantiation.generics.filter (fun association => association.formal.any (fun formal => key formal == name))

def positionalActuals (instantiation : EntityInstantiation) : List GenericAssociation :=
  instantiation.generics.filter (fun association => association.formal.isNone)

/-- The actuals that are written for the generic at a position. -/
def actualsOf (instantiation : EntityInstantiation) (position : Nat) (name : String) : List GenericAssociation :=
  namedActuals instantiation name ++ (positionalActuals instantiation)[position]?.toList

/-- The value of the one actual, or of the default without one. -/
def Given (architectureValues earlier : GenericValues) (generic : GenericDeclaration)
    (actuals : List GenericAssociation) (value : Int64) : Prop :=
  match actuals with
  | [] => ∃ defaultValue, generic.defaultValue = some defaultValue ∧ evaluateInteger earlier defaultValue = some value
  | [association] => evaluateInteger architectureValues association.actual = some value
  | _ => False

def InSubtype (type : TypeMark) (value : Int64) : Prop :=
  (type.name.canonical = "natural" → 0 ≤ value.toInt) ∧ (type.name.canonical = "positive" → 0 < value.toInt)

/-- The instance has its generics resolved as they are written. -/
structure MapResolved (architectureValues : GenericValues) (architecture index : Nat) (model : EntityDeclaration)
    (instantiation : EntityInstantiation) (report : Report) (values : GenericValues) : Prop where
  recorded : report.genericValues.lookup (architecture, index) = some values
  given : ∀ position generic name, (modelGenerics model)[position]? = some (generic, name) →
    ∃ value, values.lookup (key name) = some value ∧ InSubtype generic.type value ∧
      Given architectureValues (values.take position) generic (actualsOf instantiation position (key name)) value
  used : ((bindings model instantiation).1.filterMap Binding.association).Perm instantiation.generics
  ranges : ∀ place port, model.ports[place]? = some port →
    report.specializedTypeRanges.lookup (architecture, index, place) =
      port.type.constraint.bind (fun constraint => resolveRange constraint values)

/-- No generic in the place of a positional actual has a named one. -/
def NoneGivenTwice (model : EntityDeclaration) (instantiation : EntityInstantiation) : Prop :=
  ∀ position generic name, (modelGenerics model)[position]? = some (generic, name) →
    position < (positionalActuals instantiation).length → namedActuals instantiation (key name) = []

/-! ### Associations -/

/-- The sorted associations are those of the list. -/
structure Sorted (associations : List GenericAssociation) (s : Associations) : Prop where
  named : ∀ name, associations.filter (fun association => association.formal.any (fun formal => key formal == name)) =
    (s.named.lookup name).toList
  positional : associations.filter (fun association => association.formal.isNone) = s.positional
  keys : (s.named.map Prod.fst).Nodup
  formals : ∀ entry ∈ s.named, entry.2.formal.map key = some entry.1
  whole : (s.named.map Prod.snd ++ s.positional).Perm associations

theorem associate_quiet (s : Associations) (association : GenericAssociation)
    (quiet : (associate s association).report.Quiet) : s.report.Quiet := by
  unfold associate at quiet
  split at quiet
  · exact ((quiet_append _ _).mp quiet).1
  · exact ((quiet_append _ _).mp quiet).1

theorem Sorted.associate (associations : List GenericAssociation) (s : Associations) (sorted : Sorted associations s)
    (association : GenericAssociation) (quiet : (associate s association).report.Quiet) :
    Sorted (associations ++ [association]) (associate s association) := by
  unfold Analyzer.associate at quiet ⊢
  cases written : association.formal with
  | none =>
      refine ⟨?_, ?_, sorted.keys, sorted.formals, ?_⟩
      · intro name
        rw [List.filter_append, sorted.named name]
        simp [written]
      · rw [List.filter_append, sorted.positional]
        simp [written]
      · rw [← List.append_assoc]
        exact sorted.whole.append_right _
  | some formal =>
      rw [written] at quiet
      have fresh : s.named.lookup (key formal) = none := by
        have once := ((quiet_append _ _).mp quiet).2
        rw [quiet_diagnoseIf] at once
        rwa [← Option.not_isSome_iff_eq_none, Bool.not_eq_true]
      have named : (if (s.named.lookup (key formal)).isSome then s.named else s.named ++ [(key formal, association)]) =
          s.named ++ [(key formal, association)] := by
        rw [fresh]
        rfl
      simp only [named]
      refine ⟨?_, ?_, ?_, ?_, ?_⟩
      · intro name
        rw [List.filter_append, sorted.named name, List.lookup_append]
        by_cases here : key formal = name
        · subst here
          simp [fresh, written]
        · have apart : (key formal == name) = false := beq_eq_false_iff_ne.mpr here
          have apart' : (name == key formal) = false := beq_eq_false_iff_ne.mpr (Ne.symm here)
          simp [written, apart, List.lookup_cons, apart']
      · rw [List.filter_append, sorted.positional]
        simp [written]
      · rw [List.map_append, List.nodup_append]
        refine ⟨sorted.keys, List.nodup_singleton _, ?_⟩
        intro name member other single
        rw [List.map_singleton, List.mem_singleton] at single
        rintro rfl
        obtain ⟨entry, inside, same⟩ := List.mem_map.mp member
        have absent := List.lookup_eq_none_iff.mp fresh entry inside
        rw [same, single] at absent
        simp at absent
      · intro entry member
        rcases List.mem_append.mp member with old | new
        · exact sorted.formals entry old
        · rw [List.mem_singleton.mp new, written]
          rfl
      · rw [List.map_append, List.append_assoc]
        refine ((List.perm_append_comm).append_left _).trans ?_
        rw [← List.append_assoc]
        exact sorted.whole.append_right _

theorem sortAssociations_sorted (associations : List GenericAssociation)
    (quiet : (sortAssociations associations).report.Quiet) : Sorted associations (sortAssociations associations) := by
  unfold sortAssociations at quiet ⊢
  induction associations using List.reverseRecOn with
  | nil => exact ⟨fun _ => rfl, rfl, List.nodup_nil, nofun, List.Perm.nil⟩
  | append_singleton associations association ih =>
      rw [List.foldl_concat] at quiet ⊢
      exact Sorted.associate associations _ (ih (associate_quiet _ association quiet)) association quiet

/-! ### Bindings -/

section bindings
variable (named : List (String × GenericAssociation)) (generics : List (GenericDeclaration × Name))
  (positional : List GenericAssociation)

theorem bindGenerics_generics :
    (bindGenerics named generics positional).1.map (fun binding => (binding.generic, binding.name)) = generics := by
  fun_induction bindGenerics named generics positional with
  | case1 => rfl
  | case2 generic name rest positional association found bindings left same ih =>
      rw [same] at ih
      exact congrArg _ ih
  | case3 generic name rest absent bindings left same ih =>
      rw [same] at ih
      exact congrArg _ ih
  | case4 generic name rest absent first others bindings left same ih =>
      rw [same] at ih
      exact congrArg _ ih

/-- The actuals that are bound or left are the named ones of the generics and the positional ones. -/
theorem bindGenerics_perm :
    ((bindGenerics named generics positional).1.filterMap Binding.association ++
      (bindGenerics named generics positional).2).Perm
        (generics.filterMap (fun generic => named.lookup (key generic.2)) ++ positional) := by
  fun_induction bindGenerics named generics positional with
  | case1 => exact List.Perm.refl _
  | case2 generic name rest positional association found bindings left same ih =>
      rw [same] at ih
      simp only [List.filterMap_cons, found, List.cons_append]
      exact ih.cons association
  | case3 generic name rest absent bindings left same ih =>
      rw [same] at ih
      simp only [List.filterMap_cons, absent]
      exact ih
  | case4 generic name rest absent first others bindings left same ih =>
      rw [same] at ih
      simp only [List.filterMap_cons, absent, List.cons_append]
      exact (ih.cons first).trans List.perm_middle.symm

/-- The positional actuals keep their positions before the first generic with a named one. -/
theorem bindGenerics_at (apart : ∀ position generic, generics[position]? = some generic →
      position < positional.length → named.lookup (key generic.2) = none) (position : Nat) (binding : Binding)
    (here : (bindGenerics named generics positional).1[position]? = some binding) :
    binding.association = (named.lookup (key binding.name)).or positional[position]? := by
  fun_induction bindGenerics named generics positional generalizing position with
  | case1 => cases here
  | case2 generic name rest positional association found bindings left same ih =>
      have none_ : positional = [] := by
        cases positional with
        | nil => rfl
        | cons first others =>
            have absent := apart 0 (generic, name) rfl (Nat.zero_lt_succ _)
            rw [found] at absent
            contradiction
      subst none_
      cases position with
      | zero =>
          obtain rfl := Option.some.inj here
          change some association = (named.lookup (key name)).or _
          rw [found]
          rfl
      | succ position =>
          rw [same] at ih
          exact ih (fun _ _ _ less => absurd less (Nat.not_lt_zero _)) position here
  | case3 generic name rest absent bindings left same ih =>
      cases position with
      | zero =>
          obtain rfl := Option.some.inj here
          change none = (named.lookup (key name)).or none
          rw [absent]
          rfl
      | succ position =>
          rw [same] at ih
          exact ih (fun _ _ _ less => absurd less (Nat.not_lt_zero _)) position here
  | case4 generic name rest absent first others bindings left same ih =>
      cases position with
      | zero =>
          obtain rfl := Option.some.inj here
          change some first = (named.lookup (key name)).or (some first)
          rw [absent]
          rfl
      | succ position =>
          rw [same] at ih
          exact ih (fun position' generic' listed less => apart (position' + 1) generic' listed
            (Nat.succ_lt_succ less)) position here

end bindings

/-- The named actuals of all generics are all the named actuals. -/
theorem named_perm (named : List (String × GenericAssociation)) (keys : (named.map Prod.fst).Nodup)
    (names : List String) (nodup : names.Nodup) (known : ∀ entry ∈ named, entry.1 ∈ names) :
    (names.filterMap (fun name => named.lookup name)).Perm (named.map Prod.snd) := by
  have own : (named.map Prod.fst).filterMap (fun name => named.lookup name) = named.map Prod.snd := by
    rw [List.filterMap_map]
    have each : ∀ entry ∈ named, ((fun name => named.lookup name) ∘ Prod.fst) entry = some entry.2 := by
      intro entry member
      exact (Registry.Index.lookup_iff_of_nodup named keys entry.1 entry.2).mpr member
    rw [List.filterMap_congr each, ← List.filterMap_eq_map]
    rfl
  have used : (names.filter (fun name => (named.lookup name).isSome)).Perm (named.map Prod.fst) := by
    refine (List.perm_ext_iff_of_nodup (nodup.filter _) keys).mpr ?_
    intro name
    rw [List.mem_filter, Option.isSome_iff_exists]
    constructor
    · rintro ⟨-, association, found⟩
      exact List.mem_map.mpr ⟨_, (Registry.Index.lookup_iff_of_nodup named keys name association).mp found, rfl⟩
    · intro member
      obtain ⟨entry, inside, rfl⟩ := List.mem_map.mp member
      exact ⟨known entry inside, entry.2, (Registry.Index.lookup_iff_of_nodup named keys entry.1 entry.2).mpr inside⟩
  rw [← own]
  refine List.Perm.trans ?_ (used.filterMap _)
  rw [List.filterMap_filter]
  refine List.Perm.of_eq (List.filterMap_congr ?_)
  intro name _
  cases named.lookup name with
  | none => rfl
  | some association => rfl

/-! ### Values -/

/-- The loop over the bindings gives each its value, evaluated with the values before it. -/
theorem bindAll_values (architectureValues : GenericValues) (list : List Binding) (s : GenericValues × Report)
    (quiet : (list.foldl (bindOne architectureValues) s).2.Quiet)
    (nodup : (s.1.map Prod.fst ++ list.map (fun binding => key binding.name)).Nodup) :
    ∃ added : GenericValues, (list.foldl (bindOne architectureValues) s).1 = s.1 ++ added ∧
      added.map Prod.fst = list.map (fun binding => key binding.name) ∧
      ∀ position binding, list[position]? = some binding → ∃ value, added[position]? = some (key binding.name, value) ∧
        (bindValue architectureValues (s.1 ++ added.take position) binding).1 = some value ∧
        ¬outsideSubtype binding.generic.type value := by
  induction list generalizing s with
  | nil =>
      refine ⟨[], (List.append_nil _).symm, rfl, ?_⟩
      intro position binding there
      rw [List.getElem?_nil] at there
      cases there
  | cons binding rest ih =>
      obtain ⟨-, value, span, found, inside, same⟩ := bindOne_quiet architectureValues s binding
        (bindAll_quiet architectureValues rest _ quiet)
      have fresh : key binding.name ∉ s.1.map Prod.fst := by
        intro member
        exact (List.nodup_append.mp nodup).2.2 _ member _ List.mem_cons_self rfl
      have absent : (s.1.lookup (key binding.name)).isSome = false := by
        rw [Option.isSome_eq_false_iff, Option.isNone_iff_eq_none, List.lookup_eq_none_iff]
        intro entry member
        rw [bne_iff_ne]
        intro equal
        exact fresh (List.mem_map.mpr ⟨entry, member, equal.symm⟩)
      rw [absent] at same
      rw [List.foldl_cons, same] at quiet ⊢
      obtain ⟨added, final, names, each⟩ := ih (s.1 ++ [(key binding.name, value)], s.2) quiet
        (by simpa using nodup)
      refine ⟨(key binding.name, value) :: added, ?_, congrArg _ names, ?_⟩
      · exact final.trans (by simp)
      · intro position other listed
        cases position with
        | zero =>
            obtain rfl := Option.some.inj listed
            refine ⟨value, rfl, ?_, inside⟩
            rw [List.take_zero, List.append_nil, found]
        | succ position =>
            obtain ⟨value', there, given, inside'⟩ := each position other listed
            refine ⟨value', there, ?_, inside'⟩
            rw [List.take_succ_cons]
            simpa using given

/-! ### The generics of an entity -/

theorem declareName_names (generic : GenericDeclaration) (s : Generics) (name : Name)
    (quiet : (s.declareName generic name).report.Quiet) :
    key name ∉ s.names ∧ (s.declareName generic name).names = key name :: s.names := by
  unfold Generics.declareName at quiet ⊢
  split at quiet
  · exact absurd ((quiet_append _ _).mp quiet).2 (not_quiet_diagnose _ _)
  · next fresh =>
      rw [if_neg fresh]
      refine ⟨fun member => fresh (List.contains_iff_mem.mpr member), ?_⟩
      split
      · rfl
      · split
        · rfl
        · split
          · rfl
          · rfl

theorem declareNames_names (generic : GenericDeclaration) (names : List Name) (s : Generics) (nodup : s.names.Nodup)
    (quiet : (names.foldl (Generics.declareName generic) s).report.Quiet) :
    (names.foldl (Generics.declareName generic) s).names = (names.map key).reverse ++ s.names ∧
      ((names.map key).reverse ++ s.names).Nodup := by
  induction names generalizing s with
  | nil => exact ⟨rfl, nodup⟩
  | cons name rest ih =>
      obtain ⟨fresh, first⟩ := declareName_names generic s name (declareNames_quiet generic rest _ quiet)
      obtain ⟨whole, distinct⟩ := ih (s.declareName generic name) (first ▸ List.nodup_cons.mpr ⟨fresh, nodup⟩) quiet
      rw [first] at whole distinct
      rw [List.map_cons, List.reverse_cons, List.append_assoc]
      exact ⟨whole, distinct⟩

theorem declareGenerics_names (visibility : Visibility) (generics : List GenericDeclaration) (s : Generics)
    (nodup : s.names.Nodup) (quiet : (generics.foldl (Generics.declare visibility) s).report.Quiet) :
    (((generics.flatMap GenericDeclaration.names).map key).reverse ++ s.names).Nodup := by
  induction generics generalizing s with
  | nil => exact nodup
  | cons generic rest ih =>
      have own := (declareGenerics_quiet visibility rest _ quiet).1
      obtain ⟨report, same⟩ : ∃ report, Generics.declare visibility s generic =
          generic.names.foldl (Generics.declareName generic) ⟨s.values, s.names, report⟩ := ⟨_, rfl⟩
      rw [same] at own
      obtain ⟨whole, distinct⟩ := declareNames_names generic generic.names ⟨s.values, s.names, report⟩ nodup own
      rw [← same] at whole
      have further := ih (Generics.declare visibility s generic) (whole ▸ distinct) quiet
      rw [whole] at further
      simpa using further

/-- The generics of an entity that is analysed without a diagnostic have different names. -/
theorem modelGenerics_nodup (earlier : List EntityDeclaration) (place : Nat) (entity : EntityDeclaration)
    (quiet : (analyzeEntity earlier place entity).Quiet) :
    ((modelGenerics entity).map (fun generic => key generic.2)).Nodup := by
  unfold analyzeEntity at quiet
  simp only [quiet_append] at quiet
  obtain ⟨⟨⟨-, generics⟩, -⟩, -⟩ := quiet
  have names := declareGenerics_names _ entity.generics _ List.nodup_nil generics
  have same : (modelGenerics entity).map (fun generic => key generic.2) =
      (entity.generics.flatMap GenericDeclaration.names).map key := by
    unfold modelGenerics
    rw [List.map_flatMap, List.map_flatMap]
    refine List.flatMap_congr ?_
    intro generic _
    rw [List.map_map]
    rfl
  change (_ ++ []).Nodup at names
  rw [List.append_nil, List.nodup_reverse] at names
  rw [same]
  exact names

theorem known_ports (earlier : List EntityDeclaration) (index : Nat) (entity : EntityDeclaration)
    (quiet : (analyzeEntity earlier index entity).Quiet) (port : PortDeclaration) (member : port ∈ entity.ports)
    (values : GenericValues) : (declarationType port.type (entityInfo entity).visibility values).kind ≠ .Unknown := by
  unfold analyzeEntity at quiet
  simp only [quiet_append] at quiet
  obtain ⟨⟨-, ports⟩, -⟩ := quiet
  obtain ⟨place, at_place⟩ := List.getElem?_of_mem member
  have own := (quiet_concat _).mp ports _
    (List.mem_of_getElem? (i := place) (by rw [List.getElem?_mapIdx, at_place]; rfl))
  have known := (quiet_unsupportedType _ _).mp ((quiet_append _ _).mp own).1
  have same : (declarationType port.type (entityInfo entity).visibility values).kind =
      (declarationType port.type (entityInfo entity).visibility (entityInfo entity).defaults).kind := by
    unfold declarationType
    simp only [apply_ite CheckedType.kind]
  rw [same]
  exact known

/-- A type that is known has the range of its constraint. -/
theorem range_of_known (type : TypeMark) (visibility : Visibility) (values : GenericValues)
    (known : (declarationType type visibility values).kind ≠ .Unknown) :
    (declarationType type visibility values).range =
      type.constraint.bind (fun constraint => resolveRange constraint values) := by
  have range : (declarationType type visibility values).range = _ := declarationType_range type visibility values
  cases written : type.constraint with
  | none =>
      rw [range, written]
      split
      · rfl
      · rfl
  | some constraint =>
      rw [range, written, if_pos]
      revert known
      unfold declarationType
      simp only [written, Option.isSome_some, and_true, if_true]
      split
      · exact fun _ => rfl
      · split
        · exact fun _ => rfl
        · split
          · exact fun _ => rfl
          · split
            · exact fun _ => rfl
            · exact fun known => absurd rfl known

/-! ### Reports of an instance -/

/-- Nothing is recorded but diagnostics. -/
def Report.Plain (report : Report) : Prop := report.genericValues = [] ∧ report.specializedTypeRanges = []

theorem plain_append (a b : Report) (first : a.Plain) (second : b.Plain) : (a ++ b).Plain := by
  constructor
  · change a.genericValues ++ b.genericValues = []
    rw [first.1, second.1]
    rfl
  · change a.specializedTypeRanges ++ b.specializedTypeRanges = []
    rw [first.2, second.2]
    rfl

theorem plain_diagnose (message : String) (span : SourceSpan) : (diagnose message span).Plain := ⟨rfl, rfl⟩

theorem plain_diagnoseIf (condition : Bool) (message : String) (span : SourceSpan) :
    (diagnoseIf condition message span).Plain := by
  unfold diagnoseIf
  split
  · exact ⟨rfl, rfl⟩
  · exact ⟨rfl, rfl⟩

theorem plain_concat (reports : List Report) (all : ∀ report ∈ reports, report.Plain) : (concat reports).Plain := by
  induction reports with
  | nil => exact ⟨rfl, rfl⟩
  | cons report rest ih =>
      exact plain_append report (concat rest) (all report List.mem_cons_self)
        (ih (fun other member => all other (List.mem_cons_of_mem _ member)))

theorem plain_sortAssociations (associations : List GenericAssociation) :
    (sortAssociations associations).report.Plain := by
  refine List.foldlRecOn (motive := fun s => s.report.Plain) associations associate ?_ ?_
  · exact ⟨rfl, rfl⟩
  intro s plain association _
  unfold associate
  split
  · exact plain_append _ _ plain (plain_diagnoseIf _ _ _)
  · exact plain_append _ _ plain (plain_diagnoseIf _ _ _)

theorem plain_instanceValues (architectureValues : GenericValues) (model : EntityDeclaration)
    (instantiation : EntityInstantiation) : (instanceValues architectureValues model instantiation).2.Plain := by
  refine List.foldlRecOn (motive := fun s => s.2.Plain) _ (bindOne architectureValues) ?_ ?_
  · exact ⟨rfl, rfl⟩
  intro s plain binding _
  unfold bindOne
  split
  · exact plain_append _ _ plain (plain_diagnose _ _)
  · split
    · exact plain_append _ _ plain (plain_diagnose _ _)
    · split
      · exact plain
      · exact plain

theorem concat_append (first second : List Report) :
    (concat (first ++ second)).specializedTypeRanges =
      (concat first).specializedTypeRanges ++ (concat second).specializedTypeRanges := by
  induction first with
  | nil => rfl
  | cons report rest ih =>
      change report.specializedTypeRanges ++ (concat (rest ++ second)).specializedTypeRanges = _
      rw [ih, ← List.append_assoc]
      rfl

/-- The ranges that are recorded place by place. -/
theorem lookup_ranges (architecture index : Nat) (range : PortDeclaration → Option DiscreteRange)
    (ports : List PortDeclaration) (place : Nat) :
    (concat (ports.mapIdx (fun place port =>
      match range port with
      | none => empty
      | some range => { empty with specializedTypeRanges := [((architecture, index, place), range)] }))).specializedTypeRanges.lookup
        (architecture, index, place) = ports[place]?.bind range := by
  induction ports using List.reverseRecOn with
  | nil => rfl
  | append_singleton ports port ih =>
      rw [List.mapIdx_concat, concat_append, List.lookup_append, ih]
      rcases Nat.lt_trichotomy place ports.length with before | here | after
      · rw [List.getElem?_append_left before, List.getElem?_eq_getElem before]
        cases recorded : range port with
        | none =>
            change (range _).or none = _
            rw [Option.or_none]
            rfl
        | some found =>
            have apart : ((architecture, index, place) == (architecture, index, ports.length)) = false := by
              rw [beq_eq_false_iff_ne]
              intro same
              have same' : place = ports.length := congrArg (fun triple => triple.2.2) same
              omega
            change (range _).or (List.lookup _ [((architecture, index, ports.length), found)]) = _
            rw [List.lookup_cons, apart]
            simp
      · subst here
        rw [List.getElem?_append_right (Nat.le_refl _), List.getElem?_eq_none (Nat.le_refl _), Nat.sub_self]
        cases recorded : range port with
        | none => exact recorded.symm
        | some found =>
            change List.lookup _ [((architecture, index, ports.length), found)] = range port
            rw [List.lookup_cons, beq_self_eq_true, recorded]
      · rw [List.getElem?_eq_none (by omega), List.getElem?_eq_none (by rw [List.length_append, List.length_singleton]; omega)]
        cases recorded : range port with
        | none => rfl
        | some found =>
            have apart : ((architecture, index, place) == (architecture, index, ports.length)) = false := by
              rw [beq_eq_false_iff_ne]
              intro same
              have same' : place = ports.length := congrArg (fun triple => triple.2.2) same
              omega
            change List.lookup _ [((architecture, index, ports.length), found)] = none
            rw [List.lookup_cons, apart]
            rfl

theorem recorded_after (before ranges ports : Report) (plain : before.Plain) (place : Nat × Nat) (values : GenericValues) :
    (before ++ { empty with genericValues := [(place, values)] } ++ ranges ++ ports).genericValues.lookup place =
      some values := by
  change (before.genericValues ++ [(place, values)] ++ ranges.genericValues ++ ports.genericValues).lookup place = _
  rw [plain.1]
  simp

theorem ranges_after (before ranges ports : Report) (plain : before.Plain) (plainPorts : ports.Plain)
    (place : Nat × Nat) (values : GenericValues) :
    (before ++ { empty with genericValues := [(place, values)] } ++ ranges ++ ports).specializedTypeRanges =
      ranges.specializedTypeRanges := by
  change before.specializedTypeRanges ++ [] ++ ranges.specializedTypeRanges ++ ports.specializedTypeRanges = _
  rw [plain.2, plainPorts.2]
  simp

/-! ### Instances -/

section instance_
variable (architectureValues : GenericValues) (architecture index : Nat) (earlier : List EntityDeclaration)
  (place : Nat) (entity : EntityDeclaration) (declarations : Declarations) (instantiation : EntityInstantiation)

/-- What an instance reports and records, part by part. -/
structure Analyzed (report : Report) : Prop where
  sorted : Sorted instantiation.generics (sortAssociations instantiation.generics)
  valued : (instanceValues architectureValues entity instantiation).2.Quiet
  left : (bindings entity instantiation).2 = []
  known : ∀ entry ∈ (sortAssociations instantiation.generics).named,
    entry.1 ∈ (modelGenerics entity).map (fun generic => key generic.2)
  recorded : report.genericValues.lookup (architecture, index) =
    some (instanceValues architectureValues entity instantiation).1
  ranges : ∀ place, report.specializedTypeRanges.lookup (architecture, index, place) =
    entity.ports[place]?.bind (fun port => (declarationType port.type (entityInfo entity).visibility
      (instanceValues architectureValues entity instantiation).1).range)

theorem analyzeModel_analyzed
    (quiet : (analyzeModel declarations architectureValues architecture index (entityInfo entity) instantiation).Quiet) :
    Analyzed architectureValues architecture index entity instantiation
      (analyzeModel declarations architectureValues architecture index (entityInfo entity) instantiation) := by
  have parts := quiet
  unfold analyzeModel at parts
  simp only [quiet_append] at parts
  obtain ⟨⟨⟨⟨⟨⟨associations, valued⟩, left⟩, known⟩, -⟩, -⟩, -⟩ := parts
  have sorted := sortAssociations_sorted instantiation.generics associations
  have plainActual (formal : Name × Object) (actual : Name) : (checkActual declarations formal actual).Plain := by
    unfold checkActual
    split
    · exact plain_diagnose _ _
    · exact plain_diagnoseIf _ _ _
  have before (check : String × GenericAssociation → Report) (checked : ∀ entry, (check entry).Plain) :
      ((sortAssociations instantiation.generics).report ++
        (instanceValues architectureValues entity instantiation).2 ++
        diagnoseIf (!(bindings entity instantiation).2.isEmpty)
          ("too many positional generic actuals for entity '" ++ instantiation.entity.spelling ++ "'")
          instantiation.span ++
        concat ((sortAssociations instantiation.generics).named.map check)).Plain := by
    refine plain_append _ _ (plain_append _ _ (plain_append _ _ (plain_sortAssociations _)
      (plain_instanceValues _ _ _)) (plain_diagnoseIf _ _ _)) (plain_concat _ ?_)
    intro report member
    obtain ⟨entry, -, rfl⟩ := List.mem_map.mp member
    exact checked entry
  have ports (values : GenericValues) : (if (formals (entityInfo entity) values).length ≠ instantiation.actuals.length then
      diagnose ("port map for entity '" ++ instantiation.entity.spelling ++ "' has " ++
        toString instantiation.actuals.length ++ " actuals but " ++
        toString (formals (entityInfo entity) values).length ++ " are required") instantiation.span
    else concat (List.zipWith (checkActual declarations) (formals (entityInfo entity) values)
      instantiation.actuals)).Plain := by
    split
    · exact plain_diagnose _ _
    · refine plain_concat _ ?_
      intro report member
      rw [← List.map_uncurry_zip_eq_zipWith] at member
      obtain ⟨pair, -, rfl⟩ := List.mem_map.mp member
      exact plainActual pair.1 pair.2
  refine ⟨sorted, valued, ?_, ?_, ?_, ?_⟩
  · rw [quiet_diagnoseIf, Bool.not_eq_false', List.isEmpty_iff] at left
    exact left
  · intro entry member
    have own := (quiet_concat _).mp known _ (List.mem_map_of_mem member)
    have formal := sorted.formals entry member
    obtain ⟨name, written, -⟩ := Option.map_eq_some_iff.mp formal
    simp only [written] at own
    rw [quiet_diagnoseIf, Bool.not_eq_false', List.contains_iff_mem] at own
    exact own
  · unfold analyzeModel
    refine recorded_after _ _ _ (before _ ?_) _ _
    rintro ⟨name, association⟩
    simp only
    split
    · exact ⟨rfl, rfl⟩
    · exact plain_diagnoseIf _ _ _
  · intro port
    unfold analyzeModel
    rw [← lookup_ranges architecture index]
    refine congrArg (List.lookup _) (ranges_after _ _ _ (before _ ?_) (ports _) _ _)
    rintro ⟨name, association⟩
    simp only
    split
    · exact ⟨rfl, rfl⟩
    · exact plain_diagnoseIf _ _ _

theorem inSubtype_of_not_outside (type : TypeMark) (value : Int64) (inside : ¬outsideSubtype type value) :
    InSubtype type value := by
  unfold outsideSubtype at inside
  rw [Bool.or_eq_true, not_or, Bool.and_eq_true, Bool.and_eq_true, beq_iff_eq, beq_iff_eq, decide_eq_true_iff,
    decide_eq_true_iff, Int64.lt_iff_toInt_lt, Int64.le_iff_toInt_le, Int64.toInt_zero] at inside
  constructor
  · intro natural
    exact Int.not_lt.mp (fun negative => inside.1 ⟨natural, negative⟩)
  · intro positive
    exact Int.not_le.mp (fun small => inside.2 ⟨positive, small⟩)

variable (report : Report) (analyzed : Analyzed architectureValues architecture index entity instantiation report)
include analyzed

/-- The values of an instance, generic by generic. -/
theorem Analyzed.values (names : ((modelGenerics entity).map (fun generic => key generic.2)).Nodup) (position : Nat)
    (generic : GenericDeclaration) (name : Name) (here : (modelGenerics entity)[position]? = some (generic, name)) :
    ∃ binding value, (bindings entity instantiation).1[position]? = some binding ∧ binding.generic = generic ∧
      binding.name = name ∧
      (instanceValues architectureValues entity instantiation).1.lookup (key name) = some value ∧
      InSubtype generic.type value ∧
      (bindValue architectureValues ((instanceValues architectureValues entity instantiation).1.take position)
        binding).1 = some value := by
  have whole : (bindings entity instantiation).1.map (fun binding => (binding.generic, binding.name)) =
      modelGenerics entity := bindGenerics_generics _ _ _
  have keys : (bindings entity instantiation).1.map (fun binding => key binding.name) =
      (modelGenerics entity).map (fun generic => key generic.2) := by
    rw [← whole, List.map_map]
    rfl
  obtain ⟨added, final, addedKeys, each⟩ := bindAll_values architectureValues (bindings entity instantiation).1
    ([], empty) analyzed.valued (keys ▸ names)
  have values : (instanceValues architectureValues entity instantiation).1 = added := final
  rw [← whole, List.getElem?_map] at here
  obtain ⟨binding, there, same⟩ := Option.map_eq_some_iff.mp here
  obtain ⟨rfl, rfl⟩ := Prod.mk.inj same
  obtain ⟨value, recorded, given, inside⟩ := each position binding there
  refine ⟨binding, value, there, rfl, rfl, ?_, inSubtype_of_not_outside _ _ inside, ?_⟩
  · rw [values]
    refine (Registry.Index.lookup_iff_of_nodup added ?_ _ _).mpr (List.mem_of_getElem? recorded)
    rw [addedKeys, keys]
    exact names
  · rw [values]
    exact given

/-- Every actual is bound to one generic. -/
theorem Analyzed.used (names : ((modelGenerics entity).map (fun generic => key generic.2)).Nodup) :
    ((bindings entity instantiation).1.filterMap Binding.association).Perm instantiation.generics := by
  have bound := bindGenerics_perm (sortAssociations instantiation.generics).named (modelGenerics entity)
    (sortAssociations instantiation.generics).positional
  have left : (bindGenerics (sortAssociations instantiation.generics).named (modelGenerics entity)
    (sortAssociations instantiation.generics).positional).2 = [] := analyzed.left
  rw [left, List.append_nil] at bound
  have named := named_perm _ analyzed.sorted.keys _ names analyzed.known
  rw [List.filterMap_map] at named
  exact bound.trans ((named.append_right _).trans analyzed.sorted.whole)

end instance_

/-- An instance that is analysed without a diagnostic has its generics as they are written if and only if no
generic is given twice, by its name and by its position. -/
theorem genericMap_iff (architectureValues : GenericValues) (architecture index : Nat) (earlier : List EntityDeclaration)
    (place : Nat) (entity : EntityDeclaration) (declarations : Declarations) (instantiation : EntityInstantiation)
    (entityQuiet : (analyzeEntity earlier place entity).Quiet)
    (quiet : (analyzeModel declarations architectureValues architecture index (entityInfo entity) instantiation).Quiet) :
    (∃ values, MapResolved architectureValues architecture index entity instantiation
      (analyzeModel declarations architectureValues architecture index (entityInfo entity) instantiation) values) ↔
        NoneGivenTwice entity instantiation := by
  have analyzed := analyzeModel_analyzed architectureValues architecture index entity declarations instantiation quiet
  have names := modelGenerics_nodup earlier place entity entityQuiet
  have named (name : String) := analyzed.sorted.named name
  constructor
  · rintro ⟨values, resolved⟩ position generic name here less
    obtain ⟨value, -, -, given⟩ := resolved.given position generic name here
    unfold actualsOf at given
    rw [List.getElem?_eq_getElem less] at given
    cases actuals : namedActuals instantiation (key name) with
    | nil => rfl
    | cons first others =>
        rw [actuals] at given
        cases others with
        | nil => exact given.elim
        | cons second others => exact given.elim
  · intro apart
    refine ⟨_, analyzed.recorded, ?_, analyzed.used _ _ _ _ _ _ names, ?_⟩
    · intro position generic name here
      obtain ⟨binding, value, bound, rfl, rfl, found, inside, given⟩ := analyzed.values _ _ _ _ _ _ names position _ _ here
      refine ⟨value, found, inside, ?_⟩
      have free (position' : Nat) (generic' : GenericDeclaration × Name)
          (listed : (modelGenerics entity)[position']? = some generic')
          (less : position' < (sortAssociations instantiation.generics).positional.length) :
          (sortAssociations instantiation.generics).named.lookup (key generic'.2) = none := by
        have none_ := apart position' generic'.1 generic'.2 listed
          (by rw [positionalActuals, analyzed.sorted.positional]; exact less)
        rw [namedActuals, named] at none_
        exact Option.toList_eq_nil_iff.mp none_
      have association := bindGenerics_at _ _ _ free position binding bound
      have actuals : actualsOf instantiation position (key binding.name) =
          ((sortAssociations instantiation.generics).named.lookup (key binding.name)).toList ++
            (sortAssociations instantiation.generics).positional[position]?.toList := by
        rw [actualsOf, namedActuals, named, positionalActuals, analyzed.sorted.positional]
      rw [actuals]
      unfold bindValue at given
      cases byName : (sortAssociations instantiation.generics).named.lookup (key binding.name) with
      | some actual =>
          have beyond : (sortAssociations instantiation.generics).positional[position]? = none := by
            rw [List.getElem?_eq_none_iff]
            by_contra less
            have absent := free position _ here (Nat.not_le.mp less)
            rw [byName] at absent
            contradiction
          rw [beyond]
          rw [byName, Option.some_or] at association
          rw [association] at given
          exact given
      | none =>
          rw [byName, Option.none_or] at association
          cases byPosition : (sortAssociations instantiation.generics).positional[position]? with
          | some actual =>
              rw [byPosition] at association
              rw [association] at given
              exact given
          | none =>
              rw [byPosition] at association
              rw [association] at given
              cases written : binding.generic.defaultValue with
              | none =>
                  rw [written] at given
                  cases given
              | some defaultValue =>
                  rw [written] at given
                  exact ⟨defaultValue, written, given⟩
    · intro place' port here
      rw [analyzed.ranges place', here, Option.bind_some]
      exact range_of_known _ _ _ (known_ports earlier place entity entityQuiet port (List.mem_of_getElem? here) _)

/-! ### An entity with two generics -/

/-- `a, b : natural` and a port `q : bit_vector(a downto 0)`. -/
def leafEntity : EntityDeclaration :=
  ⟨basic "leaf", [⟨[basic "a", basic "b"], ⟨basic "natural", none⟩, none⟩],
    [⟨[basic "q"], ⟨basic "bit_vector", some ⟨0, 0, false, nowhere, some (nameExpression "a"),
      some (integerExpression "0"), none, none⟩⟩, nowhere, none⟩], ⟨[], []⟩⟩

/-- `u : entity work.leaf generic map (..) port map (w)` -/
def leafInstance (generics : List GenericAssociation) : EntityInstantiation :=
  ⟨basic "u", basic "work", basic "leaf", generics, [basic "w"], nowhere, [none], false, [[]], [none], [false]⟩

/-- `5, b => 3` -/
def apartMap : EntityInstantiation :=
  leafInstance [⟨none, integerExpression "5", nowhere⟩, ⟨some (basic "b"), integerExpression "3", nowhere⟩]

/-- `5, a => 3` -/
def twiceMap : EntityInstantiation :=
  leafInstance [⟨none, integerExpression "5", nowhere⟩, ⟨some (basic "a"), integerExpression "3", nowhere⟩]

/-- A signal `w : bit_vector(left downto 0)`. -/
def leafDeclarations (left : Int64) : Declarations :=
  [("w", ⟨.BitVector, some ⟨left, 0, false, nowhere, none, none, none, none⟩⟩)]

def analyzeLeaf (left : Int64) (instantiation : EntityInstantiation) : Report :=
  analyzeModel (leafDeclarations left) [] 0 0 (entityInfo leafEntity) instantiation

theorem apartMap_resolved :
    (∃ values, MapResolved [] 0 0 leafEntity apartMap (analyzeLeaf 5 apartMap) values) ↔ NoneGivenTwice leafEntity apartMap :=
  genericMap_iff [] 0 0 [] 0 leafEntity (leafDeclarations 5) apartMap (List.isEmpty_iff.mp (by decide +kernel))
    (List.isEmpty_iff.mp (by decide +kernel))

/-- The positional actual of `a` becomes the value of `b`. -/
theorem twiceMap_shifts :
    (analyzeLeaf 3 twiceMap).Quiet ∧ (analyzeLeaf 3 twiceMap).genericValues = [((0, 0), [("a", 3), ("b", 5)])] ∧
      ¬∃ values, MapResolved [] 0 0 leafEntity twiceMap (analyzeLeaf 3 twiceMap) values := by
  refine ⟨List.isEmpty_iff.mp (by decide +kernel), by decide +kernel, ?_⟩
  rintro ⟨values, resolved⟩
  obtain ⟨value, -, -, given⟩ := resolved.given 0 _ _ rfl
  exact given

end Naja.Vhdl.Analyzer

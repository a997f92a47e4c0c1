import Naja.Vhdl.Analyzer
import Naja.Vhdl.ExpressionSound

/-! What an analysis without diagnostics says of a design file. The reference is
the declarations with their ranges in unbounded integers: the values of the generics,
the numbers of elements, and the shapes of the names in a scope. -/

namespace Naja.Vhdl.Analyzer
open Report

/-! ### Reports -/

/-- Nothing is reported. -/
def Report.Quiet (report : Report) : Prop := report.diagnostics = []

theorem quiet_append (a b : Report) : (a ++ b).Quiet ↔ a.Quiet ∧ b.Quiet := List.append_eq_nil_iff

theorem quiet_concat (reports : List Report) : (concat reports).Quiet ↔ ∀ report ∈ reports, report.Quiet := by
  induction reports with
  | nil => exact ⟨fun _ report member => (nomatch member), fun _ => rfl⟩
  | cons first rest ih =>
      rw [List.forall_mem_cons, ← ih]
      exact quiet_append first (concat rest)

theorem mem_concat (reports : List Report) (report : Report) (member : report ∈ reports)
    (entry : Place × Annotation) (inside : entry ∈ report.expressions) : entry ∈ (concat reports).expressions := by
  induction reports with
  | nil => nomatch member
  | cons first rest ih =>
      refine List.mem_append.mpr ?_
      rcases List.mem_cons.mp member with rfl | further
      · exact Or.inl inside
      · exact Or.inr (ih further)

theorem quiet_diagnoseIf (condition : Bool) (message : String) (span : SourceSpan) :
    (diagnoseIf condition message span).Quiet ↔ condition = false := by
  cases condition with
  | true => exact ⟨fun quiet => (nomatch quiet), fun given => (nomatch given)⟩
  | false => exact ⟨fun _ => rfl, fun _ => rfl⟩

theorem not_quiet_diagnose (message : String) (span : SourceSpan) : ¬ (diagnose message span).Quiet :=
  fun quiet => (nomatch quiet)

/-- Every element of a list that is mapped with its index has its result. -/
theorem mapIdx_mapM (f : Nat → α → Option β) (items : List α) (results : List β)
    (given : (items.mapIdx f).mapM id = some results) (i : Nat) (item : α) (at_i : items[i]? = some item) :
    ∃ result ∈ results, f i item = some result := by
  have general (l : List (Option β)) (rs : List β) (all : l.mapM id = some rs) (x : Option β) (member : x ∈ l) :
      ∃ r ∈ rs, x = some r := by
    induction l generalizing rs with
    | nil => nomatch member
    | cons first rest ih =>
        rw [List.mapM_cons] at all
        obtain ⟨r, atFirst, further⟩ := Option.bind_eq_some_iff.mp all
        obtain ⟨others, atRest, made⟩ := Option.bind_eq_some_iff.mp further
        obtain rfl := Option.some.inj made
        rcases List.mem_cons.mp member with rfl | inside
        · exact ⟨r, List.mem_cons_self, atFirst⟩
        · obtain ⟨r', found, same⟩ := ih others atRest inside
          exact ⟨r', List.mem_cons_of_mem _ found, same⟩
  refine general _ results given (f i item) ?_
  refine List.mem_of_getElem? (i := i) ?_
  rw [List.getElem?_mapIdx, at_i]
  rfl

/-! ### Generic values -/

/-- Generics with their values in unbounded integers, in the order of their declaration. -/
abbrev ReferenceValues := List (String × Option Int)

def ReferenceValues.env (values : ReferenceValues) (name : String) : Option Int := (values.lookup name).join

def ReferenceValues.add (values : ReferenceValues) (name : String) (value : Option Int) : ReferenceValues :=
  if (values.lookup name).isSome then values else values ++ [(name, value)]

def referenceName (generic : GenericDeclaration) (values : ReferenceValues) (name : Name) : ReferenceValues :=
  values.add (key name) (generic.defaultValue.bind (integerValue values.env))

/-- The default values of the generics of an entity. -/
def referenceDefaults (generics : List GenericDeclaration) : ReferenceValues :=
  generics.foldl (fun values generic => generic.names.foldl (referenceName generic) values) []

def referenceValue (outer : String → Option Int) (values : ReferenceValues) (binding : Binding) : Option Int :=
  match binding.association with
  | some association => integerValue outer association.actual
  | none => binding.generic.defaultValue.bind (integerValue values.env)

def referenceBind (outer : String → Option Int) (values : ReferenceValues) (binding : Binding) : ReferenceValues :=
  values.add (key binding.name) (referenceValue outer values binding)

/-- The values of the generics of an instance. -/
def referenceInstance (outer : String → Option Int) (model : EntityDeclaration)
    (instantiation : EntityInstantiation) : ReferenceValues :=
  (bindings model instantiation).1.foldl (referenceBind outer) []

/-- The values of the analyzer are those of the reference. -/
def Exact (values : GenericValues) (env : String → Option Int) : Prop :=
  ∀ name value, values.lookup name = some value → env name = some value.toInt

theorem env_add (values : ReferenceValues) (name other : String) (value : Option Int) :
    (values.add name value).env other =
      if (values.lookup name).isNone ∧ other = name then value else values.env other := by
  unfold ReferenceValues.add ReferenceValues.env
  cases found : values.lookup name with
  | some old =>
      simp
  | none =>
      rw [if_neg (by simp), List.lookup_append]
      by_cases same : other = name
      · subst same
        rw [found]
        simp
      · have apart : (other == name) = false := beq_eq_false_iff_ne.mpr same
        simp [same, List.lookup_cons, apart]

theorem isSome_lookup_add (values : ReferenceValues) (name other : String) (value : Option Int) :
    ((values.add name value).lookup other).isSome ↔ other = name ∨ (values.lookup other).isSome := by
  unfold ReferenceValues.add
  cases found : values.lookup name with
  | some old =>
      rw [if_pos (by simp)]
      refine ⟨Or.inr, fun either => either.elim ?_ id⟩
      rintro rfl
      rw [found]
      rfl
  | none =>
      rw [if_neg (by simp), List.lookup_append, Option.isSome_or]
      by_cases same : other = name
      · simp [same]
      · have apart : (other == name) = false := beq_eq_false_iff_ne.mpr same
        simp [same, List.lookup_cons, apart]

/-- The loop over the generics keeps to the reference. -/
structure Follows (s : Generics) (values : ReferenceValues) : Prop where
  exact : Exact s.values values.env
  names : ∀ name, name ∈ s.names ↔ (values.lookup name).isSome

theorem exact_append (values : GenericValues) (reference : ReferenceValues) (name : String) (value : Int64)
    (expected : Option Int) (absent : (reference.lookup name).isNone) (same : expected = some value.toInt)
    (exact : Exact values reference.env) : Exact (values ++ [(name, value)]) (reference.add name expected).env := by
  intro other found lookup
  rw [env_add]
  rw [List.lookup_append] at lookup
  by_cases here : other = name
  · rw [if_pos ⟨absent, here⟩, same]
    cases before : values.lookup other with
    | none =>
        rw [before] at lookup
        simp only [Option.none_or, here, List.lookup_cons, beq_self_eq_true, Option.some.injEq] at lookup
        rw [lookup]
    | some old =>
        have there := exact other old before
        rw [here, ReferenceValues.env, Option.isNone_iff_eq_none.mp absent] at there
        cases there
  · rw [if_neg (fun both => here both.2)]
    have apart : (other == name) = false := beq_eq_false_iff_ne.mpr here
    simp only [List.lookup_cons, List.lookup_nil, apart, Option.or_none] at lookup
    exact exact other found lookup

theorem exact_add (values : GenericValues) (reference : ReferenceValues) (name : String) (expected : Option Int)
    (exact : Exact values reference.env) : Exact values (reference.add name expected).env := by
  intro other found lookup
  rw [env_add]
  split
  · next both =>
      have there := exact other found lookup
      rw [both.2, ReferenceValues.env, Option.isNone_iff_eq_none.mp both.1] at there
      nomatch there
  · exact exact other found lookup

theorem declareName_follows (generic : GenericDeclaration) (s : Generics) (values : ReferenceValues) (name : Name)
    (follows : Follows s values) : Follows (s.declareName generic name) (referenceName generic values name) := by
  unfold Generics.declareName referenceName
  split
  · next taken =>
      have there : (values.lookup (key name)).isSome := (follows.names _).mp (List.contains_iff_mem.mp taken)
      rw [ReferenceValues.add, if_pos there]
      exact ⟨follows.exact, follows.names⟩
  · next free =>
      have absent : (values.lookup (key name)).isNone := by
        rw [← Option.not_isSome, Bool.not_eq_true', ← Bool.not_eq_true, ← follows.names, ← List.contains_iff_mem]
        exact free
      have names (value : Option Int) (other : String) :
          other ∈ key name :: s.names ↔ ((values.add (key name) value).lookup other).isSome := by
        rw [isSome_lookup_add, List.mem_cons, follows.names]
      split
      · exact ⟨exact_add _ _ _ _ follows.exact, names _⟩
      · next defaultValue given =>
          split
          · exact ⟨exact_add _ _ _ _ follows.exact, names _⟩
          · next value found =>
              split
              · exact ⟨exact_add _ _ _ _ follows.exact, names _⟩
              · refine ⟨exact_append _ _ _ _ _ absent ?_ follows.exact, names _⟩
                rw [given]
                exact evaluateInteger_exact s.values values.env follows.exact defaultValue value found

theorem analyzeGenerics_follows (visibility : Visibility) (generics : List GenericDeclaration) :
    Follows (analyzeGenerics visibility generics) (referenceDefaults generics) := by
  have names (generic : GenericDeclaration) (list : List Name) (s : Generics) (values : ReferenceValues)
      (follows : Follows s values) :
      Follows (list.foldl (Generics.declareName generic) s) (list.foldl (referenceName generic) values) := by
    induction list generalizing s values with
    | nil => exact follows
    | cons name rest ih => exact ih _ _ (declareName_follows generic s values name follows)
  have all (list : List GenericDeclaration) (s : Generics) (values : ReferenceValues) (follows : Follows s values) :
      Follows (list.foldl (Generics.declare visibility) s)
        (list.foldl (fun values generic => generic.names.foldl (referenceName generic) values) values) := by
    induction list generalizing s values with
    | nil => exact follows
    | cons generic rest ih => exact ih _ _ (names generic generic.names _ values ⟨follows.exact, follows.names⟩)
  refine all generics _ _ ⟨fun name value found => (nomatch found), fun name => ?_⟩
  exact ⟨fun member => (nomatch member), fun given => (nomatch given)⟩

section instantiation
variable (architectureValues : GenericValues) (outer : String → Option Int) (exact : Exact architectureValues outer)

/-- The loop over the generics of an instance keeps to the reference. -/
structure Binds (s : GenericValues × Report) (values : ReferenceValues) : Prop where
  exact : Exact s.1 values.env
  names : ∀ name, (s.1.lookup name).isSome ↔ (values.lookup name).isSome

theorem bindOne_quiet (s : GenericValues × Report) (binding : Binding)
    (quiet : (bindOne architectureValues s binding).2.Quiet) :
    s.2.Quiet ∧ ∃ value span, bindValue architectureValues s.1 binding = (some value, span) ∧
      ¬outsideSubtype binding.generic.type value ∧ bindOne architectureValues s binding =
        if (s.1.lookup (key binding.name)).isSome then s else (s.1 ++ [(key binding.name, value)], s.2) := by
  unfold bindOne at quiet ⊢
  split at quiet
  · exact absurd ((quiet_append _ _).mp quiet).2 (not_quiet_diagnose _ _)
  · next value span found =>
      split at quiet
      · exact absurd ((quiet_append _ _).mp quiet).2 (not_quiet_diagnose _ _)
      · next inside =>
          rw [if_neg inside]
          split at quiet
          · exact ⟨quiet, value, span, found, inside, rfl⟩
          · exact ⟨quiet, value, span, found, inside, rfl⟩

theorem bindAll_quiet (list : List Binding) (s : GenericValues × Report)
    (quiet : (list.foldl (bindOne architectureValues) s).2.Quiet) : s.2.Quiet := by
  induction list generalizing s with
  | nil => exact quiet
  | cons binding rest ih => exact (bindOne_quiet architectureValues s binding (ih _ quiet)).1

include exact

theorem bindValue_exact (values : GenericValues) (reference : ReferenceValues) (follows : Exact values reference.env)
    (binding : Binding) (value : Int64) (span : SourceSpan)
    (given : bindValue architectureValues values binding = (some value, span)) :
    referenceValue outer reference binding = some value.toInt := by
  unfold bindValue at given
  unfold referenceValue
  cases found : binding.association with
  | some association =>
      rw [found] at given
      exact evaluateInteger_exact architectureValues outer exact association.actual value (Prod.mk.inj given).1
  | none =>
      rw [found] at given
      cases written : binding.generic.defaultValue with
      | some defaultValue =>
          rw [written] at given
          exact evaluateInteger_exact values reference.env follows defaultValue value (Prod.mk.inj given).1
      | none =>
          rw [written] at given
          nomatch (Prod.mk.inj given).1

theorem bindAll_binds (list : List Binding) (s : GenericValues × Report) (values : ReferenceValues)
    (binds : Binds s values) (quiet : (list.foldl (bindOne architectureValues) s).2.Quiet) :
    Binds (list.foldl (bindOne architectureValues) s) (list.foldl (referenceBind outer) values) := by
  induction list generalizing s values with
  | nil => exact binds
  | cons binding rest ih =>
      refine ih _ _ ?_ quiet
      obtain ⟨-, value, span, found, -, same⟩ := bindOne_quiet architectureValues s binding
        (bindAll_quiet architectureValues rest _ quiet)
      have expected := bindValue_exact architectureValues outer exact s.1 values binds.exact binding value span found
      rw [same]
      unfold referenceBind
      rw [expected]
      split
      · next taken =>
          rw [ReferenceValues.add, if_pos ((binds.names _).mp taken)]
          exact binds
      · next free =>
          have absent : (values.lookup (key binding.name)).isNone := by
            rw [← Option.not_isSome, Bool.not_eq_true', ← Bool.not_eq_true, ← binds.names]
            exact free
          refine ⟨exact_append _ _ _ _ _ absent rfl binds.exact, ?_⟩
          intro name
          rw [isSome_lookup_add, ← binds.names, List.lookup_append, Option.isSome_or]
          by_cases here : name = key binding.name
          · simp [here]
          · have apart : (name == key binding.name) = false := beq_eq_false_iff_ne.mpr here
            simp [here, List.lookup_cons, apart]

/-- The values of an instance are those of the reference. -/
theorem instanceValues_exact (model : EntityDeclaration) (instantiation : EntityInstantiation)
    (quiet : (instanceValues architectureValues model instantiation).2.Quiet) :
    Exact (instanceValues architectureValues model instantiation).1
      (referenceInstance outer model instantiation).env := by
  refine (bindAll_binds architectureValues outer exact _ ([], empty) [] ?_ quiet).exact
  exact ⟨fun name value found => (nomatch found), fun name => ⟨fun given => (nomatch given), fun given => (nomatch given)⟩⟩

end instantiation

/-! ### Scopes -/

/-- The declaration of a name in a scope. -/
def find (objects : List Object) (name : String) : Option Object := objects.find? (fun object => object.name == name)

theorem lookup_declareAll (objects : List Object) (declarations : Declarations) (name : String) :
    (declareAll declarations objects).lookup name =
      (declarations.lookup name).or ((find objects name).map Object.checkedType) := by
  unfold declareAll find
  induction objects generalizing declarations with
  | nil => simp
  | cons object rest ih =>
      rw [List.foldl_cons, ih, List.find?_cons]
      unfold emplace
      by_cases here : object.name = name
      · subst here
        cases taken : declarations.lookup object.name with
        | some type => simp [taken]
        | none => simp [taken, List.lookup_append]
      · have apart : (name == object.name) = false := beq_eq_false_iff_ne.mpr (fun same => here same.symm)
        have apart' : (object.name == name) = false := beq_eq_false_iff_ne.mpr here
        rw [apart']
        split
        · rfl
        · simp [List.lookup_append, List.lookup_cons, apart]

theorem lookup_declareAll_nil (objects : List Object) (name : String) :
    (declareAll [] objects).lookup name = (find objects name).map Object.checkedType :=
  lookup_declareAll objects [] name

theorem declareAll_append (first second : List Object) (declarations : Declarations) :
    declareAll (declareAll declarations first) second = declareAll declarations (first ++ second) :=
  List.foldl_append.symm

/-- Vectors have the range of their constraint, scalars have none. -/
def RangeOf (range : Option DiscreteRange) (type : CheckedType) : Prop :=
  type.range = if type.kind.isVector then range else none

theorem rangeOf_ite (range : Option DiscreteRange) (condition : Prop) [Decidable condition] (a b : CheckedType)
    (first : RangeOf range a) (second : RangeOf range b) : RangeOf range (if condition then a else b) := by
  split
  · exact first
  · exact second

theorem declarationType_range (type : TypeMark) (visibility : Visibility) (values : GenericValues) :
    RangeOf (type.constraint.bind (fun constraint => resolveRange constraint values))
      (declarationType type visibility values) := by
  unfold declarationType
  -- the four kinds of vectors, constraints of other types, and the scalars
  refine rangeOf_ite _ _ _ _ rfl (rangeOf_ite _ _ _ _ rfl (rangeOf_ite _ _ _ _ rfl (rangeOf_ite _ _ _ _ rfl ?_)))
  refine rangeOf_ite _ _ _ _ rfl ?_
  refine rangeOf_ite _ _ _ _ rfl (rangeOf_ite _ _ _ _ rfl (rangeOf_ite _ _ _ _ rfl (rangeOf_ite _ _ _ _ rfl ?_)))
  exact rangeOf_ite _ _ _ _ rfl (rangeOf_ite _ _ _ _ rfl (rangeOf_ite _ _ _ _ rfl (rangeOf_ite _ _ _ _ rfl rfl)))

/-- The shape of a declared name, with its range in unbounded integers. -/
def Object.shape (env : String → Option Int) (object : Object) : Option Shape :=
  if object.checkedType.kind.isVector then
    (object.type.constraint.bind (fun constraint => constraint.declaredElements env)).map
      (fun n => ⟨object.checkedType.kind, some n⟩)
  else some ⟨object.checkedType.kind, none⟩

def declared (env : String → Option Int) (objects : List Object) (name : String) : Option Shape :=
  (find objects name).bind (Object.shape env)

/-- A range that is resolved has less than `2 ^ 64` elements. -/
def Object.Fits (object : Object) : Prop :=
  ∀ range, object.checkedType.range = some range → range.elements < 2 ^ 64

/-- The range of a vector is resolved, and its width does not wrap. -/
structure Object.Readable (object : Object) : Prop where
  fits : object.Fits
  resolved : object.checkedType.kind.isVector → object.checkedType.range.isSome

theorem Object.Fits.proper (object : Object) (fits : object.Fits) : object.checkedType.Proper := by
  refine ⟨fits, ?_⟩
  intro scalar
  exact (declarationType_range object.type object.visibility object.values).trans (if_neg scalar)

theorem Object.Readable.known (object : Object) (readable : object.Readable)
    (kind : object.checkedType.kind ≠ .Unknown) : object.checkedType.Known :=
  ⟨readable.fits.proper, readable.resolved, kind⟩

/-- What the analyzer has resolved is the shape of the declaration. -/
theorem Object.shape_of_resolved (env : String → Option Int) (object : Object) (exact : Exact object.values env)
    (resolved : object.checkedType.kind.isVector → object.checkedType.range.isSome) :
    object.shape env = some object.checkedType.shape := by
  have range : object.checkedType.range = _ := declarationType_range object.type object.visibility object.values
  change object.checkedType.range = if object.checkedType.kind.isVector then _ else none at range
  unfold Object.shape CheckedType.shape
  by_cases vector : object.checkedType.kind.isVector
  · rw [if_pos vector] at range ⊢
    obtain ⟨r, found⟩ := Option.isSome_iff_exists.mp (resolved vector)
    obtain ⟨constraint, written, known⟩ := Option.bind_eq_some_iff.mp (range.symm.trans found)
    rw [written, found, Option.bind_some, resolveRange_elements constraint r object.values env exact known]
    rfl
  · rw [if_neg vector] at range ⊢
    rw [range]
    rfl

/-! ### Assigned values -/

def kinds (objects : List Object) (name : String) : ScalarType :=
  ((find objects name).map (fun object => object.checkedType.kind)).getD .Unknown

/-- The names a value reads have ranges the analyzer resolves, and its character literals have kinds. -/
structure ValueResolved (objects : List Object) (target : Name) (value : Expression) : Prop where
  reads : ∀ name ∈ value.reads, ∀ object, find objects name = some object → object.Readable
  target : ∀ object, find objects (key target) = some object →
    object.Fits ∧ Anchored (kinds objects) object.checkedType.kind value

/-- The types recorded for an assigned value follow the rules and end in the shape of the target; it
evaluates to a value of that shape. -/
def ValueSound (env : String → Option Int) (objects : List Object) (report : Report) (place : Place) (target : Name)
    (value : Expression) : Prop :=
  ∃ shape annotation, declared env objects (key target) = some shape ∧ (place, annotation) ∈ report.expressions ∧
    Ruled (declared env objects) value annotation ∧ shape.agrees annotation.type.shape ∧
    ∀ (α : Type) (ops : Operations α) (values : String → Option (Value α)),
      (∀ name s, declared env objects name = some s → ∃ v, values name = some v ∧ v.HasShape s) →
        ∃ v, evaluate ops values value annotation = some v ∧ v.HasShape shape

/-- The objects of a scope have types, and their ranges are resolved with true values. -/
structure Scoped (env : String → Option Int) (objects : List Object) : Prop where
  typed : ∀ object ∈ objects, object.checkedType.kind ≠ .Unknown
  exact : ∀ object ∈ objects, Exact object.values env

theorem Scoped.append (env : String → Option Int) (first second : List Object) (a : Scoped env first)
    (b : Scoped env second) : Scoped env (first ++ second) := by
  refine ⟨fun object member => ?_, fun object member => ?_⟩
  · exact (List.mem_append.mp member).elim (a.typed object) (b.typed object)
  · exact (List.mem_append.mp member).elim (a.exact object) (b.exact object)

theorem find_mem (objects : List Object) (name : String) (object : Object) (found : find objects name = some object) :
    object ∈ objects := List.mem_of_find?_eq_some found

theorem kindsOf_declareAll (objects : List Object) : kindsOf (declareAll [] objects) = kinds objects := by
  funext name
  unfold kindsOf kinds
  rw [lookup_declareAll_nil, Option.map_map]
  rfl

section values
variable (env : String → Option Int) (objects : List Object) (inScope : Scoped env objects)
include inScope

theorem declared_of_find (name : String) (object : Object) (found : find objects name = some object)
    (resolved : object.checkedType.kind.isVector → object.checkedType.range.isSome) :
    declared env objects name = some object.checkedType.shape := by
  unfold declared
  rw [found]
  exact object.shape_of_resolved env (inScope.exact object (find_mem objects name object found)) resolved

/-- Readable names are read as they are declared. -/
theorem reads_of_readable (names : List String)
    (readable : ∀ name ∈ names, ∀ object, find objects name = some object → object.Readable) :
    Reads (declareAll [] objects) (declared env objects) names := by
  have found (name : String) (type : CheckedType) (given : (declareAll [] objects).lookup name = some type) :
      ∃ object, find objects name = some object ∧ object.checkedType = type := by
    rw [lookup_declareAll_nil] at given
    exact Option.map_eq_some_iff.mp given
  refine ⟨fun name member type given kind => ?_, fun name member type given kind => ?_⟩
  · obtain ⟨object, here, rfl⟩ := found name type given
    exact (readable name member object here).known object kind
  · obtain ⟨object, here, rfl⟩ := found name type given
    exact declared_of_find env objects inScope name object here (readable name member object here).resolved

/-- A value that is checked against its target without a diagnostic. -/
theorem valueSound_of_quiet (visibility : Visibility) (place : Place) (target : Name) (value : Expression)
    (resolved : ValueResolved objects target value) (object : Object)
    (found : find objects (key target) = some object) (type : CheckedType) (reported report : Report)
    (checked : checkValue (declareAll [] objects) visibility place object.checkedType value = some (type, reported))
    (quiet : reported.Quiet) (span : SourceSpan) (matched : (typeMismatch object.checkedType type span).Quiet)
    (inside : ∀ entry ∈ reported.expressions, entry ∈ report.expressions) :
    ValueSound env objects report place target value := by
  obtain ⟨⟨ annotation, diagnostics⟩, atValue, made⟩ := Option.bind_eq_some_iff.mp checked
  obtain ⟨rfl, rfl⟩ := Prod.mk.inj (Option.some.inj made)
  have none : diagnostics = [] := quiet
  subst none
  obtain ⟨fits, anchored⟩ := resolved.target object found
  have sound := checkExpression_sound (declareAll [] objects) visibility (declared env objects) object.checkedType
    (fits.proper object) value annotation (reads_of_readable env objects inScope value.reads resolved.reads)
    (by rw [kindsOf_declareAll]; exact anchored) atValue
  have typed := inScope.typed object (find_mem objects _ object found)
  have met : compatible object.checkedType annotation.type := by
    have passed := (quiet_diagnoseIf _ _ _).mp matched
    simpa [typed, sound.known.kind] using passed
  have agrees := agrees_of_compatible object.checkedType annotation.type (fits.proper object) sound.known met
  have known := known_of_agrees object.checkedType annotation.type (fits.proper object) sound.known agrees
  refine ⟨object.checkedType.shape, annotation, declared_of_find env objects inScope _ object found known.vector,
    inside _ (List.mem_singleton_self _), sound.ruled, agrees, ?_⟩
  intro α ops values correct
  obtain ⟨v, result, shape⟩ := evaluate_ruled ops (declared env objects) values correct value annotation sound.ruled
  exact ⟨v, result, shape.of_agrees v _ _ agrees⟩

theorem checkAssignment_sound (visibility : Visibility) (place : Place) (assignment : Assignment)
    (resolved : ValueResolved objects assignment.target assignment.value) (own report : Report)
    (checked : checkAssignment (declareAll [] objects) visibility place assignment = some own) (quiet : own.Quiet)
    (inside : ∀ entry ∈ own.expressions, entry ∈ report.expressions) :
    ValueSound env objects report place assignment.target assignment.value := by
  unfold checkAssignment at checked
  split at checked
  · obtain rfl := Option.some.inj checked
    exact absurd quiet (not_quiet_diagnose _ _)
  · split at checked
    · obtain rfl := Option.some.inj checked
      exact absurd quiet (not_quiet_diagnose _ _)
    · split at checked
      · obtain ⟨⟨type, reported⟩, -, made⟩ := Option.bind_eq_some_iff.mp checked
        obtain rfl := Option.some.inj made
        exact absurd ((quiet_append _ _).mp quiet).1 (not_quiet_diagnose _ _)
      · next target lookup =>
          obtain ⟨⟨type, reported⟩, value, made⟩ := Option.bind_eq_some_iff.mp checked
          obtain rfl := Option.some.inj made
          rw [lookup_declareAll_nil] at lookup
          obtain ⟨object, found, rfl⟩ := Option.map_eq_some_iff.mp lookup
          obtain ⟨first, second⟩ := (quiet_append _ _).mp quiet
          refine valueSound_of_quiet env objects inScope visibility place _ _ resolved object found type reported report
            value first _ second ?_
          exact fun entry member => inside entry (List.mem_append_left _ member)

theorem checkProcessAssignment_sound (names : List String) (visibility : Visibility) (place : Place)
    (assignment : Assignment) (resolved : ValueResolved objects assignment.target assignment.value)
    (own report : Report)
    (checked : checkProcessAssignment (declareAll [] objects) names visibility place assignment = some own)
    (quiet : own.Quiet) (inside : ∀ entry ∈ own.expressions, entry ∈ report.expressions) :
    ValueSound env objects report place assignment.target assignment.value := by
  unfold checkProcessAssignment at checked
  split at checked
  · obtain rfl := Option.some.inj checked
    exact absurd quiet (not_quiet_diagnose _ _)
  · obtain ⟨⟨type, reported⟩, value, made⟩ := Option.bind_eq_some_iff.mp checked
    obtain rfl := Option.some.inj made
    obtain ⟨front, last⟩ := (quiet_append _ _).mp quiet
    obtain ⟨target, middle⟩ := (quiet_append _ _).mp front
    rw [lookup_declareAll_nil] at value target last
    cases found : find objects (key assignment.target) with
    | none =>
        rw [found] at target
        exact absurd target (not_quiet_diagnose _ _)
    | some object =>
        rw [found] at value last
        refine valueSound_of_quiet env objects inScope visibility place _ _ resolved object found type reported report
          value middle _ last ?_
        exact fun entry member => inside entry (List.mem_append_left _ (List.mem_append_right _ member))

end values

/-! ### Associations -/

/-- The formal and the actual of a port map have one shape. -/
def AssociationSound (env inner : String → Option Int) (objects : List Object) (formal : Object) (actual : Name) :
    Prop :=
  ∃ s t, formal.shape inner = some s ∧ declared env objects (key actual) = some t ∧ s.agrees t

/-- The range of the actual is resolved, and the widths do not wrap. -/
structure AssociationResolved (objects : List Object) (formal : Object) (actual : Name) : Prop where
  formal : formal.Fits
  actual : ∀ object, find objects (key actual) = some object → object.Readable

theorem checkActual_sound (env inner : String → Option Int) (objects : List Object) (inScope : Scoped env objects)
    (formal : Name × Object) (actual : Name) (exact : Exact formal.2.values inner)
    (resolved : AssociationResolved objects formal.2 actual)
    (quiet : (checkActual (declareAll [] objects) formal actual).Quiet) :
    AssociationSound env inner objects formal.2 actual := by
  unfold checkActual at quiet
  rw [lookup_declareAll_nil] at quiet
  cases found : find objects (key actual) with
  | none =>
      rw [found] at quiet
      exact absurd quiet (not_quiet_diagnose _ _)
  | some object =>
      rw [found] at quiet
      have met : compatible formal.2.checkedType object.checkedType := by
        simpa using (quiet_diagnoseIf _ _ _).mp quiet
      have readable := resolved.actual object found
      have known := readable.known object (inScope.typed object (find_mem objects _ object found))
      have proper := resolved.formal.proper formal.2
      have agrees := agrees_of_compatible formal.2.checkedType object.checkedType proper known met
      have vector := (known_of_agrees formal.2.checkedType object.checkedType proper known agrees).vector
      exact ⟨_, _, formal.2.shape_of_resolved inner exact vector,
        declared_of_find env objects inScope _ object found readable.resolved, agrees⟩

theorem formals_values (model : EntityInfo) (values : GenericValues) (formal : Name × Object)
    (member : formal ∈ formals model values) : formal.2.values = values := by
  obtain ⟨port, -, inside⟩ := List.mem_flatMap.mp member
  obtain ⟨name, -, rfl⟩ := List.mem_map.mp inside
  rfl

/-- The ports of a model as an instance types them. -/
def instanceFormals (values : GenericValues) (model : EntityInfo) (instantiation : EntityInstantiation) :
    List (Name × Object) :=
  formals model (instanceValues values model.declaration instantiation).1

/-- Every port of the instance has an actual of its shape. -/
structure InstanceSound (env : String → Option Int) (objects : List Object) (values : GenericValues)
    (model : EntityInfo) (instantiation : EntityInstantiation) : Prop where
  actuals : (instanceFormals values model instantiation).length = instantiation.actuals.length
  ports : ∀ pair ∈ (instanceFormals values model instantiation).zip instantiation.actuals,
    AssociationSound env (referenceInstance env model.declaration instantiation).env objects pair.1.2 pair.2

theorem analyzeModel_sound (env : String → Option Int) (objects : List Object) (inScope : Scoped env objects)
    (values : GenericValues) (exact : Exact values env) (architecture index : Nat) (model : EntityInfo)
    (instantiation : EntityInstantiation)
    (resolved : ∀ pair ∈ (instanceFormals values model instantiation).zip instantiation.actuals,
      AssociationResolved objects pair.1.2 pair.2)
    (quiet : (analyzeModel (declareAll [] objects) values architecture index model instantiation).Quiet) :
    InstanceSound env objects values model instantiation := by
  unfold analyzeModel at quiet
  simp only [quiet_append] at quiet
  obtain ⟨⟨⟨⟨⟨⟨-, bound⟩, -⟩, -⟩, -⟩, -⟩, ports⟩ := quiet
  split at ports
  · exact absurd ports (not_quiet_diagnose _ _)
  · next lengths =>
      rw [ne_eq, Decidable.not_not] at lengths
      refine ⟨lengths, fun pair member => ?_⟩
      have inner := instanceValues_exact values env exact model.declaration instantiation bound
      have own : pair.1.2.values = _ := formals_values model _ pair.1 (List.of_mem_zip member).1
      refine checkActual_sound env _ objects inScope pair.1 pair.2 (own ▸ inner) (resolved pair member) ?_
      refine (quiet_concat _).mp ports _ ?_
      rw [← List.map_uncurry_zip_eq_zipWith]
      exact List.mem_map_of_mem member

/-! ### Declarations without diagnostics -/

theorem quiet_unsupportedType (type : TypeMark) (checked : CheckedType) :
    (unsupportedType type checked).Quiet ↔ checked.kind ≠ .Unknown := by
  rw [unsupportedType, quiet_diagnoseIf, beq_eq_false_iff_ne]

theorem declareName_quiet (generic : GenericDeclaration) (s : Generics) (name : Name)
    (quiet : (s.declareName generic name).report.Quiet) : s.report.Quiet := by
  unfold Generics.declareName at quiet
  split at quiet
  · exact ((quiet_append _ _).mp quiet).1
  · split at quiet
    · exact quiet
    · split at quiet
      · exact ((quiet_append _ _).mp quiet).1
      · split at quiet
        · exact ((quiet_append _ _).mp quiet).1
        · exact quiet

theorem declareNames_quiet (generic : GenericDeclaration) (names : List Name) (s : Generics)
    (quiet : (names.foldl (Generics.declareName generic) s).report.Quiet) : s.report.Quiet := by
  induction names generalizing s with
  | nil => exact quiet
  | cons name rest ih => exact declareName_quiet generic s name (ih _ quiet)

theorem declareGenerics_quiet (visibility : Visibility) (generics : List GenericDeclaration) (s : Generics)
    (quiet : (generics.foldl (Generics.declare visibility) s).report.Quiet) :
    s.report.Quiet ∧ ∀ generic ∈ generics, (declarationType generic.type visibility []).kind.isInteger := by
  induction generics generalizing s with
  | nil => exact ⟨quiet, fun generic member => (nomatch member)⟩
  | cons first rest ih =>
      obtain ⟨declared, others⟩ := ih _ quiet
      obtain ⟨before, own⟩ := (quiet_append _ _).mp (declareNames_quiet first first.names _ declared)
      rw [quiet_diagnoseIf, Bool.not_eq_false'] at own
      exact ⟨before, List.forall_mem_cons.mpr ⟨own, others⟩⟩

theorem mem_objectsOf (names : List Name) (type : TypeMark) (visibility : Visibility) (values : GenericValues)
    (object : Object) (member : object ∈ objectsOf names type visibility values) :
    object.checkedType = declarationType type visibility values ∧ object.values = values := by
  obtain ⟨name, -, rfl⟩ := List.mem_map.mp member
  exact ⟨rfl, rfl⟩

theorem exact_nil (env : String → Option Int) : Exact [] env := fun _ _ found => (nomatch found)

/-- The values of the generics of the entity of an architecture. -/
abbrev EntityInfo.env (info : EntityInfo) : String → Option Int := (referenceDefaults info.declaration.generics).env

theorem defaults_exact (entity : EntityDeclaration) : Exact (entityInfo entity).defaults (entityInfo entity).env :=
  (analyzeGenerics_follows (entityInfo entity).visibility entity.generics).exact

theorem entityObjects_inScope (earlier : List EntityDeclaration) (index : Nat) (entity : EntityDeclaration)
    (quiet : (analyzeEntity earlier index entity).Quiet) :
    Scoped (entityInfo entity).env (entityObjects (entityInfo entity)) := by
  unfold analyzeEntity at quiet
  simp only [quiet_append] at quiet
  obtain ⟨⟨⟨-, generics⟩, ports⟩, -⟩ := quiet
  have integers := (declareGenerics_quiet _ _ _ generics).2
  refine Scoped.append _ _ _ ⟨fun object member => ?_, fun object member => ?_⟩
    ⟨fun object member => ?_, fun object member => ?_⟩
  · obtain ⟨generic, inside, named⟩ := List.mem_flatMap.mp member
    rw [(mem_objectsOf _ _ _ _ object named).1]
    intro unknown
    have whole := integers generic inside
    change (declarationType generic.type (entityInfo entity).visibility []).kind.isInteger at whole
    rw [unknown] at whole
    nomatch whole
  · obtain ⟨generic, -, named⟩ := List.mem_flatMap.mp member
    rw [(mem_objectsOf _ _ _ _ object named).2]
    exact exact_nil _
  · obtain ⟨port, inside, named⟩ := List.mem_flatMap.mp member
    obtain ⟨place, at_place⟩ := List.getElem?_of_mem inside
    change entity.ports[place]? = some port at at_place
    have own := (quiet_concat _).mp ports _
      (List.mem_of_getElem? (i := place) (by rw [List.getElem?_mapIdx, at_place]; rfl))
    rw [(mem_objectsOf _ _ _ _ object named).1]
    exact (quiet_unsupportedType _ _).mp ((quiet_append _ _).mp own).1
  · obtain ⟨port, -, named⟩ := List.mem_flatMap.mp member
    rw [(mem_objectsOf _ _ _ _ object named).2]
    exact defaults_exact entity

theorem analyzeEntities_quiet (earlier entities : List EntityDeclaration)
    (quiet : (analyzeEntities earlier entities).Quiet) (entity : EntityDeclaration) (member : entity ∈ entities) :
    ∃ before index, (analyzeEntity before index entity).Quiet := by
  induction entities generalizing earlier with
  | nil => nomatch member
  | cons first rest ih =>
      obtain ⟨own, others⟩ := (quiet_append _ _).mp quiet
      rcases List.mem_cons.mp member with rfl | inside
      · exact ⟨_, _, own⟩
      · exact ih _ others inside

theorem findEntity_inScope (entities : List EntityDeclaration) (quiet : (analyzeEntities [] entities).Quiet)
    (name : Name) (info : EntityInfo) (found : findEntity entities name = some info) :
    Scoped info.env (entityObjects info) ∧ Exact info.defaults info.env := by
  obtain ⟨entity, here, rfl⟩ := Option.map_eq_some_iff.mp found
  obtain ⟨before, index, own⟩ := analyzeEntities_quiet [] entities quiet entity (List.mem_of_find?_eq_some here)
  exact ⟨entityObjects_inScope before index entity own, defaults_exact entity⟩

theorem signalObjects_inScope (info : EntityInfo) (exact : Exact info.defaults info.env) (index : Nat)
    (architecture : ArchitectureBody) (quiet : (analyzeSignals info index architecture).Quiet) :
    Scoped info.env (signalObjects info architecture) := by
  have signals := ((quiet_append _ _).mp quiet).1
  refine ⟨fun object member => ?_, fun object member => ?_⟩
  · obtain ⟨signal, inside, named⟩ := List.mem_flatMap.mp member
    obtain ⟨place, at_place⟩ := List.getElem?_of_mem inside
    have own := (quiet_concat _).mp signals _
      (List.mem_of_getElem? (i := place) (by rw [List.getElem?_mapIdx, at_place]; rfl))
    rw [(mem_objectsOf _ _ _ _ object named).1]
    exact (quiet_unsupportedType _ _).mp ((quiet_append _ _).mp ((quiet_append _ _).mp own).1).2
  · obtain ⟨signal, -, named⟩ := List.mem_flatMap.mp member
    rw [(mem_objectsOf _ _ _ _ object named).2]
    exact exact

theorem variableObjects_inScope (env : String → Option Int) (declarations : Declarations)
    (architecture : ArchitectureBody) (process : ClockedProcess)
    (quiet : (analyzeVariables (analyzeContext architecture.context).1 declarations process).Quiet) :
    Scoped env (variableObjects architecture process) := by
  have types := ((quiet_append _ _).mp ((quiet_append _ _).mp quiet).1).1
  refine ⟨fun object member => ?_, fun object member => ?_⟩
  · obtain ⟨declaration, inside, named⟩ := List.mem_flatMap.mp member
    have own := (quiet_concat _).mp types _ (List.mem_map_of_mem inside)
    rw [(mem_objectsOf _ _ _ _ object named).1]
    exact (quiet_unsupportedType _ _).mp own
  · obtain ⟨declaration, -, named⟩ := List.mem_flatMap.mp member
    rw [(mem_objectsOf _ _ _ _ object named).2]
    exact exact_nil env

/-! ### Design files -/

/-- The objects in the scope of a process. -/
def processObjects (info : EntityInfo) (architecture : ArchitectureBody) (process : ClockedProcess) : List Object :=
  architectureObjects info architecture ++ variableObjects architecture process

/-- Where the analyzer resolves the ranges that an architecture reads. -/
structure BodyResolved (entities : List EntityDeclaration) (info : EntityInfo) (architecture : ArchitectureBody) :
    Prop where
  concurrent : ∀ assignment ∈ architecture.assignments,
    ValueResolved (architectureObjects info architecture) assignment.target assignment.value
  clocked : ∀ process ∈ architecture.processes, ∀ assignment ∈ process.assignments ++ process.resetAssignments,
    ValueResolved (processObjects info architecture process) assignment.target assignment.value
  ports : ∀ instantiation ∈ architecture.instantiations, ∀ model,
    findEntity entities instantiation.entity = some model →
    ∀ pair ∈ (instanceFormals info.defaults model instantiation).zip instantiation.actuals,
      AssociationResolved (architectureObjects info architecture) pair.1.2 pair.2

structure ProcessSound (env : String → Option Int) (objects : List Object) (report : Report) (index place : Nat)
    (process : ClockedProcess) : Prop where
  clocked : ∀ i assignment, process.assignments[i]? = some assignment →
    ValueSound env objects report (.clocked index place i) assignment.target assignment.value
  reset : ∀ i assignment, process.resetAssignments[i]? = some assignment →
    ValueSound env objects report (.reset index place i) assignment.target assignment.value

/-- Every assignment and every port map of an architecture joins one shape with itself. -/
structure BodySound (entities : List EntityDeclaration) (report : Report) (index : Nat) (info : EntityInfo)
    (architecture : ArchitectureBody) : Prop where
  concurrent : ∀ i assignment, architecture.assignments[i]? = some assignment →
    ValueSound info.env (architectureObjects info architecture) report (.concurrent index i) assignment.target
      assignment.value
  processes : ∀ place process, architecture.processes[place]? = some process →
    ProcessSound info.env (processObjects info architecture process) report index place process
  instances : ∀ instantiation ∈ architecture.instantiations, ∃ model,
    findEntity entities instantiation.entity = some model ∧
      InstanceSound info.env (architectureObjects info architecture) info.defaults model instantiation

def FileResolved (file : DesignFile) : Prop :=
  ∀ architecture ∈ file.architectures, ∀ info, findEntity file.entities architecture.entity = some info →
    BodyResolved file.entities info architecture

def FileSound (file : DesignFile) (report : Report) : Prop :=
  ∀ (i : Nat) (architecture : ArchitectureBody), file.architectures[i]? = some architecture →
    ∃ info, findEntity file.entities architecture.entity = some info ∧
      BodySound file.entities report i info architecture

theorem analyzeProcess_sound (info : EntityInfo) (architecture : ArchitectureBody) (index place : Nat)
    (process : ClockedProcess) (inScope : Scoped info.env (architectureObjects info architecture))
    (resolved : ∀ assignment ∈ process.assignments ++ process.resetAssignments,
      ValueResolved (processObjects info architecture process) assignment.target assignment.value)
    (own report : Report)
    (analyzed : analyzeProcess (declareAll [] (architectureObjects info architecture)) architecture index place process
      = some own) (quiet : own.Quiet) (inside : ∀ entry ∈ own.expressions, entry ∈ report.expressions) :
    ProcessSound info.env (processObjects info architecture process) report index place process := by
  unfold analyzeProcess at analyzed
  split at analyzed
  · obtain rfl := Option.some.inj analyzed
    exact absurd quiet (not_quiet_diagnose _ _)
  · obtain ⟨assigned, first, further⟩ := Option.bind_eq_some_iff.mp analyzed
    obtain ⟨reset, second, made⟩ := Option.bind_eq_some_iff.mp further
    obtain rfl := Option.some.inj made
    simp only [quiet_append] at quiet
    obtain ⟨⟨⟨declared, -⟩, quietAssigned⟩, quietReset⟩ := quiet
    have all : Scoped info.env (processObjects info architecture process) :=
      inScope.append _ _ _ (variableObjects_inScope info.env _ architecture process declared)
    rw [declareAll_append] at first second
    refine ⟨fun i assignment at_i => ?_, fun i assignment at_i => ?_⟩
    · obtain ⟨result, member, checked⟩ := mapIdx_mapM _ _ _ first i assignment at_i
      refine checkProcessAssignment_sound info.env _ all _ _ _ assignment
        (resolved assignment (List.mem_append_left _ (List.mem_of_getElem? at_i))) result report checked
        ((quiet_concat _).mp quietAssigned result member) (fun entry recorded => inside entry ?_)
      exact List.mem_append_left _ (List.mem_append_right _ (mem_concat assigned result member entry recorded))
    · obtain ⟨result, member, checked⟩ := mapIdx_mapM _ _ _ second i assignment at_i
      refine checkProcessAssignment_sound info.env _ all _ _ _ assignment
        (resolved assignment (List.mem_append_right _ (List.mem_of_getElem? at_i))) result report checked
        ((quiet_concat _).mp quietReset result member) (fun entry recorded => inside entry ?_)
      exact List.mem_append_right _ (mem_concat reset result member entry recorded)

theorem analyzeInstantiation_sound (entities : List EntityDeclaration) (info : EntityInfo)
    (exact : Exact info.defaults info.env) (objects : List Object) (inScope : Scoped info.env objects)
    (index place : Nat) (instantiation : EntityInstantiation)
    (resolved : ∀ model, findEntity entities instantiation.entity = some model →
      ∀ pair ∈ (instanceFormals info.defaults model instantiation).zip instantiation.actuals,
        AssociationResolved objects pair.1.2 pair.2)
    (quiet : (analyzeInstantiation entities (declareAll [] objects) info.defaults index place instantiation).Quiet) :
    ∃ model, findEntity entities instantiation.entity = some model ∧
      InstanceSound info.env objects info.defaults model instantiation := by
  unfold analyzeInstantiation at quiet
  split at quiet
  · exact absurd quiet (not_quiet_diagnose _ _)
  · split at quiet
    · exact absurd quiet (not_quiet_diagnose _ _)
    · next model found =>
        refine ⟨model, found, ?_⟩
        exact analyzeModel_sound info.env objects inScope info.defaults exact index place model instantiation
          (resolved model found) quiet

theorem analyzeBody_sound (entities : List EntityDeclaration) (index : Nat) (info : EntityInfo)
    (architecture : ArchitectureBody) (exact : Exact info.defaults info.env)
    (entityScope : Scoped info.env (entityObjects info)) (resolved : BodyResolved entities info architecture)
    (own report : Report) (analyzed : analyzeBody entities index info architecture = some own) (quiet : own.Quiet)
    (inside : ∀ entry ∈ own.expressions, entry ∈ report.expressions) :
    BodySound entities report index info architecture := by
  obtain ⟨assigned, first, further⟩ := Option.bind_eq_some_iff.mp analyzed
  obtain ⟨processes, second, made⟩ := Option.bind_eq_some_iff.mp further
  obtain rfl := Option.some.inj made
  simp only [quiet_append] at quiet
  obtain ⟨⟨⟨⟨signals, -⟩, instances⟩, quietAssigned⟩, quietProcesses⟩ := quiet
  have inScope : Scoped info.env (architectureObjects info architecture) :=
    entityScope.append _ _ _ (signalObjects_inScope info exact index architecture signals)
  refine ⟨fun i assignment at_i => ?_, fun place process at_place => ?_, fun instantiation member => ?_⟩
  · obtain ⟨result, member, checked⟩ := mapIdx_mapM _ _ _ first i assignment at_i
    refine checkAssignment_sound info.env _ inScope _ _ assignment
      (resolved.concurrent assignment (List.mem_of_getElem? at_i)) result report checked
      ((quiet_concat _).mp quietAssigned result member) (fun entry recorded => inside entry ?_)
    exact List.mem_append_left _ (List.mem_append_right _ (mem_concat assigned result member entry recorded))
  · obtain ⟨result, member, checked⟩ := mapIdx_mapM _ _ _ second place process at_place
    refine analyzeProcess_sound info architecture index place process inScope
      (resolved.clocked process (List.mem_of_getElem? at_place)) result report checked
      ((quiet_concat _).mp quietProcesses result member) (fun entry recorded => inside entry ?_)
    exact List.mem_append_right _ (mem_concat processes result member entry recorded)
  · obtain ⟨place, at_place⟩ := List.getElem?_of_mem member
    refine analyzeInstantiation_sound entities info exact _ inScope index place instantiation
      (resolved.ports instantiation member) ((quiet_concat _).mp instances _ ?_)
    exact List.mem_of_getElem? (i := place) (by rw [List.getElem?_mapIdx, at_place]; rfl)

/-- A design file without diagnostics joins equal shapes everywhere, where the analyzer resolves the
ranges that are read. -/
theorem analyze_sound (file : DesignFile) (report : Report) (analyzed : analyze file = some report)
    (quiet : report.Quiet) (resolved : FileResolved file) : FileSound file report := by
  obtain ⟨architectures, all, made⟩ := Option.bind_eq_some_iff.mp analyzed
  obtain rfl := Option.some.inj made
  simp only [quiet_append] at quiet
  obtain ⟨⟨-, entities⟩, quietAll⟩ := quiet
  intro i architecture at_i
  obtain ⟨own, member, checked⟩ := mapIdx_mapM _ _ _ all i architecture at_i
  have quietOwn := (quiet_concat _).mp quietAll own member
  unfold analyzeArchitecture at checked
  cases found : findEntity file.entities architecture.entity with
  | none =>
      rw [found] at checked
      obtain rfl := Option.some.inj checked
      exact absurd ((quiet_append _ _).mp quietOwn).2 (not_quiet_diagnose _ _)
  | some info =>
      rw [found] at checked
      obtain ⟨body, analyzedBody, made⟩ := Option.bind_eq_some_iff.mp checked
      obtain rfl := Option.some.inj made
      obtain ⟨scope, exact⟩ := findEntity_inScope file.entities entities architecture.entity info found
      refine ⟨info, rfl, analyzeBody_sound file.entities i info architecture exact scope
        (resolved architecture (List.mem_of_getElem? at_i) info found) body _ analyzedBody
        ((quiet_append _ _).mp quietOwn).2 (fun entry recorded => ?_)⟩
      refine List.mem_append_right _ (mem_concat architectures _ member entry ?_)
      exact List.mem_append_right _ recorded

/-! ### A process that moves a variable -/

def nowhere : SourceSpan := ⟨⟨0, 0, 0⟩, ⟨0, 0, 0⟩⟩

def basic (name : String) : Name := ⟨name, name, nowhere⟩

def nameExpression (name : String) : Expression := .mk .Name name name nowhere none none none []

def integerExpression (text : String) : Expression := .mk .IntegerLiteral text "" nowhere none none none []

def binaryExpression (text : String) (left right : Expression) : Expression :=
  .mk .Binary text "" nowhere (some left) (some right) none []

/-- `unsigned(left downto 0)` -/
def unsignedMark (left : Expression) : TypeMark :=
  ⟨basic "unsigned", some ⟨0, 0, false, nowhere, some left, some (integerExpression "0"), none, none⟩⟩

def moveContext : ContextClause :=
  let use (package : String) : UseClause := ⟨[basic "ieee", basic package, basic "all"], nowhere⟩
  ⟨[[basic "ieee"]], [use "std_logic_1164", use "numeric_std"]⟩

/-- `a := b` on the edge of the clock, for variables with the given left bounds. -/
def moveProcess (first second : Expression) : ClockedProcess :=
  let declare (name : String) (left : Expression) : ObjectDeclaration := ⟨[basic name], unsignedMark left, nowhere, none⟩
  let assignment : Assignment := ⟨⟨basic "a", nameExpression "b", nowhere, .Variable, []⟩, none⟩
  ⟨basic "clk", basic "clk", basic "clk", [assignment], [declare "a" first, declare "b" second], none, none, [],
    nowhere, [], false⟩

/-- An entity with a generic `w` of value 8 and a clock. -/
def moveEntity : EntityDeclaration :=
  ⟨basic "e", [⟨[basic "w"], ⟨basic "natural", none⟩, some (integerExpression "8")⟩],
    [⟨[basic "clk"], ⟨basic "std_logic", none⟩, nowhere, none⟩], moveContext⟩

def moveArchitecture (first second : Expression) : ArchitectureBody :=
  ⟨basic "rtl", basic "e", [], [moveProcess first second], [], [], nowhere, moveContext, false, false, false, false,
    false, false⟩

def moveFile (first second : Expression) : DesignFile := ⟨[], [moveEntity], [moveArchitecture first second]⟩

def moveObjects (first second : Expression) : List Object :=
  processObjects (entityInfo moveEntity) (moveArchitecture first second) (moveProcess first second)

/-- Both variables have eight elements. -/
def evenMove : DesignFile := moveFile (integerExpression "7") (integerExpression "7")

/-- `w - 1` and `2 * w - 1` -/
def parametricBounds : Expression × Expression :=
  let one := integerExpression "1"
  let w := nameExpression "w"
  (binaryExpression "-" w one, binaryExpression "-" (binaryExpression "*" (integerExpression "2") w) one)

def parametricMove : DesignFile := moveFile parametricBounds.1 parametricBounds.2

theorem evenMove_sound : ∃ report, FileSound evenMove report := by
  have quiet : (analyze evenMove).map (fun report => report.diagnostics.isEmpty) = some true := by decide +kernel
  obtain ⟨report, analyzed, empty⟩ := Option.map_eq_some_iff.mp quiet
  refine ⟨report, analyze_sound evenMove report analyzed (List.isEmpty_iff.mp empty) ?_⟩
  -- the range of a variable is resolved to eight elements
  let even (name : String) : Object :=
    ⟨name, unsignedMark (integerExpression "7"), (analyzeContext moveContext).1, []⟩
  have readable (name : String) : (even name).Readable := by
    refine ⟨fun range resolved => ?_, fun _ => rfl⟩
    obtain rfl := Option.some.inj resolved
    decide +kernel
  have found (name : String) (object : Object)
      (here : find (moveObjects (integerExpression "7") (integerExpression "7")) name = some object)
      (other : name = "a" ∨ name = "b") : object = even name := by
    rcases other with rfl | rfl
    · exact (Option.some.inj here).symm
    · exact (Option.some.inj here).symm
  intro architecture member info entity
  obtain rfl := List.mem_singleton.mp member
  obtain rfl := Option.some.inj entity
  refine ⟨fun assignment none => (nomatch none), fun process inside assignment listed => ?_,
    fun instantiation none => (nomatch none)⟩
  obtain rfl := List.mem_singleton.mp inside
  obtain rfl := List.mem_singleton.mp listed
  refine ⟨fun name read object here => ?_, fun object here => ?_⟩
  · obtain rfl := List.mem_singleton.mp read
    rw [found "b" object here (Or.inr rfl)]
    exact readable "b"
  · rw [found "a" object here (Or.inl rfl)]
    exact ⟨(readable "a").fits, rfl⟩

/-- All ranges have a width, and the widths of the target and the value differ without a diagnostic. -/
theorem parametricMove_diverges :
    (∀ object ∈ moveObjects parametricBounds.1 parametricBounds.2, (object.shape (entityInfo moveEntity).env).isSome) ∧
      ∃ report, analyze parametricMove = some report ∧ report.Quiet ∧ ¬ FileSound parametricMove report := by
  have quiet : (analyze parametricMove).map (fun report => report.diagnostics.isEmpty) = some true := by
    decide +kernel
  obtain ⟨report, analyzed, empty⟩ := Option.map_eq_some_iff.mp quiet
  refine ⟨by decide +kernel, report, analyzed, List.isEmpty_iff.mp empty, fun sound => ?_⟩
  have target : declared (entityInfo moveEntity).env (moveObjects parametricBounds.1 parametricBounds.2) "a" =
      some ⟨.Unsigned, some 8⟩ := by decide +kernel
  have value : declared (entityInfo moveEntity).env (moveObjects parametricBounds.1 parametricBounds.2) "b" =
      some ⟨.Unsigned, some 16⟩ := by decide +kernel
  obtain ⟨info, entity, body⟩ := sound 0 _ rfl
  obtain rfl := Option.some.inj entity
  obtain ⟨shape, annotation, targetShape, -, ruled, agrees, -⟩ := (body.processes 0 _ rfl).clocked 0 _ rfl
  obtain rfl := Option.some.inj (targetShape.symm.trans target)
  cases ruled with
  | name text canonical span l r c elements type found =>
      have same : type.shape = ⟨.Unsigned, some 16⟩ := Option.some.inj (found.symm.trans value)
      change Shape.agrees ⟨.Unsigned, some 8⟩ type.shape at agrees
      rw [same] at agrees
      exact absurd agrees (by decide)

end Naja.Vhdl.Analyzer

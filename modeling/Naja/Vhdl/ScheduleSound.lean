import Naja.Vhdl.Schedule
import Naja.Worklist.Rounds

/-! A schedule without diagnostics does in one simultaneous update what the body
of the process does in VHDL order, over any number of activations. -/

namespace Naja.Vhdl

section
variable {Value : Type}

@[simp] theorem set_self (store : String → Value) (name : String) (value : Value) :
    set store name value name = value := by
  simp [set]

theorem set_of_ne (store : String → Value) (name other : String) (value : Value) (distinct : other ≠ name) :
    set store name value other = store other := by
  simp [set, distinct]

/-- Writes that read the same values give the same state. -/
theorem foldl_write_congr (r r' : List String) (σ : State Value) (ws : List ScheduledWrite)
    (same : ∀ w ∈ ws, read r σ w.source = read r' σ w.source) (next : State Value) :
    ws.foldl (write r σ) next = ws.foldl (write r' σ) next := by
  induction ws generalizing next with
  | nil => rfl
  | cons w rest ih =>
      have head : write r σ next w = write r' σ next w := by
        unfold write
        rw [same w List.mem_cons_self]
      rw [List.foldl_cons, List.foldl_cons, head]
      exact ih (fun w member => same w (List.mem_cons_of_mem _ member)) _

theorem foldl_write_signals (r : List String) (σ : State Value) (ws : List ScheduledWrite)
    (kinds : ∀ w ∈ ws, w.kind = .Variable) (next : State Value) :
    (ws.foldl (write r σ) next).signals = next.signals := by
  induction ws generalizing next with
  | nil => rfl
  | cons w rest ih =>
      rw [List.foldl_cons, ih (fun w member => kinds w (List.mem_cons_of_mem _ member))]
      simp [write, kinds w List.mem_cons_self]

/-- A variable takes the value of its writes when they agree on it. -/
theorem foldl_write_variables (r : List String) (σ : State Value) (ws : List ScheduledWrite) (v : String)
    (value : Value) (agree : ∀ w ∈ ws, w.kind = .Variable → w.target = v → read r σ w.source = value)
    (next : State Value)
    (written : next.locals v = value ∨ ∃ w ∈ ws, w.kind = .Variable ∧ w.target = v) :
    (ws.foldl (write r σ) next).locals v = value := by
  induction ws generalizing next with
  | nil =>
      rcases written with done | ⟨w, member, -⟩
      · exact done
      · contradiction
  | cons w rest ih =>
      refine ih (fun w member => agree w (List.mem_cons_of_mem _ member)) _ ?_
      by_cases hit : w.kind = .Variable ∧ w.target = v
      · left
        rw [← agree w List.mem_cons_self hit.1 hit.2]
        simp [write, hit.1, hit.2]
      · have kept : (write r σ next w).locals v = next.locals v := by
          cases kind : w.kind with
          | Signal => simp [write, kind]
          | Variable =>
              have distinct : v ≠ w.target := fun same => hit ⟨kind, same.symm⟩
              simp [write, kind, set_of_ne _ _ _ _ distinct]
        rcases written with done | ⟨w', member, found⟩
        · left
          rw [kept, done]
        · right
          rcases List.mem_cons.mp member with rfl | later
          · exact absurd found hit
          · exact ⟨w', later, found⟩

/-- What the scheduler knows after some assignments, against the activation they led to. -/
structure Follows (declared : List String) (σ : State Value) (s : Scheduler) (e : Activation Value) : Prop where
  stored : ∀ x, declared.contains x → e.locals x =
    match s.values.lookup x with
    | none => σ.locals x
    | some source => read declared σ source
  values : ∀ x source, s.values.lookup x = some source → declared.contains source → source ∈ s.retained
  retained : ∀ x ∈ s.retained, declared.contains x
  writes : ∀ w ∈ s.result.writes, w.kind = .Signal ∧ (declared.contains w.source → w.source ∈ s.retained)
  pending : ∀ name, (s.result.writes.foldl (write declared σ) σ).signals name =
    (e.pending name).getD (σ.signals name)
  fresh : s.result.retainedVariables = []

theorem Follows.initial (declared : List String) (σ : State Value) :
    Follows declared σ ⟨[], [], ⟨[], [], []⟩⟩ ⟨σ.locals, fun _ => none⟩ where
  stored _ _ := rfl
  values _ _ found := nomatch found
  retained _ member := nomatch member
  writes _ member := nomatch member
  pending _ := rfl
  fresh := rfl

/-- A resolved source, read before the activation, is the value that the body reads. -/
theorem Follows.resolve (declared : List String) (σ : State Value) (s : Scheduler) (e : Activation Value)
    (follows : Follows declared σ s e) (name : String) :
    read declared σ (s.resolve declared name).1 = read declared ⟨σ.signals, e.locals⟩ name ∧
      (declared.contains (s.resolve declared name).1 →
        (s.resolve declared name).1 ∈ (s.resolve declared name).2) ∧
      (∀ x ∈ s.retained, x ∈ (s.resolve declared name).2) ∧
      (∀ x ∈ (s.resolve declared name).2, declared.contains x) := by
  unfold Scheduler.resolve
  by_cases isVariable : declared.contains name
  · have stored := follows.stored name isVariable
    rw [if_pos isVariable]
    cases found : s.values.lookup name with
    | none =>
        rw [found] at stored
        refine ⟨?_, fun _ => List.mem_cons_self, fun x member => List.mem_cons_of_mem _ member, ?_⟩
        · simp only [read, if_pos isVariable]
          exact stored.symm
        · intro x member
          rcases List.mem_cons.mp member with rfl | old
          · exact isVariable
          · exact follows.retained x old
    | some source =>
        rw [found] at stored
        refine ⟨?_, follows.values name source found, fun _ member => member, follows.retained⟩
        conv_rhs => rw [read, if_pos isVariable]
        exact stored.symm
  · rw [if_neg isVariable]
    refine ⟨?_, fun declared => absurd declared isVariable, fun _ member => member, follows.retained⟩
    simp only [read, if_neg isVariable]

/-- What a round of the loop does when it reports nothing. -/
theorem assign_cases (declared : List String) (s s' : Scheduler) (a : Assignment)
    (taken : s.assign declared a = .ok s') (clean : s'.result.diagnostics = []) :
    s.result.diagnostics = [] ∧
      s' = match a.kind with
        | .Variable => ⟨(key a.target, (s.resolve declared a.value.name).1) :: s.values,
            (s.resolve declared a.value.name).2, s.result⟩
        | .Signal => ⟨s.values, (s.resolve declared a.value.name).2,
            { s.result with writes := s.result.writes ++
              [⟨key a.target, (s.resolve declared a.value.name).1, a.span, .Signal⟩] }⟩ := by
  unfold Scheduler.assign at taken
  split at taken
  · contradiction
  · split at taken
    · obtain rfl := Except.ok.inj taken
      simp [Scheduler.diagnose] at clean
    · cases kind : a.kind with
      | Variable =>
          rw [kind] at taken
          obtain rfl := Except.ok.inj taken
          exact ⟨clean, rfl⟩
      | Signal =>
          rw [kind] at taken
          obtain rfl := Except.ok.inj taken
          exact ⟨clean, rfl⟩

theorem Follows.assign (declared : List String) (σ : State Value) (s s' : Scheduler) (e : Activation Value)
    (follows : Follows declared σ s e) (a : Assignment) (taken : s.assign declared a = .ok s')
    (clean : s'.result.diagnostics = []) : Follows declared σ s' (e.execute declared σ.signals a) := by
  obtain ⟨-, same⟩ := assign_cases declared s s' a taken clean
  obtain ⟨value, kept, grows, inside⟩ := follows.resolve declared σ s e a.value.name
  cases kind : a.kind with
  | Variable =>
      rw [kind] at same
      subst same
      simp only [Activation.execute, kind]
      refine ⟨?_, ?_, inside, ?_, follows.pending, follows.fresh⟩
      · intro x isVariable
        rw [List.lookup_cons]
        by_cases hit : x = key a.target
        · rw [hit, beq_self_eq_true]
          exact (set_self _ _ _).trans value.symm
        · rw [beq_false_of_ne hit]
          exact (set_of_ne _ _ _ _ hit).trans (follows.stored x isVariable)
      · intro x source found
        rw [List.lookup_cons] at found
        split at found
        · obtain rfl := Option.some.inj found
          exact kept
        · exact fun isVariable => grows source (follows.values x source found isVariable)
      · intro w member
        obtain ⟨signal, known⟩ := follows.writes w member
        exact ⟨signal, fun isVariable => grows w.source (known isVariable)⟩
  | Signal =>
      rw [kind] at same
      subst same
      simp only [Activation.execute, kind]
      refine ⟨follows.stored, ?_, inside, ?_, ?_, follows.fresh⟩
      · intro x source found isVariable
        exact grows source (follows.values x source found isVariable)
      · intro w member
        rcases List.mem_append.mp member with old | new
        · obtain ⟨signal, known⟩ := follows.writes w old
          exact ⟨signal, fun isVariable => grows w.source (known isVariable)⟩
        · obtain rfl := List.mem_singleton.mp new
          exact ⟨rfl, kept⟩
      · intro name
        rw [List.foldl_append, List.foldl_cons, List.foldl_nil]
        simp only [write, value]
        by_cases hit : name = key a.target
        · rw [hit, set_self, set_self, Option.getD_some]
        · rw [set_of_ne _ _ _ _ hit, set_of_ne _ _ _ _ hit]
          exact follows.pending name

/-- A diagnostic never goes away, so the first rounds of a clean loop reported nothing either. -/
theorem clean_before (declared : List String) (body : List Assignment) (s s' : Scheduler)
    (taken : body.foldlM (Scheduler.assign declared) s = .ok s') (clean : s'.result.diagnostics = []) :
    s.result.diagnostics = [] := by
  induction body generalizing s with
  | nil =>
      obtain rfl := Except.ok.inj taken
      exact clean
  | cons a rest ih =>
      obtain ⟨next, first, later⟩ := (Worklist.foldlM_cons_ok _ a rest s s').mp taken
      exact (assign_cases declared s next a first (ih next later)).1

/-- The loop over the assignments follows the body. -/
theorem Follows.assignments (declared : List String) (σ : State Value) (body : List Assignment)
    (s s' : Scheduler) (e : Activation Value) (follows : Follows declared σ s e)
    (taken : body.foldlM (Scheduler.assign declared) s = .ok s') (clean : s'.result.diagnostics = []) :
    Follows declared σ s' (body.foldl (Activation.execute declared σ.signals) e) := by
  induction body generalizing s e with
  | nil =>
      obtain rfl := Except.ok.inj taken
      exact follows
  | cons a rest ih =>
      obtain ⟨next, first, later⟩ := (Worklist.foldlM_cons_ok _ a rest s s').mp taken
      have quiet := clean_before declared rest next s' later clean
      exact ih next _ (follows.assign declared σ s next e a first quiet) later

/-- What one declared name adds when nothing is reported of it. -/
theorem retain_cases (s : Scheduler) (name : Name) (clean : (s.retain name).result.diagnostics = []) :
    s.result.diagnostics = [] ∧
      ((¬ s.retained.contains (key name) ∧ s.retain name = s) ∨
        s.retained.contains (key name) ∧ ∃ value, s.values.lookup (key name) = some value ∧
          ¬ s.retained.contains value ∧
          s.retain name = ⟨s.values, s.retained, ⟨s.result.writes ++ [⟨key name, value, name.span, .Variable⟩],
            s.result.retainedVariables ++ [key name], s.result.diagnostics⟩⟩) := by
  unfold Scheduler.retain at clean ⊢
  by_cases isRetained : s.retained.contains (key name)
  · rw [if_neg (not_not_intro isRetained)] at clean ⊢
    cases found : s.values.lookup (key name) with
    | none =>
        simp only [found] at clean
        simp [Scheduler.diagnose] at clean
    | some value =>
        simp only [found] at clean ⊢
        by_cases state : s.retained.contains value
        · rw [if_pos state] at clean
          simp [Scheduler.diagnose] at clean
        · rw [if_neg state] at clean ⊢
          exact ⟨clean, Or.inr ⟨isRetained, value, rfl, state, rfl⟩⟩
  · rw [if_pos isRetained] at clean ⊢
    exact ⟨clean, Or.inl ⟨isRetained, rfl⟩⟩

/-- What the loop over the declared names adds when it reports nothing. -/
theorem foldl_retain (names : List Name) (s : Scheduler)
    (clean : (names.foldl Scheduler.retain s).result.diagnostics = []) :
    s.result.diagnostics = [] ∧
      (names.foldl Scheduler.retain s).result.retainedVariables =
        s.result.retainedVariables ++ (names.map key).filter s.retained.contains ∧
      ∃ added, (names.foldl Scheduler.retain s).result.writes = s.result.writes ++ added ∧
        (∀ w ∈ added, w.kind = .Variable ∧ s.values.lookup w.target = some w.source ∧
          ¬ s.retained.contains w.source) ∧
        ∀ v ∈ (names.map key).filter s.retained.contains, ∃ w ∈ added, w.target = v := by
  induction names generalizing s with
  | nil => exact ⟨clean, by simp, [], by simp, by simp, by simp⟩
  | cons name rest ih =>
      rw [List.foldl_cons] at clean ⊢
      obtain ⟨before, kept, added, writes, each, all⟩ := ih (s.retain name) clean
      obtain ⟨quiet, ⟨fresh, same⟩ | ⟨isRetained, value, found, free, same⟩⟩ := retain_cases s name before
      · rw [same] at kept writes each all ⊢
        rw [List.map_cons, List.filter_cons_of_neg fresh]
        exact ⟨quiet, kept, added, writes, each, all⟩
      · rw [same] at kept writes each all ⊢
        rw [List.map_cons, List.filter_cons_of_pos isRetained]
        refine ⟨quiet, ?_, ⟨key name, value, name.span, .Variable⟩ :: added, ?_, ?_, ?_⟩
        · rw [kept, List.append_assoc, List.singleton_append]
        · rw [writes, List.append_assoc, List.singleton_append]
        · intro w member
          rcases List.mem_cons.mp member with rfl | later
          · exact ⟨rfl, found, free⟩
          · exact each w later
        · intro v member
          rcases List.mem_cons.mp member with rfl | later
          · exact ⟨_, List.mem_cons_self, rfl⟩
          · obtain ⟨w, inAdded, target⟩ := all v later
            exact ⟨w, List.mem_cons_of_mem _ inAdded, target⟩

/-- What a schedule without diagnostics consists of. -/
theorem schedule_cases (process : ClockedProcess) (clean : (schedule process).diagnostics = []) :
    ∃ s, process.assignments.foldlM (Scheduler.assign process.variableKeys) ⟨[], [], ⟨[], [], []⟩⟩ = .ok s ∧
      (process.names.foldl Scheduler.retain s).result.diagnostics = [] ∧
      schedule process = (process.names.foldl Scheduler.retain s).result := by
  have early (body : List Assignment) (s : Scheduler) (result : ScheduleResult)
      (left : body.foldlM (Scheduler.assign process.variableKeys) s = .error result) :
      result.diagnostics ≠ [] := by
    induction body generalizing s with
    | nil => contradiction
    | cons a rest ih =>
        rw [List.foldlM_cons] at left
        cases first : s.assign process.variableKeys a with
        | ok next => rw [first] at left; exact ih next left
        | error result' =>
            rw [first] at left
            obtain rfl := Except.error.inj left
            unfold Scheduler.assign at first
            split at first
            · obtain rfl := Except.error.inj first
              simp [Scheduler.diagnose]
            · split at first
              · contradiction
              · simp only at first
                split at first <;> contradiction
  unfold schedule at clean ⊢
  split at clean
  · simp at clean
  · next straight =>
      rw [if_neg straight]
      split at clean
      · next result left => exact absurd clean (early _ _ result left)
      · next s taken =>
          simp only at clean
          split at clean
          · next empty =>
              exact ⟨s, taken, clean, if_pos empty⟩
          · next errors => exact absurd (List.isEmpty_iff.mpr clean) errors

/-- The states give the same signals and the same retained variables. -/
structure Agree (retained : List String) (σ τ : State Value) : Prop where
  signals : σ.signals = τ.signals
  locals : ∀ v ∈ retained, σ.locals v = τ.locals v

theorem Agree.trans (retained : List String) (σ τ υ : State Value) (left : Agree retained σ τ)
    (right : Agree retained τ υ) : Agree retained σ υ :=
  ⟨left.signals.trans right.signals, fun v member => (left.locals v member).trans (right.locals v member)⟩

theorem Agree.read (retained : List String) (σ τ : State Value) (agree : Agree retained σ τ) (name : String) :
    read retained σ name = read retained τ name := by
  unfold Vhdl.read
  split
  · next member => exact agree.locals name (by simpa using member)
  · rw [agree.signals]

theorem Agree.write (retained : List String) (σ τ : State Value) (agree : Agree retained σ τ)
    (ws : List ScheduledWrite) (next next' : State Value) (start : Agree retained next next') :
    Agree retained (ws.foldl (write retained σ) next) (ws.foldl (Vhdl.write retained τ) next') := by
  induction ws generalizing next next' with
  | nil => exact start
  | cons w rest ih =>
      refine ih _ _ ?_
      have value := agree.read retained σ τ w.source
      unfold Vhdl.write
      rw [value]
      cases w.kind with
      | Signal =>
          refine ⟨?_, start.locals⟩
          simp only [start.signals]
      | Variable =>
          refine ⟨start.signals, ?_⟩
          intro v member
          by_cases hit : v = w.target
          · simp [hit]
          · simp [set_of_ne _ _ _ _ hit, start.locals v member]

/-- The sources of a clean schedule are signals or retained variables. -/
theorem read_retained (declared retained : List String) (σ : State Value) (name : String)
    (known : declared.contains name → name ∈ retained) (inside : ∀ v ∈ retained, declared.contains v) :
    read retained σ name = read declared σ name := by
  unfold read
  by_cases isVariable : declared.contains name
  · rw [if_pos isVariable, if_pos (by simpa using known isVariable)]
  · have absent : ¬ retained.contains name := by
      intro member
      exact isVariable (inside name (by simpa using member))
    rw [if_neg isVariable, if_neg absent]

/-- One activation: the schedule does what the body does. -/
theorem activate_agree (process : ClockedProcess) (clean : (schedule process).diagnostics = [])
    (σ : State Value) :
    Agree (schedule process).retainedVariables (activate process σ) ((schedule process).activate σ) := by
  obtain ⟨s, taken, quiet, same⟩ := schedule_cases process clean
  obtain ⟨silent, kept, added, writes, each, all⟩ := foldl_retain process.names s quiet
  have follows := (Follows.initial process.variableKeys σ).assignments process.variableKeys σ
    process.assignments _ s _ taken silent
  rw [follows.fresh, List.nil_append] at kept
  have inside : ∀ v ∈ (schedule process).retainedVariables, process.variableKeys.contains v := by
    intro v member
    rw [same, kept] at member
    simpa [ClockedProcess.variableKeys] using (List.mem_filter.mp member).1
  have known (name : String) (isVariable : process.variableKeys.contains name → name ∈ s.retained)
      (declared : process.variableKeys.contains name) : name ∈ (schedule process).retainedVariables := by
    rw [same, kept, List.mem_filter]
    exact ⟨by simpa [ClockedProcess.variableKeys] using declared, by simpa using isVariable declared⟩
  have sources : ∀ w ∈ (schedule process).writes,
      read (schedule process).retainedVariables σ w.source = read process.variableKeys σ w.source := by
    intro w member
    refine read_retained _ _ σ w.source ?_ inside
    rw [same, writes] at member
    rcases List.mem_append.mp member with signal | stored
    · exact known w.source (follows.writes w signal).2
    · obtain ⟨-, found, -⟩ := each w stored
      exact known w.source (follows.values w.target w.source found)
  unfold ScheduleResult.activate
  rw [foldl_write_congr _ process.variableKeys σ _ sources σ]
  refine ⟨?_, ?_⟩
  · -- the variable writes at the end leave the signals alone
    rw [same, writes, List.foldl_append,
      foldl_write_signals _ σ added (fun w member => (each w member).1)]
    funext name
    exact (follows.pending name).symm
  · intro v member
    have declared := inside v member
    rw [same, kept] at member
    obtain ⟨w, stored, rfl⟩ := all v member
    obtain ⟨kind, found, -⟩ := each w stored
    have final := follows.stored w.target declared
    rw [found] at final
    rw [same, writes]
    refine (final.trans (Eq.symm ?_))
    refine foldl_write_variables _ σ _ w.target _ ?_ σ (Or.inr ⟨w, List.mem_append_right _ stored, kind, rfl⟩)
    intro other member' kind' target
    rcases List.mem_append.mp member' with signal | stored'
    · exact absurd (kind'.symm.trans (follows.writes other signal).1) (by decide)
    · obtain ⟨-, found', -⟩ := each other stored'
      rw [target, found] at found'
      rw [Option.some.inj found']

/-- Steps that keep two states in agreement do so over any number of activations. -/
theorem run_agree (retained : List String) (step step' : State Value → State Value)
    (each : ∀ σ τ, Agree retained σ τ → Agree retained (step σ) (step' τ))
    (stimuli : List ((String → Value) → String → Value)) (σ τ : State Value) (start : Agree retained σ τ) :
    Agree retained (run step σ stimuli) (run step' τ stimuli) := by
  induction stimuli generalizing σ τ with
  | nil => exact start
  | cons stimulus rest ih =>
      refine ih _ _ (each _ _ ⟨?_, start.locals⟩)
      rw [start.signals]

theorem activate_write_agree (process : ClockedProcess) (clean : (schedule process).diagnostics = [])
    (σ τ : State Value) (agree : Agree (schedule process).retainedVariables σ τ) :
    Agree (schedule process).retainedVariables (activate process σ) ((schedule process).activate τ) :=
  (activate_agree process clean σ).trans _ _ _ _ (agree.write _ _ _ _ _ _ agree)

end

/-- Some run shows a difference of the initial value of the variable in a signal. -/
def Observable (Value : Type) (process : ClockedProcess) (v : String) : Prop :=
  ∃ (σ τ : State Value) (stimuli : List ((String → Value) → String → Value)), σ.signals = τ.signals ∧
    (∀ other, other ≠ v → σ.locals other = τ.locals other) ∧
    (run (activate process) σ stimuli).signals ≠ (run (activate process) τ stimuli).signals

/-- The body reads the variable before any assignment to it. -/
def ReadBeforeWrite (process : ClockedProcess) (v : String) : Prop :=
  process.variableKeys.contains v ∧ ∃ before a after, process.assignments = before ++ a :: after ∧
    a.value.name = v ∧ ∀ b ∈ before, b.kind = .Variable → key b.target ≠ v

/-- A round of the loop only adds to the retained variables, and values only to its own target. -/
theorem assign_grows (declared : List String) (s s' : Scheduler) (a : Assignment)
    (taken : s.assign declared a = .ok s') :
    (∀ x ∈ s.retained, x ∈ s'.retained) ∧
      ∀ v, (a.kind = .Variable → key a.target ≠ v) → s.values.lookup v = none → s'.values.lookup v = none := by
  have grows : ∀ x ∈ s.retained, x ∈ (s.resolve declared a.value.name).2 := by
    intro x member
    unfold Scheduler.resolve
    split
    · split
      · exact List.mem_cons_of_mem _ member
      · exact member
    · exact member
  unfold Scheduler.assign at taken
  split at taken
  · contradiction
  · split at taken
    · obtain rfl := Except.ok.inj taken
      exact ⟨fun _ member => member, fun _ _ unknown => unknown⟩
    · cases kind : a.kind with
      | Variable =>
          rw [kind] at taken
          obtain rfl := Except.ok.inj taken
          refine ⟨grows, ?_⟩
          intro v other unknown
          rw [List.lookup_cons, beq_false_of_ne (Ne.symm (other rfl))]
          exact unknown
      | Signal =>
          rw [kind] at taken
          obtain rfl := Except.ok.inj taken
          exact ⟨grows, fun _ _ unknown => unknown⟩

/-- A variable that the body reads before it assigns it is retained. -/
theorem retained_of_readBeforeWrite (process : ClockedProcess) (clean : (schedule process).diagnostics = [])
    (v : String) (reads : ReadBeforeWrite process v) : v ∈ (schedule process).retainedVariables := by
  obtain ⟨s, taken, quiet, same⟩ := schedule_cases process clean
  obtain ⟨silent, kept, -⟩ := foldl_retain process.names s quiet
  obtain ⟨declared, before, a, after, body, name, unassigned⟩ := reads
  have stored : v ∈ s.retained := by
    rw [body, List.foldlM_append] at taken
    cases front : before.foldlM (Scheduler.assign process.variableKeys) ⟨[], [], ⟨[], [], []⟩⟩ with
    | error result => rw [front] at taken; contradiction
    | ok first =>
        rw [front] at taken
        obtain ⟨second, here, later⟩ := (Worklist.foldlM_cons_ok _ a after first s).mp taken
        have unknown : first.values.lookup v = none :=
          Worklist.foldlM_keeps _ (fun s => s.values.lookup v = none) before
            (fun b member s s' held step => (assign_grows _ s s' b step).2 v (unassigned b member) held)
            _ first rfl front
        have entered : v ∈ second.retained := by
          have silent' := clean_before process.variableKeys after second s later silent
          have resolved : (first.resolve process.variableKeys a.value.name).2 = v :: first.retained := by
            rw [name, Scheduler.resolve, if_pos declared, unknown]
          obtain ⟨-, same'⟩ := assign_cases process.variableKeys first second a here silent'
          rw [same']
          cases a.kind with
          | Variable => simp [resolved]
          | Signal => simp [resolved]
        exact Worklist.foldlM_keeps _ (fun s => v ∈ s.retained) after
          (fun b _ s s' held step => (assign_grows _ s s' b step).1 v held) second s entered later
  rw [same, kept]
  refine List.mem_append_right _ (List.mem_filter.mpr ⟨?_, by simpa using stored⟩)
  simpa [ClockedProcess.variableKeys] using declared

/-- A schedule without diagnostics refines the body of the process. In one activation and over any
run it gives the same signals and retained variables, and no other variable matters. -/
theorem schedule_refines_process (process : ClockedProcess) (clean : (schedule process).diagnostics = []) :
    (∀ (Value : Type) (σ : State Value),
      ((schedule process).activate σ).signals = (activate process σ).signals ∧
      ∀ v ∈ (schedule process).retainedVariables,
        ((schedule process).activate σ).locals v = (activate process σ).locals v) ∧
    (∀ (Value : Type) (σ : State Value) (stimuli : List ((String → Value) → String → Value)),
      (run (schedule process).activate σ stimuli).signals = (run (activate process) σ stimuli).signals) ∧
    (∀ (Value : Type) (v : String), Observable Value process v → v ∈ (schedule process).retainedVariables) ∧
    ∀ v, ReadBeforeWrite process v → v ∈ (schedule process).retainedVariables := by
  have same (Value : Type) (σ : State Value) : Agree (schedule process).retainedVariables σ σ :=
    ⟨rfl, fun _ _ => rfl⟩
  refine ⟨?_, ?_, ?_, retained_of_readBeforeWrite process clean⟩
  · intro Value σ
    have agree := activate_agree process clean σ
    exact ⟨agree.signals.symm, fun v member => (agree.locals v member).symm⟩
  · intro Value σ stimuli
    exact (run_agree _ _ _ (activate_write_agree process clean) stimuli σ σ (same Value σ)).signals.symm
  · intro Value v observable
    obtain ⟨σ, τ, stimuli, signals, others, differ⟩ := observable
    by_contra absent
    have start : Agree (schedule process).retainedVariables σ τ := by
      refine ⟨signals, ?_⟩
      intro other member
      exact others other (fun hit => absent (hit ▸ member))
    -- both bodies are followed by the one schedule
    have left := run_agree _ _ _ (activate_write_agree process clean) stimuli σ τ start
    have right := run_agree _ _ _ (activate_write_agree process clean) stimuli τ τ (same Value τ)
    exact differ (left.signals.trans right.signals.symm)

/-- `q <= v; v := d`, the register behind a variable. -/
def delayedProcess : ClockedProcess :=
  let at0 : SourceSpan := ⟨⟨0, 1, 1⟩, ⟨0, 1, 1⟩⟩
  let identifier (text : String) : Name := ⟨text, text, at0⟩
  let value (text : String) : Expression := .mk .Name text text at0 none none none []
  { declarations := [[identifier "v"]]
    assignments := [⟨identifier "q", value "v", at0, .Signal, []⟩, ⟨identifier "v", value "d", at0, .Variable, []⟩]
    sensitivityList := []
    combinational := false
    span := at0 }

def delayedStart : State Bool := ⟨fun name => name == "d", fun _ => true⟩

theorem delayedProcess_refined :
    (schedule delayedProcess).diagnostics = [] ∧ (schedule delayedProcess).retainedVariables = ["v"] ∧
      ((schedule delayedProcess).activate delayedStart).signals "q" = true ∧
      ((schedule delayedProcess).activate delayedStart).signals =
        (activate delayedProcess delayedStart).signals :=
  ⟨by decide, by decide, by decide,
    ((schedule_refines_process delayedProcess (by decide)).1 Bool delayedStart).1⟩

end Naja.Vhdl

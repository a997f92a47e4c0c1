import Naja.Dnl.Process
import Mathlib.Algebra.BigOperators.Group.List.Basic
import Mathlib.Algebra.Order.BigOperators.Group.List
import Mathlib.Algebra.Order.Group.Nat
import Mathlib.Data.List.Induction

/-! Every design below the top gets order IDs that are the places of its instances and
the places of its terminals in one of its terminal lists. -/

namespace Naja.Dnl

namespace Hierarchy
variable (hierarchy : Hierarchy)

theorem design_of_length_le (number : Nat) (above : hierarchy.netlist.length ≤ number) :
    hierarchy.design number = ⟨0, []⟩ := by
  unfold design Netlist.design
  rw [List.getD_eq_getElem?_getD, List.getElem?_eq_none above]
  rfl

theorem rank_lt (number : Nat) (inst : Instance) (member : inst ∈ (hierarchy.design number).instances) :
    hierarchy.rank inst.model < hierarchy.rank number := by
  by_cases inside : number < hierarchy.netlist.length
  · exact hierarchy.descends number inside inst member
  · rw [hierarchy.design_of_length_le number (by omega)] at member
    contradiction

theorem instTerms_perm (number : Nat) (inst : Instance) (member : inst ∈ (hierarchy.design number).instances) :
    inst.instTerms.Perm (List.range (hierarchy.design inst.model).bitTerms) := by
  by_cases inside : number < hierarchy.netlist.length
  · exact hierarchy.complete number inside inst member
  · rw [hierarchy.design_of_length_le number (by omega)] at member
    contradiction

/-- The model of the instance at a position. -/
def child (number position : Nat) : Option Nat := (hierarchy.design number).instances[position]?.map (·.model)

theorem child_eq_some (number position model : Nat) : hierarchy.child number position = some model ↔
    ∃ inst, (hierarchy.design number).instances[position]? = some inst ∧ inst.model = model :=
  Option.map_eq_some_iff

/-- The designs of the instance tree. -/
def Reached (number : Nat) : Prop := ∃ path, Unfolding.walk hierarchy.child hierarchy.top path = some number

theorem reached_induction (P : Nat → Prop) (top : P hierarchy.top)
    (below : ∀ number, P number → ∀ inst ∈ (hierarchy.design number).instances, P inst.model) (number : Nat)
    (reached : hierarchy.Reached number) : P number := by
  obtain ⟨path, leads⟩ := reached
  induction path using List.reverseRecOn generalizing number with
  | nil => exact Option.some.inj leads ▸ top
  | append_singleton path position ih =>
      rw [Unfolding.walk_concat] at leads
      obtain ⟨above, first, last⟩ := Option.bind_eq_some_iff.mp leads
      obtain ⟨inst, found, rfl⟩ := (hierarchy.child_eq_some above position number).mp last
      exact below above (ih above first) inst (List.mem_of_getElem? found)

end Hierarchy

section Weight
variable (hierarchy : Hierarchy)

theorem weight_mono (depth depth' design : Nat) (le : depth ≤ depth') :
    weight hierarchy depth design ≤ weight hierarchy depth' design := by
  induction depth generalizing depth' design with
  | zero =>
      cases depth' with
      | zero => exact Nat.le_refl _
      | succ depth' =>
          show 1 ≤ 1 + _
          omega
  | succ depth ih =>
      cases depth' with
      | zero => omega
      | succ depth' =>
          unfold weight
          apply Nat.add_le_add_left
          exact List.sum_le_sum fun inst _ => ih depth' inst.model (by omega)

/-- The weight of designs that are still to be processed. -/
def weights (designs : List Nat) : Nat := (designs.map (fun design => weight hierarchy (hierarchy.rank design) design)).sum

theorem weights_append (front back : List Nat) :
    weights hierarchy (front ++ back) = weights hierarchy front + weights hierarchy back := by
  unfold weights
  rw [List.map_append, List.sum_append]

theorem weights_reverse (designs : List Nat) : weights hierarchy designs.reverse = weights hierarchy designs := by
  unfold weights
  rw [List.map_reverse, List.sum_reverse]

/-- A design outweighs its instances. -/
theorem weights_models (design : Nat) :
    weights hierarchy ((hierarchy.design design).instances.map (·.model)) < weights hierarchy [design] := by
  have below := hierarchy.rank_lt design
  show _ < weight hierarchy (hierarchy.rank design) design + 0
  cases same : hierarchy.rank design with
  | zero =>
      cases instances : (hierarchy.design design).instances with
      | nil => exact Nat.one_pos
      | cons inst rest =>
          have less := below inst (by rw [instances]; exact List.mem_cons_self)
          omega
  | succ depth =>
      have each : weights hierarchy ((hierarchy.design design).instances.map (·.model)) ≤
          ((hierarchy.design design).instances.map (fun inst => weight hierarchy depth inst.model)).sum := by
        unfold weights
        rw [List.map_map]
        apply List.sum_le_sum
        intro inst member
        have less := below inst member
        rw [same] at less
        exact weight_mono hierarchy _ depth inst.model (Nat.le_of_lt_succ less)
      unfold weight
      omega

end Weight

namespace Orders

@[simp] theorem setInstance_ofBitTerm (orders : Orders) (object : Object) (id : Nat) :
    (orders.setInstance object id).ofBitTerm = orders.ofBitTerm := rfl

@[simp] theorem setBitTerm_ofInstance (orders : Orders) (design bitTerm id : Nat) :
    (orders.setBitTerm design bitTerm id).ofInstance = orders.ofInstance := rfl

theorem setBitTerms_ofInstance (orders : Orders) (design : Nat) (terms : List Nat) :
    (orders.setBitTerms design terms).ofInstance = orders.ofInstance := by
  unfold setBitTerms
  generalize terms.zipIdx = entries
  induction entries generalizing orders with
  | nil => rfl
  | cons entry rest ih =>
      rw [List.foldl_cons, ih]
      rfl

theorem foldl_setBitTerm_other (orders : Orders) (design : Nat) (entries : List (Nat × Nat)) (number bitTerm : Nat)
    (other : number ≠ design ∨ bitTerm ∉ entries.map Prod.fst) :
    (entries.foldl (fun orders entry => orders.setBitTerm design entry.1 entry.2) orders).ofBitTerm number bitTerm =
      orders.ofBitTerm number bitTerm := by
  induction entries generalizing orders with
  | nil => rfl
  | cons entry rest ih =>
      rw [List.map_cons, List.mem_cons, not_or] at other
      rw [List.foldl_cons, ih _ (other.imp_right And.right)]
      show Function.update orders.ofBitTerm design _ number bitTerm = _
      by_cases same : number = design
      · subst same
        have apart := (other.resolve_left (fun ne => ne rfl)).1
        rw [Function.update_self, Function.update_of_ne apart]
      · rw [Function.update_of_ne same]

/-- Without a repetition every terminal gets its place. -/
theorem setBitTerms_ofBitTerm (orders : Orders) (design : Nat) (terms : List Nat) (nodup : terms.Nodup)
    (place bitTerm : Nat) (found : terms[place]? = some bitTerm) :
    (orders.setBitTerms design terms).ofBitTerm design bitTerm = place := by
  obtain ⟨front, back, rfl, rfl⟩ : ∃ front back, terms = front ++ bitTerm :: back ∧ front.length = place := by
    obtain ⟨bound, same⟩ := List.getElem?_eq_some_iff.mp found
    refine ⟨terms.take place, terms.drop (place + 1), ?_, ?_⟩
    · rw [← same, ← List.drop_eq_getElem_cons bound, List.take_append_drop]
    · rw [List.length_take]
      omega
  unfold setBitTerms
  rw [List.zipIdx_append, List.foldl_append, List.zipIdx_cons, List.foldl_cons, foldl_setBitTerm_other]
  · unfold setBitTerm
    dsimp only
    rw [Function.update_self, Function.update_self, Nat.zero_add]
  · right
    rw [List.zipIdx_map_fst]
    exact (List.nodup_cons.mp (List.nodup_append.mp nodup).2.1).1

end Orders

/-- The order IDs of the terminals of a design are their places in some list of all of them. -/
def TermsOrdered (hierarchy : Hierarchy) (orders : Orders) (design : Nat) : Prop :=
  ∃ terms : List Nat, terms.Perm (List.range (hierarchy.design design).bitTerms) ∧
    ∀ place bitTerm, terms[place]? = some bitTerm → orders.ofBitTerm design bitTerm = place

def InstancesOrdered (hierarchy : Hierarchy) (orders : Orders) (design : Nat) : Prop :=
  ∀ position < (hierarchy.design design).instances.length, orders.ofInstance ⟨design, position⟩ = position

section Orders
variable (hierarchy : Hierarchy)

theorem TermsOrdered.setBitTerms (orders : Orders) (design : Nat) (terms : List Nat)
    (perm : terms.Perm (List.range (hierarchy.design design).bitTerms)) :
    TermsOrdered hierarchy (orders.setBitTerms design terms) design :=
  ⟨terms, perm, orders.setBitTerms_ofBitTerm design terms (perm.nodup_iff.mpr List.nodup_range)⟩

theorem TermsOrdered.keep (orders : Orders) (design : Nat) (terms : List Nat)
    (perm : terms.Perm (List.range (hierarchy.design design).bitTerms)) (number : Nat)
    (ordered : TermsOrdered hierarchy orders number) :
    TermsOrdered hierarchy (orders.setBitTerms design terms) number := by
  by_cases same : number = design
  · rw [same]
    exact TermsOrdered.setBitTerms hierarchy orders design terms perm
  · obtain ⟨places, perm', each⟩ := ordered
    refine ⟨places, perm', fun place bitTerm found => ?_⟩
    unfold Orders.setBitTerms
    rw [Orders.foldl_setBitTerm_other _ _ _ _ _ (Or.inl same)]
    exact each place bitTerm found

/-- What the instances of one design change. -/
theorem orderInstance_spec (design : Nat) (orders : Orders) (stack : List Nat) (instances : List Instance)
    (perms : ∀ inst ∈ instances, inst.instTerms.Perm (List.range (hierarchy.design inst.model).bitTerms)) :
    let done := instances.zipIdx.foldl (orderInstance design) (orders, stack)
    (∀ object, done.1.ofInstance object =
        if object.design = design ∧ object.position < instances.length then object.position
        else orders.ofInstance object) ∧
      (∀ number, TermsOrdered hierarchy orders number → TermsOrdered hierarchy done.1 number) ∧
      (∀ inst ∈ instances, TermsOrdered hierarchy done.1 inst.model) ∧
      done.2 = (instances.map (·.model)).reverse ++ stack := by
  induction instances using List.reverseRecOn with
  | nil => exact ⟨fun object => (if_neg (fun h => nomatch h.2)).symm, fun _ => id, nofun, rfl⟩
  | append_singleton instances inst ih =>
      obtain ⟨objects, keep, models, stacked⟩ := ih (fun inst member => perms inst (List.mem_append_left _ member))
      have perm := perms inst (List.mem_append_right _ List.mem_cons_self)
      rw [List.zipIdx_append, List.foldl_append]
      generalize instances.zipIdx.foldl (orderInstance design) (orders, stack) = before at objects keep models stacked
      rw [Nat.zero_add, List.zipIdx_singleton, List.foldl_cons, List.foldl_nil]
      unfold orderInstance
      refine ⟨?_, ?_, ?_, ?_⟩
      · intro object
        rw [Orders.setBitTerms_ofInstance]
        show Function.update before.1.ofInstance ⟨design, instances.length⟩ instances.length object = _
        rw [List.length_append, List.length_singleton]
        by_cases same : object = ⟨design, instances.length⟩
        · rw [same, Function.update_self, if_pos ⟨rfl, Nat.lt_succ_self _⟩]
        · rw [Function.update_of_ne same, objects object]
          apply if_congr _ rfl rfl
          refine and_congr_right (fun inside => ?_)
          have apart : object.position ≠ instances.length := by
            intro equal
            exact same (by rw [← inside, ← equal])
          omega
      · intro number ordered
        exact TermsOrdered.keep hierarchy _ inst.model inst.instTerms perm number (keep number ordered)
      · intro inst' member
        rcases List.mem_append.mp member with earlier | last
        · exact TermsOrdered.keep hierarchy _ inst.model inst.instTerms perm inst'.model (models inst' earlier)
        · rw [List.mem_singleton.mp last]
          exact TermsOrdered.setBitTerms hierarchy _ inst.model inst.instTerms perm
      · show inst.model :: before.2 = _
        rw [stacked, List.map_append, List.reverse_append]
        rfl

/-- The designs of `done` are finished and lead nowhere but to finished or stacked ones. -/
structure OrderInv (done : List Nat) (state : Orders × List Nat) : Prop where
  top : hierarchy.top ∈ done ++ state.2
  below : ∀ design ∈ done, ∀ inst ∈ (hierarchy.design design).instances, inst.model ∈ done ++ state.2
  instances : ∀ design ∈ done, InstancesOrdered hierarchy state.1 design
  terms : ∀ design ∈ done ++ state.2, TermsOrdered hierarchy state.1 design

theorem OrderInv.step (done : List Nat) (orders : Orders) (design : Nat) (stack : List Nat)
    (inv : OrderInv hierarchy done (orders, design :: stack)) :
    OrderInv hierarchy (design :: done)
      ((hierarchy.design design).instances.zipIdx.foldl (orderInstance design) (orders, stack)) := by
  obtain ⟨objects, keep, models, stacked⟩ := orderInstance_spec hierarchy design orders stack
    (hierarchy.design design).instances (hierarchy.instTerms_perm design)
  generalize (hierarchy.design design).instances.zipIdx.foldl (orderInstance design) (orders, stack) = after
    at objects keep models stacked
  have moved (number : Nat) (member : number ∈ done ++ design :: stack) : number ∈ (design :: done) ++ after.2 := by
    rw [stacked]
    simp only [List.mem_append, List.mem_cons] at member ⊢
    tauto
  have fresh (inst : Instance) (member : inst ∈ (hierarchy.design design).instances) : inst.model ∈ after.2 := by
    rw [stacked]
    exact List.mem_append_left _ (List.mem_reverse.mpr (List.mem_map_of_mem member))
  refine ⟨moved _ inv.top, ?_, ?_, ?_⟩
  · intro number member inst inside
    rcases List.mem_cons.mp member with rfl | earlier
    · exact List.mem_append_right _ (fresh inst inside)
    · exact moved _ (inv.below number earlier inst inside)
  · intro number member position bound
    rw [objects ⟨number, position⟩]
    split
    · rfl
    · next outside =>
        rcases List.mem_cons.mp member with rfl | earlier
        · exact absurd ⟨rfl, bound⟩ outside
        · exact inv.instances number earlier position bound
  · intro number member
    rw [stacked] at member
    rcases List.mem_append.mp member with finished | later
    · apply keep number
      apply inv.terms number
      rcases List.mem_cons.mp finished with rfl | earlier
      · exact List.mem_append_right _ List.mem_cons_self
      · exact List.mem_append_left _ earlier
    · rcases List.mem_append.mp later with added | waiting
      · obtain ⟨inst, inside, rfl⟩ := List.mem_map.mp (List.mem_reverse.mp added)
        exact models inst inside
      · exact keep number (inv.terms number (List.mem_append_right _ (List.mem_cons_of_mem _ waiting)))

/-- The order IDs are set for every design of the instance tree, whatever they were before. -/
theorem orderIDs_spec (before : Orders) : ∃ orders, orderIDs hierarchy before = some orders ∧
    ∀ design, hierarchy.Reached design → InstancesOrdered hierarchy orders design ∧ TermsOrdered hierarchy orders design := by
  obtain ⟨state, ended, ⟨done, inv⟩, stuck⟩ := Worklist.whileSome_ends (orderDesign hierarchy)
    (fun state => ∃ done, OrderInv hierarchy done state) (fun state => weights hierarchy state.2)
    (by
      rintro ⟨orders, stack⟩ after ⟨done, inv⟩ taken
      cases stack with
      | nil => contradiction
      | cons design stack =>
          obtain rfl := Option.some.inj taken
          refine ⟨⟨design :: done, OrderInv.step hierarchy done orders design stack inv⟩, ?_⟩
          obtain ⟨-, -, -, stacked⟩ := orderInstance_spec hierarchy design orders stack
            (hierarchy.design design).instances (hierarchy.instTerms_perm design)
          have less := weights_models hierarchy design
          show weights hierarchy _ < weights hierarchy ([design] ++ stack)
          rw [stacked, weights_append, weights_append, weights_reverse]
          omega)
    (rounds hierarchy)
    (before.setBitTerms hierarchy.top (List.range (hierarchy.design hierarchy.top).bitTerms), [hierarchy.top])
    ⟨[], List.mem_singleton_self _, nofun, nofun, fun design member => by
      rw [List.mem_singleton.mp member]
      exact TermsOrdered.setBitTerms hierarchy before hierarchy.top _ (List.Perm.refl _)⟩
    (Nat.lt_succ_self _)
  refine ⟨state.1, by rw [orderIDs, ended]; rfl, ?_⟩
  obtain ⟨orders, stack⟩ := state
  cases stack with
  | cons design stack => contradiction
  | nil =>
      have all (design : Nat) (reached : hierarchy.Reached design) : design ∈ done := by
        apply hierarchy.reached_induction (· ∈ done) _ _ design reached
        · simpa using inv.top
        · intro number member inst inside
          simpa using inv.below number member inst inside
      intro design reached
      exact ⟨inv.instances design (all design reached), inv.terms design (List.mem_append_left _ (all design reached))⟩

end Orders
end Naja.Dnl

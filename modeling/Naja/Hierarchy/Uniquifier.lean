import Naja.Hierarchy.Clone

/-! The uniquifier walks down a path and gives every instance on it a model of
its own: a model with other instances is cloned and the instance is moved to the
clone. Primitives stay shared. -/

namespace Naja.Hierarchy
open Naja.Unfolding

/-- The `id_` of a uniquifier made from a path. -/
def pathID (path : List Nat) : String := String.join (path.map (fun id => "_" ++ toString id))

def cloneName (model : Design) (id : String) : String := model.name ++ "_clone_" ++ id

namespace Universe

def addDesign (u : Universe) (d : Design) : Universe := { u with designs := u.designs ++ [d] }

/-- Puts an instance in the place of the one with its ID. -/
def replaceInstance (u : Universe) (design : Nat) (inst : Instance) : Universe :=
  { u with designs := u.designs.modify design (fun d =>
      { d with instances := d.instances.map (fun i => if i.id = inst.id then inst else i) }) }

/-- The clone is the last design of the new universe. -/
def replaceWithClone (u : Universe) (design : Nat) (inst : Instance) (id : String) : Result Universe :=
  match u.designs[inst.model]? with
  | none => .error .nullInstance
  | some model => do
      let clone ← u.clone model (cloneName model id)
      let moved ← setModel inst model u.designs.length clone
      return (u.addDesign clone).replaceInstance design moved

/-- The loop of `process`, from `design` on; `pathUniq` collects the instances as (design, ID). -/
def processFrom (id : String) (uniquifyTail : Bool) (u : Universe) (pathUniq : List (Nat × Nat))
    (design : Nat) : List Nat → Result (Universe × List (Nat × Nat))
  | [] => .ok (u, pathUniq)
  | instID :: rest =>
      match (u.designs[design]?).bind (fun d => d.getInstance instID) with
      | none => .error .nullInstance
      | some inst =>
          if rest.isEmpty ∧ ¬ uniquifyTail then .ok (u, pathUniq ++ [(design, instID)])
          else if (u.getSlaveInstances inst.model).length = 1 ∨ u.isPrimitive inst.model then
            processFrom id uniquifyTail u (pathUniq ++ [(design, instID)]) inst.model rest
          else do
            let cloned ← u.replaceWithClone design inst id
            processFrom id uniquifyTail cloned (pathUniq ++ [(design, instID)]) u.designs.length rest

def process (u : Universe) (path : List Nat) (id : String) (uniquifyTail : Bool) :
    Result (Universe × List (Nat × Nat)) :=
  processFrom id uniquifyTail u [] u.top path

end Universe

/-- The part of the path whose models are made unique. -/
def requiredPath (path : List Nat) (uniquifyTail : Bool) : List Nat :=
  if uniquifyTail then path else path.dropLast

end Naja.Hierarchy

import Mathlib.Tactic.Ring
import Mathlib.Tactic.Linarith

/-! Placement transforms: eight orientations, whose coefficients and whose
composition are read from tables, and an offset. -/

namespace Naja.Placement

inductive TypeEnum where
  | R0 | R90 | R180 | R270 | MY | MYR90 | MX | MXR90
deriving DecidableEq, Repr

def TypeEnum.index : TypeEnum → Nat
  | .R0 => 0
  | .R90 => 1
  | .R180 => 2
  | .R270 => 3
  | .MY => 4
  | .MYR90 => 5
  | .MX => 6
  | .MXR90 => 7

def A : List Int := [1, 0, -1, 0, -1, 0, 1, 0]

def B : List Int := [0, -1, 0, 1, 0, -1, 0, 1]

def C : List Int := [0, 1, 0, -1, 0, -1, 0, 1]

def D : List Int := [1, 0, -1, 0, 1, 0, -1, 0]

def DISCREMINENT : List Int := [1, 1, 1, 1, -1, -1, -1, -1]

open TypeEnum in
def COMPOSE : List TypeEnum :=
  [R0, R90, R180, R270, MX, MXR90, MY, MYR90,
   R90, R180, R270, R0, MXR90, MY, MYR90, MX,
   R180, R270, R0, R90, MY, MYR90, MX, MXR90,
   R270, R0, R90, R180, MYR90, MX, MXR90, MY,
   MX, MYR90, MY, MXR90, R0, R270, R180, R90,
   MXR90, MX, MYR90, MY, R90, R0, R270, R180,
   MY, MXR90, MX, MYR90, R180, R90, R0, R270,
   MYR90, MY, MXR90, MX, R270, R180, R90, R0]

namespace TypeEnum

/-- The entry of an orientation in a table of coefficients. -/
def entry (table : List Int) (o : TypeEnum) : Int := table.getD o.index 0

def compose (first second : TypeEnum) : TypeEnum := COMPOSE.getD (first.index * 8 + second.index) .R0

end TypeEnum

@[ext]
structure PNLPoint where
  x_ : Int
  y_ : Int
deriving DecidableEq, Repr

@[ext]
structure PNLBox where
  left_ : Int
  bottom_ : Int
  right_ : Int
  top_ : Int
deriving DecidableEq, Repr

def PNLBox.isEmpty (box : PNLBox) : Bool := box.right_ < box.left_ && box.top_ < box.bottom_

@[ext]
structure PNLTransform where
  offset_ : PNLPoint
  orientation_ : TypeEnum
deriving DecidableEq, Repr

namespace PNLTransform
variable (t : PNLTransform)

def identity : PNLTransform := ⟨⟨0, 0⟩, .R0⟩

def getTransform (transformation : PNLTransform) : PNLTransform :=
  let x := transformation.offset_.x_
  let y := transformation.offset_.y_
  ⟨⟨x * t.orientation_.entry A + y * t.orientation_.entry B + t.offset_.x_,
    x * t.orientation_.entry C + y * t.orientation_.entry D + t.offset_.y_⟩,
    t.orientation_.compose transformation.orientation_⟩

def getX (x y : Int) : Int := x * t.orientation_.entry A + y * t.orientation_.entry B + t.offset_.x_

def getY (x y : Int) : Int := x * t.orientation_.entry C + y * t.orientation_.entry D + t.offset_.y_

def getBoxOf (x1 y1 x2 y2 : Int) : PNLBox := ⟨t.getX x1 y1, t.getY x1 y1, t.getX x2 y2, t.getY x2 y2⟩

def getBox (box : PNLBox) : PNLBox :=
  if box.isEmpty then box else t.getBoxOf box.left_ box.bottom_ box.right_ box.top_

/-- A transform on a point. -/
def apply (p : PNLPoint) : PNLPoint := ⟨t.getX p.x_ p.y_, t.getY p.x_ p.y_⟩

end PNLTransform

/-! ### What is claimed -/

namespace TypeEnum
variable (o : TypeEnum)

def Mirrored : Prop := o.entry DISCREMINENT = -1

/-- The horizontal coordinate of a point goes the other way. -/
def TurnsX : Prop := o.entry A = -1 ∨ o.entry C = -1

def TurnsY : Prop := o.entry B = -1 ∨ o.entry D = -1

instance : Decidable o.Mirrored := inferInstanceAs (Decidable (_ = _))

end TypeEnum

namespace PNLBox
variable (box : PNLBox)

def Contains (p : PNLPoint) : Prop := box.left_ ≤ p.x_ ∧ p.x_ ≤ box.right_ ∧ box.bottom_ ≤ p.y_ ∧ p.y_ ≤ box.top_

def Normalised : Prop := box.left_ ≤ box.right_ ∧ box.bottom_ ≤ box.top_

end PNLBox

namespace PNLTransform

/-- The box of the images of the points of a box. -/
structure BoxExact (t : PNLTransform) (box : PNLBox) : Prop where
  nonEmpty : (t.getBox box).isEmpty = false
  normalised : (t.getBox box).Normalised
  image : ∀ p, (t.getBox box).Contains p ↔ ∃ q, box.Contains q ∧ t.apply q = p

/-- A box that is not empty is mapped exactly, and by two transforms as by their composition. -/
def BoxesMapped (t1 t2 : PNLTransform) (box : PNLBox) : Prop :=
  box.isEmpty = false → t2.BoxExact box ∧ t1.getBox (t2.getBox box) = (t1.getTransform t2).getBox box

end PNLTransform

/-! ### Orientations -/

namespace TypeEnum

/-- The linear part of a transform. -/
def turn (o : TypeEnum) (p : PNLPoint) : PNLPoint :=
  ⟨p.x_ * o.entry A + p.y_ * o.entry B, p.x_ * o.entry C + p.y_ * o.entry D⟩

def inverse : TypeEnum → TypeEnum
  | R90 => R270
  | R270 => R90
  | o => o

/-- The sign by which the table is off: between a rotation and a mirroring it is half a turn. -/
def sign (first second : TypeEnum) : Int := if first.Mirrored ↔ second.Mirrored then 1 else -1

theorem compose_entries (a b : TypeEnum) :
    (a.compose b).entry A = sign a b * (a.entry A * b.entry A + a.entry B * b.entry C) ∧
    (a.compose b).entry B = sign a b * (a.entry A * b.entry B + a.entry B * b.entry D) ∧
    (a.compose b).entry C = sign a b * (a.entry C * b.entry A + a.entry D * b.entry C) ∧
    (a.compose b).entry D = sign a b * (a.entry C * b.entry B + a.entry D * b.entry D) := by
  cases a <;> cases b <;> decide

theorem compose_assoc_iff (a b c : TypeEnum) :
    (a.compose b).compose c = a.compose (b.compose c) ↔ (a.Mirrored ↔ c.Mirrored) := by
  cases a <;> cases b <;> cases c <;> decide

theorem compose_neutral (o : TypeEnum) : (R0.compose o = o ∧ o.compose R0 = o) ↔ ¬o.Mirrored := by
  cases o <;> decide

theorem turn_inverse (o : TypeEnum) (p : PNLPoint) : o.turn (o.inverse.turn p) = p := by
  cases o <;> simp [turn, inverse, entry, index, A, B, C, D]

theorem turn_eq_zero (o : TypeEnum) (p : PNLPoint) (zero : o.turn p = ⟨0, 0⟩) : p = ⟨0, 0⟩ := by
  rw [turn, PNLPoint.mk.injEq] at zero
  rw [PNLPoint.ext_iff]
  revert zero
  cases o <;> simp [entry, index, A, B, C, D] <;> omega

/-- The composed orientation turns a point as the two orientations do, or the other way. -/
theorem turn_compose (a b : TypeEnum) (p : PNLPoint) :
    ((a.compose b).turn p).x_ = sign a b * (a.turn (b.turn p)).x_ ∧
    ((a.compose b).turn p).y_ = sign a b * (a.turn (b.turn p)).y_ := by
  obtain ⟨entryA, entryB, entryC, entryD⟩ := compose_entries a b
  unfold turn
  simp only
  rw [entryA, entryB, entryC, entryD]
  constructor <;> ring

theorem turn_compose_iff (a b : TypeEnum) (p : PNLPoint) :
    (a.compose b).turn p = a.turn (b.turn p) ↔ (a.Mirrored ↔ b.Mirrored) ∨ p = ⟨0, 0⟩ := by
  obtain ⟨composedX, composedY⟩ := turn_compose a b p
  rw [PNLPoint.ext_iff, composedX, composedY]
  by_cases same : a.Mirrored ↔ b.Mirrored
  · rw [sign, if_pos same, Int.one_mul, Int.one_mul]
    exact iff_of_true ⟨rfl, rfl⟩ (.inl same)
  · rw [sign, if_neg same]
    constructor
    · rintro ⟨oppositeX, oppositeY⟩
      have zero : a.turn (b.turn p) = ⟨0, 0⟩ := by
        refine PNLPoint.ext ?_ ?_ <;> simp only <;> omega
      exact .inr (b.turn_eq_zero p (a.turn_eq_zero _ zero))
    · rintro (both | rfl)
      · exact absurd both same
      · simp [turn]

end TypeEnum

/-! ### Transforms -/

namespace PNLTransform
variable (t t1 t2 t3 : PNLTransform)

theorem apply_eq (p : PNLPoint) :
    t.apply p = ⟨(t.orientation_.turn p).x_ + t.offset_.x_, (t.orientation_.turn p).y_ + t.offset_.y_⟩ := rfl

/-- The offset of a composition is the image of the second offset. -/
theorem getTransform_eq :
    t1.getTransform t2 = ⟨t1.apply t2.offset_, t1.orientation_.compose t2.orientation_⟩ := rfl

/-- Applying a composition is applying both, but between a rotation and a mirroring only at the origin. -/
theorem action_iff (p : PNLPoint) :
    (t1.getTransform t2).apply p = t1.apply (t2.apply p) ↔
      (t1.orientation_.Mirrored ↔ t2.orientation_.Mirrored) ∨ p = ⟨0, 0⟩ := by
  rw [← TypeEnum.turn_compose_iff, getTransform_eq, apply_eq, apply_eq t1, apply_eq t1, apply_eq t2]
  simp only [PNLPoint.ext_iff, TypeEnum.turn]
  refine and_congr ?_ ?_ <;> constructor <;> intro same <;> linarith

theorem neutral_iff :
    (identity.getTransform t = t ∧ t.getTransform identity = t) ↔ ¬t.orientation_.Mirrored := by
  rw [← TypeEnum.compose_neutral]
  have left : identity.apply t.offset_ = t.offset_ := by
    simp [apply_eq, identity, TypeEnum.turn, TypeEnum.entry, TypeEnum.index, A, B, C, D]
  have right : t.apply identity.offset_ = t.offset_ := by
    simp [apply_eq, identity, TypeEnum.turn]
  rw [getTransform_eq, getTransform_eq, left, right, PNLTransform.ext_iff, PNLTransform.ext_iff]
  simp [identity]

theorem assoc_iff :
    (t1.getTransform t2).getTransform t3 = t1.getTransform (t2.getTransform t3) ↔
      (t1.orientation_.Mirrored ↔ t3.orientation_.Mirrored) ∧
        ((t1.orientation_.Mirrored ↔ t2.orientation_.Mirrored) ∨ t3.offset_ = ⟨0, 0⟩) := by
  rw [← TypeEnum.compose_assoc_iff _ t2.orientation_ _, ← action_iff, and_comm, PNLTransform.ext_iff]
  exact Iff.rfl

/-! ### Boxes -/

theorem apply_surjective (p : PNLPoint) : ∃ q, t.apply q = p := by
  refine ⟨t.orientation_.inverse.turn ⟨p.x_ - t.offset_.x_, p.y_ - t.offset_.y_⟩, ?_⟩
  rw [apply_eq, TypeEnum.turn_inverse]
  simp

theorem getBox_of_nonEmpty (box : PNLBox) (nonEmpty : box.isEmpty = false) :
    t.getBox box = t.getBoxOf box.left_ box.bottom_ box.right_ box.top_ := by
  rw [getBox, nonEmpty]
  rfl

theorem nonEmpty_of_normalised (box : PNLBox) (normalised : box.Normalised) : box.isEmpty = false := by
  unfold PNLBox.Normalised at normalised
  unfold PNLBox.isEmpty
  simp
  omega

/-- The corners stay where they are as long as no side that has a length is turned. -/
theorem normalised_getBoxOf (box : PNLBox) (normalised : box.Normalised) :
    (t.getBoxOf box.left_ box.bottom_ box.right_ box.top_).Normalised ↔
      (t.orientation_.TurnsX → box.left_ = box.right_) ∧ (t.orientation_.TurnsY → box.bottom_ = box.top_) := by
  unfold PNLBox.Normalised at *
  unfold getBoxOf getX getY TypeEnum.TurnsX TypeEnum.TurnsY
  cases t.orientation_ <;> simp [TypeEnum.entry, TypeEnum.index, A, B, C, D] <;> omega

theorem contains_apply (box : PNLBox) (lengthX : t.orientation_.TurnsX → box.left_ = box.right_)
    (lengthY : t.orientation_.TurnsY → box.bottom_ = box.top_) (q : PNLPoint) :
    (t.getBoxOf box.left_ box.bottom_ box.right_ box.top_).Contains (t.apply q) ↔ box.Contains q := by
  revert lengthX lengthY
  unfold PNLBox.Contains getBoxOf apply getX getY TypeEnum.TurnsX TypeEnum.TurnsY
  cases t.orientation_ <;> simp [TypeEnum.entry, TypeEnum.index, A, B, C, D] <;> omega

theorem boxExact_iff (box : PNLBox) (nonEmpty : box.isEmpty = false) :
    t.BoxExact box ↔ box.Normalised ∧ (t.orientation_.TurnsX → box.left_ = box.right_) ∧
      (t.orientation_.TurnsY → box.bottom_ = box.top_) := by
  have mapped := t.getBox_of_nonEmpty box nonEmpty
  constructor
  · intro exact_
    have normalised := exact_.normalised
    have corner : (t.getBox box).Contains ⟨(t.getBox box).left_, (t.getBox box).bottom_⟩ :=
      ⟨Int.le_refl _, normalised.1, Int.le_refl _, normalised.2⟩
    obtain ⟨q, inside, -⟩ := (exact_.image _).mp corner
    have source : box.Normalised := by
      unfold PNLBox.Contains at inside
      unfold PNLBox.Normalised
      omega
    rw [mapped] at normalised
    exact ⟨source, (t.normalised_getBoxOf box source).mp normalised⟩
  · rintro ⟨source, lengths⟩
    have normalised := (t.normalised_getBoxOf box source).mpr lengths
    rw [← mapped] at normalised
    refine ⟨nonEmpty_of_normalised _ normalised, normalised, ?_⟩
    intro p
    rw [mapped]
    constructor
    · intro inside
      obtain ⟨q, rfl⟩ := t.apply_surjective p
      exact ⟨q, (t.contains_apply box lengths.1 lengths.2 q).mp inside, rfl⟩
    · rintro ⟨q, inside, rfl⟩
      exact (t.contains_apply box lengths.1 lengths.2 q).mpr inside

/-- Two corners make a box. -/
theorem getBoxOf_eq_iff (x1 y1 x2 y2 : Int) (box : PNLBox) :
    t.getBoxOf x1 y1 x2 y2 = box ↔ t.apply ⟨x1, y1⟩ = ⟨box.left_, box.bottom_⟩ ∧ t.apply ⟨x2, y2⟩ = ⟨box.right_, box.top_⟩ := by
  rw [getBoxOf, apply, apply, PNLBox.ext_iff, PNLPoint.mk.injEq, PNLPoint.mk.injEq, and_assoc]

theorem twoSteps_iff (box : PNLBox) (nonEmpty : box.isEmpty = false) (between : (t2.getBox box).isEmpty = false) :
    t1.getBox (t2.getBox box) = (t1.getTransform t2).getBox box ↔
      (t1.orientation_.Mirrored ↔ t2.orientation_.Mirrored) ∨ box = ⟨0, 0, 0, 0⟩ := by
  have lower := action_iff t1 t2 ⟨box.left_, box.bottom_⟩
  have upper := action_iff t1 t2 ⟨box.right_, box.top_⟩
  rw [eq_comm, getBox_of_nonEmpty _ _ nonEmpty, getBox_of_nonEmpty _ _ between, getBox_of_nonEmpty _ _ nonEmpty,
    getBoxOf_eq_iff]
  change _ = t1.apply (t2.apply ⟨box.left_, box.bottom_⟩) ∧ _ = t1.apply (t2.apply ⟨box.right_, box.top_⟩) ↔ _
  rw [lower, upper, ← or_and_left, PNLBox.ext_iff, PNLPoint.mk.injEq, PNLPoint.mk.injEq, and_assoc]

theorem boxesMapped_iff (box : PNLBox) :
    BoxesMapped t1 t2 box ↔ box.isEmpty = true ∨
      (box.Normalised ∧ (t2.orientation_.TurnsX → box.left_ = box.right_) ∧
        (t2.orientation_.TurnsY → box.bottom_ = box.top_)) ∧
      ((t1.orientation_.Mirrored ↔ t2.orientation_.Mirrored) ∨ box = ⟨0, 0, 0, 0⟩) := by
  unfold BoxesMapped
  cases nonEmpty : box.isEmpty with
  | true => simp
  | false =>
      rw [← boxExact_iff t2 box nonEmpty]
      simp only [true_implies, Bool.false_eq_true, false_or]
      refine and_congr_right ?_
      intro exact_
      exact twoSteps_iff t1 t2 box nonEmpty exact_.nonEmpty

end PNLTransform

/-- On which transforms, points and boxes composition is a group action. -/
theorem transforms_iff (t1 t2 t3 : PNLTransform) (p : PNLPoint) (box : PNLBox) :
    ((t1.getTransform t2).apply p = t1.apply (t2.apply p) ↔
      (t1.orientation_.Mirrored ↔ t2.orientation_.Mirrored) ∨ p = ⟨0, 0⟩) ∧
    ((PNLTransform.identity.getTransform t1 = t1 ∧ t1.getTransform .identity = t1) ↔ ¬t1.orientation_.Mirrored) ∧
    ((t1.getTransform t2).getTransform t3 = t1.getTransform (t2.getTransform t3) ↔
      (t1.orientation_.Mirrored ↔ t3.orientation_.Mirrored) ∧
        ((t1.orientation_.Mirrored ↔ t2.orientation_.Mirrored) ∨ t3.offset_ = ⟨0, 0⟩)) ∧
    (PNLTransform.BoxesMapped t1 t2 box ↔ box.isEmpty = true ∨
      (box.Normalised ∧ (t2.orientation_.TurnsX → box.left_ = box.right_) ∧
        (t2.orientation_.TurnsY → box.bottom_ = box.top_)) ∧
      ((t1.orientation_.Mirrored ↔ t2.orientation_.Mirrored) ∨ box = ⟨0, 0, 0, 0⟩)) :=
  ⟨PNLTransform.action_iff t1 t2 p, PNLTransform.neutral_iff t1, PNLTransform.assoc_iff t1 t2 t3,
    PNLTransform.boxesMapped_iff t1 t2 box⟩

/-- Nothing followed by a mirroring is the other mirroring, and a quarter turn swaps the corners of a box. -/
theorem transforms_not_action :
    PNLTransform.identity.getTransform ⟨⟨0, 0⟩, .MY⟩ = ⟨⟨0, 0⟩, .MX⟩ ∧
    (PNLTransform.identity.getTransform ⟨⟨0, 0⟩, .MY⟩).apply ⟨1, 2⟩ = ⟨1, -2⟩ ∧
    PNLTransform.identity.apply ((⟨⟨0, 0⟩, .MY⟩ : PNLTransform).apply ⟨1, 2⟩) = ⟨-1, 2⟩ ∧
    (⟨⟨0, 0⟩, .R90⟩ : PNLTransform).getBox ⟨0, 0, 2, 1⟩ = ⟨0, 0, -1, 2⟩ ∧
    (⟨⟨0, 0⟩, .R180⟩ : PNLTransform).getBox ⟨0, 0, 2, 1⟩ = ⟨0, 0, -2, -1⟩ ∧
    PNLBox.isEmpty ⟨0, 0, -2, -1⟩ = true := by
  decide

end Naja.Placement

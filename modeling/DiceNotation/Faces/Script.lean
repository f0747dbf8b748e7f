import DiceNotation.Faces

/-!
# Scripted faces

A fixed list of faces, drawn in order and over again once it runs out.
-/
namespace DiceNotation

structure Script where
  faces : Array UInt32
  /-- How many faces are handed out; an empty script hands out none of its own. -/
  drawn : Nat
  deriving DecidableEq, Repr

namespace Script

def ofList (faces : List UInt32) : Script := ⟨faces.toArray, 0⟩

/-- The side of the die on which a scripted face falls: zero counts as one, and a face past the
highest goes round again. -/
def wrap (face sides : UInt32) : UInt32 := (max face 1 - 1) % max sides 1 + 1

/-- An empty script shows one for ever. -/
def draw (sides : UInt32) (script : Script) : UInt32 × Script :=
  match script.faces[script.drawn % script.faces.size]? with
  | none => (1, script)
  | some face => (wrap face sides, { script with drawn := script.drawn + 1 })

theorem toNat_wrap (face sides : UInt32) :
    (wrap face sides).toNat = (max face.toNat 1 - 1) % max sides.toNat 1 + 1 := by
  have hsides := sides.toNat_lt
  have hmod : (max face.toNat 1 - 1) % max sides.toNat 1 < max sides.toNat 1 :=
    Nat.mod_lt _ (by omega)
  have hone : (1 : UInt32).toNat = 1 := rfl
  have hsub : (max face 1 - 1).toNat = max face.toNat 1 - 1 := by
    have hle : 1 ≤ max face 1 := by
      rw [UInt32.le_iff_toNat_le, toNat_max]
      omega
    rw [UInt32.toNat_sub_of_le _ _ hle, toNat_max, hone]
  rw [wrap, UInt32.toNat_add, UInt32.toNat_mod, hsub, toNat_max, hone,
    Nat.mod_eq_of_lt (by omega)]

instance : FaceSource Script := { draw }

end Script

end DiceNotation

import Mathlib.Data.Int.ModEq
import DiceNotation.Faces.Script

/-!
# Faces off a script

A source of faces may be asked by `draw` and by `next` in any order and for any dice. A script
refuses nothing but a die without sides that is asked for by `next`, and hands out its faces in
order and over again, each as the one side of the die that it goes round to.
-/
namespace DiceNotation

namespace FaceSource

inductive Call
  | draw (sides : UInt32)
  | next (sides : UInt32)
  deriving DecidableEq

def Call.sides : Call → UInt32
  | draw sides => sides
  | next sides => sides

/-- A call of `next` for a die without sides is the one that gets no face. -/
def Call.served? (call : Call) : Option UInt32 :=
  if call = .next 0 then none else some call.sides

section Asking

variable {σ : Type} [FaceSource σ]

def ask (source : σ) : Call → Except RollError UInt32 × σ
  | .draw sides => (.ok (FaceSource.draw sides source).1, (FaceSource.draw sides source).2)
  | .next sides => FaceSource.answer sides source

/-- The answers to calls one after another, and the source afterwards. -/
def askAll (source : σ) : List Call → List (Except RollError UInt32) × σ
  | [] => ([], source)
  | call :: calls =>
    ((ask source call).1 :: (askAll (ask source call).2 calls).1,
      (askAll (ask source call).2 calls).2)

end Asking

def handedOut (answers : List (Except RollError UInt32)) : List UInt32 :=
  answers.filterMap Except.toOption

def served (calls : List Call) : List UInt32 := calls.filterMap Call.served?

/-- A call is answered by a side of its die, where a die without sides counts as one with one; and
only `next` fails, for a die without sides. -/
def Call.AnsweredBy (call : Call) : Except RollError UInt32 → Prop
  | .ok face => call ≠ .next 0 ∧ 1 ≤ face.toNat ∧ face.toNat ≤ max call.sides.toNat 1
  | .error error => call = .next 0 ∧ error.kind = .invalidDieSides

end FaceSource

open FaceSource

namespace Script

/-! ### The arithmetic of one face -/

def sub? (a b : UInt32) : Option UInt32 := if b ≤ a then some (a - b) else none

def mod? (a b : UInt32) : Option UInt32 := if b = 0 then none else some (a % b)

def add? (a b : UInt32) : Option UInt32 :=
  if a.toNat + b.toNat < UInt32.size then some (a + b) else none

/-- `wrap` in steps that may go wrong. -/
def wrapInSteps? (face sides : UInt32) : Option UInt32 := do
  let above ← sub? (max face 1) 1
  let place ← mod? above (max sides 1)
  add? place 1

/-- The sides of a die that a scripted face may be shown as: there is one such side. -/
def Shown (scripted sides : UInt32) (side : ℕ) : Prop :=
  1 ≤ side ∧ side ≤ max sides.toNat 1 ∧ side ≡ max scripted.toNat 1 [MOD max sides.toNat 1]

theorem wrap_bounds (face sides : UInt32) :
    1 ≤ (wrap face sides).toNat ∧ (wrap face sides).toNat ≤ max sides.toNat 1 := by
  have hmod : (max face.toNat 1 - 1) % max sides.toNat 1 < max sides.toNat 1 :=
    Nat.mod_lt _ (by omega)
  rw [toNat_wrap]
  omega

theorem shown_iff (scripted sides : UInt32) (side : ℕ) :
    Shown scripted sides side ↔ side = (wrap scripted sides).toNat := by
  have hpos : 0 < max sides.toNat 1 := by omega
  have hscripted : max scripted.toNat 1 = max scripted.toNat 1 - 1 + 1 := by omega
  constructor
  · rintro ⟨hone, hle, hmod⟩
    obtain ⟨above, rfl⟩ := Nat.exists_eq_add_of_le' hone
    rw [hscripted] at hmod
    have habove : above % max sides.toNat 1 = (max scripted.toNat 1 - 1) % max sides.toNat 1 :=
      Nat.ModEq.add_right_cancel' 1 hmod
    rw [toNat_wrap, ← habove, Nat.mod_eq_of_lt (by omega)]
  · rintro rfl
    refine ⟨(wrap_bounds scripted sides).1, (wrap_bounds scripted sides).2, ?_⟩
    rw [toNat_wrap, hscripted, Nat.add_sub_cancel]
    exact (Nat.mod_modEq _ _).add_right 1

theorem wrapInSteps?_eq (face sides : UInt32) :
    wrapInSteps? face sides = some (wrap face sides) := by
  have hface : (1 : UInt32) ≤ max face 1 := by
    rw [UInt32.le_iff_toNat_le, toNat_max, UInt32.toNat_one]
    omega
  have hsides : max sides 1 ≠ 0 := by
    intro h
    have hzero := congrArg UInt32.toNat h
    rw [toNat_max, UInt32.toNat_one, UInt32.toNat_zero] at hzero
    omega
  have hroom : ((max face 1 - 1) % max sides 1).toNat + (1 : UInt32).toNat < UInt32.size := by
    have hmod : ((max face 1 - 1) % max sides 1).toNat < (max sides 1).toNat := by
      rw [UInt32.toNat_mod]
      exact Nat.mod_lt _ (Nat.pos_of_ne_zero fun h => hsides (UInt32.toNat_inj.mp h))
    have hlt := (max sides 1).toNat_lt
    simp only [UInt32.toNat_one, UInt32.size]
    omega
  simp only [wrapInSteps?, sub?, mod?, add?, if_pos hface, if_neg hsides, if_pos hroom, wrap,
    Option.bind_eq_bind, Option.bind_some]

/-! ### One call -/

/-- The side that the j-th of the faces, counted over and over, is shown as. -/
def sideAt (faces : Array UInt32) (j : ℕ) (sides : UInt32) : UInt32 :=
  ((faces[j % faces.size]?).map (wrap · sides)).getD 1

def movedOn (script : Script) (n : ℕ) : Script :=
  { script with drawn := if script.faces.size = 0 then script.drawn else script.drawn + n }

theorem movedOn_zero (script : Script) : script.movedOn 0 = script := by simp [movedOn]

theorem movedOn_movedOn (script : Script) (m n : ℕ) :
    (script.movedOn m).movedOn n = script.movedOn (m + n) := by
  by_cases hsize : script.faces.size = 0
  · simp [movedOn, hsize]
  · simp [movedOn, hsize, Nat.add_assoc]

theorem sideAt_movedOn (script : Script) (n j : ℕ) (sides : UInt32) :
    sideAt (script.movedOn n).faces ((script.movedOn n).drawn + j) sides =
      sideAt script.faces (script.drawn + (n + j)) sides := by
  by_cases hsize : script.faces.size = 0
  · simp [sideAt, movedOn, hsize]
  · simp [movedOn, hsize, Nat.add_assoc]

theorem draw_eq (script : Script) (sides : UInt32) :
    script.draw sides = (sideAt script.faces script.drawn sides, script.movedOn 1) := by
  unfold draw sideAt movedOn
  cases hface : script.faces[script.drawn % script.faces.size]? with
  | none =>
    have hempty : script.faces.size = 0 := by
      by_contra hne
      exact absurd (Nat.mod_lt script.drawn (Nat.pos_of_ne_zero hne))
        (Nat.not_lt.mpr (Array.getElem?_eq_none_iff.mp hface))
    simp [hempty]
  | some face =>
    have hsize : script.faces.size ≠ 0 := by
      intro hempty
      obtain ⟨hlt, -⟩ := Array.getElem?_eq_some_iff.mp hface
      omega
    simp [hsize]

theorem sideAt_bounds (faces : Array UInt32) (j : ℕ) (sides : UInt32) :
    1 ≤ (sideAt faces j sides).toNat ∧ (sideAt faces j sides).toNat ≤ max sides.toNat 1 := by
  unfold sideAt
  cases faces[j % faces.size]? with
  | none =>
    simp only [Option.map_none, Option.getD_none, UInt32.toNat_one]
    omega
  | some face => exact wrap_bounds face sides

theorem ask_of_refused (script : Script) : ask script (.next 0) = (.error .noSides, script) := rfl

theorem ask_of_served (script : Script) {call : Call} (h : call ≠ .next 0) :
    ask script call =
      (.ok (sideAt script.faces script.drawn call.sides), script.movedOn 1) := by
  have hdraw (sides : UInt32) : FaceSource.draw sides script = _ := script.draw_eq sides
  cases call with
  | draw sides => rw [ask, hdraw]; rfl
  | next sides =>
    have hsides : sides ≠ 0 := fun hzero => h (congrArg Call.next hzero)
    have hnext := FaceSource.next_of_ne_zero rfl script hsides
    rw [hdraw, FaceSource.next_eq_ok_iff] at hnext
    exact hnext

/-! ### All calls -/

theorem askAll_eq (script : Script) (calls : List Call) :
    handedOut (askAll script calls).1 =
        (served calls).mapIdx (fun j sides => sideAt script.faces (script.drawn + j) sides) ∧
      (askAll script calls).2 = script.movedOn (served calls).length ∧
      List.Forall₂ Call.AnsweredBy calls (askAll script calls).1 := by
  induction calls generalizing script with
  | nil => exact ⟨rfl, script.movedOn_zero.symm, .nil⟩
  | cons call calls ih =>
    by_cases hcall : call = .next 0
    · obtain ⟨hhanded, hafter, hanswers⟩ := ih script
      have hserved : served (call :: calls) = served calls := by
        simp [served, Call.served?, hcall]
      rw [askAll, hserved, hcall, ask_of_refused]
      exact ⟨hhanded, hafter, .cons ⟨rfl, rfl⟩ hanswers⟩
    · obtain ⟨hhanded, hafter, hanswers⟩ := ih (script.movedOn 1)
      have hserved : served (call :: calls) = call.sides :: served calls := by
        simp [served, Call.served?, hcall]
      rw [askAll, hserved, ask_of_served script hcall]
      refine ⟨?_, ?_, .cons ⟨hcall, sideAt_bounds _ _ _⟩ hanswers⟩
      · change _ :: handedOut _ = _
        rw [hhanded, List.mapIdx_cons]
        simp only [sideAt_movedOn, Nat.add_zero, Nat.add_comm 1]
      · rw [hafter, movedOn_movedOn, List.length_cons, Nat.add_comm 1]

/-- What becomes of a script that is asked for dice. -/
structure Replayed (faces : List UInt32) (calls : List Call)
    (answers : List (Except RollError UInt32)) (after : Script) : Prop where
  answered : List.Forall₂ Call.AnsweredBy calls answers
  /-- The j-th face handed out is the one side that the face of the script at j, counted over and
  over, is shown as. -/
  shown : ∀ j scripted sides, faces[j % faces.length]? = some scripted →
    (served calls)[j]? = some sides → ∃ face, (handedOut answers)[j]? = some face ∧
      ∀ side, Shown scripted sides side ↔ side = face.toNat
  drawn : faces ≠ [] → after.drawn = (handedOut answers).length
  ones : faces = [] → after.drawn = 0 ∧ ∀ face ∈ handedOut answers, face = 1
  /-- The count of the faces does not run ahead of the calls. -/
  drawn_le : after.drawn ≤ calls.length

theorem drawn_movedOn_ofList (faces : List UInt32) (n : ℕ) :
    ((ofList faces).movedOn n).drawn = if faces = [] then 0 else n := by
  cases faces <;> simp [movedOn, ofList]

/-- A script hands out its faces in order whatever it is asked, without a step of arithmetic that
leaves the 32-bit words; what it refuses does not change it. -/
theorem askAll_replayed (faces : List UInt32) (calls : List Call) :
    Replayed faces calls (askAll (ofList faces) calls).1 (askAll (ofList faces) calls).2 ∧
      (∀ script : Script, ask script (.next 0) = (.error .noSides, script)) ∧
      ∀ face sides, wrapInSteps? face sides = some (wrap face sides) := by
  obtain ⟨hhanded, hafter, hanswered⟩ := askAll_eq (ofList faces) calls
  have hlength : (handedOut (askAll (ofList faces) calls).1).length = (served calls).length := by
    rw [hhanded, List.length_mapIdx]
  have hdrawn := drawn_movedOn_ofList faces (served calls).length
  rw [← hafter] at hdrawn
  refine ⟨⟨hanswered, ?_, ?_, ?_, ?_⟩, ask_of_refused, wrapInSteps?_eq⟩
  · intro j scripted sides hscripted hsides
    refine ⟨wrap scripted sides, ?_, shown_iff scripted sides⟩
    rw [hhanded, List.getElem?_mapIdx, hsides]
    simp [sideAt, ofList, hscripted]
  · intro hne
    rw [hdrawn, if_neg hne, hlength]
  · intro hempty
    refine ⟨by rw [hdrawn, if_pos hempty], fun face hface => ?_⟩
    obtain ⟨j, hlt, rfl⟩ := List.getElem_of_mem (hhanded ▸ hface)
    simp [sideAt, ofList, hempty]
  · rw [hdrawn]
    have hserved : (served calls).length ≤ calls.length := List.length_filterMap_le _ _
    split <;> omega

end Script

end DiceNotation

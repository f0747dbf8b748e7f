import DiceNotation.Faces.Script
import DiceNotation.Proofs.Block
import DiceNotation.Proofs.Coupling

/-!
# Rolling again from the trail

A script of the faces on a trail rolls the same trail again, since every throw leaves its face on
the trail and nothing else draws.
-/
namespace DiceNotation

/-- What a source becomes by draws of dice with sides. -/
inductive DrawnFrom {σ : Type} [FaceSource σ] (source : σ) : σ → Prop
  | start : DrawnFrom source source
  | draw {state : σ} {sides : UInt32} (former : DrawnFrom source state) (hsides : sides ≠ 0) :
      DrawnFrom source (FaceSource.draw sides state).2

/-- However often dice are drawn from the source, each shows one of its sides. -/
def ShowsSides {σ : Type} [FaceSource σ] (source : σ) : Prop :=
  ∀ state, DrawnFrom source state → ∀ sides : UInt32, sides ≠ 0 →
    1 ≤ (FaceSource.draw sides state).1 ∧ (FaceSource.draw sides state).1 ≤ sides

theorem ShowsSides.draw {σ : Type} [FaceSource σ] {source : σ} {sides : UInt32}
    (h : ShowsSides source) (hsides : sides ≠ 0) :
    ShowsSides (FaceSource.draw sides source).2 := by
  intro state hstate
  refine h state ?_
  induction hstate with
  | start => exact .draw .start hsides
  | draw _ hmore ih => exact .draw ih hmore

namespace Script

theorem wrap_of_le {face sides : UInt32} (hone : 1 ≤ face) (hle : face ≤ sides) :
    wrap face sides = face := by
  rw [UInt32.le_iff_toNat_le] at hone hle
  have hface : 1 ≤ face.toNat := hone
  apply UInt32.toNat_inj.mp
  rw [toNat_wrap, Nat.mod_eq_of_lt (by omega)]
  omega

theorem draw_of_getElem? {script : Script} {face sides : UInt32}
    (hface : script.faces[script.drawn % script.faces.size]? = some face) (hone : 1 ≤ face)
    (hle : face ≤ sides) :
    script.draw sides = (face, { script with drawn := script.drawn + 1 }) := by
  unfold draw
  rw [hface]
  exact congrArg (·, _) (wrap_of_le hone hle)

theorem showsSides (source : Script) : ShowsSides source := by
  intro script _ sides hsides
  have hpos : 1 ≤ sides.toNat := Nat.one_le_iff_ne_zero.mpr fun h => hsides (UInt32.toNat_inj.mp h)
  change 1 ≤ (draw sides script).1 ∧ (draw sides script).1 ≤ sides
  rw [UInt32.le_iff_toNat_le, UInt32.le_iff_toNat_le]
  unfold draw
  split
  · exact ⟨Nat.le_refl 1, hpos⟩
  · rename_i face _
    have hmod : (max face.toNat 1 - 1) % max sides.toNat 1 < max sides.toNat 1 :=
      Nat.mod_lt _ (by omega)
    change 1 ≤ (wrap face sides).toNat ∧ (wrap face sides).toNat ≤ sides.toNat
    rw [toNat_wrap]
    omega

end Script

def Trail.faces (trail : Trail) : List UInt32 := trail.toList.map Outcome.value

theorem Trail.faces_push (trail : Trail) (outcome : Outcome) :
    Trail.faces (trail.push outcome) = Trail.faces trail ++ [outcome.value] := by
  simp [Trail.faces]

theorem Trail.faces_modify_retired (trail : Trail) (die : Nat) :
    Trail.faces (trail.modify die Outcome.retired) = Trail.faces trail := by
  rw [Trail.faces, Trail.faces, Array.toList_modify, ← List.filterMap_eq_map]
  exact filterMap_modify_retired (fun _ => rfl) trail.toList die

theorem Trail.length_faces (trail : Trail) : (Trail.faces trail).length = trail.size := by
  simp [Trail.faces]

/-- A table with the same trail at which a script is followed, as far as the trail goes. -/
structure Table.Replays {σ : Type} (script : List UInt32) (table : Table σ) (copy : Table Script) :
    Prop where
  source : copy.source = ⟨script.toArray, table.trail.size⟩
  trail : copy.trail = table.trail
  visits : copy.visits = table.visits

namespace Roller

variable {σ : Type} [FaceSource σ] {α β : Type}

/-- If the step succeeds, throws only add to the faces on the trail, and the second step follows
every script that starts with these faces. -/
def ReplayedBy (image : α → β) (step : Roller σ α) (again : Roller Script β) : Prop :=
  ∀ ⦃table after a⦄, step table = .ok a after → ShowsSides table.source →
    ShowsSides after.source ∧ Trail.faces table.trail <+: Trail.faces after.trail ∧
    ∀ ⦃script copy⦄, Trail.faces after.trail <+: script → table.Replays script copy →
      ∃ copy', again copy = .ok (image a) copy' ∧ after.Replays script copy'

/-- A step that leaves source and faces alone is followed by a step that only needs the trail. -/
theorem replayedBy_of_eq {image : α → β} {step : Roller σ α} {again : Roller Script β}
    (h : ∀ ⦃table after a⦄, step table = .ok a after → after.source = table.source ∧
      Trail.faces after.trail = Trail.faces table.trail ∧
      ∀ copy : Table Script, copy.trail = table.trail → copy.visits = table.visits →
        ∃ copy', again copy = .ok (image a) copy' ∧ copy'.source = copy.source ∧
          copy'.trail = after.trail ∧ copy'.visits = after.visits) :
    ReplayedBy image step again := by
  intro table after a hstep hsides
  obtain ⟨hsource, hfaces, hagain⟩ := h hstep
  refine ⟨hsource ▸ hsides, hfaces ▸ List.prefix_rfl, fun script copy _ hcopy => ?_⟩
  obtain ⟨copy', hok, hsource', htrail', hvisits'⟩ := hagain copy hcopy.trail hcopy.visits
  have hsize : after.trail.size = table.trail.size := by
    rw [← Trail.length_faces, hfaces, Trail.length_faces]
  exact ⟨copy', hok, by rw [hsource', hcopy.source, hsize], htrail', hvisits'⟩

theorem bind_replayedBy {γ δ : Type} {image : α → β} {image' : γ → δ} {step : Roller σ α}
    {again : Roller Script β} {next : α → Roller σ γ} {next' : β → Roller Script δ}
    (hstep : ReplayedBy image step again)
    (hnext : ∀ a, ReplayedBy image' (next a) (next' (image a))) :
    ReplayedBy image' (step >>= next) (again >>= next') := by
  intro table after c h hsides
  obtain ⟨a, between, hfirst, hrest⟩ := bind_eq_ok.mp h
  obtain ⟨hsides', hfaces, hcopy⟩ := hstep hfirst hsides
  obtain ⟨hsides'', hfaces', hcopy'⟩ := hnext a hrest hsides'
  refine ⟨hsides'', hfaces.trans hfaces', fun script copy hscript hreplays => ?_⟩
  obtain ⟨copy', hok, hreplays'⟩ := hcopy (hfaces'.trans hscript) hreplays
  obtain ⟨copy'', hok', hreplays''⟩ := hcopy' hscript hreplays'
  exact ⟨copy'', bind_eq_ok.mpr ⟨_, copy', hok, hok'⟩, hreplays''⟩

theorem throwDie_replayedBy {limits : Limits} (htime : limits.time = none)
    (hanswer : FaceSource.answer (σ := σ) = answerOf FaceSource.draw) (node : Nat)
    (sides : UInt32) (cause : Cause) :
    ReplayedBy id (throwDie limits node sides cause : Roller σ Nat)
      (throwDie limits node sides cause) := by
  intro table after die h hshows
  obtain ⟨rfl, hroom, face, hface, htrail, hvisits⟩ := throwDie_eq_ok h
  obtain ⟨hsides, hdrawn⟩ := (FaceSource.next_eq_ok_iff_draw hanswer).mp hface
  have hbounds := hshows _ .start sides hsides
  have hafter := hshows.draw hsides
  rw [hdrawn] at hbounds hafter
  have hfaces : Trail.faces after.trail = Trail.faces table.trail ++ [face] := by
    rw [htrail, Trail.faces_push]
    cases cause <;> rfl
  refine ⟨hafter, hfaces ▸ List.prefix_append _ _, fun script copy hscript hcopy => ?_⟩
  have hscripted : copy.source.faces[copy.source.drawn % copy.source.faces.size]? = some face := by
    obtain ⟨rest, rfl⟩ := hscript
    rw [hcopy.source, hfaces]
    have hlt : table.trail.size < table.trail.size + (rest.length + 1) := by omega
    simp [Trail.length_faces, Nat.mod_eq_of_lt hlt]
  have hnext' : FaceSource.next sides copy.source =
      .ok (face, { copy.source with drawn := copy.source.drawn + 1 }) :=
    (FaceSource.next_eq_ok_iff_draw rfl).mpr
      ⟨hsides, Script.draw_of_getElem? hscripted hbounds.1 hbounds.2⟩
  rw [throwDie_of_none htime, hcopy.trail, if_neg (Nat.not_le.mpr hroom), layDie_of_next hnext']
  refine ⟨_, by rw [hcopy.trail]; rfl, ?_, ?_, ?_⟩
  · rw [hcopy.source, htrail, Array.size_push]
  · exact htrail.symm
  · exact hcopy.visits.trans hvisits.symm

theorem faceOf_replayedBy (die : Nat) :
    ReplayedBy id (faceOf die : Roller σ UInt32) (faceOf die) := by
  refine replayedBy_of_eq fun table after face h => ?_
  obtain ⟨⟨outcome, hdie, hface⟩, rfl⟩ := faceOf_eq_ok h
  refine ⟨rfl, rfl, fun copy htrail hvisits => ⟨copy, ?_, rfl, htrail, hvisits⟩⟩
  rw [faceOf_apply, htrail, hdie]
  exact congrArg (EStateM.Result.ok · copy) hface

theorem retire_replayedBy (die : Nat) :
    ReplayedBy id (retire die : Roller σ Unit) (retire die) := by
  refine replayedBy_of_eq fun table after _ h => ?_
  obtain ⟨hlt, rfl⟩ := retire_eq_ok h
  refine ⟨rfl, Trail.faces_modify_retired _ _, fun copy htrail hvisits => ?_⟩
  refine ⟨{ copy with trail := copy.trail.modify die Outcome.retired }, ?_, rfl, ?_, hvisits⟩
  · rw [retire_apply, htrail, if_pos hlt]
  · rw [htrail]

def replay {limits : Limits} (htime : limits.time = none)
    (hanswer : FaceSource.answer (σ := σ) = answerOf FaceSource.draw) :
    Coupling σ Script limits limits where
  nodes := 0
  dice := 0
  Alike := ReplayedBy
  pure a := by
    refine replayedBy_of_eq fun table after b h => ?_
    obtain ⟨rfl, rfl⟩ := pure_eq_ok.mp h
    exact ⟨rfl, rfl, fun copy htrail hvisits => ⟨copy, rfl, rfl, htrail, hvisits⟩⟩
  throw error := by
    intro table after a h
    cases h
  bind := bind_replayedBy
  visit := by
    refine replayedBy_of_eq fun table after node h => ?_
    obtain ⟨rfl, readings, rfl⟩ := visit_eq_ok h
    refine ⟨rfl, rfl, fun copy htrail hvisits => ?_⟩
    obtain ⟨hnodes, hsubTotals⟩ := Prod.mk.inj hvisits
    rw [visit_of_none htime]
    refine ⟨_, congrArg (EStateM.Result.ok · _) hnodes, rfl, htrail, ?_⟩
    simp [Table.visits, hnodes, hsubTotals]
  enter node value := by
    refine replayedBy_of_eq fun table after result h => ?_
    obtain ⟨rfl, rfl⟩ := enter_eq_ok h
    refine ⟨rfl, rfl, fun copy htrail hvisits => ⟨_, rfl, rfl, htrail, ?_⟩⟩
    obtain ⟨hnodes, hsubTotals⟩ := Prod.mk.inj hvisits
    simp [Table.visits, hnodes, hsubTotals]
  remark said := by
    refine replayedBy_of_eq fun table after _ h => ?_
    obtain rfl := remark_eq_ok h
    exact ⟨rfl, rfl, fun copy htrail hvisits => ⟨_, rfl, rfl, htrail, hvisits⟩⟩
  nextPlace := by
    refine replayedBy_of_eq fun table after place h => ?_
    cases h
    exact ⟨rfl, rfl, fun copy htrail hvisits => ⟨copy, by rw [← htrail]; rfl, rfl, htrail, hvisits⟩⟩
  throwDie node sides cause := by
    rw [Cause.further_zero]
    exact throwDie_replayedBy htime hanswer node sides cause
  faceOf := faceOf_replayedBy
  retire := retire_replayedBy
  depthLe := .refl _
  endless longer := absurd longer (Nat.lt_irrefl _)
  rollLarge node term large := by
    intro table after value h
    rw [rollTerm_of_large (or_self_iff.mp large)] at h
    cases h

end Roller

variable {σ : Type} [FaceSource σ] {limits : Limits} {source after : σ}

/-- A roll can be had again from the faces on its trail alone, and takes each of them once. -/
theorem Expression.roll_ofList_faces {expression : Expression} {evaluation : Evaluation}
    (htime : limits.time = none) (hanswer : FaceSource.answer (σ := σ) = answerOf FaceSource.draw)
    (hshows : ShowsSides source)
    (h : expression.roll limits source = (.ok evaluation, after)) :
    expression.roll limits (Script.ofList (Trail.faces evaluation.trail)) =
      (.ok evaluation, ⟨(Trail.faces evaluation.trail).toArray, evaluation.trail.size⟩) := by
  have hnodes := nodeCount_le_of_roll h
  rw [roll_eq_outcome hnodes] at h ⊢
  obtain ⟨table, hroll, htrail, hsubTotals, rfl⟩ := Roller.outcome_eq_ok h
  have hfresh : (Table.fresh source).Replays (Trail.faces table.trail)
      (.fresh (Script.ofList (Trail.faces table.trail))) := ⟨rfl, rfl, rfl⟩
  obtain ⟨-, -, hagain⟩ := (Roller.replay htime hanswer).rollNodes expression hroll hshows
  obtain ⟨copy, hcopy, hreplays⟩ := hagain List.prefix_rfl hfresh
  have hsubTotals' : copy.subTotals = table.subTotals := congrArg Prod.snd hreplays.visits
  rw [htrail, hcopy, Roller.outcome, hreplays.trail, hsubTotals', hreplays.source, ← htrail,
    ← hsubTotals]
  rfl

/-- The script is out of range, so that the faces on the trail are other ones. -/
theorem Expression.roll_ofList_faces_of_wrapped :
    (binary .add (dice ⟨2, 6, [.reroll none]⟩) (dice ⟨1, 6, [.explode none]⟩)).roll {}
        (Script.ofList [7, 9, 11, 12, 2]) =
      (.ok ⟨16, #[⟨1, 6, 1, false, none, none⟩, ⟨1, 6, 3, true, none, none⟩,
        ⟨1, 6, 5, true, some 0, none⟩, ⟨2, 6, 6, true, none, none⟩,
        ⟨2, 6, 2, true, none, some 3⟩], ⟨[(0, 16), (1, 8), (2, 8)], by decide⟩⟩,
        ⟨#[7, 9, 11, 12, 2], 5⟩) ∧
    (binary .add (dice ⟨2, 6, [.reroll none]⟩) (dice ⟨1, 6, [.explode none]⟩)).roll {}
        (Script.ofList [1, 3, 5, 6, 2]) =
      (.ok ⟨16, #[⟨1, 6, 1, false, none, none⟩, ⟨1, 6, 3, true, none, none⟩,
        ⟨1, 6, 5, true, some 0, none⟩, ⟨2, 6, 6, true, none, none⟩,
        ⟨2, 6, 2, true, none, some 3⟩], ⟨[(0, 16), (1, 8), (2, 8)], by decide⟩⟩,
        ⟨#[1, 3, 5, 6, 2], 5⟩) := by
  have h : (binary .add (dice ⟨2, 6, [.reroll none]⟩) (dice ⟨1, 6, [.explode none]⟩)).roll {}
      (Script.ofList [7, 9, 11, 12, 2]) =
      (.ok ⟨16, #[⟨1, 6, 1, false, none, none⟩, ⟨1, 6, 3, true, none, none⟩,
        ⟨1, 6, 5, true, some 0, none⟩, ⟨2, 6, 6, true, none, none⟩,
        ⟨2, 6, 2, true, none, some 3⟩], ⟨[(0, 16), (1, 8), (2, 8)], by decide⟩⟩,
        ⟨#[7, 9, 11, 12, 2], 5⟩) := by
    decide +kernel
  exact ⟨h, roll_ofList_faces rfl rfl (Script.showsSides _) h⟩

end DiceNotation

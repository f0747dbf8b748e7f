import DiceNotation.Proofs.Explained
import DiceNotation.Proofs.Replay

/-!
# A dice term under way

Between two modifiers a dice term has live dice on the trail. Whatever table and live dice it has
come to, the live dice are different places of its block, and when the source hands out nothing but
sides of the dice, that is what they show.
-/
namespace DiceNotation

deriving instance DecidableEq for Table

instance decidableEqResult {ε σ α : Type} [DecidableEq ε] [DecidableEq σ] [DecidableEq α] :
    DecidableEq (EStateM.Result ε σ α)
  | .ok a table, .ok b other =>
    decidable_of_iff (a = b ∧ table = other) (by rw [EStateM.Result.ok.injEq])
  | .error a table, .error b other =>
    decidable_of_iff (a = b ∧ table = other) (by rw [EStateM.Result.error.injEq])
  | .ok _ _, .error _ _ => isFalse nofun
  | .error _ _, .ok _ _ => isFalse nofun

/-- What a source becomes by handing out faces. -/
inductive HandedFrom {σ : Type} [FaceSource σ] (source : σ) : σ → Prop
  | start : HandedFrom source source
  | next {state after : σ} {sides face : UInt32} (former : HandedFrom source state)
      (handed : FaceSource.next sides state = .ok (face, after)) : HandedFrom source after

theorem HandedFrom.of_next {σ : Type} [FaceSource σ] {source after state : σ} {sides face : UInt32}
    (hnext : FaceSource.next sides source = .ok (face, after)) (h : HandedFrom after state) :
    HandedFrom source state := by
  induction h with
  | start => exact .next .start hnext
  | next _ handed ih => exact .next ih handed

/-- However many faces it hands out, each is one of the sides of its die. -/
def HandsSides {σ : Type} [FaceSource σ] (source : σ) : Prop :=
  ∀ state, HandedFrom source state → ∀ (sides face : UInt32) (after : σ),
    FaceSource.next sides state = .ok (face, after) → 1 ≤ face ∧ face ≤ sides

/-- However many faces it has handed out, it refuses no die that has sides. -/
def AlwaysAnswers {σ : Type} [FaceSource σ] (source : σ) : Prop :=
  ∀ state, HandedFrom source state → ∀ sides : UInt32, sides ≠ 0 →
    ∃ drawn, FaceSource.next sides state = .ok drawn

section Sources

variable {σ : Type} [FaceSource σ] {source after : σ} {sides face : UInt32}

theorem HandsSides.next (h : HandsSides source)
    (hnext : FaceSource.next sides source = .ok (face, after)) : HandsSides after :=
  fun state hstate => h state (hstate.of_next hnext)

theorem AlwaysAnswers.next (h : AlwaysAnswers source)
    (hnext : FaceSource.next sides source = .ok (face, after)) : AlwaysAnswers after :=
  fun state hstate => h state (hstate.of_next hnext)

theorem FaceSource.Contract.alwaysAnswers (h : FaceSource.Contract σ) (source : σ) :
    AlwaysAnswers source := by
  intro state _ sides hzero
  cases hnext : FaceSource.next sides state with
  | ok drawn => exact ⟨drawn, rfl⟩
  | error error => exact absurd (h.reason hnext).1 hzero

theorem handsSides_of_showsSides
    (hanswer : FaceSource.answer (σ := σ) = answerOf FaceSource.draw) (hshows : ShowsSides source) :
    HandsSides source := by
  have hdrawn {state : σ} (h : HandedFrom source state) : DrawnFrom source state := by
    induction h with
    | start => exact .start
    | next _ handed ih =>
      obtain ⟨hzero, hdraw⟩ := (FaceSource.next_eq_ok_iff_draw hanswer).mp handed
      have := DrawnFrom.draw ih hzero
      rwa [hdraw] at this
  intro state hstate sides face after h
  obtain ⟨hzero, hdraw⟩ := (FaceSource.next_eq_ok_iff_draw hanswer).mp h
  have := hshows state (hdrawn hstate) sides hzero
  rwa [hdraw] at this

end Sources

/-- All dice on the trail show one of their sides, and so will the dice that are thrown. -/
def Sided {σ : Type} [FaceSource σ] (source : σ) (trail : Trail) : Prop :=
  HandsSides source ∧
    ∀ (die : Nat) (outcome : Outcome), trail[die]? = some outcome →
      1 ≤ outcome.value ∧ outcome.value ≤ outcome.sides

theorem Outcome.value_thrown (node : Nat) (sides face : UInt32) (cause : Cause) :
    (thrown node sides face cause).value = face := by
  cases cause <;> rfl

theorem Outcome.sides_thrown (node : Nat) (sides face : UInt32) (cause : Cause) :
    (thrown node sides face cause).sides = sides := by
  cases cause <;> rfl

section Sided

variable {σ : Type} [FaceSource σ] {source after : σ} {trail : Trail}

theorem Sided.thrown (h : Sided source trail) {node : Nat} {sides face : UInt32} {cause : Cause}
    (hnext : FaceSource.next sides source = .ok (face, after)) :
    Sided after (trail.push (.thrown node sides face cause)) := by
  refine ⟨h.1.next hnext, fun die outcome hdie => ?_⟩
  rw [← Array.getElem?_toList, Array.toList_push] at hdie
  rcases getElem?_push hdie with hdie | ⟨-, rfl⟩
  · rw [Array.getElem?_toList] at hdie
    exact h.2 die outcome hdie
  · rw [Outcome.value_thrown, Outcome.sides_thrown]
    exact h.1 source .start sides face after hnext

theorem Sided.retired (h : Sided source trail) (die : Nat) :
    Sided source (trail.modify die Outcome.retired) := by
  refine ⟨h.1, fun other outcome hother => ?_⟩
  rw [← Array.getElem?_toList, Array.toList_modify] at hother
  obtain ⟨former, hformer, rfl⟩ := getElem?_modify_retired hother
  rw [Array.getElem?_toList] at hformer
  have hbounds := h.2 other former hformer
  split
  · exact hbounds
  · exact hbounds

theorem Sided.fresh (h : HandsSides source) : Sided source #[] :=
  ⟨h, nofun⟩

end Sided

/-- What holds of the source and the trail whatever dice are thrown and taken out of the count. -/
structure Invariant (σ : Type) [FaceSource σ] where
  Holds : σ → Trail → Prop
  thrown : ∀ {source after : σ} {trail : Trail} {node : Nat} {sides face : UInt32} {cause : Cause},
    Holds source trail → FaceSource.next sides source = .ok (face, after) →
      Holds after (trail.push (.thrown node sides face cause))
  retired : ∀ {source : σ} {trail : Trail} (die : Nat), Holds source trail →
    Holds source (trail.modify die Outcome.retired)

namespace Invariant

variable {σ : Type} [FaceSource σ]

def sided : Invariant σ := ⟨Sided, fun h hnext => h.thrown hnext, fun die h => h.retired die⟩

def answering : Invariant σ :=
  ⟨fun source _ => AlwaysAnswers source, fun h hnext => h.next hnext, fun _ h => h⟩

variable (invariant : Invariant σ) {α : Type}

/-- The step keeps the invariant when it goes through. -/
def KeptBy (step : Roller σ α) : Prop :=
  ∀ ⦃table after a⦄, step table = .ok a after → invariant.Holds table.source table.trail →
    invariant.Holds after.source after.trail

open Roller in
def coupling (limits : Limits) : Coupling σ σ limits limits where
  nodes := 0
  dice := 0
  Alike _ step _ := invariant.KeptBy step
  pure a := by
    intro table after b h hkept
    obtain ⟨-, rfl⟩ := pure_eq_ok.mp h
    exact hkept
  throw error := by
    intro table after a h
    cases h
  bind hstep hnext := by
    intro table after c h hkept
    obtain ⟨a, between, hfirst, hrest⟩ := bind_eq_ok.mp h
    exact hnext a hrest (hstep hfirst hkept)
  visit := by
    intro table after node h hkept
    obtain ⟨-, readings, rfl⟩ := visit_eq_ok h
    exact hkept
  enter node value := by
    intro table after result h hkept
    obtain ⟨-, rfl⟩ := enter_eq_ok h
    exact hkept
  remark said := by
    intro table after _ h hkept
    obtain rfl := remark_eq_ok h
    exact hkept
  nextPlace := by
    intro table after place h hkept
    cases h
    exact hkept
  throwDie node sides cause := by
    intro table after die h hkept
    obtain ⟨-, -, face, hface, htrail, -⟩ := throwDie_eq_ok h
    rw [htrail]
    exact invariant.thrown hkept hface
  faceOf die := by
    intro table after face h hkept
    obtain ⟨-, rfl⟩ := faceOf_eq_ok h
    exact hkept
  retire die := by
    intro table after _ h hkept
    obtain ⟨-, rfl⟩ := retire_eq_ok h
    exact invariant.retired die hkept
  depthLe := .refl _
  endless longer := absurd longer (Nat.lt_irrefl _)
  rollLarge node term large := by
    intro table after value h
    rw [rollTerm_of_large (or_self_iff.mp large)] at h
    cases h

end Invariant

theorem Coupling.rollFaces {σ τ : Type} [FaceSource σ] [FaceSource τ] {limits : Limits}
    (c : Coupling σ τ limits limits) (node : Nat) (term : DiceTerm) :
    c.Alike id (Roller.rollFaces limits node term)
      (Roller.rollFaces limits (node + c.nodes) term) := by
  have hmodifiers (thrown : List Nat) := c.foldlM (c.applyModifier node term) term.modifiers thrown
  have hfaces (live : List Nat) := c.mapM c.faceOf live
  rw [List.map_id_fun] at hfaces
  have hroll : c.Alike id
      (do
        let start ← Roller.nextPlace
        Roller.throwDice limits node term.sides term.count.toNat
        let live ← term.modifiers.foldlM (Roller.applyModifier limits node term)
          (List.range' start term.count.toNat)
        live.mapM Roller.faceOf)
      (do
        let start ← Roller.nextPlace
        Roller.throwDice limits (node + c.nodes) term.sides term.count.toNat
        let live ← term.modifiers.foldlM (Roller.applyModifier limits (node + c.nodes) term)
          (List.range' start term.count.toNat)
        live.mapM Roller.faceOf) := by
    refine c.bind c.nextPlace fun start => c.bind (c.throwDice node _ _) fun _ => ?_
    rw [← c.further_range']
    exact c.bind (hmodifiers _) hfaces
  unfold Roller.rollFaces
  refine c.guard ?_
  exact c.guard hroll

/-- A dice term whose dice are thrown from the first table on is at the second one with so many live
dice, after some modifiers. -/
def Underway {σ : Type} [FaceSource σ] (limits : Limits) (node : Nat) (term : DiceTerm)
    (start table : Table σ) (live : List Nat) : Prop :=
  ∃ modifiers : List Modifier,
    (do
      Roller.throwDice limits node term.sides term.count.toNat
      modifiers.foldlM (Roller.applyModifier limits node term)
        (List.range' start.trail.size term.count.toNat) : Roller σ (List Nat)) start =
      .ok live table

namespace Underway

variable {σ : Type} [FaceSource σ] {limits : Limits} {node : Nat} {term : DiceTerm}
  {start table after : Table σ} {live left : List Nat}

theorem of_throwDice
    (h : Roller.throwDice limits node term.sides term.count.toNat start = .ok () table) :
    Underway limits node term start table (List.range' start.trail.size term.count.toNat) :=
  ⟨[], Roller.bind_eq_ok.mpr ⟨(), table, h, rfl⟩⟩

theorem applied (h : Underway limits node term start table live) {modifier : Modifier}
    (hmodifier : Roller.applyModifier limits node term live modifier table = .ok left after) :
    Underway limits node term start after left := by
  obtain ⟨former, h⟩ := h
  obtain ⟨⟨⟩, thrown, hthrow, hformer⟩ := Roller.bind_eq_ok.mp h
  refine ⟨former ++ [modifier], Roller.bind_eq_ok.mpr ⟨(), thrown, hthrow, ?_⟩⟩
  rw [List.foldlM_append]
  refine Roller.bind_eq_ok.mpr ⟨live, table, hformer, ?_⟩
  rw [List.foldlM_cons]
  exact Roller.bind_eq_ok.mpr ⟨left, after, hmodifier, rfl⟩

theorem inPlay (h : Underway limits node term start table live) :
    ∃ block, Hand.InPlay start.trail.toList node term block ⟨table.trail.toList, live⟩ := by
  obtain ⟨modifiers, h⟩ := h
  obtain ⟨-, block, hplay, -⟩ := Roller.run_inPlay h
  exact ⟨block, hplay⟩

theorem nodup (h : Underway limits node term start table live) : live.Nodup := by
  obtain ⟨block, hplay⟩ := h.inPlay
  exact hplay.live.nodup

theorem exists_block (h : Underway limits node term start table live) :
    ∃ block, Chained node term start.trail.size block ∧ Live start.trail.size block live ∧
      start.trail.size ≤ table.trail.size ∧
      ∀ j, table.trail[start.trail.size + j]? = block[j]? := by
  obtain ⟨block, htrail, hchained, hlive⟩ := h.inPlay
  have htrail : table.trail.toList = start.trail.toList ++ block := htrail
  rw [Array.length_toList] at hchained hlive
  refine ⟨block, hchained, hlive, ?_, fun j => ?_⟩
  · rw [← Array.length_toList, ← Array.length_toList, htrail, List.length_append]
    exact Nat.le_add_right _ _
  · rw [← Array.length_toList]
    exact getElem?_behind htrail j

theorem exists_outcome (h : Underway limits node term start table live) {die : Nat}
    (hdie : die ∈ live) :
    ∃ outcome, table.trail[die]? = some outcome ∧ outcome.kept = true ∧
      outcome.sides = term.sides := by
  obtain ⟨block, hchained, hlive, -, htrail⟩ := h.exists_block
  obtain ⟨j, outcome, rfl, hj, hkept⟩ := hlive.exists_of_mem hdie
  exact ⟨outcome, (htrail j).trans hj, hkept, (hchained.placed j outcome hj).sides_eq⟩

theorem shows (h : Underway limits node term start table live) {die : Nat} (hdie : die ∈ live) :
    table.Shows die (table.faceAt die) := by
  obtain ⟨block, hplay⟩ := h.inPlay
  exact hplay.shows hdie

theorem keeps (h : Underway limits node term start table live) (invariant : Invariant σ)
    (hstart : invariant.Holds start.source start.trail) :
    invariant.Holds table.source table.trail := by
  obtain ⟨modifiers, h⟩ := h
  obtain ⟨⟨⟩, thrown, hthrow, hmodifiers⟩ := Roller.bind_eq_ok.mp h
  let c := invariant.coupling limits
  have hthrown := c.throwDice node term.sides term.count.toNat hthrow hstart
  exact c.foldlM (c.applyModifier node term) modifiers _ hmodifiers hthrown

theorem bounds (h : Underway limits node term start table live)
    (hstart : Sided start.source start.trail) {die : Nat} (hdie : die ∈ live) :
    1 ≤ table.faceAt die ∧ table.faceAt die ≤ term.sides := by
  obtain ⟨outcome, houtcome, -, hsides⟩ := h.exists_outcome hdie
  have hbounds := (h.keeps .sided hstart).2 die outcome houtcome
  rw [Table.faceAt, houtcome, ← hsides]
  exact hbounds

theorem sides_ne_zero (h : Underway limits node term start table live)
    (hstart : Sided start.source start.trail) (hlive : live ≠ []) : term.sides ≠ 0 := by
  obtain ⟨die, hdie⟩ := List.exists_mem_of_ne_nil live hlive
  obtain ⟨hone, hle⟩ := h.bounds hstart hdie
  intro hzero
  rw [hzero] at hle
  exact absurd (UInt32.le_trans hone hle) (by decide)

end Underway

/-- The run of a term that is rolled: its dice are thrown, and its modifiers applied. -/
theorem Roller.rollTerm_run {σ : Type} [FaceSource σ] {limits : Limits} {node : Nat}
    {term : DiceTerm} {table after : Table σ} {value : Int64}
    (h : rollTerm limits node term table = .ok value after) :
    ∃ live last, (do
      throwDice limits node term.sides term.count.toNat
      term.modifiers.foldlM (applyModifier limits node term)
        (List.range' table.trail.size term.count.toNat) : Roller σ (List Nat)) table =
      .ok live last ∧ after.trail = last.trail := by
  rw [rollTerm_eq] at h
  obtain ⟨faces, rolled, hfaces, h⟩ := bind_eq_ok.mp h
  obtain ⟨-, remarks, rfl⟩ := addUp_eq_ok h
  obtain ⟨live, hrun, -⟩ := rollFaces_eq_ok hfaces
  exact ⟨live, rolled, hrun, rfl⟩

/-- The blocks that dice terms leave on the trail, when each leaves one that is good. -/
theorem Roller.rollNodes_blocks {σ : Type} [FaceSource σ] {limits : Limits}
    (invariant : Invariant σ) {Good : Nat → DiceTerm → List Outcome → Prop}
    (hterm : ∀ {node : Nat} {term : DiceTerm} {table after : Table σ} {value : Int64},
      rollTerm limits node term table = .ok value after → invariant.Holds table.source table.trail →
        ∃ block, after.trail.toList = table.trail.toList ++ block ∧ Good node term block)
    {expression : Expression} {table after : Table σ} {value : Int64}
    (h : rollNodes limits expression table = .ok value after)
    (hstart : invariant.Holds table.source table.trail) :
    ∃ blocks : List ((Nat × DiceTerm) × List Outcome),
      blocks.map Prod.fst = expression.diceTerms table.nodes ∧
      after.trail.toList = table.trail.toList ++ blocks.flatMap Prod.snd ∧
      ∀ block ∈ blocks, Good block.1.1 block.1.2 block.2 := by
  induction expression generalizing table after value with
  | literal literal =>
    obtain ⟨node, visited, hvisit, h⟩ := bind_eq_ok.mp h
    obtain ⟨rfl, readings, rfl⟩ := visit_eq_ok hvisit
    obtain ⟨rfl, rfl⟩ := enter_eq_ok h
    exact ⟨[], rfl, (List.append_nil _).symm, nofun⟩
  | dice term =>
    obtain ⟨node, visited, hvisit, h⟩ := bind_eq_ok.mp h
    obtain ⟨rfl, readings, rfl⟩ := visit_eq_ok hvisit
    obtain ⟨rolled, between, hroll, h⟩ := bind_eq_ok.mp h
    obtain ⟨rfl, rfl⟩ := enter_eq_ok h
    obtain ⟨block, htrail, hgood⟩ := hterm hroll hstart
    exact ⟨[((table.nodes, term), block)], rfl, by simpa using htrail,
      List.forall_mem_singleton.mpr hgood⟩
  | binary operator left right ihLeft ihRight =>
    obtain ⟨node, visited, hvisit, h⟩ := bind_eq_ok.mp h
    obtain ⟨rfl, readings, rfl⟩ := visit_eq_ok hvisit
    obtain ⟨leftValue, between, hleft, h⟩ := bind_eq_ok.mp h
    obtain ⟨rightValue, last, hright, h⟩ := bind_eq_ok.mp h
    obtain ⟨result, settled, hsettle, h⟩ := bind_eq_ok.mp h
    obtain ⟨rfl, rfl⟩ := enter_eq_ok h
    obtain ⟨-, rfl⟩ := settle_eq_ok hsettle
    obtain ⟨hnodes, -, -⟩ := rollNodes_explained hleft
    obtain ⟨blocks, hterms, htrail, hgood⟩ := ihLeft hleft hstart
    have hbetween := (invariant.coupling limits).rollNodes left hleft hstart
    obtain ⟨others, hterms', htrail', hgood'⟩ := ihRight hright hbetween
    refine ⟨blocks ++ others, ?_, ?_, List.forall_mem_append.mpr ⟨hgood, hgood'⟩⟩
    · rw [List.map_append, hterms, hterms', hnodes, Expression.diceTerms_binary]
    · rw [htrail', htrail, List.flatMap_append, List.append_assoc]
  | group inner ih =>
    obtain ⟨node, visited, hvisit, h⟩ := bind_eq_ok.mp h
    obtain ⟨rfl, readings, rfl⟩ := visit_eq_ok hvisit
    obtain ⟨innerValue, between, hinner, h⟩ := bind_eq_ok.mp h
    obtain ⟨rfl, rfl⟩ := enter_eq_ok h
    exact ih hinner hstart
  | negate inner ih =>
    obtain ⟨node, visited, hvisit, h⟩ := bind_eq_ok.mp h
    obtain ⟨rfl, readings, rfl⟩ := visit_eq_ok hvisit
    obtain ⟨innerValue, between, hinner, h⟩ := bind_eq_ok.mp h
    obtain ⟨result, settled, hsettle, h⟩ := bind_eq_ok.mp h
    obtain ⟨rfl, rfl⟩ := enter_eq_ok h
    obtain ⟨-, rfl⟩ := settle_eq_ok hsettle
    exact ih hinner hstart

end DiceNotation

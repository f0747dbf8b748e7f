import DiceNotation.Faces.Script
import DiceNotation.Proofs.TermRoll

/-!
# Every die is found

An evaluation looks only at dice that it threw before, and no die leaves the trail. So no die is
missing, and no evaluation fails with an internal error.
-/
namespace DiceNotation

theorem kind_ne_internal_of_apply {operator : Operator} {left right : Int64} {error : RollError}
    (h : operator.apply left right = .error error) : error.kind ≠ .internal := by
  unfold Operator.apply at h
  split at h
  · cases h
    nofun
  · split at h
    · cases h
      nofun
    · cases h

theorem kind_ne_internal_of_negated {value : Int64} {error : RollError}
    (h : negated value = .error error) : error.kind ≠ .internal := by
  unfold negated at h
  split at h
  · cases h
    nofun
  · cases h

namespace Roller

variable {σ α β : Type}

/-- A step from the table goes through without taking dice off the trail, and gives what is good
when so many are on it; or it fails, but not with an internal error. -/
inductive Sound (table : Table σ) (good : Nat → α → Prop) :
    EStateM.Result RollError (Table σ) α → Prop
  | ok {a : α} {after : Table σ} (grows : table.trail.size ≤ after.trail.size)
      (isGood : good after.trail.size a) : Sound table good (.ok a after)
  | error {error : RollError} {after : Table σ} (kind : error.kind ≠ .internal) :
      Sound table good (.error error after)

/-- The step is sound when at least so many dice are on the trail. -/
def SoundFrom (dice : Nat) (step : Roller σ α) (good : Nat → α → Prop) : Prop :=
  ∀ table, dice ≤ table.trail.size → Sound table good (step table)

/-- All of the dice are on a trail of so many. -/
def AllBelow (size : Nat) (dice : List Nat) : Prop := ∀ die ∈ dice, die < size

variable {dice : Nat} {good : Nat → α → Prop} {good' : Nat → β → Prop}

theorem SoundFrom.mono {more : Nat} {step : Roller σ α} (h : SoundFrom dice step good)
    (hle : dice ≤ more) : SoundFrom more step good :=
  fun table hmore => h table (Nat.le_trans hle hmore)

/-- What holds whenever the step goes through is good. -/
theorem SoundFrom.of_ok {step : Roller σ α} (h : SoundFrom dice step good) {fact : Nat → α → Prop}
    (hfact : ∀ table a after, dice ≤ table.trail.size → step table = .ok a after →
      fact after.trail.size a) :
    SoundFrom dice step fact := by
  intro table hdice
  have hstep := h table hdice
  cases hresult : step table with
  | ok a after =>
    rw [hresult] at hstep
    cases hstep with
    | ok grows _ => exact .ok grows (hfact table a after hdice hresult)
  | error error after =>
    rw [hresult] at hstep
    cases hstep with
    | error kind => exact .error kind

theorem pure_soundFrom {a : α} (h : ∀ size, dice ≤ size → good size a) :
    SoundFrom dice (pure a : Roller σ α) good :=
  fun table hdice => .ok (Nat.le_refl _) (h table.trail.size hdice)

theorem throw_soundFrom {error : RollError} (h : error.kind ≠ .internal) :
    SoundFrom dice (throw error : Roller σ α) good :=
  fun _ _ => .error h

theorem bind_soundFrom {step : Roller σ α} {next : α → Roller σ β}
    (hstep : SoundFrom dice step good)
    (hanswer : ∀ size a, dice ≤ size → good size a → SoundFrom size (next a) good') :
    SoundFrom dice (step >>= next) good' := by
  intro table hdice
  have hfirst := hstep table hdice
  simp only [bind, EStateM.bind]
  generalize step table = result at hfirst ⊢
  cases hfirst with
  | @ok a between grows isGood =>
    have hrest := hanswer _ a (Nat.le_trans hdice grows) isGood between (Nat.le_refl _)
    dsimp only
    generalize next a between = result at hrest ⊢
    cases hrest with
    | ok grows' isGood' => exact .ok (Nat.le_trans grows grows') isGood'
    | error kind => exact .error kind
  | error kind => exact .error kind

theorem ite_soundFrom {condition : Prop} [Decidable condition] {step step' : Roller σ α}
    (h : SoundFrom dice step good) (h' : SoundFrom dice step' good) :
    SoundFrom dice (if condition then step else step') good := by
  split
  · exact h
  · exact h'

theorem guard_soundFrom {condition : Prop} [Decidable condition] {error : RollError}
    {next : PUnit → Roller σ α} (herror : error.kind ≠ .internal)
    (hanswer : SoundFrom dice (next ()) good) :
    SoundFrom dice (if condition then throw error >>= next else next ()) good := by
  split
  · exact fun _ _ => .error herror
  · exact hanswer

section Lists

theorem mapM_soundFrom {f : α → Roller σ β} {as : List α}
    (hgrows : ∀ size more b, size ≤ more → good' size b → good' more b)
    (h : ∀ a ∈ as, SoundFrom dice (f a) good') :
    SoundFrom dice (as.mapM f) fun size bs => ∀ b ∈ bs, good' size b := by
  induction as generalizing dice with
  | nil => exact pure_soundFrom fun _ _ b hb => nomatch hb
  | cons a as ih =>
    rw [List.mapM_cons]
    refine bind_soundFrom (h a (.head as)) fun size b hsize hb => ?_
    have hrest : ∀ a ∈ as, SoundFrom size (f a) good' :=
      fun a ha => (h a (.tail _ ha)).mono hsize
    refine bind_soundFrom (ih hrest) fun size' bs hsize' hbs => ?_
    refine pure_soundFrom fun last hlast b' hb' => ?_
    rcases List.mem_cons.mp hb' with rfl | hmem
    · exact hgrows size last b' (Nat.le_trans hsize' hlast) hb
    · exact hgrows size' last b' hlast (hbs b' hmem)

theorem forM_soundFrom {f : α → Roller σ PUnit} {as : List α}
    (h : ∀ a ∈ as, SoundFrom dice (f a) fun _ _ => True) :
    SoundFrom dice (as.forM f) fun _ _ => True := by
  induction as generalizing dice with
  | nil => exact pure_soundFrom fun _ _ => trivial
  | cons a as ih =>
    refine bind_soundFrom (h a (.head as)) fun size _ hsize _ => ?_
    exact ih fun a ha => (h a (.tail _ ha)).mono hsize

theorem foldlM_soundFrom {f : β → α → Roller σ β} {as : List α} {start : β}
    (hgrows : ∀ size more b, size ≤ more → good' size b → good' more b)
    (h : ∀ size b, ∀ a ∈ as, dice ≤ size → good' size b → SoundFrom size (f b a) good')
    (hstart : good' dice start) :
    SoundFrom dice (as.foldlM f start) good' := by
  induction as generalizing dice start with
  | nil => exact pure_soundFrom fun size hsize => hgrows dice size start hsize hstart
  | cons a as ih =>
    rw [List.foldlM_cons]
    have hfirst := h dice start a (.head as) (Nat.le_refl dice) hstart
    refine bind_soundFrom hfirst fun size b hsize hb => ih (fun more b a' ha' hmore => ?_) hb
    exact h more b a' (.tail a ha') (Nat.le_trans hsize hmore)

end Lists

theorem AllBelow.mono {size more : Nat} {live : List Nat} (h : AllBelow size live)
    (hle : size ≤ more) : AllBelow more live :=
  fun die hdie => Nat.lt_of_lt_of_le (h die hdie) hle

theorem AllBelow.subset {size : Nat} {live left : List Nat} (h : AllBelow size live)
    (hsub : left ⊆ live) : AllBelow size left :=
  fun die hdie => h die (hsub hdie)

section Looking

variable {die : Nat} {live : List Nat}

theorem faceOf_soundFrom (hdie : die < dice) :
    SoundFrom dice (faceOf die : Roller σ UInt32) fun _ _ => True := by
  intro table hdice
  have hlt : die < table.trail.size := Nat.lt_of_lt_of_le hdie hdice
  rw [faceOf_apply, Array.getElem?_eq_getElem hlt]
  exact .ok (Nat.le_refl _) trivial

theorem retire_soundFrom (hdie : die < dice) :
    SoundFrom dice (retire die : Roller σ Unit) fun _ _ => True := by
  intro table hdice
  have hlt : die < table.trail.size := Nat.lt_of_lt_of_le hdie hdice
  rw [retire_apply, if_pos hlt]
  exact .ok (Nat.le_of_eq Array.size_modify.symm) trivial

theorem sumOf_soundFrom (term : DiceTerm) (hlive : AllBelow dice live) :
    SoundFrom dice (sumOf term live : Roller σ Int64) fun _ _ => True := by
  refine foldlM_soundFrom (fun _ _ _ _ => id) (fun size value die hdie hsize _ => ?_) trivial
  have hdie : die < size := Nat.lt_of_lt_of_le (hlive die hdie) hsize
  refine bind_soundFrom (faceOf_soundFrom hdie) fun _ face _ _ => ?_
  cases narrow? (value.toInt + face.toNat) with
  | some value => exact pure_soundFrom fun _ _ => trivial
  | none => exact throw_soundFrom nofun

/-- The ranking holds the live dice, which are all on the trail. -/
theorem ranked_soundFrom (rank : Rank) (hlive : AllBelow dice live) :
    SoundFrom dice (ranked rank live : Roller σ (List Nat)) fun _ ranking => ranking ⊆ live := by
  have hpair : ∀ die ∈ live.mergeSort (· ≤ ·),
      SoundFrom dice (do return (die, ← faceOf die) : Roller σ _) fun _ _ => True := by
    intro die hdie
    have hdie := hlive die (List.mem_mergeSort.mp hdie)
    refine bind_soundFrom (faceOf_soundFrom hdie) fun _ face _ _ => ?_
    exact pure_soundFrom fun _ _ => trivial
  have hranked : SoundFrom dice (ranked rank live : Roller σ (List Nat)) fun _ _ => True := by
    refine bind_soundFrom (mapM_soundFrom (fun _ _ _ _ => id) hpair) fun _ faces _ _ => ?_
    exact pure_soundFrom fun _ _ => trivial
  exact hranked.of_ok fun _ _ _ _ h => (perm_of_ranked h).subset

theorem dropDice_soundFrom {dropped : List Nat} (hlive : AllBelow dice live)
    (hdropped : dropped ⊆ live) :
    SoundFrom dice (dropDice live dropped : Roller σ (List Nat)) AllBelow := by
  have hretire := forM_soundFrom (σ := σ) fun die hdie =>
    retire_soundFrom (hlive die (hdropped hdie))
  refine bind_soundFrom hretire fun size _ hsize _ => ?_
  refine pure_soundFrom fun last hlast => ?_
  have hleft := hlive.mono (Nat.le_trans hsize hlast)
  exact hleft.subset (List.filter_subset_self live)

theorem checkAmount_soundFrom (term : DiceTerm) (amount : UInt32) :
    SoundFrom dice (checkAmount term amount : Roller σ Unit) fun _ _ => True :=
  ite_soundFrom (throw_soundFrom nofun) (pure_soundFrom fun _ _ => trivial)

/-- Dropping a part of the ranking, as keeping and dropping both do. -/
theorem dropRanked_soundFrom (term : DiceTerm) (rank : Rank) (amount : UInt32)
    {pick : List Nat → List Nat} (hpick : ∀ ranking, pick ranking ⊆ ranking)
    (hlive : AllBelow dice live) :
    SoundFrom dice
      (do
        checkAmount term amount
        let ranking ← ranked rank live
        dropDice live (pick ranking) : Roller σ (List Nat)) AllBelow := by
  refine bind_soundFrom (checkAmount_soundFrom term amount) fun size _ hsize _ => ?_
  have hlive' := hlive.mono hsize
  refine bind_soundFrom (ranked_soundFrom rank hlive') fun size' ranking hsize' hranking => ?_
  exact dropDice_soundFrom (hlive'.mono hsize') (List.Subset.trans (hpick ranking) hranking)

theorem skip_soundFrom (said : Remark) (hlive : AllBelow dice live) :
    SoundFrom dice (do remark said; return live : Roller σ (List Nat)) AllBelow :=
  fun _ hdice => .ok (Nat.le_refl _) (hlive.mono hdice)

end Looking

theorem checkTime_soundFrom {limits : Limits} :
    SoundFrom dice (checkTime limits : Roller σ Unit) fun _ _ => True := by
  intro table _
  rw [checkTime_apply]
  cases limits.time with
  | none => exact .ok (Nat.le_refl _) trivial
  | some budget =>
    dsimp only
    split
    · exact .error nofun
    · exact .ok (Nat.le_refl _) trivial

theorem settle_soundFrom {result : Except RollError α}
    (h : ∀ error, result = .error error → error.kind ≠ .internal) :
    SoundFrom dice (settle result : Roller σ α) fun _ _ => True := by
  cases result with
  | ok a => exact pure_soundFrom fun _ _ => trivial
  | error error => exact throw_soundFrom (h error rfl)

section Throwing

variable [FaceSource σ] {limits : Limits} {node die : Nat} {live : List Nat}
  (hanswer : FaceSource.answer (σ := σ) = answerOf FaceSource.draw)

include hanswer

theorem layDie_soundFrom (sides : UInt32) (cause : Cause) :
    SoundFrom dice (layDie node sides cause : Roller σ Nat) fun size die => die < size := by
  intro table _
  by_cases hsides : sides = 0
  · have hrefused : FaceSource.next sides table.source = .error .noSides :=
      (FaceSource.next_eq_error_iff_noSides hanswer).mpr ⟨hsides, rfl⟩
    obtain ⟨_, hface⟩ := FaceSource.next_eq_error_iff.mp hrefused
    rw [layDie_of_refused hface]
    exact .error nofun
  · rw [layDie_of_next (FaceSource.next_of_ne_zero hanswer table.source hsides)]
    refine .ok ?_ ?_
    · simp
    · simp

/-- A die that is thrown is on the trail from then on. -/
theorem throwDie_soundFrom (sides : UInt32) (cause : Cause) :
    SoundFrom dice (throwDie limits node sides cause : Roller σ Nat)
      fun size die => die < size := by
  have hlay : SoundFrom dice
      (checkTime limits >>= fun _ => layDie node sides cause : Roller σ Nat)
      fun size die => die < size :=
    bind_soundFrom checkTime_soundFrom fun _ _ _ _ => layDie_soundFrom hanswer sides cause
  intro table hdice
  rw [throwDie_apply]
  split
  · exact .error nofun
  · exact hlay table hdice

/-- The dice of a term are all on the trail once they are thrown. -/
theorem throwDice_soundFrom (sides : UInt32) (count : Nat) :
    SoundFrom dice (throwDice limits node sides count : Roller σ Unit)
      fun size _ => dice + count ≤ size := by
  have hthrown : SoundFrom dice (throwDice limits node sides count : Roller σ Unit)
      fun _ _ => True := by
    induction count generalizing dice with
    | zero => exact pure_soundFrom fun _ _ => trivial
    | succ count ih =>
      exact bind_soundFrom (throwDie_soundFrom hanswer sides .term) fun _ _ _ _ => ih
  refine hthrown.of_ok fun table _ after hdice h => ?_
  obtain ⟨-, faces, hfaces, htrail⟩ := throwDice_eq_ok h
  have hsize := congrArg List.length htrail
  simp only [List.length_append, List.length_map, Array.length_toList] at hsize
  omega

variable (term : DiceTerm) (condition : Condition)

theorem replaceDie_soundFrom (hdie : die < dice) :
    SoundFrom dice (replaceDie limits node term die : Roller σ Nat) fun size die => die < size :=
  bind_soundFrom (retire_soundFrom hdie) fun _ _ _ _ => throwDie_soundFrom hanswer _ _

theorem rerollDie_soundFrom (once : Bool) (depth : Nat) (hdie : die < dice) :
    SoundFrom dice (rerollDie limits node term condition once depth die : Roller σ Nat)
      fun size die => die < size := by
  have hstays : SoundFrom dice (pure die : Roller σ Nat) fun size die => die < size :=
    pure_soundFrom fun size hsize => Nat.lt_of_lt_of_le hdie hsize
  induction depth generalizing dice die with
  | zero =>
    refine bind_soundFrom (faceOf_soundFrom hdie) fun size face hsize _ => ?_
    have hstays := hstays.mono hsize
    exact ite_soundFrom (ite_soundFrom hstays (throw_soundFrom nofun)) hstays
  | succ depth ih =>
    refine bind_soundFrom (faceOf_soundFrom hdie) fun size face hsize _ => ?_
    refine ite_soundFrom ?_ (hstays.mono hsize)
    have hdie' : die < size := Nat.lt_of_lt_of_le hdie hsize
    refine bind_soundFrom (replaceDie_soundFrom hanswer term hdie') fun size new _ hnew => ?_
    exact ih hnew (pure_soundFrom fun size' hsize' => Nat.lt_of_lt_of_le hnew hsize')

theorem explodeDie_soundFrom (depth : Nat) (hdie : die < dice) :
    SoundFrom dice (explodeDie limits node term condition depth die : Roller σ (List Nat))
      AllBelow := by
  induction depth generalizing dice die with
  | zero =>
    refine bind_soundFrom (faceOf_soundFrom hdie) fun size face hsize _ => ?_
    exact ite_soundFrom (throw_soundFrom nofun) (pure_soundFrom fun _ _ => nofun)
  | succ depth ih =>
    refine bind_soundFrom (faceOf_soundFrom hdie) fun size face hsize _ => ?_
    refine ite_soundFrom ?_ (pure_soundFrom fun _ _ => nofun)
    refine bind_soundFrom (throwDie_soundFrom hanswer _ _) fun size new _ hnew => ?_
    refine bind_soundFrom (ih hnew) fun size' added hsize hadded => ?_
    refine pure_soundFrom fun last hlast => List.forall_mem_cons.mpr ⟨?_, hadded.mono hlast⟩
    exact Nat.lt_of_lt_of_le hnew (Nat.le_trans hsize hlast)

theorem applyExplode_soundFrom (hlive : AllBelow dice live) :
    SoundFrom dice (applyExplode limits node term condition live : Roller σ (List Nat))
      AllBelow := by
  have hexplode : SoundFrom dice
      (live.mapM (explodeDie limits node term condition limits.rerollDepth) : Roller σ _)
      fun size added => ∀ dice ∈ added, AllBelow size dice :=
    mapM_soundFrom (fun _ _ _ hle hlive => hlive.mono hle) fun die hdie =>
      explodeDie_soundFrom hanswer term condition _ (hlive die hdie)
  refine ite_soundFrom (bind_soundFrom hexplode fun size added hsize hadded => ?_)
    (skip_soundFrom _ hlive)
  refine pure_soundFrom fun last hlast => List.forall_mem_append.mpr ⟨?_, ?_⟩
  · exact hlive.mono (Nat.le_trans hsize hlast)
  · exact List.forall_mem_flatten.mpr fun dice hdice => (hadded dice hdice).mono hlast

theorem applyModifier_soundFrom (hlive : AllBelow dice live) (modifier : Modifier) :
    SoundFrom dice (applyModifier limits node term live modifier : Roller σ (List Nat))
      AllBelow := by
  have hreroll {f : Nat → Roller σ Nat}
      (hf : ∀ die ∈ live, SoundFrom dice (f die) fun size die => die < size) :
      SoundFrom dice (live.mapM f) AllBelow :=
    mapM_soundFrom (fun _ _ _ hle hlt => Nat.lt_of_lt_of_le hlt hle) hf
  cases modifier with
  | keep rank amount =>
    exact dropRanked_soundFrom term rank amount (fun _ => List.drop_subset ..) hlive
  | drop rank amount =>
    exact dropRanked_soundFrom term rank amount (fun _ => List.take_subset ..) hlive
  | reroll condition =>
    refine ite_soundFrom (hreroll fun die hdie => ?_) (skip_soundFrom _ hlive)
    exact rerollDie_soundFrom hanswer term _ _ _ (hlive die hdie)
  | rerollOnce condition =>
    refine ite_soundFrom (hreroll fun die hdie => ?_) (skip_soundFrom _ hlive)
    exact rerollDie_soundFrom hanswer term _ _ _ (hlive die hdie)
  | explode condition => exact applyExplode_soundFrom hanswer term _ hlive

theorem rollTerm_soundFrom :
    SoundFrom dice (rollTerm limits node term : Roller σ Int64) fun _ _ => True := by
  unfold rollTerm
  refine guard_soundFrom nofun (guard_soundFrom nofun fun table _ => ?_)
  refine bind_soundFrom (throwDice_soundFrom hanswer _ _) (fun size _ _ hsize => ?_) table
    (Nat.le_refl _)
  have hstart : AllBelow size (List.range' table.trail.size term.count.toNat) := by
    intro die hdie
    have hlt := (List.mem_range'_1.mp hdie).2
    omega
  have hmodifiers : SoundFrom size
      (term.modifiers.foldlM (applyModifier limits node term)
        (List.range' table.trail.size term.count.toNat) : Roller σ (List Nat)) AllBelow := by
    refine foldlM_soundFrom (fun _ _ _ hle hlive => hlive.mono hle) ?_ hstart
    exact fun _ _ modifier _ _ hlive => applyModifier_soundFrom hanswer term hlive modifier
  refine bind_soundFrom hmodifiers fun size' live _ hlive => ?_
  refine bind_soundFrom (sumOf_soundFrom term hlive) fun _ value _ _ => ?_
  exact fun _ _ => .ok (Nat.le_refl _) trivial

theorem rollNodes_soundFrom (expression : Expression) :
    SoundFrom dice (rollNodes limits expression : Roller σ Int64) fun _ _ => True := by
  have hvisit {size : Nat} : SoundFrom size (visit limits : Roller σ Nat) fun _ _ => True :=
    bind_soundFrom checkTime_soundFrom fun _ _ _ _ _ _ => .ok (Nat.le_refl _) trivial
  have henter {size node : Nat} {value : Int64} :
      SoundFrom size (enter node value : Roller σ Int64) fun _ _ => True :=
    fun _ _ => .ok (Nat.le_refl _) trivial
  induction expression generalizing dice with
  | literal value => exact bind_soundFrom hvisit fun _ _ _ _ => henter
  | dice term =>
    refine bind_soundFrom hvisit fun _ node _ _ => ?_
    exact bind_soundFrom (rollTerm_soundFrom hanswer term) fun _ _ _ _ => henter
  | binary operator left right ihLeft ihRight =>
    refine bind_soundFrom hvisit fun _ node _ _ => bind_soundFrom ihLeft fun _ leftValue _ _ => ?_
    refine bind_soundFrom ihRight fun _ rightValue _ _ => ?_
    refine bind_soundFrom (settle_soundFrom fun _ => kind_ne_internal_of_apply) fun _ _ _ _ => ?_
    exact henter
  | group inner ih =>
    exact bind_soundFrom hvisit fun _ node _ _ => bind_soundFrom ih fun _ _ _ _ => henter
  | negate inner ih =>
    refine bind_soundFrom hvisit fun _ node _ _ => bind_soundFrom ih fun _ value _ _ => ?_
    refine bind_soundFrom (settle_soundFrom fun _ => kind_ne_internal_of_negated) fun _ _ _ _ => ?_
    exact henter

end Throwing

end Roller

/-- No roll from a source that refuses nothing but dice without sides fails with an internal error:
every die that is looked up or retired is on the trail. -/
theorem Expression.kind_ne_internal_of_roll {σ : Type} [FaceSource σ] {limits : Limits}
    {expression : Expression} {source after : σ} {error : RollError}
    (hanswer : FaceSource.answer (σ := σ) = answerOf FaceSource.draw)
    (h : expression.roll limits source = (.error error, after)) : error.kind ≠ .internal := by
  by_cases hnodes : expression.nodeCount ≤ limits.nodes
  · rw [roll_eq_outcome hnodes] at h
    obtain ⟨table, htable, -⟩ := Roller.outcome_eq_error h
    have hsound : Roller.Sound (.fresh source) (fun _ _ => True)
        (Roller.rollNodes limits expression (.fresh source)) :=
      Roller.rollNodes_soundFrom hanswer expression _ (Nat.le_refl 0)
    rw [htable] at hsound
    cases hsound with
    | error kind => exact kind
  · rw [roll_of_lt_nodeCount (Nat.lt_of_not_le hnodes)] at h
    cases h
    nofun

/-- Dice are replaced and added before one too many is dropped. -/
theorem Expression.kind_ne_internal_of_roll_of_dropped :
    FaceSource.answer (σ := Script) = answerOf FaceSource.draw ∧
    (dice ⟨2, 6, [.reroll none, .explode none, .drop .lowest 3]⟩).roll {}
        (Script.ofList [1, 6, 1, 3, 2]) =
      (.error (.amountTooLarge ⟨2, 6, [.reroll none, .explode none, .drop .lowest 3]⟩ 3),
        ⟨#[1, 6, 1, 3, 2], 5⟩) ∧
    RollError.kind
        (.amountTooLarge ⟨2, 6, [.reroll none, .explode none, .drop .lowest 3]⟩ 3) ≠ .internal := by
  have h : (dice ⟨2, 6, [.reroll none, .explode none, .drop .lowest 3]⟩).roll {}
      (Script.ofList [1, 6, 1, 3, 2]) =
      (.error (.amountTooLarge ⟨2, 6, [.reroll none, .explode none, .drop .lowest 3]⟩ 3),
        ⟨#[1, 6, 1, 3, 2], 5⟩) := by
    decide +kernel
  exact ⟨rfl, h, kind_ne_internal_of_roll rfl h⟩

end DiceNotation

import DiceNotation.Faces.Script
import DiceNotation.Proofs.Underway

/-!
# The live dice of a term, and what a modifier leaves alone

Between its modifiers, the live dice of a term are those that count on its part of the trail. A
modifier takes dice out of the count by their flags and keeps the list of live dice beside them.
Whether it goes through or breaks off halfway, it takes only live dice out of the count, and only
throws dice behind those that are there.
-/
namespace DiceNotation

/-- From one table to the next, each die on the trail stays as it is or, if it counts and may be
retired, is taken out of the count. The dice behind them belong to the node. No node is visited. -/
structure Table.GoesOn {σ : Type} (node : Nat) (May : Nat → Prop) (table after : Table σ) :
    Prop where
  former : ∀ die outcome, table.trail[die]? = some outcome →
    after.trail[die]? = some outcome ∨
      (May die ∧ outcome.kept = true ∧ after.trail[die]? = some outcome.retired)
  added : ∀ die outcome, table.trail.size ≤ die → after.trail[die]? = some outcome →
    outcome.term = node
  visits : after.visits = table.visits

/-- The table that a step leaves, whether it goes through or fails. -/
def Roller.tableAfter {σ α : Type} (step : Roller σ α) (table : Table σ) : Table σ :=
  match step table with
  | .ok _ after => after
  | .error _ after => after

section TableAfter

variable {σ α : Type} {step : Roller σ α} {table after : Table σ}

theorem Roller.tableAfter_of_ok {a : α} (h : step table = .ok a after) :
    tableAfter step table = after := by
  rw [tableAfter, h]

theorem Roller.tableAfter_of_error {error : RollError} (h : step table = .error error after) :
    tableAfter step table = after := by
  rw [tableAfter, h]

end TableAfter

namespace Table.GoesOn

variable {σ : Type} {node : Nat} {May May' : Nat → Prop} {table between after : Table σ}

theorem of_trail_eq (htrail : after.trail = table.trail) (hvisits : after.visits = table.visits) :
    table.GoesOn node May after where
  former die outcome hdie := .inl (htrail ▸ hdie)
  added die outcome hle hdie := by
    rw [htrail, Array.getElem?_eq_none hle] at hdie
    cases hdie
  visits := hvisits

theorem refl (table : Table σ) : table.GoesOn node May table := of_trail_eq rfl rfl

theorem size_le (h : table.GoesOn node May after) : table.trail.size ≤ after.trail.size := by
  by_contra hlt
  obtain ⟨outcome, hlast⟩ : ∃ outcome, table.trail[after.trail.size]? = some outcome :=
    ⟨_, Array.getElem?_eq_getElem (Nat.lt_of_not_le hlt)⟩
  have hnone : after.trail[after.trail.size]? = none := Array.getElem?_eq_none (Nat.le_refl _)
  rcases h.former _ outcome hlast with hsame | ⟨-, -, hretired⟩
  · rw [hnone] at hsame
    cases hsame
  · rw [hnone] at hretired
    cases hretired

theorem trans (h : table.GoesOn node May between) (h' : between.GoesOn node May after) :
    table.GoesOn node May after where
  former die outcome hdie := by
    rcases h.former die outcome hdie with hsame | ⟨hmay, hkept, hretired⟩
    · exact h'.former die outcome hsame
    · -- a die that is out of the count stays so
      rcases h'.former die outcome.retired hretired with hsame | ⟨-, hagain, -⟩
      · exact .inr ⟨hmay, hkept, hsame⟩
      · cases hagain
  added die outcome hle hdie := by
    rcases Nat.lt_or_ge die between.trail.size with hlt | hge
    · have hbetween := Array.getElem?_eq_getElem hlt
      have hterm := h.added die _ hle hbetween
      rcases h'.former die _ hbetween with hsame | ⟨-, -, hretired⟩
      · rw [hsame] at hdie
        cases hdie
        exact hterm
      · rw [hretired] at hdie
        cases hdie
        exact hterm
    · exact h'.added die outcome hge hdie
  visits := h'.visits.trans h.visits

theorem mono (h : table.GoesOn node May after)
    (hmay : ∀ die < table.trail.size, May die → May' die) : table.GoesOn node May' after where
  former die outcome hdie := by
    have hlt : die < table.trail.size := (Array.getElem?_eq_some_iff.mp hdie).1
    exact (h.former die outcome hdie).imp_right fun hretired =>
      ⟨hmay die hlt hretired.1, hretired.2⟩
  added := h.added
  visits := h.visits

theorem retired {die : Nat} (hdie : May die) (table : Table σ) :
    table.GoesOn node May { table with trail := table.trail.modify die Outcome.retired } where
  former other outcome hother := by
    change (table.trail.modify die Outcome.retired)[other]? = _ ∨ _
    rw [Array.getElem?_modify, hother]
    by_cases heq : die = other
    · subst heq
      cases hkept : outcome.kept with
      | true => simp [hdie]
      | false => simp [Outcome.retired, ← hkept]
    · simp [heq]
  added other outcome hle hother := by
    change (table.trail.modify die Outcome.retired)[other]? = _ at hother
    rw [Array.getElem?_eq_none (by rwa [Array.size_modify])] at hother
    cases hother
  visits := rfl

theorem thrown {outcome : Outcome} {source : σ} (hterm : outcome.term = node) (table : Table σ) :
    table.GoesOn node May { table with source := source, trail := table.trail.push outcome } where
  former die former hdie := by
    have hlt : die < table.trail.size := (Array.getElem?_eq_some_iff.mp hdie).1
    left
    change (table.trail.push outcome)[die]? = some former
    rw [Array.getElem?_push_lt hlt, ← hdie, Array.getElem?_eq_getElem hlt]
  added die added hle hdie := by
    rw [← Array.getElem?_toList, Array.toList_push] at hdie
    rcases getElem?_push hdie with hdie | ⟨-, rfl⟩
    · rw [Array.getElem?_toList, Array.getElem?_eq_none hle] at hdie
      cases hdie
    · exact hterm
  visits := rfl

end Table.GoesOn

namespace Roller

section Rules

variable {σ α β : Type} {node size : Nat} {live : List Nat}

/-- From a trail of the given size on, the step retires none but live dice and those that are
thrown meanwhile, even if it fails; what it gives is in order. -/
def Spares (node : Nat) (live : List Nat) (size : Nat) (P : α → Prop) (step : Roller σ α) :
    Prop :=
  ∀ ⦃table : Table σ⦄, size ≤ table.trail.size →
    table.GoesOn node (fun die => die ∈ live ∨ size ≤ die) (tableAfter step table) ∧
      ∀ a after, step table = .ok a after → P a

theorem Spares.any {P : α → Prop} {step : Roller σ α}
    (h : Spares node live size P step) : Spares node live size (fun _ => True) step :=
  fun _ hsize => ⟨(h hsize).1, fun _ _ _ => trivial⟩

/-- A step that leaves the trail alone. -/
theorem Spares.of_trail_eq {P : α → Prop} {step : Roller σ α}
    (htrail : ∀ table, (tableAfter step table).trail = table.trail)
    (hvisits : ∀ table, (tableAfter step table).visits = table.visits)
    (hgives : ∀ table a after, step table = .ok a after → P a) :
    Spares node live size P step :=
  fun table _ => ⟨.of_trail_eq (htrail table) (hvisits table), hgives table⟩

theorem spares_pure {P : α → Prop} {a : α} (ha : P a) :
    Spares node live size P (pure a : Roller σ α) :=
  .of_trail_eq (fun _ => rfl) (fun _ => rfl) fun _ _ _ h => (pure_eq_ok.mp h).1 ▸ ha

theorem spares_throw (P : α → Prop) (error : RollError) :
    Spares node live size P (throw error : Roller σ α) :=
  .of_trail_eq (fun _ => rfl) (fun _ => rfl) nofun

theorem spares_get : Spares node live size (fun _ => True) (get : Roller σ (Table σ)) :=
  .of_trail_eq (fun _ => rfl) (fun _ => rfl) fun _ _ _ _ => trivial

theorem Spares.bind {P : α → Prop} {Q : β → Prop} {first : Roller σ α}
    {next : α → Roller σ β} (h : Spares node live size P first)
    (h' : ∀ a, P a → Spares node live size Q (next a)) :
    Spares node live size Q (first >>= next) := by
  intro table hsize
  obtain ⟨hgoes, hgives⟩ := h hsize
  cases hfirst : first table with
  | ok a between =>
    rw [tableAfter_of_ok hfirst] at hgoes
    obtain ⟨hgoes', hgives'⟩ := h' a (hgives a between hfirst) (Nat.le_trans hsize hgoes.size_le)
    rw [tableAfter, bind_of_ok hfirst]
    exact ⟨hgoes.trans hgoes', hgives'⟩
  | error error between =>
    rw [tableAfter_of_error hfirst] at hgoes
    have hrun := (bind_eq_error (f := next)).mpr (.inl hfirst)
    rw [tableAfter_of_error hrun, hrun]
    exact ⟨hgoes, nofun⟩

theorem Spares.ite {P : α → Prop} {condition : Prop} [Decidable condition]
    {step step' : Roller σ α} (h : Spares node live size P step)
    (h' : Spares node live size P step') :
    Spares node live size P (if condition then step else step') := by
  split
  · exact h
  · exact h'

theorem spares_mapM {P : β → Prop} {f : α → Roller σ β} {as : List α}
    (h : ∀ a ∈ as, Spares node live size P (f a)) :
    Spares node live size (fun bs => ∀ b ∈ bs, P b) (as.mapM f) := by
  induction as with
  | nil => exact spares_pure nofun
  | cons a as ih =>
    rw [List.mapM_cons]
    refine (h a (.head as)).bind fun b hb => ?_
    refine (ih fun other hother => h other (.tail a hother)).bind fun bs hbs => ?_
    exact spares_pure (List.forall_mem_cons.mpr ⟨hb, hbs⟩)

theorem spares_forM {f : α → Roller σ PUnit} {as : List α}
    (h : ∀ a ∈ as, Spares node live size (fun _ => True) (f a)) :
    Spares node live size (fun _ => True) (as.forM f) := by
  induction as with
  | nil => exact spares_pure trivial
  | cons a as ih =>
    refine (h a (.head as)).bind fun _ _ => ?_
    exact ih fun other hother => h other (.tail a hother)

end Rules

section Steps

variable {σ : Type} {limits : Limits} {node size : Nat} {live : List Nat} {die : Nat}

theorem spares_remark (said : Remark) :
    Spares node live size (fun _ => True) (remark said : Roller σ Unit) :=
  .of_trail_eq (fun _ => rfl) (fun _ => rfl) fun _ _ _ _ => trivial

theorem spares_checkTime :
    Spares node live size (fun _ => True) (checkTime limits : Roller σ Unit) := by
  unfold checkTime
  cases limits.time with
  | none => exact spares_pure trivial
  | some budget =>
    refine spares_get.bind fun table _ => ?_
    refine Spares.bind (P := fun _ => True) ?_ fun _ _ => ?_
    · exact .of_trail_eq (fun _ => rfl) (fun _ => rfl) fun _ _ _ _ => trivial
    · exact (spares_throw _ _).ite (spares_pure trivial)

theorem spares_faceOf : Spares node live size (fun _ => True) (faceOf die : Roller σ UInt32) := by
  refine spares_get.bind fun table _ => ?_
  dsimp only
  cases table.trail[die]? with
  | some outcome => exact spares_pure trivial
  | none => exact spares_throw _ _

theorem spares_retire (hdie : die ∈ live ∨ size ≤ die) :
    Spares node live size (fun _ => True) (retire die : Roller σ Unit) := by
  intro table _
  refine ⟨?_, fun _ _ _ => trivial⟩
  have happly := retire_apply die table
  split at happly
  · rw [tableAfter_of_ok happly]
    exact .retired hdie table
  · rw [tableAfter_of_error happly]
    exact .refl table

theorem spares_checkAmount (term : DiceTerm) (amount : UInt32) :
    Spares node live size (fun _ => True) (checkAmount term amount : Roller σ Unit) :=
  (spares_throw _ _).ite (spares_pure trivial)

variable [FaceSource σ]

theorem spares_layDie (sides : UInt32) (cause : Cause) :
    Spares node live size (fun new => size ≤ new) (layDie node sides cause : Roller σ Nat) := by
  intro table hsize
  refine ⟨?_, fun new after h => (layDie_eq_ok h).1 ▸ hsize⟩
  rcases hface : FaceSource.answer sides table.source with ⟨error | face, source⟩
  · rw [tableAfter_of_error (layDie_of_refused hface node cause)]
    exact .of_trail_eq rfl rfl
  · rw [tableAfter_of_ok (layDie_of_next (FaceSource.next_eq_ok_iff.mpr hface) node cause)]
    exact .thrown (by cases cause <;> rfl) table

/-- A die that is thrown lies behind those that were there. -/
theorem spares_throwDie (sides : UInt32) (cause : Cause) :
    Spares node live size (fun new => size ≤ new)
      (throwDie limits node sides cause : Roller σ Nat) := by
  refine spares_get.bind fun table _ => ?_
  have hlay : Spares node live size (fun new => size ≤ new)
      (do checkTime limits; layDie node sides cause : Roller σ Nat) :=
    spares_checkTime.bind fun _ _ => spares_layDie sides cause
  exact ((spares_throw (fun _ => True) _).bind fun _ _ => hlay).ite hlay

end Steps

section Modifiers

variable {σ : Type} {limits : Limits} {node size : Nat} {live : List Nat} {term : DiceTerm}

theorem spares_ranked (rank : Rank) {dice : List Nat} (hdice : ∀ die ∈ dice, die ∈ live) :
    Spares node live size (fun ranking => ∀ die ∈ ranking, die ∈ live)
      (ranked rank dice : Roller σ (List Nat)) := by
  refine Spares.bind (spares_mapM (P := fun face => face.1 ∈ live) ?_) fun faces hfaces => ?_
  · intro die hdie
    exact spares_faceOf.bind fun _ _ => spares_pure (hdice die (List.mem_mergeSort.mp hdie))
  · refine spares_pure fun die hdie => ?_
    obtain ⟨face, hface, rfl⟩ := List.mem_map.mp hdie
    exact hfaces face (List.mem_mergeSort.mp hface)

theorem spares_dropDice {dropped : List Nat} (hdropped : ∀ die ∈ dropped, die ∈ live) :
    Spares node live size (fun _ => True) (dropDice live dropped : Roller σ (List Nat)) := by
  refine (spares_forM fun die hdie => ?_).bind fun _ _ => spares_pure trivial
  exact spares_retire (.inl (hdropped die hdie))

/-- Dropping a part of the ranking, as keeping and dropping both do. -/
theorem spares_dropRanked (rank : Rank) (amount : UInt32) {pick : List Nat → List Nat}
    (hpick : ∀ ranking, pick ranking ⊆ ranking) :
    Spares node live size (fun _ => True)
      (do
        checkAmount term amount
        let ranking ← ranked rank live
        dropDice live (pick ranking) : Roller σ (List Nat)) := by
  refine (spares_checkAmount term amount).bind fun _ _ => ?_
  refine (spares_ranked rank fun _ => id).bind fun ranking hranking => ?_
  exact spares_dropDice fun die hdie => hranking die (hpick ranking hdie)

/-- A modifier that no face can meet is skipped with a remark. -/
theorem spares_skipped (said : Remark) :
    Spares node live size (fun _ => True)
      (do remark said; return live : Roller σ (List Nat)) :=
  (spares_remark said).bind fun _ _ => spares_pure trivial

variable [FaceSource σ] {condition : Condition}

theorem spares_replaceDie {die : Nat} (hdie : die ∈ live ∨ size ≤ die) :
    Spares node live size (fun new => size ≤ new)
      (replaceDie limits node term die : Roller σ Nat) :=
  (spares_retire hdie).bind fun _ _ => spares_throwDie term.sides (.reroll die)

theorem spares_rerollDie (once : Bool) (depth : Nat) {die : Nat} (hdie : die ∈ live ∨ size ≤ die) :
    Spares node live size (fun _ => True)
      (rerollDie limits node term condition once depth die : Roller σ Nat) := by
  have hstays (die : Nat) : Spares node live size (fun _ => True) (pure die : Roller σ Nat) :=
    spares_pure trivial
  induction depth generalizing die with
  | zero =>
    refine spares_faceOf.bind fun face _ => Spares.ite ?_ (hstays die)
    exact (hstays die).ite (spares_throw _ _)
  | succ depth ih =>
    refine spares_faceOf.bind fun face _ => Spares.ite ?_ (hstays die)
    exact (spares_replaceDie hdie).bind fun new hnew => ih (.inr hnew)

theorem spares_explodeDie (depth die : Nat) :
    Spares node live size (fun _ => True)
      (explodeDie limits node term condition depth die : Roller σ (List Nat)) := by
  induction depth generalizing die with
  | zero => exact spares_faceOf.bind fun face _ => (spares_throw _ _).ite (spares_pure trivial)
  | succ depth ih =>
    refine spares_faceOf.bind fun face _ => Spares.ite ?_ (spares_pure trivial)
    refine (spares_throwDie term.sides (.explosion die)).bind fun new _ => ?_
    exact (ih new).bind fun added _ => spares_pure trivial

theorem spares_applyExplode :
    Spares node live size (fun _ => True)
      (applyExplode limits node term condition live : Roller σ (List Nat)) := by
  refine Spares.ite ?_ (spares_skipped _)
  refine Spares.bind (spares_mapM (P := fun _ => True) fun die _ => ?_) fun _ _ =>
    spares_pure trivial
  exact spares_explodeDie limits.rerollDepth die

/-- Every modifier retires none but live dice and those that it throws itself. -/
theorem spares_applyModifier (modifier : Modifier) :
    Spares node live size (fun _ => True)
      (applyModifier limits node term live modifier : Roller σ (List Nat)) := by
  cases modifier with
  | keep rank amount =>
    exact spares_dropRanked rank amount fun ranking => List.drop_subset amount.toNat ranking
  | drop rank amount =>
    exact spares_dropRanked rank amount fun ranking => List.take_subset amount.toNat ranking
  | reroll condition =>
    refine Spares.ite (spares_mapM (P := fun _ => True) fun die hdie => ?_).any (spares_skipped _)
    exact spares_rerollDie _ _ (.inl hdie)
  | rerollOnce condition =>
    refine Spares.ite (spares_mapM (P := fun _ => True) fun die hdie => ?_).any (spares_skipped _)
    exact spares_rerollDie _ _ (.inl hdie)
  | explode condition => exact spares_applyExplode

theorem applyModifier_goesOn (modifier : Modifier) (table : Table σ) :
    table.GoesOn node (· ∈ live)
      (tableAfter (applyModifier limits node term live modifier) table) := by
  obtain ⟨hgoes, -⟩ := spares_applyModifier modifier (Nat.le_refl table.trail.size)
  exact hgoes.mono fun die hlt hmay => hmay.resolve_right (Nat.not_le.mpr hlt)

end Modifiers

end Roller

namespace Underway

variable {σ : Type} [FaceSource σ] {limits : Limits} {node : Nat} {term : DiceTerm}
  {start table : Table σ} {live : List Nat}

theorem start_le_size (h : Underway limits node term start table live) :
    start.trail.size ≤ table.trail.size := by
  obtain ⟨-, -, -, hle, -⟩ := h.exists_block
  exact hle

theorem mem_live_iff (h : Underway limits node term start table live) (die : Nat) :
    die ∈ live ↔ start.trail.size ≤ die ∧
      ∃ outcome, table.trail[die]? = some outcome ∧ outcome.kept = true := by
  obtain ⟨block, -, hlive, -, htrail⟩ := h.exists_block
  rw [hlive.mem_iff]
  constructor
  · rintro ⟨j, outcome, rfl, hj, hkept⟩
    exact ⟨Nat.le_add_right _ _, outcome, (htrail j).trans hj, hkept⟩
  · rintro ⟨hle, outcome, hdie, hkept⟩
    obtain ⟨j, rfl⟩ := Nat.exists_eq_add_of_le hle
    exact ⟨j, outcome, rfl, (htrail j).symm.trans hdie, hkept⟩

theorem term_eq (h : Underway limits node term start table live) {die : Nat} {outcome : Outcome}
    (hle : start.trail.size ≤ die) (hdie : table.trail[die]? = some outcome) :
    outcome.term = node := by
  obtain ⟨block, hchained, -, -, htrail⟩ := h.exists_block
  obtain ⟨j, rfl⟩ := Nat.exists_eq_add_of_le hle
  exact (hchained.placed j outcome ((htrail j).symm.trans hdie)).term_eq

/-- Between two modifiers of a term, its live dice are those that count on the trail from its start
on, each once, and all dice there belong to the term. The modifier that comes next, whether it goes
through or fails, changes no die but that it takes live dice out of the count, and only adds dice of
the term behind the others. None of the dice before the start changes. -/
theorem live_dice (h : Underway limits node term start table live) :
    live.Nodup ∧
    (∀ die, die ∈ live ↔ start.trail.size ≤ die ∧
      ∃ outcome, table.trail[die]? = some outcome ∧ outcome.kept = true) ∧
    (∀ die outcome, start.trail.size ≤ die → table.trail[die]? = some outcome →
      outcome.term = node) ∧
    ∀ modifier,
      let after := Roller.tableAfter (Roller.applyModifier limits node term live modifier) table
      table.GoesOn node (· ∈ live) after ∧
        ∀ die < start.trail.size, after.trail[die]? = table.trail[die]? := by
  refine ⟨h.nodup, h.mem_live_iff, fun die outcome => h.term_eq, fun modifier => ?_⟩
  have hgoes : table.GoesOn node (· ∈ live)
      (Roller.tableAfter (Roller.applyModifier limits node term live modifier) table) :=
    Roller.applyModifier_goesOn modifier table
  refine ⟨hgoes, fun die hdie => ?_⟩
  have hthere := Array.getElem?_eq_getElem (Nat.lt_of_lt_of_le hdie h.start_le_size)
  rcases hgoes.former die _ hthere with hsame | ⟨hlive, -⟩
  · exact hsame.trans hthere.symm
  · exact absurd ((h.mem_live_iff die).mp hlive).1 (Nat.not_le.mpr hdie)

/-- Behind a die of another term, the first of three dice has been rerolled. Exploding them then
exceeds the budget, with one more die on the trail. -/
theorem live_dice_of_failed_explosion :
    ∃ start table after : Table Script,
      Underway { dice := 6 } 2 ⟨3, 6, [.reroll none]⟩ start table [4, 2, 3] ∧
      start.trail.size = 1 ∧ table.trail.size = 5 ∧
      (∀ die, die ∈ [4, 2, 3] ↔
        1 ≤ die ∧ ∃ outcome, table.trail[die]? = some outcome ∧ outcome.kept = true) ∧
      Roller.applyModifier { dice := 6 } 2 ⟨3, 6, [.reroll none]⟩ [4, 2, 3] (.explode none) table =
        .error (.tooManyDice 6) after ∧
      after.trail.size = 6 ∧ table.GoesOn 2 (· ∈ [4, 2, 3]) after ∧
      after.trail[0]? = table.trail[0]? := by
  have h : Underway { dice := 6 } 2 ⟨3, 6, [.reroll none]⟩
      ⟨Script.ofList [1, 5, 6, 6, 6], #[⟨1, 6, 4, true, none, none⟩], 3, ∅, 0, #[]⟩
      ⟨⟨#[1, 5, 6, 6, 6], 4⟩, #[⟨1, 6, 4, true, none, none⟩, ⟨2, 6, 1, false, none, none⟩,
        ⟨2, 6, 5, true, none, none⟩, ⟨2, 6, 6, true, none, none⟩, ⟨2, 6, 6, true, some 1, none⟩],
        3, ∅, 0, #[]⟩ [4, 2, 3] :=
    ⟨[.reroll none], by decide +kernel⟩
  obtain ⟨-, hlive, -, hmodifier⟩ := h.live_dice
  obtain ⟨hgoes, hbefore⟩ := hmodifier (.explode none)
  refine ⟨_, _, _, h, rfl, rfl, hlive, by decide +kernel, ?_, hgoes, hbefore 0 (by decide)⟩
  decide +kernel

end Underway

end DiceNotation

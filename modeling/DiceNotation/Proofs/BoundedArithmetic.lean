import Mathlib.Data.List.Induction
import DiceNotation.Faces.Script
import DiceNotation.Proofs.Reckoning

/-!
# Bounded arithmetic against exact arithmetic

An evaluation does what a reckoning does for as long as the values fit into 64 bits and nothing is
divided by zero. Dice are thrown the same way whatever values are entered meanwhile, so the two part
at the first value that does not do.
-/
namespace DiceNotation

/-- What the table holds apart from the values entered and the remarks. -/
def Table.play {σ : Type} (table : Table σ) : σ × Trail × Nat × Nat :=
  (table.source, table.trail, table.nodes, table.readings)

theorem Table.source_eq_of_play {σ : Type} {table table' : Table σ} (h : table.play = table'.play) :
    table.source = table'.source := congrArg (fun play => play.1) h

theorem Table.trail_eq_of_play {σ : Type} {table table' : Table σ} (h : table.play = table'.play) :
    table.trail = table'.trail := congrArg (fun play => play.2.1) h

namespace Roller

section Regardless

variable {σ α β : Type} {limits : Limits}

/-- The results are the same but for the values entered and the remarks. -/
inductive SamePlay (image : α → β) :
    EStateM.Result RollError (Table σ) α → EStateM.Result RollError (Table σ) β → Prop
  | ok {after after' : Table σ} (a : α) (play : after.play = after'.play) :
      SamePlay image (.ok a after) (.ok (image a) after')
  | error {after after' : Table σ} (error : RollError) (play : after.play = after'.play) :
      SamePlay image (.error error after) (.error error after')

/-- The steps go alike whatever values are entered before and whatever is remarked on. -/
def Regardless (image : α → β) (step : Roller σ α) (step' : Roller σ β) : Prop :=
  ∀ ⦃table table'⦄, table.play = table'.play → SamePlay image (step table) (step' table')

theorem bind_regardless {γ δ : Type} {image : α → β} {image' : γ → δ} {step : Roller σ α}
    {step' : Roller σ β} {next : α → Roller σ γ} {next' : β → Roller σ δ}
    (hstep : Regardless image step step')
    (hnext : ∀ a, Regardless image' (next a) (next' (image a))) :
    Regardless image' (step >>= next) (step' >>= next') := by
  intro table table' hplay
  have hfirst := hstep hplay
  simp only [bind, EStateM.bind]
  generalize step table = result, step' table' = result' at hfirst ⊢
  cases hfirst with
  | ok a hplay => exact hnext a hplay
  | error error hplay => exact .error error hplay

theorem checkTime_regardless : Regardless (σ := σ) id (checkTime limits) (checkTime limits) := by
  rintro ⟨source, trail, nodes, subTotals, readings, remarks⟩ table' hplay
  cases hplay
  rw [checkTime_apply, checkTime_apply]
  cases limits.time with
  | none => exact .ok () rfl
  | some budget =>
    dsimp only
    by_cases hlate : budget.allowed.nanoseconds ≤ (budget.elapsed table'.readings).nanoseconds
    · rw [if_pos hlate, if_pos hlate]
      exact .error _ rfl
    · rw [if_neg hlate, if_neg hlate]
      exact .ok () rfl

theorem faceOf_regardless (die : Nat) :
    Regardless (σ := σ) id (faceOf die) (faceOf die) := by
  rintro ⟨source, trail, nodes, subTotals, readings, remarks⟩ table' hplay
  cases hplay
  rw [faceOf_apply, faceOf_apply]
  cases table'.trail[die]? with
  | none => exact .error _ rfl
  | some outcome => exact .ok outcome.value rfl

theorem retire_regardless (die : Nat) :
    Regardless (σ := σ) id (retire die) (retire die) := by
  rintro ⟨source, trail, nodes, subTotals, readings, remarks⟩ table' hplay
  cases hplay
  rw [retire_apply, retire_apply]
  by_cases hdie : die < table'.trail.size
  · rw [if_pos hdie, if_pos hdie]
    exact .ok () rfl
  · rw [if_neg hdie, if_neg hdie]
    exact .error _ rfl

variable [FaceSource σ]

theorem layDie_regardless (node : Nat) (sides : UInt32) (cause : Cause) :
    Regardless (σ := σ) id (layDie node sides cause) (layDie node sides cause) := by
  rintro ⟨source, trail, nodes, subTotals, readings, remarks⟩ table' hplay
  cases hplay
  unfold layDie
  dsimp only
  rcases FaceSource.answer sides table'.source with ⟨error | face, source⟩
  · exact .error error rfl
  · exact .ok _ rfl

theorem throwDie_regardless (node : Nat) (sides : UInt32) (cause : Cause) :
    Regardless (σ := σ) id (throwDie limits node sides cause)
      (throwDie limits node sides cause) := by
  have hthrow : Regardless (σ := σ) id (checkTime limits >>= fun _ => layDie node sides cause)
      (checkTime limits >>= fun _ => layDie node sides cause) :=
    bind_regardless checkTime_regardless fun _ => layDie_regardless node sides cause
  intro table table' hplay
  rw [throwDie_apply, throwDie_apply, Table.trail_eq_of_play hplay]
  by_cases hfull : limits.dice ≤ table'.trail.size
  · rw [if_pos hfull, if_pos hfull]
    exact .error _ hplay
  · rw [if_neg hfull, if_neg hfull]
    exact hthrow hplay

def regardless (limits : Limits) : Coupling σ σ limits limits where
  nodes := 0
  dice := 0
  Alike := Regardless
  pure a := fun _ _ hplay => .ok a hplay
  throw error := fun _ _ hplay => .error error hplay
  bind := bind_regardless
  visit := by
    refine bind_regardless checkTime_regardless fun _ => ?_
    rintro ⟨source, trail, nodes, subTotals, readings, remarks⟩ table' hplay
    cases hplay
    exact .ok _ rfl
  enter node value := fun _ _ hplay => .ok value hplay
  remark said := fun _ _ hplay => .ok () hplay
  nextPlace := by
    rintro ⟨source, trail, nodes, subTotals, readings, remarks⟩ table' hplay
    cases hplay
    exact .ok _ rfl
  throwDie node sides cause := by
    rw [Cause.further_zero]
    exact throwDie_regardless node sides cause
  faceOf := faceOf_regardless
  retire := retire_regardless
  depthLe := .refl _
  endless longer := absurd longer (Nat.lt_irrefl _)
  rollLarge node term large := by
    intro table table' hplay
    rw [rollTerm_of_large (or_self_iff.mp large), rollTerm_of_large (or_self_iff.mp large)]
    exact .error _ hplay

end Regardless

end Roller

namespace ExactValue

theorem fits_toInt (value : Int64) : Fits ⟨value.toInt, false⟩ := by
  have hlow := value.le_toInt
  have hhigh := value.toInt_lt
  refine ⟨rfl, ?_, ?_⟩
  · dsimp only
    omega
  · dsimp only
    omega

theorem not_fits_of_narrow? {value : Int} (h : narrow? value = none) : ¬Fits ⟨value, false⟩ := by
  rintro ⟨-, hlow, hhigh⟩
  have houtside := narrow?_eq_none_iff.mp h
  rw [Int64.toInt_minValue, Int64.toInt_maxValue] at houtside
  dsimp only at hlow hhigh
  omega

/-- The result of an operation that is checked, as the exact value calls for it. -/
def CallsFor (exact : ExactValue) : Except RollError Int64 → Prop
  | .ok value => exact = ⟨value.toInt, false⟩
  | .error error => ¬exact.Fits ∧ error.kind = exact.offence

theorem callsFor_narrow {error : RollError} (hkind : error.kind = .arithmeticOverflow)
    (value : Int) :
    CallsFor ⟨value, false⟩
      (match narrow? value with
      | none => .error error
      | some value => .ok value) := by
  cases hnarrow : narrow? value with
  | none => exact ⟨not_fits_of_narrow? hnarrow, hkind⟩
  | some result =>
    rw [← narrow?_eq_some_iff.mp hnarrow]
    rfl

theorem callsFor_negated (value : Int64) : CallsFor ⟨-value.toInt, false⟩ (negated value) :=
  callsFor_narrow rfl _

theorem callsFor_apply (operator : Operator) (left right : Int64) :
    (operator.onIntegers left.toInt right.toInt).CallsFor (operator.apply left right) := by
  cases operator with
  | add | sub | mul => exact callsFor_narrow rfl _
  | div =>
    unfold Operator.apply Operator.onIntegers Operator.exact?
    by_cases hzero : right.toInt = 0
    · simp [hzero, CallsFor, Fits, offence, RollError.kind]
    · simp only [hzero, if_false, decide_false]
      exact callsFor_narrow rfl _

end ExactValue

/-- The first elements that lack a property, each behind elements that have it, are the same. -/
theorem eq_of_prefix_concat {α : Type} {P : α → Prop} {former others : List α} {a b : α}
    (h : former ++ [a] <+: others ++ [b]) (hothers : ∀ x ∈ others, P x) (ha : ¬P a) :
    former = others ∧ a = b := by
  rcases List.prefix_concat_iff.mp h with heq | hearlier
  · obtain ⟨hformer, hlast⟩ := List.append_inj' heq rfl
    exact ⟨hformer, List.singleton_inj.mp hlast⟩
  · exact absurd (hothers a (hearlier.subset (by simp))) ha

section Follows

variable {σ α β γ δ : Type}

/-- The values of the nodes that are recorded, as they are entered one after the other. -/
def Ledger.tally (ledger : Ledger σ) : SubTotals :=
  ledger.entries.foldl
    (fun subTotals entry => subTotals.insert entry.node (.ofInt entry.exact.value)) ∅

/-- The table of an evaluation and a ledger on which both agree. -/
structure Ledger.Tallies (ledger : Ledger σ) (table : Table σ) : Prop where
  play : table.play = ledger.table.play
  fits : ∀ entry ∈ ledger.entries, entry.exact.Fits
  subTotals : table.subTotals = ledger.tally

namespace Reckoner

/-- How an evaluation goes beside a reckoning. -/
inductive Agrees (image : α → β) :
    EStateM.Result RollError (Table σ) α → EStateM.Result RollError (Ledger σ) β → Prop
  | ok {table : Table σ} {ledger : Ledger σ} (a : α) (tallies : ledger.Tallies table) :
      Agrees image (.ok a table) (.ok (image a) ledger)
  /-- Both fail, and not because of a value. -/
  | error {table : Table σ} {ledger : Ledger σ} (error : RollError)
      (fits : ∀ entry ∈ ledger.entries, entry.exact.Fits) (play : table.play = ledger.table.play) :
      Agrees image (.error error table) (.error error ledger)
  /-- The evaluation fails at the first value that does not fit. -/
  | offended {table : Table σ} {result : EStateM.Result RollError (Ledger σ) β} {error : RollError}
      {former : List (Reckoned σ)} {entry : Reckoned σ}
      (recorded : former ++ [entry] <+: (ledgerOf result).entries)
      (fits : ∀ entry ∈ former, entry.exact.Fits) (offends : ¬entry.exact.Fits)
      (kind : error.kind = entry.exact.offence) (source : table.source = entry.source)
      (trail : table.trail = entry.trail) : Agrees image (.error error table) result

namespace Agrees

variable {image : α → β} {result : EStateM.Result RollError (Table σ) α}
  {reckoned : EStateM.Result RollError (Ledger σ) β}

theorem exists_ok_iff {b : β} {ledger : Ledger σ} (h : Agrees image result (.ok b ledger)) :
    (∃ a table, result = .ok a table) ↔ ∀ entry ∈ ledger.entries, entry.exact.Fits := by
  cases h with
  | ok a htallies => exact ⟨fun _ => htallies.fits, fun _ => ⟨a, _, rfl⟩⟩
  | @offended _ _ _ _ entry hrecorded _ hoffends =>
    constructor
    · rintro ⟨a, table, hok⟩
      cases hok
    · intro hfits
      exact absurd (hfits entry (hrecorded.subset (by simp))) hoffends

theorem tallies {b : β} {ledger : Ledger σ} (h : Agrees image result (.ok b ledger)) {a : α}
    {table : Table σ} (hok : result = .ok a table) : image a = b ∧ ledger.Tallies table := by
  cases h with
  | ok a htallies =>
    cases hok
    exact ⟨rfl, htallies⟩
  | offended => cases hok

theorem exists_error {error : RollError} {ledger : Ledger σ}
    (h : Agrees image result (.error error ledger))
    (hfits : ∀ entry ∈ ledger.entries, entry.exact.Fits) :
    ∃ table, result = .error error table ∧ table.play = ledger.table.play := by
  cases h with
  | error _ _ hplay => exact ⟨_, rfl, hplay⟩
  | @offended _ _ _ _ entry hrecorded _ hoffends =>
    exact absurd (hfits entry (hrecorded.subset (by simp))) hoffends

/-- The evaluation fails at the first value that does not fit, whatever the reckoning does later. -/
theorem exists_offence (h : Agrees image result reckoned) {former later : List (Reckoned σ)}
    {entry : Reckoned σ} (hentries : (ledgerOf reckoned).entries = former ++ entry :: later)
    (hformer : ∀ earlier ∈ former, earlier.exact.Fits) (hentry : ¬entry.exact.Fits) :
    ∃ error table, result = .error error table ∧ error.kind = entry.exact.offence ∧
      table.source = entry.source ∧ table.trail = entry.trail := by
  have hmem : entry ∈ (ledgerOf reckoned).entries := by simp [hentries]
  cases h with
  | ok a htallies => exact absurd (htallies.fits entry hmem) hentry
  | error error hfits hplay => exact absurd (hfits entry hmem) hentry
  | @offended table result error former' entry' hrecorded hfits hoffends hkind hsource htrail =>
    have hfirst : former ++ [entry] <+: (ledgerOf reckoned).entries :=
      ⟨later, by simp [hentries]⟩
    have hsame : entry' = entry := by
      rcases List.prefix_or_prefix_of_prefix hrecorded hfirst with h | h
      · exact (eq_of_prefix_concat h hformer hoffends).2
      · exact (eq_of_prefix_concat h hfits hentry).2.symm
    subst hsame
    exact ⟨error, table, rfl, hkind, hsource, htrail⟩

end Agrees

/-- Where both agree, the evaluation goes on as the reckoning does. -/
def Follows (image : α → β) (step : Roller σ α) (step' : Reckoner σ β) : Prop :=
  ∀ ⦃table ledger⦄, ledger.Tallies table → Agrees image (step table) (step' ledger)

theorem bind_follows {image : α → β} {image' : γ → δ} {step : Roller σ α} {step' : Reckoner σ β}
    {next : α → Roller σ γ} {next' : β → Reckoner σ δ} (hstep : Follows image step step')
    (hnext : ∀ a, Follows image' (next a) (next' (image a))) (hgrows : ∀ b, Grows (next' b)) :
    Follows image' (step >>= next) (step' >>= next') := by
  intro table ledger htallies
  have hfirst := hstep htallies
  simp only [bind, EStateM.bind]
  generalize step table = result, step' ledger = result' at hfirst ⊢
  cases hfirst with
  | ok a htallies => exact hnext a htallies
  | error error hfits hplay => exact .error error hfits hplay
  | offended hrecorded hfits hoffends hkind hsource htrail =>
    -- the reckoning goes on, but what is recorded stays
    cases result' with
    | ok b between =>
      have hmore := hrecorded.trans (hgrows b between)
      exact .offended hmore hfits hoffends hkind hsource htrail
    | error other ledger => exact .offended hrecorded hfits hoffends hkind hsource htrail

theorem atTable_follows {step : Roller σ α} (hstep : Roller.Regardless id step step)
    (henters : ∀ ⦃table after a⦄, step table = .ok a after → after.subTotals = table.subTotals) :
    Follows id step (atTable step) := by
  intro table ledger htallies
  have hplay := hstep htallies.play
  unfold atTable
  generalize hresult : step table = result, step ledger.table = result' at hplay ⊢
  cases hplay with
  | ok a hplay => exact .ok a ⟨hplay, htallies.fits, (henters hresult).trans htallies.subTotals⟩
  | error error hplay => exact .error error htallies.fits hplay

theorem enter_follows (node : Nat) (expression : Expression) (value : Int64) :
    Follows Int64.toInt (Roller.enter (σ := σ) node value)
      (record node expression ⟨value.toInt, false⟩) := by
  intro table ledger htallies
  refine .ok value ⟨htallies.play, ?_, ?_⟩
  · exact List.forall_mem_append.mpr
      ⟨htallies.fits, List.forall_mem_singleton.mpr (ExactValue.fits_toInt value)⟩
  · change table.subTotals.insert node value = _
    rw [htallies.subTotals, Ledger.tally, Ledger.tally, Ledger.recorded, List.foldl_append]
    simp

theorem throw_follows (node : Nat) (expression : Expression) {exact : ExactValue}
    {error : RollError} (hfits : ¬exact.Fits) (hkind : error.kind = exact.offence) :
    Follows Int64.toInt (throw error : Roller σ Int64) (record node expression exact) := by
  intro table ledger htallies
  exact .offended List.prefix_rfl htallies.fits hfits hkind
    (Table.source_eq_of_play htallies.play) (Table.trail_eq_of_play htallies.play)

theorem settle_follows (node : Nat) (expression : Expression) {exact : ExactValue}
    {result : Except RollError Int64} (h : exact.CallsFor result) :
    Follows Int64.toInt (Roller.settle result >>= fun value => Roller.enter (σ := σ) node value)
      (record node expression exact) := by
  cases result with
  | ok value =>
    obtain rfl := h
    exact enter_follows node expression value
  | error error => exact throw_follows node expression h.1 h.2

theorem addUp_follows (node : Nat) (term : DiceTerm) (faces : List UInt32) :
    Follows Int64.toInt
      (Roller.addUp node term faces >>= fun value => Roller.enter (σ := σ) node value)
      (record node (.dice term) ⟨totalOf faces, false⟩) := by
  unfold Roller.addUp
  cases hnarrow : narrow? (totalOf faces) with
  | none => exact throw_follows node _ (ExactValue.not_fits_of_narrow? hnarrow) rfl
  | some value =>
    intro table ledger htallies
    rw [← narrow?_eq_some_iff.mp hnarrow]
    have hremarked (said : Remark) :
        ledger.Tallies { table with remarks := table.remarks.push said } :=
      ⟨htallies.play, htallies.fits, htallies.subTotals⟩
    exact enter_follows node _ value (hremarked _)

variable [FaceSource σ]

theorem rollNodes_follows (limits : Limits) (expression : Expression) :
    Follows (σ := σ) Int64.toInt (Roller.rollNodes limits expression)
      (reckonNodes limits expression) := by
  have hvisit : Follows (σ := σ) id (Roller.visit limits) (atTable (Roller.visit limits)) := by
    refine atTable_follows (Roller.regardless limits).visit fun table after node h => ?_
    obtain ⟨rfl, readings, rfl⟩ := Roller.visit_eq_ok h
    rfl
  have hgrows := grows_reckonNodes (σ := σ) limits
  induction expression with
  | literal value =>
    refine bind_follows hvisit (fun node => ?_) fun node => grows_record node _ _
    exact enter_follows node _ value
  | dice term =>
    have hfaces (node : Nat) : Follows (σ := σ) id (Roller.rollFaces limits node term)
        (atTable (Roller.rollFaces limits node term)) := by
      refine atTable_follows ((Roller.regardless limits).rollFaces node term) ?_
      exact fun table after faces h => congrArg Prod.snd (Roller.rollFaces_block h).1
    refine bind_follows hvisit (fun node => ?_) fun node => (grows_atTable _).recorded node _ _
    rw [Roller.rollTerm_eq, bind_assoc]
    exact bind_follows (hfaces node) (addUp_follows node term) fun faces => grows_record node _ _
  | binary operator left right ihLeft ihRight =>
    refine bind_follows hvisit (fun node => ?_) fun node =>
      (hgrows left).bind fun _ => (hgrows right).recorded node _ _
    refine bind_follows ihLeft (fun leftValue => ?_) fun _ => (hgrows right).recorded node _ _
    refine bind_follows ihRight (fun rightValue => ?_) fun _ => grows_record node _ _
    exact settle_follows node _ (ExactValue.callsFor_apply operator leftValue rightValue)
  | group inner ih =>
    refine bind_follows hvisit (fun node => ?_) fun node => (hgrows inner).recorded node _ _
    exact bind_follows ih (enter_follows node _) fun _ => grows_record node _ _
  | negate inner ih =>
    refine bind_follows hvisit (fun node => ?_) fun node => (hgrows inner).recorded node _ _
    refine bind_follows ih (fun value => ?_) fun _ => grows_record node _ _
    exact settle_follows node _ (ExactValue.callsFor_negated value)

theorem rollExpression_follows (limits : Limits) (expression : Expression) :
    Follows (σ := σ) (fun evaluation => evaluation.total.toInt)
      (Roller.rollExpression limits expression) (reckonExpression limits expression) := by
  unfold Roller.rollExpression reckonExpression
  by_cases hnodes : limits.nodes < expression.nodeCount
  · rw [if_pos hnodes, if_pos hnodes]
    intro table ledger htallies
    exact .error _ htallies.fits htallies.play
  · rw [if_neg hnodes, if_neg hnodes, ← bind_pure (reckonNodes limits expression)]
    refine bind_follows (rollNodes_follows limits expression) (fun total => ?_) ?_
    · exact fun table ledger htallies => .ok _ htallies
    · exact fun _ _ => List.prefix_rfl

end Reckoner

end Follows

namespace Ledger

variable {σ : Type} {ledger : Ledger σ}

theorem get?_tally (hnodes : (ledger.entries.map Reckoned.node).Nodup) {entry : Reckoned σ}
    (hentry : entry ∈ ledger.entries) :
    ledger.tally.get? entry.node = some (.ofInt entry.exact.value) := by
  unfold tally
  generalize ledger.entries = entries at hnodes hentry
  induction entries using List.reverseRecOn with
  | nil => cases hentry
  | append_singleton former last ih =>
    rw [List.map_append, List.nodup_append] at hnodes
    rw [List.foldl_append, List.foldl_cons, List.foldl_nil]
    rcases List.mem_append.mp hentry with hformer | hlast
    · have hne : entry.node ≠ last.node :=
        hnodes.2.2 _ (List.mem_map_of_mem hformer) _ (by simp)
      rw [SubTotals.get?_insert_of_ne _ _ hne]
      exact ih hnodes.1 hformer
    · obtain rfl := List.mem_singleton.mp hlast
      exact SubTotals.get?_insert_self _ _ _

end Ledger

namespace Expression

variable {σ : Type} [FaceSource σ] {limits : Limits} {expression : Expression} {source : σ}

theorem rollAt_eq_ok {evaluation : Evaluation} {table : Table σ}
    (h : expression.rollAt limits source = .ok evaluation table) :
    evaluation.trail = table.trail ∧ evaluation.subTotals = table.subTotals := by
  unfold rollAt Roller.rollExpression at h
  obtain ⟨-, h⟩ := Roller.guard_bind_eq_ok.mp h
  obtain ⟨total, rolled, -, h⟩ := Roller.bind_eq_ok.mp h
  cases h
  exact ⟨rfl, rfl⟩

theorem nodup_postorder (node : Nat) (expression : Expression) :
    ((expression.postorder node).map Prod.fst).Nodup := by
  rw [((expression.postorder_perm node).map Prod.fst).nodup_iff, map_fst_numbered]
  exact List.nodup_range'

theorem rollAt_agrees (limits : Limits) (expression : Expression) (source : σ) :
    Reckoner.Agrees (fun evaluation => evaluation.total.toInt)
      (expression.rollAt limits source) (expression.reckon limits source) :=
  Reckoner.rollExpression_follows limits expression ⟨rfl, nofun, rfl⟩

omit [FaceSource σ] in
theorem exists_subTotal {ledger : Ledger σ} (hlisted : ledger.listed = expression.postorder 0)
    (hfits : ∀ entry ∈ ledger.entries, entry.exact.Fits) {entry : Reckoned σ}
    (hentry : entry ∈ ledger.entries) :
    ∃ subTotal, ledger.tally.get? entry.node = some subTotal ∧
      subTotal.toInt = entry.exact.value := by
  have hnodes : (ledger.entries.map Reckoned.node).Nodup := by
    have hnodup := nodup_postorder 0 expression
    rwa [← hlisted, Ledger.listed, List.map_map] at hnodup
  obtain ⟨-, hlow, hhigh⟩ := hfits entry hentry
  exact ⟨_, Ledger.get?_tally hnodes hentry, Int64.toInt_ofInt_of_le hlow (by omega)⟩

/-- What comes of 64-bit arithmetic, in terms of the exact values. If nothing else fails, the roll
goes through exactly when all values fit, and then the values are the same. At the first node in
post-order whose value does not fit, the roll fails as this value calls for, with the dice of the
nodes up to it thrown and no others. If something else fails and all values fit until then, the roll
fails in the same way. -/
theorem roll_reckoned (limits : Limits) (expression : Expression) (source : σ) :
    (∀ value ledger, expression.reckon limits source = .ok value ledger →
      ledger.listed = expression.postorder 0 ∧
      ((∃ evaluation table, expression.rollAt limits source = .ok evaluation table) ↔
        ∀ entry ∈ ledger.entries, entry.exact.Fits) ∧
      ∀ evaluation table, expression.rollAt limits source = .ok evaluation table →
        evaluation.total.toInt = value ∧
        (∀ entry ∈ ledger.entries, ∃ subTotal,
          evaluation.subTotal? entry.node = some subTotal ∧ subTotal.toInt = entry.exact.value) ∧
        table.source = ledger.table.source ∧ evaluation.trail = ledger.table.trail) ∧
    (∀ former entry later,
      (Reckoner.ledgerOf (expression.reckon limits source)).entries = former ++ entry :: later →
      (∀ earlier ∈ former, earlier.exact.Fits) → ¬entry.exact.Fits →
        ∃ error table, expression.rollAt limits source = .error error table ∧
          error.kind = entry.exact.offence ∧ table.source = entry.source ∧
          table.trail = entry.trail ∧
          Thrown source ((former ++ [entry]).map Reckoned.numbered) table.source table.trail) ∧
    ∀ error ledger, expression.reckon limits source = .error error ledger →
      ledger.listed <+: expression.postorder 0 ∧
      ((∀ entry ∈ ledger.entries, entry.exact.Fits) →
        ∃ table, expression.rollAt limits source = .error error table ∧
          table.source = ledger.table.source ∧ table.trail = ledger.table.trail) := by
  have hagrees := rollAt_agrees limits expression source
  have hlisted := reckon_listed limits expression source
  refine ⟨fun value ledger h => ?_, fun former entry later hentries hformer hentry => ?_,
    fun error ledger h => ?_⟩
  · rw [h] at hagrees
    refine ⟨hlisted.of_ok h, hagrees.exists_ok_iff, fun evaluation table hroll => ?_⟩
    obtain ⟨htotal, htallies⟩ := hagrees.tallies hroll
    obtain ⟨htrail, hsubTotals⟩ := rollAt_eq_ok hroll
    refine ⟨htotal, fun entry hentry => ?_, Table.source_eq_of_play htallies.play,
      htrail.trans (Table.trail_eq_of_play htallies.play)⟩
    rw [Evaluation.subTotal?, hsubTotals, htallies.subTotals]
    exact exists_subTotal (hlisted.of_ok h) htallies.fits hentry
  · obtain ⟨error, table, hroll, hkind, hsource, htrail⟩ :=
      hagrees.exists_offence hentries hformer hentry
    refine ⟨error, table, hroll, hkind, hsource, htrail, ?_⟩
    rw [hsource, htrail]
    exact reckon_dated limits expression source former entry ⟨later, by simp [hentries]⟩
  · rw [h] at hagrees
    refine ⟨hlisted.of_error h, fun hfits => ?_⟩
    obtain ⟨table, hroll, hplay⟩ := hagrees.exists_error hfits
    exact ⟨table, hroll, Table.source_eq_of_play hplay, Table.trail_eq_of_play hplay⟩

/-- A sum does not fit, and is then divided by zero. The reckoning goes on to the last die; the
evaluation fails at the sum, with the dice of the sum drawn. -/
theorem roll_reckoned_of_overflow :
    (Reckoner.ledgerOf ((binary .div
        (binary .add (literal 9223372036854775807) (dice ⟨1, 6, [.explode none]⟩))
        (binary .sub (dice ⟨1, 20, []⟩) (literal 20))).reckon {}
          (Script.ofList [6, 3, 20]))).entries.map
        (fun entry => (entry.node, entry.exact, entry.source.drawn)) =
      [(2, ⟨9223372036854775807, false⟩, 0), (3, ⟨9, false⟩, 2)] ++
        (1, ⟨9223372036854775816, false⟩, 2) ::
          [(5, ⟨20, false⟩, 3), (6, ⟨20, false⟩, 3), (4, ⟨0, false⟩, 3), (0, ⟨0, true⟩, 3)] ∧
    ∃ error table, (binary .div
        (binary .add (literal 9223372036854775807) (dice ⟨1, 6, [.explode none]⟩))
        (binary .sub (dice ⟨1, 20, []⟩) (literal 20))).rollAt {} (Script.ofList [6, 3, 20]) =
        .error error table ∧
      error.kind = .arithmeticOverflow ∧ table.source.drawn = 2 := by
  have h : (Reckoner.ledgerOf ((binary .div
        (binary .add (literal 9223372036854775807) (dice ⟨1, 6, [.explode none]⟩))
        (binary .sub (dice ⟨1, 20, []⟩) (literal 20))).reckon {}
          (Script.ofList [6, 3, 20]))).entries.map
        (fun entry => (entry.node, entry.exact, entry.source.drawn)) =
      [(2, ⟨9223372036854775807, false⟩, 0), (3, ⟨9, false⟩, 2)] ++
        (1, ⟨9223372036854775816, false⟩, 2) ::
          [(5, ⟨20, false⟩, 3), (6, ⟨20, false⟩, 3), (4, ⟨0, false⟩, 3), (0, ⟨0, true⟩, 3)] := by
    decide +kernel
  obtain ⟨former, others, hentries, hformer, hothers⟩ := List.map_eq_append_iff.mp h
  obtain ⟨entry, later, rfl, hentry, -⟩ := List.map_eq_cons_iff.mp hothers
  obtain ⟨-, hexact, hdrawn⟩ : entry.node = 1 ∧ entry.exact = ⟨9223372036854775816, false⟩ ∧
      entry.source.drawn = 2 := by simpa using hentry
  have hexacts : former.map Reckoned.exact = [⟨9223372036854775807, false⟩, ⟨9, false⟩] := by
    simpa [Function.comp_def] using congrArg (List.map fun shown => shown.2.1) hformer
  have hfits : ∀ exact ∈ former.map Reckoned.exact, exact.Fits := by
    rw [hexacts]
    decide
  obtain ⟨error, table, hroll, hkind, hsource, -⟩ :=
    (roll_reckoned _ _ _).2.1 former entry later hentries
      (List.forall_mem_map.mp hfits) (by rw [hexact]; decide)
  exact ⟨h, error, table, hroll, by rw [hkind, hexact]; rfl, by rw [hsource, hdrawn]⟩

end Expression

end DiceNotation

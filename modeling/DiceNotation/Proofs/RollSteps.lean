import Mathlib.Data.List.Forall2
import DiceNotation.Roll.Evaluation

/-!
# What a step of an evaluation does

Each step that succeeds is inverted once: what it gives, and what it leaves on the table. Steps
that run over a list are inverted from the step for one element.
-/
namespace DiceNotation

/-- An outcome that no longer counts. -/
def Outcome.retired (outcome : Outcome) : Outcome := { outcome with kept := false }

/-- What the visits to nodes leave on the table: how many there are, and the values entered. -/
def Table.visits {σ : Type} (table : Table σ) : Nat × SubTotals := (table.nodes, table.subTotals)

/-- The die is on the trail, and shows the face. -/
def Table.Shows {σ : Type} (table : Table σ) (die : Nat) (face : UInt32) : Prop :=
  ∃ outcome, table.trail[die]? = some outcome ∧ outcome.value = face

namespace Roller

variable {σ α β : Type}

section Monad

variable {table after : Table σ}

theorem bind_eq_ok {x : Roller σ α} {f : α → Roller σ β} {b : β} :
    (x >>= f) table = .ok b after ↔
      ∃ a between, x table = .ok a between ∧ f a between = .ok b after := by
  change EStateM.bind x f table = _ ↔ _
  unfold EStateM.bind
  cases hx : x table with
  | ok a between =>
    constructor
    · intro h
      exact ⟨a, between, rfl, h⟩
    · rintro ⟨_, _, hok, h⟩
      cases hok
      exact h
  | error error between => simp

theorem bind_eq_error {x : Roller σ α} {f : α → Roller σ β} {error : RollError} :
    (x >>= f) table = .error error after ↔
      x table = .error error after ∨
        ∃ a between, x table = .ok a between ∧ f a between = .error error after := by
  change EStateM.bind x f table = _ ↔ _
  unfold EStateM.bind
  cases hx : x table with
  | ok a between => simp
  | error other between => simp

theorem bind_congr_ok {x : Roller σ α} {f g : α → Roller σ β}
    (h : ∀ a between, x table = .ok a between → f a between = g a between) :
    (x >>= f) table = (x >>= g) table := by
  change EStateM.bind x f table = EStateM.bind x g table
  unfold EStateM.bind
  cases hx : x table with
  | ok a between => exact h a between hx
  | error error between => rfl

theorem bind_of_ok {x : Roller σ α} {f : α → Roller σ β} {a : α} {between : Table σ}
    (h : x table = .ok a between) : (x >>= f) table = f a between := by
  change EStateM.bind x f table = _
  rw [EStateM.bind, h]

theorem pure_eq_ok {a b : α} :
    (pure a : Roller σ α) table = .ok b after ↔ a = b ∧ table = after := by
  change EStateM.Result.ok a table = _ ↔ _
  simp

theorem get_bind_eq_ok {f : Table σ → Roller σ β} {b : β} :
    (get >>= f) table = .ok b after ↔ f table table = .ok b after := Iff.rfl

theorem modify_eq_ok {f : Table σ → Table σ} :
    (modify f : Roller σ PUnit) table = .ok () after ↔ after = f table := by
  change EStateM.Result.ok () (f table) = _ ↔ _
  simp [eq_comm]

theorem ite_eq_ok {condition : Prop} [Decidable condition] {x y : Roller σ α} {a : α} :
    (if condition then x else y) table = .ok a after ↔
      (condition ∧ x table = .ok a after) ∨ (¬condition ∧ y table = .ok a after) := by
  split <;> simp_all

/-- A check that throws when the condition holds, in front of the rest. -/
theorem guard_bind_eq_ok {condition : Prop} [Decidable condition] {error : RollError}
    {f : PUnit → Roller σ β} {b : β} :
    (if condition then throw error >>= f else f ()) table = .ok b after ↔
      ¬condition ∧ f () table = .ok b after := by
  rw [ite_eq_ok]
  constructor
  · rintro (⟨-, h⟩ | h)
    · cases h
    · exact h
  · exact .inr

end Monad

section Steps

variable {limits : Limits} {table after : Table σ}

theorem checkTime_apply (limits : Limits) (table : Table σ) :
    checkTime limits table =
      match limits.time with
      | none => .ok () table
      | some budget =>
        if budget.allowed.nanoseconds ≤ (budget.elapsed table.readings).nanoseconds then
          .error (.outOfTime budget.allowed) { table with readings := table.readings + 1 }
        else .ok () { table with readings := table.readings + 1 } := by
  unfold checkTime
  cases limits.time with
  | none => rfl
  | some budget =>
    change (if _ then _ else _ : Roller σ Unit) _ = _
    by_cases hlate : budget.allowed.nanoseconds ≤ (budget.elapsed table.readings).nanoseconds
    · rw [if_pos hlate]
      exact (if_pos hlate).symm
    · rw [if_neg hlate]
      exact (if_neg hlate).symm

theorem checkTime_eq_ok (h : checkTime limits table = .ok () after) :
    ∃ readings, after = { table with readings } := by
  unfold checkTime at h
  cases htime : limits.time with
  | none =>
    rw [htime] at h
    exact ⟨_, (pure_eq_ok.mp h).2.symm⟩
  | some budget =>
    simp only [htime, get_bind_eq_ok] at h
    obtain ⟨⟨⟩, between, hread, h⟩ := bind_eq_ok.mp h
    obtain rfl := modify_eq_ok.mp hread
    rcases ite_eq_ok.mp h with ⟨-, h⟩ | ⟨-, h⟩
    · cases h
    · exact ⟨_, (pure_eq_ok.mp h).2.symm⟩

theorem visit_eq_ok {node : Nat} (h : visit limits table = .ok node after) :
    node = table.nodes ∧ ∃ readings, after = { table with readings, nodes := table.nodes + 1 } := by
  obtain ⟨⟨⟩, between, htime, h⟩ := bind_eq_ok.mp h
  obtain ⟨readings, rfl⟩ := checkTime_eq_ok htime
  cases h
  exact ⟨rfl, readings, rfl⟩

theorem enter_eq_ok {node : Nat} {value result : Int64}
    (h : enter node value table = .ok result after) :
    result = value ∧ after = { table with subTotals := table.subTotals.insert node value } := by
  cases h
  exact ⟨rfl, rfl⟩

theorem remark_eq_ok {said : Remark} (h : remark said table = .ok () after) :
    after = { table with remarks := table.remarks.push said } := modify_eq_ok.mp h

theorem faceOf_apply (die : Nat) (table : Table σ) :
    faceOf die table =
      match table.trail[die]? with
      | some outcome => .ok outcome.value table
      | none => .error (.missingDie die table.trail.size) table := by
  change (match table.trail[die]? with | some _ => _ | none => _ : Roller σ UInt32) table = _
  cases table.trail[die]? <;> rfl

theorem faceOf_eq_ok {die : Nat} {face : UInt32} (h : faceOf die table = .ok face after) :
    table.Shows die face ∧ table = after := by
  rw [faceOf_apply] at h
  cases hdie : table.trail[die]? with
  | none =>
    rw [hdie] at h
    cases h
  | some outcome =>
    rw [hdie] at h
    cases h
    exact ⟨⟨outcome, hdie, rfl⟩, rfl⟩

theorem faceOf_of_shows {die : Nat} {face : UInt32} (h : table.Shows die face) :
    faceOf die table = .ok face table := by
  obtain ⟨outcome, hdie, rfl⟩ := h
  rw [faceOf_apply, hdie]

theorem retire_apply (die : Nat) (table : Table σ) :
    retire die table =
      if die < table.trail.size then
        .ok () { table with trail := table.trail.modify die Outcome.retired }
      else .error (.missingDie die table.trail.size) table := by
  change (if _ then _ else _ : Roller σ Unit) table = _
  split <;> rfl

theorem retire_eq_ok {die : Nat} (h : retire die table = .ok () after) :
    die < table.trail.size ∧
      after = { table with trail := table.trail.modify die Outcome.retired } := by
  rw [retire_apply] at h
  split at h
  · next hlt =>
    cases h
    exact ⟨hlt, rfl⟩
  · cases h

theorem settle_eq_ok {result : Except RollError α} {a : α}
    (h : settle result table = .ok a after) : result = .ok a ∧ table = after := by
  cases result with
  | error error => cases h
  | ok b =>
    obtain ⟨rfl, rfl⟩ := pure_eq_ok.mp h
    exact ⟨rfl, rfl⟩

variable [FaceSource σ] {node die : Nat} {sides : UInt32} {cause : Cause}

theorem layDie_eq_ok (h : layDie node sides cause table = .ok die after) :
    die = table.trail.size ∧
      ∃ face, FaceSource.next sides table.source = .ok (face, after.source) ∧
        after = { table with
          source := after.source, trail := table.trail.push (.thrown node sides face cause) } := by
  unfold layDie at h
  rcases hface : FaceSource.answer sides table.source with ⟨error | face, source⟩
  · rw [hface] at h
    cases h
  · rw [hface] at h
    cases h
    exact ⟨rfl, face, FaceSource.next_eq_ok_iff.mpr hface, rfl⟩

theorem throwDie_eq_ok (h : throwDie limits node sides cause table = .ok die after) :
    die = table.trail.size ∧ table.trail.size < limits.dice ∧
      ∃ face, FaceSource.next sides table.source = .ok (face, after.source) ∧
        after.trail = table.trail.push (.thrown node sides face cause) ∧
          after.visits = table.visits := by
  unfold throwDie at h
  rw [get_bind_eq_ok] at h
  obtain ⟨hroom, h⟩ := guard_bind_eq_ok.mp h
  obtain ⟨⟨⟩, between, htime, h⟩ := bind_eq_ok.mp h
  obtain ⟨readings, rfl⟩ := checkTime_eq_ok htime
  obtain ⟨rfl, face, hface, hafter⟩ := layDie_eq_ok h
  refine ⟨rfl, Nat.lt_of_not_le hroom, face, hface, by rw [hafter], ?_⟩
  rw [hafter]
  rfl

end Steps

/-- A term with more dice than are allowed is not rolled. -/
theorem rollTerm_of_large [FaceSource σ] {limits : Limits} {term : DiceTerm}
    (h : limits.dice < term.count.toNat) (node : Nat) :
    rollTerm limits node term = (throw (.termTooLarge term limits.dice) : Roller σ Int64) := by
  have hcount : term.count ≠ 0 := by
    intro hzero
    rw [hzero] at h
    exact Nat.not_lt_zero _ h
  unfold rollTerm
  rw [if_neg hcount, if_pos h]
  rfl

section Lists

variable {table after : Table σ}

theorem mapM_nil_eq_ok {f : α → Roller σ β} {bs : List β}
    (h : [].mapM f table = .ok bs after) : bs = [] ∧ table = after := by
  obtain ⟨rfl, rfl⟩ := pure_eq_ok.mp h
  exact ⟨rfl, rfl⟩

theorem mapM_cons_eq_ok {f : α → Roller σ β} {a : α} {as : List α} {bs : List β}
    (h : (a :: as).mapM f table = .ok bs after) :
    ∃ b between rest, f a table = .ok b between ∧ as.mapM f between = .ok rest after ∧
      bs = b :: rest := by
  rw [List.mapM_cons] at h
  obtain ⟨b, between, hfirst, h⟩ := bind_eq_ok.mp h
  obtain ⟨rest, last, hrest, h⟩ := bind_eq_ok.mp h
  obtain ⟨rfl, rfl⟩ := pure_eq_ok.mp h
  exact ⟨b, between, rest, hfirst, hrest, rfl⟩

theorem forM_cons_eq_ok {f : α → Roller σ PUnit} {a : α} {as : List α}
    (h : (a :: as).forM f table = .ok () after) :
    ∃ between, f a table = .ok () between ∧ as.forM f between = .ok () after := by
  obtain ⟨⟨⟩, between, hfirst, hrest⟩ := bind_eq_ok.mp h
  exact ⟨between, hfirst, hrest⟩

theorem foldlM_cons_eq_ok {f : β → α → Roller σ β} {a : α} {as : List α} {start last : β}
    (h : (a :: as).foldlM f start table = .ok last after) :
    ∃ b between, f start a table = .ok b between ∧ as.foldlM f b between = .ok last after := by
  rw [List.foldlM_cons] at h
  exact bind_eq_ok.mp h

/-- Steps that only look at the table leave it alone, and each gives what it sees. -/
theorem mapM_reads {f : α → Roller σ β} {R : α → β → Prop}
    (hread : ∀ a b after, f a table = .ok b after → R a b ∧ table = after)
    {as : List α} {bs : List β} (h : as.mapM f table = .ok bs after) :
    List.Forall₂ R as bs ∧ table = after := by
  induction as generalizing bs with
  | nil =>
    obtain ⟨rfl, rfl⟩ := mapM_nil_eq_ok h
    exact ⟨.nil, rfl⟩
  | cons a as ih =>
    obtain ⟨b, between, rest, hfirst, hrest, rfl⟩ := mapM_cons_eq_ok h
    obtain ⟨hb, rfl⟩ := hread a b between hfirst
    obtain ⟨hbs, rfl⟩ := ih hrest
    exact ⟨.cons hb hbs, rfl⟩

theorem mapM_of_reads {f : α → Roller σ β} {g : α → β} {as : List α}
    (h : ∀ a ∈ as, f a table = .ok (g a) table) : as.mapM f table = .ok (as.map g) table := by
  induction as with
  | nil => rfl
  | cons a as ih =>
    rw [List.mapM_cons]
    have hrest := ih fun b hb => h b (.tail _ hb)
    exact bind_eq_ok.mpr ⟨g a, table, h a (.head as), bind_eq_ok.mpr ⟨as.map g, table, hrest, rfl⟩⟩

theorem ranked_eq_ok {rank : Rank} {live ranking : List Nat}
    (h : ranked rank live table = .ok ranking after) :
    table = after ∧ ∃ faces : List (Nat × UInt32),
      List.Forall₂ (fun die face => face.1 = die ∧ table.Shows die face.2)
          (live.mergeSort (· ≤ ·)) faces ∧
        ranking = (faces.mergeSort rank.inOrder).map Prod.fst := by
  obtain ⟨faces, between, hfaces, h⟩ := bind_eq_ok.mp h
  obtain ⟨rfl, rfl⟩ := pure_eq_ok.mp h
  have hread : ∀ die face after, (do return (die, ← faceOf die)) table = .ok face after →
      (face.1 = die ∧ table.Shows die face.2) ∧ table = after := by
    intro die pair after hpair
    obtain ⟨face, between, hface, hpair⟩ := bind_eq_ok.mp hpair
    obtain ⟨rfl, rfl⟩ := pure_eq_ok.mp hpair
    obtain ⟨hshown, rfl⟩ := faceOf_eq_ok hface
    exact ⟨⟨rfl, hshown⟩, rfl⟩
  obtain ⟨hshown, rfl⟩ := mapM_reads hread hfaces
  exact ⟨rfl, faces, hshown, rfl⟩

theorem perm_of_ranked {rank : Rank} {live ranking : List Nat}
    (h : ranked rank live table = .ok ranking after) : ranking.Perm live := by
  obtain ⟨-, faces, hfaces, rfl⟩ := ranked_eq_ok h
  have hlive : faces.map Prod.fst = live.mergeSort (· ≤ ·) := by
    clear h
    generalize live.mergeSort (· ≤ ·) = dice at hfaces
    induction hfaces with
    | nil => rfl
    | cons hface _ ih => rw [List.map_cons, hface.1, ih]
  refine ((List.mergeSort_perm faces rank.inOrder).map Prod.fst).trans ?_
  rw [hlive]
  exact List.mergeSort_perm live _

end Lists

section Untimed

variable {limits : Limits}

theorem checkTime_of_none (htime : limits.time = none) :
    checkTime limits = (pure () : Roller σ Unit) := by
  rw [checkTime, htime]

theorem visit_of_none (htime : limits.time = none) (table : Table σ) :
    visit limits table = .ok table.nodes { table with nodes := table.nodes + 1 } := by
  rw [visit, checkTime_of_none htime]
  rfl

theorem throwDie_apply [FaceSource σ] (limits : Limits) (node : Nat) (sides : UInt32)
    (cause : Cause) (table : Table σ) :
    throwDie limits node sides cause table =
      if limits.dice ≤ table.trail.size then .error (.tooManyDice limits.dice) table
      else (checkTime limits >>= fun _ => layDie node sides cause) table := by
  change (if _ then _ else _ : Roller σ Nat) table = _
  split <;> rfl

/-- Without a time budget, only the dice budget and the source can stop a throw. -/
theorem throwDie_of_none [FaceSource σ] (htime : limits.time = none) (node : Nat) (sides : UInt32)
    (cause : Cause) (table : Table σ) :
    throwDie limits node sides cause table =
      if limits.dice ≤ table.trail.size then .error (.tooManyDice limits.dice) table
      else layDie node sides cause table := by
  rw [throwDie_apply, checkTime_of_none htime]
  rfl

theorem layDie_of_next [FaceSource σ] {table : Table σ} {sides face : UInt32} {source : σ}
    (h : FaceSource.next sides table.source = .ok (face, source)) (node : Nat) (cause : Cause) :
    layDie node sides cause table =
      .ok table.trail.size { table with
        source := source, trail := table.trail.push (.thrown node sides face cause) } := by
  unfold layDie
  rw [FaceSource.next_eq_ok_iff.mp h]

theorem layDie_of_refused [FaceSource σ] {table : Table σ} {sides : UInt32} {error : RollError}
    {source : σ} (h : FaceSource.answer sides table.source = (.error error, source)) (node : Nat)
    (cause : Cause) :
    layDie node sides cause table = .error error { table with source := source } := by
  unfold layDie
  rw [h]

end Untimed

end Roller

/-- What rolling the nodes at a fresh table comes to. -/
def Roller.outcome {σ : Type} :
    EStateM.Result RollError (Table σ) Int64 → Except RollError Evaluation × σ
  | .ok total table => (.ok ⟨total, table.trail, table.subTotals⟩, table.source)
  | .error error table => (.error error, table.source)

theorem Roller.outcome_eq_ok {σ : Type} {result : EStateM.Result RollError (Table σ) Int64}
    {evaluation : Evaluation} {after : σ} (h : outcome result = (.ok evaluation, after)) :
    ∃ table, result = .ok evaluation.total table ∧ evaluation.trail = table.trail ∧
      evaluation.subTotals = table.subTotals ∧ after = table.source := by
  cases result with
  | error error table => cases h
  | ok total table =>
    cases h
    exact ⟨table, rfl, rfl, rfl, rfl⟩

theorem Roller.outcome_eq_error {σ : Type} {result : EStateM.Result RollError (Table σ) Int64}
    {error : RollError} {after : σ} (h : outcome result = (.error error, after)) :
    ∃ table, result = .error error table ∧ after = table.source := by
  cases result with
  | error _ table =>
    cases h
    exact ⟨table, rfl, rfl⟩
  | ok total table => cases h

/-- Within the limit on nodes, an expression is rolled by rolling its nodes. -/
theorem Expression.roll_eq_outcome {σ : Type} [FaceSource σ] {limits : Limits}
    {expression : Expression} (hnodes : expression.nodeCount ≤ limits.nodes) (source : σ) :
    expression.roll limits source =
      Roller.outcome (Roller.rollNodes limits expression (.fresh source)) := by
  unfold roll rollAt Roller.rollExpression
  rw [if_neg (Nat.not_lt.mpr hnodes)]
  simp only [bind, EStateM.bind]
  cases Roller.rollNodes limits expression (.fresh source) <;> rfl

/-- Beyond the limit on nodes, nothing is rolled. -/
theorem Expression.roll_of_lt_nodeCount {σ : Type} [FaceSource σ] {limits : Limits}
    {expression : Expression} (h : limits.nodes < expression.nodeCount) (source : σ) :
    expression.roll limits source =
      (.error (.tooManyNodes expression.nodeCount limits.nodes), source) := by
  unfold roll rollAt Roller.rollExpression
  rw [if_pos h]
  rfl

/-- A roll that succeeds keeps within the limit on nodes. -/
theorem Expression.nodeCount_le_of_roll {σ : Type} [FaceSource σ] {limits : Limits}
    {expression : Expression} {source after : σ} {evaluation : Evaluation}
    (h : expression.roll limits source = (.ok evaluation, after)) :
    expression.nodeCount ≤ limits.nodes := by
  refine Nat.le_of_not_lt fun hlt => ?_
  rw [roll_of_lt_nodeCount hlt] at h
  cases h

end DiceNotation

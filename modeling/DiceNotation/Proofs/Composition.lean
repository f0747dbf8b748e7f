import DiceNotation.Faces.Script
import DiceNotation.Proofs.Coupling
import DiceNotation.Proofs.Explained

/-!
# Rolling the parts of an expression

An operand that is rolled behind others does what it does alone: its nodes and dice are only
numbered further on, and the dice budget may run out sooner.
-/
namespace DiceNotation

/-- The outcome when the nodes and the dice are numbered further on. -/
def Outcome.further (nodes dice : Nat) (outcome : Outcome) : Outcome :=
  { outcome with
    term := outcome.term + nodes
    rerolledFrom := outcome.rerolledFrom.map (· + dice)
    explodedFrom := outcome.explodedFrom.map (· + dice) }

theorem Outcome.further_thrown (nodes dice node : Nat) (sides face : UInt32) (cause : Cause) :
    (thrown node sides face cause).further nodes dice =
      thrown (node + nodes) sides face (cause.further dice) := by
  cases cause <;> rfl

theorem map_further_modify_retired (nodes dice die : Nat) (outcomes : List Outcome) :
    (outcomes.modify die Outcome.retired).map (Outcome.further nodes dice) =
      (outcomes.map (Outcome.further nodes dice)).modify die Outcome.retired := by
  induction outcomes generalizing die with
  | nil => simp
  | cons first rest ih =>
    cases die with
    | zero => rfl
    | succ die => simp [ih]

namespace SubTotals

def furtherOn (nodes : Nat) (entries : List (Nat × Int64)) : List (Nat × Int64) :=
  entries.map (Prod.map (· + nodes) id)

theorem entered_furtherOn (nodes node : Nat) (value : Int64) (entries : List (Nat × Int64)) :
    entered (node + nodes) value (furtherOn nodes entries) =
      furtherOn nodes (entered node value entries) := by
  induction entries with
  | nil => rfl
  | cons first rest ih =>
    have hlt : first.1 + nodes < node + nodes ↔ first.1 < node := Nat.add_lt_add_iff_right
    have heq : first.1 + nodes = node + nodes ↔ first.1 = node := Nat.add_right_cancel_iff
    simp only [furtherOn, List.map_cons, entered, Prod.map_fst, hlt, heq] at ih ⊢
    split
    · rw [ih, List.map_cons]
    · split <;> simp

theorem entered_append {nodes node : Nat} {value : Int64} {former : List (Nat × Int64)}
    (hformer : ∀ entry ∈ former, entry.1 < nodes) (entries : List (Nat × Int64)) :
    entered (node + nodes) value (former ++ furtherOn nodes entries) =
      former ++ furtherOn nodes (entered node value entries) := by
  induction former with
  | nil => exact entered_furtherOn nodes node value entries
  | cons first rest ih =>
    have hfirst : first.1 < nodes := hformer first (.head _)
    have hrest := ih fun entry hentry => hformer entry (.tail _ hentry)
    rw [List.cons_append, entered, if_pos (by omega), hrest]
    rfl

theorem entered_zero {value : Int64} {entries : List (Nat × Int64)}
    (h : ∀ entry ∈ entries, 0 < entry.1) : entered 0 value entries = (0, value) :: entries := by
  cases entries with
  | nil => rfl
  | cons first rest =>
    have hfirst := h first (.head _)
    rw [entered, if_neg (by omega), if_neg (by omega)]

theorem pos_of_mem_furtherOn {nodes : Nat} (hnodes : 0 < nodes) {entries : List (Nat × Int64)} :
    ∀ entry ∈ furtherOn nodes entries, 0 < entry.1 := by
  intro entry hentry
  obtain ⟨own, -, rfl⟩ := List.mem_map.mp hentry
  exact Nat.add_pos_right own.1 hnodes

theorem entered_root (value : Int64) (first second : List (Nat × Int64)) (nodes : Nat) :
    entered 0 value (furtherOn 1 first ++ furtherOn (1 + nodes) second) =
      (0, value) :: (furtherOn 1 first ++ furtherOn (1 + nodes) second) := by
  apply entered_zero
  rw [List.forall_mem_append]
  exact ⟨pos_of_mem_furtherOn Nat.one_pos, pos_of_mem_furtherOn (by omega)⟩

theorem get?_ne_none_of_mem {subTotals : SubTotals} {entry : Nat × Int64}
    (h : entry ∈ subTotals.entries) : subTotals.get? entry.1 ≠ none := by
  intro hnone
  have := List.lookup_eq_none_iff.mp hnone entry h
  simp at this

end SubTotals

variable {σ : Type}

/-- A table at which the same is done as at a table of its own, but behind all that `before`
holds. -/
structure Table.Within (before alone within : Table σ) : Prop where
  source : within.source = alone.source
  trail : within.trail.toList = before.trail.toList ++
    alone.trail.toList.map (Outcome.further before.nodes before.trail.size)
  nodes : within.nodes = alone.nodes + before.nodes
  subTotals : within.subTotals.entries = before.subTotals.entries ++
    SubTotals.furtherOn before.nodes alone.subTotals.entries

namespace Table.Within

variable {before alone within : Table σ}

theorem size_eq (h : before.Within alone within) :
    within.trail.size = alone.trail.size + before.trail.size := by
  rw [← Array.length_toList, h.trail, List.length_append, List.length_map, Array.length_toList,
    Array.length_toList, Nat.add_comm]

theorem getElem?_eq (h : before.Within alone within) (die : Nat) :
    within.trail[die + before.trail.size]? =
      alone.trail[die]?.map (Outcome.further before.nodes before.trail.size) := by
  rw [← Array.getElem?_toList, h.trail, List.getElem?_append_right (by simp),
    Array.length_toList, Nat.add_sub_cancel, List.getElem?_map, Array.getElem?_toList]

theorem fresh (before : Table σ) : before.Within (.fresh before.source) before where
  source := rfl
  trail := (List.append_nil _).symm
  nodes := (Nat.zero_add _).symm
  subTotals := (List.append_nil _).symm

end Table.Within

namespace Roller

variable {before : Table σ} {α β : Type}

/-- How a step goes at a table of its own and behind others: alike, or it is stopped at the table
that has dice on its trail before. -/
inductive Goes (before : Table σ) (image : α → β) :
    EStateM.Result RollError (Table σ) α → EStateM.Result RollError (Table σ) β → Prop
  | ok {alone within : Table σ} (a : α) (tables : before.Within alone within) :
      Goes before image (.ok a alone) (.ok (image a) within)
  | error {alone within : Table σ} (error : RollError) (source : within.source = alone.source) :
      Goes before image (.error error alone) (.error error within)
  | stopped {result : EStateM.Result RollError (Table σ) α} {within : Table σ} (error : RollError)
      (dice : before.trail.size ≠ 0) : Goes before image result (.error error within)

/-- The steps go alike at such tables, and the second gives the image of what the first gives. -/
def GoesWithin (before : Table σ) (image : α → β) (step : Roller σ α) (step' : Roller σ β) : Prop :=
  ∀ alone within, before.Within alone within → Goes before image (step alone) (step' within)

theorem bind_goesWithin {γ δ : Type} {image : α → β} {image' : γ → δ} {step : Roller σ α}
    {step' : Roller σ β} {next : α → Roller σ γ} {next' : β → Roller σ δ}
    (hstep : GoesWithin before image step step')
    (hnext : ∀ a, GoesWithin before image' (next a) (next' (image a))) :
    GoesWithin before image' (step >>= next) (step' >>= next') := by
  intro alone within htables
  have hfirst := hstep alone within htables
  simp only [bind, EStateM.bind]
  generalize step alone = result, step' within = result' at hfirst ⊢
  cases hfirst with
  | ok a htables => exact hnext a _ _ htables
  | error error hsource => exact .error error hsource
  | stopped error hdice => exact .stopped error hdice

theorem missing_goes {image : α → β} {alone within : Table σ} (htables : before.Within alone within)
    (die : Nat) :
    Goes before image (.error (.missingDie die alone.trail.size) alone)
      (.error (.missingDie (die + before.trail.size) within.trail.size) within) := by
  by_cases hdice : before.trail.size = 0
  · rw [htables.size_eq, hdice]
    exact .error _ htables.source
  · exact .stopped _ hdice

theorem faceOf_goesWithin (die : Nat) :
    GoesWithin before id (faceOf die) (faceOf (die + before.trail.size)) := by
  intro alone within htables
  rw [faceOf_apply, faceOf_apply, htables.getElem?_eq]
  cases alone.trail[die]? with
  | none => exact missing_goes htables die
  | some outcome => exact .ok outcome.value htables

theorem retire_goesWithin (die : Nat) :
    GoesWithin before id (retire die) (retire (die + before.trail.size)) := by
  intro alone within htables
  have hsize := htables.size_eq
  rw [retire_apply, retire_apply]
  by_cases hdie : die < alone.trail.size
  · rw [if_pos hdie, if_pos (by omega)]
    refine .ok () ⟨htables.source, ?_, htables.nodes, htables.subTotals⟩
    rw [Array.toList_modify, Array.toList_modify, map_further_modify_retired, htables.trail,
      Nat.add_comm, ← Array.length_toList, modify_behind]
  · rw [if_neg hdie, if_neg (by omega)]
    exact missing_goes htables die

variable [FaceSource σ]

theorem throwDie_goesWithin {limits : Limits} (htime : limits.time = none) (node : Nat)
    (sides : UInt32) (cause : Cause) :
    GoesWithin before (· + before.trail.size) (throwDie limits node sides cause)
      (throwDie limits (node + before.nodes) sides (cause.further before.trail.size)) := by
  intro alone within htables
  have hsize := htables.size_eq
  rw [throwDie_of_none htime, throwDie_of_none htime]
  by_cases hfull : limits.dice ≤ alone.trail.size
  · rw [if_pos hfull, if_pos (by omega)]
    exact .error _ htables.source
  rw [if_neg hfull]
  by_cases hfull' : limits.dice ≤ within.trail.size
  · rw [if_pos hfull']
    exact .stopped _ (by omega)
  rw [if_neg hfull']
  rcases hface : FaceSource.answer sides alone.source with ⟨error | face, source⟩
  · have hface' := hface
    rw [← htables.source] at hface'
    rw [layDie_of_refused hface, layDie_of_refused hface']
    exact .error error rfl
  · have hface' := hface
    rw [← htables.source] at hface'
    rw [layDie_of_next (FaceSource.next_eq_ok_iff.mpr hface),
      layDie_of_next (FaceSource.next_eq_ok_iff.mpr hface'), hsize]
    refine .ok _ ⟨rfl, ?_, htables.nodes, htables.subTotals⟩
    rw [Array.toList_push, Array.toList_push, List.map_append, ← List.append_assoc, htables.trail]
    rw [← Outcome.further_thrown]
    rfl

def within {limits : Limits} (htime : limits.time = none) (before : Table σ)
    (hbefore : ∀ entry ∈ before.subTotals.entries, entry.1 < before.nodes) :
    Coupling σ σ limits limits where
  nodes := before.nodes
  dice := before.trail.size
  Alike := GoesWithin before
  pure a := fun _ _ htables => .ok a htables
  throw error := fun _ _ htables => .error error htables.source
  bind := bind_goesWithin
  visit := by
    intro alone within htables
    rw [visit_of_none htime, visit_of_none htime, htables.nodes]
    refine .ok _ ⟨htables.source, htables.trail, ?_, htables.subTotals⟩
    rw [Nat.add_right_comm]
  enter node value := by
    intro alone within htables
    refine .ok value ⟨htables.source, htables.trail, htables.nodes, ?_⟩
    change SubTotals.entered _ _ _ = _
    rw [htables.subTotals, SubTotals.entered_append hbefore]
    rfl
  remark said := fun _ _ htables =>
    .ok () ⟨htables.source, htables.trail, htables.nodes, htables.subTotals⟩
  nextPlace := by
    intro alone within htables
    change Goes before _ (.ok alone.trail.size alone) (.ok within.trail.size within)
    rw [htables.size_eq]
    exact .ok _ htables
  throwDie := throwDie_goesWithin htime
  faceOf := faceOf_goesWithin
  retire := retire_goesWithin
  depthLe := .refl _
  endless longer := absurd longer (Nat.lt_irrefl _)
  rollLarge node term large := by
    intro alone within htables
    have hlarge := or_self_iff.mp large
    rw [rollTerm_of_large hlarge, rollTerm_of_large hlarge]
    exact .error _ htables.source

end Roller

namespace Expression

def visited (source : σ) : Table σ := { Table.fresh source with nodes := 1 }

theorem visited_entries (source : σ) :
    ∀ entry ∈ (visited source).subTotals.entries, entry.1 < (visited source).nodes := nofun

variable [FaceSource σ] {limits : Limits}

theorem nodeCount_binary (operator : Operator) (left right : Expression) :
    (binary operator left right).nodeCount = left.nodeCount + right.nodeCount + 1 := by
  simp only [nodeCount_eq_size, size]

theorem rollNodes_binary (htime : limits.time = none) (operator : Operator)
    (left right : Expression) (source : σ) :
    Roller.rollNodes limits (binary operator left right) (.fresh source) =
      (do
        let left ← Roller.rollNodes limits left
        let right ← Roller.rollNodes limits right
        Roller.enter 0 (← Roller.settle (operator.apply left right)) : Roller σ Int64)
      (visited source) := by
  change EStateM.bind (Roller.visit limits) _ _ = _
  unfold EStateM.bind
  rw [Roller.visit_of_none htime]
  rfl

theorem lt_nodes_of_mem_entries {expression : Expression} {source : σ} {value : Int64}
    {table : Table σ} (h : Roller.rollNodes limits expression (.fresh source) = .ok value table)
    {entry : Nat × Int64} (hentry : entry ∈ table.subTotals.entries) : entry.1 < table.nodes := by
  obtain ⟨-, hframe, -⟩ := Roller.rollNodes_explained h
  refine Nat.lt_of_not_le fun hle => SubTotals.get?_ne_none_of_mem hentry ?_
  rw [hframe entry.1 (.inr hle)]
  exact SubTotals.get?_empty _

/-- What is rolled behind others could be rolled alone, from the same source; and further nodes
have numbers of their own afterwards. -/
theorem rollNodes_alone (htime : limits.time = none) {expression : Expression} {value : Int64}
    {before after : Table σ} (hbefore : ∀ entry ∈ before.subTotals.entries, entry.1 < before.nodes)
    (h : Roller.rollNodes limits expression before = .ok value after) :
    ∃ alone, Roller.rollNodes limits expression (.fresh before.source) = .ok value alone ∧
      before.Within alone after ∧ after.nodes = before.nodes + expression.nodeCount ∧
      ∀ entry ∈ after.subTotals.entries, entry.1 < after.nodes := by
  have hnodes := (Roller.rollNodes_explained h).1
  have hgoes := (Roller.within htime before hbefore).rollNodes expression _ _ (.fresh before)
  rw [h] at hgoes
  generalize halone : Roller.rollNodes limits expression (.fresh before.source) = result at hgoes ⊢
  cases hgoes with | @ok alone _ _ hwithin => ?_
  refine ⟨alone, rfl, hwithin, by rw [hnodes, nodeCount_eq_size], fun entry hentry => ?_⟩
  rw [hwithin.nodes]
  rw [hwithin.subTotals, List.mem_append] at hentry
  rcases hentry with hentry | hentry
  · have := hbefore entry hentry
    omega
  · obtain ⟨own, hown, rfl⟩ := List.mem_map.mp hentry
    have := lt_nodes_of_mem_entries halone hown
    simp only [Prod.map_fst]
    omega

theorem rollNodes_visited_of_error (htime : limits.time = none) {expression : Expression}
    {source : σ} {error : RollError} {alone : Table σ}
    (h : Roller.rollNodes limits expression (.fresh source) = .error error alone) :
    ∃ after, Roller.rollNodes limits expression (visited source) = .error error after ∧
      after.source = alone.source := by
  have hgoes := (Roller.within htime (visited source) (visited_entries source)).rollNodes
    expression _ _ (.fresh _)
  change Roller.Goes _ _ (Roller.rollNodes limits expression (.fresh source)) _ at hgoes
  rw [h] at hgoes
  generalize Roller.rollNodes limits expression (visited source) = result at hgoes ⊢
  cases hgoes with
  | error _ hsource => exact ⟨_, rfl, hsource⟩
  | stopped _ hdice => exact absurd rfl hdice

/-- What an operator leaves on its table is what its operands leave on tables of their own, the
right one rolled from the source that the left one leaves. -/
theorem rollNodes_binary_eq_ok (htime : limits.time = none) {operator : Operator}
    {left right : Expression} {source : σ} {value : Int64} {table : Table σ}
    (h : Roller.rollNodes limits (binary operator left right) (.fresh source) = .ok value table) :
    ∃ leftValue first rightValue second,
      Roller.rollNodes limits left (.fresh source) = .ok leftValue first ∧
      Roller.rollNodes limits right (.fresh first.source) = .ok rightValue second ∧
      operator.Yields leftValue.toInt rightValue.toInt value.toInt ∧
      table.source = second.source ∧
      table.trail.toList = first.trail.toList.map (Outcome.further 1 0) ++
        second.trail.toList.map (Outcome.further (1 + left.nodeCount) first.trail.size) ∧
      table.subTotals.entries = (0, value) ::
        (SubTotals.furtherOn 1 first.subTotals.entries ++
          SubTotals.furtherOn (1 + left.nodeCount) second.subTotals.entries) := by
  rw [rollNodes_binary htime] at h
  obtain ⟨leftValue, middle, hleft, h⟩ := Roller.bind_eq_ok.mp h
  obtain ⟨rightValue, last, hright, h⟩ := Roller.bind_eq_ok.mp h
  obtain ⟨result, settled, hsettle, h⟩ := Roller.bind_eq_ok.mp h
  obtain ⟨rfl, rfl⟩ := Roller.enter_eq_ok h
  obtain ⟨happly, rfl⟩ := Roller.settle_eq_ok hsettle
  -- each operand is found as it is rolled alone, the right one behind what the left one leaves
  obtain ⟨first, hfirst, hmiddle, hnodes, hbefore⟩ :=
    rollNodes_alone htime (visited_entries source) hleft
  obtain ⟨second, hsecond, hlast, -, -⟩ := rollNodes_alone htime hbefore hright
  have hsize : middle.trail.size = first.trail.size := hmiddle.size_eq
  rw [hmiddle.source] at hsecond
  refine ⟨leftValue, first, rightValue, second, hfirst, hsecond, Operator.yields_of_apply happly,
    hlast.source, ?_, ?_⟩
  · rw [hlast.trail, hmiddle.trail, hnodes, hsize]
    rfl
  · change SubTotals.entered 0 value last.subTotals.entries = _
    rw [hlast.subTotals, hmiddle.subTotals, hnodes]
    exact SubTotals.entered_root value _ _ left.nodeCount

/-- How an operator's roll is made of those of its operands: the left one fails for both; or it is
rolled first, then the right one from the source that the left one leaves, and what they give is
put together with nodes and dice numbered further on. -/
theorem roll_binary (htime : limits.time = none) (operator : Operator) (left right : Expression)
    (hnodes : (binary operator left right).nodeCount ≤ limits.nodes) (source : σ) :
    (∀ error between, left.roll limits source = (.error error, between) →
      (binary operator left right).roll limits source = (.error error, between)) ∧
    ∀ whole after, (binary operator left right).roll limits source = (.ok whole, after) →
      ∃ first between second,
        left.roll limits source = (.ok first, between) ∧
        right.roll limits between = (.ok second, after) ∧
        operator.Yields first.total.toInt second.total.toInt whole.total.toInt ∧
        whole.trail.toList = first.trail.toList.map (Outcome.further 1 0) ++
          second.trail.toList.map (Outcome.further (1 + left.nodeCount) first.trail.size) ∧
        whole.subTotals.entries = (0, whole.total) ::
          (SubTotals.furtherOn 1 first.subTotals.entries ++
            SubTotals.furtherOn (1 + left.nodeCount) second.subTotals.entries) := by
  have hcount := nodeCount_binary operator left right
  rw [roll_eq_outcome hnodes, roll_eq_outcome (by omega)]
  constructor
  · intro error between h
    obtain ⟨alone, hleft, rfl⟩ := Roller.outcome_eq_error h
    obtain ⟨after, hafter, hsource⟩ := rollNodes_visited_of_error htime hleft
    rw [rollNodes_binary htime]
    simp only [bind, EStateM.bind, hafter]
    exact congrArg (_, ·) hsource
  · intro whole after h
    obtain ⟨table, hroll, htrail, hsubTotals, rfl⟩ := Roller.outcome_eq_ok h
    obtain ⟨leftValue, first, rightValue, second, hfirst, hsecond, hyields, hsource, htrail',
      hentries⟩ := rollNodes_binary_eq_ok htime hroll
    refine ⟨⟨leftValue, first.trail, first.subTotals⟩, first.source,
      ⟨rightValue, second.trail, second.subTotals⟩, congrArg Roller.outcome hfirst, ?_, hyields,
      htrail ▸ htrail', hsubTotals ▸ hentries⟩
    rw [roll_eq_outcome (by omega), hsecond, hsource]
    rfl

/-- A die is replaced on the left, and one explodes on the right. -/
theorem roll_binary_of_reroll_and_explosion :
    ({} : Limits).time = none ∧
    (binary .add (dice ⟨2, 6, [.reroll none]⟩) (negate (dice ⟨1, 6, [.explode none]⟩))).nodeCount ≤
      ({} : Limits).nodes ∧
    ∃ first between second,
      (dice ⟨2, 6, [.reroll none]⟩).roll {} (Script.ofList [1, 6, 3, 6, 2]) =
        (.ok first, between) ∧
      (negate (dice ⟨1, 6, [.explode none]⟩)).roll {} between =
        (.ok second, ⟨#[1, 6, 3, 6, 2], 5⟩) ∧
      Operator.add.Yields first.total.toInt second.total.toInt 1 ∧
      [⟨1, 6, 1, false, none, none⟩, ⟨1, 6, 6, true, none, none⟩, ⟨1, 6, 3, true, some 0, none⟩,
        ⟨3, 6, 6, true, none, none⟩, ⟨3, 6, 2, true, none, some 3⟩] =
        first.trail.toList.map (Outcome.further 1 0) ++
          second.trail.toList.map (Outcome.further 2 first.trail.size) ∧
      [(0, 1), (1, 9), (2, -8), (3, 8)] = (0, 1) ::
        (SubTotals.furtherOn 1 first.subTotals.entries ++
          SubTotals.furtherOn 2 second.subTotals.entries) := by
  have hnodes : (binary .add (dice ⟨2, 6, [.reroll none]⟩)
      (negate (dice ⟨1, 6, [.explode none]⟩))).nodeCount ≤ ({} : Limits).nodes := by
    rw [nodeCount_eq_size]
    decide
  have h : (binary .add (dice ⟨2, 6, [.reroll none]⟩)
      (negate (dice ⟨1, 6, [.explode none]⟩))).roll {} (Script.ofList [1, 6, 3, 6, 2]) =
      (.ok ⟨1, #[⟨1, 6, 1, false, none, none⟩, ⟨1, 6, 6, true, none, none⟩,
        ⟨1, 6, 3, true, some 0, none⟩, ⟨3, 6, 6, true, none, none⟩,
        ⟨3, 6, 2, true, none, some 3⟩],
        ⟨[(0, 1), (1, 9), (2, -8), (3, 8)], by decide⟩⟩, ⟨#[1, 6, 3, 6, 2], 5⟩) := by
    decide +kernel
  have hparts := (roll_binary rfl .add _ _ hnodes _).2 _ _ h
  rw [nodeCount_eq_size (dice _)] at hparts
  exact ⟨rfl, hnodes, hparts⟩

end Expression

end DiceNotation

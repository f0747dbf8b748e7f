import DiceNotation.Proofs.Ranking

/-!
# Chains of dice

Rerolling and exploding both go on throwing dice after a live die for as long as the last one passes
a condition. What the dice of such a chain show is a question about the faces that the source hands
out, and where they lie on the trail follows from how many there are.
-/
namespace DiceNotation

section Faces

/-- The faces that a source hands out one after the other for dice with so many sides. -/
inductive Draws {σ : Type} [FaceSource σ] (sides : UInt32) : σ → List UInt32 → σ → Prop
  | nil (source : σ) : Draws sides source [] source
  | cons {source between after : σ} {face : UInt32} {faces : List UInt32}
      (first : FaceSource.next sides source = .ok (face, between))
      (rest : Draws sides between faces after) : Draws sides source (face :: faces) after

variable {σ : Type} [FaceSource σ] {sides : UInt32} {source after : σ}

theorem draws_nil_iff : Draws sides source [] after ↔ after = source := by
  constructor
  · rintro ⟨⟩
    rfl
  · rintro rfl
    exact .nil _

theorem draws_cons_iff {face : UInt32} {faces : List UInt32} :
    Draws sides source (face :: faces) after ↔
      ∃ between, FaceSource.next sides source = .ok (face, between) ∧
        Draws sides between faces after := by
  constructor
  · rintro (_ | ⟨first, rest⟩)
    exact ⟨_, first, rest⟩
  · rintro ⟨between, first, rest⟩
    exact .cons first rest

theorem draws_append_iff {faces more : List UInt32} :
    Draws sides source (faces ++ more) after ↔
      ∃ between, Draws sides source faces between ∧ Draws sides between more after := by
  induction faces generalizing source with
  | nil => simp [draws_nil_iff]
  | cons face faces ih =>
    simp only [List.cons_append, draws_cons_iff, ih]
    constructor
    · rintro ⟨next, first, between, rest, hmore⟩
      exact ⟨between, ⟨next, first, rest⟩, hmore⟩
    · rintro ⟨between, ⟨next, first, rest⟩, hmore⟩
      exact ⟨next, first, between, rest, hmore⟩

theorem AlwaysAnswers.draws {faces : List UInt32} (h : AlwaysAnswers source)
    (hdraws : Draws sides source faces after) : AlwaysAnswers after := by
  induction hdraws with
  | nil source => exact h
  | cons first _ ih => exact ih (h.next first)

namespace Condition

variable {condition : Condition} {depth room : Nat} {first face : UInt32} {faces : List UInt32}
  {kind : RollError.Kind}

/-- After a die that shows the first face, at most so many more are thrown: each passes the
condition but the last one. -/
structure Ends (condition : Condition) (depth : Nat) (first : UInt32) (faces : List UInt32) :
    Prop where
  length_le : faces.length ≤ depth
  accepts : ∀ face ∈ (first :: faces).dropLast, condition.accepts face = true
  fails : condition.accepts ((first :: faces).getLast (List.cons_ne_nil _ _)) = false

/-- Why no further die is thrown after these although all of them pass the condition: as many as may
follow have followed, or there is no room left for another. -/
inductive Stuck (condition : Condition) (depth room : Nat) (first : UInt32) (faces : List UInt32) :
    RollError.Kind → Prop
  | endless (accepts : ∀ face ∈ first :: faces, condition.accepts face = true)
      (length : faces.length = depth) (fits : faces.length ≤ room) :
      Stuck condition depth room first faces .infiniteReroll
  | short (accepts : ∀ face ∈ first :: faces, condition.accepts face = true)
      (length : faces.length = room) (less : faces.length < depth) :
      Stuck condition depth room first faces .budgetExceeded

theorem ends_nil_iff : condition.Ends depth first [] ↔ condition.accepts first = false :=
  ⟨Ends.fails, fun h => ⟨Nat.zero_le _, nofun, h⟩⟩

theorem ends_cons_iff :
    condition.Ends (depth + 1) first (face :: faces) ↔
      condition.accepts first = true ∧ condition.Ends depth face faces := by
  constructor
  · rintro ⟨hlength, haccepts, hfails⟩
    rw [List.dropLast_cons_cons, List.forall_mem_cons] at haccepts
    exact ⟨haccepts.1, Nat.le_of_succ_le_succ hlength, haccepts.2, hfails⟩
  · rintro ⟨hfirst, hlength, haccepts, hfails⟩
    refine ⟨Nat.succ_le_succ hlength, ?_, hfails⟩
    rw [List.dropLast_cons_cons, List.forall_mem_cons]
    exact ⟨hfirst, haccepts⟩

theorem Stuck.accepts_first (h : condition.Stuck depth room first faces kind) :
    condition.accepts first = true := by
  cases h with
  | endless accepts | short accepts => exact accepts first (.head _)

theorem stuck_zero_iff :
    condition.Stuck 0 room first faces kind ↔
      kind = .infiniteReroll ∧ faces = [] ∧ condition.accepts first = true := by
  constructor
  · rintro (⟨haccepts, hlength, -⟩ | ⟨-, -, hless⟩)
    · exact ⟨rfl, List.length_eq_zero_iff.mp hlength, haccepts first (.head _)⟩
    · exact absurd hless (Nat.not_lt_zero _)
  · rintro ⟨rfl, rfl, hfirst⟩
    exact .endless (by simpa using hfirst) rfl (Nat.zero_le _)

theorem stuck_nil_iff :
    condition.Stuck (depth + 1) room first [] kind ↔
      kind = .budgetExceeded ∧ room = 0 ∧ condition.accepts first = true := by
  constructor
  · rintro (⟨-, hlength, -⟩ | ⟨haccepts, hlength, -⟩)
    · cases hlength
    · exact ⟨rfl, hlength.symm, haccepts first (.head _)⟩
  · rintro ⟨rfl, rfl, hfirst⟩
    exact .short (by simpa using hfirst) rfl (Nat.succ_pos _)

theorem stuck_cons_iff :
    condition.Stuck (depth + 1) (room + 1) first (face :: faces) kind ↔
      condition.accepts first = true ∧ condition.Stuck depth room face faces kind := by
  constructor
  · rintro (⟨haccepts, hlength, hfits⟩ | ⟨haccepts, hlength, hless⟩)
    all_goals rw [List.forall_mem_cons] at haccepts
    · exact ⟨haccepts.1, .endless haccepts.2 (Nat.succ.inj hlength) (Nat.le_of_succ_le_succ hfits)⟩
    · exact ⟨haccepts.1, .short haccepts.2 (Nat.succ.inj hlength) (Nat.lt_of_succ_lt_succ hless)⟩
  · rintro ⟨hfirst, ⟨haccepts, hlength, hfits⟩ | ⟨haccepts, hlength, hless⟩⟩
    · exact .endless (List.forall_mem_cons.mpr ⟨hfirst, haccepts⟩) (congrArg Nat.succ hlength)
        (Nat.succ_le_succ hfits)
    · exact .short (List.forall_mem_cons.mpr ⟨hfirst, haccepts⟩) (congrArg Nat.succ hlength)
        (Nat.succ_lt_succ hless)

theorem Stuck.room_pos (h : condition.Stuck depth room first (face :: faces) kind) : 0 < room := by
  cases h with
  | endless _ _ fits => exact Nat.lt_of_lt_of_le (Nat.succ_pos _) fits
  | short _ length => exact length ▸ Nat.succ_pos _

end Condition

end Faces

/-- How a die is thrown after another one of its term: for which cause, and what the other one
becomes. -/
structure Succession where
  node : Nat
  sides : UInt32
  cause : Nat → Cause
  mark : Outcome → Outcome
  value_mark : ∀ outcome, (mark outcome).value = outcome.value
  mark_mark : ∀ outcome, mark (mark outcome) = mark outcome

namespace Succession

def rerolls (node : Nat) (sides : UInt32) : Succession :=
  ⟨node, sides, .reroll, Outcome.retired, fun _ => rfl, fun _ => rfl⟩

def explosions (node : Nat) (sides : UInt32) : Succession :=
  ⟨node, sides, .explosion, id, fun _ => rfl, fun _ => rfl⟩

variable (s : Succession)

/-- The trail when a die is thrown after another. -/
def throwAfter (trail : Trail) (die : Nat) (face : UInt32) : Trail :=
  (trail.modify die s.mark).push (.thrown s.node s.sides face (s.cause die))

/-- The trail when dice are thrown one by one, each given by the die it comes after and its face. -/
def throwAll (trail : Trail) : List (Nat × UInt32) → Trail
  | [] => trail
  | (die, face) :: thrown => throwAll (s.throwAfter trail die face) thrown

/-- What becomes of an outcome when the given dice get successors. -/
def marked (dice : List Nat) (die : Nat) (outcome : Outcome) : Outcome :=
  if die ∈ dice then s.mark outcome else outcome

theorem size_throwAfter (trail : Trail) (die : Nat) (face : UInt32) :
    (s.throwAfter trail die face).size = trail.size + 1 := by
  simp [throwAfter]

theorem size_throwAll (trail : Trail) (thrown : List (Nat × UInt32)) :
    (s.throwAll trail thrown).size = trail.size + thrown.length := by
  induction thrown generalizing trail with
  | nil => rfl
  | cons first rest ih =>
    rw [throwAll, ih, size_throwAfter, List.length_cons]
    omega

theorem throwAll_append (trail : Trail) (thrown more : List (Nat × UInt32)) :
    s.throwAll trail (thrown ++ more) = s.throwAll (s.throwAll trail thrown) more := by
  induction thrown generalizing trail with
  | nil => rfl
  | cons first rest ih => exact ih _

theorem getElem?_throwAfter_of_some {trail : Trail} {other : Nat} {outcome : Outcome}
    (h : trail[other]? = some outcome) (die : Nat) (face : UInt32) :
    (s.throwAfter trail die face)[other]? = some (s.marked [die] other outcome) := by
  have hlt := (Array.getElem?_eq_some_iff.mp h).1
  rw [throwAfter, Array.getElem?_push_lt (by simpa using hlt), ← Array.getElem?_eq_getElem,
    Array.getElem?_modify, h, marked]
  by_cases hdie : die = other
  · simp [hdie]
  · simp [hdie, Ne.symm hdie]

theorem getElem?_throwAfter_size (trail : Trail) (die : Nat) (face : UInt32) :
    (s.throwAfter trail die face)[trail.size]? =
      some (.thrown s.node s.sides face (s.cause die)) := by
  have hsize : (trail.modify die s.mark).size = trail.size := Array.size_modify ..
  rw [throwAfter, ← hsize, Array.getElem?_push_size]

theorem marked_marked (dice others : List Nat) (die : Nat) (outcome : Outcome) :
    s.marked others die (s.marked dice die outcome) = s.marked (dice ++ others) die outcome := by
  by_cases hdice : die ∈ dice <;> by_cases hothers : die ∈ others <;>
    simp [marked, hdice, hothers, s.mark_mark]

theorem value_marked (dice : List Nat) (die : Nat) (outcome : Outcome) :
    (s.marked dice die outcome).value = outcome.value := by
  unfold marked
  split
  · exact s.value_mark outcome
  · rfl

theorem getElem?_throwAll_of_some {trail : Trail} {die : Nat} {outcome : Outcome}
    (h : trail[die]? = some outcome) (thrown : List (Nat × UInt32)) :
    (s.throwAll trail thrown)[die]? = some (s.marked (thrown.map Prod.fst) die outcome) := by
  induction thrown generalizing trail outcome with
  | nil => exact h
  | cons first rest ih =>
    rw [throwAll, ih (s.getElem?_throwAfter_of_some h first.1 first.2), marked_marked]
    rfl

theorem getElem?_throwAll_add {trail : Trail} {thrown : List (Nat × UInt32)}
    (hearlier : ∀ i die face, thrown[i]? = some (die, face) → die < trail.size + i) {i die : Nat}
    {face : UInt32} (h : thrown[i]? = some (die, face)) :
    (s.throwAll trail thrown)[trail.size + i]? =
      some (s.marked (thrown.map Prod.fst) (trail.size + i)
        (.thrown s.node s.sides face (s.cause die))) := by
  induction thrown generalizing trail i with
  | nil => cases h
  | cons first rest ih =>
    have hfirst : first.1 < trail.size := hearlier 0 first.1 first.2 rfl
    have hmarked (outcome : Outcome) (i : Nat) :
        s.marked (rest.map Prod.fst) (trail.size + i) outcome =
          s.marked ((first :: rest).map Prod.fst) (trail.size + i) outcome := by
      have hne : trail.size + i ≠ first.1 := by omega
      simp only [marked, List.map_cons, List.mem_cons, hne, false_or]
    rw [throwAll, ← hmarked]
    cases i with
    | zero =>
      cases h
      exact s.getElem?_throwAll_of_some (s.getElem?_throwAfter_size trail die face) rest
    | succ i =>
      have hsize := s.size_throwAfter trail first.1 first.2
      have hplace : trail.size + (i + 1) = (s.throwAfter trail first.1 first.2).size + i := by
        omega
      rw [hplace]
      refine ih (fun j other shown hj => ?_) h
      have := hearlier (j + 1) other shown hj
      omega

theorem faces_throwAfter (trail : Trail) (die : Nat) (face : UInt32) :
    Trail.faces (s.throwAfter trail die face) = Trail.faces trail ++ [face] := by
  rw [throwAfter, Trail.faces_push, Outcome.value_thrown]
  congr 1
  apply List.ext_getElem?
  intro other
  simp only [Trail.faces, List.getElem?_map, Array.getElem?_toList, Array.getElem?_modify]
  by_cases hdie : die = other
  · cases trail[other]? <;> simp [hdie, s.value_mark]
  · simp [hdie]

theorem faces_throwAll (trail : Trail) (thrown : List (Nat × UInt32)) :
    Trail.faces (s.throwAll trail thrown) = Trail.faces trail ++ thrown.map Prod.snd := by
  induction thrown generalizing trail with
  | nil => exact (List.append_nil _).symm
  | cons first rest ih =>
    rw [throwAll, ih, faces_throwAfter, List.append_assoc]
    rfl

end Succession

/-- The face that a die on the trail shows, if there is such a die. -/
def Trail.face? (trail : Trail) (die : Nat) : Option UInt32 := trail[die]?.map Outcome.value

theorem Trail.face?_eq_getElem? (trail : Trail) (die : Nat) :
    Trail.face? trail die = (Trail.faces trail)[die]? := by
  rw [face?, faces, List.getElem?_map, Array.getElem?_toList]

theorem Table.shows_iff {σ : Type} {table : Table σ} {die : Nat} {face : UInt32} :
    table.Shows die face ↔ Trail.face? table.trail die = some face := by
  rw [Trail.face?, Option.map_eq_some_iff]
  rfl

/-- Chains that start with the live dice, each as long as there are faces for it, with the new dice
one behind the other from the given place on. -/
def chainsFrom : Nat → List Nat → List (List UInt32) → List (List Nat)
  | place, die :: live, faces :: drawn =>
    (die :: List.range' place faces.length) :: chainsFrom (place + faces.length) live drawn
  | _, _, _ => []

def succeeded (chains : List (List Nat)) : List Nat := chains.flatMap List.dropLast

theorem succeeded_cons (chain : List Nat) (chains : List (List Nat)) :
    succeeded (chain :: chains) = chain.dropLast ++ succeeded chains := rfl

/-- What chains of dice make of a trail, when the live dice get successors. -/
structure Succession.Chains (s : Succession) (Fits : UInt32 → List UInt32 → Prop)
    (before after : Trail) (live : List Nat) (chains : List (List Nat)) : Prop where
  /-- Each chain starts with a live die. -/
  heads : chains.map List.head? = live.map some
  /-- All others are new, in the order of the chains. -/
  fresh : chains.flatMap List.tail = List.range' before.size (after.size - before.size)
  /-- Every new die is thrown after the one before it. -/
  linked : ∀ chain ∈ chains, ∀ die new, (die, new) ∈ chain.zip chain.tail →
    ∃ face, after[new]? =
      some (s.marked (succeeded chains) new (.thrown s.node s.sides face (s.cause die)))
  /-- Outcomes only change by getting successors. -/
  former : ∀ (die : Nat) (outcome : Outcome), before[die]? = some outcome →
    after[die]? = some (s.marked (succeeded chains) die outcome)
  /-- The faces of the chains are as they should be. -/
  shows : ∀ chain ∈ chains, ∃ first faces,
    chain.map (Trail.face? after) = (first :: faces).map some ∧ Fits first faces

section ChainsFrom

variable {live : List Nat} {firsts : List UInt32} {drawn : List (List UInt32)} {place : Nat}

theorem map_head?_chainsFrom (h : live.length = drawn.length) :
    (chainsFrom place live drawn).map List.head? = live.map some := by
  induction live generalizing place drawn with
  | nil => cases drawn <;> rfl
  | cons die live ih =>
    cases drawn with
    | nil => cases h
    | cons faces drawn => rw [chainsFrom, List.map_cons, ih (Nat.succ.inj h)]; rfl

theorem flatMap_tail_chainsFrom (h : live.length = drawn.length) :
    (chainsFrom place live drawn).flatMap List.tail = List.range' place drawn.flatten.length := by
  induction live generalizing place drawn with
  | nil =>
    obtain rfl := List.length_eq_zero_iff.mp h.symm
    rfl
  | cons die live ih =>
    cases drawn with
    | nil => cases h
    | cons faces drawn =>
      rw [chainsFrom, List.flatMap_cons, ih (Nat.succ.inj h), List.tail_cons,
        List.range'_append_1, List.flatten_cons, List.length_append]

theorem length_succeeded_chainsFrom (h : live.length = drawn.length) :
    (succeeded (chainsFrom place live drawn)).length = drawn.flatten.length := by
  induction live generalizing place drawn with
  | nil =>
    obtain rfl := List.length_eq_zero_iff.mp h.symm
    rfl
  | cons die live ih =>
    cases drawn with
    | nil => cases h
    | cons faces drawn =>
      have hrest : (succeeded (chainsFrom (place + faces.length) live drawn)).length =
          drawn.flatten.length := ih (Nat.succ.inj h)
      rw [chainsFrom, succeeded_cons, List.length_append, hrest, List.length_dropLast,
        List.length_cons, List.length_range', Nat.add_sub_cancel, List.flatten_cons,
        List.length_append]

theorem lt_of_getElem?_succeeded (hlive : ∀ die ∈ live, die < place) {i die : Nat}
    (h : (succeeded (chainsFrom place live drawn))[i]? = some die) : die < place + i := by
  induction live generalizing place drawn i with
  | nil =>
    rw [chainsFrom.eq_def] at h
    cases h
  | cons first live ih =>
    cases drawn with
    | nil => cases h
    | cons faces drawn =>
      rw [chainsFrom, succeeded_cons, List.getElem?_append, List.length_dropLast,
        List.length_cons, List.length_range', Nat.add_sub_cancel] at h
      split at h
      · rw [List.getElem?_dropLast] at h
        split at h
        · cases i with
          | zero =>
            cases h
            exact hlive _ (.head _)
          | succ i =>
            rw [List.getElem?_cons_succ, List.getElem?_eq_some_iff] at h
            obtain ⟨hi, rfl⟩ := h
            rw [List.getElem_range']
            omega
        · cases h
      · have hlive' : ∀ die ∈ live, die < place + faces.length := fun die hdie =>
          Nat.lt_of_lt_of_le (hlive die (.tail _ hdie)) (Nat.le_add_right _ _)
        have := ih hlive' h
        omega

theorem map_getElem?_range' {shown faces : List UInt32} (h : faces <+: shown.drop place) :
    (List.range' place faces.length).map (fun die => shown[die]?) = faces.map some := by
  apply List.ext_getElem
  · simp
  · intro i hi hi'
    rw [List.length_map] at hi'
    have hface : faces[i]? = shown[place + i]? := by
      obtain ⟨rest, hrest⟩ := h
      rw [← List.getElem?_drop, ← hrest, List.getElem?_append_left hi']
    simp [← hface]

theorem shows_chainsFrom {Fits : UInt32 → List UInt32 → Prop} {shown : List UInt32}
    (hlive : live.map (fun die => shown[die]?) = firsts.map some)
    (hfits : List.Forall₂ Fits firsts drawn) (hdrawn : drawn.flatten <+: shown.drop place) :
    ∀ chain ∈ chainsFrom place live drawn, ∃ first faces,
      chain.map (fun die => shown[die]?) = (first :: faces).map some ∧ Fits first faces := by
  induction hfits generalizing live place with
  | nil =>
    cases live with
    | nil => exact nofun
    | cons die live => cases hlive
  | @cons first faces firsts drawn hfirst _ ih =>
    cases live with
    | nil => exact nofun
    | cons die live =>
      obtain ⟨hdie, hlive⟩ := List.cons.inj hlive
      rw [List.flatten_cons] at hdrawn
      have hfaces : faces <+: shown.drop place := (List.prefix_append _ _).trans hdrawn
      have hrest : drawn.flatten <+: shown.drop (place + faces.length) := by
        obtain ⟨rest, hrest⟩ := hdrawn
        rw [← List.drop_drop, ← hrest, List.append_assoc, List.drop_left]
        exact List.prefix_append _ _
      rw [chainsFrom, List.forall_mem_cons]
      refine ⟨⟨first, faces, ?_, hfirst⟩, ih hlive hrest⟩
      rw [List.map_cons, map_getElem?_range' hfaces, List.map_cons, ← hdie]

theorem flatMap_zip_tail (chains : List (List Nat)) :
    (chains.flatMap fun chain => chain.zip chain.tail) =
      (succeeded chains).zip (chains.flatMap List.tail) := by
  induction chains with
  | nil => rfl
  | cons chain chains ih =>
    have hlength : chain.dropLast.length = chain.tail.length := by simp
    have hchain : chain.zip chain.tail = chain.dropLast.zip chain.tail := by
      rw [List.zip_eq_zip_take_min, List.dropLast_eq_take]
      simp [List.take_of_length_le]
    rw [List.flatMap_cons, List.flatMap_cons, succeeded_cons, List.zip_append hlength, ih, hchain]

end ChainsFrom

namespace Succession

variable (s : Succession) {trail : Trail} {live : List Nat} {firsts : List UInt32}
  {drawn : List (List UInt32)} {Fits : UInt32 → List UInt32 → Prop}

/-- The dice that are thrown when the live dice get chains with the given faces, each with the die
it comes after. -/
def thrownFor (place : Nat) (live : List Nat) (drawn : List (List UInt32)) :
    List (Nat × UInt32) :=
  (succeeded (chainsFrom place live drawn)).zip drawn.flatten

theorem map_fst_thrownFor (place : Nat) (h : live.length = drawn.length) :
    (thrownFor place live drawn).map Prod.fst = succeeded (chainsFrom place live drawn) :=
  List.map_fst_zip (Nat.le_of_eq (length_succeeded_chainsFrom h))

theorem map_snd_thrownFor (place : Nat) (h : live.length = drawn.length) :
    (thrownFor place live drawn).map Prod.snd = drawn.flatten :=
  List.map_snd_zip (Nat.le_of_eq (length_succeeded_chainsFrom h).symm)

theorem length_thrownFor (place : Nat) (h : live.length = drawn.length) :
    (thrownFor place live drawn).length = drawn.flatten.length := by
  rw [← map_snd_thrownFor place h, List.length_map]

theorem chains_throwAll (hlive : live.map (Trail.face? trail) = firsts.map some)
    (hfits : List.Forall₂ Fits firsts drawn) :
    s.Chains Fits trail (s.throwAll trail (thrownFor trail.size live drawn)) live
      (chainsFrom trail.size live drawn) := by
  have hlength : live.length = drawn.length := by
    rw [← hfits.length_eq, ← List.length_map (f := Trail.face? trail), hlive, List.length_map]
  have hsize := s.size_throwAll trail (thrownFor trail.size live drawn)
  rw [length_thrownFor _ hlength] at hsize
  have hplaces : ∀ die ∈ live, die < trail.size := by
    intro die hdie
    have hface : Trail.face? trail die ∈ firsts.map some := hlive ▸ List.mem_map_of_mem hdie
    obtain ⟨face, -, hface⟩ := List.mem_map.mp hface
    obtain ⟨outcome, houtcome, -⟩ := Option.map_eq_some_iff.mp hface.symm
    exact (Array.getElem?_eq_some_iff.mp houtcome).1
  have hearlier : ∀ i die face, (thrownFor trail.size live drawn)[i]? = some (die, face) →
      die < trail.size + i := by
    intro i die face hi
    exact lt_of_getElem?_succeeded hplaces (List.getElem?_zip_eq_some.mp hi).1
  have hfresh : (chainsFrom trail.size live drawn).flatMap List.tail =
      List.range' trail.size drawn.flatten.length := flatMap_tail_chainsFrom hlength
  refine ⟨map_head?_chainsFrom hlength, ?_, ?_, ?_, ?_⟩
  · rw [hfresh, hsize, Nat.add_sub_cancel_left]
  · intro chain hchain die new hlink
    have hmem : (die, new) ∈ (chainsFrom trail.size live drawn).flatMap fun chain =>
        chain.zip chain.tail := List.mem_flatMap.mpr ⟨chain, hchain, hlink⟩
    rw [flatMap_zip_tail, hfresh] at hmem
    obtain ⟨i, hi⟩ := List.mem_iff_getElem?.mp hmem
    obtain ⟨hdie, hnew⟩ := List.getElem?_zip_eq_some.mp hi
    obtain ⟨hlt, rfl⟩ := List.getElem?_eq_some_iff.mp hnew
    rw [List.length_range'] at hlt
    have hthrown : (thrownFor trail.size live drawn)[i]? = some (die, drawn.flatten[i]) :=
      List.getElem?_zip_eq_some.mpr ⟨hdie, List.getElem?_eq_getElem hlt⟩
    refine ⟨drawn.flatten[i], ?_⟩
    rw [List.getElem_range', Nat.one_mul, ← map_fst_thrownFor _ hlength]
    exact s.getElem?_throwAll_add hearlier hthrown
  · intro die outcome hdie
    rw [← map_fst_thrownFor _ hlength]
    exact s.getElem?_throwAll_of_some hdie _
  · have hfaces := s.faces_throwAll trail (thrownFor trail.size live drawn)
    rw [map_snd_thrownFor _ hlength] at hfaces
    have hface : ∀ die, Trail.face? (s.throwAll trail (thrownFor trail.size live drawn)) die =
        (Trail.faces trail ++ drawn.flatten)[die]? := by
      intro die
      rw [Trail.face?_eq_getElem?, hfaces]
    simp only [funext hface]
    refine shows_chainsFrom ?_ hfits ?_
    · rw [← hlive]
      refine List.map_congr_left fun die hdie => ?_
      have hplace := hplaces die hdie
      rw [List.getElem?_append_left (by rwa [Trail.length_faces]), Trail.face?_eq_getElem?]
    · have hdrop : (Trail.faces trail ++ drawn.flatten).drop trail.size = drawn.flatten := by
        rw [← Trail.length_faces, List.drop_left]
      exact hdrop.symm ▸ List.prefix_rfl

end Succession

end DiceNotation

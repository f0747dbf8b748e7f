import DiceNotation.Faces.Script
import DiceNotation.Proofs.Chase

/-!
# Chains of rerolls

Rerolling replaces each live die until one fails the condition, which takes over its place among the
live dice. So a term that rerolls last, but for choosing dice, keeps none that passes the condition.
-/
namespace DiceNotation

/-- When dice are rerolled only once, one that passes the condition is replaced by a single other,
whatever that shows. -/
def Condition.EndsOnce (condition : Condition) (first : UInt32) (faces : List UInt32) : Prop :=
  faces.length = if condition.accepts first = true then 1 else 0

/-- When dice are rerolled only once, nothing stops that but that there is no room. -/
def Condition.StuckOnce (condition : Condition) (room : Nat) (first : UInt32) (faces : List UInt32)
    (kind : RollError.Kind) : Prop :=
  kind = .budgetExceeded ∧ room = 0 ∧ faces = [] ∧ condition.accepts first = true

def AreLast (chains : List (List Nat)) (left : List Nat) : Prop :=
  chains.map List.getLast? = left.map some

theorem areLast_chainsFrom (place : Nat) (live : List Nat) (drawn : List (List UInt32)) :
    AreLast (chainsFrom place live drawn)
      ((chainsFrom place live drawn).map fun chain => chain.getLastD 0) := by
  induction live generalizing place drawn with
  | nil =>
    rw [chainsFrom.eq_def]
    rfl
  | cons die live ih =>
    cases drawn with
    | nil => rfl
    | cons faces drawn =>
      have hrest := ih (place + faces.length) drawn
      unfold AreLast at hrest ⊢
      rw [chainsFrom, List.map_cons, List.map_cons, List.map_cons, hrest, List.getLastD_cons,
        List.getLast?_cons, List.getLastD_eq_getLast?]

namespace Roller

variable {σ : Type} [FaceSource σ] {limits : Limits}

theorem throws_replaceDie (htime : limits.time = none) (node : Nat) (term : DiceTerm) :
    Throws (σ := σ) limits (.rerolls node term.sides) (replaceDie limits node term) where
  thrown := by
    intro table die face source hdie hroom hnext
    have hretire := retire_apply die table
    rw [if_pos hdie] at hretire
    have hsize : (table.trail.modify die Outcome.retired).size = table.trail.size :=
      Array.size_modify ..
    have hthrow := throwDie_of_room htime
      { table with trail := table.trail.modify die Outcome.retired }
      (by rwa [Table.room, hsize]) hnext node (.reroll die)
    rw [hsize] at hthrow
    exact bind_eq_ok.mpr ⟨(), _, hretire, hthrow⟩
  full := by
    intro table die hdie hroom
    have hretire := retire_apply die table
    rw [if_pos hdie] at hretire
    have hthrow := throwDie_of_full htime
      { table with trail := table.trail.modify die Outcome.retired }
      (by rwa [Table.room, Array.size_modify]) node term.sides (.reroll die)
    exact ⟨_, bind_eq_error.mpr (.inr ⟨(), _, hretire, hthrow⟩)⟩

/-- What a reroll does with a die that may not be rerolled any more. -/
def stopReroll (limits : Limits) (term : DiceTerm) (condition : Condition) (once : Bool) :
    Roller σ (List Nat) :=
  if once then return [] else throw (.endlessReroll term condition limits.rerollDepth)

theorem rerollDie_eq_chase (node : Nat) (term : DiceTerm) (condition : Condition) (once : Bool)
    (depth die : Nat) :
    rerollDie (σ := σ) limits node term condition once depth die =
      (fun added => added.getLastD die) <$> chase (replaceDie limits node term) condition
        (stopReroll limits term condition once) depth die := by
  induction depth generalizing die with
  | zero =>
    rw [rerollDie, chase, map_bind]
    refine bind_congr fun face => ?_
    split
    · cases once <;> rfl
    · rfl
  | succ depth ih =>
    rw [rerollDie, chase, map_bind]
    refine bind_congr fun face => ?_
    split
    · simp only [ih, map_eq_pure_bind, bind_assoc, pure_bind, List.getLastD_cons]
    · rfl

omit [FaceSource σ] in
theorem chase_zero_once {throwNext : Nat → Roller σ Nat} {condition : Condition} {table : Table σ}
    {die : Nat} {first : UInt32} (hshows : table.Shows die first) :
    chase throwNext condition (pure []) 0 die table = .ok [] table := by
  cases hfirst : condition.accepts first with
  | true => exact chase_zero hshows hfirst
  | false => exact chase_of_fails hshows hfirst 0

/-- A die that is replaced once is looked at again, but whatever it shows, it stays. -/
theorem chases_once {s : Succession} {throwNext : Nat → Roller σ Nat}
    (hthrows : Throws limits s throwNext) (condition : Condition) :
    Chases limits s condition.EndsOnce condition.StuckOnce
      (chase throwNext condition (pure []) 1) List.tail where
  fits := by
    intro table die first faces after hshows hfits hdraws hroom
    unfold Condition.EndsOnce at hfits
    cases hfirst : condition.accepts first with
    | true =>
      rw [hfirst, if_pos rfl] at hfits
      obtain ⟨face, rfl⟩ := List.length_eq_one_iff.mp hfits
      obtain ⟨between, hnext, hrest⟩ := draws_cons_iff.mp hdraws
      obtain rfl := draws_nil_iff.mp hrest
      have hthrown := hthrows.thrown (lt_size_of_shows hshows) hroom hnext
      have hstop : chase throwNext condition (pure []) 0 table.trail.size
          (s.throwOn table [(die, face)] after) = .ok [] _ :=
        chase_zero_once (shows_throwOn s table die face after)
      rw [chase_succ hshows hfirst]
      exact bind_eq_ok.mpr ⟨_, _, hthrown, bind_eq_ok.mpr ⟨[], _, hstop, rfl⟩⟩
    | false =>
      rw [hfirst, if_neg Bool.false_ne_true] at hfits
      obtain rfl := List.length_eq_zero_iff.mp hfits
      obtain rfl := draws_nil_iff.mp hdraws
      exact chase_of_fails hshows hfirst 1
  stuck := by
    rintro table die first faces after kind hshows ⟨rfl, hfull, -, hfirst⟩ -
    obtain ⟨last, hthrown⟩ := hthrows.full (lt_size_of_shows hshows) hfull
    rw [chase_succ hshows hfirst]
    exact ⟨.tooManyDice limits.dice, last, bind_eq_error.mpr (.inl hthrown), rfl⟩

theorem chases_rerollDie {node : Nat} {term : DiceTerm} {condition : Condition} {once : Bool}
    {depth : Nat} {Fits : UInt32 → List UInt32 → Prop}
    {Stuck : Nat → UInt32 → List UInt32 → RollError.Kind → Prop}
    (h : Chases (σ := σ) limits (.rerolls node term.sides) Fits Stuck
      (chase (replaceDie limits node term) condition (stopReroll limits term condition once) depth)
      List.tail) :
    Chases (σ := σ) limits (.rerolls node term.sides) Fits Stuck
      (rerollDie limits node term condition once depth) fun chain => chain.getLastD 0 := by
  rw [funext (rerollDie_eq_chase node term condition once depth)]
  exact h.map fun die added => List.getLastD_cons ..

end Roller

section Once

variable {σ : Type} [FaceSource σ] {source : σ} {sides : UInt32}

theorem AlwaysAnswers.endsOnce_or_stuckOnce (h : AlwaysAnswers source) (hsides : sides ≠ 0)
    (condition : Condition) (first : UInt32) (room : Nat) :
    ∃ faces after, Draws sides source faces after ∧
      ((condition.EndsOnce first faces ∧ faces.length ≤ room) ∨
        ∃ kind, condition.StuckOnce room first faces kind) := by
  cases hfirst : condition.accepts first with
  | false =>
    have hends : condition.EndsOnce first [] := by simp [Condition.EndsOnce, hfirst]
    exact ⟨[], source, .nil source, .inl ⟨hends, Nat.zero_le _⟩⟩
  | true =>
    cases room with
    | zero => exact ⟨[], source, .nil source, .inr ⟨_, rfl, rfl, rfl, hfirst⟩⟩
    | succ room =>
      obtain ⟨⟨face, after⟩, hnext⟩ := h source .start sides hsides
      exact ⟨[face], after, .cons hnext (.nil after),
        .inl ⟨by simp [Condition.EndsOnce, hfirst], Nat.succ_le_succ (Nat.zero_le _)⟩⟩

end Once

section Replaced

variable {σ : Type} [FaceSource σ] {limits : Limits} {node : Nat} {term : DiceTerm}
  {start table after : Table σ} {live left : List Nat} {condition : Condition}

/-- Both kinds of rerolls. -/
theorem Underway.extends_replaced (h : Underway limits node term start table live)
    (hstart : Sided start.source start.trail) (hanswers : AlwaysAnswers start.source) {once : Bool}
    {Fits : UInt32 → List UInt32 → Prop}
    {Stuck : Nat → UInt32 → List UInt32 → RollError.Kind → Prop}
    (hchases : Roller.Chases (σ := σ) limits (.rerolls node term.sides) Fits Stuck
      (Roller.chase (Roller.replaceDie limits node term) condition
        (Roller.stopReroll limits term condition once) (limits.rerolls once)) List.tail)
    (hfails : ∀ first, condition.accepts first = false → Fits first [])
    (hone : term.sides ≠ 0 → ∀ source : σ, AlwaysAnswers source → ∀ first room, ∃ faces after,
      Draws term.sides source faces after ∧
        ((Fits first faces ∧ faces.length ≤ room) ∨ ∃ kind, Stuck room first faces kind)) :
    (Succession.rerolls node term.sides).Extends Fits Stuck AreLast limits table live
      (Roller.applyReroll limits node term condition once live table) := by
  have hshows : ∀ die ∈ live, table.Shows die (table.faceAt die) := fun _ => h.shows
  have hlive := map_face?_of_shows hshows
  have hchases := Roller.chases_rerollDie hchases
  have hidle : condition.satisfiable term.sides = false → ∀ remarks,
      live.mapM (Roller.rerollDie limits node term condition once (limits.rerolls once))
        { table with remarks := remarks } = .ok live { table with remarks := remarks } := by
    intro hskip remarks
    have hreads : live.mapM (Roller.rerollDie limits node term condition once (limits.rerolls once))
        { table with remarks := remarks } =
          .ok (live.map id) { table with remarks := remarks } :=
      Roller.mapM_of_reads fun die hdie => hchases.of_fits_nil (hshows die hdie)
        (hfails _ (h.fails_of_unsatisfiable hstart hskip hdie))
    rwa [List.map_id] at hreads
  obtain ⟨remarks, hresult⟩ := Roller.orSkip_apply (.skippedReroll condition term) hidle
  have happly : Roller.applyReroll limits node term condition once live table = _ := hresult
  rw [happly]
  refine extends_of hshows (fun hne => hone (h.sides_ne_zero hstart hne))
    (h.keeps .answering hanswers) (fun drawn after hdrawn => ?_) fun kind hstuck => ?_
  · have hresult := hchases.mapM_of_drawn { table with remarks } hlive hdrawn
    exact ⟨_, remarks, areLast_chainsFrom _ _ _, hresult⟩
  · exact hchases.mapM_of_getsStuck { table with remarks } hlive hstuck

theorem Underway.extends_reroll (h : Underway limits node term start table live)
    (htime : limits.time = none) (hstart : Sided start.source start.trail)
    (hanswers : AlwaysAnswers start.source) (condition : Condition) :
    (Succession.rerolls node term.sides).Extends (condition.Ends limits.rerollDepth)
      (condition.Stuck limits.rerollDepth) AreLast limits table live
      (Roller.applyReroll limits node term condition false live table) :=
  h.extends_replaced hstart hanswers
    (Roller.chases_chase (Roller.throws_replaceDie htime node term) condition rfl _)
    (fun _ => Condition.ends_nil_iff.mpr)
    fun hsides _ hsource => hsource.ends_or_stuck hsides condition limits.rerollDepth

theorem Underway.extends_rerollOnce (h : Underway limits node term start table live)
    (htime : limits.time = none) (hstart : Sided start.source start.trail)
    (hanswers : AlwaysAnswers start.source) (condition : Condition) :
    (Succession.rerolls node term.sides).Extends condition.EndsOnce condition.StuckOnce AreLast
      limits table live (Roller.applyReroll limits node term condition true live table) := by
  have hfails (first : UInt32) (hfirst : condition.accepts first = false) :
      condition.EndsOnce first [] := by
    simp [Condition.EndsOnce, hfirst]
  exact h.extends_replaced hstart hanswers
    (Roller.chases_once (Roller.throws_replaceDie htime node term) condition) hfails
    fun hsides source hsource => hsource.endsOnce_or_stuckOnce hsides condition

end Replaced

/-- A modifier that only chooses among the live dice. -/
def Modifier.chooses : Modifier → Bool
  | keep _ _ | drop _ _ => true
  | _ => false

def Invariant.showing {σ : Type} [FaceSource σ] (die : Nat) (face : UInt32) : Invariant σ where
  Holds _ trail := Trail.face? trail die = some face
  thrown := by
    intro source after trail node sides shown cause h _
    rw [Trail.face?_eq_getElem?] at h ⊢
    rw [Trail.faces_push]
    exact List.getElem?_append_left (List.getElem?_eq_some_iff.mp h).1 ▸ h
  retired := by
    intro source trail other h
    rw [Trail.face?_eq_getElem?] at h ⊢
    rwa [Trail.faces_modify_retired]

/-- All of the dice show faces that fail the condition. -/
def AllFail (condition : Condition) (trail : Trail) (dice : List Nat) : Prop :=
  ∀ die ∈ dice, ∃ face, Trail.face? trail die = some face ∧ condition.accepts face = false

section Kept

variable {σ : Type} [FaceSource σ] {limits : Limits} {node : Nat} {term : DiceTerm}
  {start table after : Table σ} {live left : List Nat} {condition : Condition}

theorem AllFail.kept (h : AllFail condition table.trail live) {α : Type} {step : Roller σ α} {a : α}
    (hstep : step table = .ok a after)
    (hkept : ∀ die face, (Invariant.showing die face).KeptBy step) :
    AllFail condition after.trail live := by
  intro die hdie
  obtain ⟨face, hface, hfails⟩ := h die hdie
  exact ⟨face, hkept die face hstep hface, hfails⟩

namespace Roller

theorem rerollDie_fails {depth die new : Nat}
    (h : rerollDie limits node term condition false depth die table = .ok new after) :
    AllFail condition after.trail [new] := by
  induction depth generalizing die table with
  | zero =>
    obtain ⟨face, between, hface, h⟩ := bind_eq_ok.mp h
    obtain ⟨hshows, rfl⟩ := faceOf_eq_ok hface
    rcases ite_eq_ok.mp h with ⟨-, h⟩ | ⟨hfails, h⟩
    · cases h
    · obtain ⟨rfl, rfl⟩ := pure_eq_ok.mp h
      exact List.forall_mem_singleton.mpr
        ⟨face, Table.shows_iff.mp hshows, Bool.eq_false_iff.mpr hfails⟩
  | succ depth ih =>
    obtain ⟨face, between, hface, h⟩ := bind_eq_ok.mp h
    obtain ⟨hshows, rfl⟩ := faceOf_eq_ok hface
    rcases ite_eq_ok.mp h with ⟨-, h⟩ | ⟨hfails, h⟩
    · obtain ⟨thrown, between, -, h⟩ := bind_eq_ok.mp h
      exact ih h
    · obtain ⟨rfl, rfl⟩ := pure_eq_ok.mp h
      exact List.forall_mem_singleton.mpr
        ⟨face, Table.shows_iff.mp hshows, Bool.eq_false_iff.mpr hfails⟩

theorem mapM_rerollDie_fails {depth : Nat}
    (h : live.mapM (rerollDie limits node term condition false depth) table = .ok left after) :
    AllFail condition after.trail left := by
  induction live generalizing table left with
  | nil =>
    obtain ⟨rfl, rfl⟩ := mapM_nil_eq_ok h
    exact nofun
  | cons die live ih =>
    obtain ⟨new, between, others, hfirst, hrest, rfl⟩ := mapM_cons_eq_ok h
    have hnew := (rerollDie_fails hfirst).kept hrest fun other face =>
      let c := (Invariant.showing (σ := σ) other face).coupling limits
      c.mapM (c.rerollDie node term condition false depth) live
    exact List.forall_mem_cons.mpr ⟨hnew new (.head _), ih hrest⟩

theorem subset_of_chooses {modifier : Modifier} (hchooses : modifier.chooses = true)
    (h : applyModifier limits node term live modifier table = .ok left after) : left ⊆ live := by
  have hdropped {pick : List Nat → List Nat} {rank : Rank} {amount : UInt32}
      (h : (do
        checkAmount term amount
        let ranking ← ranked rank live
        dropDice live (pick ranking)) table = .ok left after) : left ⊆ live := by
    obtain ⟨⟨⟩, between, -, h⟩ := bind_eq_ok.mp h
    obtain ⟨ranking, between, -, h⟩ := bind_eq_ok.mp h
    obtain ⟨⟨⟩, between, -, h⟩ := bind_eq_ok.mp h
    obtain ⟨rfl, -⟩ := pure_eq_ok.mp h
    exact List.filter_subset_self live
  cases modifier with
  | keep rank amount => exact hdropped h
  | drop rank amount => exact hdropped h
  | _ => cases hchooses

theorem chosen_fail {modifiers : List Modifier}
    (hchoose : ∀ modifier ∈ modifiers, modifier.chooses = true)
    (h : modifiers.foldlM (applyModifier limits node term) live table = .ok left after)
    (hfail : AllFail condition table.trail live) : AllFail condition after.trail left := by
  induction modifiers generalizing live table with
  | nil =>
    obtain ⟨rfl, rfl⟩ := pure_eq_ok.mp h
    exact hfail
  | cons modifier rest ih =>
    obtain ⟨next, between, hfirst, hrest⟩ := foldlM_cons_eq_ok h
    obtain ⟨hchooses, hchoose⟩ := List.forall_mem_cons.mp hchoose
    have hkept := hfail.kept hfirst fun die face =>
      ((Invariant.showing die face).coupling limits).applyModifier node term live modifier
    exact ih hchoose hrest fun die hdie => hkept die (subset_of_chooses hchooses hfirst hdie)

end Roller

theorem Underway.reroll_fails (h : Underway limits node term start table live)
    (hstart : Sided start.source start.trail)
    (hreroll : Roller.applyReroll limits node term condition false live table = .ok left after) :
    AllFail condition after.trail left := by
  rcases Roller.ite_eq_ok.mp hreroll with ⟨-, hreroll⟩ | ⟨hskip, hreroll⟩
  · exact Roller.mapM_rerollDie_fails hreroll
  · obtain ⟨⟨⟩, between, hsaid, hreroll⟩ := Roller.bind_eq_ok.mp hreroll
    obtain ⟨rfl, rfl⟩ := Roller.pure_eq_ok.mp hreroll
    obtain rfl := Roller.remark_eq_ok hsaid
    intro die hdie
    exact ⟨_, Table.shows_iff.mp (h.shows hdie),
      h.fails_of_unsatisfiable hstart (Bool.eq_false_iff.mpr hskip) hdie⟩

/-- The outcomes that a dice term leaves on the trail when it is rolled: when it rerolls and only
chooses from then on, those that count fail the condition. -/
structure RerolledBlock (node : Nat) (term : DiceTerm) (block : List Outcome) : Prop where
  term_eq : ∀ outcome ∈ block, outcome.term = node
  fails : ∀ former asked later, term.modifiers = former ++ .reroll asked :: later →
    (∀ modifier ∈ later, modifier.chooses = true) → ∀ outcome ∈ block, outcome.kept = true →
      (asked.getD (.isFace 1)).accepts outcome.value = false

theorem Roller.rollTerm_rerolled {value : Int64}
    (h : rollTerm limits node term table = .ok value after)
    (hstart : Sided table.source table.trail) :
    ∃ block, after.trail.toList = table.trail.toList ++ block ∧ RerolledBlock node term block := by
  obtain ⟨live, last, hrun, htrail⟩ := rollTerm_run h
  have hunderway : Underway limits node term table last live := ⟨term.modifiers, hrun⟩
  obtain ⟨block, hplay⟩ := hunderway.inPlay
  refine ⟨block, htrail ▸ hplay.trail_eq, fun outcome houtcome => ?_, ?_⟩
  · obtain ⟨j, hj⟩ := List.mem_iff_getElem?.mp houtcome
    exact (hplay.chained.placed j outcome hj).term_eq
  · intro former asked later hsplit hchoose outcome houtcome hkept
    obtain ⟨⟨⟩, thrown, hthrow, hmodifiers⟩ := bind_eq_ok.mp hrun
    rw [hsplit, List.foldlM_append] at hmodifiers
    obtain ⟨before, between, hformer, hmodifiers⟩ := bind_eq_ok.mp hmodifiers
    obtain ⟨left, rerolled, hreroll, hlater⟩ := foldlM_cons_eq_ok hmodifiers
    have hbefore : Underway limits node term table between before :=
      ⟨former, bind_eq_ok.mpr ⟨(), thrown, hthrow, hformer⟩⟩
    have hfail := chosen_fail hchoose hlater (hbefore.reroll_fails hstart hreroll)
    obtain ⟨j, hj⟩ := List.mem_iff_getElem?.mp houtcome
    have hlive : table.trail.toList.length + j ∈ live :=
      (hplay.live.mem_iff _).mpr ⟨j, outcome, rfl, hj, hkept⟩
    obtain ⟨face, hface, hfails⟩ := hfail _ hlive
    have hvalue : Trail.face? last.trail (table.trail.toList.length + j) = some outcome.value := by
      rw [Trail.face?, getElem?_behind hplay.trail_eq j, hj]
      rfl
    rw [hvalue] at hface
    cases hface
    exact hfails

end Kept

theorem Expression.kept_fails_of_roll {σ : Type} [FaceSource σ] {limits : Limits}
    {expression : Expression} {source after : σ} {evaluation : Evaluation}
    (hsource : HandsSides source) (h : expression.roll limits source = (.ok evaluation, after))
    {node : Nat} {term : DiceTerm} (hterm : (node, term) ∈ expression.diceTerms 0)
    {former later : List Modifier} {asked : Option Condition}
    (hsplit : term.modifiers = former ++ .reroll asked :: later)
    (hchoose : ∀ modifier ∈ later, modifier.chooses = true) {outcome : Outcome}
    (houtcome : outcome ∈ evaluation.trail) (hnode : outcome.term = node)
    (hkept : outcome.kept = true) : (asked.getD (.isFace 1)).accepts outcome.value = false := by
  rw [roll_eq_outcome (nodeCount_le_of_roll h)] at h
  obtain ⟨table, hroll, htrail, -, -⟩ := Roller.outcome_eq_ok h
  obtain ⟨blocks, hterms, hblocks, hrerolled⟩ :=
    Roller.rollNodes_blocks .sided Roller.rollTerm_rerolled hroll (Sided.fresh hsource)
  rw [htrail, ← Array.mem_toList_iff, hblocks] at houtcome
  obtain ⟨⟨⟨other, term'⟩, block⟩, hblock, hmem⟩ := List.mem_flatMap.mp houtcome
  have hrerolled := hrerolled _ hblock
  have hother : other = node := (hrerolled.term_eq outcome hmem).symm.trans hnode
  have hterm' : (other, term') ∈ expression.diceTerms 0 := hterms ▸ List.mem_map_of_mem hblock
  have hsame := List.inj_on_of_nodup_map (expression.nodup_diceTerms 0) hterm' hterm hother
  obtain rfl : term' = term := (Prod.mk.inj hsame).2
  exact hrerolled.fails former asked later hsplit hchoose outcome hmem hkept

theorem AreLast.length_eq {s : Succession} {Fits : UInt32 → List UInt32 → Prop}
    {before after : Trail} {live left : List Nat} {chains : List (List Nat)}
    (h : AreLast chains left) (hchains : s.Chains Fits before after live chains) :
    left.length = live.length := by
  have hlast := congrArg List.length h
  have hheads := congrArg List.length hchains.heads
  simp only [List.length_map] at hlast hheads
  omega

theorem Condition.EndsOnce.length_le {condition : Condition} {first : UInt32}
    {faces : List UInt32} (h : condition.EndsOnce first faces) : faces.length ≤ 1 := by
  unfold EndsOnce at h
  split at h
  all_goals omega

/-- Rerolling the live dice of a term, however they have come about, with dice that show their sides
and no time budget: in their order, each gets a chain of dice that replace one another, as many as
may, until one fails the condition and is live in its place; or one gets stuck, which is an infinite
reroll unless the dice budget is too small. If dice are rerolled only once, each that passes the
condition is replaced by one other, and nothing but the dice budget can stop that. As a consequence,
a term that rerolls and only chooses from then on keeps no die that passes the condition. -/
theorem Roller.reroll_chains {σ : Type} [FaceSource σ] (limits : Limits) :
    (limits.time = none → ∀ (node : Nat) (term : DiceTerm) (start table : Table σ)
      (live : List Nat), Underway limits node term start table live →
      Sided start.source start.trail → AlwaysAnswers start.source → ∀ condition : Condition,
        (Succession.rerolls node term.sides).Extends (condition.Ends limits.rerollDepth)
          (condition.Stuck limits.rerollDepth) AreLast limits table live
          (applyReroll limits node term condition false live table) ∧
        (Succession.rerolls node term.sides).Extends condition.EndsOnce condition.StuckOnce AreLast
          limits table live (applyReroll limits node term condition true live table) ∧
        (live.length * limits.rerollDepth ≤ table.room limits → ∀ error after,
          applyReroll limits node term condition false live table = .error error after →
            error.kind = .infiniteReroll) ∧
        (∀ error after,
          applyReroll limits node term condition true live table = .error error after →
            error.kind = .budgetExceeded ∧ table.room limits < live.length) ∧
        ∀ left after, applyReroll limits node term condition false live table = .ok left after ∨
            applyReroll limits node term condition true live table = .ok left after →
          left.length = live.length ∧
          ∀ die ∈ left, ∃ outcome, after.trail[die]? = some outcome ∧ outcome.kept = true) ∧
    ∀ (expression : Expression) (source after : σ) (evaluation : Evaluation), HandsSides source →
      expression.roll limits source = (.ok evaluation, after) →
      ∀ node term former asked later, (node, term) ∈ expression.diceTerms 0 →
        term.modifiers = former ++ .reroll asked :: later →
        (∀ modifier ∈ later, modifier.chooses = true) → ∀ outcome ∈ evaluation.trail,
          outcome.term = node → outcome.kept = true →
            (asked.getD (.isFace 1)).accepts outcome.value = false := by
  constructor
  · intro htime node term start table live h hstart hanswers condition
    have hreroll := h.extends_reroll htime hstart hanswers condition
    have honce := h.extends_rerollOnce htime hstart hanswers condition
    refine ⟨hreroll, honce, fun hroom error after herror => ?_, fun error after herror => ?_, ?_⟩
    · have hstuck := (hreroll.fails error.kind).mp ⟨error, after, herror, rfl⟩
      exact hstuck.eq_infiniteReroll (by rwa [List.length_map])
    · have hstuck := (honce.fails error.kind).mp ⟨error, after, herror, rfl⟩
      have hkind : error.kind = .budgetExceeded := by
        obtain ⟨-, -, -, -, -, -, -, -, -, -, hkind, -⟩ := hstuck
        exact hkind
      refine ⟨hkind, Nat.lt_of_not_le fun hroom => ?_⟩
      have hroom' : (live.map table.faceAt).length * 1 ≤ table.room limits := by simpa using hroom
      obtain ⟨more, first, faces, hmore, -, hfull, -⟩ :=
        hstuck.exists_stuck (fun _ _ hends => hends.length_le) hroom'
      omega
    · intro left after hok
      have hboth : (∃ modifier, applyModifier limits node term live modifier table =
          .ok left after) ∧ left.length = live.length := by
        rcases hok with hok | hok
        · obtain ⟨chains, hchains, hlast, -⟩ := hreroll.leaves left after hok
          exact ⟨⟨.reroll (some condition), hok⟩, hlast.length_eq hchains⟩
        · obtain ⟨chains, hchains, hlast, -⟩ := honce.leaves left after hok
          exact ⟨⟨.rerollOnce (some condition), hok⟩, hlast.length_eq hchains⟩
      obtain ⟨⟨modifier, hmodifier⟩, hlength⟩ := hboth
      refine ⟨hlength, fun die hdie => ?_⟩
      obtain ⟨outcome, houtcome, hkept, -⟩ := (h.applied hmodifier).exists_outcome hdie
      exact ⟨outcome, houtcome, hkept⟩
  · intro expression source after evaluation hsource hroll node term former asked later hterm
      hsplit hchoose outcome houtcome hnode hkept
    exact Expression.kept_fails_of_roll hsource hroll hterm hsplit hchoose houtcome hnode hkept

/-- Two dice of which the first shows a one, as does the first one that replaces it. With two
rerolls for a die at most, the third die has to show something else. -/
theorem Roller.reroll_chains_of_ones :
    (∃ table left after chains, Underway { rerollDepth := 2 } 0 ⟨2, 6, [.reroll none]⟩
        (.fresh (Script.ofList [1, 5, 1, 3])) table [0, 1] ∧
      applyReroll { rerollDepth := 2 } 0 ⟨2, 6, [.reroll none]⟩ (.isFace 1) false [0, 1] table =
        .ok left after ∧ left = [3, 1] ∧
      (Succession.rerolls 0 6).Chains ((Condition.isFace 1).Ends 2) table.trail after.trail [0, 1]
        chains ∧ AreLast chains left) ∧
    (∃ table, Underway { rerollDepth := 2 } 0 ⟨2, 6, [.reroll none]⟩
        (.fresh (Script.ofList [1, 5, 1, 1])) table [0, 1] ∧
      GetsStuck ((Condition.isFace 1).Ends 2) ((Condition.isFace 1).Stuck 2) 6
        (table.room { rerollDepth := 2 }) table.source [1, 5] .infiniteReroll) ∧
    ∃ evaluation after, (Expression.dice ⟨2, 6, [.reroll none]⟩).roll { rerollDepth := 2 }
        (Script.ofList [1, 5, 1, 3]) = (.ok evaluation, after) ∧ evaluation.trail.size = 4 ∧
      ∀ outcome ∈ evaluation.trail, outcome.term = 0 → outcome.kept = true →
        (Condition.isFace 1).accepts outcome.value = false := by
  have hanswers (script : List UInt32) : AlwaysAnswers (Script.ofList script) :=
    (FaceSource.contract_of_answerOf rfl).alwaysAnswers _
  have hsource (script : List UInt32) : HandsSides (Script.ofList script) :=
    handsSides_of_showsSides rfl (Script.showsSides _)
  have hstart (script : List UInt32) : Sided (Table.fresh (Script.ofList script)).source
      (Table.fresh (Script.ofList script)).trail := Sided.fresh (hsource script)
  have hall := reroll_chains (σ := Script) { rerollDepth := 2 }
  refine ⟨?_, ?_, ?_⟩
  · have h : Underway { rerollDepth := 2 } 0 ⟨2, 6, [.reroll none]⟩
        (.fresh (Script.ofList [1, 5, 1, 3]))
        ⟨⟨#[1, 5, 1, 3], 2⟩, #[⟨0, 6, 1, true, none, none⟩, ⟨0, 6, 5, true, none, none⟩], 0, ∅, 0,
          #[]⟩ [0, 1] := ⟨[], by decide +kernel⟩
    have hreroll : applyReroll (σ := Script) { rerollDepth := 2 } 0 ⟨2, 6, [.reroll none]⟩
        (.isFace 1) false [0, 1]
        ⟨⟨#[1, 5, 1, 3], 2⟩, #[⟨0, 6, 1, true, none, none⟩, ⟨0, 6, 5, true, none, none⟩], 0, ∅, 0,
          #[]⟩ = .ok [3, 1] ⟨⟨#[1, 5, 1, 3], 4⟩, #[⟨0, 6, 1, false, none, none⟩,
            ⟨0, 6, 5, true, none, none⟩, ⟨0, 6, 1, false, some 0, none⟩,
            ⟨0, 6, 3, true, some 2, none⟩], 0, ∅, 0, #[]⟩ := by decide +kernel
    obtain ⟨chains, hchains, hlast, -⟩ :=
      (hall.1 rfl _ _ _ _ _ h (hstart _) (hanswers _) (.isFace 1)).1.leaves _ _ hreroll
    exact ⟨_, _, _, chains, h, hreroll, rfl, hchains, hlast⟩
  · have h : Underway { rerollDepth := 2 } 0 ⟨2, 6, [.reroll none]⟩
        (.fresh (Script.ofList [1, 5, 1, 1]))
        ⟨⟨#[1, 5, 1, 1], 2⟩, #[⟨0, 6, 1, true, none, none⟩, ⟨0, 6, 5, true, none, none⟩], 0, ∅, 0,
          #[]⟩ [0, 1] := ⟨[], by decide +kernel⟩
    have hreroll : applyReroll (σ := Script) { rerollDepth := 2 } 0 ⟨2, 6, [.reroll none]⟩
        (.isFace 1) false [0, 1]
        ⟨⟨#[1, 5, 1, 1], 2⟩, #[⟨0, 6, 1, true, none, none⟩, ⟨0, 6, 5, true, none, none⟩], 0, ∅, 0,
          #[]⟩ = .error (.endlessReroll ⟨2, 6, [.reroll none]⟩ (.isFace 1) 2)
          ⟨⟨#[1, 5, 1, 1], 4⟩, #[⟨0, 6, 1, false, none, none⟩,
            ⟨0, 6, 5, true, none, none⟩, ⟨0, 6, 1, false, some 0, none⟩,
            ⟨0, 6, 1, true, some 2, none⟩], 0, ∅, 0, #[]⟩ := by decide +kernel
    exact ⟨_, h, ((hall.1 rfl _ _ _ _ _ h (hstart _) (hanswers _) (.isFace 1)).1.fails _).mp
      ⟨_, _, hreroll, rfl⟩⟩
  · have hroll : (Expression.dice ⟨2, 6, [.reroll none]⟩).roll { rerollDepth := 2 }
        (Script.ofList [1, 5, 1, 3]) = (.ok ⟨8, #[⟨0, 6, 1, false, none, none⟩,
            ⟨0, 6, 5, true, none, none⟩, ⟨0, 6, 1, false, some 0, none⟩,
            ⟨0, 6, 3, true, some 2, none⟩], ⟨[(0, 8)], by decide⟩⟩, ⟨#[1, 5, 1, 3], 4⟩) := by
      decide +kernel
    exact ⟨_, _, hroll, rfl, hall.2 _ _ _ _ (hsource _) hroll 0 _ [] none [] (.head _) rfl nofun⟩

end DiceNotation

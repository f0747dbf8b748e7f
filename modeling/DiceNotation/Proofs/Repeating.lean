import DiceNotation.Proofs.CountedFaces
import DiceNotation.Proofs.Skipping

/-!
# Modifiers that are written twice

Keeping dice leaves no more of them than are kept, and rerolling leaves none that would be rerolled.
So the same modifier right after finds nothing to do. Written twice, it changes a roll only in what
is remarked and in the wording of an error, which names the whole term.
-/
namespace DiceNotation

/-- Modifiers that leave themselves nothing to do. -/
def Modifier.repeatable : Modifier → Bool
  | keep _ _ | reroll _ => true
  | _ => false

/-- The second expression is the first one with such a modifier of one of its terms written
twice. -/
inductive Expression.Repeats : Expression → Expression → Prop
  | dice (count sides : UInt32) (former later : List Modifier) {modifier : Modifier}
      (repeatable : modifier.repeatable = true) :
      Repeats (.dice ⟨count, sides, former ++ modifier :: later⟩)
        (.dice ⟨count, sides, former ++ modifier :: modifier :: later⟩)
  | left (operator : Operator) {left left' : Expression} (right : Expression)
      (repeats : Repeats left left') :
      Repeats (.binary operator left right) (.binary operator left' right)
  | right (operator : Operator) (left : Expression) {right right' : Expression}
      (repeats : Repeats right right') :
      Repeats (.binary operator left right) (.binary operator left right')
  | group {inner inner' : Expression} (repeats : Repeats inner inner') :
      Repeats (.group inner) (.group inner')
  | negate {inner inner' : Expression} (repeats : Repeats inner inner') :
      Repeats (.negate inner) (.negate inner')

theorem Expression.Repeats.nodeCount_eq {expression expression' : Expression}
    (h : expression.Repeats expression') : expression'.nodeCount = expression.nodeCount := by
  rw [nodeCount_eq_size, nodeCount_eq_size]
  induction h with
  | dice count sides former later repeatable => rfl
  | left operator right repeats ih => rw [size, size, ih]
  | right operator left repeats ih => rw [size, size, ih]
  | group repeats ih => rw [size, size, ih]
  | negate repeats ih => rw [size, size, ih]

/-- The same dice under another wording. -/
def DiceTerm.worded (term : DiceTerm) (modifiers : List Modifier) : DiceTerm :=
  { term with modifiers := modifiers }

namespace Roller

variable {σ α β : Type} [FaceSource σ] {limits : Limits}

/-- The second step comes to the same as the first but for the remarks and the wording of an error,
and leaves dice that show their sides. -/
inductive Reworded (image : α → β) :
    EStateM.Result RollError (Table σ) α → EStateM.Result RollError (Table σ) β → Prop
  | ok (a : α) {after : Table σ} (remarks : Array Remark)
      (sided : Sided after.source after.trail) :
      Reworded image (.ok a after) (.ok (image a) { after with remarks := remarks })
  | error {error error' : RollError} {after : Table σ} (remarks : Array Remark)
      (kind : error'.kind = error.kind) :
      Reworded image (.error error after) (.error error' { after with remarks := remarks })

/-- Where dice show their sides, the second step does what the first does, in other words. -/
def Rewords (image : α → β) (first : Roller σ α) (second : Roller σ β) : Prop :=
  ∀ (table : Table σ) (remarks : Array Remark), Sided table.source table.trail →
    Reworded image (first table) (second { table with remarks := remarks })

section Steps

variable {γ δ : Type} {image : α → β} {image' : γ → δ} {first : Roller σ α} {second : Roller σ β}
  {next : α → Roller σ γ} {next' : β → Roller σ δ} {error error' : RollError}

theorem Reworded.bind {table table' : Table σ}
    (hfirst : Reworded image (first table) (second table'))
    (hrest : ∀ a after remarks, first table = .ok a after → Sided after.source after.trail →
      Reworded image' (next a after) (next' (image a) { after with remarks := remarks })) :
    Reworded image' ((first >>= next) table) ((second >>= next') table') := by
  simp only [Bind.bind, EStateM.bind]
  generalize hresult : first table = result, second table' = result' at hfirst hrest ⊢
  cases hfirst with
  | ok a remarks sided => exact hrest a _ remarks rfl sided
  | error remarks kind => exact .error remarks kind

theorem bind_rewords (hfirst : Rewords image first second)
    (hrest : ∀ a, Rewords image' (next a) (next' (image a))) :
    Rewords image' (first >>= next) (second >>= next') :=
  fun table remarks hsided => (hfirst table remarks hsided).bind fun a after remarks _ hsided =>
    hrest a after remarks hsided

theorem rewords_of_sameSteps (h : SameSteps image first second) : Rewords image first second := by
  intro table remarks hsided
  have hsame := h table remarks hsided
  generalize first table = result, second { table with remarks := remarks } = result' at hsame ⊢
  cases hsame with
  | ok a remarks sided => exact .ok a remarks sided
  | error error remarks => exact .error remarks rfl

theorem throw_rewords (image : α → β) (hkind : error'.kind = error.kind) :
    Rewords (σ := σ) image (throw error) (throw error') :=
  fun _ remarks _ => .error remarks hkind

theorem remark_rewords (said said' : Remark) : Rewords (σ := σ) id (remark said) (remark said') :=
  fun _ remarks hsided => .ok () (remarks.push said') hsided

theorem guard_rewords {condition : Prop} [Decidable condition] {next : PUnit → Roller σ α}
    {next' : PUnit → Roller σ β} (hkind : error'.kind = error.kind)
    (h : Rewords image (next ()) (next' ())) :
    Rewords image (if condition then throw error >>= next else next ())
      (if condition then throw error' >>= next' else next' ()) := by
  split
  · exact bind_rewords (throw_rewords (id : PUnit → PUnit) hkind) fun _ => h
  · exact h

end Steps

/-- No step of an evaluation depends on how it is worded. -/
def rewording (limits : Limits) : Coupling σ σ limits limits where
  nodes := 0
  dice := 0
  Alike := Rewords
  pure a := rewords_of_sameSteps ((remarking limits).pure a)
  throw _ := throw_rewords _ rfl
  bind := bind_rewords
  visit := rewords_of_sameSteps (remarking limits).visit
  enter node value := rewords_of_sameSteps ((remarking limits).enter node value)
  remark said := remark_rewords said _
  nextPlace := rewords_of_sameSteps (remarking limits).nextPlace
  throwDie node sides cause := rewords_of_sameSteps ((remarking limits).throwDie node sides cause)
  faceOf die := rewords_of_sameSteps ((remarking limits).faceOf die)
  retire die := rewords_of_sameSteps ((remarking limits).retire die)
  depthLe := .refl _
  endless longer := absurd longer (Nat.lt_irrefl _)
  rollLarge node term large := rewords_of_sameSteps ((remarking limits).rollLarge node term large)

theorem further_rewording (limits : Limits) : (rewording (σ := σ) limits).further = id :=
  (further_remarking : (remarking (σ := σ) limits).further = id)

theorem mapM_rewords {f f' : Nat → Roller σ α} (hf : ∀ die, Rewords id (f die) (f' die))
    (live : List Nat) : Rewords id (live.mapM f) (live.mapM f') := by
  have hlive := (rewording {}).mapM hf live
  rwa [List.map_id', List.map_id_fun] at hlive

theorem explodeLive_rewords {f f' : Nat → Roller σ (List Nat)}
    (hf : ∀ die, Rewords id (f die) (f' die)) (live : List Nat) :
    Rewords id (explodeLive f live) (explodeLive f' live) :=
  bind_rewords (mapM_rewords hf live) fun added => (rewording {}).pure (live ++ added.flatten)

section Wording

variable (limits : Limits) (node : Nat) (term : DiceTerm) (modifiers : List Modifier)
  (condition : Condition) (live : List Nat)

theorem chase_rewords {throwNext : Nat → Roller σ Nat} {stop stop' : Roller σ (List Nat)}
    (hthrow : ∀ die, Rewords id (throwNext die) (throwNext die)) (hstop : Rewords id stop stop')
    (depth die : Nat) :
    Rewords id (chase throwNext condition stop depth die)
      (chase throwNext condition stop' depth die) := by
  let c : Coupling σ σ {} {} := rewording {}
  induction depth generalizing die with
  | zero => exact c.whenAccepted condition hstop (c.pure [])
  | succ depth ih =>
    refine c.whenAccepted condition (c.bind (hthrow die) fun added => ?_) (c.pure [])
    exact c.bind (ih added) fun others => c.pure (added :: others)

theorem rerollDie_rewords (once : Bool) (depth die : Nat) :
    Rewords (σ := σ) id (rerollDie limits node term condition once depth die)
      (rerollDie limits node (term.worded modifiers) condition once depth die) := by
  have hthrow := (rewording (σ := σ) limits).replaceDie node term
  have hstop : Rewords (σ := σ) id (stopReroll limits term condition once)
      (stopReroll limits (term.worded modifiers) condition once) := by
    cases once with
    | true => exact (rewording limits).pure []
    | false => exact throw_rewords id rfl
  rw [rerollDie_eq_chase, rerollDie_eq_chase, map_eq_pure_bind, map_eq_pure_bind]
  exact bind_rewords (chase_rewords condition hthrow hstop depth die) fun added =>
    (rewording limits).pure (added.getLastD die)

theorem explodeDie_rewords (depth die : Nat) :
    Rewords (σ := σ) id (explodeDie limits node term condition depth die)
      (explodeDie limits node (term.worded modifiers) condition depth die) := by
  have hthrow (die : Nat) :=
    (rewording (σ := σ) limits).throwDie node term.sides (.explosion die)
  have hstop : Rewords (σ := σ) (id : List Nat → List Nat)
      (throw (.endlessExplosion term condition limits.rerollDepth))
      (throw (.endlessExplosion (term.worded modifiers) condition limits.rerollDepth)) :=
    throw_rewords id rfl
  rw [explodeDie_eq_chase, explodeDie_eq_chase]
  exact chase_rewords condition hthrow hstop depth die

/-- Dropping a part of the ranking, as keeping and dropping both do. -/
theorem dropRanked_rewords (rank : Rank) (amount : UInt32) (pick : List Nat → List Nat) :
    Rewords (σ := σ) id
      (do
        checkAmount term amount
        let ranking ← ranked rank live
        dropDice live (pick ranking))
      (do
        checkAmount (term.worded modifiers) amount
        let ranking ← ranked rank live
        dropDice live (pick ranking)) := by
  let c : Coupling σ σ {} {} := rewording {}
  have hranked := c.ranked rank live
  have hdrop (ranking : List Nat) := c.dropDice live (pick ranking)
  rw [further_rewording] at hranked hdrop
  have hcheck : Rewords (σ := σ) id (checkAmount term amount)
      (checkAmount (term.worded modifiers) amount) := c.ite (throw_rewords id rfl) (c.pure ())
  exact c.bind hcheck fun _ => c.bind hranked hdrop

theorem orSkip_rewords {step step' : Roller σ (List Nat)} (hstep : Rewords id step step')
    (said said' : Remark) :
    Rewords id (if condition.satisfiable term.sides then step else do remark said; return live)
      (if condition.satisfiable term.sides then step' else do remark said'; return live) := by
  let c : Coupling σ σ {} {} := rewording {}
  exact c.ite hstep (c.bind (remark_rewords said said') fun _ => c.pure live)

theorem applyModifier_rewords (modifier : Modifier) :
    Rewords (σ := σ) id (applyModifier limits node term live modifier)
      (applyModifier limits node (term.worded modifiers) live modifier) := by
  cases modifier with
  | keep rank amount => exact dropRanked_rewords term modifiers live rank amount _
  | drop rank amount => exact dropRanked_rewords term modifiers live rank amount _
  | reroll asked =>
    have hdie := rerollDie_rewords (σ := σ) limits node term modifiers
      (asked.getD (.isFace 1)) false (limits.rerolls false)
    exact orSkip_rewords term _ live (mapM_rewords hdie live) _ _
  | rerollOnce asked =>
    have hdie := rerollDie_rewords (σ := σ) limits node term modifiers
      (asked.getD (.isFace 1)) true (limits.rerolls true)
    exact orSkip_rewords term _ live (mapM_rewords hdie live) _ _
  | explode asked =>
    have hdie := explodeDie_rewords (σ := σ) limits node term modifiers
      (asked.getD (.isFace term.sides)) limits.rerollDepth
    exact orSkip_rewords term _ live (explodeLive_rewords hdie live) _ _

theorem foldlM_rewords (applied : List Modifier) :
    Rewords (σ := σ) id (applied.foldlM (applyModifier limits node term) live)
      (applied.foldlM (applyModifier limits node (term.worded modifiers)) live) :=
  (rewording limits).foldlM (applyModifier_rewords limits node term modifiers) applied live

theorem sumOf_rewords :
    Rewords (σ := σ) id (sumOf term live) (sumOf (term.worded modifiers) live) := by
  let c : Coupling σ σ {} {} := rewording {}
  have hadd (value : Int64) (die : Nat) :
      Rewords (σ := σ) id (addFace term value die) (addFace (term.worded modifiers) value die) := by
    refine c.bind (c.faceOf die) fun face => ?_
    rw [id]
    cases narrow? (value.toInt + face.toNat) with
    | none => exact throw_rewords id rfl
    | some value => exact c.pure value
  exact c.foldlM hadd live 0

end Wording

section Again

variable {node : Nat} {term : DiceTerm} {start table after : Table σ} {live left : List Nat}
  {condition : Condition} {modifier : Modifier}

omit [FaceSource σ] in
theorem applyKeep_apply (rank : Rank) {amount : UInt32} (hamount : amount ≤ term.count)
    (hlive : ∀ die ∈ live, table.Shows die (table.faceAt die)) :
    applyKeep term rank amount live table =
      .ok (live.filter fun die => die ∉ (ranking table rank live).drop amount.toNat)
        { table with
          trail := Trail.without table.trail ((ranking table rank live).drop amount.toNat) } :=
  dropRanked_apply rank (fun ranking => List.drop_subset amount.toNat ranking) hamount hlive

omit [FaceSource σ] in
theorem applyKeep_of_length_le (rank : Rank) {amount : UInt32} (hamount : amount ≤ term.count)
    (hlive : ∀ die ∈ live, table.Shows die (table.faceAt die))
    (hlength : live.length ≤ amount.toNat) :
    applyKeep term rank amount live table = .ok live table := by
  have hrest : (ranking table rank live).drop amount.toNat = [] :=
    List.drop_eq_nil_of_le ((ranking_perm table rank live).length_eq.trans_le hlength)
  rw [applyKeep_apply rank hamount hlive, hrest, Trail.without_nil]
  simp

theorem applyReroll_of_fail (hfail : AllFail condition table.trail live) :
    ∃ remarks, applyReroll limits node term condition false live table =
      .ok live { table with remarks := remarks } := by
  have hidle (remarks : Array Remark) :
      live.mapM (rerollDie limits node term condition false limits.rerollDepth)
        { table with remarks := remarks } = .ok live { table with remarks := remarks } := by
    refine (mapM_of_reads (g := id) fun die hdie => ?_).trans (by rw [List.map_id])
    obtain ⟨face, hface, hfails⟩ := hfail die hdie
    have hshows : Table.Shows { table with remarks := remarks } die face :=
      Table.shows_iff.mpr hface
    exact rerollDie_of_fails hshows hfails _ _
  obtain ⟨remarks, hresult⟩ := orSkip_apply (.skippedReroll condition term) fun _ => hidle
  exact ⟨remarks, hresult.trans (hidle remarks)⟩

theorem length_le_of_applyKeep (h : Underway limits node term start table live) {rank : Rank}
    {amount : UInt32} (hkeep : applyKeep term rank amount live table = .ok left after) :
    amount ≤ term.count ∧ left.length ≤ amount.toNat := by
  have hamount : amount ≤ term.count := by
    refine UInt32.not_lt.mp fun hlt => ?_
    cases hkeep.symm.trans (dropRanked_of_lt _ hlt)
  rw [applyKeep_apply rank hamount fun _ => h.shows, filter_notMem_drop h.nodup] at hkeep
  obtain ⟨rfl, -⟩ := EStateM.Result.ok.inj hkeep
  refine ⟨hamount, ?_⟩
  rw [length_chosen h.nodup]
  exact Nat.min_le_left _ _

/-- The second time it changes nothing but the remarks, whatever the term is called. -/
theorem applyModifier_again (h : Underway limits node term start table live)
    (hstart : Sided start.source start.trail) (hrepeatable : modifier.repeatable = true)
    (hfirst : applyModifier limits node term live modifier table = .ok left after)
    (modifiers : List Modifier) (remarks : Array Remark) :
    ∃ remarks', applyModifier limits node (term.worded modifiers) left modifier
        { after with remarks := remarks } = .ok left { after with remarks := remarks' } := by
  cases modifier with
  | keep rank amount =>
    obtain ⟨hamount, hlength⟩ := length_le_of_applyKeep h hfirst
    exact ⟨remarks, applyKeep_of_length_le rank hamount (fun _ => (h.applied hfirst).shows) hlength⟩
  | reroll asked =>
    have hfail : AllFail (asked.getD (.isFace 1)) after.trail left := h.reroll_fails hstart hfirst
    exact applyReroll_of_fail hfail
  | drop | rerollOnce | explode => cases hrepeatable

theorem foldlM_cons_rewords (h : Underway limits node term start table live)
    (hstart : Sided start.source start.trail) (hrepeatable : modifier.repeatable = true)
    (later modifiers : List Modifier) (remarks : Array Remark) :
    Reworded id ((modifier :: later).foldlM (applyModifier limits node term) live table)
      ((modifier :: modifier :: later).foldlM (applyModifier limits node (term.worded modifiers))
        live { table with remarks := remarks }) := by
  rw [List.foldlM_cons, List.foldlM_cons]
  have hmodifier := applyModifier_rewords limits node term modifiers live modifier table remarks
    (h.keeps .sided hstart)
  refine hmodifier.bind fun left after remarks hfirst hsided => ?_
  obtain ⟨remarks', hagain⟩ := applyModifier_again h hstart hrepeatable hfirst modifiers remarks
  -- the second application gives back the dice and the table that the first one left
  simp only [List.foldlM_cons, Bind.bind, EStateM.bind, id, hagain]
  exact foldlM_rewords limits node term modifiers left later after remarks' hsided

end Again

theorem rollTerm_rewords (node : Nat) (term : DiceTerm) {former later : List Modifier}
    {modifier : Modifier} (hterm : term.modifiers = former ++ modifier :: later)
    (hrepeatable : modifier.repeatable = true) :
    Rewords (σ := σ) id (rollTerm limits node term)
      (rollTerm limits node (term.worded (former ++ modifier :: modifier :: later))) := by
  let c : Coupling σ σ limits limits := rewording limits
  let modifiers : List Modifier := former ++ modifier :: modifier :: later
  have hsum (live : List Nat) : Rewords (σ := σ) id
      (do
        let value ← sumOf term live
        remark (.rolled node term value)
        return value)
      (do
        let value ← sumOf (term.worded modifiers) live
        remark (.rolled node (term.worded modifiers) value)
        return value) :=
    c.bind (sumOf_rewords term modifiers live) fun value =>
      c.bind (remark_rewords _ _) fun _ => c.pure value
  unfold rollTerm
  -- the checks, the throw and the modifiers before that one are the same under either wording
  refine guard_rewords rfl (guard_rewords rfl fun table remarks hsided => ?_)
  refine (c.throwDice node term.sides term.count.toNat table remarks hsided).bind
    fun _ thrown remarks hthrow hthrown => ?_
  rw [hterm, List.foldlM_append, DiceTerm.worded, List.foldlM_append, bind_assoc, bind_assoc]
  refine (foldlM_rewords limits node term modifiers _ former thrown remarks hthrown).bind
    fun live before remarks hformer _ => ?_
  have hunderway : Underway limits node term table before live :=
    ⟨former, bind_eq_ok.mpr ⟨(), thrown, hthrow, hformer⟩⟩
  exact (foldlM_cons_rewords hunderway hsided hrepeatable later modifiers remarks).bind
    fun live after remarks _ hsided => hsum live after remarks hsided

theorem rollNodes_rewords {expression expression' : Expression}
    (h : expression.Repeats expression') :
    Rewords (σ := σ) id (rollNodes limits expression) (rollNodes limits expression') := by
  let c : Coupling σ σ limits limits := rewording limits
  induction h with
  | dice count sides former later repeatable =>
    exact c.bind c.visit fun node => c.bind (rollTerm_rewords node _ rfl repeatable) fun value =>
      c.enter node value
  | left operator right repeats ih =>
    refine c.bind c.visit fun node => c.bind ih fun left => ?_
    refine c.bind (c.rollNodes right) fun value => ?_
    exact c.bind (c.settle (operator.apply left value)) fun value => c.enter node value
  | right operator left repeats ih =>
    refine c.bind c.visit fun node => c.bind (c.rollNodes left) fun left => ?_
    refine c.bind ih fun value => ?_
    exact c.bind (c.settle (operator.apply left value)) fun value => c.enter node value
  | group repeats ih => exact c.bind c.visit fun node => c.bind ih fun value => c.enter node value
  | negate repeats ih =>
    refine c.bind c.visit fun node => c.bind ih fun value => ?_
    exact c.bind (c.settle (negated value)) fun value => c.enter node value

theorem rollExpression_rewords {expression expression' : Expression}
    (h : expression.Repeats expression') :
    Rewords (σ := σ) id (rollExpression limits expression) (rollExpression limits expression') := by
  let c : Coupling σ σ limits limits := rewording limits
  unfold rollExpression
  rw [h.nodeCount_eq]
  refine c.guard (c.bind (rollNodes_rewords h) fun total table remarks hsided => ?_)
  exact .ok (⟨total, table.trail, table.subTotals⟩ : Evaluation) remarks hsided

end Roller

theorem HandsSides.counted {σ : Type} [FaceSource σ] {source : σ} (h : HandsSides source)
    (handed : Nat) : HandsSides (Counted.mk source handed) := by
  have hhanded {state : Counted σ} (hstate : HandedFrom (Counted.mk source handed) state) :
      HandedFrom source state.source := by
    induction hstate with
    | start => exact .start
    | next former handed ih => exact .next ih (Counted.next_source handed)
  intro state hstate sides face after hnext
  exact h state.source (hhanded hstate) sides face after.source (Counted.next_source hnext)

namespace Expression

variable {σ : Type} [FaceSource σ] {expression expression' : Expression} {source : σ}

theorem roll_reworded (h : expression.Repeats expression') (limits : Limits)
    (hsource : HandsSides source) :
    (expression'.roll limits source).1.mapError RollError.kind =
        (expression.roll limits source).1.mapError RollError.kind ∧
      (expression'.roll limits source).2 = (expression.roll limits source).2 := by
  have hreworded : Roller.Reworded id (expression.rollAt limits source)
      (expression'.rollAt limits source) :=
    Roller.rollExpression_rewords h (.fresh source) #[] (.fresh hsource)
  unfold roll
  generalize expression.rollAt limits source = once at hreworded ⊢
  generalize expression'.rollAt limits source = twice at hreworded ⊢
  cases hreworded with
  | ok evaluation remarks => exact ⟨rfl, rfl⟩
  | error remarks kind => exact ⟨congrArg Except.error kind, rfl⟩

/-- Writing a modifier that keeps or rerolls dice twice, in any term and between any others, changes
no roll with a source that shows sides. One that succeeds has the same total, trail and sub-totals,
one that fails does so with the same kind of error, and in both the source is left the same, after
as many faces. -/
theorem roll_of_repeats (h : expression.Repeats expression') (limits : Limits)
    (hsource : HandsSides source) :
    (expression'.roll limits source).1.mapError RollError.kind =
        (expression.roll limits source).1.mapError RollError.kind ∧
      (expression'.roll limits source).2 = (expression.roll limits source).2 ∧
      (expression'.roll limits (Counted.start source)).2.handed =
        (expression.roll limits (Counted.start source)).2.handed := by
  obtain ⟨hresult, hleft⟩ := roll_reworded h limits hsource
  obtain ⟨-, hcounted⟩ := roll_reworded h limits (hsource.counted 0)
  exact ⟨hresult, hleft, congrArg Counted.handed hcounted⟩

/-- The first die is rerolled, and its replacement explodes. -/
theorem roll_of_repeats_of_one :
    (dice ⟨2, 6, [.reroll none, .explode none]⟩).Repeats
        (dice ⟨2, 6, [.reroll none, .reroll none, .explode none]⟩) ∧
      HandsSides (Script.ofList [1, 4, 6, 3]) ∧
      ((dice ⟨2, 6, [.reroll none, .reroll none, .explode none]⟩).roll {}
          (Script.ofList [1, 4, 6, 3])).1.mapError RollError.kind =
        .ok ⟨13, #[⟨0, 6, 1, false, none, none⟩, ⟨0, 6, 4, true, none, none⟩,
          ⟨0, 6, 6, true, some 0, none⟩, ⟨0, 6, 3, true, none, some 2⟩],
          SubTotals.insert ∅ 0 13⟩ := by
  have hrepeats : (dice ⟨2, 6, [.reroll none, .explode none]⟩).Repeats
      (dice ⟨2, 6, [.reroll none, .reroll none, .explode none]⟩) :=
    .dice 2 6 [] [.explode none] rfl
  have hsource : HandsSides (Script.ofList [1, 4, 6, 3]) :=
    handsSides_of_showsSides rfl (Script.showsSides _)
  have hroll : (dice ⟨2, 6, [.reroll none, .explode none]⟩).roll {}
      (Script.ofList [1, 4, 6, 3]) =
      (.ok ⟨13, #[⟨0, 6, 1, false, none, none⟩, ⟨0, 6, 4, true, none, none⟩,
        ⟨0, 6, 6, true, some 0, none⟩, ⟨0, 6, 3, true, none, some 2⟩],
        SubTotals.insert ∅ 0 13⟩, ⟨#[1, 4, 6, 3], 4⟩) := by
    decide +kernel
  have hsame := (roll_of_repeats hrepeats {} hsource).1
  rw [hroll] at hsame
  exact ⟨hrepeats, hsource, hsame⟩

end Expression

end DiceNotation

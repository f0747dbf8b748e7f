import DiceNotation.Faces.Script
import DiceNotation.Proofs.Chase

/-!
# Chains of explosions

Exploding adds dice behind a live die until one fails the condition. All dice stay live, so as many
are added as pass the condition in the end.
-/
namespace DiceNotation

namespace Roller

variable {σ : Type} [FaceSource σ] {limits : Limits}

theorem throws_explosion (htime : limits.time = none) (node : Nat) (sides : UInt32) :
    Throws (σ := σ) limits (.explosions node sides)
      fun die => throwDie limits node sides (.explosion die) where
  thrown := by
    intro table die face source _ hroom hnext
    have hmarked :
        table.trail.modify die (Succession.explosions node sides).mark = table.trail := by
      apply Array.ext_getElem?
      intro other
      simp [Succession.explosions, Array.getElem?_modify]
    refine (throwDie_of_room htime table hroom hnext node (.explosion die)).trans ?_
    rw [Succession.throwOn, Succession.throwAll, Succession.throwAll, Succession.throwAfter,
      hmarked]
    rfl
  full _ hroom := ⟨_, throwDie_of_full htime _ hroom node sides _⟩

theorem explodeDie_eq_chase (node : Nat) (term : DiceTerm) (condition : Condition) (depth : Nat) :
    explodeDie (σ := σ) limits node term condition depth =
      chase (fun die => throwDie limits node term.sides (.explosion die)) condition
        (throw (.endlessExplosion term condition limits.rerollDepth)) depth := by
  induction depth with
  | zero => rfl
  | succ depth ih =>
    funext die
    rw [explodeDie, chase, ih]

/-- The loop over the live dice, and what is live after it. -/
def explodeLive (explode : Nat → Roller σ (List Nat)) (live : List Nat) : Roller σ (List Nat) := do
  let added ← live.mapM explode
  return live ++ added.flatten

omit [FaceSource σ] in
theorem explodeLive_of_ok {explode : Nat → Roller σ (List Nat)} {live : List Nat}
    {table after : Table σ} {added : List (List Nat)}
    (h : live.mapM explode table = .ok added after) :
    explodeLive explode live table = .ok (live ++ added.flatten) after :=
  bind_eq_ok.mpr ⟨added, after, h, rfl⟩

end Roller

section Exploded

variable {σ : Type} [FaceSource σ] {limits : Limits} {node : Nat} {term : DiceTerm}
  {start table : Table σ} {live : List Nat}

theorem Underway.extends_explode (h : Underway limits node term start table live)
    (htime : limits.time = none) (hstart : Sided start.source start.trail)
    (hanswers : AlwaysAnswers start.source) (condition : Condition) :
    (Succession.explosions node term.sides).Extends (condition.Ends limits.rerollDepth)
      (condition.Stuck limits.rerollDepth)
      (fun chains left => left = live ++ chains.flatMap List.tail) limits table live
      (Roller.applyExplode limits node term condition live table) := by
  have hshows : ∀ die ∈ live, table.Shows die (table.faceAt die) := fun _ => h.shows
  have hlive := map_face?_of_shows hshows
  have hchases : Roller.Chases (σ := σ) limits (.explosions node term.sides)
      (condition.Ends limits.rerollDepth) (condition.Stuck limits.rerollDepth)
      (Roller.explodeDie limits node term condition limits.rerollDepth) List.tail := by
    rw [Roller.explodeDie_eq_chase]
    exact Roller.chases_chase (Roller.throws_explosion htime node term.sides) condition rfl _
  have hidle : condition.satisfiable term.sides = false → ∀ remarks,
      Roller.explodeLive (Roller.explodeDie limits node term condition limits.rerollDepth) live
          { table with remarks := remarks } = .ok live { table with remarks := remarks } := by
    intro hskip remarks
    have hreads : live.mapM (Roller.explodeDie limits node term condition limits.rerollDepth)
        { table with remarks := remarks } =
          .ok (live.map fun _ => []) { table with remarks := remarks } :=
      Roller.mapM_of_reads fun die hdie => hchases.of_fits_nil (hshows die hdie)
        (Condition.ends_nil_iff.mpr (h.fails_of_unsatisfiable hstart hskip hdie))
    simpa using Roller.explodeLive_of_ok hreads
  obtain ⟨remarks, hresult⟩ :=
    Roller.orSkip_apply (.skippedExplosion condition term) hidle
  have happly : Roller.applyExplode limits node term condition live table = _ := hresult
  rw [happly]
  refine extends_of hshows (fun hne source hsource => hsource.ends_or_stuck
    (h.sides_ne_zero hstart hne) condition limits.rerollDepth) (h.keeps .answering hanswers)
    (fun drawn after hdrawn => ?_) fun kind hstuck => ?_
  · have hloop := hchases.mapM_of_drawn { table with remarks } hlive hdrawn
    exact ⟨_, remarks, rfl, Roller.explodeLive_of_ok hloop⟩
  · obtain ⟨error, last, hloop, hkind⟩ :=
      hchases.mapM_of_getsStuck { table with remarks } hlive hstuck
    exact ⟨error, last, Roller.bind_eq_error.mpr (.inl hloop), hkind⟩

end Exploded

section Counted

variable {condition : Condition} {depth : Nat}

theorem Condition.Ends.countP_eq {first : UInt32} {faces : List UInt32}
    (h : condition.Ends depth first faces) :
    (first :: faces).countP condition.accepts = faces.length := by
  have hsplit := List.dropLast_append_getLast (List.cons_ne_nil first faces)
  have hformer : (first :: faces).dropLast.countP condition.accepts = faces.length := by
    rw [List.countP_eq_length.mpr h.accepts, List.length_dropLast, List.length_cons,
      Nat.add_sub_cancel]
  rw [← hsplit, List.countP_append, hformer, List.countP_singleton, h.fails]
  rfl

theorem perm_flatten {live : List Nat} {chains : List (List Nat)}
    (hheads : chains.map List.head? = live.map some) :
    (live ++ chains.flatMap List.tail).Perm chains.flatten := by
  induction chains generalizing live with
  | nil =>
    obtain rfl := List.map_eq_nil_iff.mp hheads.symm
    exact .refl _
  | cons chain chains ih =>
    cases live with
    | nil => cases hheads
    | cons die live =>
      obtain ⟨hhead, hothers⟩ := List.cons.inj hheads
      obtain ⟨rest, rfl⟩ := List.head?_eq_some_iff.mp hhead
      rw [List.flatMap_cons, List.flatten_cons, List.tail_cons, List.cons_append, List.cons_append]
      have hrest := (List.perm_append_comm_assoc live rest _).trans (.append_left rest (ih hothers))
      exact hrest.cons die

theorem countP_flatten {accepts : Nat → Bool} {chains : List (List Nat)}
    (h : ∀ chain ∈ chains, chain.countP accepts = chain.tail.length) :
    chains.flatten.countP accepts = (chains.flatMap List.tail).length := by
  induction chains with
  | nil => rfl
  | cons chain chains ih =>
    obtain ⟨hchain, hchains⟩ := List.forall_mem_cons.mp h
    rw [List.flatten_cons, List.countP_append, hchain, ih hchains, List.flatMap_cons,
      List.length_append]

/-- If all dice of the chains are live, those that pass the condition are as many as are new. -/
theorem Succession.Chains.countP_live {σ : Type} {s : Succession} {before : Trail}
    {after : Table σ} {live : List Nat} {chains : List (List Nat)}
    (h : s.Chains (condition.Ends depth) before after.trail live chains) :
    (live ++ chains.flatMap List.tail).countP (fun die => condition.accepts (after.faceAt die)) =
      after.trail.size - before.size := by
  have hcount : ∀ chain ∈ chains,
      chain.countP (fun die => condition.accepts (after.faceAt die)) = chain.tail.length := by
    intro chain hchain
    obtain ⟨first, faces, hfaces, hends⟩ := h.shows chain hchain
    have hshown : chain.map after.faceAt = first :: faces := by
      have hshown := congrArg (List.map fun face : Option UInt32 => face.getD 0) hfaces
      rw [List.map_map, List.map_map] at hshown
      exact hshown.trans (List.map_id _)
    have hlength := congrArg List.length hshown
    simp only [List.length_map, List.length_cons] at hlength
    have hends := hends.countP_eq
    rw [← hshown, List.countP_map] at hends
    rw [List.length_tail, hlength, Nat.add_sub_cancel]
    exact hends
  rw [(perm_flatten h.heads).countP_eq, countP_flatten hcount, h.fresh, List.length_range']

end Counted

/-- Exploding the live dice of a term, however they have come about, with dice that show their sides
and no time budget: in their order, each gets a chain of dice that explode one after the other, as
many as may, until one fails the condition; or one gets stuck, which is an infinite reroll unless
the dice budget is too small. The outcomes on the trail stay as they are, the new dice are live
behind the others, and there are as many of them as live dice that pass the condition in the
end. -/
theorem Underway.explosion_chains {σ : Type} [FaceSource σ] {limits : Limits}
    (htime : limits.time = none) {node : Nat} {term : DiceTerm} {start table : Table σ}
    {live : List Nat} (h : Underway limits node term start table live)
    (hstart : Sided start.source start.trail) (hanswers : AlwaysAnswers start.source)
    (condition : Condition) :
    (Succession.explosions node term.sides).Extends (condition.Ends limits.rerollDepth)
      (condition.Stuck limits.rerollDepth)
      (fun chains left => left = live ++ chains.flatMap List.tail) limits table live
      (Roller.applyExplode limits node term condition live table) ∧
    (live.length * limits.rerollDepth ≤ table.room limits → ∀ error after,
      Roller.applyExplode limits node term condition live table = .error error after →
        error.kind = .infiniteReroll) ∧
    ∀ left after, Roller.applyExplode limits node term condition live table = .ok left after →
      (∀ (die : Nat) (outcome : Outcome), table.trail[die]? = some outcome →
        after.trail[die]? = some outcome) ∧
      (∀ die ∈ left, ∃ outcome, after.trail[die]? = some outcome ∧ outcome.kept = true) ∧
      left.countP (fun die => condition.accepts (after.faceAt die)) =
        after.trail.size - table.trail.size := by
  have hexplode := h.extends_explode htime hstart hanswers condition
  refine ⟨hexplode, fun hroom error after herror => ?_, fun left after hok => ⟨?_, ?_, ?_⟩⟩
  · have hstuck := (hexplode.fails error.kind).mp ⟨error, after, herror, rfl⟩
    exact hstuck.eq_infiniteReroll (by rwa [List.length_map])
  · obtain ⟨chains, hchains, -⟩ := hexplode.leaves left after hok
    intro die outcome hdie
    rw [hchains.former die outcome hdie]
    simp [Succession.marked, Succession.explosions]
  · have hmodifier : Roller.applyModifier limits node term live (.explode (some condition)) table =
        .ok left after := hok
    intro die hdie
    obtain ⟨outcome, houtcome, hkept, -⟩ := (h.applied hmodifier).exists_outcome hdie
    exact ⟨outcome, houtcome, hkept⟩
  · obtain ⟨chains, hchains, rfl, -⟩ := hexplode.leaves left after hok
    exact hchains.countP_live

/-- A die that was rerolled before explodes twice, and the other one not at all. -/
theorem Underway.explosion_chains_of_sixes :
    ∃ table left after chains, Underway {} 0 ⟨2, 6, [.reroll none, .explode none]⟩
        (.fresh (Script.ofList [1, 5, 6, 6, 2])) table [2, 1] ∧
      Roller.applyExplode {} 0 ⟨2, 6, [.reroll none, .explode none]⟩ (.isFace 6) [2, 1] table =
        .ok left after ∧ left = [2, 1, 3, 4] ∧
      (Succession.explosions 0 6).Chains ((Condition.isFace 6).Ends 100) table.trail after.trail
        [2, 1] chains ∧ left = [2, 1] ++ chains.flatMap List.tail ∧
      left.countP (fun die => (Condition.isFace 6).accepts (after.faceAt die)) = 2 := by
  have hanswers : AlwaysAnswers (Script.ofList [1, 5, 6, 6, 2]) :=
    (FaceSource.contract_of_answerOf rfl).alwaysAnswers _
  have hsource : HandsSides (Script.ofList [1, 5, 6, 6, 2]) :=
    handsSides_of_showsSides rfl (Script.showsSides _)
  have h : Underway {} 0 ⟨2, 6, [.reroll none, .explode none]⟩
      (.fresh (Script.ofList [1, 5, 6, 6, 2]))
      ⟨⟨#[1, 5, 6, 6, 2], 3⟩, #[⟨0, 6, 1, false, none, none⟩, ⟨0, 6, 5, true, none, none⟩,
        ⟨0, 6, 6, true, some 0, none⟩], 0, ∅, 0, #[]⟩ [2, 1] := ⟨[.reroll none], by decide +kernel⟩
  have hexplode : Roller.applyExplode (σ := Script) {} 0 ⟨2, 6, [.reroll none, .explode none]⟩
      (.isFace 6) [2, 1] ⟨⟨#[1, 5, 6, 6, 2], 3⟩, #[⟨0, 6, 1, false, none, none⟩,
        ⟨0, 6, 5, true, none, none⟩, ⟨0, 6, 6, true, some 0, none⟩], 0, ∅, 0, #[]⟩ =
      .ok [2, 1, 3, 4] ⟨⟨#[1, 5, 6, 6, 2], 5⟩, #[⟨0, 6, 1, false, none, none⟩,
        ⟨0, 6, 5, true, none, none⟩, ⟨0, 6, 6, true, some 0, none⟩, ⟨0, 6, 6, true, none, some 2⟩,
        ⟨0, 6, 2, true, none, some 3⟩], 0, ∅, 0, #[]⟩ := by decide +kernel
  obtain ⟨hextends, -, hall⟩ :=
    explosion_chains rfl h (Sided.fresh hsource) hanswers (.isFace 6)
  obtain ⟨chains, hchains, hleft, -⟩ := hextends.leaves _ _ hexplode
  exact ⟨_, _, _, chains, h, hexplode, rfl, hchains, hleft, (hall _ _ hexplode).2.2⟩

end DiceNotation

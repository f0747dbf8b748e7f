import DiceNotation.Proofs.RollSteps

/-!
# Modifiers as moves

Whatever a modifier does to the trail and to the live dice of a term, it does by three kinds of
moves. A run of moves is labelled with the dice that explode on it, in order.
-/
namespace DiceNotation

def Modifier.explodes : Modifier → Bool
  | explode _ => true
  | _ => false

/-- A trail, and the dice of a term that are live on it. -/
structure Hand where
  trail : List Outcome
  live : List Nat

variable {node : Nat} {sides : UInt32}

/-- One change to a hand, with the die that explodes by it. -/
inductive Move (node : Nat) (sides : UInt32) : Hand → List Nat → Hand → Prop
  | drop {trail live die} (hlive : die ∈ live) :
      Move node sides ⟨trail, live⟩ []
        ⟨trail.modify die Outcome.retired, live.filter fun other => other ≠ die⟩
  | replace {trail done die rest} (face : UInt32) :
      Move node sides ⟨trail, done ++ die :: rest⟩ []
        ⟨trail.modify die Outcome.retired ++ [.thrown node sides face (.reroll die)],
          done ++ trail.length :: rest⟩
  | explode {trail live die} (face : UInt32) (hlive : die ∈ live) :
      Move node sides ⟨trail, live⟩ [die]
        ⟨trail ++ [.thrown node sides face (.explosion die)], live ++ [trail.length]⟩

inductive Moves (node : Nat) (sides : UInt32) : Hand → List Nat → Hand → Prop
  | refl (hand : Hand) : Moves node sides hand [] hand
  | step {hand next after exploded others} (first : Move node sides hand exploded next)
      (rest : Moves node sides next others after) : Moves node sides hand (exploded ++ others) after

theorem Move.moves {hand after : Hand} {exploded : List Nat}
    (h : Move node sides hand exploded after) : Moves node sides hand exploded after := by
  simpa using Moves.step h (.refl after)

theorem Moves.trans {hand next after : Hand} {exploded others : List Nat}
    (h : Moves node sides hand exploded next) (h' : Moves node sides next others after) :
    Moves node sides hand (exploded ++ others) after := by
  induction h with
  | refl hand => exact h'
  | step first _ ih =>
    rw [List.append_assoc]
    exact .step first (ih h')

namespace Roller

variable {σ : Type} {table after : Table σ} {live left : List Nat} {term : DiceTerm}

/-- A step of an evaluation that makes a run of moves and visits no node. -/
def Plays (node : Nat) (sides : UInt32) (table : Table σ) (live : List Nat) (exploded : List Nat)
    (after : Table σ) (left : List Nat) : Prop :=
  after.visits = table.visits ∧
    Moves node sides ⟨table.trail.toList, live⟩ exploded ⟨after.trail.toList, left⟩

theorem plays_refl (table : Table σ) (live : List Nat) :
    Plays node sides table live [] table live :=
  ⟨rfl, .refl _⟩

theorem Plays.trans {next : Table σ} {between exploded others : List Nat}
    (h : Plays node sides table live exploded next between)
    (h' : Plays node sides next between others after left) :
    Plays node sides table live (exploded ++ others) after left :=
  ⟨h'.1.trans h.1, h.2.trans h'.2⟩

theorem retire_plays {die : Nat} (hdie : die ∈ live) (h : retire die table = .ok () after) :
    Plays node sides table live [] after (live.filter fun other => other ≠ die) := by
  obtain ⟨-, rfl⟩ := retire_eq_ok h
  refine ⟨rfl, ?_⟩
  rw [Array.toList_modify]
  exact (Move.drop hdie).moves

theorem dropped_plays {dropped : List Nat} (hnodup : dropped.Nodup)
    (hsub : ∀ die ∈ dropped, die ∈ live) (h : dropped.forM retire table = .ok () after) :
    Plays node sides table live [] after (live.filter fun die => die ∉ dropped) := by
  induction dropped generalizing live table with
  | nil =>
    obtain ⟨-, rfl⟩ := pure_eq_ok.mp h
    simpa using plays_refl table live
  | cons die rest ih =>
    obtain ⟨between, hfirst, hrest⟩ := forM_cons_eq_ok h
    obtain ⟨hdie, hnodup⟩ := List.nodup_cons.mp hnodup
    have hleft : ∀ other ∈ rest, other ∈ live.filter fun other => other ≠ die := by
      intro other hother
      have hlive : other ∈ live := hsub other (.tail _ hother)
      have hne : other ≠ die := fun heq => hdie (heq ▸ hother)
      simp [hlive, hne]
    have hmem : die ∈ live := hsub die (.head _)
    have hplays := (retire_plays hmem hfirst).trans (ih hnodup hleft hrest)
    simpa [List.filter_filter, Bool.and_comm] using hplays

theorem dropDice_plays {dropped : List Nat} (hnodup : dropped.Nodup)
    (hsub : ∀ die ∈ dropped, die ∈ live) (h : dropDice live dropped table = .ok left after) :
    Plays node sides table live [] after left := by
  obtain ⟨⟨⟩, between, hdropped, h⟩ := bind_eq_ok.mp h
  obtain ⟨rfl, rfl⟩ := pure_eq_ok.mp h
  simpa using dropped_plays hnodup hsub hdropped

theorem checkAmount_eq_ok {amount : UInt32} (h : checkAmount term amount table = .ok () after) :
    amount ≤ term.count ∧ table = after := by
  rcases ite_eq_ok.mp h with ⟨-, h⟩ | ⟨hle, h⟩
  · cases h
  · exact ⟨UInt32.not_lt.mp hle, (pure_eq_ok.mp h).2⟩

/-- Dropping a part of the ranking, as keeping and dropping both do. -/
theorem dropRanked_plays {rank : Rank} {amount : UInt32} {pick : List Nat → List Nat}
    (hpick : ∀ ranking, (pick ranking).Sublist ranking) (hlive : live.Nodup)
    (h : (do
      checkAmount term amount
      let ranking ← ranked rank live
      dropDice live (pick ranking)) table = .ok left after) :
    Plays node sides table live [] after left := by
  obtain ⟨⟨⟩, between, hamount, h⟩ := bind_eq_ok.mp h
  obtain ⟨-, rfl⟩ := checkAmount_eq_ok hamount
  obtain ⟨ranking, between, hranking, h⟩ := bind_eq_ok.mp h
  have hperm := perm_of_ranked hranking
  obtain ⟨rfl, -⟩ := ranked_eq_ok hranking
  have hsub := hpick ranking
  have hnodup : (pick ranking).Nodup := hsub.nodup (hperm.nodup_iff.mpr hlive)
  have hmem : ∀ die ∈ pick ranking, die ∈ live :=
    fun die hdie => hperm.mem_iff.mp (hsub.subset hdie)
  exact dropDice_plays hnodup hmem h

theorem applyKeep_plays {rank : Rank} {amount : UInt32} (hlive : live.Nodup)
    (h : applyKeep term rank amount live table = .ok left after) :
    Plays node sides table live [] after left :=
  dropRanked_plays (List.drop_sublist amount.toNat) hlive h

theorem applyDrop_plays {rank : Rank} {amount : UInt32} (hlive : live.Nodup)
    (h : applyDrop term rank amount live table = .ok left after) :
    Plays node sides table live [] after left :=
  dropRanked_plays (List.take_sublist amount.toNat) hlive h

/-- A modifier that no face can meet makes no moves. -/
theorem skipped_plays {said : Remark}
    (h : (do remark said; return live) table = .ok left after) :
    Plays node sides table live [] after left := by
  obtain ⟨⟨⟩, between, hsaid, h⟩ := bind_eq_ok.mp h
  obtain ⟨rfl, rfl⟩ := pure_eq_ok.mp h
  obtain rfl := remark_eq_ok hsaid
  exact ⟨rfl, .refl _⟩

variable [FaceSource σ] {limits : Limits} {condition : Condition}

/-- A die that is replaced gives its place among the live dice to the new one. -/
theorem replaceDie_plays {die new : Nat} {done rest : List Nat}
    (h : replaceDie limits node term die table = .ok new after) :
    Plays node term.sides table (done ++ die :: rest) [] after (done ++ new :: rest) := by
  obtain ⟨⟨⟩, between, hretire, h⟩ := bind_eq_ok.mp h
  obtain ⟨-, rfl⟩ := retire_eq_ok hretire
  obtain ⟨rfl, -, face, -, htrail, hvisits⟩ := throwDie_eq_ok h
  refine ⟨hvisits, ?_⟩
  rw [htrail, Array.toList_push, Array.toList_modify, Array.size_modify, ← Array.length_toList]
  exact (Move.replace face).moves

theorem rerollDie_plays {once : Bool} {depth die new : Nat} {done rest : List Nat}
    (h : rerollDie limits node term condition once depth die table = .ok new after) :
    Plays node term.sides table (done ++ die :: rest) [] after (done ++ new :: rest) := by
  induction depth generalizing die table with
  | zero =>
    obtain ⟨face, between, hface, h⟩ := bind_eq_ok.mp h
    obtain ⟨-, rfl⟩ := faceOf_eq_ok hface
    have hstays : die = new ∧ table = after := by
      rcases ite_eq_ok.mp h with ⟨-, h⟩ | ⟨-, h⟩
      · rcases ite_eq_ok.mp h with ⟨-, h⟩ | ⟨-, h⟩
        · exact pure_eq_ok.mp h
        · cases h
      · exact pure_eq_ok.mp h
    obtain ⟨rfl, rfl⟩ := hstays
    exact plays_refl _ _
  | succ depth ih =>
    obtain ⟨face, between, hface, h⟩ := bind_eq_ok.mp h
    obtain ⟨-, rfl⟩ := faceOf_eq_ok hface
    rcases ite_eq_ok.mp h with ⟨-, h⟩ | ⟨-, h⟩
    · obtain ⟨thrown, between, hreplace, h⟩ := bind_eq_ok.mp h
      exact (replaceDie_plays hreplace).trans (ih h)
    · obtain ⟨rfl, rfl⟩ := pure_eq_ok.mp h
      exact plays_refl _ _

omit [FaceSource σ] in
/-- Replacing dice one after the other, from the first live die to the last. -/
theorem replaced_plays {f : Nat → Roller σ Nat}
    (hf : ∀ {die new : Nat} {done rest : List Nat} {table after : Table σ},
      f die table = .ok new after →
        Plays node sides table (done ++ die :: rest) [] after (done ++ new :: rest))
    (done : List Nat) (h : live.mapM f table = .ok left after) :
    Plays node sides table (done ++ live) [] after (done ++ left) := by
  induction live generalizing done table left with
  | nil =>
    obtain ⟨rfl, rfl⟩ := mapM_nil_eq_ok h
    exact plays_refl _ _
  | cons die rest ih =>
    obtain ⟨new, between, others, hfirst, hrest, rfl⟩ := mapM_cons_eq_ok h
    have hothers := ih (done ++ [new]) hrest
    simp only [List.append_assoc, List.singleton_append] at hothers
    exact (hf hfirst).trans hothers

theorem applyReroll_plays {once : Bool}
    (h : applyReroll limits node term condition once live table = .ok left after) :
    Plays node term.sides table live [] after left := by
  rcases ite_eq_ok.mp h with ⟨-, h⟩ | ⟨-, h⟩
  · exact replaced_plays rerollDie_plays [] h
  · exact skipped_plays h

/-- A die explodes at most once, and so does each die that it adds. -/
theorem explodeDie_plays {depth die : Nat} {added : List Nat} (hdie : die ∈ live)
    (h : explodeDie limits node term condition depth die table = .ok added after) :
    ∃ exploded, Plays node term.sides table live exploded after (live ++ added) ∧
      ∀ other, exploded.count other ≤ (die :: added).count other := by
  have hnone {table : Table σ} {live : List Nat} {die : Nat} :
      ∃ exploded, Plays node term.sides table live exploded table (live ++ []) ∧
        ∀ other, exploded.count other ≤ [die].count other :=
    ⟨[], by simpa using plays_refl table live, fun _ => Nat.zero_le _⟩
  induction depth generalizing die live table added with
  | zero =>
    obtain ⟨face, between, hface, hrest⟩ := bind_eq_ok.mp h
    obtain ⟨-, rfl⟩ := faceOf_eq_ok hface
    rcases ite_eq_ok.mp hrest with ⟨-, hend⟩ | ⟨-, hend⟩
    · cases hend
    · obtain ⟨rfl, rfl⟩ := pure_eq_ok.mp hend
      exact hnone
  | succ depth ih =>
    obtain ⟨face, between, hface, hrest⟩ := bind_eq_ok.mp h
    obtain ⟨-, rfl⟩ := faceOf_eq_ok hface
    rcases ite_eq_ok.mp hrest with ⟨-, hmore⟩ | ⟨-, hend⟩
    · obtain ⟨new, next, hthrow, hmore⟩ := bind_eq_ok.mp hmore
      obtain ⟨others, last, hothers, hend⟩ := bind_eq_ok.mp hmore
      obtain ⟨rfl, rfl⟩ := pure_eq_ok.mp hend
      obtain ⟨rfl, -, face, -, htrail, hvisits⟩ := throwDie_eq_ok hthrow
      have hfirst : Plays node term.sides table live [die] next (live ++ [table.trail.size]) := by
        refine ⟨hvisits, ?_⟩
        rw [htrail, Array.toList_push, ← Array.length_toList]
        exact (Move.explode face hdie).moves
      have hnew : table.trail.size ∈ live ++ [table.trail.size] :=
        List.mem_append_right live (.head [])
      obtain ⟨exploded, hplays, hcount⟩ := ih hnew hothers
      refine ⟨die :: exploded, by simpa using hfirst.trans hplays, fun other => ?_⟩
      have hother := hcount other
      simp only [List.count_cons] at hother ⊢
      omega
    · obtain ⟨rfl, rfl⟩ := pure_eq_ok.mp hend
      exact hnone

theorem exploded_plays {dice : List Nat} {depth : Nat} {added : List (List Nat)}
    (hsub : ∀ die ∈ dice, die ∈ live)
    (h : dice.mapM (explodeDie limits node term condition depth) table = .ok added after) :
    ∃ exploded, Plays node term.sides table live exploded after (live ++ added.flatten) ∧
      ∀ other, exploded.count other ≤ (dice ++ added.flatten).count other := by
  induction dice generalizing live table added with
  | nil =>
    obtain ⟨rfl, rfl⟩ := mapM_nil_eq_ok h
    exact ⟨[], by simpa using plays_refl table live, fun _ => Nat.zero_le _⟩
  | cons die rest ih =>
    obtain ⟨new, next, more, hdie, hrest, rfl⟩ := mapM_cons_eq_ok h
    obtain ⟨exploded, hfirst, hcount⟩ := explodeDie_plays (hsub die (.head _)) hdie
    have hstill : ∀ other ∈ rest, other ∈ live ++ new :=
      fun other hother => List.mem_append_left _ (hsub other (.tail _ hother))
    obtain ⟨others, hothers, hcount'⟩ := ih hstill hrest
    rw [List.append_assoc] at hothers
    refine ⟨exploded ++ others, hfirst.trans hothers, fun other => ?_⟩
    have hfirst := hcount other
    have hothers := hcount' other
    simp only [List.flatten_cons, List.count_append, List.count_cons] at hfirst hothers ⊢
    omega

theorem applyExplode_plays
    (h : applyExplode limits node term condition live table = .ok left after) :
    ∃ exploded, Plays node term.sides table live exploded after left ∧
      ∀ other, exploded.count other ≤ left.count other := by
  rcases ite_eq_ok.mp h with ⟨-, h⟩ | ⟨-, h⟩
  · obtain ⟨added, between, hexplode, h⟩ := bind_eq_ok.mp h
    obtain ⟨rfl, rfl⟩ := pure_eq_ok.mp h
    exact exploded_plays (fun _ => id) hexplode
  · exact ⟨[], skipped_plays h, fun _ => Nat.zero_le _⟩

/-- Every modifier makes a run of moves, on which no die explodes unless the modifier explodes
dice, and then each die that is live in the end at most once. -/
theorem applyModifier_plays {modifier : Modifier} (hlive : live.Nodup)
    (h : applyModifier limits node term live modifier table = .ok left after) :
    ∃ exploded, Plays node term.sides table live exploded after left ∧
      ∀ other, exploded.count other ≤ if modifier.explodes then left.count other else 0 := by
  cases modifier with
  | keep rank amount => exact ⟨[], applyKeep_plays hlive h, fun _ => Nat.zero_le _⟩
  | drop rank amount => exact ⟨[], applyDrop_plays hlive h, fun _ => Nat.zero_le _⟩
  | reroll condition => exact ⟨[], applyReroll_plays h, fun _ => Nat.zero_le _⟩
  | rerollOnce condition => exact ⟨[], applyReroll_plays h, fun _ => Nat.zero_le _⟩
  | explode condition => exact applyExplode_plays h

end Roller

end DiceNotation

import Mathlib.Data.List.Sort
import Mathlib.Data.List.Sublists
import DiceNotation.Faces.Script
import DiceNotation.Proofs.Underway

/-!
# Which dice are kept and dropped

Keeping and dropping choose the same live dice of a term, the best ones, where of equal faces the
one that was thrown first is better. Keeping takes all others out of the count, dropping takes
these.
-/
namespace DiceNotation

def Rank.better : Rank → UInt32 → UInt32 → Bool
  | .highest, face, other => other < face
  | .lowest, face, other => face < other

/-- One die is chosen before another: it shows a better face, or the same one and is thrown
first. -/
def Table.Outranks {σ : Type} (table : Table σ) (rank : Rank) (die other : Nat) : Prop :=
  rank.better (table.faceAt die) (table.faceAt other) = true ∨
    (table.faceAt die = table.faceAt other ∧ die < other)

instance {σ : Type} (table : Table σ) (rank : Rank) (die other : Nat) :
    Decidable (table.Outranks rank die other) :=
  inferInstanceAs (Decidable (_ ∨ _))

/-- The trail with some dice taken out of the count. -/
def Trail.without (trail : Trail) (dice : List Nat) : Trail :=
  trail.mapIdx fun die outcome => if die ∈ dice then outcome.retired else outcome

namespace Trail

theorem getElem?_without (trail : Trail) (dice : List Nat) (die : Nat) :
    (Trail.without trail dice)[die]? =
      trail[die]?.map fun outcome => if die ∈ dice then outcome.retired else outcome := by
  simp [without]

@[simp] theorem without_nil (trail : Trail) : Trail.without trail [] = trail := by
  apply Array.ext_getElem?
  simp [getElem?_without]

theorem without_congr {trail : Trail} {dice others : List Nat}
    (h : ∀ die, die ∈ dice ↔ die ∈ others) :
    Trail.without trail dice = Trail.without trail others := by
  apply Array.ext_getElem?
  intro die
  simp only [getElem?_without, h]

theorem without_modify (trail : Trail) (die : Nat) (dice : List Nat) :
    Trail.without (trail.modify die Outcome.retired) dice = Trail.without trail (die :: dice) := by
  apply Array.ext_getElem?
  intro other
  rw [getElem?_without, getElem?_without, Array.getElem?_modify]
  by_cases hother : die = other
  · subst hother
    cases trail[die]? <;> simp [Outcome.retired]
  · cases trail[other]? <;> simp [hother, Ne.symm hother]

end Trail

namespace Rank

theorem inOrder_iff {rank : Rank} {die other : Nat × UInt32} :
    rank.inOrder die other = true ↔ rank.better die.2 other.2 = true ∨ die.2 = other.2 := by
  cases rank
  all_goals
    simp only [inOrder, better, decide_eq_true_eq, UInt32.le_iff_toNat_le, UInt32.lt_iff_toNat_lt,
      ← UInt32.toNat_inj]
    omega

theorem inOrder_trans (rank : Rank) (first second third : Nat × UInt32)
    (h : rank.inOrder first second = true) (h' : rank.inOrder second third = true) :
    rank.inOrder first third = true := by
  cases rank with
  | highest => exact decide_eq_true (UInt32.le_trans (of_decide_eq_true h') (of_decide_eq_true h))
  | lowest => exact decide_eq_true (UInt32.le_trans (of_decide_eq_true h) (of_decide_eq_true h'))

theorem inOrder_total (rank : Rank) (die other : Nat × UInt32) :
    (rank.inOrder die other || rank.inOrder other die) = true := by
  rw [Bool.or_eq_true]
  cases rank with
  | highest => exact (UInt32.le_total other.2 die.2).imp decide_eq_true decide_eq_true
  | lowest => exact (UInt32.le_total die.2 other.2).imp decide_eq_true decide_eq_true

/-- Dice that show the same face stay in their order when dice are ordered by their faces. -/
theorem filter_mergeSort (rank : Rank) (face : UInt32) (dice : List (Nat × UInt32)) :
    ((dice.mergeSort rank.inOrder).filter fun die => die.2 = face) =
      dice.filter fun die => die.2 = face := by
  have hequal : (dice.filter fun die => die.2 = face).Pairwise
      fun die other => rank.inOrder die other = true := by
    refine List.pairwise_of_forall_mem_list fun die hdie other hother => inOrder_iff.mpr (.inr ?_)
    have hdie := of_decide_eq_true (List.mem_filter.mp hdie).2
    have hother := of_decide_eq_true (List.mem_filter.mp hother).2
    exact hdie.trans hother.symm
  have hstable := (List.sublist_mergeSort rank.inOrder_trans rank.inOrder_total hequal
    List.filter_sublist).filter fun die => die.2 = face
  rw [List.filter_filter, List.filter_congr fun die _ => Bool.and_self _] at hstable
  have hperm := (List.mergeSort_perm dice rank.inOrder).filter fun die => die.2 = face
  exact (hstable.eq_of_length hperm.length_eq.symm).symm

end Rank

namespace Roller

variable {σ α β : Type} {table : Table σ}

theorem forM_retire {dropped : List Nat} (h : ∀ die ∈ dropped, die < table.trail.size) :
    dropped.forM retire table =
      .ok () { table with trail := Trail.without table.trail dropped } := by
  induction dropped generalizing table with
  | nil =>
    rw [Trail.without_nil]
    rfl
  | cons die rest ih =>
    have hretire := retire_apply die table
    rw [if_pos (h die (.head rest))] at hretire
    refine bind_eq_ok.mpr ⟨(), _, hretire, ?_⟩
    rw [← Trail.without_modify]
    refine ih fun other hother => ?_
    rw [Array.size_modify]
    exact h other (.tail _ hother)

theorem dropDice_apply {live dropped : List Nat} (h : ∀ die ∈ dropped, die < table.trail.size) :
    dropDice live dropped table =
      .ok (live.filter fun die => die ∉ dropped)
        { table with trail := Trail.without table.trail dropped } := by
  refine bind_eq_ok.mpr ⟨(), _, forM_retire h, ?_⟩
  refine pure_eq_ok.mpr ⟨?_, rfl⟩
  simp

/-- The live dice in the order in which they are chosen. -/
def ranking (table : Table σ) (rank : Rank) (live : List Nat) : List Nat :=
  (((live.mergeSort (· ≤ ·)).map fun die => (die, table.faceAt die)).mergeSort
    rank.inOrder).map Prod.fst

variable {rank : Rank} {live : List Nat}

theorem ranked_apply (h : ∀ die ∈ live, table.Shows die (table.faceAt die)) :
    ranked rank live table = .ok (ranking table rank live) table := by
  refine bind_eq_ok.mpr
    ⟨(live.mergeSort (· ≤ ·)).map fun die => (die, table.faceAt die), table, ?_, rfl⟩
  refine mapM_of_reads fun die hdie => ?_
  exact bind_eq_ok.mpr ⟨_, _, faceOf_of_shows (h die (List.mem_mergeSort.mp hdie)), rfl⟩

theorem ranking_perm (table : Table σ) (rank : Rank) (live : List Nat) :
    (ranking table rank live).Perm live := by
  have hperm := (List.mergeSort_perm ((live.mergeSort (· ≤ ·)).map fun die =>
    (die, table.faceAt die)) rank.inOrder).map Prod.fst
  rw [List.map_map] at hperm
  exact (hperm.trans (.of_eq (List.map_id _))).trans (List.mergeSort_perm live _)

theorem nodup_ranking (table : Table σ) (rank : Rank) (hlive : live.Nodup) :
    (ranking table rank live).Nodup :=
  (ranking_perm table rank live).nodup_iff.mpr hlive

theorem pairwise_faces (table : Table σ) (hlive : live.Nodup) :
    ((live.mergeSort (· ≤ ·)).map fun die => (die, table.faceAt die)).Pairwise
      fun die other => die.1 < other.1 := by
  have hsorted := List.pairwise_mergeSort' (· ≤ ·) live
  rw [List.pairwise_map]
  exact hsorted.imp₂ (fun _ _ => Nat.lt_of_le_of_ne) (List.nodup_mergeSort.mpr hlive)

/-- Earlier in the ranking is better. Of equal faces that is the die that was thrown first, as the
dice are put into the order of the throws before they are ordered by their faces. -/
theorem pairwise_ranking (table : Table σ) (rank : Rank) (hlive : live.Nodup) :
    (ranking table rank live).Pairwise (table.Outranks rank) := by
  have hthrows := pairwise_faces table hlive
  generalize hdice : (live.mergeSort (· ≤ ·)).map (fun die => (die, table.faceAt die)) = dice
    at hthrows
  have hsorted : (dice.mergeSort rank.inOrder).Pairwise
      fun die other => rank.inOrder die other = true :=
    List.pairwise_mergeSort rank.inOrder_trans rank.inOrder_total _
  have hface : ∀ die ∈ dice.mergeSort rank.inOrder, table.faceAt die.1 = die.2 := by
    intro die hdie
    rw [List.mem_mergeSort, ← hdice] at hdie
    obtain ⟨own, -, rfl⟩ := List.mem_map.mp hdie
    rfl
  rw [ranking, hdice, List.pairwise_map, List.pairwise_iff_forall_sublist]
  intro die other hsub
  rw [Table.Outranks, hface die (hsub.subset (.head _)),
    hface other (hsub.subset (.tail _ (.head _)))]
  rw [List.pairwise_iff_forall_sublist] at hsorted hthrows
  refine (Rank.inOrder_iff.mp (hsorted hsub)).imp_right fun hequal => ⟨hequal, ?_⟩
  have hstable := hsub.filter fun die => die.2 = other.2
  rw [rank.filter_mergeSort, List.filter_eq_self.mpr (by simp [hequal])] at hstable
  exact hthrows (hstable.trans List.filter_sublist)

theorem checkAmount_apply (term : DiceTerm) (amount : UInt32) (table : Table σ) :
    checkAmount term amount table =
      if term.count < amount then .error (.amountTooLarge term amount) table else .ok () table := by
  change (if _ then _ else _ : Roller σ Unit) table = _
  split <;> rfl

/-- Dropping a part of the ranking, as keeping and dropping both do. -/
theorem dropRanked_apply {term : DiceTerm} (rank : Rank) {amount : UInt32}
    {pick : List Nat → List Nat} (hpick : ∀ ranking, pick ranking ⊆ ranking)
    (hamount : amount ≤ term.count)
    (hlive : ∀ die ∈ live, table.Shows die (table.faceAt die)) :
    (do
      checkAmount term amount
      let ranking ← ranked rank live
      dropDice live (pick ranking)) table =
      .ok (live.filter fun die => die ∉ pick (ranking table rank live))
        { table with trail := Trail.without table.trail (pick (ranking table rank live)) } := by
  have hcheck := checkAmount_apply term amount table
  rw [if_neg (UInt32.not_lt.mpr hamount)] at hcheck
  refine bind_eq_ok.mpr ⟨(), table, hcheck, ?_⟩
  refine bind_eq_ok.mpr ⟨_, table, ranked_apply hlive, dropDice_apply fun die hdie => ?_⟩
  have hmem : die ∈ live := (ranking_perm table rank live).subset (hpick _ hdie)
  obtain ⟨outcome, houtcome, -⟩ := hlive die hmem
  exact (Array.getElem?_eq_some_iff.mp houtcome).1

theorem dropRanked_of_lt {term : DiceTerm} {amount : UInt32} (pick : List Nat → List Nat)
    (hamount : term.count < amount) :
    (do
      checkAmount term amount
      let ranking ← ranked rank live
      dropDice live (pick ranking)) table = .error (.amountTooLarge term amount) table := by
  have hcheck := checkAmount_apply term amount table
  rw [if_pos hamount] at hcheck
  exact bind_eq_error.mpr (.inl hcheck)

end Roller

section Chosen

variable {σ : Type} {table : Table σ} {rank : Rank} {live : List Nat}

/-- The first dice of the ranking, in the order in which they are live. -/
def chosen (table : Table σ) (rank : Rank) (amount : Nat) (live : List Nat) : List Nat :=
  live.filter fun die => die ∈ (Roller.ranking table rank live).take amount

theorem chosen_perm (table : Table σ) (rank : Rank) (hlive : live.Nodup) (amount : Nat) :
    (chosen table rank amount live).Perm ((Roller.ranking table rank live).take amount) := by
  have hperm := Roller.ranking_perm table rank live
  have hnodup := Roller.nodup_ranking table rank hlive
  refine (List.perm_ext_iff_of_nodup (hlive.filter _) (hnodup.sublist (List.take_sublist _ _))).mpr
    fun die => ?_
  rw [List.mem_filter, decide_eq_true_eq]
  refine and_iff_right_of_imp fun hdie => ?_
  exact hperm.subset (List.mem_of_mem_take hdie)

theorem length_chosen (hlive : live.Nodup) (amount : Nat) :
    (chosen table rank amount live).length = min amount live.length := by
  rw [(chosen_perm table rank hlive amount).length_eq, List.length_take,
    (Roller.ranking_perm table rank live).length_eq]

theorem mem_drop_ranking_iff (hlive : live.Nodup) {amount die : Nat} (hdie : die ∈ live) :
    die ∈ (Roller.ranking table rank live).drop amount ↔ die ∉ chosen table rank amount live := by
  have hnodup := Roller.nodup_ranking table rank hlive
  rw [← List.take_append_drop amount (Roller.ranking table rank live), List.nodup_append] at hnodup
  have hmem : die ∈ (Roller.ranking table rank live).take amount ∨
      die ∈ (Roller.ranking table rank live).drop amount := by
    rw [← List.mem_append, List.take_append_drop]
    exact (Roller.ranking_perm table rank live).mem_iff.mpr hdie
  rw [(chosen_perm table rank hlive amount).mem_iff]
  constructor
  · intro hlast hfirst
    exact hnodup.2.2 die hfirst die hlast rfl
  · exact hmem.resolve_left

theorem outranks_of_mem_chosen (hlive : live.Nodup) {amount die other : Nat}
    (hdie : die ∈ chosen table rank amount live) (hother : other ∈ live)
    (hrest : other ∉ chosen table rank amount live) : table.Outranks rank die other := by
  have hpairwise := Roller.pairwise_ranking table rank hlive
  rw [← List.take_append_drop amount (Roller.ranking table rank live),
    List.pairwise_append] at hpairwise
  exact hpairwise.2.2 die ((chosen_perm table rank hlive amount).mem_iff.mp hdie) other
    ((mem_drop_ranking_iff hlive hother).mpr hrest)

theorem filter_notMem_drop (hlive : live.Nodup) (amount : Nat) :
    (live.filter fun die => die ∉ (Roller.ranking table rank live).drop amount) =
      chosen table rank amount live := by
  refine List.filter_congr fun die hdie => decide_eq_decide.mpr ?_
  rw [mem_drop_ranking_iff hlive hdie, not_not, (chosen_perm table rank hlive amount).mem_iff]

theorem without_drop (hlive : live.Nodup) (amount : Nat) (trail : Trail) :
    Trail.without trail ((Roller.ranking table rank live).drop amount) =
      Trail.without trail (live.filter fun die => die ∉ chosen table rank amount live) := by
  refine Trail.without_congr fun die => ?_
  rw [List.mem_filter, decide_eq_true_eq]
  constructor
  · intro hdie
    have hmem := (Roller.ranking_perm table rank live).subset (List.mem_of_mem_drop hdie)
    exact ⟨hmem, (mem_drop_ranking_iff hlive hmem).mp hdie⟩
  · rintro ⟨hmem, hdie⟩
    exact (mem_drop_ranking_iff hlive hmem).mpr hdie

end Chosen

/-- However its live dice have come about, keeping and dropping choose as many of them as are asked
for, or all if there are fewer, so that each that is chosen outranks each that is not. Keeping takes
those that are not chosen out of the count, and dropping those that are; the others stay live in
their order, and nothing else changes. Nor does anything when the term has too few dice. -/
theorem Underway.keep_drop_chosen {σ : Type} [FaceSource σ] {limits : Limits} {node : Nat}
    {term : DiceTerm} {start table : Table σ} {live : List Nat}
    (h : Underway limits node term start table live) (rank : Rank) (amount : UInt32) :
    (amount ≤ term.count → ∃ chosen : List Nat,
      chosen.Sublist live ∧ chosen.length = min amount.toNat live.length ∧
      (∀ die ∈ chosen, ∀ other ∈ live, other ∉ chosen → table.Outranks rank die other) ∧
      Roller.applyKeep term rank amount live table =
        .ok chosen { table with
          trail := Trail.without table.trail (live.filter fun die => die ∉ chosen) } ∧
      Roller.applyDrop term rank amount live table =
        .ok (live.filter fun die => die ∉ chosen)
          { table with trail := Trail.without table.trail chosen }) ∧
    (term.count < amount →
      Roller.applyKeep term rank amount live table = .error (.amountTooLarge term amount) table ∧
      Roller.applyDrop term rank amount live table = .error (.amountTooLarge term amount) table ∧
      (RollError.amountTooLarge term amount).kind = .amountExceedsDieCount) := by
  have hshows : ∀ die ∈ live, table.Shows die (table.faceAt die) := fun _ => h.shows
  have hnodup := h.nodup
  constructor
  · intro hamount
    have hperm := chosen_perm table rank hnodup amount.toNat
    have hkeep := Roller.dropRanked_apply rank
      (fun ranking => List.drop_subset amount.toNat ranking) hamount hshows
    have hdrop := Roller.dropRanked_apply rank
      (fun ranking => List.take_subset amount.toNat ranking) hamount hshows
    refine ⟨chosen table rank amount.toNat live, List.filter_sublist, length_chosen hnodup _,
      fun die hdie other => outranks_of_mem_chosen hnodup hdie, ?_, ?_⟩
    · refine hkeep.trans ?_
      rw [filter_notMem_drop hnodup, without_drop hnodup]
    · refine hdrop.trans ?_
      simp only [hperm.mem_iff, Trail.without_congr fun die => hperm.mem_iff]
  · intro hamount
    exact ⟨Roller.dropRanked_of_lt _ hamount, Roller.dropRanked_of_lt _ hamount, rfl⟩

/-- Three dice that show the same, the first of which has taken the place of a die thrown
earlier. -/
theorem Underway.keep_drop_chosen_of_ties :
    ∃ table, Underway {} 0 ⟨3, 6, [.reroll none]⟩ (.fresh (Script.ofList [1, 5, 5, 5])) table
        [3, 1, 2] ∧
      (2 : UInt32) ≤ 3 ∧ (∀ other ∈ [3, 1, 2], other ∉ [1, 2] →
        table.Outranks .highest 1 other ∧ table.Outranks .highest 2 other) ∧
      Roller.applyKeep ⟨3, 6, [.reroll none]⟩ .highest 2 [3, 1, 2] table =
        .ok [1, 2] { table with trail := Trail.without table.trail [3] } ∧
      Roller.applyDrop ⟨3, 6, [.reroll none]⟩ .highest 2 [3, 1, 2] table =
        .ok [3] { table with trail := Trail.without table.trail [1, 2] } := by
  have h : Underway {} 0 ⟨3, 6, [.reroll none]⟩ (.fresh (Script.ofList [1, 5, 5, 5]))
      ⟨⟨#[1, 5, 5, 5], 4⟩, #[⟨0, 6, 1, false, none, none⟩, ⟨0, 6, 5, true, none, none⟩,
        ⟨0, 6, 5, true, none, none⟩, ⟨0, 6, 5, true, some 0, none⟩], 0, ∅, 0, #[]⟩ [3, 1, 2] :=
    ⟨[.reroll none], by decide +kernel⟩
  obtain ⟨chosen, hsublist, hlength, houtranks, hkeep, hdrop⟩ :=
    (h.keep_drop_chosen .highest 2).1 (by decide)
  have hchosen : ∀ chosen ∈ [3, 1, 2].sublists, chosen.length = 2 →
      (∀ die ∈ chosen, ∀ other ∈ [3, 1, 2], other ∉ chosen →
        Table.Outranks (σ := Script) ⟨⟨#[1, 5, 5, 5], 4⟩, #[⟨0, 6, 1, false, none, none⟩,
          ⟨0, 6, 5, true, none, none⟩, ⟨0, 6, 5, true, none, none⟩,
          ⟨0, 6, 5, true, some 0, none⟩], 0, ∅, 0, #[]⟩ .highest die other) →
      chosen = [1, 2] := by
    decide +kernel
  obtain rfl := hchosen chosen (List.mem_sublists.mpr hsublist) hlength houtranks
  exact ⟨_, h, by decide, fun other hother hrest => ⟨houtranks 1 (by decide) other hother hrest,
    houtranks 2 (by decide) other hother hrest⟩, hkeep, hdrop⟩

end DiceNotation

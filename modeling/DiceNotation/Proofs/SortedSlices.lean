import Mathlib.Algebra.Order.BigOperators.Group.List
import Mathlib.Algebra.Order.Ring.Nat
import Mathlib.Data.List.Sort
import DiceNotation.Proofs.RerollChains
import DiceNotation.Proofs.SumBounds

/-!
# Kept dice as a slice of the sorted faces

A dice term that only keeps and drops leaves live dice whose faces are a slice of all of its faces
in ascending order. How ties are broken decides which dice these are, but not what they show.
-/
namespace DiceNotation

/-- What a modifier leaves of a slice, which is given by where it starts and where it stops. -/
def Modifier.slice : Modifier → Nat × Nat → Nat × Nat
  | .keep .highest amount, (low, high) => (high - min amount.toNat (high - low), high)
  | .keep .lowest amount, (low, high) => (low, low + min amount.toNat (high - low))
  | .drop .highest amount, (low, high) => (low, high - min amount.toNat (high - low))
  | .drop .lowest amount, (low, high) => (low + min amount.toNat (high - low), high)
  | _, slice => slice

def Modifier.amount? : Modifier → Option UInt32
  | .keep _ amount | .drop _ amount => some amount
  | _ => none

/-- None of the modifiers keeps or drops more dice than the term has. -/
def DiceTerm.Affords (term : DiceTerm) (modifiers : List Modifier) : Prop :=
  ∀ modifier ∈ modifiers, ∀ amount ∈ modifier.amount?, amount ≤ term.count

/-- What all modifiers of a term leave of the whole. -/
def DiceTerm.slice (term : DiceTerm) : Nat × Nat :=
  term.modifiers.foldl (fun slice modifier => modifier.slice slice) (0, term.count.toNat)

def sortedFaces (faces : List UInt32) : List Nat :=
  (faces.map UInt32.toNat).insertionSort (· ≤ ·)

def DiceTerm.slicedTotal (term : DiceTerm) (faces : List UInt32) : Nat :=
  ((sortedFaces faces).extract term.slice.1 term.slice.2).sum

section Slices

variable {sorted : List Nat} {low high : Nat}

/-- A list in ascending order, or the other way round, so that the best come first. -/
def Rank.bestFirst : Rank → List Nat → List Nat
  | .highest, sorted => sorted.reverse
  | .lowest, sorted => sorted

theorem take_extract (sorted : List Nat) (low high amount : Nat) :
    (sorted.extract low high).take amount =
      sorted.extract low (low + min amount (high - low)) := by
  simp [List.take_take]

theorem drop_extract (sorted : List Nat) (low high amount : Nat) :
    (sorted.extract low high).drop amount =
      sorted.extract (low + min amount (high - low)) high := by
  rw [List.drop_take, List.drop_drop]
  rcases Nat.le_total amount (high - low) with hle | hle
  · rw [Nat.min_eq_left hle, Nat.sub_sub, Nat.add_comm]
  · have hnone : high - low - amount = 0 := by omega
    have hnone' : high - (low + min amount (high - low)) = 0 := by omega
    rw [hnone, List.extract, hnone']
    rfl

/-- Taking the best ones of a slice leaves the slice that keeping leaves. -/
theorem take_bestFirst_perm (rank : Rank) (amount : UInt32) (hlow : low ≤ high)
    (hhigh : high ≤ sorted.length) :
    ((rank.bestFirst (sorted.extract low high)).take amount.toNat).Perm
      (sorted.extract ((Modifier.keep rank amount).slice (low, high)).1
        ((Modifier.keep rank amount).slice (low, high)).2) := by
  have hlength : (sorted.extract low high).length = high - low := by simp; omega
  cases rank with
  | lowest => exact .of_eq (take_extract sorted low high amount.toNat)
  | highest =>
    have hstart : low + min (high - low - amount.toNat) (high - low) =
        high - min amount.toNat (high - low) := by omega
    rw [Rank.bestFirst, List.take_reverse, hlength, drop_extract, hstart]
    exact List.reverse_perm _

theorem drop_bestFirst_perm (rank : Rank) (amount : UInt32) (hlow : low ≤ high)
    (hhigh : high ≤ sorted.length) :
    ((rank.bestFirst (sorted.extract low high)).drop amount.toNat).Perm
      (sorted.extract ((Modifier.drop rank amount).slice (low, high)).1
        ((Modifier.drop rank amount).slice (low, high)).2) := by
  have hlength : (sorted.extract low high).length = high - low := by simp; omega
  cases rank with
  | lowest => exact .of_eq (drop_extract sorted low high amount.toNat)
  | highest =>
    have hstop : low + min (high - low - amount.toNat) (high - low) =
        high - min amount.toNat (high - low) := by omega
    rw [Rank.bestFirst, List.drop_reverse, hlength, take_extract, hstop]
    exact List.reverse_perm _

theorem Modifier.slice_le (modifier : Modifier) (hlow : low ≤ high) (hhigh : high ≤ sorted.length) :
    (modifier.slice (low, high)).1 ≤ (modifier.slice (low, high)).2 ∧
      (modifier.slice (low, high)).2 ≤ sorted.length := by
  cases modifier with
  | keep rank amount | drop rank amount => cases rank <;> dsimp only [slice] <;> omega
  | reroll condition | rerollOnce condition | explode condition => exact ⟨hlow, hhigh⟩

end Slices

section Faces

theorem pairwise_sortedFaces (faces : List UInt32) : (sortedFaces faces).Pairwise (· ≤ ·) :=
  List.pairwise_insertionSort _ _

theorem sortedFaces_perm (faces : List UInt32) :
    (sortedFaces faces).Perm (faces.map UInt32.toNat) :=
  List.perm_insertionSort _ _

theorem length_sortedFaces (faces : List UInt32) : (sortedFaces faces).length = faces.length := by
  rw [(sortedFaces_perm faces).length_eq, List.length_map]

theorem sortedFaces_of_perm {faces others : List UInt32} (h : faces.Perm others) :
    sortedFaces faces = sortedFaces others := by
  refine List.Perm.eq_of_pairwise (fun _ _ _ _ => Nat.le_antisymm) (pairwise_sortedFaces faces)
    (pairwise_sortedFaces others) ?_
  exact (sortedFaces_perm faces).trans ((h.map _).trans (sortedFaces_perm others).symm)

theorem orderedInsert_of_pairwise {first : Nat} {numbers : List Nat}
    (h : (first :: numbers).Pairwise (· ≤ ·)) :
    numbers.orderedInsert (· ≤ ·) first = first :: numbers := by
  have hsorted := h.insertionSort_eq
  rwa [List.insertionSort_cons, h.of_cons.insertionSort_eq] at hsorted

theorem orderedInsert_le {number other : Nat} {numbers others : List Nat}
    (hnumber : number ≤ other) (hnumbers : numbers.Pairwise (· ≤ ·))
    (hothers : others.Pairwise (· ≤ ·)) (h : List.Forall₂ (· ≤ ·) numbers others) :
    List.Forall₂ (· ≤ ·) (numbers.orderedInsert (· ≤ ·) number)
      (others.orderedInsert (· ≤ ·) other) := by
  induction h generalizing number other with
  | nil => exact .cons hnumber .nil
  | @cons first first' numbers others hfirst hrest ih =>
    have hinsert {lesser greater : Nat} (hle : lesser ≤ greater) :=
      ih hle hnumbers.of_cons hothers.of_cons
    rw [List.orderedInsert_cons, List.orderedInsert_cons]
    -- where only one of the lists goes on, the first number of the other goes in instead
    by_cases hle : number ≤ first
    · rw [if_pos hle]
      by_cases hle' : other ≤ first'
      · rw [if_pos hle']
        exact .cons hnumber (.cons hfirst hrest)
      · rw [if_neg hle', ← orderedInsert_of_pairwise hnumbers]
        exact .cons (by omega) (hinsert (by omega))
    · rw [if_neg hle]
      by_cases hle' : other ≤ first'
      · rw [if_pos hle', ← orderedInsert_of_pairwise hothers]
        exact .cons (by omega) (hinsert (by omega))
      · rw [if_neg hle']
        exact .cons hfirst (hinsert hnumber)

theorem sortedFaces_le {faces others : List UInt32} (h : List.Forall₂ (· ≤ ·) faces others) :
    List.Forall₂ (· ≤ ·) (sortedFaces faces) (sortedFaces others) := by
  induction h with
  | nil => exact .nil
  | cons hface _ ih =>
    exact orderedInsert_le (UInt32.le_iff_toNat_le.mp hface) (pairwise_sortedFaces _)
      (pairwise_sortedFaces _) ih

end Faces

section Shown

variable {σ : Type} {table : Table σ} {live sorted : List Nat} {slice : Nat × Nat}

def Table.shown (table : Table σ) (dice : List Nat) : List Nat :=
  dice.map fun die => (table.faceAt die).toNat

/-- The live dice show a slice of the faces in ascending order. -/
structure Table.ShowsSlice (table : Table σ) (live sorted : List Nat) (slice : Nat × Nat) :
    Prop where
  ordered : slice.1 ≤ slice.2
  within : slice.2 ≤ sorted.length
  shows : (table.shown live).Perm (sorted.extract slice.1 slice.2)

theorem Table.Outranks.face_le {die other : Nat} (h : table.Outranks .lowest die other) :
    (table.faceAt die).toNat ≤ (table.faceAt other).toNat := by
  rcases h with hbetter | ⟨hequal, -⟩
  · exact Nat.le_of_lt (UInt32.lt_iff_toNat_lt.mp (decide_eq_true_eq.mp hbetter))
  · rw [hequal]

theorem Table.Outranks.face_ge {die other : Nat} (h : table.Outranks .highest die other) :
    (table.faceAt die).toNat ≥ (table.faceAt other).toNat := by
  rcases h with hbetter | ⟨hequal, -⟩
  · exact Nat.le_of_lt (UInt32.lt_iff_toNat_lt.mp (decide_eq_true_eq.mp hbetter))
  · exact Nat.le_of_eq (congrArg UInt32.toNat hequal.symm)

theorem shown_ranking (rank : Rank) (hlive : live.Nodup) {faces : List Nat}
    (hfaces : faces.Pairwise (· ≤ ·)) (hperm : (table.shown live).Perm faces) :
    table.shown (Roller.ranking table rank live) = rank.bestFirst faces := by
  have hranking := Roller.pairwise_ranking table rank hlive
  have hshown : (table.shown (Roller.ranking table rank live)).Perm faces :=
    ((Roller.ranking_perm table rank live).map _).trans hperm
  -- the same faces in the same order are the same list, for equal faces are not told apart
  cases rank with
  | lowest =>
    have hascending : (table.shown (Roller.ranking table .lowest live)).Pairwise (· ≤ ·) :=
      List.pairwise_map.mpr (hranking.imp Table.Outranks.face_le)
    exact hshown.eq_of_pairwise (fun _ _ _ _ => Nat.le_antisymm) hascending hfaces
  | highest =>
    have hdescending : (table.shown (Roller.ranking table .highest live)).Pairwise (· ≥ ·) :=
      List.pairwise_map.mpr (hranking.imp Table.Outranks.face_ge)
    have hreverse : faces.reverse.Pairwise (· ≥ ·) := List.pairwise_reverse.mpr hfaces
    refine List.Perm.eq_of_pairwise ?_ hdescending hreverse
      (hshown.trans (List.reverse_perm faces).symm)
    exact fun _ _ _ _ hge hle => Nat.le_antisymm hle hge

theorem filter_notMem_perm {staying going : List Nat} (hperm : (staying ++ going).Perm live)
    (hlive : live.Nodup) : (live.filter fun die => die ∉ going).Perm staying := by
  have hnodup := List.nodup_append.mp (hperm.nodup_iff.mpr hlive)
  have hstaying : (staying.filter fun die => die ∉ going) = staying :=
    List.filter_eq_self.mpr fun die hdie => decide_eq_true fun hgoing =>
      hnodup.2.2 die hdie die hgoing rfl
  have hgoing : (going.filter fun die => die ∉ going) = [] :=
    List.filter_eq_nil_iff.mpr fun die hdie => by simpa using hdie
  have hfilter := hperm.filter fun die => die ∉ going
  rw [List.filter_append, hstaying, hgoing, List.append_nil] at hfilter
  exact hfilter.symm

theorem Table.faceAt_without (table : Table σ) (dropped : List Nat) (die : Nat) :
    ({ table with trail := Trail.without table.trail dropped } : Table σ).faceAt die =
      table.faceAt die := by
  rw [Table.faceAt, Table.faceAt, Trail.getElem?_without]
  cases table.trail[die]? with
  | none => rfl
  | some outcome =>
    rw [Option.map_some]
    split <;> rfl

end Shown

section Underway

variable {σ : Type} [FaceSource σ] {limits : Limits} {node : Nat} {term : DiceTerm}
  {start table : Table σ} {live sorted : List Nat} {slice : Nat × Nat}

theorem Underway.dropRanked_shown (h : Underway limits node term start table live)
    (hsorted : sorted.Pairwise (· ≤ ·)) (hslice : table.ShowsSlice live sorted slice) (rank : Rank)
    {amount : UInt32} (hamount : amount ≤ term.count) {pick stay : List Nat → List Nat}
    (hparts : ∀ ranking, (stay ranking ++ pick ranking).Perm ranking)
    (hstay : ∀ (f : Nat → Nat) ranking, (stay ranking).map f = stay (ranking.map f)) :
    ∃ left trail,
      (do
        Roller.checkAmount term amount
        let ranking ← Roller.ranked rank live
        Roller.dropDice live (pick ranking)) table = .ok left { table with trail := trail } ∧
      (({ table with trail := trail } : Table σ).shown left).Perm
        (stay (rank.bestFirst (sorted.extract slice.1 slice.2))) := by
  have hpick : ∀ ranking, pick ranking ⊆ ranking := fun ranking _ hdie =>
    (hparts ranking).subset (List.mem_append_right _ hdie)
  have hdrop := Roller.dropRanked_apply rank hpick hamount fun _ => h.shows
  refine ⟨_, _, hdrop, ?_⟩
  have hfaces : (sorted.extract slice.1 slice.2).Pairwise (· ≤ ·) :=
    hsorted.sublist ((List.take_sublist ..).trans (List.drop_sublist ..))
  have hranking := shown_ranking rank h.nodup hfaces hslice.shows
  have hleft := filter_notMem_perm ((hparts _).trans (Roller.ranking_perm table rank live)) h.nodup
  have hshown := hleft.map fun die => (table.faceAt die).toNat
  rw [hstay] at hshown
  change List.Perm _ (stay (table.shown _)) at hshown
  rw [hranking] at hshown
  rw [Table.shown]
  simp only [Table.faceAt_without]
  exact hshown

theorem Underway.choose_slice (h : Underway limits node term start table live)
    (hsorted : sorted.Pairwise (· ≤ ·)) (hslice : table.ShowsSlice live sorted slice)
    {modifier : Modifier} (hchooses : modifier.chooses = true)
    (hamount : ∀ amount ∈ modifier.amount?, amount ≤ term.count) :
    ∃ left trail,
      Roller.applyModifier limits node term live modifier table =
        .ok left { table with trail := trail } ∧
      ({ table with trail := trail } : Table σ).ShowsSlice left sorted (modifier.slice slice) := by
  obtain ⟨hordered, hwithin⟩ := modifier.slice_le hslice.ordered hslice.within
  cases modifier with
  | keep rank amount =>
    obtain ⟨left, trail, hleft, hshown⟩ := h.dropRanked_shown hsorted hslice rank
      (hamount amount rfl) (fun ranking => .of_eq (List.take_append_drop amount.toNat ranking))
      fun _ _ => List.map_take
    refine ⟨left, trail, hleft, hordered, hwithin, hshown.trans ?_⟩
    exact take_bestFirst_perm rank amount hslice.ordered hslice.within
  | drop rank amount =>
    obtain ⟨left, trail, hleft, hshown⟩ := h.dropRanked_shown hsorted hslice rank
      (hamount amount rfl) (fun ranking => List.perm_append_comm.trans
        (.of_eq (List.take_append_drop amount.toNat ranking)))
      fun _ _ => List.map_drop
    refine ⟨left, trail, hleft, hordered, hwithin, hshown.trans ?_⟩
    exact drop_bestFirst_perm rank amount hslice.ordered hslice.within
  | reroll condition | rerollOnce condition | explode condition => cases hchooses

theorem Roller.applyModifier_of_lt {modifier : Modifier} {amount : UInt32}
    (hmodifier : modifier.amount? = some amount) (hamount : term.count < amount) :
    applyModifier limits node term live modifier table =
      .error (.amountTooLarge term amount) table := by
  cases modifier with
  | keep rank amount | drop rank amount =>
    cases hmodifier
    exact dropRanked_of_lt _ hamount
  | reroll condition | rerollOnce condition | explode condition => cases hmodifier

theorem Modifier.exists_amount {modifier : Modifier} (h : modifier.chooses = true) :
    ∃ amount, modifier.amount? = some amount := by
  cases modifier with
  | keep rank amount | drop rank amount => exact ⟨amount, rfl⟩
  | reroll condition | rerollOnce condition | explode condition => cases h

/-- One modifier after another leaves a slice of what the one before has left, up to the first that
asks for too many dice. -/
theorem Underway.modifiers_slice (h : Underway limits node term start table live)
    (hsorted : sorted.Pairwise (· ≤ ·)) (hslice : table.ShowsSlice live sorted slice)
    {modifiers : List Modifier} (hchooses : ∀ modifier ∈ modifiers, modifier.chooses = true) :
    (term.Affords modifiers ∧ ∃ left trail,
      modifiers.foldlM (Roller.applyModifier limits node term) live table =
        .ok left { table with trail := trail } ∧
      Underway limits node term start { table with trail := trail } left ∧
      ({ table with trail := trail } : Table σ).ShowsSlice left sorted
        (modifiers.foldl (fun slice modifier => modifier.slice slice) slice)) ∨
    (¬term.Affords modifiers ∧ ∃ amount trail,
      modifiers.foldlM (Roller.applyModifier limits node term) live table =
        .error (.amountTooLarge term amount) { table with trail := trail }) := by
  induction modifiers generalizing table live slice with
  | nil => exact .inl ⟨nofun, live, table.trail, rfl, h, hslice⟩
  | cons modifier modifiers ih =>
    rw [List.forall_mem_cons] at hchooses
    obtain ⟨amount, hamount⟩ := modifier.exists_amount hchooses.1
    have haffords : term.Affords (modifier :: modifiers) ↔
        amount ≤ term.count ∧ term.Affords modifiers := by
      rw [DiceTerm.Affords, List.forall_mem_cons, hamount]
      simp [DiceTerm.Affords]
    rw [List.foldlM_cons, haffords]
    by_cases hle : amount ≤ term.count
    · obtain ⟨left, trail, hleft, hslice'⟩ := h.choose_slice hsorted hslice hchooses.1
        (by simpa [hamount] using hle)
      rcases ih (h.applied hleft) hslice' hchooses.2 with
        ⟨hrest, last, trail', hlast, hunderway, hslice''⟩ | ⟨hrest, large, trail', hlast⟩
      · refine .inl ⟨⟨hle, hrest⟩, last, trail', ?_, hunderway, hslice''⟩
        exact Roller.bind_eq_ok.mpr ⟨left, _, hleft, hlast⟩
      · refine .inr ⟨fun hboth => hrest hboth.2, large, trail', ?_⟩
        exact Roller.bind_eq_error.mpr (.inr ⟨left, _, hleft, hlast⟩)
    · refine .inr ⟨fun hboth => hle hboth.1, amount, table.trail, ?_⟩
      exact Roller.bind_eq_error.mpr
        (.inl (Roller.applyModifier_of_lt hamount (UInt32.not_le.mp hle)))

end Underway

namespace Roller

variable {σ : Type} [FaceSource σ] {limits : Limits} {node : Nat} {term : DiceTerm}
  {table thrown : Table σ}

theorem size_le_of_throwDice {sides : UInt32} {count : Nat}
    (h : throwDice limits node sides count table = .ok () thrown) (hcount : count ≠ 0) :
    table.trail.size + count ≤ limits.dice := by
  induction count generalizing table with
  | zero => exact absurd rfl hcount
  | succ count ih =>
    obtain ⟨die, between, hdie, hrest⟩ := bind_eq_ok.mp h
    obtain ⟨-, hroom, face, -, htrail, -⟩ := throwDie_eq_ok hdie
    by_cases hlast : count = 0
    · omega
    · have hfits := ih hrest hlast
      rw [htrail, Array.size_push] at hfits
      omega

theorem shown_throwDice {sides : UInt32} {count : Nat}
    (h : throwDice limits node sides count table = .ok () thrown) :
    ((Trail.faces thrown.trail).drop table.trail.size).length = count ∧
      thrown.shown (List.range' table.trail.size count) =
        ((Trail.faces thrown.trail).drop table.trail.size).map UInt32.toNat := by
  obtain ⟨-, faces, rfl, htrail⟩ := throwDice_eq_ok h
  have hfaces : (Trail.faces thrown.trail).drop table.trail.size = faces := by
    rw [Trail.faces, htrail, List.map_append, List.drop_left' (by simp), List.map_map]
    simp [Function.comp_def, Outcome.value_thrown]
  have hstarts : faces <+: (Trail.faces thrown.trail).drop table.trail.size :=
    ⟨[], by rw [List.append_nil, hfaces]⟩
  have hplaces := map_getElem?_range' hstarts
  have hat (die : Nat) : thrown.faceAt die = ((Trail.faces thrown.trail)[die]?).getD 0 := by
    rw [← Trail.face?_eq_getElem?]
    rfl
  have hshown := congrArg (List.map fun face => (Option.getD face 0).toNat) hplaces
  rw [List.map_map, List.map_map] at hshown
  rw [hfaces]
  refine ⟨rfl, Eq.trans ?_ hshown⟩
  simp only [Table.shown, hat]
  rfl

theorem showsSlice_throwDice
    (h : throwDice limits node term.sides term.count.toNat table = .ok () thrown) :
    thrown.ShowsSlice (List.range' table.trail.size term.count.toNat)
      (sortedFaces ((Trail.faces thrown.trail).drop table.trail.size)) (0, term.count.toNat) := by
  obtain ⟨hlength, hshown⟩ := shown_throwDice h
  have hsorted := length_sortedFaces ((Trail.faces thrown.trail).drop table.trail.size)
  rw [hlength] at hsorted
  refine ⟨Nat.zero_le _, Nat.le_of_eq hsorted.symm, ?_⟩
  rw [hshown]
  exact (sortedFaces_perm _).symm.trans
    (.of_eq (List.take_of_length_le (Nat.le_of_eq hsorted)).symm)

theorem rollFaces_slice (hcount : term.count ≠ 0)
    (hchooses : ∀ modifier ∈ term.modifiers, modifier.chooses = true)
    (h : throwDice limits node term.sides term.count.toNat table = .ok () thrown) :
    (term.Affords term.modifiers ∧ ∃ faces trail,
      rollFaces limits node term table = .ok faces { thrown with trail := trail } ∧
      totalOf faces = term.slicedTotal ((Trail.faces thrown.trail).drop table.trail.size)) ∨
    (¬term.Affords term.modifiers ∧ ∃ amount trail,
      rollFaces limits node term table =
        .error (.amountTooLarge term amount) { thrown with trail := trail }) := by
  have hpos : term.count.toNat ≠ 0 := fun hzero => hcount (UInt32.toNat_inj.mp hzero)
  have hfits := size_le_of_throwDice h hpos
  have hroll : rollFaces limits node term table =
      (throwDice limits node term.sides term.count.toNat >>= fun _ =>
        term.modifiers.foldlM (applyModifier limits node term)
          (List.range' table.trail.size term.count.toNat) >>= fun live =>
            live.mapM faceOf) table := by
    unfold rollFaces
    rw [if_neg hcount, if_neg (by omega)]
    rfl
  rw [hroll]
  rcases (Underway.of_throwDice h).modifiers_slice (pairwise_sortedFaces _)
      (showsSlice_throwDice h) hchooses with
    ⟨haffords, left, trail, hleft, hunderway, hslice⟩ | ⟨hlarge, amount, trail, hleft⟩
  · have hfaces := mapM_of_reads fun die hdie => faceOf_of_shows (hunderway.shows hdie)
    refine .inl ⟨haffords, _, trail, bind_eq_ok.mpr ⟨(), thrown, h,
      bind_eq_ok.mpr ⟨left, _, hleft, hfaces⟩⟩, ?_⟩
    rw [totalOf_eq_sum, List.map_map]
    exact hslice.shows.sum_nat
  · exact .inr ⟨hlarge, amount, trail, bind_eq_error.mpr (.inr ⟨(), thrown, h,
      bind_eq_error.mpr (.inl hleft)⟩)⟩

end Roller

/-- What rolling a term comes to that only keeps and drops: the sum of the slice, unless a modifier
asks for too many dice or no 64-bit integer holds the sum. The source is the same in any case. -/
inductive DiceTerm.SliceRoll {σ : Type} (term : DiceTerm) (faces : List UInt32) (source : σ) :
    EStateM.Result RollError (Table σ) Int64 → Prop
  | value {value : Int64} {after : Table σ} (affords : term.Affords term.modifiers)
      (total : value.toInt = term.slicedTotal faces) (drawn : after.source = source) :
      SliceRoll term faces source (.ok value after)
  | overflow {after : Table σ} (affords : term.Affords term.modifiers)
      (large : 2 ^ 63 ≤ term.slicedTotal faces) (drawn : after.source = source) :
      SliceRoll term faces source (.error (.sumOverflow term) after)
  | amount {amount : UInt32} {after : Table σ} (large : ¬term.Affords term.modifiers)
      (drawn : after.source = source) :
      SliceRoll term faces source (.error (.amountTooLarge term amount) after)

namespace DiceTerm

variable {σ : Type} {term : DiceTerm} {faces others : List UInt32} {source : σ}

theorem SliceRoll.total_eq {value : Int64} {after : Table σ}
    (h : term.SliceRoll faces source (.ok value after)) :
    value.toInt = term.slicedTotal faces := by
  cases h with
  | value affords total drawn => exact total

theorem slicedTotal_lt (term : DiceTerm) (h : faces.length ≤ 2 ^ 31) :
    term.slicedTotal faces < 2 ^ 63 := by
  have hlength : ((sortedFaces faces).extract term.slice.1 term.slice.2).length ≤ 2 ^ 31 := by
    rw [List.length_take, List.length_drop, length_sortedFaces]
    omega
  have hface : ∀ face ∈ (sortedFaces faces).extract term.slice.1 term.slice.2,
      face ≤ 2 ^ 32 - 1 := by
    intro face hmem
    have hsorted := List.mem_of_mem_drop (List.mem_of_mem_take hmem)
    obtain ⟨own, -, rfl⟩ := List.mem_map.mp ((sortedFaces_perm faces).subset hsorted)
    have := own.toNat_lt
    omega
  have hsum := List.sum_le_card_nsmul _ _ hface
  rw [nsmul_eq_mul, Nat.cast_id] at hsum
  have hproduct := Nat.mul_le_mul_right (2 ^ 32 - 1) hlength
  rw [slicedTotal]
  omega

theorem SliceRoll.exists_ok_iff {result : EStateM.Result RollError (Table σ) Int64}
    (h : term.SliceRoll faces source result) (hlength : faces.length = term.count.toNat) :
    (∃ value after, result = .ok value after) ↔ term.Affords term.modifiers ∧
      (2 ^ 31 < term.count.toNat → term.slicedTotal faces < 2 ^ 63) := by
  cases h with
  | @value value after affords total drawn =>
    have hvalue := value.toInt_lt
    exact ⟨fun _ => ⟨affords, fun _ => by omega⟩, fun _ => ⟨value, after, rfl⟩⟩
  | overflow affords large drawn =>
    refine ⟨nofun, fun ⟨_, hfits⟩ => absurd large (Nat.not_le.mpr ?_)⟩
    by_cases hmany : 2 ^ 31 < term.count.toNat
    · exact hfits hmany
    · exact term.slicedTotal_lt (hlength ▸ Nat.le_of_not_lt hmany)
  | amount large drawn => exact ⟨nofun, fun ⟨haffords, _⟩ => absurd haffords large⟩

theorem SliceRoll.exists_eq_sumOverflow {result : EStateM.Result RollError (Table σ) Int64}
    (h : term.SliceRoll faces source result) (haffords : term.Affords term.modifiers)
    (hlarge : 2 ^ 63 ≤ term.slicedTotal faces) :
    ∃ after, result = .error (.sumOverflow term) after := by
  cases h with
  | @value value _ _ total _ =>
    have hvalue := value.toInt_lt
    omega
  | @overflow after _ _ _ => exact ⟨after, rfl⟩
  | amount large _ => exact absurd haffords large

theorem slicedTotal_of_perm (term : DiceTerm) (h : faces.Perm others) :
    term.slicedTotal faces = term.slicedTotal others := by
  rw [slicedTotal, slicedTotal, sortedFaces_of_perm h]

theorem slicedTotal_le (term : DiceTerm) (h : List.Forall₂ (· ≤ ·) faces others) :
    term.slicedTotal faces ≤ term.slicedTotal others :=
  (List.forall₂_take _ (List.forall₂_drop _ (sortedFaces_le h))).sum_le_sum

end DiceTerm

section Term

variable {σ : Type} [FaceSource σ] {limits : Limits} {node : Nat} {term : DiceTerm}
  {table thrown : Table σ}

theorem Roller.rollTerm_slice (hcount : term.count ≠ 0)
    (hchooses : ∀ modifier ∈ term.modifiers, modifier.chooses = true)
    (h : throwDice limits node term.sides term.count.toNat table = .ok () thrown) :
    term.SliceRoll ((Trail.faces thrown.trail).drop table.trail.size) thrown.source
      (rollTerm limits node term table) := by
  rw [rollTerm_eq]
  rcases rollFaces_slice hcount hchooses h with
    ⟨haffords, faces, trail, hfaces, htotal⟩ | ⟨hlarge, amount, trail, hfaces⟩
  · cases hnarrow : narrow? (totalOf faces) with
    | none =>
      have hsum : addUp node term faces { thrown with trail := trail } =
          .error (.sumOverflow term) { thrown with trail := trail } := by
        rw [addUp, hnarrow]
        rfl
      rw [bind_eq_error.mpr (.inr ⟨faces, _, hfaces, hsum⟩)]
      have hlarge := narrow?_eq_none_iff.mp hnarrow
      rw [Int64.toInt_minValue, Int64.toInt_maxValue] at hlarge
      exact .overflow haffords (by omega) rfl
    | some value =>
      have hsum : addUp node term faces { thrown with trail := trail } =
          .ok value { thrown with
            trail := trail, remarks := thrown.remarks.push (.rolled node term value) } := by
        rw [addUp, hnarrow]
        rfl
      rw [bind_eq_ok.mpr ⟨faces, _, hfaces, hsum⟩]
      refine .value haffords ?_ rfl
      rw [narrow?_eq_some_iff.mp hnarrow, htotal]
  · rw [bind_eq_error.mpr (.inl hfaces)]
    exact .amount hlarge rfl

theorem Roller.throwDice_of_draws (htime : limits.time = none) {sides : UInt32}
    {faces : List UInt32} {after : σ} (hdraws : Draws sides table.source faces after)
    (hroom : faces.length ≤ table.room limits) :
    ∃ thrown, throwDice limits node sides faces.length table = .ok () thrown ∧
      thrown.source = after ∧ Trail.faces thrown.trail = Trail.faces table.trail ++ faces := by
  induction faces generalizing table with
  | nil =>
    obtain rfl := draws_nil_iff.mp hdraws
    exact ⟨table, rfl, rfl, (List.append_nil _).symm⟩
  | cons face faces ih =>
    obtain ⟨between, hnext, hrest⟩ := draws_cons_iff.mp hdraws
    rw [List.length_cons] at hroom
    have hthrow := throwDie_of_room htime table (by omega) hnext node .term
    let between : Table σ := { table with
      source := between, trail := table.trail.push (.thrown node sides face .term) }
    have hroom' : faces.length ≤ between.room limits := by
      rw [Table.room] at hroom ⊢
      rw [Array.size_push]
      omega
    obtain ⟨thrown, hthrown, hafter, hfaces⟩ := ih hrest hroom'
    refine ⟨thrown, bind_eq_ok.mpr ⟨_, _, hthrow, hthrown⟩, hafter, ?_⟩
    rw [hfaces, Trail.faces_push, Outcome.value_thrown, List.append_assoc]
    rfl

theorem Expression.roll_dice (htime : limits.time = none) (hnodes : 1 ≤ limits.nodes)
    (term : DiceTerm) (source : σ) :
    (dice term).roll limits source =
      match Roller.rollTerm limits 0 term { Table.fresh source with nodes := 1 } with
      | .ok value after =>
        (.ok ⟨value, after.trail, after.subTotals.insert 0 value⟩, after.source)
      | .error error after => (.error error, after.source) := by
  have hcount : (dice term).nodeCount ≤ limits.nodes := by rwa [nodeCount_eq_size]
  have hvisit := Roller.visit_of_none htime (.fresh source)
  rw [roll_eq_outcome hcount]
  cases hterm : Roller.rollTerm limits 0 term { Table.fresh source with nodes := 1 } with
  | ok value after =>
    have hroll : Roller.rollNodes limits (dice term) (.fresh source) =
        .ok value { after with subTotals := after.subTotals.insert 0 value } :=
      Roller.bind_eq_ok.mpr ⟨0, _, hvisit, Roller.bind_eq_ok.mpr ⟨value, after, hterm, rfl⟩⟩
    rw [hroll]
    rfl
  | error error after =>
    have hroll : Roller.rollNodes limits (dice term) (.fresh source) = .error error after :=
      Roller.bind_eq_error.mpr (.inr ⟨0, _, hvisit, Roller.bind_eq_error.mpr (.inl hterm)⟩)
    rw [hroll]
    rfl

/-- With room for its node and its dice, rolling a term alone comes to what the slice of the faces
drawn comes to. -/
theorem Expression.exists_sliceRoll (htime : limits.time = none) (hnodes : 1 ≤ limits.nodes)
    (hcount : term.count ≠ 0) (hdice : term.count.toNat ≤ limits.dice)
    (hchooses : ∀ modifier ∈ term.modifiers, modifier.chooses = true) {source after : σ}
    {faces : List UInt32} (hlength : faces.length = term.count.toNat)
    (hdraws : Draws term.sides source faces after) :
    ∃ result : EStateM.Result RollError (Table σ) Int64, term.SliceRoll faces after result ∧
      (dice term).roll limits source =
        match result with
        | .ok value table =>
          (.ok ⟨value, table.trail, table.subTotals.insert 0 value⟩, table.source)
        | .error error table => (.error error, table.source) := by
  have hroom : faces.length ≤ ({ Table.fresh source with nodes := 1 } : Table σ).room limits := by
    rw [hlength]
    exact hdice
  obtain ⟨thrown, hthrown, rfl, hfaces⟩ := Roller.throwDice_of_draws htime hdraws hroom
  rw [hlength] at hthrown
  have hdrop : (Trail.faces thrown.trail).drop 0 = faces := hfaces
  have hslice : term.SliceRoll ((Trail.faces thrown.trail).drop 0) thrown.source _ :=
    Roller.rollTerm_slice hcount hchooses hthrown
  rw [hdrop] at hslice
  exact ⟨_, hslice, roll_dice htime hnodes term source⟩

/-- The value of a dice term that only keeps and drops is the sum of a slice of the faces that are
drawn, in ascending order. It has a value just if no modifier asks for more dice than the term has;
only with more than 2 ^ 31 dice does it matter whether a 64-bit integer holds the sum. This is so
for the term alone, and at any table where its dice get thrown. The value does not depend on the
order of the faces, and greater faces never make it less. -/
theorem Expression.roll_slice (hcount : term.count ≠ 0)
    (hchooses : ∀ modifier ∈ term.modifiers, modifier.chooses = true) :
    (∀ (source : σ) faces after, limits.time = none → 1 ≤ limits.nodes →
      term.count.toNat ≤ limits.dice → faces.length = term.count.toNat →
      Draws term.sides source faces after →
        ((dice term).roll limits source).2 = after ∧
        ((∃ evaluation, ((dice term).roll limits source).1 = .ok evaluation) ↔
          term.Affords term.modifiers ∧
            (2 ^ 31 < term.count.toNat → term.slicedTotal faces < 2 ^ 63)) ∧
        ∀ evaluation, ((dice term).roll limits source).1 = .ok evaluation →
          evaluation.total.toInt = term.slicedTotal faces) ∧
    (∀ node (table thrown : Table σ) faces,
      Roller.throwDice limits node term.sides term.count.toNat table = .ok () thrown →
      faces = (Trail.faces thrown.trail).drop table.trail.size →
        faces.length = term.count.toNat ∧
        ((∃ value after, Roller.rollTerm limits node term table = .ok value after) ↔
          term.Affords term.modifiers ∧
            (2 ^ 31 < term.count.toNat → term.slicedTotal faces < 2 ^ 63)) ∧
        ∀ value after, Roller.rollTerm limits node term table = .ok value after →
          value.toInt = term.slicedTotal faces) ∧
    (∀ faces others, faces.Perm others → term.slicedTotal faces = term.slicedTotal others) ∧
    ∀ faces others, List.Forall₂ (· ≤ ·) faces others →
      term.slicedTotal faces ≤ term.slicedTotal others := by
  refine ⟨?_, ?_, fun _ _ => term.slicedTotal_of_perm, fun _ _ => term.slicedTotal_le⟩
  · intro source faces after htime hnodes hdice hlength hdraws
    obtain ⟨result, hslice, hroll⟩ :=
      exists_sliceRoll htime hnodes hcount hdice hchooses hlength hdraws
    rw [hroll, ← hslice.exists_ok_iff hlength]
    cases hslice with
    | @value value last affords total drawn =>
      refine ⟨drawn, ⟨fun _ => ⟨value, last, rfl⟩, fun _ => ⟨_, rfl⟩⟩, fun evaluation h => ?_⟩
      cases h
      exact total
    | overflow affords large drawn => exact ⟨drawn, ⟨nofun, nofun⟩, nofun⟩
    | amount large drawn => exact ⟨drawn, ⟨nofun, nofun⟩, nofun⟩
  · rintro node table thrown faces hthrown rfl
    have hlength := (Roller.shown_throwDice hthrown).1
    have hslice := Roller.rollTerm_slice hcount hchooses hthrown
    refine ⟨hlength, hslice.exists_ok_iff hlength, fun value after h => ?_⟩
    rw [h] at hslice
    exact hslice.total_eq

end Term

/-- One of two highest dice is dropped, and of the others the best two are kept. -/
theorem Expression.roll_slice_of_ties :
    let term : DiceTerm := ⟨4, 6, [.drop .highest 1, .keep .highest 2]⟩
    term.count ≠ 0 ∧ (∀ modifier ∈ term.modifiers, modifier.chooses = true) ∧
      Draws 6 (Script.ofList [3, 5, 5, 2]) [3, 5, 5, 2] ⟨#[3, 5, 5, 2], 4⟩ ∧
      ∃ evaluation, ((dice term).roll {} (Script.ofList [3, 5, 5, 2])).1 = .ok evaluation ∧
        evaluation.total.toInt = 8 := by
  intro term
  have hcount : term.count ≠ 0 := by decide
  have hchooses : ∀ modifier ∈ term.modifiers, modifier.chooses = true := by decide
  have hdraws : Draws 6 (Script.ofList [3, 5, 5, 2]) [3, 5, 5, 2] ⟨#[3, 5, 5, 2], 4⟩ :=
    .cons rfl (.cons rfl (.cons rfl (.cons rfl (.nil _))))
  have haffords : term.Affords term.modifiers := by
    simp [term, DiceTerm.Affords, Modifier.amount?]
  have hmany : 2 ^ 31 < term.count.toNat → term.slicedTotal [3, 5, 5, 2] < 2 ^ 63 := by decide
  have hdice : term.count.toNat ≤ ({} : Limits).dice := by decide
  obtain ⟨-, hsucceeds, htotal⟩ := (roll_slice hcount hchooses).1 _ _ _ rfl (by decide) hdice rfl
    hdraws
  obtain ⟨evaluation, hroll⟩ := hsucceeds.mpr ⟨haffords, hmany⟩
  have height : (term.slicedTotal [3, 5, 5, 2] : Int) = 8 := by decide
  exact ⟨hcount, hchooses, hdraws, evaluation, hroll, (htotal evaluation hroll).trans height⟩

theorem Script.draws_replicate {face sides : UInt32} (hone : 1 ≤ face) (hle : face ≤ sides)
    (count drawn : Nat) :
    Draws sides (⟨#[face], drawn⟩ : Script) (List.replicate count face)
      ⟨#[face], drawn + count⟩ := by
  induction count generalizing drawn with
  | zero => exact .nil _
  | succ count ih =>
    have hsides : sides ≠ 0 := by
      rintro rfl
      rw [UInt32.le_iff_toNat_le] at hone hle
      exact absurd (hone.trans hle) (by decide)
    have hface : (#[face])[drawn % 1]? = some face := by simp [Nat.mod_one]
    have hshown : (⟨#[face], drawn⟩ : Script).draw sides = (face, ⟨#[face], drawn + 1⟩) :=
      draw_of_getElem? hface hone hle
    have hnext : FaceSource.next sides (⟨#[face], drawn⟩ : Script) =
        .ok (face, ⟨#[face], drawn + 1⟩) :=
      (FaceSource.next_eq_ok_iff_draw rfl).mpr ⟨hsides, hshown⟩
    have hrest := ih (drawn + 1)
    rw [Nat.add_right_comm] at hrest
    exact .cons hnext hrest

theorem DiceTerm.slicedTotal_of_whole {term : DiceTerm} {faces : List UInt32}
    (h : term.slice = (0, faces.length)) :
    term.slicedTotal faces = (faces.map UInt32.toNat).sum := by
  have hlength := length_sortedFaces faces
  rw [slicedTotal, h, List.extract_eq_take_drop, List.drop_zero, Nat.sub_zero,
    List.take_of_length_le (Nat.le_of_eq hlength), (sortedFaces_perm faces).sum_eq]

/-- Enough dice for all modifiers do not make a value: the greatest faces of 2 ^ 31 + 1 dice sum up
to more than 63 bits, and where no node may be visited nothing is rolled. -/
theorem Expression.roll_fails_despite_affords :
    (let term : DiceTerm := ⟨2147483649, 4294967295, [.keep .highest 2147483649]⟩
      let limits : Limits := { dice := 2147483649 }
      let faces := List.replicate 2147483649 (4294967295 : UInt32)
      (∀ modifier ∈ term.modifiers, modifier.chooses = true) ∧ term.Affords term.modifiers ∧
        term.count.toNat ≤ limits.dice ∧ faces.length = term.count.toNat ∧
        Draws term.sides (Script.ofList [4294967295]) faces ⟨#[4294967295], 2147483649⟩ ∧
        ((dice term).roll limits (Script.ofList [4294967295])).1 = .error (.sumOverflow term)) ∧
    (let term : DiceTerm := ⟨2, 6, [.keep .highest 1]⟩
      let limits : Limits := { nodes := 0 }
      (∀ modifier ∈ term.modifiers, modifier.chooses = true) ∧ term.Affords term.modifiers ∧
        term.count.toNat ≤ limits.dice ∧
        Draws term.sides (Script.ofList [3, 5]) [3, 5] ⟨#[3, 5], 2⟩ ∧
        ((dice term).roll limits (Script.ofList [3, 5])).1 = .error (.tooManyNodes 1 0)) := by
  constructor
  · intro term limits faces
    have hchooses : ∀ modifier ∈ term.modifiers, modifier.chooses = true := by decide
    have haffords : term.Affords term.modifiers := by
      simp [term, DiceTerm.Affords, Modifier.amount?]
    have hlength : faces.length = term.count.toNat := List.length_replicate
    have hdraws : Draws term.sides (Script.ofList [4294967295]) faces
        ⟨#[4294967295], 0 + 2147483649⟩ :=
      Script.draws_replicate (by decide) (Nat.le_refl _) 2147483649 0
    have hslice : term.slice = (0, faces.length) := by
      rw [hlength]
      simp [term, DiceTerm.slice, Modifier.slice]
    have hlarge : 2 ^ 63 ≤ term.slicedTotal faces := by
      rw [DiceTerm.slicedTotal_of_whole hslice, List.map_replicate, List.sum_replicate]
      decide
    refine ⟨hchooses, haffords, Nat.le_refl _, hlength, hdraws, ?_⟩
    have hdice : term.count.toNat ≤ limits.dice := Nat.le_refl _
    obtain ⟨result, hsliceRoll, hroll⟩ :=
      exists_sliceRoll rfl (by decide) (by decide) hdice hchooses hlength hdraws
    obtain ⟨table, rfl⟩ := hsliceRoll.exists_eq_sumOverflow haffords hlarge
    rw [hroll]
  · intro term limits
    refine ⟨by decide, by simp [term, DiceTerm.Affords, Modifier.amount?], by decide,
      .cons rfl (.cons rfl (.nil _)), ?_⟩
    have hone : (dice term).nodeCount = 1 := nodeCount_eq_size _
    have hnodes : limits.nodes < (dice term).nodeCount := by
      rw [hone]
      decide
    rw [roll_of_lt_nodeCount hnodes, hone]

end DiceNotation

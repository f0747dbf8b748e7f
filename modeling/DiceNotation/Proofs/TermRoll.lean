import DiceNotation.Proofs.Block

/-!
# Rolling a dice term

A term that is rolled leaves one block of outcomes behind the trail, and its value is the sum of
the dice of the block that are kept.
-/
namespace DiceNotation

def DiceTerm.explosions (term : DiceTerm) : Nat := term.modifiers.countP Modifier.explodes

/-- The exact sum of faces. -/
def totalOf (faces : List UInt32) : Nat := faces.foldl (fun total face => total + face.toNat) 0

def keptFaces (outcomes : List Outcome) : List UInt32 :=
  (outcomes.filter Outcome.kept).map Outcome.value

def keptTotal (outcomes : List Outcome) : Nat := totalOf (keptFaces outcomes)

/-- The outcomes that a term leaves on the trail. -/
structure Block (node : Nat) (term : DiceTerm) (start : Nat) (outcomes : List Outcome) : Prop
    extends Chained node term start outcomes where
  exploded : ∀ die, (explosions outcomes).count die ≤ term.explosions

variable {before block : List Outcome} {node start : Nat} {term : DiceTerm} {live left : List Nat}

/-- The dice of a block that are kept, in the order of the throws. -/
def keptDice (start : Nat) (block : List Outcome) : List (Outcome × Nat) :=
  (block.zipIdx start).filter fun entry => entry.1.kept

theorem map_value_keptDice (start : Nat) (block : List Outcome) :
    ((keptDice start block).map fun entry => entry.1.value) = keptFaces block := by
  have hfst : (keptDice start block).map Prod.fst = block.filter Outcome.kept := by
    have hmap := List.filter_map (p := Outcome.kept) (f := Prod.fst) (l := block.zipIdx start)
    rw [List.zipIdx_map_fst] at hmap
    exact hmap.symm
  rw [keptFaces, ← hfst, List.map_map]
  rfl

theorem mem_keptDice {outcome : Outcome} {die : Nat} :
    (outcome, die) ∈ keptDice start block ↔
      ∃ j, die = start + j ∧ block[j]? = some outcome ∧ outcome.kept = true := by
  rw [keptDice, List.mem_filter, List.mk_mem_zipIdx_iff_le_and_getElem?_sub]
  constructor
  · rintro ⟨⟨hle, hdie⟩, hkept⟩
    exact ⟨die - start, by omega, hdie, hkept⟩
  · rintro ⟨j, rfl, hj, hkept⟩
    exact ⟨⟨by omega, by rwa [Nat.add_sub_cancel_left]⟩, hkept⟩

theorem Live.perm_keptDice (h : Live start block live) :
    live.Perm ((keptDice start block).map Prod.snd) := by
  have hsub : ((keptDice start block).map Prod.snd).Sublist (List.range' start block.length) := by
    rw [← List.zipIdx_map_snd start block]
    exact List.filter_sublist.map Prod.snd
  refine (List.perm_ext_iff_of_nodup h.nodup (hsub.nodup List.nodup_range')).mpr fun die => ?_
  rw [h.mem_iff, List.mem_map]
  constructor
  · rintro ⟨j, outcome, hdie, hj, hkept⟩
    exact ⟨(outcome, die), mem_keptDice.mpr ⟨j, hdie, hj, hkept⟩, rfl⟩
  · rintro ⟨⟨outcome, other⟩, hmem, rfl⟩
    have ⟨j, hdie, hj, hkept⟩ := mem_keptDice.mp hmem
    exact ⟨j, outcome, hdie, hj, hkept⟩

theorem totalOf_cons (face : UInt32) (faces : List UInt32) :
    totalOf (face :: faces) = face.toNat + totalOf faces := by
  have hstart : faces.foldl (fun total other => total + other.toNat) (face.toNat + 0) =
      face.toNat + totalOf faces :=
    List.foldl_hom (face.toNat + ·) fun _ _ => Nat.add_assoc ..
  rw [totalOf, List.foldl_cons, Nat.zero_add]
  exact hstart

theorem totalOf_perm {faces others : List UInt32} (h : faces.Perm others) :
    totalOf faces = totalOf others :=
  h.foldl_eq' (fun _ _ _ _ total => Nat.add_right_comm total _ _) 0

/-- The face that a die on the trail shows. -/
def Table.faceAt {σ : Type} (table : Table σ) (die : Nat) : UInt32 :=
  (table.trail[die]?.map Outcome.value).getD 0

theorem eq_map_faceAt_of_shows {σ : Type} {table : Table σ} {faces : List UInt32}
    (h : List.Forall₂ table.Shows live faces) : faces = live.map table.faceAt := by
  induction h with
  | nil => rfl
  | cons hface _ ih =>
    obtain ⟨outcome, hdie, rfl⟩ := hface
    simp [← ih, Table.faceAt, hdie]

theorem getElem?_behind {trail : Trail} (h : trail.toList = before ++ block) (j : Nat) :
    trail[before.length + j]? = block[j]? := by
  rw [← Array.getElem?_toList, h, List.getElem?_append_right (Nat.le_add_right _ _),
    Nat.add_sub_cancel_left]

theorem perm_keptFaces {σ : Type} {table : Table σ} {faces : List UInt32}
    (htrail : table.trail.toList = before ++ block) (hlive : Live before.length block live)
    (hfaces : List.Forall₂ table.Shows live faces) : faces.Perm (keptFaces block) := by
  have hdice : ((keptDice before.length block).map Prod.snd).map table.faceAt =
      keptFaces block := by
    rw [List.map_map, ← map_value_keptDice before.length]
    refine List.map_congr_left ?_
    rintro ⟨outcome, die⟩ hmem
    obtain ⟨j, rfl, hj, -⟩ := mem_keptDice.mp hmem
    have hdie := getElem?_behind htrail j
    simp [Table.faceAt, hdie, hj]
  rw [eq_map_faceAt_of_shows hfaces, ← hdice]
  exact hlive.perm_keptDice.map table.faceAt

theorem Hand.InPlay.shows {σ : Type} {table : Table σ}
    (h : Hand.InPlay before node term block ⟨table.trail.toList, live⟩) {die : Nat}
    (hdie : die ∈ live) : table.Shows die (table.faceAt die) := by
  obtain ⟨j, outcome, rfl, hj, -⟩ := h.live.exists_of_mem hdie
  have houtcome := (getElem?_behind h.trail_eq j).trans hj
  refine ⟨outcome, houtcome, ?_⟩
  rw [Table.faceAt, houtcome]
  rfl

namespace Roller

variable {σ : Type} [FaceSource σ] {limits : Limits} {table after : Table σ}

theorem throwDice_eq_ok {sides : UInt32} {count : Nat}
    (h : throwDice limits node sides count table = .ok () after) :
    after.visits = table.visits ∧ ∃ faces : List UInt32, faces.length = count ∧
      after.trail.toList =
        table.trail.toList ++ faces.map fun face => .thrown node sides face .term := by
  induction count generalizing table with
  | zero =>
    obtain ⟨-, rfl⟩ := pure_eq_ok.mp h
    exact ⟨rfl, [], rfl, (List.append_nil _).symm⟩
  | succ count ih =>
    obtain ⟨die, between, hdie, hrest⟩ := bind_eq_ok.mp h
    obtain ⟨-, -, face, -, htrail, hvisits⟩ := throwDie_eq_ok hdie
    obtain ⟨hvisits', faces, rfl, htrail'⟩ := ih hrest
    refine ⟨hvisits'.trans hvisits, face :: faces, rfl, ?_⟩
    rw [htrail', htrail, Array.toList_push, List.append_assoc]
    rfl

/-- Modifiers keep the block in order, and make no die explode more often than there are modifiers
that explode dice. -/
theorem modifiers_inPlay {modifiers : List Modifier}
    (h : modifiers.foldlM (applyModifier limits node term) live table = .ok left after)
    (hplay : Hand.InPlay before node term block ⟨table.trail.toList, live⟩) :
    after.visits = table.visits ∧
      ∃ block', Hand.InPlay before node term block' ⟨after.trail.toList, left⟩ ∧
        ∀ die, (explosions block').count die ≤
          (explosions block).count die + modifiers.countP Modifier.explodes := by
  induction modifiers generalizing live table block with
  | nil =>
    obtain ⟨rfl, rfl⟩ := pure_eq_ok.mp h
    exact ⟨rfl, block, hplay, fun _ => Nat.le_refl _⟩
  | cons modifier rest ih =>
    obtain ⟨between, next, hfirst, hrest⟩ := foldlM_cons_eq_ok h
    obtain ⟨exploded, ⟨hvisits, hmoves⟩, hcount⟩ := applyModifier_plays hplay.live.nodup hfirst
    obtain ⟨block₁, hplay₁, hexploded⟩ := hmoves.inPlay hplay
    obtain ⟨hvisits', block', hplay', hcount'⟩ := ih hrest hplay₁
    refine ⟨hvisits'.trans hvisits, block', hplay', fun die => ?_⟩
    have honce := List.nodup_iff_count.mp hplay₁.live.nodup die
    have hfirst := hcount die
    have hothers := hcount' die
    rw [hexploded, List.count_append] at hothers
    rw [List.countP_cons]
    dsimp only at honce
    by_cases hexplodes : modifier.explodes = true
    · rw [if_pos hexplodes] at hfirst ⊢
      omega
    · rw [if_neg hexplodes] at hfirst ⊢
      omega

theorem inPlay_thrown (before : List Outcome) (node : Nat) {faces : List UInt32}
    (hfaces : faces.length = term.count.toNat) :
    Hand.InPlay before node term (faces.map fun face => .thrown node term.sides face .term)
      ⟨before ++ faces.map fun face => .thrown node term.sides face .term,
        List.range' before.length term.count.toNat⟩ := by
  have hthrown : ∀ {j outcome},
      (faces.map fun face => Outcome.thrown node term.sides face .term)[j]? = some outcome →
        j < term.count.toNat ∧ ∃ face, outcome = .thrown node term.sides face .term := by
    intro j outcome hj
    simp only [List.getElem?_map, Option.map_eq_some_iff] at hj
    obtain ⟨face, hface, rfl⟩ := hj
    have hlt : j < faces.length := (List.getElem?_eq_some_iff.mp hface).1
    exact ⟨hfaces ▸ hlt, face, rfl⟩
  have hrerolls : rerolls (faces.map fun face => .thrown node term.sides face .term) = [] := by
    simp [rerolls, Outcome.thrown]
  refine ⟨rfl, ⟨?_, ?_, ?_, ?_⟩, ⟨List.nodup_range', fun die => ?_⟩⟩
  · simp [hfaces]
  · intro j outcome hj
    obtain ⟨hlt, face, rfl⟩ := hthrown hj
    exact ⟨rfl, rfl, fun _ => ⟨rfl, rfl⟩, fun hlater => by omega⟩
  · intro j outcome _ hmem
    rw [hrerolls] at hmem
    cases hmem
  · rw [hrerolls]
    exact .nil
  · rw [List.mem_range'_1]
    constructor
    · rintro ⟨hle, hlt⟩
      have hj : die - before.length < faces.length := by omega
      refine ⟨die - before.length, .thrown node term.sides faces[die - before.length] .term,
        by omega, ?_, rfl⟩
      rw [List.getElem?_map, List.getElem?_eq_getElem hj, Option.map_some]
    · rintro ⟨j, outcome, rfl, hj, -⟩
      have hlt := (hthrown hj).1
      omega

theorem run_inPlay {modifiers : List Modifier}
    (h : (do
      throwDice limits node term.sides term.count.toNat
      modifiers.foldlM (applyModifier limits node term)
        (List.range' table.trail.size term.count.toNat) : Roller σ (List Nat)) table =
      .ok live after) :
    after.visits = table.visits ∧
      ∃ block, Hand.InPlay table.trail.toList node term block ⟨after.trail.toList, live⟩ ∧
        ∀ die, (explosions block).count die ≤ modifiers.countP Modifier.explodes := by
  obtain ⟨⟨⟩, thrown, hthrow, hmodifiers⟩ := bind_eq_ok.mp h
  obtain ⟨hvisits, faces, hlength, htrail⟩ := throwDice_eq_ok hthrow
  have hstart := inPlay_thrown table.trail.toList node hlength
  rw [← htrail, Array.length_toList] at hstart
  obtain ⟨hvisits', block, hplay, hcount⟩ := modifiers_inPlay hmodifiers hstart
  have hnone : explosions (faces.map fun face => .thrown node term.sides face .term) = [] := by
    simp [explosions, Outcome.thrown]
  exact ⟨hvisits'.trans hvisits, block, hplay, fun die => by simpa [hnone] using hcount die⟩

omit [FaceSource σ] in
/-- No sum of some of the faces is larger than that of all, so the loop fails only when that is out
of range. -/
theorem foldlM_addFace (hlive : ∀ die ∈ live, table.Shows die (table.faceAt die)) {start : Int64}
    (hstart : 0 ≤ start.toInt) :
    live.foldlM (addFace term) start table =
      match narrow? (start.toInt + totalOf (live.map table.faceAt)) with
      | some value => .ok value table
      | none => .error (.sumOverflow term) table := by
  induction live generalizing start with
  | nil =>
    have hvalue : narrow? (start.toInt + totalOf []) = some start :=
      narrow?_eq_some_iff.mpr (Int.add_zero _).symm
    rw [List.map_nil, hvalue]
    rfl
  | cons die rest ih =>
    obtain ⟨hdie, hrest⟩ := List.forall_mem_cons.mp hlive
    have hadd : addFace term start die table =
        match narrow? (start.toInt + (table.faceAt die).toNat) with
        | some value => .ok value table
        | none => .error (.sumOverflow term) table := by
      rw [addFace, bind_of_ok (faceOf_of_shows hdie)]
      cases narrow? (start.toInt + (table.faceAt die).toNat) <;> rfl
    have htotal : start.toInt + totalOf ((die :: rest).map table.faceAt) =
        start.toInt + (table.faceAt die).toNat + totalOf (rest.map table.faceAt) := by
      rw [List.map_cons, totalOf_cons, Int.natCast_add, Int.add_assoc]
    rw [List.foldlM_cons, htotal]
    cases hfirst : narrow? (start.toInt + (table.faceAt die).toNat) with
    | none =>
      rw [hfirst] at hadd
      have hlarge := narrow?_eq_none_iff.mp hfirst
      have hlow : Int64.minValue.toInt < 0 := by decide
      have hnone : narrow? (start.toInt + (table.faceAt die).toNat +
          totalOf (rest.map table.faceAt)) = none :=
        narrow?_eq_none_iff.mpr (.inr (by omega))
      rw [hnone]
      exact bind_eq_error.mpr (.inl hadd)
    | some value =>
      rw [hfirst] at hadd
      have hvalue := narrow?_eq_some_iff.mp hfirst
      rw [bind_of_ok hadd, ih hrest (by omega), hvalue]

omit [FaceSource σ] in
theorem sumOf_apply (hlive : ∀ die ∈ live, table.Shows die (table.faceAt die)) :
    sumOf term live table =
      match narrow? (totalOf (live.map table.faceAt)) with
      | some value => .ok value table
      | none => .error (.sumOverflow term) table := by
  have hstart : 0 ≤ (0 : Int64).toInt := Int.le_refl 0
  rw [sumOf, foldlM_addFace hlive hstart, Int64.toInt_zero, Int.zero_add]

/-- Rolls the dice of a term, and gives the faces that count in the end. -/
def rollFaces (limits : Limits) (node : Nat) (term : DiceTerm) : Roller σ (List UInt32) := do
  if term.count = 0 then
    throw (.noDice term)
  if limits.dice < term.count.toNat then
    throw (.termTooLarge term limits.dice)
  let start := (← get).trail.size
  throwDice limits node term.sides term.count.toNat
  let live ← term.modifiers.foldlM (applyModifier limits node term)
    (List.range' start term.count.toNat)
  live.mapM faceOf

omit [FaceSource σ] in
def addUp (node : Nat) (term : DiceTerm) (faces : List UInt32) : Roller σ Int64 :=
  match narrow? (totalOf faces) with
  | some value => do
    remark (.rolled node term value)
    return value
  | none => throw (.sumOverflow term)

omit [FaceSource σ] in
theorem addUp_eq_ok {faces : List UInt32} {value : Int64}
    (h : addUp node term faces table = .ok value after) :
    value.toInt = totalOf faces ∧ ∃ remarks, after = { table with remarks } := by
  unfold addUp at h
  cases hnarrow : narrow? (totalOf faces) with
  | none =>
    rw [hnarrow] at h
    cases h
  | some total =>
    rw [hnarrow] at h
    obtain ⟨⟨⟩, said, hsaid, h⟩ := bind_eq_ok.mp h
    obtain ⟨rfl, rfl⟩ := pure_eq_ok.mp h
    exact ⟨narrow?_eq_some_iff.mp hnarrow, _, remark_eq_ok hsaid⟩

omit [FaceSource σ] in
theorem sumOf_bind_eq (node : Nat) (hlive : ∀ die ∈ live, table.Shows die (table.faceAt die)) :
    (do
      let value ← sumOf term live
      remark (.rolled node term value)
      return value) table = (live.mapM faceOf >>= addUp node term) table := by
  have hfaces : live.mapM faceOf table = .ok (live.map table.faceAt) table :=
    mapM_of_reads fun die hdie => faceOf_of_shows (hlive die hdie)
  have hsum : sumOf term live table = _ := sumOf_apply hlive
  rw [bind_of_ok hfaces, addUp]
  cases hnarrow : narrow? (totalOf (live.map table.faceAt)) with
  | none =>
    rw [hnarrow] at hsum
    exact bind_eq_error.mpr (.inl hsum)
  | some value =>
    rw [hnarrow] at hsum
    exact bind_of_ok hsum

/-- No die of a term is missing when it comes to adding up, so the faces may as well be looked at
first. -/
theorem rollTerm_eq (limits : Limits) (node : Nat) (term : DiceTerm) :
    (rollTerm limits node term : Roller σ Int64) =
      rollFaces limits node term >>= addUp node term := by
  by_cases hcount : term.count = 0
  · simp only [rollTerm, rollFaces, hcount, if_true]
    rfl
  · by_cases hlarge : limits.dice < term.count.toNat
    · simp only [rollTerm, rollFaces, hcount, hlarge, if_false, if_true]
      rfl
    · simp only [rollTerm, rollFaces, hcount, hlarge, if_false, bind_assoc]
      funext table
      refine bind_congr_ok fun start between hget => ?_
      cases hget
      refine bind_congr_ok fun _ thrown hthrow => bind_congr_ok fun live rolled hmodifiers => ?_
      obtain ⟨-, block, hplay, -⟩ := run_inPlay (bind_eq_ok.mpr ⟨(), thrown, hthrow, hmodifiers⟩)
      exact sumOf_bind_eq node fun die => hplay.shows

theorem rollFaces_eq_ok {faces : List UInt32}
    (h : rollFaces limits node term table = .ok faces after) :
    ∃ live, (do
      throwDice limits node term.sides term.count.toNat
      term.modifiers.foldlM (applyModifier limits node term)
        (List.range' table.trail.size term.count.toNat) : Roller σ (List Nat)) table =
      .ok live after ∧ List.Forall₂ after.Shows live faces := by
  unfold rollFaces at h
  obtain ⟨-, h⟩ := guard_bind_eq_ok.mp h
  obtain ⟨-, h⟩ := guard_bind_eq_ok.mp h
  rw [get_bind_eq_ok] at h
  obtain ⟨⟨⟩, thrown, hthrow, h⟩ := bind_eq_ok.mp h
  obtain ⟨live, last, hmodifiers, h⟩ := bind_eq_ok.mp h
  obtain ⟨hshown, rfl⟩ := mapM_reads (fun _ _ _ => faceOf_eq_ok) h
  exact ⟨live, bind_eq_ok.mpr ⟨(), thrown, hthrow, hmodifiers⟩, hshown⟩

theorem rollFaces_block {faces : List UInt32}
    (h : rollFaces limits node term table = .ok faces after) :
    after.visits = table.visits ∧ ∃ block, after.trail.toList = table.trail.toList ++ block ∧
      Block node term table.trail.size block ∧ totalOf faces = keptTotal block := by
  obtain ⟨live, hrun, hshown⟩ := rollFaces_eq_ok h
  obtain ⟨hvisits, block, hplay, hcount⟩ := run_inPlay hrun
  refine ⟨hvisits, block, hplay.trail_eq, ⟨?_, hcount⟩, ?_⟩
  · rw [← Array.length_toList]
    exact hplay.chained
  · rw [keptTotal, totalOf_perm (perm_keptFaces hplay.trail_eq hplay.live hshown)]

/-- A term that is rolled leaves its block on the trail, and its value is what the block shows. -/
theorem rollTerm_eq_ok {value : Int64} (h : rollTerm limits node term table = .ok value after) :
    after.visits = table.visits ∧ ∃ block, after.trail.toList = table.trail.toList ++ block ∧
      Block node term table.trail.size block ∧ value.toInt = keptTotal block := by
  rw [rollTerm_eq] at h
  obtain ⟨faces, rolled, hfaces, h⟩ := bind_eq_ok.mp h
  obtain ⟨htotal, remarks, rfl⟩ := addUp_eq_ok h
  obtain ⟨hvisits, block, htrail, hblock, hkept⟩ := rollFaces_block hfaces
  exact ⟨hvisits, block, htrail, hblock, by rw [htotal, hkept]⟩

end Roller

end DiceNotation

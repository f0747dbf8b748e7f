import DiceNotation.Proofs.Moves

/-!
# The block of a dice term

The dice of a term lie on the trail one behind the other. Their links point backwards inside the
block, and the live dice are those that are kept, whatever moves are made.
-/
namespace DiceNotation

/-- The outcome has one link, to the given die. -/
def Outcome.LinksTo (outcome : Outcome) (die : Nat) : Prop :=
  (outcome.rerolledFrom = some die ∧ outcome.explodedFrom = none) ∨
    (outcome.rerolledFrom = none ∧ outcome.explodedFrom = some die)

/-- The dice that outcomes replace, in order. -/
def rerolls (outcomes : List Outcome) : List Nat := outcomes.filterMap Outcome.rerolledFrom

/-- The dice that outcomes are added by, in order. -/
def explosions (outcomes : List Outcome) : List Nat := outcomes.filterMap Outcome.explodedFrom

/-- An outcome at its place in the block of a term that starts at the given place. -/
structure Placed (node : Nat) (term : DiceTerm) (start die : Nat) (outcome : Outcome) : Prop where
  term_eq : outcome.term = node
  sides_eq : outcome.sides = term.sides
  first : die < start + term.count.toNat →
    outcome.rerolledFrom = none ∧ outcome.explodedFrom = none
  later : start + term.count.toNat ≤ die →
    ∃ earlier, start ≤ earlier ∧ earlier < die ∧ outcome.LinksTo earlier

/-- The outcomes of a term, which start at the given place of the trail. -/
structure Chained (node : Nat) (term : DiceTerm) (start : Nat) (block : List Outcome) : Prop where
  thrown : term.count.toNat ≤ block.length
  placed : ∀ j outcome, block[j]? = some outcome → Placed node term start (start + j) outcome
  replaced : ∀ j outcome, block[j]? = some outcome → start + j ∈ rerolls block →
    outcome.kept = false
  once : (rerolls block).Nodup

/-- The live dice of a block are those that are kept, each once. -/
structure Live (start : Nat) (block : List Outcome) (live : List Nat) : Prop where
  nodup : live.Nodup
  mem_iff : ∀ die, die ∈ live ↔
    ∃ j outcome, die = start + j ∧ block[j]? = some outcome ∧ outcome.kept = true

/-- The state of a term between two moves, on a trail that held other outcomes before. -/
structure Hand.InPlay (before : List Outcome) (node : Nat) (term : DiceTerm)
    (block : List Outcome) (hand : Hand) : Prop where
  trail_eq : hand.trail = before ++ block
  chained : Chained node term before.length block
  live : Live before.length block hand.live

variable {before block : List Outcome} {node start : Nat} {term : DiceTerm} {live left : List Nat}

theorem filterMap_modify_retired {α : Type} {f : Outcome → Option α}
    (hf : ∀ outcome, f outcome.retired = f outcome) (block : List Outcome) (j : Nat) :
    (block.modify j Outcome.retired).filterMap f = block.filterMap f := by
  induction block generalizing j with
  | nil => simp
  | cons first rest ih =>
    cases j with
    | zero => simp [List.filterMap_cons, hf]
    | succ j => simp [List.filterMap_cons, ih]

@[simp]
theorem rerolls_modify_retired (block : List Outcome) (j : Nat) :
    rerolls (block.modify j Outcome.retired) = rerolls block :=
  filterMap_modify_retired (fun _ => rfl) block j

@[simp]
theorem explosions_modify_retired (block : List Outcome) (j : Nat) :
    explosions (block.modify j Outcome.retired) = explosions block :=
  filterMap_modify_retired (fun _ => rfl) block j

theorem rerolls_append (block added : List Outcome) :
    rerolls (block ++ added) = rerolls block ++ rerolls added :=
  List.filterMap_append

theorem explosions_append (block added : List Outcome) :
    explosions (block ++ added) = explosions block ++ explosions added :=
  List.filterMap_append

theorem rerolls_singleton (outcome : Outcome) :
    rerolls [outcome] = outcome.rerolledFrom.toList := by
  cases h : outcome.rerolledFrom <;> simp [rerolls, h]

theorem getElem?_modify_retired {i j : Nat} {outcome : Outcome}
    (h : (block.modify j Outcome.retired)[i]? = some outcome) :
    ∃ former, block[i]? = some former ∧ outcome = if j = i then former.retired else former := by
  rw [List.getElem?_modify] at h
  cases hi : block[i]? with
  | none => simp [hi] at h
  | some former =>
    refine ⟨former, rfl, ?_⟩
    simpa [hi, eq_comm] using h

theorem getElem?_push {i : Nat} {outcome added : Outcome}
    (h : (block ++ [added])[i]? = some outcome) :
    block[i]? = some outcome ∨ (i = block.length ∧ outcome = added) := by
  rw [List.getElem?_append] at h
  split at h
  · exact .inl h
  · right
    rw [List.getElem?_singleton] at h
    split at h
    · cases h
      exact ⟨by omega, rfl⟩
    · cases h

theorem Placed.retired {die : Nat} {outcome : Outcome} (h : Placed node term start die outcome) :
    Placed node term start die outcome.retired :=
  ⟨h.term_eq, h.sides_eq, h.first, h.later⟩

theorem Chained.retire (h : Chained node term start block) (j : Nat) :
    Chained node term start (block.modify j Outcome.retired) where
  thrown := by simpa using h.thrown
  placed := by
    intro i outcome hi
    obtain ⟨former, hformer, rfl⟩ := getElem?_modify_retired hi
    split
    · exact (h.placed i former hformer).retired
    · exact h.placed i former hformer
  replaced := by
    intro i outcome hi hmem
    obtain ⟨former, hformer, rfl⟩ := getElem?_modify_retired hi
    simp only [rerolls_modify_retired] at hmem
    split
    · rfl
    · exact h.replaced i former hformer hmem
  once := by simpa using h.once

/-- Links stay inside the block. -/
theorem Chained.link_mem (h : Chained node term start block) {outcome : Outcome} {die : Nat}
    (houtcome : outcome ∈ block)
    (hlink : outcome.rerolledFrom = some die ∨ outcome.explodedFrom = some die) :
    start ≤ die ∧ die < start + block.length := by
  obtain ⟨j, hj⟩ := List.mem_iff_getElem?.mp houtcome
  have hplaced := h.placed j outcome hj
  have hlt : j < block.length := (List.getElem?_eq_some_iff.mp hj).1
  rcases Nat.lt_or_ge (start + j) (start + term.count.toNat) with hfirst | hlater
  · obtain ⟨hreroll, hexplosion⟩ := hplaced.first hfirst
    simp [hreroll, hexplosion] at hlink
  · obtain ⟨earlier, hle, hearlier, ⟨hreroll, hexplosion⟩ | ⟨hreroll, hexplosion⟩⟩ :=
      hplaced.later hlater
    all_goals
      simp only [hreroll, hexplosion, Option.some.injEq, reduceCtorEq, or_false, false_or] at hlink
      omega

theorem Chained.lt_of_mem_rerolls (h : Chained node term start block) {die : Nat}
    (hdie : die ∈ rerolls block) : die < start + block.length := by
  obtain ⟨outcome, houtcome, hlink⟩ := List.mem_filterMap.mp hdie
  exact (h.link_mem houtcome (.inl hlink)).2

/-- An outcome may follow a block when its link is in order, and the die that it replaces, if any,
is dropped and has not been replaced before. -/
theorem Chained.push {added : Outcome} (h : Chained node term start block)
    (hadded : Placed node term start (start + block.length) added)
    (hfresh : ∀ die, added.rerolledFrom = some die → die ∉ rerolls block)
    (hdropped : ∀ j outcome, block[j]? = some outcome → added.rerolledFrom = some (start + j) →
      outcome.kept = false)
    (hearlier : ∀ die, added.rerolledFrom = some die → die < start + block.length) :
    Chained node term start (block ++ [added]) := by
  have hrerolls : rerolls (block ++ [added]) = rerolls block ++ added.rerolledFrom.toList := by
    rw [rerolls_append, rerolls_singleton]
  refine ⟨?_, ?_, ?_, ?_⟩
  · have hthrown := h.thrown
    simp only [List.length_append, List.length_singleton]
    omega
  · intro i outcome hi
    rcases getElem?_push hi with hi | ⟨rfl, rfl⟩
    · exact h.placed i outcome hi
    · exact hadded
  · intro i outcome hi hmem
    rw [hrerolls, List.mem_append, Option.mem_toList] at hmem
    rcases getElem?_push hi with hi | ⟨rfl, rfl⟩
    · rcases hmem with hmem | hmem
      · exact h.replaced i outcome hi hmem
      · exact hdropped i outcome hi hmem
    · have hlt : start + block.length < start + block.length := by
        rcases hmem with hmem | hmem
        · exact h.lt_of_mem_rerolls hmem
        · exact hearlier _ hmem
      exact absurd hlt (Nat.lt_irrefl _)
  · rw [hrerolls]
    cases hfrom : added.rerolledFrom with
    | none => simpa using h.once
    | some die =>
      rw [Option.toList_some, List.nodup_append]
      refine ⟨h.once, List.pairwise_singleton _ die, fun other hother last hlast heq => ?_⟩
      rw [heq, List.mem_singleton.mp hlast] at hother
      exact hfresh die hfrom hother

theorem Chained.reroll (h : Chained node term start block) {j : Nat} {outcome : Outcome}
    (hj : block[j]? = some outcome) (hkept : outcome.kept = true) (face : UInt32) :
    Chained node term start
      (block.modify j Outcome.retired ++ [.thrown node term.sides face (.reroll (start + j))]) := by
  have hlt : j < block.length := (List.getElem?_eq_some_iff.mp hj).1
  have hthrown := h.thrown
  have hlength : (block.modify j Outcome.retired).length = block.length := List.length_modify ..
  refine (h.retire j).push ?_ ?_ ?_ ?_
  · rw [hlength]
    refine ⟨rfl, rfl, ?_, ?_⟩
    · intro hfirst
      omega
    · intro _
      exact ⟨start + j, by omega, by omega, .inl ⟨rfl, rfl⟩⟩
  · intro die hdie hmem
    cases hdie
    simp only [rerolls_modify_retired] at hmem
    have hdropped := h.replaced j outcome hj hmem
    simp [hdropped] at hkept
  · intro i other hi hdie
    obtain ⟨former, -, rfl⟩ := getElem?_modify_retired hi
    have hij : start + j = start + i := Option.some.inj hdie
    rw [if_pos (by omega)]
    rfl
  · intro die hdie
    cases hdie
    rw [hlength]
    omega

theorem Chained.explode (h : Chained node term start block) {j : Nat} (hj : j < block.length)
    (face : UInt32) :
    Chained node term start
      (block ++ [.thrown node term.sides face (.explosion (start + j))]) := by
  have hthrown := h.thrown
  refine h.push ⟨rfl, rfl, ?_, ?_⟩ ?_ ?_ ?_
  · intro hfirst
    omega
  · intro _
    exact ⟨start + j, by omega, by omega, .inr ⟨rfl, rfl⟩⟩
  · intro die hdie
    cases hdie
  · intro i other _ hdie
    cases hdie
  · intro die hdie
    cases hdie

theorem Live.exists_of_mem (h : Live start block live) {die : Nat} (hdie : die ∈ live) :
    ∃ j outcome, die = start + j ∧ block[j]? = some outcome ∧ outcome.kept = true :=
  (h.mem_iff die).mp hdie

theorem Live.retire (h : Live start block live) (j : Nat) :
    Live start (block.modify j Outcome.retired) (live.filter fun other => other ≠ start + j) where
  nodup := h.nodup.filter _
  mem_iff := by
    intro die
    rw [List.mem_filter, h.mem_iff, decide_eq_true_eq]
    constructor
    · rintro ⟨⟨i, outcome, rfl, hi, hkept⟩, hne⟩
      refine ⟨i, outcome, rfl, ?_, hkept⟩
      rwa [List.getElem?_modify_ne _ _ (by omega)]
    · rintro ⟨i, outcome, rfl, hi, hkept⟩
      obtain ⟨former, hformer, rfl⟩ := getElem?_modify_retired hi
      split at hkept
      · simp [Outcome.retired] at hkept
      · exact ⟨⟨i, former, rfl, hformer, hkept⟩, by omega⟩

theorem Live.push {added : Outcome} (h : Live start block live) (hadded : added.kept = true)
    (hperm : left.Perm ((start + block.length) :: live)) : Live start (block ++ [added]) left where
  nodup := by
    rw [hperm.nodup_iff, List.nodup_cons]
    refine ⟨fun hmem => ?_, h.nodup⟩
    obtain ⟨j, outcome, hdie, hj, -⟩ := h.exists_of_mem hmem
    have hlt : j < block.length := (List.getElem?_eq_some_iff.mp hj).1
    omega
  mem_iff := by
    intro die
    rw [hperm.mem_iff, List.mem_cons, h.mem_iff]
    constructor
    · rintro (rfl | ⟨j, outcome, rfl, hj, hkept⟩)
      · exact ⟨block.length, added, rfl, by simp, hadded⟩
      · have hlt : j < block.length := (List.getElem?_eq_some_iff.mp hj).1
        exact ⟨j, outcome, rfl, by simpa [List.getElem?_append_left hlt] using hj, hkept⟩
    · rintro ⟨j, outcome, rfl, hj, hkept⟩
      rcases getElem?_push hj with hj | ⟨rfl, -⟩
      · exact .inr ⟨j, outcome, rfl, hj, hkept⟩
      · exact .inl rfl

theorem modify_behind (before block : List Outcome) (j : Nat) (f : Outcome → Outcome) :
    (before ++ block).modify (before.length + j) f = before ++ block.modify j f :=
  List.modifyTailIdx_add (List.modifyHead f) j before block

theorem filter_ne_of_nodup {done rest : List Nat} {die : Nat} (h : (done ++ die :: rest).Nodup) :
    (done ++ die :: rest).filter (fun other => other ≠ die) = done ++ rest := by
  obtain ⟨-, hrest, hdone⟩ := List.nodup_append.mp h
  have hdie := (List.nodup_cons.mp hrest).1
  rw [List.filter_append, List.filter_cons_of_neg (by simp), List.filter_eq_self.mpr,
    List.filter_eq_self.mpr]
  · intro other hother
    exact decide_eq_true fun heq => hdie (heq ▸ hother)
  · intro other hother
    exact decide_eq_true (hdone other hother die (.head _))

/-- Each move keeps the block of a term in order, and adds to its explosions just the die that
explodes. -/
theorem Move.inPlay {hand after : Hand} {exploded : List Nat}
    (hmove : Move node term.sides hand exploded after) (h : hand.InPlay before node term block) :
    ∃ block', after.InPlay before node term block' ∧
      explosions block' = explosions block ++ exploded := by
  obtain ⟨trail, live⟩ := hand
  obtain ⟨htrail, hchained, hlive⟩ := h
  dsimp only at htrail hlive
  subst htrail
  cases hmove with
  | drop hmem =>
    obtain ⟨j, outcome, rfl, hj, hkept⟩ := hlive.exists_of_mem hmem
    refine ⟨_, ⟨modify_behind before block j _, hchained.retire j, hlive.retire j⟩, ?_⟩
    simp
  | @replace _ done die rest face =>
    obtain ⟨j, outcome, rfl, hj, hkept⟩ :=
      hlive.exists_of_mem (List.mem_append_right done (.head rest))
    have hleft := hlive.retire j
    rw [filter_ne_of_nodup hlive.nodup] at hleft
    refine ⟨_, ⟨?_, hchained.reroll hj hkept face, hleft.push rfl ?_⟩, ?_⟩
    · simp [modify_behind]
    · simp
    · rw [explosions_append, explosions_modify_retired]
      rfl
  | explode face hmem =>
    obtain ⟨j, outcome, rfl, hj, hkept⟩ := hlive.exists_of_mem hmem
    have hlt : j < block.length := (List.getElem?_eq_some_iff.mp hj).1
    refine ⟨_, ⟨?_, hchained.explode hlt face, hlive.push rfl ?_⟩, ?_⟩
    · simp
    · simp
    · rw [explosions_append]
      rfl

theorem Moves.inPlay {hand after : Hand} {exploded : List Nat}
    (hmoves : Moves node term.sides hand exploded after)
    (h : hand.InPlay before node term block) :
    ∃ block', after.InPlay before node term block' ∧
      explosions block' = explosions block ++ exploded := by
  induction hmoves generalizing block with
  | refl hand => exact ⟨block, h, (List.append_nil _).symm⟩
  | step first _ ih =>
    obtain ⟨between, hbetween, hfirst⟩ := first.inPlay h
    obtain ⟨block', hafter, hrest⟩ := ih hbetween
    exact ⟨block', hafter, by rw [hrest, hfirst, List.append_assoc]⟩

end DiceNotation

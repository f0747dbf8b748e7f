import Mathlib.Algebra.Order.BigOperators.Group.Finset
import Mathlib.Algebra.Order.Floor.Div
import Mathlib.Algebra.Order.Ring.Nat
import Mathlib.Data.FinEnum
import Mathlib.Data.Fin.Tuple.Basic
import Mathlib.Data.Fintype.BigOperators
import Mathlib.Order.Interval.Finset.Nat
import DiceNotation.Faces.Uniform

/-!
# Fair faces

A word is multiplied by the sides of the die. The lower half of the product is held against a zone,
and the upper half is the face. Every face is left with the same number of words, a power of two,
and no more than half of all words are lost; so all faces are equally likely on uniform words,
however many of them are thrown away before one is accepted.
-/
namespace DiceNotation

def WordSource.upcoming {ω : Type} [WordSource ω] : ℕ → ω → List UInt32
  | 0, _ => []
  | n + 1, words => (WordSource.word words).1 :: upcoming n (WordSource.word words).2

theorem WordSource.upcoming_prefix {ω : Type} [WordSource ω] {n m : ℕ} (h : n ≤ m) (words : ω) :
    upcoming n words <+: upcoming m words := by
  induction n generalizing m words with
  | zero => exact List.nil_prefix
  | succ n ih =>
    obtain ⟨m, rfl⟩ := Nat.exists_eq_add_of_lt h
    exact List.cons_prefix_cons.mpr ⟨rfl, ih (Nat.le_add_right n m) _⟩

namespace UniformFaces

/-! ### The zone method, in words -/

/-- How many bits of the word are zero above the highest that is not. -/
def leadingZeros (word : UInt32) : ℕ := word.toBitVec.clz.toNat

/-- The greatest lower half that is accepted: the sides, shifted up to the highest bit, less one. -/
def zone (sides : UInt32) : UInt32 := (sides <<< UInt32.ofNat (leadingZeros sides)) - 1

def product (sides word : UInt32) : UInt64 := word.toUInt64 * sides.toUInt64

def upperHalf (product : UInt64) : UInt32 := (product >>> (32 : UInt64)).toUInt32

/-- The face for a word, if the word is accepted. -/
def attempt (sides word : UInt32) : Option UInt32 :=
  if (product sides word).toUInt32 ≤ zone sides then some (1 + upperHalf (product sides word))
  else none

def firstFace (sides : UInt32) (words : List UInt32) : Option UInt32 :=
  words.findSome? (attempt sides)

def accepted (sides : UInt32) : Finset UInt32 :=
  Finset.univ.filter fun word => (attempt sides word).isSome

def acceptedAs (sides face : UInt32) : Finset UInt32 :=
  Finset.univ.filter fun word => attempt sides word = some face

def rejected (sides : UInt32) : Finset UInt32 :=
  Finset.univ.filter fun word => attempt sides word = none

/-- The sequences of so many words with which the face is drawn. -/
def drawnWith (sides face : UInt32) (n : ℕ) : Finset (Fin n → UInt32) :=
  Finset.univ.filter fun words => firstFace sides (List.ofFn words) = some face

/-! ### The method in natural numbers -/

section Words

variable {sides : UInt32}

theorem leadingZeros_bounds (hsides : 1 ≤ sides) :
    leadingZeros sides ≤ 31 ∧ 2 ^ 31 ≤ sides.toNat * 2 ^ leadingZeros sides ∧
      sides.toNat * 2 ^ leadingZeros sides < 2 ^ 32 := by
  have hpos : 1 ≤ sides.toNat := UInt32.le_iff_toNat_le.mp hsides
  have hne : sides.toBitVec ≠ 0#32 := by
    intro h
    have hzero : sides.toNat = 0 := congrArg BitVec.toNat h
    omega
  have hlow : 2 ^ (31 - leadingZeros sides) ≤ sides.toNat :=
    BitVec.two_pow_sub_clz_le_toNat_of_ne_zero (by decide) hne
  have hhigh : sides.toNat < 2 ^ (32 - leadingZeros sides) := BitVec.toNat_lt_two_pow_sub_clz
  have hle : leadingZeros sides ≤ 31 := by
    by_contra h
    rw [Nat.sub_eq_zero_of_le (by omega), pow_zero] at hhigh
    omega
  refine ⟨hle, ?_, ?_⟩
  · calc 2 ^ 31 = 2 ^ (31 - leadingZeros sides) * 2 ^ leadingZeros sides := by
          rw [← pow_add, Nat.sub_add_cancel hle]
      _ ≤ sides.toNat * 2 ^ leadingZeros sides := Nat.mul_le_mul_right _ hlow
  · calc sides.toNat * 2 ^ leadingZeros sides
        < 2 ^ (32 - leadingZeros sides) * 2 ^ leadingZeros sides :=
          Nat.mul_lt_mul_of_pos_right hhigh (Nat.two_pow_pos _)
      _ = 2 ^ 32 := by rw [← pow_add, Nat.sub_add_cancel (by omega)]

theorem spread_eq (hsides : 1 ≤ sides) : spread sides.toNat = 2 ^ leadingZeros sides := by
  have hpos : 1 ≤ sides.toNat := UInt32.le_iff_toNat_le.mp hsides
  obtain ⟨hle, hlow, hhigh⟩ := leadingZeros_bounds hsides
  have hlog : Nat.log2 sides.toNat = 31 - leadingZeros sides := by
    rw [Nat.log2_eq_iff (by omega)]
    constructor
    · apply Nat.le_of_mul_le_mul_right (c := 2 ^ leadingZeros sides) _ (Nat.two_pow_pos _)
      rwa [← pow_add, Nat.sub_add_cancel hle]
    · apply Nat.lt_of_mul_lt_mul_right (a := 2 ^ leadingZeros sides)
      rwa [← pow_add, show 31 - leadingZeros sides + 1 + leadingZeros sides = 32 by omega]
  rw [spread, hlog, Nat.shiftLeft_eq, Nat.one_mul]
  congr 1
  omega

theorem toNat_zone (hsides : 1 ≤ sides) :
    (zone sides).toNat = sides.toNat * 2 ^ leadingZeros sides - 1 := by
  obtain ⟨hle, hlow, hhigh⟩ := leadingZeros_bounds hsides
  have hamount : (UInt32.ofNat (leadingZeros sides)).toNat = leadingZeros sides :=
    UInt32.toNat_ofNat_of_lt (by simp only [UInt32.size]; omega)
  have hshift : (sides <<< UInt32.ofNat (leadingZeros sides)).toNat =
      sides.toNat * 2 ^ leadingZeros sides := by
    rw [UInt32.toNat_shiftLeft, hamount, Nat.mod_eq_of_lt (Nat.lt_succ_of_le hle),
      Nat.shiftLeft_eq, Nat.mod_eq_of_lt hhigh]
  have hone : (1 : UInt32) ≤ sides <<< UInt32.ofNat (leadingZeros sides) := by
    rw [UInt32.le_iff_toNat_le, hshift]
    change 1 ≤ _
    omega
  rw [zone, UInt32.toNat_sub_of_le _ _ hone, hshift]
  rfl

theorem toNat_product (sides word : UInt32) :
    (product sides word).toNat = word.toNat * sides.toNat := by
  have hlt : word.toNat * sides.toNat < 2 ^ 32 * 2 ^ 32 :=
    Nat.mul_lt_mul'' word.toNat_lt sides.toNat_lt
  rw [product, UInt64.toNat_mul, UInt32.toNat_toUInt64, UInt32.toNat_toUInt64]
  exact Nat.mod_eq_of_lt hlt

theorem toNat_upperHalf (product : UInt64) :
    (upperHalf product).toNat = product.toNat / UInt32.size := by
  have hlt : product.toNat / UInt32.size < 2 ^ 32 := Nat.div_lt_of_lt_mul product.toNat_lt
  have hshift : (product >>> (32 : UInt64)).toNat = product.toNat / UInt32.size := by
    rw [UInt64.toNat_shiftRight]
    exact Nat.shiftRight_eq_div_pow _ _
  rw [upperHalf, UInt64.toNat_toUInt32, hshift, Nat.mod_eq_of_lt hlt]

theorem toNat_ofNat_faceOf (hsides : 1 ≤ sides) (word : UInt32) :
    (UInt32.ofNat (faceOf sides.toNat word.toNat)).toNat = faceOf sides.toNat word.toNat ∧
      faceOf sides.toNat word.toNat ≤ sides.toNat := by
  have hle : faceOf sides.toNat word.toNat ≤ sides.toNat :=
    faceOf_le (UInt32.le_iff_toNat_le.mp hsides) word.toNat_lt
  rw [UInt32.toNat_ofNat', Nat.mod_eq_of_lt (Nat.lt_of_le_of_lt hle sides.toNat_lt)]
  exact ⟨rfl, hle⟩

/-- The zone method in words is the one in natural numbers. -/
theorem attempt_eq (hsides : 1 ≤ sides) (word : UInt32) :
    attempt sides word =
      if isAccepted sides.toNat word.toNat then
        some (UInt32.ofNat (faceOf sides.toNat word.toNat)) else none := by
  obtain ⟨-, hlow, -⟩ := leadingZeros_bounds hsides
  obtain ⟨hface, hle⟩ := toNat_ofNat_faceOf hsides word
  have haccepted : (product sides word).toUInt32 ≤ zone sides ↔
      isAccepted sides.toNat word.toNat = true := by
    rw [UInt32.le_iff_toNat_le, toNat_zone hsides, UInt64.toNat_toUInt32, toNat_product,
      isAccepted, spread_eq hsides, decide_eq_true_eq]
    simp only [UInt32.size]
    omega
  have hupper : 1 + upperHalf (product sides word) =
      UInt32.ofNat (faceOf sides.toNat word.toNat) := by
    apply UInt32.toNat_inj.mp
    rw [hface, UInt32.toNat_add, toNat_upperHalf, toNat_product, UInt32.toNat_one,
      Nat.add_comm, ← faceOf, Nat.mod_eq_of_lt (Nat.lt_of_le_of_lt hle sides.toNat_lt)]
  simp only [attempt, haccepted, hupper]

theorem attempt_eq_some_iff (hsides : 1 ≤ sides) {word face : UInt32} (hface : 1 ≤ face) :
    attempt sides word = some face ↔
      (face.toNat - 1) * UInt32.size ≤ word.toNat * sides.toNat ∧
        word.toNat * sides.toNat <
          (face.toNat - 1) * UInt32.size + sides.toNat * 2 ^ leadingZeros sides := by
  obtain ⟨-, -, hhigh⟩ := leadingZeros_bounds hsides
  have hone : 1 ≤ face.toNat := UInt32.le_iff_toNat_le.mp hface
  rw [attempt_eq hsides, Option.ite_none_right_eq_some, Option.some.injEq, ← UInt32.toNat_inj,
    (toNat_ofNat_faceOf hsides word).1, isAccepted, spread_eq hsides, decide_eq_true_eq, faceOf]
  simp only [UInt32.size]
  omega

theorem attempt_bounds (hsides : 1 ≤ sides) {word face : UInt32}
    (h : attempt sides word = some face) : 1 ≤ face ∧ face ≤ sides := by
  obtain ⟨hface, hle⟩ := toNat_ofNat_faceOf hsides word
  rw [attempt_eq hsides, Option.ite_none_right_eq_some, Option.some.injEq] at h
  obtain ⟨-, rfl⟩ := h
  rw [UInt32.le_iff_toNat_le, UInt32.le_iff_toNat_le, hface]
  exact ⟨Nat.succ_pos _, hle⟩

/-! ### Counting words -/

/-- As many multiples lie in a stretch as it is times the number long, wherever it begins. -/
theorem mem_Ico_ceilDiv_iff {n : ℕ} (hn : 0 < n) (start m k : ℕ) :
    k ∈ Finset.Ico (start ⌈/⌉ n) (start ⌈/⌉ n + m) ↔ start ≤ k * n ∧ k * n < start + n * m := by
  have hend : start ⌈/⌉ n + m = (start + n * m) ⌈/⌉ n := by
    rw [Nat.ceilDiv_eq_add_pred_div, Nat.ceilDiv_eq_add_pred_div,
      show start + n * m + n - 1 = start + n - 1 + n * m by omega, Nat.add_mul_div_left _ _ hn]
  rw [hend, Finset.mem_Ico, ← not_le, ceilDiv_le_iff_le_mul hn, ceilDiv_le_iff_le_mul hn,
    Nat.mul_comm n k, not_le]

theorem exists_toNat_eq {number : ℕ} (h : number < UInt32.size) :
    ∃ word : UInt32, word.toNat = number :=
  ⟨UInt32.ofNat number, by rw [UInt32.toNat_ofNat', Nat.mod_eq_of_lt h]⟩

theorem card_acceptedAs (hsides : 1 ≤ sides) {face : UInt32} (hone : 1 ≤ face)
    (hle : face ≤ sides) : (acceptedAs sides face).card = 2 ^ leadingZeros sides := by
  obtain ⟨-, -, hhigh⟩ := leadingZeros_bounds hsides
  have hpos : 0 < sides.toNat := UInt32.le_iff_toNat_le.mp hsides
  have hface : 1 ≤ face.toNat := UInt32.le_iff_toNat_le.mp hone
  rw [UInt32.le_iff_toNat_le] at hle
  let start := (face.toNat - 1) * UInt32.size
  have himage : (acceptedAs sides face).image UInt32.toNat =
      Finset.Ico (start ⌈/⌉ sides.toNat) (start ⌈/⌉ sides.toNat + 2 ^ leadingZeros sides) := by
    ext number
    rw [mem_Ico_ceilDiv_iff hpos]
    simp only [acceptedAs, Finset.mem_image, Finset.mem_filter, Finset.mem_univ, true_and,
      attempt_eq_some_iff hsides hone]
    constructor
    · rintro ⟨word, hword, rfl⟩
      exact hword
    · intro hnumber
      have hlt : number < UInt32.size := by
        have hend : start + UInt32.size ≤ sides.toNat * UInt32.size := by
          rw [← Nat.succ_mul]
          exact Nat.mul_le_mul_right _ (by omega)
        refine Nat.lt_of_mul_lt_mul_right (a := sides.toNat) ?_
        rw [Nat.mul_comm UInt32.size]
        simp only [UInt32.size] at hend ⊢
        omega
      obtain ⟨word, rfl⟩ := exists_toNat_eq hlt
      exact ⟨word, hnumber, rfl⟩
  rw [← Finset.card_image_of_injective _ fun _ _ => UInt32.toNat_inj.mp, himage, Nat.card_Ico,
    Nat.add_sub_cancel_left]

theorem card_accepted (hsides : 1 ≤ sides) :
    (accepted sides).card = sides.toNat * 2 ^ leadingZeros sides := by
  have hmaps : Set.MapsTo (fun word => ((attempt sides word).getD 0).toNat) (accepted sides)
      (Finset.Icc 1 sides.toNat) := by
    intro word hword
    obtain ⟨face, hface⟩ := Option.isSome_iff_exists.mp (Finset.mem_filter.mp hword).2
    obtain ⟨hone, hle⟩ := attempt_bounds hsides hface
    simpa [hface] using
      And.intro (UInt32.le_iff_toNat_le.mp hone) (UInt32.le_iff_toNat_le.mp hle)
  have hfiber : ∀ number ∈ Finset.Icc 1 sides.toNat,
      {word ∈ accepted sides | ((attempt sides word).getD 0).toNat = number}.card =
        2 ^ leadingZeros sides := by
    intro number hnumber
    obtain ⟨hone, hle⟩ := Finset.mem_Icc.mp hnumber
    obtain ⟨face, rfl⟩ := exists_toNat_eq (Nat.lt_of_le_of_lt hle sides.toNat_lt)
    have hfaces : {word ∈ accepted sides | ((attempt sides word).getD 0).toNat = face.toNat} =
        acceptedAs sides face := by
      ext word
      simp only [accepted, acceptedAs, Finset.mem_filter, Finset.mem_univ, true_and,
        UInt32.toNat_inj]
      cases attempt sides word <;> simp
    rw [hfaces, card_acceptedAs hsides (UInt32.le_iff_toNat_le.mpr hone)
      (UInt32.le_iff_toNat_le.mpr hle)]
  rw [Finset.card_eq_sum_card_fiberwise hmaps, Finset.sum_congr rfl hfiber, Finset.sum_const,
    Nat.card_Icc, smul_eq_mul, Nat.add_sub_cancel]

/-! ### Sequences of words -/

theorem firstFace_cons_eq_some_iff {word face : UInt32} {words : List UInt32} :
    firstFace sides (word :: words) = some face ↔
      attempt sides word = some face ∨
        attempt sides word = none ∧ firstFace sides words = some face := by
  rw [firstFace, List.findSome?_cons]
  cases attempt sides word <;> simp [firstFace]

theorem card_drawnWith_succ (sides face : UInt32) (n : ℕ) :
    (drawnWith sides face (n + 1)).card =
      (acceptedAs sides face).card * Fintype.card (Fin n → UInt32) +
        (rejected sides).card * (drawnWith sides face n).card := by
  have hdisjoint : Disjoint (acceptedAs sides face ×ˢ (Finset.univ : Finset (Fin n → UInt32)))
      (rejected sides ×ˢ drawnWith sides face n) :=
    Finset.disjoint_product.mpr <| .inl <| Finset.disjoint_filter.mpr fun word _ haccepted => by
      simp [haccepted]
  rw [← Finset.card_univ, ← Finset.card_product, ← Finset.card_product,
    ← Finset.card_disjUnion _ _ hdisjoint]
  refine (Finset.card_equiv (Fin.consEquiv fun _ => UInt32) ?_).symm
  rintro ⟨word, later⟩
  have hcons : List.ofFn (Fin.consEquiv (fun _ => UInt32) (word, later)) =
      word :: List.ofFn later := List.ofFn_cons word later
  simp only [drawnWith, acceptedAs, rejected, Finset.mem_disjUnion, Finset.mem_product,
    Finset.mem_filter, Finset.mem_univ, true_and, and_true, hcons, firstFace_cons_eq_some_iff]

theorem card_drawnWith_eq {face other : UInt32}
    (h : (acceptedAs sides face).card = (acceptedAs sides other).card) (n : ℕ) :
    (drawnWith sides face n).card = (drawnWith sides other n).card := by
  induction n with
  | zero => simp [drawnWith, firstFace]
  | succ n ih => rw [card_drawnWith_succ, card_drawnWith_succ, h, ih]

theorem firstFace_bounds (hsides : 1 ≤ sides) {words : List UInt32} {face : UInt32}
    (h : firstFace sides words = some face) : 1 ≤ face ∧ face ≤ sides := by
  obtain ⟨word, -, hword⟩ := List.exists_of_findSome?_eq_some h
  exact attempt_bounds hsides hword

end Words

/-- No face of the die is favoured. -/
structure IsFair (sides : UInt32) : Prop where
  card_acceptedAs : ∀ face, 1 ≤ face → face ≤ sides →
    (acceptedAs sides face).card = 2 ^ leadingZeros sides
  card_accepted : (accepted sides).card = sides.toNat * 2 ^ leadingZeros sides
  /-- At least half of all words are accepted. -/
  size_le : UInt32.size ≤ 2 * (accepted sides).card
  /-- However many words there are to draw from, as many sequences draw one face as another. -/
  card_drawnWith : ∀ face other, 1 ≤ face → face ≤ sides → 1 ≤ other → other ≤ sides →
    ∀ n, (drawnWith sides face n).card = (drawnWith sides other n).card

theorem isFair {sides : UInt32} (hsides : 1 ≤ sides) : IsFair sides where
  card_acceptedAs _ := card_acceptedAs hsides
  card_accepted := card_accepted hsides
  size_le := by
    obtain ⟨-, hlow, -⟩ := leadingZeros_bounds hsides
    rw [card_accepted hsides]
    simp only [UInt32.size]
    omega
  card_drawnWith face other hface hfaces hother hothers := card_drawnWith_eq <| by
    rw [card_acceptedAs hsides hface hfaces, card_acceptedAs hsides hother hothers]

section Drawing

variable {ω : Type} [WordSource ω] {sides : UInt32}

theorem drawWithin_eq (hsides : 1 ≤ sides) (attempts : ℕ) (words : ω) :
    (drawWithin sides.toNat attempts words).1 =
      firstFace sides (WordSource.upcoming attempts words) := by
  induction attempts generalizing words with
  | zero => rfl
  | succ attempts ih =>
    rw [drawWithin, WordSource.upcoming, firstFace, List.findSome?_cons, attempt_eq hsides]
    dsimp only
    split
    · rfl
    · exact ih _

theorem draw_eq (hsides : 1 ≤ sides) (source : UniformFaces ω) :
    (draw sides source).1 =
      (firstFace sides (WordSource.upcoming UInt32.size source.words)).getD 1 := by
  have hmax : max sides 1 = sides := by
    rw [← UInt32.toNat_inj, toNat_max]
    exact Nat.max_eq_left (UInt32.le_iff_toNat_le.mp hsides)
  rw [← drawWithin_eq hsides, draw, hmax]

/-- A die with sides shows the face of the first word that is accepted, which is one of its sides
and may as well be any other; a die without sides is thrown like one with a single side. -/
theorem draw_fair (hsides : 1 ≤ sides) :
    IsFair sides ∧ ∀ source : UniformFaces ω,
      (drawWithin sides.toNat UInt32.size source.words).1 =
          firstFace sides (WordSource.upcoming UInt32.size source.words) ∧
        (∀ n face, n ≤ UInt32.size →
          firstFace sides (WordSource.upcoming n source.words) = some face →
            (draw sides source).1 = face) ∧
        1 ≤ (draw sides source).1 ∧ (draw sides source).1 ≤ sides ∧
        draw 0 source = draw 1 source := by
  refine ⟨isFair hsides, fun source => ?_⟩
  have hdraw := draw_eq hsides source
  refine ⟨drawWithin_eq hsides _ _, fun n face hn hface => ?_, ?_⟩
  · have hprefix := WordSource.upcoming_prefix hn source.words
    rw [hdraw, firstFace, hprefix.findSome?_eq_some hface]
    rfl
  · rw [hdraw]
    cases hface : firstFace sides (WordSource.upcoming UInt32.size source.words) with
    | none => exact ⟨UInt32.le_refl 1, hsides, rfl⟩
    | some face =>
      obtain ⟨hone, hle⟩ := firstFace_bounds hsides hface
      exact ⟨hone, hle, rfl⟩

/-- A word that the zone of a d6 leaves out is thrown away. -/
theorem draw_fair_of_rejected :
    (1 : UInt32) ≤ 6 ∧ IsFair 6 ∧
      (draw 6 (⟨⟨#[0xffffffff, 0x80000000], 0⟩⟩ : UniformFaces RecordedWords)).1 = 4 ∧
      1 ≤ (draw 6 (⟨⟨#[0xffffffff, 0x80000000], 0⟩⟩ : UniformFaces RecordedWords)).1 ∧
      (draw 6 (⟨⟨#[0xffffffff, 0x80000000], 0⟩⟩ : UniformFaces RecordedWords)).1 ≤ 6 := by
  have hsides : (1 : UInt32) ≤ 6 := by decide
  obtain ⟨hfair, hdraw⟩ := draw_fair (ω := RecordedWords) hsides
  obtain ⟨-, hshown, hone, hle, -⟩ := hdraw ⟨⟨#[0xffffffff, 0x80000000], 0⟩⟩
  exact ⟨hsides, hfair, hshown 2 4 (by decide) (by decide +kernel), hone, hle⟩

end Drawing

end UniformFaces

end DiceNotation

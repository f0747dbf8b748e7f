import DiceNotation.Proofs.Chains
import DiceNotation.Proofs.PassingFaces

/-!
# Throwing dice after live ones

Rerolling and exploding run the same loop after each live die in turn. What that comes to is told
by the faces that the source hands out: either every chain ends, or one of them gets stuck.
-/
namespace DiceNotation

/-- How many more dice the budget has room for. -/
def Table.room {σ : Type} (limits : Limits) (table : Table σ) : Nat :=
  limits.dice - table.trail.size

namespace Succession

variable {σ : Type} (s : Succession)

/-- The table when dice are thrown one by one, each after another, and what is left of the
source. -/
def throwOn (table : Table σ) (thrown : List (Nat × UInt32)) (source : σ) : Table σ :=
  { table with source := source, trail := s.throwAll table.trail thrown }

theorem throwOn_append (table : Table σ) (thrown more : List (Nat × UInt32)) (between after : σ) :
    s.throwOn table (thrown ++ more) after =
      s.throwOn (s.throwOn table thrown between) more after := by
  rw [throwOn, throwAll_append]
  rfl

theorem thrownFor_singleton_cons (place die : Nat) (face : UInt32) (faces : List UInt32) :
    thrownFor place [die] [face :: faces] =
      (die, face) :: thrownFor (place + 1) [place] [faces] := by
  simp [thrownFor, chainsFrom, succeeded, List.range'_succ]

theorem thrownFor_cons (place die : Nat) (live : List Nat) (faces : List UInt32)
    (drawn : List (List UInt32)) :
    thrownFor place (die :: live) (faces :: drawn) =
      thrownFor place [die] [faces] ++ thrownFor (place + faces.length) live drawn := by
  have hlength : (die :: List.range' place faces.length).dropLast.length = faces.length := by simp
  rw [thrownFor, chainsFrom, succeeded_cons, List.flatten_cons, List.zip_append hlength]
  simp [thrownFor, chainsFrom, succeeded]

theorem room_throwOn (limits : Limits) (table : Table σ) (thrown : List (Nat × UInt32))
    (source : σ) :
    (s.throwOn table thrown source).room limits = table.room limits - thrown.length := by
  rw [Table.room, throwOn, size_throwAll, Table.room]
  omega

theorem face?_throwAll_of_some {trail : Trail} {die : Nat} {face : UInt32}
    (h : Trail.face? trail die = some face) (thrown : List (Nat × UInt32)) :
    Trail.face? (s.throwAll trail thrown) die = some face := by
  obtain ⟨outcome, hdie, rfl⟩ := Option.map_eq_some_iff.mp h
  rw [Trail.face?, s.getElem?_throwAll_of_some hdie, Option.map_some, value_marked]

end Succession

section Outcomes

variable {σ : Type} [FaceSource σ] {Fits : UInt32 → List UInt32 → Prop}
  {Stuck : Nat → UInt32 → List UInt32 → RollError.Kind → Prop} {sides : UInt32} {room : Nat}
  {source after : σ} {first : UInt32} {faces firsts : List UInt32} {drawn : List (List UInt32)}
  {kind : RollError.Kind}

/-- The live dice get chains of faces that fit, from what the source hands out and within the room
for more dice. -/
structure ChainsDrawn (Fits : UInt32 → List UInt32 → Prop) (sides : UInt32) (room : Nat)
    (source : σ) (firsts : List UInt32) (drawn : List (List UInt32)) (after : σ) : Prop where
  fits : List.Forall₂ Fits firsts drawn
  draws : Draws sides source drawn.flatten after
  room : drawn.flatten.length ≤ room

/-- After chains that fit for the live dice before it, a live die gets stuck. -/
def GetsStuck (Fits : UInt32 → List UInt32 → Prop)
    (Stuck : Nat → UInt32 → List UInt32 → RollError.Kind → Prop) (sides : UInt32) (room : Nat)
    (source : σ) (firsts : List UInt32) (kind : RollError.Kind) : Prop :=
  ∃ former first later drawn between faces after, firsts = former ++ first :: later ∧
    ChainsDrawn Fits sides room source former drawn between ∧
    Draws sides between faces after ∧ Stuck (room - drawn.flatten.length) first faces kind

theorem chainsDrawn_cons_iff :
    ChainsDrawn Fits sides room source (first :: firsts) (faces :: drawn) after ↔
      Fits first faces ∧ faces.length ≤ room ∧ ∃ between, Draws sides source faces between ∧
        ChainsDrawn Fits sides (room - faces.length) between firsts drawn after := by
  constructor
  · rintro ⟨hfits, hdraws, hroom⟩
    obtain ⟨hfirst, hfits⟩ := List.forall₂_cons.mp hfits
    obtain ⟨between, hfaces, hdrawn⟩ := draws_append_iff.mp hdraws
    rw [List.flatten_cons, List.length_append] at hroom
    exact ⟨hfirst, by omega, between, hfaces, hfits, hdrawn, by omega⟩
  · rintro ⟨hfirst, hfaces, between, hdraws, hfits, hdrawn, hroom⟩
    refine ⟨.cons hfirst hfits, draws_append_iff.mpr ⟨between, hdraws, hdrawn⟩, ?_⟩
    rw [List.flatten_cons, List.length_append]
    omega

theorem getsStuck_cons (hfits : Fits first faces) (hroom : faces.length ≤ room)
    (hdraws : Draws sides source faces after)
    (h : GetsStuck Fits Stuck sides (room - faces.length) after firsts kind) :
    GetsStuck Fits Stuck sides room source (first :: firsts) kind := by
  obtain ⟨former, other, later, drawn, between, rest, last, rfl, hdrawn, hrest, hstuck⟩ := h
  refine ⟨first :: former, other, later, faces :: drawn, between, rest, last, rfl, ?_, hrest, ?_⟩
  · exact chainsDrawn_cons_iff.mpr ⟨hfits, hroom, after, hdraws, hdrawn⟩
  · rwa [List.flatten_cons, List.length_append, ← Nat.sub_sub]

/-- If each live die either gets a chain or gets stuck, then all of them get chains or one of them
gets stuck. -/
theorem drawn_or_getsStuck (h : AlwaysAnswers source)
    (hone : ∀ source : σ, AlwaysAnswers source → ∀ first room, ∃ faces after,
      Draws sides source faces after ∧
        ((Fits first faces ∧ faces.length ≤ room) ∨ ∃ kind, Stuck room first faces kind))
    (firsts : List UInt32) (room : Nat) :
    (∃ drawn after, ChainsDrawn Fits sides room source firsts drawn after) ∨
      ∃ kind, GetsStuck Fits Stuck sides room source firsts kind := by
  induction firsts generalizing source room with
  | nil => exact .inl ⟨[], source, .nil, .nil source, Nat.zero_le _⟩
  | cons first firsts ih =>
    obtain ⟨faces, between, hdraws, ⟨hfits, hroom⟩ | ⟨kind, hstuck⟩⟩ := hone source h first room
    · refine (ih (h.draws hdraws) (room - faces.length)).imp ?_ ?_
      · rintro ⟨drawn, after, hdrawn⟩
        exact ⟨faces :: drawn, after,
          chainsDrawn_cons_iff.mpr ⟨hfits, hroom, between, hdraws, hdrawn⟩⟩
      · rintro ⟨kind, hstuck⟩
        exact ⟨kind, getsStuck_cons hfits hroom hdraws hstuck⟩
    · exact .inr ⟨kind, [], first, firsts, [], source, faces, between, rfl,
        ⟨.nil, .nil source, Nat.zero_le _⟩, hdraws, hstuck⟩

theorem length_flatten_le {depth : Nat}
    (hlength : ∀ first faces, Fits first faces → faces.length ≤ depth)
    (h : List.Forall₂ Fits firsts drawn) : drawn.flatten.length ≤ firsts.length * depth := by
  induction h with
  | nil => exact Nat.zero_le _
  | cons hfirst _ ih =>
    have := hlength _ _ hfirst
    rw [List.flatten_cons, List.length_append, List.length_cons, Nat.succ_mul]
    omega

theorem GetsStuck.exists_stuck {depth : Nat}
    (hlength : ∀ first faces, Fits first faces → faces.length ≤ depth)
    (hroom : firsts.length * depth ≤ room)
    (h : GetsStuck Fits Stuck sides room source firsts kind) :
    ∃ more first faces, depth ≤ more ∧ Stuck more first faces kind := by
  obtain ⟨former, first, later, drawn, between, faces, after, rfl, hdrawn, -, hstuck⟩ := h
  have hformer := length_flatten_le hlength hdrawn.fits
  rw [List.length_append, List.length_cons, Nat.add_mul, Nat.succ_mul] at hroom
  exact ⟨_, first, faces, by omega, hstuck⟩

/-- When there is room for all dice that may be thrown, only an endless chain gets stuck. -/
theorem GetsStuck.eq_infiniteReroll {condition : Condition} {depth : Nat}
    (h : GetsStuck (condition.Ends depth) (condition.Stuck depth) sides room source firsts kind)
    (hroom : firsts.length * depth ≤ room) : kind = .infiniteReroll := by
  obtain ⟨more, first, faces, hmore, hstuck⟩ :=
    h.exists_stuck (fun _ _ hends => hends.length_le) hroom
  cases hstuck with
  | endless => rfl
  | short _ length less => omega

theorem AlwaysAnswers.ends_or_stuck (h : AlwaysAnswers source) (hsides : sides ≠ 0)
    (condition : Condition) (depth : Nat) (first : UInt32) (room : Nat) :
    ∃ faces after, Draws sides source faces after ∧
      ((condition.Ends depth first faces ∧ faces.length ≤ room) ∨
        ∃ kind, condition.Stuck depth room first faces kind) := by
  induction depth generalizing source first room with
  | zero =>
    refine ⟨[], source, .nil source, ?_⟩
    cases hfirst : condition.accepts first with
    | false => exact .inl ⟨Condition.ends_nil_iff.mpr hfirst, Nat.zero_le room⟩
    | true => exact .inr ⟨_, Condition.stuck_zero_iff.mpr ⟨rfl, rfl, hfirst⟩⟩
  | succ depth ih =>
    cases hfirst : condition.accepts first with
    | false =>
      exact ⟨[], source, .nil source, .inl ⟨Condition.ends_nil_iff.mpr hfirst, Nat.zero_le room⟩⟩
    | true =>
      cases room with
      | zero =>
        exact ⟨[], source, .nil source, .inr ⟨_, Condition.stuck_nil_iff.mpr ⟨rfl, rfl, hfirst⟩⟩⟩
      | succ room =>
        obtain ⟨⟨face, between⟩, hnext⟩ := h source .start sides hsides
        obtain ⟨faces, after, hdraws, hchain⟩ := ih (h.next hnext) face room
        refine ⟨face :: faces, after, .cons hnext hdraws, hchain.imp ?_ ?_⟩
        · rintro ⟨hends, hroom⟩
          exact ⟨Condition.ends_cons_iff.mpr ⟨hfirst, hends⟩, Nat.succ_le_succ hroom⟩
        · rintro ⟨kind, hstuck⟩
          exact ⟨kind, Condition.stuck_cons_iff.mpr ⟨hfirst, hstuck⟩⟩

end Outcomes

namespace Roller

variable {σ α β : Type}

/-- The loop of both: it throws dice one after the other for as long as the last one passes the
condition, at most so often, and gives those that are thrown. At the end of its depth it stops with
a step of its own. -/
def chase (throwNext : Nat → Roller σ Nat) (condition : Condition) (stop : Roller σ (List Nat)) :
    Nat → Nat → Roller σ (List Nat)
  | depth, die => do
    if condition.accepts (← faceOf die) then
      match depth with
      | 0 => stop
      | depth + 1 =>
        let added ← throwNext die
        return added :: (← chase throwNext condition stop depth added)
    else
      return []

section Chase

variable {throwNext : Nat → Roller σ Nat} {condition : Condition} {stop : Roller σ (List Nat)}
  {table : Table σ} {die : Nat} {first : UInt32}

theorem chase_of_fails (hshows : table.Shows die first) (hfails : condition.accepts first = false)
    (depth : Nat) : chase throwNext condition stop depth die table = .ok [] table := by
  unfold chase
  refine bind_eq_ok.mpr ⟨first, table, faceOf_of_shows hshows, ?_⟩
  rw [hfails]
  rfl

theorem chase_zero (hshows : table.Shows die first) (haccepts : condition.accepts first = true) :
    chase throwNext condition stop 0 die table = stop table := by
  rw [chase]
  simp only [bind, EStateM.bind, faceOf_of_shows hshows, haccepts, if_true]

theorem chase_succ (hshows : table.Shows die first) (haccepts : condition.accepts first = true)
    (depth : Nat) :
    chase throwNext condition stop (depth + 1) die table =
      (do
        let added ← throwNext die
        return added :: (← chase throwNext condition stop depth added)) table := by
  rw [chase]
  simp only [bind, EStateM.bind, faceOf_of_shows hshows, haccepts, if_true]

end Chase

theorem lt_size_of_shows {table : Table σ} {die : Nat} {face : UInt32}
    (h : table.Shows die face) : die < table.trail.size := by
  obtain ⟨outcome, hdie, -⟩ := h
  exact (Array.getElem?_eq_some_iff.mp hdie).1

theorem shows_throwOn (s : Succession) (table : Table σ) (die : Nat) (face : UInt32) (source : σ) :
    (s.throwOn table [(die, face)] source).Shows table.trail.size face :=
  ⟨_, s.getElem?_throwAfter_size table.trail die face, Outcome.value_thrown ..⟩

variable [FaceSource σ] {limits : Limits} {s : Succession}

/-- The step throws one die after another, as the succession says, if there is room for it. -/
structure Throws (limits : Limits) (s : Succession) (throwNext : Nat → Roller σ Nat) : Prop where
  thrown : ∀ {table : Table σ} {die : Nat} {face : UInt32} {source : σ}, die < table.trail.size →
    0 < table.room limits → FaceSource.next s.sides table.source = .ok (face, source) →
      throwNext die table = .ok table.trail.size (s.throwOn table [(die, face)] source)
  full : ∀ {table : Table σ} {die : Nat}, die < table.trail.size → table.room limits = 0 →
    ∃ after, throwNext die table = .error (.tooManyDice limits.dice) after

theorem throwDie_of_room (htime : limits.time = none) (table : Table σ) {sides face : UInt32}
    {source : σ} (hroom : 0 < table.room limits)
    (hnext : FaceSource.next sides table.source = .ok (face, source)) (node : Nat) (cause : Cause) :
    throwDie limits node sides cause table =
      .ok table.trail.size { table with
        source := source, trail := table.trail.push (.thrown node sides face cause) } := by
  rw [Table.room] at hroom
  rw [throwDie_of_none htime, if_neg (by omega), layDie_of_next hnext]

theorem throwDie_of_full (htime : limits.time = none) (table : Table σ)
    (hroom : table.room limits = 0) (node : Nat) (sides : UInt32) (cause : Cause) :
    throwDie limits node sides cause table = .error (.tooManyDice limits.dice) table := by
  rw [Table.room] at hroom
  rw [throwDie_of_none htime, if_pos (by omega)]

/-- What the step for a live die comes to: a chain that fits, of which it gives what is asked for,
or it gets stuck. -/
structure Chases (limits : Limits) (s : Succession) (Fits : UInt32 → List UInt32 → Prop)
    (Stuck : Nat → UInt32 → List UInt32 → RollError.Kind → Prop) (f : Nat → Roller σ α)
    (given : List Nat → α) : Prop where
  fits : ∀ {table : Table σ} {die : Nat} {first : UInt32} {faces : List UInt32} {after : σ},
    table.Shows die first → Fits first faces → Draws s.sides table.source faces after →
      faces.length ≤ table.room limits →
        f die table =
          .ok (given (die :: List.range' table.trail.size faces.length))
            (s.throwOn table (Succession.thrownFor table.trail.size [die] [faces]) after)
  stuck : ∀ {table : Table σ} {die : Nat} {first : UInt32} {faces : List UInt32} {after : σ}
    {kind : RollError.Kind},
    table.Shows die first → Stuck (table.room limits) first faces kind →
      Draws s.sides table.source faces after →
        ∃ error last, f die table = .error error last ∧ error.kind = kind

theorem chases_chase {throwNext : Nat → Roller σ Nat} (hthrows : Throws limits s throwNext)
    (condition : Condition) {error : RollError} (herror : error.kind = .infiniteReroll)
    (depth : Nat) :
    Chases limits s (condition.Ends depth) (condition.Stuck depth)
      (chase throwNext condition (throw error) depth) List.tail where
  fits := by
    intro table die first faces after hshows hends hdraws hroom
    induction faces generalizing depth table die first with
    | nil =>
      obtain rfl := draws_nil_iff.mp hdraws
      exact chase_of_fails hshows (Condition.ends_nil_iff.mp hends) depth
    | cons face faces ih =>
      obtain ⟨between, hnext, hrest⟩ := draws_cons_iff.mp hdraws
      cases depth with
      | zero => cases hends.length_le
      | succ depth =>
        obtain ⟨hfirst, hends⟩ := Condition.ends_cons_iff.mp hends
        rw [List.length_cons] at hroom
        have hthrown := hthrows.thrown (lt_size_of_shows hshows) (by omega) hnext
        have hroom' : faces.length ≤ (s.throwOn table [(die, face)] between).room limits := by
          rw [s.room_throwOn, List.length_singleton]
          omega
        have hchase := ih depth (shows_throwOn s table die face between) hends hrest hroom'
        have hsize : (s.throwOn table [(die, face)] between).trail.size = table.trail.size + 1 :=
          s.size_throwAll table.trail _
        rw [hsize] at hchase
        rw [chase_succ hshows hfirst]
        refine bind_eq_ok.mpr ⟨table.trail.size, _, hthrown, bind_eq_ok.mpr ⟨_, _, hchase, ?_⟩⟩
        rw [List.length_cons, List.range'_succ, Succession.thrownFor_singleton_cons]
        rfl
  stuck := by
    intro table die first faces after kind hshows hstuck hdraws
    have hdie := lt_size_of_shows hshows
    have hfirst := hstuck.accepts_first
    induction depth generalizing faces table die first with
    | zero =>
      obtain ⟨rfl, -, -⟩ := Condition.stuck_zero_iff.mp hstuck
      exact ⟨error, table, (chase_zero hshows hfirst).trans rfl, herror⟩
    | succ depth ih =>
      rw [chase_succ hshows hfirst]
      cases faces with
      | nil =>
        obtain ⟨rfl, hfull, -⟩ := Condition.stuck_nil_iff.mp hstuck
        obtain ⟨last, hthrown⟩ := hthrows.full hdie hfull
        exact ⟨_, last, bind_eq_error.mpr (.inl hthrown), rfl⟩
      | cons face faces =>
        obtain ⟨between, hnext, hrest⟩ := draws_cons_iff.mp hdraws
        have hthrown := hthrows.thrown hdie hstuck.room_pos hnext
        obtain ⟨room, hroom⟩ := Nat.exists_eq_succ_of_ne_zero (Nat.ne_of_gt hstuck.room_pos)
        have hroom' : (s.throwOn table [(die, face)] between).room limits = room := by
          rw [s.room_throwOn, hroom]
          rfl
        rw [hroom] at hstuck
        obtain ⟨-, hstuck⟩ := Condition.stuck_cons_iff.mp hstuck
        have hshows' := shows_throwOn s table die face between
        obtain ⟨other, last, hchase, hkind⟩ := ih hshows' (hroom' ▸ hstuck) hrest
          (lt_size_of_shows hshows') hstuck.accepts_first
        exact ⟨other, last, bind_eq_error.mpr (.inr ⟨_, _, hthrown,
          bind_eq_error.mpr (.inl hchase)⟩), hkind⟩

section Lists

variable {Fits : UInt32 → List UInt32 → Prop}
  {Stuck : Nat → UInt32 → List UInt32 → RollError.Kind → Prop} {f : Nat → Roller σ α}
  {given : List Nat → α} {live : List Nat} {firsts : List UInt32}

theorem Chases.of_fits_nil (h : Chases limits s Fits Stuck f given) {table : Table σ} {die : Nat}
    {first : UInt32} (hshows : table.Shows die first) (hfits : Fits first []) :
    f die table = .ok (given [die]) table :=
  h.fits hshows hfits (.nil table.source) (Nat.zero_le _)

theorem Chases.map (h : Chases limits s Fits Stuck f given) {g : Nat → α → β}
    {given' : List Nat → β}
    (hgiven : ∀ die added, given' (die :: added) = g die (given (die :: added))) :
    Chases limits s Fits Stuck (fun die => g die <$> f die) given' where
  fits hshows hfits hdraws hroom := by
    rw [hgiven, map_eq_pure_bind]
    exact bind_eq_ok.mpr ⟨_, _, h.fits hshows hfits hdraws hroom, rfl⟩
  stuck hshows hstuck hdraws := by
    obtain ⟨error, last, herror, hkind⟩ := h.stuck hshows hstuck hdraws
    refine ⟨error, last, ?_, hkind⟩
    rw [map_eq_pure_bind]
    exact bind_eq_error.mpr (.inl herror)

theorem Chases.mapM_of_drawn (h : Chases limits s Fits Stuck f given) (table : Table σ)
    (hlive : live.map (Trail.face? table.trail) = firsts.map some) {drawn : List (List UInt32)}
    {after : σ}
    (hdrawn : ChainsDrawn Fits s.sides (table.room limits) table.source firsts drawn after) :
    live.mapM f table =
      .ok ((chainsFrom table.trail.size live drawn).map given)
        (s.throwOn table (Succession.thrownFor table.trail.size live drawn) after) := by
  induction live generalizing table firsts drawn with
  | nil =>
    obtain rfl := List.map_eq_nil_iff.mp hlive.symm
    cases hdrawn.fits
    obtain rfl := draws_nil_iff.mp hdrawn.draws
    rfl
  | cons die live ih =>
    cases firsts with
    | nil => cases hlive
    | cons first firsts =>
      obtain ⟨hdie, hlive⟩ := List.cons.inj hlive
      cases drawn with
      | nil => cases hdrawn.fits
      | cons faces drawn =>
        obtain ⟨hfits, hroom, between, hdraws, hdrawn⟩ := chainsDrawn_cons_iff.mp hdrawn
        have hfirst := h.fits (Table.shows_iff.mpr hdie) hfits hdraws hroom
        have hthrown : (Succession.thrownFor table.trail.size [die] [faces]).length =
            faces.length := by
          rw [Succession.length_thrownFor _ rfl, List.flatten_singleton]
        have hsize : (s.throwOn table (Succession.thrownFor table.trail.size [die] [faces])
            between).trail.size = table.trail.size + faces.length := by
          rw [← hthrown]
          exact s.size_throwAll _ _
        have hlive' : live.map (Trail.face? (s.throwOn table
            (Succession.thrownFor table.trail.size [die] [faces]) between).trail) =
            firsts.map some := by
          rw [← hlive]
          refine List.map_congr_left fun other hother => ?_
          obtain ⟨face, -, hface⟩ := List.mem_map.mp (hlive ▸ List.mem_map_of_mem hother)
          rw [← hface]
          exact s.face?_throwAll_of_some hface.symm _
        rw [← hthrown, ← s.room_throwOn limits table _ between] at hdrawn
        have hrest := ih _ hlive' hdrawn
        rw [hsize] at hrest
        rw [List.mapM_cons]
        refine bind_eq_ok.mpr ⟨_, _, hfirst, bind_eq_ok.mpr ⟨_, _, hrest, pure_eq_ok.mpr ⟨?_, ?_⟩⟩⟩
        · rw [chainsFrom, List.map_cons]
        · rw [Succession.thrownFor_cons _ die live faces drawn]
          exact (s.throwOn_append table _ _ between after).symm

theorem Chases.mapM_of_getsStuck (h : Chases limits s Fits Stuck f given) (table : Table σ)
    (hlive : live.map (Trail.face? table.trail) = firsts.map some) {kind : RollError.Kind}
    (hstuck : GetsStuck Fits Stuck s.sides (table.room limits) table.source firsts kind) :
    ∃ error last, live.mapM f table = .error error last ∧ error.kind = kind := by
  obtain ⟨former, first, later, drawn, between, faces, after, rfl, hdrawn, hdraws, hstuck⟩ := hstuck
  rw [List.map_append, List.map_cons] at hlive
  obtain ⟨done, rest, rfl, hdone, hrest⟩ := List.map_eq_append_iff.mp hlive
  obtain ⟨die, rest, rfl, hdie, -⟩ := List.map_eq_cons_iff.mp hrest
  have hbefore := h.mapM_of_drawn table hdone hdrawn
  have hlength : done.length = drawn.length := by
    rw [← hdrawn.fits.length_eq, ← List.length_map (f := Trail.face? table.trail), hdone,
      List.length_map]
  rw [← Succession.length_thrownFor _ hlength, ← s.room_throwOn limits table _ between] at hstuck
  have hshows : (s.throwOn table (Succession.thrownFor table.trail.size done drawn) between).Shows
      die first := Table.shows_iff.mpr (s.face?_throwAll_of_some hdie _)
  obtain ⟨error, last, herror, hkind⟩ := h.stuck hshows hstuck hdraws
  refine ⟨error, last, ?_, hkind⟩
  rw [List.mapM_append]
  refine bind_eq_error.mpr (.inr ⟨_, _, hbefore, bind_eq_error.mpr (.inl ?_)⟩)
  rw [List.mapM_cons]
  exact bind_eq_error.mpr (.inl herror)

end Lists

end Roller

/-- What a modifier comes to that throws dice after the live ones. -/
structure Succession.Extends {σ : Type} [FaceSource σ] (s : Succession)
    (Fits : UInt32 → List UInt32 → Prop)
    (Stuck : Nat → UInt32 → List UInt32 → RollError.Kind → Prop)
    (Left : List (List Nat) → List Nat → Prop) (limits : Limits) (table : Table σ)
    (live : List Nat) (result : EStateM.Result RollError (Table σ) (List Nat)) : Prop where
  /-- It goes through just if all live dice get chains. -/
  succeeds : (∃ left after, result = .ok left after) ↔
    ∃ drawn after, ChainsDrawn Fits s.sides (table.room limits) table.source
      (live.map table.faceAt) drawn after
  /-- It fails just if one of them gets stuck. -/
  fails : ∀ kind, (∃ error after, result = .error error after ∧ error.kind = kind) ↔
    GetsStuck Fits Stuck s.sides (table.room limits) table.source (live.map table.faceAt) kind
  /-- What it leaves when it goes through: the faces of the new dice are the ones that the source
  hands out. -/
  leaves : ∀ left after, result = .ok left after → ∃ chains,
    s.Chains Fits table.trail after.trail live chains ∧ Left chains left ∧
    Draws s.sides table.source ((Trail.faces after.trail).drop table.trail.size) after.source ∧
    after.visits = table.visits

section Extends

variable {σ : Type} [FaceSource σ] {s : Succession} {Fits : UInt32 → List UInt32 → Prop}
  {Stuck : Nat → UInt32 → List UInt32 → RollError.Kind → Prop}
  {Left : List (List Nat) → List Nat → Prop} {limits : Limits} {table : Table σ} {live : List Nat}
  {result : EStateM.Result RollError (Table σ) (List Nat)}

omit [FaceSource σ] in
theorem map_face?_of_shows (h : ∀ die ∈ live, table.Shows die (table.faceAt die)) :
    live.map (Trail.face? table.trail) = (live.map table.faceAt).map some := by
  rw [List.map_map]
  exact List.map_congr_left fun die hdie => Table.shows_iff.mp (h die hdie)

/-- Since the dice either get chains or get stuck, it is enough to know what either comes to. -/
theorem extends_of (hshows : ∀ die ∈ live, table.Shows die (table.faceAt die))
    (hone : live ≠ [] → ∀ source : σ, AlwaysAnswers source → ∀ first room, ∃ faces after,
      Draws s.sides source faces after ∧
        ((Fits first faces ∧ faces.length ≤ room) ∨ ∃ kind, Stuck room first faces kind))
    (hsource : AlwaysAnswers table.source)
    (hdrawn : ∀ drawn after, ChainsDrawn Fits s.sides (table.room limits) table.source
      (live.map table.faceAt) drawn after → ∃ left remarks,
        Left (chainsFrom table.trail.size live drawn) left ∧
          result = .ok left { s.throwOn table (Succession.thrownFor table.trail.size live drawn)
            after with remarks := remarks })
    (hstuck : ∀ kind, GetsStuck Fits Stuck s.sides (table.room limits) table.source
      (live.map table.faceAt) kind → ∃ error after, result = .error error after ∧
        error.kind = kind) :
    s.Extends Fits Stuck Left limits table live result := by
  have hboth : (∃ drawn after, ChainsDrawn Fits s.sides (table.room limits) table.source
      (live.map table.faceAt) drawn after) ∨ ∃ kind, GetsStuck Fits Stuck s.sides
        (table.room limits) table.source (live.map table.faceAt) kind := by
    cases live with
    | nil => exact .inl ⟨[], table.source, .nil, .nil _, Nat.zero_le _⟩
    | cons die live => exact drawn_or_getsStuck hsource (hone (List.cons_ne_nil _ _)) _ _
  refine ⟨⟨?_, ?_⟩, fun kind => ⟨?_, hstuck kind⟩, ?_⟩
  · rintro ⟨left, last, rfl⟩
    refine hboth.resolve_right ?_
    rintro ⟨kind, hgets⟩
    obtain ⟨error, after, herror, -⟩ := hstuck kind hgets
    cases herror
  · rintro ⟨drawn, after, hchains⟩
    obtain ⟨left, remarks, -, hresult⟩ := hdrawn drawn after hchains
    exact ⟨left, _, hresult⟩
  · rintro ⟨error, last, rfl, rfl⟩
    rcases hboth with ⟨drawn, after, hchains⟩ | ⟨kind, hgets⟩
    · obtain ⟨left, remarks, -, hresult⟩ := hdrawn drawn after hchains
      cases hresult
    · obtain ⟨other, after, herror, rfl⟩ := hstuck kind hgets
      cases herror
      exact hgets
  · rintro left last rfl
    rcases hboth with ⟨drawn, after, hchains⟩ | ⟨kind, hgets⟩
    · obtain ⟨_, remarks, hleft, hresult⟩ := hdrawn drawn after hchains
      cases hresult
      have hlength : live.length = drawn.length := by
        rw [← hchains.fits.length_eq, List.length_map]
      refine ⟨_, s.chains_throwAll (map_face?_of_shows hshows) hchains.fits, hleft, ?_, rfl⟩
      have hfaces := s.faces_throwAll table.trail
        (Succession.thrownFor table.trail.size live drawn)
      rw [Succession.map_snd_thrownFor _ hlength] at hfaces
      change Draws s.sides table.source ((Trail.faces (s.throwAll _ _)).drop _) after
      rw [hfaces, List.drop_left' (Trail.length_faces table.trail)]
      exact hchains.draws
    · obtain ⟨error, after, herror, -⟩ := hstuck kind hgets
      cases herror

end Extends

section Skipped

variable {σ : Type} {table : Table σ} {live : List Nat} {condition : Condition} {sides : UInt32}

/-- Looking at whether a face can pass changes nothing but the remarks, as no live die does if none
can. -/
theorem Roller.orSkip_apply (said : Remark) {step : Roller σ (List Nat)}
    (hskip : condition.satisfiable sides = false → ∀ remarks,
      step { table with remarks := remarks } = .ok live { table with remarks := remarks }) :
    ∃ remarks, (if condition.satisfiable sides then step else do Roller.remark said; return live)
      table = step { table with remarks := remarks } := by
  cases hsatisfiable : condition.satisfiable sides with
  | true => exact ⟨table.remarks, rfl⟩
  | false =>
    refine ⟨table.remarks.push said, ?_⟩
    rw [hskip hsatisfiable]
    rfl

theorem Underway.fails_of_unsatisfiable [FaceSource σ] {limits : Limits} {node : Nat}
    {term : DiceTerm} {start : Table σ} (h : Underway limits node term start table live)
    (hstart : Sided start.source start.trail) (hskip : condition.satisfiable term.sides = false)
    {die : Nat} (hdie : die ∈ live) : condition.accepts (table.faceAt die) = false := by
  obtain ⟨hone, hle⟩ := h.bounds hstart hdie
  rw [← Bool.not_eq_true] at hskip ⊢
  exact fun haccepts => hskip (Condition.satisfiable_of_accepts hone hle haccepts)

end Skipped

end DiceNotation

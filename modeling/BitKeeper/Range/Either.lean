import BitKeeper.Range.Collect

/-!
The walk with `WR_EITHER`: every delta that has one colour is returned and
keeps it.  The colours that stay above the walk are never read again.
-/

namespace BitKeeper.Range

open Color Dag

def Mode.eitherSide : Mode := ⟨true,false,false,false⟩

def Sided (g : Graph) (red blue : Nat → Prop) (x : Nat) : Prop :=
  x ≠ 0 ∧ g.tag x = false ∧ ¬ (red x ↔ blue x)

structure Shows (red blue : Nat → Prop) (x : Nat) (c : Color) : Prop where
  red : c.red = true ↔ red x
  blue : c.blue = true ↔ blue x
  green : c.green = false

variable {g : Graph} {red blue : List Nat}

theorem chosen_sided {x : Nat} :
    Chosen g blue (some red) Mode.eitherSide x ↔ Sided g (Closure g red) (Closure g blue) x := by
  unfold Chosen Sided
  rw [and_assoc]
  exact and_congr_right fun _ => and_congr_right fun _ => xor_iff_not_iff _ _

private theorem shade_shows {x : Nat} :
    Shows (Closure g red) (Closure g blue) x (shade (aim g blue (some red)) x) :=
  ⟨on_shade _ .red x,on_shade _ .blue x,eq_false_of_ne_true fun on => (on_shade _ .green x).mp on⟩

variable {d : Nat} {w : Walk}

theorem Settled.flags_above {e : Nat} {after : Walk} (settled : Settled d w after) (above : d < e) :
    after.s.flags e = w.s.flags e := by
  have color := settled.above e above
  have set := settled.kept.set e
  have gone := settled.kept.gone e
  revert color set gone
  generalize after.s.flags e = f
  generalize w.s.flags e = f'
  cases f
  cases f'
  rintro rfl rfl rfl
  rfl

def sideMarked (s : Sccs) (d : Nat) (c : Color) : Sccs :=
  let s := s.orColor d c
  { s with rstop := if s.rstop = 0 then d else s.rstop, rstart := d }

private theorem rangeLoop_side {fuel : Nat} (found : (walkrevs g w).2 ≠ 0)
    (flags : (walkrevs g w).1.wr.flags = Mode.eitherSide) :
    rangeLoop g none (fuel + 1) w =
      rangeLoop g none fuel ⟨(walkrevs g w).1.wr,
        sideMarked (walkrevs g w).1.s (walkrevs g w).2 (walkrevs g w).1.wr.color⟩ := by
  conv_lhs => unfold rangeLoop
  dsimp only
  rw [if_neg found,flags]
  rfl

variable {s : Sccs}

theorem sideMarked_own (c : Color) (bare : (s.flags d).color = clear) :
    ((sideMarked s d c).flags d).color = c := by
  change ((s.orColor d c).flags d).color = _
  rw [orColor_color,if_pos rfl,bare]
  cases c
  simp [clear,Color.or]

theorem sideMarked_other {c : Color} {e : Nat} (other : e ≠ d) :
    (sideMarked s d c).flags e = s.flags e := by
  change (s.orColor d c).flags e = _
  unfold Sccs.orColor
  rw [update_flags,if_neg other]

/-- With `WR_EITHER` and no callback the deltas of one side show their side, the others up to `top`
nothing. -/
structure SidesShown (g : Graph) (red blue : Nat → Prop) (top : Nat) (s after : Sccs) : Prop where
  above : ∀ e, top < e → after.flags e = s.flags e
  color : ∀ x, x ≤ top → Sided g red blue x → Shows red blue x (after.flags x).color
  bare : ∀ x, x ≤ top → ¬ Sided g red blue x → (after.flags x).color = clear
  first : ∀ x, x ≤ top → Sided g red blue x → Sided g red blue after.rstart ∧ after.rstart ≤ x

theorem rangeLoop_either (fuel : Nat)
    (ready : Ready g (aim g blue (some red)) Mode.eitherSide.plainer d w) (enough : d < fuel) :
    ∃ after, rangeLoop g none fuel w = (after, 0) ∧
      after.wr.marked = (if after.wr.all then 1 else 0) ∧
      SidesShown g (Closure g red) (Closure g blue) d w.s (walkrevs_done after) ∧
      ((∀ x, x ≤ d → ¬ Sided g (Closure g red) (Closure g blue) x) →
      (walkrevs_done after).rstart = w.s.rstart) := by
  induction fuel generalizing d w with
  | zero => omega
  | succ fuel ih =>
    have hits : ∀ {x}, Hits g w.wr (aim g blue (some red)) x ↔
      Sided g (Closure g red) (Closure g blue) x := ready.hits.trans chosen_sided
    obtain ⟨settled,outcome⟩ := ready.call
    rcases outcome with ⟨zero,k,stopped⟩ | found
    · have none : ∀ x, x ≤ d → ¬ Sided g (Closure g red) (Closure g blue) x := fun x below sided =>
        stopped.none x below (hits.mpr sided)
      have done : Kept (walkrevs g w).1.s (walkrevs_done (walkrevs g w).1) := doneFrom_kept _ _ _ _
      refine ⟨(walkrevs g w).1,?_,stopped.marked,
        ⟨fun e high => ?_, fun x below sided => absurd sided (none x below),
        fun x below _ => stopped.cleared ready.place below,
        fun x below sided => absurd sided (none x below)⟩,
        fun _ => done.rstart.trans settled.kept.rstart⟩
      · exact if_pos zero
      · refine (doneFrom_above ?_).trans (settled.flags_above high)
        rw [stopped.place,ready.place]
        omega
    have next := ready.next rfl settled found
    have nonzero := found.hits.nonzero
    have lower := found.below
    have sided := hits.mp found.hits
    rw [rangeLoop_side nonzero next.flags_eq]
    generalize (walkrevs g w).2 = x at *
    generalize (walkrevs g w).1 = mid at *
    have own := sideMarked_own mid.wr.color (found.bare x (Nat.le_refl x) lower)
    obtain ⟨after,ran,marked,shown,still⟩ := ih (w := ⟨mid.wr,sideMarked mid.s x mid.wr.color⟩)
      ⟨next.flags_eq,next.mask,next.want,next.place,
        next.painting.recolor fun e low =>
          congrArg Flags.color (sideMarked_other (by omega))⟩ (by omega)
    have above : ∀ e, x < e → (walkrevs_done after).flags e = mid.s.flags e := fun e high =>
      (shown.above e (by omega)).trans (sideMarked_other (by omega))
    have top : ((walkrevs_done after).flags x).color = shade (aim g blue (some red)) x := by
      rw [shown.above x (by omega),own,found.color]
    have newest : ∀ y, y ≤ d → Sided g (Closure g red) (Closure g blue) y → y ≤ x - 1 ∨ y = x := by
      intro y below inside
      by_contra neither
      exact found.newest y (by omega) below (hits.mpr inside)
    refine ⟨after,ran,marked,⟨fun e high => ?_, fun y below inside => ?_, fun y below even => ?_,
      fun y below inside => ?_⟩,fun nothing => absurd sided (nothing x lower)⟩
    · rw [above e (by omega)]
      exact settled.flags_above high
    · rcases newest y below inside with old | rfl
      · exact shown.color y old inside
      · rw [top]
        exact shade_shows
    · by_cases old : y ≤ x - 1
      · exact shown.bare y old even
      · have apart : y ≠ x := fun same => even (same ▸ sided)
        rw [above y (by omega)]
        exact found.bare y (by omega) below
    · by_cases more : ∃ z, z ≤ x - 1 ∧ Sided g (Closure g red) (Closure g blue) z
      · obtain ⟨z,low,insideZ⟩ := more
        have start := shown.first z low insideZ
        rcases newest y below inside with old | same
        · exact shown.first y old inside
        · exact ⟨start.1,by omega⟩
      · have start : (walkrevs_done after).rstart = x := still fun z low insideZ =>
          more ⟨z,low,insideZ⟩
        rw [start]
        refine ⟨sided,?_⟩
        rcases newest y below inside with old | same
        · exact absurd ⟨y,old,inside⟩ more
        · omega

theorem range_walkrevs_either {top : Nat} (clean : ∀ e, e ≤ top → (s.flags e).color = clear)
    (realRed : RealList g red) (realBlue : RealList g blue) (redTop : ∀ e ∈ red, e ≤ top)
    (blueTop : ∀ e ∈ blue, e ≤ top) :
    ∃ after, range_walkrevs g s blue (some red) Mode.eitherSide none = some (after, 0) ∧
      SidesShown g (Closure g red) (Closure g blue) top s after := by
  have reds : ∀ list, some red = some list → RealList g list :=
    fun list same => Option.some.inj same ▸ realRed
  have order : startAt g blue (some red) ≤ top := topOf_le (topOf_le (Nat.zero_le _) redTop) blueTop
  have low := startAt_le realBlue reds
  obtain ⟨after,ran,marked,shown,_still⟩ := rangeLoop_either (g.table + 2)
    (setup_ready realBlue reds Mode.eitherSide fun e below => clean e (by omega)) (by omega)
  have sidedLow : ∀ x, Sided g (Closure g red) (Closure g blue) x → x ≤ startAt g blue (some red) :=
      fun x sided =>
    le_startAt (combine_or (chosen_sided.mpr sided).2)
  have above : ∀ e, startAt g blue (some red) < e → (walkrevs_done after).flags e = s.flags e :=
      fun e high =>
    (shown.above e high).trans (setup_above high)
  refine ⟨walkrevs_done after,?_,fun e high => above e (by omega),
    fun x _ sided => shown.color x (sidedLow x sided) sided,fun x below even => ?_,
    fun x _ sided => shown.first x (sidedLow x sided) sided⟩
  · unfold range_walkrevs
    rw [ran]
    rw [if_pos (Or.inr marked)]
  · by_cases old : x ≤ startAt g blue (some red)
    · exact shown.bare x old even
    · rw [above x (by omega)]
      exact clean x below

end BitKeeper.Range

import BitKeeper.Range.Algebra

/-!
`range_unrange`: one walk over all deltas carries three colours. Red is on everything, green below
the tips of the region and blue below the tips of the left side; a delta with all three is passed
over.
-/

namespace BitKeeper.Range

open List Color Dag

inductive Serial where
  | ser (d : Nat)
  | invalid
deriving DecidableEq

def Serial.next (tip : Serial) (d : Nat) : Serial := if tip = .ser 0 then .ser d else .invalid

structure Unrange where
  w : Walk
  left : Serial
  right : Serial

def takeRight (g : Graph) (u : Unrange) (d : Nat) : Unrange :=
  let w : Walk := ⟨u.w.wr,u.w.s.update d fun f => { f with set := false, color := f.color.or D_RED }⟩
  if u.w.wr.color.green then { u with w := w }
  else { u with right := u.right.next d, w := markParents g w d D_GREEN }

def takeLeft (g : Graph) (all : Bool) (u : Unrange) (d : Nat) : Unrange :=
  let w : Walk := if u.w.wr.color.green then u.w else ⟨u.w.wr,u.w.s.orColor d D_BLUE⟩
  if u.w.wr.color.green = true ∨ (all = true ∧ u.w.wr.color = D_RED) then
    { u with left := u.left.next d, w := markParents g w d D_BLUE }
  else { u with w := w }

def boundRegion (all : Bool) (u : Unrange) (d : Nat) : Unrange :=
  let f := (u.w.s.flags d).color
  if f.red = true ∨ (all = true ∧ f.blue = true) then
    { u with
      w := ⟨u.w.wr,{ u.w.s with rstop := if u.w.s.rstop = 0 then d else u.w.s.rstop, rstart := d }⟩ }
  else u

def unrangeAt (g : Graph) (all : Bool) (u : Unrange) (d : Nat) : Unrange :=
  boundRegion all (if (u.w.s.flags d).set then takeRight g u d else takeLeft g all u d) d

/-- A call that returns moves the walk down, so the table bounds the calls. -/
def unrangeLoop (g : Graph) (all : Bool) : Nat → Unrange → Unrange
  | 0, u => u
  | fuel + 1, u =>
    let turn := walkrevs g u.w
    if turn.2 = 0 then { u with w := turn.1 }
    else unrangeLoop g all fuel (unrangeAt g all { u with w := turn.1 } turn.2)

def range_unrange (g : Graph) (s : Sccs) (all : Bool) : Sccs × Serial × Serial :=
  let w := walkrevs_setup g { s with rstart := 0, rstop := 0 } [] none ⟨true,true,false,false⟩
  let u := unrangeLoop g all (g.table + 2) ⟨w,.ser 0,.ser 0⟩
  (walkrevs_done u.w, u.left, u.right)

def RealDelta (g : Graph) (x : Nat) : Prop := x ≠ 0 ∧ x ≤ g.table ∧ g.tag x = false

def Between (g : Graph) (A B : List Nat) (x : Nat) : Prop := Closure g A x ∧ ¬ Closure g B x

def Under (g : Graph) (member : Nat → Prop) (x : Nat) : Prop :=
  ∃ y, member y ∧ y ≠ x ∧ Reach (eachParent g) y x

def Outside (g : Graph) (region : Nat → Prop) (x : Nat) : Prop := RealDelta g x ∧ ¬ region x

def LeftSide (g : Graph) (region : Nat → Prop) (all : Bool) (x : Nat) : Prop :=
  Outside g region x ∧ (all = false → Under g region x)

def History (g : Graph) (tip x : Nat) : Prop := tip ≠ 0 ∧ Reach (eachParent g) tip x

def SeveralTips (g : Graph) (member : Nat → Prop) : Prop :=
  ∃ y z, Tip g member y ∧ Tip g member z ∧ y ≠ z

structure Recovered (g : Graph) (region : Nat → Prop) (all : Bool) (after : Sccs)
    (left right : Serial) : Prop where
  red : ∀ x, (after.flags x).color.red = true ↔ region x
  cleared : ∀ x, region x → (after.flags x).set = false
  blue : ∀ x, (after.flags x).color.blue = true ↔ RealDelta g x ∧ ¬ region x ∧ ¬ Under g region x
  range : ∀ l r, left = .ser l → right = .ser r → ∀ x, History g r x ∧ ¬ History g l x ↔ region x
  leftInvalid : left = .invalid ↔ SeveralTips g (LeftSide g region all)
  rightInvalid : right = .invalid ↔ SeveralTips g region

inductive Names (member : Nat → Prop) (d : Nat) : Serial → Prop
  | none (empty : ∀ y, d < y → ¬ member y) : Names member d (.ser 0)
  | one {y : Nat} (inside : member y) (above : d < y) (only : ∀ z, d < z → member z → z = y) : Names
      member d (.ser y)
  | many {y z : Nat} (first : member y) (second : member z) (high : d < y) (higher : d < z)
      (other : y ≠ z) :
      Names member d .invalid

variable {member : Nat → Prop} {tip : Serial}

theorem Names.skip {d k : Nat} (names : Names member d tip) (low : k ≤ d)
    (missing : ∀ y, k < y → y ≤ d → ¬ member y) : Names member k tip := by
  have above : ∀ y, k < y → member y → d < y := by
    intro y high inside
    by_contra below
    exact missing y high (by omega) inside
  cases names with
  | none empty => exact .none fun y high inside => empty y (above y high inside) inside
  | one inside high only =>
    exact .one inside (by omega) fun z highZ insideZ => only z (above z highZ insideZ) insideZ
  | many first second high higher other => exact .many first second (by omega) (by omega) other

variable {x : Nat}

theorem Names.next (names : Names member x tip) (nonzero : x ≠ 0) (inside : member x) :
    Names member (x - 1) (tip.next x) := by
  cases names with
  | none empty =>
    refine .one inside (by omega) fun z high insideZ => ?_
    by_contra other
    exact empty z (by omega) insideZ
  | @one y insideY above only =>
    have taken : (Serial.ser y).next x = .invalid := if_neg fun zero => by
      have : y = 0 := Serial.ser.inj zero
      omega
    rw [taken]
    exact .many inside insideY (by omega) (by omega) (by omega)
  | many first second high higher other => exact .many first second (by omega) (by omega) other

theorem Names.invalid_iff {g : Graph} (bounded : ∀ x, member x → x ≠ 0)
    (names : Names (Tip g member) 0 tip) : tip = .invalid ↔ SeveralTips g member := by
  have positive : ∀ y, Tip g member y → 0 < y := fun y found => Nat.pos_of_ne_zero (bounded y found.1)
  cases names with
  | none empty =>
    refine iff_of_false (fun wrong => by cases wrong) ?_
    rintro ⟨y,_z,found,_⟩
    exact empty y (positive y found) found
  | one inside above only =>
    refine iff_of_false (fun wrong => by cases wrong) ?_
    rintro ⟨y,z,foundY,foundZ,other⟩
    exact other ((only y (positive y foundY) foundY).trans (only z (positive z foundZ) foundZ).symm)
  | many first second high higher other => exact iff_of_true rfl ⟨_,_,first,second,other⟩

theorem Names.history {g : Graph} {t : Nat} (real : ∀ x, member x → RealDelta g x)
    (names : Names (Tip g member) 0 (.ser t)) (x : Nat) :
    History g t x ↔ member x ∨ Under g member x := by
  have under : ∀ y, member y → Reach (eachParent g) y x → History g t x := by
    intro y inside reached
    obtain ⟨z,tip,above⟩ := exists_tip (fun x found => (real x found).2.1) inside
    have nonzero := (real z tip.1).1
    cases names with
    | none empty => exact absurd tip (empty z (Nat.pos_of_ne_zero nonzero))
    | one _inside _above only =>
      have same := only z (Nat.pos_of_ne_zero nonzero) tip
      exact ⟨same ▸ nonzero,same ▸ above.trans reached⟩
  constructor
  · intro history
    cases names with
    | none empty => exact absurd rfl history.1
    | one inside _above _only =>
      by_cases same : t = x
      · exact .inl (same ▸ inside.1)
      · exact .inr ⟨t,inside.1,same,history.2⟩
  · rintro (inside | ⟨y,inside,_other,reached⟩)
    · exact under x inside (.self x)
    · exact under y inside reached

/-- The final flags of a delta; one of the region that is below both sides is passed over. -/
structure Colored (g : Graph) (region : Nat → Prop) (all : Bool) (x : Nat) (f : Flags) : Prop where
  red : f.color.red = true ↔ region x ∧ ¬ (Under g region x ∧ Under g (LeftSide g region all) x)
  blue : f.color.blue = true ↔ RealDelta g x ∧ ¬ region x ∧ ¬ Under g region x
  green : f.color.green = false
  set : f.set = true ↔ region x ∧ Under g region x ∧ Under g (LeftSide g region all) x

def sideGoals (g : Graph) (region : Nat → Prop) (all : Bool) (d : Nat) : Bit → Nat → Prop
  | .red => RealDelta g
  | .green => fun x => ∃ y, d < y ∧ Tip g region y ∧ y ≠ x ∧ Reach (eachParent g) y x
  | .blue => fun x => ∃ y, d < y ∧ Tip g (LeftSide g region all) y ∧ y ≠ x ∧ Reach (eachParent g) y x

def BelowTip (g : Graph) (member : Nat → Prop) (d x : Nat) : Prop :=
  ∃ y, d < y ∧ Tip g member y ∧ y ≠ x ∧ Reach (eachParent g) y x

def Mode.sides : Mode := ⟨true,true,false,false⟩

structure Unranging (g : Graph) (region : Nat → Prop) (all : Bool) (d : Nat) (u : Unrange) :
    Prop where
  flags : u.w.wr.flags = Mode.sides
  mask : u.w.wr.mask = maskOf true
  every : u.w.wr.all = true
  place : u.w.wr.d = d + 1
  low : d ≤ g.table
  painting : Painting g (maskOf true) (sideGoals g region all d) d u.w
  above : ∀ e, d < e → Colored g region all e (u.w.s.flags e)
  below : ∀ e, e ≤ d → ((u.w.s.flags e).set = true ↔ region e)
  left : Names (Tip g (LeftSide g region all)) d u.left
  right : Names (Tip g region) d u.right

section

variable {g : Graph} {region : Nat → Prop} {all : Bool}

theorem LeftSide.real (member : LeftSide g region all x) : RealDelta g x := member.1.1

variable {d : Nat}

theorem hits_sides {wr : WrData} (flags : wr.flags = Mode.sides) (mask : wr.mask = maskOf true)
    (below : x ≤ d) (low : d ≤ g.table) : Hits g wr (sideGoals g region all d) x ↔
      (x ≠ 0 ∧ g.tag x = false) ∧
      ¬ (sideGoals g region all d .green x ∧ sideGoals g region all d .blue x) := by
  constructor
  · intro hits
    refine ⟨⟨hits.nonzero,hits.real⟩,fun both => hits.short (color_ext fun b => ?_)⟩
    rw [mask]
    cases b with
    | red => exact (on_shade _ .red x).mpr ⟨hits.nonzero,by omega,hits.real⟩
    | blue => exact (on_shade _ .blue x).mpr both.2
    | green => exact (on_shade _ .green x).mpr both.1
  · intro found
    have red : (shade (sideGoals g region all d) x).red = true :=
      (on_shade _ .red x).mpr ⟨found.1.1,by omega,found.1.2⟩
    refine ⟨found.1.1,found.1.2,fun empty => ?_, fun full => found.2 ?_,
      .inr (congrArg Mode.either flags)⟩
    · rw [empty] at red
      exact Bool.false_ne_true red
    · rw [mask] at full
      exact ⟨(on_shade _ .green x).mp (congrArg Color.green full),
        (on_shade _ .blue x).mp (congrArg Color.blue full)⟩

theorem under_of_goal (goal : BelowTip g member d x) : Under g member x := by
  obtain ⟨y,_above,tip,other,reached⟩ := goal
  exact ⟨y,tip.1,other,reached⟩

theorem goal_of_under (real : ∀ x, member x → RealDelta g x)
    (missing : ∀ y, x < y → y ≤ d → ¬ Tip g member y) (under : Under g member x) :
    BelowTip g member d x := by
  obtain ⟨y,inside,other,reached⟩ := under
  obtain ⟨z,tip,above⟩ := exists_tip (fun x found => (real x found).2.1) inside
  have first := above.le (eachParent_descending g)
  have second := reached.le (eachParent_descending g)
  refine ⟨z,?_,tip,by omega,above.trans reached⟩
  by_contra low
  exact missing z (by omega) (by omega) tip

theorem Tip.free (tip : Tip g member x) : ¬ BelowTip g member d x := by
  rintro ⟨y,_above,tipY,other,reached⟩
  exact other (tip.2 y tipY.1 reached)

theorem tip_iff : Tip g member x ↔ member x ∧ ¬ Under g member x := by
  constructor
  · intro tip
    refine ⟨tip.1,?_⟩
    rintro ⟨y,inside,other,reached⟩
    exact other (tip.2 y inside reached)
  · intro found
    refine ⟨found.1,fun y inside reached => ?_⟩
    by_contra other
    exact found.2 ⟨y,inside,other,reached⟩

theorem Colored.congr {f f' : Flags} (colored : Colored g region all x f) (color : f'.color = f.color)
    (set : f'.set = f.set) : Colored g region all x f' :=
  ⟨color ▸ colored.red,color ▸ colored.blue,color ▸ colored.green,set ▸ colored.set⟩

theorem colored_bare {f : Flags} (color : f.color = clear) (set : f.set = true ↔ region x)
    (both : RealDelta g x → Under g region x ∧ (region x → Under g (LeftSide g region all) x))
    (real : ∀ x, region x → RealDelta g x) : Colored g region all x f := by
  refine ⟨?_,?_,by rw [color]; rfl,?_⟩
  · rw [color]
    refine iff_of_false Bool.false_ne_true fun found => found.2 ?_
    have place := both (real x found.1)
    exact ⟨place.1,place.2 found.1⟩
  · rw [color]
    exact iff_of_false Bool.false_ne_true fun found => found.2.2 (both found.1).1
  · rw [set]
    refine ⟨fun inside => ?_, fun found => found.1⟩
    have place := both (real x inside)
    exact ⟨inside,place.1,place.2 inside⟩

variable {u : Unrange}

theorem Unranging.passed (unranging : Unranging g region all d u)
    (real : ∀ x, region x → RealDelta g x) {e : Nat} (below : e ≤ d)
    (missed : ¬ Hits g u.w.wr (sideGoals g region all d) e) {f : Flags} (color : f.color = clear)
    (set : f.set = true ↔ region e) : Colored g region all e f := by
  have both : RealDelta g e → Under g region e ∧ Under g (LeftSide g region all) e := by
    intro found
    by_contra short
    refine missed ((hits_sides unranging.flags unranging.mask below unranging.low).mpr
      ⟨⟨found.1,found.2.2⟩,fun goals => short ?_⟩)
    exact ⟨under_of_goal goals.1,under_of_goal goals.2⟩
  exact colored_bare color set (fun found => ⟨(both found).1,fun _ => (both found).2⟩) real

theorem goal_step {z : Nat} (nonzero : x ≠ 0) (below : x ≤ d)
    (missing : ∀ y, x < y → y ≤ d → ¬ Tip g member y) (low : z ≤ x - 1) :
    BelowTip g member (x - 1) z ↔
      BelowTip g member d z ∨ Tip g member x ∧ ∃ e ∈ eachParent g x, Reach (eachParent g) e z := by
  rw [← reach_below (show z ≠ x by omega)]
  constructor
  · rintro ⟨y,above,tip,other,reached⟩
    by_cases high : d < y
    · exact .inl ⟨y,high,tip,other,reached⟩
    · by_cases same : y = x
      · exact .inr ⟨same ▸ tip,same ▸ reached⟩
      · exact absurd tip (missing y (by omega) (by omega))
  · rintro (⟨y,above,tip,other,reached⟩ | ⟨tip,reached⟩)
    · exact ⟨y,by omega,tip,other,reached⟩
    · exact ⟨x,by omega,tip,by omega,reached⟩

structure Taken (g : Graph) (region : Nat → Prop) (all : Bool) (d : Nat) (after : Walk) (x : Nat) :
    Prop where
  nonzero : x ≠ 0
  tag : g.tag x = false
  below : x ≤ d
  noRight : ∀ y, x < y → y ≤ d → ¬ Tip g region y
  noLeft : ∀ y, x < y → y ≤ d → ¬ Tip g (LeftSide g region all) y
  red : after.wr.color.red = true
  green : after.wr.color.green = true ↔ Under g region x
  blue : after.wr.color.blue = true ↔ Under g (LeftSide g region all) x
  notBoth : ¬ (Under g region x ∧ Under g (LeftSide g region all) x)
  bare : (after.s.flags x).color = clear
  set : (after.s.flags x).set = true ↔ region x
  painting : Painting g (maskOf true) (sideGoals g region all d) (x - 1) after
  above : ∀ e, x < e → Colored g region all e (after.s.flags e)
  kept : ∀ e, e ≤ d → ((after.s.flags e).set = true ↔ region e)

theorem Unranging.taken {after : Walk} (unranging : Unranging g region all d u)
    (real : ∀ x, region x → RealDelta g x) (settled : Settled d u.w after)
    (found : Found g (sideGoals g region all d) d u.w after x) : Taken g region all d after x := by
  have hits : ∀ {y}, y ≤ d → (Hits g u.w.wr (sideGoals g region all d) y ↔ (y ≠ 0 ∧ g.tag y = false) ∧
      ¬ (sideGoals g region all d .green y ∧ sideGoals g region all d .blue y)) := fun low =>
    hits_sides unranging.flags unranging.mask low unranging.low
  have noRight : ∀ y, x < y → y ≤ d → ¬ Tip g region y := by
    intro y above low tip
    have place := real y tip.1
    exact found.newest y above low ((hits low).mpr ⟨⟨place.1,place.2.2⟩,fun both => tip.free both.1⟩)
  have noLeft : ∀ y, x < y → y ≤ d → ¬ Tip g (LeftSide g region all) y := by
    intro y above low tip
    have place := tip.1.real
    exact found.newest y above low ((hits low).mpr ⟨⟨place.1,place.2.2⟩,fun both => tip.free both.2⟩)
  obtain ⟨⟨nonzero,tag⟩,notBoth⟩ := (hits found.below).mp found.hits
  have low := unranging.low
  have below := found.below
  have shown : ∀ b : Bit, b.on after.wr.color = true ↔ sideGoals g region all d b x := by
    rw [found.color]
    exact fun b => on_shade _ b x
  have green : sideGoals g region all d .green x ↔ Under g region x :=
    ⟨under_of_goal,goal_of_under real noRight⟩
  have blue : sideGoals g region all d .blue x ↔ Under g (LeftSide g region all) x :=
    ⟨under_of_goal,goal_of_under (fun _ member => member.real) noLeft⟩
  have kept : ∀ e, e ≤ d → ((after.s.flags e).set = true ↔ region e) := by
    intro e low
    rw [settled.kept.set e]
    exact unranging.below e low
  refine ⟨nonzero,tag,below,noRight,noLeft,(shown .red).mpr ⟨nonzero,by omega,tag⟩,
    (shown .green).trans green,(shown .blue).trans blue,?_,found.bare x (Nat.le_refl x) below,
    kept x below,?_,fun e above => ?_, kept⟩
  · rwa [← green,← blue]
  · have painted := found.painting
    rw [unranging.mask,unranging.flags] at painted
    refine painted.congr
      (fun b _ z _ => ⟨fun goal => goal.resolve_right fun more => Bool.false_ne_true more.1, .inl⟩)
      ?_
    intro _ z nonzeroZ tagZ lowZ
    exact ⟨nonzeroZ,by omega,tagZ⟩
  · by_cases high : d < e
    · exact (unranging.above e high).congr (settled.above e high) (settled.kept.set e)
    · exact unranging.passed real (by omega) (found.newest e above (by omega))
        (found.bare e (by omega) (by omega)) (kept e (by omega))

theorem Taken.unranging {after : Walk} (taken : Taken g region all d after x) (low : d ≤ g.table)
    (flags : after.wr.flags = Mode.sides) (every : after.wr.all = true) (place : after.wr.d = x)
    {f : Flags → Flags} (colored : Colored g region all x (f (after.s.flags x))) {c : Color}
    (red : c.red = false) (green : c.green = true ↔ Tip g region x)
    (blue : c.blue = true ↔ Tip g (LeftSide g region all) x) {left right : Serial}
    (namesLeft : Names (Tip g (LeftSide g region all)) (x - 1) left)
    (namesRight : Names (Tip g region) (x - 1) right) :
    Unranging g region all (x - 1) ⟨markParents g ⟨after.wr,after.s.update x f⟩ x c,left,right⟩ := by
  have nonzero := taken.nonzero
  have below := taken.below
  have parents : ∀ e ∈ eachParent g x, e ≠ 0 ∧ e ≤ x - 1 ∧ g.tag e = false := by
    intro e edge
    have nonzeroE := (mem_eachParent edge).2.1
    have less := eachParent_descending g _ _ edge nonzeroE
    exact ⟨nonzeroE,by omega,eachParent_real taken.tag edge⟩
  have within : c.and (maskOf true) = c := color_ext fun b => by
    rw [Bit.on_and]
    cases b <;> exact Bool.and_true _
  have same : ∀ e, e ≤ x - 1 → ((after.s.update x f).flags e).color = (after.s.flags e).color := by
    intro e lowE
    rw [update_flags,if_neg (by omega)]
  have settled : Settled (x - 1) ⟨after.wr,after.s.update x f⟩
      (markParents g ⟨after.wr,after.s.update x f⟩ x c) :=
    markAll_settled fun e edge => (parents e edge).2.1
  have painted := (taken.painting.recolor same).mark within parents
  refine ⟨settled.flags.trans flags,settled.mask.trans taken.painting.mask_eq,
    settled.all.trans every,?_,by omega,painted.congr (fun b listed z lowZ => ?_) ?_,
    fun e above => ?_, fun e lowE => ?_, namesLeft,namesRight⟩
  · have steady := markAll_steady ⟨after.wr,after.s.update x f⟩ c (eachParent g x)
    change (markAll ⟨after.wr,after.s.update x f⟩ c (eachParent g x)).wr.d = _
    rw [steady.d,place]
    omega
  · cases b with
    | red =>
      refine ⟨fun goal => goal.resolve_right fun more => ?_, .inl⟩
      exact Bool.false_ne_true (red.symm.trans more.1)
    | green =>
      refine Iff.trans ?_ (goal_step nonzero below taken.noRight lowZ).symm
      exact or_congr_right (and_congr_left fun _ => green)
    | blue =>
      refine Iff.trans ?_ (goal_step nonzero below taken.noLeft lowZ).symm
      exact or_congr_right (and_congr_left fun _ => blue)
  · intro _ z nonzeroZ tagZ lowZ
    exact ⟨nonzeroZ,by omega,tagZ⟩
  · have flagsE : (markParents g ⟨after.wr,after.s.update x f⟩ x c).s.flags e =
        (after.s.update x f).flags e :=
      markAll_above (fun e edge => (parents e edge).2.1) above
    rw [flagsE,update_flags]
    by_cases here : e = x
    · rwa [if_pos here,here]
    · rw [if_neg here]
      exact taken.above e (by omega)
  · rw [settled.kept.set e]
    rw [update_flags,if_neg (by omega)]
    exact taken.kept e (by omega)

theorem markParents_clear (g : Graph) (w : Walk) (d : Nat) : markParents g w d clear = w :=
  markAll_clear w (eachParent g d)

theorem update_self (s : Sccs) (d : Nat) : s.update d (fun f => f) = s := by
  unfold Sccs.update
  rw [Function.update_eq_self]

theorem Unranging.bound (unranging : Unranging g region all d u) :
    Unranging g region all d (boundRegion all u x) := by
  unfold boundRegion
  dsimp only
  split
  · exact { unranging with painting := unranging.painting.recolor fun _ _ => rfl }
  · exact unranging

section
variable (taken : Taken g region all d u.w x) (low : d ≤ g.table) (flags : u.w.wr.flags = Mode.sides)
    (every : u.w.wr.all = true) (place : u.w.wr.d = x)
    (leftTip : Names (Tip g (LeftSide g region all)) d u.left)
      (rightTip : Names (Tip g region) d u.right)
include taken low flags every place leftTip rightTip

theorem Taken.right (inside : region x) :
    Unranging g region all (x - 1) (takeRight g u x) := by
  have below := taken.below
  have nonzero := taken.nonzero
  have colored : Colored g region all x
      { u.w.s.flags x with set := false, color := (u.w.s.flags x).color.or D_RED } := by
    rw [taken.bare]
    exact ⟨iff_of_true rfl ⟨inside,taken.notBoth⟩,
      iff_of_false Bool.false_ne_true fun found => found.2.1 inside, rfl,
      iff_of_false Bool.false_ne_true fun found => taken.notBoth found.2⟩
  have noTip : ¬ Tip g (LeftSide g region all) x := fun tip => tip.1.1.2 inside
  have namesLeft : Names (Tip g (LeftSide g region all)) (x - 1) u.left :=
      leftTip.skip (by omega) fun y high lowY => by
    by_cases same : y = x
    · exact same ▸ noTip
    · exact taken.noLeft y (by omega) lowY
  have namesRight := rightTip.skip below taken.noRight
  have tip : Tip g region x ↔ u.w.wr.color.green = false := by
    rw [tip_iff,← taken.green,Bool.not_eq_true]
    exact and_iff_right inside
  unfold takeRight
  by_cases green : u.w.wr.color.green = true
  · have noRight : ¬ Tip g region x := by
      rw [tip,green]
      exact fun equal => Bool.false_ne_true equal.symm
    rw [if_pos green]
    have next := taken.unranging low flags every place
      (f := fun f => { f with set := false, color := f.color.or D_RED }) colored
      (c := clear) rfl (iff_of_false Bool.false_ne_true noRight)
        (iff_of_false Bool.false_ne_true noTip) namesLeft
      (namesRight.skip (by omega) fun y high lowY => by rw [show y = x by omega]; exact noRight)
    rwa [markParents_clear] at next
  · rw [if_neg green]
    have isTip := tip.mpr (eq_false_of_ne_true green)
    exact taken.unranging low flags every place colored rfl (iff_of_true rfl isTip)
      (iff_of_false Bool.false_ne_true noTip) namesLeft
      (namesRight.next nonzero isTip)

theorem Taken.left (real : ∀ x, region x → RealDelta g x) (outside : ¬ region x) :
    Unranging g region all (x - 1) (takeLeft g all u x) := by
  have below := taken.below
  have nonzero := taken.nonzero
  have place' : RealDelta g x := ⟨nonzero,by omega,taken.tag⟩
  have noTip : ¬ Tip g region x := fun tip => outside tip.1
  have namesRight : Names (Tip g region) (x - 1) u.right :=
      rightTip.skip (by omega) fun y high lowY => by
    by_cases same : y = x
    · exact same ▸ noTip
    · exact taken.noRight y (by omega) lowY
  have namesLeft := leftTip.skip below taken.noLeft
  -- the delta itself: blue unless it is history of the region
  have colored : Colored g region all x
      (if u.w.wr.color.green then u.w.s.flags x else
        { u.w.s.flags x with color := (u.w.s.flags x).color.or D_BLUE }) := by
    split
    next green =>
      exact colored_bare taken.bare taken.set
        (fun _ => ⟨taken.green.mp green,fun inside => absurd inside outside⟩) real
    next green =>
      rw [taken.bare]
      refine ⟨?_,iff_of_true rfl ⟨place',outside,mt taken.green.mpr green⟩,rfl,?_⟩
      · exact iff_of_false Bool.false_ne_true fun found => outside found.1
      · exact taken.set.trans (iff_of_false outside fun found => outside found.1)
  have tip : Tip g (LeftSide g region all) x ↔
      (u.w.wr.color.green = true ∨ (all = true ∧ u.w.wr.color = D_RED)) := by
    have redOnly : u.w.wr.color = D_RED ↔ ¬ u.w.wr.color.green = true ∧
        ¬ u.w.wr.color.blue = true := by
      have red := taken.red
      generalize u.w.wr.color = c at red
      obtain ⟨_,blue,green⟩ := c
      cases red
      cases blue <;> cases green <;> simp [D_RED]
    rw [tip_iff,redOnly,taken.green,taken.blue]
    constructor
    · intro found
      by_cases under : Under g region x
      · exact .inl under
      · exact .inr ⟨Bool.eq_true_of_not_eq_false (mt found.1.2 under),under,found.2⟩
    · rintro (under | ⟨whole,_free,freeLeft⟩)
      · exact ⟨⟨⟨place',outside⟩,fun _ => under⟩, fun both => taken.notBoth ⟨under,both⟩⟩
      · exact ⟨⟨⟨place',outside⟩,fun part => absurd (part.symm.trans whole) Bool.false_ne_true⟩,
          freeLeft⟩
  have moved : (if u.w.wr.color.green then u.w else ⟨u.w.wr,u.w.s.orColor x D_BLUE⟩ : Walk) =
      ⟨u.w.wr,u.w.s.update x fun f => if u.w.wr.color.green then f else
        { f with color := f.color.or D_BLUE }⟩ := by
    split
    · rw [update_self]
    · rfl
  unfold takeLeft
  rw [moved]
  by_cases isTip : Tip g (LeftSide g region all) x
  · rw [if_pos (tip.mp isTip)]
    exact taken.unranging low flags every place colored rfl (iff_of_false Bool.false_ne_true noTip)
      (iff_of_true rfl isTip)
      (namesLeft.next nonzero isTip) namesRight
  rw [if_neg (mt tip.mpr isTip)]
  have next := taken.unranging low flags every place
    (f := fun f => if u.w.wr.color.green then f else { f with color := f.color.or D_BLUE }) colored
    (c := clear) rfl (iff_of_false Bool.false_ne_true noTip) (iff_of_false Bool.false_ne_true isTip)
    (namesLeft.skip (by omega) fun y high lowY => by rw [show y = x by omega]; exact isTip) namesRight
  rwa [markParents_clear] at next

end

private theorem unrangeLoop_colored (real : ∀ x, region x → RealDelta g x) {fuel : Nat}
    (unranging : Unranging g region all d u) (enough : d < fuel) :
    (∀ x, Colored g region all x ((walkrevs_done (unrangeLoop g all fuel u).w).flags x)) ∧
      Names (Tip g (LeftSide g region all)) 0 (unrangeLoop g all fuel u).left ∧
      Names (Tip g region) 0 (unrangeLoop g all fuel u).right := by
  induction fuel generalizing d u with
  | zero => omega
  | succ fuel ih =>
    have painted := unranging.painting
    rw [← unranging.mask] at painted
    obtain ⟨settled,outcome⟩ := walkFrom_painted painted (unranging.mask ▸ red_in_mask true)
    unfold unrangeLoop walkrevs
    rw [show u.w.wr.d - 1 = d by rw [unranging.place,Nat.add_sub_cancel]]
    dsimp only
    rcases outcome with ⟨zero,k,stopped⟩ | found
    · rw [if_pos zero]
      have hits : ∀ {y}, y ≤ d → RealDelta g y →
          ¬ (sideGoals g region all d .green y ∧ sideGoals g region all d .blue y) → False :=
            fun low place short =>
        stopped.none _ low ((hits_sides unranging.flags unranging.mask low unranging.low).mpr
          ⟨⟨place.1,place.2.2⟩,short⟩)
      refine ⟨fun x => ?_, unranging.left.skip (Nat.zero_le d) fun y _ low tip => ?_,
        unranging.right.skip (Nat.zero_le d) fun y _ low tip => ?_⟩
      · have kept := settled.kept.trans
          (doneFrom_kept (walkFrom g d u.w).1.wr.last (walkFrom g d u.w).1.wr.mask
          ((walkFrom g d u.w).1.wr.d - 1) (walkFrom g d u.w).1.s)
        by_cases above : d < x
        · have same : (walkrevs_done (walkFrom g d u.w).1).flags x = (walkFrom g d u.w).1.s.flags x :=
            doneFrom_above (by rw [stopped.place,unranging.place]; omega)
          exact (unranging.above x above).congr
            ((congrArg Flags.color same).trans (settled.above x above)) (kept.set x)
        · refine unranging.passed real (by omega) (stopped.none x (by omega))
            (stopped.cleared unranging.place (by omega)) ?_
          rw [← unranging.below x (by omega)]
          exact Bool.eq_iff_iff.mp (kept.set x)
      · exact hits low tip.1.real fun both => tip.free both.2
      · exact hits low (real y tip.1) fun both => tip.free both.1
    · generalize (walkFrom g d u.w).2 = x at *
      generalize (walkFrom g d u.w).1 = after at *
      have taken := unranging.taken real settled found
      have below := taken.below
      have nonzero := taken.nonzero
      rw [if_neg nonzero]
      refine ih (d := x - 1) (Unranging.bound ?_) (by omega)
      have flags := settled.flags.trans unranging.flags
      have every := settled.all.trans unranging.every
      split
      next set =>
        exact Taken.right (u := ⟨after,u.left,u.right⟩) taken unranging.low flags every found.place
          unranging.left
          unranging.right (taken.set.mp set)
      next set =>
        exact Taken.left (u := ⟨after,u.left,u.right⟩) taken unranging.low flags every found.place
          unranging.left
          unranging.right real (mt taken.set.mpr set)

private theorem setup_unranging {s : Sccs} (clean : Clean s) (real : ∀ x, region x → RealDelta g x)
    (marked : ∀ x, (s.flags x).set = true ↔ region x) :
    Unranging g region all g.table
      ⟨walkrevs_setup g { s with rstart := 0, rstop := 0 } [] none Mode.sides,.ser 0,.ser 0⟩ := by
  have bare : Clean { s with rstart := 0, rstop := 0 } := clean
  have noBlue : RealList g [] := nofun
  have noRed : ∀ list, (none : Option (List Nat)) = some list → RealList g list :=
    fun list wrong => by cases wrong
  have ready : Ready g _ Mode.sides g.table _ := setup_ready noBlue noRed Mode.sides fun e _ => bare e
  have beyond : ∀ {y}, g.table < y → ¬ RealDelta g y := fun high found => absurd found.2.1 (by omega)
  have nothing : ∀ {member : Nat → Prop}, (∀ x, member x → RealDelta g x) →
      ∀ {x}, ¬ BelowTip g member g.table x := by
    rintro member within x ⟨y,high,tip,_⟩
    exact beyond high (within y tip.1)
  refine ⟨ready.flags_eq,ready.mask,rfl,rfl,le_rfl,
    ready.painting.congr (fun b _ x _ => ?_) fun _ x nonzero tag below =>
    ⟨nonzero,below,tag⟩, fun e above => ?_, fun e _ => marked e, .none fun y high tip =>
      beyond high tip.1.real,
    .none fun y high tip => beyond high (real y tip.1)⟩
  · cases b with
    | red => exact Iff.rfl
    | blue =>
      refine iff_of_false ?_ (nothing fun _ member => member.real)
      rintro ⟨e,inside,_⟩
      exact not_mem_nil inside
    | green => exact iff_of_false id (nothing real)
  · have color : ((walkrevs_setup g { s with rstart := 0, rstop := 0 } [] none Mode.sides).s.flags
        e).color = clear :=
      (congrArg Flags.color (setup_above above)).trans (clean e)
    exact colored_bare color (marked e) (fun found => absurd found (beyond above)) real

theorem range_unrange_colored (all : Bool) {s : Sccs} (clean : Clean s)
    (real : ∀ x, region x → RealDelta g x) (marked : ∀ x, (s.flags x).set = true ↔ region x) :
    (∀ x, Colored g region all x ((range_unrange g s all).1.flags x)) ∧
      Names (Tip g (LeftSide g region all)) 0 (range_unrange g s all).2.1 ∧
      Names (Tip g region) 0 (range_unrange g s all).2.2 :=
  unrangeLoop_colored real (setup_unranging clean real marked) (by omega)

end

section

variable {g : Graph} {A B : List Nat} {all : Bool}

theorem Between.real (realA : RealList g A) (inside : Between g A B x) : RealDelta g x :=
  inside.1.real realA

theorem Between.not_under_history (inside : Between g A B x) :
    ¬ Under g (LeftSide g (Between g A B) false) x := by
  rintro ⟨y,side,_other,reached⟩
  obtain ⟨z,above,_,reachedY⟩ := side.2 rfl
  by_cases lower : Closure g B y
  · exact inside.2 (lower.step reached)
  · exact side.1.2 ⟨above.1.step reachedY,lower⟩

private theorem history_iff {region : Nat → Prop} (real : ∀ x, region x → RealDelta g x) {l r : Nat}
    (left : Names (Tip g (LeftSide g region all)) 0 (.ser l))
    (right : Names (Tip g region) 0 (.ser r))
    (free : ∀ x, region x → ¬ Under g (LeftSide g region all) x) (x : Nat) :
    History g r x ∧ ¬ History g l x ↔ region x := by
  rw [right.history real,left.history fun _ member => member.real]
  constructor
  · intro found
    by_contra outside
    have under := found.1.resolve_left outside
    obtain ⟨y,inside,_other,reached⟩ := under
    have place := real y inside
    have realX : RealDelta g x := ⟨reached.ne_zero place.1,
      Nat.le_trans (reached.le (eachParent_descending g)) place.2.1,
      reached.invariant place.2.2 fun _ _ tag edge _ => eachParent_real tag edge⟩
    exact found.2 (.inl ⟨⟨realX,outside⟩,fun _ => found.1.resolve_left outside⟩)
  · intro inside
    exact ⟨.inl inside,fun left => left.elim (fun side => side.1.2 inside) (free x inside)⟩

theorem recovered_iff {region : Nat → Prop} (real : ∀ x, region x → RealDelta g x) {after : Sccs}
    {l r : Serial} (colored : ∀ x, Colored g region all x (after.flags x))
    (left : Names (Tip g (LeftSide g region all)) 0 l) (right : Names (Tip g region) 0 r) :
    Recovered g region all after l r ↔
      (∀ x, region x → ¬ (Under g region x ∧ Under g (LeftSide g region all) x)) ∧
      (¬ SeveralTips g region → ¬ SeveralTips g (LeftSide g region all) → ∀ x, region x →
      ¬ Under g (LeftSide g region all) x) := by
  have leftInvalid := left.invalid_iff fun _ member => member.real.1
  have rightInvalid := right.invalid_iff fun x inside => (real x inside).1
  constructor
  · intro recovered
    refine ⟨fun x inside => ((colored x).red.mp ((recovered.red x).mpr inside)).2,
      fun oneRight oneLeft x inside under => ?_⟩
    cases l with
    | invalid => exact oneLeft (leftInvalid.mp rfl)
    | ser l =>
      cases r with
      | invalid => exact oneRight (rightInvalid.mp rfl)
      | ser r =>
        have outside := ((recovered.range l r rfl rfl x).mpr inside).2
        exact outside ((left.history (fun _ member => member.real) x).mpr (.inr under))
  · intro condition
    refine ⟨fun x => ?_, fun x inside => ?_, fun x => (colored x).blue, fun l' r' sameL sameR => ?_,
      leftInvalid,rightInvalid⟩
    · exact (colored x).red.trans ⟨fun found => found.1, fun inside => ⟨inside,condition.1 x inside⟩⟩
    · exact eq_false_of_ne_true fun set => condition.1 x inside ((colored x).set.mp set).2
    · subst sameL sameR
      have oneRight : ¬ SeveralTips g region := fun several => by cases rightInvalid.mpr several
      have oneLeft : ¬ SeveralTips g (LeftSide g region all) :=
        fun several => by cases leftInvalid.mpr several
      exact history_iff real left right (condition.2 oneRight oneLeft)

private theorem leftSide_all (g : Graph) (region : Nat → Prop) :
    LeftSide g region true = Outside g region := by
  funext x
  exact propext ⟨fun member => member.1,
    fun outside => ⟨outside,fun part => absurd part.symm Bool.false_ne_true⟩⟩

end

/-- A range is recovered, exactly if for `all` every member below the outside is a tip, and there is
none if both sides have one tip. -/
theorem range_unrange_recovers_iff (g : Graph) (s : Sccs) (clean : Clean s) (A B : List Nat)
    (realA : RealList g A) (marked : ∀ x, (s.flags x).set = true ↔ Between g A B x) (all : Bool) :
    Recovered g (Between g A B) all (range_unrange g s all).1 (range_unrange g s all).2.1
      (range_unrange g s all).2.2 ↔
      (all = true →
        (∀ x, Between g A B x → Under g (Outside g (Between g A B)) x → Tip g (Between g A B) x) ∧
        (¬ SeveralTips g (Between g A B) → ¬ SeveralTips g (Outside g (Between g A B)) →
          ∀ x, Between g A B x → ¬ Under g (Outside g (Between g A B)) x)) := by
  have real : ∀ x, Between g A B x → RealDelta g x := fun x inside => inside.real realA
  obtain ⟨colored,left,right⟩ := range_unrange_colored all clean real marked
  rw [recovered_iff real colored left right]
  cases all with
  | false =>
    refine iff_of_true ⟨fun x inside both => inside.not_under_history both.2,
      fun _ _ x inside => inside.not_under_history⟩ ?_
    exact fun part => absurd part Bool.false_ne_true
  | true =>
    rw [leftSide_all]
    constructor
    · intro condition _
      exact ⟨fun x inside below => tip_iff.mpr
        ⟨inside,fun above => condition.1 x inside ⟨above,below⟩⟩, condition.2⟩
    · intro condition
      refine ⟨fun x inside both => ?_, (condition rfl).2⟩
      exact (tip_iff.mp ((condition rfl).1 x inside both.2)).2 both.1

def fork : Graph where
  table := 3
  parent d := if d = 2 ∨ d = 3 then 1 else 0
  parent_lt := by intro d real; clear * - real; grind

theorem fork_root : Reach (eachParent fork) 1 x ↔ x = 1 := by
  refine ⟨fun reached => ?_,fun same => same ▸ .self x⟩
  have low := reached.le (eachParent_descending fork)
  have nonzero := reached.ne_zero (by decide)
  omega

theorem fork_branch : Reach (eachParent fork) 2 x ↔ x = 2 ∨ x = 1 := by
  constructor
  · intro reached
    have low := reached.le (eachParent_descending fork)
    have nonzero := reached.ne_zero (by decide)
    omega
  · rintro (rfl | rfl) <;> decide

def withSet (list : List Nat) : Sccs :=
  ⟨fun d => if d ∈ list then D_SET else Flags.clear, 0,0,false,false⟩

private theorem withSet_clean (list : List Nat) : Clean (withSet list) := by
  intro e
  unfold withSet
  dsimp only
  split <;> rfl

theorem withSet_set (list : List Nat) (x : Nat) : ((withSet list).flags x).set = true ↔ x ∈ list := by
  unfold withSet
  dsimp only
  split
  case isTrue inside => exact iff_of_true rfl inside
  case isFalse missing => exact iff_of_false Bool.false_ne_true missing

theorem range_unrange_recovers_iff_branch :
    Recovered fork (Between fork [2] [1]) true (range_unrange fork (withSet [2]) true).1
      (range_unrange fork (withSet [2]) true).2.1
      (range_unrange fork (withSet [2]) true).2.2 := by
  have branch : ∀ x, Between fork [2] [1] x ↔ x = 2 := by
    intro x
    unfold Between Closure
    simp only [mem_singleton,exists_eq_left,fork_root,fork_branch]
    omega
  have marked : ∀ x, ((withSet [2]).flags x).set = true ↔ Between fork [2] [1] x := fun x =>
    (withSet_set [2] x).trans (mem_singleton.trans (branch x).symm)
  have free : ∀ x, Between fork [2] [1] x → ¬ Under fork (Outside fork (Between fork [2] [1])) x := by
    rintro x inside ⟨y,outside,other,reached⟩
    rw [branch] at inside
    have low := reached.le (eachParent_descending fork)
    have bound : y ≤ 3 := outside.1.2.1
    have third : y = 3 := by omega
    subst inside third
    exact absurd reached (by decide)
  refine (range_unrange_recovers_iff fork (withSet [2]) (withSet_clean [2]) [2] [1] ?_ marked
    true).mpr fun _ =>
    ⟨fun x inside under => absurd under (free x inside), fun _ _ => free⟩
  unfold RealList
  decide

/-- The first delta belongs to the range but is below both children: it keeps `D_SET`, without
colour. -/
theorem range_unrange_passes_member_over :
    (∀ x, ((withSet [2,1]).flags x).set = true ↔ Between fork [2] [] x) ∧
      (range_unrange fork (withSet [2,1]) true).1.flags 1 = D_SET ∧
      ¬ Recovered fork (Between fork [2] []) true (range_unrange fork (withSet [2,1]) true).1
        (range_unrange fork (withSet [2,1]) true).2.1
      (range_unrange fork (withSet [2,1]) true).2.2 := by
  have range : ∀ x, Between fork [2] [] x ↔ x = 2 ∨ x = 1 := by
    intro x
    unfold Between Closure
    simp only [mem_singleton,exists_eq_left,fork_branch,not_mem_nil,false_and,exists_false,
      not_false_eq_true,and_true]
  have kept : (range_unrange fork (withSet [2,1]) true).1.flags 1 = D_SET := by decide +kernel
  refine ⟨fun x => ?_, kept,fun recovered => ?_⟩
  · rw [withSet_set,range,mem_cons,mem_singleton]
  · have red := (recovered.red 1).mpr ((range 1).mpr (.inr rfl))
    rw [kept] at red
    exact Bool.false_ne_true red

end BitKeeper.Range

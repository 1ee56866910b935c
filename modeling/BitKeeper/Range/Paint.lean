import BitKeeper.Range.Walk

/-!
The walk of `walkrevs` for any mask. What the marks of a colour lead to below the walk is its goal; a
turn of the loop leaves the goals as they are. `marked` counts the deltas ahead that have some of the
colours of the mask and not all.
-/

namespace BitKeeper.Range

open Color Dag Nat

inductive Bit where
  | red
  | blue
  | green
deriving DecidableEq

def Bit.on : Bit → Color → Bool
  | .red, c => c.red
  | .blue, c => c.blue
  | .green, c => c.green

variable (b : Bit)

theorem Bit.on_or (a c : Color) : b.on (a.or c) = (b.on a || b.on c) := by cases b <;> rfl

theorem Bit.on_clear : b.on clear = false := by cases b <;> rfl

theorem Bit.on_and (a c : Color) : b.on (a.and c) = (b.on a && b.on c) := by cases b <;> rfl

theorem Bit.on_minus (a c : Color) : b.on (a.minus c) = (b.on a && !b.on c) := by cases b <;> rfl

variable {c : Color}

theorem color_ext {a : Color} (same : ∀ b : Bit, b.on a = b.on c) : a = c := by
  obtain ⟨red,blue,green⟩ := a
  have reds : red = c.red := same .red
  have blues : blue = c.blue := same .blue
  have greens : green = c.green := same .green
  rw [reds,blues,greens]

variable {mask : Color}

theorem and_or_of_and {a : Color} (left : a.and mask = a) (right : c.and mask = c) :
    (a.or c).and mask = a.or c := by
  refine color_ext fun b => ?_
  have one := congrArg b.on left
  have two := congrArg b.on right
  rw [Bit.on_and] at one two ⊢
  rw [Bit.on_or]
  revert one two
  cases b.on a <;> cases b.on c <;> cases b.on mask <;> decide

def share (mask c : Color) : Int := if c = clear ∨ c = mask then 0 else 1

def weightIn (mask : Color) (s : Sccs) (e : Nat) : Int := share mask (s.flags e).color

private theorem share_nonneg (mask c : Color) : 0 ≤ share mask c := by
  unfold share
  split <;> omega

variable {w : Walk} {d : Nat}

theorem markDelta_count (same : w.wr.mask = mask) (within : c.and mask = c)
    (old : (w.s.flags d).color.and mask = (w.s.flags d).color) :
    (markDelta w d c).wr.marked = w.wr.marked - weightIn mask w.s d + weightIn mask
      (w.s.orColor d c) d := by
  have colored := orColor_color w.s d d c
  rw [if_pos rfl] at colored
  unfold weightIn
  rw [colored]
  unfold markDelta
  dsimp only
  rw [same,old]
  generalize (w.s.flags d).color = before at *
  split
  next nothing =>
    rw [or_clear_of_minus old.symm nothing]
    omega
  rename_i nothing
  have notFull : before ≠ mask := by
    rintro rfl
    refine nothing (color_ext fun b => ?_)
    have one := congrArg b.on within
    rw [Bit.on_and] at one
    rw [Bit.on_minus,Bit.on_clear,← one,Bool.and_assoc,Bool.and_not_self,Bool.and_false]
  have notClear : before.or c ≠ clear := by
    intro empty
    refine nothing (color_ext fun b => ?_)
    have one := congrArg b.on empty
    rw [Bit.on_or,Bit.on_clear,Bool.or_eq_false_iff] at one
    rw [Bit.on_minus,Bit.on_clear,one.2,Bool.false_and]
  have first : share mask before = if before = clear then 0 else 1 := by
    unfold share
    simp only [notFull,or_false]
  have second : share mask (before.or c) = if before.or c = mask then 0 else 1 := by
    unfold share
    simp only [notClear,false_or]
  rw [first,second]

variable {e : Nat}

theorem weightIn_orColor_ne {s : Sccs} (other : e ≠ d) :
    weightIn mask s e = weightIn mask (s.orColor d c) e := by
  unfold weightIn
  rw [orColor_color,if_neg other]

variable {ds : List Nat}

theorem markAll_count {n : Nat} (same : w.wr.mask = mask) (within : c.and mask = c)
    (old : ∀ e ∈ ds, (w.s.flags e).color.and mask = (w.s.flags e).color)
    (range : ∀ d ∈ ds, d ≠ 0 ∧ d ≤ n) :
    (markAll w c ds).wr.marked = w.wr.marked - total (weightIn mask w.s) n + total
      (weightIn mask (markAll w c ds).s) n := by
  induction ds generalizing w with
  | nil =>
    change w.wr.marked = w.wr.marked - total (weightIn mask w.s) n + total (weightIn mask w.s) n
    omega
  | cons d rest ih =>
    obtain ⟨top,below⟩ := List.forall_mem_cons.mp range
    obtain ⟨first,later⟩ := List.forall_mem_cons.mp old
    have steady := markDelta_steady w d c
    have one := markDelta_count same within first
    have kept : ∀ e ∈ rest, ((markDelta w d c).s.flags e).color.and mask =
        ((markDelta w d c).s.flags e).color := by
      intro e inside
      rw [markDelta_s,orColor_color]
      split
      · exact and_or_of_and (later e inside) within
      · exact later e inside
    have others := ih (w := markDelta w d c) (steady.mask.trans same) kept below
    have moved : total (weightIn mask (w.s.orColor d c)) n =
        total (weightIn mask w.s) n - weightIn mask w.s d + weightIn mask (w.s.orColor d c) d :=
      total_change top.1 top.2 fun e other => weightIn_orColor_ne other
    change (markAll (markDelta w d c) c rest).wr.marked = _ - _ +
      total (weightIn mask (markAll (markDelta w d c) c rest).s) n
    rw [markDelta_s] at others
    omega

theorem markDelta_last_at (old : (w.s.flags e).color ≠ clear → w.wr.last ≤ e) :
    ((markDelta w d c).s.flags e).color ≠ clear → (markDelta w d c).wr.last ≤ e := by
  have lower : (markDelta w d c).wr.last ≤ w.wr.last := by
    unfold markDelta
    dsimp only
    split
    · exact le_rfl
    · dsimp only
      split <;> omega
  intro colored
  by_cases before : (w.s.flags e).color = clear
  · rw [markDelta_s,orColor_color] at colored
    by_cases same : e = d
    · subst same
      rw [if_pos rfl,before] at colored
      unfold markDelta
      dsimp only
      split
      case isTrue nothing =>
          have covered := or_clear_of_minus rfl nothing
          rw [before] at covered
          exact absurd covered colored
      case isFalse =>
          dsimp only
          split <;> omega
    · rw [if_neg same] at colored
      exact absurd before colored
  · exact le_trans lower (old before)

theorem markAll_last_at (old : (w.s.flags e).color ≠ clear → w.wr.last ≤ e) :
    ((markAll w c ds).s.flags e).color ≠ clear → (markAll w c ds).wr.last ≤ e := by
  induction ds generalizing w with
  | nil => exact old
  | cons d rest ih => exact ih (markDelta_last_at old)

def Marks (s : Sccs) (b : Bit) (e : Nat) : Prop := b.on (s.flags e).color = true

/-- Before delta `d` is visited. Without a red list every real delta gets red when met, so red marks
say nothing. -/
structure Painting (g : Graph) (mask : Color) (goal : Bit → Nat → Prop) (d : Nat) (w : Walk) :
    Prop where
  mask_eq : w.wr.mask = mask
  goals : ∀ b, (b = .red → w.wr.all = false) → ∀ x, x ≤ d →
    (goal b x ↔ Ahead (eachParent g) d (Marks w.s b) x)
  every : w.wr.all = true → ∀ x, x ≠ 0 → g.tag x = false → x ≤ d → goal .red x
  inMask : ∀ e, e ≤ d → (w.s.flags e).color.and mask = (w.s.flags e).color
  tags : ∀ e, e ≤ d → g.tag e = true → (w.s.flags e).color = clear
  zero : (w.s.flags 0).color = clear
  last : ∀ e, e ≤ d → (w.s.flags e).color ≠ clear → w.wr.last ≤ e
  marked : w.wr.marked = (if w.wr.all then 1 else 0) + total (weightIn mask w.s) d

section Painting

variable {g : Graph} {mask : Color} {goal : Bit → Nat → Prop} {d : Nat} {w : Walk}

theorem Painting.congr {other : Bit → Nat → Prop} (painting : Painting g mask goal d w)
    (same : ∀ b, (b = .red → w.wr.all = false) → ∀ x, x ≤ d → (goal b x ↔ other b x))
    (every : w.wr.all = true → ∀ x, x ≠ 0 → g.tag x = false → x ≤ d → other .red x) :
    Painting g mask other d w :=
  { painting with
    goals := fun b listed x below =>
      (same b listed x below).symm.trans (painting.goals b listed x below)
    every := every }

theorem Painting.mark (painting : Painting g mask goal d w) (within : c.and mask = c)
    (range : ∀ e ∈ ds, e ≠ 0 ∧ e ≤ d ∧ g.tag e = false) :
    Painting g mask (fun b x => goal b x ∨ b.on c = true ∧ ∃ e ∈ ds, Reach (eachParent g) e x) d
      (markAll w c ds) := by
  have steady := markAll_steady w c ds
  have color := markAll_color w c ds
  refine ⟨steady.mask.trans painting.mask_eq,fun b listed x below => ?_,
    fun all x nonzero real below => ?_, fun e below => ?_,fun e below tag => ?_, ?_,
    fun e below => markAll_last_at (painting.last e below), ?_⟩
  · rw [painting.goals b (fun red => steady.all ▸ listed red) x below]
    have marks : ∀ e, Marks (markAll w c ds).s b e ↔ Marks w.s b e ∨ b.on c = true ∧ e ∈ ds := by
      intro e
      unfold Marks
      rw [color e]
      split
      next inside =>
        rw [Bit.on_or,Bool.or_eq_true]
        exact or_congr_right ⟨fun on => ⟨on,inside⟩, fun both => both.1⟩
      next inside =>
        exact ⟨.inl,fun either => either.elim id fun both => absurd both.2 inside⟩
    constructor
    · rintro (⟨e,low,marked,reached⟩ | ⟨on,e,inside,reached⟩)
      · exact ⟨e,low,(marks e).mpr (.inl marked),reached⟩
      · exact ⟨e,(range e inside).2.1,(marks e).mpr (.inr ⟨on,inside⟩),reached⟩
    · rintro ⟨e,low,marked,reached⟩
      rcases (marks e).mp marked with old | ⟨on,inside⟩
      · exact .inl ⟨e,low,old,reached⟩
      · exact .inr ⟨on,e,inside,reached⟩
  · exact .inl (painting.every (steady.all ▸ all) x nonzero real below)
  · rw [color e]
    split
    · exact and_or_of_and (painting.inMask e below) within
    · exact painting.inMask e below
  · have apart : e ∉ ds := by
      intro inside
      exact Bool.false_ne_true ((range e inside).2.2.symm.trans tag)
    rw [color e,if_neg apart]
    exact painting.tags e below tag
  · rw [color 0,if_neg fun inside => (range 0 inside).1 rfl]
    exact painting.zero
  · have counted := markAll_count painting.mask_eq within
      (fun e inside => painting.inMask e (range e inside).2.1)
      (n := d) fun e inside => ⟨(range e inside).1,(range e inside).2.1⟩
    have before := painting.marked
    rw [steady.all]
    omega

section
variable (painting : Painting g mask goal (d + 1) w)
include painting

theorem Painting.skip (bare : (w.s.flags (d + 1)).color = clear) : Painting g mask goal d w := by
  refine ⟨painting.mask_eq,fun b listed x below => ?_,
    fun all x nonzero real below => painting.every all x nonzero real (by omega),
    fun e below => painting.inMask e (by omega), fun e below => painting.tags e (by omega),
    painting.zero,
    fun e below => painting.last e (by omega), ?_⟩
  · rw [painting.goals b listed x (by omega)]
    refine (ahead_step (eachParent_descending g) (fun e _ => ?_) below).symm
    have off : ¬ Marks w.s b (d + 1) := by
      unfold Marks
      rw [bare,Bit.on_clear]
      exact Bool.false_ne_true
    exact ⟨.inl,fun either => either.elim id fun both => absurd both.1 off⟩
  · have before := painting.marked
    have weightless : weightIn mask w.s (d + 1) = 0 := by
      unfold weightIn share
      rw [bare,if_pos (.inl rfl)]
    unfold total at before
    omega

theorem Painting.descend (real : g.tag (d + 1) = false)
    (own : c = (w.s.flags (d + 1)).color) {mark : Int}
    (counted : mark = (handDown g w (d + 1) c).wr.marked - share mask c) :
    Painting g mask goal d
      ⟨{ (handDown g w (d + 1) c).wr with marked := mark },(handDown g w (d + 1) c).s⟩ := by
  have steady := handDown_steady g w (d + 1) c
  have color := fun e => handDown_color (g := g) e own
  have within : c.and mask = c := own ▸ painting.inMask (d + 1) le_rfl
  have range : ∀ e ∈ eachParent g (d + 1), e ≠ 0 ∧ e ≤ d ∧ g.tag e = false := by
    intro e edge
    have nonzero := (mem_eachParent edge).2.1
    have below := eachParent_descending g _ _ edge nonzero
    exact ⟨nonzero,by omega,eachParent_real real edge⟩
  refine ⟨steady.mask.trans painting.mask_eq,fun b listed x below => ?_,
    fun all x nonzero realX below => ?_, fun e below => ?_,fun e below tag => ?_, ?_,
    fun e below => ?_, ?_⟩
  · rw [painting.goals b (fun red => steady.all ▸ listed red) x (by omega)]
    exact (ahead_step (eachParent_descending g) (handDown_bit own b.on_or) below).symm
  · exact painting.every (steady.all ▸ all) x nonzero realX (by omega)
  · rw [color e,if_neg (by omega)]
    split
    · exact and_or_of_and (painting.inMask e (by omega)) within
    · exact painting.inMask e (by omega)
  · have apart : e ∉ eachParent g (d + 1) := fun edge =>
      Bool.false_ne_true ((range e edge).2.2.symm.trans tag)
    rw [color e,if_neg (by omega),if_neg apart]
    exact painting.tags e (by omega) tag
  · rw [color 0,if_neg (by omega),if_neg fun edge => (range 0 edge).1 rfl]
    exact painting.zero
  · refine markAll_last_at (w := ⟨{ w.wr with color := c },w.s.clearColor (d + 1) c⟩) ?_
    intro colored
    rw [clearColor_color,if_neg (by omega)] at colored
    exact painting.last e (by omega) colored
  · have weights : total (weightIn mask (w.s.clearColor (d + 1) c)) d =
        total (weightIn mask w.s) d := by
      refine total_congr fun e _ below => ?_
      unfold weightIn
      rw [clearColor_color,if_neg (by omega)]
    have old : ∀ e ∈ eachParent g (d + 1),
        ((w.s.clearColor (d + 1) c).flags e).color.and mask =
        ((w.s.clearColor (d + 1) c).flags e).color := by
      intro e edge
      have low := (range e edge).2.1
      rw [clearColor_color,if_neg (by omega)]
      exact painting.inMask e (by omega)
    have moved := markAll_count (w := ⟨{ w.wr with color := c },w.s.clearColor (d + 1) c⟩)
      painting.mask_eq within old
      fun e edge => ⟨(range e edge).1,(range e edge).2.1⟩
    change (handDown g w (d + 1) c).wr.marked = w.wr.marked - total
      (weightIn mask (w.s.clearColor (d + 1) c)) d +
      total (weightIn mask (handDown g w (d + 1) c).s) d at moved
    have before := painting.marked
    have here : weightIn mask w.s (d + 1) = share mask c := by
      rw [own]
      rfl
    unfold total at before
    rw [steady.all]
    dsimp only
    omega

theorem Painting.arrive (real : g.tag (d + 1) = false)
    (redIn : D_RED.and mask = D_RED) : Painting g mask goal (d + 1) (arrive w (d + 1)) ∧
      ∀ b : Bit, b.on ((arrive w (d + 1)).s.flags (d + 1)).color = true ↔ goal b (d + 1) := by
  have top : ∀ {v : Walk} (b : Bit), Painting g mask goal (d + 1) v → (b = .red → v.wr.all = false) →
      (b.on (v.s.flags (d + 1)).color = true ↔ goal b (d + 1)) := by
    intro v b painted listed
    rw [painted.goals b listed (d + 1) le_rfl]
    have here : Marks v.s b (d + 1) ↔ Ahead (eachParent g) (d + 1) (Marks v.s b) (d + 1) :=
      (ahead_top (eachParent_descending g)).symm
    exact here
  unfold Range.arrive
  split
  next all =>
    have range : ∀ e ∈ [d + 1], e ≠ 0 ∧ e ≤ d + 1 ∧ g.tag e = false :=
      List.forall_mem_singleton.mpr ⟨succ_ne_zero d,le_rfl,real⟩
    have steady := markDelta_steady w (d + 1) D_RED
    have painted : Painting g mask goal (d + 1) (markDelta w (d + 1) D_RED) := by
      refine (painting.mark redIn range).congr (fun b listed x below => ?_) fun _ =>
        painting.every all
      have other : b.on D_RED = false := by
        cases b with
        | red =>
          exact absurd (listed rfl)
            (by rw [show (markAll w D_RED [d + 1]).wr.all = w.wr.all from steady.all,all]; decide)
        | blue => rfl
        | green => rfl
      rw [other]
      exact ⟨fun either => either.resolve_right fun both => Bool.false_ne_true both.1, .inl⟩
    refine ⟨painted,fun b => ?_⟩
    by_cases red : b = .red
    · rw [red]
      refine iff_of_true ?_ (painting.every all (d + 1) (succ_ne_zero d) real le_rfl)
      rw [markDelta_s,orColor_color,if_pos rfl,Bit.on_or]
      exact Bool.or_true _
    · exact top b painted fun equal => absurd equal red
  next all =>
    exact ⟨painting,fun b => top b painting fun _ => Bool.not_eq_true _ ▸ all⟩

end

variable (painting : Painting g mask goal d w)
include painting

theorem Painting.even (spent : w.wr.marked ≤ 0) : w.wr.all = false ∧ w.wr.marked = 0 ∧ ∀ b b' :
    Bit, b.on mask = true → b'.on mask = true → ∀ x, x ≤ d → (goal b x ↔ goal b' x) := by
  have nonneg : ∀ e, 0 ≤ weightIn mask w.s e := fun e => share_nonneg mask _
  have sum := total_nonneg nonneg d
  have counted := painting.marked
  split at counted
  · omega
  rename_i all
  have listed : w.wr.all = false := Bool.not_eq_true _ ▸ all
  refine ⟨listed,by omega,fun b b' inside inside' x below => ?_⟩
  rw [painting.goals b (fun _ => listed) x below, painting.goals b' (fun _ => listed) x below]
  refine ahead_congr fun e low => ?_
  unfold Marks
  have plain : (w.s.flags e).color = clear ∨ (w.s.flags e).color = mask := by
    by_cases nonzero : e = 0
    · exact .inl (nonzero ▸ painting.zero)
    · have weightless := total_zero nonneg (by omega) nonzero low
      unfold weightIn share at weightless
      by_contra partial_
      rw [if_neg partial_] at weightless
      omega
  rcases plain with bare | full
  · rw [bare,Bit.on_clear,Bit.on_clear]
  · rw [full,inside,inside']

theorem Painting.masked {b : Bit}
    (listed : b = .red → w.wr.all = false) {x : Nat} (below : x ≤ d) (found : goal b x) :
    b.on mask = true := by
  obtain ⟨e,low,marked,_reached⟩ := (painting.goals b listed x below).mp found
  unfold Marks at marked
  rw [← painting.inMask e low,Bit.on_and,Bool.and_eq_true] at marked
  exact marked.2

theorem Painting.place (k : Nat) : Painting g mask goal d ⟨{ w.wr with d := k },w.s⟩ :=
  ⟨painting.mask_eq,painting.goals,painting.every,painting.inMask,painting.tags,painting.zero,
    painting.last,painting.marked⟩

theorem Painting.recolor {s : Sccs} (same : ∀ e, e ≤ d → (s.flags e).color = (w.s.flags e).color) :
    Painting g mask goal d ⟨w.wr,s⟩ := by
  refine ⟨painting.mask_eq,fun b listed x below => ?_, painting.every,fun e below => ?_,
    fun e below tag => ?_, ?_,fun e below => ?_, ?_⟩
  · rw [painting.goals b listed x below]
    refine ahead_congr fun e low => ?_
    unfold Marks
    rw [same e low]
  · rw [same e below]
    exact painting.inMask e below
  · rw [same e below]
    exact painting.tags e below tag
  · rw [same 0 (zero_le d)]
    exact painting.zero
  · rw [same e below]
    exact painting.last e below
  · rw [painting.marked]
    refine congrArg _ (total_congr fun e _ below => ?_)
    unfold weightIn
    rw [same e below]

end Painting

open Classical in
noncomputable def shade (goal : Bit → Nat → Prop) (x : Nat) : Color :=
  ⟨decide (goal .red x),decide (goal .blue x),decide (goal .green x)⟩

open Classical in
theorem on_shade (goal : Bit → Nat → Prop) (b : Bit) (x : Nat) :
    b.on (shade goal x) = true ↔ goal b x := by
  cases b <;> exact decide_eq_true_iff

variable {goal : Bit → Nat → Prop} {x : Nat}

private theorem eq_shade (same : ∀ b : Bit, b.on c = true ↔ goal b x) : c = shade goal x :=
  color_ext fun b => Bool.eq_iff_iff.mpr ((same b).trans (on_shade goal b x).symm)

structure Hits (g : Graph) (wr : WrData) (goal : Bit → Nat → Prop) (x : Nat) : Prop where
  nonzero : x ≠ 0
  real : g.tag x = false
  colored : shade goal x ≠ clear
  short : shade goal x ≠ wr.mask
  wanted : (shade goal x).and wr.want = wr.want ∨ wr.flags.either = true

def pruned (g : Graph) (tip : Bool) (mask : Color) (d : Nat) (goal : Bit → Nat → Prop) (b : Bit)
    (x : Nat) : Prop :=
  goal b x ∨ tip = true ∧ b.on mask = true ∧ ∃ e ∈ eachParent g d, Reach (eachParent g) e x

structure Settled (d : Nat) (w after : Walk) : Prop where
  kept : Kept w.s after.s
  above : ∀ e, d < e → (after.s.flags e).color = (w.s.flags e).color
  flags : after.wr.flags = w.wr.flags
  all : after.wr.all = w.wr.all
  mask : after.wr.mask = w.wr.mask
  want : after.wr.want = w.wr.want

theorem Settled.refl (d : Nat) (w : Walk) : Settled d w w :=
  ⟨Kept.refl w.s,fun _ _ => rfl, rfl,rfl,rfl,rfl⟩

theorem Settled.trans {u v : Walk} (first : Settled d u v) (second : Settled d v w) : Settled d u w :=
  ⟨first.kept.trans second.kept,fun e above => (second.above e above).trans (first.above e above),
    second.flags.trans first.flags,second.all.trans first.all,second.mask.trans first.mask,
    second.want.trans first.want⟩

theorem Settled.weaken {k : Nat} {after : Walk} (settled : Settled d w after) (low : d ≤ k) :
    Settled k w after :=
  { settled with above := fun e above => settled.above e (by omega) }

theorem markAll_settled (below : ∀ e ∈ ds, e ≤ d) : Settled d w (markAll w c ds) := by
  have steady := markAll_steady w c ds
  exact ⟨markAll_kept w c ds,fun e above => congrArg Flags.color (markAll_above below above),
    steady.flags,steady.all,steady.mask,steady.want⟩

variable {g : Graph}

theorem eachParent_le (edge : e ∈ eachParent g (d + 1)) : e ≤ d := by
  have below := eachParent_descending g _ _ edge (mem_eachParent edge).2.1
  omega

theorem handDown_settled (g : Graph) (w : Walk) (d : Nat) (c : Color) :
    Settled (d + 1) w (handDown g w (d + 1) c) := by
  have steady := handDown_steady g w (d + 1) c
  exact ⟨handDown_kept g w (d + 1) c,fun e above => congrArg Flags.color (handDown_above w c above),
    steady.flags,steady.all,steady.mask,steady.want⟩

private theorem arrive_settled (w : Walk) (d : Nat) : Settled d w (arrive w d) := by
  unfold arrive
  split
  · have one : Settled d w (markAll w D_RED [d]) := markAll_settled
      (List.forall_mem_singleton.mpr (le_refl d))
    exact one
  · exact Settled.refl d w

private theorem arrive_place (w : Walk) (d : Nat) : (arrive w d).wr.d = w.wr.d := by
  unfold arrive
  split
  · exact (markDelta_steady w d D_RED).d
  · rfl

def countDown (w : Walk) : Walk := ⟨{ w.wr with marked := w.wr.marked - 1 },w.s⟩

def pruneTip (g : Graph) (w : Walk) (d : Nat) : Walk :=
  if w.wr.flags.tip then walkrevs_prune g w d else w

theorem pruneTip_settled (g : Graph) (w : Walk) (d : Nat) : Settled d w (pruneTip g w (d + 1)) := by
  unfold pruneTip
  split
  · exact markAll_settled fun e edge => eachParent_le edge
  · exact Settled.refl d w

theorem pruneTip_color (g : Graph) (w : Walk) (d : Nat) : (pruneTip g w d).wr.color = w.wr.color := by
  unfold pruneTip
  split
  · exact (markAll_steady w _ _).color
  · rfl

theorem Painting.prune (painting : Painting g mask goal d w) (real : g.tag (d + 1) = false) :
    Painting g mask (pruned g w.wr.flags.tip mask (d + 1) goal) d (pruneTip g w (d + 1)) := by
  unfold pruneTip
  by_cases tip : w.wr.flags.tip = true
  · have range : ∀ e ∈ eachParent g (d + 1), e ≠ 0 ∧ e ≤ d ∧ g.tag e = false := fun e edge =>
      ⟨(mem_eachParent edge).2.1,eachParent_le edge,eachParent_real real edge⟩
    have within : mask.and mask = mask := color_ext fun b => by rw [Bit.on_and,Bool.and_self]
    rw [if_pos tip]
    unfold walkrevs_prune
    rw [painting.mask_eq]
    refine (painting.mark within range).congr (fun b _ x _ => or_congr_right ?_) fun all x nonzero
      realX below => ?_
    · exact (and_iff_right tip).symm
    · exact .inl (painting.every ((markAll_steady _ _ _).all ▸ all) x nonzero realX below)
  · rw [if_neg tip]
    refine painting.congr (fun b _ x _ => ?_) fun all x nonzero realX below => ?_
    · exact ⟨.inl,fun either => either.resolve_right fun both => tip both.1⟩
    · exact .inl (painting.every all x nonzero realX below)

structure Turned (g : Graph) (goal : Bit → Nat → Prop) (d : Nat) (w after : Walk) (hit : Bool) :
    Prop where
  settled : Settled (d + 1) w after
  bare : (after.s.flags (d + 1)).color = clear
  color : after.wr.color = shade goal (d + 1)
  found : hit = true ↔ Hits g w.wr goal (d + 1)
  place : after.wr.d = if hit then d + 1 else w.wr.d
  painting : Painting g w.wr.mask (if hit then pruned g w.wr.flags.tip w.wr.mask (d + 1) goal else
    goal) d after

theorem visit_turned (painting : Painting g mask goal (d + 1) w) (real : g.tag (d + 1) = false)
    (redIn : D_RED.and mask = D_RED) :
    Turned g goal d w (visit g w (d + 1)).1 (visit g w (d + 1)).2 := by
  obtain ⟨arrived,colors⟩ := painting.arrive real redIn
  have same : ((arrive w (d + 1)).s.flags (d + 1)).color = shade goal (d + 1) := eq_shade colors
  have settled := arrive_settled w (d + 1)
  have placed := arrive_place w (d + 1)
  have within := arrived.inMask (d + 1) le_rfl
  rw [← arrived.mask_eq] at within
  unfold visit
  dsimp only
  rw [within,same]
  generalize arrive w (d + 1) = here at *
  generalize shown : shade goal (d + 1) = c at *
  have down := handDown_steady g here (d + 1) c
  have settledDown := settled.trans (handDown_settled g here d c)
  have bareDown : ((handDown g here (d + 1) c).s.flags (d + 1)).color = clear := by
    rw [handDown_color (d + 1) same.symm,if_pos rfl]
  have handed : ∀ mark, mark = (handDown g here (d + 1) c).wr.marked - share mask c → _ :=
    fun mark counted => arrived.descend real same.symm counted
  generalize handDown g here (d + 1) c = low at *
  have maskDown : low.wr.mask = mask := down.mask.trans arrived.mask_eq
  have wantDown : low.wr.want = w.wr.want := down.want.trans settled.want
  have flagsDown : low.wr.flags = w.wr.flags := down.flags.trans settled.flags
  have placeDown : low.wr.d = w.wr.d := down.d.trans placed
  have hits : Hits g w.wr goal (d + 1) ↔
      c ≠ clear ∧ c ≠ mask ∧ (c.and w.wr.want = w.wr.want ∨ w.wr.flags.either = true) := by
    constructor
    · intro hit
      exact ⟨shown ▸ hit.colored,painting.mask_eq ▸ shown ▸ hit.short,shown ▸ hit.wanted⟩
    · intro hit
      exact ⟨succ_ne_zero d,real,shown ▸ hit.1,by rw [shown,painting.mask_eq]; exact hit.2.1,
        shown ▸ hit.2.2⟩
  split
  next empty =>
    have passed : Painting g mask goal d here := arrived.skip (same.trans empty)
    exact ⟨⟨settled.kept,settled.above,settled.flags,settled.all,settled.mask,settled.want⟩,
      same.trans empty,shown.symm,iff_of_false Bool.false_ne_true fun hit => (hits.mp hit).1 empty,
      placed,
      painting.mask_eq ▸ ⟨passed.mask_eq,passed.goals,passed.every,passed.inMask,passed.tags,
      passed.zero,passed.last,passed.marked⟩⟩
  rename_i empty
  by_cases full : c = mask
  · rw [if_pos (full.trans maskDown.symm)]
    have free : share mask c = 0 := if_pos (.inr full)
    have passed := handed low.wr.marked (by omega)
    exact ⟨settledDown,bareDown,down.color.trans shown.symm,
      iff_of_false Bool.false_ne_true fun hit => (hits.mp hit).2.1 full,placeDown,
      painting.mask_eq ▸ passed⟩
  rw [if_neg fun equal => full (equal.trans maskDown)]
  have one : share mask c = 1 := if_neg (not_or.mpr ⟨empty,full⟩)
  have passed : Painting g mask goal d (countDown low) := handed _ (by omega)
  have settledLow : Settled (d + 1) w (countDown low) :=
    ⟨settledDown.kept,settledDown.above,settledDown.flags,settledDown.all,settledDown.mask,
      settledDown.want⟩
  have wanting : (c.and low.wr.want = low.wr.want ∨
      low.wr.flags.either = true) ↔ (c.and w.wr.want = w.wr.want ∨ w.wr.flags.either = true) := by
    rw [wantDown,flagsDown]
  by_cases wanted : c.and w.wr.want = w.wr.want ∨ w.wr.flags.either = true
  · rw [if_pos (wanting.mpr wanted)]
    have hit := hits.mpr ⟨empty,full,wanted⟩
    have settledTip := settledLow.trans ((pruneTip_settled g _ d).weaken (le_succ d))
    have bareTip : ((pruneTip g (countDown low) (d + 1)).s.flags (d + 1)).color = clear :=
      ((pruneTip_settled g _ d).above (d + 1) (lt_succ_self d)).trans bareDown
    refine ⟨⟨settledTip.kept,settledTip.above,settledTip.flags,settledTip.all,settledTip.mask,
      settledTip.want⟩,bareTip,(pruneTip_color g (countDown low) (d + 1)).trans
      (down.color.trans shown.symm),iff_of_true rfl hit,
      rfl,?_⟩
    rw [if_pos rfl,painting.mask_eq,← flagsDown]
    exact (passed.prune real).place (d + 1)
  · rw [if_neg (mt wanting.mp wanted)]
    exact ⟨settledLow,bareDown,down.color.trans shown.symm,
      iff_of_false Bool.false_ne_true fun hit => wanted (hits.mp hit).2.2,placeDown,
      painting.mask_eq ▸ passed⟩

structure Stopped (g : Graph) (goal : Bit → Nat → Prop) (d : Nat) (w after : Walk) (k : Nat) :
    Prop where
  none : ∀ x, x ≤ d → ¬ Hits g w.wr goal x
  low : k ≤ d
  bare : ∀ e, k < e → e ≤ d → (after.s.flags e).color = clear
  place : after.wr.d = w.wr.d
  marked : after.wr.marked = if after.wr.all then 1 else 0
  painting : Painting g w.wr.mask goal k after

structure Found (g : Graph) (goal : Bit → Nat → Prop) (d : Nat) (w after : Walk) (x : Nat) :
    Prop where
  hits : Hits g w.wr goal x
  below : x ≤ d
  newest : ∀ y, x < y → y ≤ d → ¬ Hits g w.wr goal y
  bare : ∀ e, x ≤ e → e ≤ d → (after.s.flags e).color = clear
  color : after.wr.color = shade goal x
  place : after.wr.d = x
  painting : Painting g w.wr.mask (pruned g w.wr.flags.tip w.wr.mask x goal) (x - 1) after

theorem Hits.congr {wr wr' : WrData} (hits : Hits g wr goal x) (mask : wr'.mask = wr.mask)
    (want : wr'.want = wr.want) (flags : wr'.flags = wr.flags) : Hits g wr' goal x :=
  ⟨hits.nonzero,hits.real,hits.colored,mask ▸ hits.short,by rw [want,flags]; exact hits.wanted⟩

theorem Painting.unhit (painting : Painting g mask goal d w) (spent : w.wr.marked ≤ 0)
    (below : x ≤ d) : ¬ Hits g w.wr goal x := by
  obtain ⟨listed,_zero,even⟩ := painting.even spent
  intro hits
  -- one colour that is on is as good as all of them
  have some : ∃ b : Bit, b.on (shade goal x) = true := by
    by_contra none
    refine hits.colored (color_ext fun b => ?_)
    rw [Bit.on_clear]
    exact Bool.not_eq_true _ ▸ fun on => none ⟨b,on⟩
  obtain ⟨b,on⟩ := some
  have found := (on_shade goal b x).mp on
  have inside := painting.masked (fun _ => listed) below found
  refine hits.short (color_ext fun b' => Bool.eq_iff_iff.mpr ?_)
  rw [on_shade,painting.mask_eq]
  exact ⟨painting.masked (fun _ => listed) below,
    fun inside' => (even b b' inside inside' x below).mp found⟩

theorem walkFrom_painted (painting : Painting g w.wr.mask goal d w)
    (redIn : D_RED.and w.wr.mask = D_RED) :
    Settled d w (walkFrom g d w).1 ∧
      (((walkFrom g d w).2 = 0 ∧ ∃ k, Stopped g goal d w (walkFrom g d w).1 k) ∨
        Found g goal d w (walkFrom g d w).1 (walkFrom g d w).2) := by
  induction d generalizing w with
  | zero =>
    refine ⟨Settled.refl 0 w,.inl ⟨rfl,0,?_,le_refl 0,fun e above below => ?_, rfl,?_,painting⟩⟩
    · intro x below hits
      exact hits.nonzero (le_zero.mp below)
    · omega
    · exact painting.marked.trans (Int.add_zero _)
  | succ d ih =>
    unfold walkFrom
    split
    next spent =>
      refine ⟨Settled.refl _ w,
        .inl ⟨rfl,d + 1,fun x below => painting.unhit spent below, le_rfl,fun e above below => ?_,
        rfl,?_,painting⟩⟩
      · omega
      · obtain ⟨listed,zero,_even⟩ := painting.even spent
        rw [listed,zero]
        rfl
    -- what the rest of the walk says, below a delta that is not returned
    have passed : ∀ {v : Walk}, Painting g w.wr.mask goal d v → Settled (d + 1) w v →
      (v.s.flags (d + 1)).color = clear →
        v.wr.d = w.wr.d → ¬ Hits g w.wr goal (d + 1) →
        Settled (d + 1) w (walkFrom g d v).1 ∧
          (((walkFrom g d v).2 = 0 ∧ ∃ k, Stopped g goal (d + 1) w (walkFrom g d v).1 k) ∨
            Found g goal (d + 1) w (walkFrom g d v).1 (walkFrom g d v).2) := by
      intro v painted settled bare place missed
      have same := settled.mask
      obtain ⟨rest,outcome⟩ := ih (same ▸ painted) (same ▸ redIn)
      have back : ∀ {y}, Hits g w.wr goal y → Hits g v.wr goal y := fun hits =>
        hits.congr settled.mask settled.want settled.flags
      refine ⟨settled.trans (rest.weaken (le_succ d)),?_⟩
      rcases outcome with ⟨zero,k,stopped⟩ | found
      · refine .inl ⟨zero,k,fun x below => ?_, le_succ_of_le stopped.low,fun e above below => ?_,
          stopped.place.trans place,stopped.marked,same ▸ stopped.painting⟩
        · by_cases top : x = d + 1
          · exact top ▸ missed
          · exact mt back (stopped.none x (by omega))
        · by_cases top : e = d + 1
          · rw [top,rest.above (d + 1) (lt_succ_self d),bare]
          · exact stopped.bare e above (by omega)
      · have low := found.below
        refine .inr ⟨found.hits.congr settled.mask.symm settled.want.symm settled.flags.symm,
          by omega,fun y above below => ?_,fun e above below => ?_, found.color,found.place,?_⟩
        · by_cases top : y = d + 1
          · exact top ▸ missed
          · exact mt back (found.newest y above (by omega))
        · by_cases top : e = d + 1
          · rw [top,rest.above (d + 1) (lt_succ_self d),bare]
          · exact found.bare e above (by omega)
        · rw [← settled.flags,← settled.mask]
          exact found.painting
    split
    next tag =>
      have bare := painting.tags (d + 1) le_rfl tag
      exact passed (painting.skip bare) (Settled.refl _ w) bare rfl fun hits =>
        Bool.false_ne_true (hits.real.symm.trans tag)
    rename_i tag
    have turned := visit_turned painting (Bool.not_eq_true _ ▸ tag) redIn
    have place := turned.place
    have painted := turned.painting
    dsimp only
    split
    next hit =>
      rw [if_pos hit] at place painted
      refine ⟨turned.settled,
        .inr ⟨turned.found.mp hit,le_rfl,fun y above below => ?_, fun e above below => ?_,
        turned.color,place,painted⟩⟩
      · omega
      · rw [show e = d + 1 by omega]
        exact turned.bare
    next hit =>
      rw [if_neg hit] at place painted
      exact passed painted turned.settled turned.bare place (mt turned.found.mpr hit)

end BitKeeper.Range

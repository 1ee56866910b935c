import BitKeeper.Range.Paint

/-!
The loops over `walkrevs` see every selected delta once, from the newest to the oldest, and leave no
colour behind.
-/

namespace BitKeeper.Range

open List Color Dag

def Clean (s : Sccs) : Prop := ∀ e, (s.flags e).color = clear

def Closure (g : Graph) (list : List Nat) (x : Nat) : Prop := ∃ e ∈ list, Reach (eachParent g) e x

variable {g : Graph} {d e : Nat}

theorem Closure.step {dlist : List Nat} (closed : Closure g dlist d)
    (reached : Reach (eachParent g) d e) : Closure g dlist e := by
  obtain ⟨start,inside,path⟩ := closed
  exact ⟨start,inside,path.trans reached⟩

def RealList (g : Graph) (list : List Nat) : Prop := ∀ e ∈ list, e ≠ 0 ∧ e ≤ g.table ∧ g.tag e = false

def topOf (d : Nat) (list : List Nat) : Nat := list.foldl (fun d e => if d < e then e else d) d

theorem le_topOf (d : Nat) (list : List Nat) : d ≤ topOf d list := by
  induction list generalizing d with
  | nil => exact Nat.le_refl d
  | cons e rest ih =>
    have rest := ih (if d < e then e else d)
    change d ≤ topOf (if d < e then e else d) _
    split at rest <;> rename_i cmp
    · rw [if_pos cmp]
      omega
    · rw [if_neg cmp]
      omega

variable {list : List Nat}

theorem mem_le_topOf (inside : e ∈ list) : e ≤ topOf d list := by
  induction list generalizing d with
  | nil => cases inside
  | cons first rest ih =>
    change e ≤ topOf (if d < first then first else d) rest
    rcases mem_cons.mp inside with rfl | later
    · have above := le_topOf (if d < e then e else d) rest
      split at above <;> rename_i cmp
      · rwa [if_pos cmp]
      · rw [if_neg cmp]
        omega
    · exact ih later

theorem topOf_le {n : Nat} (start : d ≤ n) (within : ∀ e ∈ list, e ≤ n) : topOf d list ≤ n := by
  induction list generalizing d with
  | nil => exact start
  | cons first rest ih =>
    refine ih ?_ (fun e inside => within e (mem_cons_of_mem first inside))
    have one := within first mem_cons_self
    dsimp only
    split <;> omega

theorem markDelta_place (w : Walk) (k e : Nat) (c : Color) :
    markDelta ⟨{ w.wr with d := k },w.s⟩ e c =
      ⟨{ (markDelta w e c).wr with d := k },(markDelta w e c).s⟩ := by
  unfold markDelta
  dsimp only
  split <;> rfl

theorem markAll_place (w : Walk) (k : Nat) (c : Color) (list : List Nat) :
    markAll ⟨{ w.wr with d := k },w.s⟩ c list =
      ⟨{ (markAll w c list).wr with d := k },(markAll w c list).s⟩ := by
  induction list generalizing w with
  | nil => rfl
  | cons e rest ih =>
    change markAll (markDelta ⟨{ w.wr with d := k },w.s⟩ e c) c rest = _
    rw [markDelta_place]
    exact ih (markDelta w e c)

theorem markList_eq (w : Walk) (c : Color) (list : List Nat) :
    markList w c list =
      ⟨{ (markAll w c list).wr with d := topOf w.wr.d list },(markAll w c list).s⟩ := by
  induction list generalizing w with
  | nil => rfl
  | cons e rest ih =>
    unfold markList
    rw [markDelta_place,ih,markAll_place]
    rfl

def Upper (g : Graph) : Option (List Nat) → Nat → Prop
  | some list => Closure g list
  | none => fun x => x ≠ 0 ∧ x ≤ g.table ∧ g.tag x = false

def combine : Bool → Bool → Prop → Prop → Prop
  | false, false, red, blue => red ∧ ¬ blue
  | true, false, red, blue => Xor red blue
  | false, true, red, blue => red ∧ blue
  | true, true, red, blue => red ∨ blue

def Selected (g : Graph) (blue : List Nat) (red : Option (List Nat)) (flags : Mode) (x : Nat) :
    Prop :=
  combine flags.either (flags.both || flags.gca) (Upper g red x) (Closure g blue x)

def aim (g : Graph) (blue : List Nat) (red : Option (List Nat)) : Bit → Nat → Prop
  | .red => Upper g red
  | .blue => Closure g blue
  | .green => fun _ => False

def Mode.plainer (flags : Mode) : Mode :=
  if flags.gca then { flags with both := true, tip := true } else flags

private theorem plainer_either (flags : Mode) : flags.plainer.either = flags.either := by
  unfold Mode.plainer
  split <;> rfl

private theorem plainer_both (flags : Mode) : flags.plainer.both = (flags.both || flags.gca) := by
  unfold Mode.plainer
  split
  case isTrue gca => rw [gca,Bool.or_true]
  case isFalse gca => rw [eq_false_of_ne_true gca,Bool.or_false]

theorem plainer_tip (flags : Mode) : flags.plainer.tip = (flags.tip || flags.gca) := by
  unfold Mode.plainer
  split
  case isTrue gca => rw [gca,Bool.or_true]
  case isFalse gca => rw [eq_false_of_ne_true gca,Bool.or_false]

def maskOf (both : Bool) : Color := if both then (D_BLUE.or D_RED).or D_GREEN else D_BLUE.or D_RED

def wantOf (both : Bool) : Color := if both then D_RED.or D_BLUE else D_RED

def untouched (g : Graph) (flags : Mode) (all : Bool) (d : Nat) (s : Sccs) : Walk :=
  ⟨{ flags := flags, d := d, last := g.table, marked := if all then 1 else 0, all := all
     mask := maskOf flags.both
     want := wantOf flags.both, color := clear },{ s with rstop := 0 }⟩

theorem setup_eq (g : Graph) (s : Sccs) (blue : List Nat) (red : Option (List Nat)) (flags : Mode) :
    walkrevs_setup g s blue red flags =
      let top := topOf (topOf (if red.isNone then g.table else 0) (red.getD [])) blue + 1
      let w := markAll (markAll (untouched g flags.plainer red.isNone 0 s) D_RED (red.getD []))
        D_BLUE blue
      ⟨{ w.wr with d := top },w.s⟩ := by
  cases red with
  | none =>
    change (fun w : Walk => (⟨{ w.wr with d := w.wr.d + 1 },w.s⟩ : Walk))
      (markList (untouched g flags.plainer true g.table s) D_BLUE blue) = _
    rw [markList_eq]
    have moved := markAll_place (untouched g flags.plainer true 0 s) g.table D_BLUE blue
    change markAll (untouched g flags.plainer true g.table s) D_BLUE blue = _ at moved
    rw [moved]
    rfl
  | some list =>
    change (fun w : Walk => (⟨{ w.wr with d := w.wr.d + 1 },w.s⟩ : Walk))
      (markList (markList (untouched g flags.plainer false 0 s) D_RED list) D_BLUE blue) = _
    rw [markList_eq,markList_eq,markAll_place]
    rfl

structure Ready (g : Graph) (goal : Bit → Nat → Prop) (flags : Mode) (d : Nat) (w : Walk) : Prop where
  flags_eq : w.wr.flags = flags
  mask : w.wr.mask = maskOf flags.both
  want : w.wr.want = wantOf flags.both
  place : w.wr.d = d + 1
  painting : Painting g (maskOf flags.both) goal d w

variable {s : Sccs}

theorem untouched_painting (flags : Mode) (all : Bool) (d : Nat) {top : Nat}
    (clean : ∀ e, e ≤ top → (s.flags e).color = clear) (low : top ≤ g.table) :
    Painting g (maskOf flags.both)
    (fun b x => b = .red ∧ all = true ∧ x ≠ 0 ∧ x ≤ g.table ∧ g.tag x = false) top
      (untouched g flags all d s) := by
  have bare : ∀ e, e ≤ top → ((untouched g flags all d s).s.flags e).color = clear := clean
  refine ⟨rfl,fun b listed x below => ?_,
    fun every x nonzero real below => ⟨rfl,every,nonzero,by omega,real⟩, fun e below => ?_,
    fun e below _ => bare e below, bare 0 (Nat.zero_le _),
    fun e below colored => absurd (bare e below) colored, ?_⟩
  · constructor
    · intro goal
      have off : all = false := listed goal.1
      rw [off] at goal
      cases goal.2.1
    · rintro ⟨e,within,marked,_reached⟩
      unfold Marks at marked
      rw [bare e within,Bit.on_clear] at marked
      cases marked
  · rw [bare e below]
    rfl
  · have nothing : total (weightIn (maskOf flags.both) (untouched g flags all d s).s) top = 0 := by
      refine (total_congr fun e _ below => ?_).trans (total_nothing top)
      unfold weightIn share
      rw [bare e below,if_pos (.inl rfl)]
    rw [nothing]
    exact (Int.add_zero _).symm

theorem red_in_mask (both : Bool) : D_RED.and (maskOf both) = D_RED := by cases both <;> rfl

theorem blue_in_mask (both : Bool) : D_BLUE.and (maskOf both) = D_BLUE := by cases both <;> rfl

theorem aim_iff (g : Graph) (blue : List Nat) (red : Option (List Nat)) (b : Bit) (x : Nat) :
    (((b = .red ∧ red.isNone = true ∧ x ≠ 0 ∧ x ≤ g.table ∧ g.tag x = false) ∨
        b.on D_RED = true ∧ ∃ e ∈ red.getD [], Reach (eachParent g) e x) ∨
      b.on D_BLUE = true ∧ ∃ e ∈ blue, Reach (eachParent g) e x) ↔ aim g blue red b x := by
  cases b with
  | red =>
    cases red with
    | none => simp [aim,Upper,Bit.on,D_RED,D_BLUE]
    | some list => simp [aim,Upper,Closure,Bit.on,D_RED,D_BLUE]
  | blue => simp [aim,Closure,Bit.on,D_RED,D_BLUE]
  | green => simp [aim,Bit.on,D_RED,D_BLUE]

def startAt (g : Graph) (blue : List Nat) (red : Option (List Nat)) : Nat :=
  topOf (topOf (if red.isNone then g.table else 0) (red.getD [])) blue

theorem red_le_startAt (g : Graph) (blue : List Nat) (red : Option (List Nat))
    (inside : e ∈ red.getD []) : e ≤ startAt g blue red :=
  Nat.le_trans (mem_le_topOf inside) (le_topOf _ _)

variable {blue : List Nat}

theorem blue_le_startAt (g : Graph) (red : Option (List Nat)) (inside : e ∈ blue) :
    e ≤ startAt g blue red :=
  mem_le_topOf inside

variable {red : Option (List Nat)} {x : Nat}

theorem le_startAt (member : Upper g red x ∨ Closure g blue x) : x ≤ startAt g blue red := by
  rcases member with upper | ⟨e,inside,reached⟩
  · cases red with
    | none => exact Nat.le_trans upper.2.1 (Nat.le_trans (le_topOf _ _) (le_topOf _ _))
    | some list =>
      obtain ⟨e,inside,reached⟩ := upper
      exact Nat.le_trans (reached.le (eachParent_descending g))
        (red_le_startAt g blue (some list) inside)
  · exact Nat.le_trans (reached.le (eachParent_descending g)) (blue_le_startAt g red inside)

theorem setup_kept (g : Graph) (s : Sccs) (blue : List Nat) (red : Option (List Nat)) (flags : Mode) :
    Kept { s with rstop := 0 } (walkrevs_setup g s blue red flags).s := by
  rw [setup_eq]
  exact (markAll_kept (untouched g flags.plainer red.isNone 0 s) D_RED (red.getD [])).trans
    (markAll_kept _ D_BLUE blue)

theorem setup_above {flags : Mode} (above : startAt g blue red < e) :
    (walkrevs_setup g s blue red flags).s.flags e = s.flags e := by
  rw [setup_eq]
  rw [markAll_above (fun f inside => blue_le_startAt g red inside) above,
    markAll_above (fun f inside => red_le_startAt g blue red inside) above]
  rfl

theorem realList_getD (realRed : ∀ list, red = some list → RealList g list) :
    RealList g (red.getD []) := by
  cases red with
  | none => exact nofun
  | some list => exact realRed list rfl

section
variable {g : Graph} {s : Sccs} {blue : List Nat} {red : Option (List Nat)}
  (realBlue : RealList g blue)
  (realRed : ∀ list, red = some list → RealList g list)
include realBlue realRed

theorem startAt_le : startAt g blue red ≤ g.table := by
  have start : (if red.isNone then g.table else 0) ≤ g.table := by
    split
    · exact le_rfl
    · exact Nat.zero_le _
  exact topOf_le (topOf_le start fun e inside => (realList_getD realRed e inside).2.1) fun e
    inside => (realBlue e inside).2.1

theorem setup_ready (flags : Mode) (clean : ∀ e, e ≤ startAt g blue red → (s.flags e).color = clear) :
    Ready g (aim g blue red) flags.plainer (startAt g blue red)
    (walkrevs_setup g s blue red flags) := by
  have listed := realList_getD realRed
  have low := startAt_le realBlue realRed
  have first := (untouched_painting flags.plainer red.isNone 0 clean low).mark
    (red_in_mask flags.plainer.both) fun e inside =>
      ⟨(listed e inside).1,red_le_startAt g blue red inside,(listed e inside).2.2⟩
  have second := first.mark (blue_in_mask flags.plainer.both)
    fun e inside => ⟨(realBlue e inside).1,blue_le_startAt g red inside,(realBlue e inside).2.2⟩
  have steady := (markAll_steady (untouched g flags.plainer red.isNone 0 s) D_RED (red.getD [])).trans
    (markAll_steady _ D_BLUE blue)
  rw [setup_eq]
  refine ⟨steady.flags,steady.mask,steady.want,rfl,?_⟩
  refine (second.place (startAt g blue red + 1)).congr (fun b _ x _ => aim_iff g blue red b x)
    fun all x nonzero real below => ?_
  have none : red.isNone = true := steady.all.symm.trans all
  exact (aim_iff g blue red .red x).mp (.inl (.inl ⟨rfl,none,nonzero,by omega,real⟩))

end

private theorem shown_iff (either both red blue : Bool) :
    ((⟨red,blue,false⟩ : Color) ≠ clear ∧ (⟨red,blue,false⟩ : Color) ≠ maskOf both ∧
      ((⟨red,blue,false⟩ : Color).and (wantOf both) = wantOf both ∨ either = true)) ↔
      combine either both (red = true) (blue = true) := by
  cases either <;> cases both <;> cases red <;> cases blue <;>
    simp [combine,maskOf,wantOf,Color.and,Color.or,clear,D_RED,D_BLUE,D_GREEN,Xor]

theorem combine_congr {either both : Bool} {p p' q q' : Prop} (left : p ↔ p') (right : q ↔ q') :
    combine either both p q ↔ combine either both p' q' := by
  rw [left,right]

theorem combine_or {either both : Bool} {p q : Prop} (chosen : combine either both p q) : p ∨ q := by
  cases either <;> cases both
  · exact .inl chosen.1
  · exact .inl chosen.1
  · exact chosen.elim (fun one => .inl one.1) fun one => .inr one.1
  · exact chosen

section
variable {g : Graph} {blue : List Nat} {red : Option (List Nat)} {flags : Mode}

theorem Closure.real (reals : RealList g list) (member : Closure g list x) :
    x ≠ 0 ∧ x ≤ g.table ∧ g.tag x = false := by
  obtain ⟨e,inside,reached⟩ := member
  obtain ⟨nonzero,bound,real⟩ := reals e inside
  exact ⟨reached.ne_zero nonzero,Nat.le_trans (reached.le (eachParent_descending g)) bound,
    reached.invariant real fun _ _ realE edge _ => eachParent_real realE edge⟩

theorem Upper.real (realRed : ∀ list, red = some list → RealList g list) (member : Upper g red x) :
    x ≠ 0 ∧ x ≤ g.table ∧ g.tag x = false := by
  cases red with
  | none => exact member
  | some list => exact Closure.real (realRed list rfl) member

theorem Selected.real (realBlue : RealList g blue)
    (realRed : ∀ list, red = some list → RealList g list) (selected : Selected g blue red flags x) :
    x ≠ 0 ∧ x ≤ g.table ∧ g.tag x = false :=
  (combine_or selected).elim (Upper.real realRed) (Closure.real realBlue)

theorem hits_selected {wr : WrData} {goal : Bit → Nat → Prop} (flagsEq : wr.flags = flags.plainer)
    (mask : wr.mask = maskOf flags.plainer.both) (want : wr.want = wantOf flags.plainer.both)
    (same : ∀ b, goal b x ↔ aim g blue red b x) :
    Hits g wr goal x ↔ (x ≠ 0 ∧ g.tag x = false) ∧ Selected g blue red flags x := by
  have bits : shade goal x = ⟨(shade goal x).red,(shade goal x).blue,false⟩ := by
    refine color_ext fun b => ?_
    cases b with
    | red => rfl
    | blue => rfl
    | green => exact eq_false_of_ne_true fun on => (same .green).mp ((on_shade goal .green x).mp on)
  have upper : (shade goal x).red = true ↔ Upper g red x := (on_shade goal .red x).trans (same .red)
  have lower : (shade goal x).blue = true ↔ Closure g blue x :=
    (on_shade goal .blue x).trans (same .blue)
  have chosen : (shade goal x ≠ clear ∧ shade goal x ≠ wr.mask ∧
      ((shade goal x).and wr.want = wr.want ∨ wr.flags.either = true)) ↔
        Selected g blue red flags x := by
    unfold Selected
    rw [mask,want,flagsEq,← plainer_both,bits,plainer_either]
    exact (shown_iff _ _ _ _).trans (combine_congr upper lower)
  constructor
  · intro hits
    exact ⟨⟨hits.nonzero,hits.real⟩,chosen.mp ⟨hits.colored,hits.short,hits.wanted⟩⟩
  · intro found
    obtain ⟨colored,short,wanted⟩ := chosen.mpr found.2
    exact ⟨found.1.1,found.1.2,colored,short,wanted⟩

def Chosen (g : Graph) (blue : List Nat) (red : Option (List Nat)) (flags : Mode) (x : Nat) : Prop :=
  (x ≠ 0 ∧ g.tag x = false) ∧ Selected g blue red flags x

theorem Ready.hits {w : Walk} (ready : Ready g (aim g blue red) flags.plainer d w) :
    Hits g w.wr (aim g blue red) x ↔ Chosen g blue red flags x :=
  hits_selected ready.flags_eq ready.mask ready.want fun _ => Iff.rfl

end

section
variable {g : Graph} {goal : Bit → Nat → Prop} {flags : Mode} {d x : Nat} {w after : Walk}

theorem Ready.next (ready : Ready g goal flags d w) (noTip : flags.tip = false)
    (settled : Settled d w after) (found : Found g goal d w after x) :
    Ready g goal flags (x - 1) after := by
  have nonzero := found.hits.nonzero
  have painting := found.painting
  rw [ready.flags_eq,ready.mask] at painting
  have place := found.place
  have same : ∀ b z, pruned g flags.tip (maskOf flags.both) x goal b z ↔ goal b z := by
    intro b z
    refine ⟨fun either => either.resolve_right fun both => ?_, .inl⟩
    rw [noTip] at both
    exact Bool.false_ne_true both.1
  exact ⟨settled.flags.trans ready.flags_eq,settled.mask.trans ready.mask,
    settled.want.trans ready.want,by omega,painting.congr (fun b _ z _ => same b z) fun all z
    nonzeroZ real low => (same .red z).mp (painting.every all z nonzeroZ real low)⟩

theorem Ready.call (ready : Ready g goal flags d w) :
    Settled d w (walkrevs g w).1 ∧
      (((walkrevs g w).2 = 0 ∧ ∃ k, Stopped g goal d w (walkrevs g w).1 k) ∨
      Found g goal d w (walkrevs g w).1 (walkrevs g w).2) := by
  have painted := ready.painting
  rw [← ready.mask] at painted
  unfold walkrevs
  rw [show w.wr.d - 1 = d by rw [ready.place,Nat.add_sub_cancel]]
  exact walkFrom_painted painted (ready.mask ▸ red_in_mask _)

end

theorem doneFrom_kept (last : Nat) (c : Color) (d : Nat) (s : Sccs) :
    Kept s (doneFrom last c d s) := by
  fun_induction doneFrom last c d s with
  | case1 | case2 => exact Kept.refl _
  | case3 d s _ ih => exact (Kept.clearColor s (d + 1) c).trans ih

variable {c : Color}

private theorem doneFrom_color {last : Nat} (e : Nat) :
    ((doneFrom last c d s).flags e).color =
      if e ≠ 0 ∧ last ≤ e ∧ e ≤ d then (s.flags e).color.minus c else (s.flags e).color := by
  induction d generalizing s with
  | zero =>
    have outside : ¬ (e ≠ 0 ∧ last ≤ e ∧ e ≤ 0) := by omega
    rw [if_neg outside]
    rfl
  | succ d ih =>
    unfold doneFrom
    by_cases short : d + 1 < last
    · have outside : ¬ (e ≠ 0 ∧ last ≤ e ∧ e ≤ d + 1) := by omega
      rw [if_pos short,if_neg outside]
    rw [if_neg short,ih,clearColor_color]
    by_cases top : e = d + 1
    · have notLower : ¬ (e ≠ 0 ∧ last ≤ e ∧ e ≤ d) := by omega
      have inside : e ≠ 0 ∧ last ≤ e ∧ e ≤ d + 1 := by omega
      rw [if_neg notLower,if_pos top,if_pos inside]
    · have same : (e ≠ 0 ∧ last ≤ e ∧ e ≤ d) ↔ (e ≠ 0 ∧ last ≤ e ∧ e ≤ d + 1) := by omega
      rw [if_neg top]
      simp only [same]

theorem doneFrom_above {last : Nat} (above : d < e) : (doneFrom last c d s).flags e = s.flags e := by
  fun_induction doneFrom last c d s with
  | case1 | case2 => rfl
  | case3 d s _ ih =>
    rw [ih (by omega)]
    unfold Sccs.clearColor
    rw [update_flags,if_neg (by omega)]

private theorem minus_of_and {mask : Color} (within : c.and mask = c) : c.minus mask = clear := by
  refine color_ext fun b => ?_
  have one := congrArg b.on within
  rw [Bit.on_and] at one
  rw [Bit.on_minus,Bit.on_clear,← one,Bool.and_assoc,Bool.and_not_self,Bool.and_false]

variable {w : Walk}

theorem Stopped.cleared {goal : Bit → Nat → Prop} {k : Nat} {after : Walk}
    (stopped : Stopped g goal d w after k) (place : w.wr.d = d + 1) (below : e ≤ d) :
    ((walkrevs_done after).flags e).color = clear := by
  unfold walkrevs_done
  rw [doneFrom_color,stopped.painting.mask_eq,stopped.place,place]
  by_cases uncolored : (after.s.flags e).color = clear
  · rw [uncolored]
    split <;> rfl
  have low : e ≤ k := by
    by_contra high
    exact uncolored (stopped.bare e (by omega) below)
  have nonzero : e ≠ 0 := by
    rintro rfl
    exact uncolored stopped.painting.zero
  rw [if_pos ⟨nonzero,stopped.painting.last e low uncolored,by omega⟩]
  exact minus_of_and (stopped.painting.inMask e low)

theorem Stopped.clean {goal : Bit → Nat → Prop} {k : Nat} {after : Walk}
    (stopped : Stopped g goal d w after k) (settled : Settled d w after) (place : w.wr.d = d + 1)
    (bare : ∀ e, d < e → (w.s.flags e).color = clear) :
    Clean (walkrevs_done after) := by
  intro e
  by_cases above : d < e
  · have same : (walkrevs_done after).flags e = after.s.flags e := doneFrom_above
      (by rw [stopped.place,place]; omega)
    rw [same,settled.above e above,bare e above]
  · exact stopped.cleared place (by omega)

structure Lists (member : Nat → Prop) (d : Nat) (list : List Nat) : Prop where
  sorted : list.Pairwise fun x y => y < x
  mem : ∀ x, x ∈ list ↔ x ≤ d ∧ member x

theorem Lists.cons {member : Nat → Prop} (rest : Lists member (x - 1) list) (nonzero : x ≠ 0)
    (inside : member x) (below : x ≤ d) (newest : ∀ y, x < y → y ≤ d → ¬ member y) :
    Lists member d (x :: list) := by
  refine ⟨List.Pairwise.cons (fun y later => ?_) rest.sorted, fun y => ?_⟩
  · have low := ((rest.mem y).mp later).1
    omega
  rw [mem_cons,rest.mem]
  constructor
  · rintro (rfl | later)
    · exact ⟨below,inside⟩
    · exact ⟨by omega,later.2⟩
  · intro found
    by_cases above : x < y
    · exact absurd found.2 (newest y above found.1)
    · by_cases here : y = x
      · exact .inl here
      · exact .inr ⟨by omega,found.2⟩

structure Marking (member : Nat → Prop) (d : Nat) (s after : Sccs) : Prop where
  set : ∀ e, (after.flags e).set = true ↔ (s.flags e).set = true ∨ (e ≤ d ∧ member e)
  gone : ∀ e, (after.flags e).gone = (s.flags e).gone
  rstart : ∀ e, e ≤ d → member e → after.rstart ≠ 0 ∧ after.rstart ≤ e
  rstop : ∀ e, e ≤ d → member e → s.rstop = 0 → e ≤ after.rstop
  rest : s.rstop ≠ 0 → after.rstop = s.rstop
  still : (∀ e, e ≤ d → ¬ member e) → after.rstart = s.rstart ∧ after.rstop = s.rstop

def marked (s : Sccs) (d : Nat) : Sccs :=
  let s := (walkrevs_setFlags D_SET s d).1
  { s with rstop := if s.rstop = 0 then d else s.rstop, rstart := d }

theorem marked_color (s : Sccs) (d e : Nat) : ((marked s d).flags e).color = (s.flags e).color := by
  change ((s.update d fun f => f.or D_SET).flags e).color = _
  rw [update_flags]
  split
  · simp [Flags.or,D_SET,Flags.clear,Color.or,clear]
  · rfl

private theorem marked_set (s : Sccs) (d e : Nat) :
    ((marked s d).flags e).set = true ↔ (s.flags e).set = true ∨ e = d := by
  change ((s.update d fun f => f.or D_SET).flags e).set = true ↔ _
  rw [update_flags]
  split
  next same =>
    simp [Flags.or,D_SET,same]
  next same =>
    simp only [same,or_false]

theorem marked_gone (s : Sccs) (d e : Nat) : ((marked s d).flags e).gone = (s.flags e).gone := by
  change ((s.update d fun f => f.or D_SET).flags e).gone = _
  rw [update_flags]
  split
  · simp [Flags.or,D_SET,Flags.clear]
  · rfl

theorem rangeLoop_turn {fuel : Nat} (found : (walkrevs g w).2 ≠ 0)
    (plain : (walkrevs g w).1.wr.flags = Mode.plain) :
    rangeLoop g (some (walkrevs_setFlags D_SET)) (fuel + 1) w =
      rangeLoop g (some (walkrevs_setFlags D_SET)) fuel
        ⟨(walkrevs g w).1.wr,marked (walkrevs g w).1.s (walkrevs g w).2⟩ := by
  conv_lhs => unfold rangeLoop
  dsimp only
  rw [if_neg found,plain]
  rfl

theorem Marking.extend {member : Nat → Prop} {t after : Sccs}
    (marking : Marking member (x - 1) (marked t x) after) (kept : Kept s t) (nonzero : x ≠ 0)
    (found : member x) (lower : x ≤ d) (newest : ∀ e, x < e → e ≤ d → ¬ member e) :
    Marking member d s after := by
  have stop : (marked t x).rstop = if s.rstop = 0 then x else s.rstop := by
    rw [← kept.rstop]
    rfl
  have stopSet : (marked t x).rstop ≠ 0 := by
    rw [stop]
    split <;> assumption
  -- a member is the one that was returned or an older one
  have older : ∀ e, e ≤ d → member e → e = x ∨ e ≤ x - 1 := by
    intro e below inside
    by_cases above : x < e
    · exact absurd inside (newest e above below)
    · omega
  refine ⟨fun e => ?_, fun e => ?_, fun e below inside => ?_, fun e below inside unset => ?_,
    fun set => ?_, fun nothing => ?_⟩
  · rw [marking.set e,marked_set,kept.set e,or_assoc]
    refine or_congr Iff.rfl ⟨?_,?_⟩
    · rintro (rfl | rest)
      · exact ⟨lower,found⟩
      · exact ⟨by omega,rest.2⟩
    · intro inside
      exact (older e inside.1 inside.2).imp id fun below => ⟨below,inside.2⟩
  · rw [marking.gone e,marked_gone,kept.gone e]
  · rcases older e below inside with rfl | below
    · by_cases last : ∀ f, f ≤ e - 1 → ¬ member f
      · exact (marking.still last).1 ▸ ⟨nonzero,Nat.le_refl e⟩
      · push Not at last
        obtain ⟨f,belowF,insideF⟩ := last
        have start := marking.rstart f belowF insideF
        exact ⟨start.1,by omega⟩
    · exact marking.rstart e below inside
  · rw [marking.rest stopSet,stop,if_pos unset]
    have order := older e below inside
    omega
  · rw [marking.rest stopSet,stop,if_neg set]
  · exact absurd found (nothing x lower)

theorem rangeLoop_spec (fuel : Nat) (ready : Ready g (aim g blue red) Mode.plain.plainer d w)
    (bare : ∀ e, d < e → (w.s.flags e).color = clear) (enough : d < fuel) :
    ∃ after, rangeLoop g (some (walkrevs_setFlags D_SET)) fuel w = (after, 0) ∧
      Marking (Chosen g blue red Mode.plain) d w.s after.s ∧
        after.wr.marked = (if after.wr.all then 1 else 0) ∧
      Clean (walkrevs_done after) := by
  induction fuel generalizing d w with
  | zero => omega
  | succ fuel ih =>
    obtain ⟨settled,outcome⟩ := ready.call
    have kept := settled.kept
    rcases outcome with ⟨zero,k,stopped⟩ | found
    · have none : ∀ e, e ≤ d → ¬ Chosen g blue red Mode.plain e := fun e below inside =>
        stopped.none e below (ready.hits.mpr inside)
      refine ⟨(walkrevs g w).1,?_,
        ⟨fun e => ?_, kept.gone,fun e below inside => absurd inside (none e below),
        fun e below inside => absurd inside (none e below), fun _ => kept.rstop,
        fun _ => ⟨kept.rstart,kept.rstop⟩⟩,
        stopped.marked,stopped.clean settled ready.place bare⟩
      · exact if_pos zero
      · rw [kept.set e]
        exact ⟨.inl,fun either => either.resolve_right fun new => none e new.1 new.2⟩
    · have next := ready.next rfl settled found
      have lower := found.below
      have nonzero := found.hits.nonzero
      rw [rangeLoop_turn nonzero next.flags_eq]
      obtain ⟨after,ran,marking,count,clean⟩ := ih
        (w := ⟨(walkrevs g w).1.wr,marked (walkrevs g w).1.s (walkrevs g w).2⟩)
        ⟨next.flags_eq,next.mask,next.want,next.place,
          next.painting.recolor fun e _ => marked_color _ _ e⟩
        (fun e above => by
          rw [marked_color]
          by_cases high : d < e
          · exact (settled.above e high).trans (bare e high)
          · exact found.bare e (by omega) (by omega)) (by omega)
      exact ⟨after,ran,marking.extend kept nonzero (ready.hits.mp found.hits) lower
        fun e above below inside => found.newest e above below (ready.hits.mpr inside), count,clean⟩

theorem range_walkrevs_spec (clean : Clean s) (realBlue : RealList g blue) :
    ∃ after, range_walkrevs g s blue none Mode.plain (some (walkrevs_setFlags D_SET)) =
      some (after, 0) ∧ Clean after ∧
      Marking (Wanted g (fun _ => True) (Closure g blue)) g.table { s with rstop := 0 } after := by
  have noRed : ∀ list, (none : Option (List Nat)) = some list → RealList g list :=
    fun _ absent => absurd absent (Option.some_ne_none _).symm
  have low := startAt_le realBlue noRed
  have high : g.table ≤ startAt g blue none := Nat.le_trans (le_topOf _ _) (le_topOf _ _)
  have chosen : ∀ e, e ≤ g.table →
      (Chosen g blue none Mode.plain e ↔ Wanted g (fun _ => True) (Closure g blue) e) := by
    intro e below
    exact ⟨fun found => ⟨found.1.1,found.1.2,trivial,found.2.2⟩,
      fun wanted => ⟨⟨wanted.1,wanted.2.1⟩,⟨wanted.1,below,wanted.2.1⟩,wanted.2.2.2⟩⟩
  have kept := setup_kept g s blue none Mode.plain
  obtain ⟨after,ran,marking,counted,cleanDone⟩ := rangeLoop_spec (g.table + 2)
    (setup_ready realBlue noRed Mode.plain fun e _ => clean e)
      (fun e above => by rw [setup_above above]; exact clean e) (by omega)
  rw [Nat.le_antisymm low high] at marking
  refine ⟨walkrevs_done after,?_,cleanDone,?_⟩
  · unfold range_walkrevs
    rw [ran]
    rw [if_pos (.inr counted)]
  have done : Kept after.s (walkrevs_done after) := doneFrom_kept _ _ _ _
  refine ⟨fun e => ?_, fun e => ?_, fun e below wanted => ?_, fun e below wanted unset => ?_,
    (absurd rfl ·), fun nothing => ?_⟩
  · rw [← kept.set e,done.set e,marking.set e]
    exact or_congr_right (and_congr_right fun below => chosen e below)
  · exact (done.gone e).trans ((marking.gone e).trans (kept.gone e))
  · exact done.rstart.symm ▸ marking.rstart e below ((chosen e below).mpr wanted)
  · exact done.rstop.symm ▸ marking.rstop e below ((chosen e below).mpr wanted)
      (kept.rstop.trans unset)
  · have still := marking.still fun e below inside => nothing e below ((chosen e below).mp inside)
    exact ⟨done.rstart.trans (still.1.trans kept.rstart),done.rstop.trans (still.2.trans kept.rstop)⟩

end BitKeeper.Range

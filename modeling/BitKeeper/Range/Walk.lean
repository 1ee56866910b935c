import BitKeeper.Range.Model

/-!
What the walk does to the flags: colours are put on lists of deltas and move
from a delta to its parents, and nothing else is touched.
-/

namespace BitKeeper.Range

open List Function Color Dag

variable {g : Graph} {d e : Nat}

theorem mem_eachParent (edge : e ∈ eachParent g d) :
    d ≠ 0 ∧ e ≠ 0 ∧ (e = g.parent d ∨ e = g.merge d) := by
  unfold eachParent at edge
  split at edge
  · cases edge
  rename_i orphan
  have real : d ≠ 0 := fun zero => orphan (.inl zero)
  have parented : g.parent d ≠ 0 := fun zero => orphan (.inr zero)
  split at edge
  · have same := mem_singleton.mp edge
    exact ⟨real,same ▸ parented,.inl same⟩
  next single =>
    rcases mem_cons.mp edge with first | second
    · exact ⟨real,first ▸ parented,.inl first⟩
    · have same := mem_singleton.mp second
      exact ⟨real,same ▸ single,.inr same⟩

theorem eachParent_descending (g : Graph) : Descending (eachParent g) := by
  intro d e edge _real
  obtain ⟨real,_,found⟩ := mem_eachParent edge
  rcases found with rfl | rfl
  · exact g.parent_lt d real
  · exact g.merge_lt d real

instance (d x : Nat) : Decidable (Reach (eachParent g) d x) :=
  decidable_of_iff _ (reaches_iff (eachParent_descending g) (Nat.le_refl d))

theorem eachParent_real (real : g.tag d = false) (edge : e ∈ eachParent g d) : g.tag e = false := by
  obtain ⟨_,found,which⟩ := mem_eachParent edge
  rcases which with rfl | rfl
  · exact g.parent_real d real found
  · exact g.merge_real d real found

theorem mem_eachParent_parent (nonzero : d ≠ 0) (parent : g.parent d ≠ 0) :
    g.parent d ∈ eachParent g d := by
  unfold eachParent
  rw [if_neg (by omega)]
  split
  · exact mem_singleton.mpr rfl
  · exact mem_cons_self

structure Kept (s t : Sccs) : Prop where
  set : ∀ e, (t.flags e).set = (s.flags e).set
  gone : ∀ e, (t.flags e).gone = (s.flags e).gone
  rstart : t.rstart = s.rstart
  rstop : t.rstop = s.rstop
  stateSet : t.stateSet = s.stateSet
  hasgone : t.hasgone = s.hasgone

theorem Kept.refl (s : Sccs) : Kept s s := ⟨fun _ => rfl, fun _ => rfl, rfl,rfl,rfl,rfl⟩

theorem Kept.trans {s t u : Sccs} (first : Kept s t) (second : Kept t u) : Kept s u where
  set e := (second.set e).trans (first.set e)
  gone e := (second.gone e).trans (first.gone e)
  rstart := second.rstart.trans first.rstart
  rstop := second.rstop.trans first.rstop
  stateSet := second.stateSet.trans first.stateSet
  hasgone := second.hasgone.trans first.hasgone

theorem update_flags (s : Sccs) (d e : Nat) (f : Flags → Flags) :
    (s.update d f).flags e = if e = d then f (s.flags e) else s.flags e := by
  by_cases same : e = d
  · subst same
    rw [if_pos rfl]
    exact update_self ..
  · rw [if_neg same]
    exact update_of_ne same ..

theorem orColor_color (s : Sccs) (d e : Nat) (c : Color) :
    ((s.orColor d c).flags e).color = if e = d then (s.flags e).color.or c else (s.flags e).color :=
  by
  unfold Sccs.orColor
  rw [update_flags]
  split <;> rfl

theorem clearColor_color (s : Sccs) (d e : Nat) (c : Color) :
    ((s.clearColor d c).flags e).color =
      if e = d then (s.flags e).color.minus c else (s.flags e).color := by
  unfold Sccs.clearColor
  rw [update_flags]
  split <;> rfl

theorem Kept.orColor (s : Sccs) (d : Nat) (c : Color) : Kept s (s.orColor d c) := by
  refine ⟨fun e => ?_, fun e => ?_, rfl,rfl,rfl,rfl⟩
  all_goals
    unfold Sccs.orColor
    rw [update_flags]
    split <;> rfl

theorem Kept.clearColor (s : Sccs) (d : Nat) (c : Color) : Kept s (s.clearColor d c) := by
  refine ⟨fun e => ?_, fun e => ?_, rfl,rfl,rfl,rfl⟩
  all_goals
    unfold Sccs.clearColor
    rw [update_flags]
    split <;> rfl

variable {c : Color}

theorem or_clear_of_minus {before color mask : Color} (covered : before = color.and mask)
    (nothing : c.minus before = clear) : color.or c = color := by
  cases c; cases color; cases mask
  simp only [Color.minus,Color.and,Color.or,clear,Color.mk.injEq] at *
  simp_all

theorem markDelta_s (w : Walk) (d : Nat) (c : Color) : (markDelta w d c).s = w.s.orColor d c := by
  unfold markDelta
  dsimp only
  split
  case isTrue nothing =>
      have same := or_clear_of_minus rfl nothing
      unfold Sccs.orColor Sccs.update
      dsimp only
      rw [same,update_eq_self]
  case isFalse => rfl

structure Steady (a b : WrData) : Prop where
  flags : b.flags = a.flags
  d : b.d = a.d
  all : b.all = a.all
  mask : b.mask = a.mask
  want : b.want = a.want
  color : b.color = a.color

theorem markDelta_steady (w : Walk) (d : Nat) (c : Color) : Steady w.wr (markDelta w d c).wr := by
  unfold markDelta
  dsimp only
  split
  · exact ⟨rfl,rfl,rfl,rfl,rfl,rfl⟩
  · exact ⟨rfl,rfl,rfl,rfl,rfl,rfl⟩

def markAll (w : Walk) (c : Color) (ds : List Nat) : Walk := ds.foldl (fun w e => markDelta w e c) w

theorem Steady.trans {a b c : WrData} (first : Steady a b) (second : Steady b c) : Steady a c where
  flags := second.flags.trans first.flags
  d := second.d.trans first.d
  all := second.all.trans first.all
  mask := second.mask.trans first.mask
  want := second.want.trans first.want
  color := second.color.trans first.color

theorem markAll_steady (w : Walk) (c : Color) (ds : List Nat) : Steady w.wr (markAll w c ds).wr := by
  induction ds generalizing w with
  | nil => exact ⟨rfl,rfl,rfl,rfl,rfl,rfl⟩
  | cons d rest ih => exact (markDelta_steady w d c).trans (ih (markDelta w d c))

theorem markAll_kept (w : Walk) (c : Color) (ds : List Nat) : Kept w.s (markAll w c ds).s := by
  induction ds generalizing w with
  | nil => exact Kept.refl w.s
  | cons d rest ih =>
    have first := Kept.orColor w.s d c
    rw [← markDelta_s] at first
    exact first.trans (ih (markDelta w d c))

private theorem or_idem (a b : Color) : (a.or b).or b = a.or b := by
  cases a
  cases b
  simp [Color.or]

theorem markAll_color (w : Walk) (c : Color) (ds : List Nat) (e : Nat) :
    ((markAll w c ds).s.flags e).color =
      if e ∈ ds then (w.s.flags e).color.or c else (w.s.flags e).color := by
  induction ds generalizing w with
  | nil => rw [if_neg not_mem_nil]; rfl
  | cons d rest ih =>
    change ((markAll (markDelta w d c) c rest).s.flags e).color = _
    rw [ih,markDelta_s,orColor_color]
    by_cases same : e = d
    · subst same
      rw [if_pos rfl,or_idem,if_pos mem_cons_self]
      exact ite_self _
    · rw [if_neg same]
      simp only [mem_cons,same,false_or]

private theorem minus_self (c : Color) : c.minus c = clear := by
  cases c
  simp [Color.minus,clear]

theorem handDown_steady (g : Graph) (w : Walk) (d : Nat) (c : Color) :
    Steady { w.wr with color := c } (handDown g w d c).wr :=
  markAll_steady ⟨{ w.wr with color := c },w.s.clearColor d c⟩ c _

theorem handDown_kept (g : Graph) (w : Walk) (d : Nat) (c : Color) :
    Kept w.s (handDown g w d c).s :=
  (Kept.clearColor w.s d c).trans (markAll_kept ⟨{ w.wr with color := c },w.s.clearColor d c⟩ c _)

variable {w : Walk}

theorem handDown_color (e : Nat) (own : c = (w.s.flags (d + 1)).color) :
    ((handDown g w (d + 1) c).s.flags e).color = if e = d + 1 then clear
      else if e ∈ eachParent g (d + 1) then (w.s.flags e).color.or c else (w.s.flags e).color := by
  change ((markAll ⟨{ w.wr with color := c },w.s.clearColor (d + 1) c⟩ c
    (eachParent g (d + 1))).s.flags e).color = _
  rw [markAll_color,clearColor_color]
  by_cases top : e = d + 1
  · subst top
    have apart : d + 1 ∉ eachParent g (d + 1) := by
      intro edge
      have below := eachParent_descending g _ _ edge (by omega)
      omega
    rw [if_neg apart,if_pos rfl,if_pos rfl,own,minus_self]
  · rw [if_neg top,if_neg top]

theorem handDown_bit (own : c = (w.s.flags (d + 1)).color) {bit : Color → Bool}
    (spread : ∀ a b : Color, bit (a.or b) = (bit a || bit b)) (e : Nat) (below : e ≤ d) :
    bit ((handDown g w (d + 1) c).s.flags e).color = true ↔ bit (w.s.flags e).color = true ∨
      (bit (w.s.flags (d + 1)).color = true ∧ e ∈ eachParent g (d + 1) ∧ e ≠ 0) := by
  rw [handDown_color e own,if_neg (by omega),← own]
  by_cases edge : e ∈ eachParent g (d + 1)
  · have nonzero := (mem_eachParent edge).2.1
    rw [if_pos edge,spread,Bool.or_eq_true]
    simp only [edge,nonzero,ne_eq,not_false_eq_true,and_true]
  · rw [if_neg edge]
    simp only [edge,false_and,and_false,or_false]

theorem markAll_above {ds : List Nat} {k : Nat} (below : ∀ e ∈ ds, e ≤ k) (above : k < e) :
    (markAll w c ds).s.flags e = w.s.flags e := by
  induction ds generalizing w with
  | nil => rfl
  | cons d rest ih =>
    have apart : e ≠ d := by
      have low := below d mem_cons_self
      omega
    change (markAll (markDelta w d c) c rest).s.flags e = _
    rw [ih fun f inside => below f (mem_cons_of_mem d inside), markDelta_s]
    unfold Sccs.orColor
    rw [update_flags,if_neg apart]

theorem handDown_above (w : Walk) (c : Color) (above : d + 1 < e) :
    (handDown g w (d + 1) c).s.flags e = w.s.flags e := by
  have below : ∀ f ∈ eachParent g (d + 1), f ≤ d + 1 := fun f edge =>
    Nat.le_of_lt (eachParent_descending g _ _ edge (mem_eachParent edge).2.1)
  have apart : e ≠ d + 1 := by omega
  change (markAll ⟨{ w.wr with color := c },w.s.clearColor (d + 1) c⟩ c _).s.flags e = _
  rw [markAll_above below above]
  unfold Sccs.clearColor
  rw [update_flags,if_neg apart]

theorem markAll_clear (w : Walk) (ds : List Nat) : markAll w clear ds = w := by
  induction ds with
  | nil => rfl
  | cons e rest ih =>
    have one : markDelta w e clear = w := by
      unfold markDelta
      exact if_pos (by simp [Color.minus,clear])
    change markAll (markDelta w e clear) clear rest = w
    rw [one,ih]

def Wanted (g : Graph) (red blue : Nat → Prop) (x : Nat) : Prop :=
  x ≠ 0 ∧ g.tag x = false ∧ red x ∧ ¬ blue x

theorem arrive_kept (w : Walk) (d : Nat) : Kept w.s (arrive w d).s := by
  unfold arrive
  split
  · rw [markDelta_s]
    exact Kept.orColor w.s d D_RED
  · exact Kept.refl w.s

theorem prune_kept (g : Graph) (wr : WrData) (s : Sccs) (d : Nat) :
    Kept s (walkrevs_prune g ⟨wr,s⟩ d).s :=
  markAll_kept ⟨wr,s⟩ wr.mask (eachParent g d)

theorem visit_kept (g : Graph) (w : Walk) (d : Nat) : Kept w.s (visit g w d).1.s := by
  have arrived := arrive_kept w d
  unfold visit
  dsimp only
  generalize ((arrive w d).s.flags d).color.and (arrive w d).wr.mask = c
  have handed := arrived.trans (handDown_kept g (arrive w d) d c)
  split
  · exact arrived
  split
  · exact handed
  split
  · split
    · exact handed.trans (prune_kept g _ _ d)
    · exact handed
  · exact handed

theorem walkFrom_kept (g : Graph) (d : Nat) (w : Walk) : Kept w.s (walkFrom g d w).1.s := by
  fun_induction walkFrom g d w with
  | case1 | case2 => exact Kept.refl _
  | case3 _ _ _ _ ih => exact ih
  | case4 => exact visit_kept ..
  | case5 _ _ _ _ _ _ ih => exact (visit_kept ..).trans ih

end BitKeeper.Range

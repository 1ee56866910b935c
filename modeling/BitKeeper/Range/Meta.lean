import BitKeeper.Range.Collect

/-!
`range_markMeta` where every real delta is an ancestor of the set or in it: the second loop decides
for every tag delta, oldest first, whether what it hangs on is in the set.
-/

namespace BitKeeper.Range

open Color Dag Bool

def Red (s : Sccs) (e : Nat) : Prop := (s.flags e).color.red = true

structure Inside (g : Graph) (s : Sccs) (d : Nat) (r : Region) : Prop where
  kept : Kept s r.s
  real : ∀ e, (s.flags e).set = true → g.tag e = false
  lower : r.lower = 0
  upper : r.upper = 0
  blue : ∀ e, (r.s.flags e).color.blue = false
  green : ∀ e, (r.s.flags e).color.green = false
  red : ∀ e, Red r.s e → e ≠ 0 ∧ e ≤ d ∧ g.tag e = false
  reached : ∀ x, x ≠ 0 → x ≤ d → g.tag x = false →
    Ahead (eachParent g) d (fun e => (s.flags e).set = true ∨ Red r.s e) x

theorem redParent_kept (s : Sccs) (e : Nat) : Kept s (redParent s e) := by
  unfold redParent
  split
  · exact Kept.orColor s e D_RED
  · exact Kept.refl s

theorem redParent_color (s : Sccs) (e f : Nat) :
    ((redParent s e).flags f).color = (s.flags f).color ∨
      (f = e ∧ e ≠ 0 ∧ ((redParent s e).flags f).color = (s.flags f).color.or D_RED) := by
  unfold redParent
  split
  case isTrue free =>
      rw [orColor_color]
      split
      next same =>
        exact .inr ⟨same,free.1,rfl⟩
      · exact .inl rfl
  case isFalse => exact .inl rfl

variable {e : Nat}

theorem redParent_marked (s : Sccs) (real : e ≠ 0) :
    (s.flags e).set = true ∨ Red (redParent s e) e := by
  unfold redParent
  split
  case isTrue =>
      right
      unfold Red
      rw [orColor_color,if_pos rfl]
      exact or_true _
  case isFalse closed =>
      by_cases set : (s.flags e).set = true
      · exact .inl set
      · right
        by_contra bare
        exact closed ⟨real,not_eq_true _ ▸ set,not_eq_true _ ▸ bare⟩

variable {s : Sccs} {f : Nat}

theorem redParent_mono (red : Red s f) : Red (redParent s e) f := by
  unfold Red at *
  rcases redParent_color s e f with same | ⟨_,_,more⟩
  · rwa [same]
  · rw [more]
    exact or_true _

theorem redParent_red (red : Red (redParent s e) f) : Red s f ∨ (f = e ∧ e ≠ 0) := by
  rcases redParent_color s e f with same | ⟨here,real,_⟩
  · left
    unfold Red at *
    rwa [← same]
  · exact .inr ⟨here,real⟩

theorem redParent_bit {bit : Color → Bool} (spread : ∀ c, bit (c.or D_RED) = bit c) (s : Sccs)
    (e f : Nat) : bit ((redParent s e).flags f).color = bit (s.flags f).color := by
  rcases redParent_color s e f with same | ⟨_,_,more⟩
  · rw [same]
  · rw [more,spread]

def redParents (g : Graph) (s : Sccs) (d : Nat) : Sccs :=
  redParent (redParent (s.clearColor d D_RED) (g.parent d)) (g.merge d)

theorem redParents_kept (g : Graph) (s : Sccs) (d : Nat) : Kept s (redParents g s d) :=
  ((Kept.clearColor s d D_RED).trans (redParent_kept _ _)).trans (redParent_kept _ _)

theorem redParents_bit {bit : Color → Bool} (spread : ∀ c, bit (c.or D_RED) = bit c)
    (keeps : ∀ c, bit (c.minus D_RED) = bit c) (g : Graph) (s : Sccs) (d f : Nat) :
    bit ((redParents g s d).flags f).color = bit (s.flags f).color := by
  unfold redParents
  rw [redParent_bit spread,redParent_bit spread,clearColor_color]
  split
  · exact keeps _
  · rfl

variable {g : Graph} {d : Nat}

private theorem redParents_red (red : Red (redParents g s d) f) :
    (Red s f ∧ f ≠ d) ∨ (f ≠ 0 ∧ (f = g.parent d ∨ f = g.merge d)) := by
  rcases redParent_red red with first | ⟨rfl,real⟩
  · rcases redParent_red first with cleared | ⟨rfl,real⟩
    · unfold Red at cleared
      rw [clearColor_color] at cleared
      split at cleared
      · exact absurd cleared (by simp [Color.minus,D_RED])
      next same =>
        exact .inl ⟨cleared,same⟩
    · exact .inr ⟨real,.inl rfl⟩
  · exact .inr ⟨real,.inr rfl⟩

theorem redParents_mono (red : Red s f) (other : f ≠ d) : Red (redParents g s d) f := by
  refine redParent_mono (redParent_mono ?_)
  unfold Red
  rwa [clearColor_color,if_neg other]

theorem redParents_parent (edge : f ∈ eachParent g d) :
    (s.flags f).set = true ∨ Red (redParents g s d) f := by
  have cleared := Kept.clearColor s d D_RED
  have first := cleared.trans (redParent_kept (s.clearColor d D_RED) (g.parent d))
  obtain ⟨_,real,which⟩ := mem_eachParent edge
  rcases which with rfl | rfl
  · rcases redParent_marked (s.clearColor d D_RED) real with set | red
    · exact .inl (cleared.set _ ▸ set)
    · exact .inr (redParent_mono red)
  · rcases redParent_marked (redParent (s.clearColor d D_RED) (g.parent d)) real with set | red
    · exact .inl (first.set _ ▸ set)
    · exact .inr red

variable {r : Region}

theorem Inside.step (inside : Inside g s (d + 1) r) : Inside g s d (regionAt g r (d + 1)) := by
  have descending := eachParent_descending g
  unfold regionAt
  split
  next tag =>
    refine ⟨inside.kept,inside.real,inside.lower,inside.upper,inside.blue,inside.green,?_,?_⟩
    · intro e red
      have old := inside.red e red
      have apart : e ≠ d + 1 := by
        intro same
        exact false_ne_true (old.2.2.symm.trans (same ▸ tag))
      exact ⟨old.1,by omega,old.2.2⟩
    · intro x nonzero below real
      refine ahead_descend descending ?_ below (inside.reached x nonzero (by omega) real)
      rintro e _lower (old | ⟨set | red,_⟩)
      · exact old
      · exact absurd (inside.real _ set) (by rw [tag]; exact true_eq_false.mp)
      · exact absurd (inside.red _ red).2.2 (by rw [tag]; exact true_eq_false.mp)
  rename_i tag
  have real : g.tag (d + 1) = false := not_eq_true _ ▸ tag
  have top := (ahead_top descending).mp (inside.reached (d + 1) (by omega) le_rfl real)
  have covered : ¬ ((r.s.flags (d + 1)).set = false ∧ (r.s.flags (d + 1)).color.red = false) := by
    intro both
    rcases top with set | red
    · rw [← inside.kept.set,both.1] at set
      exact false_ne_true set
    · unfold Red at red
      rw [both.2] at red
      exact false_ne_true red
  rw [if_neg covered]
  refine ⟨inside.kept.trans (redParents_kept g r.s (d + 1)),inside.real,inside.lower,
    inside.upper,?_,?_,?_,?_⟩
  · intro e
    exact (redParents_bit (by simp [Color.or,D_RED]) (by simp [Color.minus,D_RED]) ..).trans
      (inside.blue e)
  · intro e
    exact (redParents_bit (by simp [Color.or,D_RED]) (by simp [Color.minus,D_RED]) ..).trans
      (inside.green e)
  · intro e red
    rcases redParents_red red with ⟨old,apart⟩ | ⟨nonzero,which⟩
    · have placed := inside.red e old
      exact ⟨placed.1,by omega,placed.2.2⟩
    · rcases which with rfl | rfl
      · have below := g.parent_lt (d + 1) (by omega)
        exact ⟨nonzero,by omega,g.parent_real (d + 1) real nonzero⟩
      · have below := g.merge_lt (d + 1) (by omega)
        exact ⟨nonzero,by omega,g.merge_real (d + 1) real nonzero⟩
  · intro x nonzero below realX
    refine ahead_descend descending ?_ below (inside.reached x nonzero (by omega) realX)
    rintro e lower ((set | red) | ⟨_,edge,_⟩)
    · exact .inl set
    · exact .inr (redParents_mono red (by omega))
    · rcases redParents_parent (s := r.s) edge with set | red
      · exact .inl (inside.kept.set e ▸ set)
      · exact .inr red

theorem Inside.loop (inside : Inside g s d r) : Inside g s 0 (regionFrom g d r) := by
  induction d generalizing r with
  | zero => exact inside
  | succ d ih => exact ih inside.step

theorem Kept.eq {t : Sccs} (kept : Kept s t) (before : Clean s) (after : Clean t) : t = s := by
  obtain ⟨flags,rstart,rstop,stateSet,hasgone⟩ := s
  obtain ⟨flags',rstart',rstop',stateSet',hasgone'⟩ := t
  have same : flags' = flags := by
    funext e
    have set := kept.set e
    have gone := kept.gone e
    have color : (flags' e).color = (flags e).color := (after e).trans (before e).symm
    cases flagsE : flags e
    cases flagsE' : flags' e
    simp only [flagsE,flagsE'] at set gone color
    rw [set,gone,color]
  have rstart_eq := kept.rstart
  have rstop_eq := kept.rstop
  have state_eq := kept.stateSet
  have gone_eq := kept.hasgone
  dsimp only at rstart_eq rstop_eq state_eq gone_eq
  rw [same,rstart_eq,rstop_eq,state_eq,gone_eq]

theorem regionFrom_inside (clean : Clean s) (real : ∀ e, (s.flags e).set = true → g.tag e = false)
    (reached : ∀ x, x ≠ 0 → x ≤ g.table → g.tag x = false → ∃ e,
      e ≤ g.table ∧ (s.flags e).set = true ∧ Reach (eachParent g) e x) :
    regionFrom g g.table ⟨s,0,0⟩ = ⟨s,0,0⟩ := by
  have colorless : ∀ e, ¬ Red s e := by
    intro e red
    unfold Red at red
    rw [clean e] at red
    exact false_ne_true red
  have start : Inside g s g.table ⟨s,0,0⟩ := by
    refine ⟨Kept.refl s,real,rfl,rfl,?_,?_,?_,?_⟩
    · intro e
      rw [clean e]
      rfl
    · intro e
      rw [clean e]
      rfl
    · intro e red
      exact absurd red (colorless e)
    · intro x nonzero below realX
      obtain ⟨e,within,set,path⟩ := reached x nonzero below realX
      exact ⟨e,within,.inl set,path⟩
  have final := start.loop
  generalize regionFrom g g.table ⟨s,0,0⟩ = r at *
  have cleanAfter : Clean r.s := by
    intro e
    have redless : (r.s.flags e).color.red = false := by
      by_contra red
      have placed := final.red e (of_not_eq_false red)
      omega
    have blueless := final.blue e
    have greenless := final.green e
    cases color : (r.s.flags e).color
    rw [color] at redless blueless greenless
    dsimp only at redless blueless greenless
    rw [redless,blueless,greenless]
    rfl
  have same := final.kept.eq clean cleanAfter
  have lower := final.lower
  have upper := final.upper
  obtain ⟨after,low,high⟩ := r
  dsimp only at same lower upper
  rw [same,lower,upper]

variable {fuel : Nat}

private theorem realFrom_le : realFrom g fuel e ≤ e := by
  induction fuel generalizing e with
  | zero => exact Nat.le_refl e
  | succ fuel ih =>
    unfold realFrom
    split
    case isTrue tag =>
        have below := g.parent_lt e tag.1
        have rest := ih (e := g.parent e)
        omega
    case isFalse => exact Nat.le_refl e

theorem realFrom_real (enough : e ≤ fuel) :
    realFrom g fuel e = 0 ∨ g.tag (realFrom g fuel e) = false := by
  induction fuel generalizing e with
  | zero => exact .inl (by unfold realFrom; omega)
  | succ fuel ih =>
    unfold realFrom
    split
    case isTrue tag =>
        have below := g.parent_lt e tag.1
        exact ih (by omega)
    case isFalse free =>
        by_cases zero : e = 0
        · exact .inl zero
        · right
          by_contra tag
          exact free ⟨zero,of_not_eq_false tag⟩

theorem realFrom_fuel {more : Nat} (enough : e ≤ fuel) (enoughMore : e ≤ more) :
    realFrom g fuel e = realFrom g more e := by
  induction fuel generalizing more e with
  | zero =>
    have zero : e = 0 := by omega
    cases more with
    | zero => rfl
    | succ more =>
      unfold realFrom
      rw [if_neg (fun tag => tag.1 zero)]
  | succ fuel ih =>
    cases more with
    | zero =>
      have zero : e = 0 := by omega
      unfold realFrom
      rw [if_neg (fun tag => tag.1 zero)]
    | succ more =>
      unfold realFrom
      split
      case isTrue tag =>
          have below := g.parent_lt e tag.1
          exact ih (by omega) (by omega)
      case isFalse => rfl

theorem tagged_lt (real : d ≠ 0) : tagged g d < d := lt_of_le_of_lt realFrom_le (g.parent_lt d real)

def Attached (g : Graph) (s : Sccs) (d : Nat) : Prop :=
  (s.flags (tagged g d)).set = true ∨ (g.ptag d ≠ 0 ∧ (s.flags (g.ptag d)).set = true) ∨
    (g.mtag d ≠ 0 ∧ (s.flags (g.mtag d)).set = true)

structure Tagging (g : Graph) (s : Sccs) (start d : Nat) (r : Region) : Prop where
  clean : Clean r.s
  lower : r.lower = 0
  upper : r.upper = 0
  gone : ∀ e, (r.s.flags e).gone = (s.flags e).gone
  real : ∀ e, g.tag e = false → (r.s.flags e).set = (s.flags e).set
  tags : ∀ e, g.tag e = true → start ≤ e → e < d → ((r.s.flags e).set = true ↔ Attached g r.s e)
  outside : ∀ e, g.tag e = true → e < start ∨ d ≤ e → (r.s.flags e).set = false
  rstart : r.s.rstart = s.rstart
  rstop : ∀ e, (r.s.flags e).set = true → e ≤ r.s.rstop
  stop : s.rstop ≤ r.s.rstop

def setTag (s : Sccs) (d : Nat) : Sccs :=
  { s.update d fun f => { f with set := true } with rstop := if s.rstop < d then d else s.rstop }

private theorem setTag_flags (s : Sccs) (d e : Nat) :
    (setTag s d).flags e = if e = d then { s.flags e with set := true } else s.flags e :=
  update_flags s d e fun f => { f with set := true }

theorem metaAt_tag (clean : Clean r.s) (tag : g.tag d = true) (unset : (r.s.flags d).set = false) :
    (Attached g r.s d ∧ metaAt g r d = { r with s := setTag r.s d }) ∨
      (¬ Attached g r.s d ∧ metaAt g r d = r) := by
  have colorless : ∀ e, ¬ (r.s.flags e).color.blue = true := by
    intro e
    rw [clean e]
    exact false_ne_true
  have inside : ¬ ((r.s.flags (tagged g d)).color.blue = true ∨
      (g.ptag d ≠ 0 ∧ (r.s.flags (g.ptag d)).color.blue = true) ∨
      (g.mtag d ≠ 0 ∧ (r.s.flags (g.mtag d)).color.blue = true)) := by
    rintro (own | ⟨_,first⟩ | ⟨_,second⟩)
    · exact colorless _ own
    · exact colorless _ first
    · exact colorless _ second
  unfold metaAt
  rw [if_neg (by rw [tag]; exact true_eq_false.mp),if_neg (by rw [unset]; exact false_ne_true)]
  rw [if_neg inside]
  by_cases attached : Attached g r.s d
  · exact .inl ⟨attached,if_pos attached⟩
  · exact .inr ⟨attached,if_neg attached⟩

private theorem attached_congr {t : Sccs} (real : e ≠ 0) (below : e ≤ d)
    (same : ∀ f, f < d → (t.flags f).set = (s.flags f).set) : Attached g t e ↔ Attached g s e := by
  have own := tagged_lt (g := g) real
  have first := g.ptag_lt e real
  have second := g.mtag_lt e real
  unfold Attached
  rw [same _ (by omega),same _ (by omega),same _ (by omega)]

theorem Tagging.step {start : Nat} (tagging : Tagging g s start d r) (nonzero : start ≠ 0)
    (reached : start ≤ d) :
    Tagging g s start (d + 1) (metaAt g r d) := by
  by_cases tag : g.tag d = true
  · have unset := tagging.outside d tag (.inr (Nat.le_refl d))
    rcases metaAt_tag tagging.clean tag unset with ⟨attached,same⟩ | ⟨free,same⟩
    · rw [same]
      have flags := setTag_flags r.s d
      have others : ∀ f, f < d → ((setTag r.s d).flags f).set = (r.s.flags f).set := by
        intro f below
        rw [flags f,if_neg (by omega)]
      refine ⟨?_,tagging.lower,tagging.upper,?_,?_,?_,?_,tagging.rstart,?_,?_⟩
      · intro e
        rw [flags e]
        split
        · exact tagging.clean e
        · exact tagging.clean e
      · intro e
        rw [flags e]
        split
        · exact tagging.gone e
        · exact tagging.gone e
      · intro e real
        have apart : e ≠ d := by
          intro here
          exact false_ne_true (real.symm.trans (here ▸ tag))
        rw [flags e,if_neg apart]
        exact tagging.real e real
      · intro e tagE low high
        rw [attached_congr (d := d) (by omega) (by omega) others]
        by_cases here : e = d
        · subst here
          rw [flags e,if_pos rfl]
          simp only [attached]
        · rw [others e (by omega)]
          exact tagging.tags e tagE low (by omega)
      · intro e tagE away
        have apart : e ≠ d := by omega
        rw [flags e,if_neg apart]
        exact tagging.outside e tagE (by omega)
      · intro e set
        change e ≤ if r.s.rstop < d then d else r.s.rstop
        rw [flags e] at set
        by_cases here : e = d
        · split <;> omega
        · rw [if_neg here] at set
          have old := tagging.rstop e set
          split <;> omega
      · have old := tagging.stop
        change s.rstop ≤ if r.s.rstop < d then d else r.s.rstop
        split <;> omega
    · rw [same]
      refine ⟨tagging.clean,tagging.lower,tagging.upper,tagging.gone,tagging.real,?_,?_,
        tagging.rstart,tagging.rstop,tagging.stop⟩
      · intro e tagE low high
        by_cases here : e = d
        · subst here
          rw [unset]
          simp only [false_eq_true,free]
        · exact tagging.tags e tagE low (by omega)
      · intro e tagE away
        exact tagging.outside e tagE (by omega)
  · have real : g.tag d = false := not_eq_true _ ▸ tag
    have same : metaAt g r d = r := if_pos real
    rw [same]
    refine ⟨tagging.clean,tagging.lower,tagging.upper,tagging.gone,tagging.real,?_,?_,
      tagging.rstart,tagging.rstop,tagging.stop⟩
    · intro e tagE low high
      have apart : e ≠ d := by
        intro here
        exact tag (here ▸ tagE)
      exact tagging.tags e tagE low (by omega)
    · intro e tagE away
      exact tagging.outside e tagE (by omega)

theorem Tagging.loop {start n : Nat} (tagging : Tagging g s start start r) (nonzero : start ≠ 0) :
    Tagging g s start (start + n) ((List.range' start n).foldl (metaAt g) r) := by
  induction n with
  | zero => exact tagging
  | succ n ih =>
    rw [List.range'_1_concat,List.foldl_append]
    exact ih.step nonzero (by omega)

structure Extended (g : Graph) (s t : Sccs) : Prop where
  clean : Clean t
  gone : ∀ e, (t.flags e).gone = (s.flags e).gone
  real : ∀ e, g.tag e = false → (t.flags e).set = (s.flags e).set
  tags : ∀ e, e ≠ 0 → e ≤ g.table → g.tag e = true → ((t.flags e).set = true ↔ Attached g t e)
  outside : ∀ e, g.table < e → g.tag e = true → (t.flags e).set = false
  low : ∀ e, (t.flags e).set = true → t.rstart ≤ e
  high : ∀ e, (t.flags e).set = true → e ≤ t.rstop
  start : t.rstart = s.rstart

theorem markMeta_extended (clean : Clean s) (real : ∀ e, (s.flags e).set = true → g.tag e = false)
    (reached : ∀ x, x ≠ 0 → x ≤ g.table → g.tag x = false → ∃ e,
      e ≤ g.table ∧ (s.flags e).set = true ∧ Reach (eachParent g) e x)
    (start : s.rstart ≠ 0) (stop : s.rstop ≠ 0) (low : ∀ e, (s.flags e).set = true → s.rstart ≤ e)
    (high : ∀ e, (s.flags e).set = true → e ≤ s.rstop) : Extended g s (range_markMeta g s) := by
  unfold range_markMeta
  rw [if_neg (by omega),regionFrom_inside clean real reached]
  dsimp only
  rw [if_neg (fun both => both.1 rfl)]
  have unset : ∀ e, g.tag e = true → (s.flags e).set = false := by
    intro e tag
    by_contra set
    exact false_ne_true ((real e (of_not_eq_false set)).symm.trans tag)
  have before : Tagging g s s.rstart s.rstart ⟨s,0,0⟩ :=
    ⟨clean,rfl,rfl,fun _ => rfl, fun _ _ => rfl, fun e _ _ _ => by omega,
      fun e tag _ => unset e tag, rfl,high,le_rfl⟩
  have final := before.loop (n := g.table + 1 - s.rstart) start
  generalize (List.range' s.rstart (g.table + 1 - s.rstart)).foldl (metaAt g) ⟨s,0,0⟩ = r at *
  rw [final.lower,final.upper]
  change Extended g s r.s
  have lowAfter : ∀ e, (r.s.flags e).set = true → s.rstart ≤ e := by
    intro e set
    by_cases tag : g.tag e = true
    · by_contra below
      have off := final.outside e tag (by omega)
      rw [off] at set
      exact false_ne_true set
    · rw [final.real e (not_eq_true _ ▸ tag)] at set
      exact low e set
  refine ⟨final.clean,final.gone,final.real,?_,?_,?_,final.rstop,final.rstart⟩
  · intro e nonzero within tag
    by_cases before : e < s.rstart
    · rw [final.outside e tag (.inl before)]
      have own := tagged_lt (g := g) nonzero
      have first := g.ptag_lt e nonzero
      have second := g.mtag_lt e nonzero
      constructor
      · intro set
        cases set
      rintro (set | ⟨_,set⟩ | ⟨_,set⟩)
      · have above := lowAfter _ set
        omega
      · have above := lowAfter _ set
        omega
      · have above := lowAfter _ set
        omega
    · exact final.tags e tag (by omega) (by omega)
  · intro e beyond tag
    exact final.outside e tag (by omega)
  · intro e set
    rw [final.rstart]
    exact lowAfter e set

private theorem goneAt_flags (dflags : Flags) (out : Sccs × Nat) (d e : Nat) :
    (goneAt dflags out d).1.flags e =
      if e = d ∧ (out.1.flags e).set = true then { out.1.flags e with set := false }.or dflags
      else out.1.flags e := by
  unfold goneAt
  split
  next set =>
    rw [update_flags]
    by_cases here : e = d
    · subst here
      rw [if_pos rfl,if_pos ⟨rfl,set⟩]
    · rw [if_neg here,if_neg (fun both => here both.1)]
  next set =>
    by_cases here : e = d
    · subst here
      rw [if_neg (fun both => set both.2)]
    · rw [if_neg (fun both => here both.1)]

theorem goneFrom_flags {dflags : Flags} {rstart : Nat} {out : Sccs × Nat} (start : rstart ≠ 0)
    (reached : rstart ≤ d) (e : Nat) :
    (goneFrom dflags rstart d out).1.flags e = if (rstart ≤ e ∧ e ≤ d) ∧
      (out.1.flags e).set = true then
        { out.1.flags e with set := false }.or dflags
      else out.1.flags e := by
  induction d generalizing out with
  | zero => omega
  | succ d ih =>
    have one := goneAt_flags dflags out (d + 1) e
    unfold goneFrom
    by_cases last : d + 1 = rstart
    · have same : e = d + 1 ↔ rstart ≤ e ∧ e ≤ d + 1 := by omega
      rw [if_pos last,one]
      simp only [same]
    rw [if_neg last,ih (by omega)]
    by_cases here : e = d + 1
    · have above : ¬ ((rstart ≤ e ∧ e ≤ d) ∧
          ((goneAt dflags out (d + 1)).1.flags e).set = true) := by omega
      have same : e = d + 1 ↔ rstart ≤ e ∧ e ≤ d + 1 := by omega
      rw [if_neg above,one]
      simp only [same]
    · have off : ¬ (e = d + 1 ∧ (out.1.flags e).set = true) := fun both => here both.1
      have same : (rstart ≤ e ∧ e ≤ d) ↔ (rstart ≤ e ∧ e ≤ d + 1) := by omega
      rw [one,if_neg off]
      simp only [same]

end BitKeeper.Range

import BitKeeper.Check.Keys

/-!
The merge at the tip. The masks of the root keys collect the colours of the csets of one side; the
first entry below the oldest coloured cset has them evaluated.
-/

namespace BitKeeper.Check

open List Assoc Bytes Range Dag

structure SideBit (f : Mask → Bool) : Prop where
  none : f Mask.none = false
  or : ∀ a b, f (a.or b) = (f a || f b)
  tip : f RK_TIP = false
  done : f RK_DONE = false

theorem sideBit_parent : SideBit Mask.parent := ⟨rfl,fun _ _ => rfl, rfl,rfl⟩

private theorem sideBit_merge : SideBit Mask.merge := ⟨rfl,fun _ _ => rfl, rfl,rfl⟩

theorem sideBit_intip : SideBit Mask.intip := ⟨rfl,fun _ _ => rfl, rfl,rfl⟩

theorem strike_mask (env : Env) (mask : Mask) (p : Pair) (dkey : Bytes) (rkd : Rkdata) :
    (strike env mask p dkey rkd).1.mask = rkd.mask := by
  unfold strike
  dsimp only
  split <;> rfl

theorem rkdTurn_bit {f : Mask → Bool} (side : SideBit f) (env : Env) (mask : Mask) (p : Pair)
    (rkd : Rkdata) :
    f (rkdTurn env true mask p rkd).1.mask = (f rkd.mask || (p.dkey.isSome && f mask)) := by
  unfold rkdTurn
  cases p.dkey with
  | none =>
    rw [side.or,side.done]
    simp
  | some dkey =>
    have saw : f (sawKey env dkey (collect true mask rkd)).mask = (f rkd.mask || f mask) := by
      unfold sawKey
      split
      · exact (side.or _ _).trans
          ((congrArg (_ || ·) side.tip).trans ((Bool.or_false _).trans (side.or _ _)))
      · exact side.or _ _
    dsimp only
    rw [Option.isSome_some,Bool.true_and,← saw]
    split
    · exact congrArg f (strike_mask env mask p dkey _)
    · rfl

def maskOf (b : Build) (rk : Nat) : Mask := ((b.r2deltas.lookup rk).getD Rkdata.zero).mask

variable {b : Build}

theorem keyTurn_bit {f : Mask → Bool} (side : SideBit f) (env : Env) (merging : b.oldest ≠ 0)
    (p : Pair) (rk : Nat) :
    f (maskOf (keyTurn env b p) rk) =
      (f (maskOf b rk) || (decide (p.rkoff = rk) && (p.dkey.isSome && f b.mask))) := by
  unfold maskOf keyTurn
  rw [lookup_put,decide_eq_true merging]
  split
  next same =>
    rw [Option.getD_some,rkdTurn_bit side,same,decide_eq_true rfl,Bool.true_and]
  next same =>
    rw [decide_eq_false (Ne.symm same),Bool.false_and,Bool.or_false]

structure Reading (s : Sccs) (bound : Nat) (seen : List Pair) (b : Build) : Prop where
  oldest : b.oldest = bound
  distinct : (b.r2deltas.map Prod.fst).Nodup
  last : b.lastser ≠ 0 → bound ≤ b.lastser ∧ b.mask = flags2mask (s.flags b.lastser).color
  bits : ∀ f, SideBit f → ∀ rk, f (maskOf b rk) = true ↔ ∃ p ∈ seen, p.rkoff = rk ∧
    p.dkey.isSome = true ∧ f (flags2mask (s.flags p.ser).color) = true

variable {env : Env} {s : Sccs} {oldest : Nat} {seen : List Pair}

private theorem newSer_above (nonzero : oldest ≠ 0) (reading : Reading s oldest seen b) {ser : Nat}
    (real : ser ≠ 0) (above : oldest ≤ ser) :
    newSer env s b ser = .ok { b with lastser := ser, mask := flags2mask (s.flags ser).color } := by
  unfold newSer
  by_cases same : ser = b.lastser
  · have mask := (reading.last (same ▸ real)).2
    rw [if_pos same,same,← mask]
  · rw [if_neg same,reading.oldest,if_neg (by omega),if_pos nonzero]

theorem Reading.turn (env : Env) (nonzero : oldest ≠ 0) (reading : Reading s oldest seen b) {p : Pair}
    (real : p.ser ≠ 0) (above : oldest ≤ p.ser) :
    ∃ next, weaveTurn env s b p = .ok next ∧ Reading s oldest (seen ++ [p]) next := by
  let moved : Build := { b with lastser := p.ser, mask := flags2mask (s.flags p.ser).color }
  refine ⟨keyTurn env moved p,?_,?_⟩
  · unfold weaveTurn
    rw [newSer_above nonzero reading real above]
  refine ⟨reading.oldest,nodup_put reading.distinct _ _,fun _ => ⟨above,rfl⟩, ?_⟩
  intro f side rk
  have merging : moved.oldest ≠ 0 := reading.oldest.symm ▸ nonzero
  rw [keyTurn_bit side env merging p rk,Bool.or_eq_true,Bool.and_eq_true,Bool.and_eq_true,
    decide_eq_true_iff]
  rw [show maskOf moved rk = maskOf b rk from rfl,reading.bits f side rk]
  simp only [mem_append,mem_singleton]
  constructor
  · rintro (⟨old,inside,rest⟩ | ⟨own,key,bit⟩)
    · exact ⟨old,.inl inside,rest⟩
    · exact ⟨p,.inr rfl,own,key,bit⟩
  · rintro ⟨entry,inside | rfl,own,key,bit⟩
    · exact .inl ⟨entry,inside,own,key,bit⟩
    · exact .inr ⟨own,key,bit⟩

theorem readWeave_append (env : Env) (s : Sccs) (first second : List Pair) {next : Build}
    (run : readWeave env s first b = .ok next) :
    readWeave env s (first ++ second) b = readWeave env s second next := by
  induction first generalizing b with
  | nil =>
    cases run
    rfl
  | cons p first ih =>
    rw [cons_append]
    conv_lhs => unfold readWeave
    unfold readWeave at run
    cases turn : weaveTurn env s b p with
    | error rk =>
      rw [turn] at run
      exact absurd run (by simp)
    | ok moved =>
      rw [turn] at run
      exact ih run

theorem Reading.run (env : Env) (nonzero : oldest ≠ 0) {high : List Pair}
    (real : ∀ p ∈ high, p.ser ≠ 0) (above : ∀ p ∈ high, oldest ≤ p.ser)
    (reading : Reading s oldest seen b) :
    ∃ next, readWeave env s high b = .ok next ∧ Reading s oldest (seen ++ high) next := by
  induction high generalizing seen b with
  | nil => exact ⟨b,rfl,(append_nil seen).symm ▸ reading⟩
  | cons p high ih =>
    obtain ⟨moved,turn,next⟩ := reading.turn env nonzero (real p mem_cons_self)
      (above p mem_cons_self)
    obtain ⟨last,run,done⟩ := ih (fun q inside => real q (mem_cons_of_mem p inside))
      (fun q inside => above q (mem_cons_of_mem p inside)) next
    refine ⟨last,?_,?_⟩
    · unfold readWeave
      rwa [turn]
    · rwa [append_assoc] at done

theorem readWeave_evaluated (env : Env) (s : Sccs) (low : List Pair) (evaluated : b.oldest = 0) :
    ∃ next, readWeave env s low b = .ok next := by
  induction low generalizing b with
  | nil => exact ⟨b,rfl⟩
  | cons p low ih =>
    have quiet : ∃ moved, newSer env s b p.ser = .ok moved ∧ moved.oldest = 0 := by
      unfold newSer
      by_cases same : p.ser = b.lastser
      · exact ⟨b,if_pos same,evaluated⟩
      · rw [if_neg same,evaluated,if_neg (Nat.not_lt_zero _)]
        exact ⟨_,rfl,rfl⟩
    obtain ⟨moved,turn,still⟩ := quiet
    unfold readWeave weaveTurn
    rw [turn]
    exact ih still

theorem Reading.evaluate (reading : Reading s oldest seen b) (kept : ∀ key, env.gone key = false)
    {p : Pair} (real : p.ser ≠ 0) (below : p.ser < oldest) (low : List Pair) :
    (∃ rk, readWeave env s (p :: low) b = .error rk) ↔
      ∃ rk, (maskOf b rk).parent = true ∧ (maskOf b rk).merge = true ∧
        (maskOf b rk).intip = false := by
  have fresh : p.ser ≠ b.lastser := by
    intro same
    have above := (reading.last (same ▸ real)).1
    omega
  -- the table is searched for a root key with these bits
  have search : (b.r2deltas.find? (unmerged env)).isSome = true ↔
      ∃ rk, (maskOf b rk).parent = true ∧ (maskOf b rk).merge = true ∧
        (maskOf b rk).intip = false := by
    rw [find?_isSome]
    constructor
    · rintro ⟨node,inside,bits⟩
      have known := lookup_mem reading.distinct inside
      refine ⟨node.1,?_⟩
      unfold maskOf
      rw [known,Option.getD_some]
      simpa [unmerged,kept,and_assoc] using bits
    · rintro ⟨rk,parent,merge,intip⟩
      cases known : b.r2deltas.lookup rk with
      | none =>
        unfold maskOf at parent
        rw [known] at parent
        cases parent
      | some rkd =>
        unfold maskOf at parent merge intip
        rw [known,Option.getD_some] at parent merge intip
        refine ⟨(rk, rkd),lookup_some_mem known,?_⟩
        simp [unmerged,kept,parent,merge,intip]
  rw [← search]
  unfold readWeave weaveTurn newSer
  rw [if_neg fresh,reading.oldest,if_pos below]
  cases found : b.r2deltas.find? (unmerged env) with
  | some node => exact ⟨fun _ => rfl, fun _ => ⟨node.1,rfl⟩⟩
  | none =>
    dsimp only
    obtain ⟨next,quiet⟩ := readWeave_evaluated env s low
      (b := keyTurn env { b with lastser := p.ser, oldest := 0, mask := flags2mask Color.clear } p)
        rfl
    rw [quiet]
    exact ⟨fun error => absurd error.choose_spec (by simp),
      fun some_ => absurd some_ Bool.false_ne_true⟩

def OnParent (env : Env) (x : Nat) : Prop :=
  Reach (eachParent env.g) (env.g.parent env.top) x ∧
    ¬ Reach (eachParent env.g) (env.g.merge env.top) x

def OnMerge (env : Env) (x : Nat) : Prop :=
  Reach (eachParent env.g) (env.g.merge env.top) x ∧
    ¬ Reach (eachParent env.g) (env.g.parent env.top) x

structure MergeTip (env : Env) : Prop where
  nonzero : env.top ≠ 0
  table : env.top ≤ env.g.table
  real : env.g.tag env.top = false
  parented : env.g.parent env.top ≠ 0
  merged : env.g.merge env.top ≠ 0
  distinct : env.g.parent env.top ≠ env.g.merge env.top
  clean : Clean env.flags

/-- The colours `color_merge` leaves, as bits of the masks, and the oldest cset of one side. -/
structure Colored (env : Env) (s : Sccs) (oldest : Nat) : Prop where
  parent : ∀ x, (flags2mask (s.flags x).color).parent = true ↔ OnParent env x
  merge : ∀ x, (flags2mask (s.flags x).color).merge = true ↔ OnMerge env x
  intip : ∀ x, (flags2mask (s.flags x).color).intip = true ↔ x = env.top
  sided : OnParent env oldest ∨ OnMerge env oldest
  oldest : ∀ x, OnParent env x ∨ OnMerge env x → oldest ≤ x

theorem flags2mask_bits (c : Color) : ((flags2mask c).parent = true ↔ c.red = true ∧ c.blue = false) ∧
    ((flags2mask c).merge = true ↔ c.red = false ∧ c.blue = true) ∧
    ((flags2mask c).intip = true ↔ c.red = true ∧ c.blue = true) := by
  obtain ⟨red,blue,green⟩ := c
  cases red <;> cases blue <;> simp [flags2mask,RK_GCA,RK_PARENT,RK_MERGE,RK_INTIP,Mask.none]

theorem closure_singleton (g : Graph) (d x : Nat) : Closure g [d] x ↔ Reach (eachParent g) d x := by
  unfold Closure
  simp

section
variable (tip : MergeTip env)
include tip

theorem MergeTip.side {d : Nat} (side : d = env.g.parent env.top ∨ d = env.g.merge env.top) :
    d ≠ 0 ∧ d < env.top ∧ env.g.tag d = false := by
  rcases side with rfl | rfl
  · exact ⟨tip.parented,env.g.parent_lt _ tip.nonzero,env.g.parent_real _ tip.real tip.parented⟩
  · exact ⟨tip.merged,env.g.merge_lt _ tip.nonzero,env.g.merge_real _ tip.real tip.merged⟩

theorem onSide_iff_sided (x : Nat) : OnParent env x ∨ OnMerge env x ↔
    Sided env.g (Closure env.g [env.g.parent env.top])
    (Closure env.g [env.g.merge env.top]) x ∧ x < env.top := by
  have reached : ∀ d, d = env.g.parent env.top ∨ d = env.g.merge env.top →
    Reach (eachParent env.g) d x →
      x ≠ 0 ∧ env.g.tag x = false ∧ x < env.top := by
    intro d side path
    obtain ⟨nonzero,low,real⟩ := tip.side side
    have order := path.le (eachParent_descending env.g)
    have realX := path.invariant (P := fun e => env.g.tag e = false) real
      fun _ _ realE edge _ => eachParent_real realE edge
    exact ⟨path.ne_zero nonzero,realX,by omega⟩
  unfold OnParent OnMerge Sided
  rw [closure_singleton,closure_singleton]
  constructor
  · rintro (⟨on,off⟩ | ⟨on,off⟩)
    · obtain ⟨nonzero,real,low⟩ := reached _ (.inl rfl) on
      exact ⟨⟨nonzero,real,fun both => off (both.mp on)⟩, low⟩
    · obtain ⟨nonzero,real,low⟩ := reached _ (.inr rfl) on
      exact ⟨⟨nonzero,real,fun both => off (both.mpr on)⟩, low⟩
  · rintro ⟨⟨_,_,differ⟩,_⟩
    tauto

theorem exists_onSide : ∃ x, OnParent env x ∨ OnMerge env x := by
  rcases Nat.lt_or_gt_of_ne tip.distinct with newer | newer
  · refine ⟨env.g.merge env.top,.inr ⟨.self _,fun path => ?_⟩⟩
    have order := path.le (eachParent_descending env.g)
    omega
  · refine ⟨env.g.parent env.top,.inl ⟨.self _,fun path => ?_⟩⟩
    have order := path.le (eachParent_descending env.g)
    omega

theorem color_merge_shown :
    ∃ after, color_merge env.g env.flags env.top 0 = some (after, after.rstart) ∧
      SidesShown env.g (Closure env.g [env.g.parent env.top]) (Closure env.g [env.g.merge env.top])
    (env.top - 1)
        (env.flags.orColor env.top (Color.D_BLUE.or Color.D_RED)) after := by
  have nonzero := tip.nonzero
  have table := tip.table
  have clean : ∀ e, e ≤ env.top - 1 →
      ((env.flags.orColor env.top (Color.D_BLUE.or Color.D_RED)).flags e).color = Color.clear := by
    intro e low
    rw [orColor_color,if_neg (by omega)]
    exact tip.clean e
  have single : ∀ d, d = env.g.parent env.top ∨ d = env.g.merge env.top →
      RealList env.g [d] ∧ ∀ e ∈ [d], e ≤ env.top - 1 := by
    intro d side
    obtain ⟨real,low,tag⟩ := tip.side side
    simp only [RealList,forall_mem_singleton]
    exact ⟨⟨real,by omega,tag⟩,by omega⟩
  have red := single _ (.inl rfl)
  have blue := single _ (.inr rfl)
  obtain ⟨after,walked,shown⟩ := range_walkrevs_either clean red.1 blue.1 red.2 blue.2
  refine ⟨after,?_,shown⟩
  unfold color_merge
  rw [if_pos rfl]
  rw [if_neg tip.merged,walked]
  rfl

private theorem shown_bits {after : Sccs}
    (shown : SidesShown env.g (Closure env.g [env.g.parent env.top])
    (Closure env.g [env.g.merge env.top]) (env.top - 1)
    (env.flags.orColor env.top (Color.D_BLUE.or Color.D_RED)) after) (x : Nat) :
    ((after.flags x).color.red = true ↔ x = env.top ∨
        ((OnParent env x ∨ OnMerge env x) ∧ Reach (eachParent env.g) (env.g.parent env.top) x)) ∧
      ((after.flags x).color.blue = true ↔ x = env.top ∨
        ((OnParent env x ∨ OnMerge env x) ∧ Reach (eachParent env.g) (env.g.merge env.top) x)) := by
  have nonzero := tip.nonzero
  rw [onSide_iff_sided tip x]
  by_cases above : env.top ≤ x
  · have notBelow : ¬ x < env.top := Nat.not_lt.mpr above
    rw [shown.above x (by omega),orColor_color,tip.clean x]
    by_cases same : x = env.top
    · simp [same,Color.or,Color.D_BLUE,Color.D_RED]
    · simp [same,notBelow,Color.clear]
  · have below : x < env.top := Nat.not_le.mp above
    have notTop : x ≠ env.top := Nat.ne_of_lt below
    by_cases sided : Sided env.g (Closure env.g [env.g.parent env.top])
      (Closure env.g [env.g.merge env.top]) x
    · have shows := shown.color x (by omega) sided
      rw [shows.red,shows.blue,closure_singleton,closure_singleton]
      simp [notTop,sided,below]
    · rw [shown.bare x (by omega) sided]
      simp [notTop,sided,Color.clear]

theorem color_merge_colored :
    ∃ s oldest, color_merge env.g env.flags env.top 0 = some (s, oldest) ∧ Colored env s oldest := by
  obtain ⟨after,walked,shown⟩ := color_merge_shown tip
  have bits := shown_bits tip shown
  have placed := onSide_iff_sided tip
  have tipOff : ¬ OnParent env env.top ∧ ¬ OnMerge env env.top :=
    ⟨fun on => absurd ((placed env.top).mp (.inl on)).2 (Nat.lt_irrefl _),
      fun on => absurd ((placed env.top).mp (.inr on)).2 (Nat.lt_irrefl _)⟩
  refine ⟨after,after.rstart,walked,?_,?_,?_,?_,?_⟩
  · intro x
    rw [(flags2mask_bits _).1,(bits x).1,← Bool.not_eq_true,(bits x).2]
    by_cases same : x = env.top
    · subst same
      simp [tipOff.1]
    · unfold OnParent OnMerge
      tauto
  · intro x
    rw [(flags2mask_bits _).2.1,← Bool.not_eq_true,(bits x).1,(bits x).2]
    by_cases same : x = env.top
    · subst same
      simp [tipOff.2]
    · unfold OnParent OnMerge
      tauto
  · intro x
    rw [(flags2mask_bits _).2.2,(bits x).1,(bits x).2]
    unfold OnParent OnMerge
    tauto
  · obtain ⟨x,side⟩ := exists_onSide tip
    obtain ⟨sided,low⟩ := (placed x).mp side
    obtain ⟨first,order⟩ := shown.first x (by omega) sided
    exact (placed after.rstart).mpr ⟨first,by omega⟩
  · intro x side
    obtain ⟨sided,low⟩ := (placed x).mp side
    exact (shown.first x (by omega) sided).2

end

def Lists (env : Env) (rk : Nat) (cset : Nat → Prop) : Prop :=
  ∃ p ∈ env.weave, p.rkoff = rk ∧ p.dkey.isSome = true ∧ cset p.ser

def Unmerged (env : Env) (rk : Nat) : Prop :=
  Lists env rk (OnParent env) ∧ Lists env rk (OnMerge env) ∧ ¬ Lists env rk (· = env.top)

structure NewestFirst (weave : List Pair) : Prop where
  sorted : weave.Pairwise fun a b => b.ser ≤ a.ser
  real : ∀ p ∈ weave, p.ser ≠ 0

def EntryBelow (env : Env) : Prop := ∃ p ∈ env.weave, ∀ x, OnParent env x ∨ OnMerge env x → p.ser < x

theorem checkFiles_fresh (files : List (Nat × Deltas)) : ((checkFiles files).map Prod.fst).Nodup ∧
    ∀ node ∈ checkFiles files, node.2.mask = Mask.none := by
  refine foldlRecOn files _ (motive := fun table : List (Nat × Rkdata) =>
    (table.map Prod.fst).Nodup ∧ ∀ node ∈ table, node.2.mask = Mask.none) ⟨nodup_nil,nofun⟩ ?_
  rintro table ⟨distinct,fresh⟩ file -
  unfold checkKeys
  split
  · exact ⟨distinct,fresh⟩
  rename_i seen
  constructor
  · rw [map_append,nodup_append]
    refine ⟨distinct,nodup_singleton _,?_⟩
    rintro a inside b only rfl
    exact seen (mem_singleton.mp only ▸ inside)
  · intro node inside
    rcases mem_append.mp inside with old | new
    · exact fresh node old
    · rw [mem_singleton.mp new]
      rfl

theorem reading_start (files : List (Nat × Deltas)) (s : Sccs) (oldest : Nat) :
    Reading s oldest [] ⟨checkFiles files,0,[],[],oldest,0,Mask.none⟩ := by
  obtain ⟨distinct,fresh⟩ := checkFiles_fresh files
  refine ⟨rfl,distinct,(absurd rfl ·), ?_⟩
  intro f side rk
  have bare : maskOf ⟨checkFiles files,0,[],[],oldest,0,Mask.none⟩ rk = Mask.none := by
    unfold maskOf
    cases found : (checkFiles files).lookup rk with
    | none => rfl
    | some rkd => exact fresh (rk, rkd) (lookup_some_mem found)
  rw [bare,side.none]
  simp

theorem NewestFirst.split {weave : List Pair} (order : NewestFirst weave) (bound : Nat) :
    ∃ high low, weave = high ++ low ∧ (∀ p ∈ high, bound ≤ p.ser) ∧ (∀ p ∈ low, p.ser < bound) := by
  have sorted := order.sorted
  clear order
  induction weave with
  | nil => exact ⟨[],[],rfl,by simp,by simp⟩
  | cons p weave ih =>
    obtain ⟨first,rest⟩ := pairwise_cons.mp sorted
    by_cases above : bound ≤ p.ser
    · obtain ⟨high,low,split,up,down⟩ := ih rest
      exact ⟨p :: high,low,by rw [split]; rfl,forall_mem_cons.mpr ⟨above,up⟩,down⟩
    · refine ⟨[],p :: weave,rfl,by simp,forall_mem_cons.mpr ⟨by omega,?_⟩⟩
      intro q inside
      have older := first q inside
      omega

theorem buildKeys_missingMerge (colors : color_merge env.g env.flags env.top 0 = some (s, oldest))
    (q : SortPaths) (files : List (Nat × Deltas)) (rk : Nat) :
    buildKeys env q files = .missingMerge rk ↔
      readWeave env s env.weave ⟨checkFiles files,0,[],[],oldest,0,Mask.none⟩ = .error rk := by
  unfold buildKeys
  rw [colors]
  dsimp only
  cases readWeave env s env.weave ⟨checkFiles files,0,[],[],oldest,0,Mask.none⟩ with
  | error other => simp
  | ok b =>
    dsimp only
    cases checkRoots env files b.r2deltas with
    | none => simp
    | some roots => simp

theorem missingMerge_iff (tip : MergeTip env) (order : NewestFirst env.weave)
    (kept : ∀ key, env.gone key = false) (q : SortPaths) (files : List (Nat × Deltas)) :
    (∃ rk, buildKeys env q files = .missingMerge rk) ↔ (∃ rk, Unmerged env rk) ∧ EntryBelow env := by
  obtain ⟨s,oldest,colors,colored⟩ := color_merge_colored tip
  obtain ⟨⟨nonzero,_⟩,top⟩ := (onSide_iff_sided tip oldest).mp colored.sided
  obtain ⟨high,low,split,above,below⟩ := order.split oldest
  have highIff : ∀ p, p ∈ high ↔ p ∈ env.weave ∧ oldest ≤ p.ser := by
    intro p
    rw [split,mem_append]
    refine ⟨fun inside => ⟨.inl inside,above p inside⟩, ?_⟩
    intro found
    rcases found.1 with inside | inside
    · exact inside
    · have older := below p inside
      omega
  obtain ⟨b,run,reading⟩ := (reading_start files s oldest).run env nonzero
    (fun p inside => order.real p ((highIff p).mp inside).1) above
  rw [nil_append] at reading
  have behind : ∀ rk, buildKeys env q files = .missingMerge rk ↔
      readWeave env s low b = .error rk := by
    intro rk
    rw [buildKeys_missingMerge colors,split,readWeave_append env s high low run]
  simp only [behind]
  -- the bits of a root key say which csets list it
  have bit : ∀ {f : Mask → Bool} {cset : Nat → Prop}, SideBit f →
      (∀ x, f (flags2mask (s.flags x).color) = true ↔ cset x) → (∀ x, cset x → oldest ≤ x) → ∀ rk,
      f (maskOf b rk) = true ↔ Lists env rk cset := by
    intro f cset side shows within rk
    rw [reading.bits f side rk]
    constructor
    · rintro ⟨p,inside,own,key,bit⟩
      exact ⟨p,((highIff p).mp inside).1,own,key,(shows p.ser).mp bit⟩
    · rintro ⟨p,inside,own,key,holds⟩
      exact ⟨p,(highIff p).mpr ⟨inside,within p.ser holds⟩,own,key,(shows p.ser).mpr holds⟩
  have unmergedIff : ∀ rk, ((maskOf b rk).parent = true ∧ (maskOf b rk).merge = true ∧
      (maskOf b rk).intip = false) ↔ Unmerged env rk := by
    intro rk
    unfold Unmerged
    rw [bit sideBit_parent colored.parent (fun x on => colored.oldest x (.inl on)) rk,
      bit sideBit_merge colored.merge (fun x on => colored.oldest x (.inr on)) rk,
      ← bit sideBit_intip colored.intip (fun _ same => same ▸ top.le) rk,Bool.not_eq_true]
  cases low with
  | nil =>
    constructor
    · intro found
      exact absurd found.choose_spec (by simp [readWeave])
    rintro ⟨_,p,inside,older⟩
    rw [append_nil] at split
    rw [split] at inside
    have newer := above p inside
    have under := older oldest colored.sided
    omega
  | cons p low =>
    have inside : p ∈ env.weave := by
      rw [split]
      exact mem_append_right high mem_cons_self
    have older := below p mem_cons_self
    have entry : EntryBelow env :=
      ⟨p,inside,fun x side => lt_of_lt_of_le older (colored.oldest x side)⟩
    rw [reading.evaluate kept (order.real p inside) older low]
    simp only [unmergedIff,entry,and_true]

/-- Six csets: 2 and 3 start from the first one, 4 merges them, 5 follows 3 and
6 merges 4 and 5. -/
def sixCsets : Graph where
  table := 6
  parent d := if d = 2 ∨ d = 3 then 1 else if d = 4 ∨ d = 5 then 3 else if d = 6 then 4 else 0
  merge d := if d = 4 then 2 else if d = 6 then 5 else 0
  parent_lt := by intro d real; clear * - real; grind
  merge_lt := by intro d real; clear * - real; grind

def sixEnv (weave : List Pair) : Env where
  g := sixCsets
  flags := ⟨fun _ => Flags.clear, 0,0,false,false⟩
  top := 6
  weave := weave
  rkey rk := [48 + rk.toUInt8]
  gone _ := false
  present _ := true
  all := true
  doMarks := false
  processDups _ _ _ _ := false
  spare := []

/-- Csets 4 and 5 change file 7, the merge does not; cset 3, which both sides have, is newer than 2.
-/
def sixWeave : List Pair := [⟨5,7,some [53]⟩,⟨4,7,some [52]⟩,⟨3,8,some [51]⟩,⟨2,9,some [50]⟩]

theorem sixEnv_tip (weave : List Pair) : MergeTip (sixEnv weave) where
  nonzero := show 6 ≠ 0 by decide
  table := Nat.le_refl 6
  real := rfl
  parented := show sixCsets.parent 6 ≠ 0 by decide
  merged := show sixCsets.merge 6 ≠ 0 by decide
  distinct := show sixCsets.parent 6 ≠ sixCsets.merge 6 by decide
  clean _ := rfl

/-- The merge check is exact iff, where a merge is missing, an entry of the weave is older than both
sides. -/
theorem buildKeys_merge_exact (env : Env) (tip : MergeTip env) (order : NewestFirst env.weave)
    (kept : ∀ key, env.gone key = false) (q : SortPaths) (files : List (Nat × Deltas)) :
    ((∃ rk, buildKeys env q files = .missingMerge rk) ↔ ∃ rk, Unmerged env rk) ↔
      ((∃ rk, Unmerged env rk) → EntryBelow env) := by
  rw [missingMerge_iff tip order kept q files]
  constructor
  · intro same missing
    exact (same.mpr missing).2
  · intro evaluated
    exact ⟨fun both => both.1, fun missing => ⟨missing,evaluated missing⟩⟩

theorem buildKeys_merge_exact_six :
    MergeTip (sixEnv (sixWeave ++ [⟨1,9,some [49]⟩])) ∧
    NewestFirst (sixEnv (sixWeave ++ [⟨1,9,some [49]⟩])).weave ∧
    (((∃ rk, buildKeys (sixEnv (sixWeave ++ [⟨1,9,some [49]⟩])) insertPaths [] = .missingMerge rk) ↔
        ∃ rk, Unmerged (sixEnv (sixWeave ++ [⟨1,9,some [49]⟩])) rk) ↔
      ((∃ rk, Unmerged (sixEnv (sixWeave ++ [⟨1,9,some [49]⟩])) rk) →
        EntryBelow (sixEnv (sixWeave ++ [⟨1,9,some [49]⟩])))) :=
  have order : NewestFirst (sixEnv (sixWeave ++ [⟨1,9,some [49]⟩])).weave := ⟨by decide,by decide⟩
  ⟨sixEnv_tip _,order,buildKeys_merge_exact _ (sixEnv_tip _) order (fun _ => rfl) insertPaths []⟩

/-- The missing merge of file 7 is overlooked: no entry is older than cset 2, on one side only. -/
theorem buildKeys_merge_overlooked :
    MergeTip (sixEnv sixWeave) ∧ NewestFirst sixWeave ∧
    Lists (sixEnv sixWeave) 8
      (fun x => Reach (eachParent sixCsets) 4 x ∧ Reach (eachParent sixCsets) 5 x) ∧
    Unmerged (sixEnv sixWeave) 7 ∧
    ¬ ∃ rk, buildKeys (sixEnv sixWeave) insertPaths [] = .missingMerge rk := by
  have order : NewestFirst sixWeave := ⟨by decide,by decide⟩
  refine ⟨sixEnv_tip sixWeave,order,?_,?_,?_⟩
  · exact ⟨⟨3,8,some [51]⟩,by decide,rfl,rfl,by decide,by decide⟩
  · refine ⟨⟨⟨4,7,some [52]⟩,by decide,rfl,rfl,by decide,by decide⟩,
      ⟨⟨5,7,some [53]⟩,by decide,rfl,rfl,by decide,by decide⟩,?_⟩
    rintro ⟨p,inside,_,_,top⟩
    have low : ∀ p ∈ sixWeave, p.ser < 6 := by decide
    exact absurd top (Nat.ne_of_lt (low p inside))
  · intro found
    obtain ⟨_,p,inside,older⟩ :=
      (missingMerge_iff (sixEnv_tip sixWeave) order (fun _ => rfl) insertPaths []).mp found
    have newer : ∀ p ∈ sixWeave, 2 ≤ p.ser := by decide
    have below := older 2 (.inl ⟨by decide,by decide⟩)
    have above := newer p inside
    omega

end BitKeeper.Check

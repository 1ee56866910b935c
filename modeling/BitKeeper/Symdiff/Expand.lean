import BitKeeper.Symdiff.Walk

/-!
Whole walks. When the counter is used up the two sides have the same marks on everything ahead; what
is left of the marks is wiped off down to `lower`.
-/

namespace BitKeeper.Symdiff

open List Activation Dag Bool

structure Keeping (t : Task) (old : Nat → Byte) (d : Nat) (st : State) : Prop where
  balance : st.marked = total (fun e => weigh (!t.expand) (st.slist e)) d
  diff : ∀ e, e ≤ d → hasDiff (st.slist e) = hasDiff (old e)
  tags : ∀ e, e ≤ d → t.s.graph.tag e = true → st.slist e = old e
  zero : st.slist 0 = old 0
  low : ∀ e, e ≤ d → st.slist e ≠ old e → st.lower ≤ e
  positive : st.lower ≠ 0

structure Plain (t : Task) (old : Nat → Byte) : Prop where
  byte : ∀ e, old e = diffByte (hasDiff (old e))
  tags : ∀ e, t.s.graph.tag e = true → t.expand = false → hasDiff (old e) = false

variable {t : Task} {old : Nat → Byte} {e : Nat}

theorem Plain.weightless (plain : Plain t old) (tag : t.s.graph.tag e = true) :
    weigh (!t.expand) (old e) = 0 := by
  have byte := plain.byte e
  cases expand : t.expand with
  | true =>
    rw [byte]
    cases hasDiff (old e) <;> decide
  | false =>
    rw [plain.tags e tag expand] at byte
    rw [byte]
    decide

theorem sign_notesOf_none {list : List Clude} (absent : ∀ c ∈ list, c.serial ≠ e) :
    sign (notesOf list) e = none :=
  sign_none.mpr fun c inside => absent ⟨c.1,c.2⟩ (mem_notesOf.mp inside)

variable {s : Sfile}

theorem tag_outside {cludes : Nat → List Clude} (proper : Proper s.graph cludes)
    (tag : s.graph.tag e = true) :
    Outside (s.net cludes proper) e := by
  intro d real
  refine ⟨fun inside => ?_, fun c inside same => ?_⟩
  · exact false_ne_true ((lineage_real s real inside).symm.trans tag)
  · exact false_ne_true
      ((proper.real d _ (mem_notesOf.mp inside)).symm.trans ((congrArg s.graph.tag same).trans tag))

theorem zero_outside {cludes : Nat → List Clude} (proper : Proper s.graph cludes) :
    Outside (s.net cludes proper) 0 :=
  fun d _ =>
    ⟨fun inside => (lineage_below s inside).1 rfl,
    fun _ inside => (proper.below d _ (mem_notesOf.mp inside)).1⟩

variable {d : Nat} {st : State}

theorem Keeping.visit (keeping : Keeping t old (d + 1) st) (plain : Plain t old)
    (proper : Proper t.s.graph t.cludes) :
    Visited t (t.s.net t.cludes proper) d st (visit t (d + 1) st) ∧
      Keeping t old d (visit t (d + 1) st) := by
  have visited := visit_spec proper d st fun tag => by
    rw [keeping.tags (d + 1) le_rfl tag]
    exact plain.weightless tag
  refine ⟨visited,?_,fun e below => ?_, fun e below tag => ?_, ?_,fun e below other => ?_,
    visited.positive keeping.positive⟩
  · have balance := visited.balance
    have before := keeping.balance
    omega
  · exact (visited.diff e below).trans (keeping.diff e (by omega))
  · rw [← keeping.tags e (by omega) tag]
    refine byte_ext (fun side => ?_) (visited.diff e below) ?_
    · rw [visited.marks side e below]
      exact step_outside _ (tag_outside proper tag)
    · have absent : sign (notesOf (t.cludes (d + 1))) e = none :=
          sign_notesOf_none fun c inside same =>
        Bool.false_ne_true ((proper.real _ c inside).symm.trans (same ▸ tag))
      rw [visited.dup e below,absent]
      exact if_neg fun both => Bool.false_ne_true both.2.2.2
  · exact visited.zero.trans keeping.zero
  · by_cases same : (Symdiff.visit t (d + 1) st).slist e = st.slist e
    · exact Nat.le_trans visited.lower (keeping.low e (by omega) (same ▸ other))
    · exact visited.changed e below same

theorem Keeping.even (keeping : Keeping t old d st) (spent : st.marked = 0) (nonzero : e ≠ 0)
    (below : e ≤ d) :
    mark .left (st.slist e) = mark .right (st.slist e) ∧
      (t.expand = false → hasDiff (st.slist e) = false) ∧
      hasDup (st.slist e) = false := by
  have zero :=
    total_zero (fun e => weigh_nonneg (!t.expand) (st.slist e)) (by rw [← keeping.balance,spent])
    nonzero below
  unfold weigh at zero
  refine ⟨?_,fun compress => ?_, ?_⟩
  · by_contra other
    rw [if_neg other] at zero
    split at zero <;> split at zero <;> omega
  · by_contra set
    have on : (!t.expand && hasDiff (st.slist e)) = true :=
      by rw [compress,eq_true_of_not_eq_false set]; rfl
    rw [if_pos on] at zero
    split at zero <;> split at zero <;> omega
  · by_contra set
    rw [if_pos (eq_true_of_not_eq_false set)] at zero
    split at zero <;> split at zero <;> omega

private theorem fresh_eq (lower d : Nat) (slist : Nat → Byte) (e : Nat) :
    fresh lower d slist e = if e ≠ 0 ∧ lower ≤ e ∧ e ≤ d then slist e &&& S_DIFF else slist e := by
  induction d generalizing slist with
  | zero =>
    rw [if_neg (by omega)]
    rfl
  | succ d ih =>
    unfold fresh
    split
    · rw [if_neg (by omega)]
    rw [ih]
    by_cases top : e = d + 1
    · subst top
      rw [if_neg (by omega),if_pos (by omega),Function.update_self]
    · rw [Function.update_of_ne top]
      have same : (e ≠ 0 ∧ lower ≤ e ∧ e ≤ d) ↔ (e ≠ 0 ∧ lower ≤ e ∧ e ≤ d + 1) := by omega
      simp only [same]

def wiped (out : State × Nat) : Nat → Byte :=
  if out.2 ≠ 0 ∧ out.1.lower ≠ 0 then fresh out.1.lower out.2 out.1.slist else out.1.slist

variable {out : State × Nat}

theorem wiped_above (above : out.2 < e) : wiped out e = out.1.slist e := by
  unfold wiped
  split
  · rw [fresh_eq,if_neg (by omega)]
  · rfl

theorem Keeping.wiped (keeping : Keeping t old out.2 out.1) (plain : Plain t old)
    (below : e ≤ out.2) : wiped out e = old e := by
  unfold Symdiff.wiped
  by_cases none : out.2 = 0
  · rw [if_neg fun both => both.1 none]
    rw [show e = 0 by omega]
    exact keeping.zero
  rw [if_pos ⟨none,keeping.positive⟩,fresh_eq]
  by_cases zero : e = 0
  · rw [if_neg fun both => both.1 zero, zero]
    exact keeping.zero
  by_cases high : out.1.lower ≤ e
  · rw [if_pos ⟨zero,high,below⟩,diff_bit,keeping.diff e below]
    exact (plain.byte e).symm
  · rw [if_neg fun both => high both.2.1]
    by_contra other
    exact high (keeping.low e below other)

def unseeded (t : Task) (slist : Nat → Byte) (count : Int) : State :=
  { slist := slist, marked := if t.expand then 0 else count, lower := t.s.graph.table
    count := 0, cludes := [], dups := [] }

variable {leftlist : List Nat}

theorem symdiff_eq {slist : Nat → Byte} {count : Int}
    (ran : walkDown t (startOf leftlist t.right) (seed t leftlist (unseeded t slist count)) = out)
    (done : out.1.marked = 0) :
    symdiff t leftlist slist count = some { out.1 with slist := wiped out } := by
  unfold unseeded at ran
  unfold symdiff wiped
  dsimp only
  rw [ran,if_neg fun other => other done]
  split <;> rfl

def RealSerial (g : Graph) (d : Nat) : Prop := d ≠ 0 ∧ d ≤ g.table ∧ g.tag d = false

instance (g : Graph) (d : Nat) : Decidable (RealSerial g d) :=
  inferInstanceAs (Decidable (d ≠ 0 ∧ d ≤ g.table ∧ g.tag d = false))

def seedMarks (list : List Nat) (e : Nat) : Mark :=
  if e ∈ list then Mark.blank.inherit else Mark.blank

def rightList (right : Nat) : List Nat := if right = 0 then [] else [right]

def seedsOf (leftlist : List Nat) (right : Nat) : Side → List Nat
  | .left => leftlist
  | .right => rightList right

theorem le_newest (list : List Nat) (start : Nat) :
    start ≤ list.foldl (fun start d => if start < d then d else start) start ∧
      ∀ d ∈ list, d ≤ list.foldl (fun start d => if start < d then d else start) start := by
  induction list generalizing start with
  | nil => exact ⟨le_rfl,nofun⟩
  | cons first rest ih =>
    obtain ⟨more,all⟩ := ih (if start < first then first else start)
    have begin : start ≤ (if start < first then first else start) ∧
        first ≤ (if start < first then first else start) := by
      split <;> omega
    rw [foldl_cons]
    refine ⟨by omega,fun d inside => ?_⟩
    rcases mem_cons.mp inside with rfl | later
    · omega
    · exact all d later

variable {list : List Nat}

theorem newest_le {start n : Nat} (within : ∀ d ∈ list, d ≤ n) (low : start ≤ n) :
    list.foldl (fun start d => if start < d then d else start) start ≤ n := by
  induction list generalizing start with
  | nil => exact low
  | cons first rest ih =>
    obtain ⟨here,later⟩ := forall_mem_cons.mp within
    exact ih later (by dsimp only; split <;> omega)

variable {right : Nat}

theorem le_startOf {side : Side} (inside : d ∈ seedsOf leftlist right side) :
    d ≤ startOf leftlist right := by
  have lists := le_newest leftlist 0
  unfold startOf
  dsimp only
  cases side with
  | left =>
    have low := lists.2 d inside
    split <;> omega
  | right =>
    have same : d = right := by
      by_cases zero : right = 0
      · exact absurd inside (by simp [seedsOf,rightList,zero])
      · exact mem_singleton.mp (by simpa [seedsOf,rightList,zero] using inside)
    split <;> omega

theorem startOf_le {n : Nat} (left : ∀ d ∈ leftlist, d ≤ n) (low : right ≤ n) :
    startOf leftlist right ≤ n := by
  have list := newest_le left (Nat.zero_le n)
  unfold startOf
  dsimp only
  split <;> omega

theorem mark_plain (byte : ∀ e, old e = diffByte (hasDiff (old e))) (side : Side) (e : Nat) :
    mark side (old e) = Mark.blank ∧ hasDup (old e) = false := by
  rw [byte e]
  exact ⟨mark_diffByte side _,(flags_diffByte _).2⟩

structure Seeded (t : Task) (leftlist : List Nat) (old : Nat → Byte) (st : State) : Prop where
  keeping : Keeping t old (startOf leftlist t.right) st
  marks : ∀ side e, mark side (st.slist e) = seedMarks (seedsOf leftlist t.right side) e
  dup : ∀ e, hasDup (st.slist e) = false
  above : ∀ e, startOf leftlist t.right < e → st.slist e = old e
  count : st.count = 0
  cludes : st.cludes = []
  dups : st.dups = []

theorem seed_seeded {count : Int} (plain : Plain t old)
    (left : ∀ d ∈ leftlist, RealSerial t.s.graph d)
    (right : t.right = 0 ∨ RealSerial t.s.graph t.right) (table : t.s.graph.table ≠ 0)
    (counted : (if t.expand then 0 else count) = total (fun e => weigh (!t.expand) (old e))
    (startOf leftlist t.right)) :
    Seeded t leftlist old (seed t leftlist (unseeded t old count)) := by
  have rights : ∀ d ∈ rightList t.right, RealSerial t.s.graph d := by
    intro d inside
    unfold rightList at inside
    split at inside
    · cases inside
    case isFalse nonzero =>
        rw [mem_singleton.mp inside]
        exact right.resolve_left nonzero
  have shape : ∀ v : State, seed t leftlist v = (rightList t.right).foldl
    (fun st e => update e (parByte false true) st)
      (leftlist.foldl (fun st e => update e (parByte true false) st) v) := by
    intro v
    unfold seed rightList
    split <;> rfl
  have lowLeft : ∀ e ∈ leftlist, e ≠ 0 ∧ e ≤ startOf leftlist t.right := fun e inside =>
    ⟨(left e inside).1,le_startOf (show e ∈ seedsOf leftlist t.right .left from inside)⟩
  have lowRight : ∀ e ∈ rightList t.right, e ≠ 0 ∧ e ≤ startOf leftlist t.right := fun e inside =>
    ⟨(rights e inside).1,le_startOf (show e ∈ seedsOf leftlist t.right .right from inside)⟩
  obtain ⟨first,marksFirst,dupFirst,dupsFirst⟩ :=
    inherit_touched (!t.expand) true false (unseeded t old count) lowLeft
  obtain ⟨second,marksSecond,dupSecond,dupsSecond⟩ := inherit_touched (!t.expand) false true
    (leftlist.foldl (fun st e => update e (parByte true false) st) (unseeded t old count)) lowRight
  rw [← shape] at second marksSecond dupSecond dupsSecond
  have touched := first.trans second
  have marks : ∀ side e, mark side ((seed t leftlist (unseeded t old count)).slist e) =
      seedMarks (seedsOf leftlist t.right side) e := by
    intro side e
    have bare : mark side ((unseeded t old count).slist e) = Mark.blank :=
      (mark_plain plain.byte side e).1
    rw [marksSecond,marksFirst,bare]
    cases side with
    | left =>
      rw [if_neg fun both => Bool.false_ne_true both.1]
      exact if_congr (and_iff_right rfl) rfl rfl
    | right =>
      rw [if_neg (show ¬ (Side.pick true false .right = true ∧ e ∈ leftlist)
        from fun both => false_ne_true both.1)]
      exact if_congr (and_iff_right rfl) rfl rfl
  have dup : ∀ e, hasDup ((seed t leftlist (unseeded t old count)).slist e) = false := by
    intro e
    rw [dupSecond,dupFirst]
    exact (mark_plain plain.byte .left e).2
  refine ⟨⟨?_,fun e _ => touched.diff e, fun e _ tag => ?_, touched.zero,
    fun e _ => touched.changed e, touched.positive table⟩, marks,dup,touched.above,touched.count,
    touched.cludes,dupsSecond.trans dupsFirst⟩
  · have balance := touched.balance
    have start : (unseeded t old count).marked =
      total (fun e => weigh (!t.expand) ((unseeded t old count).slist e))
        (startOf leftlist t.right) := counted
    omega
  · refine byte_ext (fun side => ?_) (touched.diff e) ?_
    · rw [marks,(mark_plain plain.byte side e).1]
      refine if_neg fun inside => ?_
      cases side with
      | left => exact false_ne_true ((left e inside).2.2.symm.trans tag)
      | right => exact false_ne_true ((rights e inside).2.2.symm.trans tag)
    · rw [dup,(mark_plain plain.byte .left e).2]

def flipped (g : Graph) (old : Nat → Byte) (act : Side → Nat → Bool) (e : Nat) : Byte :=
  if g.tag e then old e else diffByte (hasDiff (old e) ^^ (act .left e ^^ act .right e))

structure Expanding (t : Task) (net : Net) (old : Nat → Byte) (act : Side → Nat → Bool)
    (top d : Nat) (st : State) : Prop where
  keeping : Keeping t old d st
  goals : ∀ side e, e ≤ d → (walk net d (fun e => mark side (st.slist e)) e).active = act side e
  above : ∀ e, d < e → st.slist e = flipped t.s.graph old act e
  count : st.count = total (fun e => one (st.slist e) - one (old e)) top

variable {act : Side → Nat → Bool} {top : Nat}

theorem Expanding.visit (expand : t.expand = true) (proper : Proper t.s.graph t.cludes)
    (plain : Plain t old) (low : d + 1 ≤ top)
    (expanding : Expanding t (t.s.net t.cludes proper) old act top (d + 1) st) :
    Expanding t (t.s.net t.cludes proper) old act top d (Symdiff.visit t (d + 1) st) := by
  obtain ⟨visited,keeping⟩ := expanding.keeping.visit plain proper
  have answers : ∀ side, answer t.expand (st.slist (d + 1)) side =
      (mark side (st.slist (d + 1))).active := by
    intro side
    cases side with
    | left => rfl
    | right => exact if_pos expand
  have active : ∀ side, (mark side (st.slist (d + 1))).active = act side (d + 1) := by
    intro side
    rw [← expanding.goals side (d + 1) le_rfl,walk_above _ le_rfl]
  refine ⟨keeping,fun side e below => ?_, fun e high => ?_, ?_⟩
  · rw [← expanding.goals side e (by omega)]
    conv_rhs => unfold walk
    refine congrArg Mark.active (walk_congr (fun e low => ?_) below)
    rw [visited.marks side e low,answers]
  · by_cases here : e = d + 1
    · subst here
      unfold flipped
      rw [visited.own]
      by_cases tag : t.s.graph.tag (d + 1) = true
      · rw [if_pos tag,if_pos tag]
        exact expanding.keeping.tags (d + 1) le_rfl tag
      · rw [if_neg tag,if_neg tag]
        unfold settled
        rw [if_pos expand,active,active,expanding.keeping.diff (d + 1) le_rfl]
    · rw [visited.above e (by omega)]
      exact expanding.above e (by omega)
  · have counted := visited.count
    rw [if_pos expand] at counted
    have moved : total (fun e => one ((Symdiff.visit t (d + 1) st).slist e) - one (old e)) top =
        total (fun e => one (st.slist e) - one (old e))
          top - (one (st.slist (d + 1)) - one (old (d + 1))) +
          (one ((Symdiff.visit t (d + 1) st).slist (d + 1)) - one (old (d + 1))) := by
      refine total_change (Nat.succ_ne_zero d) low fun e other => ?_
      by_cases below : e ≤ d
      · unfold one
        rw [visited.diff e below]
      · rw [visited.above e (by omega)]
    have before := expanding.count
    omega

theorem Expanding.stop {net : Net} (plain : Plain t old)
    (expanding : Expanding t net old act top out.2 out.1) (spent : out.1.marked = 0) (e : Nat) :
    wiped out e = flipped t.s.graph old act e := by
  by_cases above : out.2 < e
  · rw [wiped_above above]
    exact expanding.above e above
  have below : e ≤ out.2 := by omega
  have same : act .left e = act .right e := by
    rw [← expanding.goals .left e below,← expanding.goals .right e below]
    refine congrArg Mark.active ?_
    -- serial zero is never active: its marks are those of the map
    refine walk_congr (fun f low => ?_) below
    by_cases zero : f = 0
    · rw [zero,expanding.keeping.zero,(mark_plain plain.byte .left 0).1,
        (mark_plain plain.byte .right 0).1]
    · exact (expanding.keeping.even spent zero low).1
  rw [expanding.keeping.wiped plain below]
  unfold flipped
  split
  · rfl
  · rw [same,Bool.xor_self,Bool.xor_false]
    exact plain.byte e

theorem walkDown_invariant {P : Nat → State → Prop} (ended : ∀ st, P 0 st → st.marked = 0)
    (step : ∀ d st, d < top → P (d + 1) st → P d (visit t (d + 1) st)) (low : d ≤ top)
    (start : P d st) :
    (walkDown t d st).1.marked = 0 ∧ P (walkDown t d st).2 (walkDown t d st).1 := by
  induction d generalizing st with
  | zero => exact ⟨ended st start,start⟩
  | succ d ih =>
    unfold walkDown
    split
    next spent =>
      exact ⟨spent,start⟩
    · exact ih (by omega) (step d st low start)

theorem walk_seeds_blank (proper : Proper s.graph s.cludes)
    (real : ∀ d ∈ list, RealSerial s.graph d) (top : Nat) (apart : e = 0 ∨ s.graph.tag e = true) :
    walk (s.net s.cludes proper) top (seedMarks list) e = Mark.blank := by
  have outside : Outside (s.net s.cludes proper) e := by
    rcases apart with rfl | tag
    · exact zero_outside proper
    · exact tag_outside proper tag
  rw [walk_outside _ outside]
  refine if_neg fun inside => ?_
  obtain ⟨nonzero,_low,plain⟩ := real e inside
  rcases apart with zero | tag
  · exact nonzero zero
  · exact false_ne_true (plain.symm.trans tag)

theorem mem_rightList : d ∈ rightList right ↔ d = right ∧ d ≠ 0 := by
  unfold rightList
  split
  case isTrue zero => exact ⟨nofun, fun both => absurd (both.1.trans zero) both.2⟩
  case isFalse nonzero =>
    exact ⟨fun inside => ⟨mem_singleton.mp inside,
    fun zero => nonzero ((mem_singleton.mp inside).symm.trans zero)⟩,fun both =>
    mem_singleton.mpr both.1⟩

def activeFrom (net : Net) (list : List Nat) (top e : Nat) : Bool :=
  (walk net top (seedMarks list) e).active

theorem activeFrom_above (net : Net) (within : ∀ d ∈ list, d ≤ top) (above : top < e) :
    activeFrom net list top e = false := by
  unfold activeFrom seedMarks
  rw [walk_above _ (by omega),if_neg fun inside => absurd (within e inside) (by omega)]
  rfl

theorem flipped_above {g : Graph} {net : Net} (byte : ∀ e, old e = diffByte (hasDiff (old e)))
    (above : startOf leftlist right < e) :
    flipped g old
      (fun side => activeFrom net (seedsOf leftlist right side) (startOf leftlist right)) e =
      old e := by
  have off : ∀ side, activeFrom net (seedsOf leftlist right side) (startOf leftlist right) e =
      false := fun side =>
    activeFrom_above net (fun d inside => le_startOf inside) above
  unfold flipped
  dsimp only
  rw [off,off]
  split
  · rfl
  · rw [Bool.xor_self,Bool.xor_false]
    exact (byte e).symm

theorem seed_expanding (count : Int) (expand : t.expand = true) (proper : Proper t.s.graph t.cludes)
    (plain : Plain t old) (left : ∀ d ∈ leftlist, RealSerial t.s.graph d)
    (right : t.right = 0 ∨ RealSerial t.s.graph t.right) (table : t.s.graph.table ≠ 0) :
    Seeded t leftlist old (seed t leftlist (unseeded t old count)) ∧
      Expanding t (t.s.net t.cludes proper) old
        (fun side => activeFrom (t.s.net t.cludes proper) (seedsOf leftlist t.right side)
    (startOf leftlist t.right))
        (startOf leftlist t.right) (startOf leftlist t.right)
    (seed t leftlist (unseeded t old count)) := by
  have weightless : ∀ e, weigh (!t.expand) (old e) = 0 := by
    intro e
    rw [plain.byte e,expand]
    cases hasDiff (old e) <;> decide
  have counted : (if t.expand then 0 else count) = total (fun e => weigh (!t.expand) (old e))
      (startOf leftlist t.right) := by
    rw [if_pos expand,total_congr fun e _ _ => weightless e, total_nothing]
  have seeded := seed_seeded plain left right table counted
  have seeds : ∀ side e, (fun e => mark side ((seed t leftlist (unseeded t old count)).slist e)) e =
      seedMarks (seedsOf leftlist t.right side) e := seeded.marks
  refine ⟨seeded,seeded.keeping,fun side e below => ?_, fun e above => ?_, ?_⟩
  · exact congrArg Mark.active (walk_congr (fun f _ => seeds side f) below)
  · rw [seeded.above e above,flipped_above plain.byte above]
  · rw [seeded.count]
    refine ((total_congr fun e _ below => ?_).trans (total_nothing _)).symm
    unfold one
    rw [seeded.keeping.diff e below]
    omega

theorem symdiff_expands (t : Task) (leftlist : List Nat) (old : Nat → Byte) (count : Int)
    (expand : t.expand = true) (proper : Proper t.s.graph t.cludes) (plain : Plain t old)
    (left : ∀ d ∈ leftlist, RealSerial t.s.graph d)
    (right : t.right = 0 ∨ RealSerial t.s.graph t.right) (table : t.s.graph.table ≠ 0) :
    ∃ st, symdiff t leftlist old count = some st ∧ (∀ e, st.slist e = flipped t.s.graph old
        (fun side => activeFrom (t.s.net t.cludes proper) (seedsOf leftlist t.right side)
    (startOf leftlist t.right)) e) ∧
      st.count = total (fun e => one (st.slist e) - one (old e)) (startOf leftlist t.right) := by
  obtain ⟨_seeded,start⟩ := seed_expanding count expand proper plain left right table
  obtain ⟨spent,stopped⟩ := walkDown_invariant (fun _ expanding => expanding.keeping.balance)
    (fun _ _ low expanding => Expanding.visit expand proper plain low expanding) le_rfl start
  refine ⟨_,symdiff_eq rfl spent,fun e => stopped.stop plain spent e, ?_⟩
  dsimp only
  rw [stopped.count]
  refine total_congr fun e _ _ => ?_
  unfold one
  rw [stopped.stop plain spent e]
  by_cases above : (walkDown t (startOf leftlist t.right)
    (seed t leftlist (unseeded t old count))).2 < e
  · rw [stopped.above e above]
  · rw [← stopped.stop plain spent e,stopped.keeping.wiped plain (by omega),
      stopped.keeping.diff e (by omega)]

def ones (g : Graph) (map : Nat → Byte) : Nat := g.serials.countP fun e => decide (map e ≠ 0)

theorem total_ones {g : Graph} (byte : ∀ e, old e = diffByte (hasDiff (old e))) :
    total (fun e => one (old e)) g.table = ones g old := by
  unfold ones Graph.serials
  rw [← total_countP]
  refine total_congr fun e _ _ => ?_
  refine if_congr ?_ rfl rfl
  rw [decide_eq_true_iff,byte e,(flags_diffByte _).1]
  cases hasDiff (old e) <;> decide

/-- Two branches from 1: 4 includes the other one in place of its own parent 2, 6 merges it into 3 and
includes 2; 5 is a tag. -/
def branched : Sfile where
  graph :=
    { table := 6
      parent := fun d =>
        if d = 2 ∨ d = 3 then 1 else if d = 4 then 2 else if d = 5 then 4 else if d = 6 then 3 else 0
      merge := fun d => if d = 6 then 4 else 0
      tag := fun d => d = 5
      parent_lt := fun d nonzero => by clear * - nonzero; grind
      merge_lt := fun d nonzero => by clear * - nonzero; grind
      parent_real := fun d real child => by clear * - real child; grind
      merge_real := fun d real child => by clear * - real child; grind }
  bkmerge := false
  cludes := fun d => if d = 4 then [⟨true,3⟩,⟨false,2⟩] else if d = 6 then [⟨true,2⟩] else []

theorem branched_proper : Proper branched.graph branched.cludes := by
  have six : ∀ d, branched.graph.merge d ≠ 0 → d = 6 := by grind [branched]
  have listed : ∀ d, branched.cludes d ≠ [] → d = 4 ∨ d = 6 := by grind [branched]
  have checked : ∀ d, d = 4 ∨ d = 6 → ∀ c ∈ branched.cludes d, (c.serial ≠ 0 ∧ c.serial < d) ∧
      branched.graph.tag c.serial = false ∧
      ∀ c' ∈ branched.cludes d, c.serial = c'.serial → c.plus = c'.plus := by
    rintro d (rfl | rfl) <;> decide
  have ok := fun d c inside => checked d (listed d (ne_nil_of_mem inside)) c inside
  exact ⟨fun d merges => by rw [six d merges]; decide,fun d c inside => (ok d c inside).1,
    fun d c inside => (ok d c inside).2.1,fun d c inside => (ok d c inside).2.2⟩

end BitKeeper.Symdiff

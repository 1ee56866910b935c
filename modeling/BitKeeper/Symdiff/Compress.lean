import BitKeeper.Symdiff.Expand

/-!
Compressing: a delta whose marks would not give the answer that the map asks for is put on the list
of the right delta. In front of all other notes, that list forces the answers.
-/

namespace BitKeeper.Symdiff

open List Activation Dag Nat

def asked (old : Nat → Byte) (act : Nat → Bool) (e : Nat) : Bool := act e ^^ hasDiff (old e)

structure Wanted (g : Graph) (goal : Nat → Bool) (marks : Nat → Mark) (c : Clude) : Prop where
  real : g.tag c.serial = false
  differs : (marks c.serial).active ≠ goal c.serial
  plus : c.plus = goal c.serial

structure Compressing (t : Task) (net : Net) (old : Nat → Byte) (act : Nat → Bool)
    (marks : Nat → Mark) (top d : Nat) (st : State) : Prop where
  keeping : Keeping t old d st
  left : ∀ e, e ≤ d → (walk net d (fun e => mark .left (st.slist e)) e).active = act e
  right : ∀ e, e ≤ d → walkWith net (asked old act) d (fun e => mark .right (st.slist e)) e = marks e
  above : ∀ e, d < e → st.slist e = 0
  listed : ∀ c, c ∈ st.cludes ↔ d < c.serial ∧ c.serial ≤ top ∧
    Wanted t.s.graph (asked old act) marks c
  sorted : st.cludes.Pairwise fun a b => b.serial < a.serial

variable {d : Nat}

private theorem mem_needed {bits : Byte} {c : Clude} :
    c ∈ needed false d bits ↔
      c.serial = d ∧ (mark .right bits).active ≠ ((mark .left bits).active ^^ hasDiff bits) ∧
      c.plus = ((mark .left bits).active ^^ hasDiff bits) := by
  unfold needed
  by_cases differs : (mark .right bits).active ≠ ((mark .left bits).active ^^ hasDiff bits)
  · rw [if_pos ⟨rfl,differs⟩,mem_singleton]
    constructor
    · rintro rfl
      exact ⟨rfl,differs,rfl⟩
    · rintro ⟨same,_,plus⟩
      obtain ⟨sign,serial⟩ := c
      rw [show serial = d from same,show sign = _ from plus]
  · rw [if_neg fun both => differs both.2]
    exact ⟨nofun, fun all => absurd all.2.1 differs⟩

variable {t : Task} {old : Nat → Byte} {act : Nat → Bool} {marks : Nat → Mark} {top : Nat}
  {st : State}

theorem Compressing.visit (compress : t.expand = false) (proper : Proper t.s.graph t.cludes)
    (plain : Plain t old) (low : d + 1 ≤ top)
    (compressing : Compressing t (t.s.net t.cludes proper) old act marks top (d + 1) st) :
    Compressing t (t.s.net t.cludes proper) old act marks top d (Symdiff.visit t (d + 1) st) := by
  obtain ⟨visited,keeping⟩ := compressing.keeping.visit plain proper
  have leftTop : (mark .left (st.slist (d + 1))).active = act (d + 1) := by
    rw [← compressing.left (d + 1) le_rfl,walk_above _ le_rfl]
  have rightTop : mark .right (st.slist (d + 1)) = marks (d + 1) := by
    rw [← compressing.right (d + 1) le_rfl,walkWith_above _ le_rfl]
  have goalTop : ((mark .left (st.slist (d + 1))).active ^^ hasDiff (st.slist (d + 1))) =
      asked old act (d + 1) := by
    unfold asked
    rw [leftTop,compressing.keeping.diff (d + 1) le_rfl]
  have rightAnswer : answer t.expand (st.slist (d + 1)) .right = asked old act (d + 1) := by
    rwa [compress]
  have cludesEq := visited.cludes
  rw [compress] at cludesEq
  have own : ∀ c,
    c ∈ (if t.s.graph.tag (d + 1) then [] else needed false (d + 1) (st.slist (d + 1))) ↔
      c.serial = d + 1 ∧ Wanted t.s.graph (asked old act) marks c := by
    intro c
    split
    next tag =>
      refine ⟨nofun, fun both => ?_⟩
      have real := both.2.real
      rw [both.1] at real
      exact absurd (real.symm.trans tag) Bool.false_ne_true
    next tag =>
      rw [mem_needed,goalTop,rightTop]
      constructor
      · rintro ⟨same,differs,plus⟩
        exact ⟨same,same ▸ eq_false_of_ne_true tag,same ▸ differs,same ▸ plus⟩
      · rintro ⟨same,wanted⟩
        exact ⟨same,same ▸ wanted.differs,same ▸ wanted.plus⟩
  refine ⟨keeping,fun e below => ?_, fun e below => ?_, fun e high => ?_, fun c => ?_, ?_⟩
  · rw [← compressing.left e (by omega)]
    conv_rhs => unfold walk
    exact congrArg Mark.active (walk_congr (fun f lowF => visited.marks .left f lowF) below)
  · rw [← compressing.right e (by omega)]
    conv_rhs => unfold walkWith
    refine walkWith_congr (fun f lowF => ?_) (fun _ _ _ _ => rfl) below
    rw [visited.marks .right f lowF,rightAnswer]
  · by_cases here : e = d + 1
    · subst here
      rw [visited.own,compress]
      split
      next tag =>
        rw [compressing.keeping.tags (d + 1) le_rfl tag,plain.byte,plain.tags _ tag compress]
        rfl
      · rfl
    · rw [visited.above e (by omega)]
      exact compressing.above e (by omega)
  · rw [cludesEq,mem_append,compressing.listed,own]
    constructor
    · rintro (⟨high,lowC,wanted⟩ | ⟨same,wanted⟩)
      · exact ⟨by omega,lowC,wanted⟩
      · exact ⟨by omega,by omega,wanted⟩
    · rintro ⟨high,lowC,wanted⟩
      by_cases same : c.serial = d + 1
      · exact .inr ⟨same,wanted⟩
      · exact .inl ⟨by omega,lowC,wanted⟩
  · rw [cludesEq]
    refine pairwise_append.mpr ⟨compressing.sorted,?_,fun a inA b inB => ?_⟩
    · split
      · exact List.Pairwise.nil
      · unfold needed
        split
        · exact pairwise_singleton _ _
        · exact List.Pairwise.nil
    · have high := ((compressing.listed a).mp inA).1
      have here := ((own b).mp inB).1
      omega

variable {e : Nat}

theorem Compressing.stop {net : Net} (compress : t.expand = false) (plain : Plain t old)
    (compressing : Compressing t net old act marks top d st) (spent : st.marked = 0)
    (nonzero : e ≠ 0) (below : e ≤ d) :
    (marks e).active = asked old act e ∧ hasDiff (old e) = false := by
  have unset : ∀ f, f ≠ 0 → f ≤ d → hasDiff (old f) = false := by
    intro f nonzeroF low
    rw [← compressing.keeping.diff f low]
    exact (compressing.keeping.even spent nonzeroF low).2.1 compress
  have goal : ∀ f, f ≠ 0 → f ≤ d →
      asked old act f = (walk net d (fun e => mark .left (st.slist e)) f).active := by
    intro f nonzeroF low
    unfold asked
    rw [unset f nonzeroF low,Bool.xor_false,compressing.left f low]
  have same : ∀ f, f ≤ d → mark .right (st.slist f) = mark .left (st.slist f) := by
    intro f low
    by_cases zero : f = 0
    · rw [zero,compressing.keeping.zero,(mark_plain plain.byte .left 0).1,
        (mark_plain plain.byte .right 0).1]
    · exact (compressing.keeping.even spent zero low).1.symm
  refine ⟨?_,unset e nonzero below⟩
  rw [← compressing.right e below,walkWith_congr same (fun f nonzeroF low _ => goal f nonzeroF low)
    below, walk_answers,goal e nonzero below]

theorem symdiff_compresses {leftlist : List Nat} {count : Int} (compress : t.expand = false)
    (proper : Proper t.s.graph t.cludes) (plain : Plain t old)
    (left : ∀ d ∈ leftlist, RealSerial t.s.graph d)
    (right : t.right = 0 ∨ RealSerial t.s.graph t.right) (table : t.s.graph.table ≠ 0)
    (high : ∀ e, startOf leftlist t.right < e → old e = 0) (zero : old 0 = 0)
    (counted : count = total (fun e => one (old e)) (startOf leftlist t.right))
    (acts : ∀ e, act e = activeFrom (t.s.net t.cludes proper) leftlist (startOf leftlist t.right) e)
    (walked : ∀ e, marks e = walkWith (t.s.net t.cludes proper) (asked old act)
    (startOf leftlist t.right) (seedMarks (rightList t.right)) e) :
    ∃ st, symdiff t leftlist old count = some st ∧ (∀ e, st.slist e = 0) ∧
      (∀ c, c ∈ st.cludes ↔ c.serial ≠ 0 ∧ c.serial ≤ startOf leftlist t.right ∧
      Wanted t.s.graph (asked old act) marks c) ∧
      st.cludes.Pairwise fun a b => b.serial < a.serial := by
  have weights : ∀ e, weigh (!t.expand) (old e) = one (old e) := by
    intro e
    rw [plain.byte e,compress]
    cases hasDiff (old e) <;> decide
  have balanced : (if t.expand then 0 else count) = total (fun e => weigh (!t.expand) (old e))
      (startOf leftlist t.right) := by
    rw [if_neg (compress ▸ Bool.false_ne_true),counted]
    exact total_congr fun e _ _ => (weights e).symm
  have seeded := seed_seeded plain left right table balanced
  have start : Compressing t (t.s.net t.cludes proper) old act marks (startOf leftlist t.right)
    (startOf leftlist t.right)
      (seed t leftlist (unseeded t old count)) := by
    refine ⟨seeded.keeping,fun e below => ?_, fun e below => ?_, fun e above => ?_, fun c => ?_, ?_⟩
    · rw [acts e]
      exact congrArg Mark.active (walk_congr (fun f _ => seeded.marks .left f) below)
    · rw [walked e]
      exact walkWith_congr (fun f _ => seeded.marks .right f) (fun _ _ _ _ => rfl) below
    · rw [seeded.above e above,high e above]
    · rw [seeded.cludes]
      exact ⟨nofun, fun both => by omega⟩
    · rw [seeded.cludes]
      exact List.Pairwise.nil
  obtain ⟨spent,stopped⟩ := walkDown_invariant (fun _ compressing => compressing.keeping.balance)
    (fun _ _ low compressing => Compressing.visit compress proper plain low compressing) le_rfl start
  refine ⟨_,symdiff_eq rfl spent,fun e => ?_, fun c => ?_, stopped.sorted⟩
  · dsimp only
    by_cases above : (walkDown t (startOf leftlist t.right)
      (seed t leftlist (unseeded t old count))).2 < e
    · rw [wiped_above above]
      exact stopped.above e above
    · rw [stopped.keeping.wiped plain (by omega)]
      by_cases isZero : e = 0
      · rw [isZero,zero]
      · rw [plain.byte e,(stopped.stop compress plain spent isZero (by omega)).2]
        rfl
  · refine (stopped.listed c).trans ⟨fun all => ⟨by omega,all.2⟩, fun all => ⟨?_,all.2⟩⟩
    by_contra below
    exact all.2.2.differs (stopped.stop compress plain spent all.1 (by omega)).1

def serialsOf (plus : Bool) (list : List Clude) : List Nat :=
  (list.filter fun c => c.plus == plus).map Clude.serial

variable {list : List Clude}

theorem mem_serialsOf {plus : Bool} : d ∈ serialsOf plus list ↔ ⟨plus,d⟩ ∈ list := by
  unfold serialsOf
  rw [mem_map]
  constructor
  · rintro ⟨⟨sign,serial⟩,inside,rfl⟩
    obtain ⟨listed,same⟩ := mem_filter.mp inside
    rwa [← beq_iff_eq.mp same]
  · intro listed
    exact ⟨⟨plus,d⟩,mem_filter.mpr ⟨listed,beq_self_eq_true plus⟩,rfl⟩

theorem newestFirst_perm (list : List Nat) : (newestFirst list).Perm list := mergeSort_perm _ _

theorem newestFirst_sorted {list : List Nat} (nodup : list.Nodup) :
    (newestFirst list).Pairwise fun a b => b < a := by
  have sorted : (newestFirst list).Pairwise fun a b => decide (b ≤ a) = true := by
    refine pairwise_mergeSort (fun a b c first second => ?_) (fun a b => ?_) list
    · rw [decide_eq_true_iff] at first second ⊢
      omega
    · rw [Bool.or_eq_true,decide_eq_true_iff,decide_eq_true_iff]
      omega
  have apart : (newestFirst list).Nodup := (newestFirst_perm list).nodup_iff.mpr nodup
  refine (sorted.and apart).imp fun both => ?_
  have le := of_decide_eq_true both.1
  omega

theorem sortCludes_eq (list : List Clude) :
    sortCludes list = (newestFirst (serialsOf true list)).map (Clude.mk true) ++
      (newestFirst (serialsOf false list)).map (Clude.mk false) := by
  have includes : list.filter Clude.plus = list.filter fun c => c.plus == true :=
    filter_congr fun c _ => by cases c.plus <;> rfl
  have excludes : (list.filter fun c => !c.plus) = list.filter fun c => c.plus == false :=
    filter_congr fun c _ => by cases c.plus <;> rfl
  unfold sortCludes serialsOf
  rw [includes,excludes]

theorem serialsOf_map (plus sign : Bool) (serials : List Nat) :
    serialsOf plus (serials.map (Clude.mk sign)) = if sign == plus then serials else [] := by
  unfold serialsOf
  rw [filter_map,map_map]
  change List.map id (List.filter (fun _ => sign == plus) serials) = _
  rw [map_id]
  cases sign == plus with
  | true => exact filter_true serials
  | false => exact filter_false serials

theorem serialsOf_sortCludes (plus : Bool) (list : List Clude) :
    serialsOf plus (sortCludes list) = newestFirst (serialsOf plus list) := by
  have both : ∀ first second : List Clude, serialsOf plus (first ++ second) = serialsOf plus
      first ++ serialsOf plus second := by
    intro first second
    unfold serialsOf
    rw [filter_append,map_append]
  rw [sortCludes_eq,both,serialsOf_map,serialsOf_map]
  cases plus with
  | true => exact append_nil _
  | false => exact nil_append _

theorem mem_sortCludes {c : Clude} : c ∈ sortCludes list ↔ c ∈ list := by
  rw [show c = ⟨c.plus,c.serial⟩ from rfl,← mem_serialsOf,serialsOf_sortCludes,
    (newestFirst_perm _).mem_iff,mem_serialsOf]

theorem setCludes_own (s : Sfile) (d : Nat) (list : List Clude) :
    (s.setCludes d list).cludes d = list := by
  exact Function.update_self ..

theorem setCludes_other (s : Sfile) (list : List Clude) (other : e ≠ d) :
    (s.setCludes d list).cludes e = s.cludes e := by
  exact Function.update_of_ne other ..

variable {s : Sfile}

theorem Proper.setCludes (proper : Proper s.graph s.cludes)
    (range : ∀ c ∈ list, c.serial ≠ 0 ∧ c.serial < d ∧ s.graph.tag c.serial = false)
    (apart : ∀ c ∈ list, ∀ c' ∈ list, c.serial = c'.serial → c.plus = c'.plus) :
    Proper (s.setCludes d list).graph (s.setCludes d list).cludes := by
  have own := setCludes_own s d list
  have others : ∀ e, e ≠ d → (s.setCludes d list).cludes e = s.cludes e :=
    fun e => setCludes_other s list
  refine ⟨proper.merge_parent,fun e => ?_, fun e => ?_, fun e => ?_⟩
  · by_cases here : e = d
    · rw [here,own]
      exact fun c inside => ⟨(range c inside).1,(range c inside).2.1⟩
    · rw [others e here]
      exact proper.below e
  · by_cases here : e = d
    · rw [here,own]
      exact fun c inside => (range c inside).2.2
    · rw [others e here]
      exact proper.real e
  · by_cases here : e = d
    · rwa [here,own]
    · rw [others e here]
      exact proper.apart e

theorem setCludes_agree {list' : List Clude} (proper : Proper s.graph (s.setCludes d list).cludes)
    (proper' : Proper s.graph (s.setCludes d list').cludes) (other : e ≠ d) :
    Agree ((s.setCludes d list).net _ proper) ((s.setCludes d list').net _ proper') e := by
  refine ⟨rfl,rfl,fun f => congrArg (sign · f) (congrArg notesOf ?_)⟩
  exact (setCludes_other s list other).trans (setCludes_other s list' other).symm

theorem startOf_right {leftlist : List Nat} {right : Nat} (older : ∀ d ∈ leftlist, d < right) :
    startOf leftlist right = right := by
  refine le_antisymm (startOf_le (fun d inside => le_of_lt (older d inside)) le_rfl) ?_
  unfold startOf
  dsimp only
  split <;> omega

theorem seedMarks_unlisted (list : List Nat) (e : Nat) : (seedMarks list e).listed = false := by
  unfold seedMarks
  split <;> rfl

theorem seedMarks_active (d : Nat) : (seedMarks [d] d).active = true := by
  unfold seedMarks
  rw [if_pos mem_cons_self]
  rfl

theorem setCludes_bare (proper : Proper s.graph (s.setCludes d list).cludes)
    (bare : Proper s.graph (s.setCludes d []).cludes) : Bare ((s.setCludes d list).net _ proper)
    ((s.setCludes d []).net _ bare) d :=
  ⟨fun _ other => setCludes_agree proper bare other, rfl,rfl,congrArg notesOf (setCludes_own s d [])⟩

structure Corrects (g : Graph) (goal : Nat → Bool) (marks : Nat → Mark) (d : Nat)
    (list : List Clude) : Prop where
  mem : ∀ c, c ∈ list ↔ c.serial ≠ 0 ∧ c.serial ≤ d ∧ Wanted g goal marks c

theorem Corrects.sign_getD {g : Graph} {goal : Nat → Bool} (corrects : Corrects g goal marks d list)
    (nonzero : e ≠ 0) (below : e ≤ d) (real : g.tag e = false) :
    (sign (notesOf list) e).getD (marks e).active = goal e := by
  cases found : sign (notesOf list) e with
  | some plus => exact ((corrects.mem _).mp (mem_notesOf.mp (sign_some found))).2.2.plus
  | none =>
    by_contra differs
    exact sign_none.mp found (goal e, e)
      (mem_notesOf.mpr ((corrects.mem ⟨goal e,e⟩).mpr ⟨nonzero,below,real,differs,rfl⟩)) rfl

theorem Corrects.apart {g : Graph} {goal : Nat → Bool} (corrects : Corrects g goal marks d list) :
    ∀ c ∈ list, ∀ c' ∈ list, c.serial = c'.serial → c.plus = c'.plus := by
  intro c inside c' inside' same
  rw [((corrects.mem c).mp inside).2.2.plus,((corrects.mem c').mp inside').2.2.plus,same]

section
variable {s : Sfile} {left : List Nat} {k : Nat} {slist : Nat → Byte}
  (bare : Proper s.graph (s.setCludes (k + 1) []).cludes)

def leftAct (left : List Nat) : Nat → Bool :=
  activeFrom ((s.setCludes (k + 1) []).net _ bare) left (k + 1)

def rightMarks (left : List Nat) (slist : Nat → Byte) : Nat → Mark :=
  walkWith ((s.setCludes (k + 1) []).net _ bare) (asked slist (leftAct bare left)) (k + 1)
    (seedMarks [k + 1])

variable (older : ∀ d ∈ left, d < k + 1)
include older

theorem leftAct_top : leftAct bare left (k + 1) = false := by
  unfold leftAct activeFrom seedMarks
  rw [walk_above _ le_rfl,if_neg fun inside => absurd (older _ inside) (lt_irrefl _)]
  rfl

theorem asked_top (member : hasDiff (slist (k + 1)) = true) :
    asked slist (leftAct bare left) (k + 1) = true := by
  unfold asked
  rw [leftAct_top bare older,member]
  rfl

theorem Wanted.below (member : hasDiff (slist (k + 1)) = true) {c : Clude} (low : c.serial ≤ k + 1)
    (wanted : Wanted s.graph (asked slist (leftAct bare left)) (rightMarks bare left slist) c) :
    c.serial < k + 1 := by
  refine lt_of_le_of_ne low fun same => wanted.differs ?_
  rw [same,asked_top bare older member]
  unfold rightMarks seedMarks
  rw [walkWith_above _ le_rfl,if_pos mem_cons_self]
  rfl

private theorem left_setCludes (proper : Proper s.graph (s.setCludes (k + 1) list).cludes) :
    activeFrom ((s.setCludes (k + 1) list).net _ proper) left (k + 1) = leftAct bare left := by
  have blank : ∀ e, k < e → seedMarks left e = Mark.blank :=
    fun e above => if_neg fun inside => absurd (older e inside) (by omega)
  funext e
  unfold leftAct activeFrom
  rw [walk_blank (le_succ k) blank,walk_blank (le_succ k) blank,
    walk_agree _ fun f low => setCludes_agree proper bare (by omega)]

end

private theorem expand_corrects {left : List Nat} {k : Nat} {slist : Nat → Byte}
    (bare : Proper s.graph (s.setCludes (k + 1) []).cludes)
    (proper : Proper s.graph (s.setCludes (k + 1) list).cludes)
    (realLeft : ∀ d ∈ left, RealSerial s.graph d ∧ d < k + 1) (realRight : RealSerial s.graph (k + 1))
    (byte : ∀ e, slist e = diffByte (hasDiff (slist e)))
    (members : ∀ e, slist e ≠ 0 → RealSerial s.graph e ∧ e ≤ k + 1)
    (member : hasDiff (slist (k + 1)) = true)
    (corrects : Corrects s.graph (asked slist (leftAct bare left)) (rightMarks bare left slist)
    (k + 1) list) :
    symdiff_expand (s.setCludes (k + 1) list) left (k + 1)
    (fun _ => 0) = some ((ones s.graph slist : Int), slist) := by
  have older : ∀ d ∈ left, d < k + 1 := fun d inside => (realLeft d inside).2
  have start : startOf left (k + 1) = k + 1 := startOf_right older
  have absent : ∀ e, ¬ (RealSerial s.graph e ∧ e ≤ k + 1) → slist e = 0 := fun e out => by
    by_contra set
    exact out (members e set)
  have table : s.graph.table ≠ 0 := fun empty => by
    have within := realRight.2.1
    omega
  obtain ⟨st,ran,slistEq,counted⟩ := symdiff_expands ⟨s.setCludes (k + 1) list,k + 1,
    (s.setCludes (k + 1) list).cludes,true,false⟩ left
    (fun _ => 0) (-1) rfl proper ⟨fun _ => by decide, fun _ _ _ => by decide⟩
      (fun d inside => (realLeft d inside).1) (.inr realRight) table
  have same : ∀ e, st.slist e = slist e := by
    intro e
    rw [slistEq e]
    by_cases inside : RealSerial s.graph e ∧ e ≤ k + 1
    · obtain ⟨⟨nonzero,_low,real⟩,below⟩ := inside
      have onLeft : activeFrom ((s.setCludes (k + 1) list).net _ proper)
        (seedsOf left (k + 1) .left) (startOf left (k + 1)) e =
          leftAct bare left e := by
        rw [start]
        exact congrFun (left_setCludes bare older proper) e
      have onRight : activeFrom ((s.setCludes (k + 1) list).net _ proper)
        (seedsOf left (k + 1) .right) (startOf left (k + 1)) e =
          asked slist (leftAct bare left) e := by
        rw [start]
        refine (setCludes_bare proper bare).walk_active (seedMarks_unlisted _) realRight.2.2
          (seedMarks_active _) (asked_top bare older member)
          (fun e nonzero low real => ?_) nonzero below real
        rw [show ((s.setCludes (k + 1) list).net _ proper).notes (k + 1) = notesOf list
          from congrArg notesOf (setCludes_own s (k + 1) list)]
        exact corrects.sign_getD nonzero (by omega) real
      unfold flipped
      dsimp only
      rw [if_neg (show ¬ (s.setCludes (k + 1) list).graph.tag e = true from real ▸
        Bool.false_ne_true),onLeft,onRight,byte e]
      unfold asked
      cases leftAct bare left e <;> cases hasDiff (slist e) <;> rfl
    · rw [absent e inside]
      by_cases above : k + 1 < e
      · exact flipped_above (fun _ => by decide) (by rw [start]; exact above)
      have apart : e = 0 ∨ s.graph.tag e = true := by
        by_contra neither
        have within := realRight.2.1
        exact inside
          ⟨⟨fun zero => neither (.inl zero), by omega,
          eq_false_of_ne_true fun tag => neither (.inr tag)⟩, by omega⟩
      have dark : ∀ side, activeFrom ((s.setCludes (k + 1) list).net _ proper)
          (seedsOf left (k + 1) side) (startOf left (k + 1)) e = false := by
        intro side
        unfold activeFrom
        rw [walk_seeds_blank (s := s.setCludes (k + 1) list) proper (fun d listed => ?_) _ apart]
        · rfl
        · cases side with
          | left => exact (realLeft d listed).1
          | right => exact (mem_rightList.mp listed).1 ▸ realRight
      unfold flipped
      dsimp only
      rw [dark,dark]
      split <;> rfl
  have change : st.count = (ones s.graph slist : Int) := by
    rw [counted,← total_ones byte,start]
    refine (total_congr fun e _ _ => ?_).trans (total_beyond realRight.2.1 fun e above => ?_).symm
    · rw [same e]
      exact Int.sub_zero _
    · rw [absent e fun inside => by omega]
      rfl
  unfold symdiff_expand
  rw [ran,Option.map_some,change,funext same]

theorem comp_corrects {left : List Nat} {k : Nat} {slist : Nat → Byte}
    (bare : Proper s.graph (s.setCludes (k + 1) []).cludes)
    (realLeft : ∀ d ∈ left, RealSerial s.graph d ∧ d < k + 1)
    (realRight : RealSerial s.graph (k + 1)) (byte : ∀ e, slist e = diffByte (hasDiff (slist e)))
    (absent : ∀ e, ¬ (RealSerial s.graph e ∧ e ≤ k + 1) → slist e = 0) (dups : List Clude) :
    ∃ list zero, comp s left (k + 1) dups slist (ones s.graph slist) =
      some (s.setCludes (k + 1) (sortCludes (list ++ dups)), zero) ∧
      (∀ e, zero e = 0) ∧ Corrects s.graph (asked slist (leftAct bare left))
    (rightMarks bare left slist) (k + 1) list ∧
      list.Pairwise fun a b => b.serial < a.serial := by
  have start : startOf left (k + 1) = k + 1 := startOf_right fun d inside => (realLeft d inside).2
  have table : s.graph.table ≠ 0 := fun empty => by
    have within := realRight.2.1
    omega
  have counted : (ones s.graph slist : Int) = total (fun e => one (slist e))
      (startOf left (k + 1)) := by
    rw [start,← total_ones byte]
    refine total_beyond realRight.2.1 fun e above => ?_
    rw [absent e fun inside => by omega]
    rfl
  have acts : ∀ e, leftAct bare left e = activeFrom ((s.setCludes (k + 1) []).net _ bare) left
      (startOf left (k + 1)) e := by
    rw [start]
    exact fun e => rfl
  have walked : ∀ e, rightMarks bare left slist e = walkWith ((s.setCludes (k + 1) []).net _ bare)
    (asked slist (leftAct bare left))
      (startOf left (k + 1)) (seedMarks (rightList (k + 1))) e := by
    rw [start]
    exact fun e => rfl
  obtain ⟨st,ran,zero,mem,sorted⟩ := symdiff_compresses
    (t := ⟨s.setCludes (k + 1) [],k + 1,(s.setCludes (k + 1) []).cludes,false,false⟩) rfl bare
    ⟨byte,fun e tag
      _ => by rw [absent e fun inside => Bool.false_ne_true (inside.1.2.2.symm.trans tag)]; rfl⟩
    (fun d inside => (realLeft d inside).1) (.inr realRight) table
    (fun e above => absent e fun inside => by rw [start] at above; omega)
      (absent 0 fun inside => inside.1.1 rfl) counted acts walked
  refine ⟨st.cludes,st.slist,?_,zero,⟨fun c => ?_⟩, sorted⟩
  · unfold comp
    rw [if_neg (succ_ne_zero k),ran,Option.map_some]
  · rw [mem c,start]
    rfl

/-- The list found for a map, and that expanding gives the map back. -/
theorem symdiff_compress_expand (s : Sfile) (proper : Proper s.graph s.cludes) (left : List Nat)
    (right : Nat) (realLeft : ∀ d ∈ left, RealSerial s.graph d ∧ d < right)
    (realRight : RealSerial s.graph right) (slist : Nat → Byte)
    (bytes : ∀ e, slist e = 0 ∨ slist e = S_DIFF)
    (members : ∀ e, slist e ≠ 0 → RealSerial s.graph e ∧ e ≤ right) (member : slist right ≠ 0) :
    ∃ list zero, symdiff_compress s left right slist (ones s.graph slist) =
      some (s.setCludes right list, zero) ∧ (∀ e, zero e = 0) ∧
      (∀ plus, (serialsOf plus list).Pairwise fun a b => b < a) ∧
      (∀ d ∈ serialsOf true list, d ∉ serialsOf false list) ∧
      symdiff_expand (s.setCludes right list) left right (fun _ => 0) =
        some ((ones s.graph slist : Int), slist) := by
  obtain ⟨k,rfl⟩ := exists_eq_succ_of_ne_zero realRight.1
  have byte : ∀ e, slist e = diffByte (hasDiff (slist e)) := fun e => eq_diffByte (bytes e)
  have older : ∀ d ∈ left, d < k + 1 := fun d inside => (realLeft d inside).2
  have inMap : hasDiff (slist (k + 1)) = true := by
    rw [(bytes (k + 1)).resolve_left member]
    rfl
  have bare : Proper s.graph (s.setCludes (k + 1) []).cludes := proper.setCludes (nofun)
    nofun
  obtain ⟨found,zero,ran,zeroed,needed,sorted⟩ := comp_corrects bare realLeft realRight byte
    (fun e out => by
      by_contra set
      exact out (members e set)) []
  rw [append_nil] at ran
  have corrects : Corrects s.graph (asked slist (leftAct bare left)) (rightMarks bare left slist)
      (k + 1) (sortCludes found) :=
    ⟨fun c => mem_sortCludes.trans (needed.mem c)⟩
  have proper' : Proper s.graph (s.setCludes (k + 1) (sortCludes found)).cludes :=
      proper.setCludes (fun c inside => by
    obtain ⟨nonzero,low,wanted⟩ := (corrects.mem c).mp inside
    exact ⟨nonzero,wanted.below bare older inMap low,wanted.real⟩) corrects.apart
  have nodup : ∀ plus, (serialsOf plus found).Nodup := by
    intro plus
    refine ((sorted.filter _).map _ fun a b less => ?_)
    exact ne_of_gt less
  refine ⟨sortCludes found,zero,ran,zeroed,fun plus => ?_, fun d inside inside' => ?_,
    expand_corrects bare proper' realLeft realRight byte members inMap corrects⟩
  · rw [serialsOf_sortCludes]
    exact newestFirst_sorted (nodup plus)
  · exact absurd (corrects.apart _ (mem_serialsOf.mp inside) _ (mem_serialsOf.mp inside') rfl)
      Bool.true_eq_false_eq_False

theorem symdiff_compress_expand_branched :
    ∃ list zero, symdiff_compress branched [2] 4 (fun e => if e = 1 ∨ e = 4 then S_DIFF else 0) 2 =
      some (branched.setCludes 4 list, zero) ∧
      symdiff_expand (branched.setCludes 4 list)
    [2] 4 (fun _ => 0) = some (2, fun e => if e = 1 ∨ e = 4 then S_DIFF else 0) := by
  have two : ones branched.graph (fun e => if e = 1 ∨ e = 4 then S_DIFF else 0) = 2 :=
    by decide +kernel
  obtain ⟨list,zero,ran,_cleared,_sorted,_apart,back⟩ := symdiff_compress_expand branched
    branched_proper [2] 4 (by decide) (by decide)
    (fun e => if e = 1 ∨ e = 4 then S_DIFF else 0) (fun e => by split; exacts [.inr rfl,.inl rfl])
    (fun e set => by
      have member : e = 1 ∨ e = 4 := by
        by_contra other
        exact set (if_neg other)
      rcases member with rfl | rfl <;> decide) (by decide)
  rw [two] at ran back
  exact ⟨list,zero,ran,back⟩

end BitKeeper.Symdiff

import BitKeeper.Symdiff.Bits
import BitKeeper.Lib.Wave

/-!
One turn of the loop: both sides of the bytes hand their marks on, `marked` counts the deltas ahead
that still have to be looked at, and `lower` stays below everything that was touched.
-/

namespace BitKeeper.Symdiff

open List Activation Dag Nat
open Function (update_self update_of_ne)

def Sfile.lineage (s : Sfile) (d : Nat) : List Nat :=
  if d = 0 then []
  else
    (if s.graph.parent d = 0 then [] else [s.graph.parent d]) ++
      (if s.bkmerge = true ∧ s.graph.merge d ≠ 0 then [s.graph.merge d] else [])

/-- A merge has a parent too.  Lists name older real deltas, and no delta with
both signs. -/
structure Proper (g : Graph) (cludes : Nat → List Clude) : Prop where
  merge_parent : ∀ d, g.merge d ≠ 0 → g.parent d ≠ 0
  below : ∀ d, ∀ c ∈ cludes d, c.serial ≠ 0 ∧ c.serial < d
  real : ∀ d, ∀ c ∈ cludes d, g.tag c.serial = false
  apart : ∀ d, ∀ c ∈ cludes d, ∀ c' ∈ cludes d, c.serial = c'.serial → c.plus = c'.plus

def notesOf (list : List Clude) : Notes := list.map fun c => (c.plus, c.serial)

variable {d e : Nat}

theorem mem_lineage (s : Sfile) (inside : e ∈ s.lineage d) :
    d ≠ 0 ∧ e ≠ 0 ∧ (e = s.graph.parent d ∨ e = s.graph.merge d) := by
  unfold Sfile.lineage at inside
  split at inside
  · cases inside
  rename_i zero
  rw [mem_append] at inside
  refine ⟨zero,?_⟩
  rcases inside with parent | merge
  · split at parent
    · cases parent
    · rw [mem_singleton.mp parent]
      exact ⟨by assumption,.inl rfl⟩
  · split at merge
    case isTrue both =>
      rw [mem_singleton.mp merge]
      exact ⟨both.2,.inr rfl⟩
    case isFalse => cases merge

theorem lineage_below (s : Sfile) (inside : e ∈ s.lineage d) : e ≠ 0 ∧ e < d := by
  obtain ⟨above,nonzero,rfl | rfl⟩ := mem_lineage s inside
  · exact ⟨nonzero,s.graph.parent_lt d above⟩
  · exact ⟨nonzero,s.graph.merge_lt d above⟩

theorem lineage_real (s : Sfile) (real : s.graph.tag d = false) (inside : e ∈ s.lineage d) :
    s.graph.tag e = false := by
  obtain ⟨_,nonzero,rfl | rfl⟩ := mem_lineage s inside
  · exact s.graph.parent_real d real nonzero
  · exact s.graph.merge_real d real nonzero

theorem mem_notesOf {list : List Clude} {c : Bool × Nat} : c ∈ notesOf list ↔ ⟨c.1,c.2⟩ ∈ list := by
  unfold notesOf
  rw [mem_map]
  constructor
  · rintro ⟨c',inside,rfl⟩
    exact inside
  · intro inside
    exact ⟨_,inside,rfl⟩

def Sfile.net (s : Sfile) (cludes : Nat → List Clude) (proper : Proper s.graph cludes) : Net where
  skip := s.graph.tag
  lineage := s.lineage
  notes d := notesOf (cludes d)
  lineage_lt := fun _ _ inside => (lineage_below s inside).2
  notes_lt := fun d _ inside => (proper.below d _ (mem_notesOf.mp inside)).2

def weigh (counts : Bool) (x : Byte) : Int :=
  (if mark .left x = mark .right x then 0 else 1) + (if (counts && hasDiff x) = true then 1 else 0) +
    (if hasDup x = true then 1 else 0)

theorem weigh_nonneg (counts : Bool) (x : Byte) : 0 ≤ weigh counts x := by
  unfold weigh
  split <;> split <;> split <;> omega

structure Touched (counts : Bool) (d : Nat) (a b : State) : Prop where
  balance : b.marked - total (fun e => weigh counts (b.slist e)) d = a.marked - total
    (fun e => weigh counts (a.slist e)) d
  lower : b.lower ≤ a.lower
  positive : a.lower ≠ 0 → b.lower ≠ 0
  changed : ∀ e, b.slist e ≠ a.slist e → b.lower ≤ e
  zero : b.slist 0 = a.slist 0
  above : ∀ e, d < e → b.slist e = a.slist e
  diff : ∀ e, hasDiff (b.slist e) = hasDiff (a.slist e)
  count : b.count = a.count
  cludes : b.cludes = a.cludes

theorem Touched.refl (counts : Bool) (d : Nat) (a : State) : Touched counts d a a :=
  ⟨rfl,le_rfl,id,fun _ other => absurd rfl other, rfl,fun _ _ => rfl, fun _ => rfl, rfl,rfl⟩

variable {counts : Bool}

theorem Touched.trans {a b c : State} (first : Touched counts d a b) (second : Touched counts d b c) :
    Touched counts d a c where
  balance := second.balance.trans first.balance
  lower := le_trans second.lower first.lower
  positive := fun start => second.positive (first.positive start)
  changed := fun e other => by
    by_cases same : c.slist e = b.slist e
    · exact le_trans second.lower (first.changed e (same ▸ other))
    · exact second.changed e same
  zero := second.zero.trans first.zero
  above := fun e high => (second.above e high).trans (first.above e high)
  diff := fun e => (second.diff e).trans (first.diff e)
  count := second.count.trans first.count
  cludes := second.cludes.trans first.cludes

theorem touched_write {a b : State} {x : Byte} (nonzero : e ≠ 0) (low : e ≤ d)
    (slist : b.slist = Function.update a.slist e x) (diff : hasDiff x = hasDiff (a.slist e))
    (marked : b.marked = a.marked - weigh counts (a.slist e) + weigh counts x)
    (lower : b.lower ≤ a.lower) (positive : a.lower ≠ 0 → b.lower ≠ 0) (bound : b.lower ≤ e)
    (count : b.count = a.count) (cludes : b.cludes = a.cludes) : Touched counts d a b := by
  have here : b.slist e = x := by rw [slist,update_self]
  have there : ∀ f, f ≠ e → b.slist f = a.slist f :=
    fun f other => by rw [slist,update_of_ne other]
  refine ⟨?_,lower,positive,fun f other => ?_, there 0 (Ne.symm nonzero),
    fun f high => there f (by omega), fun f => ?_, count,cludes⟩
  · have moved : total (fun f => weigh counts (b.slist f)) d =
      total (fun f => weigh counts (a.slist f)) d -
        weigh counts (a.slist e) + weigh counts (b.slist e) :=
      total_change nonzero low fun f other => by rw [there f other]
    rw [here] at moved
    omega
  · by_cases same : f = e
    · exact same ▸ bound
    · exact absurd (there f same) other
  · by_cases same : f = e
    · rw [same,here,diff]
    · rw [there f same]

theorem update_touched {newbits : Byte} (st : State) (nonzero : e ≠ 0) (low : e ≤ d)
    (flags : hasDiff (st.slist e ||| newbits) = hasDiff (st.slist e) ∧
      hasDup (st.slist e ||| newbits) = hasDup (st.slist e)) :
    Touched counts d st (update e newbits st) := by
  refine touched_write nonzero low rfl flags.1 ?_ ?_ ?_ ?_ rfl rfl
  · unfold update weigh
    simp only [different_eq,flags.1,flags.2,ne_eq,ite_not]
    omega
  · unfold update
    dsimp only
    split <;> omega
  · unfold update
    dsimp only
    split <;> omega
  · unfold update
    dsimp only
    split <;> omega

theorem update_slist (e : Nat) (newbits : Byte) (st : State) (f : Nat) :
    (update e newbits st).slist f = if f = e then st.slist e ||| newbits else st.slist f := by
  unfold update
  dsimp only
  split
  next same =>
    rw [same,update_self]
  next same =>
    rw [update_of_ne same]

theorem inherit_touched (counts : Bool) (left right : Bool) {es : List Nat} (st : State)
    (range : ∀ e ∈ es, e ≠ 0 ∧ e ≤ d) :
    Touched counts d st (es.foldl (fun st e => update e (parByte left right) st) st) ∧
      (∀ side f, mark side ((es.foldl (fun st e => update e (parByte left right) st) st).slist f) =
        if side.pick left right = true ∧ f ∈ es then (mark side (st.slist f)).inherit else
          mark side (st.slist f)) ∧
      (∀ f, hasDup ((es.foldl (fun st e => update e (parByte left right) st) st).slist f) =
      hasDup (st.slist f)) ∧
      (es.foldl (fun st e => update e (parByte left right) st) st).dups = st.dups := by
  induction es generalizing st with
  | nil =>
    refine ⟨Touched.refl counts d st,fun side f => ?_, fun _ => rfl, rfl⟩
    rw [if_neg fun both => not_mem_nil both.2]
    rfl
  | cons e rest ih =>
    obtain ⟨top,below⟩ := forall_mem_cons.mp range
    obtain ⟨touched,marks,dup,dups⟩ := ih (update e (parByte left right) st) below
    have flags := flags_par left right (st.slist e)
    rw [foldl_cons]
    refine ⟨(update_touched st top.1 top.2 flags).trans touched,fun side f => ?_, fun f => ?_, dups⟩
    · have one : mark side ((update e (parByte left right) st).slist f) =
          if side.pick left right = true ∧ f = e then (mark side (st.slist f)).inherit else
            mark side (st.slist f) := by
        rw [update_slist]
        by_cases same : f = e
        · subst same
          rw [if_pos rfl,mark_par]
          simp only [and_true]
        · rw [if_neg same,if_neg fun both => same both.2]
      rw [marks,one]
      by_cases on : side.pick left right = true
      · simp only [on,true_and,mem_cons]
        by_cases same : f = e
        · simp only [same,if_true,true_or]
          split <;> rfl
        · simp only [same,if_false,false_or]
      · rw [if_neg fun both => on both.1, if_neg fun both => on both.1, if_neg fun both => on both.1]
    · rw [dup,update_slist]
      by_cases same : f = e
      · rw [if_pos same,flags.2,same]
      · rw [if_neg same]

private theorem lineageAt_eq (s : Sfile) (d : Nat) (bits : Byte) (st : State) :
    lineageAt s (d + 1) bits st = if parByte (mark .left bits).par (mark .right bits).par = 0 then st
      else (s.lineage (d + 1)).foldl
        (fun st e => update e (parByte (mark .left bits).par (mark .right bits).par) st) st := by
  unfold lineageAt Sfile.lineage
  rw [par_bits,if_neg (succ_ne_zero d)]
  dsimp only
  split
  · rfl
  · split <;> split <;> rfl

private theorem parByte_zero {left right : Bool} (zero : parByte left right = 0) :
    left = false ∧ right = false := by
  revert zero
  cases left <;> cases right <;> decide

theorem lineageAt_touched (counts : Bool) (s : Sfile) (d : Nat) (bits : Byte) (st : State) :
    Touched counts d st (lineageAt s (d + 1) bits st) ∧
      (∀ side f, mark side ((lineageAt s (d + 1) bits st).slist f) =
        if (mark side bits).par = true ∧ f ∈ s.lineage (d + 1) then (mark side (st.slist f)).inherit
          else mark side (st.slist f)) ∧
      (∀ f, hasDup ((lineageAt s (d + 1) bits st).slist f) = hasDup (st.slist f)) ∧
      (lineageAt s (d + 1) bits st).dups = st.dups := by
  have picked : ∀ side : Side, side.pick (mark .left bits).par (mark .right bits).par =
      (mark side bits).par := by
    intro side
    cases side <;> rfl
  rw [lineageAt_eq]
  by_cases zero : parByte (mark .left bits).par (mark .right bits).par = 0
  · obtain ⟨left,right⟩ := parByte_zero zero
    rw [if_pos zero]
    refine ⟨Touched.refl counts d st,fun side f => ?_, fun _ => rfl, rfl⟩
    have off : (mark side bits).par = false := by cases side <;> assumption
    rw [off,if_neg fun both => Bool.false_ne_true both.1]
  · rw [if_neg zero]
    have range : ∀ e ∈ s.lineage (d + 1), e ≠ 0 ∧ e ≤ d := fun e inside =>
      ⟨(lineage_below s inside).1,le_of_lt_succ (lineage_below s inside).2⟩
    obtain ⟨touched,marks,dup,dups⟩ :=
      inherit_touched counts (mark .left bits).par (mark .right bits).par st range
    refine ⟨touched,fun side f => ?_, dup,dups⟩
    rw [marks,picked]

def followUp (first on dup : Bool) : Bool := first || (dup && !on)

def reported (first on plus : Bool) (e : Nat) (bits : Byte) : List Clude :=
  if hasDup bits = true ∧ (first = true ∨ (on = true ∧ plus = (mark .right bits).inc)) then
    [⟨!(mark .right bits).excl,e⟩] else []

structure Followed (counts : Bool) (dup : Bool) (found : List Clude) (e : Nat) (a b : State) :
    Prop where
  slist : ∃ x, b.slist = Function.update a.slist e x ∧ (∀ side, mark side x = mark side (a.slist e)) ∧
    hasDiff x = hasDiff (a.slist e) ∧ hasDup x = dup ∧
      b.marked = a.marked - weigh counts (a.slist e) + weigh counts x
  lower : b.lower = a.lower
  count : b.count = a.count
  cludes : b.cludes = a.cludes
  dups : b.dups = a.dups ++ found

theorem dupClude_followed (counts : Bool) (t : Task) (e : Nat) (left right : Bool) (bits : Byte)
    (c : Clude) (st : State) (same : hasDup (st.slist c.serial) = hasDup bits) :
    Followed counts (followUp (decide (e = t.right)) right (hasDup bits))
    (reported (decide (e = t.right)) right c.plus c.serial bits)
      c.serial st (dupClude t e (activeByte left right) bits c st) := by
  have weight : ∀ x : Byte, (∀ side, mark side x = mark side (st.slist c.serial)) →
    hasDiff x = hasDiff (st.slist c.serial) →
      weigh counts x = weigh counts (st.slist c.serial) - (if hasDup bits = true then 1 else 0) +
        (if hasDup x = true then 1 else 0) := by
    intro x marks diff
    unfold weigh
    rw [marks,marks,diff,same]
    omega
  have unchanged : ∀ found, followUp (decide (e = t.right)) right (hasDup bits) = hasDup bits →
      Followed counts (followUp (decide (e = t.right)) right (hasDup bits)) found c.serial st
        { st with dups := st.dups ++ found } := by
    intro found stays
    refine ⟨⟨st.slist c.serial,(Function.update_eq_self c.serial st.slist).symm,fun _ => rfl, rfl,
      same.trans stays.symm,?_⟩,rfl,rfl,rfl,rfl⟩
    dsimp only
    omega
  unfold dupClude
  rw [inc_bit]
  split
  next first =>
    by_cases dup : hasDup bits = true
    · rw [if_pos ((dup_bit bits).mpr dup)]
      unfold foundDup
      rw [excl_bit]
      have reports : reported (decide (e = t.right)) right c.plus c.serial bits =
          [⟨!(mark .right bits).excl,c.serial⟩] := by
        unfold reported
        rw [if_pos ⟨dup,.inl (decide_eq_true first)⟩]
      rw [reports]
      exact unchanged _ (by rw [dup,decide_eq_true first]; rfl)
    · rw [if_neg (mt (dup_bit bits).mp dup)]
      have silent : reported (decide (e = t.right)) right c.plus c.serial bits = [] :=
        if_neg fun both => dup both.1
      obtain ⟨marks,diff,set⟩ := set_dup (st.slist c.serial)
      rw [silent]
      refine ⟨⟨_,rfl,marks,diff,?_,?_⟩,rfl,rfl,rfl,(append_nil _).symm⟩
      · rw [set,decide_eq_true first]
        rfl
      · dsimp only
        rw [weight _ marks diff,if_pos set,if_neg dup]
        omega
  next first =>
    by_cases both : right = true ∧ hasDup bits = true
    · rw [if_pos ⟨(active_right left right).mpr both.1,(dup_bit bits).mpr both.2⟩]
      obtain ⟨marks,diff,clear⟩ := clear_dup (st.slist c.serial)
      have report : (if c.plus = (mark .right bits).inc then foundDup bits c.serial st else st) =
          { st with
            dups := st.dups ++ reported (decide (e = t.right)) right c.plus c.serial bits } := by
        unfold reported foundDup
        rw [excl_bit]
        simp only [first,decide_false,Bool.false_eq_true,false_or,both.1,both.2,true_and]
        split
        · rfl
        · rw [append_nil]
      rw [report]
      refine ⟨⟨_,rfl,marks,diff,?_,?_⟩,rfl,rfl,rfl,rfl⟩
      · rw [clear,decide_eq_false first,both.1,both.2]
        rfl
      · rw [weight _ marks diff,clear,if_pos both.2]
        simp
    · have skip : ¬ (activeByte left right &&& ARIGHT ≠ 0 ∧ bits &&& S_DUP ≠ 0) := by
        rwa [active_right,dup_bit]
      rw [if_neg skip]
      have silent : reported (decide (e = t.right)) right c.plus c.serial bits = [] := by
        refine if_neg fun found => both ?_
        rcases found.2 with here | later
        · exact absurd (of_decide_eq_true here) first
        · exact ⟨later.1,found.1⟩
      rw [silent]
      have done := unchanged [] (by
        rw [decide_eq_false first]
        unfold followUp
        cases right <;> cases dup : hasDup bits <;> simp_all)
      rwa [append_nil] at done

theorem cludeAt_touched (counts : Bool) (t : Task) (e : Nat) (left right : Bool) (st : State)
    {c : Clude} (nonzero : c.serial ≠ 0) (low : c.serial ≤ d) :
    Touched counts d st (cludeAt t e (activeByte left right) st c) ∧
      (∀ side f, mark side ((cludeAt t e (activeByte left right) st c).slist f) =
        if side.pick left right = true ∧ c.serial = f then (mark side (st.slist f)).note c.plus else
          mark side (st.slist f)) ∧
      (∀ f, hasDup ((cludeAt t e (activeByte left right) st c).slist f) =
        if t.dups = true ∧ c.serial = f then followUp (decide (e = t.right)) right
          (hasDup (st.slist f)) else hasDup (st.slist f)) ∧
      (cludeAt t e (activeByte left right) st c).dups =
        st.dups ++ if t.dups then reported (decide (e = t.right)) right c.plus c.serial
          (st.slist c.serial) else [] := by
  have flags := flags_ie left right c.plus (st.slist c.serial)
  obtain ⟨mid,made⟩ : ∃ mid,
    mid = update c.serial (IE (activeByte left right) (st.slist c.serial) c.plus) st := ⟨_,rfl⟩
  have first : Touched counts d st mid := made ▸ update_touched st nonzero low flags
  have bound : mid.lower ≤ c.serial := by
    rw [made]
    unfold update
    dsimp only
    split <;> omega
  have here : mid.slist c.serial = st.slist c.serial ||| IE (activeByte left right)
      (st.slist c.serial) c.plus := by
    rw [made,update_slist,if_pos rfl]
  have there : ∀ f, c.serial ≠ f → mid.slist f = st.slist f := fun f other => by
    rw [made,update_slist,if_neg (Ne.symm other)]
  have noted : ∀ x : Byte, (∀ side, mark side x = mark side (mid.slist c.serial)) →
      ∀ side f, mark side (if c.serial = f then x else st.slist f) =
        if side.pick left right = true ∧ c.serial = f then (mark side (st.slist f)).note c.plus else
          mark side (st.slist f) := by
    intro x marks side f
    by_cases same : c.serial = f
    · subst same
      rw [if_pos rfl,marks,here,mark_ie]
      simp only [and_true]
    · rw [if_neg same,if_neg fun both => same both.2]
  unfold cludeAt
  dsimp only
  rw [← made]
  by_cases asked : t.dups = true
  · rw [if_pos asked]
    have followed :=
      dupClude_followed counts t e left right (st.slist c.serial) c mid (by rw [here,flags.2])
    obtain ⟨x,slist,marks,diff,dup,marked⟩ := followed.slist
    have second := touched_write nonzero low slist diff marked (le_of_eq followed.lower)
      (fun start => followed.lower ▸ start) (followed.lower ▸ bound) followed.count followed.cludes
    have final : ∀ f, (dupClude t e (activeByte left right) (st.slist c.serial) c mid).slist f =
        if c.serial = f then x else st.slist f := by
      intro f
      rw [slist]
      split
      next same =>
        rw [← same,update_self]
      next same =>
        rw [update_of_ne (Ne.symm same),there f same]
    refine ⟨first.trans second,fun side f => ?_, fun f => ?_, ?_⟩
    · rw [final]
      exact noted x marks side f
    · rw [final]
      split
      next same =>
        rw [if_pos ⟨asked,same⟩,dup,same]
      next same =>
        rw [if_neg fun both => same both.2]
    · rw [followed.dups,if_pos asked,made]
      rfl
  · rw [if_neg asked]
    have final : ∀ f, mid.slist f = if c.serial = f then mid.slist c.serial else st.slist f := by
      intro f
      split
      next same => rw [same]
      next other => exact there f other
    refine ⟨first,fun side f => ?_, fun f => ?_, ?_⟩
    · rw [final]
      exact noted _ (fun _ => rfl) side f
    · rw [if_neg fun both => asked both.1, final]
      split
      next same => rw [here,flags.2,same]
      next => rfl
    · rw [if_neg asked,append_nil,made]
      rfl

theorem followUp_twice (first on dup : Bool) :
    followUp first on (followUp first on dup) = followUp first on dup := by
  cases first <;> cases on <;> cases dup <;> rfl

theorem sign_notesOf_cons (c : Clude) (rest : List Clude) (f : Nat) :
    sign (notesOf (c :: rest)) f = if c.serial = f then some c.plus else sign (notesOf rest) f :=
  sign_cons (c.plus, c.serial) (notesOf rest) f

theorem cludes_touched (counts : Bool) (t : Task) (e : Nat) (left right : Bool) {list : List Clude}
    (st : State) (range : ∀ c ∈ list, c.serial ≠ 0 ∧ c.serial ≤ d) :
    Touched counts d st (list.foldl (cludeAt t e (activeByte left right)) st) ∧
      (∀ side f, mark side ((list.foldl (cludeAt t e (activeByte left right)) st).slist f) =
        if side.pick left right = true then noted (mark side (st.slist f))
    (sign (notesOf list) f) else mark side (st.slist f)) ∧
      ∀ f, hasDup ((list.foldl (cludeAt t e (activeByte left right)) st).slist f) =
        if t.dups = true ∧ (sign (notesOf list) f).isSome = true then
          followUp (decide (e = t.right)) right (hasDup (st.slist f))
        else hasDup (st.slist f) := by
  induction list generalizing st with
  | nil =>
    refine ⟨Touched.refl counts d st,fun side f => ?_, fun f => ?_⟩
    · split <;> rfl
    · rw [if_neg fun both => Bool.false_ne_true both.2]
      rfl
  | cons c rest ih =>
    obtain ⟨top,below⟩ := forall_mem_cons.mp range
    obtain ⟨first,marksFirst,dupFirst,_⟩ := cludeAt_touched counts t e left right st top.1 top.2
    obtain ⟨touched,marks,dup⟩ := ih (cludeAt t e (activeByte left right) st c) below
    refine ⟨first.trans touched,fun side f => ?_, fun f => ?_⟩
    · rw [foldl_cons,marks,marksFirst]
      by_cases on : side.pick left right = true
      · rw [if_pos on,if_pos on,sign_notesOf_cons]
        by_cases same : c.serial = f
        · rw [if_pos ⟨on,same⟩,if_pos same,noted_note]
          rfl
        · rw [if_neg fun both => same both.2, if_neg same]
      · rw [if_neg on,if_neg on,if_neg fun both => on both.1]
    · rw [foldl_cons,dup,dupFirst,sign_notesOf_cons]
      by_cases asked : t.dups = true
      · simp only [asked,true_and]
        by_cases same : c.serial = f
        · simp only [same,if_true,Option.isSome_some]
          rw [followUp_twice,ite_self]
        · simp only [same,if_false]
      · rw [if_neg fun both => asked both.1, if_neg fun both => asked both.1,
          if_neg fun both => asked both.1]

def answer (expand : Bool) (bits : Byte) : Side → Bool
  | .left => (mark .left bits).active
  | .right => if expand then (mark .right bits).active else ((mark .left bits).active ^^ hasDiff bits)

def settled (expand : Bool) (bits : Byte) : Byte :=
  if expand then diffByte (hasDiff bits ^^ ((mark .left bits).active ^^ (mark .right bits).active))
    else 0

def needed (expand : Bool) (d : Nat) (bits : Byte) : List Clude :=
  if expand = false ∧ (mark .right bits).active ≠ ((mark .left bits).active ^^ hasDiff bits) then
    [⟨(mark .left bits).active ^^ hasDiff bits,d⟩]
  else []

def one (x : Byte) : Int := if hasDiff x = true then 1 else 0

structure Decided (t : Task) (d : Nat) (bits : Byte) (a b : State) : Prop where
  slist : b.slist = Function.update a.slist d (settled t.expand bits)
  marked : b.marked = a.marked - weigh (!t.expand) bits + (if hasDup bits = true then 1 else 0)
  lower : b.lower = a.lower
  count : b.count = if t.expand then a.count - one bits + one (settled t.expand bits) else a.count
  cludes : b.cludes = a.cludes ++ needed t.expand d bits
  dups : b.dups = a.dups

private theorem diffByte_flip (diff : Bool) : diffByte diff ^^^ S_DIFF = diffByte !diff :=
  by cases diff <;> decide

theorem one_diffByte (diff : Bool) : one (diffByte diff) = if diff = true then 1 else 0 := by
  unfold one
  rw [(flags_diffByte diff).1]

private theorem expandAt_eq (d : Nat) (bits : Byte) (left right : Bool) (st : State) :
    expandAt d bits (activeByte left right) st = { st with
        slist := Function.update st.slist d (diffByte (hasDiff bits ^^ (left ^^ right)))
        count := st.count - one bits + one (diffByte (hasDiff bits ^^ (left ^^ right))) } := by
  unfold expandAt
  rw [xor_active,diff_bit,diffByte_flip,one_diffByte]
  unfold one
  by_cases same : left = right
  · rw [same,if_pos rfl,if_pos rfl,Bool.xor_self,Bool.xor_false,Int.sub_add_cancel]
  · have flip : (left ^^ right) = true := by
      cases left <;> cases right <;> first | rfl | exact absurd rfl same
    rw [flip,Bool.xor_true,if_neg same,if_neg (by decide)]
    cases hasDiff bits <;> simp [diffByte,S_DIFF]

theorem compressAt_eq (d : Nat) (bits : Byte) (left right : Bool) (st : State) :
    compressAt d bits (activeByte left right) st = ({ st with
         slist := Function.update st.slist d 0
         marked := st.marked - (if hasDiff bits = true then 1 else 0)
         cludes := st.cludes ++ if right ≠ (left ^^ hasDiff bits) then [⟨left ^^ hasDiff bits,d⟩]
           else [] },
       activeByte left (left ^^ hasDiff bits)) := by
  have counted : (if diffByte (hasDiff bits) = 0 then st.marked else st.marked - 1) =
      st.marked - (if hasDiff bits = true then 1 else 0) := by
    cases hasDiff bits <;> simp [diffByte,S_DIFF]
  unfold compressAt
  rw [diff_bit,xor_active,counted,flip_right]
  have sign : ∀ on : Bool, decide (activeByte left on &&& ARIGHT ≠ 0) = on := by
    intro on
    rw [decide_eq_decide.mpr (active_right left on)]
    exact Bool.decide_coe on
  dsimp only
  rw [sign]
  cases hasDiff bits <;> cases left <;> cases right <;> simp [diffByte,S_DIFF]

theorem visit_decided (t : Task) (d : Nat) (st : State) (real : t.s.graph.tag d = false)
    (some : st.slist d ≠ 0) :
    ∃ mid, Decided t d (st.slist d) st mid ∧
      visit t d st = passOn t d (st.slist d)
    (activeByte (answer t.expand (st.slist d) .left) (answer t.expand (st.slist d) .right)) mid :=
  by
  have seen : ¬ (t.s.graph.tag d = true ∨ st.slist d = 0) := by
    rintro (tag | zero)
    · exact Bool.false_ne_true (real.symm.trans tag)
    · exact some zero
  unfold visit
  rw [if_neg seen]
  dsimp only
  generalize st.slist d = bits
  rw [active_eq]
  have weight : ∀ counts, weigh counts bits - (if hasDup bits = true then 1 else 0) =
      (if S_DIFFERENT bits ≠ 0 then 1 else 0) + (if (counts && hasDiff bits) = true then
        1 else 0) := by
    intro counts
    unfold weigh
    simp only [different_eq,ne_eq,ite_not]
    omega
  have minus : ∀ v : State, (if S_DIFFERENT bits ≠ 0 then { v with marked := v.marked - 1 } else v) =
      { v with marked := v.marked - (if S_DIFFERENT bits ≠ 0 then 1 else 0) } := by
    intro v
    split
    · rfl
    · rw [Int.sub_zero]
  rw [minus]
  by_cases expand : t.expand = true
  · have counted := weight false
    rw [Bool.false_and,if_neg Bool.false_ne_true] at counted
    have answers : answer t.expand bits .right = (mark .right bits).active := if_pos expand
    have own : settled t.expand bits = diffByte
      (hasDiff bits ^^ ((mark .left bits).active ^^ (mark .right bits).active)) := if_pos expand
    have free : needed t.expand d bits = [] :=
      if_neg fun both => Bool.false_ne_true (both.1.symm.trans expand)
    rw [if_pos expand,expandAt_eq,answers]
    refine ⟨_,?_,rfl⟩
    refine ⟨by rw [own],?_,rfl,by rw [if_pos expand,own],by rw [free,append_nil],rfl⟩
    rw [expand,Bool.not_true]
    dsimp only
    omega
  · have compress := eq_false_of_ne_true expand
    have counted := weight true
    rw [Bool.true_and] at counted
    have answers : answer t.expand bits .right = ((mark .left bits).active ^^ hasDiff bits) :=
      if_neg expand
    have own : settled t.expand bits = 0 := if_neg expand
    have list : needed t.expand d bits = if (mark .right bits).active ≠
      ((mark .left bits).active ^^ hasDiff bits) then
        [⟨(mark .left bits).active ^^ hasDiff bits,d⟩] else [] := by
      unfold needed
      simp only [compress,true_and]
    rw [if_neg expand,compressAt_eq,answers]
    refine ⟨_,?_,rfl⟩
    refine ⟨by rw [own],?_,rfl,by rw [if_neg expand],by rw [list],rfl⟩
    rw [compress,Bool.not_false]
    dsimp only
    omega

theorem dupAt_eq (d : Nat) (bits : Byte) (st : State) :
    dupAt d bits st = { st with
        marked := st.marked - (if hasDup bits = true then 1 else 0)
        dups := st.dups ++ if hasDup bits = true ∧
          (mark .right bits).par = (mark .right bits).inc then
          [⟨!(mark .right bits).excl,d⟩] else [] } := by
  unfold dupAt
  by_cases dup : hasDup bits = true
  · have set := (dup_bit bits).mpr dup
    rw [if_neg set]
    simp only [unused_bit,dup,true_and,if_true]
    unfold foundDup
    rw [excl_bit]
    split
    · rfl
    · rw [append_nil]
  · have unset : bits &&& S_DUP = 0 := by
      by_contra set
      exact dup ((dup_bit bits).mp set)
    have silent : ¬ (hasDup bits = true ∧ (mark .right bits).par = (mark .right bits).inc) :=
      fun both => dup both.1
    rw [if_pos unset,if_neg silent,if_neg dup,append_nil,Int.sub_zero]

structure Visited (t : Task) (net : Net) (d : Nat) (a b : State) : Prop where
  marks : ∀ side e, e ≤ d → mark side (b.slist e) =
    step net (answer t.expand (a.slist (d + 1)) side) (d + 1) (fun e => mark side (a.slist e)) e
  balance : b.marked - total (fun e => weigh (!t.expand) (b.slist e)) d =
    a.marked - total (fun e => weigh (!t.expand) (a.slist e)) (d + 1)
  lower : b.lower ≤ a.lower
  positive : a.lower ≠ 0 → b.lower ≠ 0
  changed : ∀ e, e ≤ d → b.slist e ≠ a.slist e → b.lower ≤ e
  zero : b.slist 0 = a.slist 0
  own : b.slist (d + 1) = if t.s.graph.tag (d + 1) then a.slist (d + 1) else
    settled t.expand (a.slist (d + 1))
  above : ∀ e, d + 1 < e → b.slist e = a.slist e
  diff : ∀ e, e ≤ d → hasDiff (b.slist e) = hasDiff (a.slist e)
  dup : ∀ e, e ≤ d → hasDup (b.slist e) = if t.dups = true ∧ t.s.graph.tag (d + 1) = false ∧
        (answer t.expand (a.slist (d + 1)) .left = true ∨
          answer t.expand (a.slist (d + 1)) .right = true) ∧
        (sign (notesOf (t.cludes (d + 1))) e).isSome = true then
      followUp (decide (d + 1 = t.right)) (answer t.expand (a.slist (d + 1)) .right)
        (hasDup (a.slist e))
    else hasDup (a.slist e)
  count : b.count = if t.expand then a.count - one (a.slist (d + 1)) + one (b.slist (d + 1)) else
    a.count
  cludes : b.cludes = a.cludes ++ if t.s.graph.tag (d + 1) then [] else needed t.expand (d + 1)
    (a.slist (d + 1))

theorem passOn_touched {t : Task} (proper : Proper t.s.graph t.cludes) (d : Nat) (bits : Byte)
    (left right : Bool) (st : State) :
    Touched (!t.expand) d (dupAt (d + 1) bits st) (passOn t (d + 1) bits (activeByte left right) st) ∧
      (∀ side e, mark side ((passOn t (d + 1) bits (activeByte left right) st).slist e) =
        if side.pick left right = true then
          noted (if (mark side bits).par = true ∧ e ∈ t.s.lineage (d + 1) then
            (mark side (st.slist e)).inherit else mark side (st.slist e))
    (sign (notesOf (t.cludes (d + 1))) e)
        else if (mark side bits).par = true ∧ e ∈ t.s.lineage (d + 1) then
          (mark side (st.slist e)).inherit else mark side (st.slist e)) ∧
      ∀ e, hasDup ((passOn t (d + 1) bits (activeByte left right) st).slist e) =
        if t.dups = true ∧ (left = true ∨ right = true) ∧
          (sign (notesOf (t.cludes (d + 1))) e).isSome = true then
          followUp (decide (d + 1 = t.right)) right (hasDup (st.slist e))
        else hasDup (st.slist e) := by
  have same : (dupAt (d + 1) bits st).slist = st.slist := by rw [dupAt_eq]
  obtain ⟨first,marksFirst,dupFirst,_⟩ :=
    lineageAt_touched (!t.expand) t.s d bits (dupAt (d + 1) bits st)
  have range : ∀ c ∈ t.cludes (d + 1), c.serial ≠ 0 ∧ c.serial ≤ d := fun c inside =>
    ⟨(proper.below _ c inside).1,le_of_lt_succ (proper.below _ c inside).2⟩
  obtain ⟨second,marksSecond,dupSecond⟩ :=
    cludes_touched (!t.expand) t (d + 1) left right
    (lineageAt t.s (d + 1) bits (dupAt (d + 1) bits st)) range
  rw [same] at marksFirst dupFirst
  unfold passOn
  by_cases off : activeByte left right = 0
  · obtain ⟨noLeft,noRight⟩ := (active_zero left right).mp off
    rw [if_pos off]
    refine ⟨first,fun side e => ?_, fun e => ?_⟩
    · have unpicked : side.pick left right = false := by cases side <;> assumption
      rw [unpicked,if_neg Bool.false_ne_true,marksFirst]
    · rw [dupFirst,noLeft,noRight,
        if_neg fun both => both.2.1.elim Bool.false_ne_true Bool.false_ne_true]
  · have on : left = true ∨ right = true := by
      by_contra none
      exact off ((active_zero left right).mpr ⟨eq_false_of_ne_true fun yes => none (.inl yes),
        eq_false_of_ne_true fun yes => none (.inr yes)⟩)
    rw [if_neg off]
    refine ⟨first.trans second,fun side e => ?_, fun e => ?_⟩
    · rw [marksSecond,marksFirst]
    · rw [dupSecond,dupFirst]
      simp only [on,true_and]

theorem visit_spec {t : Task} (proper : Proper t.s.graph t.cludes) (d : Nat) (st : State)
    (tags : t.s.graph.tag (d + 1) = true → weigh (!t.expand) (st.slist (d + 1)) = 0) :
    Visited t (t.s.net t.cludes proper) d st (visit t (d + 1) st) := by
  have counted : total (fun e => weigh (!t.expand) (st.slist e)) (d + 1) =
      total (fun e => weigh (!t.expand) (st.slist e)) d + weigh (!t.expand) (st.slist (d + 1)) := rfl
  by_cases tag : t.s.graph.tag (d + 1) = true
  · have still : visit t (d + 1) st = st := if_pos (.inl tag)
    have free := tags tag
    rw [still]
    refine ⟨fun side e _ => ?_, by omega,le_rfl,id,fun e _ other => absurd rfl other, rfl,
      by rw [if_pos tag],fun _ _ => rfl,fun _ _ => rfl, fun e _ => ?_, ?_,
      by rw [if_pos tag,append_nil]⟩
    · exact (if_pos tag).symm
    · rw [if_neg fun both => Bool.false_ne_true (both.2.1.symm.trans tag)]
    · split <;> omega
  have real := eq_false_of_ne_true tag
  by_cases zero : st.slist (d + 1) = 0
  · have still : visit t (d + 1) st = st := if_pos (.inr zero)
    have nothing : settled t.expand 0 = 0 := by
      unfold settled
      split <;> decide
    have noList : needed t.expand (d + 1) 0 = [] := by
      refine if_neg fun both => both.2 ?_
      decide
    have weightless : weigh (!t.expand) 0 = 0 := by cases t.expand <;> decide
    rw [zero] at counted
    rw [still]
    have inactive : ∀ side, answer t.expand (st.slist (d + 1)) side = false := by
      intro side
      rw [zero]
      cases side with
      | left => rfl
      | right => cases t.expand <;> decide
    refine ⟨fun side e _ => ?_, by omega,le_rfl,id,fun e _ other => absurd rfl other, rfl,
      by rw [if_neg tag,zero,nothing],fun _ _ => rfl, fun _ _ => rfl, fun e _ => ?_, by split <;>
      omega,by rw [if_neg tag,zero,noList,append_nil]⟩
    · rw [inactive,step_blank (by rw [zero]; cases side <;> decide)]
    · rw [inactive,inactive,if_neg fun both => both.2.2.1.elim Bool.false_ne_true Bool.false_ne_true]
  obtain ⟨mid,decided,same⟩ := visit_decided t (d + 1) st real zero
  obtain ⟨touched,marks,dup⟩ := passOn_touched proper d (st.slist (d + 1))
    (answer t.expand (st.slist (d + 1)) .left)
    (answer t.expand (st.slist (d + 1)) .right) mid
  rw [dupAt_eq] at touched
  rw [← same] at touched marks dup
  have lowMid : ∀ e, e ≠ d + 1 → mid.slist e = st.slist e :=
    fun e other => by rw [decided.slist,update_of_ne other]
  have ownMid : mid.slist (d + 1) = settled t.expand (st.slist (d + 1)) :=
    by rw [decided.slist,update_self]
  have ownAfter : (visit t (d + 1) st).slist (d + 1) = settled t.expand (st.slist (d + 1)) :=
    (touched.above (d + 1) (lt_succ_self d)).trans ownMid
  have picked : ∀ side : Side, side.pick (answer t.expand (st.slist (d + 1)) .left)
    (answer t.expand (st.slist (d + 1)) .right) =
      answer t.expand (st.slist (d + 1)) side := by
    intro side
    cases side <;> rfl
  refine ⟨fun side e below => ?_, ?_,?_,?_,fun e below other => ?_, ?_,by rw [if_neg tag,ownAfter],
    fun e above => ?_,fun e below => ?_, fun e below => ?_, ?_,?_⟩
  · rw [marks,picked,lowMid e (by omega)]
    exact (if_neg tag).symm
  · have balance := touched.balance
    have marked := decided.marked
    have sums : total (fun e => weigh (!t.expand) (mid.slist e)) d =
        total (fun e => weigh (!t.expand) (st.slist e)) d :=
      total_congr fun e _ below => by rw [lowMid e (by omega)]
    dsimp only at balance
    omega
  · exact le_trans touched.lower (le_of_eq decided.lower)
  · exact fun start => touched.positive (decided.lower.symm ▸ start)
  · refine touched.changed e ?_
    rwa [lowMid e (by omega)]
  · exact touched.zero.trans (lowMid 0 (by omega))
  · exact (touched.above e (by omega)).trans (lowMid e (by omega))
  · exact (touched.diff e).trans (by dsimp only; rw [lowMid e (by omega)])
  · rw [dup,lowMid e (by omega)]
    simp only [real,true_and]
  · rw [ownAfter]
    exact touched.count.trans decided.count
  · rw [if_neg tag]
    exact touched.cludes.trans decided.cludes

end BitKeeper.Symdiff

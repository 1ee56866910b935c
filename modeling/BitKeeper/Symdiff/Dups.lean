import BitKeeper.Symdiff.Compress

/-!
An entry of the list of the right delta is a duplicate if it would be what it is without the list.
The walk follows every entry up until another delta names it or it is visited itself.
-/

namespace BitKeeper.Symdiff

open List Activation Dag

theorem count_append_one (list : List Clude) (c c' : Clude) (p : Prop) [Decidable p] :
    (list ++ if p then [c'] else []).count c = list.count c + if p ∧ c = c' then 1 else 0 := by
  rw [count_append]
  by_cases holds : p
  · rw [if_pos holds,count_singleton]
    refine congrArg (list.count c + ·) (if_congr ?_ rfl rfl)
    rw [beq_iff_eq]
    exact ⟨fun same => ⟨holds,same.symm⟩, fun both => both.2.symm⟩
  · simp only [holds,if_false,false_and,count_nil]

def Seen (st : State) (c : Clude) : Prop :=
  if hasDup (st.slist c.serial) = true then mark .right (st.slist c.serial) =
    (mark .right (st.slist c.serial)).force (some c.plus)
  else (mark .right (st.slist c.serial)).listed = false

variable {st : State} {c : Clude}

theorem Seen.note (seen : Seen st c) :
    (mark .right (st.slist c.serial)).note c.plus = (mark .right (st.slist c.serial)).force
      (some c.plus) := by
  unfold Seen at seen
  split at seen
  · rw [seen]
    cases c.plus <;> rfl
  · exact if_neg (seen ▸ Bool.false_ne_true)

theorem Seen.reported (seen : Seen st c) :
    Symdiff.reported true true c.plus c.serial (st.slist c.serial) = if hasDup (st.slist c.serial) =
      true then [c] else [] := by
  unfold Symdiff.reported
  simp only [true_or,and_true]
  by_cases dup : hasDup (st.slist c.serial) = true
  · unfold Seen at seen
    rw [if_pos dup] at seen
    rw [if_pos dup,if_pos dup,seen]
    change [(⟨!!c.plus,c.serial⟩ : Clude)] = [c]
    rw [Bool.not_not]
  · rw [if_neg dup,if_neg dup]

variable {t : Task} {d : Nat} {list : List Clude}

private theorem cludes_first (asked : t.dups = true) (left : Bool)
    (range : ∀ c ∈ list, c.serial ≠ 0 ∧ c.serial ≤ d)
    (apart : ∀ c ∈ list, ∀ c' ∈ list, c.serial = c'.serial → c.plus = c'.plus)
    (seen : ∀ c ∈ list, Seen st c) (c : Clude) :
    (list.foldl (cludeAt t t.right (activeByte left true)) st).dups.count c +
        (if hasDup (st.slist c.serial) = false ∧ c ∈ list then 1 else 0) = st.dups.count
      c + list.count c := by
  induction list generalizing st with
  | nil =>
    rw [if_neg fun both => not_mem_nil both.2]
    rfl
  | cons c' rest ih =>
    obtain ⟨top,below⟩ := forall_mem_cons.mp range
    obtain ⟨seenTop,seenRest⟩ := forall_mem_cons.mp seen
    obtain ⟨_touched,marks,dup,dups⟩ := cludeAt_touched true t t.right left true st top.1 top.2
    rw [asked,if_pos rfl,decide_eq_true rfl,seenTop.reported] at dups
    simp only [asked,true_and,decide_true,followUp,Bool.true_or] at dup
    have seenAfter : ∀ a ∈ rest, Seen (cludeAt t t.right (activeByte left true) st c') a := by
      intro a inside
      unfold Seen
      rw [dup,marks]
      by_cases same : c'.serial = a.serial
      · have plus : c'.plus = a.plus := apart c' mem_cons_self a (mem_cons_of_mem _ inside) same
        rw [if_pos same,if_pos rfl,if_pos ⟨rfl,same⟩,← same,← plus,seenTop.note]
        rfl
      · have kept : ¬ (Side.pick left true .right = true ∧ c'.serial = a.serial) := fun both =>
          same both.2
        rw [if_neg same,if_neg kept]
        exact seenRest a inside
    have later :=
      ih below (fun a inA b inB => apart a (mem_cons_of_mem _ inA) b (mem_cons_of_mem _ inB))
      seenAfter
    rw [dups,count_append_one,dup] at later
    rw [foldl_cons]
    by_cases same : c = c'
    · rw [if_pos (congrArg Clude.serial same.symm),
        if_neg fun both => Bool.false_ne_true both.1.symm] at later
      rw [same] at later ⊢
      rw [count_cons_self]
      by_cases dup : hasDup (st.slist c'.serial) = true
      · rw [if_pos ⟨dup,rfl⟩] at later
        rw [if_neg fun both => Bool.false_ne_true (both.1.symm.trans dup)]
        omega
      · rw [if_neg fun both => dup both.1] at later
        rw [if_pos ⟨eq_false_of_ne_true dup,mem_cons_self⟩]
        omega
    · have silent : (if hasDup (st.slist c'.serial) = true ∧ c = c' then 1 else 0) = 0 := if_neg
        fun both => same both.2
      rw [silent] at later
      rw [count_cons_of_ne (Ne.symm same)]
      by_cases serial : c'.serial = c.serial
      · have absent : c ∉ rest := fun inside => same (by
          have plus : c'.plus = c.plus := apart c' mem_cons_self c (mem_cons_of_mem _ inside) serial
          cases c
          cases c'
          cases plus
          cases serial
          rfl)
        rw [if_neg fun both => absent both.2] at later
        rw [if_neg fun both => (mem_cons.mp both.2).elim same absent]
        omega
      · rw [if_neg serial] at later
        simp only [mem_cons,same,false_or]
        omega

def OwnDup (st : State) (d : Nat) (c : Clude) : Prop :=
  (hasDup (st.slist d) = true ∧ (mark .right (st.slist d)).par = (mark .right (st.slist d)).inc) ∧
    c = ⟨!(mark .right (st.slist d)).excl,d⟩

def ListDup (st : State) (right : Bool) (named : Option Bool) (c : Clude) : Prop :=
  right = true ∧ hasDup (st.slist c.serial) = true ∧
    named = some (mark .right (st.slist c.serial)).inc ∧
    c.plus = !(mark .right (st.slist c.serial)).excl

instance : Decidable (OwnDup st d c) := instDecidableAnd

instance (right : Bool) (named : Option Bool) : Decidable (ListDup st right named c) :=
  instDecidableAnd

theorem cludes_later (asked : t.dups = true) {e : Nat} (other : e ≠ t.right) (left right : Bool)
    (range : ∀ c ∈ list, c.serial ≠ 0 ∧ c.serial ≤ d)
    (listed : ∀ f, hasDup (st.slist f) = true → (mark .right (st.slist f)).listed = true)
    (c : Clude) :
    (list.foldl (cludeAt t e (activeByte left right)) st).dups.count c = st.dups.count c +
      if ListDup st right (sign (notesOf list) c.serial) c then 1 else 0 := by
  induction list generalizing st with
  | nil =>
    rw [if_neg fun all => absurd all.2.2.1 (by simp [notesOf,sign])]
    rfl
  | cons c' rest ih =>
    obtain ⟨top,below⟩ := forall_mem_cons.mp range
    obtain ⟨_touched,marks,dup,dups⟩ := cludeAt_touched true t e left right st top.1 top.2
    rw [asked,if_pos rfl,decide_eq_false other] at dups
    simp only [asked,true_and,decide_eq_false other,followUp,Bool.false_or] at dup
    have listedAfter : ∀ f, hasDup ((cludeAt t e (activeByte left right) st c').slist f) = true →
        (mark .right ((cludeAt t e (activeByte left right) st c').slist f)).listed = true := by
      intro f set
      rw [dup] at set
      rw [marks]
      split
      · exact note_listed _ _
      · refine listed f ?_
        split at set
        · exact (Bool.and_eq_true_iff.mp set).1
        · exact set
    rw [foldl_cons,ih below listedAfter,dups,sign_notesOf_cons]
    simp only [ListDup,dup,marks]
    unfold reported
    rw [count_append_one]
    cases right with
    | false => simp
    | true =>
      by_cases same : c'.serial = c.serial
      · have whole : c = ⟨!(mark .right (st.slist c.serial)).excl,c.serial⟩ ↔
            c.plus = !(mark .right (st.slist c.serial)).excl := by
          constructor
          · exact fun eq => congrArg Clude.plus eq
          · intro plus
            rw [← plus]
        simp only [same,if_true,Bool.not_true,Bool.and_false,Bool.false_eq_true,false_and,and_false,
          if_false,Nat.add_zero,true_and,false_or,Option.some.injEq,whole,and_assoc]
      · have unlike : ¬ c = ⟨!(mark .right (st.slist c'.serial)).excl,c'.serial⟩ := fun eq =>
          same (congrArg Clude.serial eq).symm
        simp only [same,if_false,and_false,unlike,Nat.add_zero]

structure Handed (t : Task) (d : Nat) (a b : State) : Prop where
  dups : b.dups = a.dups ++ if hasDup (a.slist (d + 1)) = true ∧
    (mark .right (a.slist (d + 1))).par = (mark .right (a.slist (d + 1))).inc then
    [⟨!(mark .right (a.slist (d + 1))).excl,d + 1⟩] else []
  dup : ∀ f, f ≠ d + 1 → hasDup (b.slist f) = hasDup (a.slist f)
  own : hasDup (b.slist (d + 1)) = false
  marks : ∀ f, f ≠ d + 1 → mark .right (b.slist f) = (mark .right (a.slist f)).inherit ∨
    mark .right (b.slist f) = mark .right (a.slist f)
  visit : visit t (d + 1) a =
    if answer t.expand (a.slist (d + 1)) .left = false ∧ answer t.expand (a.slist (d + 1)) .right =
      false then b
    else (t.cludes (d + 1)).foldl
      (cludeAt t (d + 1) (activeByte (answer t.expand (a.slist (d + 1)) .left)
        (answer t.expand (a.slist (d + 1)) .right))) b

theorem hasDup_settled (expand : Bool) (bits : Byte) : hasDup (settled expand bits) = false := by
  unfold settled
  split
  · exact (flags_diffByte _).2
  · rfl

theorem visit_handed (real : t.s.graph.tag (d + 1) = false) (filled : st.slist (d + 1) ≠ 0) :
    ∃ mid, Handed t d st mid := by
  obtain ⟨mid,decided,same⟩ := visit_decided t (d + 1) st real filled
  obtain ⟨_touched,marks,dup,dups⟩ :=
    lineageAt_touched true t.s d (st.slist (d + 1)) (dupAt (d + 1) (st.slist (d + 1)) mid)
  have slist : (dupAt (d + 1) (st.slist (d + 1)) mid).slist = mid.slist := by rw [dupAt_eq]
  have lowMid : ∀ f, f ≠ d + 1 → mid.slist f = st.slist f :=
    fun f other => by rw [decided.slist,Function.update_of_ne other]
  rw [slist] at marks dup
  refine ⟨lineageAt t.s (d + 1) (st.slist (d + 1)) (dupAt (d + 1) (st.slist (d + 1)) mid),?_,
    fun f other => ?_, ?_,fun f other => ?_, ?_⟩
  · rw [dups,dupAt_eq]
    rw [decided.dups]
  · rw [dup,lowMid f other]
  · rw [dup,decided.slist,Function.update_self,hasDup_settled]
  · rw [marks,lowMid f other]
    split
    · exact .inl rfl
    · exact .inr rfl
  · rw [same]
    exact if_congr (active_zero _ _) rfl rfl

theorem Proper.low {g : Graph} {cludes : Nat → List Clude} (proper : Proper g cludes) :
    ∀ c ∈ cludes (d + 1), c.serial ≠ 0 ∧ c.serial ≤ d := fun c inside =>
  ⟨(proper.below _ c inside).1,Nat.le_of_lt_succ (proper.below _ c inside).2⟩

private theorem visit_first (asked : t.dups = true) (proper : Proper t.s.graph t.cludes)
    (right : d + 1 = t.right) (real : t.s.graph.tag (d + 1) = false) (filled : st.slist (d + 1) ≠ 0)
    (on : answer t.expand (st.slist (d + 1)) .right = true) (fresh : ∀ f, hasDup (st.slist f) = false)
    (unlisted : ∀ f, (mark .right (st.slist f)).listed = false) (none : st.dups = []) (c : Clude) :
    (visit t (d + 1) st).dups.count c + (if c ∈ t.cludes (d + 1) then 1 else 0) =
      (t.cludes (d + 1)).count c := by
  obtain ⟨mid,handed⟩ := visit_handed real filled
  have clear : ∀ f, hasDup (mid.slist f) = false := by
    intro f
    by_cases here : f = d + 1
    · rw [here]
      exact handed.own
    · rw [handed.dup f here]
      exact fresh f
  have seen : ∀ c ∈ t.cludes (d + 1), Seen mid c := by
    intro c inside
    have low := (proper.low c inside).2
    unfold Seen
    rw [clear,if_neg Bool.false_ne_true]
    rcases handed.marks c.serial (by omega) with marks | marks <;> rw [marks] <;>
      exact unlisted c.serial
  have empty : mid.dups = [] := by
    rw [handed.dups,none,fresh,if_neg fun both => Bool.false_ne_true both.1]
    rfl
  have counted :=
    cludes_first asked (answer t.expand (st.slist (d + 1)) .left) proper.low
    (proper.apart (d + 1)) seen c
  rw [clear,empty,count_nil,Nat.zero_add,← right] at counted
  rw [handed.visit,if_neg fun both => Bool.false_ne_true (both.2.symm.trans on), on]
  simpa only [true_and] using counted

private theorem visit_later (asked : t.dups = true) (proper : Proper t.s.graph t.cludes)
    (other : d + 1 ≠ t.right) (real : t.s.graph.tag (d + 1) = false) (filled : st.slist (d + 1) ≠ 0)
    (listed : ∀ f, hasDup (st.slist f) = true → (mark .right (st.slist f)).listed = true)
    (c : Clude) :
    (visit t (d + 1) st).dups.count c = st.dups.count c + (if OwnDup st (d + 1) c then 1 else 0) +
      if ListDup st (answer t.expand (st.slist (d + 1)) .right)
    (sign (notesOf (t.cludes (d + 1))) c.serial) c
        then 1 else 0 := by
  obtain ⟨mid,handed⟩ := visit_handed real filled
  have kept : ∀ f, f ≠ d + 1 → (mark .right (mid.slist f)).inc = (mark .right (st.slist f)).inc ∧
      (mark .right (mid.slist f)).excl = (mark .right (st.slist f)).excl := by
    intro f apart
    rcases handed.marks f apart with marks | marks <;> rw [marks] <;> exact ⟨rfl,rfl⟩
  have listedMid : ∀ f, hasDup (mid.slist f) = true → (mark .right (mid.slist f)).listed = true := by
    intro f dup
    by_cases here : f = d + 1
    · rw [here] at dup
      exact absurd (handed.own.symm.trans dup) Bool.false_ne_true
    · rw [handed.dup f here] at dup
      unfold Mark.listed
      rw [(kept f here).1,(kept f here).2]
      exact listed f dup
  have ownCount : mid.dups.count c = st.dups.count c + if OwnDup st (d + 1) c then 1 else 0 := by
    rw [handed.dups,count_append_one]
    rfl
  rw [handed.visit]
  split
  next off =>
    rw [ownCount,off.2]
    refine (Nat.add_zero _).symm.trans (congrArg _ (if_neg ?_).symm)
    exact fun all => Bool.false_ne_true all.1
  rw [cludes_later asked other _ _ proper.low listedMid,ownCount]
  refine congrArg₂ Nat.add rfl (if_congr ?_ rfl rfl)
  unfold ListDup
  by_cases named : sign (notesOf (t.cludes (d + 1))) c.serial = none
  · simp only [named,reduceCtorEq,false_and,and_false]
  · have low : c.serial ≠ d + 1 := fun same => named (sign_notesOf_none fun c' inside eq => by
      have range := proper.low c' inside
      omega)
    rw [handed.dup _ low,(kept _ low).1,(kept _ low).2]

/-- Whether the right delta's list says of an entry what holds anyway, as far as `d` shows; `base`
are the marks without the list.
-/
def Noticed (marks : Nat → Mark) (d : Nat) (base : Nat → Mark) (c : Clude) : Prop :=
  if c.serial ≤ d then (base c.serial).listed = true ∧ (base c.serial).inc = c.plus else
    (marks c.serial).active = c.plus

instance (marks : Nat → Mark) (d : Nat) (base : Nat → Mark) (c : Clude) :
    Decidable (Noticed marks d base c) := by
  unfold Noticed
  infer_instance

structure Following (net : Net) (goal : Nat → Bool) (marks : Nat → Mark) (own : List Clude)
    (d : Nat) (base : Nat → Mark) (st : State) : Prop where
  marked : ∀ e, e ≤ d → mark .right (st.slist e) = (base e).force (sign (notesOf own) e)
  rest : ∀ e, e ≤ d → walkWith net goal d base e = marks e
  dup : ∀ e, e ≤ d → hasDup (st.slist e) = ((sign (notesOf own) e).isSome && !(base e).listed)
  above : ∀ e, d < e → hasDup (st.slist e) = false
  found : ∀ c, st.dups.count c + (if c ∈ own then 1 else 0) = own.count c + if c ∈ own ∧
    Noticed marks d base c then 1 else 0

theorem sign_notesOf_mem (apart : ∀ c ∈ list, ∀ c' ∈ list, c.serial = c'.serial → c.plus = c'.plus)
    {plus : Bool} {e : Nat} : sign (notesOf list) e = some plus ↔ ⟨plus,e⟩ ∈ list := by
  constructor
  · exact fun found => mem_notesOf.mp (sign_some found)
  intro inside
  cases found : sign (notesOf list) e with
  | none => exact absurd rfl (sign_none.mp found (plus, e) (mem_notesOf.mpr inside))
  | some plus' =>
    have same := apart _ inside _ (mem_notesOf.mp (sign_some found)) rfl
    exact congrArg some same.symm

variable {net : Net} {goal : Nat → Bool} {marks : Nat → Mark} {own : List Clude} {base : Nat → Mark}

theorem Following.open_iff (following : Following net goal marks own d base st)
    (apart : ∀ c ∈ own, ∀ c' ∈ own, c.serial = c'.serial → c.plus = c'.plus) (low : c.serial ≤ d) :
    (hasDup (st.slist c.serial) = true ∧ c.plus = !(mark .right (st.slist c.serial)).excl) ↔
      c ∈ own ∧ (base c.serial).listed = false := by
  rw [following.dup c.serial low,following.marked c.serial low,Bool.and_eq_true,Bool.not_eq_true']
  have whole : ∀ plus, c.plus = plus → (⟨plus,c.serial⟩ : Clude) = c :=
    fun plus same => by rw [← same]
  cases found : sign (notesOf own) c.serial with
  | none =>
    refine ⟨fun all => absurd all.1.1 (by decide), fun both => absurd found ?_⟩
    rw [(sign_notesOf_mem apart).mpr both.1]
    exact Option.some_ne_none _
  | some plus =>
    have inside := (sign_notesOf_mem apart).mp found
    constructor
    · rintro ⟨⟨_,unlisted⟩,same⟩
      rw [show (!((base c.serial).force (some plus)).excl) = plus from Bool.not_not plus] at same
      exact ⟨whole plus same ▸ inside,unlisted⟩
    · rintro ⟨listed,unlisted⟩
      refine ⟨⟨rfl,unlisted⟩,?_⟩
      rw [show (!((base c.serial).force (some plus)).excl) = plus from Bool.not_not plus]
      exact apart c listed _ inside rfl

section
variable {net : Net} {goal : Nat → Bool} {marks : Nat → Mark} {own : List Clude} {d : Nat}
  {base : Nat → Mark}

theorem noticed_mono (top : marks (d + 1) = base (d + 1)) (noticed : Noticed marks (d + 1) base c) :
    Noticed marks d (step net (goal (d + 1)) (d + 1) base) c := by
  unfold Noticed at noticed ⊢
  by_cases low : c.serial ≤ d
  · rw [if_pos (by omega)] at noticed
    rw [if_pos low]
    exact ⟨by rw [step_listed,noticed.1,Bool.true_or],by rw [step_listed_inc noticed.1,noticed.2]⟩
  · rw [if_neg low]
    by_cases here : c.serial = d + 1
    · rw [if_pos (by omega),here] at noticed
      rw [here,top,active_listed noticed.1,noticed.2]
    · rwa [if_neg (by omega)] at noticed

theorem noticed_still (other : c.serial ≠ d + 1) :
    Noticed marks (d + 1) base c ↔ Noticed marks d base c := by
  unfold Noticed
  by_cases low : c.serial ≤ d
  · rw [if_pos (by omega),if_pos low]
  · rw [if_neg (by omega),if_neg low]

private theorem noticed_own (top : marks (d + 1) = base (d + 1)) (here : c.serial = d + 1)
    (base' : Nat → Mark) :
    (¬ Noticed marks (d + 1) base c ∧ Noticed marks d base' c) ↔ (base c.serial).listed = false ∧
      (base c.serial).par = c.plus := by
  unfold Noticed
  rw [if_pos (by omega),if_neg (by omega),here,top]
  cases listed : (base (d + 1)).listed with
  | true =>
    rw [active_listed listed]
    constructor
    · rintro ⟨differs,same⟩
      exact absurd ⟨rfl,same⟩ differs
    · rintro ⟨never,_⟩
      exact absurd never (by decide)
  | false =>
    rw [active_unlisted listed]
    exact ⟨fun both => ⟨rfl,both.2⟩, fun both => ⟨fun yes => absurd yes.1 (by decide), both.2⟩⟩

theorem noticed_below (low : c.serial ≤ d) (real : net.skip (d + 1) = false) :
    (¬ Noticed marks (d + 1) base c ∧ Noticed marks d (step net (goal (d + 1)) (d + 1) base) c) ↔
      goal (d + 1) = true ∧ (base c.serial).listed = false ∧ sign (net.notes (d + 1)) c.serial =
        some c.plus := by
  unfold Noticed
  rw [if_pos (by omega),if_pos low]
  cases listed : (base c.serial).listed with
  | true =>
    rw [step_listed_inc listed]
    constructor
    · rintro ⟨differs,_,same⟩
      exact absurd ⟨rfl,same⟩ differs
    · rintro ⟨_,never,_⟩
      exact absurd never (by decide)
  | false =>
    rw [step_listed,listed,real]
    cases on : goal (d + 1) with
    | false => simp
    | true =>
      cases found : sign (net.notes (d + 1)) c.serial with
      | none => simp
      | some plus =>
        have inc : (step net true (d + 1) base c.serial).inc = plus := by
          have unlisted : (hand net (d + 1) base c.serial).listed = false :=
            (hand_listed (d + 1) base c.serial).2.2.trans listed
          unfold step
          rw [real,if_neg Bool.false_ne_true,if_pos rfl,found,noted_unlisted unlisted]
          rfl
        rw [inc]
        simp

end

structure Watching (t : Task) (own : List Clude) : Prop where
  asked : t.dups = true
  expand : t.expand = true
  apart : ∀ c ∈ own, ∀ c' ∈ own, c.serial = c'.serial → c.plus = c'.plus
  real : ∀ c ∈ own, t.s.graph.tag c.serial = false

variable (proper : Proper t.s.graph t.cludes)

theorem Following.reports (watching : Watching t own)
    (following : Following net goal marks own (d + 1) base st)
    (agree : Agree (t.s.net t.cludes proper) net (d + 1)) (other : d + 1 ≠ t.right)
    (on : (mark .right (st.slist (d + 1))).active = goal (d + 1)) (c : Clude) :
    (visit t (d + 1) st).dups.count c = st.dups.count c +
      if c ∈ own ∧ ¬ Noticed marks (d + 1) base c ∧
        Noticed marks d (step net (goal (d + 1)) (d + 1) base) c then 1 else 0 := by
  have top : marks (d + 1) = base (d + 1) :=
    (following.rest _ le_rfl).symm.trans (walkWith_above _ le_rfl)
  have skip : t.s.graph.tag (d + 1) = net.skip (d + 1) := agree.skip
  have signs : ∀ e, sign (notesOf (t.cludes (d + 1))) e = sign (net.notes (d + 1)) e := agree.sign
  have quiet : visit t (d + 1) st = st → step net (goal (d + 1)) (d + 1) base = base →
    (∀ c ∈ own, c.serial ≠ d + 1) →
      (visit t (d + 1) st).dups.count c = st.dups.count c +
        if c ∈ own ∧ ¬ Noticed marks (d + 1) base c ∧
          Noticed marks d (step net (goal (d + 1)) (d + 1) base) c then 1 else 0 := by
    intro still same apart
    have nothing : ¬ (c ∈ own ∧ ¬ Noticed marks (d + 1) base c ∧ Noticed marks d base c) := fun all =>
      all.2.1 ((noticed_still (apart c all.1)).mpr all.2.2)
    rw [still,same,if_neg nothing]
    rfl
  by_cases tag : t.s.graph.tag (d + 1) = true
  · refine quiet (if_pos (.inl tag)) (funext fun e => if_pos (skip.symm.trans tag)) fun c inside
      same => ?_
    exact Bool.false_ne_true ((watching.real c inside).symm.trans (same ▸ tag))
  by_cases zero : st.slist (d + 1) = 0
  · have forced : (base (d + 1)).force (sign (notesOf own) (d + 1)) = Mark.blank := by
      rw [← following.marked _ le_rfl,zero]
      decide
    have unnamed : sign (notesOf own) (d + 1) = none := by
      cases found : sign (notesOf own) (d + 1) with
      | none => rfl
      | some plus =>
        rw [found] at forced
        have listed := congrArg Mark.listed forced
        cases plus <;> exact absurd listed Bool.noConfusion
    have blank : base (d + 1) = Mark.blank := by
      rwa [unnamed] at forced
    have off : goal (d + 1) = false := by
      rw [← on,zero]
      decide
    refine quiet (if_pos (.inr zero)) (funext fun e => ?_) fun c inside same => ?_
    · rw [off]
      exact step_blank blank
    · exact sign_none.mp unnamed (c.plus, c.serial) (mem_notesOf.mpr inside) same
  have real := eq_false_of_ne_true tag
  have listed : ∀ f, hasDup (st.slist f) = true → (mark .right (st.slist f)).listed = true := by
    intro f dup
    by_cases low : f ≤ d + 1
    · rw [following.dup f low] at dup
      rw [following.marked f low]
      cases found : sign (notesOf own) f with
      | none =>
        rw [found] at dup
        exact absurd dup Bool.noConfusion
      | some plus => cases plus <;> rfl
    · exact absurd ((following.above f (by omega)).symm.trans dup) Bool.false_ne_true
  have answers : answer t.expand (st.slist (d + 1)) .right = goal (d + 1) := by
    rw [watching.expand,← on]
    rfl
  rw [visit_later watching.asked proper other real zero listed c,answers,signs,Nat.add_assoc]
  refine congrArg (st.dups.count c + ·) ?_
  have known : c ∈ own → c.serial ≤ d + 1 →
      mark .right (st.slist c.serial) = ⟨(base c.serial).par,c.plus,!c.plus⟩ := by
    intro inside low
    rw [following.marked _ low,(sign_notesOf_mem watching.apart).mpr inside]
    rfl
  by_cases here : c.serial = d + 1
  · have unnamed : sign (net.notes (d + 1)) c.serial = none := sign_none.mpr fun c' inside same => by
      have low := net.notes_lt (d + 1) c' inside
      omega
    have named := following.open_iff watching.apart (le_of_eq here)
    have listPart : ¬ ListDup st (goal (d + 1)) (sign (net.notes (d + 1)) c.serial) c := fun all => by
      rw [unnamed] at all
      exact absurd all.2.2.1 (Option.some_ne_none _).symm
    have ownPart : OwnDup st (d + 1) c ↔
        (c ∈ own ∧ ¬ Noticed marks (d + 1) base c ∧
          Noticed marks d (step net (goal (d + 1)) (d + 1) base) c) := by
      rw [noticed_own top here,← here]
      constructor
      · rintro ⟨⟨dup,par⟩,whole⟩
        obtain ⟨inside,unlisted⟩ := named.mp ⟨dup,congrArg Clude.plus whole⟩
        rw [known inside (le_of_eq here)] at par
        exact ⟨inside,unlisted,par⟩
      · rintro ⟨inside,unlisted,par⟩
        obtain ⟨dup,plus⟩ := named.mpr ⟨inside,unlisted⟩
        refine ⟨⟨dup,?_⟩,?_⟩
        · rwa [known inside (le_of_eq here)]
        · rw [← plus]
    exact (congrArg₂ (· + ·) (if_congr ownPart rfl rfl) (if_neg listPart)).trans (Nat.add_zero _)
  · have ownPart : ¬ OwnDup st (d + 1) c := fun all => here (congrArg Clude.serial all.2)
    have listPart : ListDup st (goal (d + 1)) (sign (net.notes (d + 1)) c.serial) c ↔
        (c ∈ own ∧ ¬ Noticed marks (d + 1) base c ∧
          Noticed marks d (step net (goal (d + 1)) (d + 1) base) c) := by
      by_cases low : c.serial ≤ d
      · have named := following.open_iff watching.apart (show c.serial ≤ d + 1 by omega)
        rw [noticed_below low (skip.symm.trans real)]
        constructor
        · rintro ⟨isOn,dup,found,plus⟩
          obtain ⟨inside,unlisted⟩ := named.mp ⟨dup,plus⟩
          rw [known inside (by omega)] at found
          exact ⟨inside,isOn,unlisted,found⟩
        · rintro ⟨inside,isOn,unlisted,found⟩
          obtain ⟨dup,plus⟩ := named.mpr ⟨inside,unlisted⟩
          refine ⟨isOn,dup,?_,plus⟩
          rwa [known inside (by omega)]
      · constructor
        · rintro ⟨_,dup,_⟩
          exact absurd ((following.above _ (by omega)).symm.trans dup) Bool.false_ne_true
        · rintro ⟨_,before,after⟩
          refine absurd ?_ before
          unfold Noticed at after ⊢
          rw [if_neg low] at after
          rwa [if_neg (by omega)]
    exact (congrArg₂ (· + ·) (if_neg ownPart) (if_congr listPart rfl rfl)).trans (Nat.zero_add _)

variable {old : Nat → Byte} {act : Side → Nat → Bool} {top : Nat}

theorem Following.visit (plain : Plain t old) (watching : Watching t own)
    (expanding : Expanding t (t.s.net t.cludes proper) old act top (d + 1) st)
    (following : Following net (act .right) marks own (d + 1) base st)
    (agree : Agree (t.s.net t.cludes proper) net (d + 1)) (other : d + 1 ≠ t.right) :
    Following net (act .right) marks own d (step net (act .right (d + 1)) (d + 1) base)
    (Symdiff.visit t (d + 1) st) := by
  obtain ⟨visited,_keeping⟩ := expanding.keeping.visit plain proper
  have on : (mark .right (st.slist (d + 1))).active = act .right (d + 1) := by
    rw [← expanding.goals .right (d + 1) le_rfl,walk_above _ le_rfl]
  have answers : answer t.expand (st.slist (d + 1)) .right = act .right (d + 1) := by
    rw [watching.expand,← on]
    rfl
  have top : marks (d + 1) = base (d + 1) :=
    (following.rest _ le_rfl).symm.trans (walkWith_above _ le_rfl)
  refine ⟨fun e low => ?_, fun e low => ?_, fun e low => ?_, fun e high => ?_, fun c => ?_⟩
  · rw [visited.marks .right e low,answers]
    have forcedStep : step (t.s.net t.cludes proper) (act .right (d + 1)) (d + 1)
      (forced (sign (notesOf own)) base) =
        forced (sign (notesOf own)) (step net (act .right (d + 1)) (d + 1) base) := by
      rw [step_forced,step_agree base agree]
    exact (step_congr (following.marked _ le_rfl) (following.marked e (by omega))).trans
      (congrFun forcedStep e)
  · exact following.rest e (by omega)
  · have skip : t.s.graph.tag (d + 1) = net.skip (d + 1) := agree.skip
    have signs : sign (notesOf (t.cludes (d + 1))) e = sign (net.notes (d + 1)) e := agree.sign e
    rw [visited.dup e low,following.dup e (by omega),step_listed,answers,signs,skip,watching.asked,
      decide_eq_false other]
    unfold followUp
    cases net.skip (d + 1) <;> cases act .right (d + 1) <;>
      cases (sign (net.notes (d + 1)) e).isSome <;> cases (base e).listed <;>
      cases answer t.expand (st.slist (d + 1)) .left <;> simp
  · by_cases here : e = d + 1
    · rw [here,visited.own]
      split
      · rw [expanding.keeping.tags _ le_rfl (by assumption)]
        exact (mark_plain plain.byte .left _).2
      · exact hasDup_settled _ _
    · rw [visited.above e (by omega)]
      exact following.above e (by omega)
  · have mono : Noticed marks (d + 1) base c →
      Noticed marks d (step net (act .right (d + 1)) (d + 1) base) c := noticed_mono top
    have found := following.found c
    rw [following.reports proper watching agree other on c]
    by_cases inside : c ∈ own
    · simp only [inside,true_and,if_true] at found ⊢
      split at found
      next before =>
        rw [if_neg fun both => both.1 before, if_pos (mono before)]
        omega
      next before =>
        simp only [before,not_false_eq_true,true_and]
        omega
    · simp only [inside,false_and,if_false] at found ⊢
      omega

theorem walkDown_follows (plain : Plain t old) (watching : Watching t own)
    (low : d ≤ top) (older : d < t.right)
    (expanding : Expanding t (t.s.net t.cludes proper) old act top d st)
    (following : Following net (act .right) marks own d base st)
    (agree : ∀ e, e ≠ t.right → Agree (t.s.net t.cludes proper) net e) :
    (walkDown t d st).1.marked = 0 ∧
      Expanding t (t.s.net t.cludes proper) old act top (walkDown t d st).2 (walkDown t d st).1 ∧
      ∃ base, Following net (act .right) marks own (walkDown t d st).2 base (walkDown t d st).1 := by
  obtain ⟨spent,_,both⟩ := walkDown_invariant (t := t)
    (P := fun d st => d < t.right ∧ Expanding t (t.s.net t.cludes proper) old act top d st ∧
      ∃ base, Following net (act .right) marks own d base st)
    (fun _ all => all.2.1.keeping.balance) (fun d st within all => by
      obtain ⟨earlier,expanding,base,following⟩ := all
      have other : d + 1 ≠ t.right := by omega
      exact ⟨by omega,expanding.visit watching.expand proper plain within,_,
        following.visit proper plain watching expanding (agree _ other) other⟩) low
        ⟨older,expanding,base,following⟩
  exact ⟨spent,both⟩

theorem Following.stop (following : Following net goal marks own d base st)
    (keeping : Keeping t old d st) (spent : st.marked = 0) (nonzero : ∀ c ∈ own, c.serial ≠ 0)
    (c : Clude) :
    st.dups.count c + (if c ∈ own then 1 else 0) = own.count c + if c ∈ own ∧
      (marks c.serial).active = c.plus then 1 else 0 := by
  rw [following.found c]
  refine congrArg (own.count c + ·) (if_congr (and_congr_right fun inside => ?_) rfl rfl)
  unfold Noticed
  split
  case isFalse => rfl
  case isTrue low =>
      have closed : hasDup (st.slist c.serial) = false :=
        (keeping.even spent (nonzero c inside) low).2.2
      have named : (sign (notesOf own) c.serial).isSome = true := by
        cases found : sign (notesOf own) c.serial with
        | none => exact absurd rfl (sign_none.mp found (c.plus, c.serial) (mem_notesOf.mpr inside))
        | some plus => rfl
      rw [following.dup _ low,named,Bool.true_and,Bool.not_eq_false'] at closed
      rw [← following.rest _ low,walkWith_listed closed,closed]
      exact ⟨fun both => both.2, fun same => ⟨rfl,same⟩⟩

theorem follows_first (plain : Plain t old) {k : Nat}
    (watching : Watching t (t.cludes (k + 1))) (right : k + 1 = t.right)
    (real : t.s.graph.tag (k + 1) = false) (without : Bare (t.s.net t.cludes proper) net (k + 1))
    (expanding : Expanding t (t.s.net t.cludes proper) old act top (k + 1) st)
    (seeds : ∀ e, mark .right (st.slist e) = seedMarks [k + 1] e)
    (fresh : ∀ e, hasDup (st.slist e) = false) (none : st.dups = []) :
    Following net (act .right) (walkWith net (act .right) (k + 1) (seedMarks [k + 1]))
    (t.cludes (k + 1)) k
      (step net true (k + 1) (seedMarks [k + 1])) (Symdiff.visit t (k + 1) st) := by
  obtain ⟨visited,_keeping⟩ := expanding.keeping.visit plain proper
  have on : act .right (k + 1) = true := by
    rw [← expanding.goals .right (k + 1) le_rfl,walk_above _ le_rfl,seeds]
    exact seedMarks_active (k + 1)
  have answers : answer t.expand (st.slist (k + 1)) .right = true := by
    rw [watching.expand]
    change (mark .right (st.slist (k + 1))).active = true
    rw [seeds]
    exact seedMarks_active (k + 1)
  have filled : st.slist (k + 1) ≠ 0 := fun zero => by
    rw [zero] at answers
    cases expand : t.expand <;> rw [expand] at answers <;> exact absurd answers (by decide)
  have unlisted : ∀ e, (step net true (k + 1) (seedMarks [k + 1]) e).listed = false := by
    intro e
    rw [step_listed,seedMarks_unlisted,without.notes]
    cases net.skip (k + 1) <;> rfl
  refine ⟨fun e low => ?_, fun e low => ?_, fun e low => ?_, fun e high => ?_, fun c => ?_⟩
  · rw [visited.marks .right e low,answers]
    exact (step_congr (seeds (k + 1)) (seeds e)).trans
      (congrFun (without.step (seedMarks_unlisted _) real) e)
  · conv_rhs => unfold walkWith
    rw [on]
  · rw [visited.dup e low,fresh,unlisted,answers,decide_eq_true right,watching.asked,real]
    unfold followUp
    cases (sign (notesOf (t.cludes (k + 1))) e).isSome <;> simp
  · by_cases here : e = k + 1
    · rw [here,visited.own,if_neg (real ▸ Bool.false_ne_true),hasDup_settled]
    · rw [visited.above e (by omega)]
      exact fresh e
  · have counted := visit_first watching.asked proper right real filled answers fresh
      (fun f => by rw [seeds]; exact seedMarks_unlisted _ f) none c
    have nothing : ¬ (c ∈ t.cludes (k + 1) ∧
      Noticed (walkWith net (act .right) (k + 1) (seedMarks [k + 1])) k
        (step net true (k + 1) (seedMarks [k + 1])) c) := by
      rintro ⟨inside,noticed⟩
      have low := (proper.below _ c inside).2
      unfold Noticed at noticed
      rw [if_pos (by omega),unlisted] at noticed
      exact Bool.false_ne_true noticed.1
    rwa [if_neg nothing]

theorem symdiff_reports {leftlist : List Nat} {count : Int} {k : Nat} (right : t.right = k + 1)
    (proper : Proper t.s.graph t.cludes) (plain : Plain t old)
    (watching : Watching t (t.cludes (k + 1)))
    (left : ∀ d ∈ leftlist, RealSerial t.s.graph d ∧ d < k + 1)
    (real : RealSerial t.s.graph (k + 1)) (without : Bare (t.s.net t.cludes proper) net (k + 1))
    (ran : symdiff t leftlist old count = some st) (c : Clude) :
    st.dups.count c + (if c ∈ t.cludes (k + 1) then 1 else 0) = (t.cludes (k + 1)).count c +
      if c ∈ t.cludes (k + 1) ∧
        (walkWith net (activeFrom (t.s.net t.cludes proper) [k + 1] (k + 1)) (k + 1)
    (seedMarks [k + 1]) c.serial).active =
        c.plus then 1 else 0 := by
  have older : ∀ d ∈ leftlist, d < k + 1 := fun d inside => (left d inside).2
  have start : startOf leftlist t.right = k + 1 := by rw [right]; exact startOf_right older
  have table : t.s.graph.table ≠ 0 := fun empty => by
    have within := real.2.1
    omega
  obtain ⟨seeded,expanding⟩ := seed_expanding count watching.expand proper plain
    (fun d inside => (left d inside).1)
    (.inr (right ▸ real)) table
  have rightSeeds : seedsOf leftlist t.right .right = [k + 1] := by
    rw [right]
    rfl
  have seeds : ∀ e, mark .right ((seed t leftlist (unseeded t old count)).slist e) =
      seedMarks [k + 1] e := by
    intro e
    rw [seeded.marks .right e,rightSeeds]
  rw [start] at expanding
  have unspent : (seed t leftlist (unseeded t old count)).marked ≠ 0 := fun spent => by
    have same := (expanding.keeping.even spent (Nat.succ_ne_zero k) le_rfl).1
    rw [seeds,seeded.marks .left] at same
    have unmarked : seedMarks (seedsOf leftlist t.right .left) (k + 1) = Mark.blank :=
      if_neg fun inside => absurd (older _ inside) (Nat.lt_irrefl _)
    rw [unmarked] at same
    have active := congrArg Mark.active same
    rw [seedMarks_active] at active
    exact Bool.false_ne_true active
  have following := follows_first proper plain watching right.symm real.2.2 without expanding seeds
    seeded.dup seeded.dups
  obtain ⟨spent,stopped,base,followed⟩ := walkDown_follows proper plain watching (Nat.le_succ k)
    (by omega)
    (expanding.visit watching.expand proper plain le_rfl) following fun e other =>
      without.others e (right ▸ other)
  have walked : walkDown t (startOf leftlist t.right) (seed t leftlist (unseeded t old count)) =
      walkDown t k (visit t (k + 1) (seed t leftlist (unseeded t old count))) := by
    rw [start]
    conv_lhs => unfold walkDown
    rw [if_neg unspent]
  have same := Option.some.inj (ran.symm.trans (symdiff_eq walked spent))
  have result := followed.stop stopped.keeping spent (fun c inside => (proper.below _ c inside).1) c
  rw [rightSeeds] at result
  rwa [same]

end BitKeeper.Symdiff

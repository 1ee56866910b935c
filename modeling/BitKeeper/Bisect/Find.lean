import BitKeeper.Bisect.Score

/-!
One call of `bisect` and the whole loop. Every answer takes the cset that was tried out of those
that may be the culprit, so the loop ends, and the last one left is the culprit.
-/

namespace BitKeeper.Bisect

open List Range Dag

open Classical in
noncomputable def remaining (g : Graph) (leftrevs : List Nat) (right : Nat) : Finset Nat :=
  (Finset.range (g.table + 1)).filter fun x =>
    Wanted g (Closure g [right]) (Closure g leftrevs) x ∧ x ≠ right

variable {g : Graph} {x : Nat}

theorem mem_remaining {leftrevs : List Nat} {right : Nat} :
    x ∈ remaining g leftrevs right ↔
      x ≤ g.table ∧ Wanted g (Closure g [right]) (Closure g leftrevs) x ∧ x ≠ right := by
  classical
  unfold remaining
  rw [Finset.mem_filter,Finset.mem_range]
  exact and_congr Nat.lt_succ_iff Iff.rfl

theorem closure_one {d : Nat} : Closure g [d] x ↔ Reach (eachParent g) d x := by
  unfold Closure
  simp

private theorem reach_real {d : Nat} (reached : Reach (eachParent g) d x)
    (real : d ≠ 0 ∧ d ≤ g.table ∧ g.tag d = false) : x ≠ 0 ∧ x ≤ g.table ∧ g.tag x = false := by
  refine reached.invariant (P := fun e => e ≠ 0 ∧ e ≤ g.table ∧ g.tag e = false) real ?_
  intro e f old edge nonzero
  have below := eachParent_descending g e f edge nonzero
  exact ⟨nonzero,by omega,eachParent_real old.2.2 edge⟩

theorem remaining_lt {leftrevs : List Nat} {right : Nat} (inside : x ∈ remaining g leftrevs right) :
    x < right := by
  obtain ⟨_,wanted,other⟩ := mem_remaining.mp inside
  have below := (closure_one.mp wanted.2.2.1).le (eachParent_descending g)
  omega

theorem remaining_convex (g : Graph) (leftrevs : List Nat) (right : Nat) :
    Convex g (remaining g leftrevs right) := by
  refine ⟨?_,?_⟩
  · intro d inside
    obtain ⟨within,wanted,_⟩ := mem_remaining.mp inside
    exact ⟨wanted.1,within,wanted.2.1⟩
  intro d inside outside y insideY reached
  obtain ⟨within,wanted,_⟩ := mem_remaining.mp inside
  obtain ⟨_,wantedY,_⟩ := mem_remaining.mp insideY
  have low := remaining_lt inside
  have below := g.parent_lt d wanted.1
  have deep := reached.le (eachParent_descending g)
  have nonzeroY := wantedY.1
  have parent : g.parent d ≠ 0 := by omega
  -- the parent is left of the candidates, and so is all it reaches
  have closed : Closure g leftrevs (g.parent d) := by
    by_contra apart
    refine outside (mem_remaining.mpr ⟨by omega,⟨parent,g.parent_real d wanted.2.1 parent,?_,apart⟩,
      by omega⟩)
    exact wanted.2.2.1.step (.step (mem_eachParent_parent wanted.1 parent) parent (.self _))
  exact wantedY.2.2.2 (closed.step reached)

structure Sound (g : Graph) (culprit : Nat) (run : Run) : Prop where
  clean : Clean run.s
  unset : ∀ e, (run.s.flags e).set = false
  score : ∀ e, run.op.score e = 0
  left : run.leftrevs ≠ []
  leftReal : RealList g run.leftrevs
  rightReal : run.right ≠ 0 ∧ run.right ≤ g.table ∧ g.tag run.right = false
  bad : Reach (eachParent g) run.right culprit
  good : ¬ Closure g run.leftrevs culprit

theorem zeroAll_apply (score : Nat → Int) (list : List Nat) (e : Nat) :
    zeroAll score list e = if e ∈ list then 0 else score e := by
  unfold zeroAll
  induction list generalizing score with
  | nil => rfl
  | cons d rest ih =>
    rw [foldl_cons,ih]
    split
    next later =>
      rw [if_pos (mem_cons_of_mem d later)]
    rename_i later
    by_cases here : e = d
    · subst here
      rw [Function.update_self,if_pos mem_cons_self]
    · rw [Function.update_of_ne here,if_neg]
      rw [mem_cons,not_or]
      exact ⟨here,later⟩

theorem dropSkipped_apply (score : Nat → Int) (skip : List Nat) (e : Nat) :
    dropSkipped score skip e = if e ∈ skip then 0 else score e := by
  have turn : ∀ (score : Nat → Int) (d : Nat),
      (if score d ≠ 0 then Function.update score d 0 else score) = Function.update score d 0 := by
    intro score d
    split
    case isTrue => rfl
    case isFalse zero =>
        rw [not_not] at zero
        rw [← zero,Function.update_eq_self]
  unfold dropSkipped
  simp only [turn]
  exact zeroAll_apply score skip e

structure Called (g : Graph) (culprit : Nat) (run : Run) (out : Out) : Prop where
  clean : Clean out.s
  unset : ∀ e, (out.s.flags e).set = false
  skip : out.op.skip = run.op.skip
  score : ∀ e, out.op.score e = 0
  ret : (out.ret = .noMore ∧ out.next = culprit) ∨ (out.ret = .noAnswer ∧ run.op.skip ≠ []) ∨
    (out.ret = .tryNext ∧ out.next ∈ remaining g run.leftrevs run.right ∧ out.next ∉ run.op.skip ∧
      (run.op.skip = [] → out.nleft = (remaining g run.leftrevs run.right).card ∧
        ∀ d ∈ remaining g run.leftrevs run.right, worth g (remaining g run.leftrevs run.right) d ≤
          worth g (remaining g run.leftrevs run.right) out.next))

variable {culprit : Nat} {run : Run}

theorem Sound.candidates (sound : Sound g culprit run) {list : List Nat}
    (listing : Lists (Wanted g (Closure g [run.right]) (Closure g run.leftrevs)) g.table list) :
    ∃ rest, list = run.right :: rest ∧ rest.Pairwise (fun x y => y < x) ∧
      (∀ x, x ∈ rest ↔ x ∈ remaining g run.leftrevs run.right) := by
  have tip : run.right ∈ list := by
    refine (listing.mem _).mpr ⟨sound.rightReal.2.1,sound.rightReal.1,sound.rightReal.2.2,
      closure_one.mpr (.self _),?_⟩
    intro closed
    exact sound.good (closed.step sound.bad)
  cases list with
  | nil => cases tip
  | cons first rest =>
    obtain ⟨above,sorted⟩ := pairwise_cons.mp listing.sorted
    have firstIn := (listing.mem first).mp mem_cons_self
    have low := (closure_one.mp firstIn.2.2.2.1).le (eachParent_descending g)
    have same : first = run.right := by
      rcases mem_cons.mp tip with here | later
      · exact here.symm
      · have less := above _ later
        omega
    subst same
    refine ⟨rest,rfl,sorted,?_⟩
    intro x
    rw [mem_remaining]
    constructor
    · intro inside
      have found := (listing.mem x).mp (mem_cons_of_mem _ inside)
      exact ⟨found.1,found.2,Nat.ne_of_lt (above x inside)⟩
    · intro found
      rcases mem_cons.mp ((listing.mem x).mpr ⟨found.1,found.2.1⟩) with here | later
      · exact absurd here found.2.2
      · exact later

variable {q : SortArray}

private theorem choose_called {candlist : List Nat} {best : Best} {rand : Nat}
    (ranked : Ranked g (remaining g run.leftrevs run.right) candlist best)
    (mem : ∀ x, x ∈ candlist ↔ x ∈ remaining g run.leftrevs run.right)
    (size : candlist.length = (remaining g run.leftrevs run.right).card) (some : candlist ≠ [])
    (inRange : ∀ n, n ≠ 0 → n ≤ candlist.length → pickIndex rand n ≤ n) :
    ∃ out, choose q run.op candlist best rand = .ok out ∧ Called g culprit run out := by
  have top : best.highscore ∈ candlist := by
    rcases ranked.top with ⟨none,_⟩ | inside
    · exact absurd none some
    · exact inside
  have candidate := (mem _).mp top
  have nonzero : best.highscore ≠ 0 := ((remaining_convex g _ _).real _ candidate).1
  have unset : ∀ e, (best.s.flags e).set = false := by
    intro e
    by_contra on
    obtain ⟨inside,outside⟩ := (ranked.set e).mp (Bool.of_not_eq_false on)
    exact outside ((mem e).mpr inside)
  -- whatever was taken back before, in the end every score is zero
  have zeroed : ∀ (score : Nat → Int), (∀ e, e ∉ candlist → score e = 0) →
      ∀ e, zeroAll score candlist e = 0 := by
    intro score outside e
    rw [zeroAll_apply]
    split
    · rfl
    · exact outside e ‹_›
  have outside : ∀ e, e ∉ candlist → best.score e = 0 := by
    intro e apart
    exact ranked.others e fun inside => apart ((mem e).mpr inside)
  have outsideDropped : ∀ e, e ∉ candlist → dropSkipped best.score run.op.skip e = 0 := by
    intro e apart
    rw [dropSkipped_apply,outside e apart,ite_self]
  unfold choose
  dsimp only
  rw [if_neg nonzero]
  split
  next fresh =>
    refine ⟨_,rfl,ranked.clean,unset,rfl,zeroed _ outside,.inr (.inr ⟨rfl,candidate,?_,?_⟩)⟩
    · rw [fresh]
      exact not_mem_nil
    intro _
    refine ⟨size,?_⟩
    intro d inside
    have listed := (mem d).mpr inside
    have less := ranked.best d listed
    rw [ranked.ranked d listed,ranked.ranked _ top] at less
    exact Int.ofNat_le.mp less
  rename_i fresh
  have never : ∀ {P : Prop}, run.op.skip = [] → P := fun empty => absurd empty fresh
  split
  next kept =>
    refine ⟨_,rfl,ranked.clean,unset,rfl,zeroed _ outsideDropped,
      .inr (.inr ⟨rfl,candidate,?_,never⟩)⟩
    intro skipped
    rw [dropSkipped_apply,if_pos skipped] at kept
    exact kept rfl
  generalize pairs : (candlist.filter fun d =>
    decide (dropSkipped best.score run.op.skip d ≠ 0)).map
      (fun d => (d, dropSkipped best.score run.op.skip d)) = slist
  split
  · exact ⟨_,rfl,ranked.clean,unset,rfl,zeroed _ outsideDropped,.inr (.inl ⟨rfl,fresh⟩)⟩
  rename_i none
  have short : slist.length ≤ candlist.length := by
    rw [← pairs,length_map]
    exact length_filter_le _ _
  have long : slist.length ≠ 0 := fun zero => none (eq_nil_of_length_eq_zero zero)
  have index := inRange slist.length long short
  have length := (q.perm slist).length_eq
  have within : pickIndex rand slist.length - 1 < (q.sort slist).length := by omega
  rw [getElem?_eq_getElem within]
  refine ⟨_,rfl,ranked.clean,unset,rfl,zeroed _ outsideDropped,.inr (.inr ⟨rfl,?_⟩)⟩
  have drawn : (q.sort slist)[pickIndex rand slist.length - 1] ∈ slist :=
    (q.perm slist).mem_iff.mp (getElem_mem within)
  generalize (q.sort slist)[pickIndex rand slist.length - 1] = p at *
  rw [← pairs] at drawn
  obtain ⟨d,inside,rfl⟩ := mem_map.mp drawn
  obtain ⟨listed,scored⟩ := mem_filter.mp inside
  refine ⟨(mem d).mp listed,?_,never⟩
  intro skipped
  have zero : dropSkipped best.score run.op.skip d = 0 := by rw [dropSkipped_apply,if_pos skipped]
  exact of_decide_eq_true scored zero

private theorem bisect_called {rand : Nat} (sound : Sound g culprit run)
    (inRange : ∀ n, n ≠ 0 → n ≤ g.table → pickIndex rand n ≤ n) :
    ∃ out, bisect q g run.s run.op run.leftrevs run.right rand = .ok out ∧
      Called g culprit run out := by
  have right := sound.rightReal
  have started : ¬ (run.leftrevs = [] ∨ run.right = 0) := by
    rintro (left | zero)
    · exact sound.left left
    · exact right.1 zero
  have one : single run.right = [run.right] := if_neg right.1
  have realRight : RealList g [run.right] := one ▸ single_real right.2.1 fun _ => right.2.2
  obtain ⟨listing,clean⟩ := collect_wanted sound.clean realRight sound.leftReal
  have kept := collect_kept g run.s run.leftrevs (some [run.right]) Mode.plain
  unfold bisect
  rw [if_neg started,one]
  generalize walkrevs_collect g run.s run.leftrevs (some [run.right]) Mode.plain = collected at *
  obtain ⟨s,list⟩ := collected
  obtain ⟨rest,rfl,sorted,mem⟩ := sound.candidates listing
  have unset : ∀ e, (s.flags e).set = false := fun e => (kept.set e).trans (sound.unset e)
  have nodup : rest.Nodup := sorted.imp fun less => Nat.ne_of_gt less
  cases rest with
  | nil =>
    -- only the tip is left, and the culprit is among what is left
    have found : run.right = culprit := by
      by_contra other
      have real := reach_real sound.bad right
      have left := mem_remaining.mpr ⟨real.2.1,
        ⟨real.1,real.2.2,closure_one.mpr sound.bad,sound.good⟩,Ne.symm other⟩
      exact absurd ((mem culprit).mpr left) not_mem_nil
    refine ⟨_,rfl,clean,unset,rfl,?_,.inl ⟨rfl,found⟩⟩
    intro e
    change zeroAll run.op.score [run.right] e = 0
    rw [zeroAll_apply,sound.score e,ite_self]
  | cons d others =>
    have size : (d :: others).length = (remaining g run.leftrevs run.right).card := by
      have same : (d :: others).toFinset = remaining g run.leftrevs run.right := by
        ext x
        rw [mem_toFinset,mem]
      rw [← same,toFinset_card_of_nodup nodup]
    have convex := remaining_convex g run.leftrevs run.right
    have start : Scored g (remaining g run.leftrevs run.right) [] (s, run.op.score) := by
      refine ⟨clean,?_,?_⟩
      · intro e
        rw [unset e]
        simp
      · intro e
        dsimp only
        rw [sound.score e,if_neg not_mem_nil]
    have scored := Scored.loop convex (d :: others).reverse start (pairwise_reverse.mpr sorted) (by
      intro y
      rw [nil_append,mem_reverse]
      exact mem y)
    rw [nil_append] at scored
    have begun : Ranked g (remaining g run.leftrevs run.right) []
        ⟨((d :: others).reverse.foldl (scoreAt g) (s, run.op.score)).1,
          ((d :: others).reverse.foldl (scoreAt g) (s, run.op.score)).2,0⟩ := by
      have listed : ∀ e, e ∈ (d :: others).reverse ↔ e ∈ remaining g run.leftrevs run.right := by
        intro e
        rw [mem_reverse]
        exact mem e
      refine ⟨scored.clean,?_,?_,?_,?_,.inl ⟨rfl,rfl⟩,?_⟩
      · intro e
        rw [scored.set e,listed e]
        simp
      · intro e inside
        cases inside
      · intro e candidate _
        dsimp only
        rw [scored.score e,if_pos ((listed e).mpr candidate)]
      · intro e outside
        dsimp only
        rw [scored.score e,if_neg (fun inside => outside ((listed e).mp inside))]
      · intro e inside
        cases inside
    have ranked := Ranked.loop (fun e inside => (convex.real e inside).1) (d :: others) begun
      (by rw [nil_append]; exact nodup)
      (by
        intro e inside
        exact (mem e).mp inside)
    rw [nil_append] at ranked
    refine choose_called ?_ mem size (cons_ne_nil d others) ?_
    · rwa [size]
    intro n nonzero within
    refine inRange n nonzero (Nat.le_trans within ?_)
    rw [size]
    refine Nat.le_trans (Finset.card_le_card (t := Finset.Icc 1 g.table) ?_) ?_
    · intro x inside
      have real := convex.real x inside
      exact Finset.mem_Icc.mpr ⟨Nat.one_le_iff_ne_zero.mpr real.1,real.2.1⟩
    · rw [Nat.card_Icc]
      omega

/-- A cset is bad if it has the culprit; a script may also say that it cannot
tell. -/
def Truthful (g : Graph) (culprit : Nat) (script : Nat → Nat → Script) : Prop :=
  ∀ k d, d ≠ 0 → d ≤ g.table → script k d = .untestable ∨
    (script k d = .fail ∧ Reach (eachParent g) d culprit) ∨
    (script k d = .success ∧ ¬ Reach (eachParent g) d culprit)

/-- A cset that is tried is an untried candidate, and the middlemost one if nothing was skipped. -/
structure Proposed (g : Graph) (turn : Turn) : Prop where
  candidate : turn.next ∈ remaining g turn.leftrevs turn.right
  unskipped : turn.next ∉ turn.skip
  best : turn.skip = [] → turn.nleft = (remaining g turn.leftrevs turn.right).card ∧
    ∀ d ∈ remaining g turn.leftrevs turn.right, worth g (remaining g turn.leftrevs turn.right) d ≤
        worth g (remaining g turn.leftrevs turn.right) turn.next

noncomputable def untried (g : Graph) (run : Run) : Finset Nat :=
  remaining g run.leftrevs run.right \ run.op.skip.toFinset

theorem mem_untried :
    x ∈ untried g run ↔ x ∈ remaining g run.leftrevs run.right ∧ x ∉ run.op.skip := by
  unfold untried
  rw [Finset.mem_sdiff,mem_toFinset]

theorem answered_sound {out : Out} {answer : Script} (sound : Sound g culprit run)
    (called : Called g culprit run out) (candidate : out.next ∈ remaining g run.leftrevs run.right)
    (truthful : answer = .untestable ∨ (answer = .fail ∧ Reach (eachParent g) out.next culprit) ∨
      (answer = .success ∧ ¬ Reach (eachParent g) out.next culprit)) :
    Sound g culprit (answered ⟨out.s,out.op,run.leftrevs,run.right⟩ out.next answer) ∧
      ∀ x, x ∈ untried g (answered ⟨out.s,out.op,run.leftrevs,run.right⟩ out.next answer) →
        x ∈ untried g run ∧ x ≠ out.next := by
  obtain ⟨within,wanted,_⟩ := mem_remaining.mp candidate
  have real := (remaining_convex g _ _).real _ candidate
  rcases truthful with rfl | ⟨rfl,bad⟩ | ⟨rfl,good⟩
  · refine ⟨⟨called.clean,called.unset,called.score,sound.left,sound.leftReal,sound.rightReal,
      sound.bad,sound.good⟩,?_⟩
    intro x inside
    rw [mem_untried] at inside ⊢
    obtain ⟨left,fresh⟩ := inside
    change x ∉ out.op.skip ++ [out.next] at fresh
    rw [called.skip,mem_append,mem_singleton,not_or] at fresh
    exact ⟨⟨left,fresh.1⟩,fresh.2⟩
  · refine ⟨⟨called.clean,called.unset,called.score,sound.left,sound.leftReal,real,bad, sound.good⟩,
      ?_⟩
    intro x inside
    rw [mem_untried] at inside ⊢
    obtain ⟨left,fresh⟩ := inside
    change x ∈ remaining g run.leftrevs out.next at left
    change x ∉ out.op.skip at fresh
    rw [called.skip] at fresh
    have below := remaining_lt left
    have low := remaining_lt candidate
    obtain ⟨withinX,wantedX,other⟩ := mem_remaining.mp left
    have closed := wanted.2.2.1.step (closure_one.mp wantedX.2.2.1)
    exact ⟨⟨mem_remaining.mpr ⟨withinX,⟨wantedX.1,wantedX.2.1,closed,wantedX.2.2.2⟩,by omega⟩,
      fresh⟩,other⟩
  · have closureSplit : ∀ x, Closure g (run.leftrevs ++ [out.next]) x ↔
        Closure g run.leftrevs x ∨ Reach (eachParent g) out.next x := by
      intro x
      unfold Closure
      simp only [mem_append,mem_singleton,or_and_right,exists_or,exists_eq_left]
    refine ⟨⟨called.clean,called.unset,called.score,?_,?_,sound.rightReal,sound.bad,?_⟩,?_⟩
    · exact fun empty => absurd (append_eq_nil_iff.mp empty).2 (cons_ne_nil _ _)
    · intro e inside
      rcases mem_append.mp inside with old | new
      · exact sound.leftReal e old
      · exact mem_singleton.mp new ▸ real
    · intro closed
      rcases (closureSplit culprit).mp closed with old | new
      · exact sound.good old
      · exact good new
    · intro x inside
      rw [mem_untried] at inside ⊢
      obtain ⟨left,fresh⟩ := inside
      change x ∉ out.op.skip at fresh
      rw [called.skip] at fresh
      obtain ⟨withinX,wantedX,other⟩ := mem_remaining.mp left
      have apart : ¬ (Closure g run.leftrevs x ∨ Reach (eachParent g) out.next x) := fun either =>
        wantedX.2.2.2 ((closureSplit x).mpr either)
      rw [not_or] at apart
      refine ⟨⟨mem_remaining.mpr ⟨withinX,⟨wantedX.1,wantedX.2.1,wantedX.2.2.1,apart.1⟩,other⟩,
        fresh⟩,?_⟩
      intro same
      exact apart.2 (same ▸ .self _)

structure Searched (g : Graph) (culprit : Nat) (run : Run) (turns : List Turn) (final : Final) :
    Prop where
  proposed : ∀ turn ∈ turns, Proposed g turn
  untried : ∀ turn ∈ turns, turn.next ∈ untried g run
  once : (turns.map Turn.next).Nodup
  ends : final = .found culprit ∨ final = .noAnswer
  testable : run.op.skip = [] → (∀ turn ∈ turns, turn.answer ≠ .untestable) →
    final = .found culprit ∧ ∀ turn ∈ turns, turn.skip = []

theorem bisectLoop_searched {script : Nat → Nat → Script} {rand : Nat → Nat}
    (truthful : Truthful g culprit script)
    (inRange : ∀ k n, n ≠ 0 → n ≤ g.table → pickIndex (rand k) n ≤ n) {fuel k : Nat}
    (sound : Sound g culprit run) (enough : (untried g run).card < fuel) :
    ∃ turns final, bisectLoop q g script rand fuel k run = .ok (turns, final) ∧
      Searched g culprit run turns final := by
  induction fuel generalizing k run with
  | zero => omega
  | succ fuel ih =>
    obtain ⟨out,ran,called⟩ := bisect_called (q := q) sound (inRange k)
    unfold bisectLoop
    rw [ran]
    dsimp only [Except.bind]
    rcases called.ret with ⟨ret,next⟩ | ⟨ret,skipped⟩ | ⟨ret,candidate,fresh,best⟩
    · rw [ret,next]
      refine ⟨[],.found culprit,rfl,?_,?_,nodup_nil,.inl rfl,?_⟩
      · intro turn inside
        cases inside
      · intro turn inside
        cases inside
      · intro _ _
        exact ⟨rfl,nofun⟩
    · rw [ret]
      refine ⟨[],.noAnswer,rfl,?_,?_,nodup_nil,.inr rfl,?_⟩
      · intro turn inside
        cases inside
      · intro turn inside
        cases inside
      · intro none
        exact absurd none skipped
    rw [ret]
    have real := (remaining_convex g _ _).real _ candidate
    have answer := truthful k out.next real.1 real.2.1
    have going : script k out.next ≠ .abort := by
      rcases answer with same | ⟨same,_⟩ | ⟨same,_⟩
      all_goals
        rw [same]
        decide
    rw [if_neg going]
    obtain ⟨soundNext,shrinks⟩ := answered_sound sound called candidate answer
    have tried : out.next ∈ untried g run := mem_untried.mpr ⟨candidate,fresh⟩
    have less : (untried g (answered ⟨out.s,out.op,run.leftrevs,run.right⟩ out.next
        (script k out.next))).card < (untried g run).card := by
      refine Finset.card_lt_card (Finset.ssubset_iff_of_subset ?_ |>.mpr ⟨out.next,tried,?_⟩)
      · intro x inside
        exact (shrinks x inside).1
      · intro inside
        exact (shrinks _ inside).2 rfl
    obtain ⟨turns,final,ranRest,searched⟩ := ih (k := k + 1) soundNext (by omega)
    rw [ranRest]
    refine ⟨_,_,rfl,forall_mem_cons.mpr ⟨⟨candidate,fresh,best⟩,searched.proposed⟩,
      forall_mem_cons.mpr ⟨tried,fun turn later => (shrinks _ (searched.untried turn later)).1⟩, ?_,
      searched.ends,?_⟩
    · refine nodup_cons.mpr ⟨?_,searched.once⟩
      intro again
      obtain ⟨turn,inside,same⟩ := mem_map.mp again
      exact (shrinks _ (searched.untried turn inside)).2 same
    intro none testable
    have first := testable _ mem_cons_self
    have kept : (answered ⟨out.s,out.op,run.leftrevs,run.right⟩ out.next
        (script k out.next)).op.skip = [] := by
      rcases answer with same | ⟨same,_⟩ | ⟨same,_⟩
      · exact absurd same first
      · rw [same]
        exact called.skip.trans none
      · rw [same]
        exact called.skip.trans none
    obtain ⟨found,empty⟩ := searched.testable kept fun turn inside =>
      testable turn (mem_cons_of_mem _ inside)
    exact ⟨found,forall_mem_cons.mpr ⟨none,empty⟩⟩

def sortScores : SortArray where
  sort list := list.insertionSort fun a b => b.2 ≤ a.2
  perm list := perm_insertionSort _ list
  sorted list := pairwise_insertionSort _ list

def fiveCsets : Graph where
  table := 5
  parent d := d - 1
  parent_lt := by intro d real; omega

def thirdUntestable (_k d : Nat) : Script :=
  if d = 3 then .untestable else if d < 5 then .success else .fail

theorem thirdUntestable_truthful : Truthful fiveCsets 5 thirdUntestable := by
  intro k d nonzero within
  have within5 : d ≤ 5 := within
  unfold thirdUntestable
  by_cases three : d = 3
  · exact .inl (if_pos three)
  rw [if_neg three]
  by_cases low : d < 5
  · refine .inr (.inr ⟨if_pos low,?_⟩)
    intro reached
    have above := reached.le (eachParent_descending fiveCsets)
    omega
  · have same : d = 5 := by omega
    subst same
    exact .inr (.inl ⟨if_neg low,.self 5⟩)

end BitKeeper.Bisect

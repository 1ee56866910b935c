import BitKeeper.Bisect.Model

/-!
The score of a candidate counts the candidates among its ancestors and itself. The second loop turns
a count into its distance from the ends and remembers the newest candidate with the highest score.
-/

namespace BitKeeper.Bisect

open List Function Range Dag

theorem countLoop_collect (g : Graph) (fuel : Nat) (w : Walk) (n : Int) (before : List Nat) :
    (countLoop g fuel w n).1 = (collectLoop g fuel w before).1 ∧
      ∃ list, (collectLoop g fuel w before).2 = before ++ list ∧
        (countLoop g fuel w n).2 = n + (list.filter fun y => (w.s.flags y).set).length := by
  induction fuel generalizing w n before with
  | zero => exact ⟨rfl,[],(append_nil before).symm,(Int.add_zero n).symm⟩
  | succ fuel ih =>
    have kept : Kept w.s (walkrevs g w).1.s := walkFrom_kept g _ w
    unfold countLoop collectLoop
    by_cases last : (walkrevs g w).2 = 0
    · rw [if_pos last,if_pos last]
      exact ⟨rfl,[],(append_nil before).symm,(Int.add_zero n).symm⟩
    rw [if_neg last,if_neg last,kept.set]
    obtain ⟨same,list,collected,counted⟩ := ih (walkrevs g w).1
      (if (w.s.flags (walkrevs g w).2).set = true then n + 1 else n) (before ++ [(walkrevs g w).2])
    refine ⟨same,(walkrevs g w).2 :: list,?_,?_⟩
    · rw [collected,append_assoc]
      rfl
    · rw [counted,filter_congr fun y _ => kept.set y, filter_cons]
      by_cases set : (w.s.flags (walkrevs g w).2).set = true
      · rw [if_pos set,if_pos set,length_cons]
        omega
      · rw [if_neg set,if_neg set]

variable {g : Graph}

theorem count_spec {s : Sccs} {red blue : List Nat} (clean : Clean s) (realRed : RealList g red)
    (realBlue : RealList g blue) (n : Int) {out : Walk × Int}
    (ran : out = countLoop g (g.table + 2) (walkrevs_setup g s blue (some red) Mode.plain) n) :
    Clean (walkrevs_done out.1) ∧ Kept { s with rstop := 0 } (walkrevs_done out.1) ∧
      ∃ list, Lists (Wanted g (Closure g red) (Closure g blue)) g.table list ∧
        out.2 = n + (list.filter fun y => (s.flags y).set).length := by
  obtain ⟨lists,cleaned⟩ := collect_wanted clean realRed realBlue
  have kept := collect_kept g s blue (some red) Mode.plain
  obtain ⟨same,list,collected,counted⟩ :=
    countLoop_collect g (g.table + 2) (walkrevs_setup g s blue (some red) Mode.plain) n []
  unfold walkrevs_collect at lists cleaned kept
  dsimp only at lists cleaned kept
  rw [collected,nil_append] at lists
  rw [← same] at cleaned kept
  refine ⟨ran ▸ cleaned,ran ▸ kept,list,lists,?_⟩
  rw [ran,counted,filter_congr fun y _ => (setup_kept g s blue (some red) Mode.plain).set y]

structure Convex (g : Graph) (cands : Finset Nat) : Prop where
  real : ∀ d ∈ cands, d ≠ 0 ∧ d ≤ g.table ∧ g.tag d = false
  leaves : ∀ d ∈ cands, g.parent d ∉ cands → ∀ y ∈ cands, ¬ Reach (eachParent g) (g.parent d) y

open Classical in
noncomputable def ancestors (g : Graph) (cands : Finset Nat) (d : Nat) : Finset Nat :=
  cands.filter fun y => Reach (eachParent g) d y

structure Scored (g : Graph) (cands : Finset Nat) (done : List Nat) (state : Sccs × (Nat → Int)) :
    Prop where
  clean : Clean state.1
  set : ∀ e, (state.1.flags e).set = true ↔ e ∈ done
  score : ∀ e, state.2 e = if e ∈ done then ((ancestors g cands e).card : Int) else 0

variable {d : Nat}

theorem parent_reaches {y : Nat} (nonzero : d ≠ 0) (parent : g.parent d ≠ 0)
    (reached : Reach (eachParent g) (g.parent d) y) : Reach (eachParent g) d y :=
  .step (mem_eachParent_parent nonzero parent) parent reached

theorem closure_single {e y : Nat} : Closure g (single e) y ↔ e ≠ 0 ∧ Reach (eachParent g) e y := by
  unfold Closure single
  by_cases zero : e = 0
  · simp [zero]
  · simp [zero]

variable {cands : Finset Nat}

open Classical in
theorem ancestors_split (nonzero : d ≠ 0) {between : List Nat} (nodup : between.Nodup)
    (mem : ∀ y, y ∈ between ↔ y ∈ cands ∧ Reach (eachParent g) d y ∧
      ¬ Closure g (single (g.parent d)) y) :
    (ancestors g cands d).card =
      (cands.filter fun y => Closure g (single (g.parent d)) y).card + between.length := by
  have first : (ancestors g cands d).filter (fun y => Closure g (single (g.parent d)) y) =
      cands.filter fun y => Closure g (single (g.parent d)) y := by
    unfold ancestors
    rw [Finset.filter_filter]
    refine Finset.filter_congr ?_
    intro y _
    refine ⟨fun both => both.2, fun closed => ⟨?_,closed⟩⟩
    obtain ⟨parent,reached⟩ := closure_single.mp closed
    exact parent_reaches nonzero parent reached
  have second : (ancestors g cands d).filter (fun y => ¬ Closure g (single (g.parent d)) y) =
      between.toFinset := by
    ext y
    unfold ancestors
    rw [mem_toFinset,mem,Finset.mem_filter,Finset.mem_filter,and_assoc]
  rw [← first,← toFinset_card_of_nodup nodup,← second]
  exact (Finset.card_filter_add_card_filter_not _).symm

variable {done : List Nat}

open Classical in
theorem Scored.first {state : Sccs × (Nat → Int)} (scored : Scored g cands done state)
    (convex : Convex g cands) (candidate : d ∈ cands) (inside : ∀ y, y ∈ done ↔ y ∈ cands ∧ y < d) :
    state.2 (g.parent d) = ((cands.filter fun y => Closure g (single (g.parent d)) y).card : Int) :=
  by
  have nonzero := (convex.real d candidate).1
  have below := g.parent_lt d nonzero
  rw [scored.score]
  by_cases listed : g.parent d ∈ cands
  · have parent := (convex.real _ listed).1
    rw [if_pos ((inside _).mpr ⟨listed,below⟩)]
    congr 2
    refine Finset.filter_congr ?_
    intro y _
    rw [closure_single]
    simp only [parent,ne_eq,not_false_eq_true,true_and]
  · rw [if_neg (fun done => listed ((inside _).mp done).1)]
    have none : (cands.filter fun y => Closure g (single (g.parent d)) y) = ∅ := by
      rw [Finset.filter_eq_empty_iff]
      intro y candidateY closed
      exact convex.leaves d candidate listed y candidateY (closure_single.mp closed).2
    rw [none]
    rfl

theorem single_real {e : Nat} (within : e ≤ g.table) (real : e ≠ 0 → g.tag e = false) :
    RealList g (single e) := by
  unfold RealList single
  by_cases zero : e = 0
  · simp [zero]
  · simp [zero,within,real zero]

theorem Scored.step {state : Sccs × (Nat → Int)} (scored : Scored g cands done state)
    (convex : Convex g cands) (candidate : d ∈ cands) (inside : ∀ y, y ∈ done ↔ y ∈ cands ∧ y < d) :
    Scored g cands (done ++ [d]) (scoreAt g state d) := by
  obtain ⟨nonzero,within,real⟩ := convex.real d candidate
  have below := g.parent_lt d nonzero
  have first := scored.first convex candidate inside
  -- the flag of the candidate is on before its walk
  have flags : ∀ e, ((state.1.update d fun f => { f with set := true }).flags e) =
      if e = d then { state.1.flags e with set := true } else state.1.flags e := fun e =>
    update_flags state.1 d e _
  have clean : Clean (state.1.update d fun f => { f with set := true }) := by
    intro e
    rw [flags e]
    split
    · exact scored.clean e
    · exact scored.clean e
  have set : ∀ e, ((state.1.update d fun f => { f with set := true }).flags e).set = true ↔
      e ∈ done ++ [d] := by
    intro e
    rw [flags e,mem_append,mem_singleton]
    by_cases here : e = d
    · simp [here]
    · rw [if_neg here,scored.set e]
      simp only [here,or_false]
  unfold scoreAt
  dsimp only
  generalize (state.1.update d fun f => { f with set := true }) = s at *
  have realParent : RealList g (single (g.parent d)) := single_real (by omega) (g.parent_real d real)
  obtain ⟨cleanAfter,kept,list,listing,counted⟩ :=
    count_spec clean (single_real within fun _ => real) realParent (state.2 (g.parent d)) rfl
  generalize countLoop g (g.table + 2) (walkrevs_setup g s (single (g.parent d)) (some (single d))
    Mode.plain) (state.2 (g.parent d)) = out at *
  have mem : ∀ y, y ∈ (list.filter fun y => (s.flags y).set) ↔
      y ∈ cands ∧ Reach (eachParent g) d y ∧ ¬ Closure g (single (g.parent d)) y := by
    intro y
    rw [mem_filter,listing.mem,set y,mem_append,mem_singleton,inside y]
    unfold Wanted
    rw [closure_single (e := d)]
    constructor
    · rintro ⟨⟨_,_,_,⟨_,reached⟩,apart⟩,listed⟩
      refine ⟨?_,reached,apart⟩
      rcases listed with old | rfl
      · exact old.1
      · exact candidate
    · rintro ⟨candidateY,reached,apart⟩
      obtain ⟨nonzeroY,withinY,realY⟩ := convex.real y candidateY
      have low := reached.le (eachParent_descending g)
      refine ⟨⟨withinY,nonzeroY,realY,⟨nonzero,reached⟩,apart⟩,?_⟩
      by_cases here : y = d
      · exact Or.inr here
      · exact Or.inl ⟨candidateY,by omega⟩
  have nodup : (list.filter fun y => (s.flags y).set).Nodup :=
    (listing.sorted.imp fun less => Nat.ne_of_gt less).filter _
  have split := ancestors_split nonzero nodup mem
  refine ⟨cleanAfter,?_,?_⟩
  · intro e
    rw [kept.set e]
    exact set e
  intro e
  dsimp only
  by_cases here : e = d
  · subst here
    rw [update_self,counted,first,if_pos (mem_append_right _ mem_cons_self),split]
    exact (Nat.cast_add _ _).symm
  · rw [update_of_ne here,scored.score e]
    simp only [mem_append,mem_singleton,here,or_false]

theorem Scored.loop (convex : Convex g cands) (rest : List Nat) :
    ∀ {done : List Nat} {state : Sccs × (Nat → Int)}, Scored g cands done state →
      (done ++ rest).Pairwise (· < ·) → (∀ y, y ∈ done ++ rest ↔ y ∈ cands) →
      Scored g cands (done ++ rest) (rest.foldl (scoreAt g) state) := by
  induction rest with
  | nil =>
    intro done state scored _ _
    rwa [append_nil]
  | cons d rest ih =>
    intro done state scored sorted mem
    have candidate : d ∈ cands := (mem d).mp (mem_append_right _ mem_cons_self)
    obtain ⟨_,sortedRest,apart⟩ := pairwise_append.mp sorted
    have inside : ∀ y, y ∈ done ↔ y ∈ cands ∧ y < d := by
      intro y
      constructor
      · intro old
        exact ⟨(mem y).mp (mem_append_left _ old),apart y old d mem_cons_self⟩
      intro found
      rcases mem_append.mp ((mem y).mpr found.1) with old | new
      · exact old
      · rcases mem_cons.mp new with same | later
        · exact absurd found.2 (same ▸ Nat.lt_irrefl d)
        · have above := (pairwise_cons.mp sortedRest).1 y later
          omega
    have next := scored.step convex candidate inside
    have split : done ++ d :: rest = (done ++ [d]) ++ rest := append_cons done d rest
    rw [foldl_cons,split]
    exact ih next (split ▸ sorted) (split ▸ mem)

noncomputable def worth (g : Graph) (cands : Finset Nat) (d : Nat) : Nat :=
  min (ancestors g cands d).card (cands.card - (ancestors g cands d).card + 1)

theorem ancestors_pos (candidate : d ∈ cands) : 0 < (ancestors g cands d).card := by
  refine Finset.card_pos.mpr ⟨d,?_⟩
  classical
  exact Finset.mem_filter.mpr ⟨candidate,.self d⟩

private theorem ancestors_le (g : Graph) (cands : Finset Nat) (d : Nat) :
    (ancestors g cands d).card ≤ cands.card := by
  classical
  exact Finset.card_filter_le _ _

private theorem worth_pos (candidate : d ∈ cands) : 0 < worth g cands d := by
  have positive := ancestors_pos (g := g) candidate
  unfold worth
  omega

structure Ranked (g : Graph) (cands : Finset Nat) (done : List Nat) (b : Best) : Prop where
  clean : Clean b.s
  set : ∀ e, (b.s.flags e).set = true ↔ e ∈ cands ∧ e ∉ done
  ranked : ∀ e, e ∈ done → b.score e = worth g cands e
  counted : ∀ e, e ∈ cands → e ∉ done → b.score e = (ancestors g cands e).card
  others : ∀ e, e ∉ cands → b.score e = 0
  top : (done = [] ∧ b.highscore = 0) ∨ b.highscore ∈ done
  best : ∀ e, e ∈ done → b.score e ≤ b.score b.highscore

theorem Ranked.step {b : Best} (ranked : Ranked g cands done b) (real : ∀ d ∈ cands, d ≠ 0)
    (candidate : d ∈ cands) (new : d ∉ done) :
    Ranked g cands (done ++ [d]) (bestAt cands.card b d) := by
  have value : min (b.score d) (cands.card - b.score d + 1) = (worth g cands d : Int) := by
    have few := ancestors_le g cands d
    rw [ranked.counted d candidate new]
    unfold worth
    omega
  have flags : ∀ e, ((b.s.update d fun f => { f with set := false }).flags e) =
      if e = d then { b.s.flags e with set := false } else b.s.flags e := fun e =>
    update_flags b.s d e _
  have positive := worth_pos (g := g) candidate
  unfold bestAt
  dsimp only
  rw [value,update_self]
  have kept : ∀ e, e ≠ d → update b.score d (worth g cands d : Int) e = b.score e :=
    fun e other => update_of_ne other ..
  have here : update b.score d (worth g cands d : Int) d = worth g cands d := update_self ..
  have apart : b.highscore ≠ d := by
    rcases ranked.top with ⟨_,zero⟩ | inside
    · intro same
      exact real d candidate (same.symm.trans zero)
    · intro same
      exact new (same ▸ inside)
  refine ⟨?_,?_,?_,?_,?_,?_,?_⟩
  · intro e
    rw [flags e]
    split
    · exact ranked.clean e
    · exact ranked.clean e
  · intro e
    rw [flags e,mem_append,mem_singleton]
    by_cases same : e = d
    · simp [same]
    · rw [if_neg same,ranked.set e]
      simp only [same,or_false]
  · intro e inside
    rcases mem_append.mp inside with old | last
    · have other : e ≠ d := fun same => new (same ▸ old)
      exact (kept e other).trans (ranked.ranked e old)
    · rwa [mem_singleton.mp last]
  · intro e candidateE outside
    rw [mem_append,mem_singleton,not_or] at outside
    exact (kept e outside.2).trans (ranked.counted e candidateE outside.1)
  · intro e outside
    have other : e ≠ d := fun same => outside (same ▸ candidate)
    exact (kept e other).trans (ranked.others e outside)
  · right
    split
    case isTrue => exact mem_append_right _ (mem_singleton.mpr rfl)
    case isFalse worse =>
        rcases ranked.top with ⟨_,zero⟩ | inside
        · have outside : b.highscore ∉ cands := fun inside => real _ inside zero
          rw [kept _ apart,ranked.others _ outside] at worse
          omega
        · exact mem_append_left _ inside
  · intro e inside
    dsimp only
    have old : ∀ e, e ∈ done → e ≠ d := fun e inside same => new (same ▸ inside)
    split
    case isTrue better =>
        rw [kept _ apart] at better
        rcases mem_append.mp inside with before | last
        · have less := ranked.best e before
          rw [kept e (old e before),here]
          omega
        · rw [mem_singleton.mp last]
    case isFalse worse =>
        rw [kept _ apart] at worse ⊢
        rcases mem_append.mp inside with before | last
        · rw [kept e (old e before)]
          exact ranked.best e before
        · rw [mem_singleton.mp last,here]
          omega

theorem Ranked.loop (real : ∀ d ∈ cands, d ≠ 0) (rest : List Nat) :
    ∀ {done : List Nat} {b : Best}, Ranked g cands done b → (done ++ rest).Nodup →
      (∀ e ∈ done ++ rest, e ∈ cands) →
      Ranked g cands (done ++ rest) (rest.foldl (bestAt cands.card) b) := by
  induction rest with
  | nil =>
    intro done b ranked _ _
    rwa [append_nil]
  | cons d rest ih =>
    intro done b ranked nodup listed
    have split : done ++ d :: rest = (done ++ [d]) ++ rest := append_cons done d rest
    have candidate := listed d (mem_append_right _ mem_cons_self)
    have new : d ∉ done := by
      intro old
      exact (nodup_append.mp nodup).2.2 d old d mem_cons_self rfl
    have next := ranked.step real candidate new
    rw [foldl_cons,split]
    exact ih next (split ▸ nodup) (split ▸ listed)

end BitKeeper.Bisect
